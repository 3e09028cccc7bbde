import Codemod.Call.Head

/-!
# Occurrences of a Call Head

Where the head of a call stands in a text, said without the search.

`CallHead.split?` finds the leftmost occurrence. It stops at the first place
where the head fits, and that no occurrence starts earlier is a fact about the
gap and the head alone: the text behind the head has no part in it.

Texts are put together from parts throughout the pass, so the question is what
happens where two parts meet. An occurrence in the whole lies in one of the
parts or straddles the seam. It can straddle only when the end of one part is
the start of the head and the start of the other part its end, and one
character next to the seam that the head does not hold in that place rules this
out.

## Main definitions

* `Text.IsLeftmost`: No occurrence starts before a given one.
* `Text.Straddles`: An occurrence that lies across a seam.

## Theorems

* `Text.occurrence_append`: Where an occurrence in two joined texts lies.
* `CallHead.split?_eq_some_iff`, `CallHead.split?_eq_none_iff`: What the search
  finds, and when it finds nothing.
* `CallHead.split?_append`: The search goes past a text without the head.
* `Text.not_straddles_of_head`, `Text.not_straddles_of_last`: Seams that no
  occurrence lies across.
-/

namespace Codemod

namespace Text

/-- No occurrence of `head` in the text `gap ++ head ++ rest` starts before the
    one behind the gap. -/
def IsLeftmost (head gap rest : Text) : Prop :=
  ∀ a b : Text, gap ++ (head ++ rest) = a ++ (head ++ b) → gap.length ≤ a.length

/-- A part of `head`, but not all of it, ends `s`, and what is left of it starts
    `t`. -/
def Straddles (head s t : Text) : Prop :=
  ∃ x y : Text, x ≠ [] ∧ y ≠ [] ∧ head = x ++ y ∧ x <:+ s ∧ y <+: t

-- An occurrence before the gap ends would end before the head does, so the text
-- behind the head does not matter.
theorem IsLeftmost.congr {head gap rest : Text} (h : IsLeftmost head gap rest) (rest' : Text) :
    IsLeftmost head gap rest' := by
  intro a b e
  refine Nat.not_lt.1 fun hlt => ?_
  have ha : a ++ head <+: gap ++ (head ++ rest') := ⟨b, by rw [List.append_assoc, e]⟩
  have hgap : gap ++ head <+: gap ++ (head ++ rest') := ⟨rest', List.append_assoc _ _ _⟩
  -- Both end in the head, and the one with the shorter text before it is shorter.
  have hp : a ++ head <+: gap ++ head := by
    refine List.prefix_of_prefix_length_le ha hgap ?_
    rw [List.length_append, List.length_append]
    omega
  rcases hp with ⟨c, hc⟩
  refine Nat.not_le_of_lt hlt (h a (c ++ rest) ?_)
  rw [← List.append_assoc, ← hc]
  simp only [List.append_assoc]

theorem IsLeftmost.not_infix {head gap rest : Text} (h : IsLeftmost head gap rest)
    (hne : head ≠ []) : ¬head <:+: gap := by
  rintro ⟨a, b, rfl⟩
  have hle := h a (b ++ (head ++ rest)) (by simp only [List.append_assoc])
  have hpos := List.length_pos_iff.2 hne
  simp only [List.length_append] at hle
  omega

theorem IsLeftmost.gap_prefix {head gap rest a b : Text} (h : IsLeftmost head gap rest)
    (e : gap ++ (head ++ rest) = a ++ (head ++ b)) : gap <+: a :=
  List.prefix_of_prefix_length_le ⟨_, e⟩ (List.prefix_append a _) (h a b e)

/-! ## Seams -/

/-- An occurrence in two joined texts lies in the first, in the second, or across
    the seam. -/
theorem occurrence_append {head s t a b : Text} (e : s ++ t = a ++ (head ++ b)) :
    (∃ b', s = a ++ (head ++ b') ∧ b = b' ++ t) ∨
      (∃ a', a = s ++ a' ∧ t = a' ++ (head ++ b)) ∨ Straddles head s t := by
  rcases List.append_eq_append_iff.1 e with ⟨a', ha, ht⟩ | ⟨x, hs, hx⟩
  · exact Or.inr (Or.inl ⟨a', ha, ht⟩)
  · rcases List.append_eq_append_iff.1 hx with ⟨b', hx', hb⟩ | ⟨y, rfl, ht⟩
    · exact Or.inl ⟨b', by rw [hs, hx'], hb⟩
    · -- The seam cuts the head in two, unless one of the pieces is empty.
      by_cases hx0 : x = []
      · rw [hx0, List.append_nil] at hs
        refine Or.inr (Or.inl ⟨[], by rw [hs, List.append_nil], ?_⟩)
        rw [hx0, List.nil_append, List.nil_append]
        exact ht
      · by_cases hy0 : y = []
        · rw [hy0, List.nil_append] at ht
          refine Or.inl ⟨[], by rw [hy0, List.append_nil, List.append_nil, hs], ?_⟩
          rw [ht, List.nil_append]
        · exact Or.inr (Or.inr ⟨x, y, hx0, hy0, rfl, ⟨a, hs.symm⟩, ⟨b, ht.symm⟩⟩)

theorem Straddles.of_suffix {head s s' t : Text} (h : Straddles head s t) (hs : s <:+ s') :
    Straddles head s' t := by
  rcases h with ⟨x, y, hx, hy, e, hxs, ht⟩
  exact ⟨x, y, hx, hy, e, hxs.trans hs, ht⟩

/-- What starts with a character that the head holds at its front only, or not
    at all, ends no occurrence. -/
theorem not_straddles_of_head {head s t : Text} {c : Char} (hc : c ∉ head.tail) :
    ¬Straddles head s (c :: t) := by
  rintro ⟨x, y, hx, hy, rfl, -, ht⟩
  rcases List.prefix_cons_iff.1 ht with rfl | ⟨y', rfl, -⟩
  · exact hy rfl
  · refine hc ?_
    rw [List.tail_append_of_ne_nil hx]
    exact List.mem_append_right _ List.mem_cons_self

/-- What ends with a character that the head holds at its end only, or not at
    all, starts no occurrence. -/
theorem not_straddles_of_last {head s t : Text} {c : Char} (hc : c ∉ head.dropLast) :
    ¬Straddles head (s ++ [c]) t := by
  rintro ⟨x, y, hx, hy, rfl, hs, -⟩
  rcases List.suffix_concat_iff.1 hs with rfl | ⟨x', rfl, -⟩
  · exact hx rfl
  · refine hc ?_
    rw [List.dropLast_append_of_ne_nil hy]
    exact List.mem_append_left _ (List.mem_append_right _ (List.mem_singleton.2 rfl))

end Text

namespace CallHead

theorem text_ne_nil (h : CallHead) : h.text ≠ [] :=
  List.append_ne_nil_of_right_ne_nil h.stem (List.cons_ne_nil _ _)

theorem split?_eq_none_iff {h : CallHead} {s : Text} : h.split? s = none ↔ ¬h.text <:+: s := by
  induction s with
  | nil => simp [split?, h.text_ne_nil]
  | cons c s ih =>
      rw [split?, List.infix_cons_iff, not_or]
      by_cases hp : h.text <+: c :: s
      · simp [hp]
      · rw [if_neg (fun hb => hp (List.isPrefixOf_iff_prefix.1 hb)), Option.map_eq_none_iff, ih]
        simp [hp]

/-- The search finds the leftmost occurrence. -/
theorem split?_eq_some_iff {h : CallHead} {s gap rest : Text} :
    h.split? s = some (gap, rest) ↔
      s = gap ++ (h.text ++ rest) ∧ Text.IsLeftmost h.text gap rest := by
  constructor
  · intro e
    refine ⟨eq_of_split? e, ?_⟩
    induction s generalizing gap with
    | nil => simp [split?] at e
    | cons c s ih =>
        intro a b hab
        have hs := eq_of_split? e
        rw [split?] at e
        by_cases hp : h.text.isPrefixOf (c :: s)
        · rw [if_pos hp] at e
          rcases Prod.mk.inj (Option.some.inj e) with ⟨rfl, -⟩
          exact Nat.zero_le _
        · rw [if_neg hp] at e
          rcases Option.map_eq_some_iff.1 e with ⟨⟨g, r⟩, hg, he⟩
          rcases Prod.mk.inj he with ⟨rfl, rfl⟩
          -- An occurrence here would have been found here.
          cases a with
          | nil => exact absurd (List.isPrefixOf_iff_prefix.2 ⟨b, (hs.trans hab).symm⟩) hp
          | cons d a =>
              have := ih hg a b (List.cons.inj hab).2
              exact Nat.succ_le_succ this
  · rintro ⟨rfl, hleft⟩
    induction gap with
    | nil =>
        rcases List.exists_cons_of_ne_nil h.text_ne_nil with ⟨c, t, ht⟩
        have hcons : h.text ++ rest = c :: (t ++ rest) := by rw [ht, List.cons_append]
        rw [List.nil_append, hcons, split?, ← hcons, List.drop_left, if_pos]
        exact List.isPrefixOf_iff_prefix.2 (List.prefix_append h.text rest)
    | cons c gap ih =>
        rw [List.cons_append, split?, if_neg, ih, Option.map_some]
        · intro a b hab
          have := hleft (c :: a) b (by rw [List.cons_append, List.cons_append, hab])
          exact Nat.le_of_succ_le_succ this
        · intro hp
          rcases List.isPrefixOf_iff_prefix.1 hp with ⟨b, hb⟩
          have := hleft [] b hb.symm
          exact absurd this (Nat.not_succ_le_zero _)

theorem split?_append_right {h : CallHead} {s gap rest : Text} (e : h.split? s = some (gap, rest))
    (t : Text) : h.split? (s ++ t) = some (gap, rest ++ t) := by
  rcases split?_eq_some_iff.1 e with ⟨rfl, hleft⟩
  refine split?_eq_some_iff.2 ⟨?_, hleft.congr _⟩
  simp only [List.append_assoc]

-- The search goes past a text that neither holds the head nor starts an occurrence
-- at its end.
theorem split?_append {h : CallHead} {s t : Text} (hs : ¬h.text <:+: s)
    (hseam : ¬Text.Straddles h.text s t) :
    h.split? (s ++ t) = (h.split? t).map fun (gap, rest) => (s ++ gap, rest) := by
  induction s with
  | nil => simp
  | cons c s ih =>
      have hnot : ¬h.text.isPrefixOf (c :: (s ++ t)) := by
        intro hp
        rcases List.isPrefixOf_iff_prefix.1 hp with ⟨b, hb⟩
        rw [← List.cons_append] at hb
        -- The head ends inside the first part, or lies across the seam.
        rcases List.append_eq_append_iff.1 hb with ⟨u, hu, -⟩ | ⟨u, hu, hub⟩
        · exact hs ⟨[], u, by rw [hu, List.nil_append]⟩
        · cases u with
          | nil => exact hs ⟨[], [], by rw [hu]; simp⟩
          | cons d u =>
              refine hseam ⟨c :: s, d :: u, List.cons_ne_nil _ _, List.cons_ne_nil _ _, hu, ?_, ?_⟩
              · exact List.suffix_rfl
              · exact ⟨b, hub.symm⟩
      rw [List.cons_append, split?, if_neg hnot, ih, Option.map_map]
      · rfl
      · exact fun hin => hs (List.infix_cons hin)
      · exact fun hst => hseam (hst.of_suffix (List.suffix_cons c s))

end CallHead

end Codemod
