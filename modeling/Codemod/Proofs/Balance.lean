import Codemod.Call.Argument

/-!
# Balanced Text

What the scan for a closer finds, said without the scan.

`Text.splitClose` walks over a text with a counter. The counter never shows in
what the scan is for: a text can stand between the parentheses of a call when
each closer in it has an opener before it and no opener is left over. Both
halves are statements about the numbers of parentheses in the prefixes of the
text, and a text that is put together from parts inherits them from its parts,
which the counter of a scan does not let one see.

A text behind an opening parenthesis may close more than it opens.
`Covered nested` therefore allows for `nested` parentheses opened before the
text, and an induction along the text moves that number up and down.

## Main definitions

* `Text.Covered`: Each closer has its opener, given some opened before.
* `Text.Balanced`: Each closer has its opener, and each opener its closer.

## Theorems

* `Text.covered_cons`: A text is covered one character at a time.
* `Text.splitClose_eq_ok_iff`: Where the scan finds the closer.
* `Text.splitClose_eq_error_iff`: When there is none, and what is left open.
* `Text.Covered.right`: The second part of a covered text is covered, by what
  the first part leaves open.
* `Text.splitClose_append`: The scan goes past a covered text.
* `Text.Balanced.append`, `Text.Balanced.enclose`: Putting balanced texts
  together.
* `Text.Balanced.trim`: Trimming keeps a text balanced.
-/

namespace Codemod

namespace Text

/-- No prefix of the text has more closers than openers, `nested` parentheses
    opened before the text included. -/
def Covered (nested : Nat) (s : Text) : Prop :=
  ∀ p : Text, p <+: s → p.count ')' ≤ p.count '(' + nested

/-- No prefix of the text has more closers than openers, and the whole has as
    many of the one as of the other. -/
structure Balanced (s : Text) : Prop where
  covered : Covered 0 s
  total : s.count ')' = s.count '('

theorem covered_nil (nested : Nat) : Covered nested [] := by
  intro p hp
  rw [List.prefix_nil.1 hp]
  exact Nat.zero_le _

-- What one character does to the level is what it adds to the counts, as long as
-- it is not a closer too many.
theorem levelAfter_add_count {nested : Nat} {c : Char} (h : ¬(c = ')' ∧ nested = 0)) (p : Text) :
    (c :: p).count '(' + nested + p.count ')' =
      p.count '(' + levelAfter nested c + (c :: p).count ')' := by
  rw [levelAfter]
  by_cases ho : c = '('
  · rw [if_pos ho, ho, List.count_cons_self, List.count_cons_of_ne (by decide)]
    omega
  · rw [if_neg ho, List.count_cons_of_ne ho]
    by_cases hc : c = ')'
    · rw [if_pos hc, hc, List.count_cons_self]
      have : nested ≠ 0 := fun h0 => h ⟨hc, h0⟩
      omega
    · rw [if_neg hc, List.count_cons_of_ne hc]

-- A text is covered when its first character is not a closer too many and the rest
-- is covered at the level behind that character.
theorem covered_cons {nested : Nat} {c : Char} {s : Text} :
    Covered nested (c :: s) ↔ ¬(c = ')' ∧ nested = 0) ∧ Covered (levelAfter nested c) s := by
  constructor
  · intro h
    have hfirst : ¬(c = ')' ∧ nested = 0) := by
      rintro ⟨rfl, rfl⟩
      have := h [')'] (List.prefix_append [')'] s)
      exact absurd this (by decide)
    refine ⟨hfirst, fun p hp => ?_⟩
    have hle := h (c :: p) ((List.prefix_cons_inj c).2 hp)
    have hcount := levelAfter_add_count hfirst p
    omega
  · rintro ⟨hfirst, hrest⟩ p hp
    rcases List.prefix_cons_iff.1 hp with rfl | ⟨q, rfl, hq⟩
    · exact Nat.zero_le _
    · have hle := hrest q hq
      have hcount := levelAfter_add_count hfirst q
      omega

/-- The scan finds a closer behind a covered body that closes the parentheses
    opened before it, and finds no other. -/
theorem splitClose_eq_ok_iff {nested : Nat} {s body rest : Text} :
    splitClose nested s = .ok (body, rest) ↔
      s = body ++ ')' :: rest ∧ Covered nested body ∧
        body.count ')' = body.count '(' + nested := by
  induction s generalizing nested body with
  | nil => simp [splitClose]
  | cons c s ih =>
      rw [splitClose]
      by_cases hc : c = ')' ∧ nested = 0
      -- The closer stands right here, and no covered body starts with it.
      · rw [if_pos hc]
        rcases hc with ⟨rfl, rfl⟩
        constructor
        · intro e
          rcases Prod.mk.inj (Except.ok.inj e) with ⟨rfl, rfl⟩
          exact ⟨rfl, covered_nil 0, rfl⟩
        · rintro ⟨hs, hcov, -⟩
          cases body with
          | nil => rw [(List.cons.inj hs).2]
          | cons d body =>
              rw [← (List.cons.inj hs).1] at hcov
              exact absurd ⟨rfl, rfl⟩ (covered_cons.1 hcov).1
      -- The body goes on with this character.
      · rw [if_neg hc]
        constructor
        · intro e
          cases hr : splitClose (levelAfter nested c) s with
          | error d => simp [hr, Except.map] at e
          | ok p =>
              simp only [hr, Except.map, Except.ok.injEq, Prod.mk.injEq] at e
              rcases e with ⟨rfl, rfl⟩
              rcases ih.1 hr with ⟨hs, hcov, htotal⟩
              refine ⟨by rw [hs, List.cons_append], covered_cons.2 ⟨hc, hcov⟩, ?_⟩
              have := levelAfter_add_count hc p.1
              omega
        · rintro ⟨hs, hcov, htotal⟩
          cases body with
          | nil =>
              rw [List.count_nil, List.count_nil] at htotal
              exact absurd ⟨(List.cons.inj hs).1, by omega⟩ hc
          | cons d body =>
              rcases List.cons.inj hs with ⟨rfl, hrest⟩
              have hcount := levelAfter_add_count hc body
              rw [ih.2 ⟨hrest, (covered_cons.1 hcov).2, by omega⟩]
              rfl

/-- The scan finds no closer exactly in a covered text. It then reports the
    parentheses that the text leaves open, the one of the call included. -/
theorem splitClose_eq_error_iff {nested depth : Nat} {s : Text} :
    splitClose nested s = .error depth ↔
      Covered nested s ∧ depth = 1 + (s.count '(' + nested) - s.count ')' := by
  induction s generalizing nested with
  | nil =>
      simp only [splitClose, Except.error.injEq, covered_nil, true_and, List.count_nil]
      omega
  | cons c s ih =>
      rw [splitClose, covered_cons]
      by_cases hc : c = ')' ∧ nested = 0
      · simp [hc]
      · have hcount := levelAfter_add_count hc s
        have hmap : (splitClose (levelAfter nested c) s).map
            (fun x : Text × Text => (c :: x.1, x.2)) = .error depth ↔
              splitClose (levelAfter nested c) s = .error depth := by
          cases splitClose (levelAfter nested c) s <;> simp [Except.map]
        rw [if_neg hc, hmap, ih]
        simp only [hc, not_false_eq_true, true_and]
        refine and_congr_right fun hcov => ?_
        have := hcov s List.prefix_rfl
        omega

theorem splitClose_zero_eq_ok_iff {s body rest : Text} :
    splitClose 0 s = .ok (body, rest) ↔ s = body ++ ')' :: rest ∧ Balanced body := by
  rw [splitClose_eq_ok_iff]
  exact and_congr_right fun _ => ⟨fun h => ⟨h.1, h.2⟩, fun h => ⟨h.covered, h.total⟩⟩

theorem splitClose_zero_eq_error_iff {depth : Nat} {s : Text} :
    splitClose 0 s = .error depth ↔ Covered 0 s ∧ depth = 1 + s.count '(' - s.count ')' :=
  splitClose_eq_error_iff

/-! ## Parts of a covered text -/

theorem Covered.left {nested : Nat} {s t : Text} (h : Covered nested (s ++ t)) :
    Covered nested s :=
  fun p hp => h p (hp.trans (List.prefix_append s t))

-- The second part of a covered text is covered, by the parentheses that stay open
-- behind the first part.
theorem Covered.right {nested more : Nat} {s t : Text} (h : Covered nested (s ++ t))
    (hmore : s.count ')' + more = s.count '(' + nested) : Covered more t := by
  intro p hp
  have hle := h (s ++ p) ((List.prefix_append_right_inj s).2 hp)
  rw [List.count_append, List.count_append] at hle
  omega

/-! ## Scans over joined texts -/

/-- The scan goes past a covered text, to the level that this text leaves. -/
theorem splitClose_append {nested more : Nat} {s : Text} (hs : Covered nested s)
    (hmore : s.count ')' + more = s.count '(' + nested) (t : Text) :
    splitClose nested (s ++ t) =
      (splitClose more t).map fun (body, rest) => (s ++ body, rest) := by
  induction s generalizing nested with
  | nil =>
      rw [List.count_nil, List.count_nil, Nat.zero_add, Nat.zero_add] at hmore
      rw [hmore, List.nil_append]
      cases splitClose nested t <;> rfl
  | cons c s ih =>
      rcases covered_cons.1 hs with ⟨hc, hrest⟩
      have hcount := levelAfter_add_count hc s
      rw [List.cons_append, splitClose, if_neg hc, ih hrest (by omega)]
      cases splitClose more t <;> rfl

theorem splitClose_append_of_eq_ok {nested : Nat} {s body rest : Text}
    (hs : splitClose nested s = .ok (body, rest)) (t : Text) :
    splitClose nested (s ++ t) = .ok (body, rest ++ t) := by
  rcases splitClose_eq_ok_iff.1 hs with ⟨rfl, hcov, htotal⟩
  exact splitClose_eq_ok_iff.2 ⟨by rw [List.append_assoc, List.cons_append], hcov, htotal⟩

theorem splitClose_append_of_eq_error {nested depth : Nat} {s : Text}
    (hs : splitClose nested s = .error depth) (t : Text) :
    splitClose nested (s ++ t) =
      (splitClose (depth - 1) t).map fun (body, rest) => (s ++ body, rest) := by
  rcases splitClose_eq_error_iff.1 hs with ⟨hcov, hdepth⟩
  have hle := hcov s List.prefix_rfl
  exact splitClose_append hcov (by omega) t

theorem Balanced.splitClose_append {s : Text} (hs : Balanced s) (nested : Nat) (t : Text) :
    splitClose nested (s ++ t) =
      (splitClose nested t).map fun (body, rest) => (s ++ body, rest) := by
  refine Text.splitClose_append (fun p hp => ?_) (by rw [hs.total]) t
  exact Nat.le_trans (hs.covered p hp) (Nat.add_le_add_left (Nat.zero_le nested) _)

/-! ## Balanced texts put together -/

-- A balanced text is one that a scan leaves as it entered, which makes the scan the
-- way to put balanced texts together.
theorem balanced_iff_splitClose {s : Text} : Balanced s ↔ splitClose 0 s = .error 1 := by
  rw [splitClose_zero_eq_error_iff]
  constructor
  · intro h
    have := h.total
    exact ⟨h.covered, by omega⟩
  · rintro ⟨hcov, hdepth⟩
    have := hcov s List.prefix_rfl
    exact ⟨hcov, by omega⟩

theorem balanced_of_not_mem {s : Text} (ho : '(' ∉ s) (hc : ')' ∉ s) : Balanced s := by
  refine ⟨fun p hp => ?_, ?_⟩
  · rw [List.count_eq_zero.2 fun h => hc (hp.subset h)]
    exact Nat.zero_le _
  · rw [List.count_eq_zero.2 ho, List.count_eq_zero.2 hc]

theorem Balanced.append {s t : Text} (hs : Balanced s) (ht : Balanced t) : Balanced (s ++ t) := by
  rw [balanced_iff_splitClose, hs.splitClose_append, balanced_iff_splitClose.1 ht]
  rfl

theorem Balanced.enclose {s : Text} (hs : Balanced s) : Balanced ('(' :: (s ++ [')'])) := by
  have hopen : levelAfter 0 '(' = 1 := rfl
  rw [balanced_iff_splitClose, splitClose, if_neg (by decide), hopen, hs.splitClose_append]
  rfl

/-! ## Blanks -/

theorem count_eq_zero_of_blank {c : Char} (hc : isBlank c = false) {s : Text}
    (hs : ∀ d ∈ s, isBlank d = true) : s.count c = 0 := by
  refine List.count_eq_zero.2 fun hmem => ?_
  rw [hs c hmem] at hc
  exact Bool.noConfusion hc

theorem Balanced.trim {s : Text} (h : Balanced s) : Balanced s.trim := by
  rcases trim_decompose s with ⟨l, r, hs, hl, hr⟩
  have ho : isBlank '(' = false := by decide
  have hc : isBlank ')' = false := by decide
  have hlo := count_eq_zero_of_blank ho hl
  have hlc := count_eq_zero_of_blank hc hl
  have hro := count_eq_zero_of_blank ho hr
  have hrc := count_eq_zero_of_blank hc hr
  have hcov : Covered 0 (l ++ (s.trim ++ r)) := by
    rw [← List.append_assoc, ← hs]
    exact h.covered
  refine ⟨(hcov.right (by omega)).left, ?_⟩
  have htotal := h.total
  rw [hs] at htotal
  simp only [List.count_append] at htotal
  omega

end Text

end Codemod
