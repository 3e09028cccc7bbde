import Codemod.Proofs.SecondPass
import Mathlib.Data.List.Infix

/-!
# Call Heads before and after a Pass

Where the heads in the result of a pass come from.

A pass is meant to turn each call that it replaces into something that is no
call of the deprecated kind, and to have no other effect on such calls. Put in
numbers, a head is either replaced or still there. Heads in an argument move
with it, and heads behind one that nothing closes stay where they are.

Text is cut apart and put together on the way, and this is where a head could
get lost, or could arise. The number of occurrences in joined texts is the sum
of those in the parts if none lies across the seam. So the count can be taken
piece by piece, in the text and in its result, and the two accounts differ in one
item only: the heads of the replaced calls themselves.

## Main definitions

* `Text.occurrences`: The number of places where a head occurs.

## Theorems

* `Text.occurrences_eq_zero_iff`, `Text.occurrences_append`: Counting in a text
  and in joined texts.
* `Text.occurrences_trim`: Trimming takes no head away.
* `Segments.occurrences_source`: The heads of a text, piece by piece.
* `Segments.occurrences_replaced`: The heads of the result, piece by piece.
* `heads_conserved`: The two accounts compared.
-/

namespace Codemod

namespace Text

/-! ## Counting occurrences -/

/-- The number of places in the text where `head` starts, overlapping ones
    included. -/
def occurrences (head s : Text) : Nat := s.tails.countP head.isPrefixOf

variable {head s t : Text}

theorem occurrences_cons (head : Text) (c : Char) (s : Text) :
    occurrences head (c :: s) =
      occurrences head s + if head.isPrefixOf (c :: s) then 1 else 0 := by
  rw [occurrences, List.tails_cons, List.countP_cons, occurrences]

theorem occurrences_eq_zero_iff : occurrences head s = 0 ↔ ¬head <:+: s := by
  simp only [occurrences, List.countP_eq_zero, List.mem_tails, List.isPrefixOf_iff_prefix,
    List.infix_iff_prefix_suffix, not_exists, not_and]
  exact forall_congr' fun _ => imp_not_comm

/-- Where no occurrence lies across the seam, the parts have all that the whole has. -/
theorem occurrences_append (hne : head ≠ []) (hseam : ¬Straddles head s t) :
    occurrences head (s ++ t) = occurrences head s + occurrences head t := by
  induction s with
  | nil =>
      rw [occurrences_eq_zero_iff.2 fun hin => hne (List.infix_nil.1 hin), List.nil_append,
        Nat.zero_add]
  | cons c s ih =>
      have hprefix : head.isPrefixOf (c :: (s ++ t)) = head.isPrefixOf (c :: s) := by
        rw [Bool.eq_iff_iff, List.isPrefixOf_iff_prefix, List.isPrefixOf_iff_prefix]
        refine ⟨fun hp => ?_, fun hp => hp.trans (List.prefix_append (c :: s) t)⟩
        rcases hp with ⟨b, hb⟩
        rcases occurrence_append (s := c :: s) (a := []) hb.symm with
          ⟨b', hs, -⟩ | ⟨a', ha, -⟩ | hst
        · exact ⟨b', hs.symm⟩
        · cases ha
        · exact absurd hst hseam
      rw [List.cons_append, occurrences_cons, occurrences_cons, hprefix,
        ih fun hst => hseam (hst.of_suffix (List.suffix_cons c s))]
      exact Nat.add_right_comm _ _ _

-- A leftmost occurrence is the only one up to its end.
theorem IsLeftmost.occurrences {gap rest : Text} (h : IsLeftmost head gap rest) (hne : head ≠ []) :
    occurrences head (gap ++ head) = 1 := by
  induction gap with
  | nil =>
      rcases List.exists_cons_of_ne_nil hne with ⟨c, u, rfl⟩
      have hshort : ¬(c :: u) <:+: u := fun hin => Nat.not_succ_le_self _ hin.length_le
      rw [List.nil_append, occurrences_cons, occurrences_eq_zero_iff.2 hshort, if_pos]
      exact List.isPrefixOf_iff_prefix.2 List.prefix_rfl
  | cons c gap ih =>
      have hlater : IsLeftmost head gap rest := fun a b e =>
        Nat.le_of_succ_le_succ (h (c :: a) b (congrArg (c :: ·) e))
      rw [List.cons_append, occurrences_cons, ih hlater, if_neg]
      intro hp
      rcases List.isPrefixOf_iff_prefix.1 hp with ⟨b, hb⟩
      have hfirst := h.congr [] [] b (by rw [List.append_nil]; exact hb.symm)
      exact absurd hfirst (Nat.not_succ_le_zero _)

/-! ## Text that no head has a part in -/

theorem not_straddles_of_disjoint_left (h : s.Disjoint head) : ¬Straddles head s t := by
  rintro ⟨x, y, hx, -, rfl, hxs, -⟩
  rcases List.exists_mem_of_ne_nil x hx with ⟨c, hc⟩
  exact h (hxs.subset hc) (List.mem_append_left y hc)

theorem not_straddles_of_disjoint_right (h : t.Disjoint head) : ¬Straddles head s t := by
  rintro ⟨x, y, -, hy, rfl, -, hyt⟩
  rcases List.exists_mem_of_ne_nil y hy with ⟨c, hc⟩
  exact h (hyt.subset hc) (List.mem_append_right x hc)

theorem occurrences_of_disjoint (hne : head ≠ []) (h : s.Disjoint head) :
    occurrences head s = 0 := by
  rcases List.exists_mem_of_ne_nil head hne with ⟨c, hc⟩
  exact occurrences_eq_zero_iff.2 fun hin => h (hin.subset hc) hc

/-- Trimming takes away no occurrence of a head without blanks. -/
theorem occurrences_trim (hne : head ≠ []) (hblank : head.any isBlank = false) (s : Text) :
    occurrences head s.trim = occurrences head s := by
  rcases trim_decompose s with ⟨l, r, hs, hl, hr⟩
  have hdisjoint : ∀ u : Text, (∀ c ∈ u, isBlank c = true) → u.Disjoint head := by
    intro u hu c hc hmem
    exact List.any_eq_false.1 hblank c hmem (hu c hc)
  conv_rhs => rw [hs]
  rw [occurrences_append hne (not_straddles_of_disjoint_right (hdisjoint r hr)),
    occurrences_append hne (not_straddles_of_disjoint_left (hdisjoint l hl)),
    occurrences_of_disjoint hne (hdisjoint l hl), occurrences_of_disjoint hne (hdisjoint r hr),
    Nat.zero_add, Nat.add_zero]

end Text

open Text (occurrences occurrences_append occurrences_of_disjoint occurrences_eq_zero_iff)

/-! ## The heads of a text -/

/-- A plain head stands in a text once for each call of the factorisation, and else
    in the bodies of the calls and in the tail. -/
theorem Segments.occurrences_source {h : CallHead} (hp : h.IsPlain) {s : Text} {g : Segmentation}
    (hg : Segments h.text s g) :
    occurrences h.text s =
      g.calls.length + (g.calls.map fun c => occurrences h.text c.body).sum +
        occurrences h.text (g.tail.source h) := by
  have hne := h.text_ne_nil
  have hclose : [')'].Disjoint h.text := by
    intro c hc hmem
    rw [List.mem_singleton.1 hc] at hmem
    exact List.count_eq_zero.1 hp.count_close hmem
  induction hg with
  | clear absent => simp [Tail.source]
  | unclosed first isOpen => simp [Tail.source]
  | @call gap body rest g first balanced _ ih =>
      -- The head of the call, then its body, then the closer, which starts no head.
      have hcall : occurrences h.text (gap ++ (h.text ++ (body ++ ')' :: rest))) =
          1 + (occurrences h.text body + (0 + occurrences h.text rest)) := by
        rw [← List.append_assoc, occurrences_append hne (hp.not_straddles_behind_head _ _),
          first.occurrences hne, occurrences_append hne (hp.not_straddles_before_close _ _),
          ← List.singleton_append,
          occurrences_append hne (Text.not_straddles_of_disjoint_left hclose),
          occurrences_of_disjoint hne hclose]
      rw [hcall, ih]
      simp only [Segmentation.cons, List.length_cons, List.map_cons, List.sum_cons]
      omega

/-! ## The heads of the result -/

-- The template brings no head and forms none with what stands around it.
theorem occurrences_withAlpha_append (e t : Text) :
    occurrences CallHead.withOpacity.text (withAlpha e ++ t) =
      occurrences CallHead.withOpacity.text e + occurrences CallHead.withOpacity.text t := by
  have hne := CallHead.withOpacity.text_ne_nil
  have hopening := not_straddles_behind_opening [] (e ++ (closing ++ t))
  rw [List.nil_append] at hopening
  rw [withAlpha_eq, List.append_assoc, List.append_assoc, occurrences_append hne hopening,
    occurrences_eq_zero_iff.2 not_infix_opening, Nat.zero_add,
    occurrences_append hne (not_straddles_before_closing _ _),
    occurrences_append hne (not_straddles_behind_closing _),
    occurrences_eq_zero_iff.2 not_infix_closing, Nat.zero_add]

/-- In the result of a pass, heads stand in the arguments and in the tail only. -/
theorem Segments.occurrences_replaced {s : Text} {g : Segmentation}
    (hg : Segments CallHead.withOpacity.text s g) :
    occurrences CallHead.withOpacity.text (g.replaced .withOpacity) =
      (g.calls.map fun c => occurrences CallHead.withOpacity.text c.body.trim).sum +
        occurrences CallHead.withOpacity.text (g.tail.source .withOpacity) := by
  have hne := CallHead.withOpacity.text_ne_nil
  induction hg with
  | clear absent => simp [Segmentation.replaced]
  | unclosed first isOpen => simp [Segmentation.replaced]
  | @call gap body rest g first balanced _ ih =>
      have hgap := occurrences_eq_zero_iff.2 (first.not_infix hne)
      have hseam : ¬Text.Straddles CallHead.withOpacity.text gap
          (withAlpha body.trim ++ g.replaced .withOpacity) := by
        rw [withAlpha_eq, List.append_assoc]
        exact not_straddles_before_opening _ _
      rw [Segmentation.replaced_cons, Call.replaced, List.append_assoc,
        occurrences_append hne hseam, hgap, occurrences_withAlpha_append, ih]
      simp only [Segmentation.cons, List.map_cons, List.sum_cons]
      omega

/-- The heads in the result of a pass and the replaced calls together are as many
    as the heads in the text. All heads of the result stand in its arguments and
    in its tail, and trimming changes nothing in their number, so that none arises
    from the template, from trimming or across a seam. What the text has beyond
    these is one head for each replaced call. -/
theorem heads_conserved (s : Text) :
    let g := Segmentation.ofText .withOpacity s
    let o := replaceCalls .withOpacity s
    let heads := occurrences CallHead.withOpacity.text
    heads o.text + o.replacements = heads s ∧
      heads o.text = (g.calls.map fun c => heads c.body.trim).sum +
        heads (g.tail.source .withOpacity) ∧
      (∀ e : Text, heads e.trim = heads e) ∧
      heads s = g.calls.length + (g.calls.map fun c => heads c.body).sum +
        heads (g.tail.source .withOpacity) := by
  intro g o heads
  have hseg := segments_ofText .withOpacity s
  have hsource : heads s = g.calls.length + (g.calls.map fun c => heads c.body).sum +
      heads (g.tail.source .withOpacity) := hseg.occurrences_source CallHead.isPlain_withOpacity
  have hresult : heads o.text = (g.calls.map fun c => heads c.body.trim).sum +
      heads (g.tail.source .withOpacity) := hseg.occurrences_replaced
  have htrim : ∀ e : Text, heads e.trim = heads e :=
    Text.occurrences_trim CallHead.withOpacity.text_ne_nil (by decide)
  have hcount : o.replacements = g.calls.length := rfl
  refine ⟨?_, hresult, htrim, hsource⟩
  rw [hresult, hsource, hcount]
  simp only [htrim]
  omega

-- The inner head is moved, the first outer one replaced, and the last one kept.
example : Text.occurrences CallHead.withOpacity.text
      (replaceCalls .withOpacity
        ".withOpacity( .withOpacity(1) ).withOpacity(2".toList).text = 2 ∧
    Text.occurrences CallHead.withOpacity.text
      ".withOpacity( .withOpacity(1) ).withOpacity(2".toList = 3 := by decide +kernel

end Codemod
