import Codemod.Proofs.Factorisation

/-!
# Cutting up Joined Texts

The segmentation of a text that is put together from two parts.

Where no head straddles the seam, the parts do not see each other: the calls of
the first part come first, and the text that follows the last of them goes in
front of the first gap of the second part. The first part has to end in such a
text. A part that ends in a head which nothing closes would swallow the second
part, or find its closer there.

A balanced text never ends that way. A head whose parentheses are the final one
alone takes one closer more than a balanced rest can give up, so every head in a
balanced text is closed inside it. This is what makes the argument of a call a
text that can be moved: the calls in it stay whole wherever it goes.

## Main definitions

* `Segmentation.prepend`: A segmentation with more text in front.
* `Segmentation.append`: Calls, a text behind them, and a segmentation.
* `Segmentation.bodies`, `Segmentation.openDepth?`, `Segmentation.openRest?`:
  What text in front leaves as it is.
* `CallHead.IsPlain`: A head with no parenthesis but the final one.

## Theorems

* `Segmentation.ofText_append_tail`: The calls of the first part stay.
* `Segmentation.ofText_append`: The segmentation of two parts.
* `Segments.tail_eq_clear`: All heads in a balanced text are closed in it.
-/

namespace Codemod

/-- No parenthesis stands in the head before the one that it ends in. -/
def CallHead.IsPlain (h : CallHead) : Prop := '(' ∉ h.stem ∧ ')' ∉ h.stem

namespace CallHead.IsPlain

variable {h : CallHead}

theorem count_open (hp : h.IsPlain) : h.text.count '(' = 1 := by
  rw [text, List.count_append, List.count_eq_zero.2 hp.1]
  rfl

theorem count_close (hp : h.IsPlain) : h.text.count ')' = 0 := by
  rw [text, List.count_append, List.count_eq_zero.2 hp.2]
  rfl

-- Two occurrences do not overlap, since the head ends with a character that it holds
-- only there.
theorem not_straddles_behind_head (hp : h.IsPlain) (s t : Text) :
    ¬Text.Straddles h.text (s ++ h.text) t := by
  rw [text, ← List.append_assoc]
  refine Text.not_straddles_of_last ?_
  rw [List.dropLast_concat]
  exact hp.1

theorem not_straddles_before_close (hp : h.IsPlain) (s t : Text) :
    ¬Text.Straddles h.text s (')' :: t) := by
  refine Text.not_straddles_of_head fun hmem => ?_
  exact List.count_eq_zero.1 hp.count_close (List.mem_of_mem_tail hmem)

end CallHead.IsPlain

namespace Segmentation

/-- The segmentation with a text in front that belongs to no call. -/
def prepend (t : Text) : Segmentation → Segmentation
  | ⟨[], .clear u⟩ => ⟨[], .clear (t ++ u)⟩
  | ⟨[], .unclosed gap rest depth⟩ => ⟨[], .unclosed (t ++ gap) rest depth⟩
  | ⟨c :: calls, tail⟩ => ⟨⟨t ++ c.gap, c.body⟩ :: calls, tail⟩

/-- Calls, then a text, then what a segmentation cuts up. -/
def append (calls : List Call) (t : Text) (g : Segmentation) : Segmentation :=
  ⟨calls ++ (g.prepend t).calls, (g.prepend t).tail⟩

/-- The bodies of the calls, without the gaps before them. -/
def bodies (g : Segmentation) : List Text := g.calls.map Call.body

/-- The number of parentheses that stay open behind a head, if one is not closed. -/
def openDepth? (g : Segmentation) : Option Nat :=
  match g.tail with
  | .clear _ => none
  | .unclosed _ _ depth => some depth

/-- The text behind a head that is not closed, if there is one. -/
def openRest? (g : Segmentation) : Option Text :=
  match g.tail with
  | .clear _ => none
  | .unclosed _ rest _ => some rest

theorem prepend_nil (g : Segmentation) : g.prepend [] = g := by
  rcases g with ⟨_ | ⟨c, calls⟩, _ | _⟩ <;> rfl

-- Text in front changes a gap, and neither the bodies nor how the segmentation ends.
@[simp] theorem bodies_prepend (t : Text) (g : Segmentation) : (g.prepend t).bodies = g.bodies := by
  rcases g with ⟨_ | ⟨c, calls⟩, _ | _⟩ <;> rfl

@[simp] theorem bodies_append (calls : List Call) (t : Text) (g : Segmentation) :
    (append calls t g).bodies = calls.map Call.body ++ g.bodies := by
  rw [bodies, append, List.map_append]
  exact congrArg (calls.map Call.body ++ ·) (bodies_prepend t g)

theorem openRest?_eq_some_iff {g : Segmentation} {rest : Text} :
    g.openRest? = some rest ↔ ∃ gap depth, g.tail = .unclosed gap rest depth := by
  rw [openRest?]
  cases g.tail <;> simp [eq_comm]

@[simp] theorem openRest?_prepend (t : Text) (g : Segmentation) :
    (g.prepend t).openRest? = g.openRest? := by
  rcases g with ⟨_ | ⟨c, calls⟩, _ | _⟩ <;> rfl

@[simp] theorem openRest?_append (calls : List Call) (t : Text) (g : Segmentation) :
    (append calls t g).openRest? = g.openRest? := openRest?_prepend t g

variable {h : CallHead}

-- A text without the head goes in front of the first gap.
theorem ofText_append_of_absent {s t : Text} (hs : ¬h.text <:+: s)
    (hseam : ¬Text.Straddles h.text s t) : ofText h (s ++ t) = (ofText h t).prepend s := by
  have hsplit := CallHead.split?_append hs hseam
  cases ht : h.split? t with
  | none =>
      rw [ht, Option.map_none] at hsplit
      rw [ofText_of_clear hsplit, ofText_of_clear ht, prepend]
  | some p =>
      rcases p with ⟨gap, rest⟩
      rw [ht, Option.map_some] at hsplit
      cases hr : rest.splitClose 0 with
      | error depth => rw [ofText_of_unclosed hsplit hr, ofText_of_unclosed ht hr, prepend]
      | ok q =>
          rcases q with ⟨body, after⟩
          rw [ofText_of_call hsplit hr, ofText_of_call ht hr, cons, cons, prepend]

/-- The calls of the first part are calls of the whole. Only what stands behind them
    can look different with a second part behind it. -/
theorem ofText_append_tail (s t : Text) :
    ofText h (s ++ t) =
      append (ofText h s).calls [] (ofText h ((ofText h s).tail.source h ++ t)) := by
  fun_induction ofText h s with
  | case1 s hs => exact (prepend_nil _).symm
  | case2 s gap rest hs depth hd =>
      rw [CallHead.eq_of_split? hs]
      exact (prepend_nil _).symm
  | case3 s gap rest hs body after hb ih =>
      -- The first call of the first part is the first call of the whole.
      rw [ofText_of_call (CallHead.split?_append_right hs t)
        (Text.splitClose_append_of_eq_ok hb t), ih]
      rfl

/-- The calls of two parts come one after the other, if the first part ends in a
    text that belongs to no call and no head straddles the seam. -/
theorem ofText_append {s t u : Text} (hu : (ofText h s).tail = .clear u)
    (hseam : ¬Text.Straddles h.text s t) :
    ofText h (s ++ t) = append (ofText h s).calls u (ofText h t) := by
  have htail := (segments_ofText h s).tail_segments
  have hsource := source_ofText h s
  rw [source, hu] at hsource
  rw [hu, Tail.source] at htail
  cases htail with
  | clear absent =>
      have hseam' : ¬Text.Straddles h.text u t := fun hst => hseam (hst.of_suffix ⟨_, hsource⟩)
      rw [ofText_append_tail, hu, Tail.source, ofText_append_of_absent absent hseam', append,
        prepend_nil]
      rfl

end Segmentation

-- What is open at the end is what the text behind the open head leaves open.
theorem Segments.openDepth?_eq {head s : Text} {g : Segmentation} (hg : Segments head s g) :
    g.openDepth? = g.openRest?.map fun u => 1 + u.count '(' - u.count ')' := by
  rw [Segmentation.openDepth?, Segmentation.openRest?]
  cases ht : g.tail with
  | clear u => rfl
  | unclosed gap u depth => rw [hg.depth_eq ht, Option.map_some]

/-- In a text that closes what it opens, and what was opened before it, every
    plain head is closed. -/
theorem Segments.tail_eq_clear {h : CallHead} (hp : h.IsPlain) {nested : Nat} {s : Text}
    {g : Segmentation} (hg : Segments h.text s g) (hcov : Text.Covered nested s)
    (htotal : s.count ')' = s.count '(' + nested) : ∃ u, g.tail = .clear u := by
  have ho := hp.count_open
  have hc := hp.count_close
  induction hg generalizing nested with
  | clear => exact ⟨_, rfl⟩
  | @unclosed gap rest _ isOpen =>
      -- The head opens one parenthesis that nothing behind it closes.
      have hgap := hcov gap (List.prefix_append _ _)
      have hrest := isOpen rest List.prefix_rfl
      simp only [List.count_append] at htotal
      omega
  | @call gap body rest g _ balanced _ ih =>
      have hgap := hcov gap (List.prefix_append _ _)
      have hbody := balanced.total
      have hsplit : gap ++ (h.text ++ (body ++ ')' :: rest)) =
          (gap ++ (h.text ++ (body ++ [')']))) ++ rest := by simp
      -- Behind the call stays open what the gap leaves open.
      have hleft : (gap ++ (h.text ++ (body ++ [')']))).count ')' +
          (gap.count '(' + nested - gap.count ')') =
            (gap ++ (h.text ++ (body ++ [')']))).count '(' + nested := by
        have h1 : [')'].count ')' = 1 := rfl
        have h2 : [')'].count '(' = 0 := rfl
        simp only [List.count_append]
        omega
      rw [hsplit] at hcov htotal
      refine ih (hcov.right hleft) ?_
      rw [List.count_append, List.count_append (a := '(')] at htotal
      omega

end Codemod
