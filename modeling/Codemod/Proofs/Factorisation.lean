import Codemod.Pass
import Codemod.Proofs.Balance
import Codemod.Proofs.Occurrence

/-!
# The Factorisation of a Text by its Calls

A pass is a scan, and a scan says where it goes, not what it finds. Here is what
it finds: a text has exactly one factorisation into closed calls and a tail, and
the outcome of a pass is read off that factorisation.

`Segments` lists the conditions on the factors. Each head is the leftmost one
behind the closer before it, each body is balanced, and the tail either holds no
head or starts, behind a gap, with a head that nothing closes. The conditions
speak of the text that is left at that point, so they follow the list of calls,
and so does the proof that the scan meets them and that nothing else does.

The head is a parameter, and any head that is accepted will do. It may hold
parentheses, blanks or characters of several bytes, and it may overlap itself.

What runs over the bytes of a text is a loop that goes from one of three stages to
the next (`Progress.turn`). It is followed turn by turn beside the factorisation
that is described here, in `Proofs.LoopRuns`, and comes to the outcome that is read
off it: `Stands.turn` says so of a turn, and `loop_ends_without_fault` of the loop.

## Main definitions

* `Segments`: A factorisation of a text.

## Theorems

* `CallHead.text_of_ofText`: An accepted head is the text it was made from.
* `segments_ofText`: The scan factorises the text.
* `Segments.eq_ofText`: Nothing else does.
* `replaceCalls_eq_factorisation`: A pass is the rendering of the one
  factorisation.
-/

namespace Codemod

namespace CallHead

theorem text_of_ofText {t : Text} {h : CallHead} (e : ofText t = .ok h) : h.text = t := by
  rw [ofText] at e
  by_cases hlast : t.getLast? = some '('
  · rw [if_pos hlast] at e
    rcases List.getLast?_eq_some_iff.1 hlast with ⟨stem, rfl⟩
    rw [← Except.ok.inj e, text, List.dropLast_concat]
  · rw [if_neg hlast] at e
    cases e

end CallHead

/-- The text is cut into calls and a tail by the occurrences of `head` that a
    reader meets who goes on behind the closer of each call. -/
inductive Segments (head : Text) : Text → Segmentation → Prop
  /-- No head is left. -/
  | clear {s : Text} (absent : ¬head <:+: s) : Segments head s ⟨[], .clear s⟩
  /-- Nothing closes the head that comes first. -/
  | unclosed {gap rest : Text} (first : Text.IsLeftmost head gap rest)
      (isOpen : Text.Covered 0 rest) :
      Segments head (gap ++ (head ++ rest))
        ⟨[], .unclosed gap rest (1 + rest.count '(' - rest.count ')')⟩
  /-- The head that comes first has a closer, and the rest is cut in turn. -/
  | call {gap body rest : Text} {g : Segmentation}
      (first : Text.IsLeftmost head gap (body ++ ')' :: rest)) (balanced : body.Balanced)
      (more : Segments head rest g) :
      Segments head (gap ++ (head ++ (body ++ ')' :: rest))) (g.cons ⟨gap, body⟩)

namespace Segmentation

variable {h : CallHead} {s gap rest : Text}

theorem ofText_of_clear (hs : h.split? s = none) : ofText h s = ⟨[], .clear s⟩ := by
  rw [ofText]
  split
  · rfl
  · rename_i hs'
    rw [hs] at hs'
    cases hs'

theorem ofText_of_unclosed {depth : Nat} (hs : h.split? s = some (gap, rest))
    (hd : rest.splitClose 0 = .error depth) : ofText h s = ⟨[], .unclosed gap rest depth⟩ := by
  rw [ofText]
  split
  · rename_i hs'
    rw [hs] at hs'
    cases hs'
  · rename_i hs'
    rcases Prod.mk.inj (Option.some.inj (hs.symm.trans hs')) with ⟨rfl, rfl⟩
    split
    · rename_i hd'
      rw [Except.error.inj (hd.symm.trans hd')]
    · rename_i hd'
      rw [hd] at hd'
      cases hd'

theorem ofText_of_call {body after : Text} (hs : h.split? s = some (gap, rest))
    (hb : rest.splitClose 0 = .ok (body, after)) :
    ofText h s = cons ⟨gap, body⟩ (ofText h after) := by
  rw [ofText]
  split
  · rename_i hs'
    rw [hs] at hs'
    cases hs'
  · rename_i hs'
    rcases Prod.mk.inj (Option.some.inj (hs.symm.trans hs')) with ⟨rfl, rfl⟩
    split
    · rename_i hb'
      rw [hb] at hb'
      cases hb'
    · rename_i hb'
      rcases Prod.mk.inj (Except.ok.inj (hb.symm.trans hb')) with ⟨rfl, rfl⟩
      rfl

end Segmentation

/-- The scan of a text factorises it. -/
theorem segments_ofText (h : CallHead) (s : Text) :
    Segments h.text s (Segmentation.ofText h s) := by
  -- Each way for the scan to go on is a way to factorise.
  fun_induction Segmentation.ofText h s with
  | case1 s hs => exact .clear (CallHead.split?_eq_none_iff.1 hs)
  | case2 s gap rest hs depth hd =>
      rcases CallHead.split?_eq_some_iff.1 hs with ⟨rfl, first⟩
      rcases Text.splitClose_zero_eq_error_iff.1 hd with ⟨isOpen, rfl⟩
      exact .unclosed first isOpen
  | case3 s gap rest hs body after hb ih =>
      rcases CallHead.split?_eq_some_iff.1 hs with ⟨rfl, first⟩
      rcases Text.splitClose_zero_eq_ok_iff.1 hb with ⟨rfl, balanced⟩
      exact .call first balanced ih

/-- A factorisation of a text is the one that the scan finds. -/
theorem Segments.eq_ofText {h : CallHead} {s : Text} {g : Segmentation}
    (hg : Segments h.text s g) : g = Segmentation.ofText h s := by
  induction hg with
  | clear absent => rw [Segmentation.ofText_of_clear (CallHead.split?_eq_none_iff.2 absent)]
  | unclosed first isOpen =>
      rw [Segmentation.ofText_of_unclosed (CallHead.split?_eq_some_iff.2 ⟨rfl, first⟩)
        (Text.splitClose_zero_eq_error_iff.2 ⟨isOpen, rfl⟩)]
  | call first balanced _ ih =>
      rw [Segmentation.ofText_of_call (CallHead.split?_eq_some_iff.2 ⟨rfl, first⟩)
        (Text.splitClose_zero_eq_ok_iff.2 ⟨rfl, balanced⟩), ← ih]

-- The tail is what is left of the text behind the calls, and factorised by itself.
theorem Segments.tail_segments {h : CallHead} {s : Text} {g : Segmentation}
    (hg : Segments h.text s g) : Segments h.text (g.tail.source h) ⟨[], g.tail⟩ := by
  induction hg with
  | clear absent => exact .clear absent
  | unclosed first isOpen => exact .unclosed first isOpen
  | call _ _ _ ih => exact ih

-- The depth that a tail stores is what its text leaves open.
theorem Segments.depth_eq {head s gap u : Text} {g : Segmentation} {depth : Nat}
    (hg : Segments head s g) (ht : g.tail = .unclosed gap u depth) :
    depth = 1 + u.count '(' - u.count ')' := by
  induction hg with
  | clear absent => cases ht
  | unclosed first isOpen =>
      rcases Tail.unclosed.inj ht with ⟨-, rfl, rfl⟩
      rfl
  | call _ _ _ ih => exact ih ht

theorem Segments.balanced_of_mem {head s : Text} {g : Segmentation} (hg : Segments head s g)
    {c : Call} (hc : c ∈ g.calls) : c.body.Balanced := by
  induction hg with
  | clear => cases hc
  | unclosed => cases hc
  | call _ balanced _ ih =>
      rcases List.mem_cons.1 hc with rfl | hc
      · exact balanced
      · exact ih hc

theorem Outcome.changed_eq_false_iff (o : Outcome) : o.changed = false ↔ o.replacements = 0 := by
  rw [Outcome.changed, decide_eq_false_iff_not, Nat.not_lt, Nat.le_zero]

theorem text_replaceCalls_of_not_changed {h : CallHead} {s : Text}
    (hs : (replaceCalls h s).changed = false) : (replaceCalls h s).text = s := by
  have hcalls : (Segmentation.ofText h s).calls = [] := by
    rw [Outcome.changed_eq_false_iff] at hs
    exact List.eq_nil_of_length_eq_zero hs
  have hsource := Segmentation.source_ofText h s
  rw [Segmentation.source, hcalls] at hsource
  rw [text_replaceCalls, hcalls]
  exact hsource

/-- A pass renders the one factorisation of its text. Each call becomes the
    template around its trimmed body, and all else is kept. Where the tail starts
    with a head that nothing closes, the pass says where that head stands, on
    which line, and how many parentheses are open at the end. -/
theorem replaceCalls_eq_factorisation (t : Text) (h : CallHead)
    (accepted : CallHead.ofText t = .ok h) (s : Text) :
    ∃ g : Segmentation, Segments t s g ∧ (∀ g', Segments t s g' → g' = g) ∧
      (replaceCalls h s).text =
        (g.calls.flatMap fun c =>
          c.gap ++ (".withAlpha((".toList ++ c.body.trim ++ " * 255).round())".toList)) ++
          (match g.tail with
            | .clear u => u
            | .unclosed gap u _ => gap ++ (t ++ u)) ∧
      (replaceCalls h s).replacements = g.calls.length ∧
      ((replaceCalls h s).changed = true ↔ 0 < g.calls.length) ∧
      (match g.tail with
        | .clear _ => (replaceCalls h s).ending = .done
        | .unclosed _ u _ => ∃ before : Text, s = before ++ (t ++ u) ∧
            (replaceCalls h s).ending =
              .aborted before.byteLength (1 + before.count '\n')
                ⟨before.byteLength + t.byteLength, 1 + u.count '(' - u.count ')'⟩) := by
  rw [← CallHead.text_of_ofText accepted]
  have hseg := segments_ofText h s
  have hsource := Segmentation.source_ofText h s
  -- From here on the factorisation counts, not the scan that found it.
  rw [replaceCalls]
  generalize Segmentation.ofText h s = g at hseg hsource
  refine ⟨g, hseg, fun g' hg' => hg'.eq_ofText.trans hseg.eq_ofText.symm, ?_, rfl, ?_, ?_⟩
  · rw [Segmentation.outcome, Segmentation.replaced]
    rcases g with ⟨calls, _ | _⟩ <;> rfl
  · rw [Outcome.changed, Segmentation.outcome, decide_eq_true_iff]
  · rcases g with ⟨calls, u | ⟨gap, u, depth⟩⟩
    · rfl
    · have hdepth := hseg.depth_eq rfl
      refine ⟨calls.flatMap (Call.source h) ++ gap, ?_, ?_⟩
      · rw [← hsource, List.append_assoc]
        rfl
      · rw [← hdepth]
        rfl

/-- A head with two parentheses, of which a closer matches the last, and a call
    cut off behind a closed one. -/
theorem factorisation_of_truncated_call :
    CallHead.ofText "f((".toList = .ok ⟨"f(".toList⟩ ∧
      ∃ g, Segments "f((".toList "f((1) + f((2".toList g ∧ g.calls.length = 1 := by
  have accepted : CallHead.ofText "f((".toList = .ok ⟨"f(".toList⟩ := by
    have hstem : "f((".toList.dropLast = "f(".toList := by decide +kernel
    rw [CallHead.ofText, if_pos (by decide +kernel), hstem]
  have hone : (replaceCalls ⟨"f(".toList⟩ "f((1) + f((2".toList).replacements = 1 := by
    decide +kernel
  rcases replaceCalls_eq_factorisation _ _ accepted "f((1) + f((2".toList with
    ⟨g, hseg, -, -, hcount, -⟩
  exact ⟨accepted, g, hseg, hcount.symm.trans hone⟩

end Codemod
