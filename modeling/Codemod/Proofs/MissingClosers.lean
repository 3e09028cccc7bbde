import Codemod.Proofs.Ending

/-!
# Missing Closers

What the number of open parentheses at the end of a pass is worth.

A pass that stops at an open head reports how many parentheses are open at the
end of the text, the one of the head included. The number is there for whoever
mends the text: put as many closers at its end and the head is closed. Here it
is shown to be exactly that. With fewer closers the pass stops where it stopped
before, and reports the closers that are still missing. With as many, the head
becomes the head of one more call, and whatever closers are left over stand
behind that call as they are.

Text behind an open head belongs to no other call, and a call in front of it was
found without that text. So everything happens in the tail, and in the tail it
is a matter of one scan over parentheses.

## Main definitions

* `closers`: Closing parentheses in a row.

## Theorems

* `Text.splitClose_closers`: A scan over closers.
* `Segmentation.ofText_append_closers`: The tail of a text with closers behind.
* `depth_counts_missing_closers`: A pass over such a text.
* `closers_behind_truncated_call`: One closer too few, and one too many.
-/

namespace Codemod

/-- A text of `n` closing parentheses. -/
def closers (n : Nat) : Text := List.replicate n ')'

theorem closers_succ (n : Nat) : closers (n + 1) = ')' :: closers n := List.replicate_succ

/-- A scan over closers takes one for each parenthesis opened before, and ends at the
    next one. -/
theorem Text.splitClose_closers (nested k : Nat) :
    splitClose nested (closers k) =
      if k ≤ nested then .error (nested + 1 - k)
      else .ok (closers nested, closers (k - nested - 1)) := by
  induction k generalizing nested with
  | zero => rfl
  | succ k ih =>
      rw [closers_succ, splitClose]
      cases nested with
      | zero => rfl
      | succ nested =>
          have hlevel : levelAfter (nested + 1) ')' = nested := rfl
          rw [if_neg (by simp), hlevel, ih]
          by_cases hk : k ≤ nested
          · rw [if_pos hk, if_pos (Nat.succ_le_succ hk), Nat.succ_sub_succ]
            rfl
          · rw [if_neg hk, if_neg (fun h => hk (Nat.le_of_succ_le_succ h)), Nat.succ_sub_succ,
              closers_succ nested]
            rfl

namespace Segmentation

variable {h : CallHead} {s gap rest : Text} {depth : Nat}

-- A head ends in an opening parenthesis, and closers hold none.
theorem ofText_closers (h : CallHead) (n : Nat) :
    ofText h (closers n) = ⟨[], .clear (closers n)⟩ := by
  refine ofText_of_clear (CallHead.split?_eq_none_iff.2 fun hin => ?_)
  have hopen : '(' ∈ h.text := List.mem_append_right _ (List.mem_singleton.2 rfl)
  exact absurd (List.eq_of_mem_replicate (hin.subset hopen)) (by decide)

/-- Closers behind a text with an open head leave the calls as they are. They go
    to what follows the head while it stays open. Once there are as many as are
    missing, the head becomes that of one more call, and the rest of them is all
    that follows. -/
theorem ofText_append_closers (ht : (ofText h s).tail = .unclosed gap rest depth) (k : Nat) :
    ofText h (s ++ closers k) =
      if k < depth then ⟨(ofText h s).calls, .unclosed gap (rest ++ closers k) (depth - k)⟩
      else ⟨(ofText h s).calls ++ [⟨gap, rest ++ closers (depth - 1)⟩],
        .clear (closers (k - depth))⟩ := by
  have hseg := segments_ofText h s
  have hdepth := hseg.depth_eq ht
  rcases hseg.unclosed_tail ht with ⟨first, isOpen⟩
  have hcount := isOpen rest List.prefix_rfl
  have hsplit : h.split? (gap ++ (h.text ++ (rest ++ closers k))) = some (gap, rest ++ closers k) :=
    CallHead.split?_eq_some_iff.2 ⟨rfl, first.congr _⟩
  -- The scan behind the head comes to the closers with all but one of the missing ones
  -- opened since the head.
  have hscan := Text.splitClose_append_of_eq_error
    (Text.splitClose_zero_eq_error_iff.2 ⟨isOpen, hdepth⟩) (closers k)
  rw [Text.splitClose_closers] at hscan
  rw [ofText_append_tail, ht, Tail.source, List.append_assoc, List.append_assoc]
  by_cases hk : k < depth
  · rw [if_pos (by omega)] at hscan
    have hleft : depth - 1 + 1 - k = depth - k := by omega
    rw [if_pos hk, ofText_of_unclosed hsplit hscan, hleft, append, prepend_nil, List.append_nil]
  · rw [if_neg (by omega)] at hscan
    have hleft : k - (depth - 1) - 1 = k - depth := by omega
    rw [if_neg hk, ofText_of_call hsplit hscan, hleft, ofText_closers, append, prepend_nil]
    rfl

end Segmentation

/-- The depth that a pass reports at an open head is the number of closers that are
    missing. With fewer of them behind the text, the pass stops at the same head
    with the others still missing, and keeps the new ones as it keeps the rest of
    the text. With that many or more it stops nowhere. It makes one replacement
    more, of the call that takes in the text behind the head and all the closers
    that were missing but the last, which ends it, and keeps what closers are left. -/
theorem depth_counts_missing_closers (h : CallHead) {s : Text} {offset line : Nat}
    {reason : Unbalanced} (hend : (replaceCalls h s).ending = .aborted offset line reason)
    (k : Nat) :
    let o := replaceCalls h s
    let o' := replaceCalls h (s ++ closers k)
    0 < reason.depth ∧
    (k < reason.depth →
      o'.ending = .aborted offset line ⟨reason.start, reason.depth - k⟩ ∧
        o'.replacements = o.replacements ∧ o'.text = o.text ++ closers k) ∧
    (reason.depth ≤ k →
      ∃ before kept rest : Text, s = before ++ (h.text ++ rest) ∧ before.byteLength = offset ∧
        o.text = kept ++ (h.text ++ rest) ∧
        let argument := rest ++ closers (reason.depth - 1)
        (Segmentation.ofText h (s ++ closers k)).bodies =
            (Segmentation.ofText h s).bodies ++ [argument] ∧
          o'.ending = .done ∧ o'.replacements = o.replacements + 1 ∧
          o'.text = kept ++ (withAlpha argument.trim ++ closers (k - reason.depth))) := by
  intro o o'
  rcases tail_of_aborted hend with ⟨gap, rest, htail, hs, rfl, rfl, hstart⟩
  have hdepth := (segments_ofText h s).depth_eq htail
  have hcount := ((segments_ofText h s).unclosed_tail htail).2 rest List.prefix_rfl
  have hclosed := Segmentation.ofText_append_closers htail k
  have htext : o.text =
      (Segmentation.ofText h s).calls.flatMap Call.replaced ++ (gap ++ (h.text ++ rest)) :=
    (text_replaceCalls h s).trans (by rw [htail, Tail.source])
  refine ⟨by omega, fun hk => ?_, fun hk => ?_⟩
  · rw [if_pos hk] at hclosed
    have ho' : o' = Segmentation.outcome h _ := congrArg (Segmentation.outcome h) hclosed
    rw [ho', hstart, htext]
    refine ⟨rfl, rfl, ?_⟩
    simp only [Segmentation.outcome, Segmentation.replaced, Tail.source, List.append_assoc]
  · rw [if_neg (Nat.not_lt.2 hk)] at hclosed
    have ho' : o' = Segmentation.outcome h _ := congrArg (Segmentation.outcome h) hclosed
    refine ⟨_, (Segmentation.ofText h s).calls.flatMap Call.replaced ++ gap, rest, hs, rfl, ?_,
      ?_, ?_, ?_, ?_⟩
    · rw [htext, List.append_assoc]
    · rw [hclosed, Segmentation.bodies, List.map_append]
      rfl
    · rw [ho']
      rfl
    · rw [ho']
      exact List.length_append
    · rw [ho']
      simp [Segmentation.outcome, Segmentation.replaced, Tail.source, Call.replaced]

/-- Two closers are missing. One is not enough, and of three the last is left over. -/
theorem closers_behind_truncated_call :
    let h : CallHead := ⟨"f".toList⟩
    let s : Text := "f(1)\nf( g(2".toList
    (replaceCalls h s).ending = .aborted 5 2 ⟨7, 2⟩ ∧
      (replaceCalls h (s ++ closers 1)).ending = .aborted 5 2 ⟨7, 1⟩ ∧
      (replaceCalls h (s ++ closers 1)).replacements = 1 ∧
      (replaceCalls h (s ++ closers 3)).ending = .done ∧
      (replaceCalls h (s ++ closers 3)).replacements = 2 ∧
      (replaceCalls h (s ++ closers 3)).text =
        ".withAlpha((1 * 255).round())\n.withAlpha((g(2) * 255).round()))".toList := by
  intro h s
  have hend : (replaceCalls h s).ending = .aborted 5 2 ⟨7, 2⟩ := by decide +kernel
  have hone : (replaceCalls h s).replacements = 1 := by decide +kernel
  rcases depth_counts_missing_closers h hend 1 with ⟨-, hfew, -⟩
  rcases hfew (by decide) with ⟨hstill, hsame, -⟩
  rcases depth_counts_missing_closers h hend 3 with ⟨-, -, henough⟩
  rcases henough (by decide) with ⟨before, kept, rest, -, -, -, -, hdone, hmore, -⟩
  refine ⟨hend, hstill, hsame.trans hone, hdone, hmore.trans (by rw [hone]), ?_⟩
  decide +kernel

end Codemod
