import Codemod.Proofs.SecondPass

/-!
# Emitted Calls

What a reader finds in a call that a pass has put out.

The template opens two parentheses in front of the argument, and each of them has
its closer behind it. A reader who starts behind the first one should come to the
end of the whole call, and one who starts behind the second should come to the
end of the product and so get the argument back. Both go past the argument on the
way, which may hold parentheses of its own at any depth. It never stops them, as
an argument closes all that it opens, and neither does it matter what stands
behind the call.

## Theorems

* `Text.trim_eq_self`: Text with nothing to trim.
* `argumentAt_withAlpha_outer`, `argumentAt_withAlpha_inner`: What stands behind
  the two parentheses of the template.
* `emitted_call_reads_back`: The calls in the result of a pass.
* `emitted_call_reads_back_nested`: An argument with a call of its own.
-/

namespace Codemod

namespace Text

theorem trim_eq_self {s : Text} (hhead : ∀ c, s.head? = some c → isBlank c = false)
    (hlast : ∀ c, s.getLast? = some c → isBlank c = false) : s.trim = s := by
  have hstay : ∀ t : Text, (∀ c, t.head? = some c → isBlank c = false) →
      t.dropWhile isBlank = t := by
    intro t ht
    cases t with
    | nil => rfl
    | cons c t => exact List.dropWhile_cons_of_neg (by rw [ht c rfl]; exact Bool.false_ne_true)
  rw [trim, trimStart, hstay s hhead, trimEnd, hstay, List.reverse_reverse]
  intro c hc
  rw [List.head?_reverse] at hc
  exact hlast c hc

end Text

theorem argumentAt_of_balanced {body : Text} (hbody : body.Balanced) (front rest : Text) :
    argumentAt (front ++ (body ++ ')' :: rest)) front.byteLength =
      .ok ⟨body.trim, front.byteLength + body.byteLength + 1⟩ := by
  rw [argumentAt_byteLength, Text.splitClose_zero_eq_ok_iff.2 ⟨rfl, hbody⟩]

/-! ## The parentheses of the template -/

variable {e : Text}

theorem balanced_product (he : e.Balanced) : Text.Balanced (e ++ " * 255".toList) :=
  he.append (Text.balanced_of_not_mem (by decide) (by decide))

-- The product between its parentheses, and an empty pair behind it.
theorem balanced_rounded (he : e.Balanced) :
    Text.Balanced ('(' :: (e ++ " * 255).round()".toList)) := by
  have hround : Text.Balanced ".round()".toList := by
    rw [Text.balanced_iff_splitClose]
    rfl
  have hsplit : '(' :: (e ++ " * 255).round()".toList) =
      ('(' :: ((e ++ " * 255".toList) ++ [')'])) ++ ".round()".toList := by
    simp
  rw [hsplit]
  exact (balanced_product he).enclose.append hround

/-- Behind the first parenthesis of an emitted call stands all of it but the last
    closer. -/
theorem argumentAt_withAlpha_outer (he : e.Balanced) (front following : Text) :
    argumentAt (front ++ (withAlpha e ++ following)) (front.byteLength + 11) =
      .ok ⟨'(' :: (e ++ " * 255).round()".toList),
        front.byteLength + (withAlpha e).byteLength⟩ := by
  have hopening : opening = ".withAlpha(".toList ++ ['('] := rfl
  have hclosing : closing = " * 255).round()".toList ++ [')'] := rfl
  have hname : Text.byteLength ".withAlpha(".toList = 11 := rfl
  have hround : Text.byteLength " * 255).round()".toList = 15 := rfl
  have hparen : '('.utf8Size = 1 := rfl
  have hsplit : front ++ (withAlpha e ++ following) = (front ++ ".withAlpha(".toList) ++
      (('(' :: (e ++ " * 255).round()".toList)) ++ ')' :: following) := by
    rw [withAlpha_eq, hopening, hclosing]
    simp only [List.append_assoc, List.cons_append, List.nil_append]
  have hread := argumentAt_of_balanced (balanced_rounded he) (front ++ ".withAlpha(".toList)
    following
  rw [← hsplit, Text.byteLength_append, hname] at hread
  rw [hread, byteLength_withAlpha, Text.trim_eq_self]
  · rw [Text.byteLength_cons, Text.byteLength_append, hround, hparen]
    congr 2
    omega
  · rintro c ⟨⟩
    decide
  · intro c hc
    have hlast : " * 255).round()".toList.getLast? = some ')' := rfl
    rw [← List.cons_append, List.getLast?_append, hlast] at hc
    rw [← Option.some.inj hc]
    decide

/-- Behind the second parenthesis of an emitted call stands the product of the
    argument. -/
theorem argumentAt_withAlpha_inner (he : e.Balanced) (front following : Text) :
    argumentAt (front ++ (withAlpha e ++ following)) (front.byteLength + 12) =
      .ok ⟨(e ++ " * 255".toList).trim, front.byteLength + 12 + e.byteLength + 7⟩ := by
  have hopening : opening.byteLength = 12 := rfl
  have hproduct : Text.byteLength " * 255".toList = 6 := rfl
  have hclosing : closing = " * 255".toList ++ ')' :: ".round())".toList := rfl
  have hsplit : front ++ (withAlpha e ++ following) = (front ++ opening) ++
      ((e ++ " * 255".toList) ++ ')' :: (".round())".toList ++ following)) := by
    rw [withAlpha_eq, hclosing]
    simp only [List.append_assoc, List.cons_append]
  have hread := argumentAt_of_balanced (balanced_product he) (front ++ opening)
    (".round())".toList ++ following)
  rw [← hsplit, Text.byteLength_append, hopening] at hread
  rw [hread, Text.byteLength_append, hproduct]
  rfl

/-! ## The calls of a pass -/

/-- Each call that a pass replaces is put out behind the calls before it and its gap.
    Whatever stands behind it, behind its first parenthesis there is an argument that
    ends where the call ends, and behind its second one there is the trimmed
    argument of the replaced call times 255. -/
theorem emitted_call_reads_back (h : CallHead) (s : Text) {before after : List Call} {c : Call}
    (hc : (Segmentation.ofText h s).calls = before ++ c :: after) :
    let e := c.body.trim
    let front : Text := before.flatMap Call.replaced ++ c.gap
    let p := front.byteLength
    let q := (front ++ withAlpha e).byteLength
    (∃ rest, (replaceCalls h s).text = front ++ (withAlpha e ++ rest)) ∧
    ∀ following : Text,
      let out := front ++ (withAlpha e ++ following)
      argumentAt out (p + 11) = .ok ⟨'(' :: (e ++ " * 255).round()".toList), q⟩ ∧
        argumentAt out (p + 12) = .ok ⟨(e ++ " * 255".toList).trim, p + 12 + e.byteLength + 7⟩ := by
  intro e front p q
  have hmem : c ∈ (Segmentation.ofText h s).calls := by
    rw [hc]
    exact List.mem_append_right before List.mem_cons_self
  have he : e.Balanced := ((segments_ofText h s).balanced_of_mem hmem).trim
  refine ⟨⟨after.flatMap Call.replaced ++ (Segmentation.ofText h s).tail.source h, ?_⟩,
    fun following => ⟨?_, argumentAt_withAlpha_inner he front following⟩⟩
  · rw [text_replaceCalls, hc, List.flatMap_append, List.flatMap_cons, Call.replaced]
    simp only [List.append_assoc, front, e]
  · have houter := argumentAt_withAlpha_outer he front following
    rwa [← Text.byteLength_append] at houter

/-- The first of two calls, with a call inside its argument, put out in front of
    parentheses that match nothing. The head has two parentheses. -/
theorem emitted_call_reads_back_nested :
    let h : CallHead := ⟨"f(".toList⟩
    let s : Text := "x f(( é(b) ) + f((2)".toList
    let out : Text := "x .withAlpha((é(b) * 255).round())))((".toList
    (Segmentation.ofText h s).calls =
        [] ++ ⟨"x ".toList, " é(b) ".toList⟩ :: [⟨" + ".toList, "2".toList⟩] ∧
      argumentAt out 13 = .ok ⟨"(é(b) * 255).round()".toList, 35⟩ ∧
      argumentAt out 14 = .ok ⟨"é(b) * 255".toList, 26⟩ := by
  intro h s out
  have hc : (Segmentation.ofText h s).calls =
      [] ++ ⟨"x ".toList, " é(b) ".toList⟩ :: [⟨" + ".toList, "2".toList⟩] := by decide +kernel
  have htrim : Text.trim " é(b) ".toList = "é(b)".toList := by decide +kernel
  have hout : ([] : List Call).flatMap Call.replaced ++ "x ".toList ++
      (withAlpha "é(b)".toList ++ "))((".toList) = out := by decide +kernel
  have hproduct : Text.trim ("é(b)".toList ++ " * 255".toList) = "é(b) * 255".toList := by
    decide +kernel
  have hwhole : '(' :: ("é(b)".toList ++ " * 255).round()".toList) =
      "(é(b) * 255).round()".toList := by decide +kernel
  have hfront : Text.byteLength (([] : List Call).flatMap Call.replaced ++ "x ".toList) = 2 := by
    decide +kernel
  have hstop : Text.byteLength
      (([] : List Call).flatMap Call.replaced ++ "x ".toList ++ withAlpha "é(b)".toList) = 35 := by
    decide +kernel
  have hwidth : Text.byteLength "é(b)".toList = 5 := by decide +kernel
  have hread := (emitted_call_reads_back h s hc).2 "))((".toList
  dsimp only at hread
  rw [htrim, hout, hproduct, hwhole, hfront, hstop, hwidth] at hread
  exact ⟨hc, hread.1, hread.2⟩

end Codemod
