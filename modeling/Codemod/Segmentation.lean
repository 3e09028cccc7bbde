import Codemod.Call.Argument
import Codemod.Call.Head

/-!
# Segmentation of a Text by its Calls

A pass over a text reads it once, from left to right, and what it reads is a
sequence of calls with text between them. Each call has a gap before it, then
the head, then a body up to the matching closer; behind the last call there is
a tail. The tail either holds no head at all, or holds one that is never
closed, and then the scan stops at that head.

Keeping the segmentation as a value separates the search from the replacement.
A segmentation can be put together again, which gives back the text it came
from, and it can be rendered with its calls replaced, which is the pass. A
body is not searched in turn: a call inside an argument belongs to that
argument.

## Main definitions

* `Call`: A gap and the body of the call behind it.
* `Tail`: What follows the last call.
* `Segmentation`: Calls and a tail.
* `Segmentation.source`: The text that a segmentation cuts up.
* `Segmentation.ofText`: The segmentation of a text.

## Theorems

* `Segmentation.source_ofText`: Nothing is lost in cutting up a text.
-/

namespace Codemod

/-- A closed call and the text before it. -/
structure Call where
  /-- The text since the previous closer. -/
  gap : Text
  /-- The text between the parentheses of the call. -/
  body : Text
deriving DecidableEq, Repr

/-- What follows the last closed call. -/
inductive Tail
  | clear (text : Text)
  /-- A gap, then a call head with `depth` parentheses open at the end of what
      follows it. -/
  | unclosed (gap rest : Text) (depth : Nat)
deriving DecidableEq, Repr

/-- A text cut up by its calls. -/
structure Segmentation where
  calls : List Call
  tail : Tail
deriving DecidableEq, Repr

/-- The text of a call, gap included. -/
def Call.source (h : CallHead) (c : Call) : Text :=
  c.gap ++ (h.text ++ (c.body ++ [')']))

def Tail.source (h : CallHead) : Tail → Text
  | .clear text => text
  | .unclosed gap rest _ => gap ++ (h.text ++ rest)

namespace Segmentation

def source (h : CallHead) (g : Segmentation) : Text :=
  g.calls.flatMap (Call.source h) ++ g.tail.source h

def cons (c : Call) (g : Segmentation) : Segmentation := { g with calls := c :: g.calls }

theorem source_cons (h : CallHead) (c : Call) (g : Segmentation) :
    (g.cons c).source h = c.source h ++ g.source h := by
  rw [source, cons, List.flatMap_cons, List.append_assoc]
  rfl

/-- Cuts up a text: at the leftmost head, at its closer, and so on behind it. -/
def ofText (h : CallHead) (s : Text) : Segmentation :=
  match _found : h.split? s with
  | none => ⟨[], .clear s⟩
  | some (gap, rest) =>
    match _closed : rest.splitClose 0 with
    | .error depth => ⟨[], .unclosed gap rest depth⟩
    | .ok (body, after) => cons ⟨gap, body⟩ (ofText h after)
termination_by s.length
decreasing_by
  exact Nat.lt_trans (Text.length_lt_of_splitClose _closed) (CallHead.length_lt_of_split? _found)

/-- Nothing is lost in cutting up a text. -/
theorem source_ofText (h : CallHead) (s : Text) : (ofText h s).source h = s := by
  fun_induction ofText h s with
  | case1 s hs => simp [source, Tail.source]
  | case2 s gap rest hs depth hd =>
      simp [source, Tail.source, CallHead.eq_of_split? hs]
  | case3 s gap rest hs body after hb ih =>
      -- Cut the text the way the segmentation does, then compare what is left.
      rw [CallHead.eq_of_split? hs, Text.eq_of_splitClose hb]
      simp only [source, cons, List.flatMap_cons, Call.source, List.append_assoc] at ih ⊢
      rw [ih]
      simp

/-- An argument is shorter than the text that the call stands in. -/
theorem length_argument_lt {h : CallHead} {s : Text} {c : Call} (hc : c ∈ (ofText h s).calls) :
    c.body.trim.length < s.length := by
  have hsource := congrArg List.length (source_ofText h s)
  have hcall := (List.infix_of_mem_flatten (List.mem_map_of_mem (f := Call.source h) hc)).length_le
  have htrim := c.body.length_trim_le
  rw [← List.flatMap_def] at hcall
  simp only [source, Call.source, List.length_append, List.length_singleton] at hsource hcall
  omega

end Segmentation

end Codemod
