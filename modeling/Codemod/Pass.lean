import Codemod.Segmentation

/-!
# The Pass over a Text

One pass over a text replaces every call that its segmentation lists and leaves
all else as it is. Where the segmentation ends in a head that is never closed,
the pass ends there too: the text from that head on is kept, and the outcome
says where the head stands.

A replaced argument is not searched for further calls, so calls nested in one
another need one pass for each level.

## Main definitions

* `withAlpha`: The replacement for a call.
* `Ending`: How a pass ended.
* `Outcome`: What a pass makes of a text.
* `Segmentation.outcome`: The pass over a text already cut up.
* `replaceCalls`: The pass over a text.
* `passes`: Passes over a text and over their own results.
-/

namespace Codemod

/-- The call that replaces one with the argument `expr`: the opacity becomes an
    alpha value from 0 to 255. -/
def withAlpha (expr : Text) : Text :=
  ".withAlpha((".toList ++ expr ++ " * 255).round())".toList

/-- How a pass ended. -/
inductive Ending
  /-- No call head was left. -/
  | done
  /-- The head at byte `offset`, on line `line`, has no closer. -/
  | aborted (offset line : Nat) (reason : Unbalanced)
deriving DecidableEq, Repr

/-- What a pass makes of a text. -/
structure Outcome where
  text : Text
  replacements : Nat
  ending : Ending
deriving DecidableEq, Repr

namespace Outcome

def changed (o : Outcome) : Bool := 0 < o.replacements

/-- Where the unclosed head stands, if the pass met one. -/
def unbalancedAt? (o : Outcome) : Option Nat :=
  match o.ending with
  | .done => none
  | .aborted offset _ _ => some offset

/-- The line of the unclosed head, if the pass met one. -/
def unbalancedLine? (o : Outcome) : Option Nat :=
  match o.ending with
  | .done => none
  | .aborted _ line _ => some line

/-- What the scan for the closer reported, if there was none. -/
def unbalanced? (o : Outcome) : Option Unbalanced :=
  match o.ending with
  | .done => none
  | .aborted _ _ reason => some reason

end Outcome

/-- The text of a call with the call replaced. -/
def Call.replaced (c : Call) : Text := c.gap ++ withAlpha c.body.trim

namespace Segmentation

/-- The text with every call replaced. -/
def replaced (h : CallHead) (g : Segmentation) : Text :=
  g.calls.flatMap Call.replaced ++ g.tail.source h

theorem replaced_cons (h : CallHead) (c : Call) (g : Segmentation) :
    (g.cons c).replaced h = c.replaced ++ g.replaced h := by
  rw [replaced, cons, List.flatMap_cons, List.append_assoc]
  rfl

def ending (h : CallHead) (g : Segmentation) : Ending :=
  match g.tail with
  | .clear _ => .done
  | .unclosed gap _ depth =>
    let before : Text := g.calls.flatMap (Call.source h) ++ gap
    let offset := before.byteLength
    .aborted offset (1 + before.count '\n') ⟨offset + h.width, depth⟩

def outcome (h : CallHead) (g : Segmentation) : Outcome :=
  ⟨g.replaced h, g.calls.length, g.ending h⟩

end Segmentation

/-- One pass over a text. -/
def replaceCalls (h : CallHead) (s : Text) : Outcome := (Segmentation.ofText h s).outcome h

/-- The result has the replaced calls, each behind its gap, and then the tail. -/
theorem text_replaceCalls (h : CallHead) (s : Text) :
    (replaceCalls h s).text =
      (Segmentation.ofText h s).calls.flatMap Call.replaced ++
        (Segmentation.ofText h s).tail.source h := rfl

/-- The outcomes of `n` passes, the first over the text and each other one over
    the result of the one before. -/
def passes (h : CallHead) : Nat → Text → List Outcome
  | 0, _ => []
  | n + 1, s => let o := replaceCalls h s; o :: passes h n o.text

end Codemod
