import Codemod.Text.Offset
import Codemod.Text.Quoted

/-!
# Call Heads

A call head is the text that a call starts with, up to and including the
parenthesis that opens its arguments. It is looked for literally. The type
stores what stands before the parenthesis and adds the parenthesis itself, so
that a match always ends just past an opening one: the scan for the closer
relies on that and never has to check it.

Occurrences are taken leftmost first, and the search goes on behind the last
one found. `CallHead.split?` is the one search primitive; everything that
speaks of offsets is stated over it.

## Main definitions

* `CallHead`: A text that ends in an opening parenthesis.
* `CallHead.withOpacity`: The deprecated call this tool is for.
* `CallHead.ofText`: A head from arbitrary text.
* `CallHead.split?`: A text cut around the leftmost occurrence.
* `CallHead.find?`: The leftmost occurrence from a byte position on.
* `CallHead.findAll`: All occurrences that a scan meets.

## Theorems

* `CallHead.eq_of_split?`: A cut text is what stands before the head, the head
  and what stands after it.
* `CallHead.length_lt_of_split?`: What stands after a head is shorter than the
  whole.
-/

namespace Codemod

/-- A call head, stored without the opening parenthesis that it ends in. -/
structure CallHead where
  /-- What stands before the parenthesis. -/
  stem : Text
deriving DecidableEq, Repr

/-- Why a text is no call head. -/
inductive HeadError
  /-- The text does not end in an opening parenthesis. -/
  | notOpening (head : Text)
deriving DecidableEq, Repr

def HeadError.message : HeadError → String
  | .notOpening head => s!"call head must end with '(': " ++ String.ofList head.quoted

/-- A half-open range of byte positions. -/
structure Span where
  start : Nat
  stop : Nat
deriving DecidableEq, Repr

namespace CallHead

/-- The whole head, parenthesis included. -/
def text (h : CallHead) : Text := h.stem ++ ['(']

def width (h : CallHead) : Nat := h.text.byteLength

/-- The head of a call that sets an opacity. -/
def withOpacity : CallHead := ⟨".withOpacity".toList⟩

/-- The head that a text spells. -/
def ofText (t : Text) : Except HeadError CallHead :=
  if t.getLast? = some '(' then .ok ⟨t.dropLast⟩ else .error (.notOpening t)

/-- Cuts a text around the leftmost occurrence of the head, into what stands
    before it and what stands after it. -/
def split? (h : CallHead) : Text → Option (Text × Text)
  | [] => none
  | c :: s =>
    if h.text.isPrefixOf (c :: s) then some ([], (c :: s).drop h.text.length)
    else (h.split? s).map fun (gap, rest) => (c :: gap, rest)

/-- A text that holds the head is the gap before it, the head and the rest. -/
theorem eq_of_split? {h : CallHead} {s gap rest : Text} (e : h.split? s = some (gap, rest)) :
    s = gap ++ (h.text ++ rest) := by
  induction s generalizing gap with
  | nil => simp [split?] at e
  | cons c s ih =>
      rw [split?] at e
      split at e
      -- The head stands right here.
      · rename_i hp
        obtain ⟨t, ht⟩ := List.isPrefixOf_iff_prefix.1 hp
        obtain ⟨rfl, rfl⟩ := Prod.mk.inj (Option.some.inj e)
        rw [← ht, List.drop_left, List.nil_append]
      -- The head stands further on, and the gap has this character in front.
      · obtain ⟨⟨g, r⟩, hg, he⟩ := Option.map_eq_some_iff.1 e
        obtain ⟨rfl, rfl⟩ := Prod.mk.inj he
        rw [ih hg, List.cons_append]

/-- The rest behind a head is shorter than the whole, which is why a scan that
    goes on there ends. -/
theorem length_lt_of_split? {h : CallHead} {s gap rest : Text}
    (e : h.split? s = some (gap, rest)) : rest.length < s.length := by
  have := congrArg List.length (eq_of_split? e)
  simp only [text, List.length_append, List.length_cons, List.length_nil] at this
  omega

/-- The leftmost occurrence that starts at byte `start` or later. A position
    inside a character counts as the next boundary, where alone an occurrence
    can start. -/
def find? (h : CallHead) (s : Text) (start : Nat) : Option Span := do
  let (skipped, rest) ← s.seek start
  let (gap, _) ← h.split? rest
  let found := start + skipped + gap.byteLength
  return ⟨found, found + h.width⟩

/-- The occurrences that a scan meets in the text that starts at byte `start`,
    each looked for from the end of the one before. -/
def spansFrom (h : CallHead) (start : Nat) (s : Text) : List Span :=
  match _e : h.split? s with
  | none => []
  | some (gap, rest) =>
    let found := start + gap.byteLength
    ⟨found, found + h.width⟩ :: h.spansFrom (found + h.width) rest
termination_by s.length
decreasing_by exact length_lt_of_split? _e

/-- All occurrences that a scan of the whole text meets. -/
def findAll (h : CallHead) (s : Text) : List Span := h.spansFrom 0 s

end CallHead

end Codemod
