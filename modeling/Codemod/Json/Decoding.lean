import Codemod.Json.Tree

/-!
# Taking Values out of a JSON Tree

Functions from a tree to a value of a known shape. A tree of another shape is
refused, but a scalar that does not even hold a value is reported as the fault
it is: the text of a number or a string is read to its end before its kind is
found wrong. Arrays and objects are refused as soon as they open.

Records may be written as objects, with their members in any order and with
members that nobody asked for in between, or as arrays of their fields in a
fixed order. For the first form, `Members.foldKnown` hands the members to a
function that knows its keys; for the second, `Items.next` takes one field and
`Items.finish` checks that none is left over.

## Main definitions

* `Tree.refusal`: The fault of a tree of the wrong shape.
* `Tree.pass`: The fault of a tree that nobody asked for, if it has one.
* `Tree.natural`, `Tree.boolean?`, `Tree.string?`, `Tree.optional`: Scalars.
* `Tree.list`: Arrays of any length.
* `Items.next`, `Items.finish`: Arrays of fixed length.
* `Members.foldKnown`: Objects.
-/

namespace Codemod

namespace Json

/-- What a reader reports that asked for another shape than it met. -/
def Tree.refusal : Tree → Fault
  | .number leaf => match leaf.value with
    | .error f => f
    | .ok _ => .mismatched
  | .string leaf => match leaf.value with
    | .error f => f
    | .ok _ => .mismatched
  | .fault f => f
  | _ => .mismatched

mutual

/-- Passes over a tree: any JSON will do. -/
def Tree.pass : Tree → Except Fault Unit
  | .number leaf => leaf.passed
  | .string leaf => leaf.passed
  | .array items => items.pass
  | .object members => members.pass
  | .fault f => .error f
  | _ => .ok ()

def Items.pass : Items → Except Fault Unit
  | .close => .ok ()
  | .item value rest => do value.pass; rest.pass
  | .fault f => .error f

def Members.pass : Members → Except Fault Unit
  | .close => .ok ()
  | .member key value rest => do key.passed; value.pass; rest.pass
  | .fault f => .error f

end

namespace Tree

/-- The value that a view sees in a tree. -/
def viewed (view : Tree → Option α) (t : Tree) : Except Fault α :=
  match view t with
  | some a => .ok a
  | none => .error t.refusal

/-- A natural number below `2 ^ 64`. -/
def natural? : Tree → Option Nat
  | .number leaf => leaf.value.toOption.bind Numeral.natural?
  | _ => none

def boolean? : Tree → Option Bool
  | .boolean b => some b
  | _ => none

def string? : Tree → Option String
  | .string leaf => leaf.value.toOption.map String.ofList
  | _ => none

/-- A natural number below `2 ^ 64`, or the fault of the tree. -/
def natural (t : Tree) : Except Fault Nat := t.viewed natural?

/-- A value, or `null` for none. -/
def optional (decode : Tree → Except Fault α) : Tree → Except Fault (Option α)
  | .null => .ok none
  | t => (decode t).map some

end Tree

def Items.decode (decode : Tree → Except Fault α) : Items → Except Fault (List α)
  | .close => .ok []
  | .item value rest => do
    let a ← decode value
    let as ← rest.decode decode
    return a :: as
  | .fault f => .error f

/-- An array of any length, its items decoded. -/
def Tree.list (decode : Tree → Except Fault α) : Tree → Except Fault (List α)
  | .array items => items.decode decode
  | t => .error t.refusal

/-- The next item of an array that must have one more. -/
def Items.next (decode : Tree → Except Fault α) : Items → Except Fault (α × Items)
  | .close => .error .mismatched
  | .item value rest => (decode value).map fun a => (a, rest)
  | .fault f => .error f

/-- The end of an array that must have no more items. -/
def Items.finish : Items → Except Fault Unit
  | .close => .ok ()
  | .item _ _ => .error .malformed
  | .fault f => .error f

/-- Goes through the members of an object. `step` says what a known key does to
    the value gathered so far; a member with any other key is passed over. -/
def Members.foldKnown (step : Text → Tree → σ → Option (Except Fault σ)) (found : σ) :
    Members → Except Fault σ
  | .close => .ok found
  | .member key value rest => do
    match step (← key.value) value found with
    | some result => rest.foldKnown step (← result)
    | none =>
      value.pass
      rest.foldKnown step found
  | .fault f => .error f

/-- Fills the place of a field that may be given once only. -/
def fillOnce (place : Option α) (decode : Tree → Except Fault α) (t : Tree) :
    Except Fault (Option α) :=
  match place with
  | some _ => .error .mismatched
  | none => (decode t).map some

/-- The value of a whole text: nothing but blanks may follow it. -/
def decodeText (decode : Tree → Except Fault α) (s : Text) : Except Fault α := do
  let reading := Tree.read s
  let a ← decode reading.value
  if skipSpace reading.rest = [] then return a else throw .malformed

end Json

end Codemod
