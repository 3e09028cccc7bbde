import Codemod.Json.Decoding
import Codemod.Json.Value
import Codemod.Report.Basic

/-!
# Reports as JSON

A report is written as an object whose members have a fixed order, and read
back from any order. Unknown members are passed over, a known one must not come
twice, and only the line of an unclosed call may be missing. In place of an
object, the array of its fields in the order of writing is accepted too, and
then every field has to be there.

A member of an object is gathered in a draft, which has a place for each field;
the object is complete when the places that matter are filled.

## Main definitions

* `Report.toJson`, `Report.json`: The written form.
* `Report.ofTree`, `Report.ofText`: Reading it back.
-/

namespace Codemod

open Json

/-- The written form of a record. -/
def FileRecord.toJson (r : FileRecord) : Json :=
  .object [
    ("path".toList, .string r.path.toList),
    ("changed".toList, .boolean r.changed),
    ("replacements".toList, .natural r.replacements),
    ("unbalanced_line".toList, r.unbalancedLine.elim .null .natural)]

def FileError.toJson (e : FileError) : Json :=
  .object [
    ("path".toList, .string e.path.toList),
    ("message".toList, .string e.message.toList)]

/-- The written form of a report. -/
def Report.toJson (r : Report) : Json :=
  .object [
    ("files_scanned".toList, .natural r.filesScanned),
    ("records".toList, .array (r.records.map FileRecord.toJson)),
    ("errors".toList, .array (r.errors.map FileError.toJson)),
    ("dry_run".toList, .boolean r.dryRun)]

/-- The text of the written form. -/
def Report.json (r : Report) : String := String.ofList r.toJson.pretty

/-! ## Records -/

/-- The fields of a record found so far. -/
structure FileRecord.Draft where
  path : Option String := none
  changed : Option Bool := none
  replacements : Option Nat := none
  unbalancedLine : Option (Option Nat) := none

namespace FileRecord

/-- What a member does to the draft of a record. -/
def Draft.add (key : Text) (value : Tree) (d : Draft) : Option (Except Fault Draft) :=
  if key = "path".toList then
    some ((fillOnce d.path (Tree.viewed Tree.string?) value).map fun p => { d with path := p })
  else if key = "changed".toList then
    some ((fillOnce d.changed (Tree.viewed Tree.boolean?) value).map
      fun p => { d with changed := p })
  else if key = "replacements".toList then
    some ((fillOnce d.replacements Tree.natural value).map
      fun p => { d with replacements := p })
  else if key = "unbalanced_line".toList then
    some ((fillOnce d.unbalancedLine (Tree.optional Tree.natural) value).map
      fun p => { d with unbalancedLine := p })
  else none

/-- The record of a complete draft. -/
def Draft.finish (d : Draft) : Except Fault FileRecord :=
  match d.path, d.changed, d.replacements with
  | some path, some changed, some replacements =>
    .ok ⟨path, changed, replacements, d.unbalancedLine.join⟩
  | _, _, _ => .error .mismatched

/-- The record that a tree stands for. -/
def ofTree : Tree → Except Fault FileRecord
  | .array items => do
    let (path, items) ← items.next (Tree.viewed Tree.string?)
    let (changed, items) ← items.next (Tree.viewed Tree.boolean?)
    let (replacements, items) ← items.next Tree.natural
    let (unbalancedLine, items) ← items.next (Tree.optional Tree.natural)
    items.finish
    return ⟨path, changed, replacements, unbalancedLine⟩
  | .object members => do
    let draft ← members.foldKnown Draft.add {}
    draft.finish
  | t => .error t.refusal

end FileRecord

/-! ## Errors -/

structure FileError.Draft where
  path : Option String := none
  message : Option String := none

namespace FileError

def Draft.add (key : Text) (value : Tree) (d : Draft) : Option (Except Fault Draft) :=
  if key = "path".toList then
    some ((fillOnce d.path (Tree.viewed Tree.string?) value).map fun p => { d with path := p })
  else if key = "message".toList then
    some ((fillOnce d.message (Tree.viewed Tree.string?) value).map
      fun p => { d with message := p })
  else none

def Draft.finish (d : Draft) : Except Fault FileError :=
  match d.path, d.message with
  | some path, some message => .ok ⟨path, message⟩
  | _, _ => .error .mismatched

def ofTree : Tree → Except Fault FileError
  | .array items => do
    let (path, items) ← items.next (Tree.viewed Tree.string?)
    let (message, items) ← items.next (Tree.viewed Tree.string?)
    items.finish
    return ⟨path, message⟩
  | .object members => do
    let draft ← members.foldKnown Draft.add {}
    draft.finish
  | t => .error t.refusal

end FileError

/-! ## Reports -/

structure Report.Draft where
  filesScanned : Option Nat := none
  records : Option (List FileRecord) := none
  errors : Option (List FileError) := none
  dryRun : Option Bool := none

namespace Report

def Draft.add (key : Text) (value : Tree) (d : Draft) : Option (Except Fault Draft) :=
  if key = "files_scanned".toList then
    some ((fillOnce d.filesScanned Tree.natural value).map
      fun p => { d with filesScanned := p })
  else if key = "records".toList then
    some ((fillOnce d.records (Tree.list FileRecord.ofTree) value).map
      fun p => { d with records := p })
  else if key = "errors".toList then
    some ((fillOnce d.errors (Tree.list FileError.ofTree) value).map
      fun p => { d with errors := p })
  else if key = "dry_run".toList then
    some ((fillOnce d.dryRun (Tree.viewed Tree.boolean?) value).map
      fun p => { d with dryRun := p })
  else none

def Draft.finish (d : Draft) : Except Fault Report :=
  match d.filesScanned, d.records, d.errors, d.dryRun with
  | some filesScanned, some records, some errors, some dryRun =>
    .ok ⟨filesScanned, records, errors, dryRun⟩
  | _, _, _, _ => .error .mismatched

def ofTree : Tree → Except Fault Report
  | .array items => do
    let (filesScanned, items) ← items.next Tree.natural
    let (records, items) ← items.next (Tree.list FileRecord.ofTree)
    let (errors, items) ← items.next (Tree.list FileError.ofTree)
    let (dryRun, items) ← items.next (Tree.viewed Tree.boolean?)
    items.finish
    return ⟨filesScanned, records, errors, dryRun⟩
  | .object members => do
    let draft ← members.foldKnown Draft.add {}
    draft.finish
  | t => .error t.refusal

/-- The report that a text stands for. -/
def ofText (s : Text) : Except Fault Report := decodeText ofTree s

end Report

end Codemod
