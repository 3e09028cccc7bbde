import Codemod.Options.Basic

/-!
# Reading a Command Line

The words of a command line are read from left to right. A setting whose value
is a word of its own is pending until it is clear that the value has come: it
is settled when the next option is met or the words end. An option that is
settled, or that needs no settling, is entered into a draft, and entering it
checks it. A word that fits nowhere is reported on the spot, even while a
setting is pending.

A word that starts with a hyphen is an option, except for the hyphen alone. So
a value that starts with a hyphen has to be attached to its option.

## Main definitions

* `Options.Draft`: The options entered so far.
* `Options.Scan`: A draft and a pending setting.
* `Options.Scan.words`: Reading the words.
* `Options.ofWords`: The options of a command line.
-/

namespace Codemod

namespace Options

/-- The options entered so far. -/
structure Draft where
  root : Option Text := none
  sourceDir : Option Text := none
  extension : Option Text := none
  format : Option ReportFormat := none
  dryRun : Bool := false
  log : Bool := false
deriving DecidableEq

namespace Draft

def has (d : Draft) : Setting → Bool
  | .root => d.root.isSome
  | .sourceDir => d.sourceDir.isSome
  | .extension => d.extension.isSome
  | .format => d.format.isSome

/-- Enters a setting with its value. Only an extension may be empty. -/
def set (d : Draft) (s : Setting) (value : Text) : Except OptionError Draft :=
  if d.has s then .error (.repeated (.setting s))
  else
    match s with
    | .extension => .ok { d with extension := some value }
    | .root =>
      if value = [] then .error (.valueRequired s) else .ok { d with root := some value }
    | .sourceDir =>
      if value = [] then .error (.valueRequired s) else .ok { d with sourceDir := some value }
    | .format =>
      if value = [] then .error (.valueRequired s)
      else
        match ReportFormat.ofName? value with
        | none => .error (.invalidValue s value)
        | some f => .ok { d with format := some f }

def turnOn (d : Draft) : Switch → Except OptionError Draft
  | .dryRun =>
    if d.dryRun then .error (.repeated (.switch .dryRun)) else .ok { d with dryRun := true }
  | .log => if d.log then .error (.repeated (.switch .log)) else .ok { d with log := true }

/-- The options of a draft, with defaults for the settings not entered. -/
def finish (d : Draft) : Options :=
  { root := d.root.map Path.ofText
    sourceDir := (d.sourceDir.map Path.ofText).getD (.ofString Config.defaultSourceDir)
    extension := (d.extension.map String.ofList).getD Config.defaultExtension
    dryRun := d.dryRun
    format := d.format.getD .text
    log := d.log }

end Draft

/-- A draft, and the setting whose value is or would be a word of its own. -/
structure Scan where
  draft : Draft := {}
  pending : Option (Setting × Option Text) := none
deriving DecidableEq

namespace Scan

/-- Enters the pending setting. -/
def settle (st : Scan) : Except OptionError Draft :=
  match st.pending with
  | none => .ok st.draft
  | some (s, none) => .error (.valueRequired s)
  | some (s, some value) => st.draft.set s value

/-- Meets a setting whose value is attached. -/
def attached (st : Scan) (s : Setting) (value : Text) : Except OptionError Scan := do
  return { draft := ← (← st.settle).set s value }

/-- Meets a setting whose value has to come. -/
def bare (st : Scan) (s : Setting) : Except OptionError Scan := do
  return { draft := ← st.settle, pending := some (s, none) }

def switch (st : Scan) (s : Switch) : Except OptionError Scan := do
  return { draft := ← (← st.settle).turnOn s }

def help (st : Scan) : Except OptionError Scan := do
  let _ ← st.settle
  throw .helpRequested

/-- Meets the long option `name`, with the value behind an equals sign if one
    is written. -/
def long (st : Scan) (name : Text) (value : Option Text) : Except OptionError Scan :=
  match OptionName.ofLong? name, value with
  | none, _ => .error (.unexpectedWord ("--".toList ++ name))
  | some (.setting s), some v => st.attached s v
  | some (.setting s), none => st.bare s
  | some o, some v => .error (.unexpectedValue o v)
  | some (.switch s), none => st.switch s
  | some .help, none => st.help

/-- Meets short options in one word. A setting among them takes the rest of
    the word for its value, less an equals sign in front. -/
def cluster (st : Scan) : Text → Except OptionError Scan
  | [] => .ok st
  | c :: rest =>
    match OptionName.ofShort? c with
    | none => .error (.unexpectedWord ['-', c])
    | some (.switch s) => do (← st.switch s).cluster rest
    | some .help => st.help
    | some (.setting s) =>
      match rest with
      | [] => st.bare s
      | '=' :: value => st.attached s value
      | value => st.attached s value

/-- Meets a word that is no option: the value that is waited for, if any. -/
def value (st : Scan) (word : Text) : Except OptionError Scan :=
  match st.pending with
  | some (s, none) => .ok { st with pending := some (s, some word) }
  | _ => .error (.unexpectedWord word)

/-- Splits what follows two hyphens at its first equals sign. -/
def splitLong (s : Text) : Text × Option Text :=
  (s.takeWhile (· ≠ '='),
    match s.dropWhile (· ≠ '=') with
    | [] => none
    | _ :: v => some v)

/-- Meets a word other than two hyphens. -/
def word (st : Scan) : Text → Except OptionError Scan
  | '-' :: '-' :: s => st.long (splitLong s).1 (splitLong s).2
  | '-' :: c :: s => st.cluster (c :: s)
  | w => st.value w

/-- Reads words to their end. Two hyphens alone end the options, and since
    nothing but options is taken, no word may follow them. -/
def words (st : Scan) : List Text → Except OptionError Draft
  | [] => st.settle
  | w :: ws =>
    if w = ['-', '-'] then
      match ws with
      | [] => st.settle
      | x :: _ => .error (.unexpectedWord x)
    else do (← st.word w).words ws

end Scan

/-- The options that the words of a command line give. -/
def ofWords (argv : List String) : Except OptionError Options :=
  ((Scan.words {} (argv.map String.toList)).map Draft.finish)

end Options

end Codemod
