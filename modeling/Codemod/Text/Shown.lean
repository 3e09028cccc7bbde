import Codemod.Text.Offset

/-!
# Text Shown on a Terminal

A message repeats words of the user, and a word may hold characters that drive
a terminal instead of showing on it. `Text.shown` leaves those out: controls
that are not blanks, and control sequences from the escape character to their
end. A sequence that does not end takes the rest of the text with it.

A blank in the middle of a sequence interrupts it and is shown, and so is the
text behind the blank. A message that is made as a text has forgotten the
sequence by then. A message that is written to a stream goes on with it at the
next control that does not show, unless a character of several bytes or a
cancelling control has come before.

A terminal reads bytes and knows sequences in ASCII only. A character of
several bytes inside a sequence is therefore not shown and has no effect, with
one exception: the byte that ends a string does so even as a part of a
character.

## Main definitions

* `Sequence`: The kind of control sequence that a text is in the middle of.
* `Sequence.next?`: What a character does to a sequence.
* `Medium`: A message as a text or on a stream.
* `Showing`: What a text is in the middle of.
* `Text.shown`: What a terminal shows of a text.
-/

namespace Codemod

/-- The kind of control sequence that a text is in the middle of. -/
inductive Sequence
  | escape
  /-- Behind an escape character and intermediate characters. -/
  | intermediate
  /-- Behind an escape character and a bracket: parameters and a last letter. -/
  | parameters
  /-- A command for the system around the terminal, which a bell ends. -/
  | command
  /-- The start of a string for a device. -/
  | device
  /-- The parameters of a string for a device. -/
  | deviceParameters
  /-- The intermediate characters behind those parameters. -/
  | deviceIntermediate
  | string
deriving DecidableEq, Repr

/-- The controls that take up space instead of driving the terminal. -/
def isBlankControl (c : Char) : Bool := c = '\t' || c = '\n' || c = '\x0c' || c = '\r'

/-- Whether the byte that ends a string is among the bytes of a character. -/
def holdsTerminator (c : Char) : Bool := (String.utf8EncodeChar c).contains 0x9C

namespace Sequence

/-- Whether controls are carried out in the middle of a sequence. -/
def obeysControls : Sequence → Bool
  | .escape | .intermediate | .parameters => true
  | _ => false

/-- The sequence that a printable ASCII character leaves behind, if it does not
    end it. -/
def next? (q : Sequence) (c : Char) : Option Sequence :=
  match q with
  | .escape =>
    if c < '0' then some .intermediate
    else if c = '[' then some .parameters
    else if c = ']' then some .command
    else if c = 'P' then some .device
    else if c = 'X' ∨ c = '^' ∨ c = '_' then some .string
    else none
  | .intermediate => if c < '0' then some .intermediate else none
  | .parameters => if c < '@' then some .parameters else none
  | .command => some .command
  | .device =>
    if c < '0' then some .deviceIntermediate
    else if c < '@' then some .deviceParameters
    else some .string
  | .deviceParameters =>
    if c < '0' then some .deviceIntermediate
    else if c < '<' then some .deviceParameters
    else some .string
  | .deviceIntermediate => if c < '0' then some .deviceIntermediate else some .string
  | .string => some .string

end Sequence

/-- What a message is made for. -/
inductive Medium
  /-- A text: a blank ends the sequence that it interrupts. -/
  | text
  /-- A stream of bytes: a control takes up the sequence that a blank
      interrupted. -/
  | stream
deriving DecidableEq, Repr

/-- What a text is in the middle of. -/
inductive Showing
  | plain
  | inside (q : Sequence)
  /-- Text that is shown behind a blank that interrupted a sequence. -/
  | interrupted (q : Sequence)
deriving DecidableEq, Repr

/-- What a blank in the middle of a sequence leaves behind. -/
def Medium.interrupt (m : Medium) (q : Sequence) : Showing :=
  match m with
  | .text => .plain
  | .stream => .interrupted q

/-- Whether a character is a control that does not show. -/
def isHiddenControl (c : Char) : Bool := c = '\x7f' || (c < ' ' && !isBlankControl c)

namespace Showing

/-- What a character other than the escape character leaves a text in the
    middle of, and whether it is shown. -/
def next (m : Medium) (c : Char) : Showing → Showing × Bool
  | .plain => (.plain, !isHiddenControl c)
  | .interrupted q =>
    if c = '\x18' ∨ c = '\x1a' then (.plain, false)
    else if isHiddenControl c then (.inside q, false)
    else (if '\x7f' < c then .plain else .interrupted q, true)
  | .inside q =>
    if c = '\x18' ∨ c = '\x1a' ∨ (c = '\x07' ∧ q = .command) then (.plain, false)
    else if q.obeysControls ∧ isBlankControl c then (m.interrupt q, true)
    else if c < ' ' ∨ c = '\x7f' then (.inside q, false)
    -- Bytes beyond ASCII: only the end of a string is among them.
    else if '\x7f' < c then
      (if q = .string ∧ holdsTerminator c then .plain else .inside q, false)
    else ((q.next? c).elim .plain .inside, false)

end Showing

namespace Text

/-- What a terminal shows of a text that starts in the middle of something. -/
def shownFrom (m : Medium) (now : Showing) : Text → Text
  | [] => []
  | c :: s =>
    if c = '\x1b' then shownFrom m (.inside .escape) s
    else
      let (after, visible) := now.next m c
      if visible then c :: shownFrom m after s else shownFrom m after s

/-- What a terminal shows of a text. -/
def shown (m : Medium) (s : Text) : Text := shownFrom m .plain s

end Text

end Codemod
