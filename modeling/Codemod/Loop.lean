import Codemod.Pass
import Codemod.Text.Encoding

/-!
# The Pass as a Loop over Bytes

How a pass comes to its outcome when the text is at hand as bytes.

`replaceCalls` says what a pass makes of a text and leaves out how to get there.
A program gets there in a loop that keeps byte positions. Such a position can be
wrong in ways that a list of characters does not have: it can lie inside a
character or behind the end, and the second of two can lie before the first. A
slice between positions like these stops the program, and so does a number that
is lowered below zero. Here all of this is written down, with a fault for each
thing that can go wrong, so that its absence can be stated.

A turn of the loop does one of three things. It looks for the next head from the
cursor, or it goes for the closer of a head that was found, or it copies what is
left of the text and ends the pass.

## Main definitions

* `Fault`: What stops a program.
* `isBoundary`, `slice`: Positions between characters, and the bytes between two
  of them.
* `scanCloser`, `extract`: The argument behind an opening parenthesis.
* `Progress`: A pass under way.
* `Progress.turn`: One turn of the loop.
* `Reaches`: The states of the loop over a text.
-/

namespace Codemod

/-- What stops a program. -/
inductive Fault
  /-- A slice whose ends are out of order, out of range or inside a character. -/
  | slice
  /-- Bytes in the place of a text that are no text. -/
  | encoding
  /-- A number of open parentheses below zero. -/
  | depth
deriving DecidableEq, Repr

/-! ## Slices -/

/-- Whether a position is the end of the bytes or has a byte that starts a
    character. -/
def isBoundary (bytes : List UInt8) (i : Nat) : Bool :=
  i == bytes.length || bytes[i]?.any fun b => !isContinuation b

/-- The bytes from `start` up to `stop`, if both lie between characters. -/
def slice (bytes : List UInt8) (start stop : Nat) : Except Fault (List UInt8) :=
  if start ≤ stop ∧ isBoundary bytes start ∧ isBoundary bytes stop then
    .ok ((bytes.take stop).drop start)
  else .error .slice

/-- The text that a slice of a text stands for. -/
def readSlice (bytes : List UInt8) : Except Fault Text :=
  match decodeText? ⟨⟨bytes⟩⟩ with
  | none => .error .encoding
  | some t => .ok t

/-! ## Arguments -/

def openByte : UInt8 := '('.toUInt8

def closeByte : UInt8 := ')'.toUInt8

/-- A number lowered by one. -/
def lowered : Nat → Except Fault Nat
  | 0 => .error .depth
  | depth + 1 => .ok depth

/-- Goes over bytes, the first of them at `pos`, with `depth` parentheses open, to
    the position of the byte that closes the last of them, or to the number of
    those that stay open. -/
def scanCloser (depth pos : Nat) : List UInt8 → Except Fault (Except Nat Nat)
  | [] => .ok (.error depth)
  | b :: bytes =>
    if b = openByte then scanCloser (depth + 1) (pos + 1) bytes
    else if b = closeByte then do
      let left ← lowered depth
      if left = 0 then return .ok pos else scanCloser left (pos + 1) bytes
    else scanCloser depth (pos + 1) bytes

/-- The argument that starts at byte `start`, or why there is none. -/
def extract (bytes : List UInt8) (start : Nat) : Except Fault (Except Unbalanced Argument) := do
  match ← scanCloser 1 start (bytes.drop start) with
  | .error depth => return .error ⟨start, depth⟩
  | .ok pos =>
    let body ← readSlice (← slice bytes start pos)
    return .ok ⟨body.trim, pos + 1⟩

/-! ## The loop -/

/-- The line that byte `i` lies on. -/
def lineOfByte (bytes : List UInt8) (i : Nat) : Nat :=
  1 + (bytes.take i).count '\n'.toUInt8

/-- What the next turn of the loop is to do. -/
inductive Stage
  /-- To look for a head from the cursor. -/
  | scanning
  /-- To look for the closer of the head at `span`. -/
  | extracting (span : Span)
  /-- To copy the text from byte `start`, because no head is left or for `reason`. -/
  | copying (start : Nat) (reason : Option Unbalanced)
deriving DecidableEq, Repr

/-- A pass under way. The cursor is a position in the text that is read. -/
structure Progress where
  out : List UInt8
  cursor : Nat
  replacements : Nat
  stage : Stage
deriving DecidableEq, Repr

/-- What a turn of the loop leads to. -/
inductive Continuation
  | goOn (p : Progress)
  | finish (out : List UInt8) (replacements : Nat) (ending : Ending)
deriving DecidableEq, Repr

namespace Progress

def start : Progress := ⟨[], 0, 0, .scanning⟩

/-- One turn of the loop over a text. -/
def turn (h : CallHead) (s : Text) (p : Progress) : Except Fault Continuation :=
  match p.stage with
  | .scanning =>
    match h.find? s p.cursor with
    | none => return .goOn { p with stage := .copying p.cursor none }
    | some span => do
      let gap ← slice s.bytes p.cursor span.start
      return .goOn { p with out := p.out ++ gap, stage := .extracting span }
  | .extracting span => do
    match ← extract s.bytes span.stop with
    | .error reason => return .goOn { p with stage := .copying span.start (some reason) }
    | .ok argument =>
      return .goOn
        { out := p.out ++ (withAlpha argument.text).bytes
          cursor := argument.next
          replacements := p.replacements + 1
          stage := .scanning }
  | .copying start reason => do
    let rest ← slice s.bytes start s.bytes.length
    let ending := match reason with
      | none => .done
      | some reason => .aborted start (lineOfByte s.bytes start) reason
    return .finish (p.out ++ rest) p.replacements ending

end Progress

/-- The loop over a text comes to a state in so many turns. -/
inductive Reaches (h : CallHead) (s : Text) : Nat → Progress → Prop
  | start : Reaches h s 0 .start
  | turn {n : Nat} {p q : Progress} (before : Reaches h s n p) (e : p.turn h s = .ok (.goOn q)) :
      Reaches h s (n + 1) q

end Codemod
