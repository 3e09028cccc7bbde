import Codemod.Text.Blank

/-!
# Call Arguments

The argument of a call runs from behind its opening parenthesis to the matching
closer. The scan is purely lexical: every parenthesis counts, also one inside a
string or a comment of the language at hand, which keeps the tool independent
of that language.

`Text.splitClose` carries the number of parentheses opened since, so that zero
stands for the level of the call itself and the closer found there is the one
sought. Where the text ends first, the number of parentheses still open is the
one more that the call opened.

## Main definitions

* `Text.levelAfter`: How one character changes the nesting.
* `Text.splitClose`: A text cut at the closer of an open parenthesis.
* `Unbalanced`: A scan that met no closer.
* `Argument`: A found argument and where the text goes on.
* `argumentAt`: The argument that starts at a byte position.

## Theorems

* `Text.eq_of_splitClose`: A cut text is the body, the closer and the rest.
* `Text.length_lt_of_splitClose`: The rest is shorter than the whole.
* `argumentAt_byteLength`: At a character boundary, the scan decides.
-/

namespace Codemod

namespace Text

/-- The number of parentheses open behind a character, given the number open
    before it. -/
def levelAfter (nested : Nat) (c : Char) : Nat :=
  if c = '(' then nested + 1 else if c = ')' then nested - 1 else nested

/-- Cuts a text at the parenthesis that closes one opened before it, with
    `nested` more opened since, into the body before the closer and the rest
    behind it. Without such a closer, the number of parentheses open at the
    end, the first one included. -/
def splitClose (nested : Nat) : Text → Except Nat (Text × Text)
  | [] => .error (nested + 1)
  | c :: s =>
    if c = ')' ∧ nested = 0 then .ok ([], s)
    else (splitClose (levelAfter nested c) s).map fun (body, rest) => (c :: body, rest)

/-- A text that holds the closer is the body, the closer and the rest. -/
theorem eq_of_splitClose {nested : Nat} {s body rest : Text}
    (e : splitClose nested s = .ok (body, rest)) : s = body ++ ')' :: rest := by
  induction s generalizing nested body with
  | nil => simp [splitClose] at e
  | cons c s ih =>
      rw [splitClose] at e
      split at e
      -- The closer stands right here, behind an empty body.
      · rename_i hc
        obtain ⟨rfl, rfl⟩ := Prod.mk.inj (Except.ok.inj e)
        rw [hc.1, List.nil_append]
      -- The closer stands further on, at whatever level that is.
      · cases hr : splitClose (levelAfter nested c) s with
        | error d => simp [hr, Except.map] at e
        | ok p =>
            simp only [hr, Except.map, Except.ok.injEq, Prod.mk.injEq] at e
            rw [ih (hr.trans (by rw [← e.2])), ← e.1, List.cons_append]

/-- The rest behind a closer is shorter than the whole. -/
theorem length_lt_of_splitClose {nested : Nat} {s body rest : Text}
    (e : splitClose nested s = .ok (body, rest)) : rest.length < s.length := by
  have := congrArg List.length (eq_of_splitClose e)
  simp only [List.length_append, List.length_cons] at this
  omega

end Text

/-- A scan that reached the end of the text with parentheses open. -/
structure Unbalanced where
  /-- The byte position that the scan started from. -/
  start : Nat
  /-- The number of parentheses open at the end. -/
  depth : Nat
deriving DecidableEq, Repr

def Unbalanced.message (u : Unbalanced) : String :=
  s!"unbalanced parentheses: {u.depth} still open at end of text " ++
    s!"(scan started at offset {u.start})"

/-- Why there is no argument at a position. -/
inductive ArgumentError
  /-- The text ends before the closer. -/
  | unbalanced (reason : Unbalanced)
  /-- The position lies inside a character, so no text starts there. -/
  | insideCharacter
deriving DecidableEq, Repr

structure Argument where
  /-- The text between the parentheses, without the blanks at its ends. -/
  text : Text
  /-- The byte position behind the closer. -/
  next : Nat
deriving DecidableEq, Repr

/-- The argument that starts at byte `start`, just behind an opening
    parenthesis. The bytes inside a character are no parentheses, so the scan
    may start there, but then a closer comes too late to give a text. -/
def argumentAt (s : Text) (start : Nat) : Except ArgumentError Argument :=
  match s.seek start with
  | none => .error (.unbalanced ⟨start, 1⟩)
  | some (skipped, rest) =>
    match rest.splitClose 0 with
    | .error depth => .error (.unbalanced ⟨start, depth⟩)
    | .ok (body, _) =>
      if skipped = 0 then .ok ⟨body.trim, start + body.byteLength + 1⟩
      else .error .insideCharacter

/-- At a character boundary, there is an argument whenever the scan from there
    finds a closer. -/
theorem argumentAt_byteLength (s t : Text) :
    argumentAt (s ++ t) s.byteLength =
      match t.splitClose 0 with
      | .error depth => .error (.unbalanced ⟨s.byteLength, depth⟩)
      | .ok (body, _) => .ok ⟨body.trim, s.byteLength + body.byteLength + 1⟩ := by
  rw [argumentAt, Text.seek_byteLength]
  simp only [if_true]

end Codemod
