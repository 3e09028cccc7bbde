import Codemod.Text.Offset

/-!
# JSON Strings and Numbers as They Are Read

The leaves of a JSON text. A reader that takes the value of a leaf is stricter
than one that passes over it. Passing over a string does not ask whether its
escapes pair up into characters, and passing over a number does not ask whether
it is small enough for a double; on the other hand a number cut off by the end
of the text is an early end for the first reader and no JSON for the second.
So a leaf keeps both verdicts, and who reads it decides which one counts.

## Main definitions

* `Fault`: Why a text does not give the value asked for.
* `Leaf`: The two verdicts on a string or a number.
* `scanString`: A string, read from behind its opening quote.
* `Numeral`: The parts of a number.
* `scanNumber`: A number, read from its first character.
-/

namespace Codemod

namespace Json

/-- Why a text does not give the value asked for. -/
inductive Fault
  /-- The text ends too early. -/
  | ended
  /-- What stands there is no JSON. -/
  | malformed
  /-- It is JSON of another shape than the one asked for. -/
  | mismatched
deriving DecidableEq, Repr

/-- The verdicts on a string or a number. -/
structure Leaf (α : Type) where
  /-- What a reader of the value gets. -/
  value : Except Fault α
  /-- What a reader that passes over the leaf gets. -/
  passed : Except Fault Unit

def isSpace (c : Char) : Bool := c = ' ' || c = '\n' || c = '\t' || c = '\r'

def skipSpace (s : Text) : Text := s.dropWhile isSpace

theorem length_skipSpace_le (s : Text) : (skipSpace s).length ≤ s.length :=
  (List.dropWhile_sublist _).length_le

theorem length_lt_of_skipSpace {s t : Text} {c : Char} (h : skipSpace s = c :: t) :
    t.length < s.length := by
  have := length_skipSpace_le s
  rw [h, List.length_cons] at this
  omega

/-! ## Strings -/

/-- A piece of a string: a character, or a code unit written as four
    hexadecimal digits, which may be half of a character. -/
inductive Piece
  | char (c : Char)
  | unit (n : Nat)

def hexDigit? (c : Char) : Option Nat :=
  if '0' ≤ c ∧ c ≤ '9' then some (c.toNat - '0'.toNat)
  else if 'a' ≤ c ∧ c ≤ 'f' then some (c.toNat - 'a'.toNat + 10)
  else if 'A' ≤ c ∧ c ≤ 'F' then some (c.toNat - 'A'.toNat + 10)
  else none

def hexUnit? (a b c d : Char) : Option Nat := do
  return ((← hexDigit? a) * 16 + (← hexDigit? b)) * 256 + (← hexDigit? c) * 16 + (← hexDigit? d)

/-- The character that a letter behind a backslash stands for. -/
def unescape? (c : Char) : Option Char :=
  if c = '"' ∨ c = '\\' ∨ c = '/' then some c
  else if c = 'b' then some '\x08'
  else if c = 'f' then some '\x0c'
  else if c = 'n' then some '\n'
  else if c = 'r' then some '\r'
  else if c = 't' then some '\t'
  else none

/-- The pieces of a string up to its closing quote or to the first fault, and
    the text behind the quote. Four hexadecimal digits are an early end when
    fewer than four bytes are left for them. -/
def scanPieces : Text → List Piece × Except Fault Text
  | [] => ([], .error .ended)
  | '"' :: s => ([], .ok s)
  | ['\\'] => ([], .error .ended)
  | '\\' :: 'u' :: a :: b :: c :: d :: s =>
    match hexUnit? a b c d with
    | none => ([], .error .malformed)
    | some n => let (pieces, stop) := scanPieces s; (.unit n :: pieces, stop)
  | '\\' :: 'u' :: s => ([], .error (if Text.byteLength s < 4 then .ended else .malformed))
  | '\\' :: e :: s =>
    match unescape? e with
    | none => ([], .error .malformed)
    | some c => let (pieces, stop) := scanPieces s; (.char c :: pieces, stop)
  | c :: s =>
    if c.toNat < 0x20 then ([], .error .malformed)
    else let (pieces, stop) := scanPieces s; (.char c :: pieces, stop)

/-- Whether a code unit is the first half of a character. -/
def isLeading (n : Nat) : Bool := 0xD800 ≤ n && n < 0xDC00

/-- Whether a code unit is the second half of a character. -/
def isTrailing (n : Nat) : Bool := 0xDC00 ≤ n && n < 0xE000

/-- The character of two halves. -/
def joinHalves (n m : Nat) : Char :=
  Char.ofNat (0x10000 + (n - 0xD800) * 0x400 + (m - 0xDC00))

/-- The text of the pieces, where `stop` tells how they end. A half without its
    other half is no JSON, unless the text ends where that would stand. -/
def joinPieces (stop : Except Fault Unit) : List Piece → Except Fault Text
  | [] => stop.map fun _ => []
  | .char c :: rest => (joinPieces stop rest).map (c :: ·)
  | .unit n :: rest =>
    if isTrailing n then .error .malformed
    else if isLeading n then
      match rest, stop with
      | .unit m :: rest, _ =>
        if isTrailing m then (joinPieces stop rest).map (joinHalves n m :: ·)
        else .error .malformed
      -- The string breaks off where the other half should stand.
      | [], .error f => .error f
      | _, _ => .error .malformed
    else (joinPieces stop rest).map (Char.ofNat n :: ·)

/-- Reads a string from behind its opening quote. Nothing is left of the text
    when even passing over the string fails. -/
def scanString (s : Text) : Leaf Text × Text :=
  match scanPieces s with
  | (pieces, .ok rest) => (⟨joinPieces (.ok ()) pieces, .ok ()⟩, rest)
  | (pieces, .error f) => (⟨joinPieces (.error f) pieces, .error f⟩, [])

theorem length_le_of_scanPieces {s rest : Text} (e : (scanPieces s).2 = .ok rest) :
    rest.length ≤ s.length := by
  fun_induction scanPieces s <;> simp_all <;> omega

theorem length_scanString_le (s : Text) : (scanString s).2.length ≤ s.length := by
  rw [scanString]
  split
  · rename_i pieces rest h
    exact length_le_of_scanPieces (by rw [h])
  · simp

/-! ## Numbers -/

structure Numeral where
  negative : Bool
  /-- The digits before the point. -/
  whole : Text
  /-- The digits behind the point; none when there is no point. -/
  fraction : Text
  /-- The sign and the digits of the exponent. -/
  exponent : Option (Bool × Text)
deriving DecidableEq, Repr

def digitsValue (ds : Text) : Nat := Nat.ofDigitChars 10 ds 0

namespace Numeral

/-- The value of a number that is written as a natural one and fits in 64
    bits. Neither a sign nor a fraction nor an exponent may be written. -/
def natural? (n : Numeral) : Option Nat :=
  if n.negative = false ∧ n.fraction = [] ∧ n.exponent = none ∧ digitsValue n.whole < UInt64.size
  then some (digitsValue n.whole) else none

/-- The value of as many leading digits as fit in 64 bits, read on from
    `value`, and the number of digits behind them. -/
def leadingValue (value : Nat) : Text → Nat × Nat
  | [] => (value, 0)
  | d :: ds =>
    let next := 10 * value + (d.toNat - '0'.toNat)
    if next < UInt64.size then leadingValue next ds else (value, ds.length + 1)

/-- The number of 53 significant bits that is nearest to `n`, and of two such
    numbers the one with the even last bit. It is a double when it is below
    `2 ^ 1024`. -/
def nearestDouble (n : Nat) : Nat :=
  let unit := Nat.pow 2 (n.log2 - 52)
  let rest := n % unit
  if 2 * rest < unit ∨ (2 * rest = unit ∧ n / unit % 2 = 0) then n - rest else n - rest + unit

/-- Whether a number is too large for a double. The digits that fit in 64 bits
    are scaled by a power of ten, and each step of that is rounded. -/
def isHuge (n : Numeral) : Bool :=
  let (significand, dropped) := leadingValue 0 (n.whole ++ n.fraction)
  let exponent : Int :=
    match n.exponent with
    | none => 0
    | some (false, ds) => digitsValue ds
    | some (true, ds) => - digitsValue ds
  let scale := exponent + dropped - n.fraction.length
  if significand = 0 ∨ scale ≤ 0 then false
  -- Even the least significand is too large at such a scale.
  else if scale > 308 then true
  else
    let scaled := nearestDouble significand * nearestDouble (Nat.pow 10 scale.toNat)
    Nat.pow 2 1024 ≤ nearestDouble scaled

end Numeral

/-- One or more digits and what follows them. -/
def scanDigits (s : Text) : Except Fault (Text × Text) :=
  match s.takeWhile Char.isDigit with
  | [] => .error (if s.isEmpty then .ended else .malformed)
  | ds => .ok (ds, s.dropWhile Char.isDigit)

/-- The fraction of a number, if one starts here, and what follows it. -/
def scanFraction : Text → Except Fault (Text × Text)
  | '.' :: s => scanDigits s
  | s => .ok ([], s)

/-- The sign of an exponent, if one starts here, and what follows it. -/
def scanSign : Text → Bool × Text
  | '-' :: s => (true, s)
  | '+' :: s => (false, s)
  | s => (false, s)

/-- The exponent of a number, if one starts here, and what follows it. -/
def scanExponent : Text → Except Fault (Option (Bool × Text) × Text)
  | [] => .ok (none, [])
  | c :: s =>
    if c = 'e' ∨ c = 'E' then
      (scanDigits (scanSign s).2).map fun (ds, rest) => (some ((scanSign s).1, ds), rest)
    else .ok (none, c :: s)

/-- The minus of a number, if one starts here, and what follows it. -/
def scanMinus : Text → Bool × Text
  | '-' :: s => (true, s)
  | s => (false, s)

/-- The parts of the number that starts here and what follows it. Only zero
    itself starts with a zero. -/
def scanNumeral (s : Text) : Except Fault (Numeral × Text) := do
  let (whole, t) ← scanDigits (scanMinus s).2
  if whole.head? = some '0' ∧ whole ≠ ['0'] then throw .malformed
  let (fraction, u) ← scanFraction t
  let (exponent, v) ← scanExponent u
  return (⟨(scanMinus s).1, whole, fraction, exponent⟩, v)

/-- Reads a number from its first character. Nothing is left of the text when
    it is no number. -/
def scanNumber (s : Text) : Leaf Numeral × Text :=
  match scanNumeral s with
  | .ok (n, rest) => (⟨if n.isHuge then .error .malformed else .ok n, .ok ()⟩, rest)
  | .error f => (⟨.error f, .error .malformed⟩, [])

theorem length_le_of_scanDigits {s ds rest : Text} (e : scanDigits s = .ok (ds, rest)) :
    rest.length ≤ s.length := by
  rw [scanDigits] at e
  split at e
  · simp at e
  · obtain ⟨-, rfl⟩ := Prod.mk.inj (Except.ok.inj e)
    exact (List.dropWhile_sublist _).length_le

theorem length_le_of_scanFraction {s ds rest : Text} (e : scanFraction s = .ok (ds, rest)) :
    rest.length ≤ s.length := by
  unfold scanFraction at e
  split at e
  · have := length_le_of_scanDigits e
    simp only [List.length_cons]
    omega
  · obtain ⟨-, rfl⟩ := Prod.mk.inj (Except.ok.inj e)
    exact Nat.le_refl _

theorem length_scanSign_le (s : Text) : (scanSign s).2.length ≤ s.length := by
  fun_cases scanSign s <;> simp

theorem length_scanMinus_le (s : Text) : (scanMinus s).2.length ≤ s.length := by
  fun_cases scanMinus s <;> simp

theorem length_le_of_scanExponent {s rest : Text} {x : Option (Bool × Text)}
    (e : scanExponent s = .ok (x, rest)) : rest.length ≤ s.length := by
  unfold scanExponent at e
  split at e
  · obtain ⟨-, rfl⟩ := Prod.mk.inj (Except.ok.inj e)
    exact Nat.le_refl _
  · rename_i c t
    split at e
    · cases hd : scanDigits (scanSign t).2 with
      | error f => simp [hd, Except.map] at e
      | ok p =>
          simp only [hd, Except.map, Except.ok.injEq, Prod.mk.injEq] at e
          have := e.2 ▸ length_le_of_scanDigits hd
          have := length_scanSign_le t
          simp only [List.length_cons]
          omega
    · obtain ⟨-, rfl⟩ := Prod.mk.inj (Except.ok.inj e)
      exact Nat.le_refl _

theorem length_le_of_scanNumeral {s rest : Text} {n : Numeral}
    (e : scanNumeral s = .ok (n, rest)) : rest.length ≤ s.length := by
  simp only [scanNumeral, bind, Except.bind] at e
  split at e
  · simp at e
  · rename_i p hp
    split at e
    · simp [throw, throwThe, MonadExceptOf.throw] at e
    · simp only [pure, Except.pure] at e
      split at e
      · simp at e
      · rename_i q hq
        split at e
        · simp at e
        · rename_i r hr
          obtain ⟨-, rfl⟩ := Prod.mk.inj (Except.ok.inj e)
          -- Each of the four parts leaves no more than it was given.
          have := length_scanMinus_le s
          have := length_le_of_scanDigits hp
          have := length_le_of_scanFraction hq
          have := length_le_of_scanExponent hr
          omega

theorem length_scanNumber_le (s : Text) : (scanNumber s).2.length ≤ s.length := by
  rw [scanNumber]
  split
  · rename_i n rest h
    exact length_le_of_scanNumeral h
  · simp

/-! ## Words -/

/-- Reads the rest of a word that must stand here. -/
def scanWord : Text → Text → Except Fault Text
  | [], s => .ok s
  | _ :: _, [] => .error .ended
  | w :: ws, c :: s => if c = w then scanWord ws s else .error .malformed

theorem length_le_of_scanWord {w s rest : Text} (e : scanWord w s = .ok rest) :
    rest.length ≤ s.length := by
  fun_induction scanWord w s <;> simp_all
  omega

end Json

end Codemod
