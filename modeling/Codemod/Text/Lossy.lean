import Codemod.Text.Encoding

/-!
# Bytes as Something to Read

The name of a file is a sequence of bytes. Most names are text in UTF-8, but
nothing makes sure of it, and a name that is no text is still shown to whoever
reads a report.

What can be read of the bytes is shown as it is. Where no character begins, one
replacement character stands for the byte there and for those behind it that
would have gone on with the same character, had it been complete. So bytes that
are text are shown as that text, while different bytes that are none can look
the same.

## Main definitions

* `IsUnicode`: Bytes that are text.
* `firstChar?`: The character that bytes begin with.
* `lossyText`: What bytes are shown as.

## Theorems

* `lossyText_bytes`: The bytes of a text are shown as that text.
* `isUnicode_iff`: Only bytes that are text can be had back from what is shown.
-/

namespace Codemod

/-- Bytes that are text in UTF-8. -/
def IsUnicode (bs : List UInt8) : Prop := ∃ t : Text, bs = t.bytes

/-- The character that bytes begin with, if they begin with one. No character has
    more than four. -/
def firstChar? (bs : List UInt8) : Option Char := (bs.take 4).toByteArray.utf8DecodeChar? 0

/-- The character that is shown where there is none. -/
def replacementChar : Char := '\uFFFD'

/-- Whether `b` can be the second byte of a character of three or four bytes that
    begins with `lead`. -/
def goesOn (lead b : UInt8) : Bool :=
  if lead = 0xE0 then 0xA0 ≤ b && b ≤ 0xBF
  else if lead = 0xED then 0x80 ≤ b && b ≤ 0x9F
  else if lead = 0xF0 then 0x90 ≤ b && b ≤ 0xBF
  else if lead = 0xF4 then 0x80 ≤ b && b ≤ 0x8F
  else 0xE1 ≤ lead && lead ≤ 0xF3 && isContinuation b

/-- How many of the bytes behind `lead` go on with a character that begins there
    and is not complete. -/
def begun (lead : UInt8) : List UInt8 → Nat
  | [] => 0
  | [b] => if goesOn lead b then 1 else 0
  | b :: d :: _ => if goesOn lead b then if 0xF0 ≤ lead && isContinuation d then 2 else 1 else 0

/-- What bytes are shown as, the first of them left out. -/
def lossyFrom : Nat → List UInt8 → Text
  | _, [] => []
  | k + 1, _ :: bs => lossyFrom k bs
  | 0, b :: bs =>
    match firstChar? (b :: bs) with
    | some c => c :: lossyFrom (c.utf8Size - 1) bs
    | none => replacementChar :: lossyFrom (begun b bs) bs

/-- What bytes are shown as. -/
def lossyText (bs : List UInt8) : Text := lossyFrom 0 bs

/-! ## Characters at the front -/

theorem firstChar?_append (c : Char) (bs : List UInt8) :
    firstChar? (String.utf8EncodeChar c ++ bs) = some c := by
  have hlength : (String.utf8EncodeChar c).length ≤ 4 :=
    String.length_utf8EncodeChar c ▸ c.utf8Size_le_four
  rw [firstChar?, List.take_append, List.take_of_length_le hlength, List.toByteArray_append]
  exact ByteArray.utf8DecodeChar?_utf8EncodeChar_append

theorem eq_append_of_firstChar? {bs : List UInt8} {c : Char} (h : firstChar? bs = some c) :
    ∃ rest, bs = String.utf8EncodeChar c ++ rest := by
  rcases ByteArray.exists_of_utf8DecodeChar?_eq_some h with ⟨l, hl⟩
  have htake : bs.take 4 = String.utf8EncodeChar c ++ l.data.toList := by
    have hdata := congrArg (fun b : ByteArray => b.data.toList) hl
    simpa using hdata
  exact ⟨l.data.toList ++ bs.drop 4, by
    rw [← List.append_assoc, ← htake, List.take_append_drop]⟩

/-! ## Texts shown -/

theorem lossyFrom_length_append (as bs : List UInt8) :
    lossyFrom as.length (as ++ bs) = lossyText bs := by
  induction as with
  | nil => rfl
  | cons a as ih => exact ih

theorem lossyText_append (c : Char) (bs : List UInt8) :
    lossyText (String.utf8EncodeChar c ++ bs) = c :: lossyText bs := by
  have hfirst := firstChar?_append c bs
  have hlength := String.length_utf8EncodeChar c
  cases hbytes : String.utf8EncodeChar c with
  | nil => exact absurd hbytes String.utf8EncodeChar_ne_nil
  | cons a as =>
      rw [hbytes, List.length_cons] at hlength
      rw [hbytes, List.cons_append] at hfirst
      have hrest := lossyFrom_length_append as bs
      rw [show as.length = c.utf8Size - 1 by omega] at hrest
      rw [lossyText, List.cons_append, lossyFrom, hfirst]
      exact congrArg (c :: ·) hrest

/-- The bytes of a text are shown as that text. -/
@[simp] theorem lossyText_bytes (t : Text) : lossyText t.bytes = t := by
  induction t with
  | nil => rfl
  | cons c t ih => rw [Text.bytes_cons, lossyText_append, ih]

/-- Bytes can be had back from what they are shown as exactly when they are text. -/
theorem isUnicode_iff {bs : List UInt8} : IsUnicode bs ↔ (lossyText bs).bytes = bs := by
  constructor
  · rintro ⟨t, rfl⟩
    rw [lossyText_bytes]
  · exact fun h => ⟨_, h.symm⟩

instance (bs : List UInt8) : Decidable (IsUnicode bs) := decidable_of_iff' _ isUnicode_iff

-- A byte that begins no character, and a character that is cut off before a name goes on.
example : lossyText [0xFF, 0x2E, 0xE2, 0x82, 0x61] = "\uFFFD.\uFFFDa".toList := by decide +kernel

end Codemod
