import Codemod.Text.Offset

/-!
# Text as Bytes

Files hold bytes, and a pass works on text. The two meet in UTF-8, strictly:
bytes that are not the encoding of any text have no text, and are left alone by
whoever asked for it.

## Main definitions

* `encodeText`: The bytes of a text.
* `decodeText?`: The text of bytes, if there is one.
* `Text.bytes`: The bytes of a text one by one.
* `isContinuation`: The bytes of a character behind its first one.

## Theorems

* `decodeText?_encodeText`: An encoded text is read back.
* `eq_encodeText_of_decodeText?`: Only an encoded text is read.
* `Text.bytes_eq_flatMap`: The bytes of a text are those of its characters.
* `Text.length_bytes`: There are as many of them as the text is long in bytes.
-/

namespace Codemod

/-- The bytes that encode a text in UTF-8. -/
def encodeText (t : Text) : ByteArray := (String.ofList t).toUTF8

/-- The text that bytes encode in UTF-8, if they do. -/
def decodeText? (b : ByteArray) : Option Text := (String.fromUTF8? b).map String.toList

theorem decodeText?_encodeText (t : Text) : decodeText? (encodeText t) = some t := by
  have hv : (String.ofList t).toByteArray.IsValidUTF8 := (String.ofList t).isValidUTF8
  have hf : String.fromUTF8? (String.ofList t).toByteArray = some (String.ofList t) := by
    rw [String.fromUTF8?, dif_pos hv]
    rfl
  rw [decodeText?, encodeText, String.toUTF8_eq_toByteArray, hf, Option.map_some,
    String.toList_ofList]

theorem eq_encodeText_of_decodeText? {b : ByteArray} {t : Text} (h : decodeText? b = some t) :
    b = encodeText t := by
  rw [decodeText?, String.fromUTF8?] at h
  split at h
  · rw [Option.map_some, Option.some.injEq] at h
    rw [encodeText, ← h, String.ofList_toList]
    rfl
  · simp at h

/-- A byte that goes on with a character of several bytes. -/
def isContinuation (b : UInt8) : Bool := 0x80 ≤ b && b < 0xC0

namespace Text

/-- The bytes of the UTF-8 form. -/
def bytes (t : Text) : List UInt8 := (encodeText t).data.toList

theorem bytes_eq_flatMap (t : Text) : t.bytes = t.flatMap String.utf8EncodeChar := by
  rw [bytes, encodeText, String.toUTF8_eq_toByteArray]
  simp [List.utf8Encode]

@[simp] theorem bytes_nil : bytes [] = [] := by
  rw [bytes_eq_flatMap, List.flatMap_nil]

@[simp] theorem bytes_cons (c : Char) (s : Text) :
    bytes (c :: s) = String.utf8EncodeChar c ++ bytes s := by
  rw [bytes_eq_flatMap, bytes_eq_flatMap, List.flatMap_cons]

@[simp] theorem bytes_append (s t : Text) : bytes (s ++ t) = bytes s ++ bytes t := by
  rw [bytes_eq_flatMap, bytes_eq_flatMap, bytes_eq_flatMap, List.flatMap_append]

@[simp] theorem length_bytes (s : Text) : s.bytes.length = s.byteLength := by
  induction s with
  | nil => rw [bytes_nil, List.length_nil, byteLength_nil]
  | cons c s ih =>
      rw [bytes_cons, List.length_append, String.length_utf8EncodeChar, ih, byteLength_cons]

end Text

end Codemod
