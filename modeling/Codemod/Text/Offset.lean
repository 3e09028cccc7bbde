/-!
# Byte Offsets in Text

Text is handled as a list of characters, because every scan of it goes from
left to right and a list is what such a scan recurses on. Positions that leave
the library are counted in bytes of the UTF-8 form all the same. This module
converts between the two: a position is the byte length of what stands before
it, and `seek` finds the suffix that a position names.

A byte position may fall inside a character of several bytes. `seek` then goes
on to the next character boundary and says how many bytes it passed over, so
that a caller who needs a boundary can tell.

## Main definitions

* `Text`: A list of characters.
* `Text.byteLength`: The length of the UTF-8 form.
* `Text.seek`: The suffix at or just after a byte position.
* `Text.lineAt`: The line that a byte position lies on.

## Theorems

* `Text.byteLength_append`: Byte lengths add up.
* `Text.seek_byteLength`: Seeking the end of the first part gives the second.
* `Text.lineAt_byteLength`: The line of the end of the first part.
-/

namespace Codemod

/-- Text, as the characters it consists of. -/
abbrev Text := List Char

namespace Text

/-- The number of bytes of the UTF-8 form. -/
def byteLength : Text → Nat
  | [] => 0
  | c :: s => c.utf8Size + byteLength s

/-- The suffix from the first character boundary at or after byte `n`, with
    the number of bytes from `n` to that boundary. There is none when `n` lies
    beyond the end. -/
def seek : Nat → Text → Option (Nat × Text)
  | 0, s => some (0, s)
  | _ + 1, [] => none
  | n + 1, c :: s =>
    if c.utf8Size ≤ n + 1 then seek (n + 1 - c.utf8Size) s
    else some (c.utf8Size - (n + 1), s)

/-- The number of line feeds among the first `n` bytes. -/
def lineFeedsBefore : Nat → Text → Nat
  | 0, _ => 0
  | _ + 1, [] => 0
  | n + 1, c :: s => lineFeedsBefore (n + 1 - c.utf8Size) s + if c = '\n' then 1 else 0

/-- The line that byte `n` lies on, counted from 1. A position beyond the end
    lies on the last line. -/
def lineAt (n : Nat) (s : Text) : Nat :=
  1 + lineFeedsBefore n s

@[simp] theorem byteLength_nil : byteLength [] = 0 := rfl

@[simp] theorem byteLength_cons (c : Char) (s : Text) :
    byteLength (c :: s) = c.utf8Size + byteLength s := rfl

@[simp] theorem byteLength_append (s t : Text) :
    byteLength (s ++ t) = byteLength s + byteLength t := by
  induction s with
  | nil => simp
  | cons c s ih => simp [ih, Nat.add_assoc]

theorem byteLength_le_of_prefix {s t : Text} (h : s <+: t) : byteLength s ≤ byteLength t := by
  rcases h with ⟨u, rfl⟩
  rw [byteLength_append]
  exact Nat.le_add_right _ _

/-- Seeking the end of the first part of a text gives the second part. -/
theorem seek_byteLength (s t : Text) : seek (byteLength s) (s ++ t) = some (0, t) := by
  induction s with
  | nil => simp [seek]
  | cons c s ih =>
      obtain ⟨n, hn⟩ : ∃ n, c.utf8Size + byteLength s = n + 1 :=
        ⟨c.utf8Size + byteLength s - 1, by have := c.utf8Size_pos; omega⟩
      rw [List.cons_append, byteLength_cons, hn, seek, if_pos (by omega), ← hn,
        Nat.add_sub_cancel_left, ih]

/-- The end of the first part of a text lies on the line behind its line feeds. -/
theorem lineAt_byteLength (s t : Text) : lineAt (byteLength s) (s ++ t) = 1 + s.count '\n' := by
  rw [lineAt, Nat.add_left_cancel_iff]
  induction s with
  | nil => cases t <;> rfl
  | cons c s ih =>
      obtain ⟨n, hn⟩ : ∃ n, c.utf8Size + byteLength s = n + 1 :=
        ⟨c.utf8Size + byteLength s - 1, by have := c.utf8Size_pos; omega⟩
      rw [List.cons_append, byteLength_cons, hn, lineFeedsBefore, ← hn, Nat.add_sub_cancel_left,
        ih, List.count_cons]
      simp only [beq_iff_eq]

end Text

end Codemod
