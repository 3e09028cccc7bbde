import Codemod.Loop

/-!
# Texts and Their Bytes

What a text has to do with the bytes of its UTF-8 form.

A character is one byte that starts it and up to three that go on with it, and
no byte does both. Hence the bytes alone tell where a character starts, and a
position between two characters is one that a slice may start or end at. A
character of the ASCII range is a byte of its own that no other character has
among its bytes. So the parentheses and the line feeds of a text are those of its
bytes, and they may be counted on either side.

## Main definitions

* `Text.IsBoundary`: Positions between characters.

## Theorems

* `utf8EncodeChar_eq_cons`, `count_utf8EncodeChar`: The bytes of a character.
* `Text.count_bytes`: Characters counted among bytes.
* `Text.drop_bytes_of_seek`: The bytes from a position on.
* `Text.isBoundary_bytes_iff`: Positions between characters, told from bytes.
* `slice_bytes`, `slice_of_not_isBoundary`: Slices of a text.
-/

namespace Codemod

/-! ## The bytes of a character -/

theorem val_toNat_lt (c : Char) : c.val.toNat < 0x110000 := by
  have := c.valid
  simp only [UInt32.isValidChar, Nat.isValidChar] at this
  omega

theorem isContinuation_iff {b : UInt8} :
    isContinuation b = true ↔ 128 ≤ b.toNat ∧ b.toNat < 192 := by
  rw [isContinuation, Bool.and_eq_true, decide_eq_true_iff, decide_eq_true_iff,
    UInt8.le_iff_toNat_le, UInt8.lt_iff_toNat_lt]
  rfl

/-- The first byte of a character starts it, and the others go on with it. -/
theorem utf8EncodeChar_eq_cons (c : Char) :
    ∃ b bs, String.utf8EncodeChar c = b :: bs ∧ ¬isContinuation b = true ∧
      ∀ x ∈ bs, isContinuation x = true := by
  have hc := val_toNat_lt c
  fun_cases String.utf8EncodeChar c
  all_goals
    refine ⟨_, _, rfl, ?_, ?_⟩ <;>
      simp only [isContinuation_iff, List.forall_mem_cons, UInt8.toNat_ofNat',
        List.not_mem_nil, false_implies, implies_true, and_true] <;>
      omega

/-- The byte of an ASCII character is no byte of any other character. -/
theorem count_utf8EncodeChar {d : Char} (hd : d.val.toNat ≤ 127) (c : Char) :
    (String.utf8EncodeChar c).count d.toUInt8 = if c = d then 1 else 0 := by
  have hbyte : d.toUInt8.toNat = d.val.toNat := by
    rw [Char.toUInt8, UInt32.toNat_toUInt8]
    omega
  by_cases h : c = d
  · rw [if_pos h, h, String.utf8EncodeChar_eq_singleton, Char.toUInt8, List.count_singleton_self]
    rw [Char.utf8Size_eq_one_iff, UInt32.le_iff_toNat_le]
    exact hd
  · have hc := val_toNat_lt c
    have hne : c.val.toNat ≠ d.val.toNat := fun e => h (Char.ext (UInt32.toNat_inj.1 e))
    rw [if_neg h, List.count_eq_zero]
    fun_cases String.utf8EncodeChar c
    all_goals
      simp only [List.mem_cons, List.not_mem_nil, or_false, not_or, ← UInt8.toNat_inj,
        UInt8.toNat_ofNat', hbyte]
      omega

namespace Text

/-! ## The bytes of a text -/

/-- An ASCII character stands in a text as often as its byte stands among the bytes
    of the text. -/
theorem count_bytes {d : Char} (hd : d.val.toNat ≤ 127) (s : Text) :
    s.bytes.count d.toUInt8 = s.count d := by
  induction s with
  | nil => rw [bytes_nil, List.count_nil, List.count_nil]
  | cons c s ih =>
      rw [bytes_cons, List.count_append, count_utf8EncodeChar hd, ih, List.count_cons,
        Nat.add_comm]
      simp only [beq_iff_eq]

theorem decodeText?_bytes (t : Text) : decodeText? ⟨⟨t.bytes⟩⟩ = some t :=
  decodeText?_encodeText t

/-! ## Positions -/

/-- A position between two characters of the text, or at one of its ends. -/
def IsBoundary (s : Text) (i : Nat) : Prop := ∃ u v : Text, s = u ++ v ∧ u.byteLength = i

theorem isBoundary_append (u v : Text) : IsBoundary (u ++ v) u.byteLength := ⟨u, v, rfl, rfl⟩

theorem byteLength_lt_of_seek {n : Nat} {s : Text} (h : s.seek n = none) : s.byteLength < n := by
  fun_induction seek n s with
  | case1 s => cases h
  | case2 n => exact Nat.succ_pos n
  | case3 n c s hle ih =>
      have := ih h
      rw [byteLength_cons]
      omega
  | case4 n c s hlt => cases h

-- Seeking ends inside the character that holds the position, or in front of the
-- next one.
theorem drop_bytes_of_seek {n k : Nat} {s rest : Text} (h : s.seek n = some (k, rest)) :
    ∃ inner : List UInt8, s.bytes.drop n = inner ++ rest.bytes ∧ inner.length = k ∧
      ∀ b ∈ inner, isContinuation b = true := by
  fun_induction seek n s with
  | case1 s =>
      rcases Prod.mk.inj (Option.some.inj h) with ⟨rfl, rfl⟩
      exact ⟨[], rfl, rfl, nofun⟩
  | case2 n => cases h
  | case3 n c s hle ih =>
      have hskip : (String.utf8EncodeChar c).drop (n + 1) = [] :=
        List.drop_eq_nil_of_le (String.length_utf8EncodeChar c ▸ hle)
      rw [bytes_cons, List.drop_append, hskip, String.length_utf8EncodeChar, List.nil_append]
      exact ih h
  | case4 n c s hlt =>
      rcases Prod.mk.inj (Option.some.inj h) with ⟨rfl, rfl⟩
      rcases utf8EncodeChar_eq_cons c with ⟨b, bs, hbytes, -, hbs⟩
      have hlength := String.length_utf8EncodeChar c
      have hzero : n + 1 - c.utf8Size = 0 := by omega
      refine ⟨(String.utf8EncodeChar c).drop (n + 1), ?_, ?_, fun x hx => ?_⟩
      · rw [bytes_cons, List.drop_append, hlength, hzero, List.drop_zero]
      · rw [List.length_drop, hlength]
      · rw [hbytes, List.drop_succ_cons] at hx
        exact hbs x (List.mem_of_mem_drop hx)

-- Seeking passes over the text up to the boundary that it ends at.
theorem exists_append_of_seek {n k : Nat} {s rest : Text} (h : s.seek n = some (k, rest)) :
    ∃ u : Text, s = u ++ rest ∧ u.byteLength = n + k := by
  fun_induction seek n s with
  | case1 s =>
      rcases Prod.mk.inj (Option.some.inj h) with ⟨rfl, rfl⟩
      exact ⟨[], rfl, rfl⟩
  | case2 n => cases h
  | case3 n c s hle ih =>
      rcases ih h with ⟨u, rfl, hu⟩
      refine ⟨c :: u, rfl, ?_⟩
      rw [byteLength_cons]
      omega
  | case4 n c s hlt =>
      rcases Prod.mk.inj (Option.some.inj h) with ⟨rfl, rfl⟩
      refine ⟨[c], rfl, ?_⟩
      rw [byteLength_cons, byteLength_nil]
      omega

theorem eq_append_of_seek {n : Nat} {s rest : Text} (h : s.seek n = some (0, rest)) :
    ∃ u, s = u ++ rest ∧ u.byteLength = n := exists_append_of_seek h

theorem isBoundary_iff_seek {n : Nat} {s : Text} :
    s.IsBoundary n ↔ ∃ rest, s.seek n = some (0, rest) := by
  constructor
  · rintro ⟨u, v, rfl, rfl⟩
    exact ⟨v, seek_byteLength u v⟩
  · rintro ⟨rest, h⟩
    rcases eq_append_of_seek h with ⟨u, rfl, rfl⟩
    exact isBoundary_append u rest

/-- The bytes of a text tell which positions lie between characters. -/
theorem isBoundary_bytes_iff {s : Text} {n : Nat} :
    isBoundary s.bytes n = true ↔ s.IsBoundary n := by
  rw [isBoundary, Bool.or_eq_true, beq_iff_eq, length_bytes]
  constructor
  · intro h
    cases hseek : s.seek n with
    | none =>
        -- Behind the end there is no byte.
        have hlt := byteLength_lt_of_seek hseek
        rcases h with rfl | h
        · exact absurd hlt (Nat.lt_irrefl _)
        · rw [List.getElem?_eq_none (by rw [length_bytes]; omega)] at h
          cases h
    | some found =>
        rcases found with ⟨k, rest⟩
        rcases drop_bytes_of_seek hseek with ⟨inner, hdrop, rfl, hinner⟩
        cases inner with
        | nil => exact isBoundary_iff_seek.2 ⟨rest, hseek⟩
        | cons b inner =>
            -- The byte there goes on with a character.
            have hget : s.bytes[n]? = some b := by
              rw [← List.head?_drop, hdrop]
              rfl
            have hlt := (List.getElem?_eq_some_iff.1 hget).1
            rw [length_bytes] at hlt
            rw [hget] at h
            rcases h with rfl | h
            · exact absurd hlt (Nat.lt_irrefl _)
            · simp [hinner b List.mem_cons_self] at h
  · rintro ⟨u, v, rfl, rfl⟩
    cases v with
    | nil => exact .inl (by rw [List.append_nil])
    | cons c v =>
        rcases utf8EncodeChar_eq_cons c with ⟨b, bs, hbytes, hb, -⟩
        refine .inr ?_
        rw [bytes_append, bytes_cons, hbytes, ← length_bytes u,
          List.getElem?_append_right (Nat.le_refl _), Nat.sub_self]
        simp [hb]

end Text

-- The bytes up to a position and the one there tell whether it is a boundary.
theorem isBoundary_congr {bytes bytes' : List UInt8} {i n : Nat}
    (hsame : bytes'.take n = bytes.take n) (hn : i < n) (hi : i < bytes.length) :
    isBoundary bytes' i = isBoundary bytes i := by
  have hget : bytes'[i]? = bytes[i]? := by
    rw [← List.getElem?_take_of_lt hn, hsame, List.getElem?_take_of_lt hn]
  have hi' : i < bytes'.length := by
    rw [List.getElem?_eq_getElem hi] at hget
    exact (List.getElem?_eq_some_iff.1 hget).1
  rw [isBoundary, isBoundary, hget, beq_false_of_ne (Nat.ne_of_lt hi'),
    beq_false_of_ne (Nat.ne_of_lt hi)]

/-! ## Slices of a text -/

theorem slice_bytes (u v w : Text) :
    slice (u ++ (v ++ w)).bytes u.byteLength (u.byteLength + v.byteLength) = .ok v.bytes := by
  have hstart : (u ++ (v ++ w)).IsBoundary u.byteLength := Text.isBoundary_append u (v ++ w)
  have hstop : (u ++ (v ++ w)).IsBoundary (u.byteLength + v.byteLength) := by
    rw [← List.append_assoc, ← Text.byteLength_append]
    exact Text.isBoundary_append (u ++ v) w
  rw [slice, if_pos ⟨Nat.le_add_right _ _, Text.isBoundary_bytes_iff.2 hstart,
    Text.isBoundary_bytes_iff.2 hstop⟩, ← Text.length_bytes, ← Text.length_bytes,
    Text.bytes_append, Text.bytes_append, List.drop_take, List.drop_left, Nat.add_sub_cancel_left,
    List.take_left]

theorem slice_of_not_isBoundary {s : Text} {start : Nat} (h : ¬s.IsBoundary start) (stop : Nat) :
    slice s.bytes start stop = .error .slice :=
  if_neg fun hslice => h (Text.isBoundary_bytes_iff.1 hslice.2.1)

theorem readSlice_bytes (t : Text) : readSlice t.bytes = .ok t := by
  rw [readSlice, Text.decodeText?_bytes]

end Codemod
