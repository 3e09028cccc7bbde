import Codemod.Proofs.JsonSteps

/-!
# Reading Strings and Numbers Back

Strings and numbers are where a layout and its reading could part. A character
is written as one piece, whether it is escaped or not, and a piece of that kind
is read as the character that it was. A number is followed by something that
cannot belong to it, so it is read to its end and no further.

A text that breaks off inside a string is an early end wherever it does so, also
in the middle of an escape. A number that breaks off is another number, unless
nothing is left of it.

## Main definitions

* `IsCount`: The digits of a number that fits in 64 bits.
* `EndsNumber`: A text in front of which a number has come to its end.

## Theorems

* `scanNumber_of_isCount`: Reading a number.
* `IsCount.of_append`: A number that breaks off.
* `scanString_quoted`: Reading a string.
* `scanString_cut`: A string that breaks off.
-/

namespace Codemod

namespace Json

/-! ## Numbers -/

/-- The digits of a natural number below `2 ^ 64`, as it is written. -/
structure IsCount (ds : Text) : Prop where
  ne_nil : ds ≠ []
  digits : ∀ c ∈ ds, c.isDigit = true
  /-- Only zero itself starts with a zero. -/
  lead : ds.head? = some '0' → ds = ['0']
  lt : digitsValue ds < UInt64.size

/-- A text in front of which a number has come to its end. -/
def EndsNumber (rest : Text) : Prop :=
  ∀ c, rest.head? = some c → c.isDigit = false ∧ c ≠ '.' ∧ c ≠ 'e' ∧ c ≠ 'E'

theorem le_ofDigitChars (v : Nat) (ds : Text) : v ≤ Nat.ofDigitChars 10 ds v := by
  rw [Nat.ofDigitChars_eq_ofDigitChars_zero]
  exact Nat.le_add_right_of_le (Nat.le_mul_of_pos_left v (Nat.pow_pos (by decide)))

theorem head?_toDigits_ne_zero {n : Nat} (h : 0 < n) : (Nat.toDigits 10 n).head? ≠ some '0' := by
  induction n using Nat.strongRecOn with
  | ind n ih =>
      by_cases hn : n < 10
      · have hdigit : ∀ m < 10, 0 < m → m.digitChar ≠ '0' := by decide
        rw [Nat.toDigits_of_lt_base hn]
        exact fun e => hdigit n hn h (Option.some.inj e)
      · have hn' : 10 ≤ n := Nat.le_of_not_lt hn
        have hrest := ih (n / 10) (Nat.div_lt_self h (by decide)) (Nat.div_pos hn' (by decide))
        rw [Nat.toDigits_of_base_le (by decide) hn']
        rcases List.exists_cons_of_ne_nil (Nat.toDigits_ne_nil (n := n / 10) (b := 10)) with
          ⟨d, ds, hds⟩
        rw [hds] at hrest ⊢
        exact hrest

theorem isCount_toDigits {n : Nat} (h : n < UInt64.size) : IsCount (Nat.toDigits 10 n) where
  ne_nil := Nat.toDigits_ne_nil
  digits := fun c hc => Nat.isDigit_of_mem_toDigits (by decide) (by decide) hc
  lead := by
    intro hzero
    rcases Nat.eq_zero_or_pos n with rfl | hpos
    · rfl
    · exact absurd hzero (head?_toDigits_ne_zero hpos)
  lt := by
    rw [digitsValue, Nat.ofDigitChars_ten_toDigits]
    exact h

theorem leadingValue_eq {v : Nat} {ds : Text} (h : Nat.ofDigitChars 10 ds v < UInt64.size) :
    Numeral.leadingValue v ds = (Nat.ofDigitChars 10 ds v, 0) := by
  induction ds generalizing v with
  | nil => rfl
  | cons d ds ih =>
      rw [Nat.ofDigitChars_cons] at h ⊢
      have hlt := Nat.lt_of_le_of_lt (le_ofDigitChars _ ds) h
      simp only [Numeral.leadingValue, if_pos hlt]
      exact ih h

-- All digits of a count are kept, so there is nothing to scale.
theorem IsCount.not_isHuge {ds : Text} (h : IsCount ds) :
    Numeral.isHuge ⟨false, ds, [], none⟩ = false := by
  rw [Numeral.isHuge, List.append_nil, leadingValue_eq h.lt]
  simp

theorem scanDigits_append {ds rest : Text} (hne : ds ≠ []) (hds : ∀ c ∈ ds, c.isDigit = true)
    (hrest : ∀ c, rest.head? = some c → c.isDigit = false) :
    scanDigits (ds ++ rest) = .ok (ds, rest) := by
  have hstop : rest.takeWhile Char.isDigit = [] ∧ rest.dropWhile Char.isDigit = rest := by
    cases rest with
    | nil => exact ⟨rfl, rfl⟩
    | cons c rest =>
        have hc : ¬c.isDigit = true := by simp [hrest c rfl]
        exact ⟨List.takeWhile_cons_of_neg hc, List.dropWhile_cons_of_neg hc⟩
  rcases List.exists_cons_of_ne_nil hne with ⟨d, ds', rfl⟩
  rw [scanDigits, List.takeWhile_append_of_pos hds, List.dropWhile_append_of_pos hds, hstop.1,
    hstop.2, List.append_nil]

theorem scanNumeral_of_isCount {ds rest : Text} (h : IsCount ds) (hr : EndsNumber rest) :
    scanNumeral (ds ++ rest) = .ok (⟨false, ds, [], none⟩, rest) := by
  have hdigits : scanDigits (ds ++ rest) = .ok (ds, rest) :=
    scanDigits_append h.ne_nil h.digits fun c hc => (hr c hc).1
  have hminus : scanMinus (ds ++ rest) = (false, ds ++ rest) := by
    rcases List.exists_cons_of_ne_nil h.ne_nil with ⟨d, ds', rfl⟩
    have hd : d ≠ '-' := fun e => absurd (h.digits d List.mem_cons_self) (by rw [e]; decide)
    rw [List.cons_append, scanMinus]
    exact fun _ e => hd (List.cons.inj e).1
  have hfraction : scanFraction rest = .ok ([], rest) := by
    rw [scanFraction]
    exact fun s e => (hr '.' (by rw [e]; rfl)).2.1 rfl
  have hexponent : scanExponent rest = .ok (none, rest) := by
    cases rest with
    | nil => rfl
    | cons c rest => rw [scanExponent, if_neg (not_or.2 (hr c rfl).2.2)]
  have hlead : ¬(ds.head? = some '0' ∧ ds ≠ ['0']) := fun ⟨h0, hne⟩ => hne (h.lead h0)
  simp only [scanNumeral, hminus, hdigits, hfraction, hexponent, bind, Except.bind, if_neg hlead]
  rfl

theorem scanNumber_of_isCount {ds rest : Text} (h : IsCount ds) (hr : EndsNumber rest) :
    scanNumber (ds ++ rest) = (⟨.ok ⟨false, ds, [], none⟩, .ok ()⟩, rest) := by
  rw [scanNumber, scanNumeral_of_isCount h hr]
  simp only [h.not_isHuge, Bool.false_eq_true, if_false]

theorem endsNumber_nil : EndsNumber [] := nofun

theorem scanNumber_of_isCount_nil {ds : Text} (h : IsCount ds) :
    scanNumber ds = (⟨.ok ⟨false, ds, [], none⟩, .ok ()⟩, []) := by
  have := scanNumber_of_isCount h endsNumber_nil
  rwa [List.append_nil] at this

/-- A number that breaks off is a number of fewer digits. -/
theorem IsCount.of_append {ds u : Text} (h : IsCount (ds ++ u)) (hne : ds ≠ []) : IsCount ds where
  ne_nil := hne
  digits := fun c hc => h.digits c (List.mem_append_left u hc)
  lead := by
    rcases List.exists_cons_of_ne_nil hne with ⟨d, ds, rfl⟩
    intro h0
    rcases List.cons.inj (h.lead h0) with ⟨rfl, hrest⟩
    rw [(List.append_eq_nil_iff.1 hrest).1]
  lt := by
    have hle : digitsValue ds ≤ digitsValue (ds ++ u) := by
      rw [digitsValue, digitsValue, Nat.ofDigitChars_append]
      exact le_ofDigitChars _ u
    exact Nat.lt_of_le_of_lt hle h.lt

/-! ## Strings -/

/-- The code unit that a text of four hexadecimal digits spells. -/
def unitOf? : Text → Option Nat
  | [a, b, c, d] => hexUnit? a b c d
  | _ => none

theorem scanPieces_unit {u : Text} {n : Nat} (h : unitOf? u = some n) (t : Text) :
    scanPieces ('\\' :: 'u' :: (u ++ t)) = (.unit n :: (scanPieces t).1, (scanPieces t).2) := by
  unfold unitOf? at h
  split at h
  · simp only [List.cons_append, List.nil_append]
    rw [scanPieces, h]
  · cases h

theorem joinPieces_unit {n : Nat} (h : n < 0xD800) (stop : Except Fault Unit) (ps : List Piece) :
    joinPieces stop (.unit n :: ps) = (joinPieces stop ps).map (Char.ofNat n :: ·) := by
  have hleading : ¬isLeading n = true := by
    simp only [isLeading, Bool.and_eq_true, decide_eq_true_eq]
    omega
  have htrailing : ¬isTrailing n = true := by
    simp only [isTrailing, Bool.and_eq_true, decide_eq_true_eq]
    omega
  rw [joinPieces.eq_def]
  simp only [if_neg hleading, if_neg htrailing]

-- The escapes of the control characters, by looking at all of them.
theorem unitOf?_low : ∀ n < 0x10, unitOf? ('0' :: '0' :: '0' :: Nat.toDigits 16 n) = some n := by
  decide

theorem unitOf?_high : ∀ n < 0x20, 0x10 ≤ n →
    unitOf? ('0' :: '0' :: Nat.toDigits 16 n) = some n := by
  decide

/-- A written character is one piece of a string, and that piece stands for the
    character. -/
theorem scanPieces_escape (c : Char) :
    ∃ p, (∀ t, scanPieces (escape c ++ t) = (p :: (scanPieces t).1, (scanPieces t).2)) ∧
      ∀ stop ps, joinPieces stop (p :: ps) = (joinPieces stop ps).map (c :: ·) := by
  have hofNat : Char.ofNat c.toNat = c := Char.ofNat_toNat c
  fun_cases escape c with
  | case1 h =>
      refine ⟨.char c, fun t => ?_, fun _ _ => rfl⟩
      rcases h with rfl | rfl <;> rfl
  | case2 _ h | case3 _ _ h | case4 _ _ _ h | case5 _ _ _ _ h | case6 _ _ _ _ _ h =>
      rw [h]
      exact ⟨.char _, fun t => rfl, fun _ _ => rfl⟩
  | case7 _ _ _ _ _ _ h =>
      refine ⟨.unit c.toNat, scanPieces_unit (unitOf?_low _ h), fun stop ps => ?_⟩
      rw [joinPieces_unit (by omega), hofNat]
  | case8 _ _ _ _ _ _ h h' =>
      refine ⟨.unit c.toNat, scanPieces_unit (unitOf?_high _ h' (Nat.le_of_not_lt h)),
        fun stop ps => ?_⟩
      rw [joinPieces_unit (by omega), hofNat]
  | case9 h1 _ _ _ _ _ _ h =>
      refine ⟨.char c, fun t => ?_, fun _ _ => rfl⟩
      rcases not_or.1 h1 with ⟨hquote, hslash⟩
      rw [List.singleton_append, scanPieces.eq_def]
      simp [hslash, h]

/-- A written string is read back. -/
theorem scanString_quoted (s rest : Text) :
    scanString (s.flatMap escape ++ '"' :: rest) = (⟨.ok s, .ok ()⟩, rest) := by
  have hpieces : ∃ ps, scanPieces (s.flatMap escape ++ '"' :: rest) = (ps, .ok rest) ∧
      joinPieces (.ok ()) ps = .ok s := by
    induction s with
    | nil => exact ⟨[], rfl, rfl⟩
    | cons c s ih =>
        rcases ih with ⟨ps, hscan, hjoin⟩
        rcases scanPieces_escape c with ⟨p, hp, hc⟩
        refine ⟨p :: ps, ?_, ?_⟩
        · rw [List.flatMap_cons, List.append_assoc, hp, hscan]
        · rw [hc, hjoin]
          rfl
  rcases hpieces with ⟨ps, hscan, hjoin⟩
  simp only [scanString, hscan, hjoin]

-- Four digits behind the letter are wanted, so an escape that breaks off after
-- some of them ends early.
theorem scanPieces_take_unit {a : Char} (ha : a = '0' ∨ a = '1') (b : Char) {k : Nat}
    (hk : k < 6) : scanPieces (['\\', 'u', '0', '0', a, b].take k) = ([], .error .ended) := by
  rcases ha with rfl | rfl <;> rcases k with _ | _ | _ | _ | _ | _ | k <;> first | rfl | omega

theorem toDigits_high : ∀ n < 0x20, 0x10 ≤ n → Nat.toDigits 16 n = ['1', (n - 0x10).digitChar] := by
  decide

theorem scanPieces_take_escape {c : Char} {k : Nat} :
    k < (escape c).length → scanPieces ((escape c).take k) = ([], .error .ended) := by
  fun_cases escape c with
  | case1 | case2 | case3 | case4 | case5 | case6 =>
      intro h
      rcases k with _ | _ | k
      · rfl
      · rfl
      · simp only [List.length_cons, List.length_nil] at h
        omega
  | case7 _ _ _ _ _ _ hlow =>
      rw [Nat.toDigits_of_lt_base hlow]
      exact scanPieces_take_unit (.inl rfl) _
  | case8 _ _ _ _ _ _ hlow hhigh =>
      rw [toDigits_high _ hhigh (Nat.le_of_not_lt hlow)]
      exact scanPieces_take_unit (.inr rfl) _
  | case9 =>
      intro h
      rw [Nat.lt_one_iff.1 h]
      rfl

/-- A written character that breaks off is an early end. -/
theorem scanPieces_of_escape_eq {c : Char} {s u : Text} (h : escape c = s ++ u) (hu : u ≠ []) :
    scanPieces s = ([], .error .ended) := by
  have hs : (escape c).take s.length = s := by rw [h, List.take_left]
  rw [← hs]
  apply scanPieces_take_escape
  rw [h, List.length_append]
  exact Nat.lt_add_of_pos_right (List.length_pos_iff.2 hu)

/-- A written string that breaks off is an early end, both for who wants its
    value and for who passes over it. -/
theorem scanString_cut {v s u : Text} (h : v.flatMap escape ++ ['"'] = s ++ u) (hu : u ≠ []) :
    scanString s = (⟨.error .ended, .error .ended⟩, []) := by
  have hpieces : ∃ ps, scanPieces s = (ps, .error .ended) ∧
      joinPieces (.error .ended) ps = .error .ended := by
    induction v generalizing s with
    | nil =>
        rcases List.append_eq_cons_iff.1 h.symm with ⟨rfl, -⟩ | ⟨s', rfl, hs'⟩
        · exact ⟨[], rfl, rfl⟩
        · exact absurd (List.append_eq_nil_iff.1 hs'.symm).2 hu
    | cons c v ih =>
        rw [List.flatMap_cons, List.append_assoc] at h
        rcases append_or_cut h with ⟨s', rfl, hs'⟩ | ⟨a, ha, hsa⟩
        · rcases scanPieces_escape c with ⟨p, hp, hc⟩
          rcases ih hs' with ⟨ps, hscan, hjoin⟩
          refine ⟨p :: ps, ?_, ?_⟩
          · rw [hp, hscan]
          · rw [hc, hjoin]
            rfl
        · exact ⟨[], scanPieces_of_escape_eq hsa ha, rfl⟩
  rcases hpieces with ⟨ps, hscan, hjoin⟩
  simp only [scanString, hscan, hjoin]

end Json

end Codemod
