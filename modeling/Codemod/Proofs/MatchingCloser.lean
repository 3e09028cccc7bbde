import Codemod.Proofs.Balance
import Codemod.Proofs.Bytes

/-!
# The Matching Closer among Bytes

Which closer ends an argument, told from the bytes of the text alone.

The closer of an open parenthesis is the first place where more has been closed
than opened. A loop over bytes finds it with one number, the parentheses open at
that point, and stops as soon as none is left. That the number is never lowered
below zero is part of the same fact, since the loop stops one step earlier.

Whether the start lies inside a character makes no difference to the loop, as the
bytes that go on with a character are no parentheses. It makes a difference to
the slice that gives the argument, and then to no other result: without a closer
there is nothing to slice.

## Main definitions

* `Overclosed`, `ClosesAt`: The place where the closer stands.
* `Text.TrimsTo`: A text without the blanks at its ends.
* `ofArgument`: What a program over bytes makes of an argument.

## Theorems

* `scanCloser_cases`: What the loop over bytes finds.
* `scanCloser_bytes`: The loop over the bytes of a text.
* `extract_bytes`: The argument in a text and among its bytes.
* `argumentAt_matching_closer`: The argument at a position.
-/

namespace Codemod

/-! ## The first place closed too often -/

/-- Of the bytes from `start` up to `p`, and including it, more close a parenthesis
    than open one. -/
def Overclosed (bytes : List UInt8) (start p : Nat) : Prop :=
  start ≤ p ∧ p < bytes.length ∧
    ((bytes.take (p + 1)).drop start).count openByte <
      ((bytes.take (p + 1)).drop start).count closeByte

/-- The byte at `p` closes a parenthesis that was opened just before `start`. -/
structure ClosesAt (bytes : List UInt8) (start p : Nat) : Prop where
  overclosed : Overclosed bytes start p
  first : ∀ q, Overclosed bytes start q → p ≤ q

theorem overclosed_iff {bytes : List UInt8} {start p : Nat} :
    Overclosed bytes start p ↔ ∃ i, p = start + i ∧ i < (bytes.drop start).length ∧
      ((bytes.drop start).take (i + 1)).count openByte <
        ((bytes.drop start).take (i + 1)).count closeByte := by
  have hpart : ∀ i, (bytes.take (start + i + 1)).drop start =
      (bytes.drop start).take (i + 1) := by
    intro i
    rw [List.drop_take, Nat.add_assoc, Nat.add_sub_cancel_left]
  rw [Overclosed, List.length_drop]
  constructor
  · rintro ⟨hle, hlt, hcount⟩
    obtain ⟨i, rfl⟩ := Nat.exists_eq_add_of_le hle
    rw [hpart] at hcount
    exact ⟨i, rfl, by omega, hcount⟩
  · rintro ⟨i, rfl, hlt, hcount⟩
    rw [hpart]
    exact ⟨Nat.le_add_right _ _, by omega, hcount⟩

-- The place depends on the bytes up to it.
theorem ClosesAt.congr {bytes bytes' : List UInt8} {start p : Nat} (h : ClosesAt bytes start p)
    (hsame : bytes'.take (p + 1) = bytes.take (p + 1)) : ClosesAt bytes' start p := by
  have hlength := congrArg List.length hsame
  rw [List.length_take, List.length_take] at hlength
  have hlt := h.overclosed.2.1
  have hiff : ∀ q ≤ p, (Overclosed bytes' start q ↔ Overclosed bytes start q) := by
    intro q hq
    have hcut := congrArg (List.take (q + 1)) hsame
    rw [List.take_take, List.take_take, Nat.min_eq_left (Nat.succ_le_succ hq)] at hcut
    have hq' : q < bytes'.length ↔ q < bytes.length := by omega
    rw [Overclosed, Overclosed, hcut, hq']
  refine ⟨(hiff p (Nat.le_refl p)).2 h.overclosed, fun q hq => ?_⟩
  refine Nat.not_lt.1 fun hlt => ?_
  exact Nat.not_le_of_lt hlt (h.first q ((hiff q (Nat.le_of_lt hlt)).1 hq))

/-! ## The loop over bytes -/

theorem openByte_ne_closeByte : openByte ≠ closeByte := by decide

-- One byte moves the number of open parentheses by what it adds to the counts, as
-- long as it does not close the last of them.
theorem scanCloser_cons {nested : Nat} {b : UInt8} (hb : ¬(b = closeByte ∧ nested = 0)) (pos : Nat)
    (bytes : List UInt8) :
    ∃ nested', scanCloser (nested + 1) pos (b :: bytes) = scanCloser (nested' + 1) (pos + 1) bytes ∧
      ∀ p : List UInt8, (b :: p).count openByte + nested + p.count closeByte =
        p.count openByte + nested' + (b :: p).count closeByte := by
  rw [scanCloser]
  by_cases ho : b = openByte
  · refine ⟨nested + 1, by rw [if_pos ho], fun p => ?_⟩
    rw [ho, List.count_cons_self, List.count_cons_of_ne openByte_ne_closeByte]
    omega
  · by_cases hc : b = closeByte
    · obtain ⟨m, rfl⟩ := Nat.exists_eq_succ_of_ne_zero fun h0 => hb ⟨hc, h0⟩
      refine ⟨m, by rw [if_neg ho, if_pos hc]; rfl, fun p => ?_⟩
      rw [hc, List.count_cons_self, List.count_cons_of_ne openByte_ne_closeByte.symm]
      omega
    · refine ⟨nested, by rw [if_neg ho, if_neg hc], fun p => ?_⟩
      rw [List.count_cons_of_ne ho, List.count_cons_of_ne hc]

/-- The loop comes to the first place where more is closed than opened, or to the
    end with the number of parentheses that are open there. It comes to one of the
    two, because the number is never lowered below zero. -/
theorem scanCloser_cases (nested pos : Nat) (bytes : List UInt8) :
    (∃ i, scanCloser (nested + 1) pos bytes = .ok (.ok (pos + i)) ∧ i < bytes.length ∧
      (bytes.take (i + 1)).count openByte + nested < (bytes.take (i + 1)).count closeByte ∧
      ∀ j < i, (bytes.take (j + 1)).count closeByte ≤
        (bytes.take (j + 1)).count openByte + nested) ∨
    ∃ depth, scanCloser (nested + 1) pos bytes = .ok (.error depth) ∧ 1 ≤ depth ∧
      depth + bytes.count closeByte = 1 + (bytes.count openByte + nested) ∧
      ∀ j < bytes.length, (bytes.take (j + 1)).count closeByte ≤
        (bytes.take (j + 1)).count openByte + nested := by
  induction bytes generalizing nested pos with
  | nil => exact .inr ⟨nested + 1, rfl, by omega, by simp only [List.count_nil]; omega, nofun⟩
  | cons b bytes ih =>
      by_cases hb : b = closeByte ∧ nested = 0
      · rcases hb with ⟨rfl, rfl⟩
        exact .inl ⟨0, rfl, Nat.succ_pos _, by simp [openByte_ne_closeByte.symm], nofun⟩
      · rcases scanCloser_cons hb pos bytes with ⟨nested', hscan, hcount⟩
        have hhead := hcount []
        simp only [List.count_nil] at hhead
        -- No prefix is closed too often when that holds of its part behind this byte.
        have hcovered : ∀ n, (∀ j < n, (bytes.take (j + 1)).count closeByte ≤
            (bytes.take (j + 1)).count openByte + nested') →
              ∀ j < n + 1, ((b :: bytes).take (j + 1)).count closeByte ≤
                ((b :: bytes).take (j + 1)).count openByte + nested := by
          intro n hrest j hj
          rw [List.take_succ_cons]
          cases j with
          | zero =>
              rw [List.take_zero]
              omega
          | succ j =>
              have := hrest j (Nat.lt_of_succ_lt_succ hj)
              have := hcount (bytes.take (j + 1))
              omega
        rw [hscan]
        rcases ih nested' (pos + 1) with
          ⟨i, hi, hlt, hover, hbefore⟩ | ⟨depth, hd, hpos, htotal, hall⟩
        · refine .inl ⟨i + 1, ?_, Nat.succ_lt_succ hlt, ?_, hcovered i hbefore⟩
          · rw [hi, Nat.add_assoc, Nat.add_comm 1 i]
          · rw [List.take_succ_cons]
            have := hcount (bytes.take (i + 1))
            omega
        · refine .inr ⟨depth, hd, hpos, ?_, hcovered bytes.length hall⟩
          have := hcount bytes
          omega

/-- The loop finds the byte that closes. -/
theorem scanCloser_of_closesAt {bytes : List UInt8} {start p : Nat} (h : ClosesAt bytes start p) :
    scanCloser 1 start (bytes.drop start) = .ok (.ok p) := by
  obtain ⟨k, rfl, hk, hover⟩ := overclosed_iff.1 h.overclosed
  rcases scanCloser_cases 0 start (bytes.drop start) with
    ⟨i, hi, hlt, hfound, hbefore⟩ | ⟨depth, -, -, -, hall⟩
  · -- The place that it finds is closed too often, and no place before it is.
    have hle := h.first (start + i) (overclosed_iff.2 ⟨i, rfl, hlt, hfound⟩)
    have hge : i ≤ k := Nat.not_lt.1 fun hlt' => by
      have := hbefore k hlt'
      omega
    have heq : i = k := by omega
    rw [hi, heq]
  · have := hall k hk
    omega

/-- Where no byte closes, the loop counts what the bytes leave open. -/
theorem scanCloser_of_not_closesAt {bytes : List UInt8} {start : Nat}
    (h : ¬∃ p, ClosesAt bytes start p) :
    ∃ depth, scanCloser 1 start (bytes.drop start) = .ok (.error depth) ∧ 1 ≤ depth ∧
      depth + (bytes.drop start).count closeByte = 1 + (bytes.drop start).count openByte := by
  rcases scanCloser_cases 0 start (bytes.drop start) with
    ⟨i, -, hlt, hfound, hbefore⟩ | ⟨depth, hd, hpos, htotal, -⟩
  · refine absurd ⟨start + i, overclosed_iff.2 ⟨i, rfl, hlt, hfound⟩, fun q hq => ?_⟩ h
    obtain ⟨k, rfl, -, hover⟩ := overclosed_iff.1 hq
    refine Nat.add_le_add_left (Nat.not_lt.1 fun hki => ?_) start
    have := hbefore k hki
    omega
  · exact ⟨depth, hd, hpos, htotal⟩

theorem scanCloser_append (depth pos : Nat) {inner : List UInt8}
    (hinner : openByte ∉ inner ∧ closeByte ∉ inner) (bytes : List UInt8) :
    scanCloser depth pos (inner ++ bytes) = scanCloser depth (pos + inner.length) bytes := by
  induction inner generalizing pos with
  | nil => rfl
  | cons b inner ih =>
      rcases hinner with ⟨ho, hc⟩
      rcases not_or.1 (mt List.mem_cons.2 ho) with ⟨hbo, ho⟩
      rcases not_or.1 (mt List.mem_cons.2 hc) with ⟨hbc, hc⟩
      rw [List.cons_append, scanCloser, if_neg (Ne.symm hbo), if_neg (Ne.symm hbc), ih _ ⟨ho, hc⟩,
        List.length_cons, Nat.add_assoc, Nat.add_comm 1]

/-- The loop over the bytes of a text goes where the scan of the text goes. -/
theorem scanCloser_bytes (nested pos : Nat) (s : Text) :
    scanCloser (nested + 1) pos s.bytes =
      match s.splitClose nested with
      | .error depth => .ok (.error depth)
      | .ok (body, _) => .ok (.ok (pos + body.byteLength)) := by
  induction s generalizing nested pos with
  | nil => rw [Text.bytes_nil]; rfl
  | cons c s ih =>
      have hopen : String.utf8EncodeChar '(' = [openByte] := by decide
      have hclose : String.utf8EncodeChar ')' = [closeByte] := by decide
      rw [Text.bytes_cons, Text.splitClose]
      by_cases hc : c = ')' ∧ nested = 0
      · rcases hc with ⟨rfl, rfl⟩
        rw [hclose, if_pos ⟨rfl, rfl⟩]
        rfl
      · -- Behind the character, both are at the same level and at the same place.
        have hstep : scanCloser (nested + 1) pos (String.utf8EncodeChar c ++ Text.bytes s) =
            scanCloser (Text.levelAfter nested c + 1) (pos + c.utf8Size) (Text.bytes s) := by
          rw [Text.levelAfter]
          by_cases ho : c = '('
          · rw [ho, hopen, if_pos rfl]
            rfl
          · rw [if_neg ho]
            by_cases hcl : c = ')'
            · obtain ⟨m, rfl⟩ := Nat.exists_eq_succ_of_ne_zero fun h0 => hc ⟨hcl, h0⟩
              rw [hcl, hclose, if_pos rfl]
              rfl
            · rw [if_neg hcl, scanCloser_append, String.length_utf8EncodeChar]
              have hcountOpen := count_utf8EncodeChar (d := '(') (by decide) c
              have hcountClose := count_utf8EncodeChar (d := ')') (by decide) c
              rw [if_neg ho] at hcountOpen
              rw [if_neg hcl] at hcountClose
              exact ⟨List.count_eq_zero.1 hcountOpen, List.count_eq_zero.1 hcountClose⟩
        rw [if_neg hc, hstep, ih]
        cases Text.splitClose (Text.levelAfter nested c) s with
        | error depth => rfl
        | ok found =>
            simp only [Except.map, Text.byteLength_cons, Nat.add_assoc]

/-! ## Arguments among bytes -/

/-- What a program over bytes comes to where this is the argument, or why there is
    none. -/
def ofArgument : Except ArgumentError Argument → Except Fault (Except Unbalanced Argument)
  | .ok argument => .ok (.ok argument)
  | .error (.unbalanced reason) => .ok (.error reason)
  | .error .insideCharacter => .error .slice

theorem not_mem_of_continuation {inner : List UInt8} (h : ∀ b ∈ inner, isContinuation b = true) :
    openByte ∉ inner ∧ closeByte ∉ inner :=
  ⟨fun hb => absurd (h _ hb) (by decide), fun hb => absurd (h _ hb) (by decide)⟩

/-- A program over the bytes of a text finds the argument that the text has there,
    and fails exactly when the position lies inside a character. -/
theorem extract_bytes (s : Text) (start : Nat) :
    extract s.bytes start = ofArgument (argumentAt s start) := by
  rw [extract, argumentAt]
  cases hseek : s.seek start with
  | none =>
      have hlt := Text.byteLength_lt_of_seek hseek
      rw [List.drop_eq_nil_of_le (by rw [Text.length_bytes]; omega)]
      rfl
  | some found =>
      rcases found with ⟨k, rest⟩
      rcases Text.drop_bytes_of_seek hseek with ⟨inner, hdrop, rfl, hinner⟩
      rw [hdrop, scanCloser_append _ _ (not_mem_of_continuation hinner), scanCloser_bytes]
      dsimp only
      cases hscan : rest.splitClose 0 with
      | error depth => rfl
      | ok split =>
          rcases split with ⟨body, after⟩
          cases inner with
          | nil =>
              -- The slice lies between two characters.
              rcases Text.eq_append_of_seek hseek with ⟨u, rfl, rfl⟩
              have hslice := slice_bytes u body (')' :: after)
              rw [← Text.eq_of_splitClose hscan] at hslice
              simp only [List.length_nil, Nat.add_zero, bind, Except.bind, hslice, readSlice_bytes]
              rfl
          | cons b inner =>
              have hinside : ¬s.IsBoundary start := by
                intro hbound
                rcases Text.isBoundary_iff_seek.1 hbound with ⟨v, hv⟩
                rw [hseek] at hv
                cases hv
              simp only [bind, Except.bind, slice_of_not_isBoundary hinside]
              rfl

/-! ## Trimmed text -/

/-- The text `t` is what is left of `s` without the blanks at its ends. -/
structure Text.TrimsTo (s t : Text) : Prop where
  ends : ∃ l r : Text, s = l ++ (t ++ r) ∧ (∀ c ∈ l, isBlank c = true) ∧
    ∀ c ∈ r, isBlank c = true
  head : ∀ c, t.head? = some c → isBlank c = false
  last : ∀ c, t.getLast? = some c → isBlank c = false

theorem not_isBlank_of_dropWhile {t : Text} {c : Char}
    (h : (t.dropWhile isBlank).head? = some c) : isBlank c = false := by
  have hnot := List.head?_dropWhile_not isBlank t
  rw [h] at hnot
  exact hnot

theorem Text.trimEnd_prefix (t : Text) : t.trimEnd <+: t := by
  rw [trimEnd, ← List.reverse_suffix, List.reverse_reverse]
  exact List.dropWhile_suffix _

theorem Text.trimsTo_trim (s : Text) : s.TrimsTo s.trim := by
  rcases s.trim_decompose with ⟨l, r, hs, hl, hr⟩
  refine ⟨⟨l, r, by rw [← List.append_assoc]; exact hs, hl, hr⟩, fun c hc => ?_, fun c hc => ?_⟩
  · -- The end is taken off last, and the first character stays the first.
    rcases s.trimStart.trimEnd_prefix with ⟨z, hz⟩
    refine not_isBlank_of_dropWhile (t := s) ?_
    rw [trim] at hc
    rw [trimStart] at hz hc
    rw [← hz, List.head?_append, hc]
    rfl
  · rw [trim, trimEnd, List.getLast?_reverse] at hc
    exact not_isBlank_of_dropWhile hc

/-! ## Arguments -/

theorem Text.bytes_inj {s t : Text} (h : s.bytes = t.bytes) : s = t := by
  have hs := decodeText?_bytes s
  rw [h, decodeText?_bytes] at hs
  exact (Option.some.inj hs).symm

/-- Behind a boundary, the argument is the text up to the byte that closes. -/
theorem argumentAt_of_closesAt {s : Text} {start p : Nat} (h : ClosesAt s.bytes start p)
    (hstart : s.IsBoundary start) :
    ∃ body : Text, body.bytes = (s.bytes.take p).drop start ∧ body.Balanced ∧
      argumentAt s start = .ok ⟨body.trim, p + 1⟩ := by
  have hscan := scanCloser_of_closesAt h
  rcases hstart with ⟨u, v, rfl, rfl⟩
  rw [argumentAt_byteLength]
  rw [Text.bytes_append, ← Text.length_bytes, List.drop_left, scanCloser_bytes,
    Text.length_bytes] at hscan
  cases hv : v.splitClose 0 with
  | error depth =>
      rw [hv] at hscan
      cases hscan
  | ok split =>
      rcases split with ⟨body, after⟩
      rw [hv] at hscan
      obtain rfl := Except.ok.inj (Except.ok.inj hscan)
      obtain ⟨rfl, hbalanced⟩ := Text.splitClose_zero_eq_ok_iff.1 hv
      refine ⟨body, ?_, hbalanced, rfl⟩
      rw [← List.append_assoc, Text.bytes_append, ← Text.length_bytes, ← Text.length_bytes,
        ← List.length_append, ← Text.bytes_append, List.take_left, Text.bytes_append,
        List.drop_left]

/-- The argument at a position is the text up to the first byte that closes more than
    has been opened, without the blanks at its ends. What stands behind that byte
    has no part in it. Where the position lies inside a character there is no such
    text, though there is such a byte. Where there is no such byte, the parentheses
    that stay open are counted, and there is always one, the one before the
    position. -/
theorem argumentAt_matching_closer (s : Text) (start : Nat) :
    extract s.bytes start = ofArgument (argumentAt s start) ∧
    (∀ p, ClosesAt s.bytes start p →
      (s.IsBoundary start → ∃ body argument : Text,
        body.bytes = (s.bytes.take p).drop start ∧ body.Balanced ∧ body.TrimsTo argument ∧
          argumentAt s start = .ok ⟨argument, p + 1⟩ ∧
          ∀ s' : Text, s'.bytes.take (p + 1) = s.bytes.take (p + 1) →
            argumentAt s' start = argumentAt s start) ∧
      (¬s.IsBoundary start → argumentAt s start = .error .insideCharacter)) ∧
    ((¬∃ p, ClosesAt s.bytes start p) →
      ∃ depth, argumentAt s start = .error (.unbalanced ⟨start, depth⟩) ∧ 1 ≤ depth ∧
        depth + (s.bytes.drop start).count closeByte =
          1 + (s.bytes.drop start).count openByte) := by
  have hextract := extract_bytes s start
  refine ⟨hextract, fun p hp => ⟨fun hstart => ?_, fun hinside => ?_⟩, fun hnone => ?_⟩
  · rcases argumentAt_of_closesAt hp hstart with ⟨body, hbody, hbalanced, harg⟩
    refine ⟨body, body.trim, hbody, hbalanced, body.trimsTo_trim, harg, fun s' hsame => ?_⟩
    -- The other text has the same bytes up to the closer, so it has the same body.
    have hstart' : s'.IsBoundary start := by
      rw [← Text.isBoundary_bytes_iff] at hstart ⊢
      have hle := hp.overclosed.1
      have hlt := hp.overclosed.2.1
      rw [isBoundary_congr hsame (by omega) (by omega), hstart]
    rcases argumentAt_of_closesAt (hp.congr hsame) hstart' with ⟨body', hbody', -, harg'⟩
    have hcut := congrArg (List.take p) hsame
    rw [List.take_take, List.take_take, Nat.min_eq_left (Nat.le_succ p)] at hcut
    rw [hcut, ← hbody] at hbody'
    rw [harg', harg, Text.bytes_inj hbody']
  · -- The loop finds the closer, and then there is nothing to slice.
    rw [extract, scanCloser_of_closesAt hp] at hextract
    simp only [bind, Except.bind, slice_of_not_isBoundary hinside] at hextract
    cases harg : argumentAt s start with
    | ok argument =>
        rw [harg] at hextract
        cases hextract
    | error e =>
        rw [harg] at hextract
        cases e with
        | unbalanced reason => cases hextract
        | insideCharacter => rfl
  · rcases scanCloser_of_not_closesAt hnone with ⟨depth, hscan, hpos, htotal⟩
    refine ⟨depth, ?_, hpos, htotal⟩
    rw [extract, hscan] at hextract
    cases harg : argumentAt s start with
    | ok argument =>
        rw [harg] at hextract
        cases hextract
    | error e =>
        rw [harg] at hextract
        cases e with
        | unbalanced reason =>
            rw [← Except.error.inj (Except.ok.inj hextract)]
        | insideCharacter => cases hextract

instance (bytes : List UInt8) (start p : Nat) : Decidable (Overclosed bytes start p) :=
  inferInstanceAs (Decidable (_ ∧ _ ∧ _))

/-- An argument with a character of two bytes in it, looked for from its start, from
    inside that character, and from behind the closer. -/
theorem matching_closer_among_bytes :
    let s : Text := " é(1) ) (".toList
    (s.IsBoundary 0 ∧ ClosesAt s.bytes 0 7 ∧
      ∃ argument, argumentAt s 0 = .ok ⟨argument, 8⟩ ∧ argument = "é(1)".toList) ∧
    (¬s.IsBoundary 2 ∧ ClosesAt s.bytes 2 7 ∧ argumentAt s 2 = .error .insideCharacter) ∧
    (¬∃ p, ClosesAt s.bytes 8 p) ∧ argumentAt s 8 = .error (.unbalanced ⟨8, 2⟩) := by
  intro s
  have hfirst : ∀ start p, (∀ q < p, ¬Overclosed s.bytes start q) →
      Overclosed s.bytes start p → ClosesAt s.bytes start p := fun start p hbefore hover =>
    ⟨hover, fun q hq => Nat.not_lt.1 fun hlt => hbefore q hlt hq⟩
  have hlength : s.bytes.length = 10 := by decide +kernel
  have hzero : s.IsBoundary 0 := ⟨[], s, rfl, rfl⟩
  have htwo : ¬s.IsBoundary 2 := by
    rw [← Text.isBoundary_bytes_iff]
    decide +kernel
  have hcloses : ClosesAt s.bytes 0 7 := hfirst 0 7 (by decide +kernel) (by decide +kernel)
  have hcloses' : ClosesAt s.bytes 2 7 := hfirst 2 7 (by decide +kernel) (by decide +kernel)
  have hnone : ¬∃ p, ClosesAt s.bytes 8 p := by
    rintro ⟨p, hp⟩
    have hbelow : ∀ q < 10, ¬Overclosed s.bytes 8 q := by decide +kernel
    exact hbelow p (hlength ▸ hp.overclosed.2.1) hp.overclosed
  rcases ((argumentAt_matching_closer s 0).2.1 7 hcloses).1 hzero with
    ⟨-, argument, -, -, -, hargument, -⟩
  have hinside := ((argumentAt_matching_closer s 2).2.1 7 hcloses').2 htwo
  rcases (argumentAt_matching_closer s 8).2.2 hnone with ⟨depth, hopen, -, hdepth⟩
  have hcounts : (s.bytes.drop 8).count closeByte = 0 ∧ (s.bytes.drop 8).count openByte = 1 := by
    decide +kernel
  have hdepth' : depth = 2 := by omega
  refine ⟨⟨hzero, hcloses, argument, hargument, ?_⟩, ⟨htwo, hcloses', hinside⟩, hnone,
    hdepth' ▸ hopen⟩
  have hvalue : argumentAt s 0 = .ok ⟨"é(1)".toList, 8⟩ := rfl
  exact congrArg Argument.text (Except.ok.inj (hargument.symm.trans hvalue))

end Codemod
