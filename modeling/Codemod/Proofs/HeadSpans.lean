import Codemod.Proofs.LoopRuns

/-!
# Heads Met by a Scan

Which occurrences of a head a scan of a text meets.

A scan looks for a head from the front of the text, and then for the next one from
the end of the last. It goes past every occurrence that starts inside a head it has
met, and that is all it misses: the search is for the leftmost occurrence, so none
starts between the place where it begins and the one that it finds. A head that
opens one parenthesis only does not overlap itself, and a scan for such a head
misses nothing.

Occurrences are told here from the bytes alone. The head starts with a byte that
starts a character, so nothing that looks like a head among the bytes begins inside
a character, and the place where the search begins may be any number.

## Main definitions

* `CallHead.OccursAt`: An occurrence among the bytes of a text.
* `CallHead.Scans`: The spans that a scan meets, search by search.

## Theorems

* `CallHead.occursAt_iff`: Occurrences among bytes and in the text.
* `CallHead.find?_eq_some`, `CallHead.find?_eq_none`: What a search finds.
* `CallHead.scans_findAll`, `CallHead.Scans.eq`: The one scan of a text.
* `CallHead.Scans.covers`: Nothing starts between the spans.
* `spans_meet_every_occurrence`: The spans of a scan, and the occurrences.
-/

namespace Codemod

-- A text among the bytes of another one, from the front, is a part of it.
theorem Text.bytes_prefix_iff {t u : Text} : t.bytes <+: u.bytes ↔ t <+: u := by
  constructor
  · rintro ⟨bs, h⟩
    refine List.isPrefix_of_utf8Encode_append_eq_utf8Encode ⟨⟨bs⟩⟩ (ByteArray.ext (Array.ext' ?_))
    rw [bytes_eq_flatMap, bytes_eq_flatMap] at h
    simpa [List.utf8Encode] using h
  · rintro ⟨v, rfl⟩
    rw [bytes_append]
    exact List.prefix_append _ _

namespace CallHead

variable {h : CallHead} {s : Text}

/-! ## Occurrences among bytes -/

/-- The bytes of the head stand at byte `i` of the text. -/
def OccursAt (h : CallHead) (s : Text) (i : Nat) : Prop := h.text.bytes <+: s.bytes.drop i

-- The head starts with a character, and its first byte starts one.
theorem OccursAt.first {i : Nat} (hi : h.OccursAt s i) :
    ∃ b, s.bytes[i]? = some b ∧ ¬isContinuation b = true := by
  rcases List.exists_cons_of_ne_nil h.text_ne_nil with ⟨c, t, hct⟩
  rcases utf8EncodeChar_eq_cons c with ⟨b, bs, hbytes, hb, -⟩
  rcases hi with ⟨rest, hrest⟩
  refine ⟨b, ?_, hb⟩
  rw [← List.head?_drop, ← hrest, hct, Text.bytes_cons, hbytes]
  rfl

/-- Where the bytes of the head stand among the bytes of a text, the head stands in
    the text. -/
theorem occursAt_iff {i : Nat} :
    h.OccursAt s i ↔ ∃ a b : Text, s = a ++ (h.text ++ b) ∧ a.byteLength = i := by
  constructor
  · intro hi
    rcases hi.first with ⟨b, hb, hstart⟩
    have hbound : isBoundary s.bytes i = true := by
      rw [isBoundary, hb]
      simp [hstart]
    rcases Text.isBoundary_bytes_iff.1 hbound with ⟨a, v, rfl, rfl⟩
    rw [OccursAt, Text.bytes_append, ← Text.length_bytes, List.drop_left,
      Text.bytes_prefix_iff] at hi
    rcases hi with ⟨b, rfl⟩
    exact ⟨a, b, rfl, rfl⟩
  · rintro ⟨a, b, rfl, rfl⟩
    rw [OccursAt, Text.bytes_append, ← Text.length_bytes, List.drop_left, Text.bytes_append]
    exact List.prefix_append _ _

theorem OccursAt.add_width_le {i : Nat} (hi : h.OccursAt s i) : i + h.width ≤ s.byteLength := by
  rcases occursAt_iff.1 hi with ⟨a, b, rfl, rfl⟩
  rw [Text.byteLength_append, Text.byteLength_append, width]
  omega

-- The last byte of an occurrence opens a parenthesis.
theorem OccursAt.last {i : Nat} (hi : h.OccursAt s i) :
    s.bytes[i + h.width - 1]? = some openByte := by
  rcases occursAt_iff.1 hi with ⟨a, b, rfl, rfl⟩
  have hopen : Text.bytes ['('] = [openByte] := by decide
  have hone : Text.byteLength ['('] = 1 := rfl
  have hsplit : Text.bytes (a ++ (h.text ++ b)) =
      Text.bytes (a ++ h.stem) ++ ([openByte] ++ Text.bytes b) := by
    rw [text, Text.bytes_append, Text.bytes_append, Text.bytes_append, Text.bytes_append, hopen]
    simp only [List.append_assoc]
  have hplace : a.byteLength + h.width - 1 = (Text.bytes (a ++ h.stem)).length := by
    rw [Text.length_bytes, Text.byteLength_append, width, text, Text.byteLength_append, hone]
    omega
  rw [hsplit, hplace, List.getElem?_append_right (Nat.le_refl _), Nat.sub_self]
  rfl

/-- Two occurrences of a head that opens one parenthesis only do not overlap. -/
theorem OccursAt.eq_of_overlap (hone : '(' ∉ h.stem) {i j : Nat} (hi : h.OccursAt s i)
    (hj : h.OccursAt s j) (hle : i ≤ j) (hlt : j < i + h.width) : j = i := by
  refine Nat.le_antisymm (Nat.not_lt.1 fun hij => ?_) hle
  -- The last byte of the first one would stand in the stem of the second.
  rcases occursAt_iff.1 hj with ⟨a, b, rfl, rfl⟩
  have hlast := hi.last
  have hopen : Text.byteLength ['('] = 1 := rfl
  have hwidth : h.width = h.stem.byteLength + 1 := by
    rw [width, text, Text.byteLength_append, hopen]
  have hsplit : Text.bytes (a ++ (h.text ++ b)) =
      a.bytes ++ (h.stem.bytes ++ Text.bytes (['('] ++ b)) := by
    simp only [text, Text.bytes_append, List.append_assoc]
  rw [hsplit, List.getElem?_append_right (by rw [Text.length_bytes]; omega),
    List.getElem?_append_left (by rw [Text.length_bytes, Text.length_bytes]; omega)] at hlast
  have hcount := Text.count_bytes (d := '(') (by decide) h.stem
  rw [List.count_eq_zero.2 hone, List.count_eq_zero] at hcount
  exact hcount (List.mem_of_getElem? hlast)

/-! ## One search -/

-- Behind the start of a search, an occurrence lies in the text that is searched: none
-- starts inside the character that holds the start.
theorem OccursAt.of_seek {n k i : Nat} {rest : Text} (hseek : s.seek n = some (k, rest))
    (hni : n ≤ i) (hi : h.OccursAt s i) :
    ∃ a b : Text, rest = a ++ (h.text ++ b) ∧ i = n + k + a.byteLength := by
  rcases Text.exists_append_of_seek hseek with ⟨u, rfl, hu⟩
  rcases Text.drop_bytes_of_seek hseek with ⟨inner, hdrop, hinner, hcont⟩
  have hout : u.byteLength ≤ i := by
    refine Nat.not_lt.1 fun hin => ?_
    rcases hi.first with ⟨b, hb, hstart⟩
    obtain ⟨d, rfl⟩ := Nat.exists_eq_add_of_le hni
    rw [← List.getElem?_drop, hdrop, List.getElem?_append_left (by omega)] at hb
    exact hstart (hcont b (List.mem_of_getElem? hb))
  obtain ⟨d, rfl⟩ := Nat.exists_eq_add_of_le hout
  have hrest : h.OccursAt rest d := by
    rw [OccursAt, Text.bytes_append, ← Text.length_bytes, List.drop_length_add_append] at hi
    exact hi
  rcases occursAt_iff.1 hrest with ⟨a, b, e, rfl⟩
  exact ⟨a, b, e, by rw [hu]⟩

/-- A search finds the first occurrence from its start on, whatever the start. -/
theorem find?_eq_some {n : Nat} {span : Span} (found : h.find? s n = some span) :
    h.OccursAt s span.start ∧ span.stop = span.start + h.width ∧ n ≤ span.start ∧
      ∀ i, n ≤ i → h.OccursAt s i → span.start ≤ i := by
  rw [find?, Option.bind_eq_bind, Option.bind_eq_some_iff] at found
  rcases found with ⟨⟨k, rest⟩, hseek, found⟩
  rw [Option.bind_eq_bind, Option.bind_eq_some_iff] at found
  rcases found with ⟨⟨gap, after⟩, hsplit, found⟩
  obtain rfl := Option.some.inj found
  rcases split?_eq_some_iff.1 hsplit with ⟨hrest, first⟩
  refine ⟨?_, rfl, by dsimp only; omega, fun i hni hi => ?_⟩
  · rcases Text.exists_append_of_seek hseek with ⟨u, rfl, hu⟩
    refine occursAt_iff.2 ⟨u ++ gap, after, by rw [hrest, List.append_assoc], ?_⟩
    rw [Text.byteLength_append, hu]
  · rcases hi.of_seek hseek hni with ⟨a, b, hab, rfl⟩
    have hgap := Text.byteLength_le_of_prefix (first.gap_prefix (hrest.symm.trans hab))
    exact Nat.add_le_add_left hgap (n + k)

/-- A search finds nothing only where no occurrence starts from there on. This is so
    at the end of the text and beyond it. -/
theorem find?_eq_none {n : Nat} (absent : h.find? s n = none) {i : Nat} (hni : n ≤ i) :
    ¬h.OccursAt s i := by
  intro hi
  rw [find?] at absent
  cases hseek : s.seek n with
  | none =>
      have hle := hi.add_width_le
      have hlt := Text.byteLength_lt_of_seek hseek
      omega
  | some found =>
      rcases found with ⟨k, rest⟩
      rcases hi.of_seek hseek hni with ⟨a, b, hab, -⟩
      simp only [hseek, Option.bind_eq_bind, Option.bind_some] at absent
      cases hsplit : h.split? rest with
      | some split => simp [hsplit] at absent
      | none => exact split?_eq_none_iff.1 hsplit ⟨a, b, by rw [hab, List.append_assoc]⟩

/-! ## A scan -/

/-- The spans that a scan meets from byte `n` on: the first one is looked for from
    there, and each of the others from the end of the one before. -/
inductive Scans (h : CallHead) (s : Text) : Nat → List Span → Prop
  | done {n : Nat} (absent : h.find? s n = none) : Scans h s n []
  | next {n : Nat} {span : Span} {spans : List Span} (found : h.find? s n = some span)
      (rest : Scans h s span.stop spans) : Scans h s n (span :: spans)

theorem scans_spansFrom (u s : Text) :
    Scans h (u ++ s) u.byteLength (h.spansFrom u.byteLength s) := by
  generalize hstart : u.byteLength = start
  fun_induction spansFrom h start s generalizing u with
  | case1 start s hs =>
      refine .done ?_
      rw [← hstart, find?_byteLength, hs]
      rfl
  | case2 start s gap rest hs found ih =>
      have hlength : Text.byteLength (u ++ (gap ++ h.text)) = found + h.width := by
        rw [Text.byteLength_append, Text.byteLength_append, hstart, ← width, ← Nat.add_assoc]
      have hfirst : h.find? (u ++ s) start = some ⟨found, found + h.width⟩ := by
        rw [← hstart, find?_byteLength, hs, hstart]
        rfl
      have hrest := ih (u ++ (gap ++ h.text)) hlength
      rw [List.append_assoc, List.append_assoc, ← eq_of_split? hs] at hrest
      exact .next hfirst hrest

theorem scans_findAll (h : CallHead) (s : Text) : Scans h s 0 (h.findAll s) := scans_spansFrom [] s

namespace Scans

variable {n : Nat} {spans : List Span}

/-- A scan meets the same spans each time. -/
theorem eq {spans' : List Span} (hs : Scans h s n spans) (hs' : Scans h s n spans') :
    spans' = spans := by
  induction hs generalizing spans' with
  | done absent =>
      cases hs' with
      | done => rfl
      | next found => exact absurd (absent.symm.trans found) nofun
  | @next n span spans found _ ih =>
      cases hs' with
      | done absent => exact absurd (absent.symm.trans found) nofun
      | next found' rest' =>
          obtain rfl := Option.some.inj (found.symm.trans found')
          rw [ih rest']

theorem occursAt (hs : Scans h s n spans) {span : Span} (hmem : span ∈ spans) :
    h.OccursAt s span.start ∧ span.stop = span.start + h.width := by
  induction hs with
  | done => cases hmem
  | @next n first spans found _ ih =>
      rcases List.mem_cons.1 hmem with rfl | hmem
      · have hfound := find?_eq_some found
        exact ⟨hfound.1, hfound.2.1⟩
      · exact ih hmem

theorem start_le (hs : Scans h s n spans) {span : Span} (hmem : span ∈ spans) :
    n ≤ span.start := by
  induction hs with
  | done => cases hmem
  | @next n first spans found _ ih =>
      have hfound := find?_eq_some found
      rcases List.mem_cons.1 hmem with rfl | hmem
      · exact hfound.2.2.1
      · have := ih hmem
        omega

theorem pairwise (hs : Scans h s n spans) :
    spans.Pairwise fun a b => a.start < b.start ∧ a.stop ≤ b.start := by
  induction hs with
  | done => exact .nil
  | @next n first spans found rest ih =>
      refine List.pairwise_cons.2 ⟨fun span hmem => ?_, ih⟩
      have hfound := find?_eq_some found
      have hle := rest.start_le hmem
      have hwidth := h.width_pos
      exact ⟨by omega, hle⟩

-- Each span takes as many bytes as the head has.
theorem length_le (hs : Scans h s n spans) (hn : n ≤ s.byteLength) :
    n + spans.length * h.width ≤ s.byteLength := by
  induction hs with
  | done => simpa using hn
  | @next n first spans found _ ih =>
      have hfound := find?_eq_some found
      have hle := ih (by have := hfound.1.add_width_le; omega)
      rw [List.length_cons, Nat.succ_mul]
      omega

/-- An occurrence that a scan does not meet starts inside one that it meets. -/
theorem covers (hs : Scans h s n spans) {i : Nat} (hni : n ≤ i) (hi : h.OccursAt s i) :
    ∃ span ∈ spans, span.start ≤ i ∧ i < span.stop := by
  induction hs with
  | done absent => exact absurd hi (find?_eq_none absent hni)
  | @next n first spans found _ ih =>
      by_cases hlt : i < first.stop
      · exact ⟨first, List.mem_cons_self, (find?_eq_some found).2.2.2 i hni hi, hlt⟩
      · rcases ih (Nat.not_lt.1 hlt) with ⟨span, hmem, hspan⟩
        exact ⟨span, List.mem_cons_of_mem _ hmem, hspan⟩

end Scans

end CallHead

/-- The spans that a scan meets: each is looked for from the end of the one before,
    until there are no more. They are finite in number, as together they are not
    longer than the text, and they are in order and do not overlap. Each of them
    holds the head, byte for byte, and ends just behind a parenthesis that opens.
    Every occurrence of the head starts inside one of them. They are all the
    occurrences if the head opens one parenthesis only. -/
theorem spans_meet_every_occurrence (h : CallHead) (s : Text) :
    let spans := h.findAll s
    (h.Scans s 0 spans ∧ ∀ spans', h.Scans s 0 spans' → spans' = spans) ∧
      spans.length * h.width ≤ s.byteLength ∧
      spans.Pairwise (fun a b => a.start < b.start ∧ a.stop ≤ b.start) ∧
      (∀ span ∈ spans, span.start < span.stop ∧
        slice s.bytes span.start span.stop = .ok h.text.bytes ∧
          s.bytes[span.stop - 1]? = some openByte) ∧
      (∀ i, h.OccursAt s i → ∃ span ∈ spans, span.start ≤ i ∧ i < span.stop) ∧
      ('(' ∉ h.stem → ∀ span : Span,
        span ∈ spans ↔ h.OccursAt s span.start ∧ span.stop = span.start + h.width) := by
  intro spans
  have hscan := CallHead.scans_findAll h s
  have hcovers : ∀ i, h.OccursAt s i → ∃ span ∈ spans, span.start ≤ i ∧ i < span.stop :=
    fun i hi => hscan.covers (Nat.zero_le i) hi
  refine ⟨⟨hscan, fun spans' => hscan.eq⟩, ?_, hscan.pairwise, fun span hmem => ?_, hcovers,
    fun hone span => ⟨hscan.occursAt, fun hspan => ?_⟩⟩
  · have hle := hscan.length_le (Nat.zero_le _)
    rwa [Nat.zero_add] at hle
  · rcases hscan.occursAt hmem with ⟨hstart, hstop⟩
    have hwidth := h.width_pos
    refine ⟨by omega, ?_, by rw [hstop, hstart.last]⟩
    rcases CallHead.occursAt_iff.1 hstart with ⟨a, b, rfl, ha⟩
    rw [hstop, ← ha]
    exact slice_bytes a h.text b
  · rcases hcovers span.start hspan.1 with ⟨met, hmem, hle, hlt⟩
    rcases hscan.occursAt hmem with ⟨hmet, hstop⟩
    have hstart := hmet.eq_of_overlap hone hspan.1 hle (by omega)
    -- The occurrence is the one that the span holds.
    have hspan' : span = met := by
      rcases span with ⟨start, stop⟩
      rcases met with ⟨start', stop'⟩
      rw [Span.mk.injEq]
      exact ⟨hstart, by have := hspan.2; dsimp only at *; omega⟩
    rwa [hspan']

/-- A head of four characters and six bytes that overlaps itself: of its four
    occurrences a scan meets two, and the second one starts inside the first. -/
theorem spans_of_overlapping_heads :
    let h : CallHead := ⟨"é(é".toList⟩
    let s : Text := "é(é(é(é(é(".toList
    h.findAll s = [⟨0, 6⟩, ⟨6, 12⟩] ∧ h.OccursAt s 3 ∧
      ∃ span ∈ h.findAll s, span.start ≤ 3 ∧ 3 < span.stop := by
  intro h s
  have hthree : h.OccursAt s 3 := CallHead.occursAt_iff.2 ⟨"é(".toList, "é(é(".toList, rfl, rfl⟩
  exact ⟨by decide +kernel, hthree, (spans_meet_every_occurrence h s).2.2.2.2.1 3 hthree⟩

end Codemod
