import Codemod.Proofs.JsonGrammar

/-!
# Layouts in the Grammar of JSON

The layout of a value is one of the texts of the grammar. It escapes what JSON
demands, and it has its blanks in front of items, keys and values and in front of a
bracket that closes.

## Main definitions

* `documentOf`: What the layout of a value says.

## Theorems

* `isText_pieces`, `denotes_quote`: A string between its quotes.
* `bracketed_eq`: A layout as texts with commas between them.
* `denotes_pretty`: The layout of a value.
-/

namespace Codemod

namespace Json

/-! ## Strings -/

/-- How a character of a string is written: a control character without an escape of
    its own as a code unit, any other one as itself. -/
def pieceOf (c : Char) : Piece :=
  if c.toNat < 0x20 ∧ c ∉ ['\x08', '\x0c', '\n', '\r', '\t'] then .unit c.toNat else .char c

mutual

/-- What the layout of a value says. -/
def documentOf : Json → Document
  | .null => .null
  | .boolean b => .boolean b
  | .number spelling => .number spelling
  | .string value => .string (value.map pieceOf)
  | .array items => .array (documentsOf items)
  | .object members => .object (membersSaid members)

def documentsOf : List Json → List Document
  | [] => []
  | v :: vs => documentOf v :: documentsOf vs

def membersSaid : List (Text × Json) → List (List Piece × Document)
  | [] => []
  | (key, v) :: ms => (key.map pieceOf, documentOf v) :: membersSaid ms

end

theorem IsText.char {ps : List Piece} {t : Text} (h : IsText ps t) (c : Char) :
    IsText (.char c :: ps) (c :: t) := congrArg (Except.map (c :: ·)) h

theorem IsText.unit {ps : List Piece} {t : Text} (h : IsText ps t) {n : Nat} (hn : n < 0xD800) :
    IsText (.unit n :: ps) (Char.ofNat n :: t) :=
  (joinPieces_unit hn (.ok ()) ps).trans (congrArg (Except.map (Char.ofNat n :: ·)) h)

theorem isText_pieces (s : Text) : IsText (s.map pieceOf) s := by
  induction s with
  | nil => rfl
  | cons c s ih =>
      rw [List.map_cons, pieceOf]
      split
      · rename_i h
        have hunit := ih.unit (n := c.toNat) (by omega)
        rwa [Char.ofNat_toNat] at hunit
      · exact ih.char c

theorem DenotesString.escape {s : Text} {ps : List Piece} (h : DenotesString s ps) (c : Char) :
    DenotesString (escape c ++ s) (pieceOf c :: ps) := by
  have hcontrol : c.toNat < 0x20 → c ≠ '\x08' → c ≠ '\x0c' → c ≠ '\n' → c ≠ '\r' → c ≠ '\t' →
      pieceOf c = .unit c.toNat := by
    intro hlow h8 hc hn hr ht
    exact if_pos ⟨hlow, by simp [h8, hc, hn, hr, ht]⟩
  fun_cases Json.escape c with
  | case1 hc => rcases hc with rfl | rfl <;> exact h.short (by decide)
  | case2 _ hc | case3 _ _ hc | case4 _ _ _ hc | case5 _ _ _ _ hc | case6 _ _ _ _ _ hc =>
      rw [hc]
      exact h.short (by decide)
  | case7 _ h8 hc hn hr ht hlow =>
      rw [hcontrol (by omega) h8 hc hn hr ht]
      exact h.unit (unitOf?_low _ hlow)
  | case8 _ h8 hc hn hr ht hlow hhigh =>
      rw [hcontrol hhigh h8 hc hn hr ht]
      exact h.unit (unitOf?_high _ hhigh (Nat.le_of_not_lt hlow))
  | case9 hquote _ _ _ _ _ _ hhigh =>
      rcases not_or.1 hquote with ⟨hquote, hslash⟩
      rw [pieceOf, if_neg fun hlow => hhigh hlow.1]
      exact h.char ⟨Nat.le_of_not_lt hhigh, hquote, hslash⟩

theorem denotes_quote (s : Text) : Denotes (quote s) (.string (s.map pieceOf)) := by
  have hstring : DenotesString (s.flatMap escape) (s.map pieceOf) := by
    induction s with
    | nil => exact .nil
    | cons c s ih => exact ih.escape c
  exact .string hstring

theorem IsCount.isNumber {ds : Text} (h : IsCount ds) : IsNumber ds := by
  have hparts := IsNumber.parts (.inl rfl) ⟨h.ne_nil, h.digits⟩ h.lead .none .none
  rwa [List.nil_append, List.append_nil, List.append_nil] at hparts

theorem Denotes.behind {before s : Text} {d : Document} (hb : IsBlank before) (h : Denotes s d) :
    Denotes (before ++ s) d := by
  have hblanks := h.blanks hb isBlank_nil
  rwa [List.append_nil] at hblanks

-- The blanks of a layout stand in front of each item and in front of the closer.
theorem bracketed_eq (opener closer : Char) (depth : Nat) (texts : List Text) :
    ∃ blanks, IsBlank blanks ∧ bracketed opener closer depth texts =
      opener :: (separated (texts.map (newLine (depth + 1) ++ ·)) ++ (blanks ++ [closer])) := by
  cases texts with
  | nil => exact ⟨[], isBlank_nil, rfl⟩
  | cons first rest =>
      refine ⟨newLine depth, isBlank_newLine depth, ?_⟩
      simp [bracketed, separated, List.flatMap_map]

theorem prettyItems_eq_map (depth : Nat) (vs : List Json) :
    prettyItems depth vs = vs.map (prettyAt depth) := by
  induction vs with
  | nil => rfl
  | cons v vs ih => rw [prettyItems, ih, List.map_cons]

theorem prettyMembers_eq_map (depth : Nat) (ms : List (Text × Json)) :
    prettyMembers depth ms = ms.map fun m => memberText depth m.1 m.2 := by
  induction ms with
  | nil => rfl
  | cons m ms ih =>
      rw [prettyMembers, ih, List.map_cons]
      rfl

theorem documentsOf_eq_map (vs : List Json) : documentsOf vs = vs.map documentOf := by
  induction vs with
  | nil => rfl
  | cons v vs ih => rw [documentsOf, ih, List.map_cons]

theorem membersSaid_eq_map (ms : List (Text × Json)) :
    membersSaid ms = ms.map fun m => (m.1.map pieceOf, documentOf m.2) := by
  induction ms with
  | nil => rfl
  | cons m ms ih => rw [membersSaid, ih, List.map_cons]

theorem denotes_array {depth : Nat} {vs : List Json}
    (h : ∀ v ∈ vs, Denotes (prettyAt (depth + 1) v) (documentOf v)) :
    Denotes (prettyAt depth (.array vs)) (documentOf (.array vs)) := by
  rcases bracketed_eq '[' ']' depth (prettyItems (depth + 1) vs) with ⟨blanks, hb, htext⟩
  have hitems : ∀ x ∈ vs.map fun v => (newLine (depth + 1) ++ prettyAt (depth + 1) v, documentOf v),
      Denotes x.1 x.2 := by
    intro x hx
    rcases List.mem_map.1 hx with ⟨v, hv, rfl⟩
    exact (h v hv).behind (isBlank_newLine _)
  have harray := Denotes.array hitems hb
  rw [List.map_map, List.map_map] at harray
  rw [prettyAt, htext, prettyItems_eq_map, List.map_map, documentOf, documentsOf_eq_map]
  exact harray

/-- A member as its layout writes it. -/
def entryOf (depth : Nat) (m : Text × Json) : Entry where
  keyText := newLine depth ++ quote m.1
  valueText := [' '] ++ prettyAt depth m.2
  key := m.1.map pieceOf
  value := documentOf m.2

theorem denotes_object {depth : Nat} {ms : List (Text × Json)}
    (h : ∀ m ∈ ms, Denotes (prettyAt (depth + 1) m.2) (documentOf m.2)) :
    Denotes (prettyAt depth (.object ms)) (documentOf (.object ms)) := by
  rcases bracketed_eq '{' '}' depth (prettyMembers (depth + 1) ms) with ⟨blanks, hb, htext⟩
  have hkeys : ∀ x ∈ ms.map (entryOf (depth + 1)), Denotes x.keyText (.string x.key) := by
    intro x hx
    rcases List.mem_map.1 hx with ⟨m, -, rfl⟩
    exact (denotes_quote m.1).behind (isBlank_newLine _)
  have hvalues : ∀ x ∈ ms.map (entryOf (depth + 1)), Denotes x.valueText x.value := by
    intro x hx
    rcases List.mem_map.1 hx with ⟨m, hm, rfl⟩
    exact (h m hm).behind isBlank_space
  have hobject := Denotes.object hkeys hvalues hb
  have htexts : ms.map (Entry.text ∘ entryOf (depth + 1)) =
      ms.map fun m => newLine (depth + 1) ++ memberText (depth + 1) m.1 m.2 := by
    refine List.map_congr_left fun m _ => ?_
    simp [Entry.text, entryOf, memberText]
  rw [List.map_map, List.map_map, htexts] at hobject
  rw [prettyAt, htext, prettyMembers_eq_map, List.map_map, documentOf, membersSaid_eq_map]
  exact hobject

mutual

/-- The layout of a value whose numbers fit in 64 bits is a text of the grammar. -/
theorem denotes_pretty : ∀ v : Json, v.IsCounted → ∀ depth,
    Denotes (prettyAt depth v) (documentOf v)
  | .null, _, _ => .null
  | .boolean true, _, _ => .true
  | .boolean false, _, _ => .false
  | .number _, h, _ => .number h.isNumber
  | .string value, _, _ => denotes_quote value
  | .array items, h, depth => denotes_array (denotes_items items h (depth + 1))
  | .object members, h, depth => denotes_object (denotes_members members h (depth + 1))

theorem denotes_items : ∀ vs : List Json, ItemsCounted vs → ∀ depth,
    ∀ v ∈ vs, Denotes (prettyAt depth v) (documentOf v)
  | [], _, _, _, hv => nomatch hv
  | v :: vs, h, depth, w, hw =>
    (List.mem_cons.1 hw).elim (fun e => e ▸ denotes_pretty v h.1 depth)
      (denotes_items vs h.2 depth w)

theorem denotes_members : ∀ ms : List (Text × Json), MembersCounted ms → ∀ depth,
    ∀ m ∈ ms, Denotes (prettyAt depth m.2) (documentOf m.2)
  | [], _, _, _, hm => nomatch hm
  | (_, v) :: ms, h, depth, m, hm =>
    (List.mem_cons.1 hm).elim (fun e => e ▸ denotes_pretty v h.1 depth)
      (denotes_members ms h.2 depth m)

end

end Json

end Codemod
