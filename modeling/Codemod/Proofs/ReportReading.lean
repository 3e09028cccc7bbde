import Codemod.Proofs.JsonReading
import Codemod.Run

/-!
# Reading Reports Back

A printed report says everything there is in the report, and says it in a way
that shows when something is missing: who reads it gets the report back, and who
reads a part of it that stops short is told that the text ends too early.

A decoder is followed over two kinds of trees at once, the whole tree of a value
and the trees of its broken off layouts. On the second kind it either meets the
end of the text or takes a number that has lost some digits for the whole
number. The latter does no harm, because a report is an object, and then the end
of the text is what comes next.

## Main definitions

* `Json.Decodes`: A decoder that takes a value back from its tree.
* `Json.Gathers`: Members that fill a draft.
* `Report.FitsCounters`: All counts of a report fit in 64 bits.

## Theorems

* `Json.Gathers.foldKnown`, `Json.Gathers.foldKnown_cut`: Going through members.
* `Report.decodes`: The report of its tree.
* `Report.printed_round_trip`: The report of its text.
-/

namespace Codemod

namespace Json

/-- A decoder that takes a value from its tree, and that meets the end of the
    text where the value breaks off, unless it takes a part for the whole. -/
structure Decodes {α : Type} (decode : Tree → Except Fault α) (v : Json) (a : α) : Prop where
  whole : decode v.tree = .ok a
  cut : ∀ t, Cut v t → decode t = .error .ended ∨ ∃ b, decode t = .ok b

/-! ## Scalars -/

theorem decodes_boolean (b : Bool) : Decodes (Tree.viewed Tree.boolean?) (.boolean b) b where
  whole := rfl
  cut := by
    intro t h
    cases h
    exact .inl rfl

theorem decodes_string (s : String) :
    Decodes (Tree.viewed Tree.string?) (.string s.toList) s where
  whole := congrArg Except.ok String.ofList_toList
  cut := by
    intro t h
    cases h <;> exact .inl rfl

theorem natural_of_isCount {ds : Text} (h : IsCount ds) (passed : Except Fault Unit) :
    Tree.natural (.number ⟨.ok ⟨false, ds, [], none⟩, passed⟩) = .ok (digitsValue ds) := by
  have hvalue : Tree.natural? (.number ⟨.ok ⟨false, ds, [], none⟩, passed⟩) =
      some (digitsValue ds) := if_pos ⟨rfl, rfl, rfl, h.lt⟩
  rw [Tree.natural, Tree.viewed, hvalue]

theorem decodes_natural {n : Nat} (h : n < UInt64.size) : Decodes Tree.natural (.natural n) n where
  whole := by
    have hvalue : digitsValue (Nat.toDigits 10 n) = n := Nat.ofDigitChars_ten_toDigits
    rw [natural, tree, scanNumber_of_isCount_nil (isCount_toDigits h),
      natural_of_isCount (isCount_toDigits h), hvalue]
  cut := by
    intro t ht
    cases ht with
    | ended => exact .inl rfl
    | number hds => exact .inr ⟨_, natural_of_isCount hds _⟩

theorem decodes_optional {n : Option Nat} (h : ∀ k, n = some k → k < UInt64.size) :
    Decodes (Tree.optional Tree.natural) (n.elim .null .natural) n := by
  cases n with
  | none =>
      refine ⟨rfl, fun t ht => ?_⟩
      cases ht
      exact .inl rfl
  | some k =>
      have hk := decodes_natural (h k rfl)
      refine ⟨congrArg (·.map some) hk.whole, fun t ht => ?_⟩
      cases ht with
      | ended => exact .inl rfl
      | number hds => exact .inr ⟨_, congrArg (·.map some) (natural_of_isCount hds _)⟩

/-! ## Items -/

section Items

variable {α : Type} {decode : Tree → Except Fault α} {write : α → Json}

theorem decode_itemsTree {as : List α} (h : ∀ a ∈ as, Decodes decode (write a) a) :
    (itemsTree (as.map write)).decode decode = .ok as := by
  induction as with
  | nil => rfl
  | cons a as ih =>
      rw [List.map_cons, itemsTree, Items.decode, (h a List.mem_cons_self).whole,
        ih fun b hb => h b (List.mem_cons_of_mem a hb)]
      rfl

theorem decode_itemsCut {as : List α} (h : ∀ a ∈ as, Decodes decode (write a) a)
    (hended : decode (.fault .ended) = .error .ended) {items : Items}
    (hcut : ItemsCut (as.map write) items) : items.decode decode = .error .ended := by
  induction as generalizing items with
  | nil =>
      cases hcut with
      | ended => rfl
      | opened => rw [Items.decode, hended]; rfl
  | cons a as ih =>
      cases hcut with
      | ended => rfl
      | within _ ht =>
          rcases (h a List.mem_cons_self).cut _ ht with he | ⟨b, hb⟩
          · rw [Items.decode, he]
            rfl
          · rw [Items.decode, hb]
            rfl
      | behind _ hrest =>
          rw [Items.decode, (h a List.mem_cons_self).whole,
            ih (fun b hb => h b (List.mem_cons_of_mem a hb)) hrest]
          rfl

theorem decodes_list {as : List α} (h : ∀ a ∈ as, Decodes decode (write a) a)
    (hended : decode (.fault .ended) = .error .ended) :
    Decodes (Tree.list decode) (.array (as.map write)) as where
  whole := by
    rw [tree, Tree.list, decode_itemsTree h]
  cut := by
    intro t ht
    cases ht with
    | ended => exact .inl rfl
    | array hcut => exact .inl (by rw [Tree.list, decode_itemsCut h hended hcut])

end Items

theorem itemsCounted_map {α : Type} {write : α → Json} {as : List α}
    (h : ∀ a ∈ as, (write a).IsCounted) : ItemsCounted (as.map write) := by
  induction as with
  | nil => exact trivial
  | cons a as ih =>
      exact ⟨h a List.mem_cons_self, ih fun b hb => h b (List.mem_cons_of_mem a hb)⟩

/-! ## Members -/

section Members

variable {α σ : Type} {step : Text → Tree → σ → Option (Except Fault σ)}

/-- Members that bring a draft from one state to another, each of them a known
    one that the draft takes. -/
inductive Gathers (step : Text → Tree → σ → Option (Except Fault σ)) :
    List (Text × Json) → σ → σ → Prop
  | nil (d : σ) : Gathers step [] d d
  | cons {key : Text} {v : Json} {ms : List (Text × Json)} {d d' e : σ}
    (whole : step key v.tree d = some (.ok d'))
    (cut : ∀ t, Cut v t → step key t d = some (.error .ended) ∨ ∃ x, step key t d = some (.ok x))
    (rest : Gathers step ms d' e) : Gathers step ((key, v) :: ms) d e

/-- A member with a place of its own that is not yet filled. -/
theorem Gathers.field {decode : Tree → Except Fault α} {place : Option α → σ} {key : Text}
    {v : Json} {a : α} {ms : List (Text × Json)} {d e : σ}
    (hstep : ∀ t, step key t d = some ((fillOnce none decode t).map place))
    (h : Decodes decode v a) (rest : Gathers step ms (place (some a)) e) :
    Gathers step ((key, v) :: ms) d e := by
  refine .cons ?_ (fun t ht => ?_) rest
  · rw [hstep, fillOnce, h.whole]
    rfl
  · rcases h.cut t ht with he | ⟨b, hb⟩
    · exact .inl (by rw [hstep, fillOnce, he]; rfl)
    · exact .inr ⟨_, by rw [hstep, fillOnce, hb]; rfl⟩

theorem Gathers.foldKnown {ms : List (Text × Json)} {d e : σ} (h : Gathers step ms d e) :
    (membersTree ms).foldKnown step d = .ok e := by
  induction h with
  | nil => rfl
  | cons whole _ _ ih =>
      rw [membersTree, Members.foldKnown]
      simp only [bind, Except.bind, whole, ih]

theorem Gathers.foldKnown_cut {ms : List (Text × Json)} {d e : σ} (h : Gathers step ms d e)
    {members : Members} (hcut : MembersCut ms members) :
    members.foldKnown step d = .error .ended := by
  induction h generalizing members with
  | nil =>
      cases hcut
      rfl
  | cons whole cut _ ih =>
      cases hcut with
      | ended => rfl
      | key => rfl
      | within _ _ ht =>
          rcases cut _ ht with he | ⟨x, hx⟩
          · rw [Members.foldKnown]
            simp only [bind, Except.bind, he]
          · rw [Members.foldKnown]
            simp only [bind, Except.bind, hx, Members.foldKnown]
      | behind _ _ hrest =>
          rw [Members.foldKnown]
          simp only [bind, Except.bind, whole, ih hrest]

end Members

end Json

open Json

/-! ## Records and errors -/

/-- All counts of a record fit in 64 bits. -/
def FileRecord.FitsCounters (r : FileRecord) : Prop :=
  r.replacements < UInt64.size ∧ ∀ line, r.unbalancedLine = some line → line < UInt64.size

theorem FileRecord.decodes {r : FileRecord} (h : r.FitsCounters) :
    Decodes FileRecord.ofTree r.toJson r := by
  have hgathers : Gathers Draft.add
      [("path".toList, .string r.path.toList), ("changed".toList, .boolean r.changed),
        ("replacements".toList, .natural r.replacements),
        ("unbalanced_line".toList, r.unbalancedLine.elim .null .natural)] {}
      ⟨some r.path, some r.changed, some r.replacements, some r.unbalancedLine⟩ :=
    .field (fun _ => rfl) (decodes_string r.path) <|
      .field (fun _ => rfl) (decodes_boolean r.changed) <|
        .field (fun _ => rfl) (decodes_natural h.1) <|
          .field (fun _ => rfl) (decodes_optional h.2) (.nil _)
  refine ⟨?_, fun t ht => .inl ?_⟩
  · rw [toJson, tree, ofTree, hgathers.foldKnown]
    rfl
  · cases ht with
    | ended => rfl
    | object hcut => rw [ofTree, hgathers.foldKnown_cut hcut]; rfl

theorem FileError.decodes (e : FileError) : Decodes FileError.ofTree e.toJson e := by
  have hgathers : Gathers Draft.add
      [("path".toList, .string e.path.toList), ("message".toList, .string e.message.toList)] {}
      ⟨some e.path, some e.message⟩ :=
    .field (fun _ => rfl) (decodes_string e.path) <|
      .field (fun _ => rfl) (decodes_string e.message) (.nil _)
  refine ⟨?_, fun t ht => .inl ?_⟩
  · rw [toJson, tree, ofTree, hgathers.foldKnown]
    rfl
  · cases ht with
    | ended => rfl
    | object hcut => rw [ofTree, hgathers.foldKnown_cut hcut]; rfl

/-! ## Reports -/

namespace Report

/-- All counts of a report fit in 64 bits. -/
def FitsCounters (r : Report) : Prop :=
  r.filesScanned < UInt64.size ∧ ∀ x ∈ r.records, x.FitsCounters

section Reading

variable {r : Report} (h : r.FitsCounters)

include h

theorem gathers : Gathers Draft.add
    [("files_scanned".toList, .natural r.filesScanned),
      ("records".toList, .array (r.records.map FileRecord.toJson)),
      ("errors".toList, .array (r.errors.map FileError.toJson)),
      ("dry_run".toList, .boolean r.dryRun)] {}
    ⟨some r.filesScanned, some r.records, some r.errors, some r.dryRun⟩ :=
  .field (fun _ => rfl) (decodes_natural h.1) <|
    .field (fun _ => rfl) (decodes_list (fun x hx => FileRecord.decodes (h.2 x hx)) rfl) <|
      .field (fun _ => rfl) (decodes_list (fun e _ => e.decodes) rfl) <|
        .field (fun _ => rfl) (decodes_boolean r.dryRun) (.nil _)

theorem ofTree_tree : ofTree r.toJson.tree = .ok r := by
  rw [toJson, tree, ofTree, (gathers h).foldKnown]
  rfl

theorem ofTree_cut {t : Tree} (ht : Cut r.toJson t) : ofTree t = .error .ended := by
  cases ht with
  | ended => rfl
  | object hcut => rw [ofTree, (gathers h).foldKnown_cut hcut]; rfl

theorem isCounted_toJson : r.toJson.IsCounted := by
  have hrecords : ItemsCounted (r.records.map FileRecord.toJson) := by
    refine itemsCounted_map fun x hx =>
      ⟨trivial, trivial, isCount_toDigits (h.2 x hx).1, ?_, trivial⟩
    cases hline : x.unbalancedLine with
    | none => exact trivial
    | some line => exact isCount_toDigits ((h.2 x hx).2 line hline)
  have herrors : ItemsCounted (r.errors.map FileError.toJson) :=
    itemsCounted_map fun _ _ => ⟨trivial, trivial, trivial⟩
  exact ⟨isCount_toDigits h.1, hrecords, herrors, trivial, trivial⟩

theorem readsBack_toJson : ReadsBack 0 r.toJson := readsBack r.toJson (isCounted_toJson h) 0

/-- The text of a report, with blanks behind it, is read as the report. -/
theorem ofText_json {blanks : Text} (hb : IsBlank blanks) (he : EndsNumber blanks) :
    ofText (r.json.toList ++ blanks) = .ok r := by
  rcases (readsBack_toJson h).whole blanks he with ⟨hv, hr⟩
  rw [json, String.toList_ofList, pretty, ofText, decodeText]
  simp only [hv, hr, hb.skipSpace, ofTree_tree h, bind, Except.bind, if_pos]
  rfl

/-- What is printed of a report as JSON is read as the report. -/
theorem ofText_printed : ofText (unlines (r.printed .json)).toList = .ok r := by
  have hprinted : (unlines (r.printed .json)).toList = r.json.toList ++ ['\n'] := by
    simp [unlines, printed]
  rw [hprinted]
  exact ofText_json h (isBlank_newLine 0) (endsNumber_cons (by decide) [])

/-- The text of a report that breaks off is an early end. -/
theorem ofText_json_cut {s u : Text} (hs : r.json.toList = s ++ u) (hu : u ≠ []) :
    ofText s = .error .ended := by
  rw [json, String.toList_ofList] at hs
  rcases (readsBack_toJson h).cut s u hs hu with ⟨t, ⟨hv, -⟩, ht⟩
  rw [ofText, decodeText]
  simp only [hv, ofTree_cut h ht, bind, Except.bind]

end Reading

/-- The printed text of a report, whose counts fit in 64 bits, is read back as
    the report, with or without its final line feed. Whatever it breaks off to
    is refused as a text that ends too early. -/
theorem printed_round_trip (r : Report) (h : r.FitsCounters) :
    ofText (unlines (r.printed .json)).toList = .ok r ∧ ofText r.json.toList = .ok r ∧
      ∀ s, s <+: r.json.toList → s ≠ r.json.toList → ofText s = .error .ended := by
  refine ⟨ofText_printed h, ?_, fun s hs hne => ?_⟩
  · have hnil : IsBlank [] := nofun
    have := ofText_json h hnil endsNumber_nil
    rwa [List.append_nil] at this
  · rcases hs with ⟨u, hu⟩
    refine ofText_json_cut h hu.symm fun hnil => hne ?_
    rw [← hu, hnil, List.append_nil]

/-- A report whose paths and messages need all kinds of escapes. -/
def amongEscapes : Report where
  filesScanned := UInt64.size - 1
  records := [
    ⟨"a \"b\"\\\n\t\x00\x1f.py", true, 10, none⟩,
    ⟨"é😀/x.py", false, 0, some 12⟩]
  errors := [⟨"", "\x7f\x08"⟩]
  dryRun := false

theorem printed_round_trip_among_escapes :
    ofText (unlines (amongEscapes.printed .json)).toList = .ok amongEscapes ∧
      ofText amongEscapes.json.toList = .ok amongEscapes ∧
      ∀ s, s <+: amongEscapes.json.toList → s ≠ amongEscapes.json.toList →
        ofText s = .error .ended := by
  refine printed_round_trip amongEscapes ⟨by decide, fun x hx => ?_⟩
  rcases List.mem_cons.1 hx with rfl | hx
  · exact ⟨by decide, nofun⟩
  · rcases List.mem_singleton.1 hx with rfl
    refine ⟨by decide, fun line hline => ?_⟩
    cases hline
    decide

end Report

end Codemod
