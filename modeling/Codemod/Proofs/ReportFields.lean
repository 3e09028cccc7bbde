import Codemod.Proofs.Fields
import Codemod.Proofs.JsonLayout
import Codemod.Proofs.ReportReading

/-!
# Reading Reports by their Fields

A report is read by what its fields say, and by nothing else.

The text that is printed for a report is one of many that are read as the report.
The members of each object may come in any order, and among them others with keys
that nobody asked for and any JSON for a value. The line of an unclosed call may be
missing where there is none. Each record may be the array of its fields instead of
an object, and then all fields are there. All of this may be done in each place by
itself, and the text may have its blanks and escapes as it likes.

No text is read that leaves a field open. A field that is given twice, a field that
is missing, and an array with another number of items are all refused, in the report
and in each record and error in it, whatever the rest of the text is like.

## Main definitions

* `FieldForm`, `WrittenAs`: The ways to write a record.
* `Defective`: A record that lacks a field, or has one twice.
* `FileRecord.forms`, `FileError.forms`, `Report.forms`: The fields of a report.
* `Report.IsDefective`: A report with a defect in it.

## Theorems

* `Keeps.cons`, `foldKnown_field`: The first of the members that give fields.
* `foldKnown_of_perm`, `not_decode_of_defective`: Any record with given fields.
* `ofTree_of_writtenAs`: The three decoders on what is written as a record.
* `not_ofTree_of_defective`: The three decoders on what is defective.
* `decoding_by_fields`: The texts that are read as a report, and texts that are
  not read.
-/

namespace Codemod

namespace Json

/-! ## Ways to write a record -/

/-- How a field is written: its key, the documents that give its value, and whether it
    may be left out. -/
structure FieldForm where
  key : Text
  gives : Document → Prop
  omittable : Prop

/-- Members that give the fields, in the order of these. -/
inductive Keeps : List FieldForm → List (List Piece × Document) → Prop
  | nil : Keeps [] []
  | field {f : FieldForm} {forms : List FieldForm} {ps : List Piece} {d : Document}
    {ms : List (List Piece × Document)} (hkey : IsText ps f.key) (hd : f.gives d)
    (h : Keeps forms ms) : Keeps (f :: forms) ((ps, d) :: ms)
  | omitted {f : FieldForm} {forms : List FieldForm} {ms : List (List Piece × Document)}
    (ho : f.omittable) (h : Keeps forms ms) : Keeps (f :: forms) ms

/-- A record as the array of its fields, or as an object with the members that give its
    fields and others, in any order. The others may have any value; their keys are texts
    that name no field. -/
inductive WrittenAs (forms : List FieldForm) : Document → Prop
  | array {ds : List Document} (h : List.Forall₂ FieldForm.gives forms ds) :
    WrittenAs forms (.array ds)
  | object {kept others ms : List (List Piece × Document)} (hk : Keeps forms kept)
    (ho : ∀ m ∈ others, ∃ key, IsText m.1 key ∧ ∀ f ∈ forms, key ≠ f.key)
    (hp : ms.Perm (kept ++ others)) : WrittenAs forms (.object ms)

/-- A record with a field that is given twice or missing, or as an array with another
    number of items than there are fields. -/
inductive Defective (keys required : List Text) : Document → Prop
  | twice {ms : List (List Piece × Document)} {m m' : List Piece × Document} {key : Text}
    (hkey : key ∈ keys) (hs : [m, m'].Sublist ms) (hm : IsText m.1 key) (hm' : IsText m'.1 key) :
    Defective keys required (.object ms)
  | missing {ms : List (List Piece × Document)} {key : Text} (hkey : key ∈ required)
    (h : ∀ m ∈ ms, ¬IsText m.1 key) : Defective keys required (.object ms)
  | array {ds : List Document} (h : ds.length ≠ keys.length) : Defective keys required (.array ds)

/-- One of the items of the array that gives a field of a record. The field has a place
    in arrays and a key in objects. -/
inductive StandsIn (place : Nat) (key : Text) (x : Document) : Document → Prop
  | array {ds items : List Document} (hi : ds[place]? = some (.array items)) (hx : x ∈ items) :
    StandsIn place key x (.array ds)
  | object {ms : List (List Piece × Document)} {ps : List Piece} {items : List Document}
    (hm : (ps, .array items) ∈ ms) (hk : IsText ps key) (hx : x ∈ items) :
    StandsIn place key x (.object ms)

/-! ### Values -/

def GivesString (s : String) (d : Document) : Prop := ∃ ps, d = .string ps ∧ IsText ps s.toList

def GivesBoolean (b : Bool) (d : Document) : Prop := d = .boolean b

def GivesNatural (n : Nat) (d : Document) : Prop := d = .number (Nat.toDigits 10 n)

def GivesOptional : Option Nat → Document → Prop
  | none, d => d = .null
  | some n, d => GivesNatural n d

def GivesList {α : Type} (gives : α → Document → Prop) (as : List α) (d : Document) : Prop :=
  ∃ ds, d = .array ds ∧ List.Forall₂ gives as ds

theorem GivesString.decode {s : String} {d : Document} (h : GivesString s d) :
    Tree.viewed Tree.string? d.tree = .ok s := by
  rcases h with ⟨ps, rfl, hs⟩
  have hview : Tree.string? (Document.string ps).tree = some s := by
    rw [Document.tree, Tree.string?, leafOf, hs]
    exact congrArg some String.ofList_toList
  rw [Tree.viewed, hview]

theorem GivesBoolean.decode {b : Bool} {d : Document} (h : GivesBoolean b d) :
    Tree.viewed Tree.boolean? d.tree = .ok b := by
  rw [h]
  rfl

theorem GivesNatural.decode {n : Nat} {d : Document} (h : GivesNatural n d) (hn : n < UInt64.size) :
    Tree.natural d.tree = .ok n := by
  rw [h]
  exact (decodes_natural hn).whole

theorem GivesOptional.decode {o : Option Nat} {d : Document} (h : GivesOptional o d)
    (ho : ∀ n, o = some n → n < UInt64.size) : Tree.optional Tree.natural d.tree = .ok o := by
  cases o with
  | none =>
      rw [show d = .null from h]
      rfl
  | some n =>
      have hn := GivesNatural.decode h (ho n rfl)
      rw [show d = .number _ from h] at hn ⊢
      exact congrArg (Except.map some) hn

theorem GivesList.decode {α : Type} {gives : α → Document → Prop} {decode : Tree → Except Fault α}
    {as : List α} {d : Document} (h : GivesList gives as d) (hpass : d.tree.pass = .ok ())
    (hgives : ∀ a ∈ as, ∀ x, gives a x → x.tree.pass = .ok () → decode x.tree = .ok a) :
    Tree.list decode d.tree = .ok as := by
  rcases h with ⟨ds, rfl, h⟩
  rw [Document.pass_array_iff] at hpass
  rw [Document.tree, Tree.list, decode_itemsOf_iff, Document.trees_eq_map,
    List.forall₂_map_left_iff]
  induction h with
  | nil => exact .nil
  | @cons a x as ds ha _ ih =>
      refine .cons (hgives a List.mem_cons_self x ha (hpass x List.mem_cons_self)) ?_
      exact ih (fun b hb => hgives b (List.mem_cons_of_mem a hb))
        fun y hy => hpass y (List.mem_cons_of_mem x hy)

/-- Where an array is decoded, each of its items is. -/
theorem decode_of_mem_list {α : Type} {decode : Tree → Except Fault α} {items : List Document}
    {as : List α} (h : Tree.list decode (Document.array items).tree = .ok as) {x : Document}
    (hx : x ∈ items) : ∃ a, decode x.tree = .ok a := by
  rw [Document.tree, Document.trees_eq_map, Tree.list, decode_itemsOf_iff] at h
  rw [List.forall₂_map_left_iff] at h
  induction h with
  | nil => cases hx
  | cons ha _ ih =>
      rcases List.mem_cons.1 hx with rfl | hx
      · exact ⟨_, ha⟩
      · exact ih hx

/-! ### Layouts of values -/

theorem givesString_documentOf (s : String) : GivesString s (documentOf (.string s.toList)) :=
  ⟨s.toList.map pieceOf, rfl, isText_pieces s.toList⟩

theorem givesOptional_documentOf (o : Option Nat) :
    GivesOptional o (documentOf (o.elim .null .natural)) := by
  cases o <;> rfl

theorem givesList_documentOf {α : Type} {gives : α → Document → Prop} {write : α → Json}
    (h : ∀ a, gives a (documentOf (write a))) (as : List α) :
    GivesList gives as (documentOf (.array (as.map write))) := by
  refine ⟨as.map fun a => documentOf (write a), ?_, ?_⟩
  · rw [documentOf, documentsOf_eq_map, List.map_map]
    rfl
  · exact List.forall₂_map_right_iff.2 (List.forall₂_same.2 fun a _ => h a)

/-! ## Objects -/

-- An object may have the fields in their order and nothing else.
theorem WrittenAs.of_keeps {forms : List FieldForm} {ms : List (List Piece × Document)}
    (h : Keeps forms ms) : WrittenAs forms (.object ms) :=
  .object h (List.forall_mem_nil _) (by rw [List.append_nil])

theorem Keeps.cons {f : FieldForm} {forms : List FieldForm} {ms : List (List Piece × Document)}
    (h : Keeps (f :: forms) ms) (ho : ¬f.omittable) :
    ∃ ps d rest, ms = (ps, d) :: rest ∧ IsText ps f.key ∧ f.gives d ∧ Keeps forms rest := by
  cases h with
  | field hkey hd h => exact ⟨_, _, _, rfl, hkey, hd, h⟩
  | omitted ho' => exact absurd ho' ho

section Drafts

variable {α σ : Type} {fields : List (DraftField σ)}

-- The first member fills the place of its field.
theorem foldKnown_field {decode : Tree → Except Fault α} {place : Option α → σ}
    {step : Text → Tree → σ → Option (Except Fault σ)} {ps : List Piece} {key : Text} {d : Document}
    {ms : List (List Piece × Document)} {s e : σ} {a : α} (hkey : IsText ps key)
    (hstep : ∀ t, step key t s = some ((fillOnce none decode t).map place))
    (hdecode : decode d.tree = .ok a)
    (rest : (membersOf (Document.memberTrees ms)).foldKnown step (place (some a)) = .ok e) :
    (membersOf (Document.memberTrees ((ps, d) :: ms))).foldKnown step s = .ok e := by
  have hfill : step key d.tree s = some (.ok (place (some a))) := by
    rw [hstep, fillOnce, hdecode]
    rfl
  rw [Document.memberTrees, membersOf, Members.foldKnown, leafOf, hkey]
  simp only [bind, Except.bind, hfill, rest]

/-- An object is gone through as its known members are in their order. -/
theorem foldKnown_of_perm (hi : DraftField.Independent fields)
    {kept others ms : List (List Piece × Document)} {s e : σ}
    (hkept : (membersOf (Document.memberTrees kept)).foldKnown (DraftField.add fields) s = .ok e)
    (ho : ∀ m ∈ others, ∃ key, IsText m.1 key ∧ ∀ f ∈ fields, key ≠ f.key)
    (hp : ms.Perm (kept ++ others)) (hpass : ∀ m ∈ ms, m.2.tree.pass = .ok ()) :
    (membersOf (Document.memberTrees ms)).foldKnown (DraftField.add fields) s = .ok e := by
  rw [Document.memberTrees_eq_map] at hkept ⊢
  refine foldKnown_perm hi (hp.symm.map _) ?_
  rw [List.map_append]
  refine foldKnown_append_others hi hkept fun m hm => ?_
  rcases List.mem_map.1 hm with ⟨n, hn, rfl⟩
  rcases ho n hn with ⟨key, hkey, hother⟩
  exact ⟨key, hkey, hother, hpass n (hp.mem_iff.2 (List.mem_append_right kept hn))⟩

/-- A defective record is not decoded, where an array needs an item for each field, and
    where a required field with no value shows in the end. -/
theorem not_decode_of_defective (hi : DraftField.Independent fields) {start : σ}
    {finish : σ → Except Fault α} {decode : Tree → Except Fault α} {required : List Text}
    (hobject : ∀ ms, decode (.object ms) = ms.foldKnown (DraftField.add fields) start >>= finish)
    (harray : ∀ ts a, decode (.array (itemsOf ts)) = .ok a → ts.length = fields.length)
    (hstart : ∀ f ∈ fields, f.get start = none)
    (hfinish : ∀ s a, finish s = .ok a →
      ∀ key ∈ required, ∃ f ∈ fields, f.key = key ∧ f.get s ≠ none)
    {d : Document} (hd : Defective (fields.map DraftField.key) required d) (a : α) :
    decode d.tree ≠ .ok a := by
  intro h
  cases hd with
  | array hne =>
      have hlength := harray _ a h
      rw [Document.trees_eq_map, List.length_map] at hlength
      exact hne (hlength.trans (List.length_map _).symm)
  | twice hkey hs hm hm' =>
      rw [Document.tree, hobject, Document.memberTrees_eq_map] at h
      rcases bind_eq_ok_iff.1 h with ⟨e, hfold, -⟩
      rcases List.mem_map.1 hkey with ⟨f, hf, rfl⟩
      have hs' := hs.map fun n : List Piece × Document => (leafOf n.1, n.2.tree)
      exact not_foldKnown_of_twice hi hf hs' hm hm' hfold
  | missing hkey habsent =>
      rw [Document.tree, hobject, Document.memberTrees_eq_map] at h
      rcases bind_eq_ok_iff.1 h with ⟨e, hfold, hfinished⟩
      rcases hfinish e a hfinished _ hkey with ⟨f, hf, rfl, hfilled⟩
      refine hfilled ((get_eq_of_absent hi hf (fun m hm => ?_) hfold).trans (hstart f hf))
      rcases List.mem_map.1 hm with ⟨n, hn, rfl⟩
      exact habsent n hn

end Drafts

end Json

open Json

/-! ## Records -/

/-- The fields of a record and of its draft, which takes members as these fields do. -/
def FileRecord.Draft.fields : List (DraftField Draft) := [
  ⟨String, "path".toList, Tree.viewed Tree.string?, Draft.path, fun p d => { d with path := p }⟩,
  ⟨Bool, "changed".toList, Tree.viewed Tree.boolean?, Draft.changed,
    fun p d => { d with changed := p }⟩,
  ⟨Nat, "replacements".toList, Tree.natural, Draft.replacements,
    fun p d => { d with replacements := p }⟩,
  ⟨Option Nat, "unbalanced_line".toList, Tree.optional Tree.natural, Draft.unbalancedLine,
    fun p d => { d with unbalancedLine := p }⟩]

namespace FileRecord

theorem Draft.independent : DraftField.Independent Draft.fields where
  apart := by simp [Draft.fields, DraftField.apart_iff]
  get_put := by simp [Draft.fields]

/-- How the fields of a record are written. -/
def forms (r : FileRecord) : List FieldForm := [
  ⟨"path".toList, GivesString r.path, False⟩,
  ⟨"changed".toList, GivesBoolean r.changed, False⟩,
  ⟨"replacements".toList, GivesNatural r.replacements, False⟩,
  ⟨"unbalanced_line".toList, GivesOptional r.unbalancedLine, r.unbalancedLine = none⟩]

/-- A record with a field that is given twice, or missing although it is needed, or as an
    array of another length. Only the line may be missing. -/
def IsDefective (d : Document) : Prop :=
  Defective ["path".toList, "changed".toList, "replacements".toList, "unbalanced_line".toList]
    ["path".toList, "changed".toList, "replacements".toList] d

/-- The layout of a record is one way to write it. -/
theorem writtenAs_toJson (r : FileRecord) : WrittenAs r.forms (documentOf r.toJson) :=
  .of_keeps <|
    .field (isText_pieces _) (givesString_documentOf r.path) <|
      .field (isText_pieces _) rfl <|
        .field (isText_pieces _) rfl <|
          .field (isText_pieces _) (givesOptional_documentOf r.unbalancedLine) .nil

theorem ofTree_array_iff {ts : List Tree} {r : FileRecord} :
    ofTree (.array (itemsOf ts)) = .ok r ↔ ∃ p c n l, ts = [p, c, n, l] ∧
      Tree.viewed Tree.string? p = .ok r.path ∧ Tree.viewed Tree.boolean? c = .ok r.changed ∧
        Tree.natural n = .ok r.replacements ∧
          Tree.optional Tree.natural l = .ok r.unbalancedLine := by
  simp only [ofTree, next_bind_iff, finish_bind_iff, pure, Except.pure, Except.ok.injEq]
  constructor
  · rintro ⟨p, _, _, rfl, hp, c, _, _, rfl, hc, n, _, _, rfl, hn, l, _, _, rfl, hl, rfl, rfl⟩
    exact ⟨p, c, n, l, rfl, hp, hc, hn, hl⟩
  · rintro ⟨p, c, n, l, rfl, hp, hc, hn, hl⟩
    exact ⟨p, _, _, rfl, hp, c, _, _, rfl, hc, n, _, _, rfl, hn, l, _, _, rfl, hl, rfl, rfl⟩

/-- A record is read from each way to write it. -/
theorem ofTree_of_writtenAs {r : FileRecord} (h : r.FitsCounters) {d : Document}
    (hw : WrittenAs r.forms d) (hpass : d.tree.pass = .ok ()) : ofTree d.tree = .ok r := by
  cases hw with
  | array hds =>
      simp only [forms, List.forall₂_cons_left_iff, List.forall₂_nil_left_iff] at hds
      rcases hds with ⟨p, _, hp, ⟨c, _, hc, ⟨n, _, hn, ⟨l, _, hl, rfl, rfl⟩, rfl⟩, rfl⟩, rfl⟩
      exact ofTree_array_iff.2
        ⟨_, _, _, _, rfl, hp.decode, hc.decode, hn.decode h.1, hl.decode h.2⟩
  | @object kept others ms hk ho hp =>
      rw [Document.pass_object_iff] at hpass
      have hkept : ∃ e : Draft, (membersOf (Document.memberTrees kept)).foldKnown Draft.add {} =
          .ok e ∧ e.finish = .ok r := by
        rcases hk.cons id with ⟨p, dp, _, rfl, hpkey, hpd, hk⟩
        rcases hk.cons id with ⟨c, dc, _, rfl, hckey, hcd, hk⟩
        rcases hk.cons id with ⟨n, dn, _, rfl, hnkey, hnd, hk⟩
        cases hk with
        | field hlkey hld hrest =>
            cases hrest
            refine ⟨⟨some r.path, some r.changed, some r.replacements, some r.unbalancedLine⟩,
              ?_, rfl⟩
            exact foldKnown_field hpkey (fun _ => rfl) hpd.decode <|
              foldKnown_field hckey (fun _ => rfl) hcd.decode <|
                foldKnown_field hnkey (fun _ => rfl) (hnd.decode h.1) <|
                  foldKnown_field hlkey (fun _ => rfl) (hld.decode h.2) rfl
        | omitted hnone hrest =>
            cases hrest
            have hr : r = ⟨r.path, r.changed, r.replacements, none⟩ := by rw [← hnone]
            rw [hr]
            refine ⟨⟨some r.path, some r.changed, some r.replacements, none⟩, ?_, rfl⟩
            exact foldKnown_field hpkey (fun _ => rfl) hpd.decode <|
              foldKnown_field hckey (fun _ => rfl) hcd.decode <|
                foldKnown_field hnkey (fun _ => rfl) (hnd.decode h.1) rfl
      rcases hkept with ⟨e, hfold, hfinish⟩
      have hothers : ∀ m ∈ others, ∃ key, IsText m.1 key ∧ ∀ f ∈ Draft.fields, key ≠ f.key := by
        simpa [forms, Draft.fields] using ho
      exact bind_eq_ok_iff.2
        ⟨e, foldKnown_of_perm Draft.independent hfold hothers hp hpass, hfinish⟩

/-- A defective record is not read. -/
theorem not_ofTree_of_defective {d : Document} (hd : IsDefective d) (r : FileRecord) :
    ofTree d.tree ≠ .ok r := by
  refine not_decode_of_defective Draft.independent (fun _ => rfl) (fun ts a h => ?_)
    (by simp [Draft.fields]) (fun s a h => ?_) hd r
  · rcases ofTree_array_iff.1 h with ⟨p, c, n, l, rfl, -⟩
    rfl
  · rw [Draft.finish] at h
    split at h
    · simp_all [Draft.fields]
    · cases h

end FileRecord

/-! ## Errors -/

/-- The fields of an error and of its draft. -/
def FileError.Draft.fields : List (DraftField Draft) := [
  ⟨String, "path".toList, Tree.viewed Tree.string?, Draft.path, fun p d => { d with path := p }⟩,
  ⟨String, "message".toList, Tree.viewed Tree.string?, Draft.message,
    fun p d => { d with message := p }⟩]

namespace FileError

theorem Draft.independent : DraftField.Independent Draft.fields where
  apart := by simp [Draft.fields, DraftField.apart_iff]
  get_put := by simp [Draft.fields]

/-- How the fields of an error are written. -/
def forms (e : FileError) : List FieldForm := [
  ⟨"path".toList, GivesString e.path, False⟩, ⟨"message".toList, GivesString e.message, False⟩]

/-- An error with a field that is given twice or missing, or as an array of another
    length. -/
def IsDefective (d : Document) : Prop :=
  Defective ["path".toList, "message".toList] ["path".toList, "message".toList] d

theorem writtenAs_toJson (e : FileError) : WrittenAs e.forms (documentOf e.toJson) :=
  .of_keeps <|
    .field (isText_pieces _) (givesString_documentOf e.path) <|
      .field (isText_pieces _) (givesString_documentOf e.message) .nil

theorem ofTree_array_iff {ts : List Tree} {e : FileError} :
    ofTree (.array (itemsOf ts)) = .ok e ↔ ∃ p m, ts = [p, m] ∧
      Tree.viewed Tree.string? p = .ok e.path ∧ Tree.viewed Tree.string? m = .ok e.message := by
  simp only [ofTree, next_bind_iff, finish_bind_iff, pure, Except.pure, Except.ok.injEq]
  constructor
  · rintro ⟨p, _, _, rfl, hp, m, _, _, rfl, hm, rfl, rfl⟩
    exact ⟨p, m, rfl, hp, hm⟩
  · rintro ⟨p, m, rfl, hp, hm⟩
    exact ⟨p, _, _, rfl, hp, m, _, _, rfl, hm, rfl, rfl⟩

/-- An error is read from each way to write it. -/
theorem ofTree_of_writtenAs {e : FileError} {d : Document} (hw : WrittenAs e.forms d)
    (hpass : d.tree.pass = .ok ()) : ofTree d.tree = .ok e := by
  cases hw with
  | array hds =>
      simp only [forms, List.forall₂_cons_left_iff, List.forall₂_nil_left_iff] at hds
      rcases hds with ⟨p, _, hp, ⟨m, _, hm, rfl, rfl⟩, rfl⟩
      exact ofTree_array_iff.2 ⟨_, _, rfl, hp.decode, hm.decode⟩
  | @object kept others ms hk ho hp =>
      rw [Document.pass_object_iff] at hpass
      rcases hk.cons id with ⟨p, dp, _, rfl, hpkey, hpd, hk⟩
      rcases hk.cons id with ⟨m, dm, _, rfl, hmkey, hmd, hk⟩
      cases hk
      have hothers : ∀ m ∈ others, ∃ key, IsText m.1 key ∧ ∀ f ∈ Draft.fields, key ≠ f.key := by
        simpa [forms, Draft.fields] using ho
      have hfold : (membersOf (Document.memberTrees [(p, dp), (m, dm)])).foldKnown Draft.add {} =
          .ok ⟨some e.path, some e.message⟩ :=
        foldKnown_field hpkey (fun _ => rfl) hpd.decode <|
          foldKnown_field hmkey (fun _ => rfl) hmd.decode rfl
      exact bind_eq_ok_iff.2
        ⟨_, foldKnown_of_perm Draft.independent hfold hothers hp hpass, rfl⟩

/-- A defective error is not read. -/
theorem not_ofTree_of_defective {d : Document} (hd : IsDefective d) (e : FileError) :
    ofTree d.tree ≠ .ok e := by
  refine not_decode_of_defective Draft.independent (fun _ => rfl) (fun ts a h => ?_)
    (by simp [Draft.fields]) (fun s a h => ?_) hd e
  · rcases ofTree_array_iff.1 h with ⟨p, m, rfl, -⟩
    rfl
  · rw [Draft.finish] at h
    split at h
    · simp_all [Draft.fields]
    · cases h

end FileError

/-! ## Reports -/

/-- The fields of a report and of its draft. -/
def Report.Draft.fields : List (DraftField Draft) := [
  ⟨Nat, "files_scanned".toList, Tree.natural, Draft.filesScanned,
    fun p d => { d with filesScanned := p }⟩,
  ⟨List FileRecord, "records".toList, Tree.list FileRecord.ofTree, Draft.records,
    fun p d => { d with records := p }⟩,
  ⟨List FileError, "errors".toList, Tree.list FileError.ofTree, Draft.errors,
    fun p d => { d with errors := p }⟩,
  ⟨Bool, "dry_run".toList, Tree.viewed Tree.boolean?, Draft.dryRun,
    fun p d => { d with dryRun := p }⟩]

namespace Report

theorem Draft.independent : DraftField.Independent Draft.fields where
  apart := by simp [Draft.fields, DraftField.apart_iff]
  get_put := by simp [Draft.fields]

/-- How the fields of a report are written. Each record and each error in it may be written
    in a way of its own. -/
def forms (r : Report) : List FieldForm := [
  ⟨"files_scanned".toList, GivesNatural r.filesScanned, False⟩,
  ⟨"records".toList, GivesList (fun x => WrittenAs x.forms) r.records, False⟩,
  ⟨"errors".toList, GivesList (fun e => WrittenAs e.forms) r.errors, False⟩,
  ⟨"dry_run".toList, GivesBoolean r.dryRun, False⟩]

/-- A report with a field that is given twice or missing, or as an array of another length,
    or a report with such a record or such an error in it. -/
inductive IsDefective (d : Document) : Prop
  | report
    (h : Defective ["files_scanned".toList, "records".toList, "errors".toList, "dry_run".toList]
      ["files_scanned".toList, "records".toList, "errors".toList, "dry_run".toList] d)
  | record {x : Document} (hx : StandsIn 1 "records".toList x d) (h : FileRecord.IsDefective x)
  | error {x : Document} (hx : StandsIn 2 "errors".toList x d) (h : FileError.IsDefective x)

theorem writtenAs_toJson (r : Report) : WrittenAs r.forms (documentOf r.toJson) :=
  .of_keeps <|
    .field (isText_pieces _) rfl <|
      .field (isText_pieces _) (givesList_documentOf FileRecord.writtenAs_toJson r.records) <|
        .field (isText_pieces _) (givesList_documentOf FileError.writtenAs_toJson r.errors) <|
          .field (isText_pieces _) rfl .nil

theorem ofTree_array_iff {ts : List Tree} {r : Report} :
    ofTree (.array (itemsOf ts)) = .ok r ↔ ∃ n rs es b, ts = [n, rs, es, b] ∧
      Tree.natural n = .ok r.filesScanned ∧ Tree.list FileRecord.ofTree rs = .ok r.records ∧
        Tree.list FileError.ofTree es = .ok r.errors ∧
          Tree.viewed Tree.boolean? b = .ok r.dryRun := by
  simp only [ofTree, next_bind_iff, finish_bind_iff, pure, Except.pure, Except.ok.injEq]
  constructor
  · rintro ⟨n, _, _, rfl, hn, rs, _, _, rfl, hrs, es, _, _, rfl, hes, b, _, _, rfl, hb, rfl, rfl⟩
    exact ⟨n, rs, es, b, rfl, hn, hrs, hes, hb⟩
  · rintro ⟨n, rs, es, b, rfl, hn, hrs, hes, hb⟩
    exact ⟨n, _, _, rfl, hn, rs, _, _, rfl, hrs, es, _, _, rfl, hes, b, _, _, rfl, hb, rfl, rfl⟩

/-- A report is read from each way to write it. -/
theorem ofTree_of_writtenAs {r : Report} (h : r.FitsCounters) {d : Document}
    (hw : WrittenAs r.forms d) (hpass : d.tree.pass = .ok ()) : ofTree d.tree = .ok r := by
  have hrecords : ∀ {x : Document},
      GivesList (fun y : FileRecord => WrittenAs y.forms) r.records x → x.tree.pass = .ok () →
        Tree.list FileRecord.ofTree x.tree = .ok r.records := fun hx hp =>
    hx.decode hp fun y hy _ hw hp => FileRecord.ofTree_of_writtenAs (h.2 y hy) hw hp
  have herrors : ∀ {x : Document},
      GivesList (fun e : FileError => WrittenAs e.forms) r.errors x → x.tree.pass = .ok () →
        Tree.list FileError.ofTree x.tree = .ok r.errors := fun hx hp =>
    hx.decode hp fun e _ _ hw hp => FileError.ofTree_of_writtenAs hw hp
  cases hw with
  | array hds =>
      simp only [forms, List.forall₂_cons_left_iff, List.forall₂_nil_left_iff] at hds
      rcases hds with ⟨n, _, hn, ⟨rs, _, hrs, ⟨es, _, hes, ⟨b, _, hb, rfl, rfl⟩, rfl⟩, rfl⟩, rfl⟩
      simp only [Document.pass_array_iff, List.forall_mem_cons] at hpass
      rcases hpass with ⟨-, hprs, hpes, -, -⟩
      exact ofTree_array_iff.2 ⟨_, _, _, _, rfl, hn.decode h.1, hrecords hrs hprs,
        herrors hes hpes, hb.decode⟩
  | @object kept others ms hk ho hp =>
      rw [Document.pass_object_iff] at hpass
      have hkeptPass : ∀ m ∈ kept, m.2.tree.pass = .ok () := fun m hm =>
        hpass m (hp.mem_iff.2 (List.mem_append_left others hm))
      rcases hk.cons id with ⟨n, dn, _, rfl, hnkey, hnd, hk⟩
      rcases hk.cons id with ⟨rs, drs, _, rfl, hrskey, hrsd, hk⟩
      rcases hk.cons id with ⟨es, des, _, rfl, heskey, hesd, hk⟩
      rcases hk.cons id with ⟨b, db, _, rfl, hbkey, hbd, hk⟩
      cases hk
      simp only [List.forall_mem_cons] at hkeptPass
      rcases hkeptPass with ⟨-, hprs, hpes, -, -⟩
      have hothers : ∀ m ∈ others, ∃ key, IsText m.1 key ∧ ∀ f ∈ Draft.fields, key ≠ f.key := by
        simpa [forms, Draft.fields] using ho
      have hfold : (membersOf (Document.memberTrees
          [(n, dn), (rs, drs), (es, des), (b, db)])).foldKnown Draft.add {} =
            .ok ⟨some r.filesScanned, some r.records, some r.errors, some r.dryRun⟩ :=
        foldKnown_field hnkey (fun _ => rfl) (hnd.decode h.1) <|
          foldKnown_field hrskey (fun _ => rfl) (hrecords hrsd hprs) <|
            foldKnown_field heskey (fun _ => rfl) (herrors hesd hpes) <|
              foldKnown_field hbkey (fun _ => rfl) hbd.decode rfl
      exact bind_eq_ok_iff.2
        ⟨_, foldKnown_of_perm Draft.independent hfold hothers hp hpass, rfl⟩

-- What a report is read from has a value for each field, whichever way it is written.
theorem decode_of_standsIn {r : Report} {d x : Document} (h : ofTree d.tree = .ok r)
    {place : Nat} {f : DraftField Draft} (hf : Draft.fields[place]? = some f)
    (hx : StandsIn place f.key x d) :
    ∃ items a, x ∈ items ∧ f.decode (Document.array items).tree = .ok a := by
  cases hx with
  | @array ds items hi hx =>
      rcases ofTree_array_iff.1 h with ⟨n, rs, es, b, hts, hn, hrs, hes, hb⟩
      have ht : [n, rs, es, b][place]? = some (Document.array items).tree := by
        rw [← hts, Document.trees_eq_map, List.getElem?_map, hi]
        rfl
      match place, hf, ht with
      | 0, hf, ht | 1, hf, ht | 2, hf, ht | 3, hf, ht =>
        obtain rfl := Option.some.inj hf
        obtain rfl := Option.some.inj ht
        exact ⟨items, _, hx, by assumption⟩
  | @object ms ps items hm hk hx =>
      rcases bind_eq_ok_iff.1 h with ⟨e, hfold, -⟩
      rw [Document.memberTrees_eq_map] at hfold
      have hm' := List.mem_map_of_mem
        (f := fun m : List Piece × Document => (leafOf m.1, m.2.tree)) hm
      rcases decode_of_mem Draft.independent (List.mem_of_getElem? hf) hm' hk hfold with ⟨a, ha⟩
      exact ⟨items, a, hx, ha⟩

/-- A defective report is not read. -/
theorem not_ofTree_of_defective {d : Document} (hd : IsDefective d) (r : Report) :
    ofTree d.tree ≠ .ok r := by
  intro h
  cases hd with
  | report hd =>
      refine not_decode_of_defective Draft.independent (fun _ => rfl) (fun ts a h => ?_)
        (by simp [Draft.fields]) (fun s a h => ?_) hd r h
      · rcases ofTree_array_iff.1 h with ⟨n, rs, es, b, rfl, -⟩
        rfl
      · rw [Draft.finish] at h
        split at h
        · simp_all [Draft.fields]
        · cases h
  | record hx hd =>
      rcases decode_of_standsIn h (f := Draft.fields[1]) rfl hx with ⟨items, records, hx, hitems⟩
      rcases decode_of_mem_list hitems hx with ⟨y, hy⟩
      exact FileRecord.not_ofTree_of_defective hd y hy
  | error hx hd =>
      rcases decode_of_standsIn h (f := Draft.fields[2]) rfl hx with ⟨items, errors, hx, hitems⟩
      rcases decode_of_mem_list hitems hx with ⟨e, he⟩
      exact FileError.not_ofTree_of_defective hd e he

/-! ### Texts -/

theorem ofText_of_denotes {s : Text} {d : Document} (h : Denotes s d) :
    ofText s = ofTree d.tree := by
  rcases h.read with ⟨blanks, hb, hv, hrest⟩
  rw [ofText, decodeText]
  simp only [hv, hrest, hb.skipSpace, if_pos]
  cases ofTree d.tree <;> rfl

/-- A report is read by its fields. What is printed for a report is one way to write it.
    From each text that writes it in any way, the report is read. From a text with a
    defect, no report is read. -/
theorem decoding_by_fields :
    (∀ r : Report, r.FitsCounters → ∃ d, Denotes r.json.toList d ∧ WrittenAs r.forms d) ∧
      (∀ r : Report, r.FitsCounters → ∀ s d, Denotes s d → WrittenAs r.forms d →
        ofText s = .ok r) ∧
      ∀ s d, Denotes s d → IsDefective d → ∃ f, ofText s = .error f := by
  refine ⟨fun r h => ?_, fun r h s d hs hw => ?_, fun s d hs hd => ?_⟩
  · refine ⟨documentOf r.toJson, ?_, writtenAs_toJson r⟩
    rw [json, String.toList_ofList, pretty]
    exact denotes_pretty r.toJson (isCounted_toJson h) 0
  · rw [ofText_of_denotes hs, ofTree_of_writtenAs h hw hs.pass_tree]
  · rw [ofText_of_denotes hs]
    cases hread : ofTree d.tree with
    | error f => exact ⟨f, rfl⟩
    | ok r => exact absurd hread (not_ofTree_of_defective hd r)

/-- A report with a record and an error. -/
def arranged : Report := ⟨1, [⟨"a", true, 2, none⟩], [⟨"b", "c"⟩], false⟩

/-- The report with its members in another order and one more among them, its record
    without a line, and its error as an array. -/
def rearranged : Json :=
  .object [
    ("errors".toList, .array [.array [.string "b".toList, .string "c".toList]]),
    ("dry_run".toList, .boolean false),
    ("x".toList, .object [("errors".toList, .null)]),
    ("records".toList, .array [.object [
      ("replacements".toList, .natural 2), ("changed".toList, .boolean true),
      ("path".toList, .string "a".toList)]]),
    ("files_scanned".toList, .natural 1)]

/-- An array of the fields of a report, with a record that has two paths. -/
def ambiguous : Json :=
  .array [
    .natural 1, .array [.object [
      ("path".toList, .string "a".toList), ("path".toList, .string "b".toList)]],
    .array [], .boolean false]

theorem isCounted_rearranged : rearranged.IsCounted :=
  ⟨⟨⟨trivial, trivial, trivial⟩, trivial⟩, trivial, ⟨trivial, trivial⟩,
    ⟨⟨isCount_toDigits (by decide), trivial, trivial, trivial⟩, trivial⟩,
    isCount_toDigits (by decide), trivial⟩

theorem writtenAs_rearranged : WrittenAs arranged.forms (documentOf rearranged) := by
  have hrecord : WrittenAs (FileRecord.forms ⟨"a", true, 2, none⟩) (documentOf (.object [
      ("replacements".toList, .natural 2), ("changed".toList, .boolean true),
      ("path".toList, .string "a".toList)])) :=
    .object
      (.field (isText_pieces _) (givesString_documentOf "a") <| .field (isText_pieces _) rfl <|
        .field (isText_pieces _) rfl <| .omitted rfl .nil)
      (List.forall_mem_nil _) (List.reverse_perm _).symm
  have herror : WrittenAs (FileError.forms ⟨"b", "c"⟩) (documentOf (.array [
      .string "b".toList, .string "c".toList])) :=
    .array (.cons (givesString_documentOf "b") (.cons (givesString_documentOf "c") .nil))
  have hother : ∀ m ∈ [("x".toList.map pieceOf, documentOf (.object [("errors".toList, .null)]))],
      ∃ key, IsText m.1 key ∧ ∀ f ∈ arranged.forms, key ≠ f.key :=
    List.forall_mem_singleton.2 ⟨"x".toList, isText_pieces _, by simp [forms]⟩
  exact .object
    (.field (isText_pieces _) rfl <| .field (isText_pieces _) ⟨_, rfl, .cons hrecord .nil⟩ <|
      .field (isText_pieces _) ⟨_, rfl, .cons herror .nil⟩ <| .field (isText_pieces _) rfl .nil)
    hother ((@List.perm_append_comm _ [_, _, _] [_, _]).trans (.swap _ _ _))

theorem decoding_by_fields_rearranged :
    arranged.FitsCounters ∧ Denotes rearranged.pretty (documentOf rearranged) ∧
      WrittenAs arranged.forms (documentOf rearranged) ∧ ofText rearranged.pretty = .ok arranged ∧
      Denotes ambiguous.pretty (documentOf ambiguous) ∧ IsDefective (documentOf ambiguous) ∧
      ∃ f, ofText ambiguous.pretty = .error f := by
  have hfits : arranged.FitsCounters :=
    ⟨by decide, List.forall_mem_singleton.2 ⟨by decide, nofun⟩⟩
  have hrearranged := denotes_pretty rearranged isCounted_rearranged 0
  have hambiguous : Denotes ambiguous.pretty (documentOf ambiguous) :=
    denotes_pretty ambiguous ⟨isCount_toDigits (by decide), ⟨⟨trivial, trivial, trivial⟩, trivial⟩,
      trivial, trivial, trivial⟩ 0
  have hdefective : IsDefective (documentOf ambiguous) :=
    .record (.array rfl List.mem_cons_self)
      (.twice List.mem_cons_self (.refl _) (isText_pieces _) (isText_pieces _))
  exact ⟨hfits, hrearranged, writtenAs_rearranged,
    decoding_by_fields.2.1 arranged hfits _ _ hrearranged writtenAs_rearranged, hambiguous,
    hdefective, decoding_by_fields.2.2 _ _ hambiguous hdefective⟩

end Report

end Codemod
