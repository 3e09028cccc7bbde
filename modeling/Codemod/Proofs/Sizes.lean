import Codemod.Proofs.Bytes
import Codemod.Proofs.SecondPass
import Codemod.Proofs.SideBySide
import Codemod.Proofs.Visits

/-!
# Sizes of Texts and of Counters

How many bytes a pass adds or takes away, and how far its counts can go.

A replaced call takes its own bytes in the text: the head, the closer, and what is
between them. The replacement takes a fixed number, and what is left of the
argument. So the size of the result is that of the text, but for a constant for
each replaced call and for the blanks that are trimmed. As calls do not overlap,
there are no more of them than have room in the text, and the result of a pass
with the head of the deprecated call is at most twice as long as the text.

A run counts what its passes replace, and each visit of it reads the file that it
passes over. A visit counts one replacement for at least fourteen bytes that it
reads, whatever has come before it, so this is true of a run, also where it reads
the same file more than once or the file that it logs to. Nothing that a machine
can read in a run leads to more replacements than a counter of 64 bits can hold.

## Main definitions

* `Call.trimmedBytes`, `trimmedBytes`: The bytes that a pass trims from arguments.
* `Store.bytesAt`, `Session.bytesRead`: The bytes that a visit and a run read.
* `Report.checkedTotal`: The total of a report, added up in 64 bits.

## Theorems

* `byteLength_flatMap_replaced_add`: The sizes of calls and of what replaces them.
* `byteLength_replaceCalls_add`, `replacements_mul_le`: The sizes of a text and of
  its result.
* `Report.checkedTotal_eq`: When no addition overflows.
* `Session.replacements_visitAll_le`, `Session.totalReplacements_process_le`: The
  replacements of visits and of a run.
* `sizes_and_totals_bounded`: The size of a result, and the total of a run.
-/

namespace Codemod

/-! ## The size of a result -/

/-- The number of bytes that are trimmed from the argument of a call. -/
def Call.trimmedBytes (c : Call) : Nat := c.body.byteLength - c.body.trim.byteLength

/-- The number of bytes that a pass trims from the arguments of the calls it replaces. -/
def trimmedBytes (h : CallHead) (s : Text) : Nat :=
  ((Segmentation.ofText h s).calls.map Call.trimmedBytes).sum

/-- What is trimmed from an argument are the blanks at its ends. -/
theorem Call.trimmedBytes_eq (c : Call) :
    ∃ l r : Text, c.body = l ++ c.body.trim ++ r ∧ (∀ x ∈ l, isBlank x = true) ∧
      (∀ x ∈ r, isBlank x = true) ∧ c.trimmedBytes = l.byteLength + r.byteLength := by
  rcases c.body.trim_decompose with ⟨l, r, hbody, hl, hr⟩
  refine ⟨l, r, hbody, hl, hr, ?_⟩
  have hlength := congrArg Text.byteLength hbody
  rw [Text.byteLength_append, Text.byteLength_append] at hlength
  rw [trimmedBytes]
  omega

-- A head, a closer and the trimmed blanks go, and the template comes.
theorem Call.byteLength_replaced_add (h : CallHead) (c : Call) :
    c.replaced.byteLength + c.trimmedBytes + (h.width + 1) = (c.source h).byteLength + 28 := by
  rcases c.trimmedBytes_eq with ⟨l, r, hbody, -, -, htrimmed⟩
  have hlength := congrArg Text.byteLength hbody
  have hclose : Text.byteLength [')'] = 1 := rfl
  rw [Text.byteLength_append, Text.byteLength_append] at hlength
  rw [replaced, source, CallHead.width]
  simp only [Text.byteLength_append, byteLength_withAlpha, hclose]
  omega

/-- Calls and what replaces them differ in size by a constant for each call and by
    the blanks that are trimmed. -/
theorem byteLength_flatMap_replaced_add (h : CallHead) (calls : List Call) :
    Text.byteLength (calls.flatMap Call.replaced) + (calls.map Call.trimmedBytes).sum +
        (h.width + 1) * calls.length =
      Text.byteLength (calls.flatMap (Call.source h)) + 28 * calls.length := by
  induction calls with
  | nil => rfl
  | cons c calls ih =>
      have hc := c.byteLength_replaced_add h
      simp only [List.flatMap_cons, List.map_cons, List.sum_cons, List.length_cons,
        Text.byteLength_append, Nat.mul_succ]
      omega

theorem Call.width_lt_byteLength_source (h : CallHead) (c : Call) :
    h.width + 1 ≤ (c.source h).byteLength := by
  have hclose : Text.byteLength [')'] = 1 := rfl
  rw [source, CallHead.width]
  simp only [Text.byteLength_append, hclose]
  omega

theorem mul_length_le_byteLength_sources (h : CallHead) (calls : List Call) :
    (h.width + 1) * calls.length ≤ Text.byteLength (calls.flatMap (Call.source h)) := by
  induction calls with
  | nil => exact Nat.le_refl _
  | cons c calls ih =>
      have hc := c.width_lt_byteLength_source h
      rw [List.flatMap_cons, Text.byteLength_append, List.length_cons, Nat.mul_succ]
      omega

-- A text is its calls and its tail.
theorem byteLength_sources_add (h : CallHead) (s : Text) :
    Text.byteLength ((Segmentation.ofText h s).calls.flatMap (Call.source h)) +
      ((Segmentation.ofText h s).tail.source h).byteLength = s.byteLength := by
  have hsource := congrArg Text.byteLength (Segmentation.source_ofText h s)
  rwa [Segmentation.source, Text.byteLength_append] at hsource

/-- The calls that a pass replaces have room in the text one after the other. -/
theorem replacements_mul_le (h : CallHead) (s : Text) :
    (h.width + 1) * (replaceCalls h s).replacements ≤ s.byteLength :=
  Nat.le_trans (mul_length_le_byteLength_sources h (Segmentation.ofText h s).calls)
    (Nat.le.intro (byteLength_sources_add h s))

/-- The tail of a text is kept, so a text and its result differ in size as the calls
    do. -/
theorem byteLength_replaceCalls_add (h : CallHead) (s : Text) :
    (replaceCalls h s).text.byteLength + trimmedBytes h s +
        (h.width + 1) * (replaceCalls h s).replacements =
      s.byteLength + 28 * (replaceCalls h s).replacements := by
  have hcalls := byteLength_flatMap_replaced_add h (Segmentation.ofText h s).calls
  have hsource := byteLength_sources_add h s
  rw [text_replaceCalls, Text.byteLength_append, trimmedBytes, replaceCalls, Segmentation.outcome]
  dsimp only
  omega

theorem CallHead.width_withOpacity : CallHead.withOpacity.width = 13 := rfl

/-- A pass at most doubles the size of a text. -/
theorem byteLength_rewriteText_le (s : Text) : (rewriteText s).byteLength ≤ 2 * s.byteLength := by
  have hsize := byteLength_replaceCalls_add .withOpacity s
  have hroom := replacements_mul_le .withOpacity s
  rw [CallHead.width_withOpacity] at hsize hroom
  rw [rewriteText]
  omega

/-! ## Totals in 64 bits -/

namespace Report

/-- The total of a report as a counter of 64 bits adds it up, one record after the
    other. There is none if an addition overflows. -/
def checkedTotal (r : Report) : Option UInt64 :=
  r.records.foldlM (fun n x =>
    if n.toNat + x.replacements < UInt64.size then some (n + .ofNat x.replacements) else none) 0

theorem totalReplacements_eq_sum (r : Report) :
    r.totalReplacements = (r.records.map (·.replacements)).sum := by
  rw [totalReplacements, List.sum_eq_foldl, List.foldl_map]

end Report

-- The counter holds the exact number of what it has added up, as long as it goes on.
theorem foldlM_checked_eq (records : List FileRecord) (n : UInt64) :
    records.foldlM (fun n x =>
        if n.toNat + x.replacements < UInt64.size then some (n + .ofNat x.replacements) else none)
      n =
      if n.toNat + (records.map (·.replacements)).sum < UInt64.size then
        some (.ofNat (n.toNat + (records.map (·.replacements)).sum)) else none := by
  induction records generalizing n with
  | nil =>
      rw [List.map_nil, List.sum_nil, Nat.add_zero, if_pos n.toNat_lt_size, UInt64.ofNat_toNat]
      rfl
  | cons x records ih =>
      rw [List.foldlM_cons, List.map_cons, List.sum_cons, ← Nat.add_assoc]
      by_cases hfits : n.toNat + x.replacements < UInt64.size
      · have hadd : (n + .ofNat x.replacements).toNat = n.toNat + x.replacements := by
          rw [UInt64.toNat_add, UInt64.toNat_ofNat', Nat.add_mod_mod]
          exact Nat.mod_eq_of_lt hfits
        rw [if_pos hfits, Option.bind_eq_bind, Option.bind_some, ih, hadd]
      · rw [if_neg hfits, if_neg fun hlt => hfits (Nat.lt_of_le_of_lt (Nat.le_add_right _ _) hlt)]
        rfl

/-- No addition overflows exactly when the total can be counted, and then the counter
    holds the total. -/
theorem Report.checkedTotal_eq (r : Report) :
    r.checkedTotal = if r.isCountable then some (.ofNat r.totalReplacements) else none := by
  have hchecked := foldlM_checked_eq r.records 0
  rw [UInt64.toNat_zero, Nat.zero_add, ← r.totalReplacements_eq_sum] at hchecked
  rw [checkedTotal, hchecked, isCountable]
  simp only [decide_eq_true_eq]

/-! ## What a run reads -/

/-- The number of bytes that reading a path takes. Where it leads to no file, or to one
    that does not let itself be read, there is nothing to read. -/
def Store.bytesAt (s : Store) (p : Path) : Nat :=
  match s.fileAt p with
  | .ok id => if (s.access id).read = none then (s.bytes id).size else 0
  | .error _ => 0

/-- The number of replacements in records. -/
def replacementsIn (records : List FileRecord) : Nat := (records.map (·.replacements)).sum

theorem size_encodeText (t : Text) : (encodeText t).size = t.byteLength := Text.length_bytes t

/-- A visit reads fourteen bytes at least for each replacement that it records. -/
theorem Store.replacements_visitOf_le {s : Store} {c : Config} {p : Path} {r : FileRecord}
    (hr : (s.visitOf c p).record? = some r) : 14 * r.replacements ≤ s.bytesAt p := by
  rcases exists_text_of_record? hr with ⟨id, t, hread, -, hrecord⟩
  rcases readText_eq_ok_iff.1 hread with ⟨hf, haccess, hb⟩
  have hroom := replacements_mul_le .withOpacity t
  have hsize : s.bytesAt p = t.byteLength := by
    simp only [bytesAt, hf, if_pos haccess]
    rw [← size_encodeText, ← eq_encodeText_of_decodeText? hb]
  rw [← (Visit.record?_eq_some_iff.1 hrecord).2, hsize]
  exact hroom

namespace Session

/-- The number of bytes that visits to paths read, each from the store that the visits
    before it leave. -/
def bytesReadIn (s : Session) (c : Config) : List Path → Nat
  | [] => 0
  | p :: ps => s.store.bytesAt p + (s.visit c p).2.bytesReadIn c ps

/-- The number of bytes that a run reads. It has warned of what the search could not open
    before it reads anything. -/
def bytesRead (s : Session) (c : Config) : Nat :=
  match s.store.seen? c with
  | none => 0
  | some (files, errors) => (errors.foldl (fun s e => s.warn e.line) s).bytesReadIn c files

/-- Visits read fourteen bytes at least for each replacement that they record. -/
theorem replacements_visitAll_le (s : Session) (c : Config) (ps : List Path) :
    14 * replacementsIn ((s.visitAll c ps).1.filterMap Visit.record?) ≤ s.bytesReadIn c ps := by
  induction ps generalizing s with
  | nil => exact Nat.le_refl _
  | cons p ps ih =>
      have hrest := ih (s.visit c p).2
      rw [visitAll, bytesReadIn]
      dsimp only
      cases hr : (s.visit c p).1.record? with
      | none =>
          rw [List.filterMap_cons_none hr]
          omega
      | some r =>
          have hfirst := hr
          rw [visit_visit] at hfirst
          have hfirst := Store.replacements_visitOf_le hfirst
          rw [replacementsIn, List.filterMap_cons_some hr, List.map_cons, List.sum_cons]
          rw [replacementsIn] at hrest
          omega

/-- A run reads fourteen bytes at least for each replacement that it reports. -/
theorem totalReplacements_process_le (s : Session) (c : Config) :
    14 * (s.process c).1.totalReplacements ≤ s.bytesRead c := by
  rw [Report.totalReplacements_eq_sum, bytesRead]
  cases hfound : s.store.seen? c with
  | none =>
      rw [process_of_seen?_none hfound]
      exact Nat.le_refl _
  | some found =>
      rw [process_eq_of_seen?_some hfound]
      exact replacements_visitAll_le _ c found.1

end Session

/-- The size of a result and the total of a run. A text has room for the head and the
    closer of each call that a pass replaces. The result has these bytes less, and
    those of the blanks that are trimmed, and the bytes of the template for each
    call more. With the head of the deprecated call, it is at most twice as long.

    A run over any store, with or without a log, reads fourteen bytes at least for
    each replacement in the total of its report. The total is the exact sum of the
    records, and where the number of bytes read fits in 64 bits, no addition
    overflows on the way to it. -/
theorem sizes_and_totals_bounded :
    (∀ (h : CallHead) (s : Text),
      let o := replaceCalls h s
      (h.width + 1) * o.replacements ≤ s.byteLength ∧
        o.text.byteLength + trimmedBytes h s + (h.width + 1) * o.replacements =
          s.byteLength + 28 * o.replacements) ∧
      (∀ c : Call, ∃ l r : Text, c.body = l ++ c.body.trim ++ r ∧ (∀ x ∈ l, isBlank x = true) ∧
        (∀ x ∈ r, isBlank x = true) ∧ c.trimmedBytes = l.byteLength + r.byteLength) ∧
      (∀ s : Text, (replaceCalls .withOpacity s).text.byteLength ≤ 2 * s.byteLength) ∧
      ∀ (s : Session) (c : Config),
        let r := (s.process c).1
        14 * r.totalReplacements ≤ s.bytesRead c ∧
          r.totalReplacements = (r.records.map (·.replacements)).sum ∧
          (s.bytesRead c < 2 ^ 64 →
            ∃ n : UInt64, r.checkedTotal = some n ∧ n.toNat = r.totalReplacements) := by
  refine ⟨fun h s => ⟨replacements_mul_le h s, byteLength_replaceCalls_add h s⟩,
    Call.trimmedBytes_eq, byteLength_rewriteText_le, fun s c => ?_⟩
  intro r
  have hle := s.totalReplacements_process_le c
  refine ⟨hle, r.totalReplacements_eq_sum, fun hread => ?_⟩
  have hfits : r.totalReplacements < UInt64.size :=
    Nat.lt_of_le_of_lt (Nat.le_trans (Nat.le_mul_of_pos_left _ (by decide)) hle) hread
  refine ⟨.ofNat r.totalReplacements, ?_, ?_⟩
  · rw [Report.checkedTotal_eq, if_pos (show r.isCountable = true from decide_eq_true hfits)]
  · rw [UInt64.toNat_ofNat']
    exact Nat.mod_eq_of_lt hfits

/-- A directory with a file of two nested calls, and a link to that file beside it. -/
def callsReadTwice : Store where
  top :=
    .directory (.ofString "widgets" (by decide))
      (.file (.ofString "fade.dart" (by decide)) 0
        (.link (.ofString "glow.dart" (by decide)) (.ofString "fade.dart") .empty))
      .empty
  ordered := by
    simp [Folder.Ordered, Folder.names]
    decide
  bytes := fun _ => encodeText ".withOpacity(.withOpacity(1))".toList
  here := []

/-- A file of 29 bytes that is read a second time with 43 bytes, behind a link. Each
    of the two visits replaces one call. -/
theorem totals_of_file_read_twice :
    let s : Session := { store := callsReadTwice }
    let c : Config := ⟨.ofString "/", .ofString "widgets", "dart", false⟩
    s.bytesRead c = 72 ∧ (s.process c).1.totalReplacements = 2 ∧ s.bytesRead c < 2 ^ 64 ∧
      ∃ n : UInt64, (s.process c).1.checkedTotal = some n ∧
        n.toNat = (s.process c).1.totalReplacements := by
  intro s c
  have hread : s.bytesRead c = 72 := by decide +kernel
  have hfits : s.bytesRead c < 2 ^ 64 := by rw [hread]; decide
  exact ⟨hread, by decide +kernel, hfits, (sizes_and_totals_bounded.2.2.2 s c).2.2 hfits⟩

end Codemod
