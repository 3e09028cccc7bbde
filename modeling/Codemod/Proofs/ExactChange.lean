import Codemod.Proofs.Accounting
import Codemod.Proofs.Counting

/-!
# When a Pass has Changed Something

A pass says that it has changed the text when it has replaced a call. Whether
the result differs from the text is not looked at.

It could be the same. A replacement is longer than the call around the argument
and shorter where blanks are trimmed, so a call and its replacement can be of one
length, and calls in a row might make up for each other. That they never do is
seen from one character, the capital in the head. The replacement has none, so
every call that is replaced leaves the result with one less than the text had.

A file is written when the pass says that it has changed the text. So it is
written exactly when its bytes will be others than they were. A file that does not
let itself be written keeps its bytes, and the turn has an error to report.

## Theorems

* `changed_iff_of_mem`: A head with a character that the replacement has none of.
* `Turn.write?_isSome_iff`: When a turn writes.
* `changed_flag_exact`: The flag, the text and the file.
-/

namespace Codemod

/-- Where the head has a character that the replacement has none of, a pass has
    changed the text exactly when the result is another text. -/
theorem changed_iff_of_mem {c : Char} {h : CallHead} (hmem : c ∈ h.text)
    (hc : c ∉ opening ++ closing) (s : Text) :
    (replaceCalls h s).changed = true ↔ (replaceCalls h s).text ≠ s := by
  constructor
  · intro hchanged hsame
    have hpos : 0 < (replaceCalls h s).replacements := of_decide_eq_true hchanged
    have hlost := Nat.mul_pos hpos (List.count_pos_iff.2 hmem)
    have hle := count_replaceCalls_add_le hc h s
    rw [hsame] at hle
    omega
  · intro hother
    by_contra hnot
    exact hother (text_replaceCalls_of_not_changed (Bool.eq_false_iff.2 hnot))

theorem changed_iff_rewriteText_ne (u : Text) :
    (replaceCalls .withOpacity u).changed = true ↔ rewriteText u ≠ u := by
  have hcapital : 'O' ∈ CallHead.withOpacity.text ∧ 'O' ∉ opening ++ closing := by decide +kernel
  exact changed_iff_of_mem hcapital.1 hcapital.2 u

namespace Turn

variable {t : Turn} {c : Config}

-- What is not written leaves the store as it is.
theorem updateFile_store_of_write?_eq_none (h : t.write? c = none) :
    (t.store.updateFile t.path c.dryRun).2 = t.store := by
  rw [Store.updateFile_store_of_turn, h]
  rfl

/-- A turn of a text leaves the result of the pass in the file, be it written or not,
    unless the run is a dry one or the file has to be written and does not let itself
    be. -/
theorem bytes_of_not_unwritten {id : FileId} {u : Text}
    (h : t.store.readText t.path = .ok (id, u)) (hdry : c.dryRun = false)
    (hwritten : ¬t.Unwritten c) :
    (t.store.updateFile t.path c.dryRun).2.bytes id = encodeText (rewriteText u) := by
  by_cases hchanged : (replaceCalls .withOpacity u).changed = true
  · have haccess := write_eq_none_of_not_unwritten h hwritten ⟨hchanged, hdry⟩
    rw [Store.updateFile_of_written h ⟨hchanged, hdry⟩ haccess]
    exact if_pos rfl
  · rw [Store.updateFile_of_kept h fun hwrite => hchanged hwrite.1,
      rewriteText_of_not_changed (Bool.eq_false_iff.2 hchanged)]
    exact eq_encodeText_of_decodeText? (Store.readText_eq_ok_iff.1 h).2.2

/-- A turn that cannot write its result comes to an error. -/
theorem error?_of_unwritten (h : t.Unwritten c) : ∃ e, (t.visit c).error? = some e := by
  rcases h with ⟨hdry, id, u, hid, hu, hchanged, hwrite⟩
  rcases Option.ne_none_iff_exists'.1 hwrite with ⟨e, he⟩
  have hread := Store.readText_eq_ok_iff.2 ⟨hid, hu⟩
  rw [visit, Store.visitOf_of_refused hread ⟨hchanged, hdry⟩ he]
  exact ⟨_, rfl⟩

/-- A turn writes exactly when the bytes in the store will be others than before. -/
theorem write?_isSome_iff (t : Turn) (c : Config) :
    (t.write? c).isSome = true ↔
      (t.store.updateFile t.path c.dryRun).2.bytes ≠ t.store.bytes := by
  constructor
  · intro hwrite
    rcases Option.isSome_iff_exists.1 hwrite with ⟨⟨id, b⟩, hw⟩
    cases hread : t.store.readText t.path with
    | error e =>
        rw [write?, hread] at hw
        cases hw
    | ok read =>
        rcases read with ⟨i, u⟩
        rw [write?, hread] at hw
        rcases (Option.ite_none_right_eq_some.1 hw).1 with ⟨⟨hchanged, hdry⟩, haccess⟩
        have hwritten : ¬t.Unwritten c := fun h => ((unwritten_iff hread).1 h).2 haccess
        intro hsame
        -- The file would hold the encodings of two texts.
        have hbytes := (congrFun hsame i).symm.trans (bytes_of_not_unwritten hread hdry hwritten)
        have hu := (Store.readText_eq_ok_iff.1 hread).2.2
        rw [hbytes, decodeText?_encodeText] at hu
        exact (changed_iff_rewriteText_ne u).1 hchanged (Option.some.inj hu)
  · intro hother
    by_contra hnot
    have hnone : t.write? c = none := Option.not_isSome_iff_eq_none.1 hnot
    exact hother (congrArg Store.bytes (updateFile_store_of_write?_eq_none hnone))

end Turn

/-- A pass has changed the text exactly when the result is another text. A turn
    changes the store by what it writes only, and it writes exactly when bytes in
    the store become others. Unless the run is a dry one, the file of a text holds
    the result of the pass from then on, or does not let itself be written, and then
    the turn comes to an error. -/
theorem changed_flag_exact :
    (∀ u : Text, (replaceCalls .withOpacity u).changed = true ↔
      (replaceCalls .withOpacity u).text ≠ u) ∧
    ∀ (t : Turn) (c : Config),
      let next := (t.store.updateFile t.path c.dryRun).2
      next = t.store.writeAll (t.write? c).toList ∧
      ((t.write? c).isSome = true ↔ next.bytes ≠ t.store.bytes) ∧
      (t.Unwritten c → ∃ e, (t.visit c).error? = some e) ∧
      ∀ (id : FileId) (u : Text), t.store.fileAt t.path = .ok id → t.store.HasText id u →
        c.dryRun = false → ¬t.Unwritten c →
          next.bytes id = encodeText (replaceCalls .withOpacity u).text := by
  refine ⟨changed_iff_rewriteText_ne, fun t c => ?_⟩
  refine ⟨Store.updateFile_store_of_turn t c, t.write?_isSome_iff c, Turn.error?_of_unwritten, ?_⟩
  intro id u hid hu hdry hwritten
  exact Turn.bytes_of_not_unwritten (Store.readText_eq_ok_iff.2 ⟨hid, hu⟩) hdry hwritten

/-- A call with so many blanks around its argument that the replacement has its
    length. It is another text all the same, and it is written. -/
theorem changed_flag_exact_at_equal_length :
    let u : Text := ".withOpacity(       1       )".toList
    let store := oneText.setBytes 0 (encodeText u)
    let p : Path := .ofString "web/x.dart"
    let out := (replaceCalls .withOpacity u).text
    out.length = u.length ∧ out ≠ u ∧
      (store.updateFile p false).2.bytes 0 = encodeText out := by
  intro u store p out
  have hout : out = ".withAlpha((1 * 255).round())".toList := by decide +kernel
  have hfile : store.fileAt p = .ok 0 := by decide +kernel
  have hchanged : (replaceCalls .withOpacity u).changed = true := by decide +kernel
  have hwritten : ¬(⟨p, store⟩ : Turn).Unwritten ⟨p, p, "dart", false⟩ :=
    Turn.not_unwritten_of_write_eq_none fun _ => rfl
  have hleft := (changed_flag_exact.2 ⟨p, store⟩ ⟨p, p, "dart", false⟩).2.2.2 0 u hfile
    ⟨rfl, decodeText?_encodeText u⟩ rfl hwritten
  exact ⟨by rw [hout]; decide +kernel, (changed_flag_exact.1 u).1 hchanged, hleft⟩

end Codemod
