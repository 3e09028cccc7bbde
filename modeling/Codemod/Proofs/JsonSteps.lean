import Codemod.Json.Tree
import Codemod.Json.Value

/-!
# Steps of Reading JSON

Reading is a recursion on the length of a text, and each step of it looks at the
first character that is no blank. Here each step is stated on its own, for a
text whose first such character is known, so that a proof about reading can go
forward along the text and never opens the recursion.

The blanks that a layout puts between its parts are skipped by every step.

## Main definitions

* `Reading.Gives`: What a reading has read, and what it has left.
* `IsBlank`: A text of blanks.

## Theorems

* `Tree.read_of_bracket`, `Tree.read_of_brace`, `Tree.read_of_scalar`: A value.
* `Items.readOn_of_nil`, `Items.readOn_of_cons`: An item and what stands behind it.
* `Members.readOn_of_quote_nil`, `Members.readOn_of_quote_cons`: A member and
  what stands behind it.
* `Tree.read_of_skipSpace_eq`: Blanks before a value make no difference.
-/

namespace Codemod

namespace Json

/-! ## Steps of a reading -/

/-- What a reading has read, and what it has left. -/
def Reading.Gives {α : Type} {s : Text} (r : Reading α s) (value : α) (rest : Text) : Prop :=
  r.value = value ∧ r.rest = rest

theorem Tree.read_of_bracket {s t : Text} (h : skipSpace s = '[' :: t) :
    (Tree.read s).Gives (.array (Items.read t).value) (Items.read t).rest := by
  rw [Tree.read]
  split
  · rename_i t' h'
    cases h.symm.trans h'
    exact ⟨rfl, rfl⟩
  · rename_i t' h'
    cases h.symm.trans h'
  · rename_i hno _
    exact absurd h (hno t)

theorem Tree.read_of_brace {s t : Text} (h : skipSpace s = '{' :: t) :
    (Tree.read s).Gives (.object (Members.read t).value) (Members.read t).rest := by
  rw [Tree.read]
  split
  · rename_i t' h'
    cases h.symm.trans h'
  · rename_i t' h'
    cases h.symm.trans h'
    exact ⟨rfl, rfl⟩
  · rename_i _ hno
    exact absurd h (hno t)

theorem Tree.read_of_scalar {s : Text} (h : (skipSpace s).head? ≠ some '[')
    (h' : (skipSpace s).head? ≠ some '{') :
    (Tree.read s).Gives (Tree.scanScalar (skipSpace s)).1 (Tree.scanScalar (skipSpace s)).2 := by
  rw [Tree.read]
  split
  · rename_i t e
    exact absurd (by rw [e]; rfl) h
  · rename_i t e
    exact absurd (by rw [e]; rfl) h'
  · exact ⟨rfl, rfl⟩

theorem Items.read_of_bracket {s t : Text} (h : skipSpace s = ']' :: t) :
    (Items.read s).Gives .close t := by
  rw [Items.read]
  split
  · rename_i t' h'
    cases h.symm.trans h'
    exact ⟨rfl, rfl⟩
  · rename_i hno
    exact absurd h (hno t)

theorem Items.read_of_ne {s : Text} (h : (skipSpace s).head? ≠ some ']') :
    Items.read s = Items.readOn s := by
  rw [Items.read]
  split
  · rename_i t e
    exact absurd (by rw [e]; rfl) h
  · rfl

theorem Items.readOn_of_nil {s : Text} (h : skipSpace (Tree.read s).rest = []) :
    (Items.readOn s).Gives (.item (Tree.read s).value (.fault .ended)) [] := by
  rw [Items.readOn]
  simp only []
  split
  · exact ⟨rfl, rfl⟩
  · rename_i h'
    cases h.symm.trans h'

theorem Items.readOn_of_cons {s t : Text} {c : Char} (h : skipSpace (Tree.read s).rest = c :: t) :
    (Items.readOn s).Gives
      (.item (Tree.read s).value
        (if c = ',' then (Items.readOn t).value
          else if c = ']' then .close else .fault .malformed))
      (if c = ',' then (Items.readOn t).rest else if c = ']' then t else []) := by
  rw [Items.readOn]
  simp only []
  split
  · rename_i h'
    cases h.symm.trans h'
  · rename_i h'
    cases h.symm.trans h'
    split
    · exact ⟨rfl, rfl⟩
    · split <;> exact ⟨rfl, rfl⟩

theorem Members.read_of_brace {s t : Text} (h : skipSpace s = '}' :: t) :
    (Members.read s).Gives .close t := by
  rw [Members.read]
  split
  · rename_i t' h'
    cases h.symm.trans h'
    exact ⟨rfl, rfl⟩
  · rename_i hno
    exact absurd h (hno t)

theorem Members.read_of_ne {s : Text} (h : (skipSpace s).head? ≠ some '}') :
    Members.read s = Members.readOn s := by
  rw [Members.read]
  split
  · rename_i t e
    exact absurd (by rw [e]; rfl) h
  · rfl

theorem Members.readValue_of_nil {s : Text} (h : skipSpace s = []) :
    (Members.readValue s).Gives (.fault .ended) [] := by
  rw [Members.readValue]
  split
  · exact ⟨rfl, rfl⟩
  · rename_i h'
    cases h.symm.trans h'

theorem Members.readValue_of_cons {s t : Text} {c : Char} (h : skipSpace s = c :: t) :
    (Members.readValue s).Gives
      (if c = ':' then (Tree.read t).value else .fault .malformed)
      (if c = ':' then (Tree.read t).rest else []) := by
  rw [Members.readValue]
  split
  · rename_i h'
    cases h.symm.trans h'
  · rename_i h'
    cases h.symm.trans h'
    split <;> exact ⟨rfl, rfl⟩

theorem Members.readOn_of_nil {s : Text} (h : skipSpace s = []) :
    (Members.readOn s).Gives (.fault .ended) [] := by
  rw [Members.readOn]
  split
  · exact ⟨rfl, rfl⟩
  · rename_i h'
    cases h.symm.trans h'

theorem Members.readOn_of_quote_nil {s t : Text} (h : skipSpace s = '"' :: t)
    (h' : skipSpace (Members.readValue (scanString t).2).rest = []) :
    (Members.readOn s).Gives
      (.member (scanString t).1 (Members.readValue (scanString t).2).value (.fault .ended)) [] := by
  rw [Members.readOn]
  split
  · rename_i e
    cases h.symm.trans e
  · rename_i e
    cases h.symm.trans e
    rw [if_pos rfl]
    simp only []
    split
    · exact ⟨rfl, rfl⟩
    · rename_i e'
      cases h'.symm.trans e'

theorem Members.readOn_of_quote_cons {s t u : Text} {d : Char} (h : skipSpace s = '"' :: t)
    (h' : skipSpace (Members.readValue (scanString t).2).rest = d :: u) :
    (Members.readOn s).Gives
      (.member (scanString t).1 (Members.readValue (scanString t).2).value
        (if d = ',' then (Members.readOn u).value
          else if d = '}' then .close else .fault .malformed))
      (if d = ',' then (Members.readOn u).rest else if d = '}' then u else []) := by
  rw [Members.readOn]
  split
  · rename_i e
    cases h.symm.trans e
  · rename_i e
    cases h.symm.trans e
    rw [if_pos rfl]
    simp only []
    split
    · rename_i e'
      cases h'.symm.trans e'
    · rename_i e'
      cases h'.symm.trans e'
      split
      · exact ⟨rfl, rfl⟩
      · split <;> exact ⟨rfl, rfl⟩

/-! ## Blanks -/

theorem skipSpace_of_not_space {c : Char} (h : isSpace c = false) (s : Text) :
    skipSpace (c :: s) = c :: s :=
  List.dropWhile_cons_of_neg (by rw [h]; exact Bool.false_ne_true)

/-- A text of blanks. -/
def IsBlank (s : Text) : Prop := ∀ c ∈ s, isSpace c = true

theorem skipSpace_append {blanks : Text} (h : IsBlank blanks) (s : Text) :
    skipSpace (blanks ++ s) = skipSpace s :=
  List.dropWhile_append_of_pos h

theorem IsBlank.skipSpace {s : Text} (h : IsBlank s) : skipSpace s = [] := by
  have := skipSpace_append h []
  rwa [List.append_nil] at this

theorem isBlank_newLine (n : Nat) : IsBlank (newLine n) := by
  intro c hc
  rcases List.mem_cons.1 hc with rfl | hc
  · rfl
  · rw [List.eq_of_mem_replicate hc]
    rfl

theorem IsBlank.of_append {s u : Text} (h : IsBlank (s ++ u)) : IsBlank s :=
  fun c hc => h c (List.mem_append_left u hc)

-- Blanks before a value make no difference to its reading.
theorem Tree.read_of_skipSpace_eq {s s' : Text} (h : skipSpace s = skipSpace s') :
    (Tree.read s).Gives (Tree.read s').value (Tree.read s').rest := by
  by_cases hb : (skipSpace s').head? = some '['
  · rcases List.head?_eq_some_iff.1 hb with ⟨t, ht⟩
    rcases Tree.read_of_bracket ht with ⟨hv, hr⟩
    rw [hv, hr]
    exact Tree.read_of_bracket (h.trans ht)
  · by_cases hb' : (skipSpace s').head? = some '{'
    · rcases List.head?_eq_some_iff.1 hb' with ⟨t, ht⟩
      rcases Tree.read_of_brace ht with ⟨hv, hr⟩
      rw [hv, hr]
      exact Tree.read_of_brace (h.trans ht)
    · rcases Tree.read_of_scalar hb hb' with ⟨hv, hr⟩
      rw [hv, hr]
      rw [← h] at hb hb' ⊢
      exact Tree.read_of_scalar hb hb'

/-! ## Texts that break off -/

-- A text in two parts breaks off in the first of them or later.
theorem append_or_cut {a b s u : Text} (h : a ++ b = s ++ u) :
    (∃ s', s = a ++ s' ∧ b = s' ++ u) ∨ ∃ a' ≠ [], a = s ++ a' := by
  rcases List.append_eq_append_iff.1 h with ⟨s', rfl, hb⟩ | ⟨a', rfl, hu⟩
  · exact .inl ⟨s', rfl, hb⟩
  · by_cases ha : a' = []
    · subst ha
      exact .inl ⟨[], (List.append_nil _).symm ▸ (List.append_nil s).symm, by simpa using hu.symm⟩
    · exact .inr ⟨a', ha, rfl⟩

end Json

end Codemod
