import Mathlib.Data.List.Nodup

/-!
# Selections from Lists

What a run reports is selected from the list of its visits, and what is said
about the report is said about the visits. Here are the facts about selections
that this takes: when two of them from one list are equal, when a selection has
nothing twice, and where in the list a given number of selected elements ends.

## Theorems

* `filterMap_eq_filterMap_iff`: Selections that are equal.
* `map_filter_eq_map_filterMap`: Selections in two steps and in one.
* `nodup_map_filter_append`: Selections without repetition.
* `exists_countP_take`, `countP_take_lt`: Counting along a list.
-/

namespace Codemod

/-! ## Equal selections -/

theorem length_filterMap_le_of_none {α β : Type} {f g : α → Option β} {xs : List α}
    (h : ∀ x ∈ xs, g x = none → f x = none) :
    (xs.filterMap f).length ≤ (xs.filterMap g).length := by
  induction xs with
  | nil => exact Nat.le_refl 0
  | cons x xs ih =>
      have hle := ih fun y hy => h y (List.mem_cons_of_mem x hy)
      cases hg : g x with
      | none =>
          rw [List.filterMap_cons_none hg, List.filterMap_cons_none (h x List.mem_cons_self hg)]
          exact hle
      | some b =>
          rw [List.filterMap_cons_some hg, List.length_cons]
          cases hf : f x with
          | none =>
              rw [List.filterMap_cons_none hf]
              exact Nat.le_succ_of_le hle
          | some a =>
              rw [List.filterMap_cons_some hf, List.length_cons]
              exact Nat.succ_le_succ hle

/-- Where one function picks nothing that the other does not pick as well, the two
    select the same list only by picking the same from each element. -/
theorem filterMap_eq_filterMap_iff {α β : Type} {f g : α → Option β} {xs : List α}
    (h : ∀ x ∈ xs, g x = none → f x = none) :
    xs.filterMap f = xs.filterMap g ↔ ∀ x ∈ xs, f x = g x := by
  induction xs with
  | nil => simp
  | cons x xs ih =>
      have hrest : ∀ y ∈ xs, g y = none → f y = none := fun y hy =>
        h y (List.mem_cons_of_mem x hy)
      rw [List.forall_mem_cons, ← ih hrest]
      cases hg : g x with
      | none =>
          have hf := h x List.mem_cons_self hg
          rw [List.filterMap_cons_none hg, List.filterMap_cons_none hf, hf]
          exact (and_iff_right rfl).symm
      | some b =>
          rw [List.filterMap_cons_some hg]
          cases hf : f x with
          | none =>
              -- The list without this element is too short to be the other one.
              have hle := length_filterMap_le_of_none hrest
              rw [List.filterMap_cons_none hf]
              constructor
              · intro e
                rw [e, List.length_cons] at hle
                exact absurd hle (Nat.not_succ_le_self _)
              · rintro ⟨e, -⟩
                cases e
          | some a =>
              rw [List.filterMap_cons_some hf, List.cons.injEq, Option.some.injEq]

-- What is selected in two steps is selected in one.
theorem map_filter_eq_map_filterMap {α β γ : Type} {xs : List α} {f : α → Option β} {q : β → Bool}
    {q' : α → Bool} {key : α → γ} {path : β → γ}
    (hq : ∀ x ∈ xs, q' x = true ↔ ∃ b, f x = some b ∧ q b = true)
    (hpath : ∀ x ∈ xs, ∀ b, f x = some b → path b = key x) :
    (xs.filter q').map key = ((xs.filterMap f).filter q).map path := by
  induction xs with
  | nil => rfl
  | cons x xs ih =>
      have hrest := ih (fun y hy => hq y (List.mem_cons_of_mem x hy))
        fun y hy => hpath y (List.mem_cons_of_mem x hy)
      have hx := hq x List.mem_cons_self
      cases hfx : f x with
      | none =>
          have hnot : ¬q' x = true := fun h => by
            rcases hx.1 h with ⟨b, hb, -⟩
            cases hfx.symm.trans hb
          rw [List.filter_cons_of_neg hnot, List.filterMap_cons_none hfx, hrest]
      | some b =>
          have hkey := hpath x List.mem_cons_self b hfx
          rw [List.filterMap_cons_some hfx]
          by_cases hb : q b = true
          · rw [List.filter_cons_of_pos (hx.2 ⟨b, hfx, hb⟩), List.filter_cons_of_pos hb,
              List.map_cons, List.map_cons, hrest, hkey]
          · have hnot : ¬q' x = true := fun h => by
              rcases hx.1 h with ⟨b', hb', hqb⟩
              obtain rfl := Option.some.inj (hfx.symm.trans hb')
              exact hb hqb
            rw [List.filter_cons_of_neg hnot, List.filter_cons_of_neg hb, hrest]

/-! ## Selections with keys -/

section Keys

variable {α β γ : Type} {xs : List α} {key : α → γ}

-- What carries the keys of the elements that it was selected from has no others.
theorem map_filterMap_eq_map_filter {f : α → Option β} {path : β → γ}
    (hf : ∀ x b, f x = some b → path b = key x) :
    (xs.filterMap f).map path = (xs.filter fun x => (f x).isSome).map key := by
  have h : (xs.filter fun x => (f x).isSome).map key =
      ((xs.filterMap f).filter fun _ => true).map path :=
    map_filter_eq_map_filterMap (fun x _ => by simp [Option.isSome_iff_exists]) fun x _ => hf x
  rw [h, List.filter_true]

/-- Two selections from a list whose keys are distinct have distinct keys, also when
    they are put together, if they have no element in common. -/
theorem nodup_map_filter_append {q q' : α → Bool} (h : (xs.map key).Nodup)
    (hone : ∀ x, q x = false ∨ q' x = false) :
    ((xs.filter q).map key ++ (xs.filter q').map key).Nodup := by
  refine List.nodup_append.2 ⟨h.sublist (List.filter_sublist.map key),
    h.sublist (List.filter_sublist.map key), ?_⟩
  rintro k hk _ hk' rfl
  rcases List.mem_map.1 hk with ⟨x, hx, rfl⟩
  rcases List.mem_map.1 hk' with ⟨y, hy, hsame⟩
  rw [List.mem_filter] at hx hy
  obtain rfl := List.inj_on_of_nodup_map h hy.1 hx.1 hsame
  rcases hone y with hnot | hnot
  · cases hnot.symm.trans hx.2
  · cases hnot.symm.trans hy.2

end Keys

/-! ## Counting along a list -/

-- Each of the elements that are counted has some number of them before it.
theorem exists_countP_take {α : Type} {q : α → Bool} {xs : List α} {k : Nat}
    (h : k < xs.countP q) :
    ∃ i x, xs[i]? = some x ∧ q x = true ∧ (xs.take i).countP q = k := by
  induction xs generalizing k with
  | nil => cases h
  | cons x xs ih =>
      rw [List.countP_cons] at h
      by_cases hx : q x = true
      · rw [if_pos hx] at h
        cases k with
        | zero => exact ⟨0, x, rfl, hx, rfl⟩
        | succ k =>
            rcases ih (Nat.lt_of_succ_lt_succ h) with ⟨i, y, hy, hq, hk⟩
            refine ⟨i + 1, y, hy, hq, ?_⟩
            rw [List.take_succ_cons, List.countP_cons, if_pos hx, hk]
      · rw [if_neg hx] at h
        rcases ih h with ⟨i, y, hy, hq, hk⟩
        refine ⟨i + 1, y, hy, hq, ?_⟩
        rw [List.take_succ_cons, List.countP_cons, if_neg hx, hk, Nat.add_zero]

theorem countP_take_lt {α : Type} {q : α → Bool} {xs : List α} {i : Nat} {x : α}
    (hx : xs[i]? = some x) (hq : q x = true) : (xs.take i).countP q < xs.countP q := by
  have hsplit : (xs.take (i + 1)).countP q = (xs.take i).countP q + 1 := by
    rw [List.take_add_one, hx, Option.toList_some, List.countP_append, List.countP_singleton,
      if_pos hq]
  have hle := (List.take_sublist (i + 1) xs).countP_le (p := q)
  omega

end Codemod
