import Codemod.Path

/-!
# Paths below a Path

What becomes of a path when names are put behind it.

A path keeps the form in which it was written, so what a name adds to it depends
on how it ends. Read as components, none of that shows: a name adds itself, and
two paths below the same path compare as the names do that they add.

Paths are compared component by component, and a component is compared by its
bytes.

## Main definitions

* `Path.parts`: The components of what stands behind an anchor.
* `Path.below`: A path with names behind it.
* `Path.sortKey`: The bytes of the components of a path.

## Theorems

* `Path.components_join`: A path behind a path.
* `Path.components_child`: A name behind a path is one more component.
* `Path.extension?_child_eq_some_iff`: The extension of a path.
* `Path.sortKey_below_lt`: The order of paths below a path.
-/

namespace Codemod

/-! ## Pieces -/

namespace Path

theorem pieces_ne_nil (s : List UInt8) : pieces s ≠ [] := by
  fun_cases pieces s <;> simp

theorem pieces_of_not_mem {s : List UInt8} (h : slashByte ∉ s) : pieces s = [s] := by
  induction s with
  | nil => rfl
  | cons c s ih =>
      rcases not_or.1 (mt List.mem_cons.2 h) with ⟨hc, hs⟩
      rw [pieces, if_neg (Ne.symm hc), ih hs]

theorem pieces_append_slash (s t : List UInt8) :
    pieces (s ++ slashByte :: t) = pieces s ++ pieces t := by
  induction s with
  | nil => rfl
  | cons c s ih =>
      rw [List.cons_append, pieces, pieces, ih]
      split
      · rfl
      · rcases List.exists_cons_of_ne_nil (pieces_ne_nil s) with ⟨piece, rest, hs⟩
        rw [hs]
        rfl

/-- What begins neither with a slash nor with a dot has no anchor. -/
theorem anchor_of_ne {b : UInt8} (hslash : b ≠ slashByte) (hdot : b ≠ dotByte) (s : List UInt8) :
    anchor ⟨b :: s⟩ = (none, b :: s) := by
  rw [anchor]
  split
  · exact absurd (List.cons.inj ‹_›).1 hslash
  · exact absurd (List.cons.inj ‹_›).1 hdot
  · exact absurd (List.cons.inj ‹_›).1 hdot
  · rfl

-- A dot is an anchor only if nothing but a separator can come behind it.
theorem anchor_of_second_ne {b d : UInt8} (hslash : b ≠ slashByte) (hd : d ≠ slashByte)
    (s : List UInt8) : anchor ⟨b :: d :: s⟩ = (none, b :: d :: s) := by
  rw [anchor]
  split
  · exact absurd (List.cons.inj ‹_›).1 hslash
  · cases (List.cons.inj ‹_›).2
  · exact absurd (List.cons.inj (List.cons.inj ‹_›).2).1 hd
  · rfl

/-- What begins behind a separator does not change what the path before it is
    anchored to. -/
theorem anchor_append {p : Path} {t : List UInt8} (hp : p.bytes ≠ [])
    (ht : p.bytes.getLast? = some slashByte ∨ t.head? = some slashByte) :
    anchor ⟨p.bytes ++ t⟩ = (p.anchor.1, p.anchor.2 ++ t) := by
  obtain ⟨s⟩ := p
  cases s with
  | nil => exact absurd rfl hp
  | cons c s =>
      by_cases hslash : c = slashByte
      · rw [hslash]
        rfl
      · by_cases hdot : c = dotByte
        · rw [hdot] at ht ⊢
          cases s with
          | nil =>
              rcases ht with ht | ht
              · exact absurd ht (by decide)
              · rcases List.head?_eq_some_iff.1 ht with ⟨t, rfl⟩
                rfl
          | cons d s =>
              by_cases hd : d = slashByte
              · rw [hd]
                rfl
              · have hnone := anchor_of_second_ne (b := dotByte) (by decide) hd
                rw [hnone]
                exact hnone (s ++ t)
        · rw [anchor_of_ne hslash hdot]
          exact anchor_of_ne hslash hdot (s ++ t)

/-- The components of what stands behind an anchor. -/
def parts (s : List UInt8) : List Component := (pieces s).filterMap Component.ofPiece?

theorem parts_append_slash (s t : List UInt8) :
    parts (s ++ slashByte :: t) = parts s ++ parts t := by
  simp only [parts, pieces_append_slash, List.filterMap_append]

theorem parts_name (n : Name) : parts n.bytes = [.name n] := by
  have hpiece : Component.ofPiece? n.bytes = some (.name n) := dif_pos n.isName
  rw [parts, pieces_of_not_mem n.isName.2.2.2, List.filterMap_cons_some hpiece,
    List.filterMap_nil]

theorem components_append_slash {s : List UInt8} (hs : s ≠ []) (t : List UInt8) :
    components ⟨s ++ slashByte :: t⟩ = components ⟨s⟩ ++ parts t := by
  have hanchor := anchor_append (p := ⟨s⟩) (t := slashByte :: t) hs (Or.inr rfl)
  simp only [components, parts, hanchor, pieces_append_slash, List.filterMap_append,
    List.append_assoc]

-- A name is no anchor.
theorem anchor_name (n : Name) : anchor ⟨n.bytes⟩ = (none, n.bytes) := by
  obtain ⟨s, -, hdot, -, hslash⟩ := n
  cases s with
  | nil => rfl
  | cons c s =>
      rcases not_or.1 (mt List.mem_cons.2 hslash) with ⟨hc, hs⟩
      cases s with
      | nil =>
          have hc' : c ≠ dotByte := fun h => hdot (by rw [h])
          exact anchor_of_ne (Ne.symm hc) hc' []
      | cons d s =>
          have hd : d ≠ slashByte := fun h => hs (h ▸ List.mem_cons_self)
          exact anchor_of_second_ne (Ne.symm hc) hd s

theorem not_isAbsolute_name (n : Name) : ¬isAbsolute ⟨n.bytes⟩ = true := fun h =>
  n.isName.2.2.2 (List.mem_of_head? (of_decide_eq_true h))

theorem child_eq (p : Path) (n : Name) :
    p.child n =
      if p.bytes = [] ∨ p.bytes.getLast? = some slashByte then ⟨p.bytes ++ n.bytes⟩
      else ⟨p.bytes ++ slashByte :: n.bytes⟩ := by
  rw [child, join, if_neg (not_isAbsolute_name n)]

/-- A path behind a path adds its components, whatever separates the two. -/
theorem components_join {p q : Path} (hp : p.bytes ≠ []) (hq : ¬q.isAbsolute = true) :
    (p.join q).components = p.components ++ parts q.bytes := by
  obtain ⟨s⟩ := p
  rw [join, if_neg hq]
  by_cases hlast : s.getLast? = some slashByte
  · rw [if_pos (Or.inr hlast)]
    rcases List.getLast?_eq_some_iff.1 hlast with ⟨t, rfl⟩
    rw [List.append_assoc, List.singleton_append]
    cases t with
    | nil => rfl
    | cons c t =>
        -- The separator at the end adds an empty piece to the path alone.
        have ht : c :: t ≠ [] := List.cons_ne_nil c t
        rw [components_append_slash ht, components_append_slash ht]
        exact congrArg (· ++ _) (List.append_nil _).symm
  · rw [if_neg (not_or.2 ⟨hp, hlast⟩), components_append_slash hp]

/-- A name behind a path is one more component. -/
theorem components_child (p : Path) (n : Name) :
    (p.child n).components = p.components ++ [.name n] := by
  by_cases hnil : p.bytes = []
  · -- Nothing is in front of the name.
    obtain ⟨s⟩ := p
    obtain rfl : s = [] := hnil
    rw [child_eq, if_pos (Or.inl rfl), List.nil_append, components, anchor_name]
    exact parts_name n
  · rw [child, components_join hnil (not_isAbsolute_name n), parts_name]

/-! ## Names behind a path -/

/-- A path with names behind it. -/
def below (p : Path) (ns : List Name) : Path := ns.foldl child p

theorem components_below (p : Path) (ns : List Name) :
    (p.below ns).components = p.components ++ ns.map Component.name := by
  induction ns generalizing p with
  | nil => exact (List.append_nil _).symm
  | cons n ns ih =>
      rw [below, List.foldl_cons, ← below, ih, components_child, List.append_assoc,
        List.singleton_append, List.map_cons]

theorem byteLength_le_child (p : Path) (n : Name) : p.byteLength ≤ (p.child n).byteLength := by
  rw [child_eq]
  split
  · exact (List.prefix_append _ _).length_le
  · exact (List.prefix_append _ _).length_le

theorem byteLength_le_below (p : Path) (ns : List Name) :
    p.byteLength ≤ (p.below ns).byteLength := by
  induction ns generalizing p with
  | nil => exact Nat.le_refl _
  | cons n ns ih => exact Nat.le_trans (byteLength_le_child p n) (ih (p.child n))

end Path

/-! ## Extensions -/

/-- The extension of a name is what stands behind its last dot, provided that
    something stands before that dot. -/
theorem Name.extension?_eq_some_iff {n : Name} {e : List UInt8} :
    n.extension? = some e ↔
      ∃ stem, stem ≠ [] ∧ n.bytes = stem ++ dotByte :: e ∧ dotByte ∉ e := by
  rw [extension?]
  constructor
  · intro h
    have hsplit := List.takeWhile_append_dropWhile (p := (· ≠ dotByte)) (l := n.bytes.reverse)
    have hlast := List.head?_dropWhile_not (· ≠ dotByte) n.bytes.reverse
    split at h
    · cases h
    · cases h
    · rename_i hmany hone
      rcases hdrop : n.bytes.reverse.dropWhile (· ≠ dotByte) with _ | ⟨c, _ | ⟨d, rest⟩⟩
      · exact absurd hdrop hmany
      · exact absurd hdrop (hone c)
      · rw [hdrop] at hsplit hlast
        have hc : c = dotByte := by simpa using hlast
        have hforwards := congrArg List.reverse hsplit
        rw [List.reverse_append, List.reverse_reverse, Option.some.inj h, hc] at hforwards
        refine ⟨(d :: rest).reverse, by simp, by rw [← hforwards]; simp, fun hmem => ?_⟩
        rw [← Option.some.inj h, List.mem_reverse] at hmem
        have hall := List.all_eq_true.1 (List.all_takeWhile (p := (· ≠ dotByte))) _ hmem
        exact absurd hall (by decide)
  · rintro ⟨stem, hstem, hn, he⟩
    have hother : ∀ c ∈ e.reverse, decide (c ≠ dotByte) = true := fun c hc =>
      decide_eq_true fun h => he (h ▸ List.mem_reverse.1 hc)
    have hreverse : n.bytes.reverse = e.reverse ++ dotByte :: stem.reverse := by
      rw [hn]
      simp
    rcases List.exists_cons_of_ne_nil (mt List.reverse_eq_nil_iff.1 hstem) with ⟨d, rest, hd⟩
    rw [hreverse, List.dropWhile_append_of_pos hother, List.takeWhile_append_of_pos hother, hd]
    simp

theorem Path.extension?_child_eq_some_iff {p : Path} {n : Name} {e : List UInt8} :
    (p.child n).extension? = some e ↔
      ∃ stem, stem ≠ [] ∧ n.bytes = stem ++ dotByte :: e ∧ dotByte ∉ e := by
  rw [← Name.extension?_eq_some_iff, extension?, fileName?, components_child,
    List.getLast?_concat, Option.bind_some]

/-! ## Comparing paths -/

/-- The bytes of a component. -/
def Component.bytes : Component → List UInt8
  | .root => [slashByte]
  | .current => [dotByte]
  | .parent => [dotByte, dotByte]
  | .name n => n.bytes

namespace Path

/-- The bytes of the components of a path, by which paths are compared. -/
def sortKey (p : Path) : List (List UInt8) := p.components.map Component.bytes

/-- Below a path, the first names that differ decide. -/
theorem sortKey_below_lt (p : Path) {n m : Name} (h : n < m) (ns ms : List Name) :
    ((p.child n).below ns).sortKey < ((p.child m).below ms).sortKey := by
  have hbytes : (Component.name n).bytes < (Component.name m).bytes := h
  simp only [sortKey, components_below, components_child, List.map_append, List.append_assoc,
    List.map_cons, List.singleton_append]
  exact List.append_left_lt (List.cons_lt_cons_iff.2 (Or.inl hbytes))

end Path

end Codemod
