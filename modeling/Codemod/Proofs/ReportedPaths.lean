import Codemod.Proofs.Enumeration
import Codemod.Proofs.ShownPaths

/-!
# Reported Paths

What a path says when it is shown as seen from the root of the project.

A report shows a path without the components of the root that it starts with,
and shows it whole when it does not start with them. In both cases the path can
be had back by looking from the root again: as components, what is put behind
the root is what was taken off. A path that is shown whole does no harm there,
because only an absolute source directory lies outside of the root, and an
absolute path stands for itself.

So what is left of a path tells which path is meant. What a report shows of it
does so only if it is text, because bytes that are no text have to be shown as
something else. A search comes upon nothing twice, and therefore no two of the
paths in a report are the same, be they paths of files or of directories that
could not be opened. Only two of them that are no text can look the same.

## Main definitions

* `Config.Faithful`: A path of which a report shows all.
* `Store.unreadable`: The directories that a search cannot open.

## Theorems

* `Path.parts_dropComponents`: Taking components off.
* `Path.components_join_relativeTo`: Looking from the root again.
* `Config.reported_below_inj`: The reported path tells which path is meant.
* `Store.nodup_found`: No path is come upon twice.
* `Store.nodup_reported_faithful`: Paths that are text are reported apart.
* `reported_paths_identify`: The reported paths of listed files.
* `reported_paths_identify_behind_dots`: Roots and directories named with dots.
* `reported_paths_alike`: Two names that are no text.
-/

namespace Codemod

namespace Path

/-! ## Idle pieces -/

theorem dropIdle_suffix (s : List UInt8) : dropIdle s <:+ s := by
  fun_induction dropIdle s with
  | case1 s ih => exact ih.trans (List.suffix_cons slashByte s)
  | case2 => exact List.nil_suffix
  | case3 s ih => exact ih.trans ((List.suffix_cons slashByte s).trans (List.suffix_cons dotByte _))
  | case4 s => exact List.suffix_rfl

theorem dropIdleEnd_prefix (s : List UInt8) : dropIdleEnd s <+: s := by
  rw [dropIdleEnd, ← List.reverse_suffix, List.reverse_reverse]
  exact dropIdle_suffix s.reverse

theorem parts_dropIdle (s : List UInt8) : parts (dropIdle s) = parts s := by
  fun_induction dropIdle s with
  | case1 s ih => exact ih
  | case2 => rfl
  | case3 s ih => exact ih
  | case4 s => rfl

theorem parts_dropIdleEnd (s : List UInt8) : parts (dropIdleEnd s) = parts s := by
  -- The induction takes pieces off the front of the text read backwards.
  have hback : ∀ t : List UInt8, parts (dropIdle t).reverse = parts t.reverse := by
    intro t
    fun_induction dropIdle t with
    | case1 t ih =>
        have hslash : parts (t.reverse ++ [slashByte]) = parts t.reverse :=
          (parts_append_slash t.reverse []).trans (List.append_nil _)
        rw [ih, List.reverse_cons]
        exact hslash.symm
    | case2 => rfl
    | case3 t ih =>
        have hslash : parts (t.reverse ++ [slashByte, dotByte]) = parts t.reverse :=
          (parts_append_slash t.reverse [dotByte]).trans (List.append_nil _)
        rw [ih, List.reverse_cons, List.reverse_cons, List.append_assoc]
        exact hslash.symm
    | case4 t => rfl
  rw [dropIdleEnd, hback, List.reverse_reverse]

/-- What is left without idle pieces is nothing, or starts with a component. -/
theorem parts_eq_cons {s : List UInt8} (hs : dropIdle s ≠ []) :
    ∃ x, parts s = x :: parts ((dropIdle s).dropWhile (· ≠ slashByte)) := by
  have hslash := dropIdle_head?_ne s
  have hdots : dropIdle s ≠ [dotByte] ∧ ∀ t, dropIdle s ≠ dotByte :: slashByte :: t := by
    fun_induction dropIdle s with
    | case1 s ih => exact ih hs hslash
    | case2 => exact absurd rfl hs
    | case3 s ih => exact ih hs hslash
    | case4 s _ h₁ h₂ => exact ⟨h₁, fun t ht => h₂ t ht⟩
  rw [← parts_dropIdle]
  generalize dropIdle s = u at hs hslash hdots
  -- The first piece has no slash in it, and is not idle.
  have hsplit := List.takeWhile_append_dropWhile (p := (· ≠ slashByte)) (l := u)
  have hno : slashByte ∉ u.takeWhile (· ≠ slashByte) := fun hmem =>
    absurd (List.all_eq_true.1 (List.all_takeWhile (p := (· ≠ slashByte))) _ hmem) (by decide)
  have hlast := List.head?_dropWhile_not (· ≠ slashByte) u
  have hfirst : u.takeWhile (· ≠ slashByte) ≠ [] := by
    obtain ⟨c, t, rfl⟩ := List.exists_cons_of_ne_nil hs
    have hc : c ≠ slashByte := fun e => hslash (congrArg some e)
    simp [hc]
  generalize u.takeWhile (· ≠ slashByte) = piece at hsplit hno hfirst
  generalize u.dropWhile (· ≠ slashByte) = rest at hsplit hlast
  subst hsplit
  have hpiece : piece ≠ [dotByte] := by
    rintro rfl
    cases rest with
    | nil => exact hdots.1 rfl
    | cons c t =>
        have hc : c = slashByte := by simpa using hlast
        exact hdots.2 t (by rw [hc]; rfl)
  have hcounts : ∃ x, parts piece = [x] := by
    rw [parts, pieces_of_not_mem hno, List.filterMap_cons, Component.ofPiece?]
    by_cases hup : piece = [dotByte, dotByte]
    · subst hup
      exact ⟨.parent, rfl⟩
    · rw [dif_pos ⟨hfirst, hpiece, hup, hno⟩]
      exact ⟨_, rfl⟩
  rcases hcounts with ⟨x, hx⟩
  refine ⟨x, ?_⟩
  cases rest with
  | nil => rw [List.append_nil, hx]; rfl
  | cons c t =>
      have hc : c = slashByte := by simpa using hlast
      rw [hc, parts_append_slash, hx]
      rfl

/-! ## Taking components off -/

theorem parts_dropComponents (n : Nat) (s : List UInt8) :
    parts (dropComponents n s) = (parts s).drop n := by
  induction n generalizing s with
  | zero => exact parts_dropIdle s
  | succ n ih =>
      rw [dropComponents, ih]
      by_cases hs : dropIdle s = []
      · have hnone := parts_dropIdle s
        rw [hs] at hnone
        rw [hs, ← hnone]
        simp [parts, pieces, Component.ofPiece?, IsName]
      · rcases parts_eq_cons hs with ⟨x, hx⟩
        rw [hx, List.drop_succ_cons]

theorem dropComponents_head?_ne (n : Nat) (s : List UInt8) :
    (dropComponents n s).head? ≠ some slashByte := by
  induction n generalizing s with
  | zero => exact dropIdle_head?_ne s
  | succ n ih => exact ih _

-- What is taken off leaves no separator in front.
theorem not_isAbsolute_dropComponents (n : Nat) (s : List UInt8) :
    ¬isAbsolute ⟨dropIdleEnd (dropComponents n s)⟩ = true := by
  intro habs
  have hhead : (dropIdleEnd (dropComponents n s)).head? = some slashByte := of_decide_eq_true habs
  rcases List.head?_eq_some_iff.1 hhead with ⟨t, ht⟩
  rcases dropIdleEnd_prefix (dropComponents n s) with ⟨u, hu⟩
  refine dropComponents_head?_ne n s ?_
  rw [← hu, ht]
  rfl

theorem components_eq (p : Path) : p.components = p.anchor.1.toList ++ parts p.anchor.2 := rfl

theorem length_anchor_le (p : Path) : p.anchor.1.toList.length ≤ 1 := by
  cases p.anchor.1 <;> simp

theorem anchor_dot {s : List UInt8} (h : s = [] ∨ s.head? = some slashByte) :
    anchor ⟨dotByte :: s⟩ = (some .current, s) := by
  rcases h with rfl | h
  · rfl
  · rcases List.head?_eq_some_iff.1 h with ⟨t, rfl⟩
    rfl

/-- A path is anchored by a slash or by a single dot, or else starts with its first
    component. -/
theorem anchor_cases (p : Path) :
    (∃ s, p.bytes = slashByte :: s ∧ p.anchor = (some .root, s)) ∨
      (∃ s, p.bytes = dotByte :: s ∧ (s = [] ∨ s.head? = some slashByte) ∧
        p.anchor = (some .current, s)) ∨
      p.anchor = (none, p.bytes) ∧ dropIdle p.bytes = p.bytes := by
  obtain ⟨s⟩ := p
  fun_cases anchor ⟨s⟩ with
  | case1 t h => exact .inl ⟨t, h, rfl⟩
  | case2 h => exact .inr (.inl ⟨[], h, .inl rfl, rfl⟩)
  | case3 t h => exact .inr (.inl ⟨slashByte :: t, h, .inr rfl, rfl⟩)
  | case4 hroot hdot hdots =>
      refine .inr (.inr ⟨rfl, ?_⟩)
      fun_cases dropIdle s with
      | case1 t => exact (hroot t rfl).elim
      | case2 => exact (hdot rfl).elim
      | case3 t => exact (hdots t rfl).elim
      | case4 => rfl

/-- Only the empty path has no components. -/
theorem components_eq_nil_iff {p : Path} : p.components = [] ↔ p.bytes = [] := by
  constructor
  · intro hnil
    rw [components_eq, List.append_eq_nil_iff] at hnil
    rcases anchor_cases p with ⟨s, -, h⟩ | ⟨s, -, -, h⟩ | ⟨h, hidle⟩
    · rw [h] at hnil
      cases hnil.1
    · rw [h] at hnil
      cases hnil.1
    · rw [h] at hnil
      by_cases hp : p.bytes = []
      · exact hp
      · rcases parts_eq_cons (s := p.bytes) (by rwa [hidle]) with ⟨x, hx⟩
        exact absurd (hx.symm.trans hnil.2) (List.cons_ne_nil x _)
  · intro hnil
    obtain ⟨s⟩ := p
    obtain rfl : s = [] := hnil
    rfl

/-! ## Looking from the root again -/

-- What is left begins as the text does, and a text that begins with a component has
-- no anchor.
theorem anchor_dropIdleEnd {t : List UInt8} (ht : dropIdle t = t) :
    anchor ⟨dropIdleEnd t⟩ = (none, dropIdleEnd t) := by
  rcases dropIdleEnd_prefix t with ⟨u, hu⟩
  have hparts := parts_dropIdleEnd t
  rcases anchor_cases ⟨dropIdleEnd t⟩ with ⟨s, hs, -⟩ | ⟨s, hs, hdot, -⟩ | ⟨h, -⟩
  · replace hs : dropIdleEnd t = slashByte :: s := hs
    rw [hs] at hu
    exact absurd (by rw [ht, ← hu]; rfl) (dropIdle_head?_ne t)
  · replace hs : dropIdleEnd t = dotByte :: s := hs
    rw [hs] at hu hparts
    rcases hdot with rfl | hdot
    · have hne : dropIdle t ≠ [] := by
        rw [ht, ← hu]
        exact List.cons_ne_nil _ _
      rcases parts_eq_cons hne with ⟨x, hx⟩
      rw [hx] at hparts
      cases hparts
    · rcases List.head?_eq_some_iff.1 hdot with ⟨r, rfl⟩
      have hshorter : dropIdle t = dropIdle (r ++ u) := by
        rw [← hu]
        rfl
      have hle := dropIdle_length_le (r ++ u)
      have hlength := congrArg List.length hu
      rw [← hshorter, ht, ← hlength] at hle
      simp only [List.cons_append, List.length_cons] at hle
      omega
  · exact h

/-- Idle pieces at the end can go without any component going with them. -/
theorem components_withAnchor (p : Path) :
    (withAnchor p.anchor.1 (dropIdleEnd p.anchor.2)).components = p.components := by
  rw [components_eq p, ← parts_dropIdleEnd p.anchor.2]
  rcases anchor_cases p with ⟨s, -, h⟩ | ⟨s, -, hs, h⟩ | ⟨h, hidle⟩
  · rw [h]
    rfl
  · -- What is left behind the dot still begins with a slash, if it is anything.
    have hleft : dropIdleEnd s = [] ∨ (dropIdleEnd s).head? = some slashByte := by
      rcases dropIdleEnd_prefix s with ⟨u, hu⟩
      rcases hs with rfl | hs
      · exact .inl (List.append_eq_nil_iff.1 hu).1
      · cases hd : dropIdleEnd s with
        | nil => exact .inl rfl
        | cons c t => exact .inr (by rwa [← hu, hd] at hs)
    rw [h, withAnchor, components_eq, anchor_dot hleft]
  · rw [h, withAnchor, components_eq, anchor_dropIdleEnd hidle]
    · intro hdot
      cases hdot
    · intro hslash
      cases hslash

/-- A path that starts with the components of the root, or is absolute, has the
    same components when it is looked at from the root and put behind it again. -/
theorem components_join_relativeTo {p root : Path}
    (h : p.isAbsolute = true ∨ root.components <+: p.components) :
    (root.join (p.relativeTo root)).components = p.components := by
  rw [relativeTo]
  split
  · -- The root is the empty path, and adds nothing.
    rename_i hnil
    have hroot : root.bytes = [] := components_eq_nil_iff.1 hnil
    rw [← components_withAnchor p, join]
    split
    · rfl
    · rw [if_pos (Or.inl hroot), hroot, List.nil_append]
  · rename_i prior hne
    have hnonempty : root.components ≠ [] := hne
    have hroot : root.bytes ≠ [] := mt components_eq_nil_iff.2 hnonempty
    split
    · rename_i hprefix
      rcases List.isPrefixOf_iff_prefix.1 hprefix with ⟨t, ht⟩
      -- The anchor of the path is among the components of the root.
      have hlength : p.anchor.1.toList.length ≤ root.components.length :=
        Nat.le_trans (length_anchor_le p) (List.length_pos_iff.2 hnonempty)
      have hrest : t = (parts p.anchor.2).drop
          (root.components.length - p.anchor.1.toList.length) := by
        have hdrop := congrArg (List.drop root.components.length) ht
        rw [List.drop_left, components_eq p, List.drop_append, List.drop_eq_nil_of_le hlength,
          List.nil_append] at hdrop
        exact hdrop
      rw [components_join hroot (not_isAbsolute_dropComponents _ _), parts_dropIdleEnd,
        parts_dropComponents, ← hrest, ht]
    · rename_i hprefix
      have habs : p.isAbsolute = true :=
        h.resolve_right fun hp => hprefix (List.isPrefixOf_iff_prefix.2 hp)
      rw [join, if_pos habs]

theorem isAbsolute_below {p : Path} (h : p.isAbsolute = true) (ns : List Name) :
    (p.below ns).isAbsolute = true := by
  induction ns generalizing p with
  | nil => exact h
  | cons n ns ih =>
      refine ih ?_
      have hhead : p.bytes.head? = some slashByte := of_decide_eq_true h
      rcases List.head?_eq_some_iff.1 hhead with ⟨s, hs⟩
      rw [child_eq, isAbsolute, hs]
      split <;> rfl

end Path

/-! ## Reported paths -/

namespace Config

/-- A path of which a report shows all, because it is text as seen from the root. -/
def Faithful (c : Config) (p : Path) : Prop := IsUnicode (p.relativeTo c.root).bytes

instance (c : Config) : DecidablePred c.Faithful := fun p =>
  inferInstanceAs (Decidable (IsUnicode (p.relativeTo c.root).bytes))

variable {c : Config}

theorem ofString_reported (c : Config) (p : Path) :
    Path.ofString (c.reported p) = ⟨shownBytes (p.relativeTo c.root).bytes⟩ := by
  have htext : (c.reported p).toList = lossyText (p.relativeTo c.root).bytes :=
    String.toList_ofList
  rw [Path.ofString, htext]
  rfl

/-- What is searched lies below the root, or has an absolute path. -/
theorem searchDir_below (c : Config) (ns : List Name) :
    (c.searchDir.below ns).isAbsolute = true ∨
      c.root.components <+: (c.searchDir.below ns).components := by
  by_cases habs : c.sourceDir.isAbsolute = true
  · rw [searchDir, Path.join, if_pos habs]
    exact .inl (Path.isAbsolute_below habs ns)
  · refine .inr ?_
    by_cases hroot : c.root.bytes = []
    · rw [Path.components_eq_nil_iff.2 hroot]
      exact List.nil_prefix
    · rw [Path.components_below, searchDir, Path.components_join hroot habs]
      exact (List.prefix_append _ _).trans (List.prefix_append _ _)

/-- Below the directory that is searched, what is left of a path as seen from the
    root tells which names were gone down. -/
theorem relativeTo_below_inj {ns ms : List Name}
    (h : (c.searchDir.below ns).relativeTo c.root = (c.searchDir.below ms).relativeTo c.root) :
    ns = ms := by
  have hcomponents := Path.components_join_relativeTo (c.searchDir_below ns)
  rw [h, Path.components_join_relativeTo (c.searchDir_below ms), Path.components_below,
    Path.components_below, List.append_cancel_left_eq] at hcomponents
  exact (List.map_injective_iff.2 fun _ _ => Component.name.inj) hcomponents.symm

/-- If a report shows all of both, paths below the directory that is searched are
    told apart by what it shows. -/
theorem reported_below_inj {ns ms : List Name} (hns : c.Faithful (c.searchDir.below ns))
    (hms : c.Faithful (c.searchDir.below ms))
    (h : c.reported (c.searchDir.below ns) = c.reported (c.searchDir.below ms)) : ns = ms := by
  have hshown := congrArg Path.ofString h
  rw [ofString_reported, ofString_reported, isUnicode_iff_shownBytes.1 hns,
    isUnicode_iff_shownBytes.1 hms] at hshown
  exact relativeTo_below_inj hshown

end Config

/-! ## No path twice -/

/-- The path of a directory that could not be opened. -/
def Found.unreadable? : Found → Option Path
  | .file _ => none
  | .unreadable p _ => some p

namespace Store

/-- The directories that a search comes upon and cannot open. -/
def unreadable (s : Store) (c : Config) : List Path :=
  (s.search c.searchDir).filterMap Found.unreadable?

variable {s : Store} {c : Config}

theorem errors_eq_reported_unreadable (s : Store) (c : Config) :
    (s.sourceFiles c).2.map FileError.path = (s.unreadable c).map c.reported := by
  rw [sourceFiles, unreadable, List.map_filterMap, List.map_filterMap]
  refine congrArg (List.filterMap · _) (funext fun x => ?_)
  cases x <;> rfl

/-- A search comes upon the start, or upon paths below it. -/
theorem exists_below_of_mem_search {x : Found} (hx : x ∈ s.search c.searchDir) :
    ∃ ns, x.path = c.searchDir.below ns := by
  rw [search] at hx
  rcases hspot : s.locate true c.searchDir with e | spot
  · rw [hspot] at hx
    exact ⟨[], congrArg Found.path (List.mem_singleton.1 hx)⟩
  · rw [hspot] at hx
    cases spot with
    | directory place =>
        rcases exists_below_of_mem_searchFolder hx with ⟨n, -, ns, hns⟩
        exact ⟨n :: ns, hns⟩
    | file place n id => exact ⟨[], congrArg Found.path (List.mem_singleton.1 hx)⟩
    | link place n target rest => exact ⟨[], congrArg Found.path (List.mem_singleton.1 hx)⟩
    | missing place n => exact ⟨[], congrArg Found.path (List.mem_singleton.1 hx)⟩

theorem nodup_path_search (s : Store) (c : Config) :
    ((s.search c.searchDir).map Found.path).Nodup := by
  rw [search]
  rcases s.locate true c.searchDir with e | spot
  · exact List.nodup_singleton _
  · cases spot with
    | file place n id => exact List.nodup_singleton _
    | link place n target rest => exact List.nodup_singleton _
    | missing place n => exact List.nodup_singleton _
    | directory place =>
        refine List.pairwise_map.2 ?_
        refine (pairwise_path_searchFolder (s.ordered_located place)).imp fun hlt hsame => ?_
        rw [hsame] at hlt
        exact List.lt_irrefl _ hlt

/-- No two of the listed files and of the directories that cannot be opened have one
    path. -/
theorem nodup_found (s : Store) (c : Config) : ((s.sourceFiles c).1 ++ s.unreadable c).Nodup := by
  have hfile : ∀ (x : Found) p, x.file? = some p → id p = x.path := fun x p hp =>
    (Found.path_of_file? hp).symm
  have hdirectory : ∀ (x : Found) p, x.unreadable? = some p → id p = x.path := by
    rintro (p | ⟨p, e⟩) q hq <;> cases hq
    rfl
  have hone : ∀ x : Found, x.file?.isSome = false ∨ x.unreadable?.isSome = false := by
    rintro (p | ⟨p, e⟩)
    · exact .inr rfl
    · exact .inl rfl
  have hboth := nodup_map_filter_append (s.nodup_path_search c) hone
  rw [← map_filterMap_eq_map_filter hfile, ← map_filterMap_eq_map_filter hdirectory, List.map_id,
    List.map_id] at hboth
  exact hboth.sublist (List.filter_sublist.append (List.Sublist.refl _))

theorem exists_below_of_found {p : Path} (hp : p ∈ (s.sourceFiles c).1 ++ s.unreadable c) :
    ∃ ns, p = c.searchDir.below ns := by
  have hfound : ∃ x ∈ s.search c.searchDir, x.path = p := by
    rcases List.mem_append.1 hp with hp | hp
    · rw [sourceFiles, List.mem_filter, mem_filterMap_file?] at hp
      exact ⟨_, hp.1, rfl⟩
    · rcases List.mem_filterMap.1 hp with ⟨x, hx, hxp⟩
      cases x <;> cases hxp
      exact ⟨_, hx, rfl⟩
  rcases hfound with ⟨x, hx, rfl⟩
  exact exists_below_of_mem_search hx

/-- Of paths that a search comes upon, those that are text as seen from the root are
    reported apart. -/
theorem nodup_reported_faithful {ps : List Path} (hps : ps.Nodup)
    (hfound : ∀ p ∈ ps, p ∈ (s.sourceFiles c).1 ++ s.unreadable c) :
    ((ps.filter fun p => c.Faithful p).map c.reported).Nodup := by
  refine List.Nodup.map_on (fun p hp q hq hsame => ?_) (hps.filter _)
  rw [List.mem_filter, decide_eq_true_iff] at hp hq
  rcases exists_below_of_found (hfound p hp.1) with ⟨ns, rfl⟩
  rcases exists_below_of_found (hfound q hq.1) with ⟨ms, rfl⟩
  rw [Config.reported_below_inj hp.2 hq.2 hsame]

end Store

/-- Put behind the root again, what is left of the path of a listed file as seen from
    the root has the components of the path. What a report shows of it has them
    exactly when it is text, and among listed paths of which that can be said, two
    are reported as two. -/
theorem reported_paths_identify (s : Store) (c : Config) :
    let files := (s.sourceFiles c).1
    (∀ p ∈ files, (c.root.join (p.relativeTo c.root)).components = p.components) ∧
      (∀ p ∈ files,
        (c.root.join (.ofString (c.reported p))).components = p.components ↔ c.Faithful p) ∧
      ∀ p ∈ files, ∀ q ∈ files, c.Faithful p → c.Faithful q → p ≠ q →
        c.reported p ≠ c.reported q := by
  intro files
  have hbelow : ∀ p ∈ files, ∃ ns, p = c.searchDir.below ns := fun p hp =>
    Store.exists_below_of_found (List.mem_append_left _ hp)
  have hagain : ∀ p ∈ files, (c.root.join (p.relativeTo c.root)).components = p.components := by
    intro p hp
    rcases hbelow p hp with ⟨ns, rfl⟩
    exact Path.components_join_relativeTo (c.searchDir_below ns)
  refine ⟨hagain, fun p hp => ?_, fun p hp q hq hptext hqtext hne hsame => hne ?_⟩
  · rw [Config.ofString_reported, ← hagain p hp]
    exact Path.components_join_shown_iff c.root (p.relativeTo c.root)
  · rcases hbelow p hp with ⟨ns, rfl⟩
    rcases hbelow q hq with ⟨ms, rfl⟩
    rw [Config.reported_below_inj hptext hqtext hsame]

/-- A search behind a root that ends in a dot, in a directory that is named with a
    double dot and with slashes at its end, and one in a directory that the root is
    only a beginning of as a text. -/
theorem reported_paths_identify_behind_dots :
    let c : Config := ⟨.ofString "/src/./", .ofString "m/..//", "dart", false⟩
    let d : Config := ⟨.ofString "/s", .ofString "/src/m", "dart", false⟩
    let p : Path := .ofString "/src/./m/..//n.dart/o.dart"
    let q : Path := .ofString "/src/m/z.dart"
    (p ∈ (amongLinks.sourceFiles c).1 ∧ c.reported p = "m/..//n.dart/o.dart" ∧
        (c.root.join (.ofString (c.reported p))).components = p.components) ∧
      q ∈ (amongLinks.sourceFiles d).1 ∧ d.reported q = "/src/m/z.dart" ∧
        (d.root.join (.ofString (d.reported q))).components = q.components := by
  intro c d p q
  have hp : p ∈ (amongLinks.sourceFiles c).1 := by decide +kernel
  have hq : q ∈ (amongLinks.sourceFiles d).1 := by decide +kernel
  have hptext : c.Faithful p := by decide +kernel
  have hqtext : d.Faithful q := by decide +kernel
  exact ⟨⟨hp, by decide +kernel, ((reported_paths_identify amongLinks c).2.1 p hp).2 hptext⟩,
    hq, by decide +kernel, ((reported_paths_identify amongLinks d).2.1 q hq).2 hqtext⟩

/-- A directory with two files whose names begin with a byte that no text has. -/
def untextNames : Store where
  top :=
    .directory (.ofString "raw" (by decide))
      (.file ⟨0xFE :: Text.bytes ".dart".toList, by decide⟩ 0
        (.file ⟨0xFF :: Text.bytes ".dart".toList, by decide⟩ 1 .empty))
      .empty
  ordered := by
    simp [Folder.Ordered, Folder.names]
    decide
  bytes := fun _ => .empty
  here := []

/-- The two files are listed, and both are reported under one path, which is the
    path of neither. -/
theorem reported_paths_alike :
    let c : Config := ⟨.ofString "/", .ofString "raw", "dart", false⟩
    let p : Path := ⟨Text.bytes "/raw/".toList ++ 0xFE :: Text.bytes ".dart".toList⟩
    let q : Path := ⟨Text.bytes "/raw/".toList ++ 0xFF :: Text.bytes ".dart".toList⟩
    (untextNames.sourceFiles c).1 = [p, q] ∧ p ≠ q ∧ c.reported p = "raw/\uFFFD.dart" ∧
      c.reported q = c.reported p ∧
      (c.root.join (.ofString (c.reported p))).components ≠ p.components ∧
      (c.root.join (.ofString (c.reported q))).components ≠ q.components := by
  decide +kernel

end Codemod
