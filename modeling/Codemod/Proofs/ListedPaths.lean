import Codemod.Proofs.Enumeration

/-!
# Listed Paths Lead to Files

A search puts the names that it goes down behind the path that it starts from.
Looked up as a whole, such a path is walked from the top of the store again, and
along the way to the start there may be links. The search has not followed them
a second time, so it takes an argument that the walk arrives where the search
was: steps put behind a path that leads to a directory go on from there, with
the links counted that the path itself has used up.

A listed path can still be refused, because a name in it or the whole of it is
too long, or because a name holds the character that ends a path for the system.
It is never the case that there is nothing under it.

## Main definitions

* `Folder.LeadsOn`: Steps behind a path go on from where it leads.
* `Store.Reaches`: A path that leads to a directory, but for names in it that
  are too long.

## Theorems

* `Folder.leadsOn`: They always do.
* `Store.Reaches.below`: Names of directories behind a path.
* `Store.fileAt_listed_cases`, `Store.fileAt_listed`: Listed paths.
-/

namespace Codemod

/-! ## Steps of a longer path -/

namespace Path

theorem steps_append_slash (s t : List UInt8) :
    steps ⟨s ++ slashByte :: t⟩ = steps ⟨s⟩ ++ steps ⟨t⟩ := by
  rw [steps, pieces_append_slash, List.map_append]
  rfl

theorem steps_name (n : Name) : steps ⟨n.bytes⟩ = [.down n] := by
  rw [steps, pieces_of_not_mem n.isName.2.2.2, List.map_singleton, Step.ofPiece, dif_pos n.isName]

/-- A name behind a path is one more step. It takes the place of the step that
    stays where it is, if the path ends in a slash. -/
theorem steps_child {p : Path} (hp : p.bytes ≠ []) (n : Name) :
    ∃ a idle, (∀ x ∈ idle, x = Step.stay) ∧ p.steps = a ++ idle ∧
      (p.child n).steps = a ++ [.down n] := by
  obtain ⟨s⟩ := p
  rw [child_eq]
  by_cases hlast : s.getLast? = some slashByte
  · rw [if_pos (.inr hlast)]
    rcases List.getLast?_eq_some_iff.1 hlast with ⟨t, rfl⟩
    refine ⟨steps ⟨t⟩, [.stay], by simp, steps_append_slash t [], ?_⟩
    rw [List.append_assoc, List.singleton_append, steps_append_slash, steps_name]
  · rw [if_neg (not_or.2 ⟨hp, hlast⟩)]
    exact ⟨steps ⟨s⟩, [], nofun, (List.append_nil _).symm, by rw [steps_append_slash, steps_name]⟩

theorem origin_child {p : Path} (hp : p.bytes ≠ []) (n : Name) (here : Place) :
    (p.child n).origin here = p.origin here := by
  obtain ⟨_ | ⟨c, s⟩⟩ := p
  · exact absurd rfl hp
  · rw [child_eq]
    split <;> rfl

theorem bytes_child_ne_nil (p : Path) (n : Name) : (p.child n).bytes ≠ [] := by
  rw [child_eq]
  split <;> simp [n.isName.1]

end Path

namespace Folder

variable {top : Folder} {place pl : Place} {a idle : List Step}

section Idle

variable (hidle : ∀ x ∈ idle, x = Step.stay)

include hidle

theorem walk_idle : top.walk place idle = .ok (.directory place) := by
  induction idle with
  | nil => rfl
  | cons x idle ih =>
      rw [hidle x List.mem_cons_self, walk]
      exact ih fun y hy => hidle y (List.mem_cons_of_mem x hy)

theorem walk_append_of_directory (h : top.walk place (a ++ idle) = .ok (.directory pl))
    (b : List Step) : top.walk place (a ++ b) = top.walk pl b := by
  induction a generalizing place with
  | nil =>
      rw [List.nil_append, walk_idle hidle] at h
      cases h
      rfl
  | cons x a ih =>
      cases x with
      | stay => exact ih h
      | up => exact ih h
      | down n =>
          rw [List.cons_append, walk] at h ⊢
          split at h
          · cases h
          · rw [if_neg ‹_›]
            split at h
            · split at h <;> cases h
            · split at h <;> cases h
            · cases h
            · exact ih h

theorem walk_append_of_link {p : Place} {n : Name} {t : Path} {r : List Step}
    (h : top.walk place (a ++ idle) = .ok (.link p n t r)) :
    ∃ r', r = r' ++ idle ∧ ∀ b, top.walk place (a ++ b) = .ok (.link p n t (r' ++ b)) := by
  induction a generalizing place with
  | nil =>
      rw [List.nil_append, walk_idle hidle] at h
      cases h
  | cons x a ih =>
      cases x with
      | stay => exact ih h
      | up => exact ih h
      | down m =>
          rw [List.cons_append, walk] at h
          split at h
          · cases h
          · rename_i hlong
            split at h
            · split at h <;> cases h
            · split at h <;> cases h
            · rename_i hlink
              cases h
              refine ⟨a, rfl, fun b => ?_⟩
              rw [List.cons_append, walk, if_neg hlong, hlink]
            · rename_i hdir
              rcases ih h with ⟨r', hr, hb⟩
              refine ⟨r', hr, fun b => ?_⟩
              rw [List.cons_append, walk, if_neg hlong, hdir]
              exact hb b

theorem walk_append_of_nameTooLong (h : top.walk place (a ++ idle) = .error .nameTooLong)
    (b : List Step) : top.walk place (a ++ b) = .error .nameTooLong := by
  induction a generalizing place with
  | nil =>
      rw [List.nil_append, walk_idle hidle] at h
      cases h
  | cons x a ih =>
      cases x with
      | stay => exact ih h
      | up => exact ih h
      | down m =>
          rw [List.cons_append, walk] at h ⊢
          split at h
          · rw [if_pos ‹_›]
          · rw [if_neg ‹_›]
            split at h
            · split at h <;> cases h
            · split at h <;> cases h
            · cases h
            · exact ih h

end Idle

-- A walk that meets no link is all there is.
theorem trace_of_no_link (top : Folder) (followLast : Bool) (links : Nat) {place : Place}
    {steps : List Step} (h : ∀ p n t r, top.walk place steps ≠ .ok (.link p n t r)) :
    top.trace followLast links place steps = top.walk place steps := by
  rw [trace.eq_def]
  split
  · exact absurd ‹_› (h _ _ _ _)
  · rfl

theorem trace_of_link {links : Nat} {steps : List Step} {p : Place} {n : Name} {t : Path}
    {r : List Step} (h : top.walk place steps = .ok (.link p n t r)) :
    top.trace true links place steps =
      match links with
      | 0 => .error .tooManyLinks
      | k + 1 => top.trace true k (t.origin p) (t.steps ++ r) := by
  rw [trace.eq_def, h]
  cases links <;> simp

theorem trace_congr {links : Nat} {place' : Place} {steps steps' : List Step}
    (h : top.walk place steps = top.walk place' steps') :
    top.trace true links place steps = top.trace true links place' steps' := by
  rw [trace.eq_def, trace.eq_def top true links place' steps', h]

/-- Steps behind a path that leads to a directory go on from there, and behind
    one that has too long a name in it they come too late. -/
def LeadsOn (top : Folder) (links : Nat) (place : Place) (a idle : List Step) : Prop :=
  (∀ pl, top.trace true links place (a ++ idle) = .ok (.directory pl) →
    ∃ k, ∀ b, top.trace true links place (a ++ b) = top.trace true k pl b) ∧
  (top.trace true links place (a ++ idle) = .error .nameTooLong →
    ∀ b, top.trace true links place (a ++ b) = .error .nameTooLong)

-- Where no link is met, one walk decides.
theorem leadsOn_of_walk (hidle : ∀ x ∈ idle, x = Step.stay) (links : Nat)
    (hlink : ∀ p n t r, top.walk place (a ++ idle) = .ok (.link p n t r) →
      top.LeadsOn links place a idle) : top.LeadsOn links place a idle := by
  by_cases hmet : ∃ p n t r, top.walk place (a ++ idle) = .ok (.link p n t r)
  · rcases hmet with ⟨p, n, t, r, hw⟩
    exact hlink p n t r hw
  · rw [LeadsOn, trace_of_no_link top true links fun p n t r e => hmet ⟨p, n, t, r, e⟩]
    refine ⟨fun pl h => ⟨links, fun b => trace_congr (walk_append_of_directory hidle h b)⟩,
      fun h b => ?_⟩
    have hlong := walk_append_of_nameTooLong hidle h b
    rw [trace_of_no_link top true links (by simp [hlong]), hlong]

theorem leadsOn (hidle : ∀ x ∈ idle, x = Step.stay) (links : Nat) :
    top.LeadsOn links place a idle := by
  induction links generalizing place a with
  | zero =>
      refine leadsOn_of_walk hidle 0 fun p n t r hw => ?_
      rw [LeadsOn, trace_of_link hw]
      exact ⟨nofun, nofun⟩
  | succ k ih =>
      refine leadsOn_of_walk hidle (k + 1) fun p n t r hw => ?_
      rcases walk_append_of_link hidle hw with ⟨r', rfl, hb⟩
      rw [LeadsOn, trace_of_link hw]
      simp only [trace_of_link (hb _), ← List.append_assoc]
      exact ih

end Folder

namespace Store

variable {s : Store} {p : Path} {place : Place}

/-- A path leads to a directory, but for names in it that are too long. -/
structure Reaches (s : Store) (p : Path) (place : Place) : Prop where
  ne_nil : p.bytes ≠ []
  trace : s.top.trace true maxLinks (p.origin s.here) p.steps = .ok (.directory place) ∨
    s.top.trace true maxLinks (p.origin s.here) p.steps = .error .nameTooLong

theorem reaches_of_locate (h : s.locate true p = .ok (.directory place)) : s.Reaches p place := by
  rw [locate] at h
  split at h
  · cases h
  · rename_i hdefect
    refine ⟨fun hnil => ?_, .inl h⟩
    rw [Path.defect?, hnil] at hdefect
    simp at hdefect

theorem Reaches.trace_child (h : s.Reaches p place) (n : Name) :
    (∃ k, s.top.trace true maxLinks ((p.child n).origin s.here) (p.child n).steps =
      s.top.trace true k place [.down n]) ∨
    s.top.trace true maxLinks ((p.child n).origin s.here) (p.child n).steps =
      .error .nameTooLong := by
  rcases Path.steps_child h.ne_nil n with ⟨a, idle, hidle, hp, hchild⟩
  have htrace := h.trace
  rw [Path.origin_child h.ne_nil, hchild]
  rw [hp] at htrace
  rcases Folder.leadsOn hidle maxLinks with ⟨hdir, hlong⟩
  rcases htrace with htrace | htrace
  · rcases hdir place htrace with ⟨k, hk⟩
    exact .inl ⟨k, hk _⟩
  · exact .inr (hlong htrace _)

/-- One more name leads where a walk from the directory leads, if that is no
    link. -/
theorem Reaches.trace_child_of_walk (h : s.Reaches p place) {n : Name} {spot : Spot}
    (hspot : ∀ q m t r, spot ≠ .link q m t r)
    (hwalk : ¬maxNameBytes < n.bytes.length → s.top.walk place [.down n] = .ok spot) :
    s.top.trace true maxLinks ((p.child n).origin s.here) (p.child n).steps = .ok spot ∨
      s.top.trace true maxLinks ((p.child n).origin s.here) (p.child n).steps =
        .error .nameTooLong := by
  rcases h.trace_child n with ⟨k, hk⟩ | hlong
  · rw [hk]
    by_cases hbytes : maxNameBytes < n.bytes.length
    · have hw : s.top.walk place [.down n] = .error .nameTooLong := if_pos hbytes
      rw [Folder.trace_of_no_link s.top true k (by simp [hw]), hw]
      exact .inr rfl
    · have hw := hwalk hbytes
      rw [Folder.trace_of_no_link s.top true k (by simp [hw, hspot]), hw]
      exact .inl rfl
  · exact .inr hlong

theorem Reaches.child (h : s.Reaches p place) {n : Name} {e : Folder}
    (hn : (s.top.at? place).bind (Folder.find? n) = some (.directory e)) :
    s.Reaches (p.child n) (place ++ [n]) := by
  refine ⟨Path.bytes_child_ne_nil p n, h.trace_child_of_walk (by simp) fun hbytes => ?_⟩
  rw [Folder.walk, if_neg hbytes, hn]
  rfl

theorem Reaches.below (h : s.Reaches p place) {dirs : List Name} {d : Folder}
    (hd : s.top.at? (place ++ dirs) = some d) : s.Reaches (p.below dirs) (place ++ dirs) := by
  induction dirs generalizing p place with
  | nil =>
      rw [List.append_nil]
      exact h
  | cons n ns ih =>
      have hn : ∃ e, (s.top.at? place).bind (Folder.find? n) = some (.directory e) := by
        rw [Folder.at?_append] at hd
        rcases Option.bind_eq_some_iff.1 hd with ⟨f, hf, hfn⟩
        rw [Folder.at?] at hfn
        split at hfn
        · rename_i e hfind
          exact ⟨e, Option.bind_eq_some_iff.2 ⟨f, hf, hfind⟩⟩
        · cases hfn
      rcases hn with ⟨e, hn⟩
      rw [List.append_cons] at hd ⊢
      exact ih (h.child hn) hd

/-- The path of an entry that is a file leads to it, unless it breaks a rule on
    paths. -/
theorem Reaches.fileAt_child (h : s.Reaches p place) {n : Name} {id : FileId}
    (hn : (s.top.at? place).bind (Folder.find? n) = some (.file id)) :
    s.fileAt (p.child n) = .ok id ∨ s.fileAt (p.child n) = .error .nameTooLong ∨
      s.fileAt (p.child n) = .error .nulInPath := by
  have hwalk : ¬maxNameBytes < n.bytes.length →
      s.top.walk place [.down n] = .ok (.file place n id) := by
    intro hbytes
    rw [Folder.walk, if_neg hbytes, hn]
    rfl
  rw [fileAt, locate]
  cases hdefect : (p.child n).defect? with
  | some e =>
      rw [Path.defect?, if_neg (Path.bytes_child_ne_nil p n)] at hdefect
      split at hdefect
      · cases hdefect
        exact .inr (.inr rfl)
      · split at hdefect <;> cases hdefect
        exact .inr (.inl rfl)
  | none => rcases h.trace_child_of_walk (by simp) hwalk with htrace | htrace <;> simp [htrace]

/-- A listed path leads to a file, or the system says why it does not let itself
    be followed. -/
theorem fileAt_listed_cases {c : Config} (hdir : s.isDirectory c.searchDir = true)
    (hp : p ∈ (s.sourceFiles c).1) :
    (∃ id, s.fileAt p = .ok id) ∨ s.fileAt p = .error .nameTooLong ∨
      s.fileAt p = .error .nulInPath := by
  rcases isDirectory_iff.1 hdir with ⟨place, hplace⟩
  rcases (mem_sourceFiles_iff hplace).1 hp with ⟨dirs, n, rfl, ⟨d, e, hd, hn, hfile, -⟩, -⟩
  cases e with
  | file id =>
      rw [folderBelow?_of_locate hplace, ← Folder.at?_append] at hd
      have hentry : (s.top.at? (place ++ dirs)).bind (Folder.find? n) = some (.file id) :=
        Option.bind_eq_some_iff.2 ⟨d, hd, hn⟩
      exact (((reaches_of_locate hplace).below hd).fileAt_child hentry).imp_left fun h => ⟨id, h⟩
  | link target =>
      rw [CountsAsFile, isFile] at hfile
      cases hf : s.fileAt ((c.searchDir.below dirs).child n) with
      | ok id => exact .inl ⟨id, rfl⟩
      | error e =>
          rw [hf] at hfile
          cases hfile
  | directory entries => exact hfile.elim

theorem fileAt_listed {c : Config} (hdir : s.isDirectory c.searchDir = true)
    (hp : p ∈ (s.sourceFiles c).1) : s.fileAt p ≠ .error .notFound := by
  intro hnone
  rcases fileAt_listed_cases hdir hp with ⟨id, h⟩ | h | h <;> rw [hnone] at h <;> cases h

end Store

end Codemod
