import Codemod.Text.Lossy

/-!
# Paths

A path is a sequence of bytes, and it is kept as it was given: no step is
simplified away, because messages repeat it. They repeat it as text, and a path
that is no text looks otherwise in a message than it is. What a path means is
read off its pieces, the bytes between its slashes. There are two such readings.

As a sequence of components, a path is compared with others. Empty pieces and
pieces that are a single dot do not count there, except for a dot that the path
starts with. As a sequence of steps, a path is walked in a file store. There
every piece counts, because even one that stays in place demands that the place
be a directory.

Joining puts one path behind another; `Path.relativeTo` takes it off again.
What it leaves is a part of the given path, with separators and single dots
removed at its two ends only.

## Main definitions

* `Name`: What an entry of a directory may be called.
* `Component`, `Path.components`: A path for comparison.
* `Step`, `Path.steps`: A path for walking.
* `Path.join`, `Path.relativeTo`, `Path.parent?`: Paths from paths.
* `Path.extension?`: What follows the last dot of the file name.

## Theorems

* `Path.toString_ofString`: A path that is given as text is shown as that text.
* `Path.length_lt_of_parent?`: The parent of a path is shorter, so going from
  parent to parent ends.
-/

namespace Codemod

/-- The byte between the pieces of a path, a slash. -/
@[match_pattern] abbrev slashByte : UInt8 := 0x2F

/-- The byte of a dot. -/
@[match_pattern] abbrev dotByte : UInt8 := 0x2E

/-! ## Names -/

/-- Bytes that can name an entry of a directory. -/
def IsName (s : List UInt8) : Prop :=
  s ≠ [] ∧ s ≠ [dotByte] ∧ s ≠ [dotByte, dotByte] ∧ slashByte ∉ s

instance (s : List UInt8) : Decidable (IsName s) := by unfold IsName; infer_instance

/-- The name of an entry of a directory. -/
structure Name where
  bytes : List UInt8
  isName : IsName bytes
deriving DecidableEq

namespace Name

/-- The name with a given text. -/
def ofString (s : String) (h : IsName (Text.bytes s.toList)) : Name := ⟨_, h⟩

/-- Names are ordered by their bytes. -/
instance : LT Name := ⟨fun a b => a.bytes < b.bytes⟩

instance (a b : Name) : Decidable (a < b) := inferInstanceAs (Decidable (a.bytes < b.bytes))

theorem lt_trans {a b c : Name} (h : a < b) (h' : b < c) : a < c := List.lt_trans h h'

theorem lt_irrefl (a : Name) : ¬a < a := List.lt_irrefl a.bytes

theorem lt_trichotomy (a b : Name) : a < b ∨ a = b ∨ b < a := by
  by_cases hab : a.bytes < b.bytes
  · exact Or.inl hab
  · by_cases hba : b.bytes < a.bytes
    · exact Or.inr (Or.inr hba)
    · refine Or.inr (Or.inl ?_)
      have := List.le_antisymm hba hab
      cases a
      cases b
      simp_all

/-- What follows the last dot of a name, unless that dot is its first byte or
    there is none. -/
def extension? (n : Name) : Option (List UInt8) :=
  match n.bytes.reverse.dropWhile (· ≠ dotByte) with
  | [] | [_] => none
  | _ => some (n.bytes.reverse.takeWhile (· ≠ dotByte)).reverse

end Name

/-! ## Components and steps -/

/-- A part of a path that counts when paths are compared. -/
inductive Component
  /-- The slash that an absolute path starts with. -/
  | root
  /-- The single dot that a relative path may start with. -/
  | current
  | parent
  | name (n : Name)
deriving DecidableEq

/-- The component that a piece of a path stands for, if it counts. -/
def Component.ofPiece? (s : List UInt8) : Option Component :=
  if h : IsName s then some (.name ⟨s, h⟩)
  else if s = [dotByte, dotByte] then some .parent
  else none

/-- What a piece of a path asks of a walk. -/
inductive Step
  | stay
  | up
  | down (n : Name)
deriving DecidableEq

/-- The step that a piece of a path stands for. -/
def Step.ofPiece (s : List UInt8) : Step :=
  if h : IsName s then .down ⟨s, h⟩
  else if s = [dotByte, dotByte] then .up
  else .stay

/-! ## Paths -/

/-- A path, as it was written. -/
structure Path where
  bytes : List UInt8
deriving DecidableEq

namespace Path

/-- The path with a given text. -/
def ofText (t : Text) : Path := ⟨t.bytes⟩

def ofString (s : String) : Path := ofText s.toList

instance : ToString Path := ⟨fun p => String.ofList (lossyText p.bytes)⟩

/-- A path that is given as text is shown as that text. -/
@[simp] theorem toString_ofString (s : String) : toString (ofString s) = s := by
  show String.ofList (lossyText (Text.bytes s.toList)) = s
  rw [lossyText_bytes, String.ofList_toList]

def byteLength (p : Path) : Nat := p.bytes.length

/-- Whether a path starts at the top of the file store. -/
def isAbsolute (p : Path) : Bool := p.bytes.head? = some slashByte

/-- The pieces of bytes between the slashes among them. -/
def pieces : List UInt8 → List (List UInt8)
  | [] => [[]]
  | b :: s =>
    if b = slashByte then [] :: pieces s
    else
      match pieces s with
      | [] => [[b]]
      | piece :: rest => (b :: piece) :: rest

/-- The component that only the start of a path can have, and the bytes behind
    it. -/
def anchor (p : Path) : Option Component × List UInt8 :=
  match p.bytes with
  | slashByte :: s => (some .root, s)
  | [dotByte] => (some .current, [])
  | dotByte :: slashByte :: s => (some .current, slashByte :: s)
  | s => (none, s)

def components (p : Path) : List Component :=
  p.anchor.1.toList ++ (pieces p.anchor.2).filterMap Component.ofPiece?

/-- The steps of a path. A path that ends in a slash ends in a step that stays
    in place. -/
def steps (p : Path) : List Step := (pieces p.bytes).map Step.ofPiece

/-- One path behind another, unless the second is absolute. -/
def join (p q : Path) : Path :=
  if q.isAbsolute then q
  else if p.bytes = [] ∨ p.bytes.getLast? = some slashByte then ⟨p.bytes ++ q.bytes⟩
  else ⟨p.bytes ++ slashByte :: q.bytes⟩

def child (p : Path) (n : Name) : Path := p.join ⟨n.bytes⟩

/-- Bytes without the slashes and single dots before the first component. -/
def dropIdle : List UInt8 → List UInt8
  | slashByte :: s => dropIdle s
  | [dotByte] => []
  | dotByte :: slashByte :: s => dropIdle s
  | s => s

/-- Bytes without the slashes and single dots behind the last component. -/
def dropIdleEnd (s : List UInt8) : List UInt8 := (dropIdle s.reverse).reverse

/-- Bytes without their first `n` components. -/
def dropComponents : Nat → List UInt8 → List UInt8
  | 0, s => dropIdle s
  | n + 1, s => dropComponents n ((dropIdle s).dropWhile (· ≠ slashByte))

/-- Bytes behind an anchor, put together again. -/
def withAnchor (a : Option Component) (s : List UInt8) : Path :=
  match a with
  | some .root => ⟨slashByte :: s⟩
  | some .current => ⟨dotByte :: s⟩
  | _ => ⟨s⟩

/-- A path as seen from `root`: what is left of it behind the components of
    `root`, or the whole path when it does not start with them. -/
def relativeTo (p root : Path) : Path :=
  match root.components with
  | [] => withAnchor p.anchor.1 (dropIdleEnd p.anchor.2)
  | prior =>
    if prior.isPrefixOf p.components then
      ⟨dropIdleEnd (dropComponents (prior.length - p.anchor.1.toList.length) p.anchor.2)⟩
    else p

/-- The path without its last component, if it has one to lose. -/
def parent? (p : Path) : Option Path :=
  match dropIdleEnd p.anchor.2 with
  | [] => if p.anchor.1 = some .current then some ⟨[]⟩ else none
  | s => some (withAnchor p.anchor.1
      (dropIdleEnd (s.reverse.dropWhile (· ≠ slashByte)).reverse))

/-- The name of the file that a path leads to, unless it ends in a double dot
    or has no component. -/
def fileName? (p : Path) : Option Name :=
  match p.components.getLast? with
  | some (.name n) => some n
  | _ => none

/-- The extension of the file that a path leads to. -/
def extension? (p : Path) : Option (List UInt8) := p.fileName?.bind Name.extension?

/-! ## Parents -/

theorem dropIdle_length_le (s : List UInt8) : (dropIdle s).length ≤ s.length := by
  fun_induction dropIdle s <;> simp_all <;> omega

theorem dropIdle_head?_ne (s : List UInt8) : (dropIdle s).head? ≠ some slashByte := by
  fun_induction dropIdle s with
  | case1 s ih => exact ih
  | case2 => simp
  | case3 s ih => exact ih
  | case4 s h => exact fun e => by cases s <;> simp_all

theorem dropIdleEnd_length_le (s : List UInt8) : (dropIdleEnd s).length ≤ s.length := by
  simpa [dropIdleEnd] using dropIdle_length_le s.reverse

/-- The anchor and what is behind it make up the path. -/
theorem length_anchor (p : Path) :
    (withAnchor p.anchor.1 p.anchor.2).bytes.length = p.bytes.length := by
  obtain ⟨s⟩ := p
  fun_cases anchor ⟨s⟩ <;> simp_all [withAnchor]

theorem length_withAnchor_lt (a : Option Component) {s t : List UInt8} (h : s.length < t.length) :
    (withAnchor a s).bytes.length < (withAnchor a t).bytes.length := by
  unfold withAnchor
  split <;> simp [h]

theorem length_lt_of_parent? {p q : Path} (h : p.parent? = some q) :
    q.bytes.length < p.bytes.length := by
  rw [← length_anchor p]
  unfold parent? at h
  split at h
  -- Nothing but a leading dot is there, and it is taken off.
  · split at h
    · rename_i hc
      obtain rfl := Option.some.inj h
      rw [hc]
      simp [withAnchor]
    · simp at h
  -- There is a last component to take off.
  · rename_i s hs
    obtain rfl := Option.some.inj h
    refine length_withAnchor_lt _ ?_
    have h1 := dropIdleEnd_length_le p.anchor.2
    have h2 := dropIdleEnd_length_le
      ((dropIdleEnd p.anchor.2).reverse.dropWhile (· ≠ slashByte)).reverse
    -- Read backwards, the bytes start inside their last component, which goes.
    have h3 : ((dropIdleEnd p.anchor.2).reverse.dropWhile (· ≠ slashByte)).length <
        (dropIdleEnd p.anchor.2).reverse.length := by
      have hh := dropIdle_head?_ne p.anchor.2.reverse
      have hr : (dropIdleEnd p.anchor.2).reverse = dropIdle p.anchor.2.reverse := by
        simp [dropIdleEnd]
      rw [hr]
      cases hd : dropIdle p.anchor.2.reverse with
      | nil =>
          rw [hd] at hr
          simp_all
      | cons c t =>
          rw [hd] at hh
          have hc : c ≠ slashByte := fun e => hh (by rw [e]; rfl)
          have := (List.dropWhile_sublist (p := (· ≠ slashByte)) (l := t)).length_le
          simp [hc] at this ⊢
          omega
    simp only [List.length_reverse] at h2 h3
    omega

end Path

end Codemod
