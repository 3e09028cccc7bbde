import Codemod.Json.Lexeme

/-!
# JSON Texts as Trees

A text is read into a tree before anything asks what the tree should look like.
The text need not be JSON: where it stops being JSON, the tree holds the fault
in the place of what should stand there, and nothing behind that place is
looked at. A reader that walks the tree from left to right therefore meets the
first problem of the text first, be it a fault of the text or a shape that the
reader did not ask for.

The reading of a value returns what is left of the text together with the fact
that it is no longer than before; a comma or a bracket in between makes it
shorter, so the recursion is on the length of the text.

## Main definitions

* `Tree`, `Items`, `Members`: The tree of a text, with its faults.
* `Reading`: Something read from a text, and the text that is left.
* `Tree.scanScalar`: A value without items or members.
* `Tree.read`: The tree of the value that a text starts with.
-/

namespace Codemod

namespace Json

mutual

/-- A value as it stands in a text. -/
inductive Tree
  | null
  | boolean (value : Bool)
  | number (leaf : Leaf Numeral)
  | string (leaf : Leaf Text)
  | array (items : Items)
  | object (members : Members)
  | fault (f : Fault)

/-- The items of an array from some point on. -/
inductive Items
  | close
  | item (value : Tree) (rest : Items)
  | fault (f : Fault)

/-- The members of an object from some point on. -/
inductive Members
  | close
  | member (key : Leaf Text) (value : Tree) (rest : Members)
  | fault (f : Fault)

end

/-- Something read from a text, and the text that is left. -/
structure Reading (α : Type) (s : Text) where
  value : α
  rest : Text
  length_le : rest.length ≤ s.length

/-- The value that the rest of a word stands for. -/
def Tree.ofWord (word : Text) (value : Tree) (s : Text) : Tree × Text :=
  match scanWord word s with
  | .ok rest => (value, rest)
  | .error f => (.fault f, [])

/-- A value without items or members. -/
def Tree.scanScalar (s : Text) : Tree × Text :=
  match s with
  | [] => (.fault .ended, [])
  | c :: t =>
    if c = '"' then let (leaf, rest) := scanString t; (.string leaf, rest)
    else if c = '-' ∨ c.isDigit then let (leaf, rest) := scanNumber s; (.number leaf, rest)
    else if c = 'n' then Tree.ofWord "ull".toList .null t
    else if c = 't' then Tree.ofWord "rue".toList (.boolean true) t
    else if c = 'f' then Tree.ofWord "alse".toList (.boolean false) t
    else (.fault .malformed, [])

theorem Tree.length_ofWord_le (word : Text) (value : Tree) (s : Text) :
    (Tree.ofWord word value s).2.length ≤ s.length := by
  rw [Tree.ofWord]
  split
  · rename_i rest h
    exact length_le_of_scanWord h
  · simp

theorem Tree.length_scanScalar_le (s : Text) : (Tree.scanScalar s).2.length ≤ s.length := by
  unfold Tree.scanScalar
  split
  · simp
  · rename_i c t
    have := length_scanString_le t
    have := length_scanNumber_le (c :: t)
    have := Tree.length_ofWord_le "ull".toList .null t
    have := Tree.length_ofWord_le "rue".toList (.boolean true) t
    have := Tree.length_ofWord_le "alse".toList (.boolean false) t
    simp only [List.length_cons] at *
    split
    · exact Nat.le_succ_of_le ‹_›
    · split
      · assumption
      · split
        · omega
        · split
          · omega
          · split
            · omega
            · simp

/-- The reading of a value without items or members. -/
def Tree.readScalar (s : Text) : Reading Tree s :=
  ⟨(Tree.scanScalar s).1, (Tree.scanScalar s).2, Tree.length_scanScalar_le s⟩

mutual

/-- Reads the value that a text starts with, blanks before it allowed. -/
def Tree.read (s : Text) : Reading Tree s :=
  match h : skipSpace s with
  | '[' :: t =>
    have := length_lt_of_skipSpace h
    let r := Items.read t
    ⟨.array r.value, r.rest, Nat.le_of_lt (Nat.lt_of_le_of_lt r.length_le this)⟩
  | '{' :: t =>
    have := length_lt_of_skipSpace h
    let r := Members.read t
    ⟨.object r.value, r.rest, Nat.le_of_lt (Nat.lt_of_le_of_lt r.length_le this)⟩
  | t =>
    let r := Tree.readScalar t
    ⟨r.value, r.rest, Nat.le_trans r.length_le (h ▸ length_skipSpace_le s)⟩
termination_by 5 * s.length

/-- Reads the items of an array from behind its opening bracket. -/
def Items.read (s : Text) : Reading Items s :=
  match h : skipSpace s with
  | ']' :: t => ⟨.close, t, Nat.le_of_lt (length_lt_of_skipSpace h)⟩
  | _ => Items.readOn s
termination_by 5 * s.length + 2

def Items.readOn (s : Text) : Reading Items s :=
  let r := Tree.read s
  match h : skipSpace r.rest with
  | [] => ⟨.item r.value (.fault .ended), [], Nat.zero_le _⟩
  | c :: t =>
    have : t.length < s.length := Nat.lt_of_lt_of_le (length_lt_of_skipSpace h) r.length_le
    if c = ',' then
      let q := Items.readOn t
      ⟨.item r.value q.value, q.rest, Nat.le_of_lt (Nat.lt_of_le_of_lt q.length_le this)⟩
    else if c = ']' then ⟨.item r.value .close, t, Nat.le_of_lt this⟩
    else ⟨.item r.value (.fault .malformed), [], Nat.zero_le _⟩
termination_by 5 * s.length + 1

/-- Reads the members of an object from behind its opening brace. -/
def Members.read (s : Text) : Reading Members s :=
  match h : skipSpace s with
  | '}' :: t => ⟨.close, t, Nat.le_of_lt (length_lt_of_skipSpace h)⟩
  | _ => Members.readOn s
termination_by 5 * s.length + 4

/-- Reads the value of a member from behind its key. -/
def Members.readValue (s : Text) : Reading Tree s :=
  match h : skipSpace s with
  | [] => ⟨.fault .ended, [], Nat.zero_le _⟩
  | c :: t =>
    have := length_lt_of_skipSpace h
    if c = ':' then
      let r := Tree.read t
      ⟨r.value, r.rest, Nat.le_of_lt (Nat.lt_of_le_of_lt r.length_le this)⟩
    else ⟨.fault .malformed, [], Nat.zero_le _⟩
termination_by 5 * s.length + 1

def Members.readOn (s : Text) : Reading Members s :=
  match h : skipSpace s with
  | [] => ⟨.fault .ended, [], Nat.zero_le _⟩
  | c :: t =>
    have ht := length_lt_of_skipSpace h
    have hkey := length_scanString_le t
    if c = '"' then
      let r := Members.readValue (scanString t).2
      match h' : skipSpace r.rest with
      | [] => ⟨.member (scanString t).1 r.value (.fault .ended), [], Nat.zero_le _⟩
      | d :: u =>
        have hu : u.length < s.length :=
          Nat.lt_trans (Nat.lt_of_lt_of_le (length_lt_of_skipSpace h') r.length_le)
            (Nat.lt_of_le_of_lt hkey ht)
        if d = ',' then
          let q := Members.readOn u
          ⟨.member (scanString t).1 r.value q.value, q.rest,
            Nat.le_of_lt (Nat.lt_of_le_of_lt q.length_le hu)⟩
        else if d = '}' then ⟨.member (scanString t).1 r.value .close, u, Nat.le_of_lt hu⟩
        else ⟨.member (scanString t).1 r.value (.fault .malformed), [], Nat.zero_le _⟩
    else ⟨.fault .malformed, [], Nat.zero_le _⟩
termination_by 5 * s.length + 3

end

end Json

end Codemod
