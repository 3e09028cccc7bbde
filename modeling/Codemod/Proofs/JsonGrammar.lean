import Codemod.Json.Decoding
import Codemod.Proofs.JsonReading

/-!
# The Grammar of JSON

Which texts are JSON and what they say, told without a reader.

A text says the same with blanks between its parts and without them, and with one
escape in place of another. What is left when these are set aside is a document.
The reader of this library finds in each text of the grammar the tree of the
document that the text says, whatever stands behind it, so a fact about documents
is one about all their texts.

The grammar asks no more of a string than JSON does. A code unit that is half a
character may stand alone, and a number may be of any size. Who asks for the value
of such a string or number gets none; who passes over it does not mind.

## Main definitions

* `Document`: What a JSON text says.
* `IsNumber`, `DenotesString`: The numbers and the strings of JSON.
* `Denotes`: The texts of a document.
* `Document.tree`: The tree of a document.

## Theorems

* `IsNumber.scanNumber_append`, `DenotesString.scanString_append`: Reading leaves.
* `reads_array`, `reads_object`: Reading items and members.
* `Denotes.reads`: Reading a text of the grammar.
* `Denotes.pass_tree`: Any JSON can be passed over.
-/

namespace Codemod

namespace Json

/-! ## Documents -/

/-- What a JSON text says, whatever blanks it has and whichever escapes it uses. A
    number keeps its spelling. A string is given by its pieces, which may be halves
    of characters. -/
inductive Document
  | null
  | boolean (value : Bool)
  | number (spelling : Text)
  | string (pieces : List Piece)
  | array (items : List Document)
  | object (members : List (List Piece × Document))

/-! ## Numbers and strings -/

/-- One digit or more. -/
def IsDigits (ds : Text) : Prop := ds ≠ [] ∧ ∀ c ∈ ds, c.isDigit = true

/-- The fraction of a number, which may be missing. -/
inductive IsFraction : Text → Prop
  | none : IsFraction []
  | digits {ds : Text} (h : IsDigits ds) : IsFraction ('.' :: ds)

/-- The exponent of a number, which may be missing. -/
inductive IsExponent : Text → Prop
  | none : IsExponent []
  | digits {e : Char} {sign ds : Text} (he : e = 'e' ∨ e = 'E')
    (hs : sign = [] ∨ sign = ['+'] ∨ sign = ['-']) (h : IsDigits ds) :
    IsExponent (e :: (sign ++ ds))

/-- A number. Only zero itself starts with a zero. -/
inductive IsNumber : Text → Prop
  | parts {minus whole fraction exponent : Text} (hm : minus = [] ∨ minus = ['-'])
    (hw : IsDigits whole) (lead : whole.head? = some '0' → whole = ['0'])
    (hf : IsFraction fraction) (he : IsExponent exponent) :
    IsNumber (minus ++ (whole ++ (fraction ++ exponent)))

/-- The letters that may stand behind a backslash, and what they stand for there. -/
def shortEscapes : List (Char × Char) :=
  [('"', '"'), ('\\', '\\'), ('/', '/'), ('b', '\x08'), ('f', '\x0c'), ('n', '\n'), ('r', '\r'),
    ('t', '\t')]

/-- The texts between two quotes that spell the pieces of a string. -/
inductive DenotesString : Text → List Piece → Prop
  | nil : DenotesString [] []
  | char {c : Char} {s : Text} {ps : List Piece} (hc : 0x20 ≤ c.toNat ∧ c ≠ '"' ∧ c ≠ '\\')
    (h : DenotesString s ps) : DenotesString (c :: s) (.char c :: ps)
  | short {e c : Char} {s : Text} {ps : List Piece} (he : (e, c) ∈ shortEscapes)
    (h : DenotesString s ps) : DenotesString ('\\' :: e :: s) (.char c :: ps)
  | unit {u s : Text} {n : Nat} {ps : List Piece} (hu : unitOf? u = some n)
    (h : DenotesString s ps) : DenotesString ('\\' :: 'u' :: (u ++ s)) (.unit n :: ps)

/-- The pieces pair up into the characters of a text. -/
def IsText (ps : List Piece) (t : Text) : Prop := joinPieces (.ok ()) ps = .ok t

/-! ## Values -/

/-- Texts with commas between them. -/
def separated : List Text → Text
  | [] => []
  | first :: rest => first ++ rest.flatMap (',' :: ·)

/-- A member of an object: its two texts, and what they say. -/
structure Entry where
  keyText : Text
  valueText : Text
  key : List Piece
  value : Document

/-- The text of a member. -/
def Entry.text (x : Entry) : Text := x.keyText ++ ':' :: x.valueText

/-- What a member says. -/
def Entry.member (x : Entry) : List Piece × Document := (x.key, x.value)

/-- The texts of a document. -/
inductive Denotes : Text → Document → Prop
  | null : Denotes "null".toList .null
  | true : Denotes "true".toList (.boolean true)
  | false : Denotes "false".toList (.boolean false)
  | number {s : Text} (h : IsNumber s) : Denotes s (.number s)
  | string {s : Text} {ps : List Piece} (h : DenotesString s ps) :
    Denotes ('"' :: (s ++ ['"'])) (.string ps)
  | array {items : List (Text × Document)} {blanks : Text}
    (h : ∀ x ∈ items, Denotes x.1 x.2) (hb : IsBlank blanks) :
    Denotes ('[' :: (separated (items.map Prod.fst) ++ (blanks ++ [']'])))
      (.array (items.map Prod.snd))
  | object {members : List Entry} {blanks : Text}
    (hkey : ∀ x ∈ members, Denotes x.keyText (.string x.key))
    (h : ∀ x ∈ members, Denotes x.valueText x.value) (hb : IsBlank blanks) :
    Denotes ('{' :: (separated (members.map Entry.text) ++ (blanks ++ ['}'])))
      (.object (members.map Entry.member))
  | blanks {before s behind : Text} {d : Document} (hb : IsBlank before) (h : Denotes s d)
    (hb' : IsBlank behind) : Denotes (before ++ (s ++ behind)) d

/-! ## The tree of a document -/

/-- The tree of the items of an array. -/
def itemsOf : List Tree → Items
  | [] => .close
  | t :: ts => .item t (itemsOf ts)

/-- The tree of the members of an object. -/
def membersOf : List (Leaf Text × Tree) → Members
  | [] => .close
  | (key, t) :: ms => .member key t (membersOf ms)

/-- What a reader of a string gets that is written in pieces. -/
def leafOf (ps : List Piece) : Leaf Text := ⟨joinPieces (.ok ()) ps, .ok ()⟩

mutual

/-- The tree of a document. -/
def Document.tree : Document → Tree
  | .null => .null
  | .boolean b => .boolean b
  | .number spelling => .number (scanNumber spelling).1
  | .string ps => .string (leafOf ps)
  | .array items => .array (itemsOf (Document.trees items))
  | .object members => .object (membersOf (Document.memberTrees members))

def Document.trees : List Document → List Tree
  | [] => []
  | d :: ds => d.tree :: Document.trees ds

def Document.memberTrees : List (List Piece × Document) → List (Leaf Text × Tree)
  | [] => []
  | (ps, d) :: ms => (leafOf ps, d.tree) :: Document.memberTrees ms

end

theorem Document.trees_eq_map (ds : List Document) :
    Document.trees ds = ds.map Document.tree := by
  induction ds with
  | nil => rw [Document.trees, List.map_nil]
  | cons d ds ih => rw [Document.trees, ih, List.map_cons]

theorem Document.memberTrees_eq_map (ms : List (List Piece × Document)) :
    Document.memberTrees ms = ms.map fun m => (leafOf m.1, m.2.tree) := by
  induction ms with
  | nil => rw [Document.memberTrees, List.map_nil]
  | cons m ms ih => rw [Document.memberTrees, ih, List.map_cons]

/-! ## Reading numbers -/

theorem IsExponent.head {exponent rest : Text} (h : IsExponent exponent) (hr : EndsNumber rest) :
    ∀ c, (exponent ++ rest).head? = some c → c.isDigit = false ∧ c ≠ '.' := by
  intro c hc
  cases h with
  | none => exact ⟨(hr c hc).1, (hr c hc).2.1⟩
  | digits he =>
      obtain rfl := Option.some.inj hc
      rcases he with rfl | rfl <;> decide

theorem IsFraction.head {fraction u : Text} (h : IsFraction fraction)
    (hu : ∀ c, u.head? = some c → c.isDigit = false ∧ c ≠ '.') :
    ∀ c, (fraction ++ u).head? = some c → c.isDigit = false := by
  intro c hc
  cases h with
  | none => exact (hu c hc).1
  | digits =>
      obtain rfl := Option.some.inj hc
      rfl

theorem IsFraction.scanFraction_append {fraction : Text} (h : IsFraction fraction) :
    ∃ ds, ∀ u : Text, (∀ c, u.head? = some c → c.isDigit = false ∧ c ≠ '.') →
      scanFraction (fraction ++ u) = .ok (ds, u) := by
  cases h with
  | none =>
      refine ⟨[], fun u hu => ?_⟩
      rw [List.nil_append, scanFraction]
      exact fun s e => (hu '.' (by rw [e]; rfl)).2 rfl
  | @digits ds h =>
      refine ⟨ds, fun u hu => ?_⟩
      rw [List.cons_append, scanFraction]
      exact scanDigits_append h.1 h.2 fun c hc => (hu c hc).1

theorem IsExponent.scanExponent_append {exponent : Text} (h : IsExponent exponent) :
    ∃ x, ∀ rest, EndsNumber rest → scanExponent (exponent ++ rest) = .ok (x, rest) := by
  cases h with
  | none =>
      refine ⟨Option.none, fun rest hr => ?_⟩
      cases rest with
      | nil => rfl
      | cons c rest => rw [List.nil_append, scanExponent, if_neg (not_or.2 (hr c rfl).2.2)]
  | @digits e sign ds he hs h =>
      rcases List.exists_cons_of_ne_nil h.1 with ⟨d, ds', hds⟩
      have hdigit := h.2 d (by rw [hds]; exact List.mem_cons_self)
      have hd : d ≠ '-' ∧ d ≠ '+' := by
        constructor <;> rintro rfl <;> cases hdigit
      have hsign : ∃ b, ∀ rest, scanSign (sign ++ (ds ++ rest)) = (b, ds ++ rest) := by
        rcases hs with rfl | rfl | rfl
        · refine ⟨false, fun rest => ?_⟩
          rw [List.nil_append, hds, List.cons_append, scanSign]
          · exact fun _ e => hd.1 (List.cons.inj e).1
          · exact fun _ e => hd.2 (List.cons.inj e).1
        · exact ⟨false, fun rest => rfl⟩
        · exact ⟨true, fun rest => rfl⟩
      rcases hsign with ⟨b, hsign⟩
      refine ⟨some (b, ds), fun rest hr => ?_⟩
      rw [List.cons_append, scanExponent, if_pos he, List.append_assoc, hsign,
        scanDigits_append h.1 h.2 fun c hc => (hr c hc).1]
      rfl

/-- A number is read to its end. -/
theorem IsNumber.scanNumeral_append {s : Text} (h : IsNumber s) :
    ∃ n, ∀ rest, EndsNumber rest → scanNumeral (s ++ rest) = .ok (n, rest) := by
  cases h with
  | @parts minus whole fraction exponent hm hw lead hf he =>
      rcases hf.scanFraction_append with ⟨fs, hfraction⟩
      rcases he.scanExponent_append with ⟨x, hexponent⟩
      rcases List.exists_cons_of_ne_nil hw.1 with ⟨d, ds, hds⟩
      have hdigit := hw.2 d (by rw [hds]; exact List.mem_cons_self)
      have hd : d ≠ '-' := by
        rintro rfl
        cases hdigit
      have hminus : ∃ b, ∀ u, scanMinus (minus ++ (whole ++ u)) = (b, whole ++ u) := by
        rcases hm with rfl | rfl
        · refine ⟨false, fun u => ?_⟩
          rw [List.nil_append, hds, List.cons_append, scanMinus]
          exact fun _ e => hd (List.cons.inj e).1
        · exact ⟨true, fun u => rfl⟩
      rcases hminus with ⟨b, hminus⟩
      have hlead : ¬(whole.head? = some '0' ∧ whole ≠ ['0']) := fun h => h.2 (lead h.1)
      refine ⟨⟨b, whole, fs, x⟩, fun rest hr => ?_⟩
      have hbehind := he.head hr
      have hdigits := scanDigits_append hw.1 hw.2 (hf.head hbehind)
      simp only [List.append_assoc, scanNumeral, hminus, hdigits, hfraction _ hbehind,
        hexponent rest hr, bind, Except.bind, if_neg hlead]
      rfl

theorem IsNumber.scanNumber_append {s : Text} (h : IsNumber s) :
    (scanNumber s).1.passed = .ok () ∧
      ∀ rest, EndsNumber rest → scanNumber (s ++ rest) = ((scanNumber s).1, rest) := by
  rcases h.scanNumeral_append with ⟨n, hn⟩
  have hwhole := hn [] endsNumber_nil
  rw [List.append_nil] at hwhole
  refine ⟨by rw [scanNumber, hwhole], fun rest hr => ?_⟩
  simp only [scanNumber, hn rest hr, hwhole]

theorem IsNumber.starts {s : Text} (h : IsNumber s) :
    ∃ c t, s = c :: t ∧ (c = '-' ∨ c.isDigit = true) := by
  cases h with
  | @parts minus whole fraction exponent hm hw lead hf he =>
      rcases hm with rfl | rfl
      · rcases List.exists_cons_of_ne_nil hw.1 with ⟨d, ds, rfl⟩
        exact ⟨d, _, rfl, .inr (hw.2 d List.mem_cons_self)⟩
      · exact ⟨'-', _, rfl, .inl rfl⟩

/-! ## Reading strings -/

theorem scanPieces_short {e c : Char} (h : (e, c) ∈ shortEscapes) (t : Text) :
    scanPieces ('\\' :: e :: t) = (.char c :: (scanPieces t).1, (scanPieces t).2) := by
  simp only [shortEscapes, List.mem_cons, Prod.mk.injEq, List.not_mem_nil, or_false] at h
  rcases h with ⟨rfl, rfl⟩ | ⟨rfl, rfl⟩ | ⟨rfl, rfl⟩ | ⟨rfl, rfl⟩ | ⟨rfl, rfl⟩ | ⟨rfl, rfl⟩ |
    ⟨rfl, rfl⟩ | ⟨rfl, rfl⟩ <;> rfl

theorem scanPieces_char {c : Char} (h : 0x20 ≤ c.toNat ∧ c ≠ '"' ∧ c ≠ '\\') (t : Text) :
    scanPieces (c :: t) = (.char c :: (scanPieces t).1, (scanPieces t).2) := by
  rcases h with ⟨hlow, hquote, hslash⟩
  have hlow' : ¬c.toNat < 0x20 := Nat.not_lt.2 hlow
  rw [scanPieces.eq_def]
  simp [hslash, hlow']

theorem DenotesString.scanPieces_append {s : Text} {ps : List Piece} (h : DenotesString s ps)
    (rest : Text) : scanPieces (s ++ '"' :: rest) = (ps, .ok rest) := by
  induction h with
  | nil => rfl
  | char hc _ ih => rw [List.cons_append, scanPieces_char hc, ih]
  | short he _ ih => rw [List.cons_append, List.cons_append, scanPieces_short he, ih]
  | unit hu _ ih =>
      rw [List.cons_append, List.cons_append, List.append_assoc, scanPieces_unit hu, ih]

/-- A string is read to its closing quote, whether its pieces pair up or not. -/
theorem DenotesString.scanString_append {s : Text} {ps : List Piece} (h : DenotesString s ps)
    (rest : Text) : scanString (s ++ '"' :: rest) = (leafOf ps, rest) := by
  simp only [scanString, h.scanPieces_append rest, leafOf]

/-! ## Reading values -/

theorem endsNumber_of_space {c : Char} (h : isSpace c = true) :
    c.isDigit = false ∧ c ≠ '.' ∧ c ≠ 'e' ∧ c ≠ 'E' := by
  simp only [isSpace, Bool.or_eq_true, decide_eq_true_eq] at h
  rcases h with ((rfl | rfl) | rfl) | rfl <;> decide

-- A number ends in front of blanks as it does in front of what stands behind them.
theorem IsBlank.endsNumber_append {blanks rest : Text} (hb : IsBlank blanks)
    (hr : EndsNumber rest) : EndsNumber (blanks ++ rest) := by
  cases blanks with
  | nil => exact hr
  | cons c blanks =>
      rw [List.cons_append]
      exact endsNumber_cons (endsNumber_of_space (hb c List.mem_cons_self)) _

/-- What reading makes of a text of a document, with anything behind it that does not
    go on with a number. -/
structure Reads (s : Text) (d : Document) : Prop where
  starts : ∃ c t, skipSpace s = c :: t ∧ c ≠ ']'
  whole : ∀ rest, EndsNumber rest → ∃ blanks, IsBlank blanks ∧
    (Tree.read (s ++ rest)).Gives d.tree (blanks ++ rest)

theorem isBlank_nil : IsBlank [] := nofun

theorem skipSpace_append_of_cons {s t : Text} {c : Char} (h : skipSpace s = c :: t) (rest : Text) :
    skipSpace (s ++ rest) = c :: (t ++ rest) := by
  rw [skipSpace] at h ⊢
  rw [List.dropWhile_append, h]
  rfl

theorem Reads.of_scalar {s : Text} {d : Document} {c : Char} {t : Text} (hs : s = c :: t)
    (hc : isSpace c = false ∧ c ≠ ']' ∧ c ≠ '[' ∧ c ≠ '{')
    (hscan : ∀ rest, EndsNumber rest → Tree.scanScalar (s ++ rest) = (d.tree, rest)) :
    Reads s d := by
  subst hs
  have hskip : ∀ u, skipSpace (c :: u) = c :: u := skipSpace_of_not_space hc.1
  refine ⟨⟨c, t, hskip t, hc.2.1⟩, fun rest hr => ⟨[], isBlank_nil, ?_⟩⟩
  have hread := Tree.read_of_scalar (s := c :: (t ++ rest))
    (by rw [hskip]; simpa using hc.2.2.1) (by rw [hskip]; simpa using hc.2.2.2)
  rw [hskip, ← List.cons_append, hscan rest hr] at hread
  exact hread

theorem Reads.of_word {w : Text} {c : Char} {t : Text} {d : Document} (hw : w = c :: t)
    (hc : isSpace c = false ∧ c ≠ ']' ∧ c ≠ '[' ∧ c ≠ '{')
    (hscan : ∀ s, Tree.scanScalar (c :: s) = Tree.ofWord t d.tree s) : Reads w d := by
  refine .of_scalar hw hc fun rest _ => ?_
  rw [hw, List.cons_append, hscan, Tree.ofWord, scanWord_append]

theorem reads_number {s : Text} (h : IsNumber s) : Reads s (.number s) := by
  rcases h.starts with ⟨c, t, hs, hc⟩
  have hne : ∀ x : Char, x ≠ '-' → x.isDigit = false → c ≠ x := by
    rintro x hminus hdigit rfl
    rcases hc with hc | hc
    · exact hminus hc
    · rw [hdigit] at hc
      cases hc
  refine .of_scalar hs ⟨by simp [isSpace, hne], hne _ (by decide) rfl, hne _ (by decide) rfl,
    hne _ (by decide) rfl⟩ fun rest hr => ?_
  have hread := h.scanNumber_append.2 rest hr
  rw [hs, List.cons_append] at hread
  rw [hs, List.cons_append, Tree.scanScalar, if_neg (hne '"' (by decide) rfl), if_pos hc, hread]
  rfl

theorem reads_string {s : Text} {ps : List Piece} (h : DenotesString s ps) :
    Reads ('"' :: (s ++ ['"'])) (.string ps) := by
  refine .of_scalar rfl ⟨by decide, by decide, by decide, by decide⟩ fun rest _ => ?_
  rw [List.cons_append, List.append_assoc, List.singleton_append, Tree.scanScalar, if_pos rfl,
    h.scanString_append]
  rfl

theorem Reads.blanks {before s behind : Text} {d : Document} (hb : IsBlank before) (h : Reads s d)
    (hb' : IsBlank behind) : Reads (before ++ (s ++ behind)) d := by
  rcases h.starts with ⟨c, t, hs, hc⟩
  refine ⟨⟨c, t ++ behind, ?_, hc⟩, fun rest hr => ?_⟩
  · rw [skipSpace_append hb, skipSpace_append_of_cons hs]
  · rcases h.whole (behind ++ rest) (hb'.endsNumber_append hr) with ⟨left, hleft, hv, hrest⟩
    have hskip : skipSpace (before ++ (s ++ behind) ++ rest) =
        skipSpace (s ++ (behind ++ rest)) := by
      rw [List.append_assoc, skipSpace_append hb, List.append_assoc]
    rcases Tree.read_of_skipSpace_eq hskip with ⟨hv', hrest'⟩
    refine ⟨left ++ behind, ?_, hv'.trans hv, ?_⟩
    · exact List.forall_mem_append.2 ⟨hleft, hb'⟩
    · rw [hrest', hrest, List.append_assoc]

theorem separated_cons (first : Text) (rest : List Text) :
    separated (first :: rest) = first ++ match rest with
      | [] => []
      | _ => ',' :: separated rest := by
  cases rest with
  | nil => rfl
  | cons second rest => rfl

/-! ### Items -/

-- An item and the first character behind it that is no blank.
theorem Reads.readOn_item {s after rest : Text} {d : Document} {c : Char} (h : Reads s d)
    (hr : EndsNumber after) (hc : skipSpace after = c :: rest) :
    (Items.readOn (s ++ after)).Gives
      (.item d.tree
        (if c = ',' then (Items.readOn rest).value
          else if c = ']' then .close else .fault .malformed))
      (if c = ',' then (Items.readOn rest).rest else if c = ']' then rest else []) := by
  rcases h.whole after hr with ⟨left, hleft, hv, hrest⟩
  have hnext : skipSpace (Tree.read (s ++ after)).rest = c :: rest := by
    rw [hrest, skipSpace_append hleft, hc]
  rcases Items.readOn_of_cons hnext with ⟨hv', hrest'⟩
  exact ⟨hv'.trans (by rw [hv]), hrest'⟩

theorem reads_items {x : Text × Document} {xs : List (Text × Document)}
    (h : ∀ y ∈ x :: xs, Reads y.1 y.2) {blanks : Text} (hb : IsBlank blanks) (rest : Text) :
    (Items.readOn (separated ((x :: xs).map Prod.fst) ++ (blanks ++ ']' :: rest))).Gives
      (itemsOf ((x :: xs).map fun y => y.2.tree)) rest := by
  induction xs generalizing x with
  | nil =>
      have hend : EndsNumber (blanks ++ ']' :: rest) :=
        hb.endsNumber_append (endsNumber_cons (by decide) rest)
      have hclose : skipSpace (blanks ++ ']' :: rest) = ']' :: rest := by
        rw [skipSpace_append hb, skipSpace_of_not_space (by decide)]
      rw [List.map_singleton, separated, List.flatMap_nil, List.append_nil]
      exact (h x List.mem_cons_self).readOn_item hend hclose
  | cons y xs ih =>
      rcases ih fun z hz => h z (List.mem_cons_of_mem x hz) with ⟨hv, hrest⟩
      have hcomma : ∀ u, skipSpace (',' :: u) = ',' :: u := skipSpace_of_not_space (by decide)
      rcases (h x List.mem_cons_self).readOn_item (endsNumber_cons (by decide) _) (hcomma _) with
        ⟨hv', hrest'⟩
      rw [if_pos rfl] at hv' hrest'
      rw [List.map_cons, List.map_cons, separated_cons, List.append_assoc]
      exact ⟨hv'.trans (congrArg _ hv), hrest'.trans hrest⟩

theorem reads_array {items : List (Text × Document)} (h : ∀ x ∈ items, Reads x.1 x.2)
    {blanks : Text} (hb : IsBlank blanks) :
    Reads ('[' :: (separated (items.map Prod.fst) ++ (blanks ++ [']'])))
      (.array (items.map Prod.snd)) := by
  have hopen : ∀ u, skipSpace ('[' :: u) = '[' :: u := skipSpace_of_not_space (by decide)
  refine ⟨⟨'[', _, hopen _, by decide⟩, fun rest hr => ⟨[], isBlank_nil, ?_⟩⟩
  rw [List.cons_append, List.append_assoc, List.append_assoc, List.singleton_append]
  rcases Tree.read_of_bracket (hopen (separated (items.map Prod.fst) ++ (blanks ++ ']' :: rest)))
    with ⟨hv, hrest⟩
  have htree : (Document.array (items.map Prod.snd)).tree =
      .array (itemsOf (items.map fun x => x.2.tree)) := by
    rw [Document.tree, Document.trees_eq_map, List.map_map]
    rfl
  rw [htree]
  cases items with
  | nil =>
      have hclose : skipSpace (separated [] ++ (blanks ++ ']' :: rest)) = ']' :: rest := by
        rw [separated, List.nil_append, skipSpace_append hb, skipSpace_of_not_space (by decide)]
      rcases Items.read_of_bracket hclose with ⟨hv', hrest'⟩
      exact ⟨hv.trans (congrArg _ hv'), hrest.trans hrest'⟩
  | cons x xs =>
      rcases reads_items h hb rest with ⟨hv', hrest'⟩
      rcases (h x List.mem_cons_self).starts with ⟨c, t, hc, hne⟩
      have hread := Items.read_of_ne (s := separated ((x :: xs).map Prod.fst) ++
        (blanks ++ ']' :: rest)) (by
          rw [List.map_cons, separated_cons, List.append_assoc, skipSpace_append_of_cons hc]
          exact fun e => hne (Option.some.inj e))
      rw [hread] at hv hrest
      exact ⟨hv.trans (congrArg _ hv'), hrest.trans hrest'⟩

/-! ### Members -/

-- The text of a string has blanks around it and nothing else.
theorem Denotes.string_parts {k : Text} {ps : List Piece} (h : Denotes k (.string ps)) :
    ∃ before s behind : Text, k = before ++ '"' :: (s ++ '"' :: behind) ∧ IsBlank before ∧
      IsBlank behind ∧ DenotesString s ps := by
  generalize hd : Document.string ps = d at h
  induction h with
  | null | true | false | number | array | object => cases hd
  | @string s qs h =>
      cases hd
      exact ⟨[], s, [], rfl, isBlank_nil, isBlank_nil, h⟩
  | @blanks before s behind d hb _ hb' ih =>
      rcases ih hd with ⟨before', t, behind', rfl, hbefore, hbehind, ht⟩
      refine ⟨before ++ before', t, behind' ++ behind, ?_, List.forall_mem_append.2 ⟨hb, hbefore⟩,
        List.forall_mem_append.2 ⟨hbehind, hb'⟩, ht⟩
      simp only [List.append_assoc, List.cons_append]

-- A member and the first character behind it that is no blank.
theorem Entry.readOn_member {x : Entry} {after rest : Text} {c : Char}
    (hk : Denotes x.keyText (.string x.key)) (h : Reads x.valueText x.value)
    (hr : EndsNumber after) (hc : skipSpace after = c :: rest) :
    (Members.readOn (x.text ++ after)).Gives
      (.member (leafOf x.key) x.value.tree
        (if c = ',' then (Members.readOn rest).value
          else if c = '}' then .close else .fault .malformed))
      (if c = ',' then (Members.readOn rest).rest else if c = '}' then rest else []) := by
  rcases hk.string_parts with ⟨before, s, behind, hkeyText, hbefore, hbehind, hs⟩
  rcases h.whole after hr with ⟨left, hleft, hv, hrest⟩
  have hquote : skipSpace (x.text ++ after) =
      '"' :: (s ++ '"' :: (behind ++ ':' :: (x.valueText ++ after))) := by
    rw [text, hkeyText, List.append_assoc, List.append_assoc, skipSpace_append hbefore,
      List.cons_append, skipSpace_of_not_space (by decide)]
    simp only [List.append_assoc, List.cons_append]
  have hkey := hs.scanString_append (behind ++ ':' :: (x.valueText ++ after))
  have hcolon : skipSpace (behind ++ ':' :: (x.valueText ++ after)) =
      ':' :: (x.valueText ++ after) := by
    rw [skipSpace_append hbehind, skipSpace_of_not_space (by decide)]
  rcases Members.readValue_of_cons hcolon with ⟨hvalue, hbehindValue⟩
  rw [if_pos rfl] at hvalue hbehindValue
  have hnext : skipSpace (Members.readValue
      (scanString (s ++ '"' :: (behind ++ ':' :: (x.valueText ++ after)))).2).rest = c :: rest := by
    rw [hkey, hbehindValue, hrest, skipSpace_append hleft, hc]
  rcases Members.readOn_of_quote_cons hquote hnext with ⟨hv', hrest'⟩
  exact ⟨hv'.trans (by rw [hkey, hvalue, hv]), hrest'⟩

theorem reads_members {x : Entry} {xs : List Entry}
    (hk : ∀ y ∈ x :: xs, Denotes y.keyText (.string y.key))
    (h : ∀ y ∈ x :: xs, Reads y.valueText y.value) {blanks : Text} (hb : IsBlank blanks)
    (rest : Text) :
    (Members.readOn (separated ((x :: xs).map Entry.text) ++ (blanks ++ '}' :: rest))).Gives
      (membersOf ((x :: xs).map fun y => (leafOf y.key, y.value.tree))) rest := by
  have hkey := hk x List.mem_cons_self
  have hvalue := h x List.mem_cons_self
  induction xs generalizing x with
  | nil =>
      have hend : EndsNumber (blanks ++ '}' :: rest) :=
        hb.endsNumber_append (endsNumber_cons (by decide) rest)
      have hclose : skipSpace (blanks ++ '}' :: rest) = '}' :: rest := by
        rw [skipSpace_append hb, skipSpace_of_not_space (by decide)]
      rw [List.map_singleton, separated, List.flatMap_nil, List.append_nil]
      exact x.readOn_member hkey hvalue hend hclose
  | cons y xs ih =>
      rcases ih (fun z hz => hk z (List.mem_cons_of_mem x hz))
        (fun z hz => h z (List.mem_cons_of_mem x hz)) (hk y (by simp)) (h y (by simp)) with
        ⟨hv, hrest⟩
      have hcomma : ∀ u, skipSpace (',' :: u) = ',' :: u := skipSpace_of_not_space (by decide)
      rcases x.readOn_member hkey hvalue (endsNumber_cons (by decide) _) (hcomma _) with
        ⟨hv', hrest'⟩
      rw [if_pos rfl] at hv' hrest'
      rw [List.map_cons, List.map_cons, separated_cons, List.append_assoc]
      exact ⟨hv'.trans (congrArg _ hv), hrest'.trans hrest⟩

theorem reads_object {members : List Entry}
    (hk : ∀ x ∈ members, Denotes x.keyText (.string x.key))
    (h : ∀ x ∈ members, Reads x.valueText x.value) {blanks : Text} (hb : IsBlank blanks) :
    Reads ('{' :: (separated (members.map Entry.text) ++ (blanks ++ ['}'])))
      (.object (members.map Entry.member)) := by
  have hopen : ∀ u, skipSpace ('{' :: u) = '{' :: u := skipSpace_of_not_space (by decide)
  refine ⟨⟨'{', _, hopen _, by decide⟩, fun rest hr => ⟨[], isBlank_nil, ?_⟩⟩
  rw [List.cons_append, List.append_assoc, List.append_assoc, List.singleton_append]
  rcases Tree.read_of_brace (hopen (separated (members.map Entry.text) ++ (blanks ++ '}' :: rest)))
    with ⟨hv, hrest⟩
  have htree : (Document.object (members.map Entry.member)).tree =
      .object (membersOf (members.map fun x => (leafOf x.key, x.value.tree))) := by
    rw [Document.tree, Document.memberTrees_eq_map, List.map_map]
    rfl
  rw [htree]
  cases members with
  | nil =>
      have hclose : skipSpace (separated [] ++ (blanks ++ '}' :: rest)) = '}' :: rest := by
        rw [separated, List.nil_append, skipSpace_append hb, skipSpace_of_not_space (by decide)]
      rcases Members.read_of_brace hclose with ⟨hv', hrest'⟩
      exact ⟨hv.trans (congrArg _ hv'), hrest.trans hrest'⟩
  | cons x xs =>
      rcases reads_members hk h hb rest with ⟨hv', hrest'⟩
      rcases (hk x List.mem_cons_self).string_parts with ⟨before, s, behind, hx, hbefore, -, -⟩
      have hread := Members.read_of_ne (s := separated ((x :: xs).map Entry.text) ++
        (blanks ++ '}' :: rest)) (by
          rw [List.map_cons, separated_cons, Entry.text, hx]
          simp only [List.append_assoc]
          rw [skipSpace_append hbefore, List.cons_append, skipSpace_of_not_space (by decide)]
          exact fun e => absurd (Option.some.inj e) (by decide))
      rw [hread] at hv hrest
      exact ⟨hv.trans (congrArg _ hv'), hrest.trans hrest'⟩

/-! ### Documents -/

/-- A text of the grammar is read as the document that it says, whatever stands behind
    it. -/
theorem Denotes.reads {s : Text} {d : Document} (h : Denotes s d) : Reads s d := by
  induction h with
  | null =>
      exact .of_word (t := "ull".toList) rfl ⟨by decide, by decide, by decide, by decide⟩
        fun _ => rfl
  | true =>
      exact .of_word (t := "rue".toList) rfl ⟨by decide, by decide, by decide, by decide⟩
        fun _ => rfl
  | false =>
      exact .of_word (t := "alse".toList) rfl ⟨by decide, by decide, by decide, by decide⟩
        fun _ => rfl
  | number h => exact reads_number h
  | string h => exact reads_string h
  | array _ hb ih => exact reads_array ih hb
  | object hkey _ hb _ ih => exact reads_object hkey ih hb
  | blanks hb _ hb' ih => exact ih.blanks hb hb'

/-- A text of the grammar by itself. -/
theorem Denotes.read {s : Text} {d : Document} (h : Denotes s d) :
    ∃ blanks, IsBlank blanks ∧ (Tree.read s).Gives d.tree blanks := by
  rcases h.reads.whole [] endsNumber_nil with ⟨blanks, hb, hgives⟩
  rw [List.append_nil, List.append_nil] at hgives
  exact ⟨blanks, hb, hgives⟩

/-! ## Passing over documents -/

theorem pass_itemsOf_iff {ts : List Tree} :
    (itemsOf ts).pass = .ok () ↔ ∀ t ∈ ts, t.pass = .ok () := by
  induction ts with
  | nil => exact ⟨fun _ => nofun, fun _ => rfl⟩
  | cons t ts ih =>
      rw [itemsOf, Items.pass, List.forall_mem_cons, ← ih]
      cases t.pass with
      | error f => exact ⟨nofun, fun h => nomatch h.1⟩
      | ok u => exact ⟨fun h => ⟨rfl, h⟩, And.right⟩

theorem pass_membersOf_iff {ms : List (Leaf Text × Tree)} (h : ∀ m ∈ ms, m.1.passed = .ok ()) :
    (membersOf ms).pass = .ok () ↔ ∀ m ∈ ms, m.2.pass = .ok () := by
  induction ms with
  | nil => exact ⟨fun _ => nofun, fun _ => rfl⟩
  | cons m ms ih =>
      rcases m with ⟨key, t⟩
      have hkey := h (key, t) List.mem_cons_self
      rw [membersOf, Members.pass, hkey, List.forall_mem_cons,
        ← ih fun n hn => h n (List.mem_cons_of_mem _ hn)]
      cases t.pass with
      | error f => exact ⟨nofun, fun h => nomatch h.1⟩
      | ok u => exact ⟨fun h => ⟨rfl, h⟩, And.right⟩

theorem Document.pass_array_iff {ds : List Document} :
    (Document.array ds).tree.pass = .ok () ↔ ∀ d ∈ ds, d.tree.pass = .ok () := by
  rw [Document.tree, Document.trees_eq_map, Tree.pass, pass_itemsOf_iff, List.forall_mem_map]

theorem Document.pass_object_iff {ms : List (List Piece × Document)} :
    (Document.object ms).tree.pass = .ok () ↔ ∀ m ∈ ms, m.2.tree.pass = .ok () := by
  rw [Document.tree, Document.memberTrees_eq_map, Tree.pass,
    pass_membersOf_iff (List.forall_mem_map.2 fun _ _ => rfl), List.forall_mem_map]

/-- Whatever is JSON can be passed over, halves of characters and numbers of any size
    included. -/
theorem Denotes.pass_tree {s : Text} {d : Document} (h : Denotes s d) : d.tree.pass = .ok () := by
  induction h with
  | null | true | false => rfl
  | number h => exact h.scanNumber_append.1
  | string => rfl
  | array _ _ ih => exact Document.pass_array_iff.2 (List.forall_mem_map.2 ih)
  | object _ _ _ _ ih => exact Document.pass_object_iff.2 (List.forall_mem_map.2 ih)
  | blanks _ _ _ ih => exact ih

end Json

end Codemod
