import Codemod.Proofs.JsonLeaves

/-!
# Reading JSON Back

The layout of a JSON value, read back: the whole of it, and any part that it
breaks off to.

Arrays and objects add nothing to strings and numbers but brackets, commas and
blanks, so the induction follows the value. What it carries is `ReadsBack`, the
statement on the whole layout together with the one on its parts: an array that
breaks off in its third item has its first two items whole.

A layout that breaks off is read as a tree with its fault at the very end. Which
trees these are is said by `Cut`, again along the value, so that a reader of
trees can be followed without another look at the text.

## Main definitions

* `tree`: The tree of a value.
* `IsCounted`: All numbers of a value fit in 64 bits.
* `Cut`: The trees of a value that breaks off.
* `ReadsBack`: What reading makes of a layout and of its parts.

## Theorems

* `readsBack`: Reading a value back.
-/

namespace Codemod

namespace Json

mutual

/-- The tree of a value that is written and read back. -/
def tree : Json → Tree
  | .null => .null
  | .boolean b => .boolean b
  | .number spelling => .number (scanNumber spelling).1
  | .string value => .string ⟨.ok value, .ok ()⟩
  | .array items => .array (itemsTree items)
  | .object members => .object (membersTree members)

def itemsTree : List Json → Items
  | [] => .close
  | item :: rest => .item (tree item) (itemsTree rest)

def membersTree : List (Text × Json) → Members
  | [] => .close
  | (key, value) :: rest => .member ⟨.ok key, .ok ()⟩ (tree value) (membersTree rest)

end

mutual

/-- All numbers of a value are natural ones that fit in 64 bits. -/
def IsCounted : Json → Prop
  | .number spelling => IsCount spelling
  | .array items => ItemsCounted items
  | .object members => MembersCounted members
  | _ => True

def ItemsCounted : List Json → Prop
  | [] => True
  | item :: rest => IsCounted item ∧ ItemsCounted rest

def MembersCounted : List (Text × Json) → Prop
  | [] => True
  | (_, value) :: rest => IsCounted value ∧ MembersCounted rest

end

mutual

/-- The trees of a value that breaks off. -/
inductive Cut : Json → Tree → Prop
  | ended (v : Json) : Cut v (.fault .ended)
  /-- Fewer digits are a number, too. -/
  | number {spelling ds : Text} (h : IsCount ds) :
    Cut (.number spelling) (.number ⟨.ok ⟨false, ds, [], none⟩, .ok ()⟩)
  | string (value : Text) : Cut (.string value) (.string ⟨.error .ended, .error .ended⟩)
  | array {vs : List Json} {items : Items} (h : ItemsCut vs items) : Cut (.array vs) (.array items)
  | object {ms : List (Text × Json)} {members : Members} (h : MembersCut ms members) :
    Cut (.object ms) (.object members)

/-- The items of an array that breaks off. -/
inductive ItemsCut : List Json → Items → Prop
  | ended (vs : List Json) : ItemsCut vs (.fault .ended)
  /-- Behind the bracket of an empty array an item could still follow. -/
  | opened : ItemsCut [] (.item (.fault .ended) (.fault .ended))
  | within {v : Json} {t : Tree} (vs : List Json) (h : Cut v t) :
    ItemsCut (v :: vs) (.item t (.fault .ended))
  | behind (v : Json) {vs : List Json} {items : Items} (h : ItemsCut vs items) :
    ItemsCut (v :: vs) (.item v.tree items)

/-- The members of an object that breaks off. -/
inductive MembersCut : List (Text × Json) → Members → Prop
  | ended (ms : List (Text × Json)) : MembersCut ms (.fault .ended)
  | key (m : Text × Json) (ms : List (Text × Json)) (t : Tree) (rest : Members) :
    MembersCut (m :: ms) (.member ⟨.error .ended, .error .ended⟩ t rest)
  | within (key : Text) {v : Json} {t : Tree} (ms : List (Text × Json)) (h : Cut v t) :
    MembersCut ((key, v) :: ms) (.member ⟨.ok key, .ok ()⟩ t (.fault .ended))
  | behind (key : Text) (v : Json) {ms : List (Text × Json)} {members : Members}
    (h : MembersCut ms members) :
    MembersCut ((key, v) :: ms) (.member ⟨.ok key, .ok ()⟩ v.tree members)

end

/-- What reading makes of the layout of a value and of its parts. -/
structure ReadsBack (depth : Nat) (v : Json) : Prop where
  starts : ∃ c t, prettyAt depth v = c :: t ∧ isSpace c = false ∧ c ≠ ']'
  whole : ∀ rest, EndsNumber rest → (Tree.read (prettyAt depth v ++ rest)).Gives v.tree rest
  cut : ∀ s u, prettyAt depth v = s ++ u → u ≠ [] → ∃ t, (Tree.read s).Gives t [] ∧ Cut v t

theorem EndsNumber.of_append {s u : Text} (h : EndsNumber (s ++ u)) : EndsNumber s := by
  intro c hc
  apply h
  rw [List.head?_append, hc]
  rfl

theorem endsNumber_cons {c : Char} (h : c.isDigit = false ∧ c ≠ '.' ∧ c ≠ 'e' ∧ c ≠ 'E')
    (s : Text) : EndsNumber (c :: s) := by
  intro d hd
  cases hd
  exact h

theorem read_nil : (Tree.read []).Gives (.fault .ended) [] :=
  Tree.read_of_scalar (s := []) (by decide) (by decide)

theorem read_of_isBlank {s : Text} (h : IsBlank s) : (Tree.read s).Gives (.fault .ended) [] := by
  have hskip : skipSpace s = skipSpace [] := h.skipSpace
  rcases Tree.read_of_skipSpace_eq hskip with ⟨hv, hr⟩
  exact ⟨hv.trans read_nil.1, hr.trans read_nil.2⟩

/-! ## A value among blanks -/

section Blanks

variable {depth : Nat} {v : Json} {blanks after s u : Text}

theorem ReadsBack.read_whole (h : ReadsBack depth v) (hb : IsBlank blanks)
    (he : EndsNumber after) :
    (Tree.read (blanks ++ (prettyAt depth v ++ after))).Gives v.tree after := by
  rcases Tree.read_of_skipSpace_eq (skipSpace_append hb (prettyAt depth v ++ after)) with ⟨hv, hr⟩
  rcases h.whole after he with ⟨hv', hr'⟩
  exact ⟨hv.trans hv', hr.trans hr'⟩

/-- A text that breaks off in a value or behind it. -/
theorem ReadsBack.read_cut (h : ReadsBack depth v) (hb : IsBlank blanks) (he : EndsNumber after)
    (hs : blanks ++ (prettyAt depth v ++ after) = s ++ u) :
    (∃ t, (Tree.read s).Gives t [] ∧ Cut v t) ∨
      ∃ after', (Tree.read s).Gives v.tree after' ∧ after = after' ++ u := by
  rcases append_or_cut hs with ⟨s₁, rfl, hs₁⟩ | ⟨b, -, rfl⟩
  · rcases Tree.read_of_skipSpace_eq (skipSpace_append hb s₁) with ⟨hv, hr⟩
    rcases append_or_cut hs₁ with ⟨s₂, rfl, rfl⟩ | ⟨a, ha, hpart⟩
    · rcases h.whole s₂ he.of_append with ⟨hv', hr'⟩
      exact .inr ⟨s₂, ⟨hv.trans hv', hr.trans hr'⟩, rfl⟩
    · rcases h.cut s₁ a hpart ha with ⟨t, ⟨hv', hr'⟩, ht⟩
      exact .inl ⟨t, ⟨hv.trans hv', hr.trans hr'⟩, ht⟩
  · exact .inl ⟨_, read_of_isBlank hb.of_append, .ended v⟩

end Blanks

/-! ## What stands behind an item -/

/-- The layout of an array or an object from behind its first item on. -/
def behind (depth outer : Nat) (closer : Char) (items : List Text) : Text :=
  items.flatMap (fun item => ',' :: newLine depth ++ item) ++ newLine outer ++ [closer]

theorem bracketed_cons (opener closer : Char) (depth : Nat) (first : Text) (rest : List Text) :
    bracketed opener closer depth (first :: rest) =
      opener :: (newLine (depth + 1) ++ (first ++ behind (depth + 1) depth closer rest)) := by
  simp [bracketed, behind]

theorem behind_cons (depth outer : Nat) (closer : Char) (item : Text) (rest : List Text) :
    behind depth outer closer (item :: rest) =
      ',' :: (newLine depth ++ (item ++ behind depth outer closer rest)) := by
  simp [behind]

theorem skipSpace_behind_nil (depth outer : Nat) {closer : Char} (h : isSpace closer = false)
    (rest : Text) : skipSpace (behind depth outer closer [] ++ rest) = closer :: rest := by
  rw [behind, List.flatMap_nil, List.nil_append, List.append_assoc,
    skipSpace_append (isBlank_newLine outer), List.singleton_append, skipSpace_of_not_space h]

theorem skipSpace_behind_cons (depth outer : Nat) (closer : Char) (item : Text) (items : List Text)
    (rest : Text) : skipSpace (behind depth outer closer (item :: items) ++ rest) =
      ',' :: (newLine depth ++ (item ++ (behind depth outer closer items ++ rest))) := by
  rw [behind_cons, List.cons_append, skipSpace_of_not_space (by decide), List.append_assoc,
    List.append_assoc]

theorem endsNumber_behind (depth outer : Nat) (closer : Char) (items : List Text) (rest : Text) :
    EndsNumber (behind depth outer closer items ++ rest) := by
  cases items with
  | nil => exact endsNumber_cons (by decide) _
  | cons => exact endsNumber_cons (by decide) _

/-- Behind an item, a text breaks off among blanks or in a later item. -/
theorem behind_cut {depth outer : Nat} {closer : Char} {items : List Text} {s u : Text}
    (h : behind depth outer closer items = s ++ u) (hu : u ≠ []) :
    skipSpace s = [] ∨ ∃ item rest t, items = item :: rest ∧ s = ',' :: t ∧
      newLine depth ++ (item ++ behind depth outer closer rest) = t ++ u := by
  cases items with
  | nil =>
      left
      rw [behind, List.flatMap_nil, List.nil_append] at h
      rcases append_or_cut h with ⟨t, rfl, ht⟩ | ⟨b, -, hb⟩
      · rcases List.append_eq_cons_iff.1 ht.symm with ⟨rfl, -⟩ | ⟨t', rfl, ht'⟩
        · rw [skipSpace_append (isBlank_newLine outer)]
          rfl
        · exact absurd (List.append_eq_nil_iff.1 ht'.symm).2 hu
      · exact (hb ▸ isBlank_newLine outer).of_append.skipSpace
  | cons item rest =>
      rw [behind_cons] at h
      rcases List.append_eq_cons_iff.1 h.symm with ⟨rfl, -⟩ | ⟨t, rfl, ht⟩
      · exact .inl rfl
      · exact .inr ⟨item, rest, t, rfl, rfl, ht⟩

theorem endsNumber_behind_nil (depth outer : Nat) (closer : Char) (items : List Text) :
    EndsNumber (behind depth outer closer items) :=
  EndsNumber.of_append (endsNumber_behind depth outer closer items [])

/-! ## Items -/

section Items

variable {depth outer : Nat} {v : Json}

-- An item and the first character behind it.
theorem readOn_item (h : ReadsBack depth v) {after rest : Text} {d : Char}
    (he : EndsNumber after) (hd : skipSpace after = d :: rest) :
    (Items.readOn (newLine depth ++ (prettyAt depth v ++ after))).Gives
      (.item v.tree
        (if d = ',' then (Items.readOn rest).value
          else if d = ']' then .close else .fault .malformed))
      (if d = ',' then (Items.readOn rest).rest else if d = ']' then rest else []) := by
  rcases h.read_whole (isBlank_newLine depth) he with ⟨hv, hr⟩
  rw [← hr] at hd
  rcases Items.readOn_of_cons hd with ⟨hv', hr'⟩
  exact ⟨hv'.trans (by rw [hv]), hr'⟩

theorem readOn_items (outer : Nat) {vs : List Json} (h : ∀ w ∈ v :: vs, ReadsBack depth w)
    (rest : Text) :
    (Items.readOn (newLine depth ++ (prettyAt depth v ++
      (behind depth outer ']' (prettyItems depth vs) ++ rest)))).Gives
        (itemsTree (v :: vs)) rest := by
  induction vs generalizing v with
  | nil =>
      exact readOn_item (h v List.mem_cons_self) (endsNumber_behind depth outer ']' [] rest)
        (skipSpace_behind_nil depth outer (by decide) rest)
  | cons w vs ih =>
      rcases ih fun x hx => h x (List.mem_cons_of_mem v hx) with ⟨hvs, hrs⟩
      have hcomma := skipSpace_behind_cons depth outer ']' (prettyAt depth w) (prettyItems depth vs)
        rest
      rcases readOn_item (h v List.mem_cons_self) (endsNumber_behind depth outer ']' _ rest)
        hcomma with ⟨hv, hr⟩
      exact ⟨hv.trans (by rw [if_pos rfl, hvs]; rfl), hr.trans (by rw [if_pos rfl, hrs])⟩

-- Items that break off in the first of them or among the blanks behind it, or
-- else further on.
theorem readOn_item_cut (h : ReadsBack depth v) {items : List Text} {s u : Text} (hu : u ≠ [])
    (hs : newLine depth ++ (prettyAt depth v ++ behind depth outer ']' items) = s ++ u) :
    (∃ is, (Items.readOn s).Gives is [] ∧ ∀ vs, ItemsCut (v :: vs) is) ∨
      ∃ item rest t, items = item :: rest ∧
        newLine depth ++ (item ++ behind depth outer ']' rest) = t ++ u ∧
        (Items.readOn s).Gives (.item v.tree (Items.readOn t).value) (Items.readOn t).rest := by
  rcases h.read_cut (isBlank_newLine depth) (endsNumber_behind_nil depth outer ']' items) hs with
    ⟨t, ⟨hv, hr⟩, ht⟩ | ⟨after, ⟨hv, hr⟩, hafter⟩
  · have hnil : skipSpace (Tree.read s).rest = [] := by rw [hr]; rfl
    exact .inl ⟨_, Items.readOn_of_nil hnil, fun vs => by rw [hv]; exact .within vs ht⟩
  · rcases behind_cut hafter hu with hnil | ⟨item, rest, t, hitems, rfl, ht⟩
    · rw [← hr] at hnil
      exact .inl ⟨_, Items.readOn_of_nil hnil, fun vs => by rw [hv]; exact .behind v (.ended vs)⟩
    · have hcomma : skipSpace (Tree.read s).rest = ',' :: t := by
        rw [hr, skipSpace_of_not_space (by decide)]
      rcases Items.readOn_of_cons hcomma with ⟨hv', hr'⟩
      rw [hv, if_pos rfl] at hv'
      rw [if_pos rfl] at hr'
      exact .inr ⟨item, rest, t, hitems, ht, hv', hr'⟩

theorem readOn_items_cut {vs : List Json} (h : ∀ w ∈ v :: vs, ReadsBack depth w) {s u : Text}
    (hu : u ≠ [])
    (hs : newLine depth ++ (prettyAt depth v ++ behind depth outer ']' (prettyItems depth vs)) =
      s ++ u) :
    ∃ items, (Items.readOn s).Gives items [] ∧ ItemsCut (v :: vs) items := by
  induction vs generalizing v s with
  | nil =>
      rcases readOn_item_cut (h v List.mem_cons_self) hu hs with
        ⟨items, hg, hcut⟩ | ⟨_, _, _, hnil, -, -⟩
      · exact ⟨items, hg, hcut []⟩
      · cases hnil
  | cons w vs ih =>
      rcases readOn_item_cut (h v List.mem_cons_self) hu hs with
        ⟨items, hg, hcut⟩ | ⟨_, _, t, hcons, ht, hv, hr⟩
      · exact ⟨items, hg, hcut (w :: vs)⟩
      · cases hcons
        rcases ih (fun x hx => h x (List.mem_cons_of_mem v hx)) ht with ⟨items, ⟨hvs, hrs⟩, hcut⟩
        exact ⟨.item v.tree items, ⟨by rw [hv, hvs], hr.trans hrs⟩, .behind v hcut⟩

end Items

/-! ## Members -/

section Members

variable {depth outer : Nat} {v : Json}

/-- The layout of a member. -/
def memberText (depth : Nat) (key : Text) (v : Json) : Text :=
  quote key ++ ": ".toList ++ prettyAt depth v

theorem memberText_append (depth : Nat) (key : Text) (v : Json) (after : Text) :
    memberText depth key v ++ after =
      '"' :: ((key.flatMap escape ++ ['"']) ++
        (':' :: ([' '] ++ (prettyAt depth v ++ after)))) := by
  simp [memberText, quote]

theorem isBlank_space : IsBlank [' '] := by
  intro c hc
  cases List.mem_singleton.1 hc
  rfl

-- A member and the first character behind it.
theorem readOn_member (key : Text) (h : ReadsBack depth v) {after rest : Text} {d : Char}
    (he : EndsNumber after) (hd : skipSpace after = d :: rest) :
    (Members.readOn (newLine depth ++ (memberText depth key v ++ after))).Gives
      (.member ⟨.ok key, .ok ()⟩ v.tree
        (if d = ',' then (Members.readOn rest).value
          else if d = '}' then .close else .fault .malformed))
      (if d = ',' then (Members.readOn rest).rest else if d = '}' then rest else []) := by
  have hquote : skipSpace (newLine depth ++ (memberText depth key v ++ after)) =
      '"' :: (key.flatMap escape ++ '"' :: ':' :: ([' '] ++ (prettyAt depth v ++ after))) := by
    rw [skipSpace_append (isBlank_newLine depth), memberText_append,
      skipSpace_of_not_space (by decide), List.append_assoc, List.singleton_append]
  have hkey := scanString_quoted key (':' :: ([' '] ++ (prettyAt depth v ++ after)))
  have hvalue : (Members.readValue (':' :: ([' '] ++ (prettyAt depth v ++ after)))).Gives
      v.tree after := by
    rcases h.read_whole isBlank_space he with ⟨hv, hr⟩
    rcases Members.readValue_of_cons (skipSpace_of_not_space (c := ':') (by decide) _) with
      ⟨hv', hr'⟩
    exact ⟨hv'.trans (by rw [if_pos rfl, hv]), hr'.trans (by rw [if_pos rfl, hr])⟩
  rcases Members.readOn_of_quote_cons hquote (by rw [hkey, hvalue.2, hd]) with ⟨hv, hr⟩
  exact ⟨hv.trans (by rw [hkey, hvalue.1]), hr⟩

theorem readOn_members (outer : Nat) (key : Text) {ms : List (Text × Json)} (h : ReadsBack depth v)
    (hms : ∀ m ∈ ms, ReadsBack depth m.2) (rest : Text) :
    (Members.readOn (newLine depth ++ (memberText depth key v ++
      (behind depth outer '}' (prettyMembers depth ms) ++ rest)))).Gives
        (membersTree ((key, v) :: ms)) rest := by
  induction ms generalizing key v with
  | nil =>
      exact readOn_member key h (endsNumber_behind depth outer '}' [] rest)
        (skipSpace_behind_nil depth outer (by decide) rest)
  | cons m ms ih =>
      rcases ih m.1 (hms m List.mem_cons_self)
        (fun x hx => hms x (List.mem_cons_of_mem m hx)) with ⟨hvs, hrs⟩
      have hcomma := skipSpace_behind_cons depth outer '}' (memberText depth m.1 m.2)
        (prettyMembers depth ms) rest
      rcases readOn_member key h (endsNumber_behind depth outer '}' _ rest) hcomma with
        ⟨hv, hr⟩
      exact ⟨hv.trans (by rw [if_pos rfl, hvs]; rfl), hr.trans (by rw [if_pos rfl, hrs])⟩

-- The value of a member that breaks off in it or before it, or else behind it.
theorem readValue_cut (h : ReadsBack depth v) {after s u : Text} (he : EndsNumber after)
    (hs : ':' :: ([' '] ++ (prettyAt depth v ++ after)) = s ++ u) :
    (∃ t, (Members.readValue s).Gives t [] ∧ Cut v t) ∨
      ∃ after', (Members.readValue s).Gives v.tree after' ∧ after = after' ++ u := by
  rcases List.append_eq_cons_iff.1 hs.symm with ⟨rfl, -⟩ | ⟨s', rfl, hs'⟩
  · exact .inl ⟨_, Members.readValue_of_nil rfl, .ended v⟩
  · rcases Members.readValue_of_cons (skipSpace_of_not_space (c := ':') (by decide) s') with
      ⟨hv, hr⟩
    rw [if_pos rfl] at hv hr
    rcases h.read_cut isBlank_space he hs' with ⟨t, ⟨hv', hr'⟩, ht⟩ | ⟨after', ⟨hv', hr'⟩, hafter⟩
    · exact .inl ⟨t, ⟨hv.trans hv', hr.trans hr'⟩, ht⟩
    · exact .inr ⟨after', ⟨hv.trans hv', hr.trans hr'⟩, hafter⟩

-- Members that break off in the first of them or among the blanks behind it,
-- or else further on.
theorem readOn_member_cut (key : Text) (h : ReadsBack depth v) {items : List Text} {s u : Text}
    (hu : u ≠ [])
    (hs : newLine depth ++ (memberText depth key v ++ behind depth outer '}' items) = s ++ u) :
    (∃ members, (Members.readOn s).Gives members [] ∧ ∀ ms, MembersCut ((key, v) :: ms) members) ∨
      ∃ item rest t, items = item :: rest ∧
        newLine depth ++ (item ++ behind depth outer '}' rest) = t ++ u ∧
        (Members.readOn s).Gives
          (.member ⟨.ok key, .ok ()⟩ v.tree (Members.readOn t).value) (Members.readOn t).rest := by
  rcases append_or_cut hs with ⟨s₁, rfl, hs₁⟩ | ⟨b, -, hb⟩
  · rw [memberText_append] at hs₁
    rcases List.append_eq_cons_iff.1 hs₁.symm with ⟨rfl, -⟩ | ⟨s₂, rfl, hs₂⟩
    · have hnil : skipSpace (newLine depth ++ []) = [] :=
        skipSpace_append (isBlank_newLine depth) []
      exact .inl ⟨_, Members.readOn_of_nil hnil, fun ms => .ended _⟩
    · have hquote : skipSpace (newLine depth ++ '"' :: s₂) = '"' :: s₂ := by
        rw [skipSpace_append (isBlank_newLine depth), skipSpace_of_not_space (by decide)]
      rcases append_or_cut hs₂ with ⟨s₃, rfl, hs₃⟩ | ⟨a, ha, hpart⟩
      · have hkey := scanString_quoted key s₃
        rw [List.append_assoc, List.singleton_append] at hquote ⊢
        rcases readValue_cut h (endsNumber_behind_nil depth outer '}' items) hs₃ with
          ⟨t, ⟨hv, hr⟩, ht⟩ | ⟨after, ⟨hv, hr⟩, hafter⟩
        · refine .inl ⟨_, Members.readOn_of_quote_nil hquote (by rw [hkey, hr]; rfl), fun ms => ?_⟩
          rw [hkey, hv]
          exact .within key ms ht
        · rcases behind_cut hafter hu with hnil | ⟨item, rest, t, hitems, rfl, ht⟩
          · refine .inl ⟨_, Members.readOn_of_quote_nil hquote (by rw [hkey, hr, hnil]),
              fun ms => ?_⟩
            rw [hkey, hv]
            exact .behind key v (.ended ms)
          · rcases Members.readOn_of_quote_cons (d := ',') (u := t) hquote
              (by rw [hkey, hr, skipSpace_of_not_space (by decide)]) with ⟨hv', hr'⟩
            rw [hkey, hv, if_pos rfl] at hv'
            rw [if_pos rfl] at hr'
            exact .inr ⟨item, rest, t, hitems, ht, hv', hr'⟩
      · have hkey := scanString_cut hpart ha
        rcases Members.readValue_of_nil (s := (scanString s₂).2) (by rw [hkey]; rfl) with ⟨-, hr⟩
        refine .inl ⟨_, Members.readOn_of_quote_nil hquote (by rw [hr]; rfl), fun ms => ?_⟩
        rw [hkey]
        exact .key (key, v) ms _ _
  · have hnil : skipSpace s = [] := (hb ▸ isBlank_newLine depth).of_append.skipSpace
    exact .inl ⟨_, Members.readOn_of_nil hnil, fun ms => .ended _⟩

theorem readOn_members_cut (key : Text) {ms : List (Text × Json)} (h : ReadsBack depth v)
    (hms : ∀ m ∈ ms, ReadsBack depth m.2) {s u : Text} (hu : u ≠ [])
    (hs : newLine depth ++
      (memberText depth key v ++ behind depth outer '}' (prettyMembers depth ms)) = s ++ u) :
    ∃ members, (Members.readOn s).Gives members [] ∧ MembersCut ((key, v) :: ms) members := by
  induction ms generalizing key v s with
  | nil =>
      rcases readOn_member_cut key h hu hs with ⟨members, hg, hcut⟩ | ⟨_, _, _, hnil, -, -⟩
      · exact ⟨members, hg, hcut []⟩
      · cases hnil
  | cons m ms ih =>
      rcases readOn_member_cut key h hu hs with ⟨members, hg, hcut⟩ | ⟨_, _, t, hcons, ht, hv, hr⟩
      · exact ⟨members, hg, hcut (m :: ms)⟩
      · cases hcons
        rcases ih m.1 (hms m List.mem_cons_self) (fun x hx => hms x (List.mem_cons_of_mem m hx)) ht
          with ⟨members, ⟨hvs, hrs⟩, hcut⟩
        exact ⟨.member ⟨.ok key, .ok ()⟩ v.tree members, ⟨by rw [hv, hvs], hr.trans hrs⟩,
          .behind key v hcut⟩

end Members

/-! ## Values -/

theorem ReadsBack.of_cons {depth : Nat} {v : Json} {c : Char} {w : Text}
    (hp : prettyAt depth v = c :: w) (hc : isSpace c = false ∧ c ≠ ']')
    (whole : ∀ rest, EndsNumber rest → (Tree.read (c :: (w ++ rest))).Gives v.tree rest)
    (cut : ∀ s u, w = s ++ u → u ≠ [] → ∃ t, (Tree.read (c :: s)).Gives t [] ∧ Cut v t) :
    ReadsBack depth v := by
  refine ⟨⟨c, w, hp, hc⟩, fun rest he => ?_, fun s u hs hu => ?_⟩
  · rw [hp]
    exact whole rest he
  · rw [hp] at hs
    rcases List.append_eq_cons_iff.1 hs.symm with ⟨rfl, -⟩ | ⟨s', rfl, hs'⟩
    · exact ⟨_, read_nil, .ended v⟩
    · exact cut s' u hs' hu

theorem ReadsBack.of_scalar {depth : Nat} {v : Json} {c : Char} {w : Text}
    (hp : prettyAt depth v = c :: w) (hc : isSpace c = false ∧ c ≠ ']' ∧ c ≠ '[' ∧ c ≠ '{')
    (whole : ∀ rest, EndsNumber rest → Tree.scanScalar (c :: (w ++ rest)) = (v.tree, rest))
    (cut : ∀ s u, w = s ++ u → u ≠ [] → ∃ t, Tree.scanScalar (c :: s) = (t, []) ∧ Cut v t) :
    ReadsBack depth v := by
  have hscalar : ∀ s t rest, Tree.scanScalar (c :: s) = (t, rest) →
      (Tree.read (c :: s)).Gives t rest := by
    intro s t rest h
    have hskip : skipSpace (c :: s) = c :: s := skipSpace_of_not_space hc.1 s
    have := Tree.read_of_scalar (s := c :: s) (by rw [hskip]; simpa using hc.2.2.1)
      (by rw [hskip]; simpa using hc.2.2.2)
    rwa [hskip, h] at this
  refine .of_cons hp ⟨hc.1, hc.2.1⟩ (fun rest he => hscalar _ _ _ (whole rest he))
    fun s u hs hu => ?_
  rcases cut s u hs hu with ⟨t, ht, hv⟩
  exact ⟨t, hscalar _ _ _ ht, hv⟩

-- A word that breaks off is an early end.
theorem scanWord_append (w s : Text) : scanWord w (w ++ s) = .ok s := by
  induction w with
  | nil => rw [List.nil_append, scanWord]
  | cons c w ih => rw [List.cons_append, scanWord, if_pos rfl, ih]

theorem scanWord_cut {w s u : Text} (h : w = s ++ u) (hu : u ≠ []) :
    scanWord w s = .error .ended := by
  subst h
  induction s with
  | nil =>
      rcases List.exists_cons_of_ne_nil hu with ⟨c, u, rfl⟩
      rw [List.nil_append, scanWord]
  | cons c s ih => rw [List.cons_append, scanWord, if_pos rfl, ih]

theorem ReadsBack.of_word {depth : Nat} {v : Json} {c : Char} {w : Text}
    (hp : prettyAt depth v = c :: w) (hc : isSpace c = false ∧ c ≠ ']' ∧ c ≠ '[' ∧ c ≠ '{')
    (hw : ∀ s, Tree.scanScalar (c :: s) = Tree.ofWord w v.tree s) : ReadsBack depth v := by
  refine .of_scalar hp hc (fun rest _ => ?_) fun s u hs hu => ⟨.fault .ended, ?_, .ended v⟩
  · rw [hw, Tree.ofWord, scanWord_append]
  · rw [hw, Tree.ofWord, scanWord_cut hs hu]

theorem readsBack_number {spelling : Text} (h : IsCount spelling) (depth : Nat) :
    ReadsBack depth (.number spelling) := by
  rcases List.exists_cons_of_ne_nil h.ne_nil with ⟨d, ds, rfl⟩
  have hd := h.digits d List.mem_cons_self
  have hne : ∀ c, c.isDigit = false → d ≠ c := fun c hc e => by rw [e, hc] at hd; cases hd
  have hscan : ∀ s, Tree.scanScalar (d :: s) =
      (.number (scanNumber (d :: s)).1, (scanNumber (d :: s)).2) := by
    intro s
    rw [Tree.scanScalar, if_neg (hne '"' (by decide)), if_pos (.inr hd)]
  refine .of_scalar rfl ⟨by simp [isSpace, hne], hne _ (by decide), hne _ (by decide),
    hne _ (by decide)⟩ (fun rest he => ?_) fun s u hs hu => ?_
  · rw [hscan, ← List.cons_append, tree, scanNumber_of_isCount h he, scanNumber_of_isCount_nil h]
  · have hcount : IsCount (d :: s) :=
      IsCount.of_append (u := u) (by rw [List.cons_append, ← hs]; exact h) (List.cons_ne_nil d s)
    rw [hscan, scanNumber_of_isCount_nil hcount]
    exact ⟨_, rfl, .number hcount⟩

theorem readsBack_string (value : Text) (depth : Nat) : ReadsBack depth (.string value) := by
  have hscan : ∀ s, Tree.scanScalar ('"' :: s) = (.string (scanString s).1, (scanString s).2) :=
    fun s => by rw [Tree.scanScalar, if_pos rfl]
  refine .of_scalar (w := value.flatMap escape ++ ['"']) rfl
    ⟨by decide, by decide, by decide, by decide⟩ (fun rest _ => ?_)
    fun s u hs hu => ⟨_, ?_, .string value⟩
  · rw [hscan, List.append_assoc, List.singleton_append, scanString_quoted, tree]
  · rw [hscan, scanString_cut hs hu]

-- The first character of a layout tells that it does not close the array or
-- object that it stands in.
theorem head?_skipSpace_ne {blanks s t u : Text} {c d : Char} (hb : IsBlank blanks)
    (hc : isSpace c = false) (hd : c ≠ d) (h : blanks ++ c :: t = s ++ u) :
    (skipSpace s).head? ≠ some d := by
  rcases append_or_cut h with ⟨s', rfl, hs'⟩ | ⟨b, -, rfl⟩
  · rw [skipSpace_append hb]
    rcases List.append_eq_cons_iff.1 hs'.symm with ⟨rfl, -⟩ | ⟨s'', rfl, -⟩
    · exact nofun
    · rw [skipSpace_of_not_space hc]
      exact fun e => hd (Option.some.inj e)
  · rw [hb.of_append.skipSpace]
    exact nofun

theorem readsBack_array {items : List Json} {depth : Nat}
    (h : ∀ w ∈ items, ReadsBack (depth + 1) w) : ReadsBack depth (.array items) := by
  have hread : ∀ s,
      (Tree.read ('[' :: s)).Gives (.array (Items.read s).value) (Items.read s).rest :=
    fun s => Tree.read_of_bracket (skipSpace_of_not_space (by decide) s)
  cases items with
  | nil =>
      refine .of_cons (w := [']']) rfl ⟨by decide, by decide⟩ (fun rest _ => ?_) fun s u hs hu => ?_
      · rcases Items.read_of_bracket (skipSpace_of_not_space (c := ']') (by decide) rest) with
          ⟨hv, hr⟩
        rcases hread (']' :: rest) with ⟨hv', hr'⟩
        exact ⟨hv'.trans (by rw [hv]; rfl), hr'.trans hr⟩
      · rcases List.append_eq_cons_iff.1 hs.symm with ⟨rfl, -⟩ | ⟨s', rfl, hs'⟩
        · rcases Items.readOn_of_nil (s := []) (by rw [read_nil.2]; rfl) with ⟨hv, hr⟩
          rcases hread [] with ⟨hv', hr'⟩
          rw [Items.read_of_ne (by exact nofun)] at hv' hr'
          exact ⟨_, ⟨hv'.trans (by rw [hv, read_nil.1]), hr'.trans hr⟩, .array .opened⟩
        · exact absurd (List.append_eq_nil_iff.1 hs'.symm).2 hu
  | cons v vs =>
      rcases (h v List.mem_cons_self).starts with ⟨c, t, hp, hspace, hbracket⟩
      have hreadOn : ∀ s u after,
          newLine (depth + 1) ++ (prettyAt (depth + 1) v ++ after) = s ++ u →
            Items.read s = Items.readOn s := by
        intro s u after hs
        rw [hp] at hs
        exact Items.read_of_ne (head?_skipSpace_ne (isBlank_newLine _) hspace hbracket hs)
      refine .of_cons (bracketed_cons '[' ']' depth _ _) ⟨by decide, by decide⟩ (fun rest _ => ?_)
        fun s u hs hu => ?_
      · rcases readOn_items depth h rest with ⟨hv, hr⟩
        rw [List.append_assoc, List.append_assoc]
        rcases hread _ with ⟨hv', hr'⟩
        rw [hreadOn _ [] _ (List.append_nil _).symm] at hv' hr'
        exact ⟨hv'.trans (by rw [hv]; rfl), hr'.trans hr⟩
      · rcases readOn_items_cut h hu hs with ⟨items, ⟨hv, hr⟩, hcut⟩
        rcases hread s with ⟨hv', hr'⟩
        rw [hreadOn s u _ hs] at hv' hr'
        exact ⟨_, ⟨hv'.trans (by rw [hv]), hr'.trans hr⟩, .array hcut⟩

theorem readsBack_object {ms : List (Text × Json)} {depth : Nat}
    (h : ∀ m ∈ ms, ReadsBack (depth + 1) m.2) : ReadsBack depth (.object ms) := by
  have hread : ∀ s, (Tree.read ('{' :: s)).Gives (.object (Members.read s).value)
      (Members.read s).rest :=
    fun s => Tree.read_of_brace (skipSpace_of_not_space (by decide) s)
  cases ms with
  | nil =>
      refine .of_cons (w := ['}']) rfl ⟨by decide, by decide⟩ (fun rest _ => ?_) fun s u hs hu => ?_
      · rcases Members.read_of_brace (skipSpace_of_not_space (c := '}') (by decide) rest) with
          ⟨hv, hr⟩
        rcases hread ('}' :: rest) with ⟨hv', hr'⟩
        exact ⟨hv'.trans (by rw [hv]; rfl), hr'.trans hr⟩
      · rcases List.append_eq_cons_iff.1 hs.symm with ⟨rfl, -⟩ | ⟨s', rfl, hs'⟩
        · rcases Members.readOn_of_nil (s := []) rfl with ⟨hv, hr⟩
          rcases hread [] with ⟨hv', hr'⟩
          rw [Members.read_of_ne (by exact nofun)] at hv' hr'
          exact ⟨_, ⟨hv'.trans (by rw [hv]), hr'.trans hr⟩, .object (.ended [])⟩
        · exact absurd (List.append_eq_nil_iff.1 hs'.symm).2 hu
  | cons m ms =>
      rcases m with ⟨key, v⟩
      have hv := h (key, v) List.mem_cons_self
      have hms : ∀ m ∈ ms, ReadsBack (depth + 1) m.2 := fun m hm => h m (List.mem_cons_of_mem _ hm)
      have hreadOn : ∀ s u after,
          newLine (depth + 1) ++ (memberText (depth + 1) key v ++ after) = s ++ u →
            Members.read s = Members.readOn s := by
        intro s u after hs
        rw [memberText_append] at hs
        exact Members.read_of_ne
          (head?_skipSpace_ne (isBlank_newLine _) (by decide) (by decide) hs)
      refine .of_cons (bracketed_cons '{' '}' depth _ _) ⟨by decide, by decide⟩ (fun rest _ => ?_)
        fun s u hs hu => ?_
      · rcases readOn_members depth key hv hms rest with ⟨hvs, hrs⟩
        rw [List.append_assoc, List.append_assoc]
        rcases hread _ with ⟨hv', hr'⟩
        rw [hreadOn _ [] _ (List.append_nil _).symm] at hv' hr'
        exact ⟨hv'.trans (by rw [hvs]; rfl), hr'.trans hrs⟩
      · rcases readOn_members_cut key hv hms hu hs with ⟨members, ⟨hvs, hrs⟩, hcut⟩
        rcases hread s with ⟨hv', hr'⟩
        rw [hreadOn s u _ hs] at hv' hr'
        exact ⟨_, ⟨hv'.trans (by rw [hvs]), hr'.trans hrs⟩, .object hcut⟩

mutual

/-- A value whose numbers fit in 64 bits is read back, and where its layout
    breaks off, reading meets the end of the text. -/
theorem readsBack : ∀ v : Json, v.IsCounted → ∀ depth, ReadsBack depth v
  | .null, _, depth =>
    .of_word (w := "ull".toList) rfl ⟨by decide, by decide, by decide, by decide⟩ fun _ => rfl
  | .boolean true, _, depth =>
    .of_word (w := "rue".toList) rfl ⟨by decide, by decide, by decide, by decide⟩ fun _ => rfl
  | .boolean false, _, depth =>
    .of_word (w := "alse".toList) rfl ⟨by decide, by decide, by decide, by decide⟩ fun _ => rfl
  | .number _, h, depth => readsBack_number h depth
  | .string value, _, depth => readsBack_string value depth
  | .array items, h, depth => readsBack_array (readsBack_items items h (depth + 1))
  | .object members, h, depth => readsBack_object (readsBack_members members h (depth + 1))

theorem readsBack_items : ∀ vs : List Json, ItemsCounted vs → ∀ depth, ∀ v ∈ vs, ReadsBack depth v
  | [], _, _, _, hv => nomatch hv
  | v :: vs, h, depth, w, hw =>
    (List.mem_cons.1 hw).elim (fun e => e ▸ readsBack v h.1 depth)
      (readsBack_items vs h.2 depth w)

theorem readsBack_members : ∀ ms : List (Text × Json), MembersCounted ms →
    ∀ depth, ∀ m ∈ ms, ReadsBack depth m.2
  | [], _, _, _, hm => nomatch hm
  | (_, v) :: ms, h, depth, m, hm =>
    (List.mem_cons.1 hm).elim (fun e => e ▸ readsBack v h.1 depth)
      (readsBack_members ms h.2 depth m)

end

end Json

end Codemod
