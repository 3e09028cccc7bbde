import Codemod.Proofs.Bytes
import Codemod.Proofs.Components
import Codemod.Proofs.Selections

/-!
# Paths Shown as Text

What a reader can tell from a path that is shown.

Nothing that is shown in the place of other bytes goes across a slash, because a
slash belongs to no other character, and none is shown that is not there. So a
path is shown piece by piece: its slashes stay, and each of its names is shown
for itself. A piece that says nothing about a component, or stands for the
parent, is shown as it is.

Read as components, a path that is shown is therefore the path itself exactly
when it is text. There is one name for each name, and a name that is no text is
shown as another one.

## Main definitions

* `shownBytes`: The bytes of what bytes are shown as.

## Theorems

* `shownBytes_append_slash`, `Path.pieces_shownBytes`: Bytes shown piece by piece.
* `Path.parts_shownBytes_eq_iff`: The components of what is shown.
* `Path.components_join_shown_iff`: A path behind another, shown or not.
-/

namespace Codemod

/-! ## Slashes -/

-- All bytes of a longer character are above those of ASCII.
theorem not_slashByte_mem_utf8EncodeChar {c : Char} {b : UInt8} {bs : List UInt8}
    (h : String.utf8EncodeChar c = b :: bs) : slashByte ∉ bs := by
  rcases utf8EncodeChar_eq_cons c with ⟨_, _, hbytes, -, hbs⟩
  obtain ⟨rfl, rfl⟩ := List.cons.inj (h.symm.trans hbytes)
  exact fun hmem => absurd (hbs _ hmem) (by decide)

-- Whether bytes begin with a character does not depend on what stands behind a
-- slash, unless they begin with the slash.
theorem firstChar?_append_slash {a : List UInt8} (ha : a ≠ []) (b : List UInt8) :
    firstChar? (a ++ slashByte :: b) = firstChar? a := by
  cases hfirst : firstChar? a with
  | some c =>
      rcases eq_append_of_firstChar? hfirst with ⟨rest, rfl⟩
      rw [List.append_assoc, firstChar?_append]
  | none =>
      have hnot : ∀ c rest, a ≠ String.utf8EncodeChar c ++ rest := by
        rintro c rest rfl
        rw [firstChar?_append] at hfirst
        cases hfirst
      refine Option.eq_none_iff_forall_ne_some.2 fun c hc => ?_
      rcases eq_append_of_firstChar? hc with ⟨rest, hrest⟩
      rcases List.append_eq_append_iff.1 hrest with ⟨as, hchar, has⟩ | ⟨as, rfl, -⟩
      · cases as with
        | nil => exact hnot c [] (by rw [hchar, List.append_nil, List.append_nil])
        | cons x as =>
            -- The slash would be among the bytes that go on with the character.
            obtain ⟨rfl, -⟩ := List.cons.inj has
            obtain ⟨y, ys, rfl⟩ := List.exists_cons_of_ne_nil ha
            exact not_slashByte_mem_utf8EncodeChar hchar (by simp)
      · exact hnot c as rfl

-- A slash goes on with nothing.
theorem begun_append_slash (lead : UInt8) (a b : List UInt8) :
    begun lead (a ++ slashByte :: b) = begun lead a := by
  have hcontinues : isContinuation slashByte = false := by decide
  have hgoes : goesOn lead slashByte = false := by
    rw [goesOn, hcontinues, Bool.and_false]
    split_ifs <;> decide
  rcases a with _ | ⟨x, _ | ⟨y, a⟩⟩
  · cases b <;> simp [begun, hgoes]
  · simp [begun, hcontinues]
  · rfl

theorem begun_le_length (lead : UInt8) (bs : List UInt8) : begun lead bs ≤ bs.length := by
  fun_cases begun lead bs <;> simp

theorem utf8Size_le_of_firstChar? {b : UInt8} {bs : List UInt8} {c : Char}
    (h : firstChar? (b :: bs) = some c) : c.utf8Size - 1 ≤ bs.length := by
  rcases eq_append_of_firstChar? h with ⟨rest, hrest⟩
  have hlength := congrArg List.length hrest
  rw [List.length_append, String.length_utf8EncodeChar, List.length_cons] at hlength
  omega

theorem lossyFrom_append_slash {k : Nat} {a : List UInt8} (hk : k ≤ a.length) (b : List UInt8) :
    lossyFrom k (a ++ slashByte :: b) = lossyFrom k a ++ '/' :: lossyText b := by
  induction a generalizing k with
  | nil =>
      obtain rfl : k = 0 := Nat.le_zero.1 hk
      exact lossyText_append '/' b
  | cons x a ih =>
      cases k with
      | succ k => exact ih (Nat.le_of_succ_le_succ hk)
      | zero =>
          have hfirst := firstChar?_append_slash (List.cons_ne_nil x a) b
          rw [List.cons_append] at hfirst
          rw [List.cons_append, lossyFrom, lossyFrom, hfirst]
          split
          · rw [ih (utf8Size_le_of_firstChar? ‹_›)]
            rfl
          · rw [begun_append_slash, ih (begun_le_length x a)]
            rfl

/-! ## Bytes shown -/

/-- The bytes of what bytes are shown as. -/
def shownBytes (bs : List UInt8) : List UInt8 := (lossyText bs).bytes

theorem isUnicode_iff_shownBytes {bs : List UInt8} : IsUnicode bs ↔ shownBytes bs = bs :=
  isUnicode_iff

/-- What stands on either side of a slash is shown for itself. -/
theorem shownBytes_append_slash (a b : List UInt8) :
    shownBytes (a ++ slashByte :: b) = shownBytes a ++ slashByte :: shownBytes b := by
  have hslash : String.utf8EncodeChar '/' = [slashByte] := by decide
  rw [shownBytes, lossyText, lossyFrom_append_slash (Nat.zero_le _), Text.bytes_append,
    Text.bytes_cons, hslash]
  rfl

-- What is shown was there, or takes the place of what was.
theorem mem_lossyFrom {c : Char} {k : Nat} {bs : List UInt8} (h : c ∈ lossyFrom k bs) :
    c = replacementChar ∨ ∀ b ∈ String.utf8EncodeChar c, b ∈ bs := by
  induction bs generalizing k with
  | nil => cases k <;> cases h
  | cons x bs ih =>
      have hrest : ∀ {k}, c ∈ lossyFrom k bs →
          c = replacementChar ∨ ∀ b ∈ String.utf8EncodeChar c, b ∈ x :: bs := fun h =>
        (ih h).imp_right fun hall b hb => List.mem_cons_of_mem x (hall b hb)
      cases k with
      | succ k => exact hrest h
      | zero =>
          rw [lossyFrom] at h
          split at h
          · rcases List.mem_cons.1 h with rfl | h
            · rcases eq_append_of_firstChar? ‹_› with ⟨rest, hbytes⟩
              rw [hbytes]
              exact .inr fun b hb => List.mem_append_left rest hb
            · exact hrest h
          · rcases List.mem_cons.1 h with rfl | h
            · exact .inl rfl
            · exact hrest h

theorem slashByte_mem_shownBytes {bs : List UInt8} (h : slashByte ∈ shownBytes bs) :
    slashByte ∈ bs := by
  -- A slash among the bytes of a text is a character of the text.
  have hmem : '/' ∈ lossyText bs := by
    have hcount := Text.count_bytes (d := '/') (by decide) (lossyText bs)
    exact List.count_pos_iff.1 (hcount ▸ List.count_pos_iff.2 h)
  rcases mem_lossyFrom hmem with hchar | hall
  · exact absurd hchar (by decide)
  · exact hall slashByte (by decide)

namespace Path

/-! ## Pieces shown -/

/-- Bytes without a slash, and such bytes in front of a slash, make up all bytes. -/
theorem pieces_induction {motive : List UInt8 → Prop}
    (piece : ∀ a, slashByte ∉ a → motive a)
    (append : ∀ a b, slashByte ∉ a → motive b → motive (a ++ slashByte :: b)) (s : List UInt8) :
    motive s := by
  induction hn : s.length using Nat.strongRecOn generalizing s with
  | ind n ih =>
      by_cases hs : slashByte ∈ s
      · rcases List.eq_append_cons_of_mem hs with ⟨a, b, rfl, ha⟩
        refine append a b ha (ih b.length ?_ b rfl)
        rw [← hn, List.length_append, List.length_cons]
        omega
      · exact piece s hs

theorem pieces_shownBytes (s : List UInt8) : pieces (shownBytes s) = (pieces s).map shownBytes := by
  induction s using pieces_induction with
  | piece a ha =>
      rw [pieces_of_not_mem ha, pieces_of_not_mem (mt slashByte_mem_shownBytes ha)]
      rfl
  | append a b ha ih =>
      rw [shownBytes_append_slash, pieces_append_slash, pieces_append_slash, ih,
        pieces_of_not_mem ha, pieces_of_not_mem (mt slashByte_mem_shownBytes ha)]
      rfl

theorem slashByte_not_mem_of_mem_pieces {s x : List UInt8} (hx : x ∈ pieces s) : slashByte ∉ x := by
  induction s using pieces_induction with
  | piece a ha =>
      rw [pieces_of_not_mem ha] at hx
      exact List.mem_singleton.1 hx ▸ ha
  | append a b ha ih =>
      rw [pieces_append_slash, pieces_of_not_mem ha] at hx
      rcases List.mem_cons.1 hx with rfl | hx
      · exact ha
      · exact ih hx

/-- Bytes are text when all their pieces are. -/
theorem isUnicode_iff_pieces {s : List UInt8} : IsUnicode s ↔ ∀ x ∈ pieces s, IsUnicode x := by
  induction s using pieces_induction with
  | piece a ha => simp [pieces_of_not_mem ha]
  | append a b ha ih =>
      rw [pieces_append_slash, pieces_of_not_mem ha, List.singleton_append, List.forall_mem_cons,
        ← ih, isUnicode_iff_shownBytes, isUnicode_iff_shownBytes, isUnicode_iff_shownBytes,
        shownBytes_append_slash]
      constructor
      · intro hsame
        -- The first pieces of both sides end at the first slash.
        have hpieces := congrArg pieces hsame
        rw [pieces_append_slash, pieces_append_slash, pieces_of_not_mem ha,
          pieces_of_not_mem (mt slashByte_mem_shownBytes ha)] at hpieces
        have hfirst : shownBytes a = a := (List.cons.inj hpieces).1
        rw [hfirst] at hsame
        exact ⟨hfirst, (List.cons.inj (List.append_cancel_left hsame)).2⟩
      · rintro ⟨hfirst, hrest⟩
        rw [hfirst, hrest]

/-! ## Components shown -/

-- A piece that is no name is shown as it is.
theorem isUnicode_of_not_isName {x : List UInt8} (hx : slashByte ∉ x) (hname : ¬IsName x) :
    IsUnicode x := by
  have hcases : x = [] ∨ x = [dotByte] ∨ x = [dotByte, dotByte] := by
    simp only [IsName, hx, not_false_eq_true, and_true, not_and_or, not_not] at hname
    exact hname
  rcases hcases with rfl | rfl | rfl
  · exact ⟨[], rfl⟩
  · exact ⟨['.'], by decide⟩
  · exact ⟨['.', '.'], by decide⟩

theorem ofPiece?_shownBytes_eq_iff {x : List UInt8} (hx : slashByte ∉ x) :
    Component.ofPiece? (shownBytes x) = Component.ofPiece? x ↔ IsUnicode x := by
  rw [isUnicode_iff_shownBytes]
  refine ⟨fun hsame => ?_, congrArg _⟩
  by_cases hname : IsName x
  · rw [Component.ofPiece?, Component.ofPiece?, dif_pos hname] at hsame
    split at hsame
    · exact congrArg Name.bytes (Component.name.inj (Option.some.inj hsame))
    · split at hsame <;> cases hsame
  · exact isUnicode_iff_shownBytes.1 (isUnicode_of_not_isName hx hname)

theorem ofPiece?_shownBytes_eq_none {x : List UInt8} (hx : slashByte ∉ x)
    (h : Component.ofPiece? x = none) : Component.ofPiece? (shownBytes x) = none := by
  have hname : ¬IsName x := fun hname => by
    rw [Component.ofPiece?, dif_pos hname] at h
    cases h
  rw [isUnicode_iff_shownBytes.1 (isUnicode_of_not_isName hx hname), h]

/-- What is shown has the components of the bytes only when they are text. -/
theorem parts_shownBytes_eq_iff {s : List UInt8} :
    parts (shownBytes s) = parts s ↔ IsUnicode s := by
  have hnone : ∀ x ∈ pieces s, Component.ofPiece? x = none →
      (Component.ofPiece? ∘ shownBytes) x = none := fun x hx =>
    ofPiece?_shownBytes_eq_none (slashByte_not_mem_of_mem_pieces hx)
  rw [parts, parts, pieces_shownBytes, List.filterMap_map, filterMap_eq_filterMap_iff hnone,
    isUnicode_iff_pieces]
  exact forall₂_congr fun x hx => ofPiece?_shownBytes_eq_iff (slashByte_not_mem_of_mem_pieces hx)

/-! ## Paths shown -/

/-- A path behind a path adds its components, unless it is absolute and comes in
    place of the other. -/
theorem parts_join (p q : Path) :
    parts (p.join q).bytes =
      if q.isAbsolute then parts q.bytes else parts p.bytes ++ parts q.bytes := by
  obtain ⟨s⟩ := p
  rw [join]
  split
  · rfl
  · split
    · rename_i hend
      rcases hend with rfl | hlast
      · rfl
      · rcases List.getLast?_eq_some_iff.1 hlast with ⟨t, rfl⟩
        -- The slash at the end separates the two, and adds nothing to the first.
        rw [List.append_assoc, List.singleton_append, parts_append_slash, parts_append_slash]
        exact congrArg (· ++ _) (List.append_nil _).symm
    · rw [parts_append_slash]

/-- What stands behind the anchor of a path are its components but for that of the
    anchor. -/
theorem filter_components (p : Path) :
    p.components.filter (fun x => x ≠ .root ∧ x ≠ .current) = parts p.bytes := by
  have hbehind : parts p.anchor.2 = parts p.bytes := by
    obtain ⟨s⟩ := p
    fun_cases anchor ⟨s⟩ with
    | case1 t h =>
        obtain rfl : s = slashByte :: t := h
        exact (parts_append_slash [] t).symm
    | case2 h =>
        obtain rfl : s = [dotByte] := h
        rfl
    | case3 t h =>
        obtain rfl : s = dotByte :: slashByte :: t := h
        exact (parts_append_slash [] t).trans (parts_append_slash [dotByte] t).symm
    | case4 => rfl
  have hanchor : p.anchor.1.toList.filter (fun x => x ≠ .root ∧ x ≠ .current) = [] := by
    fun_cases anchor p <;> rfl
  rw [components, List.filter_append, hanchor, List.nil_append, ← hbehind]
  refine List.filter_eq_self.2 fun x hx => ?_
  rcases List.mem_filterMap.1 hx with ⟨piece, -, hpiece⟩
  rw [Component.ofPiece?] at hpiece
  split at hpiece
  · cases hpiece
    rfl
  · split at hpiece <;> cases hpiece
    rfl

theorem shownBytes_ne_nil {s : List UInt8} (hs : s ≠ []) : shownBytes s ≠ [] := by
  have hchars : ∀ c t, Text.bytes (c :: t) ≠ [] := fun c t h => by
    rw [Text.bytes_cons, List.append_eq_nil_iff] at h
    exact String.utf8EncodeChar_ne_nil h.1
  obtain ⟨b, bs, rfl⟩ := List.exists_cons_of_ne_nil hs
  rw [shownBytes, lossyText, lossyFrom]
  split <;> exact hchars _ _

/-- A path is shown as an absolute path exactly if it is one. -/
theorem isAbsolute_shownBytes (p : Path) : isAbsolute ⟨shownBytes p.bytes⟩ = p.isAbsolute := by
  obtain ⟨s⟩ := p
  have hfalse : ∀ {a : List UInt8} (b : List UInt8), a ≠ [] → slashByte ∉ a →
      isAbsolute ⟨a ++ b⟩ = false := by
    intro a b hne ha
    obtain ⟨x, a, rfl⟩ := List.exists_cons_of_ne_nil hne
    exact decide_eq_false fun h => ha (Option.some.inj h ▸ List.mem_cons_self)
  by_cases hs : slashByte ∈ s
  · rcases List.eq_append_cons_of_mem hs with ⟨a, b, rfl, ha⟩
    rw [shownBytes_append_slash]
    by_cases hnil : a = []
    · rw [hnil]
      rfl
    · rw [hfalse _ hnil ha,
        hfalse _ (shownBytes_ne_nil hnil) (mt slashByte_mem_shownBytes ha)]
  · by_cases hnil : s = []
    · rw [hnil]
      rfl
    · have hpath := hfalse [] hnil hs
      have hshown := hfalse [] (shownBytes_ne_nil hnil) (mt slashByte_mem_shownBytes hs)
      rw [List.append_nil] at hpath hshown
      rw [hpath, hshown]

/-- Behind another path, a path that is shown has the components of the path itself
    exactly when it is text. -/
theorem components_join_shown_iff (p q : Path) :
    (p.join ⟨shownBytes q.bytes⟩).components = (p.join q).components ↔ IsUnicode q.bytes := by
  constructor
  · intro hsame
    have hparts : parts (p.join ⟨shownBytes q.bytes⟩).bytes = parts (p.join q).bytes := by
      rw [← filter_components, hsame, filter_components]
    rw [parts_join, parts_join, isAbsolute_shownBytes] at hparts
    refine parts_shownBytes_eq_iff.1 ?_
    split at hparts
    · exact hparts
    · exact List.append_cancel_left hparts
  · intro hunicode
    rw [isUnicode_iff_shownBytes.1 hunicode]

end Path

end Codemod
