import Codemod.Proofs.JsonGrammar
import Mathlib.Data.List.Forall2
import Mathlib.Data.List.Pairwise

/-!
# Fields of a Draft

What members do to a draft, told for any record.

A record is decoded from an object by going through the members, each of which may
fill a place of a draft. All decoders of this kind have a list of fields, each with
its key, its decoder and its place, and they differ in that list only. Two members
that fill two places may come in either order, and a member that fills none may
stand anywhere. So where going through members succeeds at all, it does so in any
order of them, and it comes to the same draft.

This tells about failure as well. Two members with the key of one field can be
brought to the front, and there the second of them finds its place taken.

## Main definitions

* `DraftField`: A field of a draft.
* `DraftField.add`: What a member does to a draft.
* `DraftField.Independent`: Fields with places of their own.
* `Takes`: A member that a draft takes.

## Theorems

* `foldKnown_cons_iff`: The first of the members.
* `foldKnown_perm`: The order of members.
* `foldKnown_append_others`: Members that fill no place.
* `not_foldKnown_of_twice`, `get_eq_of_absent`, `decode_of_mem`: Members with the
  key of a field.
* `next_bind_iff`, `finish_bind_iff`, `decode_itemsOf_iff`: Arrays.
-/

namespace Codemod

namespace Json

-- A chain of decoders succeeds where each of them does.
theorem bind_eq_ok_iff {α β : Type} {x : Except Fault α} {g : α → Except Fault β} {b : β} :
    (x >>= g) = .ok b ↔ ∃ a, x = .ok a ∧ g a = .ok b := by
  cases x with
  | error e => exact ⟨nofun, fun ⟨_, h, _⟩ => nomatch h⟩
  | ok a => exact ⟨fun h => ⟨a, rfl, h⟩, fun ⟨_, h, hb⟩ => Except.ok.inj h ▸ hb⟩

/-! ## Fields -/

/-- A field of a draft: its key, its decoder, and its place. -/
structure DraftField (σ : Type) where
  Value : Type
  key : Text
  decode : Tree → Except Fault Value
  get : σ → Option Value
  put : Option Value → σ → σ

namespace DraftField

variable {σ : Type}

/-- What a member does to a draft with these fields. -/
def add : List (DraftField σ) → Text → Tree → σ → Option (Except Fault σ)
  | [], _, _, _ => none
  | f :: fields, key, t, d =>
    if key = f.key then some ((fillOnce (f.get d) f.decode t).map fun p => f.put p d)
    else add fields key t d

/-- Two fields have two keys, and what is put in the place of one is not found in the
    place of the other. -/
@[mk_iff]
structure Apart (f g : DraftField σ) : Prop where
  key_ne : f.key ≠ g.key
  get_put_right : ∀ p d, f.get (g.put p d) = f.get d
  get_put_left : ∀ p d, g.get (f.put p d) = g.get d
  put_comm : ∀ p q d, f.put p (g.put q d) = g.put q (f.put p d)

/-- Each field has a key and a place of its own. -/
structure Independent (fields : List (DraftField σ)) : Prop where
  apart : fields.Pairwise Apart
  get_put : ∀ f ∈ fields, ∀ p d, f.get (f.put p d) = p

instance : Std.Symm (@Apart σ) where
  symm _ _ h := ⟨h.key_ne.symm, h.get_put_left, h.get_put_right,
    fun p q d => (h.put_comm q p d).symm⟩

theorem Independent.eq_or_apart {fields : List (DraftField σ)} (hi : Independent fields)
    {f g : DraftField σ} (hf : f ∈ fields) (hg : g ∈ fields) : f = g ∨ Apart f g :=
  (Classical.em (f = g)).imp_right (hi.apart.forall hf hg)

theorem Independent.key_inj {fields : List (DraftField σ)} (hi : Independent fields)
    {f g : DraftField σ} (hf : f ∈ fields) (hg : g ∈ fields) (h : f.key = g.key) : f = g :=
  (hi.eq_or_apart hf hg).resolve_right fun hapart => hapart.key_ne h

variable {fields : List (DraftField σ)} {key : Text} {t : Tree} {d d' : σ}

theorem add_eq_none_iff : add fields key t d = none ↔ ∀ f ∈ fields, key ≠ f.key := by
  induction fields with
  | nil => simp [add]
  | cons f fields ih =>
      rw [add, List.forall_mem_cons]
      by_cases hkey : key = f.key
      · rw [if_pos hkey]
        exact ⟨nofun, fun h => absurd hkey h.1⟩
      · rw [if_neg hkey, ih]
        exact ⟨fun h => ⟨hkey, h⟩, And.right⟩

theorem fillOnce_ok_iff {f : DraftField σ} :
    (fillOnce (f.get d) f.decode t).map (fun p => f.put p d) = .ok d' ↔
      f.get d = none ∧ ∃ a, f.decode t = .ok a ∧ d' = f.put (some a) d := by
  cases f.get d with
  | some b =>
      constructor
      · intro h
        cases h
      · rintro ⟨h, -⟩
        cases h
  | none =>
      rw [show fillOnce none f.decode t = (f.decode t).map some from rfl]
      cases f.decode t with
      | error x =>
          constructor
          · intro h
            cases h
          · rintro ⟨-, a, h, -⟩
            cases h
      | ok a =>
          constructor
          · intro h
            exact ⟨rfl, a, rfl, (Except.ok.inj h).symm⟩
          · rintro ⟨-, b, hb, rfl⟩
            rw [← Except.ok.inj hb]
            rfl

/-- A member with a known key fills the place of the field that has the key. -/
theorem add_eq_ok_iff (hi : Independent fields) :
    add fields key t d = some (.ok d') ↔ ∃ f ∈ fields, key = f.key ∧ f.get d = none ∧
      ∃ a, f.decode t = .ok a ∧ d' = f.put (some a) d := by
  have hadd : ∀ gs : List (DraftField σ), (∀ g ∈ gs, g ∈ fields) →
      (add gs key t d = some (.ok d') ↔ ∃ f ∈ gs, key = f.key ∧ f.get d = none ∧
        ∃ a, f.decode t = .ok a ∧ d' = f.put (some a) d) := by
    intro gs hgs
    induction gs with
    | nil => simp [add]
    | cons g gs ih =>
        rw [add]
        by_cases hkey : key = g.key
        · rw [if_pos hkey, Option.some.injEq, fillOnce_ok_iff]
          constructor
          · exact fun h => ⟨g, List.mem_cons_self, hkey, h⟩
          · rintro ⟨f, hf, hfkey, h⟩
            rwa [hi.key_inj (hgs g List.mem_cons_self) (hgs f hf) (hkey.symm.trans hfkey)]
        · rw [if_neg hkey, ih fun f hf => hgs f (List.mem_cons_of_mem g hf)]
          constructor
          · rintro ⟨f, hf, h⟩
            exact ⟨f, List.mem_cons_of_mem g hf, h⟩
          · rintro ⟨f, hf, hfkey, h⟩
            rcases List.mem_cons.1 hf with rfl | hf
            · exact absurd hfkey hkey
            · exact ⟨f, hf, hfkey, h⟩
  exact hadd fields fun _ hg => hg

end DraftField

/-! ## One member -/

section Members

variable {σ : Type} {fields : List (DraftField σ)} {m m' : Leaf Text × Tree}
  {ms ms' : List (Leaf Text × Tree)} {d d' e : σ}

/-- The draft takes the member. A member with the key of a field fills the place of the
    field. Any other one is passed over. -/
inductive Takes (fields : List (DraftField σ)) (m : Leaf Text × Tree) (d : σ) : σ → Prop
  | field {f : DraftField σ} {a : f.Value} (hf : f ∈ fields) (hkey : m.1.value = .ok f.key)
    (hget : f.get d = none) (hdecode : f.decode m.2 = .ok a) : Takes fields m d (f.put (some a) d)
  | other {key : Text} (hkey : m.1.value = .ok key) (hother : ∀ f ∈ fields, key ≠ f.key)
    (hpass : m.2.pass = .ok ()) : Takes fields m d d

/-- Members are gone through from the first one on. -/
theorem foldKnown_cons_iff (hi : DraftField.Independent fields) :
    (membersOf (m :: ms)).foldKnown (DraftField.add fields) d = .ok e ↔
      ∃ d', Takes fields m d d' ∧ (membersOf ms).foldKnown (DraftField.add fields) d' = .ok e := by
  rcases m with ⟨leaf, t⟩
  rw [membersOf, Members.foldKnown, bind_eq_ok_iff]
  constructor
  · rintro ⟨key, hkey, h⟩
    cases hadd : DraftField.add fields key t d with
    | none =>
        rw [hadd] at h
        rcases bind_eq_ok_iff.1 h with ⟨_, hpass, hrest⟩
        exact ⟨d, .other hkey (DraftField.add_eq_none_iff.1 hadd) hpass, hrest⟩
    | some result =>
        rw [hadd] at h
        rcases bind_eq_ok_iff.1 h with ⟨d', rfl, hrest⟩
        rcases (DraftField.add_eq_ok_iff hi).1 hadd with ⟨f, hf, rfl, hget, a, hdecode, rfl⟩
        exact ⟨_, .field hf hkey hget hdecode, hrest⟩
  · rintro ⟨d', ht, hrest⟩
    cases ht with
    | @field f a hf hkey hget hdecode =>
        have hadd := (DraftField.add_eq_ok_iff hi).2 ⟨f, hf, rfl, hget, a, hdecode, rfl⟩
        refine ⟨f.key, hkey, ?_⟩
        rw [hadd]
        exact hrest
    | @other key hkey hother hpass =>
        refine ⟨key, hkey, ?_⟩
        rw [DraftField.add_eq_none_iff.2 hother]
        exact bind_eq_ok_iff.2 ⟨(), hpass, hrest⟩

/-! ## The order of members -/

variable (hi : DraftField.Independent fields)

include hi

/-- Two members that a draft takes one after the other may change places. -/
theorem Takes.swap {d₁ d₂ : σ} (h : Takes fields m d d₁) (h' : Takes fields m' d₁ d₂) :
    ∃ d₁', Takes fields m' d d₁' ∧ Takes fields m d₁' d₂ := by
  cases h with
  | other hkey hother hpass => exact ⟨d₂, h', .other hkey hother hpass⟩
  | @field f a hf hkey hget hdecode =>
      cases h' with
      | other hkey' hother' hpass' =>
          exact ⟨d, .other hkey' hother' hpass', .field hf hkey hget hdecode⟩
      | @field g b hg hkey' hget' hdecode' =>
          rcases hi.eq_or_apart hf hg with rfl | hapart
          · -- The second member finds the place of the first one taken.
            rw [hi.get_put f hf] at hget'
            cases hget'
          · rw [hapart.get_put_left] at hget'
            refine ⟨g.put (some b) d, .field hg hkey' hget' hdecode', ?_⟩
            rw [← hapart.put_comm]
            exact .field hf hkey (by rw [hapart.get_put_right, hget]) hdecode

/-- Members come to the same draft in any order. -/
theorem foldKnown_perm (hp : ms.Perm ms')
    (h : (membersOf ms).foldKnown (DraftField.add fields) d = .ok e) :
    (membersOf ms').foldKnown (DraftField.add fields) d = .ok e := by
  induction hp generalizing d with
  | nil => exact h
  | cons m _ ih =>
      rcases (foldKnown_cons_iff hi).1 h with ⟨d', ht, hrest⟩
      exact (foldKnown_cons_iff hi).2 ⟨d', ht, ih hrest⟩
  | swap m m' ms =>
      rcases (foldKnown_cons_iff hi).1 h with ⟨d₁, ht, hrest⟩
      rcases (foldKnown_cons_iff hi).1 hrest with ⟨d₂, ht', hrest⟩
      rcases ht.swap hi ht' with ⟨d₁', hfirst, hsecond⟩
      exact (foldKnown_cons_iff hi).2 ⟨d₁', hfirst, (foldKnown_cons_iff hi).2 ⟨d₂, hsecond, hrest⟩⟩
  | trans _ _ ih ih' => exact ih' (ih h)

/-- Members that no field knows may follow. -/
theorem foldKnown_append_others
    (h : (membersOf ms).foldKnown (DraftField.add fields) d = .ok e)
    (hothers : ∀ m ∈ ms', ∃ key, m.1.value = .ok key ∧ (∀ f ∈ fields, key ≠ f.key) ∧
      m.2.pass = .ok ()) :
    (membersOf (ms ++ ms')).foldKnown (DraftField.add fields) d = .ok e := by
  induction ms generalizing d with
  | nil =>
      obtain rfl := Except.ok.inj h
      clear h
      rw [List.nil_append]
      induction ms' with
      | nil => rfl
      | cons m ms' ih =>
          rcases hothers m List.mem_cons_self with ⟨key, hkey, hother, hpass⟩
          exact (foldKnown_cons_iff hi).2
            ⟨d, .other hkey hother hpass, ih fun n hn => hothers n (List.mem_cons_of_mem m hn)⟩
  | cons m ms ih =>
      rcases (foldKnown_cons_iff hi).1 h with ⟨d', ht, hrest⟩
      exact (foldKnown_cons_iff hi).2 ⟨d', ht, ih hrest⟩

/-! ## Members with the key of a field -/

variable {f : DraftField σ} (hf : f ∈ fields)

include hf

/-- A field is not given twice. -/
theorem not_foldKnown_of_twice (hs : [m, m'].Sublist ms) (hm : m.1.value = .ok f.key)
    (hm' : m'.1.value = .ok f.key) :
    (membersOf ms).foldKnown (DraftField.add fields) d ≠ .ok e := by
  intro h
  rcases hs.exists_perm_append with ⟨rest, hp⟩
  rcases (foldKnown_cons_iff hi).1 (foldKnown_perm hi hp h) with ⟨d₁, ht, hrest⟩
  rcases (foldKnown_cons_iff hi).1 hrest with ⟨d₂, ht', -⟩
  cases ht with
  | other hkey hother => exact hother f hf (Except.ok.inj (hkey.symm.trans hm))
  | @field g a hg hkey =>
      obtain rfl := hi.key_inj hg hf (Except.ok.inj (hkey.symm.trans hm))
      cases ht' with
      | other hkey' hother' => exact hother' g hf (Except.ok.inj (hkey'.symm.trans hm'))
      | @field k b hk hkey' hget' =>
          obtain rfl := hi.key_inj hk hg (Except.ok.inj (hkey'.symm.trans hm'))
          rw [hi.get_put k hk] at hget'
          cases hget'

/-- The place of a field that no member gives is left as it is. -/
theorem get_eq_of_absent (habsent : ∀ m ∈ ms, m.1.value ≠ .ok f.key)
    (h : (membersOf ms).foldKnown (DraftField.add fields) d = .ok e) : f.get e = f.get d := by
  induction ms generalizing d with
  | nil => rw [Except.ok.inj h]
  | cons m ms ih =>
      rcases (foldKnown_cons_iff hi).1 h with ⟨d', ht, hrest⟩
      rw [ih (fun n hn => habsent n (List.mem_cons_of_mem m hn)) hrest]
      cases ht with
      | other => rfl
      | @field g a hg hkey =>
          refine ((hi.eq_or_apart hf hg).resolve_left fun hfg => ?_).get_put_right _ _
          exact habsent m List.mem_cons_self (hkey.trans (by rw [hfg]))

/-- The value of a field is decoded. -/
theorem decode_of_mem (hmem : m ∈ ms) (hm : m.1.value = .ok f.key)
    (h : (membersOf ms).foldKnown (DraftField.add fields) d = .ok e) :
    ∃ a, f.decode m.2 = .ok a := by
  induction ms generalizing d with
  | nil => cases hmem
  | cons n ms ih =>
      rcases (foldKnown_cons_iff hi).1 h with ⟨d', ht, hrest⟩
      rcases List.mem_cons.1 hmem with rfl | hmem
      · cases ht with
        | other hkey hother => exact absurd (Except.ok.inj (hkey.symm.trans hm)) (hother f hf)
        | @field g a hg hkey _ hdecode =>
            obtain rfl := hi.key_inj hg hf (Except.ok.inj (hkey.symm.trans hm))
            exact ⟨a, hdecode⟩
      · exact ih hmem hrest

end Members

/-! ## Arrays -/

section Items

variable {α β : Type} {decode : Tree → Except Fault α} {ts : List Tree}

/-- A decoder of an array that starts with a field. -/
theorem next_bind_iff {k : α × Items → Except Fault β} {b : β} :
    ((itemsOf ts).next decode >>= k) = .ok b ↔
      ∃ t us a, ts = t :: us ∧ decode t = .ok a ∧ k (a, itemsOf us) = .ok b := by
  cases ts with
  | nil => exact ⟨nofun, fun ⟨_, _, _, h, _⟩ => nomatch h⟩
  | cons t us =>
      rw [itemsOf, Items.next, bind_eq_ok_iff]
      constructor
      · rintro ⟨⟨a, rest⟩, hnext, hk⟩
        cases hd : decode t with
        | error x =>
            rw [hd] at hnext
            cases hnext
        | ok a' =>
            rw [hd] at hnext
            obtain ⟨rfl, rfl⟩ := Prod.mk.inj (Except.ok.inj hnext)
            exact ⟨t, us, a', rfl, hd, hk⟩
      · rintro ⟨t', us', a, h, hd, hk⟩
        obtain ⟨rfl, rfl⟩ := List.cons.inj h
        exact ⟨(a, itemsOf us), by rw [hd]; rfl, hk⟩

theorem finish_bind_iff {k : Unit → Except Fault β} {b : β} :
    ((itemsOf ts).finish >>= k) = .ok b ↔ ts = [] ∧ k () = .ok b := by
  cases ts with
  | nil => exact ⟨fun h => ⟨rfl, h⟩, And.right⟩
  | cons t us => exact ⟨nofun, fun h => nomatch h.1⟩

/-- An array is decoded item by item. -/
theorem decode_itemsOf_iff {as : List α} :
    (itemsOf ts).decode decode = .ok as ↔ List.Forall₂ (fun t a => decode t = .ok a) ts as := by
  induction ts generalizing as with
  | nil =>
      rw [List.forall₂_nil_left_iff]
      exact ⟨fun h => (Except.ok.inj h).symm, fun h => congrArg Except.ok h.symm⟩
  | cons t us ih =>
      rw [itemsOf, Items.decode, bind_eq_ok_iff, List.forall₂_cons_left_iff]
      refine exists_congr fun a => ?_
      rw [bind_eq_ok_iff]
      constructor
      · rintro ⟨hd, bs, hbs, h⟩
        exact ⟨bs, hd, ih.1 hbs, (Except.ok.inj h).symm⟩
      · rintro ⟨bs, hd, hbs, rfl⟩
        exact ⟨hd, bs, ih.2 hbs, rfl⟩

end Items

end Json

end Codemod
