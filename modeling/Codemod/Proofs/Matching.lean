import Codemod.Proofs.SecondPass

/-!
# Parentheses around Replaced Calls

A pass leaves the parentheses of the surrounding text matched as they were.

A call opens one parenthesis and closes it, with a balanced body in between, and
so the whole call is balanced. So is what replaces it. A scan that comes upon the
one or the other goes past it and is at the level where it was, so it never
finds its closer inside, and what it does behind does not depend on which of the
two it went past. The scans of a text and of its result therefore go side by
side, and they end at the same character of the copied text, or at the two ends.

`Segmentation.Copied` lists the places that take part in this: the boundaries
between the characters of a gap or of the tail, the ends of these pieces included,
each with the place where the pass puts it. All statements are about a head that
holds no parenthesis but its last character. A call with another kind of head
may open more than it closes.

## Main definitions

* `Segmentation.Copied`: Where the places in copied text go.

## Theorems

* `Segmentation.Copied.lt_iff_lt`: Places keep their order.
* `Segmentation.Copied.split`: What follows a place in copied text.
* `Segmentation.splitClose_source_replaced`: The scans of a text and of its
  result.
* `Segmentation.balanced_replaced_iff`: Balanced texts and balanced results.
* `Segmentation.Copied.argumentAt`: The arguments at a place.
* `matching_closers_kept`: A pass keeps what matches.
-/

namespace Codemod

variable {h : CallHead}

/-! ## Balanced calls -/

theorem balanced_call (hp : h.IsPlain) {body : Text} (hbody : body.Balanced) :
    Text.Balanced (h.text ++ (body ++ [')'])) := by
  have hsplit : h.text ++ (body ++ [')']) = h.stem ++ '(' :: (body ++ [')']) := by
    rw [CallHead.text, List.append_assoc]
    rfl
  rw [hsplit]
  exact (Text.balanced_of_not_mem hp.1 hp.2).append hbody.enclose

-- The template opens two parentheses more in front of the argument than it closes,
-- and closes these two behind it.
theorem balanced_withAlpha {e : Text} (he : e.Balanced) : (withAlpha e).Balanced := by
  have hopening : Text.splitClose 0 opening = .error 3 := by rfl
  have hclosing : Text.splitClose 2 closing = .error 1 := by rfl
  rw [Text.balanced_iff_splitClose, withAlpha_eq, Text.splitClose_append_of_eq_error hopening,
    he.splitClose_append, hclosing]
  rfl

namespace Segmentation

/-! ## Places in copied text -/

/-- Byte `o` of the text lies between two characters of copied text, or at an end of
    it, and the pass puts that place at byte `p` of the result. -/
inductive Copied (h : CallHead) : Segmentation → Nat → Nat → Prop
  | tail {t : Tail} {x : Text} (hx : x <+: t.source h) :
      Copied h ⟨[], t⟩ x.byteLength x.byteLength
  | gap {c : Call} {calls : List Call} {t : Tail} {x : Text} (hx : x <+: c.gap) :
      Copied h ⟨c :: calls, t⟩ x.byteLength x.byteLength
  | call {c : Call} {calls : List Call} {t : Tail} {o p : Nat} (rest : Copied h ⟨calls, t⟩ o p) :
      Copied h ⟨c :: calls, t⟩ ((c.source h).byteLength + o) (c.replaced.byteLength + p)

theorem byteLength_gap_lt_source (h : CallHead) (c : Call) :
    c.gap.byteLength < (c.source h).byteLength := by
  have hclose : Text.byteLength [')'] = 1 := rfl
  simp only [Call.source, Text.byteLength_append]
  omega

theorem byteLength_gap_lt_replaced (c : Call) : c.gap.byteLength < c.replaced.byteLength := by
  rw [Call.replaced, Text.byteLength_append, byteLength_withAlpha]
  omega

namespace Copied

/-- Places keep their order. So each of them goes to one place only, and no two of
    them to the same. -/
theorem lt_iff_lt {g : Segmentation} {o p o' p' : Nat} (hop : Copied h g o p)
    (hop' : Copied h g o' p') : o < o' ↔ p < p' := by
  induction hop generalizing o' p' with
  | tail hx =>
      cases hop' with
      | tail hx' => rfl
  | @gap c calls t x hx =>
      have hle := Text.byteLength_le_of_prefix hx
      have hsource := byteLength_gap_lt_source h c
      have hreplaced := byteLength_gap_lt_replaced c
      cases hop' with
      | gap hx' => rfl
      | call => omega
  | @call c calls t o p _ ih =>
      have hsource := byteLength_gap_lt_source h c
      have hreplaced := byteLength_gap_lt_replaced c
      cases hop' with
      | gap hx' =>
          have hle := Text.byteLength_le_of_prefix hx'
          omega
      | call hop' =>
          have := ih hop'
          omega

/-- Behind a place in copied text, the text and the result go on with the calls that
    are left, and with what is left of the gap. -/
theorem split {g : Segmentation} {o p : Nat} (hop : Copied h g o p)
    (hcalls : ∀ c ∈ g.calls, c.body.Balanced) :
    ∃ (a a' : Text) (g' : Segmentation), g.source h = a ++ g'.source h ∧
      g.replaced h = a' ++ g'.replaced h ∧ a.byteLength = o ∧ a'.byteLength = p ∧
      (∀ c ∈ g'.calls, c.body.Balanced) ∧
      ∀ m q, Copied h g' m q → Copied h g (o + m) (p + q) := by
  induction hop with
  | @tail t x hx =>
      rcases hx with ⟨y, hy⟩
      refine ⟨x, x, ⟨[], .clear y⟩, hy.symm, hy.symm, rfl, rfl, hcalls, fun m q hmq => ?_⟩
      cases hmq with
      | tail hz =>
          rw [← Text.byteLength_append]
          refine tail ?_
          rw [← hy]
          exact (List.prefix_append_right_inj x).2 hz
  | @gap c calls t x hx =>
      -- The first gap loses its beginning, in the text and in the result.
      rcases c with ⟨gap, body⟩
      rcases hx with ⟨y, rfl⟩
      have hsource : Call.source h ⟨x ++ y, body⟩ = x ++ Call.source h ⟨y, body⟩ :=
        List.append_assoc _ _ _
      have hreplaced : Call.replaced ⟨x ++ y, body⟩ = x ++ Call.replaced ⟨y, body⟩ :=
        List.append_assoc _ _ _
      have hbodies := List.forall_mem_cons.1 hcalls
      refine ⟨x, x, cons ⟨y, body⟩ ⟨calls, t⟩, ?_, ?_, rfl, rfl,
        List.forall_mem_cons.2 ⟨hbodies.1, hbodies.2⟩, fun m q hmq => ?_⟩
      · rw [source_cons, ← List.append_assoc, ← hsource, ← source_cons, cons]
      · rw [replaced_cons, ← List.append_assoc, ← hreplaced, ← replaced_cons, cons]
      · cases hmq with
        | gap hz =>
            rw [← Text.byteLength_append]
            exact gap ((List.prefix_append_right_inj x).2 hz)
        | call hmq =>
            rw [← Nat.add_assoc, ← Nat.add_assoc, ← Text.byteLength_append,
              ← Text.byteLength_append, ← hsource, ← hreplaced]
            exact hmq.call
  | @call c calls t o p _ ih =>
      rcases ih (fun c hc => hcalls c (List.mem_cons_of_mem _ hc)) with
        ⟨a, a', g', hs, hr, rfl, rfl, hg', hmq⟩
      refine ⟨c.source h ++ a, c.replaced ++ a', g', ?_, ?_, Text.byteLength_append _ _,
        Text.byteLength_append _ _, hg', fun m q h' => ?_⟩
      · rw [List.append_assoc, ← hs, ← source_cons, cons]
      · rw [List.append_assoc, ← hr, ← replaced_cons, cons]
      · rw [Nat.add_assoc, Nat.add_assoc]
        exact (hmq m q h').call

end Copied

/-! ## Scans side by side -/

/-- The scans of a text and of its result find the same closer, or leave the same
    number of parentheses open. -/
theorem splitClose_source_replaced (hp : h.IsPlain) {calls : List Call} (t : Tail)
    (hcalls : ∀ c ∈ calls, c.body.Balanced) (nested : Nat) :
    (∃ d, (source h ⟨calls, t⟩).splitClose nested = .error d ∧
      (replaced h ⟨calls, t⟩).splitClose nested = .error d) ∨
    ∃ b r b' r', (source h ⟨calls, t⟩).splitClose nested = .ok (b, r) ∧
      (replaced h ⟨calls, t⟩).splitClose nested = .ok (b', r') ∧
      Copied h ⟨calls, t⟩ (Text.byteLength (b ++ [')'])) (Text.byteLength (b' ++ [')'])) := by
  induction calls generalizing nested with
  | nil =>
      have hsource : source h ⟨[], t⟩ = t.source h := rfl
      have hreplaced : replaced h ⟨[], t⟩ = t.source h := rfl
      rw [hsource, hreplaced]
      cases ht : (t.source h).splitClose nested with
      | error d => exact Or.inl ⟨d, rfl, rfl⟩
      | ok q =>
          refine Or.inr ⟨q.1, q.2, q.1, q.2, rfl, rfl, .tail ⟨q.2, ?_⟩⟩
          rw [Text.eq_of_splitClose ht, List.append_assoc]
          rfl
  | cons c calls ih =>
      have hbody := hcalls c List.mem_cons_self
      have hsource : source h ⟨c :: calls, t⟩ =
          c.gap ++ ((h.text ++ (c.body ++ [')'])) ++ source h ⟨calls, t⟩) :=
        (source_cons h c ⟨calls, t⟩).trans (List.append_assoc _ _ _)
      have hreplaced : replaced h ⟨c :: calls, t⟩ =
          c.gap ++ (withAlpha c.body.trim ++ replaced h ⟨calls, t⟩) :=
        (replaced_cons h c ⟨calls, t⟩).trans (List.append_assoc _ _ _)
      rw [hsource, hreplaced]
      cases hgap : c.gap.splitClose nested with
      | ok q =>
          -- The closer stands in the gap, in front of the call.
          refine Or.inr ⟨q.1, _, q.1, _, Text.splitClose_append_of_eq_ok hgap _,
            Text.splitClose_append_of_eq_ok hgap _, .gap ⟨q.2, ?_⟩⟩
          rw [Text.eq_of_splitClose hgap, List.append_assoc]
          rfl
      | error depth =>
          -- Behind the call, either scan is at the level where the gap has left it.
          rw [Text.splitClose_append_of_eq_error hgap, (balanced_call hp hbody).splitClose_append,
            Text.splitClose_append_of_eq_error hgap,
            (balanced_withAlpha hbody.trim).splitClose_append]
          rcases ih (fun c hc => hcalls c (List.mem_cons_of_mem _ hc)) (depth - 1) with
            ⟨d, hs, hr⟩ | ⟨b, r, b', r', hs, hr, hplace⟩
          · rw [hs, hr]
            exact Or.inl ⟨d, rfl, rfl⟩
          · rw [hs, hr]
            refine Or.inr ⟨_, _, _, _, rfl, rfl, ?_⟩
            have hnext := hplace.call (c := c)
            rw [← Text.byteLength_append, ← Text.byteLength_append, Call.source,
              Call.replaced] at hnext
            simp only [List.append_assoc] at hnext ⊢
            exact hnext

theorem balanced_replaced_iff (hp : h.IsPlain) {g : Segmentation}
    (hcalls : ∀ c ∈ g.calls, c.body.Balanced) :
    Text.Balanced (g.replaced h) ↔ Text.Balanced (g.source h) := by
  rw [Text.balanced_iff_splitClose, Text.balanced_iff_splitClose]
  rcases splitClose_source_replaced hp g.tail hcalls 0 with
    ⟨depth, hs, hr⟩ | ⟨b, r, b', r', hs, hr, -⟩
  · rw [hs, hr]
  · rw [hs, hr]
    exact iff_of_false (fun e => by cases e) (fun e => by cases e)

/-- At a place in copied text and where the pass puts it, there are arguments that end
    at a place and where the pass puts that, or there are none and the scans leave the
    same number of parentheses open. -/
theorem Copied.argumentAt (hp : h.IsPlain) {g : Segmentation} {o p : Nat} (hop : Copied h g o p)
    (hcalls : ∀ c ∈ g.calls, c.body.Balanced) :
    (∃ depth, argumentAt (g.source h) o = .error (.unbalanced ⟨o, depth⟩) ∧
      argumentAt (g.replaced h) p = .error (.unbalanced ⟨p, depth⟩)) ∨
    ∃ x x', argumentAt (g.source h) o = .ok x ∧ argumentAt (g.replaced h) p = .ok x' ∧
      Copied h g x.next x'.next := by
  rcases hop.split hcalls with ⟨a, a', ⟨calls, t⟩, hs, hr, rfl, rfl, hcalls', hmore⟩
  rw [hs, hr, argumentAt_byteLength, argumentAt_byteLength]
  rcases splitClose_source_replaced hp t hcalls' 0 with
    ⟨depth, hs', hr'⟩ | ⟨b, r, b', r', hs', hr', hplace⟩
  · rw [hs', hr']
    exact Or.inl ⟨depth, rfl, rfl⟩
  · rw [hs', hr']
    have hnext := hmore _ _ hplace
    rw [Text.byteLength_append, Text.byteLength_append] at hnext
    exact Or.inr ⟨_, _, rfl, rfl, hnext⟩

end Segmentation

/-- Copied text keeps its parentheses matched. Take a place in copied text: the scan
    from there and the scan from where the pass puts that place end behind closers
    that go one to the other, or leave the same number of parentheses open. What
    goes where is settled, because places keep their order. Where the text closes
    all it opens, so does the result. -/
theorem matching_closers_kept (h : CallHead) (hp : h.IsPlain) (s : Text) :
    let g := Segmentation.ofText h s
    let out := (replaceCalls h s).text
    (∀ o p o' p', g.Copied h o p → g.Copied h o' p' → (o < o' ↔ p < p')) ∧
    (∀ o p, g.Copied h o p →
      (∀ m, (∃ x, argumentAt s o = .ok x ∧ x.next = m) ↔
        ∃ q, g.Copied h m q ∧ ∃ x, argumentAt out p = .ok x ∧ x.next = q) ∧
      (∀ e, argumentAt s o = .error e → ∃ depth, e = .unbalanced ⟨o, depth⟩ ∧
        argumentAt out p = .error (.unbalanced ⟨p, depth⟩))) ∧
    (s.Balanced → out.Balanced) := by
  intro g out
  have hcalls : ∀ c ∈ g.calls, c.body.Balanced := fun c hc =>
    (segments_ofText h s).balanced_of_mem hc
  have hs : g.source h = s := Segmentation.source_ofText h s
  have hout : g.replaced h = out := rfl
  refine ⟨fun o p o' p' hop hop' => hop.lt_iff_lt hop', fun o p hop => ?_, fun hbal => ?_⟩
  · have hscans := hop.argumentAt hp hcalls
    rw [hs, hout] at hscans
    rcases hscans with ⟨depth, hfail, hfail'⟩ | ⟨x, x', hx, hx', hplace⟩
    · rw [hfail, hfail']
      refine ⟨fun m => iff_of_false ?_ ?_, fun e he => ⟨depth, (Except.error.inj he).symm, rfl⟩⟩
      · rintro ⟨x, hx, -⟩
        cases hx
      · rintro ⟨q, -, x, hx, -⟩
        cases hx
    · rw [hx, hx']
      refine ⟨fun m => ⟨?_, ?_⟩, fun e he => by cases he⟩
      · rintro ⟨y, hy, rfl⟩
        rw [← Except.ok.inj hy]
        exact ⟨x'.next, hplace, x', rfl, rfl⟩
      · rintro ⟨q, hq, y, hy, rfl⟩
        rw [← Except.ok.inj hy] at hq
        -- Only one place goes where this closer is.
        have hlt := hq.lt_iff_lt hplace
        have hgt := hplace.lt_iff_lt hq
        exact ⟨x, rfl, by omega⟩
  · rw [← hs] at hbal
    rw [← hout]
    exact (Segmentation.balanced_replaced_iff hp hcalls).2 hbal

/-- The outer closer stays the closer of the outer call, in a longer text. -/
theorem outer_closer_behind_replaced_call :
    let h : CallHead := ⟨"f".toList⟩
    let s : Text := "g(f( a ), b)".toList
    let g := Segmentation.ofText h s
    let out := (replaceCalls h s).text
    h.IsPlain ∧ g.Copied h 2 2 ∧ (∃ x, argumentAt s 2 = .ok x ∧ x.next = 12) ∧
      g.Copied h 12 35 ∧ (∃ x, argumentAt out 2 = .ok x ∧ x.next = 35) ∧
      s.Balanced ∧ out.Balanced := by
  intro h s g out
  have hp : h.IsPlain := by constructor <;> decide +kernel
  have hg : g = ⟨[⟨"g(".toList, " a ".toList⟩], .clear ", b)".toList⟩ := by decide +kernel
  have hout : out = "g(.withAlpha((a * 255).round()), b)".toList := by decide +kernel
  have hplace : g.Copied h 2 2 := by
    rw [hg]
    exact .gap (List.prefix_refl _)
  have hnext : ∃ x, argumentAt s 2 = .ok x ∧ x.next = 12 := ⟨_, rfl, rfl⟩
  have hnext' : ∃ x, argumentAt out 2 = .ok x ∧ x.next = 35 := by
    rw [hout]
    exact ⟨_, rfl, rfl⟩
  have hbal : s.Balanced := by
    rw [Text.balanced_iff_splitClose]
    rfl
  rcases matching_closers_kept h hp s with ⟨-, hmatch, hkeep⟩
  rcases ((hmatch 2 2 hplace).1 12).1 hnext with ⟨q, hq, x, hx, hxq⟩
  have hq35 : q = 35 := by
    rcases hnext' with ⟨y, hy, hy35⟩
    rw [← hxq, ← hy35, Except.ok.inj (hx.symm.trans hy)]
  exact ⟨hp, hplace, hnext, hq35 ▸ hq, hnext', hbal, hkeep hbal⟩

end Codemod
