import Codemod.Proofs.Factorisation
import Codemod.Proofs.MatchingCloser

/-!
# Runs of the Loop

Where the loop over the bytes of a text stands after so many turns.

The loop keeps positions and pieces of output, and what these are worth shows only
beside the factorisation of the text. A loop that has gone past some calls stands
at the end of the last of them, has put out what replaces them, and has counted
them. From there a turn does what the factorisation does next, so every position
that it uses is the length of some text in front, and no slice can fail. The two
turns for each call and the two or three at the end are all the turns there are.

That the loop comes to an end is not assumed anywhere. The states that it can be
in are bounded in number of turns, and each of them has a turn that goes on or
ends the pass.

## Main definitions

* `Progress.IsSound`: The positions and the output of a state.
* `ReadUpTo`: Calls at the front of a text.
* `Stands`: The loop beside the factorisation.

## Theorems

* `CallHead.find?_byteLength`: The search from a position between characters.
* `extract_behind_head`: The argument behind a head.
* `Stands.turn`: One turn of the loop.
* `stands_of_reaches`: The turns from the start.
* `loop_ends_without_fault`: The loop over a text.
-/

namespace Codemod

variable {h : CallHead} {s : Text}

/-! ## Positions -/

/-- The positions of a state lie in the text, between characters, and in order. What
    has been put out is the form of a text. -/
structure Progress.IsSound (s : Text) (p : Progress) : Prop where
  out : ∃ t, decodeText? ⟨⟨p.out⟩⟩ = some t
  cursor : s.IsBoundary p.cursor
  span : ∀ span, p.stage = .extracting span →
    s.IsBoundary span.start ∧ s.IsBoundary span.stop ∧
      p.cursor ≤ span.start ∧ span.start < span.stop
  next : ∀ span argument, p.stage = .extracting span →
    extract s.bytes span.stop = .ok (.ok argument) →
      s.IsBoundary argument.next ∧ span.stop ≤ argument.next
  rest : ∀ start reason, p.stage = .copying start reason →
    s.IsBoundary start ∧ p.cursor ≤ start

/-- The search from the end of the first part of a text is a search in the second
    part. -/
theorem CallHead.find?_byteLength (h : CallHead) (u rest : Text) :
    h.find? (u ++ rest) u.byteLength = (h.split? rest).map fun (gap, _) =>
      ⟨u.byteLength + gap.byteLength, u.byteLength + gap.byteLength + h.width⟩ := by
  rw [find?, Text.seek_byteLength, Option.bind_eq_bind, Option.bind_some]
  dsimp only
  cases h.split? rest <;> rfl

theorem CallHead.width_pos (h : CallHead) : 0 < h.width := by
  have hopen : Text.byteLength ['('] = 1 := rfl
  rw [width, text, Text.byteLength_append]
  omega

/-- The loop over bytes behind a head does what the scan of the text does there. -/
theorem extract_behind_head (before after : Text) :
    extract (before ++ (h.text ++ after)).bytes (before.byteLength + h.width) =
      match after.splitClose 0 with
      | .error depth => .ok (.error ⟨before.byteLength + h.width, depth⟩)
      | .ok (body, _) =>
        .ok (.ok ⟨body.trim, before.byteLength + h.width + body.byteLength + 1⟩) := by
  rw [extract_bytes, CallHead.width, ← Text.byteLength_append, ← List.append_assoc,
    argumentAt_byteLength]
  cases after.splitClose 0 <;> rfl

theorem lineOfByte_bytes (before after : Text) :
    lineOfByte (before ++ after).bytes before.byteLength = 1 + before.count '\n' := by
  rw [lineOfByte, Text.bytes_append, ← Text.length_bytes, List.take_left,
    Text.count_bytes (by decide)]

/-! ## Calls at the front of a text -/

/-- The text starts with the calls, and then `rest` is cut up like a text of its own. -/
def ReadUpTo (h : CallHead) (s : Text) (calls : List Call) (rest : Text) : Prop :=
  Segmentation.ofText h s =
    ⟨calls ++ (Segmentation.ofText h rest).calls, (Segmentation.ofText h rest).tail⟩

namespace ReadUpTo

variable {calls : List Call} {rest gap after : Text}

theorem start : ReadUpTo h s [] s := rfl

theorem source (read : ReadUpTo h s calls rest) :
    s = calls.flatMap (Call.source h) ++ rest := by
  have hs := Segmentation.source_ofText h s
  have hrest := Segmentation.source_ofText h rest
  rw [read, Segmentation.source, List.flatMap_append, List.append_assoc] at hs
  rw [← hs]
  exact congrArg _ hrest

theorem source_of_found (read : ReadUpTo h s calls rest)
    (found : h.split? rest = some (gap, after)) :
    s = (calls.flatMap (Call.source h) ++ gap) ++ (h.text ++ after) := by
  rw [read.source, CallHead.eq_of_split? found, List.append_assoc]

theorem length_le (read : ReadUpTo h s calls rest) :
    calls.length ≤ (replaceCalls h s).replacements := by
  have hlength := congrArg (fun g : Segmentation => g.calls.length) read
  rw [List.length_append] at hlength
  exact Nat.le.intro hlength.symm

theorem call {body rest' : Text} (read : ReadUpTo h s calls rest)
    (found : h.split? rest = some (gap, after)) (closed : after.splitClose 0 = .ok (body, rest')) :
    ReadUpTo h s (calls ++ [⟨gap, body⟩]) rest' := by
  rw [ReadUpTo, read, Segmentation.ofText_of_call found closed, List.append_assoc]
  rfl

theorem clear (read : ReadUpTo h s calls rest) (absent : h.split? rest = none) :
    Segmentation.ofText h s = ⟨calls, .clear rest⟩ := by
  rw [read, Segmentation.ofText_of_clear absent, List.append_nil]

theorem unclosed {depth : Nat} (read : ReadUpTo h s calls rest)
    (found : h.split? rest = some (gap, after)) (isOpen : after.splitClose 0 = .error depth) :
    Segmentation.ofText h s = ⟨calls, .unclosed gap after depth⟩ := by
  rw [read, Segmentation.ofText_of_unclosed found isOpen, List.append_nil]

end ReadUpTo

/-! ## The loop beside the factorisation -/

/-- Where a head behind a text stands. -/
def spanBehind (h : CallHead) (before : Text) : Span :=
  ⟨before.byteLength, before.byteLength + h.width⟩

-- One more call ends behind its head, its body and the closer.
theorem byteLength_sources (h : CallHead) (calls : List Call) (gap body : Text) :
    Text.byteLength ((calls ++ [(⟨gap, body⟩ : Call)]).flatMap (Call.source h)) =
      (spanBehind h (calls.flatMap (Call.source h) ++ gap)).stop + body.byteLength + 1 := by
  have hclose : Text.byteLength [')'] = 1 := rfl
  rw [List.flatMap_append, List.flatMap_singleton, Call.source, spanBehind, CallHead.width]
  simp only [Text.byteLength_append, hclose, Nat.add_assoc]

/-- Where the loop stands after `n` turns: behind calls of the text, with what
    replaces them put out, and looking for the next head, or at that head, or at
    the text that is left to copy. -/
inductive Stands (h : CallHead) (s : Text) : Nat → Progress → Prop
  | scanning {calls : List Call} {rest : Text} (read : ReadUpTo h s calls rest) :
      Stands h s (2 * calls.length)
        ⟨Text.bytes (calls.flatMap Call.replaced),
          Text.byteLength (calls.flatMap (Call.source h)), calls.length, .scanning⟩
  | extracting {calls : List Call} {rest gap after : Text} (read : ReadUpTo h s calls rest)
      (found : h.split? rest = some (gap, after)) :
      Stands h s (2 * calls.length + 1)
        ⟨Text.bytes (calls.flatMap Call.replaced ++ gap),
          Text.byteLength (calls.flatMap (Call.source h)), calls.length,
          .extracting (spanBehind h (calls.flatMap (Call.source h) ++ gap))⟩
  | clear {calls : List Call} {rest : Text} (read : ReadUpTo h s calls rest)
      (absent : h.split? rest = none) :
      Stands h s (2 * calls.length + 1)
        ⟨Text.bytes (calls.flatMap Call.replaced),
          Text.byteLength (calls.flatMap (Call.source h)), calls.length,
          .copying (Text.byteLength (calls.flatMap (Call.source h))) none⟩
  | unclosed {calls : List Call} {rest gap after : Text} {depth : Nat}
      (read : ReadUpTo h s calls rest) (found : h.split? rest = some (gap, after))
      (isOpen : after.splitClose 0 = .error depth) :
      Stands h s (2 * calls.length + 2)
        ⟨Text.bytes (calls.flatMap Call.replaced ++ gap),
          Text.byteLength (calls.flatMap (Call.source h)), calls.length,
          .copying (Text.byteLength (calls.flatMap (Call.source h) ++ gap))
            (some ⟨(spanBehind h (calls.flatMap (Call.source h) ++ gap)).stop, depth⟩)⟩

namespace Stands

variable {n : Nat} {p : Progress}

theorem start : Stands h s 0 .start := by
  have hstart := scanning (ReadUpTo.start (h := h) (s := s))
  rwa [List.flatMap_nil, List.flatMap_nil, Text.bytes_nil] at hstart

theorem turns_le (hp : Stands h s n p) : n + 1 ≤ 2 * (replaceCalls h s).replacements + 3 := by
  cases hp with
  | scanning read => have := read.length_le; omega
  | extracting read => have := read.length_le; omega
  | clear read => have := read.length_le; omega
  | unclosed read => have := read.length_le; omega

theorem isSound (hp : Stands h s n p) : p.IsSound s := by
  cases hp with
  | @scanning calls rest read =>
      exact ⟨⟨_, Text.decodeText?_bytes _⟩, ⟨_, rest, read.source, rfl⟩, nofun, nofun, nofun⟩
  | @extracting calls rest gap after read found =>
      have hs := read.source_of_found found
      have hwidth := h.width_pos
      refine ⟨⟨_, Text.decodeText?_bytes _⟩, ⟨_, rest, read.source, rfl⟩, ?_, ?_, nofun⟩
      · rintro span ⟨⟩
        refine ⟨⟨_, _, hs, rfl⟩, ⟨_, after, hs.trans (List.append_assoc _ _ _).symm, ?_⟩, ?_, ?_⟩
        · rw [Text.byteLength_append]
          rfl
        · rw [spanBehind, Text.byteLength_append]
          exact Nat.le_add_right _ _
        · rw [spanBehind]
          exact Nat.lt_add_of_pos_right hwidth
      · rintro span argument ⟨⟩ hargument
        rw [spanBehind, hs, extract_behind_head] at hargument
        cases hscan : after.splitClose 0 with
        | error depth =>
            rw [hscan] at hargument
            cases hargument
        | ok split =>
            rcases split with ⟨body, rest'⟩
            rw [hscan] at hargument
            obtain rfl := Except.ok.inj (Except.ok.inj hargument)
            have hnext := byteLength_sources h calls gap body
            refine ⟨⟨_, rest', (read.call found hscan).source, hnext⟩, ?_⟩
            rw [spanBehind, Nat.add_assoc]
            exact Nat.le_add_right _ _
  | @clear calls rest read absent =>
      refine ⟨⟨_, Text.decodeText?_bytes _⟩, ⟨_, rest, read.source, rfl⟩, nofun, nofun, ?_⟩
      rintro start reason ⟨⟩
      exact ⟨⟨_, rest, read.source, rfl⟩, Nat.le_refl _⟩
  | @unclosed calls rest gap after depth read found isOpen =>
      refine ⟨⟨_, Text.decodeText?_bytes _⟩, ⟨_, rest, read.source, rfl⟩, nofun, nofun, ?_⟩
      rintro start reason ⟨⟩
      refine ⟨⟨_, _, read.source_of_found found, rfl⟩, ?_⟩
      rw [Text.byteLength_append]
      exact Nat.le_add_right _ _

/-- A turn goes on to where the loop stands next, or ends the pass with its
    outcome. -/
theorem turn (hp : Stands h s n p) :
    (∃ q, p.turn h s = .ok (.goOn q) ∧ Stands h s (n + 1) q) ∨
      p.turn h s = .ok (.finish (replaceCalls h s).text.bytes (replaceCalls h s).replacements
        (replaceCalls h s).ending) := by
  cases hp with
  | @scanning calls rest read =>
      have hfind := h.find?_byteLength (calls.flatMap (Call.source h)) rest
      rw [← read.source] at hfind
      rw [Progress.turn]
      simp only [hfind]
      cases found : h.split? rest with
      | none => exact .inl ⟨_, rfl, .clear read found⟩
      | some split =>
          rcases split with ⟨gap, after⟩
          have hslice := slice_bytes (calls.flatMap (Call.source h)) gap (h.text ++ after)
          rw [← CallHead.eq_of_split? found, ← read.source] at hslice
          refine .inl ⟨_, ?_, .extracting read found⟩
          simp only [Option.map_some, bind, Except.bind, hslice]
          rw [Text.bytes_append, spanBehind, Text.byteLength_append]
          rfl
  | @extracting calls rest gap after read found =>
      have hextract := extract_behind_head (h := h) (calls.flatMap (Call.source h) ++ gap) after
      rw [← read.source_of_found found] at hextract
      rw [Progress.turn]
      simp only [spanBehind, bind, Except.bind, hextract]
      cases hscan : after.splitClose 0 with
      | error depth => exact .inl ⟨_, rfl, .unclosed read found hscan⟩
      | ok split =>
          rcases split with ⟨body, rest'⟩
          refine .inl ⟨_, rfl, ?_⟩
          have hnext := scanning (read.call found hscan)
          rw [byteLength_sources, List.flatMap_append, List.flatMap_singleton, Call.replaced,
            ← List.append_assoc, Text.bytes_append, List.length_append] at hnext
          exact hnext
  | @clear calls rest read absent =>
      have hslice := slice_bytes (calls.flatMap (Call.source h)) rest []
      rw [List.append_nil, ← Text.byteLength_append, ← read.source, ← Text.length_bytes s] at hslice
      refine .inr ?_
      rw [Progress.turn]
      simp only [bind, Except.bind, hslice, ← Text.bytes_append]
      rw [replaceCalls, read.clear absent]
      rfl
  | @unclosed calls rest gap after depth read found isOpen =>
      have hs := read.source_of_found found
      have hslice := slice_bytes (calls.flatMap (Call.source h) ++ gap) (h.text ++ after) []
      have hline := lineOfByte_bytes (calls.flatMap (Call.source h) ++ gap) (h.text ++ after)
      rw [List.append_nil, ← Text.byteLength_append, ← hs, ← Text.length_bytes s] at hslice
      rw [← hs] at hline
      refine .inr ?_
      rw [Progress.turn]
      simp only [bind, Except.bind, hslice, hline, ← Text.bytes_append]
      rw [replaceCalls, read.unclosed found isOpen, List.append_assoc]
      rfl

end Stands

theorem stands_of_reaches {n : Nat} {p : Progress} (hp : Reaches h s n p) : Stands h s n p := by
  induction hp with
  | start => exact .start
  | @turn n p q _ e ih =>
      rcases ih.turn with ⟨q', hq', hstands⟩ | hfinish
      · obtain rfl : q' = q := by
          rw [hq'] at e
          exact Continuation.goOn.inj (Except.ok.inj e)
        exact hstands
      · rw [hfinish] at e
        cases e

/-- A run of the loop over a text. As long as it goes on, its positions lie in the
    text, between characters and in order, and what it has put out is the form of a
    text. So no slice fails and no number falls below zero: each turn leads to the
    next one or to the end. There is an end, after at most two turns for each
    replaced call and three more, and what has been put out by then is the outcome
    of the pass. -/
theorem loop_ends_without_fault (h : CallHead) (s : Text) :
    let o := replaceCalls h s
    (∀ n p, Reaches h s n p →
      p.IsSound s ∧ n + 1 ≤ 2 * o.replacements + 3 ∧
        ((∃ q, p.turn h s = .ok (.goOn q)) ∨
          ∃ out, p.turn h s = .ok (.finish out o.replacements o.ending) ∧
            decodeText? ⟨⟨out⟩⟩ = some o.text)) ∧
    ∃ n p out, Reaches h s n p ∧ p.turn h s = .ok (.finish out o.replacements o.ending) := by
  intro o
  have hall : ∀ n p, Reaches h s n p →
      p.IsSound s ∧ n + 1 ≤ 2 * o.replacements + 3 ∧
        ((∃ q, p.turn h s = .ok (.goOn q)) ∨
          ∃ out, p.turn h s = .ok (.finish out o.replacements o.ending) ∧
            decodeText? ⟨⟨out⟩⟩ = some o.text) := by
    intro n p hp
    have hstands := stands_of_reaches hp
    refine ⟨hstands.isSound, hstands.turns_le, ?_⟩
    rcases hstands.turn with ⟨q, hq, -⟩ | hfinish
    · exact .inl ⟨q, hq⟩
    · exact .inr ⟨_, hfinish, Text.decodeText?_bytes o.text⟩
  refine ⟨hall, Classical.byContradiction fun hnone => ?_⟩
  -- A loop that has not come to its end has made any number of turns.
  have hforever : ∀ n, ∃ p, Reaches h s n p := by
    intro n
    induction n with
    | zero => exact ⟨_, .start⟩
    | succ n ih =>
        rcases ih with ⟨p, hp⟩
        rcases (hall n p hp).2.2 with ⟨q, hq⟩ | ⟨out, hfinish, -⟩
        · exact ⟨q, .turn hp hq⟩
        · exact absurd ⟨n, p, out, hp, hfinish⟩ hnone
  rcases hforever (2 * o.replacements + 3) with ⟨p, hp⟩
  have hle := (hall _ p hp).2.1
  omega

/-- A head with two parentheses behind a character of two bytes, met first closed
    and then cut off: the loop after its first turn, and in all. -/
theorem loop_over_truncated_call :
    let h : CallHead := ⟨"é(".toList⟩
    let s : Text := "ü é((1) é((2".toList
    ∃ p, Reaches h s 1 p ∧ p.stage = .extracting ⟨3, 7⟩ ∧ p.IsSound s ∧
      (replaceCalls h s).replacements = 1 ∧ 1 + 1 ≤ 2 * 1 + 3 := by
  intro h s
  have hturn : Progress.start.turn h s =
      .ok (.goOn ⟨Text.bytes "ü ".toList, 0, 0, .extracting ⟨3, 7⟩⟩) := by rfl
  have hp := Reaches.turn .start hturn
  have hcount : (replaceCalls h s).replacements = 1 := by decide +kernel
  rcases (loop_ends_without_fault h s).1 1 _ hp with ⟨hsound, hle, -⟩
  rw [hcount] at hle
  exact ⟨_, hp, rfl, hsound, hcount, hle⟩

end Codemod
