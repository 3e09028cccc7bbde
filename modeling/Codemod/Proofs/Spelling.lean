import Codemod.Options.Parser

/-!
# Spellings of Options

The grammar of command lines, and that reading takes the words of this grammar
and no others.

The grammar says of each option alone how it may be spelled, and of switches
that they may share a word, with a setting at its end. It knows nothing of
pending settings: a setting and its value in the next word are one spelling of
two words. Reading does not look ahead, so what it does with the words of one
spelling is said with the words behind them left open. From a scan that waits
for no value it settles what is pending, enters the options of the spelling and
goes on as it would from there.

In the other direction one word is taken at a time. A word that reading gets
over is a spelling, or it is the first word of one and reading is then waiting
for the second.

## Main definitions

* `Given`: An option as it is given, with its value.
* `Draft.enter`: Entering a given option.
* `Standalone`: A word that can be the value of the option in front of it.
* `Spelling`: The spellings of one option or of one cluster.
* `Spelled`: The words of a command line and the options that they give.
* `GoesOn`: Reading on from a scan that waits for no value.
* `Scan.Took`: What is known of a word that reading got over.

## Theorems

* `Spelling.goesOn`, `Spelled.goesOn`: Reading the words of the grammar.
* `spelled_of_words`: Words that reading gets over are words of the grammar.
-/

namespace Codemod

/-- The letter of a switch. -/
def Switch.short : Switch → Char
  | .dryRun => 'n'
  | .log => 'l'

namespace Options

/-- An option as a command line gives it. -/
inductive Given
  | setting (s : Setting) (value : Text)
  | switch (s : Switch)
deriving DecidableEq

/-- The option without its value. -/
def Given.name : Given → OptionName
  | .setting s _ => .setting s
  | .switch s => .switch s

def Draft.enter (d : Draft) : Given → Except OptionError Draft
  | .setting s value => d.set s value
  | .switch s => d.turnOn s

/-- Two hyphens, which start a long option or end the options. -/
def hyphens : Text := ['-', '-']

/-- A word that can be the value of the option in front of it. -/
def Standalone (w : Text) : Prop := w = ['-'] ∨ w.head? ≠ some '-'

/-- The spellings of one option, or of switches in one word with a setting at
    its end. -/
inductive Spelling : List Text → List Given → Prop
  /-- `--name=value` -/
  | longEquals (s : Setting) (v : Text) :
    Spelling [hyphens ++ s.long.toList ++ '=' :: v] [.setting s v]
  /-- `--name value` -/
  | longNext (s : Setting) {v : Text} (h : Standalone v) :
    Spelling [hyphens ++ s.long.toList, v] [.setting s v]
  /-- `--name` -/
  | longSwitch (s : Switch) : Spelling [hyphens ++ s.long.toList] [.switch s]
  /-- `-xy` -/
  | switches {fs : List Switch} (h : fs ≠ []) :
    Spelling ['-' :: fs.map Switch.short] (fs.map .switch)
  /-- `-xyz=value` -/
  | shortEquals (fs : List Switch) {s : Setting} {c : Char}
    (hc : (OptionName.setting s).short? = some c) (v : Text) :
    Spelling ['-' :: (fs.map Switch.short ++ c :: '=' :: v)] (fs.map .switch ++ [.setting s v])
  /-- `-xyzvalue` -/
  | shortAttached (fs : List Switch) {s : Setting} {c : Char}
    (hc : (OptionName.setting s).short? = some c) {v : Text} (hne : v ≠ [])
    (heq : v.head? ≠ some '=') :
    Spelling ['-' :: (fs.map Switch.short ++ c :: v)] (fs.map .switch ++ [.setting s v])
  /-- `-xyz value` -/
  | shortNext (fs : List Switch) {s : Setting} {c : Char}
    (hc : (OptionName.setting s).short? = some c) {v : Text} (h : Standalone v) :
    Spelling ['-' :: (fs.map Switch.short ++ [c]), v] (fs.map .switch ++ [.setting s v])

/-- The words of a command line and the options that they give, in the order in
    which they are given. -/
inductive Spelled : List Text → List Given → Prop
  | nil : Spelled [] []
  | cons {w ws : List Text} {gs hs : List Given} (h : Spelling w gs) (rest : Spelled ws hs) :
    Spelled (w ++ ws) (gs ++ hs)

/-! ## Names of options -/

theorem ofLong?_setting (s : Setting) :
    OptionName.ofLong? s.long.toList = some (.setting s) := by
  cases s <;> decide

theorem ofLong?_switch (s : Switch) : OptionName.ofLong? s.long.toList = some (.switch s) := by
  cases s <;> decide

theorem ofShort?_switch (s : Switch) : OptionName.ofShort? s.short = some (.switch s) := by
  cases s <;> decide

theorem ofShort?_setting {s : Setting} {c : Char}
    (h : (OptionName.setting s).short? = some c) :
    OptionName.ofShort? c = some (.setting s) := by
  cases s <;> cases h <;> decide

theorem ofShort?_switch_iff {c : Char} {s : Switch} :
    OptionName.ofShort? c = some (.switch s) ↔ c = s.short := by
  refine ⟨fun h => ?_, fun h => h ▸ ofShort?_switch s⟩
  have := List.find?_some h
  cases s <;> exact (Option.some.inj (of_decide_eq_true this)).symm

theorem long_of_ofLong? {name : Text} {o : OptionName} (h : OptionName.ofLong? name = some o) :
    name = o.long.toList :=
  have hfound := List.find?_some (p := fun o : OptionName => decide (o.long.toList = name)) h
  (of_decide_eq_true hfound).symm

theorem short_of_ofShort? {c : Char} {o : OptionName} (h : OptionName.ofShort? c = some o) :
    o.short? = some c :=
  of_decide_eq_true (List.find?_some (p := fun o : OptionName => decide (o.short? = some c)) h)

theorem long_ne_equals (s : Setting) : ∀ c ∈ s.long.toList, decide (c ≠ '=') = true :=
  List.all_eq_true.1 (by cases s <;> rfl)

theorem splitLong_equals (s : Setting) (v : Text) :
    Scan.splitLong (s.long.toList ++ '=' :: v) = (s.long.toList, some v) := by
  rw [Scan.splitLong, List.takeWhile_append_of_pos (long_ne_equals s),
    List.dropWhile_append_of_pos (long_ne_equals s)]
  simp

theorem splitLong_setting (s : Setting) :
    Scan.splitLong s.long.toList = (s.long.toList, none) := by
  cases s <;> decide

theorem splitLong_switch (s : Switch) : Scan.splitLong s.long.toList = (s.long.toList, none) := by
  cases s <;> decide

/-- What stands behind two hyphens, put together again. -/
theorem append_splitLong (s : Text) :
    (Scan.splitLong s).1 ++ (Scan.splitLong s).2.elim [] ('=' :: ·) = s := by
  induction s with
  | nil => rfl
  | cons c s ih =>
      by_cases hc : c = '='
      · subst hc
        simp [Scan.splitLong]
      · simp only [Scan.splitLong] at ih
        simpa [Scan.splitLong, hc] using ih

/-! ## Reading the words of the grammar -/

namespace Scan

/-- No value is waited for. -/
def Ready (st : Scan) : Prop := ∀ s, st.pending ≠ some (s, none)

theorem ready_draft (d : Draft) : Ready { draft := d } := nofun

theorem ready_value (d : Draft) (s : Setting) (v : Text) :
    Ready { draft := d, pending := some (s, some v) } := nofun

theorem words_cons {w : Text} (h : w ≠ hyphens) (st : Scan) (ws : List Text) :
    st.words (w :: ws) = st.word w >>= fun st => st.words ws := by
  rw [words.eq_def]
  exact if_neg h

theorem word_standalone {w : Text} (h : Standalone w) (st : Scan) : st.word w = st.value w := by
  rcases h with rfl | h
  · rfl
  · unfold word
    split
    · exact absurd rfl h
    · exact absurd rfl h
    · rfl

theorem words_value {v : Text} (h : Standalone v) (d : Draft) (s : Setting) (ws : List Text) :
    words { draft := d, pending := some (s, none) } (v :: ws) =
      words { draft := d, pending := some (s, some v) } ws := by
  have hne : v ≠ hyphens := by
    rintro rfl
    rcases h with h | h
    · cases h
    · exact h rfl
  rw [words_cons hne, word_standalone h]
  rfl

theorem value_ne_ok {st : Scan} (h : st.Ready) (w : Text) (st' : Scan) : st.value w ≠ .ok st' := by
  intro hv
  unfold value at hv
  split at hv
  · rename_i s hs
    exact h s hs
  · cases hv

theorem words_long {s : Text} (h : s ≠ []) (st : Scan) (ws : List Text) :
    st.words ((hyphens ++ s) :: ws) =
      st.long (splitLong s).1 (splitLong s).2 >>= fun st => st.words ws :=
  words_cons (fun e => h (List.append_cancel_left (e.trans (List.append_nil hyphens).symm))) st ws

theorem words_cluster {c : Char} (hc : c ≠ '-') (st : Scan) (s : Text) (ws : List Text) :
    st.words (('-' :: c :: s) :: ws) = st.cluster (c :: s) >>= fun st => st.words ws := by
  rw [words_cons (fun e => hc (List.cons.inj (List.cons.inj e).2).1), word]
  exact hc

end Scan

section Forward

variable {st : Scan} {ws : List Text} {K : Draft → Except OptionError Draft}

/-- Going on from a scan that waits for no value is to settle it and to go on
    from the draft. -/
def GoesOn (ws : List Text) (K : Draft → Except OptionError Draft) : Prop :=
  ∀ st : Scan, st.Ready → st.words ws = st.settle >>= K

theorem GoesOn.draft (h : GoesOn ws K) (d : Draft) : Scan.words { draft := d } ws = K d :=
  h { draft := d } (Scan.ready_draft d)

theorem GoesOn.value (h : GoesOn ws K) (d : Draft) (s : Setting) (v : Text) :
    Scan.words { draft := d, pending := some (s, some v) } ws = d.set s v >>= K :=
  h _ (Scan.ready_value d s v)

theorem GoesOn.attached (h : GoesOn ws K) (st : Scan) (s : Setting) (v : Text) :
    (st.attached s v >>= fun st => st.words ws) = st.settle >>= fun d => d.set s v >>= K := by
  simp only [Scan.attached, bind_assoc, pure_bind, h.draft]

theorem GoesOn.bare (h : GoesOn ws K) (st : Scan) (s : Setting) {v : Text} (hv : Standalone v) :
    (st.bare s >>= fun st => st.words (v :: ws)) = st.settle >>= fun d => d.set s v >>= K := by
  simp only [Scan.bare, bind_assoc, pure_bind, Scan.words_value hv, h.value]

theorem GoesOn.switch (h : GoesOn ws K) (st : Scan) (s : Switch) :
    (st.switch s >>= fun st => st.words ws) = st.settle >>= fun d => d.turnOn s >>= K := by
  simp only [Scan.switch, bind_assoc, pure_bind, h.draft]

/-- Switches in one word are entered one by one. -/
theorem cluster_switches {F : Scan → Except OptionError Draft} (rest : Text)
    (h : ∀ st : Scan, st.Ready → st.cluster rest >>= F = st.settle >>= K) (fs : List Switch)
    (hst : st.Ready) :
    st.cluster (fs.map Switch.short ++ rest) >>= F =
      st.settle >>= fun d => (fs.map Given.switch).foldlM Draft.enter d >>= K := by
  induction fs generalizing st with
  | nil =>
      simp only [List.map_nil, List.nil_append, List.foldlM_nil, pure_bind]
      exact h st hst
  | cons f fs ih =>
      simp only [List.map_cons, List.cons_append, Scan.cluster, ofShort?_switch, Scan.switch,
        bind_assoc, pure_bind, ih (Scan.ready_draft _), List.foldlM_cons]
      rfl

theorem cluster_setting {s : Setting} {c : Char} (hc : (OptionName.setting s).short? = some c)
    (st : Scan) (rest : Text) :
    st.cluster (c :: rest) =
      match rest with
      | [] => st.bare s
      | '=' :: v => st.attached s v
      | v => st.attached s v := by
  rw [Scan.cluster, ofShort?_setting hc]
  rfl

theorem short_ne_hyphen (s : Switch) : s.short ≠ '-' := by
  cases s <;> decide

theorem setting_ne_hyphen {s : Setting} {c : Char}
    (h : (OptionName.setting s).short? = some c) : c ≠ '-' := by
  cases s <;> cases h <;> decide

-- A cluster of switches in front of other letters is no long option.
theorem words_cluster_append (fs : List Switch) {rest : Text} (hrest : rest.head? ≠ some '-')
    (hne : fs.map Switch.short ++ rest ≠ []) (st : Scan) (ws : List Text) :
    st.words (('-' :: (fs.map Switch.short ++ rest)) :: ws) =
      st.cluster (fs.map Switch.short ++ rest) >>= fun st => st.words ws := by
  cases fs with
  | nil =>
      rcases List.exists_cons_of_ne_nil hne with ⟨c, t, hct⟩
      rw [hct]
      refine Scan.words_cluster (fun e => hrest ?_) st t ws
      rw [List.map_nil, List.nil_append] at hct
      rw [hct, e]
      rfl
  | cons f fs => exact Scan.words_cluster (short_ne_hyphen f) st _ ws

theorem words_cluster_setting {s : Setting} {c : Char}
    (hc : (OptionName.setting s).short? = some c) (fs : List Switch) (rest : Text) (st : Scan)
    (ws : List Text) :
    st.words (('-' :: (fs.map Switch.short ++ c :: rest)) :: ws) =
      st.cluster (fs.map Switch.short ++ c :: rest) >>= fun st => st.words ws :=
  words_cluster_append fs (by simpa using setting_ne_hyphen hc) (by simp) st ws

/-- The words of one spelling enter its options. -/
theorem Spelling.goesOn {w : List Text} {gs : List Given} (h : Spelling w gs) (hK : GoesOn ws K) :
    GoesOn (w ++ ws) fun d => gs.foldlM Draft.enter d >>= K := by
  intro st hst
  cases h with
  | longEquals s v =>
      rw [List.singleton_append, List.append_assoc, Scan.words_long (by simp), splitLong_equals]
      simp only [Scan.long, ofLong?_setting, hK.attached, List.foldlM_cons, List.foldlM_nil,
        bind_pure, Draft.enter]
  | longNext s hv =>
      rw [List.cons_append, List.singleton_append,
        Scan.words_long (by cases s <;> decide), splitLong_setting]
      simp only [Scan.long, ofLong?_setting, hK.bare _ _ hv, List.foldlM_cons, List.foldlM_nil,
        bind_pure, Draft.enter]
  | longSwitch s =>
      rw [List.singleton_append, Scan.words_long (by cases s <;> decide), splitLong_switch]
      simp only [Scan.long, ofLong?_switch, hK.switch, List.foldlM_cons, List.foldlM_nil,
        bind_pure, Draft.enter]
  | @switches fs hne =>
      have hempty : ([] : Text).head? ≠ some '-' := nofun
      have hwords := words_cluster_append fs hempty (by simpa using hne) st ws
      have hcluster := cluster_switches (F := fun st => st.words ws) [] hK fs hst
      rw [List.append_nil] at hwords hcluster
      rw [List.singleton_append, hwords, hcluster]
  | shortEquals fs hc v =>
      rw [List.singleton_append, words_cluster_setting hc,
        cluster_switches _ (fun st _ => by rw [cluster_setting hc]; exact hK.attached st _ v) fs
          hst]
      simp only [List.foldlM_append, List.foldlM_cons, List.foldlM_nil, bind_pure, bind_assoc,
        Draft.enter]
  | @shortAttached fs s c hc v hne heq =>
      have hcluster : ∀ st : Scan, st.cluster (c :: v) = st.attached s v := by
        intro st
        rw [cluster_setting hc]
        split
        · exact absurd rfl hne
        · exact absurd rfl heq
        · rfl
      rw [List.singleton_append, words_cluster_setting hc,
        cluster_switches _ (fun st _ => by rw [hcluster]; exact hK.attached st _ v) fs hst]
      simp only [List.foldlM_append, List.foldlM_cons, List.foldlM_nil, bind_pure, bind_assoc,
        Draft.enter]
  | shortNext fs hc hv =>
      rw [List.cons_append, List.singleton_append, words_cluster_setting hc,
        cluster_switches _ (fun st _ => by rw [cluster_setting hc]; exact hK.bare st _ hv) fs hst]
      simp only [List.foldlM_append, List.foldlM_cons, List.foldlM_nil, bind_pure, bind_assoc,
        Draft.enter]

/-- The words of the grammar are read by entering their options one by one. Two
    hyphens behind them change nothing. -/
theorem Spelled.goesOn {words : List Text} {gs : List Given} (h : Spelled words gs)
    {ending : List Text} (he : ending = [] ∨ ending = [hyphens]) :
    GoesOn (words ++ ending) fun d => gs.foldlM Draft.enter d := by
  induction h with
  | nil =>
      intro st _
      simp only [List.foldlM_nil, bind_pure]
      rcases he with rfl | rfl <;> rfl
  | cons h _ ih =>
      rw [List.append_assoc]
      simpa only [List.foldlM_append] using h.goesOn ih

end Forward

/-! ## Words that reading gets over -/

section Converse

variable {st st' : Scan}

/-- A pending setting is settled. -/
def Scan.Settles (st : Scan) : Prop := ∃ d, st.settle = .ok d

theorem settles_of_bind {α : Type} {F : Draft → Except OptionError α} {a : α}
    (h : st.settle >>= F = .ok a) : st.Settles ∧ ∃ d, F d = .ok a := by
  cases hd : st.settle with
  | error e =>
      rw [hd] at h
      cases h
  | ok d =>
      rw [hd] at h
      exact ⟨⟨d, hd⟩, d, h⟩

theorem not_settles_of_awaiting {s : Setting} (h : st.pending = some (s, none)) :
    ¬st.Settles := by
  rintro ⟨d, hd⟩
  rw [Scan.settle, h] at hd
  cases hd

theorem attached_ok {s : Setting} {v : Text} (h : st.attached s v = .ok st') :
    st.Settles ∧ st'.Ready := by
  rcases settles_of_bind h with ⟨hs, d, hd⟩
  cases hset : d.set s v with
  | error e =>
      rw [hset] at hd
      cases hd
  | ok d' =>
      rw [hset] at hd
      cases hd
      exact ⟨hs, Scan.ready_draft d'⟩

theorem bare_ok {s : Setting} (h : st.bare s = .ok st') :
    st.Settles ∧ st'.pending = some (s, none) := by
  rcases settles_of_bind h with ⟨hs, d, hd⟩
  cases hd
  exact ⟨hs, rfl⟩

theorem switch_ok {s : Switch} (h : st.switch s = .ok st') : st.Settles ∧ st'.Ready := by
  rcases settles_of_bind h with ⟨hs, d, hd⟩
  cases hon : d.turnOn s with
  | error e =>
      rw [hon] at hd
      cases hd
  | ok d' =>
      rw [hon] at hd
      cases hd
      exact ⟨hs, Scan.ready_draft d'⟩

theorem help_ne_ok (st st' : Scan) : st.help ≠ .ok st' := by
  intro h
  rcases settles_of_bind h with ⟨-, d, hd⟩
  cases hd

/-- A word was a spelling, or it is the first word of one and its value is
    waited for. -/
def Scan.Took (st : Scan) (w : Text) : Prop :=
  (st.Ready ∧ ∃ gs, Spelling [w] gs) ∨
    ∃ s, st.pending = some (s, none) ∧ ∀ v, Standalone v → ∃ gs, Spelling [w, v] gs

theorem long_ok {s : Text} (h : st.long (Scan.splitLong s).1 (Scan.splitLong s).2 = .ok st') :
    st.Settles ∧ st'.Took (hyphens ++ s) := by
  have hs := append_splitLong s
  cases hname : OptionName.ofLong? (Scan.splitLong s).1 with
  | none =>
      simp only [Scan.long, hname] at h
      cases h
  | some o =>
      rw [long_of_ofLong? hname] at hs
      simp only [Scan.long, hname] at h
      cases hv : (Scan.splitLong s).2 with
      | none =>
          simp only [hv] at h hs
          rw [Option.elim_none, List.append_nil] at hs
          subst hs
          cases o with
          | setting s =>
              rcases bare_ok h with ⟨hsettles, hpending⟩
              exact ⟨hsettles, .inr ⟨s, hpending, fun v hv => ⟨_, .longNext s hv⟩⟩⟩
          | switch s =>
              rcases switch_ok h with ⟨hsettles, hready⟩
              exact ⟨hsettles, .inl ⟨hready, _, .longSwitch s⟩⟩
          | help => exact absurd h (help_ne_ok st st')
      | some v =>
          simp only [hv] at h hs
          rw [Option.elim_some] at hs
          subst hs
          cases o with
          | setting s =>
              rcases attached_ok h with ⟨hsettles, hready⟩
              have hspelling := Spelling.longEquals s v
              rw [List.append_assoc] at hspelling
              exact ⟨hsettles, .inl ⟨hready, _, hspelling⟩⟩
          | switch s => cases h
          | help => cases h

/-- Letters behind switches that were met before. -/
theorem cluster_ok {cs : Text} (fs : List Switch) (hfs : cs = [] → fs ≠ [] ∧ st.Ready)
    (h : st.cluster cs = .ok st') :
    (cs ≠ [] → st.Settles) ∧ st'.Took ('-' :: (fs.map Switch.short ++ cs)) := by
  induction cs generalizing st fs with
  | nil =>
      rcases hfs rfl with ⟨hne, hready⟩
      cases h
      rw [List.append_nil]
      exact ⟨fun hnil => absurd rfl hnil, .inl ⟨hready, _, .switches hne⟩⟩
  | cons c cs ih =>
      rw [Scan.cluster] at h
      cases ho : OptionName.ofShort? c with
      | none =>
          rw [ho] at h
          cases h
      | some o =>
          rw [ho] at h
          cases o with
          | switch f =>
              cases hf : st.switch f with
              | error e =>
                  simp only [hf] at h
                  cases h
              | ok st₁ =>
                  simp only [hf] at h
                  rcases switch_ok hf with ⟨hsettles, hready⟩
                  rcases ih (fs ++ [f]) (fun _ => ⟨by simp, hready⟩) h with ⟨-, htook⟩
                  rw [ofShort?_switch_iff.1 ho]
                  rw [List.map_append, List.append_assoc] at htook
                  exact ⟨fun _ => hsettles, htook⟩
          | help => exact absurd h (help_ne_ok st st')
          | setting s =>
              have hc := short_of_ofShort? ho
              simp only [] at h
              split at h
              · rcases bare_ok h with ⟨hsettles, hpending⟩
                exact ⟨fun _ => hsettles, .inr ⟨s, hpending, fun v hv => ⟨_, .shortNext fs hc hv⟩⟩⟩
              · rename_i v
                rcases attached_ok h with ⟨hsettles, hready⟩
                exact ⟨fun _ => hsettles, .inl ⟨hready, _, .shortEquals fs hc v⟩⟩
              · rename_i hnil heq
                rcases attached_ok h with ⟨hsettles, hready⟩
                refine ⟨fun _ => hsettles, .inl ⟨hready, _, .shortAttached fs hc hnil ?_⟩⟩
                intro hhead
                rcases List.head?_eq_some_iff.1 hhead with ⟨v, hv⟩
                exact heq v hv

/-- A word that starts with a hyphen and has more to it is an option. -/
theorem word_ok {c : Char} {s : Text} (h : st.word ('-' :: c :: s) = .ok st') :
    st.Settles ∧ st'.Took ('-' :: c :: s) := by
  by_cases hc : c = '-'
  · subst hc
    exact long_ok h
  · rw [Scan.word] at h
    · rcases cluster_ok [] (fun hnil => absurd hnil (List.cons_ne_nil c s)) h with
        ⟨hsettles, htook⟩
      exact ⟨hsettles (List.cons_ne_nil c s), htook⟩
    · exact hc

theorem standalone_or (w : Text) : Standalone w ∨ ∃ c s, w = '-' :: c :: s := by
  rcases w with _ | ⟨a, _ | ⟨c, s⟩⟩
  · exact .inl (.inr nofun)
  · by_cases ha : a = '-'
    · exact .inl (.inl (by rw [ha]))
    · exact .inl (.inr fun e => ha (Option.some.inj e))
  · by_cases ha : a = '-'
    · exact .inr ⟨c, s, by rw [ha]⟩
    · exact .inl (.inr fun e => ha (Option.some.inj e))

-- What is waited for has to come next.
theorem words_awaiting {d : Draft} {s : Setting} {words : List Text}
    (hst : st.pending = some (s, none)) (h : st.words words = .ok d) :
    ∃ v rest, words = v :: rest ∧ Standalone v ∧
      Scan.words { draft := st.draft, pending := some (s, some v) } rest = .ok d := by
  have hsettles := not_settles_of_awaiting hst
  rcases words with _ | ⟨w, ws⟩
  · exact absurd ⟨d, h⟩ hsettles
  · rcases standalone_or w with hw | ⟨c, t, rfl⟩
    · have hst' : st = { draft := st.draft, pending := some (s, none) } := by rw [← hst]
      rw [hst', Scan.words_value hw] at h
      exact ⟨w, ws, rfl, hw, h⟩
    · by_cases hend : '-' :: c :: t = hyphens
      · rw [Scan.words.eq_def] at h
        simp only [hend] at h
        cases ws with
        | nil => exact absurd ⟨d, h⟩ hsettles
        | cons => cases h
      · rw [Scan.words_cons hend] at h
        cases hw : st.word ('-' :: c :: t) with
        | error e =>
            rw [hw] at h
            cases h
        | ok st' => exact absurd (word_ok hw).1 hsettles

/-- Words that reading gets over are words of the grammar, perhaps with two
    hyphens behind them. -/
theorem spelled_of_words {d : Draft} {words : List Text} (hst : st.Ready)
    (h : st.words words = .ok d) :
    ∃ ws gs, Spelled ws gs ∧ (words = ws ∨ words = ws ++ [hyphens]) := by
  -- A spelling may take two words, so the induction is on their number.
  induction hn : words.length using Nat.strongRecOn generalizing st words with
  | ind n ih =>
      rcases words with _ | ⟨w, ws⟩
      · exact ⟨[], [], .nil, .inl rfl⟩
      · by_cases hend : w = hyphens
        · rw [Scan.words.eq_def] at h
          simp only [hend] at h
          cases ws with
          | nil => exact ⟨[], [], .nil, .inr (by rw [hend]; rfl)⟩
          | cons => cases h
        · rw [Scan.words_cons hend] at h
          cases hw : st.word w with
          | error e =>
              rw [hw] at h
              cases h
          | ok st' =>
              rw [hw] at h
              rw [List.length_cons] at hn
              rcases standalone_or w with hv | ⟨c, t, rfl⟩
              · rw [Scan.word_standalone hv] at hw
                exact absurd hw (Scan.value_ne_ok hst w st')
              · rcases word_ok hw with ⟨-, ⟨hready, gs, hg⟩ | ⟨s, hpending, hg⟩⟩
                · rcases ih ws.length (by omega) hready h rfl with ⟨ws', hs, hspelled, hend'⟩
                  exact ⟨_, _, .cons hg hspelled,
                    hend'.imp (congrArg ([_] ++ ·)) (congrArg ([_] ++ ·))⟩
                · rcases words_awaiting hpending h with ⟨v, rest, rfl, hv, h'⟩
                  rw [List.length_cons] at hn
                  rcases ih rest.length (by omega) (Scan.ready_value st'.draft s v) h' rfl with
                    ⟨ws', hs, hspelled, hend'⟩
                  rcases hg v hv with ⟨gs, hg⟩
                  exact ⟨_, _, .cons hg hspelled,
                    hend'.imp (congrArg ([_, v] ++ ·)) (congrArg ([_, v] ++ ·))⟩

end Converse

end Options

end Codemod
