import Codemod.Proofs.Spelling

/-!
# Options from a Command Line

The options that a command line gives are those it lists. Reading enters given
options into a draft, and a draft never forgets or changes what was entered:
it holds exactly the options given so far. From that follows when an option
can be entered, namely when its value is one that it can have and no option of
its name was given before, and also that the order does not matter.

## Main definitions

* `Given.IsProper`: A given option whose value is one that it can have.
* `Draft.Gives`: An option that a draft holds.
* `Given.Sets`, `Options.IsDefault`: An option in the result, and one that is
  left at its default.
* `Lists`: A list of given options that amounts to a result.
* `Spells`: The words of a command line that spell given options.

## Theorems

* `enter_gives`, `foldlM_gives`: What a draft holds after entering.
* `foldlM_ok_iff`: When all options of a list can be entered.
* `ofWords_grammar`: The command lines that give options.
-/

namespace Codemod

namespace Options

/-- A value that an option can have. -/
def Given.IsProper : Given → Prop
  | .setting .root v => v ≠ []
  | .setting .sourceDir v => v ≠ []
  | .setting .extension _ => True
  | .setting .format v => ∃ f : ReportFormat, v = f.name.toList
  | .switch _ => True

/-- An option that a draft holds. -/
def Draft.Gives (d : Draft) : Given → Prop
  | .setting .root v => d.root = some v
  | .setting .sourceDir v => d.sourceDir = some v
  | .setting .extension v => d.extension = some v
  | .setting .format v => ∃ f, d.format = some f ∧ v = f.name.toList
  | .switch .dryRun => d.dryRun = true
  | .switch .log => d.log = true

/-- An option that has its value in the result. -/
def Given.Sets (o : Options) : Given → Prop
  | .setting .root v => v ≠ [] ∧ o.root = some (.ofText v)
  | .setting .sourceDir v => v ≠ [] ∧ o.sourceDir = .ofText v
  | .setting .extension v => o.extension = String.ofList v
  | .setting .format v => v = o.format.name.toList
  | .switch .dryRun => o.dryRun = true
  | .switch .log => o.log = true

/-- Two results are the same as to one option. -/
def AgreeOn (o o' : Options) : OptionName → Prop
  | .setting .root => o.root = o'.root
  | .setting .sourceDir => o.sourceDir = o'.sourceDir
  | .setting .extension => o.extension = o'.extension
  | .setting .format => o.format = o'.format
  | .switch .dryRun => o.dryRun = o'.dryRun
  | .switch .log => o.log = o'.log
  | .help => True

/-- An option that is left at its default. -/
def IsDefault (o : Options) (n : OptionName) : Prop := o.AgreeOn {} n

/-- A list of given options that amounts to `o`: no option comes twice, each has
    the value that it has in `o`, and none is missing that `o` does not leave at
    its default. -/
structure Lists (gs : List Given) (o : Options) : Prop where
  once : (gs.map Given.name).Nodup
  sets : ∀ g ∈ gs, g.Sets o
  complete : ∀ n, ¬o.IsDefault n → n ∈ gs.map Given.name

/-- The words of a command line that spell given options, perhaps with two
    hyphens behind them. -/
def Spells (argv : List String) (gs : List Given) : Prop :=
  ∃ ws, Spelled ws gs ∧
    (argv.map String.toList = ws ∨ argv.map String.toList = ws ++ [hyphens])

/-! ## Entering an option -/

/-- A draft with an option in its place. -/
def Draft.put (d : Draft) : Given → Draft
  | .setting .root v => { d with root := some v }
  | .setting .sourceDir v => { d with sourceDir := some v }
  | .setting .extension v => { d with extension := some v }
  | .setting .format v => { d with format := ReportFormat.ofName? v }
  | .switch .dryRun => { d with dryRun := true }
  | .switch .log => { d with log := true }

/-- A draft that holds no option of a name. -/
def Draft.IsFree (d : Draft) (n : OptionName) : Prop := ∀ g, d.Gives g → g.name ≠ n

theorem has_iff {d : Draft} {s : Setting} :
    d.has s = true ↔ ∃ v, d.Gives (.setting s v) := by
  cases s with
  | root | sourceDir | extension => exact Option.isSome_iff_exists
  | format =>
      refine Option.isSome_iff_exists.trans ⟨fun ⟨f, hf⟩ => ⟨_, f, hf, rfl⟩, ?_⟩
      rintro ⟨-, f, hf, -⟩
      exact ⟨f, hf⟩

theorem isFree_setting {d : Draft} {s : Setting} :
    d.IsFree (.setting s) ↔ d.has s = false := by
  rw [← Bool.not_eq_true, has_iff, not_exists]
  constructor
  · exact fun h v hv => h _ hv rfl
  · rintro h (⟨s', v⟩ | s') hg e
    · cases e
      exact h v hg
    · cases e

theorem isFree_switch {d : Draft} {s : Switch} :
    d.IsFree (.switch s) ↔ ¬d.Gives (.switch s) := by
  constructor
  · exact fun h hg => h _ hg rfl
  · rintro h (⟨s', v⟩ | s') hg e
    · cases e
    · cases e
      exact h hg

theorem ofName?_eq_some_iff {v : Text} {f : ReportFormat} :
    ReportFormat.ofName? v = some f ↔ v = f.name.toList := by
  constructor
  · intro h
    unfold ReportFormat.ofName? at h
    split at h
    · rename_i hv
      cases h
      exact hv
    · split at h
      · rename_i hv
        cases h
        exact hv
      · cases h
  · rintro rfl
    cases f <;> decide

theorem enter_ok_iff {d d' : Draft} {g : Given} :
    d.enter g = .ok d' ↔ d.IsFree g.name ∧ g.IsProper ∧ d.put g = d' := by
  rcases g with ⟨s, v⟩ | ⟨s⟩
  · rw [Draft.enter, Draft.set.eq_def, Given.name, isFree_setting]
    cases hhas : d.has s
    · cases s with
      | root | sourceDir =>
          by_cases hv : v = [] <;> simp [Given.IsProper, Draft.put, hv]
      | extension => simp [Given.IsProper, Draft.put]
      | format =>
          cases hf : ReportFormat.ofName? v with
          | none =>
              have himproper : ¬(Given.setting .format v).IsProper := by
                rintro ⟨f, e⟩
                rw [ofName?_eq_some_iff.2 e] at hf
                cases hf
              by_cases hv : v = []
              · simp [if_pos hv, himproper]
              · simp [if_neg hv, himproper]
          | some f =>
              have hv : v ≠ [] := by
                rw [ofName?_eq_some_iff.1 hf]
                cases f <;> decide
              have hproper : (Given.setting .format v).IsProper := ⟨f, ofName?_eq_some_iff.1 hf⟩
              simp [Draft.put, hv, hf, hproper]
    · simp
  · rw [Draft.enter, Draft.turnOn.eq_def, Given.name, isFree_switch]
    cases s with
    | dryRun =>
        rw [Draft.Gives]
        cases d.dryRun <;> simp [Given.IsProper, Draft.put]
    | log =>
        rw [Draft.Gives]
        cases d.log <;> simp [Given.IsProper, Draft.put]

-- Entering an option leaves the places of the others as they are.
theorem put_gives_of_name_ne {d : Draft} {g g' : Given} (h : g'.name ≠ g.name) :
    (d.put g).Gives g' ↔ d.Gives g' := by
  rcases g with ⟨_ | _ | _ | _, v⟩ | ⟨_ | _⟩ <;>
    rcases g' with ⟨_ | _ | _ | _, v'⟩ | ⟨_ | _⟩ <;>
    first | exact absurd rfl h | exact Iff.rfl

theorem put_gives_of_name_eq {d : Draft} {g g' : Given} (hproper : g.IsProper)
    (h : g'.name = g.name) : (d.put g).Gives g' ↔ g = g' := by
  rcases g with ⟨s, v⟩ | s
  · rcases g' with ⟨s', v'⟩ | s'
    · cases h
      cases s with
      | root | sourceDir | extension => simp [Draft.put, Draft.Gives]
      | format =>
          rcases hproper with ⟨f, rfl⟩
          have hf := ofName?_eq_some_iff.2 (rfl : f.name.toList = f.name.toList)
          rw [Draft.put, Draft.Gives, hf]
          simp [eq_comm]
    · cases h
  · rcases g' with ⟨s', v'⟩ | s'
    · cases h
    · cases h
      cases s <;> simp [Draft.put, Draft.Gives]

/-- A draft holds what it held and the option that was entered. -/
theorem put_gives {d : Draft} {g : Given} (hfree : d.IsFree g.name) (hproper : g.IsProper)
    (g' : Given) : (d.put g).Gives g' ↔ d.Gives g' ∨ g = g' := by
  by_cases hname : g'.name = g.name
  · rw [put_gives_of_name_eq hproper hname, or_iff_right fun hg => hfree g' hg hname]
  · rw [put_gives_of_name_ne hname, or_iff_left fun e => hname (congrArg Given.name e.symm)]

/-! ## Entering a list of options -/

theorem enter_foldlM_ok {g : Given} {gs : List Given} {d d' : Draft}
    (h : (g :: gs).foldlM Draft.enter d = .ok d') :
    d.IsFree g.name ∧ g.IsProper ∧ gs.foldlM Draft.enter (d.put g) = .ok d' := by
  rw [List.foldlM_cons] at h
  cases he : d.enter g with
  | error e =>
      rw [he] at h
      cases h
  | ok d₁ =>
      rw [he] at h
      rcases enter_ok_iff.1 he with ⟨hfree, hproper, rfl⟩
      exact ⟨hfree, hproper, h⟩

/-- What a draft holds after a list of options was entered. -/
theorem foldlM_gives {gs : List Given} {d d' : Draft} (h : gs.foldlM Draft.enter d = .ok d')
    (g : Given) : d'.Gives g ↔ d.Gives g ∨ g ∈ gs := by
  induction gs generalizing d with
  | nil =>
      cases h
      simp
  | cons x gs ih =>
      rcases enter_foldlM_ok h with ⟨hfree, hproper, h⟩
      rw [ih h, put_gives hfree hproper, List.mem_cons, or_assoc, eq_comm (a := x)]

/-- A list of options can be entered when each has a value that it can have and
    comes for the first time. -/
theorem foldlM_ok_iff {gs : List Given} {d : Draft} :
    (∃ d', gs.foldlM Draft.enter d = .ok d') ↔
      (∀ g ∈ gs, g.IsProper) ∧ (gs.map Given.name).Nodup ∧ ∀ g ∈ gs, d.IsFree g.name := by
  induction gs generalizing d with
  | nil => exact iff_of_true ⟨d, rfl⟩ ⟨nofun, List.nodup_nil, nofun⟩
  | cons x gs ih =>
      rw [List.map_cons, List.nodup_cons, List.forall_mem_cons, List.forall_mem_cons]
      constructor
      · rintro ⟨d', h⟩
        rcases enter_foldlM_ok h with ⟨hfree, hproper, h⟩
        rcases ih.1 ⟨d', h⟩ with ⟨hpropers, hnodup, hfrees⟩
        have hx : (d.put x).Gives x := (put_gives hfree hproper x).2 (.inr rfl)
        refine ⟨⟨hproper, hpropers⟩, ⟨?_, hnodup⟩, hfree, fun g hg y hy => ?_⟩
        · rintro hmem
          rcases List.mem_map.1 hmem with ⟨g, hg, hname⟩
          exact hfrees g hg x hx hname.symm
        · exact hfrees g hg y ((put_gives hfree hproper y).2 (.inl hy))
      · rintro ⟨⟨hproper, hpropers⟩, ⟨hnotmem, hnodup⟩, hfree, hfrees⟩
        have he : d.enter x = .ok (d.put x) := enter_ok_iff.2 ⟨hfree, hproper, rfl⟩
        rw [List.foldlM_cons, he]
        refine ih.2 ⟨hpropers, hnodup, fun g hg y hy hname => ?_⟩
        rcases (put_gives hfree hproper y).1 hy with hy | rfl
        · exact hfrees g hg y hy hname
        · exact hnotmem (List.mem_map.2 ⟨g, hg, hname.symm⟩)

/-! ## Results -/

theorem not_gives_empty (g : Given) : ¬({} : Draft).Gives g := by
  rcases g with ⟨_ | _ | _ | _, v⟩ | ⟨_ | _⟩ <;> simp [Draft.Gives]

theorem Given.Sets.isProper {o : Options} {g : Given} (h : g.Sets o) : g.IsProper := by
  rcases g with ⟨_ | _ | _ | _, v⟩ | s
  · exact h.1
  · exact h.1
  · trivial
  · exact ⟨_, h⟩
  · trivial

theorem sets_finish {d : Draft} {g : Given} (hproper : g.IsProper) (h : d.Gives g) :
    g.Sets d.finish := by
  rcases g with ⟨_ | _ | _ | _, v⟩ | ⟨_ | _⟩
  · exact ⟨hproper, congrArg (Option.map Path.ofText) h⟩
  · rw [Draft.Gives] at h
    exact ⟨hproper, by rw [Draft.finish, h]; rfl⟩
  · rw [Draft.Gives] at h
    rw [Given.Sets, Draft.finish, h]
    rfl
  · rcases h with ⟨f, hf, rfl⟩
    rw [Given.Sets, Draft.finish, hf]
    rfl
  · exact h
  · exact h

-- A place that nothing was entered into shows its default.
theorem isDefault_finish {d : Draft} {n : OptionName} (h : d.IsFree n) : d.finish.IsDefault n := by
  rcases n with s | s | _
  · rw [isFree_setting] at h
    cases s <;> simp_all [Draft.has, IsDefault, AgreeOn, Draft.finish]
  · rw [isFree_switch] at h
    cases s <;> simp_all [Draft.Gives, IsDefault, AgreeOn, Draft.finish]
  · trivial

theorem lists_finish {gs : List Given} {d : Draft} (h : gs.foldlM Draft.enter {} = .ok d) :
    Lists gs d.finish := by
  rcases foldlM_ok_iff.1 ⟨d, h⟩ with ⟨hproper, hnodup, -⟩
  refine ⟨hnodup, fun g hg => ?_, fun n hn => ?_⟩
  · exact sets_finish (hproper g hg) ((foldlM_gives h g).2 (.inr hg))
  · refine Classical.byContradiction fun hmem => hn (isDefault_finish fun g hg hname => hmem ?_)
    have hgs := ((foldlM_gives h g).1 hg).resolve_left (not_gives_empty g)
    exact List.mem_map.2 ⟨g, hgs, hname⟩

theorem eq_of_agreeOn {o o' : Options} (h : ∀ n, o.AgreeOn o' n) : o = o' := by
  cases o
  cases o'
  congr
  · exact h (.setting .root)
  · exact h (.setting .sourceDir)
  · exact h (.setting .extension)
  · exact h (.switch .dryRun)
  · exact h (.setting .format)
  · exact h (.switch .log)

theorem AgreeOn.symm {o o' : Options} {n : OptionName} (h : o.AgreeOn o' n) : o'.AgreeOn o n := by
  rcases n with ⟨_ | _ | _ | _⟩ | ⟨_ | _⟩ | _ <;> first | exact Eq.symm h | trivial

theorem AgreeOn.trans {o o' o'' : Options} {n : OptionName} (h : o.AgreeOn o' n)
    (h' : o'.AgreeOn o'' n) : o.AgreeOn o'' n := by
  rcases n with ⟨_ | _ | _ | _⟩ | ⟨_ | _⟩ | _ <;> first | exact Eq.trans h h' | trivial

theorem agreeOn_of_sets {o o' : Options} {g : Given} (h : g.Sets o) (h' : g.Sets o') :
    o.AgreeOn o' g.name := by
  rcases g with ⟨_ | _ | _ | _, v⟩ | ⟨_ | _⟩
  · exact h.2.trans h'.2.symm
  · exact h.2.trans h'.2.symm
  · exact h.trans h'.symm
  · have hname := String.toList_injective (h.symm.trans h')
    rw [Given.name, AgreeOn.eq_def]
    revert hname
    simp only []
    cases o.format <;> cases o'.format <;> decide
  · exact h.trans h'.symm
  · exact h.trans h'.symm

/-- Lists of the same options, whatever their orders, amount to the same
    result. -/
theorem Lists.unique {gs gs' : List Given} {o o' : Options} (h : Lists gs o) (h' : Lists gs' o')
    (hmem : ∀ g, g ∈ gs ↔ g ∈ gs') : o = o' := by
  refine eq_of_agreeOn fun n => ?_
  by_cases hn : n ∈ gs.map Given.name
  · rcases List.mem_map.1 hn with ⟨g, hg, rfl⟩
    exact agreeOn_of_sets (h.sets g hg) (h'.sets g ((hmem g).1 hg))
  · have hn' : n ∉ gs'.map Given.name := by
      rintro hn'
      rcases List.mem_map.1 hn' with ⟨g, hg, hname⟩
      exact hn (List.mem_map.2 ⟨g, (hmem g).2 hg, hname⟩)
    have hdefault : o.IsDefault n :=
      Classical.byContradiction fun hno => hn (h.complete n hno)
    have hdefault' : o'.IsDefault n :=
      Classical.byContradiction fun hno => hn' (h'.complete n hno)
    exact hdefault.trans hdefault'.symm

/-- A list that amounts to a result can be entered and gives that result. -/
theorem Lists.foldlM_ok {gs : List Given} {o : Options} (h : Lists gs o) :
    ∃ d, gs.foldlM Draft.enter {} = .ok d ∧ d.finish = o := by
  have hok : ∃ d, gs.foldlM Draft.enter {} = .ok d :=
    foldlM_ok_iff.2 ⟨fun g hg => (h.sets g hg).isProper, h.once,
      fun _ _ g' hg' => absurd hg' (not_gives_empty g')⟩
  rcases hok with ⟨d, hd⟩
  exact ⟨d, hd, (lists_finish hd).unique h fun _ => Iff.rfl⟩

/-! ## Command lines -/

/-- What comes of words that spell given options depends on the options only. -/
theorem ofWords_of_spells {argv : List String} {gs : List Given} (h : Spells argv gs) :
    ofWords argv = (gs.foldlM Draft.enter {}).map Draft.finish := by
  rcases h with ⟨ws, hspelled, hend⟩
  have hwords : Scan.words {} (argv.map String.toList) = gs.foldlM Draft.enter {} := by
    rcases hend with hend | hend
    · have := hspelled.goesOn (.inl rfl) {} (Scan.ready_draft {})
      rw [List.append_nil] at this
      rw [hend, this]
      rfl
    · rw [hend, hspelled.goesOn (.inr rfl) {} (Scan.ready_draft {})]
      rfl
  rw [ofWords, hwords]

theorem spells_of_ofWords {argv : List String} {o : Options} (h : ofWords argv = .ok o) :
    ∃ gs, Spells argv gs := by
  cases hw : Scan.words {} (argv.map String.toList) with
  | error e =>
      rw [ofWords, hw] at h
      cases h
  | ok d =>
      rcases spelled_of_words (Scan.ready_draft {}) hw with ⟨ws, gs, hspelled, hend⟩
      exact ⟨gs, ws, hspelled, hend⟩

theorem ofWords_ok_iff {argv : List String} {gs : List Given} (h : Spells argv gs) (o : Options) :
    ofWords argv = .ok o ↔ Lists gs o := by
  rw [ofWords_of_spells h]
  constructor
  · intro hok
    cases hd : gs.foldlM Draft.enter {} with
    | error e =>
        rw [hd] at hok
        cases hok
    | ok d =>
        rw [hd] at hok
        cases hok
        exact lists_finish hd
  · intro hlists
    rcases hlists.foldlM_ok with ⟨d, hd, rfl⟩
    rw [hd]
    rfl

/-- A command line gives the options `o` exactly when its words, perhaps with
    two hyphens behind them, spell a list of options that amounts to `o`. Two
    command lines that give options and spell the same ones give the same, and
    with them the same settings of a run. -/
theorem ofWords_grammar (argv : List String) (o : Options) :
    (ofWords argv = .ok o ↔ ∃ gs, Spells argv gs ∧ Lists gs o) ∧
      ∀ argv' o' gs gs', Spells argv gs → Spells argv' gs' → (∀ g, g ∈ gs ↔ g ∈ gs') →
        ofWords argv = .ok o → ofWords argv' = .ok o' →
          o' = o ∧ ∀ here, o'.config here = o.config here := by
  refine ⟨⟨fun h => ?_, fun ⟨gs, hspells, hlists⟩ => (ofWords_ok_iff hspells o).2 hlists⟩, ?_⟩
  · rcases spells_of_ofWords h with ⟨gs, hspells⟩
    exact ⟨gs, hspells, (ofWords_ok_iff hspells o).1 h⟩
  · intro argv' o' gs gs' hspells hspells' hmem hok hok'
    have hlists := (ofWords_ok_iff hspells o).1 hok
    have hlists' := (ofWords_ok_iff hspells' o').1 hok'
    have heq : o' = o := (hlists.unique hlists' hmem).symm
    exact ⟨heq, fun here => by rw [heq]⟩

theorem spells_clustered : Spells ["-nle", ".x", "--root=a", "--"]
    [.switch .dryRun, .switch .log, .setting .extension ".x".toList,
      .setting .root "a".toList] :=
  ⟨["-nle".toList, ".x".toList, "--root=a".toList],
    .cons (.shortNext [.dryRun, .log] (s := .extension) rfl (.inr (by decide)))
      (.cons (.longEquals .root "a".toList) .nil), .inr (by decide)⟩

theorem spells_separate : Spells ["-C", "a", "--log", "-e=.x", "-n"]
    [.setting .root "a".toList, .switch .log, .setting .extension ".x".toList,
      .switch .dryRun] :=
  ⟨["-C".toList, "a".toList, "--log".toList, "-e=.x".toList, "-n".toList],
    .cons (.shortNext [] (s := .root) rfl (.inr (by decide)))
      (.cons (.longSwitch .log)
        (.cons (.shortEquals [] (s := .extension) rfl ".x".toList)
          (.cons (.switches (List.cons_ne_nil Switch.dryRun [])) .nil))), .inl (by decide)⟩

theorem ofWords_grammar_two_spellings :
    ∃ o o', ofWords ["-nle", ".x", "--root=a", "--"] = .ok o ∧
      ofWords ["-C", "a", "--log", "-e=.x", "-n"] = .ok o' ∧
        o' = o ∧ ∀ here, o'.config here = o.config here :=
  let o : Options :=
    { root := some (.ofString "a"), extension := ".x", dryRun := true, log := true }
  ⟨o, o, rfl, rfl,
    (ofWords_grammar ["-nle", ".x", "--root=a", "--"] o).2 _ o _ _ spells_clustered spells_separate
      (fun g => by simp only [List.mem_cons]; grind) rfl rfl⟩

end Options

end Codemod
