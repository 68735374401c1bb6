import EagerLambda.Proofs.Compilation.Correctness
import EagerLambda.Proofs.Compilation.Scoping

/-!
# What a run depends on

A run looks at the root environment only where it looks up a name that occurs free in the core form
of its program. So two runs of a program cannot be told apart if the root gives the same value, or
none, to each of these names, whether it was bound by the host or is a primitive. What the root
binds besides is invisible.

## Main definitions

- `Machine.Turn.observation` — what can be told of a run from outside
- `Program.RunAlike` — two runs of a program cannot be told apart

## Main statements

- `Program.run_determined` — a run depends on the free names of its program
-/

namespace EagerLambda

open Control Machine

namespace Machine

/-- What can be told of a run from outside. -/
structure Observation where
  /-- The value or the error of the run, if it is over. -/
  outcome : Option (Except Error Value)
  /-- The values shown so far, the latest first. -/
  shown : List Value
  steps : Nat
  environments : Nat

/-- The value or the error that a turn ends its run with. -/
def Turn.outcome : Turn → Option (Except Error Value)
  | .next _ => none
  | .halted value _ => some (.ok value)
  | .failed error _ => some (.error error)

/-- What can be told from outside after a turn. -/
def Turn.observation (t : Turn) : Observation :=
  ⟨t.outcome, t.state.shown, t.state.steps, t.state.envs.size⟩

/-- The report of a run of which this is observed, if the run is over. -/
def Observation.report (structures : Nat) (observed : Observation) : Option Program.Report :=
  observed.outcome.map fun outcome =>
    ⟨outcome.map fun value => ⟨value, structures, observed.steps, observed.environments⟩,
      observed.shown.reverse⟩

variable {p : Twins} {statics : List Pairing}

theorem Twins.Functions.eq {c d : Closure} (hbound : ∀ x y, p.naming.bound x y → x = y)
    (h : p.Functions statics c d) : c = d := by
  have hparams : List.Forall₂ Eq c.params d.params := h.params.imp hbound
  rw [List.forall₂_eq_eq_eq] at hparams
  obtain ⟨body, params, env⟩ := c
  rw [Closure.mk.injEq]
  exact ⟨h.body, hparams, h.env⟩

theorem Twins.Values.eq_all {vs ws : List Value} (hbound : ∀ x y, p.naming.bound x y → x = y)
    (h : List.Forall₂ (p.Values statics) vs ws) : vs = ws := by
  have hvs : List.Forall₂ Eq vs ws := h.imp fun _ _ hvw => hvw.eq fun _ _ hcd => hcd.eq hbound
  rwa [List.forall₂_eq_eq_eq] at hvs

/-- If corresponding names are the same, turns that come to the same cannot be told apart. -/
theorem TurnInStep.observation_eq {t t' : Turn} (hbound : ∀ x y, p.naming.bound x y → x = y)
    (hfree : ∀ x y, p.naming.free x y → x = y) (h : TurnInStep p t t') :
    t.observation = t'.observation := by
  have hsame : ∀ {statics : List Pairing} {s s' : State} (outcome : Option (Except Error Value)),
      SameOutput p statics s s' → (⟨outcome, s.shown, s.steps, s.envs.size⟩ : Observation) =
        ⟨outcome, s'.shown, s'.steps, s'.envs.size⟩ := by
    intro statics s s' outcome hs
    rw [Twins.Values.eq_all hbound hs.shown, hs.steps, hs.envs]
  cases h with
  | next hs => exact hsame none hs.sameOutput
  | halted hvw hs =>
    obtain rfl := hvw.eq fun _ _ hcd => hcd.eq hbound
    exact hsame _ hs
  | failed herror hs =>
    cases herror with
    | same error => exact hsame _ hs
    | unbound hxy =>
      obtain rfl := hfree _ _ hxy
      exact hsame _ hs

end Machine

namespace Program

variable {settings settings' : Settings} {tree : Tree} {table : Table}

/-- The report of a run is what can be told of it from outside. -/
theorem execute_eq_report {machine : Machine} {start : State}
    (h : load table settings = .ok (machine, start)) (fuel : Nat) :
    execute fuel settings table = (machine.advance fuel start).observation.report table.size := by
  simp only [execute, h]
  cases machine.advance fuel start <;> rfl

/-- A program that has this table cannot be told apart under the two settings: it is loaded, and
after any number of turns the same is observed. -/
structure RunAlike (tree : Tree) (table : Table) (settings settings' : Settings) : Prop where
  observed : ∃ start start', load table settings = .ok (⟨table, settings.budget⟩, start) ∧
    load table settings' = .ok (⟨table, settings'.budget⟩, start') ∧
    ∀ fuel, (advance ⟨table, settings.budget⟩ fuel start).observation =
      (advance ⟨table, settings'.budget⟩ fuel start').observation
  report : ∀ fuel, run fuel settings tree = run fuel settings' tree

/-- The root environments give the same value, or none, to the names in the list. -/
def AgreeOn (names : List Name) (settings settings' : Settings) : Prop :=
  ∀ x ∈ names, settings.environments.lookup .root x = settings'.environments.lookup .root x

theorem AgreeOn.paired {names : List Name} (h : AgreeOn names settings settings')
    (hbudget : settings.budget = settings'.budget) (hcode : settings.Codeless) :
    settings.Paired (.within names) settings' := by
  refine ⟨hbudget, fun R x y hxy => ?_⟩
  obtain ⟨rfl, hx⟩ := hxy
  rw [← h x hx]
  exact hcode.environments_related_self.search_rel x _ .root

/-- A binding that the host makes for a name does not matter to other names. -/
theorem agreeOn_insert {names : List Name} {x : Name} (hx : x ∉ names) (v : Value)
    {before after : List Binding} (hbindings : settings.bindings = before ++ after) :
    AgreeOn names settings { settings with bindings := before ++ (x, v) :: after } := by
  intro y hy
  have hne : (y == x) = false := beq_eq_false_iff_ne.2 fun hyx => hx (hyx ▸ hy)
  simp only [Settings.environments_eq, Environments.lookup_single, Frame.find?, Settings.root,
    hbindings, List.reverse_append, List.reverse_cons, List.append_assoc, List.lookup_append,
    List.lookup_cons, hne, List.singleton_append]

theorem runAlike_of_agreeOn {core : Tree} (hcompile : compile tree = .ok table)
    (htable : Table.ofTree core = .ok table) (hcode : settings.Codeless)
    (hbudget : settings.budget = settings'.budget)
    (hagree : AgreeOn core.freeNames settings settings') :
    RunAlike tree table settings settings' := by
  obtain ⟨code, hfragment, -⟩ := Table.ofTree_eq_ok.1 htable
  -- Only its free names are looked up at the root, so the program is in step with itself.
  have halpha : Tree.Alpha (.within core.freeNames) [] core core :=
    Tree.alpha_self (Tree.core_of_fragment hfragment) (fun _ => rfl) fun _ hx => ⟨rfl, hx⟩
  obtain ⟨table', htable', -, hbody⟩ := halpha.ofTree htable
  cases htable.symm.trans htable'
  obtain ⟨items, -, hitems⟩ := exists_load htable settings
  rcases load_inStep hbody (hagree.paired hbudget hcode) with
    ⟨error, herror, -⟩ | ⟨start, start', hload, hload', hstart⟩
  · cases hitems.symm.trans herror
  · have hobserved : ∀ fuel, (advance ⟨table, settings.budget⟩ fuel start).observation =
        (advance ⟨table, settings.budget⟩ fuel start').observation := fun fuel =>
      (advance_inStep settings.budget fuel hstart).observation_eq (fun _ _ hxy => hxy)
        fun _ _ (hxy : _ = _ ∧ _) => hxy.1
    refine ⟨⟨start, start', hload, hbudget ▸ hload', hbudget ▸ hobserved⟩, fun fuel => ?_⟩
    rw [run, run, hcompile]
    exact (execute_eq_report hload fuel).trans
      ((congrArg _ (hobserved fuel)).trans (execute_eq_report hload' fuel).symm)

/-- **What a run depends on.** Two runs of a program that compiles, with the same budget, cannot be
told apart if the root gives the same value, or none, to each name that occurs free in the core form
of the program: after any number of turns they have the same outcome and the same output, and have
counted as many steps and opened as many environments. So the host may bind another name, wherever
in its list, and the program does not see it. -/
theorem run_determined (hcompile : compile tree = .ok table) :
    ∃ desugared, tree.desugar = .ok desugared ∧
      (∀ settings settings' : Settings, settings.Codeless → settings.budget = settings'.budget →
        AgreeOn desugared.tree.freeNames settings settings' →
          RunAlike tree table settings settings') ∧
      ∀ (settings : Settings) (before after : List Binding) (x : Name) (v : Value),
        settings.Codeless → settings.bindings = before ++ after → x ∉ desugared.tree.freeNames →
          RunAlike tree table settings { settings with bindings := before ++ (x, v) :: after } := by
  have hrun := hcompile
  rw [compile] at hrun
  obtain ⟨desugared, hdesugar, htable⟩ := bind_eq_ok.1 hrun
  refine ⟨desugared, hdesugar, fun settings settings' hcode hbudget hagree => ?_,
    fun settings before after x v hcode hbindings hx => ?_⟩
  · exact runAlike_of_agreeOn hcompile htable hcode hbudget hagree
  · exact runAlike_of_agreeOn hcompile htable hcode rfl (agreeOn_insert hx v hbindings)

theorem adder_determined : ∃ table, compile adder = .ok table ∧
    RunAlike adder table { bindings := [(⟨19⟩, .integer 3)] }
      { primitives := false, bindings := [(⟨18⟩, .nil), (⟨19⟩, .integer 3)] } ∧
    RunAlike adder table { bindings := [(⟨19⟩, .integer 3)] }
      { bindings := [(⟨19⟩, .integer 3), (⟨17⟩, .dummy)] } ∧
    run 20 { bindings := [(⟨19⟩, .integer 3)] } adder =
      some ⟨.ok ⟨.integer 6, 4, 18, 4⟩, []⟩ := by
  have hcompile : compile adder = .ok _ := rfl
  have hcode : ({ bindings := [(⟨19⟩, .integer 3)] } : Settings).Codeless := by
    intro v hv
    cases List.mem_singleton.1 hv
    exact trivial
  obtain ⟨desugared, hdesugar, hagree, hinsert⟩ := run_determined hcompile
  have hfree : desugared.tree.freeNames = [⟨19⟩] := by
    cases hdesugar
    rfl
  rw [hfree] at hagree hinsert
  refine ⟨_, hcompile, hagree _ _ hcode rfl fun x hx => ?_,
    hinsert _ [(⟨19⟩, .integer 3)] [] ⟨17⟩ .dummy hcode rfl (by decide), ?_⟩
  · obtain rfl := List.mem_singleton.1 hx
    rfl
  · rfl

end Program

end EagerLambda
