import EagerLambda.Proofs.Compilation.Lockstep
import EagerLambda.Proofs.Machine.Scoping
import EagerLambda.Proofs.Tree.Free

/-!
# Static scoping

Whether a name is bound where a program looks it up can be seen in the text of the program. A run
that fails because a name is not bound has looked up a name that occurs free in the core form of the
program and is not bound at the root. Which way the run took does not matter, nor whether the
function that looked the name up was applied after the scope in which it was made was left.

## Main definitions

- `Naming.within` — names are the same, and at the root only those in a list are looked up

## Main statements

- `Program.run_unbound` — an unbound name is free in the program and not bound at the root
-/

namespace EagerLambda

open Control Machine

/-- Every name corresponds to itself, but at the root only the names in the list. -/
def Naming.within (names : List Name) : Naming where
  free x y := x = y ∧ x ∈ names
  bound x y := x = y

namespace Program

variable {settings : Settings} {tree : Tree} {table : Table} {x : Name}

theorem load_ne_unbound : load table settings ≠ .error (.unboundVariable x) := by
  intro h
  rw [load] at h
  split at h
  · cases h
  · split at h <;> cases h

theorem load_inv {machine : Machine} {start : State}
    (h : load table settings = .ok (machine, start)) :
    machine = ⟨table, settings.budget⟩ ∧ start.envs = settings.environments := by
  rw [load] at h
  split at h
  · cases h
  · split at h <;> cases h
    exact ⟨rfl, rfl⟩

/-- A run that finds a name unbound goes through a state whose next turn does. -/
theorem exists_state_of_unbound {fuel : Nat} {shown : List Value}
    (h : execute fuel settings table = some ⟨.error (.unboundVariable x), shown⟩) :
    ∃ start before last failed, load table settings = .ok (⟨table, settings.budget⟩, start) ∧
      advance ⟨table, settings.budget⟩ before start = .next last ∧
      turn ⟨table, settings.budget⟩ last = .failed (.unboundVariable x) failed := by
  rw [execute] at h
  cases hload : load table settings with
  | error error =>
    rw [hload] at h
    cases h
    exact absurd hload load_ne_unbound
  | ok loaded =>
    obtain ⟨machine, start⟩ := loaded
    obtain ⟨rfl, -⟩ := load_inv hload
    rw [hload] at h
    simp only at h
    cases hadvance : advance ⟨table, settings.budget⟩ fuel start with
    | next s =>
      rw [hadvance] at h
      cases h
    | halted value s =>
      rw [hadvance] at h
      cases h
    | failed error s =>
      rw [hadvance] at h
      cases h
      obtain ⟨before, last, hbefore, hlast⟩ := exists_last_turn hadvance
      exact ⟨start, before, last, s, rfl, hbefore, hlast⟩

/-- A program is in step with itself, and only its free names are looked up at the root. -/
theorem load_inStep_self {core : Tree} (htable : Table.ofTree core = .ok table)
    (hcode : settings.Codeless) {start : State}
    (hload : load table settings = .ok (⟨table, settings.budget⟩, start)) :
    InStep ⟨.within core.freeNames, table, table⟩ [[]] start start := by
  obtain ⟨code, hfragment, -⟩ := Table.ofTree_eq_ok.1 htable
  have halpha : Tree.Alpha (.within core.freeNames) [] core core :=
    Tree.alpha_self (Tree.core_of_fragment hfragment) (fun _ => rfl) fun _ hx => ⟨rfl, hx⟩
  obtain ⟨table', htable', -, hbody⟩ := halpha.ofTree htable
  cases htable.symm.trans htable'
  rcases load_inStep hbody (hcode.paired_self fun _ _ hxy => hxy.1) with
    ⟨error, herror, -⟩ | ⟨start₁, start₂, hstart₁, hstart₂, h⟩
  · cases hload.symm.trans herror
  · cases hload.symm.trans hstart₁
    cases hload.symm.trans hstart₂
    exact h

/-- What is bound at the root is bound in every environment that a run starts with. -/
theorem bindsEverywhere_start {start : State} {v : Value}
    (hload : load table settings = .ok (⟨table, settings.budget⟩, start))
    (hroot : settings.environments.lookup .root x = some v) : start.envs.BindsEverywhere x := by
  obtain ⟨f, hf, -⟩ := settings.exists_root
  obtain ⟨-, hstart⟩ := load_inv hload
  intro env henv
  rw [hstart, hf, Environments.size] at henv
  obtain rfl : env = .root := by
    obtain ⟨index⟩ := env
    exact congrArg EnvId.mk (Nat.lt_one_iff.1 henv)
  exact ⟨v, hstart ▸ hroot⟩

/-- **Static scoping.** The report of a program that compiles blames only names that occur free in
the core form of the program and have no value at the root. So if the root binds all free names, a
run of the program never finds a name unbound. -/
theorem run_unbound (hcompile : compile tree = .ok table) (hcode : settings.Codeless) :
    ∃ desugared, tree.desugar = .ok desugared ∧
      (∀ fuel x shown, run fuel settings tree = some ⟨.error (.unboundVariable x), shown⟩ →
        x ∈ desugared.tree.freeNames ∧ settings.environments.lookup .root x = none) ∧
      ((∀ x ∈ desugared.tree.freeNames, ∃ v, settings.environments.lookup .root x = some v) →
        ∀ fuel x shown, run fuel settings tree ≠ some ⟨.error (.unboundVariable x), shown⟩) := by
  have hrun : ∀ fuel, run fuel settings tree = execute fuel settings table := fun fuel => by
    rw [run, hcompile]
  rw [compile] at hcompile
  obtain ⟨desugared, hdesugar, htable⟩ := bind_eq_ok.1 hcompile
  have hblame : ∀ fuel x shown,
      run fuel settings tree = some ⟨.error (.unboundVariable x), shown⟩ →
        x ∈ desugared.tree.freeNames ∧ settings.environments.lookup .root x = none := by
    intro fuel x shown hreport
    rw [hrun] at hreport
    obtain ⟨start, before, last, failed, hload, hbefore, hlast⟩ := exists_state_of_unbound hreport
    have hadvance := advance_inStep settings.budget before (load_inStep_self htable hcode hload)
    simp only [hbefore] at hadvance
    cases hadvance with
    | next hstep =>
      obtain ⟨hfree, env, henv, hnone⟩ := hstep.free_of_unbound hlast
      refine ⟨hfree.2, ?_⟩
      cases hroot : settings.environments.lookup .root x with
      | none => rfl
      | some v =>
        -- A name that the root binds would have been found in the environment of the last turn.
        have hbinds := advance_bindsEverywhere hbefore (bindsEverywhere_start hload hroot)
        obtain ⟨w, hw⟩ := hbinds env henv
        cases hnone.symm.trans hw
  refine ⟨desugared, hdesugar, hblame, fun hbound fuel x shown hreport => ?_⟩
  obtain ⟨hfree, hnone⟩ := hblame fuel x shown hreport
  obtain ⟨v, hv⟩ := hbound x hfree
  cases hnone.symm.trans hv

/-- A function that is applied after the function in which it was made has returned. It adds up its
own argument, that of the function around it, and a name that nothing in the program binds. -/
def adder : Tree :=
  let outer : Tree := .identifier ⟨17⟩
  let inner : Tree := .identifier ⟨18⟩
  let sum : Tree := .node (.binary .add)
    [.node (.binary .add) [outer, inner], .identifier ⟨19⟩]
  .of .letIn [.define (.identifier ⟨20⟩)
      (.apply (.lambda outer (.lambda inner sum)) (.leaf (.integer 1))),
    .apply (.identifier ⟨20⟩) (.leaf (.integer 2))]

theorem adder_unbound :
    (∃ table, compile adder = .ok table) ∧
      run 20 {} adder = some ⟨.error (.unboundVariable ⟨19⟩), []⟩ ∧
      (∃ desugared, adder.desugar = .ok desugared ∧ ⟨19⟩ ∈ desugared.tree.freeNames ∧
        ({} : Settings).environments.lookup .root ⟨19⟩ = none) ∧
      ∀ fuel x shown, run fuel { bindings := [(⟨19⟩, .integer 3)] } adder ≠
        some ⟨.error (.unboundVariable x), shown⟩ := by
  have hcompile : compile adder = .ok _ := rfl
  have hfails : run 20 {} adder = some ⟨.error (.unboundVariable ⟨19⟩), []⟩ := rfl
  have hcode : ({} : Settings).Codeless := fun _ h => absurd h List.not_mem_nil
  have hcode' : ({ bindings := [(⟨19⟩, .integer 3)] } : Settings).Codeless := by
    intro v hv
    cases List.mem_singleton.1 hv
    exact trivial
  obtain ⟨desugared, hdesugar, hblame, -⟩ := run_unbound hcompile hcode
  obtain ⟨desugared', hdesugar', -, hnever⟩ := run_unbound hcompile hcode'
  refine ⟨⟨_, hcompile⟩, hfails, ⟨desugared, hdesugar, hblame 20 _ _ hfails⟩, hnever ?_⟩
  have hfree : desugared'.tree.freeNames = [⟨19⟩] := by
    cases hdesugar'
    rfl
  intro x hx
  rw [hfree] at hx
  obtain rfl := List.mem_singleton.1 hx
  exact ⟨_, rfl⟩

end Program

end EagerLambda
