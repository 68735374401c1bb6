import EagerLambda.Proofs.Compilation.Lockstep
import EagerLambda.Proofs.Tree.Hygiene

/-!
# Renaming the binders of a program

A program does the same after one of its binders is renamed, together with the identifiers that
refer to it, to a name that does not occur in the program. Recursive definitions are the exception:
they are expanded with the identifier `Y`, which refers to a binder of the program if there is one
of that name around the definition. So a binder can be renamed if each of these identifiers refers
to the same binder before and after.

## Main definitions

- `Tree.SameUpToNames` — two trees have core forms that are the same up to names

## Main statements

- `Program.run_rename` — renaming a binder does not change the report of a program
- `Program.fixpoint_captured` — a binder of the name `Y` captures recursive definitions
-/

namespace EagerLambda

open Control Machine

variable {settings : Settings}

/-- The trees have core forms that are the same up to names, where a binder can have got the name
`name`. -/
def Tree.SameUpToNames (name : Name) (tree tree' : Tree) : Prop :=
  ∃ core core', tree.Desugars core ∧ tree'.Desugars core' ∧
    Tree.Alpha (.renaming name) [] core core'

namespace Program

variable {tree : Tree} {table : Table}

/-- **Renaming a binder.** A binder of a program that compiles gets a new name that does not occur
in the program, together with the identifiers that refer to it. The core forms before and after are
the same up to names exactly if each recursive definition is expanded with an identifier that refers
to the same binder before and after. Then the programs do the same if the host binds no functions of
a program: after as many turns they end with the same output and the same value, up to the names
that functions bind, or the same error. -/
theorem run_rename (hcompile : compile tree = .ok table) (hcode : settings.Codeless)
    {binder : Site} {name : Name} (hfresh : name ∉ tree.names) :
    (tree.SameUpToNames name (tree.rename binder name) ↔ tree.FixpointStable binder name) ∧
      (tree.FixpointStable binder name → ∀ fuel,
        Option.Rel (Report.Paired (.renaming name)) (run fuel settings tree)
          (run fuel settings (tree.rename binder name))) := by
  have hrun : ∀ fuel, run fuel settings tree = execute fuel settings table := fun fuel => by
    rw [run, hcompile]
  rw [compile] at hcompile
  obtain ⟨⟨core, expansions⟩, hdesugar, htable⟩ := bind_eq_ok.1 hcompile
  obtain ⟨code, hfragment, -⟩ := Table.ofTree_eq_ok.1 htable
  have hcore : core.Core := Tree.core_of_fragment hfragment
  -- At the root nothing is in scope, so the core forms are compared with no names bound.
  have hrenamed : tree.Renamed binder name [] [] tree := Tree.renamed hfresh rfl rfl
  obtain ⟨core', ⟨expansions', hdesugar'⟩, halpha⟩ := hrenamed.core ⟨_, hdesugar⟩ hcore
  rw [Tree.stableBelow_root] at halpha
  refine ⟨⟨?_, fun hstable => ?_⟩, fun hstable fuel => ?_⟩
  · rintro ⟨core₁, core₁', hdesugars, hdesugars', halpha'⟩
    rw [Tree.desugars_unique hdesugars ⟨_, hdesugar⟩,
      Tree.desugars_unique hdesugars' ⟨_, hdesugar'⟩] at halpha'
    exact halpha.1 halpha'
  · exact ⟨core, core', ⟨_, hdesugar⟩, ⟨_, hdesugar'⟩, halpha.2 hstable⟩
  · obtain ⟨table', htable', hsize, hbody⟩ := (halpha.2 hstable).ofTree htable
    have hcompile' : compile (tree.rename binder name) = .ok table' :=
      bind_eq_ok.2 ⟨_, hdesugar', htable'⟩
    have hrun' : run fuel settings (tree.rename binder name) = execute fuel settings table' := by
      rw [run, hcompile']
    rw [hrun, hrun']
    exact execute_paired hbody hsize (hcode.paired_self fun _ _ hxy => hxy) fuel

/-- A recursive function that adds up the numbers below its argument, applied to a name that is
bound outside. -/
def triangle : Tree :=
  let function : Tree := .identifier ⟨17⟩
  let number : Tree := .identifier ⟨18⟩
  let start : Tree := .identifier ⟨19⟩
  let next : Tree :=
    .apply function (.node (.binary .sub) [number, .leaf (.integer 1)])
  let body : Tree := .of .conditional [.node (.binary .eq) [number, .leaf (.integer 0)],
    .leaf (.integer 0), .node (.binary .add) [number, next]]
  .of .letIn [.define start (.leaf (.integer 2)),
    .of .letIn [.of .recursive [.of .functionForm [function, number, body]],
      .apply function start]]

theorem triangle_renamed : ⟨20⟩ ∉ triangle.names ∧ triangle.FixpointStable [0, 0] ⟨20⟩ ∧
    ∃ outcome, run 80 {} triangle = some ⟨.ok outcome, []⟩ ∧ outcome.value = .integer 3 ∧
      Option.Rel (Report.Paired (.renaming ⟨20⟩)) (run 80 {} triangle)
        (run 80 {} (triangle.rename [0, 0] ⟨20⟩)) := by
  have hcompile : compile triangle = .ok _ := rfl
  have hcode : ({} : Settings).Codeless := fun _ h => absurd h List.not_mem_nil
  have hfresh : ⟨20⟩ ∉ triangle.names := by decide
  have hstable : triangle.FixpointStable [0, 0] ⟨20⟩ :=
    Tree.fixpointStable_of_ne (by decide) (by decide)
  exact ⟨hfresh, hstable, _, rfl, rfl, (run_rename hcompile hcode hfresh).2 hstable 80⟩

/-- A recursive definition in the scope of a binder of the name `Y`. -/
def captured : Tree :=
  let function : Tree := .identifier ⟨17⟩
  let parameter : Tree := .identifier ⟨18⟩
  .of .letIn [.define (.identifier .fixpoint) (.leaf (.integer 5)),
    .of .letIn [.of .recursive [.of .functionForm [function, parameter, parameter]],
      .apply function (.leaf (.integer 1))]]

/-- The binder captures the identifier that the recursive definition is expanded with, so the
program fails. It answers a value after the binder is renamed. -/
theorem fixpoint_captured : ∃ table outcome, compile captured = .ok table ∧
    ⟨19⟩ ∉ captured.names ∧ ¬captured.FixpointStable [0, 0] ⟨19⟩ ∧
    run 40 {} captured =
      some ⟨.error (.typeMismatch "a function or tuple" "integer"), []⟩ ∧
    run 40 {} (captured.rename [0, 0] ⟨19⟩) = some ⟨.ok outcome, []⟩ ∧
    outcome.value = .integer 1 := by
  have hcaptured : ¬captured.FixpointStable [0, 0] ⟨19⟩ := fun h =>
    absurd (h [0, 1] _ _ rfl rfl) (by decide)
  exact ⟨_, _, rfl, by decide, hcaptured, rfl, rfl, rfl⟩

end Program

end EagerLambda
