import EagerLambda.Proofs.Compilation.Correctness
import EagerLambda.Proofs.Evaluation.Safety

/-!
# Safety of compiled programs

The machine finds everything in place when it executes a program that was compiled: operands and
markers where they are wanted, the targets of a branch beneath its choice, and every structure and
environment that is referred to. What can go wrong in a run is the program's own doing, or the
budget or the handles for environments are used up.

## Main statements

- `Program.compiled_error_ordinary` — the errors in a run of a compiled program
-/

namespace EagerLambda

open Control Machine

namespace Program

variable {tree : Tree} {table : Table} {settings : Settings}

/-- A run without a budget fails like the evaluation of its program: with an ordinary error, unless
the handles for environments are used up. -/
theorem unbounded_error_ordinary (hcore : tree.Core) (hcode : settings.Codeless) {start : State}
    (hfollows : ∀ clock, Follows (Codes table tree.bodyId) ⟨table, none⟩ clock
      (Returned (Codes table tree.bodyId) [⟨[], .root⟩] [.marker .root]) (.next start)
      (tree.evaluateProgram clock settings))
    {fuel : Nat} {error : Error} {s : State}
    (h : advance ⟨table, none⟩ fuel start = .failed error s) :
    error.Ordinary ∨ handleLimit ≤ s.envs.size := by
  -- A run has one end, so the failure is the one the evaluator comes to.
  have hrun := hfollows fuel
  cases hanswer : tree.evaluateProgram fuel settings with
  | value w store =>
    rw [hanswer] at hrun
    cases hrun with
    | value turns hadvance hreturned =>
      obtain ⟨v, s', hend, -, -⟩ := hreturned.halt table
      have hhalt : resume ⟨table, none⟩ (turns + 2) (.next start) = .halted v s' :=
        (resume_add turns 2 (.next start)).trans (hadvance ▸ hend)
      have hfail : resume ⟨table, none⟩ fuel (.next start) = .failed error s := h
      cases resume_stopped_unique hhalt rfl hfail rfl
  | failed error' store =>
    rw [hanswer] at hrun
    cases hrun with
    | failed turns hadvance hshares =>
      have hfail : resume ⟨table, none⟩ fuel (.next start) = .failed error s := h
      cases resume_stopped_unique hfail rfl hadvance rfl
      rw [← hshares.envs.size_eq]
      exact Tree.evaluateProgram_error hcore hcode hanswer
  | pending =>
    rw [hanswer] at hrun
    cases hrun with
    | pending hadvance =>
      have hnext : advance ⟨table, none⟩ fuel start = .next _ := hadvance
      rw [h] at hnext
      cases hnext

/-- **Safety of compiled programs.** A program that was compiled can be executed. However many
steps it takes and whatever the budget is, a run in which fewer environments are open than there
are handles fails with an ordinary error only: never because the machine, an item or the control
table is not as it should be. -/
theorem compiled_error_ordinary (hcompile : compile tree = .ok table)
    (hcode : settings.Codeless) :
    ∃ start, Machine.load table settings = .ok (⟨table, settings.budget⟩, start) ∧
      ∀ fuel error s, advance ⟨table, settings.budget⟩ fuel start = .failed error s →
        s.envs.size < handleLimit → error.Ordinary := by
  rw [compile] at hcompile
  obtain ⟨desugared, -, htable⟩ := bind_eq_ok.1 hcompile
  obtain ⟨code, hcode', -⟩ := Table.ofTree_eq_ok.1 htable
  have hcore : desugared.tree.Core := Tree.core_of_fragment hcode'
  obtain ⟨start, hload, hfollows⟩ := machine_follows htable hcode
  refine ⟨start, hload, fun fuel error s hfail hopen => ?_⟩
  -- Up to the step that a budget stops, the run is the one without a budget.
  rcases advance_budget table settings.budget fuel start with hsame | ⟨most, s', hbudget⟩
  · rw [hsame] at hfail
    rcases unbounded_error_ordinary hcore hcode hfollows hfail with hordinary | hfull
    · exact hordinary
    · omega
  · rw [hfail] at hbudget
    cases hbudget
    trivial

/-- A program that divides by a name that is bound to zero. -/
def quotient : Tree :=
  let divisor : Tree := .identifier ⟨17⟩
  .of .letIn [.define divisor (.leaf (.integer 0)),
    .node (.binary .div) [.leaf (.integer 7), divisor]]

theorem quotient_error_ordinary : ∃ table start s, compile quotient = .ok table ∧
    Machine.load table {} = .ok (⟨table, none⟩, start) ∧
    advance ⟨table, none⟩ 20 start = .failed .divisionByZero s ∧ s.envs.size = 2 ∧
    Error.divisionByZero.Ordinary := by
  have hcompile : compile quotient = .ok _ := rfl
  have hcode : ({} : Settings).Codeless := fun _ h => absurd h List.not_mem_nil
  obtain ⟨start, hload, hordinary⟩ := compiled_error_ordinary hcompile hcode
  obtain rfl := (Prod.mk.inj (Except.ok.inj hload)).2
  exact ⟨_, _, _, hcompile, hload, rfl, rfl, hordinary 20 _ _ rfl (by decide)⟩

end Program

end EagerLambda
