import EagerLambda.Proofs.Compilation.Safety
import EagerLambda.Proofs.Machine.Retry

/-!
# Errors are final

Nothing keeps a host from running a machine again after it has failed: the run goes on with what is
left on the stacks. For nearly every error this comes to nothing. The rule that failed had taken
values off that the rest of the program asks for, so all later runs fail as well. There are two
exceptions. Where a value is applied that cannot be applied, the argument is left in the place of
the result, and the next run goes on with it. And once the budget is exceeded, each run takes one
more entry off the control stack, so it may end with a value that an earlier failure has left alone
on the operand stack.

## Main statements

- `Program.failure_final` — after which errors a machine never comes to a value
- `Program.failed_resumed` — two machines that fail and come to a value when they are run again
-/

namespace EagerLambda

open Control Machine

namespace Program

variable {tree : Tree} {table : Table}

/-- **Errors are final.** A machine for a program that compiles was run again and again, and all
runs have failed. If one of the errors was not that of a value that cannot be applied, no further
run comes to a value that starts within the budget. Nor does any run after the budget has put an end
to one, if there was no other error but of values that cannot be applied before. -/
theorem failure_final (hcompile : compile tree = .ok table) (settings : Settings) :
    ∃ start, load table settings = .ok (⟨table, settings.budget⟩, start) ∧
      ∀ errors later, Failures ⟨table, settings.budget⟩ start errors later →
        ((∃ error ∈ errors, ¬ error.Misapplies) →
          overrun? ⟨table, settings.budget⟩ later.steps = none →
            ∀ fuel v s, advance ⟨table, settings.budget⟩ fuel later ≠ .halted v s) ∧
        ∀ before most after, errors = before ++ .budgetExhausted most :: after →
          (∀ error ∈ before, error.Misapplies) →
            ∀ fuel v s, advance ⟨table, settings.budget⟩ fuel later ≠ .halted v s := by
  rw [compile] at hcompile
  obtain ⟨desugared, -, htable⟩ := bind_eq_ok.1 hcompile
  obtain ⟨⟨entry, hentry, hcomputes⟩, hsound⟩ := Table.ofTree_computes htable
  obtain ⟨items, -, hload⟩ := exists_load htable settings
  have hstart := lacks_of_load hload hentry hcomputes
  refine ⟨_, hload, fun errors later hfailures => ⟨fun herrors hwithin fuel v s hhalted => ?_, ?_⟩⟩
  · rcases hfailures.fate hsound hstart herrors with hdoomed | ⟨most, hbudget, hsteps, -⟩
    · have hspoiled := hdoomed.advance hsound fuel
      rw [hhalted] at hspoiled
      exact hspoiled
    · have hover : overrun? ⟨table, settings.budget⟩ later.steps = some most :=
        Option.filter_eq_some_iff.2 ⟨hbudget, decide_eq_true hsteps⟩
      cases hwithin.symm.trans hover
  · rintro before most after rfl hbefore fuel v s hhalted
    obtain ⟨hbudget, hlimit, hspent⟩ := hfailures.spent_of_exhausted hsound hstart hbefore
    have hbudget : settings.budget = some most := hbudget
    rw [hbudget] at hhalted
    obtain ⟨error, s', hfails, -⟩ := hspent.advance table hlimit
    cases fuel with
    | zero => cases hhalted
    | succ fuel => cases hhalted.symm.trans (hfails _ (Nat.succ_pos fuel))

/-- A program that applies a number. -/
def numberApplied : Tree := .apply (.leaf (.integer 5)) (.leaf (.integer 7))

theorem quotient_numberApplied_final :
    (∃ table start left, compile quotient = .ok table ∧
      load table {} = .ok (⟨table, none⟩, start) ∧
      advance ⟨table, none⟩ 20 start = .failed .divisionByZero left ∧
      ∀ fuel v s, advance ⟨table, none⟩ fuel left ≠ .halted v s) ∧
    ∃ table start left, compile numberApplied = .ok table ∧
      load table { budget := some 3 } = .ok (⟨table, some 3⟩, start) ∧
      Failures ⟨table, some 3⟩ start
        [.typeMismatch "a function or tuple" "integer", .budgetExhausted 3] left ∧
      ∀ fuel v s, advance ⟨table, some 3⟩ fuel left ≠ .halted v s := by
  constructor
  · have hcompile : compile quotient = .ok _ := rfl
    obtain ⟨start, hload, hfinal⟩ := failure_final hcompile {}
    obtain rfl := (Prod.mk.inj (Except.ok.inj hload)).2
    obtain ⟨hfatal, -⟩ := hfinal [.divisionByZero] _ (@Failures.again _ _ _ _ 20 _ _ rfl (.none _))
    exact ⟨_, _, _, hcompile, hload, rfl, hfatal ⟨_, List.mem_singleton_self _, not_false⟩ rfl⟩
  · have hcompile : compile numberApplied = .ok _ := rfl
    obtain ⟨start, hload, hfinal⟩ := failure_final hcompile { budget := some 3 }
    obtain rfl := (Prod.mk.inj (Except.ok.inj hload)).2
    have hfatal := fun left hruns => And.intro hruns
      ((hfinal [.typeMismatch "a function or tuple" "integer", .budgetExhausted 3] left hruns).2
        [_] 3 [] rfl (List.forall_mem_singleton.2 rfl))
    -- The first run takes all three steps, and the second one has none left for its first.
    exact ⟨_, _, _, hcompile, hload,
      hfatal _ (@Failures.again _ _ _ _ 3 _ _ rfl (@Failures.again _ _ _ _ 1 _ _ rfl (.none _)))⟩

/-- A program that adds a number to the negative of a name that is not bound. -/
def unboundAdded : Tree :=
  .node (.binary .add) [.leaf (.integer 5), .node (.unary .neg) [.identifier ⟨19⟩]]

theorem failed_resumed :
    (∃ table start left s, compile numberApplied = .ok table ∧
      load table {} = .ok (⟨table, none⟩, start) ∧
      Failures ⟨table, none⟩ start [.typeMismatch "a function or tuple" "integer"] left ∧
      advance ⟨table, none⟩ 2 left = .halted (.integer 7) s) ∧
    ∃ table start left s, compile unboundAdded = .ok table ∧
      load table { budget := some 3 } = .ok (⟨table, some 3⟩, start) ∧
      Failures ⟨table, some 3⟩ start [.unboundVariable ⟨19⟩, .machine (.expectedValue .root),
        .budgetExhausted 3, .budgetExhausted 3] left ∧
      advance ⟨table, some 3⟩ 1 left = .halted (.integer 5) s := by
  refine ⟨⟨_, _, _, _, rfl, rfl, @Failures.again _ _ _ _ 3 _ _ rfl (.none _), rfl⟩, ?_⟩
  exact ⟨_, _, _, _, rfl, rfl, @Failures.again _ _ _ _ 1 _ _ rfl
    (@Failures.again _ _ _ _ 1 _ _ rfl (@Failures.again _ _ _ _ 2 _ _ rfl
      (@Failures.again _ _ _ _ 1 _ _ rfl (.none _)))), rfl⟩

end Program

end EagerLambda
