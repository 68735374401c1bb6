import EagerLambda.Proofs.Compilation.Independence
import EagerLambda.Proofs.Machine.Unrolling

/-!
# Tuples and appended components

A program may write a tuple with all its components at once, or append them to `nil` one after the
other. It makes no difference to what the program comes to, wherever the tuple stands.

## Main definitions

- `Machine.Ending` — what a run that is over came to, up to the number of its steps
- `Machine.EndsIn` — a run comes to this end

## Main statements

- `Machine.endsIn_unrolled` — machines that build some tuples step by step come to the same end
- `Program.tuple_appended_agree` — a tuple can be built step by step in any program
-/

namespace EagerLambda

open Control

namespace Machine

/-- What a run that is over came to. The number of its steps is left out. -/
structure Ending where
  outcome : Except Error Value
  /-- The values shown, the latest first. -/
  shown : List Value
  /-- The environments that were opened, with what is bound in them. -/
  environments : Environments

/-- What a run came to, if it is over after this turn. -/
def Turn.ending? (t : Turn) : Option Ending :=
  t.outcome.map fun outcome => ⟨outcome, t.state.shown, t.state.envs⟩

/-- The run from a state comes to this end. -/
def EndsIn (machine : Machine) (start : State) (ending : Ending) : Prop :=
  ∃ fuel, (machine.advance fuel start).ending? = some ending

variable {machine : Machine} {table table' : Table} {s s' : State}

theorem Turn.exists_ending?_iff {t : Turn} :
    (∃ ending, t.ending? = some ending) ↔ t.stopped = true := by
  cases t with
  | next s => exact iff_of_false nofun nofun
  | halted v s => exact iff_of_true ⟨_, rfl⟩ rfl
  | failed e s => exact iff_of_true ⟨_, rfl⟩ rfl

theorem Turn.Unrolled.ending?_eq {t t' : Turn} (h : t.Unrolled t') : t'.ending? = t.ending? := by
  cases h with
  | next _ => rfl
  | halted v hlast => simp [Turn.ending?, Turn.outcome, Turn.state, hlast.shown, hlast.envs]
  | failed e hlast => simp [Turn.ending?, Turn.outcome, Turn.state, hlast.shown, hlast.envs]

/-- A run goes on for ever exactly if it comes to no end. -/
theorem endless_iff : (∀ fuel, (machine.advance fuel s).stopped = false) ↔
    ∀ ending, ¬ EndsIn machine s ending := by
  simp only [← Bool.not_eq_true, ← Turn.exists_ending?_iff, EndsIn, not_exists]
  exact forall_comm

/-- A machine that builds some tuples step by step comes to the same end. -/
theorem endsIn_unrolled (htable : table.Unrolled table') (h : s.Unrolled s') (ending : Ending) :
    EndsIn ⟨table, none⟩ s ending ↔ EndsIn ⟨table', none⟩ s' ending := by
  constructor
  · rintro ⟨fuel, hending⟩
    obtain ⟨fuel', -, hturn⟩ := advance_unrolled htable fuel h
    exact ⟨fuel', hturn.ending?_eq.trans hending⟩
  · rintro ⟨fuel, hending⟩
    -- The run of the second machine is over by then, so the matching run ends in the same way.
    obtain ⟨fuel', hle, hturn⟩ := advance_unrolled htable fuel h
    have hstopped := Turn.exists_ending?_iff.1 ⟨ending, hending⟩
    have hrun : ∀ n, resume ⟨table', none⟩ n (.next s') = advance ⟨table', none⟩ n s' :=
      fun _ => rfl
    have hsame : advance ⟨table', none⟩ fuel' s' = advance ⟨table', none⟩ fuel s' :=
      resume_stopped_unique (hrun fuel') (advance_stopped_of_le hstopped hle) (hrun fuel) hstopped
    rw [hsame] at hturn
    exact ⟨fuel, hturn.ending?_eq.symm.trans hending⟩

/-- Machines for such tables are started alike. -/
theorem load_unrolled (htable : table.Unrolled table') (settings : Settings) :
    Conform (fun m m' => m.1 = ⟨table, settings.budget⟩ ∧ m'.1 = ⟨table', settings.budget⟩ ∧
      m.2.Unrolled m'.2) (load table settings) (load table' settings) := by
  have hentry := htable .entry
  rw [load, load, Table.entry?, Table.entry?]
  generalize table.get? .entry = entry at hentry
  generalize table'.get? .entry = entry' at hentry
  cases hentry with
  | none => exact .error _ _
  | @some entry entry' hentry =>
    have hempty : entry'.items.isEmpty = entry.items.isEmpty := by
      simpa [Structure.executionOrder] using hentry.isEmpty_eq
    simp only [hempty]
    split
    · exact .error _ _
    · refine .ok ⟨rfl, rfl, ?_⟩
      exact {
        scopes := .cons ⟨hentry, rfl⟩ .nil
        operands := rfl
        envs := rfl
        current := rfl
        shown := rfl }

end Machine

namespace Program

open Machine

/-- **Tuples can be built step by step.** Let a tuple stand anywhere in a core tree, and in a second
tree `nil` with the components of the tuple appended to it in turn. Either both trees have a control
table, with equally many structures, or none has. Under any settings without a budget the runs of
the two programs come to the same end: the same value or error, the same values shown, and the same
environments opened. They go on for ever in the same cases. -/
theorem tuple_appended_agree (context : TreeContext) (components : List Tree) :
    Conform (fun table table' => table'.size = table.size ∧
        ∀ settings : Settings, settings.budget = none → ∃ start start',
          load table settings = .ok (⟨table, none⟩, start) ∧
          load table' settings = .ok (⟨table', none⟩, start') ∧
          (∀ ending, EndsIn ⟨table, none⟩ start ending ↔ EndsIn ⟨table', none⟩ start' ending) ∧
          ((∀ fuel, (advance ⟨table, none⟩ fuel start).stopped = false) ↔
            ∀ fuel, (advance ⟨table', none⟩ fuel start').stopped = false))
      (Table.ofTree (context.fill (.of .tau components)))
      (Table.ofTree (context.fill (.appended components))) := by
  have htables := (context.exchangeable_fill (Tree.exchangeable_appended components)).ofTree
  generalize htable : Table.ofTree (context.fill (.of .tau components)) = r at htables
  generalize Table.ofTree (context.fill (.appended components)) = r' at htables
  cases htables with
  | error e e' => exact .error e e'
  | @ok table table' htables =>
    obtain ⟨hsize, hunrolled⟩ := htables
    refine .ok ⟨hsize, fun settings hbudget => ?_⟩
    obtain ⟨_, -, hload⟩ := exists_load htable settings
    have hloads := load_unrolled hunrolled settings
    rw [hload] at hloads
    generalize hload' : load table' settings = l at hloads
    cases hloads with
    | @ok _ m' hstart =>
      obtain ⟨machine', start'⟩ := m'
      obtain ⟨-, rfl, hstart⟩ := hstart
      rw [hbudget] at hload
      have hends := endsIn_unrolled hunrolled hstart
      refine ⟨_, start', hload, ?_, hends, ?_⟩
      · rw [hbudget]
      · simp only [endless_iff, hends]

/-- `Print (1, fn x. x)` shows a pair in which the function has structure 1 as its body, and comes
to that pair. It does the same if the pair is built step by step. -/
theorem tuple_appended_agree_printed :
    let context := TreeContext.node (.unary .print) [] .hole []
    let components : List Tree :=
      [.leaf (.integer 1), .lambda (.identifier ⟨17⟩) (.identifier ⟨17⟩)]
    let pair : Value := .tuple [.integer 1, .closure ⟨⟨1⟩, [⟨17⟩], .root⟩]
    let settings : Settings := { primitives := false }
    ∃ table' start', Table.ofTree (context.fill (.appended components)) = .ok table' ∧
      table'.size = 2 ∧ load table' settings = .ok (⟨table', none⟩, start') ∧
      EndsIn ⟨table', none⟩ start' ⟨.ok pair, [pair], settings.environments⟩ := by
  intro context components pair settings
  have hagree := tuple_appended_agree context components
  generalize htable : Table.ofTree (context.fill (.of .tau components)) = r at hagree
  generalize Table.ofTree (context.fill (.appended components)) = r' at hagree ⊢
  cases hagree with
  | error e e' => cases htable
  | @ok table table' hagree =>
    cases htable
    obtain ⟨hsize, hruns⟩ := hagree
    obtain ⟨start, start', hload, hload', hends, -⟩ := hruns settings rfl
    cases hload
    exact ⟨table', start', rfl, hsize, hload', (hends _).1 ⟨6, rfl⟩⟩

end Program

end EagerLambda
