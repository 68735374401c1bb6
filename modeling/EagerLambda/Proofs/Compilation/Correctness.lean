import EagerLambda.Program
import EagerLambda.Proofs.Compilation.Simulation

/-!
# Correctness of compiled programs

A control table executes the tree it was made from: a run without a budget ends with the value, the
error and the output that evaluation of the tree gives, and it goes on for ever exactly if the
evaluation does. Function values agree up to their bodies, which are subtrees on one side and
structures on the other.

## Main definitions

- `Store.output` — the values shown, in order, with bodies replaced
- `Program.Report.Reflects` — a report says what an answer says

## Main statements

- `Program.machine_follows` — the machine follows the evaluation of a program
- `Program.execute_iff_evaluate` — runs and evaluations end alike
-/

namespace EagerLambda

open Control Machine

variable {tree : Tree} {table : Table} {settings : Settings}

/-- The values shown so far, in order, with the bodies of functions replaced. -/
def Store.output {Code : Type} (f : Code → ControlId) (store : Store Code) : List Value :=
  (store.shown.map (Value.mapCode f)).reverse

theorem Tree.LaidOut.items_ne_nil {id : Site → ControlId} {site : Site} {items : List Item}
    (h : tree.LaidOut table id site items) : items ≠ [] := by
  cases h <;> exact List.cons_ne_nil _ _

/-- A value without functions of a program is related to itself, whatever its bodies are taken
for. -/
theorem Value.Codeless.related {Code Code' : Type} {R : Closure Code' → Closure Code → Prop}
    {f : Code → Code'} {v : Value Code} (h : v.Codeless) : Value.Related R (v.mapCode f) v :=
  have hmap : Value.Related (fun _ _ => False) v (v.mapCode f) :=
    Value.All.related_mapCode (fun _ hc => hc.elim) h
  hmap.flip fun _ _ hcd => hcd.elim

/-- If no function of a program is bound at the root, every correspondence of functions relates the
environments that the evaluator and the machine start with. -/
theorem Store.initial_related {R : Closure Body → Closure → Prop} (h : settings.Codeless) :
    Environments.Related R (Store.initial settings).envs settings.environments := by
  refine Settings.environments_related rfl ?_
  refine List.forall₂_map_left_iff.2 (List.forall₂_same.2 fun binding hbinding => ?_)
  exact ⟨rfl, (h binding hbinding).related⟩

namespace Program

/-- The state in which a run starts that executes these items. -/
def startState (settings : Settings) (items : List Item) : State where
  scopes := [⟨items.reverse, .root⟩]
  operands := [.marker .root]
  envs := settings.environments
  current := some .root
  steps := 0
  shown := []

/-- The table of a program can be executed, from the items for the tree. -/
theorem exists_load (htable : Table.ofTree tree = .ok table) (settings : Settings) :
    ∃ items, tree.LaidOut table tree.bodyId [] items ∧
      Machine.load table settings = .ok (⟨table, settings.budget⟩, startState settings items) := by
  obtain ⟨items, hlaid, hget⟩ := Tree.laidOut_of_ofTree htable
  have hentry : table.entry? = some ⟨tree.bodyId [], items⟩ := hget
  have hempty : items.isEmpty = false := List.isEmpty_eq_false_iff.2 hlaid.items_ne_nil
  refine ⟨items, hlaid, ?_⟩
  rw [load, hentry]
  simp only [hempty]
  rfl

/-- The table of a program can be executed, and without a budget the machine follows the
evaluation of the program. -/
theorem machine_follows (htable : Table.ofTree tree = .ok table) (hcode : settings.Codeless) :
    ∃ start, Machine.load table settings = .ok (⟨table, settings.budget⟩, start) ∧
      ∀ clock, Follows (Codes table tree.bodyId) ⟨table, none⟩ clock
        (Returned (Codes table tree.bodyId) [⟨[], .root⟩] [.marker .root]) (.next start)
        (tree.evaluateProgram clock settings) := by
  obtain ⟨items, hlaid, hload⟩ := exists_load htable settings
  refine ⟨_, hload, fun clock => ?_⟩
  refine treesFollow (deeperFollows_deeperAt table tree.bodyId clock) hlaid ?_
  exact {
    envs := Store.initial_related hcode
    shown := .nil
    scopes := by simp [startState]
    operands := rfl
    current := rfl }

/-- The report says what the answer of the evaluator says, with the bodies of functions
replaced. -/
def Report.Reflects (f : Body → ControlId) (answer : Answer Body (Value Body)) (report : Report) :
    Prop :=
  match answer with
  | .value w store =>
    ∃ outcome : Outcome, report = ⟨.ok outcome, store.output f⟩ ∧ outcome.value = w.mapCode f
  | .failed error store => report = ⟨.error error, store.output f⟩
  | .pending => False

/-- The report says what the answer of an evaluator says, up to functions, which correspond
by `R`. -/
def Report.Tells {Code : Type} (R : Closure Code → Closure → Prop)
    (answer : Answer Code (Value Code)) (report : Report) : Prop :=
  match answer with
  | .value w store =>
    ∃ outcome, report.result = .ok outcome ∧ Value.Related R w outcome.value ∧
      List.Forall₂ (Value.Related R) store.shown.reverse report.shown
  | .failed error store =>
    report.result = .error error ∧ List.Forall₂ (Value.Related R) store.shown.reverse report.shown
  | .pending => False

/-- If functions correspond by their bodies, a report reflects the answer that it tells. -/
theorem Report.Tells.reflects {id : Site → ControlId} {answer : Answer Body (Value Body)}
    {report : Report} (h : report.Tells (Codes table id) answer) :
    report.Reflects (fun body => id body.site) answer := by
  have hvalue : ∀ {v : Value Body} {w : Value}, Value.Related (Codes table id) v w →
      w = v.mapCode fun body => id body.site :=
    fun hvw => hvw.eq_mapCode fun _ _ hcd => hcd.eq_mapCode
  have houtput : ∀ {store : Store Body} {shown : List Value},
      List.Forall₂ (Value.Related (Codes table id)) store.shown.reverse shown →
        shown = store.output fun body => id body.site := fun hshown => by
    rw [Store.output, ← List.map_reverse]
    exact Value.forall₂_eq_map (fun _ _ _ hvw => hvalue hvw) hshown
  obtain ⟨result, shown⟩ := report
  cases answer with
  | value w store =>
    obtain ⟨outcome, rfl, hw, hshown⟩ := h
    obtain rfl : shown = _ := houtput hshown
    exact ⟨outcome, rfl, hvalue hw⟩
  | failed error store =>
    obtain ⟨rfl, hshown⟩ := h
    obtain rfl : shown = _ := houtput hshown
    rfl
  | pending => exact h.elim

/-- A report of a value reflects an answer that is this value. -/
theorem Report.Reflects.value {f : Body → ControlId} {answer : Answer Body (Value Body)}
    {outcome : Outcome} {shown : List Value}
    (h : Report.Reflects f answer ⟨.ok outcome, shown⟩) :
    ∃ w store, answer = .value w store ∧ w.mapCode f = outcome.value ∧
      store.output f = shown := by
  cases answer with
  | value w store =>
    obtain ⟨outcome', heq, hvalue⟩ := h
    cases heq
    exact ⟨w, store, rfl, hvalue.symm, rfl⟩
  | failed error store => cases h
  | pending => exact h.elim

/-- A report of an error reflects an answer that is this error. -/
theorem Report.Reflects.failed {f : Body → ControlId} {answer : Answer Body (Value Body)}
    {error : Error} {shown : List Value} (h : Report.Reflects f answer ⟨.error error, shown⟩) :
    ∃ store, answer = .failed error store ∧ store.output f = shown := by
  cases answer with
  | value w store =>
    obtain ⟨outcome, heq, -⟩ := h
    cases heq
  | failed error' store =>
    cases h
    exact ⟨store, rfl, rfl⟩
  | pending => exact h.elim

/-- A report does not change with more turns. -/
theorem execute_add {fuel : Nat} {report : Report} (h : execute fuel settings table = some report)
    (more : Nat) : execute (fuel + more) settings table = some report := by
  rw [execute] at h ⊢
  cases hload : Machine.load table settings with
  | error error =>
    rw [hload] at h
    exact h
  | ok loaded =>
    obtain ⟨machine, start⟩ := loaded
    have hadd : machine.advance (fuel + more) start =
        machine.resume more (machine.advance fuel start) := resume_add fuel more (.next start)
    rw [hload] at h
    simp only at h ⊢
    rw [hadd]
    cases hturn : machine.advance fuel start with
    | next s =>
      rw [hturn] at h
      cases h
    | halted value s =>
      rw [hturn] at h
      exact h
    | failed error s =>
      rw [hturn] at h
      exact h

/-- However many turns it is given, a program has one report. -/
theorem execute_unique {fuel fuel' : Nat} {report report' : Report}
    (h : execute fuel settings table = some report)
    (h' : execute fuel' settings table = some report') : report = report' := by
  have hsum := execute_add h fuel'
  rw [Nat.add_comm, execute_add h' fuel] at hsum
  exact (Option.some.inj hsum).symm

theorem run_unique {fuel fuel' : Nat} {report report' : Report}
    (h : run fuel settings tree = some report) (h' : run fuel' settings tree = some report') :
    report = report' := by
  rw [run] at h h'
  cases hcompile : compile tree with
  | error error =>
    rw [hcompile] at h h'
    exact Option.some.inj (h.symm.trans h')
  | ok table =>
    rw [hcompile] at h h'
    exact execute_unique h h'

variable (htable : Table.ofTree tree = .ok table) (hbudget : settings.budget = none)
  (hcode : settings.Codeless)

include htable hbudget hcode

/-- As long as the evaluator has no answer, the machine has no report. -/
theorem execute_of_pending {clock : Nat} (h : tree.evaluateProgram clock settings = .pending) :
    execute clock settings table = none := by
  obtain ⟨start, hload, hfollows⟩ := machine_follows htable hcode
  have hrun := hfollows clock
  rw [h] at hrun
  cases hrun with
  | @pending s hadvance =>
    have hnext : advance ⟨table, none⟩ clock start = .next s := hadvance
    rw [execute, hload, hbudget]
    simp only [hnext]

/-- If the evaluator has an answer, the machine reports it. -/
theorem exists_report_tells (clock : Nat) (h : tree.evaluateProgram clock settings ≠ .pending) :
    ∃ fuel report, execute fuel settings table = some report ∧
      report.Tells (Codes table tree.bodyId) (tree.evaluateProgram clock settings) := by
  obtain ⟨start, hload, hfollows⟩ := machine_follows htable hcode
  have hrun := hfollows clock
  generalize tree.evaluateProgram clock settings = answer at h hrun
  cases hrun with
  | @value w store s turns hadvance hreturned =>
    obtain ⟨v, s', hend, hv, hshares⟩ := hreturned.halt table
    have hhalt : advance ⟨table, none⟩ (turns + 2) start = .halted v s' :=
      (resume_add turns 2 (.next start)).trans (hadvance ▸ hend)
    let outcome : Outcome := ⟨v, table.size, s'.steps, s'.envs.size⟩
    refine ⟨turns + 2, ⟨.ok outcome, s'.shown.reverse⟩, ?_, outcome, rfl, hv,
      List.rel_reverse hshares.shown⟩
    rw [execute, hload, hbudget]
    simp only [hhalt, outcome]
  | @failed error store s turns hadvance hshares =>
    have hfail : advance ⟨table, none⟩ turns start = .failed error s := hadvance
    refine ⟨turns, ⟨.error error, s.shown.reverse⟩, ?_, rfl, List.rel_reverse hshares.shown⟩
    rw [execute, hload, hbudget]
    simp only [hfail]
  | pending hadvance => exact absurd rfl h

/-- A report of the machine says what the evaluator answers if its clock allows as much. -/
theorem tells_of_execute {fuel : Nat} {report : Report}
    (h : execute fuel settings table = some report) :
    report.Tells (Codes table tree.bodyId) (tree.evaluateProgram fuel settings) := by
  -- The evaluator needs no larger clock than the machine needs turns: while it has no answer, the
  -- machine is still running.
  by_cases hpending : tree.evaluateProgram fuel settings = .pending
  · rw [execute_of_pending htable hbudget hcode hpending] at h
    cases h
  · obtain ⟨fuel', report', h', htells⟩ := exists_report_tells htable hbudget hcode fuel hpending
    rwa [execute_unique h h']

theorem exists_report (clock : Nat) (h : tree.evaluateProgram clock settings ≠ .pending) :
    ∃ fuel report, execute fuel settings table = some report ∧
      report.Reflects (fun body => tree.bodyId body.site)
        (tree.evaluateProgram clock settings) := by
  obtain ⟨fuel, report, hreport, htells⟩ := exists_report_tells htable hbudget hcode clock h
  exact ⟨fuel, report, hreport, htells.reflects⟩

theorem reflects_of_execute {fuel : Nat} {report : Report}
    (h : execute fuel settings table = some report) :
    report.Reflects (fun body => tree.bodyId body.site) (tree.evaluateProgram fuel settings) :=
  (tells_of_execute htable hbudget hcode h).reflects

/-- **Correctness of compiled programs.** A run without a budget ends with a value and an output
exactly if evaluation of the tree ends with this output and this value, once the body of every
function is replaced by the number of the structure made from it. It ends with an error and an
output exactly if the evaluation does, and it does not end exactly if the evaluation does not. -/
theorem execute_iff_evaluate :
    (∀ v shown, (∃ fuel outcome, execute fuel settings table = some ⟨.ok outcome, shown⟩ ∧
        outcome.value = v) ↔
      ∃ clock w store, tree.evaluateProgram clock settings = .value w store ∧
        w.mapCode (fun body => tree.bodyId body.site) = v ∧
        store.output (fun body => tree.bodyId body.site) = shown) ∧
    (∀ error shown, (∃ fuel, execute fuel settings table = some ⟨.error error, shown⟩) ↔
      ∃ clock store, tree.evaluateProgram clock settings = .failed error store ∧
        store.output (fun body => tree.bodyId body.site) = shown) ∧
    ((∀ fuel, execute fuel settings table = none) ↔
      ∀ clock, tree.evaluateProgram clock settings = .pending) := by
  refine ⟨fun v shown => ⟨?_, ?_⟩, fun error shown => ⟨?_, ?_⟩, ?_, ?_⟩
  · rintro ⟨fuel, outcome, h, rfl⟩
    obtain ⟨w, store, hanswer, hvalue, houtput⟩ :=
      (reflects_of_execute htable hbudget hcode h).value
    exact ⟨fuel, w, store, hanswer, hvalue, houtput⟩
  · rintro ⟨clock, w, store, h, rfl, rfl⟩
    obtain ⟨fuel, report, hreport, hreflects⟩ :=
      exists_report htable hbudget hcode clock (by rw [h]; exact nofun)
    rw [h] at hreflects
    obtain ⟨outcome, rfl, hvalue⟩ := hreflects
    exact ⟨fuel, outcome, hreport, hvalue⟩
  · rintro ⟨fuel, h⟩
    obtain ⟨store, hanswer, houtput⟩ := (reflects_of_execute htable hbudget hcode h).failed
    exact ⟨fuel, store, hanswer, houtput⟩
  · rintro ⟨clock, store, h, rfl⟩
    obtain ⟨fuel, report, hreport, hreflects⟩ :=
      exists_report htable hbudget hcode clock (by rw [h]; exact nofun)
    rw [h] at hreflects
    rw [hreflects] at hreport
    exact ⟨fuel, hreport⟩
  · intro h clock
    by_contra hanswer
    obtain ⟨fuel, report, hreport, -⟩ := exists_report htable hbudget hcode clock hanswer
    rw [h fuel] at hreport
    cases hreport
  · exact fun h clock => execute_of_pending htable hbudget hcode (h clock)

omit htable hbudget hcode

/-- A recursive function that shows the numbers from its argument down to one, applied to two. -/
def countdown : Tree :=
  let function : Tree := .identifier ⟨17⟩
  let number : Tree := .identifier ⟨18⟩
  let next : Tree :=
    .apply function (.node (.binary .sub) [.node (.unary .print) [number], .leaf (.integer 1)])
  let body : Tree := .of .conditional
    [.node (.binary .eq) [number, .leaf (.integer 0)], .leaf (.string "done"), next]
  .apply (.apply (.identifier .fixpoint) (.lambda function (.lambda number body)))
    (.leaf (.integer 2))

theorem countdown_ends : ∃ table, Table.ofTree countdown = .ok table ∧
    ∃ fuel outcome, execute fuel {} table = some ⟨.ok outcome, [.integer 2, .integer 1]⟩ ∧
      outcome.value = .string "done" := by
  have htable : Table.ofTree countdown = .ok _ := rfl
  have hcode : ({} : Settings).Codeless := fun _ h => absurd h List.not_mem_nil
  refine ⟨_, htable, ((execute_iff_evaluate htable rfl hcode).1 _ _).2 ?_⟩
  exact ⟨20, _, _, rfl, rfl, rfl⟩

end Program

end EagerLambda
