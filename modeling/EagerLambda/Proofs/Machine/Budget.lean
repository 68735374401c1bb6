import EagerLambda.Proofs.Machine.Effect

/-!
# The step budget

A budget only truncates a run. As long as the steps that were counted are within the budget, the
machine takes the turns that it takes without one; the first step beyond it is counted, but its rule
is not applied. What is then left on the operand stack is no result: the operand at the bottom is
the marker of a scope. So a machine that was stopped by its budget can be run again, but it fails
and shows nothing.

## Main definitions

- `Machine.CutShort` — the budget stops a run that would go on without it
- `Machine.Reruns` — the states that repeated runs leave behind
- `Machine.Spent` — nothing is left of the budget

## Main statements

- `Machine.advance_within` — a run within the budget
- `Machine.advance_beyond` — a run that exceeds it
- `Machine.Spent.advance` — a run on a spent budget fails at once
- `Machine.budget_truncates` — the run with a budget, compared to the run without
-/

namespace EagerLambda

open Control

namespace Machine

variable {s s' : State} {task : Task} {machine : Machine} {table : Table} {budget : Nat}

-- ════════════════════════════════════════════════════════════════════════
-- Counting steps
-- ════════════════════════════════════════════════════════════════════════

theorem charge_steps (h : s.steps < stepLimit) : s.charge.steps = s.steps + 1 :=
  Nat.min_eq_left h

/-- Every turn but the halt counts a step. -/
theorem turn_steps (htake : s.takeTask? = some (task, s')) :
    (machine.turn s).state.steps = s.charge.steps := by
  have hcourse := turn_course machine s
  generalize machine.turn s = t at hcourse ⊢
  cases hcourse with
  | halt hnone _ => cases htake.symm.trans hnone
  | exceed budget _ => rfl
  | item _ _ heffect => exact heffect.steps
  | close _ _ hcloses => exact hcloses.steps

theorem turn_of_empty (htake : s.takeTask? = none) : machine.turn s = finish s := by
  rw [turn, htake]

/-- The count of steps never falls back below a number once it is there. -/
theorem advance_steps_ge {count : Nat} (fuel : Nat) (hcount : count ≤ stepLimit)
    (hs : count ≤ s.steps) : count ≤ (machine.advance fuel s).state.steps := by
  refine advance_state_of_turn (P := fun s => count ≤ s.steps) (fun s hs => ?_) fuel hs
  cases htake : s.takeTask? with
  | none => rwa [turn_of_empty htake, (finish_stopped s).2.2]
  | some taken =>
    rw [turn_steps htake]
    exact Nat.le_min.2 ⟨Nat.le_succ_of_le hs, hcount⟩

/-- A turn after which the machine can go on counts one step. -/
theorem turn_next_steps (h : machine.turn s = .next s') (hlimit : s.steps < stepLimit) :
    s'.steps = s.steps + 1 := by
  have hsteps (task : Task) (taken : State) (htake : s.takeTask? = some (task, taken)) :
      (machine.turn s).state.steps = s.charge.steps := turn_steps htake
  rw [h, charge_steps hlimit] at hsteps
  cases turn_continues h with
  | item htake _ _ => exact hsteps _ _ htake
  | close htake _ _ => exact hsteps _ _ htake

/-- A run that can go on has counted all its turns. -/
theorem advance_next_steps {fuel : Nat} (h : machine.advance fuel s = .next s')
    (hlimit : s.steps + fuel ≤ stepLimit) : s'.steps = s.steps + fuel := by
  induction fuel generalizing s with
  | zero =>
    cases h
    rfl
  | succ fuel ih =>
    obtain ⟨s₁, hturn, hrest⟩ := exists_first_turn h
    have hs₁ : s₁.steps = s.steps + 1 := turn_next_steps hturn (by omega)
    have := ih hrest (by omega)
    omega

-- ════════════════════════════════════════════════════════════════════════
-- Within the budget and beyond
-- ════════════════════════════════════════════════════════════════════════

/-- A turn that leaves the count of steps within the budget is the turn without a budget. -/
theorem turn_within (h : (turn ⟨table, none⟩ s).state.steps ≤ budget) :
    turn ⟨table, some budget⟩ s = turn ⟨table, none⟩ s := by
  cases htake : s.takeTask? with
  | none => rw [turn_of_empty htake, turn_of_empty htake]
  | some taken =>
    obtain ⟨task, s'⟩ := taken
    rw [turn_steps htake] at h
    obtain ⟨-, scopes, rfl⟩ := State.takeTask?_scopes htake
    have hwithin : overrun? ⟨table, some budget⟩ s.charge.steps = none := by
      simpa [overrun?] using h
    simp only [turn, htake]
    have hcharge : State.steps (State.charge { s with scopes := scopes }) = s.charge.steps := rfl
    rw [hcharge, hwithin]
    rfl

/-- The step that exceeds the budget is counted, but its rule is not applied. -/
theorem turn_beyond (htake : s.takeTask? = some (task, s')) (h : budget < s.charge.steps) :
    turn ⟨table, some budget⟩ s = .failed (.budgetExhausted budget) s'.charge := by
  obtain ⟨-, scopes, rfl⟩ := State.takeTask?_scopes htake
  have hbeyond : overrun? ⟨table, some budget⟩ s.charge.steps = some budget := by
    simpa [overrun?] using h
  simp only [turn, htake]
  have hcharge : State.steps (State.charge { s with scopes := scopes }) = s.charge.steps := rfl
  rw [hcharge, hbeyond]

/-- A run that stays within the budget is the run without a budget. -/
theorem advance_within {fuel : Nat} (hbudget : budget < stepLimit)
    (h : (advance ⟨table, none⟩ fuel s).state.steps ≤ budget) :
    advance ⟨table, some budget⟩ fuel s = advance ⟨table, none⟩ fuel s := by
  induction fuel generalizing s with
  | zero => rfl
  | succ fuel ih =>
    rw [advance_succ] at h ⊢
    cases hturn : turn ⟨table, none⟩ s with
    | next s₁ =>
      rw [hturn] at h
      have hfirst : s₁.steps ≤ budget := by
        refine Nat.le_of_not_lt fun hover => ?_
        have hlast : budget + 1 ≤ (advance ⟨table, none⟩ fuel s₁).state.steps :=
          advance_steps_ge fuel hbudget hover
        have hrest : (advance ⟨table, none⟩ fuel s₁).state.steps ≤ budget := h
        omega
      rw [turn_within (by rw [hturn]; exact hfirst), hturn, advance_succ, hturn]
      exact ih h
    | halted value s₁ =>
      rw [hturn] at h
      rw [turn_within (by rw [hturn]; exact h), advance_succ, hturn]
      rfl
    | failed error s₁ =>
      rw [hturn] at h
      rw [turn_within (by rw [hturn]; exact h), advance_succ, hturn]
      rfl

/-- A run that counts more steps than the budget allows. With the budget, it is stopped at the
first entry of the control stack that comes after the allowed steps. -/
theorem advance_beyond {fuel count : Nat} (hbudget : budget < stepLimit)
    (hcount : s.steps + count = budget)
    (h : budget < (advance ⟨table, none⟩ fuel s).state.steps) :
    ∃ reached task taken, advance ⟨table, none⟩ count s = .next reached ∧
      reached.steps = budget ∧ reached.takeTask? = some (task, taken) ∧
      advance ⟨table, some budget⟩ (count + 1) s =
        .failed (.budgetExhausted budget) taken.charge := by
  induction count generalizing s fuel with
  | zero =>
    cases fuel with
    | zero =>
      have hsteps : budget < s.steps := h
      omega
    | succ fuel =>
      rw [advance_succ] at h
      cases htake : s.takeTask? with
      | none =>
        rw [turn_of_empty htake, resume_of_stopped (finish_stopped s).1,
          (finish_stopped s).2.2] at h
        omega
      | some taken =>
        have hcharge : budget < s.charge.steps := by
          rw [charge_steps (by omega)]
          omega
        refine ⟨s, taken.1, taken.2, rfl, by omega, htake, ?_⟩
        rw [advance_succ, turn_beyond htake hcharge]
        rfl
  | succ count ih =>
    cases fuel with
    | zero =>
      have hsteps : budget < s.steps := h
      omega
    | succ fuel =>
      rw [advance_succ] at h
      cases htake : s.takeTask? with
      | none =>
        rw [turn_of_empty htake, resume_of_stopped (finish_stopped s).1,
          (finish_stopped s).2.2] at h
        omega
      | some taken =>
        have hsteps : (turn ⟨table, none⟩ s).state.steps = s.steps + 1 := by
          rw [turn_steps htake, charge_steps (by omega)]
        have hwithin : turn ⟨table, some budget⟩ s = turn ⟨table, none⟩ s :=
          turn_within (by omega)
        cases hturn : turn ⟨table, none⟩ s with
        | next s₁ =>
          rw [hturn] at h hsteps hwithin
          have hs₁ : s₁.steps = s.steps + 1 := hsteps
          obtain ⟨reached, task, taken', hreached, hfull, htaken, hcut⟩ :=
            ih (s := s₁) (by omega) h
          refine ⟨reached, task, taken', ?_, hfull, htaken, ?_⟩
          · rw [advance_succ, hturn]
            exact hreached
          · rw [advance_succ, hwithin]
            exact hcut
        | halted value s₁ =>
          rw [hturn] at h hsteps
          have hover : budget < s₁.steps := h
          have hs₁ : s₁.steps = s.steps + 1 := hsteps
          omega
        | failed error s₁ =>
          rw [hturn] at h hsteps
          have hover : budget < s₁.steps := h
          have hs₁ : s₁.steps = s.steps + 1 := hsteps
          omega

-- ════════════════════════════════════════════════════════════════════════
-- Running again
-- ════════════════════════════════════════════════════════════════════════

/-- The states that repeated runs leave behind after a first run that left `s`: each run starts
where the one before it stopped. -/
inductive Reruns (machine : Machine) (s : State) : State → Prop
  | first : Reruns machine s s
  | again {left : State} {fuel : Nat} : Reruns machine s left →
      (machine.advance fuel left).stopped = true →
      Reruns machine s (machine.advance fuel left).state

/-- Nothing is left of the budget, and no value lies at the bottom of the operand stack. -/
structure Spent (budget : Nat) (s : State) : Prop where
  steps : budget < s.steps
  bottom : s.operands ≠ [] → ∃ env, s.operands.getLast? = some (.marker env)

/-- The halt on a spent budget finds no value alone on the operand stack. -/
theorem Spent.finish (h : Spent budget s) :
    ∃ error s', finish s = .failed error s' ∧ s'.shown = s.shown ∧ Spent budget s' := by
  obtain ⟨hsteps, hbottom⟩ := h
  obtain ⟨scopes, operands, envs, current, steps, shown⟩ := s
  match operands with
  | [] => exact ⟨_, _, rfl, rfl, hsteps, hbottom⟩
  | [.marker env] => exact ⟨_, _, rfl, rfl, hsteps, fun hne => absurd rfl hne⟩
  | [.value v] =>
    obtain ⟨env, hlast⟩ := hbottom (List.cons_ne_nil _ _)
    cases hlast
  | _ :: _ :: _ => exact ⟨_, _, rfl, rfl, hsteps, hbottom⟩

/-- On a spent budget the first turn fails. It shows nothing and leaves the budget spent. -/
theorem Spent.turn (h : Spent budget s) (table : Table) (hbudget : budget < stepLimit) :
    ∃ error s', turn ⟨table, some budget⟩ s = .failed error s' ∧ s'.shown = s.shown ∧
      Spent budget s' := by
  cases htake : s.takeTask? with
  | none =>
    rw [turn_of_empty htake]
    exact h.finish
  | some taken =>
    obtain ⟨task, s'⟩ := taken
    have hcharge : budget < s.charge.steps := Nat.lt_min.2 ⟨Nat.lt_succ_of_lt h.steps, hbudget⟩
    refine ⟨_, _, turn_beyond htake hcharge, ?_⟩
    obtain ⟨-, scopes, rfl⟩ := State.takeTask?_scopes htake
    exact ⟨rfl, hcharge, h.bottom⟩

/-- On a spent budget a run fails at once, however many turns it is given. -/
theorem Spent.advance (h : Spent budget s) (table : Table) (hbudget : budget < stepLimit) :
    ∃ error s', (∀ fuel, 0 < fuel → advance ⟨table, some budget⟩ fuel s = .failed error s') ∧
      s'.shown = s.shown ∧ Spent budget s' := by
  obtain ⟨error, s', hturn, hshown, hspent⟩ := h.turn table hbudget
  refine ⟨error, s', fun fuel hfuel => ?_, hshown, hspent⟩
  obtain ⟨fuel, rfl⟩ := Nat.exists_eq_add_one_of_ne_zero (Nat.ne_of_gt hfuel)
  rw [advance_succ, hturn]
  rfl

/-- A spent budget stays spent, run after run. -/
theorem Spent.reruns (h : Spent budget s) (hbudget : budget < stepLimit)
    (hreruns : Reruns ⟨table, some budget⟩ s s') : Spent budget s' := by
  induction hreruns with
  | first => exact h
  | @again left fuel hleft hstopped hspent =>
    obtain ⟨error, s₁, hrun, -, hspent₁⟩ := hspent.advance table hbudget
    cases fuel with
    | zero => cases hstopped
    | succ fuel =>
      rw [hrun _ (Nat.succ_pos fuel)]
      exact hspent₁

-- ════════════════════════════════════════════════════════════════════════
-- The run with a budget
-- ════════════════════════════════════════════════════════════════════════

/-- The budget stops a run from `start` that would go on without it. The run without a budget is in
`reached` after the steps that the budget allows; the run with it ends in `cut`. -/
structure CutShort (table : Table) (budget : Nat) (start reached cut : State) : Prop where
  allowed : advance ⟨table, none⟩ budget start = .next reached
  reached_steps : reached.steps = budget
  failed : ∀ fuel, budget < fuel →
    advance ⟨table, some budget⟩ fuel start = .failed (.budgetExhausted budget) cut
  cut_steps : cut.steps = budget + 1
  shown : cut.shown = reached.shown
  /-- The machine can be run again and again. Each run fails and shows nothing. -/
  again : ∀ left, Reruns ⟨table, some budget⟩ cut left →
    ∃ error s, (∀ fuel, 0 < fuel → advance ⟨table, some budget⟩ fuel left = .failed error s) ∧
      s.shown = left.shown

/-- A run that counts more steps than the budget allows is cut short. -/
theorem cutShort_of_beyond {start : State} {fuel : Nat} (hbudget : budget < stepLimit)
    (hbalanced : Balanced start) (hstart : start.steps = 0)
    (h : budget < (advance ⟨table, none⟩ fuel start).state.steps) :
    ∃ reached cut, CutShort table budget start reached cut := by
  have hcount : start.steps + budget = budget := by omega
  obtain ⟨reached, task, taken, hallowed, hsteps, htake, hcut⟩ := advance_beyond hbudget hcount h
  obtain ⟨hopen, scopes, rfl⟩ := State.takeTask?_scopes htake
  have hcharge : reached.charge.steps = budget + 1 := by rw [charge_steps (by omega), hsteps]
  have hspent : Spent budget (State.charge { reached with scopes := scopes }) :=
    ⟨hcharge ▸ Nat.lt_succ_self budget,
      fun _ => (advance_balanced hallowed hbalanced).bottom hopen⟩
  refine ⟨reached, State.charge { reached with scopes := scopes }, hallowed, hsteps,
    fun fuel hfuel => ?_, hcharge, rfl, fun left hleft => ?_⟩
  · obtain ⟨rest, rfl⟩ := Nat.exists_eq_add_of_le (Nat.succ_le_of_lt hfuel)
    have hfirst : resume ⟨table, some budget⟩ (budget + 1) (.next start) = _ := hcut
    have hrun : advance ⟨table, some budget⟩ (budget + 1 + rest) start =
        resume ⟨table, some budget⟩ rest (resume ⟨table, some budget⟩ (budget + 1) (.next start)) :=
      resume_add (budget + 1) rest (.next start)
    rw [hfirst] at hrun
    exact hrun
  · obtain ⟨error, s, hrun, hs, -⟩ := (hspent.reruns hbudget hleft).advance table hbudget
    exact ⟨error, s, hrun, hs⟩

/-- What was shown before the budget stopped the run is the beginning of what is shown without. -/
theorem CutShort.shown_suffix {start reached cut : State} {fuel : Nat}
    (h : CutShort table budget start reached cut)
    (hstopped : (advance ⟨table, none⟩ fuel start).stopped = true) :
    cut.shown <:+ (advance ⟨table, none⟩ fuel start).state.shown := by
  have hallowed : resume ⟨table, none⟩ budget (.next start) = .next reached := h.allowed
  have hlater : budget ≤ fuel := by
    refine Nat.le_of_not_lt fun hearlier => ?_
    obtain ⟨s, hs⟩ := resume_next_of_le hallowed (Nat.le_of_lt hearlier)
    have hnext : advance ⟨table, none⟩ fuel start = .next s := hs
    rw [hnext] at hstopped
    cases hstopped
  obtain ⟨rest, rfl⟩ := Nat.exists_eq_add_of_le hlater
  have hrun : advance ⟨table, none⟩ (budget + rest) start =
      resume ⟨table, none⟩ rest (resume ⟨table, none⟩ budget (.next start)) :=
    resume_add budget rest (.next start)
  rw [hrun, hallowed, h.shown]
  exact advance_shown ⟨table, none⟩ rest reached

/-- The budget does not matter to the state in which the machine starts. -/
theorem load_budget {settings : Settings} (h : load table settings = .ok (machine, s))
    (budget : Option Nat) :
    machine = ⟨table, settings.budget⟩ ∧ s.steps = 0 ∧
      load table { settings with budget := budget } = .ok (⟨table, budget⟩, s) := by
  rw [load] at h
  rw [load]
  cases hentry : table.entry? with
  | none =>
    rw [hentry] at h
    cases h
  | some entry =>
    simp only [hentry] at h ⊢
    split at h
    · cases h
    · next hitems =>
      cases h
      exact ⟨rfl, rfl, if_neg hitems⟩

/-- **The step budget only truncates.** The machine with a budget starts in the state in which the
machine without one starts. A run without a budget that stops within the allowed steps is the run
with it; one that stops after more steps, or never, is cut short with what it had shown by then. -/
theorem budget_truncates (settings : Settings) {unbounded : Machine} {start : State}
    (hload : load table { settings with budget := none } = .ok (unbounded, start))
    (hbudget : budget < stepLimit) :
    ∃ bounded, load table { settings with budget := some budget } = .ok (bounded, start) ∧
      (∀ fuel t, unbounded.advance fuel start = t → t.stopped = true →
        (t.state.steps ≤ budget → bounded.advance fuel start = t) ∧
        (budget < t.state.steps → ∃ reached cut, CutShort table budget start reached cut ∧
          cut.shown <:+ t.state.shown)) ∧
      ((∀ fuel, (unbounded.advance fuel start).stopped = false) →
        ∃ reached cut, CutShort table budget start reached cut) := by
  have hbalanced := load_balanced hload
  obtain ⟨rfl, hstart, hload'⟩ := load_budget hload (some budget)
  refine ⟨_, hload', fun fuel t hrun hstopped => ⟨fun hwithin => ?_, fun hbeyond => ?_⟩,
    fun hnever => ?_⟩
  · subst hrun
    exact advance_within hbudget hwithin
  · subst hrun
    obtain ⟨reached, cut, hcut⟩ := cutShort_of_beyond hbudget hbalanced hstart hbeyond
    exact ⟨reached, cut, hcut, hcut.shown_suffix hstopped⟩
  · have hnext := hnever (budget + 1)
    cases hrun : advance ⟨table, none⟩ (budget + 1) start with
    | next s =>
      have hsteps : s.steps = start.steps + (budget + 1) := advance_next_steps hrun (by omega)
      have hbeyond : budget < (advance ⟨table, none⟩ (budget + 1) start).state.steps := by
        rw [hrun]
        exact hsteps ▸ (by omega)
      exact cutShort_of_beyond hbudget hbalanced hstart hbeyond
    | halted value s =>
      rw [hrun] at hnext
      cases hnext
    | failed error s =>
      rw [hrun] at hnext
      cases hnext

/-- A program that shows two numbers and answers with the pair of them. -/
def pairShown : Table :=
  .ofItems [[.tau 2, .unary .print, .load (.integer 2), .unary .print, .load (.integer 1)]]

theorem pairShown_cut_short : ∃ unbounded start reached cut,
    load pairShown {} = .ok (unbounded, start) ∧ 3 < stepLimit ∧
      CutShort pairShown 3 start reached cut ∧ cut.shown = [.integer 1] ∧
      (unbounded.advance 7 start).state.shown = [.integer 2, .integer 1] := by
  have hload : load pairShown {} = .ok _ := rfl
  have hbudget : 3 < stepLimit := by decide
  obtain ⟨bounded, -, hstops, -⟩ := budget_truncates {} hload hbudget
  obtain ⟨reached, cut, hcut, -⟩ := (hstops 7 _ rfl rfl).2 (by decide)
  have hreached := Turn.next.inj hcut.allowed
  refine ⟨_, _, reached, cut, hload, hbudget, hcut, ?_, rfl⟩
  rw [hcut.shown, ← hreached]
  rfl

end Machine

end EagerLambda
