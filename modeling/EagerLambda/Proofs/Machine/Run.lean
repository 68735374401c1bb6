import EagerLambda.Machine.Step

/-!
# Runs of the machine

The machine is deterministic, so a run of more turns goes on where a run of fewer turns left off,
and a run that has stopped stays as it is. A budget does not change what a turn does: it can only
put an end to the run.

## Main definitions

- `Machine.resume` — a bounded number of turns after a turn
- `Machine.Turn.stopped` — the run is over
- `Machine.Turn.state` — the state in which a turn leaves the machine

## Main statements

- `Machine.resume_add` — a run in two parts
- `Machine.resume_of_stopped` — a run that is over does not change
- `Machine.advance_next_of_turn`, `Machine.advance_of_kept`, `Machine.advance_state_of_turn` — what
  turns keep, runs keep
- `Machine.exists_last_turn` — a run that fails has a last turn
- `Machine.advance_budget` — a run within a budget, compared to the run without
-/

namespace EagerLambda

namespace Machine

variable {machine : Machine}

/-- At most `fuel` turns after a turn. -/
def resume (machine : Machine) (fuel : Nat) : Turn → Turn
  | .next s => machine.advance fuel s
  | stopped => stopped

/-- Whether a turn is the last one of its run. -/
def Turn.stopped : Turn → Bool
  | .next _ => false
  | _ => true

/-- The state in which a turn leaves the machine. -/
def Turn.state : Turn → State
  | .next s => s
  | .halted _ s => s
  | .failed _ s => s

theorem resume_zero (t : Turn) : machine.resume 0 t = t := by
  cases t <;> rfl

theorem advance_succ (fuel : Nat) (s : State) :
    machine.advance (fuel + 1) s = machine.resume fuel (machine.turn s) := by
  rw [advance]
  cases machine.turn s <;> rfl

theorem resume_succ (fuel : Nat) (s : State) :
    machine.resume (fuel + 1) (.next s) = machine.resume fuel (machine.turn s) :=
  advance_succ fuel s

/-- A run that is over does not change. -/
theorem resume_of_stopped {t : Turn} (h : t.stopped = true) (fuel : Nat) :
    machine.resume fuel t = t := by
  cases t with
  | next s => cases h
  | halted value s => rfl
  | failed error s => rfl

/-- A run in two parts. -/
theorem resume_add (first second : Nat) (t : Turn) :
    machine.resume (first + second) t = machine.resume second (machine.resume first t) := by
  induction first generalizing t with
  | zero => rw [Nat.zero_add, resume_zero]
  | succ first ih =>
    cases t with
    | next s =>
      have hsum : first + 1 + second = (first + second) + 1 := by omega
      rw [hsum, resume_succ, ih, resume_succ]
    | halted value s => rfl
    | failed error s => rfl

/-- A run that goes on after some turns also goes on after fewer turns. -/
theorem resume_next_of_le {first second : Nat} {t : Turn} {s : State}
    (h : machine.resume second t = .next s) (hle : first ≤ second) :
    ∃ s', machine.resume first t = .next s' := by
  obtain ⟨rest, rfl⟩ := Nat.exists_eq_add_of_le hle
  rw [resume_add] at h
  cases hfirst : machine.resume first t with
  | next s' => exact ⟨s', rfl⟩
  | halted value s' =>
    rw [hfirst] at h
    cases h
  | failed error s' =>
    rw [hfirst] at h
    cases h

/-- A run that is over after some turns is over after more turns. -/
theorem advance_stopped_of_le {first second : Nat} {s : State}
    (h : (machine.advance first s).stopped = true) (hle : first ≤ second) :
    (machine.advance second s).stopped = true := by
  obtain ⟨rest, rfl⟩ := Nat.exists_eq_add_of_le hle
  have hsum : machine.advance (first + rest) s = machine.resume rest (machine.advance first s) :=
    resume_add first rest (.next s)
  rw [hsum, resume_of_stopped h]
  exact h

/-- However many turns it is given, a run stops in one way only. -/
theorem resume_stopped_unique {first second : Nat} {t t₁ t₂ : Turn}
    (h₁ : machine.resume first t = t₁) (hs₁ : t₁.stopped = true)
    (h₂ : machine.resume second t = t₂) (hs₂ : t₂.stopped = true) : t₁ = t₂ := by
  have hsum : machine.resume (first + second) t = t₁ := by
    rw [resume_add, h₁, resume_of_stopped hs₁]
  have hsum' : machine.resume (second + first) t = t₂ := by
    rw [resume_add, h₂, resume_of_stopped hs₂]
  rw [← hsum, ← hsum', Nat.add_comm]

/-- A run starts with its first turn. -/
theorem advance_of_turn {s s₁ : State} (h : machine.turn s = .next s₁) (fuel : Nat) :
    machine.advance (fuel + 1) s = machine.advance fuel s₁ := by
  rw [advance_succ, h]
  rfl

/-- A run after which the machine can go on does so after its first turn. -/
theorem exists_first_turn {fuel : Nat} {s s' : State}
    (h : machine.advance (fuel + 1) s = .next s') :
    ∃ s₁, machine.turn s = .next s₁ ∧ machine.advance fuel s₁ = .next s' := by
  rw [advance_succ] at h
  cases hfirst : machine.turn s with
  | next s₁ =>
    rw [hfirst] at h
    exact ⟨s₁, rfl, h⟩
  | halted value s₁ =>
    rw [hfirst] at h
    cases h
  | failed error s₁ =>
    rw [hfirst] at h
    cases h

/-- What is kept by every turn after which the machine can go on is kept by every run after which it
can. -/
theorem advance_next_of_turn {P : State → Prop}
    (hturn : ∀ s s', machine.turn s = .next s' → P s → P s') {fuel : Nat} {s s' : State}
    (h : machine.advance fuel s = .next s') (hs : P s) : P s' := by
  induction fuel generalizing s with
  | zero =>
    cases h
    exact hs
  | succ fuel ih =>
    obtain ⟨s₁, hfirst, hrest⟩ := exists_first_turn h
    exact ih hrest (hturn s s₁ hfirst hs)

/-- What follows for a state that a run can go on from, and for what the next turn comes to, follows
for what the run comes to. -/
theorem advance_of_kept {P : State → Prop} {Q : Turn → Prop}
    (hkeep : ∀ s s', machine.turn s = .next s' → P s → P s') (hnext : ∀ s, P s → Q (.next s))
    (hturn : ∀ s, P s → Q (machine.turn s)) (fuel : Nat) {s : State} (hs : P s) :
    Q (machine.advance fuel s) := by
  induction fuel generalizing s with
  | zero => exact hnext s hs
  | succ fuel ih =>
    have hfirst := hturn s hs
    rw [advance_succ]
    cases h : machine.turn s with
    | next s₁ => exact ih (hkeep s s₁ h hs)
    | halted value s₁ => rwa [h] at hfirst
    | failed error s₁ => rwa [h] at hfirst

/-- What every turn keeps, the last one included, is kept by every run. -/
theorem advance_state_of_turn {P : State → Prop} (hturn : ∀ s, P s → P (machine.turn s).state)
    (fuel : Nat) {s : State} (hs : P s) : P (machine.advance fuel s).state := by
  refine advance_of_kept (Q := fun t => P t.state) (fun s s' h hs => ?_) (fun _ hs => hs) hturn
    fuel hs
  have hnext := hturn s hs
  rwa [h] at hnext

/-- A run that fails gets to a state in which the next turn fails. -/
theorem exists_last_turn {fuel : Nat} {error : Error} {s s' : State}
    (h : machine.advance fuel s = .failed error s') :
    ∃ before last, machine.advance before s = .next last ∧
      machine.turn last = .failed error s' := by
  induction fuel generalizing s with
  | zero => cases h
  | succ fuel ih =>
    rw [advance_succ] at h
    cases hturn : machine.turn s with
    | next s₁ =>
      rw [hturn] at h
      obtain ⟨before, last, hbefore, hlast⟩ := ih h
      exact ⟨before + 1, last, (advance_of_turn hturn before).trans hbefore, hlast⟩
    | halted value s₁ =>
      rw [hturn] at h
      cases h
    | failed error' s₁ =>
      rw [hturn] at h
      cases h
      exact ⟨0, s, rfl, hturn⟩

/-- What a turn without a budget comes to when an item is taken off the control stack. -/
theorem turn_of_item {table : Control.Table} {item : Control.Item} {todo : List Control.Item}
    {env : EnvId} {outer : List Scope} {s : State} (hs : s.scopes = ⟨item :: todo, env⟩ :: outer) :
    turn ⟨table, none⟩ s =
      perform table (.item item) (State.charge { s with scopes := ⟨todo, env⟩ :: outer }) := by
  rw [turn, State.takeTask?, hs]
  rfl

/-- A turn within a budget is the turn without, or the run is out of budget. -/
theorem turn_budget (table : Control.Table) (budget : Option Nat) (s : State) :
    turn ⟨table, budget⟩ s = turn ⟨table, none⟩ s ∨
      ∃ most s', turn ⟨table, budget⟩ s = .failed (.budgetExhausted most) s' := by
  simp only [turn, overrun?, Option.filter_none]
  cases s.takeTask? with
  | none => exact .inl rfl
  | some taken =>
    obtain ⟨task, s'⟩ := taken
    simp only
    cases budget.filter fun most => decide (most < s'.charge.steps) with
    | none => exact .inl rfl
    | some most => exact .inr ⟨most, _, rfl⟩

/-- A run within a budget is the run without, or it runs out of budget. -/
theorem advance_budget (table : Control.Table) (budget : Option Nat) (fuel : Nat) (s : State) :
    advance ⟨table, budget⟩ fuel s = advance ⟨table, none⟩ fuel s ∨
      ∃ most s', advance ⟨table, budget⟩ fuel s = .failed (.budgetExhausted most) s' := by
  induction fuel generalizing s with
  | zero => exact .inl rfl
  | succ fuel ih =>
    rw [advance_succ, advance_succ]
    rcases turn_budget table budget s with hturn | ⟨most, s', hturn⟩
    · rw [hturn]
      cases turn ⟨table, none⟩ s with
      | next s' => exact ih s'
      | halted value s' => exact .inl rfl
      | failed error s' => exact .inl rfl
    · exact .inr ⟨most, s', by rw [hturn]; rfl⟩

end Machine

end EagerLambda
