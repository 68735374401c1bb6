import EagerLambda.Machine.Trace
import EagerLambda.Proofs.Machine.Effect

/-!
# From one scope to the next

Only the application of a function gives a machine more to do than its control stack holds already.
Every other rule takes its item off for good, goes on with an arm that has fewer turns to go, or
unfolds a recursive function, which is applied in the next step. So after finitely many turns a
scope is opened, or the run is over.

The height of the control stack shows none of this: an arm may be longer than what it replaces. What
gets smaller is the number of turns that the items take, with all arms counted that they refer to.

## Main definitions

- `Machine.Opens` — the next step applies a function
- `Machine.Work` — how many turns the items of the open scopes take
- `Machine.Ready` — a function is about to be applied
- `Machine.Paced` — the turns of a run are in a ratio to the functions that it has applied

## Main statements

- `Machine.opens_iff` — functions are what scopes are opened for
- `Machine.Work.turn` — a turn that applies no function leaves less work or is followed by one that
  does
- `Machine.Work.exists_opens` — after finitely many turns a scope is opened or the run is over
- `Machine.Paced.advance` — how many turns there are to the functions that were applied
- `Machine.opens_of_endless` — a run that goes on forever opens scopes again and again
-/

namespace EagerLambda

open Control

namespace Machine

/-- The rules that apply a function of the program. -/
def Rule.opens : Rule → Bool
  | .applySingle => true
  | .applyTupled => true
  | _ => false

/-- The next step succeeds, and its rule applies a function of the program. -/
structure Opens (machine : Machine) (s : State) : Prop where
  succeeds : ∃ s', machine.turn s = .next s'
  applies : ∃ event, machine.event? s = some event ∧ event.rule.opens = true

/-- A function is on top of the operand stack, and it is to be applied. -/
def Ready (s : State) : Prop :=
  ∃ closure rest todo env outer, s.scopes = ⟨.gamma :: todo, env⟩ :: outer ∧
    s.operands = .value (.closure closure) :: rest

/-- How many turns it takes to execute the items of the scopes and to close them, besides those of
the functions that are applied. -/
inductive Work (table : Table) : List Scope → Nat → Prop
  | nil : Work table [] 0
  | cons {todo : List Item} {env : EnvId} {outer : List Scope} {height turns rest : Nat} :
      Computes table todo height turns → Work table outer rest →
      Work table (⟨todo, env⟩ :: outer) (turns + 1 + rest)

variable {s s' : State} {t : Turn} {machine : Machine} {table : Table} {item : Item}
  {todo : List Item} {env : EnvId} {outer : List Scope} {work bound : Nat}

-- ════════════════════════════════════════════════════════════════════════
-- Functions that are applied
-- ════════════════════════════════════════════════════════════════════════

theorem ofFunction?_opens {function : Value} {rule : Rule}
    (h : Rule.ofFunction? function = some rule) (hopens : rule.opens = true) :
    ∃ closure, function = .closure closure := by
  cases function with
  | closure closure => exact ⟨closure, rfl⟩
  | tuple components =>
    cases components with
    | nil => cases h
    | cons first rest =>
      cases h
      cases hopens
  | _ =>
    cases h
    try cases hopens

theorem exists_opens_of_closure (closure : Closure) :
    ∃ rule, Rule.ofFunction? (.closure closure) = some rule ∧ rule.opens = true := by
  obtain ⟨body, params, env⟩ := closure
  rw [Rule.ofFunction?]
  split
  · exact ⟨_, rfl, rfl⟩
  · exact ⟨_, rfl, rfl⟩

/-- The rule that applies a function is the one for an application of a function. -/
theorem choose?_opens {task : Task} {operands rest : List Operand} {rule : Rule}
    (h : Rule.choose? task operands = some (rule, rest)) (hopens : rule.opens = true) :
    task = .item .gamma ∧ ∃ closure, operands = .value (.closure closure) :: rest := by
  unfold Rule.choose? at h
  split at h
  case h_4 =>
    split at h
    · next function rest' =>
      obtain ⟨rule', hrule, heq⟩ := Option.map_eq_some_iff.1 h
      cases heq
      obtain ⟨closure, rfl⟩ := ofFunction?_opens hrule hopens
      exact ⟨rfl, closure, rfl⟩
    · cases h
  all_goals
    cases h
    try cases hopens

/-- The event of a step within the budget is that of the rule for the entry that it takes off. -/
theorem event?_eq {task : Task} {taken : State} (htake : s.takeTask? = some (task, taken))
    (hbudget : machine.overrun? taken.charge.steps = none) :
    machine.event? s = (Rule.choose? task taken.operands).map fun (rule, operands) =>
      ⟨rule, taken.charge.steps, taken.charge.controlHeight, operands.length, taken.current⟩ := by
  rw [event?, htake]
  simp only [hbudget]
  rfl

/-- A step that succeeds applies a function exactly if one was about to be applied. -/
theorem opens_iff_ready (hturn : machine.turn s = .next s') : Opens machine s ↔ Ready s := by
  constructor
  · rintro ⟨-, event, hevent, hopens⟩
    have hmove := turn_move machine s
    rw [hturn] at hmove
    cases hmove with
    | halt _ hfinish => exact absurd hfinish.symm (finish_ne_next s s')
    | item hscopes hbudget _ =>
      rw [event?_eq (takeTask?_of_item hscopes) hbudget] at hevent
      obtain ⟨⟨rule, rest⟩, hchoose, rfl⟩ := Option.map_eq_some_iff.1 hevent
      obtain ⟨heq, closure, hoperands⟩ := choose?_opens hchoose hopens
      cases heq
      exact ⟨closure, rest, _, _, _, hscopes, hoperands⟩
    | leave hscopes hbudget _ =>
      rw [event?_eq (takeTask?_of_nil hscopes) hbudget] at hevent
      obtain ⟨⟨rule, rest⟩, hchoose, rfl⟩ := Option.map_eq_some_iff.1 hevent
      obtain ⟨heq, -⟩ := choose?_opens hchoose hopens
      cases heq
  · rintro ⟨closure, rest, todo, env, outer, hscopes, hoperands⟩
    refine ⟨⟨s', hturn⟩, ?_⟩
    have htake := takeTask?_of_item hscopes
    obtain ⟨rule, hrule, hopens⟩ := exists_opens_of_closure closure
    simp only [turn, htake] at hturn
    split at hturn
    · cases hturn
    · next hbudget =>
      rw [event?_eq htake hbudget]
      simp only [Rule.choose?, hoperands, hrule, Option.map_some]
      exact ⟨_, rfl, hopens⟩

theorem enter_scopes {closure : Closure} {bindings : List Binding}
    (h : s.enter table closure bindings = .next s') :
    s'.scopes.length = s.scopes.length + 1 := by
  simp only [State.enter, State.splice] at h
  split at h
  · cases h
  · split at h
    · cases h
    · cases h
      rfl

/-- The application of a function opens a scope. -/
theorem Ready.scopes (hs : Ready s) (hturn : machine.turn s = .next s') :
    s'.scopes.length = s.scopes.length + 1 := by
  obtain ⟨closure, rest, todo, env, outer, hscopes, hoperands⟩ := hs
  simp only [turn, takeTask?_of_item hscopes] at hturn
  split at hturn
  · cases hturn
  · have hoperands : (State.charge { s with scopes := ⟨todo, env⟩ :: outer }).operands =
        .value (.closure closure) :: rest := hoperands
    rw [perform, apply_closure _ hoperands, State.withValue] at hturn
    split at hturn
    · cases hturn
    · cases hturn
    · split at hturn
      · rw [enter_scopes hturn, hscopes]
        rfl
      · cases hturn

/-- Functions are what scopes are opened for: a step that succeeds applies one exactly if one more
scope is open after it. -/
theorem opens_iff (hturn : machine.turn s = .next s') :
    Opens machine s ↔ s'.scopes.length = s.scopes.length + 1 := by
  rw [opens_iff_ready hturn]
  refine ⟨fun hready => hready.scopes hturn, fun hlength => ?_⟩
  have hmove := turn_move machine s
  rw [hturn] at hmove
  cases hmove with
  | halt _ hfinish => exact absurd hfinish.symm (finish_ne_next s s')
  | @item item todo env outer _ hscopes _ hfires =>
    have hsame : ∀ items : List Item,
        (⟨items, env⟩ :: outer : List Scope).length ≠ s.scopes.length + 1 := by
      intro items
      rw [hscopes]
      exact Nat.ne_of_lt (Nat.lt_succ_self _)
    cases hfires with
    | compute => exact absurd hlength (hsame todo)
    | unfold => exact absurd hlength (hsame _)
    | choose => exact absurd hlength (hsame _)
    | enter hitem hoperands _ _ _ =>
      subst hitem
      exact ⟨_, _, todo, env, outer, hscopes, hoperands⟩
  | @leave env outer _ hscopes _ hcloses =>
    cases hcloses with
    | closed =>
      have hlength : outer.length = s.scopes.length + 1 := hlength
      rw [hscopes, List.length_cons] at hlength
      omega

-- ════════════════════════════════════════════════════════════════════════
-- Work that is left
-- ════════════════════════════════════════════════════════════════════════

/-- What a turn after which the machine can go on does to the work that is left. -/
inductive Advances (table : Table) (bound work : Nat) (s s' : State) : Prop
  /-- A function is applied, and its body is to be executed. -/
  | apply {work' : Nat} : Ready s → s'.envs.size = s.envs.size + 1 →
      Work table s'.scopes work' → work' ≤ work + bound → Advances table bound work s s'
  /-- A recursive function is unfolded, and the function that it is made of is applied next. -/
  | unfold : ¬ Ready s → s'.envs.size = s.envs.size → Ready s' →
      Work table s'.scopes (work + 1) → Advances table bound work s s'
  | less {work' : Nat} : ¬ Ready s → s'.envs.size = s.envs.size →
      Work table s'.scopes work' → work' < work → Advances table bound work s s'

theorem Work.turn (hwork : Work machine.table s.scopes work) (hsound : machine.table.Sound bound)
    (hturn : machine.turn s = .next s') : Advances machine.table bound work s s' := by
  have hidle : s'.scopes.length ≤ s.scopes.length → ¬ Ready s := by
    intro hle hready
    have hlength := hready.scopes hturn
    omega
  have hmove := turn_move machine s
  rw [hturn] at hmove
  cases hmove with
  | halt _ hfinish => exact absurd hfinish.symm (finish_ne_next s s')
  | @item item todo env outer _ hscopes _ hfires =>
    rw [hscopes] at hwork hidle
    cases hwork with
    | @cons _ _ _ height turns rest hcomputes houter =>
    cases hfires with
    | compute _ hbeta _ _ _ =>
      obtain ⟨height', turns', -, rfl, htodo⟩ := hcomputes.item_inv hbeta
      exact .less (hidle (Nat.le_refl _)) rfl (.cons htodo houter) (by omega)
    | @unfold closure operands hitem hoperands =>
      subst hitem
      obtain ⟨height', turns', -, rfl, htodo⟩ := hcomputes.item_inv Item.noConfusion
      have hwork' : Work machine.table (⟨.gamma :: .gamma :: todo, env⟩ :: outer)
          (turns' + 2 + 1 + rest) := .cons htodo.apply_twice houter
      have hsum : turns' + 2 + 1 + rest = turns' + 1 + 1 + rest + 1 := by omega
      exact .unfold (hidle (Nat.le_refl _)) rfl ⟨closure, _, .gamma :: todo, env, outer, rfl, rfl⟩
        (hsum ▸ hwork')
    | @enter closure argument operands bindings entered hitem hoperands _ _ hget =>
      subst hitem
      obtain ⟨height', turns', -, rfl, htodo⟩ := hcomputes.item_inv Item.noConfusion
      obtain ⟨bodyTurns, hle, hbody⟩ := hsound _ _ hget
      exact .apply ⟨closure, _, todo, env, outer, hscopes, hoperands⟩
        (Environments.size_push _ _ _) (.cons hbody (.cons htodo houter)) (by omega)
    | @choose b operands thenId elseId others entered hitem _ htodo hget =>
      subst hitem htodo
      obtain ⟨_, _, _, height', turns', heq, rfl, hothers, harms⟩ := hcomputes.beta_inv
      cases heq
      obtain ⟨arm, armTurns, harm, hcode, hless⟩ := harms b
      cases hget.symm.trans harm
      exact .less (hidle (Nat.le_refl _)) rfl (.cons (hcode.prepend hothers) houter) (by omega)
  | @leave env outer _ hscopes _ hcloses =>
    rw [hscopes] at hwork hidle
    cases hwork with
    | cons _ houter =>
      cases hcloses with
      | closed => exact .less (hidle (Nat.le_succ _)) rfl houter (by omega)

theorem Advances.exists_work (h : Advances table bound work s s') :
    ∃ work', Work table s'.scopes work' := by
  cases h with
  | apply _ _ hwork _ => exact ⟨_, hwork⟩
  | unfold _ _ _ hwork => exact ⟨_, hwork⟩
  | less _ _ hwork _ => exact ⟨_, hwork⟩

/-- Whatever state a run gets to, only so much work is left in its scopes. -/
theorem advance_work (hsound : machine.table.Sound bound) {fuel : Nat}
    (h : machine.advance fuel s = .next s') (hs : ∃ work, Work machine.table s.scopes work) :
    ∃ work, Work machine.table s'.scopes work := by
  refine advance_next_of_turn (P := fun s => ∃ work, Work machine.table s.scopes work)
    (fun s₁ s₂ hturn hs₁ => ?_) h hs
  obtain ⟨work, hwork⟩ := hs₁
  exact (hwork.turn hsound hturn).exists_work

theorem Ready.work_pos (hs : Ready s) (hwork : Work table s.scopes work) : 2 ≤ work := by
  obtain ⟨closure, rest, todo, env, outer, hscopes, -⟩ := hs
  rw [hscopes] at hwork
  cases hwork with
  | cons hcomputes _ =>
    obtain ⟨_, turns, -, rfl, -⟩ := hcomputes.item_inv Item.noConfusion
    omega

theorem stopped_of_turn (h : (machine.turn s).stopped = true) :
    (machine.advance 1 s).stopped = true := by
  rwa [advance_succ, resume_zero]

/-- A machine in which a function is about to be applied opens a scope, or its run is over. -/
theorem Ready.exists_opens (hs : Ready s) (machine : Machine) :
    ∃ count ≤ 1, (machine.advance count s).stopped = true ∨
      ∃ s₁, machine.advance count s = .next s₁ ∧ Opens machine s₁ := by
  cases hturn : machine.turn s with
  | next s' => exact ⟨0, Nat.zero_le 1, .inr ⟨s, rfl, (opens_iff_ready hturn).2 hs⟩⟩
  | halted v s' => exact ⟨1, Nat.le_refl 1, .inl (stopped_of_turn (by rw [hturn]; rfl))⟩
  | failed error s' => exact ⟨1, Nat.le_refl 1, .inl (stopped_of_turn (by rw [hturn]; rfl))⟩

/-- After finitely many turns, at most one more than the work that is left, a scope is opened or the
run is over. -/
theorem Work.exists_opens (hwork : Work machine.table s.scopes work)
    (hsound : machine.table.Sound bound) :
    ∃ count ≤ work + 1, (machine.advance count s).stopped = true ∨
      ∃ s₁, machine.advance count s = .next s₁ ∧ Opens machine s₁ := by
  induction work using Nat.strongRecOn generalizing s with
  | ind work ih =>
    cases hturn : machine.turn s with
    | halted v s' => exact ⟨1, by omega, .inl (stopped_of_turn (by rw [hturn]; rfl))⟩
    | failed error s' => exact ⟨1, by omega, .inl (stopped_of_turn (by rw [hturn]; rfl))⟩
    | next s' =>
      cases hwork.turn hsound hturn with
      | apply hs _ _ _ =>
        obtain ⟨count, hcount, hends⟩ := hs.exists_opens machine
        exact ⟨count, by omega, hends⟩
      | unfold _ _ hs' hwork' =>
        have hpositive := hs'.work_pos hwork'
        obtain ⟨count, hcount, hends⟩ := hs'.exists_opens machine
        rw [← advance_of_turn hturn count] at hends
        exact ⟨count + 1, by omega, hends⟩
      | less _ _ hwork' hless =>
        obtain ⟨count, hcount, hends⟩ := ih _ hless hwork'
        rw [← advance_of_turn hturn count] at hends
        exact ⟨count + 1, by omega, hends⟩

-- ════════════════════════════════════════════════════════════════════════
-- The pace of a run
-- ════════════════════════════════════════════════════════════════════════

/-- How many of the events are those of rules that apply a function. -/
def openings (events : List Event) : Nat := events.countP fun event => event.rule.opens

/-- After `taken` turns with `opened` functions applied, as many environments were opened, and the
turns that are left are in a ratio to them. -/
structure Paced (table : Table) (bound taken opened : Nat) (s : State) : Prop where
  size : s.envs.size = opened + 1
  work : ∃ work, Work table s.scopes work ∧
    (taken + work ≤ (opened + 1) * (bound + 3) ∨
      Ready s ∧ taken + work ≤ (opened + 1) * (bound + 3) + 2)

theorem openings_of_ready (hs : Ready s) (hturn : machine.turn s = .next s')
    (events : List Event) :
    openings ((machine.event? s).toList ++ events) = openings events + 1 := by
  obtain ⟨event, hevent, hopens⟩ := ((opens_iff_ready hturn).2 hs).applies
  rw [hevent]
  exact List.countP_cons_of_pos hopens

theorem openings_of_not_ready (hs : ¬ Ready s) (hturn : machine.turn s = .next s')
    (events : List Event) :
    openings ((machine.event? s).toList ++ events) = openings events := by
  cases hevent : machine.event? s with
  | none => rfl
  | some event =>
    refine List.countP_cons_of_neg fun hopens => hs ?_
    exact (opens_iff_ready hturn).1 ⟨⟨s', hturn⟩, event, hevent, hopens⟩

theorem Paced.turn {taken : Nat} {events : List Event}
    (h : Paced machine.table bound taken (openings events) s)
    (hsound : machine.table.Sound bound) (hturn : machine.turn s = .next s') :
    Paced machine.table bound (taken + 1) (openings ((machine.event? s).toList ++ events)) s' := by
  obtain ⟨hsize, work, hwork, hpace⟩ := h
  cases hwork.turn hsound hturn with
  | apply hready hsize' hwork' hle =>
    rw [openings_of_ready hready hturn]
    refine ⟨by omega, _, hwork', .inl ?_⟩
    rw [Nat.add_mul (openings events + 1) 1]
    omega
  | unfold hidle hsize' hready hwork' =>
    rw [openings_of_not_ready hidle hturn]
    have hpace := hpace.resolve_right fun h => hidle h.1
    exact ⟨by omega, _, hwork', .inr ⟨hready, by omega⟩⟩
  | less hidle hsize' hwork' hless =>
    rw [openings_of_not_ready hidle hturn]
    have hpace := hpace.resolve_right fun h => hidle h.1
    exact ⟨by omega, _, hwork', .inl (by omega)⟩

theorem Paced.advance {taken fuel : Nat} {events events' : List Event}
    (h : Paced machine.table bound taken (openings events) s)
    (hsound : machine.table.Sound bound)
    (hrun : machine.advanceTracing fuel events s = (events', .next s')) :
    Paced machine.table bound (taken + fuel) (openings events') s' := by
  induction fuel generalizing taken events s with
  | zero =>
    cases hrun
    exact h
  | succ fuel ih =>
    rw [advanceTracing] at hrun
    cases hturn : machine.turn s with
    | next s₁ =>
      rw [hturn] at hrun
      have hrest := ih (h.turn hsound hturn) hrun
      rwa [Nat.add_right_comm, Nat.add_assoc] at hrest
    | halted v s₁ =>
      rw [hturn] at hrun
      cases hrun
    | failed error s₁ =>
      rw [hturn] at hrun
      cases hrun

/-- No more turns were taken than fit to the functions that were applied. -/
theorem Paced.taken_le {taken opened : Nat} (h : Paced table bound taken opened s) :
    taken ≤ (opened + 1) * (bound + 3) := by
  obtain ⟨-, work, hwork, hpace | ⟨hready, hpace⟩⟩ := h
  · omega
  · have hpositive := hready.work_pos hwork
    omega

/-- Before more turns are taken than fit to the functions that were applied, another one is applied
or the run is over. -/
theorem Paced.exists_opens {taken opened : Nat} (h : Paced machine.table bound taken opened s)
    (hsound : machine.table.Sound bound) :
    ∃ count, taken + count ≤ (opened + 1) * (bound + 3) + 1 ∧
      ((machine.advance count s).stopped = true ∨
        ∃ s₁, machine.advance count s = .next s₁ ∧ Opens machine s₁) := by
  have htaken := h.taken_le
  obtain ⟨-, work, hwork, hpace | ⟨hready, -⟩⟩ := h
  · obtain ⟨count, hcount, hends⟩ := hwork.exists_opens hsound
    exact ⟨count, by omega, hends⟩
  · obtain ⟨count, hcount, hends⟩ := hready.exists_opens machine
    exact ⟨count, by omega, hends⟩

/-- A machine starts with the work of the entry structure, in the root environment. -/
theorem work_of_load {settings : Settings} {entry : Structure} {turns : Nat}
    (hload : load table settings = .ok (machine, s)) (hentry : table.entry? = some entry)
    (hcomputes : Computes table entry.executionOrder 0 turns) :
    Work table s.scopes (turns + 1) ∧ s.envs.size = 1 := by
  rw [load, hentry] at hload
  simp only at hload
  split at hload
  · cases hload
  · cases hload
    exact ⟨.cons hcomputes .nil, settings.size_environments⟩

/-- A trace does not change the run. -/
theorem advanceTracing_snd (fuel : Nat) (events : List Event) (s : State) :
    (machine.advanceTracing fuel events s).2 = machine.advance fuel s := by
  induction fuel generalizing events s with
  | zero => rfl
  | succ fuel ih =>
    rw [advanceTracing, Machine.advance]
    cases machine.turn s with
    | next s' => exact ih _ s'
    | halted v s' => rfl
    | failed error s' => rfl

-- ════════════════════════════════════════════════════════════════════════
-- Runs that go on forever
-- ════════════════════════════════════════════════════════════════════════

/-- In a run that goes on forever there are states after any number of turns. -/
theorem advance_of_endless {states : Nat → State}
    (h : ∀ n, machine.turn (states n) = .next (states (n + 1))) (count n : Nat) :
    machine.advance count (states n) = .next (states (n + count)) := by
  induction count generalizing n with
  | zero => rfl
  | succ count ih =>
    rw [advance_of_turn (h n), ih, Nat.add_right_comm, Nat.add_assoc]

/-- A run that goes on forever opens scopes again and again. -/
theorem opens_of_endless (hsound : machine.table.Sound bound) {states : Nat → State}
    (h : ∀ n, machine.turn (states n) = .next (states (n + 1)))
    (hstart : ∃ work, Work machine.table (states 0).scopes work) (n : Nat) :
    ∃ m ≥ n, Opens machine (states m) := by
  have hreached := advance_of_endless h n 0
  rw [Nat.zero_add] at hreached
  obtain ⟨work, hwork⟩ := advance_work hsound hreached hstart
  obtain ⟨count, -, hends⟩ := hwork.exists_opens hsound
  rw [advance_of_endless h count n] at hends
  rcases hends with hstopped | ⟨s₁, heq, hopens⟩
  · cases hstopped
  · cases heq
    exact ⟨n + count, Nat.le_add_right n count, hopens⟩

end Machine

end EagerLambda
