import EagerLambda.Proofs.Machine.Markers

/-!
# Calls are isolated

A function that is applied works above a marker of its own on both stacks. Until its scope is
closed, no rule that is applied in it, or in a scope opened from it, reaches beneath the marker,
whatever the control table says: an operator finds the marker where it wants an operand and fails.
So when the scope is closed, the caller finds its stacks as it left them, with the result on top,
and goes on in the environment in which it was.

## Main definitions

- `Machine.OpenAbove` — a scope is open above what was on the stacks before
- `Machine.KeepsOpen` — a run does not close a scope
- `Machine.Gone` — a scope was closed

## Main statements

- `Machine.turn_openAbove` — a turn that does not close a scope leaves alone what is beneath it
- `Machine.OpenAbove.close` — closing a scope restores the stacks
- `Machine.call_isolated` — an application, from the opening of its scope to the closing
-/

namespace EagerLambda

open Control

namespace Machine

variable {s s' : State} {looked : Option Name} {machine : Machine} {table : Table} {env : EnvId}
  {outer : List Scope} {below : List Operand}

/-- The scope of an environment is open. Beneath what belongs to it and to the scopes inside it,
the open scopes are `outer` and the operands are `below`. -/
structure OpenAbove (env : EnvId) (outer : List Scope) (below : List Operand) (s : State) :
    Prop where
  scopes : ∃ inner todo, s.scopes = inner ++ ⟨todo, env⟩ :: outer
  operands : ∃ above, s.operands = above ++ .marker env :: below

-- ════════════════════════════════════════════════════════════════════════
-- What a turn leaves alone
-- ════════════════════════════════════════════════════════════════════════

/-- Other items in the innermost scope do not matter to the scopes around it. -/
theorem Retasked.exists_inner {scopes scopes' : List Scope} (h : Retasked scopes scopes')
    (hscopes : ∃ inner todo, scopes = inner ++ ⟨todo, env⟩ :: outer) :
    ∃ inner todo, scopes' = inner ++ ⟨todo, env⟩ :: outer := by
  obtain ⟨inner, todo, rfl⟩ := hscopes
  obtain ⟨henvs, houter⟩ := h
  cases scopes' with
  | nil => simp at henvs
  | cons innermost rest =>
    cases inner with
    | nil =>
      have henv : innermost.env = env := (List.cons.inj henvs).1
      have hrest : rest = outer := houter
      subst henv hrest
      exact ⟨[], innermost.todo, rfl⟩
    | cons first inner =>
      have hrest : rest = inner ++ ⟨todo, env⟩ :: outer := houter
      exact ⟨innermost :: inner, todo, by rw [hrest]; rfl⟩

/-- Values on top of the operand stack all lie above a marker. -/
theorem exists_above_of_values {popped : List Value} {rest above : List Operand}
    (h : popped.map .value ++ rest = above ++ .marker env :: below) :
    ∃ above', rest = above' ++ .marker env :: below := by
  induction popped generalizing above with
  | nil => exact ⟨above, h⟩
  | cons v popped ih =>
    cases above with
    | nil => cases (List.cons.inj h).1
    | cons top above => exact ih (List.cons.inj h).2

/-- The rule for an item leaves alone what lies beneath an open scope. -/
theorem Effect.openAbove (h : Effect looked s (.next s')) (hs : OpenAbove env outer below s) :
    OpenAbove env outer below s' := by
  obtain ⟨hscopes, above, habove⟩ := hs
  cases h with
  | compute popped pushed shown hoperands hretasked =>
    rw [hoperands] at habove
    obtain ⟨above', hrest⟩ := exists_above_of_values habove
    refine ⟨hretasked.exists_inner hscopes, pushed.map .value ++ above', ?_⟩
    rw [List.append_assoc, ← hrest]
  | enter popped todo bindings hoperands hfault hretasked =>
    rw [hoperands] at habove
    obtain ⟨above', hrest⟩ := exists_above_of_values habove
    obtain ⟨inner, left, hinner⟩ := hretasked.exists_inner hscopes
    exact ⟨⟨_ :: inner, left, by rw [hinner]; rfl⟩, _ :: above', by rw [hrest]; rfl⟩

/-- Closing a scope leaves alone what lies beneath another one that is open. -/
theorem Closes.openAbove {closing : EnvId} {rest : List Scope}
    (h : Closes closing { s with scopes := rest } (.next s')) (hs : OpenAbove env outer below s)
    (hscopes : s.scopes = ⟨[], closing⟩ :: rest) (hne : closing ≠ env) :
    OpenAbove env outer below s' := by
  obtain ⟨⟨inner, todo, hinner⟩, above, habove⟩ := hs
  rw [hscopes] at hinner
  cases h with
  | @closed result operands hoperands =>
    have hoperands : s.operands = .value result :: .marker closing :: operands := hoperands
    rw [hoperands] at habove
    -- The scope being closed is another one, so it is one of those inside.
    match inner, above, hinner, habove with
    | [], _, hinner, _ => exact absurd (Scope.mk.inj (List.cons.inj hinner).1).2 hne
    | _ :: _, [], _, habove => cases (List.cons.inj habove).1
    | _ :: _, [_], _, habove =>
      exact absurd (Operand.marker.inj (List.cons.inj (List.cons.inj habove).2).1) hne
    | _ :: inner, _ :: _ :: above, hinner, habove =>
      refine ⟨⟨inner, todo, (List.cons.inj hinner).2⟩, .value result :: above, ?_⟩
      rw [(List.cons.inj (List.cons.inj habove).2).2]
      rfl

/-- A turn that does not close a scope leaves alone what lies beneath it. -/
theorem turn_openAbove (h : machine.turn s = .next s') (hs : OpenAbove env outer below s)
    (hkeep : ∀ taken, s.takeTask? ≠ some (.leave env, taken)) : OpenAbove env outer below s' := by
  cases turn_continues h with
  | item _ hretasked heffect =>
    exact heffect.openAbove ⟨hretasked.exists_inner hs.scopes, hs.operands⟩
  | @close closing rest htake hscopes hcloses =>
    refine Closes.openAbove (s := s.charge) hcloses ⟨hs.scopes, hs.operands⟩ hscopes ?_
    rintro rfl
    exact hkeep _ htake

/-- The scope of an environment is not closed in the first turns of a run. -/
def KeepsOpen (machine : Machine) (env : EnvId) (count : Nat) (s : State) : Prop :=
  ∀ earlier t rest, earlier < count → machine.advance earlier s = .next t →
    t.tasks ≠ .leave env :: rest

/-- A run that does not close a scope leaves alone what lies beneath it. -/
theorem advance_openAbove {count : Nat} (h : machine.advance count s = .next s')
    (hkeep : KeepsOpen machine env count s) (hs : OpenAbove env outer below s) :
    OpenAbove env outer below s' := by
  induction count generalizing s with
  | zero =>
    cases h
    exact hs
  | succ count ih =>
    obtain ⟨s₁, hturn, hrest⟩ := exists_first_turn h
    have hfirst := turn_openAbove hturn hs fun taken htake =>
      hkeep 0 s taken.tasks (Nat.succ_pos count) rfl (State.tasks_of_takeTask? htake)
    refine ih hrest (fun earlier t rest hearlier hrun => ?_) hfirst
    exact hkeep (earlier + 1) t rest (Nat.succ_lt_succ hearlier)
      ((advance_of_turn hturn earlier).trans hrun)

-- ════════════════════════════════════════════════════════════════════════
-- Closing the scope
-- ════════════════════════════════════════════════════════════════════════

/-- A turn that closes a scope takes the scope and its marker off the stacks. -/
theorem turn_close {taken closed : State} (htake : s.takeTask? = some (.leave env, taken))
    (h : machine.turn s = .next closed) :
    ∃ result rest, s.scopes = ⟨[], env⟩ :: closed.scopes ∧
      s.operands = .value result :: .marker env :: rest ∧
      closed.operands = .value result :: rest ∧ closed.envs = s.envs ∧
      closed.current = (closed.scopes.map Scope.env).head? := by
  cases turn_continues h with
  | item htake' => cases htake.symm.trans htake'
  | close htake' hscopes hcloses =>
    cases htake.symm.trans htake'
    cases hcloses with
    | @closed result rest hoperands =>
      exact ⟨result, rest, hscopes, hoperands, rfl, rfl, List.head?_map.symm⟩

/-- What lies above the marker of the innermost scope are values, if the scope is open once. -/
theorem Nested.innermost (hs : Nested s) (h : OpenAbove env outer below s) {rest : List Scope}
    (hscopes : s.scopes = ⟨[], env⟩ :: rest) {result : Value} {operands : List Operand}
    (hoperands : s.operands = .value result :: .marker env :: operands) :
    rest = outer ∧ operands = below := by
  obtain ⟨⟨inner, todo, hinner⟩, above, habove⟩ := h
  have hnewer := hs.newer
  have hmarkers := hs.markers
  rw [hscopes, List.map_cons] at hnewer hmarkers
  -- The environment is none of those of the scopes around.
  have hfresh : env ∉ rest.map Scope.env := fun hmem =>
    absurd ((List.pairwise_cons.1 hnewer).1 env hmem) (Nat.lt_irrefl _)
  rw [hoperands] at habove hmarkers
  have hbeneath : operands.filterMap Operand.marked? = rest.map Scope.env :=
    (List.cons.inj hmarkers).2
  constructor
  · rw [hscopes] at hinner
    cases inner with
    | nil => exact (List.cons.inj hinner).2
    | cons first inner =>
      refine absurd ?_ hfresh
      rw [(List.cons.inj hinner).2]
      simp
  · match above, habove with
    | [_], habove => exact (List.cons.inj (List.cons.inj habove).2).2
    | _ :: _ :: above, habove =>
      refine absurd ?_ hfresh
      rw [← hbeneath, (List.cons.inj (List.cons.inj habove).2).2]
      simp [Operand.marked?]

/-- Closing a scope leaves what lay beneath it, with the result on top. -/
theorem OpenAbove.close (hs : OpenAbove env outer below s) (hnested : Nested s)
    {taken closed : State} (htake : s.takeTask? = some (.leave env, taken))
    (h : machine.turn s = .next closed) :
    closed.scopes = outer ∧ (∃ result, closed.operands = .value result :: below) ∧
      closed.current = (outer.map Scope.env).head? := by
  obtain ⟨result, rest, hscopes, hoperands, hleft, -, hcurrent⟩ := turn_close htake h
  obtain ⟨rfl, rfl⟩ := hnested.innermost hs hscopes hoperands
  exact ⟨rfl, ⟨result, hleft⟩, hcurrent⟩

/-- The environment was opened, but its scope is not open. -/
structure Gone (env : EnvId) (s : State) : Prop where
  opened : env.index < s.envs.size
  closed : env ∉ s.scopes.map Scope.env

/-- A scope that was closed is not opened again: new scopes are those of new environments. -/
theorem turn_gone (h : machine.turn s = .next s') (hs : Gone env s) : Gone env s' := by
  obtain ⟨hopened, hclosed⟩ := hs
  cases turn_continues h with
  | item _ hretasked heffect =>
    rw [← hretasked.envs] at hclosed
    cases heffect with
    | compute _ _ _ _ hscopes => exact ⟨hopened, hscopes.envs ▸ hclosed⟩
    | @enter _ _ _ parent _ bindings _ _ hscopes =>
      have hsize : (s.envs.push parent bindings).size = s.envs.size + 1 :=
        Environments.size_push s.envs parent bindings
      refine ⟨hsize ▸ Nat.lt_succ_of_lt hopened, fun hmem => ?_⟩
      rw [List.map_cons, hscopes.envs] at hmem
      rcases List.mem_cons.1 hmem with rfl | hmem
      · exact Nat.lt_irrefl _ hopened
      · exact hclosed hmem
  | close _ hscopes hcloses =>
    rw [hscopes] at hclosed
    cases hcloses with
    | closed => exact ⟨hopened, fun hmem => hclosed (List.mem_cons_of_mem _ hmem)⟩

/-- From the opening of a scope on, it is open above what was there before, or it was closed. -/
theorem turn_openAbove_or_gone (h : machine.turn s = .next s') (hnested : Nested s)
    (hs : OpenAbove env outer below s ∨ Gone env s) :
    OpenAbove env outer below s' ∨ Gone env s' := by
  rcases hs with hs | hs
  · by_cases hclose : ∃ taken, s.takeTask? = some (.leave env, taken)
    · obtain ⟨taken, htake⟩ := hclose
      obtain ⟨_, _, hscopes, -, -, henvs, -⟩ := turn_close htake h
      have hnewer := hnested.newer
      have hopened := hnested.opened
      rw [hscopes, List.map_cons] at hnewer hopened
      refine .inr ⟨henvs ▸ hopened env List.mem_cons_self, fun hmem => ?_⟩
      exact absurd ((List.pairwise_cons.1 hnewer).1 env hmem) (Nat.lt_irrefl _)
    · exact .inl (turn_openAbove h hs fun taken htake => hclose ⟨taken, htake⟩)
  · exact .inr (turn_gone h hs)

-- ════════════════════════════════════════════════════════════════════════
-- From the opening to the closing
-- ════════════════════════════════════════════════════════════════════════

/-- A new scope is opened above what is on the stacks. -/
theorem State.enter_opens {closure : Closure} {bindings : List Binding}
    (h : s.enter table closure bindings = .next s') :
    OpenAbove s.envs.nextId s.scopes s.operands s' ∧ s'.current = some s.envs.nextId := by
  rw [enter] at h
  split at h
  · cases h
  · rw [splice] at h
    split at h
    · cases h
    · cases h
      exact ⟨⟨⟨[], _, rfl⟩, [], rfl⟩, rfl⟩

/-- Applying a function opens a scope above what lies beneath the function and its argument. -/
theorem State.apply_opens {closure : Closure} {argument : Value}
    (hoperands : s.operands = .value (.closure closure) :: .value argument :: below)
    (h : s.apply table = .next s') :
    OpenAbove s.envs.nextId s.scopes below s' ∧ s'.current = some s.envs.nextId := by
  simp only [apply, withValue, hoperands] at h
  split at h
  · simp only [applySingle, withValue] at h
    exact enter_opens h
  · simp only [applyTupled, withValue] at h
    split at h
    · split at h
      · exact enter_opens h
      · cases h
    · cases h

theorem turn_gamma {caller : State} (htake : s.takeTask? = some (.item .gamma, caller))
    (h : machine.turn s = .next s') : caller.charge.apply machine.table = .next s' := by
  simp only [turn, htake] at h
  split at h
  · cases h
  · exact h

/-- **Calls are isolated.** In a run of any control table, let a function be applied when `control`
lies on the control stack beneath the application and `below` on the operand stack beneath the
function and its argument, and let this open a scope. As long as the run goes on and has not closed
the scope, both stacks are what they were, beneath the marker of the scope. When the scope is
closed, the control stack is `control` again, the operands are `below` with a result on top, and the
current environment is that of the application. -/
theorem call_isolated {settings : Settings} {start entered : State} {closure : Closure}
    {argument : Value} {control : List Task} {fuel : Nat}
    (hload : load table settings = .ok (machine, start))
    (hrun : machine.advance fuel start = .next s) (htasks : s.tasks = .item .gamma :: control)
    (hoperands : s.operands = .value (.closure closure) :: .value argument :: below)
    (hopen : machine.turn s = .next entered) :
    entered.current = some s.envs.nextId ∧
      ∀ count t, machine.advance count entered = .next t →
        (KeepsOpen machine s.envs.nextId count entered →
          (∃ above, t.tasks = above ++ .leave s.envs.nextId :: control) ∧
          ∃ above, t.operands = above ++ .marker s.envs.nextId :: below) ∧
        ∀ rest closed, t.tasks = .leave s.envs.nextId :: rest → machine.turn t = .next closed →
          closed.tasks = control ∧ (∃ result, closed.operands = .value result :: below) ∧
            closed.current = s.current := by
  have hnested : Nested s := advance_nested hrun (load_nested hload)
  obtain ⟨caller, htake, rfl⟩ := State.takeTask?_of_tasks htasks
  obtain ⟨scope, outer, rfl, hretasked⟩ := State.takeTask?_item htake
  obtain ⟨hentered, hcurrent⟩ := State.apply_opens
    (s := State.charge { s with scopes := scope :: outer }) hoperands (turn_gamma htake hopen)
  refine ⟨hcurrent, fun count t hadvance => ⟨fun hkeep => ?_, fun rest closed hleave hclose => ?_⟩⟩
  · obtain ⟨⟨inner, todo, hscopes⟩, hbelow⟩ := advance_openAbove hadvance hkeep hentered
    refine ⟨⟨inner.flatMap Scope.tasks ++ todo.map .item, ?_⟩, hbelow⟩
    rw [State.tasks, hscopes, List.flatMap_append, List.flatMap_cons, Scope.tasks]
    simp only [List.append_assoc, List.singleton_append]
    rfl
  · obtain ⟨taken, hleave, -⟩ := State.takeTask?_of_tasks hleave
    have hboth := advance_next_of_turn
      (P := fun t => Nested t ∧ (OpenAbove s.envs.nextId (scope :: outer) below t ∨
        Gone s.envs.nextId t))
      (fun _ _ hturn ht => ⟨turn_nested hturn ht.1, turn_openAbove_or_gone hturn ht.1 ht.2⟩)
      hadvance ⟨turn_nested hopen hnested, .inl hentered⟩
    rcases hboth with ⟨hnested', hinside | hgone⟩
    · obtain ⟨hscopes, hresult, hlast⟩ := hinside.close hnested' hleave hclose
      refine ⟨?_, hresult, ?_⟩
      · rw [State.tasks, hscopes]
        rfl
      · rw [hlast, hretasked.envs, hnested.current]
    · -- A scope that was closed is not at the top of the control stack.
      obtain ⟨rest, hscopes, -⟩ := State.takeTask?_leave hleave
      refine absurd ?_ hgone.closed
      rw [hscopes]
      exact List.mem_cons_self

/-- A program that adds 5 to the result of a function, which is that of a second function. -/
def nestedCalls : Table :=
  .ofItems [[.binary .add, .gamma, .lambda ⟨1⟩ [⟨17⟩], .load (.integer 3), .load (.integer 5)],
    [.gamma, .lambda ⟨2⟩ [⟨18⟩], .load (.identifier ⟨17⟩)], [.load (.identifier ⟨18⟩)]]

theorem nestedCalls_isolated : ∃ machine start s entered t closed,
    load nestedCalls {} = .ok (machine, start) ∧ machine.advance 3 start = .next s ∧
      s.tasks = .item .gamma :: [.item (.binary .add), .leave .root] ∧
      s.operands = .value (.closure ⟨⟨1⟩, [⟨17⟩], .root⟩) :: .value (.integer 3) ::
        [.value (.integer 5), .marker .root] ∧
      machine.turn s = .next entered ∧ machine.advance 5 entered = .next t ∧
      KeepsOpen machine ⟨1⟩ 5 entered ∧
      t.tasks = .leave ⟨1⟩ :: [.item (.binary .add), .leave .root] ∧
      machine.turn t = .next closed ∧
      (∃ above, t.operands = above ++ .marker ⟨1⟩ :: [.value (.integer 5), .marker .root]) ∧
      closed.tasks = [.item (.binary .add), .leave .root] ∧
      (∃ result, closed.operands = .value result :: [.value (.integer 5), .marker .root]) ∧
      closed.current = some .root := by
  have hload : load nestedCalls {} = .ok _ := rfl
  obtain ⟨-, hcall⟩ := call_isolated hload (show Machine.advance _ 3 _ = _ from rfl) rfl rfl rfl
  obtain ⟨hinside, hcloses⟩ := hcall 5 _ rfl
  obtain ⟨htasks, hresult, hcurrent⟩ := hcloses _ _ rfl rfl
  refine ⟨_, _, _, _, _, _, hload, rfl, rfl, rfl, rfl, rfl, ?keep, rfl, rfl, (hinside ?keep).2,
    htasks, hresult, hcurrent⟩
  intro earlier t rest hearlier hrun hleave
  match earlier, hearlier with
  | 0, _ | 1, _ | 2, _ | 3, _ | 4, _ =>
    cases hrun
    cases hleave

end Machine

end EagerLambda
