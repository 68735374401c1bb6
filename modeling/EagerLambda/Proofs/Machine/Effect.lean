import EagerLambda.Proofs.Machine.Fires

/-!
# What a turn does to the stacks

The rule for an item replaces values on top of the operand stack by other values, or by the marker
of a scope that it opens. Only closing a scope takes a marker off without stopping the run. So the
markers on the operand stack are those of the open scopes, whatever the control table says.

## Main definitions

- `Machine.Retasked` — the same scopes are open, up to the items left in the innermost
- `Machine.Effect` — what the rule for an item does to the stacks
- `Machine.Course` — what the moves of a turn do to the stacks
- `Machine.Continues` — how the machine goes on from one state to the next
- `Machine.Balanced` — the markers on the operand stack are those of the open scopes

## Main statements

- `Machine.Fires.effect` — the rule for an item has such an effect
- `Machine.turn_course`, `Machine.turn_continues` — a turn is the halt, exceeds the budget, or
  applies a rule
- `Machine.turn_shown` — what was shown stays shown
- `Machine.turn_state_envs` — a turn leaves the environments or opens one
- `Machine.advance_balanced` — a run keeps the stacks balanced
-/

namespace EagerLambda

open Control

/-- The name that an item looks up, if it loads an identifier. -/
def Control.Item.looked? : Item → Option Name
  | .load (.identifier x) => some x
  | _ => none

namespace Machine

/-- The same scopes are open in both lists. Only in the innermost one other items may be left. -/
structure Retasked (scopes scopes' : List Scope) : Prop where
  envs : scopes'.map Scope.env = scopes.map Scope.env
  outer : scopes'.tail = scopes.tail

theorem Retasked.refl (scopes : List Scope) : Retasked scopes scopes := ⟨rfl, rfl⟩

/-- What the rule for an item that looks up the name `looked`, if any, comes to in a state. Values
on top of the operand stack are replaced by other values or by the marker of a new scope, or the
run fails. -/
inductive Effect (looked : Option Name) (s : State) : Turn → Prop
  | compute (popped pushed : List Value) {rest : List Operand} {scopes : List Scope}
      (shown : List Value) : s.operands = popped.map .value ++ rest →
      Retasked s.scopes scopes →
      Effect looked s (.next { s with
        scopes := scopes
        operands := pushed.map .value ++ rest
        shown := shown ++ s.shown })
  | enter (popped : List Value) {rest : List Operand} {outer : List Scope} {parent : EnvId}
      (todo : List Item) (bindings : List Binding) : s.operands = popped.map .value ++ rest →
      s.envs.openFault? parent = none →
      Retasked s.scopes outer →
      Effect looked s (.next { s with
        scopes := ⟨todo, s.envs.nextId⟩ :: outer
        operands := .marker s.envs.nextId :: rest
        envs := s.envs.push parent bindings
        current := some s.envs.nextId })
  | unbound {x : Name} {env : EnvId} {s' : State} : looked = some x → s.current = some env →
      s.envs.lookup env x = none → s'.shown = s.shown → s'.steps = s.steps →
      Effect looked s (.failed (.unboundVariable x) s')
  | fail {error : Error} {s' : State} : error.OfRule s.current →
      s.shown <:+ s'.shown → s'.steps = s.steps → Effect looked s (.failed error s')

variable {s s' : State} {t : Turn} {machine : Machine} {table : Table} {looked : Option Name}
  {item : Item} {todo : List Item} {env : EnvId} {outer : List Scope}

theorem Breaks.shown_suffix {error : Error} (h : Breaks s error s') : s.shown <:+ s'.shown := by
  obtain ⟨shown, hshown, -⟩ := h.shown
  exact ⟨shown, hshown.symm⟩

/-- The rule for an item replaces values, opens a scope or stops the run. -/
theorem Fires.effect (h : Fires table item todo env outer s t)
    (hscopes : s.scopes = ⟨todo, env⟩ :: outer) : Effect item.looked? s t := by
  have hretasked : ∀ items, Retasked s.scopes (⟨items, env⟩ :: outer) := fun items => by
    rw [hscopes]
    exact ⟨rfl, rfl⟩
  cases h with
  | @compute taken rest v shown _ _ hs _ _ => exact .compute taken [v] shown hs (.refl _)
  | @unfold closure rest _ hs =>
    exact .compute [.eta closure] [.closure closure, .eta closure] [] hs (hretasked _)
  | @enter closure argument rest bindings entered _ hs _ hfault _ =>
    exact .enter [.closure closure, argument] _ bindings hs hfault (hretasked _)
  | @choose b rest thenId elseId others entered _ hs _ _ =>
    exact .compute [.truth b] [] [] hs (hretasked _)
  | unbound hitem hcurrent hlookup => exact .unbound (hitem ▸ rfl) hcurrent hlookup rfl rfl
  | fail hbreaks _ _ => exact .fail hbreaks.ofRule hbreaks.shown_suffix hbreaks.steps
  | misapply _ _ => exact .fail trivial List.suffix_rfl rfl
  | abandon _ _ _ _ _ => exact .fail trivial List.suffix_rfl rfl
  | astray _ _ _ hbreaks => exact .fail hbreaks.ofRule hbreaks.shown_suffix hbreaks.steps

/-- Taking an item leaves the open scopes as they are, apart from the item. -/
theorem State.takeTask?_item {item : Item} (h : s.takeTask? = some (.item item, s')) :
    ∃ scope outer, s' = { s with scopes := scope :: outer } ∧
      Retasked s.scopes (scope :: outer) := by
  unfold takeTask? at h
  split at h
  · cases h
  · cases h
  · next hs =>
    cases h
    refine ⟨_, _, rfl, ?_⟩
    rw [hs]
    exact ⟨rfl, rfl⟩

/-- A scope is closed when nothing is left to be done in it. -/
theorem State.takeTask?_leave {env : EnvId} (h : s.takeTask? = some (.leave env, s')) :
    ∃ outer, s.scopes = ⟨[], env⟩ :: outer ∧ s' = { s with scopes := outer } := by
  unfold takeTask? at h
  split at h
  · cases h
  · next hs =>
    cases h
    exact ⟨_, hs, rfl⟩
  · cases h

/-- An entry is taken off an open scope, and nothing else changes. -/
theorem State.takeTask?_scopes {task : Task} (h : s.takeTask? = some (task, s')) :
    s.scopes ≠ [] ∧ ∃ scopes, s' = { s with scopes := scopes } := by
  unfold takeTask? at h
  split at h
  · cases h
  · next hs =>
    cases h
    exact ⟨by rw [hs]; exact List.cons_ne_nil _ _, _, rfl⟩
  · next hs =>
    cases h
    exact ⟨by rw [hs]; exact List.cons_ne_nil _ _, _, rfl⟩

-- ════════════════════════════════════════════════════════════════════════
-- Output and steps
-- ════════════════════════════════════════════════════════════════════════

theorem Effect.shown (h : Effect looked s t) : s.shown <:+ t.state.shown := by
  cases h with
  | compute popped pushed shown hoperands hscopes => exact List.suffix_append shown s.shown
  | enter popped todo bindings hoperands hfault hscopes => exact List.suffix_rfl
  | unbound hlooked hcurrent hlookup hshown hsteps => exact ⟨[], hshown.symm⟩
  | fail herror hshown hsteps => exact hshown

theorem Effect.steps (h : Effect looked s t) : t.state.steps = s.steps := by
  cases h with
  | compute popped pushed shown hoperands hscopes => rfl
  | enter popped todo bindings hoperands hfault hscopes => rfl
  | unbound hlooked hcurrent hlookup hshown hsteps => exact hsteps
  | fail herror hshown hsteps => exact hsteps

theorem Closes.steps (h : Closes env s t) : t.state.steps = s.steps := by
  cases h with
  | closed _ => rfl
  | mismatch _ _ => rfl
  | fail hbreaks _ _ => exact hbreaks.steps

theorem Closes.shown (h : Closes env s t) : s.shown <:+ t.state.shown := by
  cases h with
  | closed _ => exact List.suffix_rfl
  | mismatch _ _ => exact List.suffix_rfl
  | fail hbreaks _ _ => exact hbreaks.shown_suffix

/-- The halt ends the run. It shows nothing and is not a step. -/
theorem finish_stopped (s : State) :
    (finish s).stopped = true ∧ (finish s).state.shown = s.shown ∧
      (finish s).state.steps = s.steps := by
  obtain ⟨scopes, operands, envs, current, steps, shown⟩ := s
  match operands with
  | [] | [.value _] | [.marker _] | _ :: _ :: _ => exact ⟨rfl, rfl, rfl⟩

/-- The moves of a turn with what they do to the stacks: the halt, a step that exceeds the budget,
the rule for an item of the innermost scope, or the closing of this scope. -/
inductive Course (s : State) : Turn → Prop
  | halt {t : Turn} : s.takeTask? = none → t = finish s → Course s t
  | exceed {task : Task} {scopes : List Scope} (budget : Nat) :
      s.takeTask? = some (task, { s with scopes := scopes }) →
      Course s (.failed (.budgetExhausted budget) (State.charge { s with scopes := scopes }))
  | item {item : Item} {scope : Scope} {outer : List Scope} {t : Turn} :
      s.takeTask? = some (.item item, { s with scopes := scope :: outer }) →
      Retasked s.scopes (scope :: outer) →
      Effect item.looked? (State.charge { s with scopes := scope :: outer }) t → Course s t
  | close {env : EnvId} {outer : List Scope} {t : Turn} :
      s.takeTask? = some (.leave env, { s with scopes := outer }) →
      s.scopes = ⟨[], env⟩ :: outer →
      Closes env (State.charge { s with scopes := outer }) t → Course s t

theorem turn_course (machine : Machine) (s : State) : Course s (machine.turn s) := by
  have hmove := turn_move machine s
  generalize machine.turn s = t at hmove ⊢
  cases hmove with
  | halt hscopes hfinish => exact .halt (by simp only [State.takeTask?, hscopes]) hfinish
  | exceed htake _ =>
    obtain ⟨-, scopes, rfl⟩ := State.takeTask?_scopes htake
    exact .exceed _ htake
  | item hscopes _ hfires =>
    refine .item (takeTask?_of_item hscopes) ?_ (hfires.effect rfl)
    rw [hscopes]
    exact ⟨rfl, rfl⟩
  | leave hscopes _ hcloses => exact .close (takeTask?_of_nil hscopes) hscopes hcloses

/-- A turn after which the machine can go on is not the halt. -/
theorem finish_ne_next (s s' : State) : finish s ≠ .next s' := by
  intro h
  have hstopped := (finish_stopped s).1
  rw [h] at hstopped
  cases hstopped

/-- How the machine goes on from a state to the next: by the rule for an item of the innermost
scope, or by closing this scope. -/
inductive Continues (s s' : State) : Prop
  | item {item : Item} {scope : Scope} {outer : List Scope} :
      s.takeTask? = some (.item item, { s with scopes := scope :: outer }) →
      Retasked s.scopes (scope :: outer) →
      Effect item.looked? (State.charge { s with scopes := scope :: outer }) (.next s') →
      Continues s s'
  | close {env : EnvId} {outer : List Scope} :
      s.takeTask? = some (.leave env, { s with scopes := outer }) →
      s.scopes = ⟨[], env⟩ :: outer →
      Closes env (State.charge { s with scopes := outer }) (.next s') → Continues s s'

theorem turn_continues (h : machine.turn s = .next s') : Continues s s' := by
  have hcourse := turn_course machine s
  rw [h] at hcourse
  cases hcourse with
  | halt _ hfinish => exact absurd hfinish.symm (finish_ne_next s s')
  | item htake hretasked heffect => exact .item htake hretasked heffect
  | close htake hscopes hcloses => exact .close htake hscopes hcloses

/-- What was shown before a turn stays shown. -/
theorem turn_shown (machine : Machine) (s : State) :
    s.shown <:+ (machine.turn s).state.shown := by
  have hcourse := turn_course machine s
  generalize machine.turn s = t at hcourse ⊢
  cases hcourse with
  | halt _ hfinish => exact ⟨[], by rw [hfinish, (finish_stopped s).2.1]; rfl⟩
  | exceed budget _ => exact List.suffix_rfl
  | item _ _ heffect => exact heffect.shown
  | close _ _ hcloses => exact hcloses.shown

/-- What was shown before a run stays shown. -/
theorem advance_shown (machine : Machine) (fuel : Nat) (s : State) :
    s.shown <:+ (machine.advance fuel s).state.shown := by
  have hturn : ∀ s', s.shown <:+ s'.shown → s.shown <:+ (machine.turn s').state.shown :=
    fun s' hs' => hs'.trans (turn_shown machine s')
  exact advance_state_of_turn (P := fun s' => s.shown <:+ s'.shown) hturn fuel List.suffix_rfl

-- ════════════════════════════════════════════════════════════════════════
-- Environments
-- ════════════════════════════════════════════════════════════════════════

theorem finish_envs (s : State) : (finish s).state.envs = s.envs := by
  obtain ⟨scopes, operands, envs, current, steps, shown⟩ := s
  match operands with
  | [] | [.value _] | [.marker _] | _ :: _ :: _ => rfl

/-- A turn, also one that fails, leaves the environments as they are or opens one inside another. -/
theorem turn_state_envs (machine : Machine) (s : State) :
    (machine.turn s).state.envs = s.envs ∨ ∃ parent bindings,
      s.envs.openFault? parent = none ∧
        (machine.turn s).state.envs = s.envs.push parent bindings := by
  have hmove := turn_move machine s
  generalize machine.turn s = t at hmove ⊢
  cases hmove with
  | halt _ hfinish =>
    rw [hfinish]
    exact .inl (finish_envs s)
  | exceed htake _ =>
    obtain ⟨-, scopes, rfl⟩ := State.takeTask?_scopes htake
    exact .inl rfl
  | item _ _ hfires =>
    cases hfires with
    | compute | unfold | choose | unbound | misapply => exact .inl rfl
    | fail hbreaks _ _ => exact .inl hbreaks.envs
    | astray _ _ _ hbreaks => exact .inl hbreaks.envs
    | enter _ _ _ hfault _ => exact .inr ⟨_, _, hfault, rfl⟩
    | abandon _ _ _ hfault _ => exact .inr ⟨_, _, hfault, rfl⟩
  | leave _ _ hcloses =>
    cases hcloses with
    | closed | mismatch => exact .inl rfl
    | fail hbreaks _ _ => exact .inl hbreaks.envs

/-- A turn leaves the environments as they are or opens one inside another that exists. -/
theorem turn_envs (h : machine.turn s = .next s') :
    s'.envs = s.envs ∨ ∃ parent bindings, s.envs.openFault? parent = none ∧
      s'.envs = s.envs.push parent bindings := by
  have henvs := turn_state_envs machine s
  rwa [h] at henvs

/-- Environments are never given up. -/
theorem turn_size (machine : Machine) (s : State) :
    s.envs.size ≤ (machine.turn s).state.envs.size := by
  rcases turn_state_envs machine s with henvs | ⟨parent, bindings, -, henvs⟩
  · exact Nat.le_of_eq (congrArg Environments.size henvs.symm)
  · rw [henvs, Environments.size_push]
    exact Nat.le_succ _

-- ════════════════════════════════════════════════════════════════════════
-- Markers
-- ════════════════════════════════════════════════════════════════════════

/-- The markers on the operand stack are those of the open scopes, and as long as a scope is open
the operand at the bottom is a marker. -/
structure Balanced (s : State) : Prop where
  markers : s.operands.filterMap Operand.marked? = s.scopes.map Scope.env
  bottom : s.scopes ≠ [] → ∃ env, s.operands.getLast? = some (.marker env)

theorem filterMap_values (values : List Value) (rest : List Operand) :
    (values.map Operand.value ++ rest).filterMap Operand.marked? =
      rest.filterMap Operand.marked? := by
  induction values with
  | nil => rfl
  | cons v values ih => rwa [List.map_cons, List.cons_append, List.filterMap_cons_none rfl]

/-- A marker at the bottom lies beneath all values on top. -/
theorem bottom_of_values {values : List Value} {rest : List Operand} {env : EnvId}
    (h : (values.map Operand.value ++ rest).getLast? = some (.marker env)) :
    rest.getLast? = some (.marker env) := by
  rw [List.getLast?_append] at h
  cases hrest : rest.getLast? with
  | some last =>
    rw [hrest] at h
    exact h
  | none =>
    rw [hrest, Option.none_or, List.getLast?_map] at h
    obtain ⟨v, -, hv⟩ := Option.map_eq_some_iff.1 h
    cases hv

theorem getLast?_append_of_some {α : Type} (above : List α) {rest : List α} {last : α}
    (h : rest.getLast? = some last) : (above ++ rest).getLast? = some last := by
  rw [List.getLast?_append, h, Option.some_or]

theorem scopes_ne_nil {scopes scopes' : List Scope}
    (h : scopes'.map Scope.env = scopes.map Scope.env) (hne : scopes' ≠ []) : scopes ≠ [] := by
  rintro rfl
  exact hne (List.map_eq_nil_iff.1 h)

/-- The rule for an item of an open scope keeps the stacks balanced. -/
theorem Effect.balanced (h : Effect looked s (.next s')) (hs : Balanced s) (hopen : s.scopes ≠ []) :
    Balanced s' := by
  obtain ⟨hmarkers, hbottom⟩ := hs
  obtain ⟨env, hbottom⟩ := hbottom hopen
  cases h with
  | compute popped pushed shown hoperands hscopes =>
    rw [hoperands, filterMap_values] at hmarkers
    rw [hoperands] at hbottom
    refine ⟨?_, fun _ => ⟨env, getLast?_append_of_some _ (bottom_of_values hbottom)⟩⟩
    rw [filterMap_values, hmarkers, hscopes.envs]
  | enter popped todo bindings hoperands hfault hscopes =>
    rw [hoperands, filterMap_values] at hmarkers
    rw [hoperands] at hbottom
    refine ⟨?_, fun _ => ⟨env, getLast?_append_of_some [_] (bottom_of_values hbottom)⟩⟩
    rw [List.map_cons, hscopes.envs, ← hmarkers]
    exact List.filterMap_cons_some rfl

/-- Closing a scope keeps the stacks balanced. -/
theorem Closes.balanced (h : Closes env { s with scopes := outer } (.next s')) (hs : Balanced s)
    (hscopes : s.scopes = ⟨[], env⟩ :: outer) : Balanced s' := by
  obtain ⟨hmarkers, hbottom⟩ := hs
  cases h with
  | @closed result rest hoperands =>
    have hoperands : s.operands = .value result :: .marker env :: rest := hoperands
    rw [hoperands, hscopes] at hmarkers
    have hrest : rest.filterMap Operand.marked? = outer.map Scope.env :=
      (List.cons.inj hmarkers).2
    refine ⟨hrest, fun hopen => ?_⟩
    -- A scope is still open, so its marker lies beneath the one that was dropped.
    obtain ⟨below, hbelow⟩ := hbottom (by rw [hscopes]; exact List.cons_ne_nil _ _)
    have hne : rest ≠ [] := by
      rintro rfl
      exact hopen (List.map_eq_nil_iff.1 hrest.symm)
    rw [hoperands, List.getLast?_cons_cons, List.getLast?_cons_of_ne_nil hne] at hbelow
    exact ⟨below, getLast?_append_of_some [_] hbelow⟩

/-- A turn keeps the stacks balanced. -/
theorem turn_balanced (h : machine.turn s = .next s') (hs : Balanced s) :
    Balanced s' := by
  cases turn_continues h with
  | @item item scope outer _ henvs heffect =>
    refine heffect.balanced ⟨?_, fun hne => ?_⟩ (List.cons_ne_nil scope outer)
    · exact hs.markers.trans henvs.envs.symm
    · exact hs.bottom (scopes_ne_nil henvs.envs hne)
  | close _ hscopes hcloses =>
    exact Closes.balanced (s := s.charge) hcloses ⟨hs.markers, hs.bottom⟩ hscopes

/-- A run keeps the stacks balanced. -/
theorem advance_balanced {fuel : Nat}
    (h : machine.advance fuel s = .next s') (hs : Balanced s) : Balanced s' :=
  advance_next_of_turn (fun _ _ => turn_balanced) h hs

/-- The machine starts with the stacks balanced: the scope of the root is open, above its
marker. -/
theorem load_balanced {settings : Settings}
    (h : load table settings = .ok (machine, s)) : Balanced s := by
  unfold load at h
  split at h
  · cases h
  · split at h
    · cases h
    · cases h
      exact ⟨rfl, fun _ => ⟨.root, rfl⟩⟩

end Machine

end EagerLambda
