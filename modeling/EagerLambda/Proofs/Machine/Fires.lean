import EagerLambda.Proofs.Control.Computes
import EagerLambda.Proofs.Machine.Follows
import EagerLambda.Proofs.Value.Failure
import EagerLambda.Proofs.Value.Parts

/-!
# What a rule takes and leaves

The rule for an item takes as many values as the item asks for. If it succeeds, it leaves one value
in their place, opens a scope, or goes on with an arm of a conditional; what it leaves is made of
what it has taken. If it fails, everything that it has taken off is gone, and with one exception it
has taken all that the item asks for: an operand that is no function and no tuple is taken off
without its argument.

Each rule is gone through here once. What a run keeps is read off what its turns come to.

## Main definitions

- `Machine.Leaves` — no more is left than lies beneath the operands that were asked for
- `Control.Item.made?` — the function that an item makes
- `Machine.Draws` — a value has no parts but those at hand
- `Error.OfRule` — the errors of rules, whatever the stacks
- `Machine.Breaks` — what a rule that fails leaves
- `Machine.Fires` — what the rule for an item comes to
- `Machine.Closes` — what the closing of a scope comes to
- `Machine.Move` — what a turn comes to

## Main statements

- `Machine.perform_fires` — the rule for an item comes to one of these
- `Machine.turn_move` — a turn is the halt, exceeds the budget, or applies a rule
-/

namespace EagerLambda

open Control

/-- The function that the rule for an item makes. -/
def Control.Item.made? (item : Item) (current : Option EnvId) : Option Closure :=
  match item with
  | .lambda body params => current.map fun env => ⟨body, params, env⟩
  | _ => none

/-- The error can stop a rule while `current` is the current environment. A name that is not bound,
a marker of another scope beneath a result and operands left at the halt are not among these errors:
they say more about the state. -/
def Error.OfRule (current : Option EnvId) : Error → Prop
  | .unboundVariable _ => False
  | .machine .noCurrentEnvironment => current = none
  | .machine (.markerMismatch ..) => False
  | .machine (.leftover _) => False
  | _ => True

theorem Error.OfOperands.ofRule {error : Error} (h : error.OfOperands) (current : Option EnvId) :
    error.OfRule current := by
  cases error with
  | unboundVariable x => exact h
  | machine fault => exact h.elim
  | _ => trivial

theorem Environments.openFault?_ofRule {envs : Environments} {parent : EnvId} {fault : MachineFault}
    (h : envs.openFault? parent = some fault) (current : Option EnvId) :
    (Error.machine fault).OfRule current := by
  rw [openFault?] at h
  split at h
  · cases h
    trivial
  · split at h
    · cases h
      trivial
    · cases h

theorem tupledText_ne (count : Nat) : s!"a tuple of {count} values" ≠ "a function or tuple" := by
  intro h
  have hchars : ("a tuple of " ++ toString count ++ " values").toList =
      "a function or tuple".toList := congrArg String.toList h
  rw [String.toList_append, String.toList_append] at hchars
  -- The texts differ in the third character.
  have hthird := congrArg (fun chars => chars[2]?) hchars
  simp at hthird

/-- An argument that does not fit the parameters is an error of the operands. -/
theorem parameterBindings_fails {params : List Name} {argument : Value} {error : Error}
    (h : Computation.parameterBindings params argument = .error error) : error.OfOperands := by
  have htupled : Computation.tupledBindings params argument = .error error → error.OfOperands := by
    intro h
    unfold Computation.tupledBindings at h
    split at h
    · split at h <;> cases h
      trivial
    · cases h
      exact misfit_typeName _ (tupledText_ne params.length)
  unfold Computation.parameterBindings at h
  split at h
  · cases h
  · exact htupled h

/-- What is shown is the argument. -/
theorem Builtin.shown_subset (builtin : Builtin) (argument : Value) {taken : List Value}
    (h : argument ∈ taken) : builtin.shown argument ⊆ taken := by
  unfold Builtin.shown
  split
  · exact List.cons_subset.2 ⟨h, List.nil_subset _⟩
  · exact List.nil_subset _

/-- A component of a tuple is one of its components. -/
theorem Machine.State.mem_of_component? {components : List Value} {i : Integer} {v : Value}
    (h : component? components i = some v) : v ∈ components := by
  rw [component?] at h
  split at h
  · exact List.mem_of_getElem? h
  · cases h

/-- The environment that an operand is the marker of. -/
def Machine.Operand.marked? : Operand → Option EnvId
  | .value _ => none
  | .marker env => some env

namespace Machine

/-- What the operands on a stack are: a marker of an environment, or a value. -/
def kinds (operands : List Operand) : List (Option EnvId) := operands.map Operand.marked?

/-- Where `count` values were asked for, no more is left than what lies beneath them. -/
def Leaves (count : Nat) (operands left : List Operand) : Prop :=
  ∀ beneath, (kinds operands).Sublist (List.replicate count none ++ beneath) →
    (kinds left).Sublist beneath

/-- Where a value was asked for, there was none on top: a marker was taken off, or the stack was
empty. -/
def Blocked (operands left : List Operand) : Prop :=
  ∀ count beneath, (kinds operands).Sublist (List.replicate count none ++ beneath) →
    (kinds left).Sublist beneath.tail

/-- The value has no parts but those of the values taken by the rule for an item and of those bound
in the environments, the function that the item makes, and what operations make of these. -/
def Draws (item : Item) (s : State) (taken : List Value) (v : Value) : Prop :=
  ∀ A : Value → Prop, Value.Inherited A → (∀ w ∈ taken, w.Throughout A) → s.envs.Throughout A →
    (∀ c, item.made? s.current = some c → A (.closure c)) → v.Throughout A

/-- What a rule that fails leaves of a state: fewer operands, the environments as they are, and a
value more that was shown, if it was one of the operands. -/
structure Breaks (s : State) (error : Error) (s' : State) : Prop where
  spoils : error.Spoils
  ofRule : error.OfRule s.current
  operands : s'.operands ⊆ s.operands
  envs : s'.envs = s.envs
  steps : s'.steps = s.steps
  shown : ∃ shown : List Value, s'.shown = shown ++ s.shown ∧
    ∀ v ∈ shown, .value v ∈ s.operands

/-- What the rule for an item comes to in a state whose innermost scope is that of `env`, with
`todo` left in it. -/
inductive Fires (table : Table) (item : Item) (todo : List Item) (env : EnvId)
    (outer : List Scope) (s : State) : Turn → Prop
  | compute {taken : List Value} {rest : List Operand} {v : Value} (shown : List Value) :
      item ≠ .beta → taken.length = item.arity → s.operands = taken.map .value ++ rest →
      shown ⊆ taken → Draws item s taken v →
      Fires table item todo env outer s (.next { s with
        operands := .value v :: rest
        shown := shown ++ s.shown })
  | unfold {closure : Closure} {rest : List Operand} : item = .gamma →
      s.operands = .value (.eta closure) :: rest →
      Fires table item todo env outer s (.next { s with
        scopes := ⟨.gamma :: .gamma :: todo, env⟩ :: outer
        operands := .value (.closure closure) :: .value (.eta closure) :: rest })
  | enter {closure : Closure} {argument : Value} {rest : List Operand} {bindings : List Binding}
      {entered : Structure} : item = .gamma →
      s.operands = .value (.closure closure) :: .value argument :: rest →
      Computation.parameterBindings closure.params argument = .ok bindings →
      s.envs.openFault? closure.env = none → table.get? closure.body = some entered →
      Fires table item todo env outer s (.next { s with
        scopes := ⟨entered.executionOrder, s.envs.nextId⟩ :: ⟨todo, env⟩ :: outer
        operands := .marker s.envs.nextId :: rest
        envs := s.envs.push closure.env bindings
        current := some s.envs.nextId })
  | choose {b : Bool} {rest : List Operand} {thenId elseId : ControlId} {others : List Item}
      {entered : Structure} : item = .beta → s.operands = .value (.truth b) :: rest →
      todo = .branch thenId elseId :: others →
      table.get? (if b then thenId else elseId) = some entered →
      Fires table item todo env outer s (.next { s with
        scopes := ⟨entered.executionOrder ++ others, env⟩ :: outer
        operands := rest })
  /-- A name is not bound. -/
  | unbound {x : Name} {e : EnvId} : item = .load (.identifier x) → s.current = some e →
      s.envs.lookup e x = none → Fires table item todo env outer s (.failed (.unboundVariable x) s)
  | fail {error : Error} {s' : State} : Breaks s error s' → s'.scopes = s.scopes →
      Leaves item.arity s.operands s'.operands →
      Fires table item todo env outer s (.failed error s')
  /-- An operand that cannot be applied is taken off alone. -/
  | misapply {v : Value} {rest : List Operand} : item = .gamma → s.operands = .value v :: rest →
      Fires table item todo env outer s
        (.failed (.typeMismatch "a function or tuple" v.typeName) { s with operands := rest })
  /-- A scope was opened for a structure that does not exist. -/
  | abandon {closure : Closure} {argument : Value} {rest : List Operand} {bindings : List Binding} :
      item = .gamma → s.operands = .value (.closure closure) :: .value argument :: rest →
      Computation.parameterBindings closure.params argument = .ok bindings →
      s.envs.openFault? closure.env = none → table.get? closure.body = none →
      Fires table item todo env outer s
        (.failed (.malformedControl (.missingStructure closure.body)) { s with
          scopes := ⟨[], s.envs.nextId⟩ :: ⟨todo, env⟩ :: outer
          operands := .marker s.envs.nextId :: rest
          envs := s.envs.push closure.env bindings
          current := some s.envs.nextId })
  /-- There is no arm to go on with. -/
  | astray {b : Bool} {rest : List Operand} {error : Error} {s' : State} : item = .beta →
      s.operands = .value (.truth b) :: rest →
      (∀ thenId elseId others, todo = .branch thenId elseId :: others →
        table.get? (if b then thenId else elseId) = none) →
      Breaks s error s' → Fires table item todo env outer s (.failed error s')

variable {s s' : State} {t : Turn} {table : Table} {item : Item} {todo : List Item} {env : EnvId}
  {outer : List Scope} {operands rest left : List Operand} {count : Nat}

-- ════════════════════════════════════════════════════════════════════════
-- Operands taken off
-- ════════════════════════════════════════════════════════════════════════

@[simp]
theorem kinds_cons_value (v : Value) (rest : List Operand) :
    kinds (.value v :: rest) = none :: kinds rest := rfl

@[simp]
theorem kinds_values (values : List Value) (rest : List Operand) :
    kinds (values.map .value ++ rest) = List.replicate values.length none ++ kinds rest := by
  induction values with
  | nil => rfl
  | cons v values ih =>
    rw [List.map_cons, List.cons_append, kinds_cons_value, ih]
    rfl

/-- A sequence that starts with a marker lies beneath all values on top. -/
theorem sublist_of_marker {env : EnvId} {above beneath : List (Option EnvId)}
    (h : (some env :: above).Sublist (List.replicate count none ++ beneath)) :
    (some env :: above).Sublist beneath := by
  induction count with
  | zero => exact h
  | succ count ih =>
    cases h with
    | cons _ h => exact ih h

theorem leaves_refl (operands : List Operand) : Leaves 0 operands operands := fun _ h => h

theorem leaves_taken (taken : List Value) (hcount : taken.length = count)
    (hs : operands = taken.map .value ++ rest) : Leaves count operands rest := by
  intro beneath h
  rw [hs, kinds_values, hcount] at h
  exact (List.append_sublist_append_left _).1 h

theorem Leaves.cons (h : Leaves count rest left) (v : Value) :
    Leaves (count + 1) (.value v :: rest) left := by
  intro beneath hsub
  rw [kinds_cons_value, List.replicate_succ, List.cons_append, List.cons_sublist_cons] at hsub
  exact h beneath hsub

theorem Blocked.leaves (h : Blocked operands left) (count : Nat) : Leaves count operands left :=
  fun beneath hsub => (h count beneath hsub).trans (List.tail_sublist beneath)

namespace Breaks

variable {error : Error}

/-- A rule that has shown nothing. -/
theorem quiet (hspoils : error.Spoils) (hrule : error.OfRule s.current)
    (hoperands : s'.operands ⊆ s.operands) (henvs : s'.envs = s.envs) (hsteps : s'.steps = s.steps)
    (hshown : s'.shown = s.shown) : Breaks s error s' :=
  ⟨hspoils, hrule, hoperands, henvs, hsteps, [], hshown, fun _ h => absurd h List.not_mem_nil⟩

/-- The rule took one more value off before it failed. -/
theorem beneath {v : Value} (hs : s.operands = .value v :: rest)
    (h : Breaks { s with operands := rest } error s') : Breaks s error s' := by
  have hrest : rest ⊆ s.operands := hs ▸ List.subset_cons_self _ _
  obtain ⟨shown, hshown, hmem⟩ := h.shown
  exact ⟨h.spoils, h.ofRule, List.Subset.trans h.operands hrest, h.envs, h.steps, shown, hshown,
    fun v hv => hrest (hmem v hv)⟩

end Breaks

/-- What follows on a value on top of the stack and on the failure to find one. -/
theorem withValue_cases (P : Turn → Prop) {next : Value → State → Turn}
    (hvalue : ∀ v rest, s.operands = .value v :: rest → P (next v { s with operands := rest }))
    (hfail : ∀ error rest, Breaks s error { s with operands := rest } → Blocked s.operands rest →
      P (.failed error { s with operands := rest })) : P (s.withValue next) := by
  cases hs : s.operands with
  | nil =>
    simp only [State.withValue, hs]
    refine hfail _ s.operands ?_ fun count beneath _ => ?_
    · exact .quiet trivial trivial (List.Subset.refl _) rfl rfl rfl
    · rw [hs]
      exact List.nil_sublist _
  | cons top rest =>
    cases top with
    | value v =>
      simp only [State.withValue, hs]
      exact hvalue v rest hs
    | marker env =>
      simp only [State.withValue, hs]
      refine hfail _ rest ?_ fun count beneath h => ?_
      · exact .quiet trivial trivial (hs ▸ List.subset_cons_self _ _) rfl rfl rfl
      · rw [hs] at h
        exact (sublist_of_marker h).tail

-- ════════════════════════════════════════════════════════════════════════
-- Values made of the operands
-- ════════════════════════════════════════════════════════════════════════

/-- What a rule comes to after it has taken `taken` off: a value is pushed that is made of them, or
the rule fails. -/
inductive Yields (item : Item) (s : State) (taken : List Value) (rest : List Operand) : Turn → Prop
  | value {v : Value} (shown : List Value) : shown ⊆ taken → Draws item s taken v →
      Yields item s taken rest (.next { s with
        operands := .value v :: rest
        shown := shown ++ s.shown })
  | error {error : Error} (shown : List Value) : shown ⊆ taken → error.Spoils →
      error.OfRule s.current →
      Yields item s taken rest (.failed error { s with
        operands := rest
        shown := shown ++ s.shown })

namespace Yields

variable {taken : List Value}

/-- The rule pushes a value and shows nothing. -/
theorem push {v : Value} (h : Draws item s taken v) :
    Yields item s taken rest (.next { s with operands := .value v :: rest }) :=
  .value [] (List.nil_subset _) h

/-- The rule fails without having shown anything. -/
theorem fail {error : Error} (hspoils : error.Spoils) (hrule : error.OfRule s.current) :
    Yields item s taken rest (.failed error { s with operands := rest }) :=
  .error [] (List.nil_subset _) hspoils hrule

theorem fires (h : Yields item s taken rest t) (hbeta : item ≠ .beta)
    (hcount : taken.length = item.arity) (hs : s.operands = taken.map .value ++ rest) :
    Fires table item todo env outer s t := by
  cases h with
  | value shown hshown hdraws => exact .compute shown hbeta hcount hs hshown hdraws
  | error shown hshown hspoils hrule =>
    have hrest : rest ⊆ s.operands := hs ▸ List.subset_append_right _ _
    have htaken : ∀ v ∈ shown, .value v ∈ s.operands := fun v hv =>
      hs ▸ List.mem_append_left _ (List.mem_map_of_mem (hshown hv))
    exact .fail ⟨hspoils, hrule, hrest, rfl, rfl, shown, rfl, htaken⟩ rfl
      (leaves_taken taken hcount hs)

end Yields

theorem pushResult_yields {taken : List Value} {result : Except Error Value} (shown : List Value)
    (hshown : shown ⊆ taken) (hfails : FailsWith Error.OfOperands result)
    (h : ∀ v, result = .ok v → Draws item s taken v) : Yields item s taken rest
      (State.pushResult { s with operands := rest, shown := shown ++ s.shown } result) := by
  cases result with
  | ok v => exact .value shown hshown (h v rfl)
  | error error =>
    exact .error shown hshown (hfails error rfl).spoils ((hfails error rfl).ofRule _)

/-- An item that takes one value. -/
theorem withValue_fires {next : Value → State → Turn} (harity : item.arity = 1)
    (hbeta : item ≠ .beta)
    (h : ∀ v rest, Yields item s [v] rest (next v { s with operands := rest })) :
    Fires table item todo env outer s (s.withValue next) := by
  refine withValue_cases (Fires table item todo env outer s) (fun v rest hs => ?_)
    fun error rest hbreaks hblocked => .fail hbreaks rfl (hblocked.leaves _)
  exact (h v rest).fires hbeta harity.symm hs

/-- What follows on a second value beneath one that was taken off. -/
theorem withSecond_cases (P : Turn → Prop) {next : Value → State → Turn} {v : Value}
    (hs : s.operands = .value v :: rest)
    (hvalue : ∀ w rest', s.operands = .value v :: .value w :: rest' →
      P (next w { s with operands := rest' }))
    (hfail : ∀ error rest', Breaks s error { s with operands := rest' } →
      Leaves 2 s.operands rest' → P (.failed error { s with operands := rest' })) :
    P (({ s with operands := rest } : State).withValue next) := by
  refine withValue_cases P (fun w rest' hrest => hvalue w rest' ?_)
    fun error rest' hbreaks hblocked => hfail error rest' (hbreaks.beneath hs) ?_
  · have hrest : rest = .value w :: rest' := hrest
    rw [hs, hrest]
  · rw [hs]
    exact (hblocked.leaves 1).cons v

/-- An item that takes a second value after a first one. -/
theorem withSecond_fires {next : Value → State → Turn} {v : Value} (harity : item.arity = 2)
    (hbeta : item ≠ .beta) (hs : s.operands = .value v :: rest)
    (h : ∀ w rest', Yields item s [v, w] rest' (next w { s with operands := rest' })) :
    Fires table item todo env outer s (({ s with operands := rest } : State).withValue next) := by
  refine withSecond_cases (Fires table item todo env outer s) hs (fun w rest' hs' => ?_)
    fun error rest' hbreaks hleaves => .fail hbreaks rfl (harity ▸ hleaves)
  exact (h w rest').fires hbeta harity.symm hs'

-- ════════════════════════════════════════════════════════════════════════
-- One rule after the other
-- ════════════════════════════════════════════════════════════════════════

theorem load_fires (a : Atom) : Fires table (.load a) todo env outer s (s.load a) := by
  have hfires : ∀ {t : Turn}, Yields (.load a) s [] s.operands t →
      Fires table (.load a) todo env outer s t :=
    fun h => h.fires Item.noConfusion rfl rfl
  cases a with
  | identifier x =>
    simp only [State.load, State.withCurrent]
    cases hcurrent : s.current with
    | none => exact hfires (.fail trivial hcurrent)
    | some e =>
      simp only [Environments.resolve]
      cases hlookup : s.envs.lookup e x with
      | none => exact .unbound rfl hcurrent hlookup
      | some v =>
        exact hfires (.push fun A _ _ henvs _ => Environments.lookup_throughout henvs hlookup)
  | integer | string | truth | dummy =>
    exact hfires (.push fun A hA _ _ _ => hA.throughout_of_plain trivial rfl)
  | nil => exact hfires (.push fun A hA _ _ _ => hA.throughout_nil)

theorem makeClosure_fires (body : ControlId) (params : List Name) :
    Fires table (.lambda body params) todo env outer s (s.makeClosure body params) := by
  have hfires : ∀ {t : Turn}, Yields (.lambda body params) s [] s.operands t →
      Fires table (.lambda body params) todo env outer s t :=
    fun h => h.fires Item.noConfusion rfl rfl
  simp only [State.makeClosure, State.withCurrent]
  cases hcurrent : s.current with
  | none => exact hfires (.fail trivial hcurrent)
  | some e =>
    refine hfires (.push fun A _ _ _ hmade => Value.throughout_closure.2 (hmade _ ?_))
    rw [Item.made?, hcurrent]
    rfl

/-- Opening a scope for a function that was taken off, with its argument. -/
theorem enter_fires {closure : Closure} {argument : Value} {bindings : List Binding}
    (hscopes : s.scopes = ⟨todo, env⟩ :: outer)
    (hs : s.operands = .value (.closure closure) :: .value argument :: rest)
    (hbindings : Computation.parameterBindings closure.params argument = .ok bindings) :
    Fires table .gamma todo env outer s
      (({ s with operands := rest } : State).enter table closure bindings) := by
  simp only [State.enter]
  cases hfault : s.envs.openFault? closure.env with
  | some fault =>
    have hrest : rest ⊆ s.operands := hs ▸ List.subset_append_right [_, _] rest
    have hrule := Environments.openFault?_ofRule hfault s.current
    exact .fail (.quiet trivial hrule hrest rfl rfl rfl) rfl
      (leaves_taken [.closure closure, argument] rfl hs)
  | none =>
    simp only [State.splice]
    cases hget : table.get? closure.body with
    | none =>
      simp only [hscopes]
      exact .abandon rfl hs hbindings hfault hget
    | some entered =>
      simp only [State.schedule, List.append_nil, hscopes]
      exact .enter rfl hs hbindings hfault hget

theorem applyClosure_fires {closure : Closure} (hscopes : s.scopes = ⟨todo, env⟩ :: outer)
    (hs : s.operands = .value (.closure closure) :: rest) :
    Fires table .gamma todo env outer s (s.apply table) := by
  rw [apply_closure table hs]
  refine withSecond_cases (Fires table .gamma todo env outer s) hs (fun argument rest' hs' => ?_)
    fun error rest' hbreaks hleaves => .fail hbreaks rfl hleaves
  cases hbindings : Computation.parameterBindings closure.params argument with
  | error error =>
    have hrest : rest' ⊆ s.operands := hs' ▸ List.subset_append_right [_, _] rest'
    have hfails := parameterBindings_fails hbindings
    exact .fail (.quiet hfails.spoils (hfails.ofRule _) hrest rfl rfl rfl) rfl
      (leaves_taken [.closure closure, argument] rfl hs')
  | ok bindings => exact enter_fires hscopes hs' hbindings

theorem select_fires {components : List Value}
    (hs : s.operands = .value (.tuple components) :: rest) :
    Fires table .gamma todo env outer s
      (({ s with operands := rest } : State).select components) := by
  refine withSecond_fires rfl Item.noConfusion hs fun index rest' => ?_
  cases index with
  | integer i =>
    simp only
    cases hcomponent : State.component? components i with
    | none => exact .fail trivial trivial
    | some component =>
      refine .push fun A hA htaken _ _ => ?_
      have hall : (Value.tuple components).Throughout A := htaken _ List.mem_cons_self
      exact hA.throughout_tuple.1 hall component (State.mem_of_component? hcomponent)
  | _ => exact .fail (misfit_typeName _ (by decide)) trivial

theorem makeRecursive_fires (hs : s.operands = .value .fixpoint :: rest) :
    Fires table .gamma todo env outer s (({ s with operands := rest } : State).makeRecursive) := by
  refine withSecond_fires rfl Item.noConfusion hs fun function rest' => ?_
  cases function with
  | closure c =>
    refine .push fun A hA htaken _ _ => hA.throughout_eta.2 (htaken _ ?_)
    exact List.mem_cons_of_mem _ List.mem_cons_self
  | _ => exact .fail (misfit_typeName _ (by decide)) trivial

theorem unfold_fires {closure : Closure} (hscopes : s.scopes = ⟨todo, env⟩ :: outer)
    (hs : s.operands = .value (.eta closure) :: rest) :
    Fires table .gamma todo env outer s (({ s with operands := rest } : State).unfold closure) := by
  simp only [State.unfold, State.push, State.schedule, hscopes]
  exact .unfold rfl hs

theorem call_yields (builtin : Builtin) (received : List Value) {taken : List Value}
    {argument : Value} (h : argument ∈ taken) : Yields item s taken rest
      (({ s with operands := rest, shown := builtin.shown argument ++ s.shown } : State).pushResult
        (builtin.apply received argument)) :=
  pushResult_yields _ (builtin.shown_subset argument h) (builtin.apply_fails received argument)
    fun w hw _ hA htaken _ _ => builtin.apply_passes hA received (htaken argument h) w hw

theorem callSecond_fires {v : Value} (builtin : Builtin) (received : List Value)
    (hs : s.operands = .value v :: rest) : Fires table .gamma todo env outer s
      (({ s with operands := rest } : State).call builtin received) :=
  withSecond_fires rfl Item.noConfusion hs fun _ _ =>
    call_yields builtin received (List.mem_cons_of_mem _ List.mem_cons_self)

theorem apply_fires (hscopes : s.scopes = ⟨todo, env⟩ :: outer) :
    Fires table .gamma todo env outer s (s.apply table) := by
  have hclosure : ∀ {c : Closure} {rest : List Operand}, s.operands = .value (.closure c) :: rest →
      Fires table .gamma todo env outer s (s.apply table) := fun hs => applyClosure_fires hscopes hs
  refine withValue_cases (Fires table .gamma todo env outer s) (fun function rest hs => ?_)
    fun error rest hbreaks hblocked => .fail hbreaks rfl (hblocked.leaves _)
  cases function with
  | closure c =>
    have happly := hclosure hs
    simp only [State.apply, State.withValue, hs] at happly
    exact happly
  | tuple components =>
    cases components with
    | nil => exact .misapply rfl hs
    | cons first others => exact select_fires hs
  | fixpoint => exact makeRecursive_fires hs
  | eta c => exact unfold_fires hscopes hs
  | builtin b => exact callSecond_fires b [] hs
  | partialApp b received => exact callSecond_fires b received hs
  | _ => exact .misapply rfl hs

theorem binary_fires (op : BinaryOp) :
    Fires table (.binary op) todo env outer s (s.binary op) := by
  refine withValue_cases (Fires table (.binary op) todo env outer s) (fun left rest hs => ?_)
    fun error rest hbreaks hblocked => .fail hbreaks rfl (hblocked.leaves _)
  refine withSecond_fires rfl Item.noConfusion hs fun right rest' => ?_
  refine pushResult_yields [] (List.nil_subset _) (op.apply_fails left right)
    fun v hv A hA htaken _ _ => ?_
  exact op.apply_passes hA (htaken left List.mem_cons_self)
    (htaken right (List.mem_cons_of_mem _ List.mem_cons_self)) v hv

theorem unary_fires (op : UnaryOp) : Fires table (.unary op) todo env outer s (s.unary op) := by
  have hprint : Fires table (.unary .print) todo env outer s (s.call .print []) :=
    withValue_fires rfl Item.noConfusion fun _ _ => call_yields .print [] List.mem_cons_self
  have hoperand : Fires table (.unary op) todo env outer s
      (s.withValue fun v s => s.pushResult (op.apply v)) :=
    withValue_fires rfl Item.noConfusion fun v rest =>
      pushResult_yields [] (List.nil_subset _) (op.apply_fails v) fun w hw A hA htaken _ _ =>
        op.apply_passes hA (htaken v List.mem_cons_self) w hw
  cases op with
  | print => exact hprint
  | not => exact hoperand
  | neg => exact hoperand

/-- Values are taken off for as long as there are any. -/
theorem withValues_cases (P : Turn → Prop) (count : Nat) {s : State}
    {next : List Value → State → Turn}
    (hvalues : ∀ values rest, values.length = count → s.operands = values.map .value ++ rest →
      P (next values { s with operands := rest }))
    (hfail : ∀ error rest, Breaks s error { s with operands := rest } →
      Leaves count s.operands rest → P (.failed error { s with operands := rest })) :
    P (s.withValues count next) := by
  induction count generalizing s next with
  | zero => exact hvalues [] s.operands rfl rfl
  | succ count ih =>
    refine withValue_cases P (fun v rest hs => ih (fun values rest' hlength hrest => ?_)
      fun error rest' hbreaks hleaves => ?_)
        fun error rest hbreaks hblocked => hfail error rest hbreaks (hblocked.leaves _)
    · have hrest : rest = values.map .value ++ rest' := hrest
      refine hvalues (v :: values) rest' (by rw [List.length_cons, hlength]) ?_
      rw [hs, hrest]
      rfl
    · refine hfail error rest' (hbreaks.beneath hs) ?_
      rw [hs]
      exact hleaves.cons v

theorem tuple_fires (count : Nat) : Fires table (.tau count) todo env outer s (s.tuple count) := by
  refine withValues_cases (Fires table (.tau count) todo env outer s) count
    (fun values rest hlength hs => ?_) fun error rest hbreaks hleaves => .fail hbreaks rfl hleaves
  exact .compute [] Item.noConfusion hlength hs (List.nil_subset _) fun A hA htaken _ _ =>
    hA.throughout_tuple.2 htaken

theorem branch_fires (hscopes : s.scopes = ⟨todo, env⟩ :: outer) :
    Fires table .beta todo env outer s (s.branch table) := by
  refine withValue_cases (Fires table .beta todo env outer s) (fun condition rest hs => ?_)
    fun error rest hbreaks hblocked => .fail hbreaks rfl (hblocked.leaves _)
  have hrest : rest ⊆ s.operands := hs ▸ List.subset_cons_self _ _
  cases condition with
  | truth b =>
    simp only [State.takeTask?, hscopes]
    cases todo with
    | nil =>
      refine .astray rfl hs (fun _ _ _ h => ?_) (.quiet trivial trivial hrest rfl rfl rfl)
      cases h
    | cons item others =>
      cases item with
      | branch thenId elseId =>
        simp only [State.splice]
        cases hget : table.get? (if b then thenId else elseId) with
        | none =>
          refine .astray rfl hs (fun thenId' elseId' others' h => ?_)
            (.quiet trivial trivial hrest rfl rfl rfl)
          cases h
          exact hget
        | some entered => exact .choose rfl hs rfl hget
      | _ =>
        refine .astray rfl hs (fun _ _ _ h => ?_) (.quiet trivial trivial hrest rfl rfl rfl)
        cases h
  | _ =>
    exact .fail (.quiet (misfit_typeName _ (by decide)) trivial hrest rfl rfl rfl) rfl
      (leaves_taken [_] rfl hs)

/-- The rule for an item of the innermost scope comes to one of these. -/
theorem perform_fires (item : Item) (hscopes : s.scopes = ⟨todo, env⟩ :: outer) :
    Fires table item todo env outer s (perform table (.item item) s) := by
  cases item with
  | load atom => exact load_fires atom
  | lambda body params => exact makeClosure_fires body params
  | gamma => exact apply_fires hscopes
  | binary op => exact binary_fires op
  | unary op => exact unary_fires op
  | beta => exact branch_fires hscopes
  | tau count => exact tuple_fires count
  | branch thenId elseId =>
    exact .fail (.quiet trivial trivial (List.Subset.refl _) rfl rfl rfl) rfl
      (leaves_refl s.operands)

/-- What the closing of a scope comes to, once it was taken off the control stack: its marker is
dropped from beneath the result. If it fails, no more is left than what lies beneath the marker. -/
inductive Closes (env : EnvId) (s : State) : Turn → Prop
  | closed {result : Value} {rest : List Operand} :
      s.operands = .value result :: .marker env :: rest →
      Closes env s (.next { s with
        operands := .value result :: rest
        current := s.scopes.head?.map Scope.env })
  | mismatch {result : Value} {found : EnvId} {rest : List Operand} :
      s.operands = .value result :: .marker found :: rest → found ≠ env →
      Closes env s (.failed (.machine (.markerMismatch env found)) { s with operands := rest })
  | fail {error : Error} {s' : State} : Breaks s error s' → s'.scopes = s.scopes →
      (∀ beneath, (kinds s.operands).Sublist (none :: some env :: beneath) →
        (kinds s'.operands).Sublist beneath) →
      Closes env s (.failed error s')

theorem leave_closes (env : EnvId) (s : State) : Closes env s (s.leave env) := by
  refine withValue_cases (Closes env s) (fun result rest hs => ?_)
    fun error rest hbreaks hblocked => .fail hbreaks rfl fun beneath h =>
      hblocked 1 (some env :: beneath) h
  have hrest : rest ⊆ s.operands := hs ▸ List.subset_cons_self _ _
  match rest, hs with
  | [], hs =>
    exact .fail (.quiet trivial trivial hrest rfl rfl rfl) rfl fun beneath _ =>
      List.nil_sublist beneath
  | .value v :: rest, hs =>
    have hbelow : rest ⊆ s.operands := List.Subset.trans (List.subset_cons_self _ _) hrest
    refine .fail (.quiet trivial trivial hbelow rfl rfl rfl) rfl fun beneath h => ?_
    rw [hs, kinds_cons_value, kinds_cons_value, List.cons_sublist_cons] at h
    cases h with
    | cons _ h => exact (List.sublist_cons_self _ _).trans h
  | .marker found :: rest, hs =>
    simp only
    split
    · next hfound =>
      subst hfound
      exact .closed hs
    · next hfound => exact .mismatch hs hfound

-- ════════════════════════════════════════════════════════════════════════
-- Turns
-- ════════════════════════════════════════════════════════════════════════

/-- What a turn comes to: the halt, a step that exceeds the budget, the rule for the next item of
the innermost scope, or the closing of this scope. -/
inductive Move (machine : Machine) (s : State) : Turn → Prop
  | halt {t : Turn} : s.scopes = [] → t = finish s → Move machine s t
  | exceed {task : Task} {taken : State} {most : Nat} : s.takeTask? = some (task, taken) →
      machine.overrun? s.charge.steps = some most →
      Move machine s (.failed (.budgetExhausted most) taken.charge)
  | item {item : Item} {todo : List Item} {env : EnvId} {outer : List Scope} {t : Turn} :
      s.scopes = ⟨item :: todo, env⟩ :: outer → machine.overrun? s.charge.steps = none →
      Fires machine.table item todo env outer
        (State.charge { s with scopes := ⟨todo, env⟩ :: outer }) t → Move machine s t
  | leave {env : EnvId} {outer : List Scope} {t : Turn} : s.scopes = ⟨[], env⟩ :: outer →
      machine.overrun? s.charge.steps = none →
      Closes env (State.charge { s with scopes := outer }) t → Move machine s t

theorem takeTask?_of_item (hscopes : s.scopes = ⟨item :: todo, env⟩ :: outer) :
    s.takeTask? = some (.item item, { s with scopes := ⟨todo, env⟩ :: outer }) := by
  simp only [State.takeTask?, hscopes]

theorem takeTask?_of_nil (hscopes : s.scopes = ⟨[], env⟩ :: outer) :
    s.takeTask? = some (.leave env, { s with scopes := outer }) := by
  simp only [State.takeTask?, hscopes]

theorem turn_move (machine : Machine) (s : State) : Move machine s (machine.turn s) := by
  have hcharge : ∀ scopes, (State.charge { s with scopes := scopes }).steps = s.charge.steps :=
    fun _ => rfl
  match hscopes : s.scopes with
  | [] =>
    have htake : s.takeTask? = none := by simp only [State.takeTask?, hscopes]
    simp only [turn, htake]
    exact .halt hscopes rfl
  | ⟨[], env⟩ :: outer =>
    have htake := takeTask?_of_nil hscopes
    simp only [turn, htake]
    rw [hcharge]
    cases hbudget : machine.overrun? s.charge.steps with
    | some most => exact .exceed htake hbudget
    | none => exact .leave hscopes hbudget (leave_closes env _)
  | ⟨item :: todo, env⟩ :: outer =>
    have htake := takeTask?_of_item hscopes
    simp only [turn, htake]
    rw [hcharge]
    cases hbudget : machine.overrun? s.charge.steps with
    | some most => exact .exceed htake hbudget
    | none => exact .item hscopes hbudget (perform_fires item rfl)

end Machine

end EagerLambda
