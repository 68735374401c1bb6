import EagerLambda.Proofs.Machine.Markers

/-!
# Where the values of a run come from

The values of a run lie on the operand stack, are bound in environments or were shown. A turn makes
them of values that were there before, and it makes one function, if it carries out the rule for
functions. So what holds throughout the values of a state and of the function that the turn makes,
and is inherited by the values of operations, holds throughout the values after the turn, whether
the run goes on, halts or fails.

In particular, if the host binds no functions, every function of a run has its body and its
parameters from an item of the control table and was made in an environment that exists.

## Main definitions

- `Machine.State.Throughout`, `Machine.Turn.Throughout` — a property of all parts of the values in a
  state, or of those that a turn comes to
- `Machine.State.Holds`, `Machine.Turn.Holds` — a value is one of these
- `Control.Table.Makes` — an item of the table makes such functions
- `Machine.Sourced` — a function was made by an item, in an environment that exists
- `Machine.Traced` — items and functions come from the table

## Main statements

- `Machine.turn_throughout` — a turn adds no function but the one that it makes
- `Machine.turn_ne_unreceived` — `Conc` never misses its first string
- `Machine.advance_traced` — in a run, items and functions come from the table
- `Machine.advance_accounted` — so do all functions that it comes to, and its partial applications
  are those of `Conc`
-/

namespace EagerLambda

open Control

/-- What is bound to parameters is the argument or its components. -/
theorem parameterBindings_throughout {A : Value → Prop} (hA : Value.Inherited A)
    {params : List Name} {argument : Value} {bindings : List Binding}
    (h : Computation.parameterBindings params argument = .ok bindings)
    (hargument : argument.Throughout A) : ∀ binding ∈ bindings, binding.2.Throughout A := by
  have htupled : Computation.tupledBindings params argument = .ok bindings →
      ∀ binding ∈ bindings, binding.2.Throughout A := by
    intro h
    unfold Computation.tupledBindings at h
    split at h
    · split at h <;> cases h
      exact fun binding hbinding =>
        hA.throughout_tuple.1 hargument _ (List.of_mem_zip hbinding).2
    · cases h
  unfold Computation.parameterBindings at h
  split at h
  · cases h
    exact List.forall_mem_singleton.2 hargument
  · exact htupled h

/-- Every function bound in the environments satisfies `P`. -/
def Environments.All (P : Closure → Prop) (envs : Environments) : Prop :=
  Environments.Related (fun c _ => P c) envs envs

theorem Environments.Throughout.all {P : Closure → Prop} {envs : Environments}
    (h : envs.Throughout (Value.OfFunction P)) : envs.All P :=
  List.forall₂_same.2 fun frame hframe => ⟨rfl, List.forall₂_same.2 fun binding hbinding =>
    ⟨rfl, Value.related_self_iff.2
      (Value.all_iff.2 (h frame (Array.mem_toList_iff.1 hframe) binding hbinding))⟩⟩

/-- An item of the table makes functions with this body and these parameters. -/
def Control.Table.Makes (table : Table) (body : ControlId) (params : List Name) : Prop :=
  ∃ id found, table.get? id = some found ∧ .lambda body params ∈ found.items

namespace Machine

/-- Every function in a value on the operand stack or bound in an environment satisfies `P`. -/
structure State.All (P : Closure → Prop) (s : State) : Prop where
  operands : ∀ v, .value v ∈ s.operands → v.All P
  envs : s.envs.All P

/-- The property holds throughout the values on the operand stack, bound in an environment or
shown. -/
structure State.Throughout (A : Value → Prop) (s : State) : Prop where
  operands : ∀ v, .value v ∈ s.operands → v.Throughout A
  envs : s.envs.Throughout A
  shown : ∀ v ∈ s.shown, v.Throughout A

/-- The property holds throughout the values in the state that a turn leaves, and throughout the
value of the run. -/
inductive Turn.Throughout (A : Value → Prop) : Turn → Prop
  | next {s : State} : s.Throughout A → Turn.Throughout A (.next s)
  | halted {v : Value} {s : State} : v.Throughout A → s.Throughout A →
      Turn.Throughout A (.halted v s)
  | failed {error : Error} {s : State} : s.Throughout A → Turn.Throughout A (.failed error s)

/-- The value is on the operand stack, bound in an environment or shown. -/
inductive State.Holds (s : State) (v : Value) : Prop
  | operand : .value v ∈ s.operands → s.Holds v
  | binding {frame : Frame} {x : Name} : frame ∈ s.envs.frames → (x, v) ∈ frame.bindings →
      s.Holds v
  | shown : v ∈ s.shown → s.Holds v

/-- The value is in the state that a turn leaves, or it is the value of the run. -/
inductive Turn.Holds (v : Value) : Turn → Prop
  | state {t : Turn} : t.state.Holds v → t.Holds v
  | final (s : State) : Turn.Holds v (.halted v s)

/-- The function that the next turn makes. -/
def State.made? (s : State) : Option Closure :=
  match s.scopes with
  | ⟨item :: _, _⟩ :: _ => item.made? s.current
  | _ => none

variable {s s' : State} {t : Turn} {machine : Machine} {table : Table} {A B : Value → Prop}
  {P : Closure → Prop} {v : Value} {item : Item} {todo : List Item} {env : EnvId}
  {outer : List Scope}

namespace State.Throughout

theorem mono (h : s.Throughout A) (hAB : ∀ u, A u → B u) : s.Throughout B :=
  ⟨fun v hv => (h.operands v hv).mono hAB, h.envs.mono hAB, fun v hv => (h.shown v hv).mono hAB⟩

theorem all (h : s.Throughout (Value.OfFunction P)) : s.All P :=
  ⟨fun v hv => Value.all_iff.2 (h.operands v hv), h.envs.all⟩

theorem holds (h : s.Throughout A) (hv : s.Holds v) : v.Throughout A := by
  cases hv with
  | operand hv => exact h.operands v hv
  | binding hframe hbinding => exact h.envs _ hframe _ hbinding
  | shown hv => exact h.shown v hv

/-- A rule has shown some of the operands, and what it leaves on top of the stack has the
property. -/
theorem replace (hs : s.Throughout A) (pushed : List Operand) {rest : List Operand}
    (shown : List Value) (hpushed : ∀ v, .value v ∈ pushed → v.Throughout A)
    (hrest : rest ⊆ s.operands) (hshown : ∀ v ∈ shown, .value v ∈ s.operands)
    (hoperands : s'.operands = pushed ++ rest)
    (henvs : s'.envs = s.envs) (hsame : s'.shown = shown ++ s.shown) : s'.Throughout A := by
  refine ⟨fun v hv => ?_, henvs ▸ hs.envs, fun v hv => ?_⟩
  · rw [hoperands] at hv
    rcases List.mem_append.1 hv with hv | hv
    · exact hpushed v hv
    · exact hs.operands v (hrest hv)
  · rw [hsame] at hv
    rcases List.mem_append.1 hv with hv | hv
    · exact hs.operands v (hshown v hv)
    · exact hs.shown v hv

end State.Throughout

namespace Turn.Throughout

theorem state (h : t.Throughout A) : t.state.Throughout A := by
  cases h with
  | next hs => exact hs
  | halted _ hs => exact hs
  | failed hs => exact hs

theorem mono (h : t.Throughout A) (hAB : ∀ u, A u → B u) : t.Throughout B := by
  cases h with
  | next hs => exact .next (hs.mono hAB)
  | halted hv hs => exact .halted (hv.mono hAB) (hs.mono hAB)
  | failed hs => exact .failed (hs.mono hAB)

theorem holds (h : t.Throughout A) (hv : t.Holds v) : v.Throughout A := by
  cases hv with
  | state hv => exact h.state.holds hv
  | final s =>
    cases h with
    | halted hv _ => exact hv

end Turn.Throughout

-- ════════════════════════════════════════════════════════════════════════
-- Turns
-- ════════════════════════════════════════════════════════════════════════

theorem Breaks.throughout {error : Error} (h : Breaks s error s') (hs : s.Throughout A) :
    s'.Throughout A := by
  obtain ⟨shown, hsame, hshown⟩ := h.shown
  exact hs.replace [] shown (fun _ hv => absurd hv List.not_mem_nil) h.operands hshown rfl h.envs
    hsame

/-- Opening an environment for a function that is taken off with its argument. -/
theorem State.Throughout.opened (hA : Value.Inherited A) (hs : s.Throughout A) {closure : Closure}
    {argument : Value} {rest : List Operand} {bindings : List Binding} {scopes : List Scope}
    (hoperands : s.operands = .value (.closure closure) :: .value argument :: rest)
    (hbindings : Computation.parameterBindings closure.params argument = .ok bindings) :
    State.Throughout A { s with
      scopes := scopes
      operands := .marker s.envs.nextId :: rest
      envs := s.envs.push closure.env bindings
      current := some s.envs.nextId } := by
  have hoperand := hs.operands
  rw [hoperands] at hoperand
  have hargument := hoperand argument (List.mem_cons_of_mem _ List.mem_cons_self)
  refine ⟨fun v hv => ?_,
    hs.envs.push (parameterBindings_throughout hA hbindings hargument) closure.env, hs.shown⟩
  rcases List.mem_cons.1 hv with heq | hv
  · cases heq
  · exact hoperand v (List.mem_cons_of_mem _ (List.mem_cons_of_mem _ hv))

/-- The rule for an item makes values of those that were there and of the function of the item. -/
theorem Fires.throughout (hfires : Fires table item todo env outer s t) (hA : Value.Inherited A)
    (hs : s.Throughout A) (hmade : ∀ c, item.made? s.current = some c → A (.closure c)) :
    t.Throughout A := by
  cases hfires with
  | @compute taken rest v shown _ _ hoperands hshown hdraws =>
    have htaken : ∀ w ∈ taken, .value w ∈ s.operands := fun w hw =>
      hoperands ▸ List.mem_append_left _ (List.mem_map_of_mem hw)
    have hvalue := hdraws A hA (fun w hw => hs.operands w (htaken w hw)) hs.envs hmade
    refine .next (hs.replace [.value v] shown (fun w hw => ?_)
      (hoperands ▸ List.subset_append_right _ _) (fun w hw => htaken w (hshown hw)) rfl rfl rfl)
    cases List.mem_singleton.1 hw
    exact hvalue
  | @unfold closure rest _ hoperands =>
    have heta := hs.operands (.eta closure) (hoperands ▸ List.mem_cons_self)
    refine .next (hs.replace [.value (.closure closure), .value (.eta closure)] []
      (fun w hw => ?_) (hoperands ▸ List.subset_cons_self _ _)
      (fun _ hw => absurd hw List.not_mem_nil) rfl rfl rfl)
    rcases List.mem_cons.1 hw with heq | hw
    · cases heq
      exact hA.throughout_eta.1 heta
    · cases List.mem_singleton.1 hw
      exact heta
  | enter _ hoperands hbindings _ _ => exact .next (hs.opened hA hoperands hbindings)
  | @choose b rest _ _ _ _ _ hoperands _ _ =>
    exact .next ⟨fun w hw => hs.operands w (hoperands ▸ List.mem_cons_of_mem _ hw), hs.envs,
      hs.shown⟩
  | unbound _ _ _ => exact .failed hs
  | fail hbreaks _ _ => exact .failed (hbreaks.throughout hs)
  | misapply _ hoperands =>
    exact .failed ⟨fun w hw => hs.operands w (hoperands ▸ List.mem_cons_of_mem _ hw), hs.envs,
      hs.shown⟩
  | abandon _ hoperands hbindings _ _ => exact .failed (hs.opened hA hoperands hbindings)
  | astray _ _ _ hbreaks => exact .failed (hbreaks.throughout hs)

theorem Closes.throughout (hcloses : Closes env s t) (hs : s.Throughout A) : t.Throughout A := by
  cases hcloses with
  | @closed result rest hoperands =>
    refine .next ⟨fun w hw => hs.operands w ?_, hs.envs, hs.shown⟩
    rw [hoperands]
    rcases List.mem_cons.1 hw with heq | hw
    · exact heq ▸ List.mem_cons_self
    · exact List.mem_cons_of_mem _ (List.mem_cons_of_mem _ hw)
  | mismatch hoperands _ =>
    exact .failed ⟨fun w hw => hs.operands w
      (hoperands ▸ List.mem_cons_of_mem _ (List.mem_cons_of_mem _ hw)), hs.envs, hs.shown⟩
  | fail hbreaks _ _ => exact .failed (hbreaks.throughout hs)

theorem finish_throughout (hs : s.Throughout A) : (finish s).Throughout A := by
  unfold finish
  split
  · refine withValue_cases (Turn.Throughout A) (fun v rest hoperands => ?_)
      fun error rest hbreaks _ => .failed (hbreaks.throughout hs)
    exact .halted (hs.operands v (hoperands ▸ List.mem_cons_self))
      ⟨fun w hw => hs.operands w (hoperands ▸ List.mem_cons_of_mem _ hw), hs.envs, hs.shown⟩
  · exact .failed hs

/-- What operations inherit, and what holds throughout the values in a state and of the function
that the next turn makes, holds throughout the values that the turn comes to. -/
theorem turn_throughout (machine : Machine) (hA : Value.Inherited A) (hs : s.Throughout A)
    (hmade : ∀ c, s.made? = some c → A (.closure c)) : (machine.turn s).Throughout A := by
  have hmove := turn_move machine s
  generalize machine.turn s = t at hmove ⊢
  cases hmove with
  | halt _ hfinish => exact hfinish ▸ finish_throughout hs
  | exceed htake _ =>
    obtain ⟨-, scopes, rfl⟩ := State.takeTask?_scopes htake
    exact .failed ⟨hs.operands, hs.envs, hs.shown⟩
  | item hscopes _ hfires =>
    refine hfires.throughout hA ⟨hs.operands, hs.envs, hs.shown⟩ fun c hc => hmade c ?_
    rw [State.made?, hscopes]
    exact hc
  | leave _ _ hcloses => exact hcloses.throughout ⟨hs.operands, hs.envs, hs.shown⟩

theorem finish_ne_unreceived {error : Error} (h : finish s = .failed error s') :
    error ≠ .unreceived := by
  obtain ⟨scopes, operands, envs, current, steps, shown⟩ := s
  match operands with
  | [.value _] => cases h
  | [] | [.marker _] | _ :: _ :: _ =>
    cases h
    exact Error.noConfusion

/-- No turn fails because `Conc` computes without a first string. -/
theorem turn_ne_unreceived {error : Error} (h : machine.turn s = .failed error s') :
    error ≠ .unreceived := by
  have hmove := turn_move machine s
  rw [h] at hmove
  cases hmove with
  | halt _ hfinish => exact finish_ne_unreceived hfinish.symm
  | exceed _ _ => exact Error.noConfusion
  | item _ _ hfires =>
    cases hfires with
    | unbound | abandon => exact Error.noConfusion
    | fail hbreaks _ _ => exact hbreaks.spoils.ne_unreceived
    | misapply _ _ => exact fun heq => absurd (Error.typeMismatch.inj heq).1 (by decide)
    | astray _ _ _ hbreaks => exact hbreaks.spoils.ne_unreceived
  | leave _ _ hcloses =>
    cases hcloses with
    | mismatch => exact Error.noConfusion
    | fail hbreaks _ _ => exact hbreaks.spoils.ne_unreceived

/-- The rule for functions makes one in the current environment. -/
theorem State.env_of_made? {c : Closure} (h : s.made? = some c) : s.current = some c.env := by
  rw [State.made?] at h
  split at h
  · next item _ _ _ _ =>
    cases item with
    | lambda body params =>
      obtain ⟨env, henv, rfl⟩ := Option.map_eq_some_iff.1 h
      exact henv
    | _ => cases h
  · cases h

/-- Names are looked up in an environment that exists. -/
theorem Nested.current_lt {env : EnvId} (hs : Nested s) (h : s.current = some env) :
    env.index < s.envs.size := by
  rw [hs.current] at h
  exact hs.opened env (List.mem_of_head? h)

-- ════════════════════════════════════════════════════════════════════════
-- Items and functions of the table
-- ════════════════════════════════════════════════════════════════════════

/-- The item is one of the table, or an application like those that a recursive function unfolds
to. -/
def Drawn (table : Table) (item : Item) : Prop :=
  item = .gamma ∨ ∃ id found, table.get? id = some found ∧ item ∈ found.items

/-- The function is made by an item of the table, and the environment it was made in is one of the
first `count`. -/
def Sourced (table : Table) (count : Nat) (c : Closure) : Prop :=
  table.Makes c.body c.params ∧ c.env.index < count

theorem Sourced.mono {c : Closure} {count more : Nat} (h : Sourced table count c)
    (hmore : count ≤ more) : Sourced table more c :=
  ⟨h.1, Nat.lt_of_lt_of_le h.2 hmore⟩

/-- The items left in the open scopes come from the table, and so do the functions in the state,
which were made in environments that exist. -/
structure Traced (table : Table) (s : State) : Prop extends Nested s where
  items : ∀ scope ∈ s.scopes, ∀ item ∈ scope.todo, Drawn table item
  functions : s.Throughout (Value.OfFunction (Sourced table s.envs.size))

theorem drawn_of_get? {id : ControlId} {found : Structure} (h : table.get? id = some found)
    {item : Item} (hitem : item ∈ found.executionOrder) : Drawn table item :=
  .inr ⟨id, found, h, List.mem_reverse.1 hitem⟩

theorem Fires.items (hfires : Fires table item todo env outer s (.next s'))
    (hscopes : s.scopes = ⟨todo, env⟩ :: outer)
    (hs : ∀ scope ∈ s.scopes, ∀ item ∈ scope.todo, Drawn table item) :
    ∀ scope ∈ s'.scopes, ∀ item ∈ scope.todo, Drawn table item := by
  have hall : ∀ scope ∈ ⟨todo, env⟩ :: outer, ∀ item ∈ scope.todo, Drawn table item :=
    hscopes ▸ hs
  obtain ⟨htodo, houter⟩ := List.forall_mem_cons.1 hall
  cases hfires with
  | compute => exact hs
  | unfold =>
    refine List.forall_mem_cons.2 ⟨fun item hitem => ?_, houter⟩
    rcases List.mem_cons.1 hitem with rfl | hitem
    · exact .inl rfl
    · rcases List.mem_cons.1 hitem with rfl | hitem
      · exact .inl rfl
      · exact htodo item hitem
  | enter _ _ _ _ hget =>
    exact List.forall_mem_cons.2 ⟨fun item hitem => drawn_of_get? hget hitem, hall⟩
  | choose _ _ htodo' hget =>
    subst htodo'
    refine List.forall_mem_cons.2 ⟨fun item hitem => ?_, houter⟩
    rcases List.mem_append.1 hitem with hitem | hitem
    · exact drawn_of_get? hget hitem
    · exact htodo item (List.mem_cons_of_mem _ hitem)

theorem turn_items (h : machine.turn s = .next s')
    (hs : ∀ scope ∈ s.scopes, ∀ item ∈ scope.todo, Drawn machine.table item) :
    ∀ scope ∈ s'.scopes, ∀ item ∈ scope.todo, Drawn machine.table item := by
  have hmove := turn_move machine s
  rw [h] at hmove
  cases hmove with
  | halt _ hfinish => exact absurd hfinish.symm (finish_ne_next s s')
  | @item item todo env outer _ hscopes _ hfires =>
    rw [hscopes] at hs
    obtain ⟨htodo, houter⟩ := List.forall_mem_cons.1 hs
    exact hfires.items rfl (List.forall_mem_cons.2
      ⟨fun item hitem => htodo item (List.mem_cons_of_mem _ hitem), houter⟩)
  | @leave env outer _ hscopes _ hcloses =>
    rw [hscopes] at hs
    cases hcloses with
    | closed => exact (List.forall_mem_cons.1 hs).2

/-- The function that the next turn makes is one of the table. -/
theorem Traced.makes {c : Closure} (hs : Traced table s) (h : s.made? = some c) :
    table.Makes c.body c.params := by
  rw [State.made?] at h
  split at h
  · next item todo env outer hscopes =>
    have hdrawn := hs.items _ (hscopes ▸ List.mem_cons_self) item List.mem_cons_self
    cases item with
    | lambda body params =>
      obtain ⟨env, -, rfl⟩ := Option.map_eq_some_iff.1 h
      rcases hdrawn with hgamma | hmakes
      · cases hgamma
      · exact hmakes
    | _ => cases h
  · cases h

/-- The function that the next turn makes comes from the table. -/
theorem Traced.sourced {c : Closure} (hs : Traced table s) (h : s.made? = some c) :
    Sourced table s.envs.size c :=
  ⟨hs.makes h, hs.toNested.current_lt (State.env_of_made? h)⟩

theorem turn_traced (h : machine.turn s = .next s') (hs : Traced machine.table s) :
    Traced machine.table s' where
  toNested := turn_nested h hs.toNested
  items := turn_items h hs.items
  functions := by
    have hturn := turn_throughout machine
      (Value.inherited_ofFunction (Sourced machine.table s.envs.size)) hs.functions
      fun c hc => hs.sourced hc
    have hsize := turn_size machine s
    rw [h] at hturn hsize
    exact hturn.state.mono fun u hu => hu.mono fun c hc => hc.mono hsize

/-- In a run, items and functions come from the table. -/
theorem advance_traced {fuel : Nat} (h : machine.advance fuel s = .next s')
    (hs : Traced machine.table s) : Traced machine.table s' :=
  advance_next_of_turn (fun _ _ => turn_traced) h hs

/-- In a run whose functions come from the table, and whose partial applications are those of
`Conc`, all values are made of these. -/
theorem advance_accounted (fuel : Nat) (hs : Traced machine.table s)
    (haccounted : s.Throughout (Value.Accounted (Sourced machine.table s.envs.size))) :
    (machine.advance fuel s).Throughout
      (Value.Accounted (Sourced machine.table (machine.advance fuel s).state.envs.size)) := by
  have hturn : ∀ s, Traced machine.table s ∧
      s.Throughout (Value.Accounted (Sourced machine.table s.envs.size)) →
      (machine.turn s).Throughout
        (Value.Accounted (Sourced machine.table (machine.turn s).state.envs.size)) := by
    rintro s ⟨hs, haccounted⟩
    have hturn := turn_throughout machine (Value.inherited_accounted _) haccounted
      fun c hc => hs.sourced hc
    -- Environments are never given up, so what is accounted for stays so.
    exact hturn.mono fun u hu => hu.mono fun c hc => hc.mono (turn_size machine s)
  refine advance_of_kept
    (Q := fun t => t.Throughout (Value.Accounted (Sourced machine.table t.state.envs.size)))
    (fun s s' h hs => ⟨turn_traced h hs.1, ?_⟩) (fun s hs => .next hs.2) hturn fuel
    ⟨hs, haccounted⟩
  have hnext := hturn s hs
  rw [h] at hnext
  exact hnext.state

/-- No run fails because `Conc` computes without a first string. -/
theorem advance_ne_unreceived {fuel : Nat} {error : Error}
    (h : machine.advance fuel s = .failed error s') : error ≠ .unreceived := by
  obtain ⟨before, last, -, hlast⟩ := exists_last_turn h
  exact turn_ne_unreceived hlast

/-- A run starts with the values that the host has bound, besides the primitives. -/
theorem load_throughout {settings : Settings} (hA : Value.Inherited A)
    (h : load table settings = .ok (machine, s)) (hsettings : settings.Throughout A) :
    s.Throughout A := by
  rw [load] at h
  split at h
  · cases h
  · split at h
    · cases h
    · cases h
      refine ⟨fun v hv => ?_, hsettings.environments hA, fun v hv => ?_⟩
      · cases List.mem_singleton.1 hv
      · cases hv

/-- If the host binds no functions of a program, there are none when the machine starts. -/
theorem load_traced {settings : Settings} (hcode : settings.Codeless)
    (h : load table settings = .ok (machine, s)) : Traced table s := by
  have hfunctions := load_throughout (Value.inherited_ofFunction (Sourced table s.envs.size)) h
    (hcode.throughout _)
  have hnested := load_nested h
  rw [load] at h
  split at h
  · cases h
  · next entry hentry =>
    split at h
    · cases h
    · cases h
      refine ⟨hnested, fun scope hscope item hitem => ?_, hfunctions⟩
      cases List.mem_singleton.1 hscope
      exact drawn_of_get? hentry hitem

end Machine

end EagerLambda
