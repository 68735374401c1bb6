import EagerLambda.Proofs.Machine.Budget

/-!
# Running a failed machine again

The scopes that are open ask for certain operands: above its marker the values that its items take,
beneath it those that the scope around it takes besides the result. A rule that succeeds keeps it
so. A rule that fails has lost a value that the rest of the program asks for, and no later rule
makes up for it: run again, the machine fails again and again. Two failures are different. A value
that cannot be applied is taken off without its argument, which then passes for the result of the
application. And a step that exceeds the budget takes its item off but no operand.

## Main definitions

- `Machine.Awaits` — the operands that open scopes ask for
- `Machine.Fills`, `Machine.Lacks` — how many of them are missing
- `Machine.Doomed` — operands are missing
- `Machine.Failures` — runs that fail one after the other

## Main statements

- `Machine.doomed_of_fail` — a rule that fails leaves operands missing
- `Machine.fires_fares`, `Machine.Lacks.turn` — what a turn does to the operands asked for
- `Machine.Doomed.advance` — a machine that lacks operands does not halt
- `Machine.Failures.fate` — what repeated runs come to
-/

namespace EagerLambda

open Control

namespace Machine

/-- Operands asked for: so many values above the marker of an environment. -/
def asked (height : Nat) (env : EnvId) (beneath : List (Option EnvId)) : List (Option EnvId) :=
  List.replicate height none ++ some env :: beneath

/-- The operands that the open scopes ask for, each a marker or a value, if they are to come to a
single value. The result of a scope is the topmost value for the scope around it. -/
inductive Awaits (table : Table) : List Scope → List (Option EnvId) → Prop
  | nil : Awaits table [] [none]
  | cons {todo : List Item} {env : EnvId} {outer : List Scope} {height turns : Nat}
      {beneath : List (Option EnvId)} : Computes table todo height turns →
      Awaits table outer (none :: beneath) →
      Awaits table (⟨todo, env⟩ :: outer) (asked height env beneath)

/-- The operands are those that are awaited, except for so many that are missing. -/
structure Fills (missing : Nat) (operands : List Operand) (awaited : List (Option EnvId)) :
    Prop where
  sub : (kinds operands).Sublist awaited
  length : operands.length + missing = awaited.length

/-- So many of the operands that the open scopes ask for are missing. -/
def Lacks (table : Table) (missing : Nat) (s : State) : Prop :=
  ∃ awaited, Awaits table s.scopes awaited ∧ Fills missing s.operands awaited

/-- Operands are missing, at the latest when a branch without its condition is out of the way. -/
inductive Doomed (table : Table) (s : State) : Prop
  | short {missing : Nat} : Lacks table (missing + 1) s → Doomed table s
  | orphan {thenId elseId : ControlId} {todo : List Item} {env : EnvId} {outer : List Scope}
      {missing : Nat} : s.scopes = ⟨.branch thenId elseId :: todo, env⟩ :: outer →
      Lacks table (missing + 1) { s with scopes := ⟨todo, env⟩ :: outer } → Doomed table s

/-- More steps were counted than the budget allows. -/
def Exceeded (machine : Machine) (s : State) : Prop :=
  ∃ most, machine.budget = some most ∧ most < s.steps ∧ most < stepLimit

/-- How a machine fares in a turn for which `missing` operands are missing. -/
inductive Fares (machine : Machine) (missing : Nat) (s : State) : Turn → Prop
  | next {s' : State} : Lacks machine.table missing s' → Fares machine missing s (.next s')
  | halted {v : Value} {s' : State} : missing = 0 → Fares machine missing s (.halted v s')
  /-- A value that cannot be applied is gone, and its argument stands for the result. -/
  | misapplied {error : Error} {s' : State} : error.Misapplies → Lacks machine.table missing s' →
      Fares machine missing s (.failed error s')
  | spoiled {error : Error} {s' : State} : error.Spoils → Doomed machine.table s' →
      Fares machine missing s (.failed error s')
  | exceeded {task : Task} {taken : State} {most : Nat} : s.takeTask? = some (task, taken) →
      machine.overrun? s.charge.steps = some most →
      Fares machine missing s (.failed (.budgetExhausted most) taken.charge)

variable {s s' : State} {t : Turn} {machine : Machine} {table : Table} {item : Item}
  {todo body : List Item} {env entered : EnvId} {outer : List Scope} {turns missing bound : Nat}
  {operands rest : List Operand} {awaited beneath : List (Option EnvId)}

theorem length_kinds (operands : List Operand) : (kinds operands).length = operands.length :=
  List.length_map _

theorem asked_add (count height : Nat) (env : EnvId) (beneath : List (Option EnvId)) :
    asked (count + height) env beneath =
      List.replicate count none ++ asked height env beneath := by
  rw [asked, asked, List.replicate_add, List.append_assoc]

-- ════════════════════════════════════════════════════════════════════════
-- Operands that are there
-- ════════════════════════════════════════════════════════════════════════

namespace Fills

/-- An operand on top is the one that is asked for. -/
theorem cons_iff {operand : Operand} :
    Fills missing (operand :: rest) (operand.marked? :: beneath) ↔ Fills missing rest beneath := by
  constructor
  · rintro ⟨hsub, hlength⟩
    refine ⟨List.cons_sublist_cons.1 hsub, ?_⟩
    rw [List.length_cons, List.length_cons] at hlength
    omega
  · rintro ⟨hsub, hlength⟩
    refine ⟨hsub.cons_cons operand.marked?, ?_⟩
    rw [List.length_cons, List.length_cons]
    omega

theorem value_iff {v : Value} :
    Fills missing (.value v :: rest) (none :: beneath) ↔ Fills missing rest beneath := cons_iff

theorem marker_iff :
    Fills missing (.marker env :: rest) (some env :: beneath) ↔ Fills missing rest beneath :=
  cons_iff

/-- Values that were asked for are taken off. -/
theorem of_taken {taken : List Value}
    (h : Fills missing (taken.map .value ++ rest)
      (List.replicate taken.length none ++ beneath)) : Fills missing rest beneath := by
  induction taken with
  | nil => exact h
  | cons v taken ih => exact ih (value_iff.1 h)

end Fills

-- ════════════════════════════════════════════════════════════════════════
-- Operands that are asked for
-- ════════════════════════════════════════════════════════════════════════

namespace Awaits

/-- A scope that asks for a value on top has items that take it. -/
theorem value_inv (h : Awaits table (⟨todo, env⟩ :: outer) (none :: awaited)) :
    ∃ height turns beneath, awaited = asked height env beneath ∧
      Computes table todo (height + 1) turns ∧ Awaits table outer (none :: beneath) := by
  generalize hall : none :: awaited = all at h
  cases h with
  | @cons _ _ _ height turns beneath htodo houter =>
    cases height with
    | zero => cases hall
    | succ height =>
      cases hall
      exact ⟨height, turns, beneath, rfl, htodo, houter⟩

/-- What is left in the scope asks for one value in the place of those that the item takes. -/
theorem item_inv (hbeta : item ≠ .beta) (h : Awaits table (⟨item :: todo, env⟩ :: outer) awaited) :
    ∃ below, awaited = List.replicate item.arity none ++ below ∧
      Awaits table (⟨todo, env⟩ :: outer) (none :: below) := by
  cases h with
  | cons hitems houter =>
    obtain ⟨height, turns, rfl, -, htodo⟩ := hitems.item_inv hbeta
    exact ⟨_, asked_add item.arity height env _, .cons htodo houter⟩

theorem gamma_inv (h : Awaits table (⟨.gamma :: todo, env⟩ :: outer) awaited) :
    ∃ below, awaited = none :: none :: below ∧
      Awaits table (⟨todo, env⟩ :: outer) (none :: below) :=
  h.item_inv Item.noConfusion

/-- A conditional takes its condition. Either arm makes the value that is asked for next. -/
theorem beta_inv (h : Awaits table (⟨.beta :: todo, env⟩ :: outer) awaited) :
    ∃ thenId elseId others below, todo = .branch thenId elseId :: others ∧
      awaited = none :: below ∧ Awaits table (⟨others, env⟩ :: outer) (none :: below) ∧
      ∀ b : Bool, ∃ arm, table.get? (if b then thenId else elseId) = some arm ∧
        Awaits table (⟨arm.executionOrder ++ others, env⟩ :: outer) below := by
  cases h with
  | cons hitems houter =>
    obtain ⟨thenId, elseId, others, height, turns, rfl, rfl, hothers, harms⟩ := hitems.beta_inv
    refine ⟨thenId, elseId, others, _, rfl, rfl, .cons hothers houter, fun b => ?_⟩
    obtain ⟨arm, armTurns, hget, hcode, -⟩ := harms b
    exact ⟨arm, hget, .cons (hcode.prepend hothers) houter⟩

/-- A scope with nothing left to do asks for its result on its marker. -/
theorem leave_inv (h : Awaits table (⟨[], env⟩ :: outer) awaited) :
    ∃ below, awaited = none :: some env :: below ∧ Awaits table outer (none :: below) := by
  cases h with
  | cons hitems houter =>
    obtain ⟨rfl, -⟩ := Computes.nil_iff.1 hitems
    exact ⟨_, rfl, houter⟩

theorem apply_twice (h : Awaits table (⟨todo, env⟩ :: outer) (none :: awaited)) :
    Awaits table (⟨.gamma :: .gamma :: todo, env⟩ :: outer) (none :: none :: none :: awaited) := by
  obtain ⟨height, turns, beneath, rfl, htodo, houter⟩ := h.value_inv
  exact .cons htodo.apply_twice houter

/-- The scope of a function asks for its marker in the place of the value that it makes. -/
theorem enter (h : Awaits table (⟨todo, env⟩ :: outer) (none :: awaited))
    (hbody : Computes table body 0 turns) (entered : EnvId) :
    Awaits table (⟨body, entered⟩ :: ⟨todo, env⟩ :: outer) (some entered :: awaited) :=
  .cons hbody h

end Awaits

/-- No more operands are left than lie beneath the topmost that the scopes ask for. -/
theorem exists_lacks (hawaits : Awaits table s.scopes (none :: awaited))
    (hleft : (kinds s.operands).Sublist awaited) : ∃ missing, Lacks table (missing + 1) s := by
  have hle := hleft.length_le
  rw [length_kinds] at hle
  have hsub := hleft.trans (List.sublist_cons_self none awaited)
  refine ⟨awaited.length - s.operands.length, _, hawaits, hsub, ?_⟩
  rw [List.length_cons]
  omega

theorem doomed_of_left (hawaits : Awaits table s.scopes (none :: awaited))
    (hleft : (kinds s.operands).Sublist awaited) : Doomed table s := by
  obtain ⟨missing, hlacks⟩ := exists_lacks hawaits hleft
  exact .short hlacks

-- ════════════════════════════════════════════════════════════════════════
-- Rules
-- ════════════════════════════════════════════════════════════════════════

/-- The scope of a function is opened: its marker is there in exchange for the argument. -/
theorem lacks_of_enter {function argument : Value}
    (hawaits : Awaits table (⟨.gamma :: todo, env⟩ :: outer) awaited)
    (hfills : Fills missing (.value function :: .value argument :: rest) awaited)
    (hbody : Computes table body 0 turns)
    (hscopes : s'.scopes = ⟨body, entered⟩ :: ⟨todo, env⟩ :: outer)
    (hoperands : s'.operands = .marker entered :: rest) : Lacks table missing s' := by
  obtain ⟨below, rfl, htodo⟩ := hawaits.gamma_inv
  have hrest := Fills.value_iff.1 (Fills.value_iff.1 hfills)
  exact ⟨_, hscopes ▸ htodo.enter hbody entered, hoperands ▸ Fills.marker_iff.2 hrest⟩

/-- The scope of a function without a body is opened: it comes to no value. -/
theorem doomed_of_abandon {function argument : Value}
    (hawaits : Awaits table (⟨.gamma :: todo, env⟩ :: outer) awaited)
    (hfills : Fills missing (.value function :: .value argument :: rest) awaited)
    (hscopes : s'.scopes = ⟨[], entered⟩ :: ⟨todo, env⟩ :: outer)
    (hoperands : s'.operands = .marker entered :: rest) : Doomed table s' := by
  obtain ⟨below, rfl, htodo⟩ := hawaits.gamma_inv
  have hrest := Fills.value_iff.1 (Fills.value_iff.1 hfills)
  have hopened : Awaits table s'.scopes (none :: some entered :: below) :=
    hscopes ▸ .cons .done htodo
  exact doomed_of_left hopened (hoperands ▸ (Fills.marker_iff.2 hrest).sub)

/-- A rule that fails has taken what its item asks for, and nothing stands for its result. -/
theorem doomed_of_fail (hawaits : Awaits table (⟨item :: todo, env⟩ :: outer) awaited)
    (hfills : Fills missing operands awaited) (hscopes : s'.scopes = ⟨todo, env⟩ :: outer)
    (hleaves : Leaves item.arity operands s'.operands) : Doomed table s' := by
  by_cases hbeta : item = .beta
  · subst hbeta
    -- The condition is gone, and the branch is left without it.
    obtain ⟨thenId, elseId, others, below, rfl, rfl, hothers, -⟩ := hawaits.beta_inv
    obtain ⟨missing', hlacks⟩ := exists_lacks
      (s := { s' with scopes := ⟨others, env⟩ :: outer }) hothers (hleaves below hfills.sub)
    exact .orphan hscopes hlacks
  · obtain ⟨below, rfl, htodo⟩ := hawaits.item_inv hbeta
    exact doomed_of_left (hscopes ▸ htodo) (hleaves below hfills.sub)

/-- The rule for an item leaves the operands that the scopes ask for, or spoils them. -/
theorem fires_fares {s₀ : State} (hsound : machine.table.Sound bound)
    (hfires : Fires machine.table item todo env outer s t)
    (hscopes : s.scopes = ⟨todo, env⟩ :: outer)
    (hawaits : Awaits machine.table (⟨item :: todo, env⟩ :: outer) awaited)
    (hfills : Fills missing s.operands awaited) : Fares machine missing s₀ t := by
  cases hfires with
  | @compute taken rest v shown hbeta htaken hs _ _ =>
    obtain ⟨below, rfl, htodo⟩ := hawaits.item_inv hbeta
    rw [hs, ← htaken] at hfills
    exact .next ⟨_, hscopes ▸ htodo, Fills.value_iff.2 hfills.of_taken⟩
  | @unfold closure rest hitem hs =>
    subst hitem
    obtain ⟨below, rfl, htodo⟩ := hawaits.gamma_inv
    rw [hs] at hfills
    have hrest := Fills.value_iff.1 hfills
    exact .next ⟨_, htodo.apply_twice, Fills.value_iff.2 (Fills.value_iff.2 hrest)⟩
  | enter hitem hs _ _ hget =>
    subst hitem
    obtain ⟨turns, -, hbody⟩ := hsound _ _ hget
    exact .next (lacks_of_enter hawaits (hs ▸ hfills) hbody rfl rfl)
  | @choose b rest thenId elseId others entered hitem hs htodo hget =>
    subst hitem
    obtain ⟨_, _, _, below, heq, rfl, -, harms⟩ := hawaits.beta_inv
    cases htodo.symm.trans heq
    obtain ⟨arm, harm, harmed⟩ := harms b
    cases hget.symm.trans harm
    rw [hs] at hfills
    exact .next ⟨_, harmed, Fills.value_iff.1 hfills⟩
  | unbound hitem _ _ =>
    subst hitem
    exact .spoiled trivial (doomed_of_fail hawaits hfills hscopes (leaves_refl s.operands))
  | fail hbreaks hkept hleaves =>
    exact .spoiled hbreaks.spoils (doomed_of_fail hawaits hfills (hkept.trans hscopes) hleaves)
  | @misapply v rest hitem hs =>
    subst hitem
    obtain ⟨below, rfl, htodo⟩ := hawaits.gamma_inv
    rw [hs] at hfills
    exact .misapplied rfl ⟨_, hscopes ▸ htodo, Fills.value_iff.1 hfills⟩
  | abandon hitem hs _ _ _ =>
    subst hitem
    exact .spoiled trivial (doomed_of_abandon hawaits (hs ▸ hfills) rfl rfl)
  | @astray b rest error s' hitem _ hnone _ =>
    subst hitem
    obtain ⟨thenId, elseId, others, _, rfl, -, -, harms⟩ := hawaits.beta_inv
    obtain ⟨arm, harm, -⟩ := harms b
    cases harm.symm.trans (hnone _ _ _ rfl)

/-- The closing of a scope keeps what the scopes around it ask for, or spoils it. -/
theorem closes_fares {s₀ : State} (hcloses : Closes env s t)
    (hawaits : Awaits machine.table (⟨[], env⟩ :: s.scopes) awaited)
    (hfills : Fills missing s.operands awaited) : Fares machine missing s₀ t := by
  obtain ⟨below, rfl, houter⟩ := hawaits.leave_inv
  cases hcloses with
  | closed hs =>
    rw [hs] at hfills
    have hrest := Fills.marker_iff.1 (Fills.value_iff.1 hfills)
    exact .next ⟨_, houter, Fills.value_iff.2 hrest⟩
  | @mismatch result found rest hs hfound =>
    -- The marker on top is not the one asked for, so what is left lies beneath that one.
    rw [hs] at hfills
    have hbelow := (Fills.value_iff.1 hfills).sub
    refine .spoiled trivial (doomed_of_left houter ?_)
    cases hbelow with
    | cons _ hbelow => exact (List.sublist_cons_self _ _).trans hbelow
    | cons_cons _ _ => exact absurd rfl hfound
  | fail hbreaks hkept hleaves =>
    exact .spoiled hbreaks.spoils (doomed_of_left (hkept ▸ houter) (hleaves below hfills.sub))

/-- Without a scope a single value is asked for, which is what the machine halts on. -/
theorem finish_fares (h : Lacks machine.table missing s) (hscopes : s.scopes = []) :
    Fares machine missing s (finish s) := by
  obtain ⟨awaited, hawaits, hfills⟩ := id h
  rw [hscopes] at hawaits
  cases hawaits
  obtain ⟨hsub, hlength⟩ := hfills
  match hs : s.operands with
  | [] =>
    have hmissing : missing = 0 + 1 := by simpa [hs] using hlength
    subst hmissing
    simp only [finish, hs]
    exact .spoiled trivial (.short h)
  | [.value v] =>
    simp only [finish, State.withValue, hs]
    exact .halted (by simpa [hs] using hlength)
  | [.marker env] =>
    rw [hs] at hsub
    cases hsub with
    | cons _ hsub => cases hsub
  | _ :: _ :: _ =>
    rw [hs] at hlength
    simp only [List.length_cons, List.length_nil] at hlength
    omega

/-- What a turn does to the operands that the scopes ask for. -/
theorem Lacks.turn (h : Lacks machine.table missing s) (hsound : machine.table.Sound bound) :
    Fares machine missing s (machine.turn s) := by
  have hmove := turn_move machine s
  generalize machine.turn s = t at hmove ⊢
  cases hmove with
  | halt hscopes hfinish =>
    subst hfinish
    exact finish_fares h hscopes
  | exceed htake hbudget => exact .exceeded htake hbudget
  | item hscopes _ hfires =>
    obtain ⟨awaited, hawaits, hfills⟩ := h
    exact fires_fares hsound hfires rfl (hscopes ▸ hawaits) hfills
  | leave hscopes _ hcloses =>
    obtain ⟨awaited, hawaits, hfills⟩ := h
    exact closes_fares hcloses (hscopes ▸ hawaits) hfills

-- ════════════════════════════════════════════════════════════════════════
-- Runs
-- ════════════════════════════════════════════════════════════════════════

theorem exceeded_of_overrun {most : Nat} (h : machine.overrun? s.charge.steps = some most) :
    machine.budget = some most ∧ most < s.charge.steps ∧ most < stepLimit := by
  rw [overrun?, Option.filter_eq_some_iff] at h
  obtain ⟨hbudget, hover⟩ := h
  have hover : most < s.charge.steps := of_decide_eq_true hover
  exact ⟨hbudget, hover, Nat.lt_of_lt_of_le hover (Nat.min_le_right _ _)⟩

/-- Once the budget is exceeded it stays so. -/
theorem Exceeded.advance (h : Exceeded machine s) (fuel : Nat) :
    Exceeded machine (machine.advance fuel s).state := by
  obtain ⟨most, hbudget, hsteps, hlimit⟩ := h
  exact ⟨most, hbudget, advance_steps_ge fuel hlimit hsteps, hlimit⟩

/-- A branch without its condition is only taken off. -/
theorem turn_orphan {thenId elseId : ControlId} (machine : Machine)
    (hscopes : s.scopes = ⟨.branch thenId elseId :: todo, env⟩ :: outer) :
    ∃ error, machine.turn s =
      .failed error (State.charge { s with scopes := ⟨todo, env⟩ :: outer }) := by
  simp only [turn, takeTask?_of_item hscopes]
  split
  · exact ⟨_, rfl⟩
  · exact ⟨_, rfl⟩

/-- After the turn, or after a run that ends with it, operands are missing or the budget is
exceeded. The machine has not halted. -/
def Turn.Spoiled (machine : Machine) : Turn → Prop
  | .next s => Doomed machine.table s
  | .halted _ _ => False
  | .failed _ s => Doomed machine.table s ∨ Exceeded machine s

theorem Doomed.turn (h : Doomed machine.table s) (hsound : machine.table.Sound bound) :
    (machine.turn s).Spoiled machine := by
  cases h with
  | @short missing hlacks =>
    have hfares := hlacks.turn hsound
    generalize machine.turn s = t at hfares ⊢
    cases hfares with
    | next hlacks' => exact .short hlacks'
    | halted hnone => exact absurd hnone (Nat.succ_ne_zero missing)
    | misapplied _ hlacks' => exact .inl (.short hlacks')
    | spoiled _ hdoomed => exact .inl hdoomed
    | @exceeded task taken most htake hbudget =>
      obtain ⟨-, scopes, rfl⟩ := State.takeTask?_scopes htake
      exact .inr ⟨most, exceeded_of_overrun hbudget⟩
  | orphan hscopes hlacks =>
    obtain ⟨error, hturn⟩ := turn_orphan machine hscopes
    rw [hturn]
    exact .inl (.short hlacks)

/-- A machine that lacks operands does not halt. -/
theorem Doomed.advance (h : Doomed machine.table s) (hsound : machine.table.Sound bound)
    (fuel : Nat) : (machine.advance fuel s).Spoiled machine := by
  induction fuel generalizing s with
  | zero => exact h
  | succ fuel ih =>
    have hturn := h.turn hsound
    rw [advance_succ]
    generalize machine.turn s = t at hturn ⊢
    cases t with
    | next s' => exact ih hturn
    | halted v s' => exact hturn
    | failed error s' => exact hturn

-- ════════════════════════════════════════════════════════════════════════
-- The first failures
-- ════════════════════════════════════════════════════════════════════════

/-- As long as a scope is open, the scopes ask for a marker at the bottom. -/
theorem Awaits.bottom {scopes : List Scope} {awaited : List (Option EnvId)}
    (h : Awaits table scopes awaited) (hopen : scopes ≠ []) :
    ∃ env, awaited.getLast? = some (some env) := by
  induction h with
  | nil => exact absurd rfl hopen
  | @cons todo env outer height turns beneath _ houter ih =>
    have hbottom : ∃ e, (some env :: beneath).getLast? = some (some e) := by
      cases beneath with
      | nil => exact ⟨env, rfl⟩
      | cons first rest =>
        have houterOpen : outer ≠ [] := by
          rintro rfl
          cases houter
        obtain ⟨e, he⟩ := ih houterOpen
        exact ⟨e, by rwa [List.getLast?_cons_cons] at he ⊢⟩
    obtain ⟨e, he⟩ := hbottom
    exact ⟨e, getLast?_append_of_some _ he⟩

/-- A machine from which no operand is missing keeps it so until it halts or fails. -/
theorem Lacks.advance (h : Lacks machine.table 0 s) (hsound : machine.table.Sound bound)
    {fuel : Nat} {error : Error} (hrun : machine.advance fuel s = .failed error s') :
    (error.Misapplies ∧ Lacks machine.table 0 s') ∨ (error.Spoils ∧ Doomed machine.table s') ∨
      ∃ most, error = .budgetExhausted most ∧ machine.budget = some most ∧ most < stepLimit ∧
        Spent most s' := by
  obtain ⟨before, last, hbefore, hlast⟩ := exists_last_turn hrun
  have hlacks : Lacks machine.table 0 last := by
    refine advance_next_of_turn (fun s₁ s₂ hturn hs₁ => ?_) hbefore h
    have hfares := hs₁.turn hsound
    rw [hturn] at hfares
    cases hfares with
    | next hs₂ => exact hs₂
  have hfares := hlacks.turn hsound
  rw [hlast] at hfares
  cases hfares with
  | misapplied herror hs' => exact .inl ⟨herror, hs'⟩
  | spoiled herror hs' => exact .inr (.inl ⟨herror, hs'⟩)
  | @exceeded task taken most htake hbudget =>
    obtain ⟨hopen, scopes, rfl⟩ := State.takeTask?_scopes htake
    obtain ⟨hmost, hsteps, hlimit⟩ := exceeded_of_overrun hbudget
    refine .inr (.inr ⟨most, rfl, hmost, hlimit, hsteps, fun _ => ?_⟩)
    -- Nothing is missing, so the operands are exactly those that the open scopes ask for.
    obtain ⟨awaited, hawaits, hsub, hlength⟩ := hlacks
    obtain ⟨env, henv⟩ := hawaits.bottom hopen
    have hkinds : kinds last.operands = awaited :=
      hsub.eq_of_length (by rw [length_kinds]; exact hlength)
    rw [← hkinds, kinds, List.getLast?_map] at henv
    obtain ⟨bottom, hbottom, hmarked⟩ := Option.map_eq_some_iff.1 henv
    cases bottom with
    | value v => cases hmarked
    | marker found => exact ⟨found, hbottom⟩

-- ════════════════════════════════════════════════════════════════════════
-- Repeated runs
-- ════════════════════════════════════════════════════════════════════════

/-- Runs that fail one after the other, each starting where the one before it stopped. They fail
with these errors and leave this state. -/
inductive Failures (machine : Machine) : State → List Error → State → Prop
  | none (s : State) : Failures machine s [] s
  | again {s left later : State} {fuel : Nat} {error : Error} {errors : List Error} :
      machine.advance fuel s = .failed error left → Failures machine left errors later →
      Failures machine s (error :: errors) later

/-- A machine that lacks operands or has exceeded its budget stays so, run after run. -/
theorem Failures.spoiled {errors : List Error} {later : State}
    (h : Failures machine s errors later) (hsound : machine.table.Sound bound)
    (hs : Doomed machine.table s ∨ Exceeded machine s) :
    Doomed machine.table later ∨ Exceeded machine later := by
  induction h with
  | none => exact hs
  | @again s left later fuel error errors hrun _ ih =>
    refine ih ?_
    rcases hs with hdoomed | hexceeded
    · have hspoiled := hdoomed.advance hsound fuel
      rw [hrun] at hspoiled
      exact hspoiled
    · have hleft := hexceeded.advance fuel
      rw [hrun] at hleft
      exact .inr hleft

/-- Runs of a machine from which no operand was missing. It can have come to a value only if all
errors so far were of values that cannot be applied, or the budget is exceeded. -/
theorem Failures.fate {errors : List Error} {later : State}
    (h : Failures machine s errors later) (hsound : machine.table.Sound bound)
    (hs : Lacks machine.table 0 s) (herrors : ∃ error ∈ errors, ¬ error.Misapplies) :
    Doomed machine.table later ∨ Exceeded machine later := by
  induction h with
  | none =>
    obtain ⟨error, herror, -⟩ := herrors
    cases herror
  | @again s left later fuel error errors hrun hrest ih =>
    rcases hs.advance hsound hrun with
      ⟨hmisapplies, hleft⟩ | ⟨-, hdoomed⟩ | ⟨most, -, hbudget, hlimit, hspent⟩
    · refine ih hleft ?_
      obtain ⟨other, hother, hnot⟩ := herrors
      rcases List.mem_cons.1 hother with rfl | hmem
      · exact absurd hmisapplies hnot
      · exact ⟨other, hmem, hnot⟩
    · exact hrest.spoiled hsound (.inl hdoomed)
    · exact hrest.spoiled hsound (.inr ⟨most, hbudget, hspent.steps, hlimit⟩)

/-- A budget that is spent stays so, run after run. -/
theorem Failures.spent {errors : List Error} {later : State} {most : Nat}
    (h : Failures machine s errors later) (hbudget : machine.budget = some most)
    (hlimit : most < stepLimit) (hs : Spent most s) : Spent most later := by
  obtain ⟨table, budget⟩ := machine
  cases hbudget
  induction h with
  | none => exact hs
  | @again s left later fuel error errors hrun _ ih =>
    obtain ⟨error', s', hfails, -, hspent⟩ := hs.advance table hlimit
    cases fuel with
    | zero => cases hrun
    | succ fuel =>
      cases hrun.symm.trans (hfails _ (Nat.succ_pos fuel))
      exact ih hspent

/-- Runs of a machine from which no operand was missing. If the budget stops one before any error
but those of values that cannot be applied, it is spent. -/
theorem Failures.spent_of_exhausted {before after : List Error} {later : State} {most : Nat}
    (h : Failures machine s (before ++ .budgetExhausted most :: after) later)
    (hsound : machine.table.Sound bound) (hs : Lacks machine.table 0 s)
    (hbefore : ∀ error ∈ before, error.Misapplies) :
    machine.budget = some most ∧ most < stepLimit ∧ Spent most later := by
  induction before generalizing s with
  | nil =>
    cases h with
    | again hrun hrest =>
      rcases hs.advance hsound hrun with
        ⟨hmisapplies, -⟩ | ⟨hspoils, -⟩ | ⟨most', heq, hbudget, hlimit, hspent⟩
      · exact hmisapplies.elim
      · exact hspoils.elim
      · cases heq
        exact ⟨hbudget, hlimit, hrest.spent hbudget hlimit hspent⟩
  | cons error before ih =>
    cases h with
    | again hrun hrest =>
      have herror := hbefore error List.mem_cons_self
      rcases hs.advance hsound hrun with
        ⟨-, hleft⟩ | ⟨hspoils, -⟩ | ⟨most', rfl, -⟩
      · exact ih hrest hleft fun e he => hbefore e (List.mem_cons_of_mem _ he)
      · exact absurd herror hspoils.not_misapplies
      · exact herror.elim

/-- A machine starts with all operands that its scopes ask for. -/
theorem lacks_of_load {settings : Settings} {entry : Structure}
    (hload : load table settings = .ok (machine, s)) (hentry : table.entry? = some entry)
    (hcomputes : Computes table entry.executionOrder 0 turns) : Lacks table 0 s := by
  rw [load, hentry] at hload
  simp only at hload
  split at hload
  · cases hload
  · cases hload
    exact ⟨_, .cons hcomputes .nil, .refl _, rfl⟩

end Machine

end EagerLambda
