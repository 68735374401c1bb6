import EagerLambda.Proofs.Environment.Relation
import EagerLambda.Proofs.Machine.Effect

/-!
# The markers of the open scopes

Both stacks hold one marker for each scope that is open: on the control stack it is the entry that
closes the scope, on the operand stack it lies beneath the values of the scope. Whatever the control
table says, the two stacks hold the markers in the same order, a scope is newer than those around
it, and the outermost scope is that of the root. So a result that is taken off never lies above the
marker of another scope, and when the last scope is closed its result is all that is left.

## Main definitions

- `Machine.State.tasks` — the control stack as one sequence
- `Machine.State.controlMarkers`, `Machine.State.operandMarkers` — the markers on the two stacks
- `Machine.Nested` — the open scopes lie one within the other
- `Machine.Disciplined` — what that means for the two stacks
- `Error.OfMarkers` — the errors of a machine whose markers are in disorder

## Main statements

- `Machine.turn_nested` — a turn keeps the scopes nested
- `Machine.turn_not_ofMarkers` — with nested scopes, no turn fails because of its markers
- `Machine.load_disciplined` — the discipline of a whole run
-/

namespace EagerLambda

open Control

/-- The errors of a machine whose markers are in disorder: there is no current environment, the
marker beneath a result is that of another scope, or not exactly one operand is left at the end. -/
def Error.OfMarkers : Error → Prop
  | .machine .noCurrentEnvironment => True
  | .machine (.markerMismatch ..) => True
  | .machine (.leftover _) => True
  | _ => False

namespace Machine

-- ════════════════════════════════════════════════════════════════════════
-- The control stack as one sequence
-- ════════════════════════════════════════════════════════════════════════

/-- The entries of the control stack that belong to a scope, the top one first. -/
def Scope.tasks (scope : Scope) : List Task := scope.todo.map .item ++ [.leave scope.env]

/-- The control stack as one sequence, the top entry first. -/
def State.tasks (s : State) : List Task := s.scopes.flatMap Scope.tasks

/-- The environment that an entry of the control stack closes. -/
def Task.closed? : Task → Option EnvId
  | .item _ => none
  | .leave env => some env

/-- The environments whose scopes are closed by the control stack, from the bottom to the top. -/
def State.controlMarkers (s : State) : List EnvId := (s.tasks.filterMap Task.closed?).reverse

/-- The environments whose markers lie on the operand stack, from the bottom to the top. -/
def State.operandMarkers (s : State) : List EnvId :=
  (s.operands.filterMap Operand.marked?).reverse

variable {s s' : State} {t : Turn} {looked : Option Name} {machine : Machine} {table : Table}

namespace State

theorem tasks_of_scopes {scope : Scope} {outer : List Scope} (h : s.scopes = scope :: outer) :
    s.tasks = scope.todo.map .item ++ .leave scope.env :: outer.flatMap Scope.tasks := by
  rw [tasks, h, List.flatMap_cons, Scope.tasks, List.append_assoc, List.singleton_append]

theorem tasks_eq_nil : s.tasks = [] ↔ s.scopes = [] := by
  cases h : s.scopes with
  | nil => simp [tasks, h]
  | cons scope outer => simp [tasks_of_scopes h]

/-- The entry that is taken next is the first of the sequence. -/
theorem tasks_of_takeTask? {task : Task} (h : s.takeTask? = some (task, s')) :
    s.tasks = task :: s'.tasks := by
  unfold takeTask? at h
  split at h
  · cases h
  · next hs =>
    cases h
    exact tasks_of_scopes hs
  · next hs =>
    cases h
    rw [tasks_of_scopes hs, tasks_of_scopes rfl]
    rfl

theorem takeTask?_eq_none : s.takeTask? = none ↔ s.scopes = [] := by
  unfold takeTask?
  split <;> simp [*]

/-- The first entry of the sequence is taken next, and leaves the others. -/
theorem takeTask?_of_tasks {task : Task} {rest : List Task} (h : s.tasks = task :: rest) :
    ∃ taken, s.takeTask? = some (task, taken) ∧ taken.tasks = rest := by
  cases htake : s.takeTask? with
  | none =>
    rw [tasks_eq_nil.2 (takeTask?_eq_none.1 htake)] at h
    cases h
  | some entry =>
    obtain ⟨first, taken⟩ := entry
    rw [tasks_of_takeTask? htake] at h
    obtain ⟨rfl, rfl⟩ := List.cons.inj h
    exact ⟨taken, rfl, rfl⟩

theorem filterMap_tasks (s : State) : s.tasks.filterMap Task.closed? = s.scopes.map Scope.env := by
  have hitems : ∀ items : List Item, (items.map Task.item).filterMap Task.closed? = [] := by
    intro items
    rw [List.filterMap_map]
    exact List.filterMap_eq_nil_iff.2 fun _ _ => rfl
  rw [tasks]
  induction s.scopes with
  | nil => rfl
  | cons scope outer ih =>
    rw [List.flatMap_cons, List.filterMap_append, Scope.tasks, List.filterMap_append, hitems, ih]
    rfl

theorem controlMarkers_eq (s : State) :
    s.controlMarkers = (s.scopes.map Scope.env).reverse := by
  rw [controlMarkers, filterMap_tasks]

/-- The entry at the bottom of the control stack closes the outermost scope. -/
theorem getLast?_tasks {env : EnvId} (h : (s.scopes.map Scope.env).getLast? = some env) :
    s.tasks.getLast? = some (.leave env) := by
  rw [List.getLast?_map] at h
  obtain ⟨last, hlast, rfl⟩ := Option.map_eq_some_iff.1 h
  obtain ⟨inner, hscopes⟩ := List.getLast?_eq_some_iff.1 hlast
  rw [tasks, hscopes, List.flatMap_append, List.flatMap_singleton, Scope.tasks, ← List.append_assoc,
    List.getLast?_concat]

end State

-- ════════════════════════════════════════════════════════════════════════
-- Nested scopes
-- ════════════════════════════════════════════════════════════════════════

/-- The open scopes lie one within the other, down to that of the root, and names are looked up in
the innermost. When no scope is open, a single value is left. -/
structure Nested (s : State) : Prop extends Balanced s where
  newer : (s.scopes.map Scope.env).Pairwise fun inner outer => outer.index < inner.index
  opened : ∀ env ∈ s.scopes.map Scope.env, env.index < s.envs.size
  outermost : s.scopes ≠ [] → (s.scopes.map Scope.env).getLast? = some .root
  current : s.current = (s.scopes.map Scope.env).head?
  result : s.scopes = [] → ∃ value, s.operands = [.value value]

/-- The rule for an item of an open scope keeps the scopes nested. -/
theorem Effect.nested (h : Effect looked s (.next s')) (hs : Nested s) (hopen : s.scopes ≠ []) :
    Nested s' := by
  have hbalanced := h.balanced hs.toBalanced hopen
  cases h with
  | @compute popped pushed rest scopes shown hoperands hscopes =>
    obtain ⟨henvs, -⟩ := hscopes
    have hstill : scopes ≠ [] := scopes_ne_nil henvs.symm hopen
    exact ⟨hbalanced, henvs ▸ hs.newer, henvs ▸ hs.opened, fun _ => henvs ▸ hs.outermost hopen,
      henvs ▸ hs.current, fun hnone => absurd hnone hstill⟩
  | @enter popped rest outer parent todo bindings hoperands hfault hscopes =>
    obtain ⟨henvs, -⟩ := hscopes
    have hsize : (s.envs.push parent bindings).size = s.envs.size + 1 :=
      Environments.size_push s.envs parent bindings
    refine ⟨hbalanced, ?_, ?_, fun _ => ?_, rfl, fun hnone => absurd hnone (List.cons_ne_nil _ _)⟩
    · -- The new scope is newer than any that was open before.
      rw [List.map_cons, henvs]
      exact List.pairwise_cons.2 ⟨hs.opened, hs.newer⟩
    · intro env henv
      rw [List.map_cons, henvs] at henv
      rw [hsize]
      rcases List.mem_cons.1 henv with rfl | henv
      · exact Nat.lt_succ_self s.envs.size
      · exact Nat.lt_succ_of_lt (hs.opened env henv)
    · rw [List.map_cons, henvs]
      exact getLast?_append_of_some [_] (hs.outermost hopen)

theorem eq_nil_of_unmarked {operands : List Operand} {env : EnvId}
    (hmarkers : operands.filterMap Operand.marked? = [])
    (hbottom : operands ≠ [] → operands.getLast? = some (.marker env)) : operands = [] := by
  by_contra hne
  have hmem : Operand.marker env ∈ operands := List.mem_of_getLast? (hbottom hne)
  cases List.filterMap_eq_nil_iff.1 hmarkers _ hmem

/-- Closing the innermost scope keeps the scopes nested. -/
theorem Closes.nested {env : EnvId} {outer : List Scope}
    (h : Closes env { s with scopes := outer } (.next s')) (hs : Nested s)
    (hscopes : s.scopes = ⟨[], env⟩ :: outer) : Nested s' := by
  have hbalanced := h.balanced hs.toBalanced hscopes
  have hnewer := hs.newer
  have hopened := hs.opened
  have houtermost := hs.outermost (by rw [hscopes]; exact List.cons_ne_nil _ _)
  rw [hscopes, List.map_cons] at hnewer hopened houtermost
  cases h with
  | @closed result rest hoperands =>
    have hoperands : s.operands = .value result :: .marker env :: rest := hoperands
    refine ⟨hbalanced, hnewer.of_cons, fun e he => hopened e (List.mem_cons_of_mem _ he),
      fun hne => ?_, List.head?_map.symm, fun hnone => ⟨result, ?_⟩⟩
    · have hmap : outer.map Scope.env ≠ [] := fun hnil => hne (List.map_eq_nil_iff.1 hnil)
      rwa [List.getLast?_cons_of_ne_nil hmap] at houtermost
    · -- No marker is left, and the one at the bottom was that of the scope.
      subst hnone
      have hrest : rest.filterMap Operand.marked? = [] := hbalanced.markers
      obtain ⟨below, hbelow⟩ := hs.bottom (by rw [hscopes]; exact List.cons_ne_nil _ _)
      have hnil : rest = [] := eq_nil_of_unmarked hrest fun hne => by
        rwa [hoperands, List.getLast?_cons_cons, List.getLast?_cons_of_ne_nil hne] at hbelow
      rw [hnil]

/-- A turn keeps the scopes nested. -/
theorem turn_nested (h : machine.turn s = .next s') (hs : Nested s) : Nested s' := by
  cases turn_continues h with
  | @item item scope outer _ hscopes heffect =>
    obtain ⟨henvs, -⟩ := hscopes
    have hstill : s.scopes ≠ [] := scopes_ne_nil henvs (List.cons_ne_nil scope outer)
    have htaken : Nested (State.charge { s with scopes := scope :: outer }) :=
      ⟨⟨hs.markers.trans henvs.symm, fun _ => hs.bottom hstill⟩, henvs ▸ hs.newer,
        henvs ▸ hs.opened, fun _ => henvs ▸ hs.outermost hstill, henvs ▸ hs.current,
        fun hnone => absurd hnone (List.cons_ne_nil scope outer)⟩
    exact heffect.nested htaken (List.cons_ne_nil scope outer)
  | close _ hscopes hcloses =>
    have hcharged : Nested s.charge := { hs with }
    exact Closes.nested (s := s.charge) hcloses hcharged hscopes

/-- A run keeps the scopes nested. -/
theorem advance_nested {fuel : Nat} (h : machine.advance fuel s = .next s') (hs : Nested s) :
    Nested s' :=
  advance_next_of_turn (fun _ _ => turn_nested) h hs

/-- The machine starts in the scope of the root. -/
theorem load_nested {settings : Settings} (h : load table settings = .ok (machine, s)) :
    Nested s := by
  have hbalanced := load_balanced h
  unfold load at h
  split at h
  · cases h
  · split at h
    · cases h
    · cases h
      have hsize : settings.environments.size = 1 := settings.size_environments
      refine ⟨hbalanced, List.pairwise_singleton _ _, fun env henv => ?_, fun _ => rfl, rfl,
        fun hnone => absurd hnone (List.cons_ne_nil _ _)⟩
      obtain rfl := List.mem_singleton.1 henv
      rw [hsize]
      exact Nat.zero_lt_one

-- ════════════════════════════════════════════════════════════════════════
-- Errors that cannot happen
-- ════════════════════════════════════════════════════════════════════════

/-- With nested scopes, a machine that has nothing left to be done halts with its only value. -/
theorem Nested.halt (hs : Nested s) (machine : Machine) (h : s.tasks = []) :
    ∃ value, s.operands = [.value value] ∧
      machine.turn s = .halted value { s with operands := [] } := by
  have hscopes := State.tasks_eq_nil.1 h
  obtain ⟨value, hvalue⟩ := hs.result hscopes
  refine ⟨value, hvalue, ?_⟩
  rw [turn, State.takeTask?_eq_none.2 hscopes]
  simp only [finish, hvalue, State.withValue]

theorem not_ofMarkers_of_ofRule {error : Error} {env : EnvId} (h : error.OfRule (some env)) :
    ¬ error.OfMarkers := by
  cases error with
  | machine fault =>
    cases fault with
    | noCurrentEnvironment => cases h
    | markerMismatch closing found => exact h.elim
    | leftover count => exact h.elim
    | _ => exact not_false
  | _ => exact not_false

/-- With nested scopes, no turn fails because of the markers. -/
theorem turn_not_ofMarkers {error : Error} (h : machine.turn s = .failed error s')
    (hs : Nested s) : ¬ error.OfMarkers := by
  have hcurrent : s.scopes ≠ [] → ∃ env, s.current = some env := fun hopen => by
    rw [hs.current]
    exact Option.isSome_iff_exists.1 (by simpa using hopen)
  have hcourse := turn_course machine s
  rw [h] at hcourse
  cases hcourse with
  | halt hnone hfinish =>
    obtain ⟨value, -, hhalt⟩ := hs.halt machine
      (State.tasks_eq_nil.2 (State.takeTask?_eq_none.1 hnone))
    cases h.symm.trans hhalt
  | exceed budget _ => exact not_false
  | item htake hscopes heffect =>
    obtain ⟨env, henv⟩ := hcurrent (State.takeTask?_scopes htake).1
    cases heffect with
    | unbound => exact not_false
    | fail herror =>
      have hrule : error.OfRule s.current := herror
      exact not_ofMarkers_of_ofRule (henv ▸ hrule)
  | @close env outer _ htake hscopes hcloses =>
    obtain ⟨current, hcurrent⟩ := hcurrent (State.takeTask?_scopes htake).1
    cases hcloses with
    | @mismatch result found rest hoperands hfound =>
      -- The innermost scope is the one being closed, and the topmost marker is its own.
      have hoperands : s.operands = .value result :: .marker found :: rest := hoperands
      have hmarkers := hs.markers
      rw [hoperands, hscopes] at hmarkers
      exact absurd (List.cons.inj hmarkers).1 hfound
    | fail hbreaks =>
      have hrule : error.OfRule s.current := hbreaks.ofRule
      exact not_ofMarkers_of_ofRule (hcurrent ▸ hrule)

-- ════════════════════════════════════════════════════════════════════════
-- The discipline of a run
-- ════════════════════════════════════════════════════════════════════════

/-- The discipline of the markers on the two stacks. -/
structure Disciplined (s : State) : Prop where
  same : s.operandMarkers = s.controlMarkers
  increasing : s.controlMarkers.Pairwise fun outer inner => outer.index < inner.index
  existing : ∀ env ∈ s.controlMarkers, env.index < s.envs.size
  bottom : s.tasks ≠ [] →
    s.tasks.getLast? = some (.leave .root) ∧ s.operands.getLast? = some (.marker .root)
  current : s.current = s.controlMarkers.getLast?
  result : s.tasks = [] → ∃ value, s.operands = [.value value]

/-- The marker at the bottom of the operand stack is that of the outermost scope. -/
theorem Balanced.bottom_eq (hs : Balanced s) {env : EnvId}
    (h : (s.scopes.map Scope.env).getLast? = some env) :
    s.operands.getLast? = some (.marker env) := by
  have hopen : s.scopes ≠ [] := by
    rintro hnil
    rw [hnil] at h
    cases h
  obtain ⟨found, hfound⟩ := hs.bottom hopen
  obtain ⟨above, habove⟩ := List.getLast?_eq_some_iff.1 hfound
  have hmarkers := hs.markers
  rw [habove, List.filterMap_append] at hmarkers
  have hlast : (s.scopes.map Scope.env).getLast? = some found := by
    rw [← hmarkers]
    exact List.getLast?_concat
  rw [hfound, Option.some.inj (hlast.symm.trans h)]

/-- Nested scopes keep the discipline of the markers. -/
theorem Nested.disciplined (hs : Nested s) : Disciplined s := by
  have hcontrol := s.controlMarkers_eq
  refine ⟨?_, ?_, fun env henv => ?_, fun hopen => ?_, ?_, fun hnone => ?_⟩
  · rw [hcontrol, State.operandMarkers, hs.markers]
  · rw [hcontrol]
    exact List.pairwise_reverse.2 hs.newer
  · rw [hcontrol] at henv
    exact hs.opened env (List.mem_reverse.1 henv)
  · have houtermost := hs.outermost fun hnil => hopen (State.tasks_eq_nil.2 hnil)
    exact ⟨State.getLast?_tasks houtermost, hs.bottom_eq houtermost⟩
  · rw [hcontrol, List.getLast?_reverse]
    exact hs.current
  · exact hs.result (State.tasks_eq_nil.1 hnone)

/-- **The discipline of the markers.** Whatever the control table and the bindings, the markers on
the two stacks are the same in every state between two steps of a run: the scopes of existing
environments, each newer than those beneath, down to that of the root as long as something is left
to be done, with the current environment on top. So no run fails because of its markers, and a run
that has nothing left to be done halts with its only operand. -/
theorem load_disciplined {settings : Settings} {start : State}
    (hload : load table settings = .ok (machine, start)) :
    (∀ fuel s, machine.advance fuel start = .next s → Disciplined s ∧
      (s.tasks = [] → ∃ value, machine.turn s = .halted value { s with operands := [] })) ∧
    ∀ fuel error s, machine.advance fuel start = .failed error s → ¬ error.OfMarkers := by
  have hstart := load_nested hload
  refine ⟨fun fuel s hrun => ?_, fun fuel error s hrun => ?_⟩
  · have hs := advance_nested hrun hstart
    refine ⟨hs.disciplined, fun hnone => ?_⟩
    obtain ⟨value, -, hhalt⟩ := hs.halt machine hnone
    exact ⟨value, hhalt⟩
  · obtain ⟨before, last, hbefore, hlast⟩ := exists_last_turn hrun
    exact turn_not_ofMarkers hlast (advance_nested hbefore hstart)

/-- A table that is the layout of no tree: its two structures refer to each other in a circle, and
one of them has a branch without a condition. -/
def circular : Table :=
  .ofItems [[.binary .add, .gamma, .lambda ⟨1⟩ [⟨17⟩], .load (.integer 2)],
    [.branch ⟨0⟩ ⟨1⟩, .gamma, .lambda ⟨0⟩ [], .load .nil]]

theorem circular_disciplined : ∃ machine start s,
    load circular { budget := some 6 } = .ok (machine, start) ∧
      machine.advance 6 start = .next s ∧ Disciplined s ∧ s.operandMarkers = [⟨0⟩, ⟨1⟩, ⟨2⟩] ∧
      ∃ error s', machine.advance 7 start = .failed error s' ∧ ¬ error.OfMarkers := by
  have hload : load circular { budget := some 6 } = .ok _ := rfl
  obtain ⟨hnext, hfailed⟩ := load_disciplined hload
  exact ⟨_, _, _, hload, rfl, (hnext 6 _ rfl).1, rfl, _, _, rfl, hfailed 7 _ _ rfl⟩

end Machine

end EagerLambda
