import EagerLambda.Control.Fragment
import EagerLambda.Proofs.Environment.Arena
import EagerLambda.Proofs.Machine.Budget
import EagerLambda.Proofs.Machine.Provenance

/-!
# What functions capture

A run does nothing to its environments but open more of them, so what names are bound to in an
environment stays as it is once the environment is there. The environment in which a function is
made is there when the function is made. So a function sees the same bindings whenever it is called.

## Main definitions

- `Machine.Settled` — what names are bound to in an environment does not change any more

## Main statements

- `Machine.exists_opened` — a run only opens environments
- `Machine.environments_faithful` — environments do what their ledger says, and what functions have
  captured does not change
-/

namespace EagerLambda

open Control

namespace Machine

open Environments (Call extensions after)

/-- In the rest of the run, what names are bound to in the environment does not change. -/
def Settled (machine : Machine) (s : State) (env : EnvId) : Prop :=
  ∀ fuel name, (machine.advance fuel s).state.envs.lookup env name = s.envs.lookup env name

variable {machine : Machine} {table : Table} {s s' start : State} {settings : Settings}

-- ════════════════════════════════════════════════════════════════════════
-- Environments of a run
-- ════════════════════════════════════════════════════════════════════════

/-- A step that fails to open an environment leaves them as they are. -/
theorem envs_of_fault {fault : MachineFault} (h : machine.turn s = .failed (.machine fault) s') :
    s'.envs = s.envs := by
  have hmove := turn_move machine s
  rw [h] at hmove
  cases hmove with
  | halt _ hfinish =>
    have hstate := finish_envs s
    rwa [← hfinish] at hstate
  | item _ _ hfires =>
    cases hfires with
    | fail hbreaks _ _ => exact hbreaks.envs
    | astray _ _ _ hbreaks => exact hbreaks.envs
  | leave _ _ hcloses =>
    cases hcloses with
    | mismatch => rfl
    | fail hbreaks _ _ => exact hbreaks.envs

theorem load_envs (h : load table settings = .ok (machine, start)) :
    start.envs = after settings.primitives (settings.bindings.map .bindRoot) := by
  rw [load] at h
  split at h
  · cases h
  · split at h
    · cases h
    · cases h
      rw [after, List.foldl_map]
      rfl

/-- A run only opens environments. -/
theorem exists_opened (machine : Machine) {primitives : Bool} {calls : List Call}
    (hs : s.envs = after primitives calls) (fuel : Nat) :
    ∃ opened, (machine.advance fuel s).state.envs =
      after primitives (calls ++ extensions opened) := by
  refine advance_state_of_turn
    (P := fun s => ∃ opened, s.envs = after primitives (calls ++ extensions opened))
    (fun s hs => ?_) fuel ⟨[], by rw [hs, extensions, List.map_nil, List.append_nil]⟩
  obtain ⟨opened, hs⟩ := hs
  rcases turn_state_envs machine s with henvs | ⟨parent, bindings, hfault, henvs⟩
  · exact ⟨opened, henvs.trans hs⟩
  · refine ⟨opened ++ [(parent, bindings)], ?_⟩
    have hstep := Environments.after_append primitives (calls ++ extensions opened)
      [.extend parent bindings]
    rw [List.append_assoc, ← hs] at hstep
    rw [henvs, ← Environments.perform_extend hfault, extensions, List.map_append]
    exact hstep.symm

theorem settled_of_lt {primitives : Bool} {calls : List Call}
    (hs : s.envs = after primitives calls) {env : EnvId} (henv : env.index < s.envs.size) :
    Settled machine s env := by
  intro fuel name
  obtain ⟨opened, hlater⟩ := exists_opened machine hs fuel
  rw [hs] at henv ⊢
  rw [hlater]
  exact Environments.lookup_after_extensions henv opened name

/-- **Environments do what was asked for.** After any operations, the value of a name in an
environment is the one that the ledger of the operations says; the way outward comes to an end;
opening an environment changes no value in another; binding a name at the root changes only its own
value, where the way outward gets to the root; and an operation that fails has no effect. A run
only opens environments, whatever the table, and a step that fails to do so leaves them as they
are. So what names are bound to in an environment does not change once it is there, and every
function that the run makes was made in one that is there. If the host binds no functions, this is
so for every function on the operand stack or in the environments. -/
theorem environments_faithful :
    (∀ (primitives : Bool) (calls : List Call),
      (after primitives calls).Faithful (Ledger.after primitives calls)) ∧
    ∀ (table : Table) (settings : Settings) (machine : Machine) (start : State),
      load table settings = .ok (machine, start) →
        ∀ fuel s, machine.advance fuel start = .next s →
          (∃ opened, s.envs =
            after settings.primitives (settings.bindings.map .bindRoot ++ extensions opened)) ∧
          (∀ env, env.index < s.envs.size → Settled machine s env) ∧
          (∀ fault s', machine.turn s = .failed (.machine fault) s' → s'.envs = s.envs) ∧
          (∀ c, s.made? = some c → Settled machine s c.env) ∧
          (settings.Codeless → s.All fun c => Settled machine s c.env) := by
  refine ⟨Environments.faithful_after, fun table settings machine start hload fuel s hrun => ?_⟩
  obtain ⟨opened, henvs⟩ := exists_opened machine (load_envs hload) fuel
  rw [hrun] at henvs
  have hsettled : ∀ env, env.index < s.envs.size → Settled machine s env :=
    fun env henv => settled_of_lt henvs henv
  have hnested := advance_nested hrun (load_nested hload)
  refine ⟨⟨opened, henvs⟩, hsettled, fun fault s' hfault => envs_of_fault hfault,
    fun c hc => hsettled c.env ?_, fun hcode => ?_⟩
  · exact hnested.current_lt (State.env_of_made? hc)
  · obtain ⟨rfl, -, -⟩ := load_budget hload none
    have htraced := advance_traced hrun (load_traced hcode hload)
    exact State.Throughout.all (htraced.functions.mono fun u hu =>
      hu.mono fun c hc => hsettled c.env hc.2)

/-- A function that ignores its argument and gives a number instead that it has captured, applied in
a scope that binds the name of this number to another one. -/
def constantApplied : Tree :=
  let function : Tree := .identifier ⟨17⟩
  let x : Tree := .identifier ⟨18⟩
  let y : Tree := .identifier ⟨19⟩
  .apply (.apply (.lambda function (.lambda x (.apply function x)))
    (.apply (.lambda x (.lambda y x)) (.leaf (.integer 1)))) (.leaf (.integer 2))

theorem constantApplied_settled :
    (∃ arena : Environments, arena = after false [.bindRoot (⟨18⟩, .integer 1),
        .extend .root [(⟨17⟩, .nil), (⟨17⟩, .dummy)], .extend ⟨5⟩ [], .extend ⟨1⟩ []] ∧
      arena.size = 3 ∧ arena.lookup ⟨2⟩ ⟨17⟩ = some .dummy ∧
      (arena.bindRoot (⟨18⟩, .integer 2)).lookup ⟨2⟩ ⟨18⟩ = some (.integer 2) ∧
      (arena.bindRoot (⟨17⟩, .integer 2)).lookup ⟨2⟩ ⟨17⟩ = arena.lookup ⟨2⟩ ⟨17⟩) ∧
    ∃ table machine start s, Table.ofTree constantApplied = .ok table ∧
      load table {} = .ok (machine, start) ∧ machine.advance 4 start = .next s ∧
      s.made? = some ⟨⟨4⟩, [⟨19⟩], ⟨1⟩⟩ ∧
      ∀ fuel, (machine.advance fuel s).state.envs.lookup ⟨1⟩ ⟨18⟩ = some (.integer 1) := by
  obtain ⟨harena, hruns⟩ := environments_faithful
  constructor
  · have hfaithful := harena false [.bindRoot (⟨18⟩, .integer 1),
      .extend .root [(⟨17⟩, .nil), (⟨17⟩, .dummy)], .extend ⟨5⟩ [], .extend ⟨1⟩ []]
    refine ⟨_, rfl, rfl, rfl, hfaithful.bound _ _ _ ?_, hfaithful.kept _ _ _ _ (.inr ?_)⟩
    · -- Neither environment on the way to the root lists the name.
      refine .outer (by decide) rfl ?_ rfl (.outer (by decide) rfl ?_ rfl .root)
      · rintro ⟨v, hv⟩
        cases hv
      · rintro ⟨v, hv⟩
        simp at hv
    · intro hreaches
      obtain ⟨-, parent, hparent, houter⟩ :=
        (Ledger.reaches_iff (by decide) rfl).1 hreaches
      cases hparent
      obtain ⟨hlists, -⟩ := (Ledger.reaches_iff (by decide) rfl).1 houter
      exact hlists ⟨_, List.mem_cons_self⟩
  · obtain ⟨table, machine, start, s, htable, hload, hadvance, hmade, hbound⟩ :
        ∃ table machine start s, Table.ofTree constantApplied = .ok table ∧
          load table {} = .ok (machine, start) ∧ machine.advance 4 start = .next s ∧
          s.made? = some ⟨⟨4⟩, [⟨19⟩], ⟨1⟩⟩ ∧
          s.envs.lookup ⟨1⟩ ⟨18⟩ = some (.integer 1) :=
      ⟨_, _, _, _, rfl, rfl, rfl, rfl, rfl⟩
    obtain ⟨-, -, -, hsettled, -⟩ := hruns table {} machine start hload 4 s hadvance
    exact ⟨table, machine, start, s, htable, hload, hadvance, hmade,
      fun fuel => (hsettled _ hmade fuel ⟨18⟩).trans hbound⟩

end Machine

end EagerLambda
