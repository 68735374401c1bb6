import EagerLambda.Proofs.Machine.Effect
import EagerLambda.Proofs.Machine.Lockstep

/-!
# Unbound names

The machine finds a name unbound only when it loads an identifier that no environment outward from
the current one binds. A name that is bound at the root is never unbound, since every environment is
opened inside one that leads to the root. Which other names are bound in an environment is a matter
of the scopes of the program text: a program is in step with itself, so an identifier that is
executed is looked up where the functions around it in the text have bound their names.

## Main definitions

- `Environments.BindsEverywhere` — a name has a value in every environment

## Main statements

- `Machine.turn_unbound` — when a turn fails because a name is not bound
- `Machine.advance_bindsEverywhere` — a name that is bound at the root is bound everywhere
- `Machine.InStep.free_of_unbound` — a name that is not bound is free in the program
-/

namespace EagerLambda

open Control

-- ════════════════════════════════════════════════════════════════════════
-- Names bound everywhere
-- ════════════════════════════════════════════════════════════════════════

namespace Environments

variable {Code : Type} {envs : Environments Code} {x : Name} {v : Value Code}

/-- The name has a value in every environment. -/
def BindsEverywhere (envs : Environments Code) (x : Name) : Prop :=
  ∀ env : EnvId, env.index < envs.size → ∃ v, envs.lookup env x = some v

/-- A name that was found is found on a longer path outward. -/
theorem search_succ {depth : Nat} {env : EnvId} (h : envs.search x depth env = some v) :
    envs.search x (depth + 1) env = some v := by
  induction depth generalizing env with
  | zero => cases h
  | succ depth ih =>
    rw [search] at h ⊢
    split at h
    · cases h
    · split at h
      · exact h
      · split at h
        · cases h
        · exact ih h

theorem search_mono {depth depth' : Nat} {env : EnvId} (h : envs.search x depth env = some v)
    (hle : depth ≤ depth') : envs.search x depth' env = some v := by
  induction hle with
  | refl => exact h
  | step _ ih => exact search_succ ih

/-- A name that was found is found after an environment was opened. -/
theorem search_push {depth : Nat} {env : EnvId} (h : envs.search x depth env = some v)
    (parent : EnvId) (bindings : List (Binding Code)) :
    (envs.push parent bindings).search x depth env = some v := by
  induction depth generalizing env with
  | zero => cases h
  | succ depth ih =>
    rw [search] at h ⊢
    cases hframe : envs.frames[env.index]? with
    | none =>
      rw [hframe] at h
      cases h
    | some frame =>
      rw [hframe] at h
      rw [frame_push hframe]
      simp only at h ⊢
      split at h
      · exact h
      · split at h
        · cases h
        · exact ih h

theorem BindsEverywhere.push (h : envs.BindsEverywhere x) {parent : EnvId}
    (hparent : parent.index < envs.size) (bindings : List (Binding Code)) :
    (envs.push parent bindings).BindsEverywhere x := by
  intro env henv
  rw [size_push] at henv
  by_cases hold : env.index < envs.size
  · obtain ⟨v, hv⟩ := h env hold
    exact ⟨v, search_push hv parent bindings⟩
  · -- The new environment leads on to one that was open already.
    have hnew : env.index = envs.size := Nat.le_antisymm (Nat.le_of_lt_succ henv)
      (Nat.le_of_not_lt hold)
    obtain ⟨v, hv⟩ := h parent hparent
    have houter := search_push (search_mono hv hparent) parent bindings
    have hframe : (envs.push parent bindings).frames[env.index]? =
        some (.ofBindings (some parent) bindings) := by
      rw [hnew, frame_push_size]
    rw [lookup, search, hframe]
    simp only
    split
    · exact ⟨_, rfl⟩
    · exact ⟨v, hnew ▸ houter⟩

end Environments

namespace Machine

variable {machine : Machine} {s s' : State} {x : Name}

-- ════════════════════════════════════════════════════════════════════════
-- The turn that fails
-- ════════════════════════════════════════════════════════════════════════

theorem eq_load_of_looked? {item : Item} (h : item.looked? = some x) :
    item = .load (.identifier x) := by
  unfold Item.looked? at h
  split at h
  · cases h
    rfl
  · cases h

theorem finish_ne_unbound (s : State) : finish s ≠ .failed (.unboundVariable x) s' := by
  obtain ⟨scopes, operands, envs, current, steps, shown⟩ := s
  match operands with
  | [] | [.value _] | [.marker _] | _ :: _ :: _ => exact nofun

/-- A turn fails because a name is not bound only if it loads the name as an identifier. -/
theorem turn_unbound (h : machine.turn s = .failed (.unboundVariable x) s') :
    ∃ taken env, s.takeTask? = some (.item (.load (.identifier x)), taken) ∧
      s.current = some env ∧ s.envs.lookup env x = none := by
  have hcourse := turn_course machine s
  rw [h] at hcourse
  cases hcourse with
  | halt _ hfinish => exact absurd hfinish.symm (finish_ne_unbound s)
  | item htake _ heffect =>
    cases heffect with
    | @unbound _ env _ hlooked hcurrent hlookup =>
      rw [eq_load_of_looked? hlooked] at htake
      exact ⟨_, env, htake, hcurrent, hlookup⟩
    | fail herror => exact herror.elim
  | close _ _ hcloses =>
    cases hcloses with
    | fail hbreaks => exact hbreaks.ofRule.elim

-- ════════════════════════════════════════════════════════════════════════
-- Runs
-- ════════════════════════════════════════════════════════════════════════

/-- A name that is bound in every environment stays so. -/
theorem advance_bindsEverywhere {fuel : Nat} (h : machine.advance fuel s = .next s')
    (hs : s.envs.BindsEverywhere x) : s'.envs.BindsEverywhere x := by
  refine advance_next_of_turn (P := fun s => s.envs.BindsEverywhere x)
    (fun s s' hturn hs => ?_) h hs
  rcases turn_envs hturn with henvs | ⟨parent, bindings, hfault, henvs⟩
  · rwa [henvs]
  · rw [henvs]
    exact hs.push (Environments.openFault?_eq_none_iff.1 hfault).1 bindings

/-- In a program that is in step with itself, a name that is not bound corresponds to itself at the
root. -/
theorem InStep.free_of_unbound {p : Twins} {statics : List Pairing} (hs : InStep p statics s s)
    (h : machine.turn s = .failed (.unboundVariable x) s') :
    p.naming.free x x ∧ ∃ env : EnvId, env.index < s.envs.size ∧ s.envs.lookup env x = none := by
  obtain ⟨taken, env, htake, hcurrent, hlookup⟩ := turn_unbound h
  have htasks := hs.takeTask
  rw [htake] at htasks
  generalize htaken : some (Task.item (.load (.identifier x)), taken) = task at htasks
  cases htasks with
  | none => cases htaken
  | leave _ _ => cases htaken
  | item hunder _ hitem _ =>
    cases htaken
    have hscope := hunder env hcurrent
    have hlt : env.index < s.envs.size := hs.envs.size ▸ (List.getElem?_eq_some_iff.1 hscope).1
    refine ⟨?_, env, hlt, hlookup⟩
    cases hitem with
    | identifier hrelates =>
      have hfound := hs.envs.lookup_found hscope hrelates
      rw [hlookup] at hfound
      cases hfound with
      | unbound hfree => exact hfree
    | constant hconstant => exact absurd rfl (hconstant x)

end Machine

end EagerLambda
