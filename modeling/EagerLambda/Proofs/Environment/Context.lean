import EagerLambda.Proofs.Environment.Pairing

/-!
# Environments that stand for lists of bindings

The bindings in scope at a place of a program can be kept in one list, the innermost first. An
environment stands for such a list if it holds the first bindings of the list and lies in an
environment that stands for the rest. The lists that the environments of a run stand for are listed
by the numbers of the environments. Opening an environment adds to the end of this list and changes
nothing before.

## Main definitions

- `Frame.Tracks`, `Environments.Tracks` — environments that stand for lists of bindings

## Main statements

- `Environments.Tracks.lookup_rel` — a name has related values, or none
- `Environments.Tracks.push` — opening an environment
-/

namespace EagerLambda

variable {Code Code' : Type} {R S : Closure Code → Closure Code' → Prop}
  {contexts contexts' : List (List (Binding Code))} {context : List (Binding Code)}

/-- What is at a place of a list is there in every longer list. -/
theorem getElem?_of_initial {α : Type} {xs ys : List α} (h : xs <+: ys) {i : Nat} {x : α}
    (hx : xs[i]? = some x) : ys[i]? = some x := by
  obtain ⟨more, rfl⟩ := h
  exact getElem?_append_of_eq_some hx more

/-- The frame of the environment with this number stands for a list of bindings. What it does not
bind itself is in the list that the environment around it stands for. -/
inductive Frame.Tracks (R : Closure Code → Closure Code' → Prop)
    (contexts : List (List (Binding Code))) (index : Nat) :
    List (Binding Code) → Frame Code' → Prop
  | root {context : List (Binding Code)} {f : Frame Code'} : f.parent = none →
      List.Forall₂ (BindingRelated R) context f.bindings → Tracks R contexts index context f
  | inner {bindings outer : List (Binding Code)} {f : Frame Code'} {parent : EnvId} :
      f.parent = some parent → parent.index < index → contexts[parent.index]? = some outer →
      List.Forall₂ (BindingRelated R) bindings f.bindings →
      Tracks R contexts index (bindings ++ outer) f

theorem Frame.Tracks.mono {index : Nat} {f : Frame Code'}
    (h : Frame.Tracks R contexts index context f) (hRS : ∀ c d, R c d → S c d)
    (hmore : contexts <+: contexts') : Frame.Tracks S contexts' index context f := by
  have himp : ∀ (b : Binding Code) (c : Binding Code'), BindingRelated R b c →
      BindingRelated S b c := fun _ _ hbc => ⟨hbc.1, hbc.2.mono hRS⟩
  cases h with
  | root hparent hbindings => exact .root hparent (hbindings.imp himp)
  | inner hparent hlt houter hbindings =>
    exact .inner hparent hlt (getElem?_of_initial hmore houter) (hbindings.imp himp)

namespace Environments

/-- Every environment stands for the list of bindings with its number. -/
structure Tracks (R : Closure Code → Closure Code' → Prop)
    (contexts : List (List (Binding Code))) (envs : Environments Code') : Prop where
  size : envs.size = contexts.length
  frame {i : Nat} {context : List (Binding Code)} : contexts[i]? = some context →
    ∃ f, envs.frames[i]? = some f ∧ Frame.Tracks R contexts i context f

namespace Tracks

variable {envs : Environments Code'} {env : EnvId}

theorem search_rel (h : Tracks R contexts envs) {depth : Nat}
    (hscope : contexts[env.index]? = some context) (hdepth : env.index < depth) (name : Name) :
    Option.Rel (Value.Related R) (context.lookup name) (envs.search name depth env) := by
  induction depth generalizing env context with
  | zero => omega
  | succ depth ih =>
    obtain ⟨f, hf, hframe⟩ := h.frame hscope
    rw [search, hf]
    simp only [Frame.find?]
    cases hframe with
    | root hparent hbindings =>
      have hrel := Frame.lookup_rel name hbindings
      rw [hparent]
      generalize context.lookup name = v at hrel ⊢
      generalize f.bindings.lookup name = w at hrel ⊢
      cases hrel with
      | some hvw => exact .some hvw
      | none => exact .none
    | @inner bindings outer _ parent hparent hlt houter hbindings =>
      have hrel := Frame.lookup_rel name hbindings
      rw [hparent, List.lookup_append]
      generalize bindings.lookup name = v at hrel ⊢
      generalize f.bindings.lookup name = w at hrel ⊢
      cases hrel with
      | some hvw => exact .some hvw
      | none => exact ih houter (by omega)

/-- A name has related values in an environment and in the list that it stands for, or none in
both. -/
theorem lookup_rel (h : Tracks R contexts envs) (hscope : contexts[env.index]? = some context)
    (name : Name) :
    Option.Rel (Value.Related R) (context.lookup name) (envs.lookup env name) :=
  h.search_rel hscope (Nat.lt_succ_self _) name

/-- An environment that is opened stands for its own bindings before those around it. -/
theorem push (h : Tracks R contexts envs) (hRS : ∀ c d, R c d → S c d)
    (hscope : contexts[env.index]? = some context) {bindings : List (Binding Code)}
    {bindings' : List (Binding Code')}
    (hbindings : List.Forall₂ (BindingRelated S) bindings bindings') :
    Tracks S (contexts ++ [bindings.reverse ++ context]) (envs.push env bindings') := by
  have hmore : contexts <+: contexts ++ [bindings.reverse ++ context] := List.prefix_append _ _
  have hlt : env.index < contexts.length := (List.getElem?_eq_some_iff.1 hscope).1
  refine ⟨by simp [h.size], fun {i inner} hi => ?_⟩
  by_cases hold : i < contexts.length
  · rw [List.getElem?_append_left hold] at hi
    obtain ⟨f, hf, hframe⟩ := h.frame hi
    exact ⟨f, frame_push hf _ _, hframe.mono hRS hmore⟩
  · obtain rfl : i = contexts.length := by
      have := (List.getElem?_eq_some_iff.1 hi).1
      simp only [List.length_append, List.length_singleton] at this
      omega
    obtain rfl : bindings.reverse ++ context = inner := by simpa using hi
    refine ⟨.ofBindings (some env) bindings', ?_, ?_⟩
    · rw [← h.size, frame_push_size]
    · exact .inner rfl hlt (getElem?_of_initial hmore hscope) (List.rel_reverse hbindings)

end Tracks

end Environments

end EagerLambda
