import EagerLambda.Machine.State
import EagerLambda.Proofs.Value.Operations

/-!
# Related environments

Environments are related if they are nested in the same way and bind the same names to related
values. Looking up a name, opening an environment and binding a name at the root keep the relation.

## Main definitions

- `Frame.Related`, `Environments.Related` — the relation on one and on all environments
- `Machine.Settings.mapCode` — settings with the bodies in their bindings replaced

## Main statements

- `Environments.Related.resolve_agree` — a name has related values or is unbound on both sides
- `Environments.Related.push` — opening related environments
- `Machine.Settings.environments_related` — the environments that two runs start with
-/

namespace EagerLambda

variable {Code Code' : Type} {R : Closure Code → Closure Code' → Prop}

/-- Two bindings of one name to related values. -/
def BindingRelated (R : Closure Code → Closure Code' → Prop) (b : Binding Code)
    (c : Binding Code') : Prop :=
  b.1 = c.1 ∧ Value.Related R b.2 c.2

/-- Two frames with the same parent that bind the same names, in the same order, to related
values. -/
structure Frame.Related (R : Closure Code → Closure Code' → Prop) (f : Frame Code)
    (g : Frame Code') : Prop where
  parent : f.parent = g.parent
  bindings : List.Forall₂ (BindingRelated R) f.bindings g.bindings

/-- Environments that are related one by one. -/
def Environments.Related (R : Closure Code → Closure Code' → Prop) (envs : Environments Code)
    (envs' : Environments Code') : Prop :=
  List.Forall₂ (Frame.Related R) envs.frames.toList envs'.frames.toList

namespace Frame

/-- Related bindings make related frames. -/
theorem ofBindings_related (parent : Option EnvId) {bs : List (Binding Code)}
    {cs : List (Binding Code')} (h : List.Forall₂ (BindingRelated R) bs cs) :
    Related R (ofBindings parent bs) (ofBindings parent cs) :=
  ⟨rfl, List.rel_reverse h⟩

theorem lookup_rel (name : Name) {bs : List (Binding Code)} {cs : List (Binding Code')}
    (h : List.Forall₂ (BindingRelated R) bs cs) :
    Option.Rel (Value.Related R) (bs.lookup name) (cs.lookup name) := by
  induction h with
  | nil => exact .none
  | @cons b c _ _ hbc _ ih =>
    obtain ⟨x, v⟩ := b
    obtain ⟨y, w⟩ := c
    obtain ⟨rfl, hvw⟩ : x = y ∧ Value.Related R v w := hbc
    by_cases hx : name = x
    · simpa [List.lookup_cons, hx] using hvw
    · have hne : (name == x) = false := by simpa using hx
      simpa [List.lookup_cons, hne] using ih

/-- Related frames give related values to a name, or none. -/
theorem Related.find?_rel {f : Frame Code} {g : Frame Code'} (h : Related R f g) (name : Name) :
    Option.Rel (Value.Related R) (f.find? name) (g.find? name) :=
  lookup_rel name h.bindings

/-- Binding a name to related values keeps frames related. -/
theorem Related.bind {f : Frame Code} {g : Frame Code'} (h : Related R f g) (name : Name)
    {v : Value Code} {w : Value Code'} (hvw : Value.Related R v w) :
    Related R (f.bind name v) (g.bind name w) :=
  ⟨h.parent, .cons ⟨rfl, hvw⟩ h.bindings⟩

end Frame

namespace Environments

variable {envs : Environments Code} {envs' : Environments Code'}

/-- A weaker correspondence of functions relates more environments. -/
theorem Related.mono {S : Closure Code → Closure Code' → Prop} (hRS : ∀ c d, R c d → S c d)
    (h : Related R envs envs') : Related S envs envs' :=
  List.Forall₂.imp (fun _ _ hframe => ⟨hframe.parent, hframe.bindings.imp fun _ _ hb =>
    ⟨hb.1, hb.2.mono hRS⟩⟩) h

theorem Related.size_eq (h : Related R envs envs') : envs.size = envs'.size := by
  simpa [size] using h.length_eq

/-- Frames at the same position are related. -/
theorem Related.frame_rel (h : Related R envs envs') (i : Nat) :
    Option.Rel (Frame.Related R) envs.frames[i]? envs'.frames[i]? := by
  simpa using forall₂_getElem? h i

theorem Related.search_rel (h : Related R envs envs') (name : Name) (depth : Nat) (env : EnvId) :
    Option.Rel (Value.Related R) (envs.search name depth env) (envs'.search name depth env) := by
  induction depth generalizing env with
  | zero => exact .none
  | succ depth ih =>
    have hframe := h.frame_rel env.index
    rw [search, search]
    generalize envs.frames[env.index]? = f at hframe ⊢
    generalize envs'.frames[env.index]? = g at hframe ⊢
    cases hframe with
    | none => exact .none
    | @some f g hfg =>
      have hfind := hfg.find?_rel name
      have hparent := hfg.parent
      simp only
      generalize f.find? name = v at hfind ⊢
      generalize g.find? name = w at hfind ⊢
      cases hfind with
      | some hvw => exact .some hvw
      | none =>
        simp only [hparent]
        cases g.parent with
        | none => exact .none
        | some parent => exact ih parent

/-- A name has related values in related environments, or is unbound in both. -/
theorem Related.resolve_agree (h : Related R envs envs') (env : EnvId) (name : Name) :
    Agree (Value.Related R) (envs.resolve env name) (envs'.resolve env name) := by
  have hlookup : Option.Rel (Value.Related R) (envs.lookup env name) (envs'.lookup env name) :=
    h.search_rel name _ env
  rw [resolve, resolve]
  generalize envs.lookup env name = v at hlookup ⊢
  generalize envs'.lookup env name = w at hlookup ⊢
  cases hlookup with
  | none => exact .error _ trivial
  | some hvw => exact .ok hvw

/-- Whether an environment can be opened depends only on how many there are. -/
theorem openFault?_of_size (h : envs.size = envs'.size) (parent : EnvId) :
    envs.openFault? parent = envs'.openFault? parent := by
  rw [openFault?, openFault?, h]

/-- An environment can be opened inside one that exists, as long as there are numbers left. -/
theorem openFault?_eq_none_iff {parent : EnvId} :
    envs.openFault? parent = none ↔ parent.index < envs.size ∧ envs.size < handleLimit := by
  rw [openFault?]
  split
  · next hparent => simp [Nat.not_lt_of_le hparent]
  · next hparent =>
    split
    · next hroom => simp [Nat.not_lt_of_le hroom]
    · next hroom => simp [Nat.lt_of_not_le hparent, Nat.lt_of_not_le hroom]

theorem nextId_of_size (h : envs.size = envs'.size) : envs.nextId = envs'.nextId := by
  rw [nextId, nextId, h]

@[simp]
theorem size_push (envs : Environments Code) (parent : EnvId) (bindings : List (Binding Code)) :
    (envs.push parent bindings).size = envs.size + 1 := by
  simp [size, Environments.push]

/-- The environments that were opened before stay as they are. -/
theorem frame_push {i : Nat} {f : Frame Code} (h : envs.frames[i]? = some f) (parent : EnvId)
    (bindings : List (Binding Code)) : (envs.push parent bindings).frames[i]? = some f := by
  have hlt : i < envs.frames.size := (Array.getElem?_eq_some_iff.1 h).1
  rwa [Environments.push, Array.getElem?_push_lt hlt, ← Array.getElem?_eq_getElem]

theorem frame_push_size (envs : Environments Code) (parent : EnvId)
    (bindings : List (Binding Code)) :
    (envs.push parent bindings).frames[envs.size]? = some (.ofBindings (some parent) bindings) :=
  Array.getElem?_push_size

/-- Bindings that are made at the root hide those made there before. -/
theorem bindAll_single (parent : Option EnvId) (made bindings : List (Binding Code)) :
    (Environments.mk #[⟨parent, made⟩]).bindAll bindings =
      ⟨#[⟨parent, bindings.reverse ++ made⟩]⟩ := by
  induction bindings generalizing made with
  | nil => rfl
  | cons binding rest ih =>
    rw [List.reverse_cons, List.append_assoc]
    exact ih (binding :: made)

/-- Opening an environment with related bindings keeps environments related. -/
theorem Related.push (h : Related R envs envs') (parent : EnvId) {bs : List (Binding Code)}
    {cs : List (Binding Code')} (hbs : List.Forall₂ (BindingRelated R) bs cs) :
    Related R (envs.push parent bs) (envs'.push parent cs) := by
  have hframes := List.rel_append h (.cons (Frame.ofBindings_related (some parent) hbs) .nil)
  simpa [Related, Environments.push] using hframes

theorem modify_forall₂ {α β : Type} {A : α → β → Prop} {xs : List α} {ys : List β} {f : α → α}
    {g : β → β} (h : List.Forall₂ A xs ys) (hfg : ∀ x y, A x y → A (f x) (g y)) (i : Nat) :
    List.Forall₂ A (xs.modify i f) (ys.modify i g) := by
  induction h generalizing i with
  | nil => simp
  | cons hxy hrest ih =>
    cases i with
    | zero => simpa using ⟨hfg _ _ hxy, hrest⟩
    | succ i => simpa using ⟨hxy, ih i⟩

/-- Binding a name at the root keeps environments related. -/
theorem Related.bindRoot (h : Related R envs envs') {b : Binding Code} {c : Binding Code'}
    (hbc : BindingRelated R b c) : Related R (envs.bindRoot b) (envs'.bindRoot c) := by
  have hframes := modify_forall₂ h
    (f := fun frame => frame.bind b.1 b.2) (g := fun frame => frame.bind c.1 c.2)
    (fun x y hxy => by rw [hbc.1]; exact hxy.bind c.1 hbc.2) EnvId.root.index
  simpa [Related, Environments.bindRoot] using hframes

theorem Related.bindAll (h : Related R envs envs') {bs : List (Binding Code)}
    {cs : List (Binding Code')} (hbs : List.Forall₂ (BindingRelated R) bs cs) :
    Related R (envs.bindAll bs) (envs'.bindAll cs) := by
  induction hbs generalizing envs envs' with
  | nil => exact h
  | cons hbc _ ih => exact ih (h.bindRoot hbc)

theorem empty_related : Related R empty empty :=
  .cons ⟨rfl, .nil⟩ .nil

/-- The primitives hold no functions of a program, so they are related by every relation. -/
theorem primitives_forall₂ : List.Forall₂ (BindingRelated R) primitives primitives := by
  unfold primitives
  repeat' first
    | exact .nil
    | refine .cons ⟨rfl, ?_⟩ ?_
    | exact .builtin _
    | exact .fixpoint
    | exact Value.related_nil

theorem withPrimitives_related : Related R withPrimitives withPrimitives :=
  empty_related.bindAll primitives_forall₂

end Environments

namespace Machine

/-- Settings with the bodies of functions in their bindings replaced. -/
def Settings.mapCode (f : Code → Code') (settings : Settings Code) : Settings Code' :=
  { budget := settings.budget
    primitives := settings.primitives
    bindings := settings.bindings.map fun binding => (binding.1, binding.2.mapCode f) }

/-- Settings under which no function of a program is bound at the root. -/
def Settings.Codeless (settings : Settings Code) : Prop :=
  ∀ binding ∈ settings.bindings, binding.2.Codeless

theorem Settings.codeless_mapCode {settings : Settings Code} (h : settings.Codeless)
    (f : Code → Code') : (settings.mapCode f).Codeless := by
  intro binding hbinding
  obtain ⟨binding', hbinding', rfl⟩ := List.mem_map.1 hbinding
  exact Value.codeless_mapCode (h binding' hbinding')

/-- What is bound at the root, the latest first. -/
def Settings.root (settings : Settings Code) : List (Binding Code) :=
  settings.bindings.reverse ++ if settings.primitives then EagerLambda.primitives.reverse else []

/-- A run starts with the root environment alone. -/
theorem Settings.environments_eq (settings : Settings Code) :
    settings.environments = ⟨#[⟨none, settings.root⟩]⟩ := by
  rw [environments, root]
  split
  · rw [Environments.withPrimitives, Environments.empty, Frame.ofBindings,
      Environments.bindAll_single, Environments.bindAll_single, List.reverse_nil, List.append_nil]
  · rw [Environments.empty, Frame.ofBindings, Environments.bindAll_single, List.reverse_nil]

theorem Settings.size_environments (settings : Settings Code) :
    settings.environments.size = 1 := by
  rw [environments_eq]
  rfl

/-- If no function of a program is bound at the root, it does not matter what bodies are replaced
by. -/
theorem Settings.Codeless.root_related {Left Right : Type} {S : Closure Left → Closure Right → Prop}
    {settings : Settings Code} (h : settings.Codeless) (f : Code → Left) (g : Code → Right) :
    List.Forall₂ (BindingRelated S) (settings.mapCode f).root (settings.mapCode g).root := by
  have hbindings : List.Forall₂ (BindingRelated S) (settings.mapCode f).bindings
      (settings.mapCode g).bindings :=
    List.forall₂_map_left_iff.2 (List.forall₂_map_right_iff.2 (List.forall₂_same.2
      fun binding hbinding => ⟨rfl, (h binding hbinding).mapCode_related⟩))
  refine List.rel_append (List.rel_reverse hbindings) ?_
  show List.Forall₂ _ (if settings.primitives then _ else _) (if settings.primitives then _ else _)
  split
  · exact List.rel_reverse Environments.primitives_forall₂
  · exact .nil

/-- Runs with the same settings, up to functions, start with related environments. -/
theorem Settings.environments_related {settings : Settings Code} {settings' : Settings Code'}
    (hprim : settings.primitives = settings'.primitives)
    (hbind : List.Forall₂ (BindingRelated R) settings.bindings settings'.bindings) :
    Environments.Related R settings.environments settings'.environments := by
  rw [environments, environments, hprim]
  split
  · exact Environments.withPrimitives_related.bindAll hbind
  · exact Environments.empty_related.bindAll hbind

/-- If no function of a program is bound at the root, the environments that a run starts with are
related to themselves by every correspondence of functions. -/
theorem Settings.Codeless.environments_related_self {S : Closure Code → Closure Code → Prop}
    {settings : Settings Code} (h : settings.Codeless) :
    Environments.Related S settings.environments settings.environments :=
  environments_related rfl (List.forall₂_same.2 fun binding hbinding =>
    ⟨rfl, (h binding hbinding).related_self⟩)

end Machine

end EagerLambda
