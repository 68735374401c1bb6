import EagerLambda.Proofs.Control.Renumbering
import EagerLambda.Proofs.Evaluation.Computation
import EagerLambda.Proofs.Value.Failure

/-!
# Values and environments with other handles for the same names

Handles occur in values as the parameters of functions and in environments as the names that are
bound. Operations never look at the parameters of a function, and a lookup only asks whether two
handles are equal, which a correspondence of handles keeps.

## Main definitions

- `Closure.Renumbered`, `Value.Renumbered`, `Environments.Renumbered` — the same up to handles

## Main statements

- `Environments.Renumbered.resolve` — corresponding names have values that are the same up to
  handles
- `Computation.parameterBindings_alike` — corresponding parameters are bound alike
- `Machine.Settings.Renumbered.environments` — the environments that two runs start with
-/

namespace EagerLambda

variable {R : Name → Name → Prop}

/-- The functions have the same body and environment and corresponding parameters. -/
structure Closure.Renumbered (R : Name → Name → Prop) (c d : Closure) : Prop where
  body : c.body = d.body
  params : List.Forall₂ R c.params d.params
  env : c.env = d.env

/-- The values are the same up to handles. -/
abbrev Value.Renumbered (R : Name → Name → Prop) : Value → Value → Prop :=
  Value.Related (Closure.Renumbered R)

/-- Corresponding names are bound to values that are the same up to handles. -/
structure BindingRenumbered (R : Name → Name → Prop) (b c : Binding) : Prop where
  name : R b.1 c.1
  value : b.2.Renumbered R c.2

/-- The frames lie in the same environment and have bindings that are the same up to handles. -/
structure Frame.Renumbered (R : Name → Name → Prop) (f g : Frame) : Prop where
  parent : f.parent = g.parent
  bindings : List.Forall₂ (BindingRenumbered R) f.bindings g.bindings

/-- The environments are the same up to handles, one by one. -/
def Environments.Renumbered (R : Name → Name → Prop) (envs envs' : Environments) : Prop :=
  List.Forall₂ (Frame.Renumbered R) envs.frames.toList envs'.frames.toList

section Fork

variable {S T : Name → Name → Prop}

/-- Functions that are the same as one up to handles are the same as one another. -/
theorem Closure.Renumbered.fork (hT : ∀ x y z, R x y → S x z → T y z) {c d e : Closure}
    (h : c.Renumbered R d) (h' : c.Renumbered S e) : d.Renumbered T e :=
  ⟨h.body.symm.trans h'.body, forall₂_fork h.params h'.params fun x _ => hT x,
    h.env.symm.trans h'.env⟩

theorem Value.Renumbered.fork (hT : ∀ x y z, R x y → S x z → T y z) {v w u : Value}
    (h : v.Renumbered R w) (h' : v.Renumbered S u) : w.Renumbered T u := by
  have hflip : Value.Related (fun d c => c.Renumbered R d) w v := h.flip fun _ _ hcd => hcd
  exact hflip.comp (fun _ _ _ hcd hce => hcd.fork hT hce) h'

theorem BindingRenumbered.fork (hT : ∀ x y z, R x y → S x z → T y z) {b c d : Binding}
    (h : BindingRenumbered R b c) (h' : BindingRenumbered S b d) : BindingRenumbered T c d :=
  ⟨hT _ _ _ h.name h'.name, h.value.fork hT h'.value⟩

end Fork

-- ════════════════════════════════════════════════════════════════════════
-- Results of operations
-- ════════════════════════════════════════════════════════════════════════

theorem Error.OfOperands.name?_eq {e : Error} (h : e.OfOperands) : e.name? = none := by
  cases e with
  | unboundVariable x => exact h.elim
  | _ => rfl

/-- Operations on values that are the same up to handles have results that are. -/
theorem alike_of_agree {α β : Type} {A : α → β → Prop} {r : Except Error α} {s : Except Error β}
    (h : Agree A r s) (hr : FailsWith Error.OfOperands r) : Alike R A r s := by
  cases h with
  | ok hab => exact .ok hab
  | error e _ => exact .error (.same (hr e rfl).name?_eq)

section Operations

variable {v w v' w' : Value}

theorem BinaryOp.apply_alike (op : BinaryOp) (h : v.Renumbered R w) (h' : v'.Renumbered R w') :
    Alike R (Value.Renumbered R) (op.apply v v') (op.apply w w') :=
  alike_of_agree (op.apply_agree h h') (op.apply_fails _ _)

theorem UnaryOp.apply_alike (op : UnaryOp) (h : v.Renumbered R w) :
    Alike R (Value.Renumbered R) (op.apply v) (op.apply w) :=
  alike_of_agree (op.apply_agree h) (op.apply_fails _)

theorem Builtin.apply_alike (b : Builtin) {vs ws : List Value}
    (hs : List.Forall₂ (Value.Renumbered R) vs ws) (h : v.Renumbered R w) :
    Alike R (Value.Renumbered R) (b.apply vs v) (b.apply ws w) :=
  alike_of_agree (b.apply_agree hs h) (b.apply_fails _ _)

end Operations

namespace Computation

variable {xs ys : List Name} {v w : Value}

theorem zip_renumbered (hxys : List.Forall₂ R xs ys) {vs ws : List Value}
    (hs : List.Forall₂ (Value.Renumbered R) vs ws) :
    List.Forall₂ (BindingRenumbered R) (xs.zip vs) (ys.zip ws) := by
  induction hxys generalizing vs ws with
  | nil => exact .nil
  | cons hxy _ ih =>
    cases hs with
    | nil => exact .nil
    | cons hvw hrest => exact .cons ⟨hxy, hvw⟩ (ih hrest)

theorem tupledBindings_alike (hxys : List.Forall₂ R xs ys) (h : v.Renumbered R w) :
    Alike R (List.Forall₂ (BindingRenumbered R)) (tupledBindings xs v) (tupledBindings ys w) := by
  have hlength := hxys.length_eq
  cases h with
  | tuple hs =>
    rw [tupledBindings, tupledBindings, hs.length_eq, hlength]
    split
    · exact .ok (zip_renumbered hxys hs)
    · exact .error (.same rfl)
  | _ =>
    simp only [tupledBindings, hlength]
    exact .error (.same rfl)

/-- Corresponding parameters are bound to the parts of arguments that are the same up to handles. -/
theorem parameterBindings_alike (hxys : List.Forall₂ R xs ys) (h : v.Renumbered R w) :
    Alike R (List.Forall₂ (BindingRenumbered R)) (parameterBindings xs v)
      (parameterBindings ys w) := by
  rcases hxys with _ | ⟨hxy, _ | ⟨hnext, hrest⟩⟩
  · exact tupledBindings_alike .nil h
  · exact .ok (.cons ⟨hxy, h⟩ .nil)
  · exact tupledBindings_alike (.cons hxy (.cons hnext hrest)) h

end Computation

-- ════════════════════════════════════════════════════════════════════════
-- Environments
-- ════════════════════════════════════════════════════════════════════════

/-- Corresponding names are found in the same place, or neither of them is found. -/
theorem Frame.Renumbered.find?_rel (hR : Renumbering R) {f g : Frame} (h : f.Renumbered R g)
    {x y : Name} (hxy : R x y) : Option.Rel (Value.Renumbered R) (f.find? x) (g.find? y) := by
  obtain ⟨-, hbindings⟩ := h
  rw [find?, find?]
  generalize f.bindings = bs at hbindings
  generalize g.bindings = cs at hbindings
  induction hbindings with
  | nil => exact .none
  | @cons b c _ _ hbc _ ih =>
    obtain ⟨z, v⟩ := b
    obtain ⟨z', w⟩ := c
    have hname : R z z' := hbc.name
    have hiff : x = z ↔ y = z' := hR.unique hxy hname
    by_cases hx : x = z
    · obtain rfl : y = z' := hiff.1 hx
      subst hx
      simpa using hbc.value
    · have hy : ¬y = z' := fun hy => hx (hiff.2 hy)
      have hxne : (x == z) = false := beq_eq_false_iff_ne.2 hx
      have hyne : (y == z') = false := beq_eq_false_iff_ne.2 hy
      simpa [List.lookup_cons, hxne, hyne] using ih

namespace Environments

variable {envs envs' : Environments} {bs cs : List Binding}

namespace Renumbered

theorem size_eq (h : envs.Renumbered R envs') : envs.size = envs'.size := by
  simpa [size] using List.Forall₂.length_eq h

theorem search_rel (hR : Renumbering R) (h : envs.Renumbered R envs') {x y : Name} (hxy : R x y)
    (depth : Nat) (env : EnvId) :
    Option.Rel (Value.Renumbered R) (envs.search x depth env) (envs'.search y depth env) := by
  induction depth generalizing env with
  | zero => exact .none
  | succ depth ih =>
    have hframe : Option.Rel (Frame.Renumbered R) envs.frames[env.index]?
        envs'.frames[env.index]? := by simpa using forall₂_getElem? h env.index
    rw [search, search]
    generalize envs.frames[env.index]? = f at hframe ⊢
    generalize envs'.frames[env.index]? = g at hframe ⊢
    cases hframe with
    | none => exact .none
    | @some f g hfg =>
      have hfind := hfg.find?_rel hR hxy
      have hparent := hfg.parent
      simp only
      generalize f.find? x = v at hfind ⊢
      generalize g.find? y = w at hfind ⊢
      cases hfind with
      | some hvw => exact .some hvw
      | none =>
        simp only [hparent]
        cases g.parent with
        | none => exact .none
        | some parent => exact ih parent

/-- Corresponding names have values that are the same up to handles, or neither is bound. -/
theorem resolve (hR : Renumbering R) (h : envs.Renumbered R envs') {x y : Name} (hxy : R x y)
    (env : EnvId) : Alike R (Value.Renumbered R) (envs.resolve env x) (envs'.resolve env y) := by
  have hlookup : Option.Rel (Value.Renumbered R) (envs.lookup env x) (envs'.lookup env y) :=
    h.search_rel hR hxy _ env
  rw [Environments.resolve, Environments.resolve]
  generalize envs.lookup env x = v at hlookup ⊢
  generalize envs'.lookup env y = w at hlookup ⊢
  cases hlookup with
  | none => exact .error (.unbound hxy)
  | some hvw => exact .ok hvw

theorem push (h : envs.Renumbered R envs') (parent : EnvId)
    (hbs : List.Forall₂ (BindingRenumbered R) bs cs) :
    (envs.push parent bs).Renumbered R (envs'.push parent cs) := by
  have hframe : Frame.Renumbered R (.ofBindings (some parent) bs) (.ofBindings (some parent) cs) :=
    ⟨rfl, List.rel_reverse hbs⟩
  simpa [Renumbered, Environments.push] using List.rel_append h (.cons hframe .nil)

end Renumbered

/-- The primitives are bound to handles that every table starts with. -/
theorem primitives_renumbered (hR : Renumbering R) :
    List.Forall₂ (BindingRenumbered R) primitives primitives := by
  refine List.forall₂_same.2 fun binding hbinding => ⟨hR.reserved ?_, ?_⟩
  · have hreserved : ∀ b ∈ (primitives : List Binding),
        b.1.index < Name.reservedTexts.length := by decide
    exact hreserved binding hbinding
  · have hcodeless : ∀ b ∈ (primitives : List Binding), b.2.Codeless := by
      simp [primitives, Value.Codeless, Value.All, Value.nil, Value.AllIn]
    exact (hcodeless binding hbinding).related_self

end Environments

namespace Machine

/-- The settings are the same up to handles. -/
structure Settings.Renumbered (R : Name → Name → Prop) (settings settings' : Settings) :
    Prop where
  budget : settings.budget = settings'.budget
  primitives : settings.primitives = settings'.primitives
  bindings : List.Forall₂ (BindingRenumbered R) settings.bindings settings'.bindings

theorem Settings.Renumbered.fork {S T : Name → Name → Prop}
    (hT : ∀ x y z, R x y → S x z → T y z) {settings settings' settings'' : Settings}
    (h : settings.Renumbered R settings') (h' : settings.Renumbered S settings'') :
    settings'.Renumbered T settings'' :=
  ⟨h.budget.symm.trans h'.budget, h.primitives.symm.trans h'.primitives,
    forall₂_fork h.bindings h'.bindings fun _ _ _ _ => BindingRenumbered.fork hT⟩

/-- Runs with settings that are the same up to handles start with such environments. -/
theorem Settings.Renumbered.environments (hR : Renumbering R) {settings settings' : Settings}
    (h : settings.Renumbered R settings') :
    settings.environments.Renumbered R settings'.environments := by
  have hroot : List.Forall₂ (BindingRenumbered R) settings.root settings'.root := by
    refine List.rel_append (List.rel_reverse h.bindings) ?_
    rw [h.primitives]
    split
    · exact List.rel_reverse (Environments.primitives_renumbered hR)
    · exact .nil
  rw [environments_eq, environments_eq]
  exact .cons ⟨rfl, hroot⟩ .nil

end Machine

end EagerLambda
