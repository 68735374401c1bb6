import EagerLambda.Proofs.Environment.Relation

/-!
# What values are made of

The parts of a value are the value itself and, at any depth, the components of tuples and the
arguments that partial applications hold. An operation makes its value of the parts of its operands.
A partial application comes about in one way only, by giving `Conc` its first argument, and no value
of an operation is a function of the program that was not there. So a property that holds of all
other values, and of a function whether it is recursive or not, holds throughout the value of an
operation if it holds throughout its operands.

## Main definitions

- `Value.Part` — a value occurs in another
- `Value.Throughout` — every part of a value has a property
- `Value.Inherited` — a property that the values of operations inherit
- `Value.OfFunction`, `Value.Accounted` — two such properties: a function satisfies a predicate, and
  besides a partial application is one of `Conc`
- `Passes` — a property holds throughout what a computation comes to

## Main statements

- `BinaryOp.apply_passes`, `UnaryOp.apply_passes`, `Builtin.apply_passes`
- `Environments.lookup_throughout` — names stand for values that have what all bound values have
-/

namespace EagerLambda

variable {Code : Type}

namespace Value

/-- The values that a value holds directly. -/
def inside : Value Code → List (Value Code)
  | tuple components => components
  | partialApp _ received => received
  | _ => []

/-- The first value occurs in the second. -/
inductive Part (u : Value Code) : Value Code → Prop
  | self : Part u u
  | inside {v w : Value Code} : v ∈ w.inside → Part u v → Part u w

/-- A function of a program satisfies the predicate. -/
def OfFunction (P : Closure Code → Prop) : Value Code → Prop
  | closure c => P c
  | eta c => P c
  | _ => True

/-- A function of a program has the property, and a partial application is that of `Conc` to one
argument. -/
def Accounted (P : Closure Code → Prop) : Value Code → Prop
  | closure c => P c
  | eta c => P c
  | partialApp b received => b = .conc ∧ received.length = 1
  | _ => True

/-- The value is neither a function of a program nor a partial application. -/
def Plain : Value Code → Prop
  | closure _ => False
  | eta _ => False
  | partialApp .. => False
  | _ => True

/-- Every part of the value has the property. -/
def Throughout (A : Value Code → Prop) (v : Value Code) : Prop :=
  ∀ u : Value Code, u.Part v → A u

/-- Operations on values with the property have values with the property, as it depends only on what
functions there are and allows every partial application that operations make. -/
structure Inherited (A : Value Code → Prop) : Prop where
  plain {v : Value Code} : v.Plain → A v
  eta_iff {c : Closure Code} : A (.eta c) ↔ A (.closure c)
  received (v : Value Code) : A (.partialApp .conc [v])

variable {A B : Value Code → Prop} {P Q : Closure Code → Prop} {u v w : Value Code}
  {vs : List (Value Code)}

theorem Accounted.mono (h : v.Accounted P) (hPQ : ∀ c, P c → Q c) : v.Accounted Q := by
  cases v with
  | closure c => exact hPQ c h
  | eta c => exact hPQ c h
  | _ => exact h

theorem OfFunction.mono (h : v.OfFunction P) (hPQ : ∀ c, P c → Q c) : v.OfFunction Q := by
  cases v with
  | closure c => exact hPQ c h
  | eta c => exact hPQ c h
  | _ => trivial

theorem inherited_accounted (P : Closure Code → Prop) : Inherited (Accounted P) where
  plain {v} h := by
    cases v with
    | closure c => exact h.elim
    | eta c => exact h.elim
    | partialApp b received => exact h.elim
    | _ => trivial
  eta_iff := .rfl
  received _ := ⟨rfl, rfl⟩

theorem inherited_ofFunction (P : Closure Code → Prop) : Inherited (OfFunction P) where
  plain {v} h := by
    cases v with
    | closure c => exact h.elim
    | eta c => exact h.elim
    | _ => trivial
  eta_iff := .rfl
  received _ := trivial

namespace Throughout

theorem self (h : v.Throughout A) : A v := h v .self

theorem mono (h : v.Throughout A) (hAB : ∀ u, A u → B u) : v.Throughout B :=
  fun u hu => hAB u (h u hu)

theorem inside (h : v.Throughout A) (hw : w ∈ v.inside) : w.Throughout A :=
  fun u hu => h u (.inside hw hu)

end Throughout

theorem throughout_iff : v.Throughout A ↔ A v ∧ ∀ w ∈ v.inside, w.Throughout A := by
  constructor
  · exact fun h => ⟨h.self, fun w hw => h.inside hw⟩
  · rintro ⟨hv, hinside⟩ u hu
    cases hu with
    | self => exact hv
    | inside hw hu => exact hinside _ hw u hu

/-- A value that holds no other one is its only part. -/
theorem throughout_of_inside_nil (h : A v) (hinside : v.inside = []) : v.Throughout A := by
  rw [throughout_iff, hinside]
  exact ⟨h, fun _ hw => absurd hw List.not_mem_nil⟩

@[simp]
theorem throughout_closure {c : Closure Code} : (closure c).Throughout A ↔ A (.closure c) :=
  ⟨Throughout.self, fun h => throughout_of_inside_nil h rfl⟩

namespace Inherited

variable (hA : Inherited A)

include hA

theorem throughout_of_plain (hv : v.Plain) (hinside : v.inside = []) : v.Throughout A :=
  throughout_of_inside_nil (hA.plain hv) hinside

theorem throughout_tuple : (tuple vs).Throughout A ↔ ∀ v ∈ vs, v.Throughout A := by
  rw [throughout_iff]
  exact and_iff_right (hA.plain trivial)

theorem throughout_nil : nil.Throughout A :=
  hA.throughout_tuple.2 fun _ hv => absurd hv List.not_mem_nil

theorem throughout_eta {c : Closure Code} : (eta c).Throughout A ↔ (closure c).Throughout A :=
  ⟨fun h => throughout_closure.2 (hA.eta_iff.1 h.self),
    fun h => throughout_of_inside_nil (hA.eta_iff.2 h.self) rfl⟩

theorem throughout_received (hv : v.Throughout A) : (partialApp .conc [v]).Throughout A :=
  throughout_iff.2 ⟨hA.received v, List.forall_mem_singleton.2 hv⟩

end Inherited

/-- Every function in a value satisfies a predicate if every part that is one does. -/
theorem all_iff : v.All P ↔ v.Throughout (OfFunction P) := by
  have hinside : ∀ {vs : List (Value Code)}, (∀ v ∈ vs, v.All P ↔ v.Throughout (OfFunction P)) →
      (AllIn P vs ↔ ∀ v ∈ vs, v.Throughout (OfFunction P)) :=
    fun ih => allIn_iff.trans (forall₂_congr ih)
  induction v using parts_induction with
  | tuple vs ih => exact (hinside ih).trans (inherited_ofFunction P).throughout_tuple.symm
  | partialApp b vs ih =>
    rw [throughout_iff]
    exact (hinside ih).trans (and_iff_right trivial).symm
  | closure c => exact ⟨fun h => throughout_closure.2 h, Throughout.self⟩
  | eta c => exact ⟨fun h => throughout_of_inside_nil h rfl, Throughout.self⟩
  | integer | truth | string | dummy | fixpoint | builtin =>
    exact iff_of_true trivial (throughout_of_inside_nil trivial rfl)

end Value

/-- The property holds throughout what the computation comes to, if it comes to a value. -/
def Passes (A : Value Code → Prop) (result : Except Error (Value Code)) : Prop :=
  ∀ v, result = .ok v → v.Throughout A

namespace Passes

variable {A : Value Code → Prop} {v : Value Code}

theorem ok (h : v.Throughout A) : Passes A (.ok v) := by
  rintro _ ⟨⟩
  exact h

theorem error (e : Error) : Passes A (.error e) := nofun

theorem bind {α : Type} {result : Except Error α} {next : α → Except Error (Value Code)}
    (h : ∀ a, Passes A (next a)) : Passes A (result >>= next) := by
  cases result with
  | ok a => exact h a
  | error e => exact .error e

end Passes

section Operations

variable {A : Value Code → Prop} (hA : Value.Inherited A) {v w : Value Code}

include hA

theorem integerResult_passes (operation : String) (result : Option Integer) :
    Passes A (integerResult operation result) := by
  cases result with
  | none => exact .error _
  | some n => exact .ok (hA.throughout_of_plain trivial rfl)

theorem truth_passes (b : Bool) : Passes A (.ok (.truth b)) :=
  .ok (hA.throughout_of_plain trivial rfl)

theorem string_passes (s : String) : Passes A (.ok (.string s)) :=
  .ok (hA.throughout_of_plain trivial rfl)

namespace BinaryOp

theorem onIntegers?_passes {op : BinaryOp} {a b : Integer} {result : Except Error (Value Code)}
    (h : op.onIntegers? a b = some result) : Passes A result := by
  cases op with
  | add | sub | mul =>
    cases h
    exact integerResult_passes hA _ _
  | div =>
    cases h
    split
    · exact .error _
    · exact integerResult_passes hA _ _
  | pow =>
    cases h
    rw [power]
    split
    · exact integerResult_passes hA _ _
    · exact .error _
  | eq | ne | gr | ge | ls | le =>
    cases h
    exact truth_passes hA _
  | or | and | aug => cases h

theorem onSameKind?_passes {op : BinaryOp} {result : Except Error (Value Code)}
    (h : op.onSameKind? v w = some result) : Passes A result := by
  unfold onSameKind? at h
  split at h
  · exact onIntegers?_passes hA h
  · obtain ⟨t, -, rfl⟩ := Option.map_eq_some_iff.1 h
    exact truth_passes hA _
  · obtain ⟨t, -, rfl⟩ := Option.map_eq_some_iff.1 h
    exact truth_passes hA _
  · cases h

theorem augment_passes (hv : v.Throughout A) (hw : w.Throughout A) : Passes A (augment v w) := by
  unfold augment
  split
  · refine .ok (hA.throughout_tuple.2 fun u hu => ?_)
    rcases List.mem_append.1 hu with hu | hu
    · exact hA.throughout_tuple.1 hv u hu
    · exact List.mem_singleton.1 hu ▸ hw
  · exact .error _

/-- A binary operator makes its value of its operands. -/
theorem apply_passes (op : BinaryOp) (hv : v.Throughout A) (hw : w.Throughout A) :
    Passes A (op.apply v w) := by
  rw [apply]
  split
  · exact augment_passes hA hv hw
  · cases h : op.onSameKind? v w with
    | none => exact .error _
    | some result => exact onSameKind?_passes hA h

end BinaryOp

/-- A unary operator makes its value of its operand. -/
theorem UnaryOp.apply_passes (op : UnaryOp) (hv : v.Throughout A) : Passes A (op.apply v) := by
  unfold UnaryOp.apply
  split
  · exact truth_passes hA _
  · exact .error _
  · exact integerResult_passes hA _ _
  · exact .error _
  · exact .ok hv

namespace Builtin

theorem compute_passes (builtin : Builtin) (received : List (Value Code)) (hv : v.Throughout A) :
    Passes A (builtin.compute received v) := by
  cases builtin with
  | print => exact .ok hv
  | conc =>
    simp only [compute, join]
    split
    · exact string_passes hA _
    all_goals exact .error _
  | isInteger | isString | isTruthValue | isFunction | isTuple | isDummy => exact truth_passes hA _
  | itos =>
    cases v with
    | integer n => exact string_passes hA _
    | _ => exact .error _
  | stem | stern => exact .bind fun _ => string_passes hA _
  | order => exact .bind fun _ => integerResult_passes hA _ _
  | null => exact .bind fun _ => truth_passes hA _

omit hA in
/-- A builtin that waits for more is `Conc` with its first argument. -/
theorem eq_conc_of_waits {builtin : Builtin} {count : Nat} (h : count + 1 < builtin.arity) :
    builtin = .conc ∧ count = 0 := by
  cases builtin with
  | conc => exact ⟨rfl, Nat.lt_one_iff.1 (Nat.lt_of_succ_lt_succ h)⟩
  | _ => exact absurd (Nat.lt_of_succ_lt_succ h) (Nat.not_lt_zero _)

/-- A builtin makes its value of its argument, or keeps the argument if it is `Conc` and this is the
first. -/
theorem apply_passes (builtin : Builtin) (received : List (Value Code)) (hv : v.Throughout A) :
    Passes A (builtin.apply received v) := by
  rw [apply]
  split
  · next hwaits =>
    obtain ⟨rfl, hcount⟩ := eq_conc_of_waits hwaits
    obtain rfl := List.length_eq_zero_iff.1 hcount
    exact .ok (hA.throughout_received hv)
  · exact compute_passes hA builtin received hv

end Builtin

end Operations

namespace Environments

variable {A : Value Code → Prop} {envs : Environments Code} {v : Value Code}

/-- The property holds throughout what is bound in the environments. -/
def Throughout (A : Value Code → Prop) (envs : Environments Code) : Prop :=
  ∀ frame ∈ envs.frames, ∀ binding ∈ frame.bindings, binding.2.Throughout A

theorem Throughout.mono {B : Value Code → Prop} (h : envs.Throughout A) (hAB : ∀ u, A u → B u) :
    envs.Throughout B :=
  fun frame hframe binding hbinding => (h frame hframe binding hbinding).mono hAB

theorem search_throughout (h : envs.Throughout A) {name : Name} {depth : Nat} {env : EnvId}
    (hv : envs.search name depth env = some v) : v.Throughout A := by
  induction depth generalizing env with
  | zero => cases hv
  | succ depth ih =>
    rw [search] at hv
    split at hv
    · cases hv
    · next frame hframe =>
      split at hv
      · next hfound =>
        cases hv
        obtain ⟨before, after, hbindings, -⟩ := List.lookup_eq_some_iff.1 hfound
        have hmem : (name, v) ∈ frame.bindings := by
          rw [hbindings]
          exact List.mem_append_right _ List.mem_cons_self
        exact h frame (Array.mem_of_getElem? hframe) _ hmem
      · split at hv
        · cases hv
        · exact ih hv

/-- What a name stands for has the property throughout if all that is bound has. -/
theorem lookup_throughout (h : envs.Throughout A) {env : EnvId} {name : Name}
    (hv : envs.lookup env name = some v) : v.Throughout A := search_throughout h hv

theorem Throughout.push (h : envs.Throughout A) {bindings : List (Binding Code)}
    (hbindings : ∀ binding ∈ bindings, binding.2.Throughout A) (parent : EnvId) :
    (envs.push parent bindings).Throughout A := by
  intro frame hframe binding hbinding
  rcases Array.mem_push.1 hframe with hframe | rfl
  · exact h frame hframe binding hbinding
  · exact hbindings binding (List.mem_reverse.1 hbinding)

end Environments

/-- The primitives are builtins, the fixed-point combinator and the empty tuple. -/
theorem primitives_throughout {A : Value Code → Prop} (hA : Value.Inherited A) :
    ∀ binding ∈ (primitives : List (Binding Code)), binding.2.Throughout A := by
  have hbuiltin : ∀ b : Builtin, (Value.builtin b).Throughout A :=
    fun b => hA.throughout_of_plain trivial rfl
  have hfixpoint : Value.fixpoint.Throughout A := hA.throughout_of_plain trivial rfl
  simp [primitives, hA.throughout_nil, hbuiltin, hfixpoint]

namespace Machine.Settings

variable {A : Value Code → Prop} {settings : Machine.Settings Code}

/-- The property holds throughout what the host binds at the root. -/
def Throughout (A : Value Code → Prop) (settings : Machine.Settings Code) : Prop :=
  ∀ binding ∈ settings.bindings, binding.2.Throughout A

/-- If no function of a program is bound at the root, every property holds of those that are. -/
theorem Codeless.throughout (h : settings.Codeless) (P : Closure Code → Prop) :
    settings.Throughout (Value.OfFunction P) :=
  fun binding hbinding =>
    (Value.all_iff.1 (h binding hbinding)).mono fun _ hu => hu.mono fun _ => False.elim

/-- A run starts with the primitives and with what the host has bound. -/
theorem Throughout.environments (hA : Value.Inherited A) (h : settings.Throughout A) :
    settings.environments.Throughout A := by
  rw [settings.environments_eq]
  intro frame hframe binding hbinding
  obtain rfl := Array.mem_singleton.1 hframe
  rcases List.mem_append.1 hbinding with hbinding | hbinding
  · exact h binding (List.mem_reverse.1 hbinding)
  · split at hbinding
    · exact primitives_throughout hA binding (List.mem_reverse.1 hbinding)
    · cases hbinding

end Machine.Settings

end EagerLambda
