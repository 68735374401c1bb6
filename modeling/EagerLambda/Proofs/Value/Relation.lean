import EagerLambda.Value
import Mathlib.Data.List.Forall2

/-!
# Values up to their functions

Values are computed without looking into functions. Two values that differ in their functions only
are compared by `Value.Related R`, where `R` says which functions stand for each other. What the
language computes from related operands is related again, so a simulation between two ways of
executing a program only has to say what `R` is.

## Main definitions

- `Value.Related` — two values are the same up to their functions
- `Value.mapCode` — a value with the bodies of its functions replaced
- `Value.All` — every function in a value has a property
- `Value.Codeless` — a value without functions of a program

## Main statements

- `Value.Related.eq_mapCode` — a relation that is a function replaces bodies
- `Value.related_self_iff` — a value related to itself has only functions related to themselves
-/

namespace EagerLambda

variable {Code Code' : Type}

/-- A closure with its body replaced. -/
def Closure.mapCode (f : Code → Code') (closure : Closure Code) : Closure Code' :=
  ⟨f closure.body, closure.params, closure.env⟩

namespace Value

/-- Two values are the same up to their functions, which correspond by `R`. -/
inductive Related (R : Closure Code → Closure Code' → Prop) : Value Code → Value Code' → Prop
  | integer (n : Integer) : Related R (.integer n) (.integer n)
  | truth (b : Bool) : Related R (.truth b) (.truth b)
  | string (s : String) : Related R (.string s) (.string s)
  | tuple {vs : List (Value Code)} {ws : List (Value Code')} :
      List.Forall₂ (Related R) vs ws → Related R (.tuple vs) (.tuple ws)
  | dummy : Related R .dummy .dummy
  | closure {c : Closure Code} {d : Closure Code'} : R c d → Related R (.closure c) (.closure d)
  | eta {c : Closure Code} {d : Closure Code'} : R c d → Related R (.eta c) (.eta d)
  | fixpoint : Related R .fixpoint .fixpoint
  | builtin (b : Builtin) : Related R (.builtin b) (.builtin b)
  | partialApp (b : Builtin) {vs : List (Value Code)} {ws : List (Value Code')} :
      List.Forall₂ (Related R) vs ws → Related R (.partialApp b vs) (.partialApp b ws)

mutual

/-- The value in which every body is replaced by its image. -/
def mapCode (f : Code → Code') : Value Code → Value Code'
  | integer n => integer n
  | truth b => truth b
  | string s => string s
  | tuple components => tuple (mapCodeAll f components)
  | dummy => dummy
  | closure c => closure (c.mapCode f)
  | eta c => eta (c.mapCode f)
  | fixpoint => fixpoint
  | builtin b => builtin b
  | partialApp b received => partialApp b (mapCodeAll f received)

/-- The values of a list with their bodies replaced. -/
def mapCodeAll (f : Code → Code') : List (Value Code) → List (Value Code')
  | [] => []
  | value :: rest => mapCode f value :: mapCodeAll f rest

end

mutual

/-- Every function of a program that occurs in a value, at any depth, satisfies `P`. -/
def All (P : Closure Code → Prop) : Value Code → Prop
  | tuple components => AllIn P components
  | closure c => P c
  | eta c => P c
  | partialApp _ received => AllIn P received
  | _ => True

/-- Every function of a program that occurs in the values of a list satisfies `P`. -/
def AllIn (P : Closure Code → Prop) : List (Value Code) → Prop
  | [] => True
  | value :: rest => All P value ∧ AllIn P rest

end

/-- A value in which no function of a program occurs, at any depth. -/
def Codeless (value : Value Code) : Prop := value.All fun _ => False

theorem allIn_iff {P : Closure Code → Prop} {values : List (Value Code)} :
    AllIn P values ↔ ∀ v ∈ values, v.All P := by
  induction values with
  | nil => simp [AllIn]
  | cons v vs ih => simp [AllIn, ih]

@[simp]
theorem mapCodeAll_eq_map (f : Code → Code') (values : List (Value Code)) :
    mapCodeAll f values = values.map (mapCode f) := by
  induction values with
  | nil => rfl
  | cons v vs ih => rw [mapCodeAll, ih, List.map_cons]

/-- Induction over a value and the values inside it. -/
@[elab_as_elim]
theorem parts_induction {P : Value Code → Prop}
    (integer : ∀ n, P (.integer n)) (truth : ∀ b, P (.truth b)) (string : ∀ s, P (.string s))
    (tuple : ∀ vs, (∀ v ∈ vs, P v) → P (.tuple vs)) (dummy : P .dummy)
    (closure : ∀ c, P (.closure c)) (eta : ∀ c, P (.eta c)) (fixpoint : P .fixpoint)
    (builtin : ∀ b, P (.builtin b))
    (partialApp : ∀ b vs, (∀ v ∈ vs, P v) → P (.partialApp b vs)) (v : Value Code) : P v :=
  match v with
  | .integer n => integer n
  | .truth b => truth b
  | .string s => string s
  | .tuple vs => tuple vs fun v _ =>
    parts_induction integer truth string tuple dummy closure eta fixpoint builtin partialApp v
  | .dummy => dummy
  | .closure c => closure c
  | .eta c => eta c
  | .fixpoint => fixpoint
  | .builtin b => builtin b
  | .partialApp b vs => partialApp b vs fun v _ =>
    parts_induction integer truth string tuple dummy closure eta fixpoint builtin partialApp v

variable {R S : Closure Code → Closure Code' → Prop}

/-- Lists that are related element by element are related by whatever the elements allow. -/
theorem forall₂_imp_of_mem {α β : Type} {A B : α → β → Prop} {xs : List α} {ys : List β}
    (h : List.Forall₂ A xs ys) (himp : ∀ x ∈ xs, ∀ y ∈ ys, A x y → B x y) :
    List.Forall₂ B xs ys := by
  induction h with
  | nil => exact .nil
  | cons hxy _ ih =>
    exact .cons (himp _ (by simp) _ (by simp) hxy)
      (ih fun x hx y hy => himp x (by simp [hx]) y (by simp [hy]))

/-- A weaker correspondence of functions relates more values. -/
theorem Related.mono (hRS : ∀ c d, R c d → S c d) {v : Value Code} {w : Value Code'}
    (h : Related R v w) : Related S v w := by
  induction v using parts_induction generalizing w with
  | tuple vs ih =>
    cases h with
    | tuple hvs => exact .tuple (forall₂_imp_of_mem hvs fun v hv w _ => ih v hv)
  | partialApp b vs ih =>
    cases h with
    | partialApp _ hvs => exact .partialApp b (forall₂_imp_of_mem hvs fun v hv w _ => ih v hv)
  | closure c => cases h with | closure hc => exact .closure (hRS _ _ hc)
  | eta c => cases h with | eta hc => exact .eta (hRS _ _ hc)
  | integer | truth | string | dummy | fixpoint | builtin => cases h; constructor

theorem forall₂_eq_map {α β : Type} {A : α → β → Prop} {f : α → β} {xs : List α} {ys : List β}
    (ih : ∀ x ∈ xs, ∀ {y}, A x y → y = f x) (h : List.Forall₂ A xs ys) : ys = xs.map f := by
  induction h with
  | nil => rfl
  | cons hxy _ ihs =>
    rw [List.map_cons, ih _ (by simp) hxy, ihs fun x hx => ih x (by simp [hx])]

/-- If the correspondence of functions is given by their bodies, a value determines the values
related to it. -/
theorem Related.eq_mapCode {f : Code → Code'} (hR : ∀ c d, R c d → d = c.mapCode f)
    {v : Value Code} {w : Value Code'} (h : Related R v w) : w = v.mapCode f := by
  induction v using parts_induction generalizing w with
  | tuple vs ih =>
    cases h with
    | tuple hvs => rw [mapCode, mapCodeAll_eq_map, forall₂_eq_map ih hvs]
  | partialApp b vs ih =>
    cases h with
    | partialApp _ hvs => rw [mapCode, mapCodeAll_eq_map, forall₂_eq_map ih hvs]
  | closure c => cases h with | closure hc => rw [mapCode, hR _ _ hc]
  | eta c => cases h with | eta hc => rw [mapCode, hR _ _ hc]
  | integer | truth | string | dummy | fixpoint | builtin => cases h; rfl

/-- If only equal functions correspond, only equal values are related. -/
theorem Related.eq {R : Closure Code → Closure Code → Prop} (hR : ∀ c d, R c d → c = d)
    {v w : Value Code} (h : Related R v w) : v = w := by
  induction v using parts_induction generalizing w with
  | tuple vs ih =>
    cases h with
    | tuple hvs =>
      rw [forall₂_eq_map (f := id) (fun v hv _ hvw => (ih v hv hvw).symm) hvs, List.map_id]
  | partialApp b vs ih =>
    cases h with
    | partialApp _ hvs =>
      rw [forall₂_eq_map (f := id) (fun v hv _ hvw => (ih v hv hvw).symm) hvs, List.map_id]
  | closure c => cases h with | closure hc => rw [hR _ _ hc]
  | eta c => cases h with | eta hc => rw [hR _ _ hc]
  | integer | truth | string | dummy | fixpoint | builtin => cases h; rfl

/-- Values are related the other way round if their functions are. -/
theorem Related.flip {R' : Closure Code' → Closure Code → Prop} (hR : ∀ c d, R c d → R' d c)
    {v : Value Code} {w : Value Code'} (h : Related R v w) : Related R' w v := by
  have flip_all : ∀ {vs : List (Value Code)} {ws : List (Value Code')},
      (∀ v ∈ vs, ∀ {w}, Related R v w → Related R' w v) → List.Forall₂ (Related R) vs ws →
        List.Forall₂ (Related R') ws vs := by
    intro vs ws ih hvs
    induction hvs with
    | nil => exact .nil
    | cons hvw _ ihs => exact .cons (ih _ (by simp) hvw) (ihs fun v hv => ih v (by simp [hv]))
  induction v using parts_induction generalizing w with
  | tuple vs ih =>
    cases h with
    | tuple hvs => exact .tuple (flip_all ih hvs)
  | partialApp b vs ih =>
    cases h with
    | partialApp _ hvs => exact .partialApp b (flip_all ih hvs)
  | closure c => cases h with | closure hc => exact .closure (hR _ _ hc)
  | eta c => cases h with | eta hc => exact .eta (hR _ _ hc)
  | integer | truth | string | dummy | fixpoint | builtin => cases h; constructor

/-- Values that are related to the same value are related if their functions are. -/
theorem Related.comp {Code'' : Type} {S' : Closure Code' → Closure Code'' → Prop}
    {T : Closure Code → Closure Code'' → Prop} (hT : ∀ c d e, R c d → S' d e → T c e)
    {v : Value Code} {w : Value Code'} {u : Value Code''} (h : Related R v w)
    (h' : Related S' w u) : Related T v u := by
  have comp_all : ∀ {vs : List (Value Code)} {ws : List (Value Code')} {us : List (Value Code'')},
      (∀ v ∈ vs, ∀ {w u}, Related R v w → Related S' w u → Related T v u) →
        List.Forall₂ (Related R) vs ws → List.Forall₂ (Related S') ws us →
          List.Forall₂ (Related T) vs us := by
    intro vs ws us ih hvs hws
    induction hvs generalizing us with
    | nil =>
      cases hws
      exact .nil
    | cons hvw _ ihs =>
      obtain _ | ⟨hwu, hrest⟩ := hws
      exact .cons (ih _ (by simp) hvw hwu) (ihs (fun v hv => ih v (by simp [hv])) hrest)
  induction v using parts_induction generalizing w u with
  | tuple vs ih =>
    cases h with
    | tuple hvs =>
      cases h' with
      | tuple hws => exact .tuple (comp_all ih hvs hws)
  | partialApp b vs ih =>
    cases h with
    | partialApp _ hvs =>
      cases h' with
      | partialApp _ hws => exact .partialApp b (comp_all ih hvs hws)
  | closure c =>
    cases h with
    | closure hcd => cases h' with | closure hde => exact .closure (hT _ _ _ hcd hde)
  | eta c =>
    cases h with
    | eta hcd => cases h' with | eta hde => exact .eta (hT _ _ _ hcd hde)
  | integer | truth | string | dummy | fixpoint | builtin =>
    cases h
    cases h'
    constructor

/-- Replacing bodies relates a value to its image, if it does so for its functions. -/
theorem All.related_mapCode {P : Closure Code → Prop} {f : Code → Code'}
    (hP : ∀ c, P c → R c (c.mapCode f)) {v : Value Code} (h : v.All P) :
    Related R v (v.mapCode f) := by
  induction v using parts_induction with
  | tuple vs ih =>
    rw [mapCode, mapCodeAll_eq_map]
    refine .tuple (List.forall₂_map_right_iff.2 (List.forall₂_same.2 fun v hv => ih v hv ?_))
    exact allIn_iff.1 h v hv
  | partialApp b vs ih =>
    rw [mapCode, mapCodeAll_eq_map]
    refine .partialApp b (List.forall₂_map_right_iff.2 (List.forall₂_same.2 fun v hv => ih v hv ?_))
    exact allIn_iff.1 h v hv
  | closure c => exact .closure (hP c h)
  | eta c => exact .eta (hP c h)
  | integer | truth | string | dummy | fixpoint | builtin => constructor

/-- In a value without functions of a program there are none to be replaced either. -/
theorem codeless_mapCode {f : Code → Code'} {v : Value Code} (h : v.Codeless) :
    (v.mapCode f).Codeless := by
  induction v using parts_induction with
  | tuple vs ih | partialApp b vs ih =>
    rw [Codeless, mapCode, mapCodeAll_eq_map, All, allIn_iff]
    intro w hw
    obtain ⟨v, hv, rfl⟩ := List.mem_map.1 hw
    exact ih v hv (allIn_iff.1 h v hv)
  | closure c => exact h.elim
  | eta c => exact h.elim
  | integer | truth | string | dummy | fixpoint | builtin => exact h

/-- A value is related to itself exactly if its functions are. -/
theorem related_self_iff {R : Closure Code → Closure Code → Prop} {v : Value Code} :
    Related R v v ↔ v.All fun c => R c c := by
  induction v using parts_induction with
  | tuple vs ih =>
    rw [All, allIn_iff]
    constructor
    · intro h v hv
      cases h with
      | tuple hvs => exact (ih v hv).1 (List.forall₂_same.1 hvs v hv)
    · exact fun h => .tuple (List.forall₂_same.2 fun v hv => (ih v hv).2 (h v hv))
  | partialApp b vs ih =>
    rw [All, allIn_iff]
    constructor
    · intro h v hv
      cases h with
      | partialApp _ hvs => exact (ih v hv).1 (List.forall₂_same.1 hvs v hv)
    · exact fun h => .partialApp b (List.forall₂_same.2 fun v hv => (ih v hv).2 (h v hv))
  | closure c => exact ⟨fun h => by cases h; assumption, .closure⟩
  | eta c => exact ⟨fun h => by cases h; assumption, .eta⟩
  | integer | truth | string | dummy | fixpoint | builtin =>
    exact ⟨fun _ => trivial, fun _ => by constructor⟩

/-- A value without functions of a program is related to itself by every correspondence. -/
theorem Codeless.related_self {R : Closure Code → Closure Code → Prop} {v : Value Code}
    (h : v.Codeless) : Related R v v := by
  have hself : Related (fun _ _ => False) v v := related_self_iff.2 h
  exact hself.mono fun _ _ hfalse => hfalse.elim

/-- In a value without functions of a program it does not matter what bodies are replaced by. -/
theorem Codeless.mapCode_related {Left Right : Type} {f : Code → Left} {g : Code → Right}
    {R : Closure Left → Closure Right → Prop} {v : Value Code} (h : v.Codeless) :
    Related R (v.mapCode f) (v.mapCode g) := by
  have hleft : Related (fun _ _ => False) v (v.mapCode f) :=
    All.related_mapCode (fun _ hc => hc.elim) h
  have hright : Related (fun _ _ => False) v (v.mapCode g) :=
    All.related_mapCode (fun _ hc => hc.elim) h
  have hflip : Related (fun _ _ => False) (v.mapCode f) v := hleft.flip fun _ _ hcd => hcd.elim
  exact hflip.comp (fun _ _ _ hcd => hcd.elim) hright

/-- Related values are of the same kind. -/
theorem Related.typeName_eq {v : Value Code} {w : Value Code'} (h : Related R v w) :
    v.typeName = w.typeName := by
  cases h <;> rfl

/-- Related values are both functions or both not. -/
theorem Related.isFunction_eq {v : Value Code} {w : Value Code'} (h : Related R v w) :
    v.isFunction = w.isFunction := by
  cases h <;> rfl

/-- The tuples without components are related. -/
theorem related_nil : Related R (nil : Value Code) nil := .tuple .nil

end Value

end EagerLambda
