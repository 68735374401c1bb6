import EagerLambda.Proofs.Environment.Relation

/-!
# Environments that bind different names

Two runs can bind different names as long as a name that is looked up in one finds what its
counterpart finds in the other. A pairing lists the names that are bound around a place of two
programs, the innermost first. By a pairing, two names correspond if they are bound by the same
entry, and by no entry before it; what no entry binds has to correspond at the root.

## Main definitions

- `Naming` — which names may correspond
- `Pairing.Relates` — two names are bound in the same place
- `Frame.Paired`, `Environments.Paired` — environments that bind names in the same places

## Main statements

- `Environments.Paired.lookup_found` — corresponding names have related values or are unbound
- `Environments.Paired.push` — opening environments that bind names in the same places
-/

namespace EagerLambda

variable {Code Code' : Type} {R : Closure Code → Closure Code' → Prop}

/-- Which names may stand in the same place of two programs. -/
structure Naming where
  /-- Names that no function binds. -/
  free : Name → Name → Prop
  /-- Names that functions bind. -/
  bound : Name → Name → Prop

/-- The names that are bound around a place of two programs, the innermost first. -/
abbrev Pairing := List (Name × Name)

namespace Pairing

/-- The two names are bound by the same entry, or by none. -/
def Relates (naming : Naming) : Pairing → Name → Name → Prop
  | [], x, y => naming.free x y
  | (a, b) :: rest, x, y => (x = a ∧ y = b) ∨ (x ≠ a ∧ y ≠ b ∧ Relates naming rest x y)

/-- The pairing inside functions that bind these names. The last of them is the innermost. -/
def bind (pairing : Pairing) (xs ys : List Name) : Pairing := (xs.zip ys).reverse ++ pairing

end Pairing

variable {naming : Naming} {x y : Name}

/-- What two names are found to be: related values, or nothing if they correspond at the root. -/
inductive Found (naming : Naming) (R : Closure Code → Closure Code' → Prop) (x y : Name) :
    Option (Value Code) → Option (Value Code') → Prop
  | value {v : Value Code} {w : Value Code'} : Value.Related R v w →
      Found naming R x y (some v) (some w)
  | unbound : naming.free x y → Found naming R x y none none

/-- The names that two lists of bindings bind in the same place. -/
def pairNames (bs : List (Binding Code)) (cs : List (Binding Code')) : Pairing :=
  List.zipWith (fun b c => (b.1, c.1)) bs cs

/-- The values in two lists of bindings are related. -/
def ValuesRelated (R : Closure Code → Closure Code' → Prop) (bs : List (Binding Code))
    (cs : List (Binding Code')) : Prop :=
  List.Forall₂ (fun b c => Value.Related R b.2 c.2) bs cs

/-- Binding names in the same place to related values. -/
theorem zip_paired {xs ys : List Name} {vs : List (Value Code)} {ws : List (Value Code')}
    (hvs : List.Forall₂ (Value.Related R) vs ws) (hx : vs.length = xs.length)
    (hy : ws.length = ys.length) :
    ValuesRelated R (xs.zip vs) (ys.zip ws) ∧ pairNames (xs.zip vs) (ys.zip ws) = xs.zip ys := by
  induction hvs generalizing xs ys with
  | nil =>
    obtain rfl : xs = [] := List.length_eq_zero_iff.1 hx.symm
    exact ⟨by simp [ValuesRelated], rfl⟩
  | cons hvw _ ih =>
    obtain ⟨x, xs, rfl⟩ := List.exists_cons_of_length_eq_add_one hx.symm
    obtain ⟨y, ys, rfl⟩ := List.exists_cons_of_length_eq_add_one hy.symm
    obtain ⟨hvalues, hnames⟩ := ih (by simpa using hx) (by simpa using hy)
    refine ⟨.cons hvw hvalues, ?_⟩
    rw [pairNames] at hnames ⊢
    rw [List.zip_cons_cons, List.zip_cons_cons, List.zipWith_cons_cons, hnames,
      List.zip_cons_cons]

/-- The frames of the environment with this number lie in the same environment and bind related
values. The names that can be looked up from there are in `pairing`; for the environments around it
they are in `statics`. -/
inductive Frame.Paired (naming : Naming) (R : Closure Code → Closure Code' → Prop)
    (statics : List Pairing) (index : Nat) : Pairing → Frame Code → Frame Code' → Prop
  | root {f : Frame Code} {g : Frame Code'} : f.parent = none → g.parent = none →
      (∀ x y, naming.free x y → Option.Rel (Value.Related R) (f.find? x) (g.find? y)) →
      Paired naming R statics index [] f g
  | inner {f : Frame Code} {g : Frame Code'} {parent : EnvId} {pairing : Pairing} :
      f.parent = some parent → g.parent = some parent → parent.index < index →
      statics[parent.index]? = some pairing → ValuesRelated R f.bindings g.bindings →
      Paired naming R statics index (pairNames f.bindings g.bindings ++ pairing) f g

theorem getElem?_append_of_eq_some {α : Type} {xs : List α} {i : Nat} {x : α}
    (h : xs[i]? = some x) (ys : List α) : (xs ++ ys)[i]? = some x := by
  rwa [List.getElem?_append_left (List.getElem?_eq_some_iff.1 h).1]

/-- Frames stay related when environments are added. -/
theorem Frame.Paired.mono {S : Closure Code → Closure Code' → Prop} {statics : List Pairing}
    {index : Nat} {pairing : Pairing} {f : Frame Code} {g : Frame Code'}
    (h : Frame.Paired naming R statics index pairing f g) (hRS : ∀ c d, R c d → S c d)
    (more : List Pairing) : Frame.Paired naming S (statics ++ more) index pairing f g := by
  cases h with
  | root hparent hparent' hfind =>
    refine .root hparent hparent' fun x y hxy => ?_
    have hrel := hfind x y hxy
    generalize f.find? x = v at hrel ⊢
    generalize g.find? y = w at hrel ⊢
    cases hrel with
    | some hvw => exact .some (hvw.mono hRS)
    | none => exact .none
  | inner hparent hparent' hlt houter hbindings =>
    exact .inner hparent hparent' hlt (getElem?_append_of_eq_some houter more)
      (hbindings.imp fun _ _ => .mono hRS)

/-- Names that correspond inside a frame are bound in it to related values, or correspond outside
it. -/
theorem lookup_paired {bs : List (Binding Code)} {cs : List (Binding Code')} {pairing : Pairing}
    (h : ValuesRelated R bs cs) (hxy : (pairNames bs cs ++ pairing).Relates naming x y) :
    (∃ v w, bs.lookup x = some v ∧ cs.lookup y = some w ∧ Value.Related R v w) ∨
      (bs.lookup x = none ∧ cs.lookup y = none ∧ pairing.Relates naming x y) := by
  induction h with
  | nil => exact .inr ⟨rfl, rfl, hxy⟩
  | @cons b c _ _ hbc _ ih =>
    obtain ⟨a, v⟩ := b
    obtain ⟨a', w⟩ := c
    rcases hxy with ⟨rfl, rfl⟩ | ⟨hx, hy, hrest⟩
    · exact .inl ⟨v, w, List.lookup_cons_self, List.lookup_cons_self, hbc⟩
    · have hx' : (x == a) = false := by simpa using hx
      have hy' : (y == a') = false := by simpa using hy
      simpa only [List.lookup_cons, hx', hy'] using ih hrest

namespace Environments

/-- Environments that bind names in the same places, with the names that can be looked up in each
of them. -/
structure Paired (naming : Naming) (R : Closure Code → Closure Code' → Prop)
    (statics : List Pairing) (envs : Environments Code) (envs' : Environments Code') : Prop where
  size : envs.size = statics.length
  size' : envs'.size = statics.length
  frame {i : Nat} {pairing : Pairing} : statics[i]? = some pairing →
    ∃ f g, envs.frames[i]? = some f ∧ envs'.frames[i]? = some g ∧
      Frame.Paired naming R statics i pairing f g

namespace Paired

variable {statics : List Pairing} {pairing : Pairing} {envs : Environments Code}
  {envs' : Environments Code'} {env : EnvId}

theorem search_found (h : Paired naming R statics envs envs') {depth : Nat}
    (hscope : statics[env.index]? = some pairing) (hxy : pairing.Relates naming x y)
    (hdepth : env.index < depth) :
    Found naming R x y (envs.search x depth env) (envs'.search y depth env) := by
  induction depth generalizing env pairing with
  | zero => omega
  | succ depth ih =>
    obtain ⟨f, g, hf, hg, hframe⟩ := h.frame hscope
    rw [search, search, hf, hg]
    simp only
    cases hframe with
    | root hparent hparent' hfind =>
      have hrel := hfind x y hxy
      rw [hparent, hparent']
      generalize f.find? x = v at hrel ⊢
      generalize g.find? y = w at hrel ⊢
      cases hrel with
      | some hvw => exact .value hvw
      | none => exact .unbound hxy
    | @inner _ _ parent outer hparent hparent' hlt houter hvalues =>
      rcases lookup_paired hvalues hxy with ⟨v, w, hv, hw, hvw⟩ | ⟨hv, hw, hxy'⟩
      · rw [Frame.find?, Frame.find?, hv, hw]
        exact .value hvw
      · rw [Frame.find?, Frame.find?, hv, hw, hparent, hparent']
        exact ih houter hxy' (by omega)

/-- Corresponding names have related values, or are unbound on both sides. -/
theorem lookup_found (h : Paired naming R statics envs envs')
    (hscope : statics[env.index]? = some pairing) (hxy : pairing.Relates naming x y) :
    Found naming R x y (envs.lookup env x) (envs'.lookup env y) :=
  h.search_found hscope hxy (Nat.lt_succ_self _)

theorem size_eq (h : Paired naming R statics envs envs') : envs.size = envs'.size := by
  rw [h.size, h.size']

/-- Opening environments that bind related values in the same places. -/
theorem push {S : Closure Code → Closure Code' → Prop} {parent : EnvId}
    {bs : List (Binding Code)} {cs : List (Binding Code')}
    (h : Paired naming R statics envs envs') (hRS : ∀ c d, R c d → S c d)
    (hscope : statics[parent.index]? = some pairing) (hvalues : ValuesRelated S bs cs) :
    Paired naming S (statics ++ [(pairNames bs cs).reverse ++ pairing])
      (envs.push parent bs) (envs'.push parent cs) := by
  have hlt : parent.index < statics.length := (List.getElem?_eq_some_iff.1 hscope).1
  refine ⟨by simp [h.size], by simp [h.size'], ?_⟩
  intro i inner hi
  by_cases hlast : i < statics.length
  · rw [List.getElem?_append_left hlast] at hi
    obtain ⟨f, g, hf, hg, hframe⟩ := h.frame hi
    exact ⟨f, g, frame_push hf _ _, frame_push hg _ _, hframe.mono hRS _⟩
  · have hi' : i = statics.length := by
      have := (List.getElem?_eq_some_iff.1 hi).1
      simp only [List.length_append, List.length_singleton] at this
      omega
    subst hi'
    obtain rfl : (pairNames bs cs).reverse ++ pairing = inner := by simpa using hi
    -- A frame lists its bindings latest first, so a later parameter hides an earlier one.
    have hnames : (pairNames bs cs).reverse = pairNames bs.reverse cs.reverse :=
      List.reverse_zipWith hvalues.length_eq
    have hreverse : ValuesRelated S bs.reverse cs.reverse := List.rel_reverse hvalues
    refine ⟨.ofBindings (some parent) bs, .ofBindings (some parent) cs, ?_, ?_, ?_⟩
    · rw [← h.size, frame_push_size]
    · rw [← h.size', frame_push_size]
    · have hparent := getElem?_append_of_eq_some hscope [(pairNames bs cs).reverse ++ pairing]
      rw [hnames] at hparent ⊢
      exact Frame.Paired.inner (f := .ofBindings (some parent) bs)
        (g := .ofBindings (some parent) cs) rfl rfl hlt hparent hreverse

end Paired

end Environments

end EagerLambda
