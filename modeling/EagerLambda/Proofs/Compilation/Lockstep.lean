import EagerLambda.Program
import EagerLambda.Proofs.Machine.Lockstep

/-!
# Reports of programs in lockstep

Programs whose control tables are the same up to the names they bind have the same report, up to
functions and to the names that can be told apart at the root.

## Main definitions

- `Twins.SameFunction` — two functions with the same body, from the same environment
- `Program.Report.Paired` — two reports are the same up to functions

## Main statements

- `Program.execute_paired` — tables that are the same up to names have the same report
-/

namespace EagerLambda

open Control Machine

variable {naming : Naming} {table table' : Table} {settings settings' : Settings}

namespace Environments

variable {Code : Type}

theorem lookup_single {f : Frame Code} (hparent : f.parent = none) (name : Name) :
    (Environments.mk #[f]).lookup .root name = f.find? name := by
  have hframe : (Environments.mk #[f]).frames[EnvId.root.index]? = some f := rfl
  rw [lookup, search, hframe]
  simp only [hparent]
  cases f.find? name <;> rfl

end Environments

/-- A run starts with a single environment, which lies in no other. -/
theorem Machine.Settings.exists_root (settings : Settings) :
    ∃ f, settings.environments = ⟨#[f]⟩ ∧ f.parent = none :=
  ⟨_, settings.environments_eq, rfl⟩

/-- The root environments give related values, or none, to names that correspond at the root. -/
def Machine.Settings.Paired (naming : Naming) (settings settings' : Settings) : Prop :=
  settings.budget = settings'.budget ∧
    ∀ (R : Closure → Closure → Prop) (x y : Name), naming.free x y →
      Option.Rel (Value.Related R) (settings.environments.lookup .root x)
        (settings'.environments.lookup .root y)

/-- If no function of a program is bound at the root, what is bound there does not depend on the
names that functions bind. -/
theorem Machine.Settings.Codeless.paired_self (h : settings.Codeless)
    (hfree : ∀ x y, naming.free x y → x = y) : settings.Paired naming settings := by
  refine ⟨rfl, fun R x y hxy => ?_⟩
  obtain rfl := hfree x y hxy
  exact h.environments_related_self.search_rel x _ .root

/-- Two functions have the same body and were made in the same environment, and their parameters
correspond. -/
structure SameFunction (naming : Naming) (c d : Closure) : Prop where
  body : c.body = d.body
  env : c.env = d.env
  params : List.Forall₂ naming.bound c.params d.params

theorem Machine.Settings.Paired.environments (h : settings.Paired naming settings')
    (R : Closure → Closure → Prop) :
    Environments.Paired naming R [[]] settings.environments settings'.environments := by
  obtain ⟨-, hroot⟩ := h
  obtain ⟨f, hf, hparent⟩ := settings.exists_root
  obtain ⟨g, hg, hparent'⟩ := settings'.exists_root
  refine ⟨by rw [hf]; rfl, by rw [hg]; rfl, fun {i pairing} hi => ?_⟩
  obtain ⟨rfl, rfl⟩ : i = 0 ∧ [] = pairing := by
    simpa [List.getElem?_cons, List.getElem?_nil] using hi
  refine ⟨f, g, by rw [hf]; rfl, by rw [hg]; rfl, .root hparent hparent' fun x y hxy => ?_⟩
  have hrel := hroot R x y hxy
  rwa [hf, hg, Environments.lookup_single hparent, Environments.lookup_single hparent'] at hrel

namespace Program

/-- The reports are the same up to functions, which correspond by `naming`. -/
inductive Report.Paired (naming : Naming) : Report → Report → Prop
  | ok {v w : Value} {shown shown' : List Value} (structures steps environments : Nat) :
      Value.Related (SameFunction naming) v w →
      List.Forall₂ (Value.Related (SameFunction naming)) shown shown' →
      Paired naming ⟨.ok ⟨v, structures, steps, environments⟩, shown⟩
        ⟨.ok ⟨w, structures, steps, environments⟩, shown'⟩
  | error {error error' : Error} {shown shown' : List Value} : ErrorPaired naming error error' →
      List.Forall₂ (Value.Related (SameFunction naming)) shown shown' →
      Paired naming ⟨.error error, shown⟩ ⟨.error error', shown'⟩

/-- Tables that are the same up to names are loaded alike. -/
theorem load_inStep (hbody : BodyPaired naming table table' [] .entry)
    (hsettings : settings.Paired naming settings') :
    (∃ error, load table settings = .error error ∧ load table' settings' = .error error) ∨
      ∃ start start', load table settings = .ok (⟨table, settings.budget⟩, start) ∧
        load table' settings' = .ok (⟨table', settings.budget⟩, start') ∧
        InStep ⟨naming, table, table'⟩ [[]] start start' := by
  obtain ⟨items, items', hget, hget', hitems⟩ := hbody.exists_items
  have hentry : table.entry? = some ⟨.entry, items⟩ := hget
  have hentry' : table'.entry? = some ⟨.entry, items'⟩ := hget'
  have hempty : items'.isEmpty = items.isEmpty := by cases hitems <;> rfl
  simp only [load, hentry, hentry', hempty, hsettings.1]
  by_cases hnone : items.isEmpty
  · exact .inl ⟨_, if_pos hnone, if_pos hnone⟩
  · refine .inr ⟨_, _, if_neg hnone, if_neg hnone, ?_⟩
    exact {
      scopes := .cons ⟨rfl, [], rfl, List.rel_reverse hitems⟩ .nil
      operands := .cons (.marker .root) .nil
      envs := hsettings.environments _
      current := rfl
      current' := rfl
      steps := rfl
      shown := .nil }

/-- Tables that are the same up to names are executed alike. -/
theorem execute_paired (hbody : BodyPaired naming table table' [] .entry)
    (hsize : table'.size = table.size) (hsettings : settings.Paired naming settings')
    (fuel : Nat) :
    Option.Rel (Report.Paired naming) (execute fuel settings table)
      (execute fuel settings' table') := by
  have hshown : ∀ {statics : List Pairing} {s s' : State},
      SameOutput ⟨naming, table, table'⟩ statics s s' →
        List.Forall₂ (Value.Related (SameFunction naming)) s.shown.reverse s'.shown.reverse :=
    fun hsame => List.rel_reverse (hsame.shown.imp fun _ _ hvw => hvw.mono fun _ _ hcd =>
      ⟨hcd.body, hcd.env, hcd.params⟩)
  rw [execute, execute]
  rcases load_inStep hbody hsettings with
    ⟨error, hload, hload'⟩ | ⟨start, start', hload, hload', h⟩
  · rw [hload, hload']
    exact .some (.error (.same error) .nil)
  · have hturn := advance_inStep settings.budget fuel h
    rw [hload, hload']
    simp only at hturn ⊢
    generalize advance ⟨table, settings.budget⟩ fuel start = t at hturn ⊢
    generalize advance ⟨table', settings.budget⟩ fuel start' = t' at hturn ⊢
    cases hturn with
    | next _ => exact .none
    | halted hvw hsame =>
      simp only [hsize, hsame.steps, hsame.envs]
      exact .some (.ok _ _ _ (hvw.mono fun _ _ hcd => ⟨hcd.body, hcd.env, hcd.params⟩)
        (hshown hsame))
    | failed herror hsame => exact .some (.error herror (hshown hsame))

end Program

end EagerLambda
