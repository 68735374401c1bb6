import EagerLambda.Proofs.Environment.Relation

/-!
# Environments and what was asked for

All that is done to the environments of a run is to bind names at the root and to open environments
inside others. A ledger keeps what was asked for: an entry for each environment, with the bindings
in the order in which they were listed. The value of a name is found by reading the ledger: it is
the last binding listed for the name in the nearest entry, on the way from parent to parent, that
lists it.

## Main definitions

- `Environments.Call`, `Environments.perform` — what is done to environments
- `Ledger.record` — what is written down of it
- `Ledger.Finds` — the value of a name, read from the ledger
- `Ledger.Reaches` — the way outward from an environment gets to the root before it meets a name
- `Environments.Faithful` — environments that do what the ledger says

## Main statements

- `Ledger.finds_append_iff`, `Ledger.finds_bindRoot_iff` — what an operation does to the values of
  names
- `Environments.faithful_after` — after any operations, environments do what the ledger says
- `Environments.lookup_after_extensions` — what is bound in an environment stays as others are
  opened
-/

namespace EagerLambda

variable {Code : Type}

-- ════════════════════════════════════════════════════════════════════════
-- Operations
-- ════════════════════════════════════════════════════════════════════════

namespace Environments

/-- An operation that changes environments. -/
inductive Call (Code : Type := ControlId)
  | bindRoot (binding : Binding Code)
  | extend (parent : EnvId) (bindings : List (Binding Code))

/-- The environments after an operation. One that fails has no effect. -/
def perform (envs : Environments Code) : Call Code → Environments Code
  | .bindRoot binding => envs.bindRoot binding
  | .extend parent bindings =>
    match envs.open? parent bindings with
    | .ok (_, opened) => opened
    | .error _ => envs

/-- The environments after a sequence of operations on the root environment alone, which holds the
primitives or nothing. -/
def after (primitives : Bool) (calls : List (Call Code)) : Environments Code :=
  calls.foldl perform (if primitives then withPrimitives else empty)

end Environments

open Environments (Call)

/-- The bindings listed for an environment, in the order in which they were listed. -/
structure Entry (Code : Type := ControlId) where
  parent : Option EnvId
  listed : List (Binding Code)

/-- What was asked for, one entry for each environment. -/
abbrev Ledger (Code : Type := ControlId) := List (Entry Code)

namespace Entry

/-- The entry with one more binding listed. -/
def add (entry : Entry Code) (binding : Binding Code) : Entry Code :=
  { entry with listed := entry.listed ++ [binding] }

/-- The entry lists the name. -/
def Lists (entry : Entry Code) (name : Name) : Prop := ∃ v, (name, v) ∈ entry.listed

/-- The last binding that the entry lists for the name. -/
def Last (entry : Entry Code) (name : Name) (v : Value Code) : Prop :=
  ∃ before after, entry.listed = before ++ (name, v) :: after ∧ ∀ w, (name, w) ∉ after

/-- The frame that the entry stands for. -/
def frame (entry : Entry Code) : Frame Code := .ofBindings entry.parent entry.listed

end Entry

namespace Ledger

/-- The ledger after an operation. An environment is opened inside one that exists, as long as there
are numbers for it. -/
def record (ledger : Ledger Code) : Call Code → Ledger Code
  | .bindRoot binding => ledger.modify 0 fun entry => entry.add binding
  | .extend parent bindings =>
    if parent.index < ledger.length ∧ ledger.length < handleLimit then
      ledger ++ [⟨some parent, bindings⟩]
    else ledger

/-- The ledger after a sequence of operations on the root environment alone. -/
def after (primitives : Bool) (calls : List (Call Code)) : Ledger Code :=
  calls.foldl record [⟨none, if primitives then EagerLambda.primitives else []⟩]

/-- The value of a name in an environment: the last one listed for it there, or else its value in
the environment around it. -/
inductive Finds (ledger : Ledger Code) (name : Name) : EnvId → Value Code → Prop
  | here {env : EnvId} {entry : Entry Code} {v : Value Code} :
      ledger[env.index]? = some entry → entry.Last name v → Finds ledger name env v
  | outer {env parent : EnvId} {entry : Entry Code} {v : Value Code} :
      ledger[env.index]? = some entry → ¬ entry.Lists name → entry.parent = some parent →
      Finds ledger name parent v → Finds ledger name env v

/-- The way outward from the environment gets to the root before it meets the name. -/
inductive Reaches (ledger : Ledger Code) (name : Name) : EnvId → Prop
  | root : Reaches ledger name .root
  | outer {env parent : EnvId} {entry : Entry Code} : env ≠ .root →
      ledger[env.index]? = some entry → ¬ entry.Lists name → entry.parent = some parent →
      Reaches ledger name parent → Reaches ledger name env

/-- The parent of every environment but the root is older than the environment. -/
structure Ordered (ledger : Ledger Code) : Prop where
  root : ∃ entry, ledger[0]? = some entry ∧ entry.parent = none
  older : ∀ i entry, 0 < i → ledger[i]? = some entry →
    ∃ parent, entry.parent = some parent ∧ parent.index < i

end Ledger

-- ════════════════════════════════════════════════════════════════════════
-- Entries
-- ════════════════════════════════════════════════════════════════════════

namespace Entry

variable {entry : Entry Code} {name x : Name} {v w : Value Code}

/-- A frame gives a name the last value that its entry lists. -/
theorem find?_eq_some_iff : entry.frame.find? name = some v ↔ entry.Last name v := by
  rw [frame, Frame.find?, Frame.ofBindings, List.lookup_eq_some_iff]
  constructor
  · rintro ⟨later, earlier, hlisted, hlater⟩
    rw [List.reverse_eq_append_iff, List.reverse_cons, List.append_assoc] at hlisted
    refine ⟨earlier.reverse, later.reverse, hlisted, fun w hw => ?_⟩
    have hne := hlater (name, w) (List.mem_reverse.1 hw)
    simp at hne
  · rintro ⟨before, after, hlisted, hafter⟩
    refine ⟨after.reverse, before.reverse, by simp [hlisted], fun binding hbinding => ?_⟩
    rw [bne_iff_ne]
    rintro rfl
    exact hafter binding.2 (List.mem_reverse.1 hbinding)

/-- A frame gives a name no value if its entry does not list the name. -/
theorem find?_eq_none_iff : entry.frame.find? name = none ↔ ¬ entry.Lists name := by
  rw [frame, Frame.find?, Frame.ofBindings, List.lookup_eq_none_iff]
  constructor
  · rintro h ⟨v, hv⟩
    have hne := h (name, v) (List.mem_reverse.2 hv)
    simp at hne
  · intro h binding hbinding
    rw [bne_iff_ne]
    rintro rfl
    exact h ⟨binding.2, List.mem_reverse.1 hbinding⟩

theorem frame_add (entry : Entry Code) (binding : Binding Code) :
    (entry.add binding).frame = entry.frame.bind binding.1 binding.2 := by
  simp [add, frame, Frame.ofBindings, Frame.bind]

theorem last_add_self : (entry.add (name, v)).Last name w ↔ w = v := by
  rw [← find?_eq_some_iff, frame_add, Frame.find?, Frame.bind, List.lookup_cons_self,
    Option.some.injEq, eq_comm]

theorem find?_add_of_ne (h : x ≠ name) :
    (entry.add (name, v)).frame.find? x = entry.frame.find? x := by
  have hne : (x == name) = false := beq_false_of_ne h
  rw [frame_add, Frame.find?, Frame.bind, List.lookup_cons, hne]
  rfl

theorem last_add_of_ne (h : x ≠ name) : (entry.add (name, v)).Last x w ↔ entry.Last x w := by
  rw [← find?_eq_some_iff, find?_add_of_ne h, find?_eq_some_iff]

theorem lists_of_last (h : entry.Last name v) : entry.Lists name := by
  obtain ⟨before, after, hlisted, -⟩ := h
  exact ⟨v, hlisted ▸ List.mem_append_right _ List.mem_cons_self⟩

end Entry

-- ════════════════════════════════════════════════════════════════════════
-- The value of a name
-- ════════════════════════════════════════════════════════════════════════

namespace Ledger

variable {ledger : Ledger Code} {name x : Name} {v w : Value Code} {env : EnvId}
  {entry : Entry Code}

theorem Ordered.length_pos (h : Ordered ledger) : 0 < ledger.length := by
  obtain ⟨entry, hget, -⟩ := h.root
  exact (List.getElem?_eq_some_iff.1 hget).1

theorem Ordered.parent_lt (h : Ordered ledger) {i : Nat} {parent : EnvId}
    (hget : ledger[i]? = some entry) (hparent : entry.parent = some parent) :
    parent.index < i := by
  cases i with
  | zero =>
    obtain ⟨first, hfirst, hnone⟩ := h.root
    cases hget.symm.trans hfirst
    cases hnone.symm.trans hparent
  | succ i =>
    obtain ⟨found, hfound, hlt⟩ := h.older _ entry (Nat.succ_pos i) hget
    cases hparent.symm.trans hfound
    exact hlt

theorem finds_iff (hget : ledger[env.index]? = some entry) :
    Finds ledger name env v ↔ entry.Last name v ∨
      ¬ entry.Lists name ∧ ∃ parent, entry.parent = some parent ∧ Finds ledger name parent v := by
  constructor
  · intro h
    cases h with
    | here hfound hlast =>
      cases hget.symm.trans hfound
      exact .inl hlast
    | outer hfound hlists hparent houter =>
      cases hget.symm.trans hfound
      exact .inr ⟨hlists, _, hparent, houter⟩
  · rintro (hlast | ⟨hlists, parent, hparent, houter⟩)
    · exact .here hget hlast
    · exact .outer hget hlists hparent houter

/-- Nothing is found in an environment that does not exist. -/
theorem not_finds_of_length_le (h : ledger.length ≤ env.index) : ¬ Finds ledger name env v := by
  intro hfinds
  have hnone : ledger[env.index]? = none := List.getElem?_eq_none h
  cases hfinds with
  | here hfound _ => cases hnone.symm.trans hfound
  | outer hfound _ _ _ => cases hnone.symm.trans hfound

/-- The way outward from an environment gets to the root, unless it meets the name before. -/
theorem reaches_iff (hne : env ≠ .root) (hget : ledger[env.index]? = some entry) :
    Reaches ledger name env ↔
      ¬ entry.Lists name ∧ ∃ parent, entry.parent = some parent ∧ Reaches ledger name parent := by
  constructor
  · intro h
    cases h with
    | root => exact absurd rfl hne
    | outer _ hfound hlists hparent houter =>
      cases hget.symm.trans hfound
      exact ⟨hlists, _, hparent, houter⟩
  · rintro ⟨hlists, parent, hparent, houter⟩
    exact .outer hne hget hlists hparent houter

/-- Environments that are opened later do not change the value of a name. -/
theorem finds_append_iff (hledger : Ordered ledger) (more : Ledger Code)
    (henv : env.index < ledger.length) :
    Finds (ledger ++ more) name env v ↔ Finds ledger name env v := by
  obtain ⟨index⟩ := env
  induction index using Nat.strongRecOn with
  | ind index ih =>
    have hget : ledger[index]? = some ledger[index] := List.getElem?_eq_getElem henv
    have hget' : (ledger ++ more)[index]? = some ledger[index] := by
      rw [List.getElem?_append_left henv, hget]
    rw [finds_iff hget, finds_iff hget']
    refine or_congr_right (and_congr_right fun _ => exists_congr fun parent =>
      and_congr_right fun hparent => ?_)
    have hlt : parent.index < index := hledger.parent_lt hget hparent
    exact ih parent.index hlt (Nat.lt_trans hlt henv)

-- ════════════════════════════════════════════════════════════════════════
-- Names bound at the root
-- ════════════════════════════════════════════════════════════════════════

theorem getElem?_bindRoot_zero (binding : Binding Code) (hget : ledger[0]? = some entry) :
    (ledger.record (.bindRoot binding))[0]? = some (entry.add binding) := by
  rw [record, List.getElem?_modify_eq, hget]
  rfl

theorem getElem?_bindRoot_of_pos (binding : Binding Code) {i : Nat} (h : 0 < i) :
    (ledger.record (.bindRoot binding))[i]? = ledger[i]? := by
  rw [record, List.getElem?_modify_ne _ _ (Nat.ne_of_lt h)]

/-- A name bound at the root has the new value wherever the way outward gets to the root. -/
theorem finds_bindRoot_of_reaches (hledger : Ordered ledger) (h : Reaches ledger name env) :
    Finds (ledger.record (.bindRoot (name, v))) name env w ↔ w = v := by
  induction h with
  | root =>
    obtain ⟨entry, hget, hparent⟩ := hledger.root
    have hget' : (ledger.record (.bindRoot (name, v)))[EnvId.root.index]? =
        some (entry.add (name, v)) := getElem?_bindRoot_zero (name, v) hget
    rw [finds_iff hget', Entry.last_add_self]
    refine or_iff_left_of_imp ?_
    rintro ⟨-, parent, hsome, -⟩
    cases hparent.symm.trans hsome
  | @outer env parent entry hne hget hlists hparent _ ih =>
    have hpos : 0 < env.index := Nat.pos_of_ne_zero fun h => hne (congrArg EnvId.mk h)
    rw [finds_iff ((getElem?_bindRoot_of_pos (name, v) hpos).trans hget), ← ih]
    constructor
    · rintro (hlast | ⟨-, parent', hparent', hfinds⟩)
      · exact absurd (Entry.lists_of_last hlast) hlists
      · cases hparent.symm.trans hparent'
        exact hfinds
    · exact fun hfinds => .inr ⟨hlists, parent, hparent, hfinds⟩

/-- No other value changes if a name is bound at the root. -/
theorem finds_bindRoot_iff (hledger : Ordered ledger)
    (h : x ≠ name ∨ ¬ Reaches ledger name env) :
    Finds (ledger.record (.bindRoot (name, v))) x env w ↔ Finds ledger x env w := by
  obtain ⟨index⟩ := env
  induction index using Nat.strongRecOn with
  | ind index ih =>
    rcases Nat.eq_zero_or_pos index with rfl | hpos
    · -- At the root, only the name that is bound is affected.
      have hne : x ≠ name := h.resolve_right fun hnot => hnot .root
      obtain ⟨entry, hget, hparent⟩ := hledger.root
      have hnone : (entry.add (name, v)).parent = none := hparent
      have hnone' : ∀ P : EnvId → Prop, ¬ ∃ parent, none = some parent ∧ P parent := by
        rintro P ⟨parent, hsome, -⟩
        cases hsome
      rw [finds_iff (getElem?_bindRoot_zero (name, v) hget), finds_iff hget,
        Entry.last_add_of_ne hne, hnone, hparent]
      simp only [hnone', and_false]
    · have hsame : (ledger.record (.bindRoot (name, v)))[index]? = ledger[index]? :=
        getElem?_bindRoot_of_pos (name, v) hpos
      rcases Nat.lt_or_ge index ledger.length with hlt | hge
      · have hget : ledger[index]? = some ledger[index] := List.getElem?_eq_getElem hlt
        rw [finds_iff (hsame.trans hget), finds_iff hget]
        refine or_congr_right (and_congr_right fun hlists => exists_congr fun parent =>
          and_congr_right fun hparent => ih parent.index (hledger.parent_lt hget hparent) ?_)
        by_cases hx : x = name
        · subst hx
          have hnot := h.resolve_left fun hne => hne rfl
          have hroot : EnvId.mk index ≠ .root :=
            fun h => Nat.ne_of_gt hpos (congrArg EnvId.index h)
          rw [reaches_iff hroot hget] at hnot
          exact .inr fun hreaches => hnot ⟨hlists, parent, hparent, hreaches⟩
        · exact .inl hx
      · have hlength : (ledger.record (.bindRoot (name, v))).length ≤ index := by
          rwa [record, List.length_modify]
        exact iff_of_false (not_finds_of_length_le hlength) (not_finds_of_length_le hge)

theorem Ordered.record (h : Ordered ledger) (call : Call Code) : Ordered (ledger.record call) := by
  obtain ⟨first, hfirst, hnone⟩ := h.root
  cases call with
  | bindRoot binding =>
    refine ⟨⟨first.add binding, getElem?_bindRoot_zero binding hfirst, hnone⟩,
      fun i entry hi hget => ?_⟩
    rw [getElem?_bindRoot_of_pos binding hi] at hget
    exact h.older i entry hi hget
  | extend parent bindings =>
    rw [Ledger.record]
    split
    · next hroom =>
      refine ⟨⟨first, ?_, hnone⟩, fun i entry hi hget => ?_⟩
      · rwa [List.getElem?_append_left h.length_pos]
      · rcases Nat.lt_or_ge i ledger.length with hlt | hge
        · rw [List.getElem?_append_left hlt] at hget
          exact h.older i entry hi hget
        · rw [List.getElem?_append_right hge] at hget
          have hentry := List.mem_singleton.1 (List.mem_of_getElem? hget)
          subst hentry
          exact ⟨parent, rfl, Nat.lt_of_lt_of_le hroom.1 hge⟩
    · exact h

end Ledger

-- ════════════════════════════════════════════════════════════════════════
-- Environments and their ledger
-- ════════════════════════════════════════════════════════════════════════

namespace Environments

open Ledger (Finds Reaches Ordered)

/-- The ledger lists what is bound in the environments. -/
structure Recorded (ledger : Ledger Code) (envs : Environments Code) : Prop where
  ordered : Ordered ledger
  frames : envs.frames.toList = ledger.map Entry.frame

variable {ledger : Ledger Code} {envs : Environments Code} {name x : Name} {v : Value Code}
  {env parent : EnvId} {bindings : List (Binding Code)}

namespace Recorded

theorem size_eq (h : Recorded ledger envs) : envs.size = ledger.length := by
  rw [size, ← Array.length_toList, h.frames, List.length_map]

theorem frame_eq (h : Recorded ledger envs) (i : Nat) :
    envs.frames[i]? = ledger[i]?.map Entry.frame := by
  rw [← Array.getElem?_toList, h.frames, List.getElem?_map]

theorem parent?_eq (h : Recorded ledger envs) (env : EnvId) :
    envs.parent? env = ledger[env.index]?.bind Entry.parent := by
  rw [parent?, h.frame_eq]
  cases ledger[env.index]? with
  | none => rfl
  | some entry => rfl

theorem bindRoot (h : Recorded ledger envs) (binding : Binding Code) :
    Recorded (ledger.record (.bindRoot binding)) (envs.bindRoot binding) := by
  refine ⟨h.ordered.record _, ?_⟩
  have hroot : EnvId.root.index = 0 := rfl
  rw [Environments.bindRoot, hroot, Array.toList_modify, h.frames, Ledger.record]
  cases ledger with
  | nil => rfl
  | cons entry rest =>
    simp only [List.map_cons, List.modify_zero_cons, Entry.frame_add]

/-- An environment is opened if there is room for it inside one that exists. -/
theorem open?_eq (h : Recorded ledger envs) (parent : EnvId) (bindings : List (Binding Code)) :
    (parent.index < ledger.length ∧ ledger.length < handleLimit ∧
        envs.open? parent bindings = .ok (⟨ledger.length⟩, envs.push parent bindings)) ∨
      (¬ (parent.index < ledger.length ∧ ledger.length < handleLimit) ∧
        ∃ fault, envs.open? parent bindings = .error (.machine fault)) := by
  have hroom : envs.openFault? parent = none ↔
      parent.index < ledger.length ∧ ledger.length < handleLimit := by
    rw [openFault?_eq_none_iff, h.size_eq]
  rw [open?, nextId, h.size_eq]
  cases hfault : envs.openFault? parent with
  | none =>
    obtain ⟨hparent, hlimit⟩ := hroom.1 hfault
    exact .inl ⟨hparent, hlimit, rfl⟩
  | some fault =>
    refine .inr ⟨fun hopen => ?_, fault, rfl⟩
    cases hfault.symm.trans (hroom.2 hopen)

theorem push (h : Recorded ledger envs) (hparent : parent.index < ledger.length)
    (hroom : ledger.length < handleLimit) (bindings : List (Binding Code)) :
    Recorded (ledger ++ [⟨some parent, bindings⟩]) (envs.push parent bindings) := by
  have hordered := h.ordered.record (.extend parent bindings)
  rw [Ledger.record, if_pos ⟨hparent, hroom⟩] at hordered
  refine ⟨hordered, ?_⟩
  rw [Environments.push, Array.toList_push, h.frames, List.map_append]
  rfl

theorem perform (h : Recorded ledger envs) (call : Call Code) :
    Recorded (ledger.record call) (envs.perform call) := by
  cases call with
  | bindRoot binding => exact h.bindRoot binding
  | extend parent bindings =>
    rw [Ledger.record, Environments.perform]
    rcases h.open?_eq parent bindings with ⟨hparent, hroom, hopen⟩ | ⟨hnot, fault, hopen⟩
    · rw [if_pos ⟨hparent, hroom⟩, hopen]
      exact h.push hparent hroom bindings
    · rw [if_neg hnot, hopen]
      exact h

theorem foldl (h : Recorded ledger envs) (calls : List (Call Code)) :
    Recorded (calls.foldl Ledger.record ledger) (calls.foldl Environments.perform envs) := by
  induction calls generalizing ledger envs with
  | nil => exact h
  | cons call rest ih => exact ih (h.perform call)

/-- On a way outward that is long enough, a name has the value that is read from the ledger. -/
theorem search_eq_some_iff (h : Recorded ledger envs) {depth : Nat} (hdepth : env.index < depth) :
    envs.search name depth env = some v ↔ Finds ledger name env v := by
  induction depth generalizing env with
  | zero => cases hdepth
  | succ depth ih =>
    rw [search, h.frame_eq]
    cases hget : ledger[env.index]? with
    | none =>
      have hnot : ¬ Finds ledger name env v :=
        Ledger.not_finds_of_length_le (List.getElem?_eq_none_iff.1 hget)
      exact iff_of_false (fun h => by cases h) hnot
    | some entry =>
      rw [Ledger.finds_iff hget, ← Entry.find?_eq_some_iff, ← Entry.find?_eq_none_iff]
      simp only [Option.map_some]
      cases hfind : entry.frame.find? name with
      | some found => simp
      | none =>
        have hparent : entry.frame.parent = entry.parent := rfl
        simp only [reduceCtorEq, false_or, true_and, hparent]
        cases hentry : entry.parent with
        | none => simp
        | some parent =>
          have hlt := h.ordered.parent_lt hget hentry
          simp only [Option.some.injEq, exists_eq_left']
          exact ih (by omega)

theorem lookup_eq_some_iff (h : Recorded ledger envs) :
    envs.lookup env name = some v ↔ Finds ledger name env v :=
  h.search_eq_some_iff (Nat.lt_succ_self _)

end Recorded

/-- The environments that runs start with are recorded. -/
theorem recorded_after (primitives : Bool) (calls : List (Call Code)) :
    Recorded (Ledger.after primitives calls) (after primitives calls) := by
  refine Recorded.foldl ⟨⟨⟨_, rfl, rfl⟩, fun i entry hi hget => ?_⟩, ?_⟩ calls
  · have hlt := (List.getElem?_eq_some_iff.1 hget).1
    rw [List.length_singleton] at hlt
    omega
  · cases primitives with
    | false => rfl
    | true =>
      simp only [if_true, withPrimitives, empty, Frame.ofBindings, bindAll_single]
      simp [Entry.frame, Frame.ofBindings]

/-- Environments that do what their ledger says. -/
structure Faithful (ledger : Ledger Code) (envs : Environments Code) : Prop where
  size : envs.size = ledger.length
  root : envs.parent? .root = none
  /-- The parent of every other environment is older. -/
  older : ∀ env, env ≠ .root → env.index < envs.size →
    ∃ parent, envs.parent? env = some parent ∧ parent.index < env.index
  /-- Looking a name up comes to an end: it does not depend on how far outward it may go. -/
  ends : ∀ env name depth, env.index < depth → envs.search name depth env = envs.lookup env name
  finds : ∀ env name v, envs.lookup env name = some v ↔ Finds ledger name env v
  missing : ∀ env name, envs.size ≤ env.index → envs.lookup env name = none
  /-- Opening an environment adds one and does not change what names are bound to in the others. -/
  opened : ∀ parent bindings env envs', envs.open? parent bindings = .ok (env, envs') →
    env.index = envs.size ∧ envs'.size = envs.size + 1 ∧ envs'.parent? env = some parent ∧
      ∀ env name, env.index < envs.size → envs'.lookup env name = envs.lookup env name
  /-- It fails if there is no such parent or no number left, and changes nothing then. -/
  refused : ∀ parent bindings, (∃ error, envs.open? parent bindings = .error error) ↔
    envs.size ≤ parent.index ∨ handleLimit ≤ envs.size
  unopened : ∀ parent bindings error, envs.open? parent bindings = .error error →
    envs.perform (.extend parent bindings) = envs
  /-- Binding a name at the root gives it the value where the way outward gets to the root. -/
  bound : ∀ env name v, Reaches ledger name env →
    (envs.bindRoot (name, v)).lookup env name = some v
  /-- No other value changes. -/
  kept : ∀ env x name v, x ≠ name ∨ ¬ Reaches ledger name env →
    (envs.bindRoot (name, v)).lookup env x = envs.lookup env x

namespace Recorded

theorem older (h : Recorded ledger envs) (hne : env ≠ .root) (henv : env.index < envs.size) :
    ∃ parent, envs.parent? env = some parent ∧ parent.index < env.index := by
  rw [h.size_eq] at henv
  have hpos : 0 < env.index := Nat.pos_of_ne_zero fun h => hne (congrArg EnvId.mk h)
  have hget : ledger[env.index]? = some ledger[env.index] := List.getElem?_eq_getElem henv
  rw [h.parent?_eq, hget]
  exact h.ordered.older _ _ hpos hget

/-- A longer way outward gives no other value. -/
theorem search_eq_lookup (h : Recorded ledger envs) {depth : Nat} (hdepth : env.index < depth) :
    envs.search name depth env = envs.lookup env name := by
  apply Option.ext
  intro v
  rw [h.search_eq_some_iff hdepth, h.lookup_eq_some_iff]

/-- Opening an environment changes no value of a name in one that exists. -/
theorem lookup_push (h : Recorded ledger envs) (hparent : parent.index < envs.size)
    (hroom : envs.size < handleLimit) (henv : env.index < envs.size) :
    (envs.push parent bindings).lookup env name = envs.lookup env name := by
  rw [h.size_eq] at hparent hroom henv
  apply Option.ext
  intro v
  rw [(h.push hparent hroom bindings).lookup_eq_some_iff, h.lookup_eq_some_iff,
    Ledger.finds_append_iff h.ordered _ henv]

theorem opened (h : Recorded ledger envs) {envs' : Environments Code}
    (hopen : envs.open? parent bindings = .ok (env, envs')) :
    env.index = envs.size ∧ envs'.size = envs.size + 1 ∧ envs'.parent? env = some parent ∧
      ∀ env name, env.index < envs.size → envs'.lookup env name = envs.lookup env name := by
  rcases h.open?_eq parent bindings with ⟨hparent, hroom, hok⟩ | ⟨-, fault, herror⟩
  · cases hok.symm.trans hopen
    have hsize := h.size_eq
    refine ⟨hsize.symm, size_push _ _ _, ?_, fun env name henv => ?_⟩
    · rw [parent?, ← hsize, frame_push_size]
      rfl
    · rw [← hsize] at hparent hroom
      exact h.lookup_push hparent hroom henv
  · cases herror.symm.trans hopen

theorem refused_iff (h : Recorded ledger envs) :
    (∃ error, envs.open? parent bindings = .error error) ↔
      envs.size ≤ parent.index ∨ handleLimit ≤ envs.size := by
  rw [h.size_eq]
  rcases h.open?_eq parent bindings with ⟨hparent, hroom, hok⟩ | ⟨hnot, fault, herror⟩
  · rw [hok]
    exact iff_of_false nofun (by omega)
  · exact iff_of_true ⟨_, herror⟩ (by omega)

theorem faithful (h : Recorded ledger envs) : Faithful ledger envs where
  size := h.size_eq
  root := by
    obtain ⟨entry, hget, hnone⟩ := h.ordered.root
    have hroot : ledger[EnvId.root.index]? = some entry := hget
    rw [h.parent?_eq, hroot]
    exact hnone
  older _ hne henv := h.older hne henv
  ends _ _ _ hdepth := h.search_eq_lookup hdepth
  finds _ _ _ := h.lookup_eq_some_iff
  missing env name henv := by
    rw [h.size_eq] at henv
    exact Option.eq_none_iff_forall_ne_some.2 fun v hv =>
      Ledger.not_finds_of_length_le henv (h.lookup_eq_some_iff.1 hv)
  opened _ _ _ _ hopen := h.opened hopen
  refused _ _ := h.refused_iff
  unopened parent bindings error herror := by rw [Environments.perform, herror]
  bound env name v hreaches := by
    rw [(h.bindRoot _).lookup_eq_some_iff]
    exact (Ledger.finds_bindRoot_of_reaches h.ordered hreaches).2 rfl
  kept env x name v hother := by
    apply Option.ext
    intro w
    rw [(h.bindRoot _).lookup_eq_some_iff, h.lookup_eq_some_iff,
      Ledger.finds_bindRoot_iff h.ordered hother]

end Recorded

/-- After any operations, environments do what their ledger says. -/
theorem faithful_after (primitives : Bool) (calls : List (Call Code)) :
    Faithful (Ledger.after primitives calls) (after primitives calls) :=
  (recorded_after primitives calls).faithful

-- ════════════════════════════════════════════════════════════════════════
-- Environments opened later
-- ════════════════════════════════════════════════════════════════════════

/-- The operations that open environments, one inside each parent. -/
def extensions (opened : List (EnvId × List (Binding Code))) : List (Call Code) :=
  opened.map fun (parent, bindings) => .extend parent bindings

theorem after_append (primitives : Bool) (calls more : List (Call Code)) :
    after primitives (calls ++ more) = more.foldl perform (after primitives calls) :=
  List.foldl_append

theorem perform_extend (h : envs.openFault? parent = none) (bindings : List (Binding Code)) :
    envs.perform (.extend parent bindings) = envs.push parent bindings := by
  rw [perform, open?, h]

/-- Opening an environment, or failing to, keeps what is bound in those that are there. -/
theorem lookup_perform_extend (h : Faithful ledger envs) (parent : EnvId)
    (bindings : List (Binding Code)) (henv : env.index < envs.size) :
    env.index < (envs.perform (.extend parent bindings)).size ∧
      ∀ name, (envs.perform (.extend parent bindings)).lookup env name = envs.lookup env name := by
  cases hopen : envs.open? parent bindings with
  | error error =>
    rw [h.unopened parent bindings error hopen]
    exact ⟨henv, fun name => rfl⟩
  | ok result =>
    obtain ⟨id, opened⟩ := result
    obtain ⟨-, hsize, -, hlookup⟩ := h.opened parent bindings id opened hopen
    have hperform : envs.perform (.extend parent bindings) = opened := by rw [perform, hopen]
    rw [hperform, hsize]
    exact ⟨Nat.lt_succ_of_lt henv, fun name => hlookup env name henv⟩

/-- However many environments are opened, what is bound in those that were there stays. -/
theorem lookup_after_extensions {primitives : Bool} {calls : List (Call Code)}
    (henv : env.index < (after primitives calls).size)
    (opened : List (EnvId × List (Binding Code))) (name : Name) :
    (after primitives (calls ++ extensions opened)).lookup env name =
      (after primitives calls).lookup env name := by
  induction opened generalizing calls with
  | nil => rw [extensions, List.map_nil, List.append_nil]
  | cons first rest ih =>
    obtain ⟨parent, bindings⟩ := first
    have hstep : after primitives (calls ++ [.extend parent bindings]) =
        (after primitives calls).perform (.extend parent bindings) := after_append _ _ _
    obtain ⟨hsize, hlookup⟩ :=
      lookup_perform_extend (faithful_after primitives calls) parent bindings henv
    rw [← hstep] at hsize
    have hrest := ih hsize
    rw [List.append_assoc, hstep, hlookup name] at hrest
    exact hrest

end Environments

end EagerLambda
