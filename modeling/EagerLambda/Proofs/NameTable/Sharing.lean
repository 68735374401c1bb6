import EagerLambda.Proofs.NameTable.Indexed
import Mathlib.Data.Finset.Card

/-!
# Shared tables of names

A table of names is shared through handles to it, which can be copied. Whoever has a handle may
enter texts and look names up, in any order. Entering a text takes two steps: the table is searched
first, and only if the text is not found does the caller wait for the table, search it once more and
enter the text. Between the two steps others may have entered anything, also the same text.

Whatever is done, all that was answered about a table fits together: names stand for texts one to
one, for good, and what the table holds beside the reserved texts is what was entered.

## Main definitions

- `NameTable.Shared` — tables, the handles to them, those who wait and what was answered
- `NameTable.Shared.perform` — one step that the holder of a handle takes
- `NameTable.Shared.Faithful` — the answers about a table fit together

## Main statements

- `NameTable.Shared.perform_consistent` — a step keeps what tables hold in line with the answers
- `NameTable.Shared.run_faithful` — whatever is done, the answers about a table fit together
-/

namespace EagerLambda

/-- The reserved handles, each at the position of its text. -/
def Name.reserved : List Name :=
  [empty, printUpper, printLower, nil, fixpoint, conc, stem, stern, isInteger, isString,
    isTruthValue, isFunction, isTuple, isDummy, order, null, itos]

namespace NameTable

-- ════════════════════════════════════════════════════════════════════════
-- Requests and replies
-- ════════════════════════════════════════════════════════════════════════

/-- The two ways to enter a text. They differ in what becomes of a caller that is refused. -/
inductive Entry
  | intern
  | tryIntern
  deriving DecidableEq, Repr

/-- What can be asked of a table. -/
inductive Call
  | enter (entry : Entry) (text : String)
  | lookup (x : Name)
  deriving DecidableEq, Repr

/-- What becomes of a caller. -/
inductive Reply
  | name (x : Name)
  | text (text : String)
  | refused (full : Full)
  /-- The caller does not go on. -/
  | stopped (message : String)
  deriving DecidableEq, Repr

/-- A refusal is answered or stops the caller. -/
def Entry.refusal : Entry → Full → Reply
  | intern, full => .stopped full.message
  | tryIntern, full => .refused full

/-- The reply to the caller who enters a text. -/
def Entry.reply (entry : Entry) : Except Full Name → Reply
  | .ok x => .name x
  | .error full => entry.refusal full

/-- The reply to the caller who looks a name up. -/
def Indexed.lookup (t : Indexed) (x : Name) : Reply :=
  match t.text? x with
  | some text => .text text
  | none => .stopped s!"index out of bounds: the len is {t.size} but the index is {x.index}"

/-- A call that was answered by a table. -/
structure Event where
  table : Nat
  call : Call
  reply : Reply
  deriving DecidableEq, Repr

/-- The name that the table has given a text. -/
def Event.answer? (e : Event) (table : Nat) : Option (String × Name) :=
  match e with
  | ⟨place, .enter _ text, .name x⟩ => if place = table then some (text, x) else none
  | _ => none

/-- A text that was not found and is to be entered. -/
structure Request where
  table : Nat
  entry : Entry
  text : String
  deriving DecidableEq, Repr

/-- Tables and the handles to them, which are positions in the list of tables. -/
structure Shared where
  tables : List Indexed := []
  handles : List Nat := []
  /-- The callers who wait for a table. -/
  waiting : List Request := []
  /-- What was answered, the latest first. -/
  log : List Event := []

/-- What can be done at any time. -/
inductive Action
  | create
  | clone (handle : Nat)
  | call (handle : Nat) (call : Call)
  /-- A caller who waits gets the table. -/
  | proceed (request : Nat)

namespace Shared

/-- Writes down what was answered. -/
def answer (s : Shared) (e : Event) : Shared := { s with log := e :: s.log }

/-- The first step of a call, which does not change the table. -/
def begin (s : Shared) (table : Nat) (t : Indexed) : Call → Shared
  | .lookup x => s.answer ⟨table, .lookup x, t.lookup x⟩
  | .enter entry text =>
    match t.find? text with
    | some x => s.answer ⟨table, .enter entry text, .name x⟩
    | none => { s with waiting := s.waiting ++ [⟨table, entry, text⟩] }

/-- The second step of a call, in which the text is entered. -/
def finish (s : Shared) (t : Indexed) (r : Request) : Shared :=
  { s with tables := s.tables.set r.table (t.enter r.text).2 }.answer
    ⟨r.table, .enter r.entry r.text, r.entry.reply (t.enter r.text).1⟩

/-- Does one thing, or nothing if there is no such handle or request. -/
def perform (s : Shared) : Action → Shared
  | .create =>
    { s with tables := s.tables ++ [.initial], handles := s.handles ++ [s.tables.length] }
  | .clone handle =>
    match s.handles[handle]? with
    | some table => { s with handles := s.handles ++ [table] }
    | none => s
  | .call handle call =>
    match s.handles[handle]? with
    | some table =>
      match s.tables[table]? with
      | some t => s.begin table t call
      | none => s
    | none => s
  | .proceed request =>
    match s.waiting[request]? with
    | some r =>
      match s.tables[r.table]? with
      | some t => { s with waiting := s.waiting.eraseIdx request }.finish t r
      | none => s
    | none => s

/-- Does one thing after the other, from no tables on. -/
def run (actions : List Action) : Shared := actions.foldl perform {}

/-- The texts that were given names by a table, with these names. -/
def answers (s : Shared) (table : Nat) : List (String × Name) :=
  s.log.filterMap fun e => e.answer? table

/-- The texts among these that are not reserved, each once. -/
def added (answers : List (String × Name)) : Finset String :=
  (answers.map Prod.fst).toFinset \ Name.reservedTexts.toFinset

/-- The answers about a table to which there is a handle fit together. -/
structure Faithful (s : Shared) (handle table : Nat) (t : Indexed) : Prop where
  inverse : ∀ text x, t.find? text = some x ↔ t.text? x = some text
  name_eq_iff : ∀ p ∈ s.answers table, ∀ q ∈ s.answers table, p.2 = q.2 ↔ p.1 = q.1
  lookup : ∀ p ∈ s.answers table, s.perform (.call handle (.lookup p.2)) =
    s.answer ⟨table, .lookup p.2, .text p.1⟩
  reserved : ∀ p ∈ Name.reservedTexts.zip Name.reserved,
    t.text? p.2 = some p.1 ∧ (∀ q ∈ s.answers table, q.1 = p.1 → q.2 = p.2) ∧
    ∀ entry, s.perform (.call handle (.enter entry p.1)) =
      s.answer ⟨table, .enter entry p.1, .name p.2⟩
  size_eq : t.size = 17 + (added (s.answers table)).card
  isEmpty_iff : t.isEmpty = true ↔ (added (s.answers table)).card = 0
  /-- A text that is not given a name is new, comes too late and changes nothing. -/
  refused : ∀ action entry text reply,
    (s.perform action).log = ⟨table, .enter entry text, reply⟩ :: s.log →
    (∀ x, reply ≠ .name x) →
      (s.perform action).tables = s.tables ∧ (s.perform action).handles = s.handles ∧
      reply = entry.refusal ⟨t.size⟩ ∧ handleLimit ≤ t.size ∧ t.find? text = none
  /-- The table that searches its texts gives the same answers. -/
  plain : (∀ text, t.plain.find? text = t.find? text) ∧ (∀ x, t.plain.text? x = t.text? x) ∧
    t.plain.size = t.size ∧ t.plain.isEmpty = t.isEmpty ∧
    ∀ text, t.plain.intern text =
      match t.enter text with
      | (.ok x, later) => .ok (x, later.plain)
      | (.error full, _) => .error full

variable {s : Shared} {t : Indexed} {table handle : Nat} {text : String} {x : Name}

-- ════════════════════════════════════════════════════════════════════════
-- What a table holds and what was answered about it
-- ════════════════════════════════════════════════════════════════════════

/-- What was answered is true of the table, and all it holds was answered once or is reserved. -/
structure Records (t : Indexed) (answers : List (String × Name)) : Prop where
  sound : t.Sound
  answered : ∀ p ∈ answers, t.text? p.2 = some p.1
  entered : ∀ text ∈ t.plain.texts,
    text ∈ Name.reservedTexts ∨ ∃ x, (text, x) ∈ answers

namespace Records

variable {answers : List (String × Name)}

theorem initial : Records .initial [] where
  sound := Indexed.initial_sound
  answered p hp := absurd hp List.not_mem_nil
  entered text htext := by
    rw [Indexed.plain_initial.1] at htext
    exact .inl htext

/-- More may be answered about a text. -/
theorem entered_cons (h : Records t answers) (p : String × Name) {text : String}
    (htext : text ∈ t.plain.texts) :
    text ∈ Name.reservedTexts ∨ ∃ x, (text, x) ∈ p :: answers := by
  refine (h.entered text htext).imp_right ?_
  rintro ⟨x, hx⟩
  exact ⟨x, List.mem_cons_of_mem _ hx⟩

/-- A text that is found may be answered. -/
theorem found (h : Records t answers) (hx : t.find? text = some x) :
    Records t ((text, x) :: answers) where
  sound := h.sound
  answered := by
    rw [List.forall_mem_cons]
    exact ⟨h.sound.find?_eq_some_iff.1 hx, h.answered⟩
  entered _ hother := h.entered_cons _ hother

/-- A text that is entered is answered. -/
theorem push (h : Records t answers) (hsound : (t.push text).Sound) :
    Records (t.push text) ((text, ⟨t.size⟩) :: answers) where
  sound := hsound
  answered := by
    have hnew : (t.push text).text? ⟨t.size⟩ = some text := Array.getElem?_push_size
    rw [List.forall_mem_cons]
    refine ⟨hnew, fun p hp => ?_⟩
    have hp := h.answered p hp
    rw [Indexed.text?, Indexed.push, Array.getElem?_push_lt (Array.getElem?_eq_some_iff.1 hp).1]
    exact (Array.getElem?_eq_getElem _).symm.trans hp
  entered other hother := by
    rw [Indexed.plain_push, List.mem_append, List.mem_singleton] at hother
    rcases hother with hother | rfl
    · exact h.entered_cons _ hother
    · exact .inr ⟨_, List.mem_cons_self⟩

theorem name_eq_iff (h : Records t answers) {p q : String × Name} (hp : p ∈ answers)
    (hq : q ∈ answers) : p.2 = q.2 ↔ p.1 = q.1 := by
  have hp := h.answered p hp
  have hq := h.answered q hq
  constructor
  · intro hname
    rw [hname, hq] at hp
    exact (Option.some.inj hp).symm
  · intro htext
    rw [← h.sound.find?_eq_some_iff] at hp hq
    rw [htext, hq] at hp
    exact (Option.some.inj hp).symm

/-- The reserved texts are at their handles. -/
theorem text?_reserved (h : Records t answers) {p : String × Name}
    (hp : p ∈ Name.reservedTexts.zip Name.reserved) : t.text? p.2 = some p.1 := by
  have hplaces : ∀ p ∈ Name.reservedTexts.zip Name.reserved,
      Name.reservedTexts[p.2.index]? = some p.1 := by decide
  have hplace := hplaces p hp
  obtain ⟨hlt, heq⟩ := List.getElem?_eq_some_iff.1 hplace
  rw [← Indexed.plain_text?, h.sound.plain.text?_reserved hlt, heq]

/-- Beside the reserved texts, the table holds those that were added. -/
theorem size_eq (h : Records t answers) : t.size = 17 + (added answers).card := by
  have hnodup := h.sound.plain.nodup
  have hreserved : Name.reservedTexts.toFinset.card = 17 := by decide
  have htexts : t.plain.texts.toFinset = Name.reservedTexts.toFinset ∪ added answers := by
    ext text
    simp only [added, Finset.union_sdiff_self_eq_union, Finset.mem_union, List.mem_toFinset,
      List.mem_map, Prod.exists, exists_and_right, exists_eq_right]
    refine ⟨h.entered text, ?_⟩
    rintro (hmem | ⟨x, hx⟩)
    · exact h.sound.plain.reserved.subset hmem
    · exact List.mem_of_getElem? ((Indexed.plain_text? t x).trans (h.answered _ hx))
  have hdisjoint : Disjoint Name.reservedTexts.toFinset (added answers) := Finset.disjoint_sdiff
  rw [← Indexed.plain_size, NameTable.size, ← List.toFinset_card_of_nodup hnodup, htexts,
    Finset.card_union_of_disjoint hdisjoint, hreserved]

theorem isEmpty_iff (h : Records t answers) :
    t.isEmpty = true ↔ (added answers).card = 0 := by
  have hlength : Name.reservedTexts.length = 17 := rfl
  rw [Indexed.isEmpty, h.size_eq, hlength, decide_eq_true_iff]
  omega

end Records

-- ════════════════════════════════════════════════════════════════════════
-- Steps and runs
-- ════════════════════════════════════════════════════════════════════════

/-- Handles lead to tables, and what was answered about a table is what it holds. -/
structure Consistent (s : Shared) : Prop where
  handles : ∀ table ∈ s.handles, table < s.tables.length
  log : ∀ e ∈ s.log, e.table < s.tables.length
  records : ∀ table t, s.tables[table]? = some t → Records t (s.answers table)

/-- What is asked of one table is not answered about another. -/
theorem answer?_of_ne {e : Event} (h : e.table ≠ table) : e.answer? table = none := by
  unfold Event.answer?
  split
  · exact if_neg h
  · rfl

theorem answers_answer_of_ne (s : Shared) {e : Event} (h : e.table ≠ table) :
    (s.answer e).answers table = s.answers table :=
  List.filterMap_cons_none (answer?_of_ne h)

/-- A table that was new has not been asked anything. -/
theorem Consistent.answers_new (h : s.Consistent) : s.answers s.tables.length = [] := by
  rw [answers, List.filterMap_eq_nil_iff]
  exact fun e he => answer?_of_ne (Nat.ne_of_lt (h.log e he))

/-- One table may change if it holds what was answered before and now. -/
theorem Consistent.answer {later : Indexed} {call : Call} {reply : Reply} (h : s.Consistent)
    (ht : s.tables[table]? = some t)
    (hlater : Records later ((s.answer ⟨table, call, reply⟩).answers table)) :
    ({ s with tables := s.tables.set table later }.answer ⟨table, call, reply⟩).Consistent where
  handles place hplace := (List.length_set ..).symm ▸ h.handles place hplace
  log := by
    have hlength : (s.tables.set table later).length = s.tables.length := List.length_set
    have hlt := (List.getElem?_eq_some_iff.1 ht).1
    simp only [Shared.answer, List.forall_mem_cons, hlength]
    exact ⟨hlt, h.log⟩
  records place other hplace := by
    have hlt := (List.getElem?_eq_some_iff.1 ht).1
    by_cases heq : table = place
    · subst heq
      obtain rfl : later = other :=
        Option.some.inj ((List.getElem?_set_self hlt).symm.trans hplace)
      exact hlater
    · have hplace := (List.getElem?_set_ne heq).symm.trans hplace
      have hrecords := h.records place other hplace
      rwa [← @answers_answer_of_ne place s ⟨table, call, reply⟩ heq] at hrecords

theorem set_table (ht : s.tables[table]? = some t) : s.tables.set table t = s.tables := by
  obtain ⟨hlt, rfl⟩ := List.getElem?_eq_some_iff.1 ht
  exact List.set_getElem_self hlt

/-- An answer that leaves all tables as they are. -/
theorem Consistent.answer_only {call : Call} {reply : Reply} (h : s.Consistent)
    (ht : s.tables[table]? = some t)
    (hrecords : Records t ((s.answer ⟨table, call, reply⟩).answers table)) :
    (s.answer ⟨table, call, reply⟩).Consistent := by
  have hanswer := h.answer ht hrecords
  rwa [set_table ht] at hanswer

theorem answers_name (s : Shared) (table : Nat) (entry : Entry) (text : String) (x : Name) :
    (s.answer ⟨table, .enter entry text, .name x⟩).answers table =
      (text, x) :: s.answers table :=
  List.filterMap_cons_some (if_pos rfl)

theorem begin_consistent (h : s.Consistent) (ht : s.tables[table]? = some t) (call : Call) :
    (s.begin table t call).Consistent := by
  have hrecords := h.records table t ht
  cases call with
  | lookup x => exact h.answer_only ht hrecords
  | enter entry text =>
    rw [begin]
    split
    · next x hx =>
      refine h.answer_only ht ?_
      rw [answers_name]
      exact hrecords.found hx
    · exact ⟨h.handles, h.log, h.records⟩

theorem finish_consistent {r : Request} (h : s.Consistent) (ht : s.tables[r.table]? = some t) :
    (s.finish t r).Consistent := by
  have hrecords := h.records r.table t ht
  have hsound := hrecords.sound.enter r.text
  rw [finish]
  obtain ⟨x, hfound, henter⟩ | ⟨hnew, hroom, henter⟩ | ⟨hnew, hfull, henter⟩ :=
    t.enter_cases r.text
  · rw [henter]
    refine h.answer ht ?_
    rw [Entry.reply, answers_name]
    exact hrecords.found hfound
  · rw [henter] at hsound ⊢
    refine h.answer ht ?_
    rw [Entry.reply, answers_name]
    exact hrecords.push hsound
  · rw [henter]
    refine h.answer ht ?_
    -- A refusal is not an answer about the text, however it reaches the caller.
    cases r.entry <;> exact hrecords

theorem create_consistent (h : s.Consistent) : (s.perform .create).Consistent := by
  have hlength : (s.perform .create).tables.length = s.tables.length + 1 := List.length_append
  refine ⟨fun place hplace => ?_, fun e he => ?_, fun place other hplace => ?_⟩
  · rw [hlength]
    rcases List.mem_append.1 hplace with hplace | hplace
    · exact Nat.lt_succ_of_lt (h.handles place hplace)
    · rw [List.mem_singleton.1 hplace]
      exact Nat.lt_succ_self _
  · rw [hlength]
    exact Nat.lt_succ_of_lt (h.log e he)
  · rcases Nat.lt_or_ge place s.tables.length with hold | hnew
    · exact h.records place other ((List.getElem?_append_left hold).symm.trans hplace)
    · have hlt := (List.getElem?_eq_some_iff.1 hplace).1
      obtain rfl : place = s.tables.length := by omega
      obtain rfl : Indexed.initial = other :=
        Option.some.inj (List.getElem?_concat_length.symm.trans hplace)
      exact h.answers_new.symm ▸ Records.initial

theorem clone_consistent (h : s.Consistent) (handle : Nat) :
    (s.perform (.clone handle)).Consistent := by
  rw [perform]
  split
  · next table htable =>
    refine ⟨fun place hplace => ?_, h.log, h.records⟩
    rcases List.mem_append.1 hplace with hplace | hplace
    · exact h.handles place hplace
    · rw [List.mem_singleton.1 hplace]
      exact h.handles table (List.mem_of_getElem? htable)
  · exact h

/-- A step keeps what tables hold and what was answered in line. -/
theorem perform_consistent (h : s.Consistent) (action : Action) :
    (s.perform action).Consistent := by
  cases action with
  | create => exact create_consistent h
  | clone handle => exact clone_consistent h handle
  | call handle call =>
    rw [perform]
    split
    · split
      · next ht => exact begin_consistent h ht call
      · exact h
    · exact h
  | proceed request =>
    rw [perform]
    split
    · split
      · next ht => exact finish_consistent ⟨h.handles, h.log, h.records⟩ ht
      · exact h
    · exact h

theorem run_consistent (actions : List Action) : (run actions).Consistent := by
  induction actions using List.reverseRecOn with
  | nil => exact ⟨by simp [run], by simp [run], by simp [run]⟩
  | append_singleton actions action ih =>
    rw [run, List.foldl_concat]
    exact perform_consistent ih action

-- ════════════════════════════════════════════════════════════════════════
-- Answers
-- ════════════════════════════════════════════════════════════════════════

theorem perform_call (s : Shared) (hhandle : s.handles[handle]? = some table)
    (ht : s.tables[table]? = some t) (call : Call) :
    s.perform (.call handle call) = s.begin table t call := by
  rw [perform, hhandle]
  dsimp only
  rw [ht]

theorem perform_proceed (s : Shared) {request : Nat} {r : Request}
    (hr : s.waiting[request]? = some r) (ht : s.tables[r.table]? = some t) :
    s.perform (.proceed request) =
      { s with waiting := s.waiting.eraseIdx request }.finish t r := by
  rw [perform, hr]
  dsimp only
  rw [ht]

/-- The first step of a call gives a name or does not answer a text at all. -/
theorem begin_name {call : Call} {place : Nat} {entry : Entry} {reply : Reply}
    (h : (s.begin table t call).log = ⟨place, .enter entry text, reply⟩ :: s.log) :
    ∃ x, reply = .name x := by
  cases call with
  | lookup x => cases (List.cons.inj h).1
  | enter entry' text' =>
    rw [begin] at h
    split at h
    · next x _ =>
      cases (List.cons.inj h).1
      exact ⟨x, rfl⟩
    · exact absurd h (List.ne_cons_self)

/-- The second step of a call gives a name or leaves the tables as they are. -/
theorem finish_refused {r : Request} {place : Nat} {entry : Entry} {reply : Reply}
    (ht : s.tables[r.table]? = some t)
    (h : (s.finish t r).log = ⟨place, .enter entry text, reply⟩ :: s.log)
    (hreply : ∀ x, reply ≠ .name x) :
    place = r.table ∧ (s.finish t r).tables = s.tables ∧ reply = entry.refusal ⟨t.size⟩ ∧
      handleLimit ≤ t.size ∧ t.find? text = none := by
  rw [finish] at h ⊢
  obtain ⟨x, hfound, henter⟩ | ⟨hnew, hroom, henter⟩ | ⟨hnew, hfull, henter⟩ :=
    t.enter_cases r.text
  · rw [henter] at h
    cases (List.cons.inj h).1
    exact absurd rfl (hreply x)
  · rw [henter] at h
    cases (List.cons.inj h).1
    exact absurd rfl (hreply _)
  · rw [henter] at h ⊢
    cases (List.cons.inj h).1
    exact ⟨rfl, set_table ht, rfl, hfull, hnew⟩

theorem perform_refused (ht : s.tables[table]? = some t) {action : Action} {entry : Entry}
    {reply : Reply} (h : (s.perform action).log = ⟨table, .enter entry text, reply⟩ :: s.log)
    (hreply : ∀ x, reply ≠ .name x) :
    (s.perform action).tables = s.tables ∧ (s.perform action).handles = s.handles ∧
      reply = entry.refusal ⟨t.size⟩ ∧ handleLimit ≤ t.size ∧ t.find? text = none := by
  cases action with
  | create => exact absurd h List.ne_cons_self
  | clone handle =>
    rw [perform] at h
    split at h <;> exact absurd h List.ne_cons_self
  | call handle call =>
    rw [perform] at h
    split at h
    · split at h
      · obtain ⟨x, hx⟩ := begin_name h
        exact absurd hx (hreply x)
      · exact absurd h List.ne_cons_self
    · exact absurd h List.ne_cons_self
  | proceed request =>
    cases hr : s.waiting[request]? with
    | none =>
      rw [perform, hr] at h
      exact absurd h List.ne_cons_self
    | some r =>
      cases ht' : s.tables[r.table]? with
      | none =>
        simp only [perform, hr, ht'] at h
        exact absurd h List.ne_cons_self
      | some t' =>
        rw [perform_proceed s hr ht'] at h ⊢
        obtain ⟨rfl, htables, hrefused⟩ := finish_refused ht' h hreply
        obtain rfl : t = t' := Option.some.inj (ht.symm.trans ht')
        exact ⟨htables, rfl, hrefused⟩

/-- **Names and texts stand for each other.** Take any sequence of calls, through any copies of
handles. For each table to which there is a handle, its map and its texts are inverse to each other;
two names that it gave are equal exactly when their texts are; a name that it gave at any time is
answered by its text; the reserved texts have their fixed names; it holds these 17 texts and as many
more as were entered, and counts as empty if there are none; and a text for which it has no name
left changes nothing. All this is so in the table that does without the map, too. -/
theorem run_faithful (actions : List Action)
    (h : (run actions).handles[handle]? = some table) :
    ∃ t, (run actions).tables[table]? = some t ∧ (run actions).Faithful handle table t := by
  have hs := run_consistent actions
  generalize run actions = s at h hs ⊢
  have hlt := hs.handles table (List.mem_of_getElem? h)
  have ht := List.getElem?_eq_getElem hlt
  generalize s.tables[table] = t at ht
  have hrecords := hs.records table t ht
  refine ⟨t, ht, ⟨fun text x => hrecords.sound.find?_eq_some_iff,
    fun p hp q hq => hrecords.name_eq_iff hp hq, fun p hp => ?_,
    fun p hp => ⟨hrecords.text?_reserved hp, fun q hq heq => ?_, fun entry => ?_⟩,
    hrecords.size_eq, hrecords.isEmpty_iff,
    fun _ _ _ _ => perform_refused ht, ?_⟩⟩
  · rw [perform_call s h ht, begin, Indexed.lookup, hrecords.answered p hp]
  · have hq := hrecords.sound.find?_eq_some_iff.2 (hrecords.answered q hq)
    rw [heq, hrecords.sound.find?_eq_some_iff.2 (hrecords.text?_reserved hp)] at hq
    exact (Option.some.inj hq).symm
  · have hfound := hrecords.sound.find?_eq_some_iff.2 (hrecords.text?_reserved hp)
    rw [perform_call s h ht, begin, hfound]
  · refine ⟨fun text => (hrecords.sound.agrees text).symm, t.plain_text?, t.plain_size, ?_,
      hrecords.sound.intern_eq⟩
    rw [NameTable.isEmpty, t.plain_size, Indexed.isEmpty]

/-- Two callers with copies of one handle enter the same text, and neither finds it at first. The
second gets the table before the first. -/
def raced : List Action :=
  [.create, .clone 0, .call 0 (.enter .tryIntern "x"), .call 1 (.enter .intern "x"), .proceed 1,
    .proceed 0, .call 0 (.enter .tryIntern "Print")]

theorem run_faithful_raced :
    (run raced).answers 0 = [("Print", .printUpper), ("x", ⟨17⟩), ("x", ⟨17⟩)] ∧
    ∃ t, (run raced).tables[0]? = some t ∧ t.size = 18 ∧ (run raced).Faithful 1 0 t := by
  have hsize : Indexed.initial.size = 17 := by
    rw [← Indexed.plain_size, Indexed.plain_initial.1]
    rfl
  have hroom : 17 < handleLimit := by decide
  have hnew : Indexed.initial.find? "x" = none := by
    rw [Indexed.initial_sound.agrees, Indexed.plain_initial.1]
    decide
  have hprint : Indexed.initial.find? "Print" = some .printUpper := by
    rw [Indexed.initial_sound.agrees, Indexed.plain_initial.1]
    decide
  have hrun : run raced = ⟨[Indexed.initial.push "x"], [0, 0], [],
      [⟨0, .enter .tryIntern "Print", .name .printUpper⟩, ⟨0, .enter .tryIntern "x", .name ⟨17⟩⟩,
        ⟨0, .enter .intern "x", .name ⟨17⟩⟩]⟩ := by
    simp [run, raced, perform, begin, finish, answer, Indexed.enter, hnew, hroom, hprint, hsize,
      Indexed.find?_push, Entry.reply]
  have hanswers : (run raced).answers 0 =
      [("Print", .printUpper), ("x", ⟨17⟩), ("x", ⟨17⟩)] := by
    rw [hrun]
    rfl
  obtain ⟨t, ht, hfaithful⟩ := run_faithful raced (congrArg (·.handles[1]?) hrun)
  refine ⟨hanswers, t, ht, ?_, hfaithful⟩
  rw [hfaithful.size_eq, hanswers]
  decide

end Shared

end NameTable

end EagerLambda
