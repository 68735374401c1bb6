import EagerLambda.Builtin.Apply
import EagerLambda.Proofs.Checked
import EagerLambda.Proofs.NameTable
import EagerLambda.Proofs.Value.Relation
import EagerLambda.Value.Display

/-!
# Values with checked indexing

Two things are done by index with a value. A function is shown with the texts of its parameters,
which are read from the table of names; and the first character of a string is cut off at a byte
offset, which has to lie between two characters.

## Main definitions

- `Value.Known` — a value whose functions bind names of a table
- `Value.display?` — the text that shows a value, read from a table of names
- `sliceTo?`, `sliceFrom?` — a string cut at a byte offset
- `Builtin.applyChecked` — a builtin applied with checked indexing

## Main statements

- `Value.Known.display?_eq` — a value whose functions bind names of the table can be shown
- `Builtin.applyChecked_gives` — no builtin has an index out of bounds
-/

namespace EagerLambda

-- ════════════════════════════════════════════════════════════════════════
-- Showing values
-- ════════════════════════════════════════════════════════════════════════

/-- The text of a function, with the texts of its parameters read from the table. -/
def Closure.display? (names : NameTable) (kind : String) (closure : Closure) : Option String := do
  let bound ← closure.params.mapM names.text?
  let bound := ",".intercalate bound
  some s!"[{kind} closure: {bound}: {closure.body.index}]"

namespace Value

mutual

/-- Appends the text of a value to `out`. -/
def write? (names : NameTable) (out : String) : Value → Option String
  | tuple [] => some (out ++ "nil")
  | tuple (first :: rest) => do
    let out ← write? names (out ++ "(") first
    let out ← writeRest? names out rest
    some (out ++ ")")
  | closure c => do
    let text ← c.display? names "lambda"
    some (out ++ text)
  | eta c => do
    let text ← c.display? names "eta"
    some (out ++ text)
  | value => some (value.write names out)

/-- Appends the texts of the components after the first. -/
def writeRest? (names : NameTable) (out : String) : List Value → Option String
  | [] => some out
  | value :: rest => do
    let out ← write? names (out ++ ", ") value
    writeRest? names out rest

end

/-- The text that shows a value, with the texts of names read from the table. -/
def display? (names : NameTable) (value : Value) : Option String := value.write? names ""

/-- The functions in the value bind names that the table has given out. -/
def Known (names : NameTable) (value : Value) : Prop :=
  value.All fun c => ∀ x ∈ c.params, names.Holds x

end Value

variable {names : NameTable}

theorem mapM_eq_some_map {α β : Type} {f : α → Option β} {g : α → β} {xs : List α}
    (h : ∀ x ∈ xs, f x = some (g x)) : xs.mapM f = some (xs.map g) := by
  induction xs with
  | nil => rfl
  | cons x xs ih =>
    rw [List.forall_mem_cons] at h
    rw [List.mapM_cons, h.1, ih h.2]
    rfl

theorem Closure.display?_eq {closure : Closure} (h : ∀ x ∈ closure.params, names.Holds x)
    (kind : String) : closure.display? names kind = some (closure.display names kind) := by
  rw [display?, mapM_eq_some_map fun x hx => (h x hx).text?_eq]
  rfl

namespace Value

theorem writeRest?_eq {vs : List Value}
    (ih : ∀ v ∈ vs, ∀ out, v.write? names out = some (v.write names out)) (out : String) :
    writeRest? names out vs = some (writeRest names out vs) := by
  induction vs generalizing out with
  | nil => rfl
  | cons v vs ihs =>
    rw [List.forall_mem_cons] at ih
    rw [writeRest?, writeRest, ih.1]
    exact ihs ih.2 _

theorem Known.write?_eq {v : Value} (h : v.Known names) (out : String) :
    v.write? names out = some (v.write names out) := by
  induction v using parts_induction generalizing out with
  | tuple vs ih =>
    have hvs : ∀ v ∈ vs, ∀ out, v.write? names out = some (v.write names out) :=
      fun v hv => ih v hv (allIn_iff.1 h v hv)
    cases vs with
    | nil => rfl
    | cons first rest =>
      rw [List.forall_mem_cons] at hvs
      rw [write?, write, hvs.1]
      exact congrArg (· >>= fun out => some (out ++ ")")) (writeRest?_eq hvs.2 _)
  | closure c =>
    rw [write?, write, c.display?_eq h]
    rfl
  | eta c =>
    rw [write?, write, c.display?_eq h]
    rfl
  | _ => rfl

/-- A value whose functions bind names of the table can be shown. -/
theorem Known.display?_eq {v : Value} (h : v.Known names) :
    v.display? names = some (v.display names) :=
  h.write?_eq ""

end Value

-- ════════════════════════════════════════════════════════════════════════
-- Cutting strings
-- ════════════════════════════════════════════════════════════════════════

/-- The part of a string before a byte offset, which has to be that of a character or of the end. -/
def sliceTo? (s : String) (offset : Nat) : Option String :=
  (s.pos? ⟨offset⟩).map fun p => (s.sliceTo p).copy

/-- The part of a string from a byte offset on, which has to be that of a character or of the end.
-/
def sliceFrom? (s : String) (offset : Nat) : Option String :=
  (s.pos? ⟨offset⟩).map fun p => (s.sliceFrom p).copy

/-- How many bytes the first character of a string takes. -/
def firstWidth (s : String) : Nat := (s.toList.head?.map Char.utf8Size).getD 0

/-- The offset at which a string was put together can be cut at. -/
theorem pos?_append (s t : String) :
    ∃ p : (s ++ t).Pos, (s ++ t).pos? ⟨s.utf8ByteSize⟩ = some p ∧ p.Splits s t := by
  have hvalid : (⟨s.utf8ByteSize⟩ : String.Pos.Raw).IsValid (s ++ t) :=
    String.Pos.Raw.isValid_rawEndPos.append_right t
  refine ⟨(s ++ t).pos _ hvalid, ?_, rfl, rfl⟩
  rw [String.pos?, String.Slice.pos?,
    dif_pos (String.Pos.Raw.isValidForSlice_eq_true_iff.2 hvalid.toSlice)]
  rfl

theorem sliceTo?_append (s t : String) : sliceTo? (s ++ t) s.utf8ByteSize = some s := by
  obtain ⟨p, hp, hsplits⟩ := pos?_append s t
  rw [sliceTo?, hp, Option.map_some, p.splits.eq_left hsplits]

theorem sliceFrom?_append (s t : String) : sliceFrom? (s ++ t) s.utf8ByteSize = some t := by
  obtain ⟨p, hp, hsplits⟩ := pos?_append s t
  rw [sliceFrom?, hp, Option.map_some, p.splits.eq_right hsplits]

theorem splitFirst_append (s : String) : (splitFirst s).1 ++ (splitFirst s).2 = s := by
  rw [splitFirst]
  split
  · next h => rw [String.append_empty, ← String.ofList_toList (s := s), h, String.ofList_nil]
  · next first rest h => rw [← String.ofList_toList (s := s), h, String.ofList_cons]

theorem utf8ByteSize_splitFirst (s : String) :
    (splitFirst s).1.utf8ByteSize = firstWidth s := by
  rw [splitFirst, firstWidth]
  split
  · next h =>
    rw [h]
    rfl
  · next first rest h =>
    rw [h, String.utf8ByteSize_singleton]
    rfl

/-- A string can be cut after its first character. -/
theorem slices_firstWidth (s : String) :
    sliceTo? s (firstWidth s) = some (splitFirst s).1 ∧
      sliceFrom? s (firstWidth s) = some (splitFirst s).2 := by
  have hto := sliceTo?_append (splitFirst s).1 (splitFirst s).2
  have hfrom := sliceFrom?_append (splitFirst s).1 (splitFirst s).2
  rw [splitFirst_append, utf8ByteSize_splitFirst] at hto hfrom
  exact ⟨hto, hfrom⟩

-- ════════════════════════════════════════════════════════════════════════
-- Builtins
-- ════════════════════════════════════════════════════════════════════════

namespace Builtin

/-- The value of a builtin whose last argument is `argument`. What is printed is shown first. -/
def computeChecked (names : NameTable) (builtin : Builtin) (received : List Value)
    (argument : Value) : Checked Value :=
  match builtin with
  | print => do
    let _ ← argument.display? names
    pure argument
  | stem => do
    let s ← argument.string?
    let first ← sliceTo? s (firstWidth s)
    pure (.string first)
  | stern => do
    let s ← argument.string?
    let rest ← sliceFrom? s (firstWidth s)
    pure (.string rest)
  | builtin => builtin.compute received argument

/-- The value of a builtin applied to `argument` after the arguments it has `received`. -/
def applyChecked (names : NameTable) (builtin : Builtin) (received : List Value)
    (argument : Value) : Checked Value :=
  if received.length + 1 < builtin.arity then
    pure (.partialApp builtin (received ++ [argument]))
  else
    builtin.computeChecked names received argument

open Checked

theorem computeChecked_gives (builtin : Builtin) (received : List Value) {argument : Value}
    (h : argument.Known names) :
    (builtin.computeChecked names received argument).Gives (builtin.compute received argument) := by
  cases builtin with
  | print => exact (Gives.of_option h.display?_eq).bind_ok (.of_except _)
  | stem =>
    refine (Gives.of_except argument.string?).bind fun s _ => ?_
    exact (Gives.of_option (slices_firstWidth s).1).bind_ok (.of_except _)
  | stern =>
    refine (Gives.of_except argument.string?).bind fun s _ => ?_
    exact (Gives.of_option (slices_firstWidth s).2).bind_ok (.of_except _)
  | _ => exact .of_except _

/-- No builtin has an index out of bounds, if what it is applied to can be shown. -/
theorem applyChecked_gives (builtin : Builtin) (received : List Value) {argument : Value}
    (h : argument.Known names) :
    (builtin.applyChecked names received argument).Gives (builtin.apply received argument) := by
  rw [applyChecked, apply]
  split
  · exact .of_except _
  · exact builtin.computeChecked_gives received h

end Builtin

end EagerLambda
