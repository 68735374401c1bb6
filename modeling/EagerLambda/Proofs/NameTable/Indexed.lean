import EagerLambda.Proofs.NameTable
import Mathlib.Data.List.Nodup
import Mathlib.Data.String.Basic

/-!
# Tables of names with an index

A table of names that is used a lot finds the handle of a text in a hash map, which it keeps beside
the texts themselves. The map has to say the same as the texts: every operation that enters a text
writes both. Then the table answers just as the one that searches its texts.

## Main definitions

- `NameTable.Indexed` — texts with a map from texts to handles
- `NameTable.Indexed.enter` — the handle of a text, entering it if it is new
- `NameTable.Indexed.Sound` — the map says the same as the texts

## Main statements

- `NameTable.Sound.find?_eq_some_iff` — handles and texts determine each other
- `NameTable.Indexed.Sound.enter` — entering a text keeps the map right
- `NameTable.Indexed.Sound.intern_eq` — entering a text answers as without the map
-/

namespace EagerLambda

namespace NameTable

variable {names : NameTable} {text other : String} {x : Name}

/-- A text that is in the table is found at the handle that has it. -/
theorem Sound.find?_eq_some_iff (hnames : names.Sound) :
    names.find? text = some x ↔ names.text? x = some text := by
  refine ⟨text?_of_find?, fun hx => ?_⟩
  cases hfound : names.find? text with
  | none => exact absurd (List.mem_of_getElem? hx) (not_mem_of_find? hfound)
  | some y => rw [hnames.eq_of_text? (text?_of_find? hfound) hx]

/-- A text at the end is found there unless it is found before. -/
theorem find?_concat (names : NameTable) (text other : String) :
    (NameTable.mk (names.texts ++ [text])).find? other =
      (names.find? other).or (if text == other then some ⟨names.size⟩ else none) := by
  simp only [find?, List.idxOf?, List.findIdx?_append, List.findIdx?_singleton]
  cases List.findIdx? (· == other) names.texts with
  | some i => rfl
  | none => cases text == other <;> simp [size]

/-- Identifier texts, each at the position that is its handle, and the handle of each text. -/
structure Indexed where
  texts : Array String
  index : Std.HashMap String Name

namespace Indexed

variable {t : Indexed}

/-- The table without its map. -/
def plain (t : Indexed) : NameTable := ⟨t.texts.toList⟩

/-- How many texts the table holds. -/
def size (t : Indexed) : Nat := t.texts.size

/-- Whether no text was entered beside the reserved ones. -/
def isEmpty (t : Indexed) : Bool := t.size ≤ Name.reservedTexts.length

/-- The handle of a text that was entered before. -/
def find? (t : Indexed) (text : String) : Option Name := t.index[text]?

/-- The text of a handle, if the table has given that handle out. -/
def text? (t : Indexed) (x : Name) : Option String := t.texts[x.index]?

/-- Gives a text the next handle. -/
def push (t : Indexed) (text : String) : Indexed :=
  ⟨t.texts.push text, t.index.insert text ⟨t.size⟩⟩

/-- The table every program starts from. -/
def initial : Indexed := Name.reservedTexts.foldl push ⟨#[], ∅⟩

/-- The handle of a text, and the table after it was entered if it is new and there is a handle for
it. -/
def enter (t : Indexed) (text : String) : Except Full Name × Indexed :=
  match t.find? text with
  | some x => (.ok x, t)
  | none =>
    if t.size < handleLimit then
      (.ok ⟨t.size⟩, t.push text)
    else
      (.error ⟨t.size⟩, t)

/-- The map says the same as the texts. -/
def Agrees (t : Indexed) : Prop := ∀ text, t.find? text = t.plain.find? text

/-- The map says the same as the texts, which are those of a sound table. -/
structure Sound (t : Indexed) : Prop where
  plain : t.plain.Sound
  agrees : t.Agrees

theorem plain_text? (t : Indexed) (x : Name) : t.plain.text? x = t.text? x :=
  Array.getElem?_toList

theorem plain_size (t : Indexed) : t.plain.size = t.size := Array.length_toList

theorem plain_push (t : Indexed) (text : String) :
    (t.push text).plain = ⟨t.plain.texts ++ [text]⟩ := by
  rw [plain, push, Array.toList_push]
  rfl

theorem find?_push (t : Indexed) (text other : String) :
    (t.push text).find? other = if text == other then some ⟨t.size⟩ else t.find? other :=
  Std.HashMap.getElem?_insert

/-- Entering finds the text, or gives a new one the next handle, or has no handle left. -/
theorem enter_cases (t : Indexed) (text : String) :
    (∃ x, t.find? text = some x ∧ t.enter text = (.ok x, t)) ∨
    (t.find? text = none ∧ t.size < handleLimit ∧
      t.enter text = (.ok ⟨t.size⟩, t.push text)) ∨
    (t.find? text = none ∧ handleLimit ≤ t.size ∧ t.enter text = (.error ⟨t.size⟩, t)) := by
  rw [enter]
  cases hfound : t.find? text with
  | some x => exact .inl ⟨x, rfl, rfl⟩
  | none =>
    by_cases hroom : t.size < handleLimit
    · exact .inr (.inl ⟨rfl, hroom, if_pos hroom⟩)
    · exact .inr (.inr ⟨rfl, Nat.le_of_not_lt hroom, if_neg hroom⟩)

theorem Agrees.push (ht : t.Agrees) (hnew : text ∉ t.plain.texts) : (t.push text).Agrees := by
  intro other
  rw [find?_push, plain_push, find?_concat, plain_size, ht]
  by_cases heq : text = other
  · subst heq
    cases hfound : t.plain.find? text with
    | none => simp
    | some y => exact absurd (List.mem_of_getElem? (text?_of_find? hfound)) hnew
  · simp [heq]

/-- Texts may be entered one after the other if none occurs twice. -/
theorem Agrees.foldl_push {more : List String} (ht : t.Agrees)
    (hnew : (t.plain.texts ++ more).Nodup) :
    (more.foldl Indexed.push t).Agrees ∧
      (more.foldl Indexed.push t).plain.texts = t.plain.texts ++ more := by
  induction more generalizing t with
  | nil => exact ⟨ht, (List.append_nil _).symm⟩
  | cons text rest ih =>
    have htexts : (t.push text).plain.texts = t.plain.texts ++ [text] :=
      congrArg NameTable.texts (plain_push t text)
    have hrest : (t.push text).plain.texts ++ rest = t.plain.texts ++ text :: rest := by
      rw [htexts, List.append_assoc, List.singleton_append]
    have htext : text ∉ t.plain.texts := by
      intro hmem
      exact (List.nodup_append.1 hnew).2.2 text hmem text List.mem_cons_self rfl
    have := ih (ht.push htext) (hrest ▸ hnew)
    rwa [hrest] at this

theorem plain_initial : initial.plain = .initial ∧ initial.Agrees := by
  have hempty : (Indexed.mk #[] ∅).Agrees := fun text => Std.HashMap.getElem?_empty
  have hnodup : ((Indexed.mk #[] ∅).plain.texts ++ Name.reservedTexts).Nodup := by decide
  obtain ⟨hagrees, htexts⟩ := hempty.foldl_push hnodup
  exact ⟨congrArg NameTable.mk htexts, hagrees⟩

theorem initial_sound : initial.Sound := by
  obtain ⟨hnames, hagrees⟩ := plain_initial
  exact ⟨hnames ▸ NameTable.initial_sound, hagrees⟩

namespace Sound

/-- The map is the inverse of the texts. -/
theorem find?_eq_some_iff (ht : t.Sound) : t.find? text = some x ↔ t.text? x = some text := by
  rw [ht.agrees, ← plain_text?, ht.plain.find?_eq_some_iff]

theorem not_mem_of_find? (ht : t.Sound) (h : t.find? text = none) : text ∉ t.plain.texts :=
  NameTable.not_mem_of_find? (ht.agrees text ▸ h)

/-- The table answers as the one that has no map, and they hold the same texts afterwards. -/
theorem intern_eq (ht : t.Sound) (text : String) :
    t.plain.intern text =
      match t.enter text with
      | (.ok x, later) => .ok (x, later.plain)
      | (.error full, _) => .error full := by
  rw [NameTable.intern, ← ht.agrees, plain_size]
  obtain ⟨x, hfound, henter⟩ | ⟨hnew, hroom, henter⟩ | ⟨hnew, hfull, henter⟩ := t.enter_cases text
  · rw [hfound, henter]
  · simp only [hnew, henter, plain_push, if_pos hroom]
  · rw [hnew, henter]
    exact if_neg (Nat.not_lt_of_le hfull)

theorem enter (ht : t.Sound) (text : String) : (t.enter text).2.Sound := by
  obtain ⟨x, hfound, henter⟩ | ⟨hnew, hroom, henter⟩ | ⟨hnew, hfull, henter⟩ := t.enter_cases text
  · rw [henter]
    exact ht
  · have hintern := ht.intern_eq text
    rw [henter] at hintern ⊢
    exact ⟨ht.plain.intern hintern, ht.agrees.push (ht.not_mem_of_find? hnew)⟩
  · rw [henter]
    exact ht

end Sound

end Indexed

end NameTable

end EagerLambda
