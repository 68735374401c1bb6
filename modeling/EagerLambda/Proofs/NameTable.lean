import EagerLambda.NameTable
import EagerLambda.Proofs.Tree.Renumbering
import Mathlib.Data.List.Nodup
import Mathlib.Logic.Relation

/-!
# What tables of names keep

A table that was made by entering texts holds each text once and starts with the reserved ones. What
is entered later goes to the end, so a handle keeps its text. Two such tables give every handle of
one a counterpart in the other, by its text, if the other holds it too.

## Main definitions

- `NameTable.Sound` — a table that holds no text twice and starts with the reserved ones
- `NameTable.Entered` — a table that was made from another by entering texts
- `NameTable.SameText` — handles of two tables with the same text
- `NameTable.Holds` — a handle that a table has given out

## Main statements

- `NameTable.intern_spec` — what entering a text does
- `NameTable.Sound.renumbering` — handles with the same text correspond
-/

namespace EagerLambda

namespace NameTable

variable {names names' later : NameTable} {text text' : String} {x y : Name}

/-- The table holds no text twice and starts with the reserved ones. -/
structure Sound (names : NameTable) : Prop where
  nodup : names.texts.Nodup
  reserved : Name.reservedTexts <+: names.texts

/-- The second table was made from the first by entering texts. -/
def Entered : NameTable → NameTable → Prop :=
  Relation.ReflTransGen fun names later => ∃ text x, names.intern text = .ok (x, later)

/-- The handles have the same text, each in its own table. -/
def SameText (names names' : NameTable) (x y : Name) : Prop :=
  ∃ text, names.text? x = some text ∧ names'.text? y = some text

/-- The table has given out the handle. -/
def Holds (names : NameTable) (x : Name) : Prop := x.index < names.size

instance (names : NameTable) (x : Name) : Decidable (names.Holds x) :=
  inferInstanceAs (Decidable (x.index < names.size))

/-- A handle that was given out has a text. -/
theorem Holds.text?_eq (h : names.Holds x) : names.text? x = some (names.text x) := by
  rw [text, text?, List.getElem?_eq_getElem h, Option.getD_some]

theorem sameText_self_iff : SameText names names x x ↔ names.Holds x := by
  constructor
  · rintro ⟨text, hx, -⟩
    exact (List.getElem?_eq_some_iff.1 hx).1
  · exact fun h => ⟨names.text x, h.text?_eq, h.text?_eq⟩

theorem initial_sound : initial.Sound := ⟨by decide, List.prefix_rfl⟩

/-- A handle that was found has the text that was looked for. -/
theorem text?_of_find? (h : names.find? text = some x) : names.text? x = some text := by
  obtain ⟨i, hi, rfl⟩ := Option.map_eq_some_iff.1 h
  rw [List.idxOf?, List.findIdx?_eq_some_iff_getElem] at hi
  obtain ⟨hlt, heq, -⟩ := hi
  rw [text?, List.getElem?_eq_getElem hlt, eq_of_beq heq]

theorem not_mem_of_find? (h : names.find? text = none) : text ∉ names.texts := by
  rw [find?, Option.map_eq_none_iff, List.idxOf?_eq_none_iff] at h
  exact h

/-- Entering a text answers a handle with that text. The table is as before or has the text as a new
one at its end. -/
theorem intern_spec (h : names.intern text = .ok (x, later)) :
    later.text? x = some text ∧
      (later = names ∨ text ∉ names.texts ∧ later.texts = names.texts ++ [text]) := by
  rw [intern] at h
  split at h
  · next found hfound =>
    cases h
    exact ⟨text?_of_find? hfound, .inl rfl⟩
  · next hnew =>
    split at h
    · cases h
      refine ⟨?_, .inr ⟨not_mem_of_find? hnew, rfl⟩⟩
      rw [text?, size, List.getElem?_concat_length]
    · cases h

theorem Sound.intern (hnames : names.Sound) (h : names.intern text = .ok (x, later)) :
    later.Sound := by
  obtain ⟨-, rfl | ⟨hnew, htexts⟩⟩ := intern_spec h
  · exact hnames
  · refine ⟨?_, ?_⟩
    · rw [htexts, List.nodup_append_comm]
      exact List.nodup_cons.2 ⟨hnew, hnames.nodup⟩
    · rw [htexts]
      exact hnames.reserved.trans (List.prefix_append _ _)

namespace Entered

theorem of_intern (h : names.intern text = .ok (x, later)) : names.Entered later :=
  .single ⟨text, x, h⟩

theorem sound (h : names.Entered later) (hnames : names.Sound) : later.Sound := by
  induction h with
  | refl => exact hnames
  | tail _ hstep ih =>
    obtain ⟨text, x, hintern⟩ := hstep
    exact ih.intern hintern

/-- A handle keeps its text. -/
theorem text? (h : names.Entered later) (hx : names.text? x = some text) :
    later.text? x = some text := by
  induction h with
  | refl => exact hx
  | tail _ hstep ih =>
    obtain ⟨new, y, hintern⟩ := hstep
    obtain ⟨-, rfl | ⟨-, htexts⟩⟩ := intern_spec hintern
    · exact ih
    · have hlt := (List.getElem?_eq_some_iff.1 ih).1
      rw [NameTable.text?, htexts, List.getElem?_append_left hlt]
      exact ih

end Entered

/-- A table has no two handles with the same text. -/
theorem Sound.eq_of_text? (hnames : names.Sound) (hx : names.text? x = some text)
    (hy : names.text? y = some text) : x = y := by
  obtain ⟨i⟩ := x
  obtain ⟨j⟩ := y
  obtain ⟨hi, hx⟩ := List.getElem?_eq_some_iff.1 hx
  obtain ⟨hj, hy⟩ := List.getElem?_eq_some_iff.1 hy
  obtain rfl : i = j := (hnames.nodup.getElem_inj_iff).1 (hx.trans hy.symm)
  rfl

/-- The reserved texts have the same handles in every table. -/
theorem Sound.text?_reserved (hnames : names.Sound) (hx : x.index < Name.reservedTexts.length) :
    names.text? x = some Name.reservedTexts[x.index] := by
  obtain ⟨more, htexts⟩ := hnames.reserved
  rw [text?, ← htexts, List.getElem?_append_left hx, List.getElem?_eq_getElem hx]

/-- Handles with the same text correspond. -/
theorem Sound.renumbering (hnames : names.Sound) (hnames' : names'.Sound) :
    Renumbering (SameText names names') where
  unique := by
    rintro x x' y y' ⟨text, hx, hy⟩ ⟨text', hx', hy'⟩
    constructor
    · rintro rfl
      obtain rfl : text = text' := Option.some.inj (hx.symm.trans hx')
      exact hnames'.eq_of_text? hy hy'
    · rintro rfl
      obtain rfl : text = text' := Option.some.inj (hy.symm.trans hy')
      exact hnames.eq_of_text? hx hx'
  reserved hx := ⟨_, hnames.text?_reserved hx, hnames'.text?_reserved hx⟩

/-- Handles with the same text read the same. -/
theorem SameText.text_eq (h : SameText names names' x y) : names.text x = names'.text y := by
  obtain ⟨text, hx, hy⟩ := h
  rw [NameTable.text, NameTable.text, hx, hy]

end NameTable

end EagerLambda
