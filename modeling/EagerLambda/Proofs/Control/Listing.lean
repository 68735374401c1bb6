import EagerLambda.Proofs.Control.Renumbering
import EagerLambda.Proofs.Value.Checked

/-!
# Listings with names read from the table

A listing shows identifiers and parameters by their texts, which are read from the table of names
one by one. The items of a program whose identifiers were given out by the table can all be written.

## Main definitions

- `Control.Item.describe?`, `Control.Table.dump?` — their written form, read from a table of names

## Main statements

- `Control.Table.dump?_eq` — a table of known names can be listed
-/

namespace EagerLambda

open NameTable

/-- How an atom is written in a listing. -/
def Atom.describe? (names : NameTable) : Atom → Option String
  | identifier name => names.text? name
  | atom => some (atom.describe names)

namespace Control

/-- How an item is written in a listing. -/
def Item.describe? (names : NameTable) : Item → Option String
  | load atom => atom.describe? names
  | lambda body params => do
    let bound ← params.mapM names.text?
    let bound := ",".intercalate bound
    some s!"λ{body.index}[{bound}]"
  | item => some (item.describe names)

/-- How a structure is written. -/
def Structure.describe? (names : NameTable) (cs : Structure) : Option String := do
  let items ← cs.items.mapM (Item.describe? names)
  let items := " ".intercalate items
  some s!"{cs.id.text}: {items}\n"

/-- The listing of a table. -/
def Table.dump? (names : NameTable) (table : Table) : Option String := do
  let lines ← table.structures.toList.mapM (Structure.describe? names)
  some (String.join lines)

end Control

variable {names : NameTable}

/-- Names that stand for themselves were given out by the table. -/
theorem texts?_eq {xs : List Name} (h : List.Forall₂ (SameText names names) xs xs) :
    xs.mapM names.text? = some (xs.map names.text) :=
  mapM_eq_some_map fun x hx => (sameText_self_iff.1 (List.forall₂_same.1 h x hx)).text?_eq

theorem Atom.describe?_eq {a : Atom} (h : a.Renumbered (SameText names names) a) :
    a.describe? names = some (a.describe names) := by
  cases h with
  | identifier hx => exact (sameText_self_iff.1 hx).text?_eq
  | constant ha =>
    cases a with
    | identifier x => exact absurd rfl (ha x)
    | _ => rfl

namespace Control

theorem Item.describe?_eq {item : Item} (h : item.Renumbered (SameText names names) item) :
    item.describe? names = some (item.describe names) := by
  cases h with
  | load ha => exact Atom.describe?_eq ha
  | lambda body hxs =>
    rw [describe?, texts?_eq hxs]
    rfl
  | _ => rfl

theorem Structure.describe?_eq {cs : Structure} (h : cs.Renumbered (SameText names names) cs) :
    cs.describe? names = some (cs.describe names) := by
  rw [describe?, mapM_eq_some_map fun item hitem =>
    Item.describe?_eq (List.forall₂_same.1 h.items item hitem)]
  rfl

/-- A table all of whose names were given out can be listed. -/
theorem Table.dump?_eq {table : Table} (h : table.Renumbered (SameText names names) table) :
    table.dump? names = some (table.dump names) := by
  rw [dump?, mapM_eq_some_map fun cs hcs =>
    Structure.describe?_eq (List.forall₂_same.1 h cs hcs)]
  rfl

end Control

end EagerLambda
