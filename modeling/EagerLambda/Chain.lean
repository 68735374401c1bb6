/-!
# Chains

A chain is a list under construction. Two chains are joined in constant time, however long they
are, and the elements are put in order only when the list is asked for.

## Main definitions

- `Chain` — lists under construction
- `Chain.toList` — the elements in order

## Main statements

- `Chain.toList_join` — joining chains is appending their lists
-/

namespace EagerLambda

/-- A list under construction. -/
inductive Chain (α : Type)
  | empty
  | single (element : α)
  | join (first second : Chain α)
  deriving DecidableEq, Repr, Inhabited

namespace Chain

variable {α : Type}

/-- The elements of a chain in order, and after them those of `rest`. -/
def before (rest : List α) : Chain α → List α
  | empty => rest
  | single element => element :: rest
  | join first second => first.before (second.before rest)

/-- The elements of a chain in order. -/
def toList (chain : Chain α) : List α := chain.before []

theorem before_eq (chain : Chain α) (rest : List α) :
    chain.before rest = chain.toList ++ rest := by
  induction chain generalizing rest with
  | empty => rfl
  | single element => rfl
  | join first second ihFirst ihSecond =>
    simp only [toList, before]
    rw [ihFirst, ihSecond, ihFirst (second.before []), List.append_assoc, toList, toList]

@[simp]
theorem toList_empty : (empty : Chain α).toList = [] := rfl

@[simp]
theorem toList_single (element : α) : (single element).toList = [element] := rfl

@[simp]
theorem toList_join (first second : Chain α) :
    (join first second).toList = first.toList ++ second.toList :=
  before_eq first second.toList

end Chain

end EagerLambda
