import EagerLambda.Error

/-!
# Checked indexing

Where a program of its own is executed, a list is read and written by index. If an index lies
outside the list there is nothing to go on with: that is not an error that could be reported. A
checked computation does every such access openly. It comes to a value or an error, as the
computation that it checks does, and to nothing at all as soon as an index is out of bounds.

## Main definitions

- `Checked` — computations that end without an answer if an index is out of bounds
- `Checked.get`, `Checked.set`, `Checked.remove` — accesses by index
- `Checked.Gives` — every index is in bounds, and the computation comes to a given result
-/

namespace EagerLambda

/-- Computations that fail with an error or end without an answer. -/
abbrev Checked (α : Type) := ExceptT Error Option α

namespace Checked

variable {α β : Type}

/-- The element at an index. -/
def get (xs : List α) (i : Nat) : Checked α := ExceptT.lift xs[i]?

/-- The list with the element at an index replaced. -/
def set (xs : List α) (i : Nat) (x : α) : Checked (List α) :=
  ExceptT.lift (if i < xs.length then some (xs.set i x) else none)

/-- The element at an index and the list without it. -/
def remove (xs : List α) (i : Nat) : Checked (α × List α) :=
  ExceptT.lift (xs[i]?.map fun x => (x, xs.eraseIdx i))

/-- Goes on only if what is expected holds. -/
def ensure (p : Prop) [Decidable p] : Checked Unit := ExceptT.lift (guard p)

/-- Every index is in bounds, and the computation comes to this value or error. -/
def Gives (m : Checked α) (r : Except Error α) : Prop := m.run = some r

namespace Gives

variable {m : Checked α} {f : α → Checked β} {r : Except Error α} {s : Except Error β} {a : α}

theorem of_except (r : Except Error α) : Gives (liftM r) r := rfl

theorem of_option {o : Option α} (h : o = some a) : Gives (liftM o) (.ok a) := by
  subst h
  rfl

theorem get {xs : List α} {i : Nat} (h : xs[i]? = some a) : (get xs i).Gives (.ok a) :=
  of_option h

theorem set {xs : List α} {i : Nat} (h : i < xs.length) (x : α) :
    (set xs i x).Gives (.ok (xs.set i x)) :=
  of_option (if_pos h)

theorem ensure {p : Prop} [Decidable p] (h : p) : (ensure p).Gives (.ok ()) :=
  of_option (if_pos h)

/-- A computation that goes on after a value. -/
theorem bind_ok (hm : m.Gives (.ok a)) (hf : (f a).Gives s) : (m >>= f).Gives s := by
  have hrun : m = some (.ok a) := hm
  subst hrun
  exact hf

/-- A computation that stops at an error. -/
theorem bind_error {e : Error} (hm : m.Gives (.error e)) : (m >>= f).Gives (.error e) := by
  have hrun : m = some (.error e) := hm
  subst hrun
  rfl

/-- One computation after the other, where the value of the first is made from a part of it. -/
theorem bind_map {γ : Type} {x : Except Error γ} {out : γ → α} {g : γ → Except Error β}
    (hm : m.Gives (out <$> x)) (hf : ∀ c, x = .ok c → (f (out c)).Gives (g c)) :
    (m >>= f).Gives (x >>= g) := by
  cases x with
  | ok c => exact hm.bind_ok (hf c rfl)
  | error e => exact hm.bind_error

/-- One computation after the other. -/
theorem bind {g : α → Except Error β} (hm : m.Gives r) (hf : ∀ a, r = .ok a → (f a).Gives (g a)) :
    (m >>= f).Gives (r >>= g) := by
  cases r with
  | ok a => exact hm.bind_ok (hf a rfl)
  | error e => exact hm.bind_error

end Gives

end Checked

end EagerLambda
