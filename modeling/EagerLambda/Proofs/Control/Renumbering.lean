import EagerLambda.Proofs.Control.Pairing
import EagerLambda.Proofs.Tree.Renumbering

/-!
# Control tables with other handles for the same names

A layout copies handles from the tree to the items and never looks at one. So trees that are the
same up to handles have tables that are, or no tables for the same reason.

## Main definitions

- `Control.Item.Renumbered`, `Control.Table.Renumbered` — the same up to handles

## Main statements

- `Tree.Renumbered.ofTree` — the tables of trees that are the same up to handles
-/

namespace EagerLambda

variable {R : Name → Name → Prop}

namespace Control

/-- The items are the same up to handles. -/
inductive Item.Renumbered (R : Name → Name → Prop) : Item → Item → Prop
  | load {a b : Atom} : a.Renumbered R b → Renumbered R (.load a) (.load b)
  | gamma : Renumbered R .gamma .gamma
  | binary (op : BinaryOp) : Renumbered R (.binary op) (.binary op)
  | unary (op : UnaryOp) : Renumbered R (.unary op) (.unary op)
  | lambda (body : ControlId) {xs ys : List Name} : List.Forall₂ R xs ys →
      Renumbered R (.lambda body xs) (.lambda body ys)
  | tau (count : Nat) : Renumbered R (.tau count) (.tau count)
  | branch (thenId elseId : ControlId) :
      Renumbered R (.branch thenId elseId) (.branch thenId elseId)
  | beta : Renumbered R .beta .beta

/-- The items are the same up to handles, one by one. -/
abbrev Items (R : Name → Name → Prop) : List Item → List Item → Prop :=
  List.Forall₂ (Item.Renumbered R)

/-- The structures have the same number and items that are the same up to handles. -/
structure Structure.Renumbered (R : Name → Name → Prop) (c d : Structure) : Prop where
  id : c.id = d.id
  items : Items R c.items d.items

/-- The structures of the tables are the same up to handles, one by one. -/
def Table.Renumbered (R : Name → Name → Prop) (table table' : Table) : Prop :=
  List.Forall₂ (Structure.Renumbered R) table.structures.toList table'.structures.toList

/-- The layouts are the same up to handles. -/
structure Fragment.Renumbered (R : Name → Name → Prop) (code code' : Fragment) : Prop where
  items : Items R code.items.toList code'.items.toList
  structures : List.Forall₂ (Items R) code.structures.toList code'.structures.toList
  next : code.next = code'.next

theorem Item.Renumbered.targets_eq {item item' : Item} (h : item.Renumbered R item') :
    item'.targets = item.targets := by
  cases h <;> rfl

theorem Items.targets_eq {items items' : List Item} (h : Items R items items') :
    items'.map Item.targets = items.map Item.targets := by
  induction h with
  | nil => rfl
  | cons hitem _ ih => rw [List.map_cons, List.map_cons, hitem.targets_eq, ih]

theorem Items.isEmpty_eq {items items' : List Item} (h : Items R items items') :
    items.isEmpty = items'.isEmpty := by
  cases h <;> rfl

theorem Structure.Renumbered.executionOrder {c d : Structure} (h : c.Renumbered R d) :
    Items R c.executionOrder d.executionOrder :=
  List.rel_reverse h.items

namespace Fragment.Renumbered

variable {code code' other other' : Fragment}

theorem append (h : code.Renumbered R code') (h' : other.Renumbered R other') :
    (code.append other).Renumbered R (code'.append other') where
  items := by
    rw [items_append, items_append]
    exact List.rel_append h.items h'.items
  structures := by
    rw [structures_append, structures_append]
    exact List.rel_append h.structures h'.structures
  next := h'.next

theorem cons (h : code.Renumbered R code') {item item' : Item} (hitem : item.Renumbered R item') :
    (code.cons item).Renumbered R (code'.cons item') where
  items := by
    rw [items_cons, items_cons]
    exact .cons hitem h.items
  structures := h.structures
  next := h.next

theorem asStructures (h : code.Renumbered R code') :
    List.Forall₂ (Items R) code.asStructures.toList code'.asStructures.toList := by
  rw [toList_asStructures, toList_asStructures]
  exact .cons h.items h.structures

/-- The structures of the two arms of a conditional. -/
theorem arms (h : code.Renumbered R code') (h' : other.Renumbered R other') :
    (code.arms other).Renumbered R (code'.arms other') where
  items := .nil
  structures := by
    rw [Fragment.arms, Fragment.arms, Chain.toList_join, Chain.toList_join]
    exact List.rel_append h.asStructures h'.asStructures
  next := h'.next

end Fragment.Renumbered

theorem allocate_alike (next : Nat) : Alike R Eq (allocate next) (allocate next) := by
  rw [allocate]
  split
  · exact .ok rfl
  · exact .error (.same rfl)

end Control

open Control

namespace Tree

variable {t u : Tree} {ts us : List Tree}

/-- An identifier stands against an identifier that corresponds to it, and nothing else does. -/
theorem Renumbered.name?_rel (h : Renumbered R t u) : Option.Rel R t.name? u.name? := by
  obtain ⟨hlabel, hs⟩ := h
  cases hlabel with
  | @atom a _ ha =>
    cases ha with
    | identifier hxy =>
      cases hs with
      | nil => exact .some hxy
      | cons _ _ => exact .none
    | constant hconstant =>
      cases a with
      | identifier x => exact absurd rfl (hconstant x)
      | _ => exact .none
  | _ => exact .none

theorem Renumbered.label_text_eq (h : Renumbered R t u) : t.label.text = u.label.text := by
  obtain ⟨hlabel, -⟩ := h
  exact hlabel.text_eq

theorem parameterNames_alike (hs : List.Forall₂ (Renumbered R) ts us) :
    Alike R (List.Forall₂ R) (parameterNames ts) (parameterNames us) := by
  induction hs with
  | nil => exact .ok .nil
  | @cons t u _ _ hfirst _ ih =>
    have hname := hfirst.name?_rel
    rw [parameterNames, parameterNames, hfirst.label_text_eq]
    generalize t.name? = x at hname
    generalize u.name? = y at hname
    cases hname with
    | none => exact .error (.same rfl)
    | some hxy => exact ih.bind fun xs ys hxys => .ok (.cons hxy hxys)

theorem boundNames_alike_name (h : Renumbered R t u) :
    Alike R (List.Forall₂ R)
      (match t.name? with
        | none => controlError (.binderNotName t.label.text)
        | some name => .ok [name])
      (match u.name? with
        | none => controlError (.binderNotName u.label.text)
        | some name => .ok [name]) := by
  have hname := h.name?_rel
  rw [h.label_text_eq]
  generalize t.name? = x at hname
  generalize u.name? = y at hname
  cases hname with
  | none => exact .error (.same rfl)
  | some hxy => exact .ok (.cons hxy .nil)

/-- What binds names binds corresponding ones. -/
theorem Renumbered.boundNames (h : Renumbered R t u) :
    Alike R (List.Forall₂ R) t.boundNames u.boundNames := by
  have hsingle := boundNames_alike_name h
  obtain ⟨hlabel, hs⟩ := h
  cases hlabel with
  | construct c =>
    cases c with
    | comma =>
      cases hs with
      | nil => exact hsingle
      | cons hfirst hrest => exact parameterNames_alike (.cons hfirst hrest)
    | _ => exact hsingle
  | _ => exact hsingle

theorem wrongCount_alike {α β : Type} {A : α → β → Prop} (label : Label) (expected : Nat)
    (h : ts.length = us.length) :
    Alike R A (wrongCount label expected ts) (wrongCount label expected us) := by
  rw [wrongCount, wrongCount, h]
  exact .error (.same rfl)

theorem fragmentAll_alike (hs : List.Forall₂ (Renumbered R) ts us)
    (ih : ∀ t ∈ ts, ∀ {u}, Renumbered R t u → ∀ next,
      Alike R (Fragment.Renumbered R) (t.fragment next) (u.fragment next)) (next : Nat) :
    Alike R (Fragment.Renumbered R) (fragmentAll next ts) (fragmentAll next us) := by
  induction hs generalizing next with
  | nil => exact .ok ⟨.nil, .nil, rfl⟩
  | cons hfirst _ ihs =>
    rw [List.forall_mem_cons] at ih
    refine (ih.1 hfirst next).bind fun code code' hcode => ?_
    rw [hcode.next]
    exact (ihs ih.2 _).bind fun others others' hothers => .ok (hcode.append hothers)

/-- The layouts of trees that are the same up to handles are, or there are none for the same
reason. -/
theorem Renumbered.fragment (h : Renumbered R t u) (next : Nat) :
    Alike R (Fragment.Renumbered R) (t.fragment next) (u.fragment next) := by
  induction t using children_induction generalizing u next with
  | node label children ih =>
    obtain ⟨hlabel, hs⟩ := h
    have hall := fragmentAll_alike hs fun t ht _ => ih t ht
    have hlength := hs.length_eq
    cases hlabel with
    | atom ha =>
      rcases hs with _ | ⟨_, _⟩
      · exact .ok ⟨.cons (.load ha) .nil, .nil, rfl⟩
      · exact wrongCount_alike _ _ hlength
    | binary op =>
      rcases hs with _ | ⟨hleft, _ | ⟨hright, _ | ⟨_, _⟩⟩⟩
      case cons.cons.nil =>
        refine (ih _ (by simp) hleft next).bind fun code code' hcode => ?_
        rw [hcode.next]
        refine (ih _ (by simp) hright _).bind fun other other' hother => ?_
        exact .ok ((hcode.append hother).cons (.binary op))
      all_goals exact wrongCount_alike _ _ hlength
    | unary op =>
      rcases hs with _ | ⟨hoperand, _ | ⟨_, _⟩⟩
      case cons.nil =>
        exact (ih _ (by simp) hoperand next).bind fun code code' hcode =>
          .ok (hcode.cons (.unary op))
      all_goals exact wrongCount_alike _ _ hlength
    | construct c =>
      cases c with
      | lambda =>
        rcases hs with _ | ⟨hbinder, _ | ⟨hbody, _ | ⟨_, _⟩⟩⟩
        case cons.cons.nil =>
          refine hbinder.boundNames.bind fun xs ys hxys =>
            (allocate_alike next).bind fun id _ hid =>
            (ih _ (by simp) hbody _).bind fun code code' hcode => ?_
          subst hid
          exact .ok ⟨.cons (.lambda id hxys) .nil, hcode.asStructures, hcode.next⟩
        all_goals exact wrongCount_alike _ _ hlength
      | conditional =>
        rcases hs with _ | ⟨hcondition, _ | ⟨hthen, _ | ⟨helse, _ | ⟨_, _⟩⟩⟩⟩
        case cons.cons.cons.nil =>
          refine (allocate_alike next).bind fun thenId _ hthenId =>
            (ih _ (by simp) hthen _).bind fun code code' hcode => ?_
          rw [hcode.next]
          refine (allocate_alike _).bind fun elseId _ helseId =>
            (ih _ (by simp) helse _).bind fun other other' hother => ?_
          rw [hother.next]
          refine (ih _ (by simp) hcondition _).bind fun test test' htest => ?_
          subst hthenId helseId
          exact .ok ((((hcode.arms hother).append htest).cons .beta).cons (.branch _ _))
        all_goals exact wrongCount_alike _ _ hlength
      | tau =>
        refine (hall next).bind fun code code' hcode => ?_
        rw [hlength]
        exact .ok (hcode.cons (.tau _))
      | gamma =>
        rcases hs with _ | ⟨hfunction, _ | ⟨hargument, _ | ⟨_, _⟩⟩⟩
        case cons.cons.nil =>
          refine (ih _ (by simp) hfunction next).bind fun code code' hcode => ?_
          rw [hcode.next]
          refine (ih _ (by simp) hargument _).bind fun other other' hother => ?_
          exact .ok ((hcode.append hother).cons .gamma)
        all_goals exact wrongCount_alike _ _ hlength
      | _ => exact .error (.same rfl)

end Tree

namespace Control.Table

theorem Renumbered.ofItems {sequences sequences' : List (List Item)}
    (h : List.Forall₂ (Items R) sequences sequences') :
    (ofItems sequences).Renumbered R (ofItems sequences') := by
  rw [Renumbered, List.forall₂_iff_get]
  refine ⟨by simp [Table.ofItems, h.length_eq], fun i hi hi' => ?_⟩
  simp only [Table.ofItems, List.toList_toArray, List.get_eq_getElem, List.getElem_map,
    List.getElem_zipIdx]
  exact ⟨rfl, (List.forall₂_iff_get.1 h).2 i _ _⟩

theorem map_targets_eq {sequences sequences' : List (List Item)}
    (h : List.Forall₂ (Items R) sequences sequences') :
    sequences'.map (List.map Item.targets) = sequences.map (List.map Item.targets) := by
  induction h with
  | nil => rfl
  | cons hitems _ ih => rw [List.map_cons, List.map_cons, hitems.targets_eq, ih]

end Control.Table

/-- Trees that are the same up to handles have tables that are, or none for the same reason. -/
theorem Tree.Renumbered.ofTree {t u : Tree} (h : Renumbered R t u) :
    Alike R (Table.Renumbered R) (Table.ofTree t) (Table.ofTree u) := by
  refine (allocate_alike 0).bind fun _ _ _ => (h.fragment 1).bind fun code code' hcode => ?_
  have hstructures := hcode.asStructures
  rw [Table.ofItems?, Table.ofItems?, Table.fault?_eq (Table.map_targets_eq hstructures)]
  split
  · exact .error (.same rfl)
  · exact .ok (.ofItems hstructures)

namespace Control.Table

variable {table table' : Table}

theorem Renumbered.size_eq (h : table.Renumbered R table') : table.size = table'.size := by
  simpa [size] using List.Forall₂.length_eq h

/-- The structures with the same number. -/
theorem Renumbered.get?_rel (h : table.Renumbered R table') (id : ControlId) :
    Option.Rel (Structure.Renumbered R) (table.get? id) (table'.get? id) := by
  simpa [get?] using forall₂_getElem? h id.index

end Control.Table

end EagerLambda
