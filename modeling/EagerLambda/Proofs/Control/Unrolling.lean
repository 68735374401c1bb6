import EagerLambda.Proofs.Control.Completeness
import EagerLambda.Proofs.Control.Pairing
import EagerLambda.Proofs.Tree.Context
import EagerLambda.Proofs.Value.Operations

/-!
# Tuples that are built step by step

A tuple can also be written as `nil` with its components appended to it one after the other. The
components are then laid out in the same order, so the structures they need get the same numbers,
and the tables differ only in the items that build the tuple: after the components were computed,
from the last to the first, one table collects them at once, and the other loads `nil` and appends
them one at a time.

## Main definitions

- `Tree.appended` — a tuple that is built step by step
- `Control.Unrolled` — items in execution order, with some tuples built step by step
- `Conform` — two computations both succeed or both fail
- `Tree.Exchangeable` — trees that have the same layout but for such items, or none

## Main statements

- `TreeContext.exchangeable_fill` — trees that are exchangeable are so wherever they stand
- `Tree.exchangeable_appended` — a tuple and the same tuple built step by step are exchangeable
- `Tree.Exchangeable.ofTree` — the control tables of exchangeable programs
-/

namespace EagerLambda

open Control

-- ════════════════════════════════════════════════════════════════════════
-- Computations that succeed or fail together
-- ════════════════════════════════════════════════════════════════════════

/-- Both computations succeed, with results that `A` relates, or both fail. -/
inductive Conform {α β : Type} (A : α → β → Prop) : Except Error α → Except Error β → Prop
  | ok {a : α} {b : β} : A a b → Conform A (.ok a) (.ok b)
  | error (e e' : Error) : Conform A (.error e) (.error e')

namespace Conform

variable {α β γ δ : Type} {A : α → β → Prop} {B : γ → δ → Prop}

theorem refl {A : α → α → Prop} (hA : ∀ a, A a a) (r : Except Error α) : Conform A r r := by
  cases r with
  | ok a => exact .ok (hA a)
  | error e => exact .error e e

theorem bind {r : Except Error α} {s : Except Error β} {f : α → Except Error γ}
    {g : β → Except Error δ} (h : Conform A r s) (hfg : ∀ a b, A a b → Conform B (f a) (g b)) :
    Conform B (r >>= f) (s >>= g) := by
  cases h with
  | ok hab => exact hfg _ _ hab
  | error e e' => exact .error e e'

end Conform

-- ════════════════════════════════════════════════════════════════════════
-- Items
-- ════════════════════════════════════════════════════════════════════════

namespace Control

/-- The items, in the order in which they are executed, are the same, but that some tuples are
collected at once in the first list and built step by step in the second. -/
inductive Unrolled : List Item → List Item → Prop
  | nil : Unrolled [] []
  | cons (item : Item) {items items' : List Item} : Unrolled items items' →
      Unrolled (item :: items) (item :: items')
  | tuple (count : Nat) {items items' : List Item} : Unrolled items items' →
      Unrolled (.tau count :: items)
        (.load .nil :: (List.replicate count (.binary .aug) ++ items'))

namespace Unrolled

variable {items items' others others' : List Item}

theorem refl (items : List Item) : Unrolled items items := by
  induction items with
  | nil => exact .nil
  | cons item _ ih => exact .cons item ih

theorem append (h : Unrolled items items') (h' : Unrolled others others') :
    Unrolled (items ++ others) (items' ++ others') := by
  induction h with
  | nil => exact h'
  | cons item _ ih => exact .cons item ih
  | tuple count _ ih =>
    rw [List.cons_append, List.cons_append, List.append_assoc]
    exact .tuple count ih

theorem isEmpty_eq (h : Unrolled items items') : items'.isEmpty = items.isEmpty := by
  cases h <;> rfl

end Unrolled

/-- The items of a structure, of which the last is executed first. -/
def Written (items items' : List Item) : Prop := Unrolled items.reverse items'.reverse

namespace Written

variable {items items' others others' : List Item}

theorem refl (items : List Item) : Written items items := Unrolled.refl _

theorem append (h : Written items items') (h' : Written others others') :
    Written (items ++ others) (items' ++ others') := by
  rw [Written, List.reverse_append, List.reverse_append]
  exact Unrolled.append h' h

theorem cons (item : Item) (h : Written items items') : Written (item :: items) (item :: items') :=
  append (refl [item]) h

/-- The items that collect a tuple, before those of its components. -/
theorem tuple (count : Nat) (h : Written items items') :
    Written (.tau count :: items)
      (List.replicate count (.binary .aug) ++ .load .nil :: items') := by
  have hbuild : Unrolled [.tau count] (.load .nil :: (List.replicate count (.binary .aug) ++ [])) :=
    .tuple count .nil
  rw [Written, List.reverse_append, List.reverse_cons, List.reverse_cons, List.reverse_replicate,
    List.append_assoc]
  rw [List.append_nil] at hbuild
  exact Unrolled.append h hbuild

end Written

/-- The structures of the tables have the same items, but that some tuples are built step by step
in the second. -/
def Table.Unrolled (table table' : Table) : Prop :=
  ∀ id, Option.Rel (fun cs ds : Structure => Control.Unrolled cs.executionOrder ds.executionOrder)
    (table.get? id) (table'.get? id)

theorem Table.unrolled_ofItems {sequences sequences' : List (List Item)}
    (h : List.Forall₂ Written sequences sequences') :
    (ofItems sequences).Unrolled (ofItems sequences') := by
  intro id
  have hrel := forall₂_getElem? h id.index
  rw [get?_ofItems, get?_ofItems]
  generalize sequences[id.index]? = items at hrel
  generalize sequences'[id.index]? = items' at hrel
  cases hrel with
  | none => exact .none
  | some hitems => exact .some hitems

-- ════════════════════════════════════════════════════════════════════════
-- Layouts
-- ════════════════════════════════════════════════════════════════════════

/-- The layouts have the same items and structures, but that some tuples are built step by step in
the second. -/
structure Fragment.Unrolled (code code' : Fragment) : Prop where
  items : Written code.items.toList code'.items.toList
  structures : List.Forall₂ Written code.structures.toList code'.structures.toList
  next : code'.next = code.next

namespace Fragment.Unrolled

variable {code code' other other' : Fragment}

theorem refl (code : Fragment) : code.Unrolled code :=
  ⟨.refl _, List.forall₂_same.2 fun items _ => .refl items, rfl⟩

theorem append (h : code.Unrolled code') (h' : other.Unrolled other') :
    (code.append other).Unrolled (code'.append other') where
  items := by
    rw [items_append, items_append]
    exact h.items.append h'.items
  structures := by
    rw [structures_append, structures_append]
    exact List.rel_append h.structures h'.structures
  next := h'.next

theorem cons (h : code.Unrolled code') (item : Item) :
    (code.cons item).Unrolled (code'.cons item) where
  items := by
    rw [items_cons, items_cons]
    exact .cons item h.items
  structures := h.structures
  next := h.next

theorem asStructures (h : code.Unrolled code') :
    List.Forall₂ Written code.asStructures.toList code'.asStructures.toList := by
  rw [toList_asStructures, toList_asStructures]
  exact .cons h.items h.structures

/-- The structures of the two arms of a conditional. -/
theorem arms (h : code.Unrolled code') (h' : other.Unrolled other') :
    (code.arms other).Unrolled (code'.arms other') where
  items := .refl []
  structures := by
    rw [Fragment.arms, Fragment.arms, Chain.toList_join, Chain.toList_join]
    exact List.rel_append h.asStructures h'.asStructures
  next := h'.next

end Fragment.Unrolled

end Control

-- ════════════════════════════════════════════════════════════════════════
-- Trees
-- ════════════════════════════════════════════════════════════════════════

namespace Tree

/-- In a layout the trees can stand in the place of each other, whether they are computed or bind
names. -/
structure Exchangeable (t u : Tree) : Prop where
  fragment : ∀ next, Conform Fragment.Unrolled (t.fragment next) (u.fragment next)
  boundNames : Conform Eq t.boundNames u.boundNames
  name : t.name? = u.name?

variable {t u : Tree} {ts us : List Tree}

theorem Exchangeable.refl (t : Tree) : Exchangeable t t :=
  ⟨fun _ => .refl .refl _, .refl (fun _ => rfl) _, rfl⟩

theorem parameterNames_conform (h : List.Forall₂ Exchangeable ts us) :
    Conform Eq (parameterNames ts) (parameterNames us) := by
  induction h with
  | nil => exact .ok rfl
  | @cons t u _ _ hfirst _ ih =>
    rw [parameterNames, parameterNames, ← hfirst.name]
    cases t.name? with
    | none => exact .error _ _
    | some x => exact ih.bind fun xs ys hxs => .ok (congrArg (x :: ·) hxs)

/-- A binder that is no list of names is a name. -/
theorem boundNames_conform_name (h : t.name? = u.name?) :
    Conform Eq
      (match t.name? with
        | none => controlError (.binderNotName t.label.text)
        | some name => .ok [name])
      (match u.name? with
        | none => controlError (.binderNotName u.label.text)
        | some name => .ok [name]) := by
  rw [← h]
  cases t.name? with
  | none => exact .error _ _
  | some x => exact .ok rfl

theorem boundNames_conform (label : Label) (h : List.Forall₂ Exchangeable ts us)
    (hname : (node label ts).name? = (node label us).name?) :
    Conform Eq (node label ts).boundNames (node label us).boundNames := by
  have hsingle := boundNames_conform_name hname
  cases label with
  | construct c =>
    cases c with
    | comma =>
      cases h with
      | nil => exact hsingle
      | cons hfirst hrest => exact parameterNames_conform (.cons hfirst hrest)
    | _ => exact hsingle
  | _ => exact hsingle

theorem fragmentAll_conform (h : List.Forall₂ Exchangeable ts us) (next : Nat) :
    Conform Fragment.Unrolled (fragmentAll next ts) (fragmentAll next us) := by
  induction h generalizing next with
  | nil => exact .refl .refl _
  | cons hfirst _ ih =>
    refine (hfirst.fragment next).bind fun code code' hcode => ?_
    rw [hcode.next]
    exact (ih _).bind fun others others' hothers => .ok (hcode.append hothers)

/-- The layout of a node is made from those of its children. -/
theorem fragment_conform (label : Label) (h : List.Forall₂ Exchangeable ts us) (next : Nat) :
    Conform Fragment.Unrolled ((node label ts).fragment next) ((node label us).fragment next) := by
  have hall := fragmentAll_conform h next
  have hlength := h.length_eq
  cases label with
  | atom a =>
    rcases h with _ | ⟨_, _⟩
    · exact .refl .refl _
    · exact .error _ _
  | binary op =>
    rcases h with _ | ⟨hleft, _ | ⟨hright, _ | ⟨_, _⟩⟩⟩
    case cons.cons.nil =>
      refine (hleft.fragment next).bind fun code code' hcode => ?_
      rw [hcode.next]
      exact (hright.fragment _).bind fun other other' hother =>
        .ok ((hcode.append hother).cons (.binary op))
    all_goals exact .error _ _
  | unary op =>
    rcases h with _ | ⟨hoperand, _ | ⟨_, _⟩⟩
    case cons.nil =>
      exact (hoperand.fragment next).bind fun code code' hcode => .ok (hcode.cons (.unary op))
    all_goals exact .error _ _
  | construct c =>
    cases c with
    | lambda =>
      rcases h with _ | ⟨hbinder, _ | ⟨hbody, _ | ⟨_, _⟩⟩⟩
      case cons.cons.nil =>
        refine hbinder.boundNames.bind fun xs ys hxs =>
          (Conform.refl (fun _ => rfl) (allocate next)).bind fun id _ hid =>
          (hbody.fragment _).bind fun code code' hcode => ?_
        subst hxs hid
        exact .ok ⟨.refl _, hcode.asStructures, hcode.next⟩
      all_goals exact .error _ _
    | conditional =>
      rcases h with _ | ⟨hcondition, _ | ⟨hthen, _ | ⟨helse, _ | ⟨_, _⟩⟩⟩⟩
      case cons.cons.cons.nil =>
        refine (Conform.refl (fun _ => rfl) (allocate next)).bind fun thenId _ hthenId =>
          (hthen.fragment _).bind fun code code' hcode => ?_
        rw [hcode.next]
        refine (Conform.refl (fun _ => rfl) (allocate _)).bind fun elseId _ helseId =>
          (helse.fragment _).bind fun other other' hother => ?_
        rw [hother.next]
        refine (hcondition.fragment _).bind fun test test' htest => ?_
        subst hthenId helseId
        exact .ok ((((hcode.arms hother).append htest).cons .beta).cons (.branch _ _))
      all_goals exact .error _ _
    | tau =>
      refine hall.bind fun code code' hcode => ?_
      rw [hlength]
      exact .ok (hcode.cons (.tau _))
    | gamma =>
      rcases h with _ | ⟨hfunction, _ | ⟨hargument, _ | ⟨_, _⟩⟩⟩
      case cons.cons.nil =>
        refine (hfunction.fragment next).bind fun code code' hcode => ?_
        rw [hcode.next]
        exact (hargument.fragment _).bind fun other other' hother =>
          .ok ((hcode.append hother).cons .gamma)
      all_goals exact .error _ _
    | _ => exact .error _ _

/-- Nodes with the same label and exchangeable children are exchangeable. -/
theorem Exchangeable.node (label : Label) (h : List.Forall₂ Exchangeable ts us) :
    Exchangeable (.node label ts) (.node label us) := by
  have hname : (Tree.node label ts).name? = (Tree.node label us).name? := by
    cases h with
    | nil => rfl
    | cons hfirst hrest =>
      cases label with
      | atom a => cases a <;> rfl
      | _ => rfl
  exact ⟨fragment_conform label h, boundNames_conform label h hname, hname⟩

end Tree

/-- Exchangeable trees are exchangeable wherever they stand. -/
theorem TreeContext.exchangeable_fill {t u : Tree} (h : t.Exchangeable u) (context : TreeContext) :
    (context.fill t).Exchangeable (context.fill u) := by
  induction context with
  | hole => exact h
  | node label before inside after ih =>
    have hsame : ∀ trees : List Tree, List.Forall₂ Tree.Exchangeable trees trees :=
      fun trees => List.forall₂_same.2 fun t _ => .refl t
    exact .node label (List.rel_append (hsame before) (.cons ih (hsame after)))

namespace Tree

-- ════════════════════════════════════════════════════════════════════════
-- Appending
-- ════════════════════════════════════════════════════════════════════════

/-- The tree with the trees of a list appended to it, one after the other. -/
def appendedTo (tree : Tree) (components : List Tree) : Tree :=
  components.foldl (fun tuple component => node (.binary .aug) [tuple, component]) tree

/-- The tuple of these components, built step by step. -/
def appended (components : List Tree) : Tree := (leaf .nil).appendedTo components

variable {tree : Tree} {next : Nat} {code : Fragment}

theorem fragment_appendedTo_error {error : Error} (h : tree.fragment next = .error error)
    (components : List Tree) :
    ∃ error', (tree.appendedTo components).fragment next = .error error' := by
  induction components generalizing tree with
  | nil => exact ⟨error, h⟩
  | cons component rest ih =>
    refine ih ?_
    rw [fragment, h]
    rfl

/-- What is appended to a tree is laid out after it. Before all of that stand the items that append
one component each. -/
theorem fragment_appendedTo (h : tree.fragment next = .ok code) (components : List Tree) :
    Conform (fun parts code' => code'.items.toList =
        List.replicate components.length (.binary .aug) ++
          (code.items.toList ++ parts.items.toList) ∧
      code'.structures.toList = code.structures.toList ++ parts.structures.toList ∧
      code'.next = parts.next)
      (fragmentAll code.next components) ((tree.appendedTo components).fragment next) := by
  induction components generalizing tree code with
  | nil =>
    rw [appendedTo, List.foldl_nil, h]
    exact .ok ⟨by simp [Fragment.empty], by simp [Fragment.empty], rfl⟩
  | cons component rest ih =>
    have hunfold : tree.appendedTo (component :: rest) =
        (node (.binary .aug) [tree, component]).appendedTo rest := rfl
    rw [fragmentAll, hunfold]
    cases hfirst : component.fragment code.next with
    | error e =>
      have hstep : (node (.binary .aug) [tree, component]).fragment next = .error e := by
        simp only [fragment, h, hfirst, bind, Except.bind]
      obtain ⟨e', hrest⟩ := fragment_appendedTo_error hstep rest
      rw [hrest]
      exact .error _ _
    | ok first =>
      have hstep := (fragment_binary_ok .aug tree component).2 ⟨code, first, h, hfirst, rfl⟩
      have hrest := ih hstep
      rw [Fragment.next_cons, Fragment.next_append] at hrest
      change Conform _ (fragmentAll first.next rest >>= fun others => .ok (first.append others)) _
      generalize ((node (.binary .aug) [tree, component]).appendedTo rest).fragment next = built
        at hrest ⊢
      generalize fragmentAll first.next rest = others at hrest ⊢
      cases hrest with
      | error e e' => exact .error e e'
      | ok hparts =>
        obtain ⟨hitems, hstructures, hnext⟩ := hparts
        refine .ok ⟨?_, ?_, hnext⟩
        · rw [hitems, Fragment.items_cons, Fragment.items_append, Fragment.items_append,
            List.length_cons, List.replicate_succ']
          simp
        · rw [hstructures, Fragment.structures_cons, Fragment.structures_append,
            Fragment.structures_append, List.append_assoc]

/-- A tuple that is built step by step is `nil`, or something is appended at its root. -/
theorem appended_root (components : List Tree) : appended components = leaf .nil ∨
    ∃ tuple last, appended components = node (.binary .aug) [tuple, last] := by
  obtain rfl | ⟨front, last, rfl⟩ := components.eq_nil_or_concat
  · exact .inl rfl
  · exact .inr ⟨appended front, last, by simp [appended, appendedTo]⟩

/-- A tuple and the same tuple built step by step are exchangeable: they have the same components in
the same order, and neither binds a name. -/
theorem exchangeable_appended (components : List Tree) :
    (of .tau components).Exchangeable (appended components) := by
  refine ⟨fun next => ?_, ?_, ?_⟩
  · have hnil : (leaf .nil).fragment next = .ok (.single (.load .nil) next) :=
      (fragment_leaf_ok .nil).2 rfl
    have hbuilt := fragment_appendedTo hnil components
    change Conform _ (fragmentAll next components >>= fun parts =>
      .ok (parts.cons (.tau components.length))) _
    change Conform _ (fragmentAll next components) ((appended components).fragment next) at hbuilt
    generalize fragmentAll next components = parts at hbuilt ⊢
    generalize (appended components).fragment next = built at hbuilt ⊢
    cases hbuilt with
    | error e e' => exact .error e e'
    | ok hparts =>
      obtain ⟨hitems, hstructures, hnext⟩ := hparts
      refine .ok ⟨?_, ?_, hnext⟩
      · rw [hitems, Fragment.items_cons]
        exact .tuple components.length (.refl _)
      · rw [hstructures, Fragment.structures_cons]
        exact List.forall₂_same.2 fun items _ => .refl items
  · obtain h | ⟨_, _, h⟩ := appended_root components <;> rw [h] <;> exact .error _ _
  · obtain h | ⟨_, _, h⟩ := appended_root components <;> rw [h] <;> rfl

-- ════════════════════════════════════════════════════════════════════════
-- Programs
-- ════════════════════════════════════════════════════════════════════════

theorem ofTree_error_of_fragment {error : Error} (h : tree.fragment 1 = .error error) :
    ∃ error', Table.ofTree tree = .error error' := by
  cases htable : Table.ofTree tree with
  | error error' => exact ⟨error', rfl⟩
  | ok table =>
    obtain ⟨code, hcode, -⟩ := Table.ofTree_eq_ok.1 htable
    cases h.symm.trans hcode

/-- Of two exchangeable programs either both have a control table or none has. The tables have
equally many structures, with the same items but that some tuples are built step by step in the
second. -/
theorem Exchangeable.ofTree {t u : Tree} (h : t.Exchangeable u) :
    Conform (fun table table' => table'.size = table.size ∧ table.Unrolled table')
      (Table.ofTree t) (Table.ofTree u) := by
  have hcode := h.fragment 1
  generalize ht : t.fragment 1 = r at hcode
  generalize hu : u.fragment 1 = r' at hcode
  cases hcode with
  | error e e' =>
    obtain ⟨_, ht⟩ := ofTree_error_of_fragment ht
    obtain ⟨_, hu⟩ := ofTree_error_of_fragment hu
    rw [ht, hu]
    exact .error _ _
  | ok hcode =>
    have hstructures := hcode.asStructures
    rw [ofTree_of_fragment ht, ofTree_of_fragment hu]
    refine .ok ⟨?_, Table.unrolled_ofItems hstructures⟩
    rw [Table.size_ofItems, Table.size_ofItems, hstructures.length_eq]

end Tree

end EagerLambda
