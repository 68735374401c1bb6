import EagerLambda.Proofs.Tree.Desugar

/-!
# Other handles for the same names

The handle of a name depends on what was entered in the table before it. Two trees are the same up
to handles if they have the same shape and their identifiers correspond one by one. Desugaring never
looks at a handle: it takes such trees to such trees, and refuses them for the same reason. The one
identifier that it brings in has a fixed handle.

## Main definitions

- `Renumbering` — a correspondence of handles that two tables allow
- `Tree.Renumbered` — two trees are the same up to handles
- `Alike` — two results are the same up to handles

## Main statements

- `Tree.Renumbered.desugar` — desugaring trees that are the same up to handles
-/

namespace EagerLambda

open Construct

/-- A correspondence of handles: equal ones on either side correspond to equal ones on the other,
and those that every table starts with correspond to themselves. -/
structure Renumbering (R : Name → Name → Prop) : Prop where
  unique {x x' y y' : Name} : R x y → R x' y' → (x = x' ↔ y = y')
  reserved {x : Name} : x.index < Name.reservedTexts.length → R x x

variable {R : Name → Name → Prop}

/-- The name that an error mentions. -/
def Error.name? : Error → Option Name
  | unboundVariable x => some x
  | _ => none

/-- The errors are the same up to the handle of a name that is not bound. -/
inductive Error.Renumbered (R : Name → Name → Prop) : Error → Error → Prop
  | unbound {x y : Name} : R x y → Renumbered R (.unboundVariable x) (.unboundVariable y)
  | same {e : Error} : e.name? = none → Renumbered R e e

/-- Two results are values that `A` relates, or errors that are the same up to handles. -/
inductive Alike (R : Name → Name → Prop) {α β : Type} (A : α → β → Prop) :
    Except Error α → Except Error β → Prop
  | ok {a : α} {b : β} : A a b → Alike R A (.ok a) (.ok b)
  | error {e e' : Error} : e.Renumbered R e' → Alike R A (.error e) (.error e')

/-- Lists that are related to one list element by element are related to one another. -/
theorem forall₂_fork {α β γ : Type} {A : α → β → Prop} {B : α → γ → Prop} {C : β → γ → Prop}
    {xs : List α} {ys : List β} {zs : List γ} (h : List.Forall₂ A xs ys)
    (h' : List.Forall₂ B xs zs) (hC : ∀ x ∈ xs, ∀ y z, A x y → B x z → C y z) :
    List.Forall₂ C ys zs := by
  induction h generalizing zs with
  | nil =>
    cases h'
    exact .nil
  | cons hxy _ ih =>
    obtain _ | ⟨hxz, hrest⟩ := h'
    rw [List.forall_mem_cons] at hC
    exact .cons (hC.1 _ _ hxy hxz) (ih hrest hC.2)

namespace Alike

variable {α β γ δ : Type} {A : α → β → Prop} {B : γ → δ → Prop}

/-- Results that are alike still are after a further computation that keeps them so. -/
theorem bind {r : Except Error α} {s : Except Error β} {f : α → Except Error γ}
    {g : β → Except Error δ} (h : Alike R A r s) (hfg : ∀ a b, A a b → Alike R B (f a) (g b)) :
    Alike R B (r >>= f) (s >>= g) := by
  cases h with
  | ok hab => exact hfg _ _ hab
  | error he => exact .error he

end Alike

-- ════════════════════════════════════════════════════════════════════════
-- Trees
-- ════════════════════════════════════════════════════════════════════════

/-- The atoms are identifiers that correspond, or the same constant. -/
inductive Atom.Renumbered (R : Name → Name → Prop) : Atom → Atom → Prop
  | identifier {x y : Name} : R x y → Renumbered R (.identifier x) (.identifier y)
  | constant {a : Atom} : (∀ x, a ≠ .identifier x) → Renumbered R a a

theorem Atom.Renumbered.fork {S T : Name → Name → Prop} (hT : ∀ x y z, R x y → S x z → T y z)
    {a b c : Atom} (h : a.Renumbered R b) (h' : a.Renumbered S c) : b.Renumbered T c := by
  cases h with
  | identifier hxy =>
    cases h' with
    | identifier hxz => exact .identifier (hT _ _ _ hxy hxz)
    | constant ha => exact absurd rfl (ha _)
  | constant ha =>
    cases h' with
    | identifier hxz => exact absurd rfl (ha _)
    | constant _ => exact .constant ha

/-- The labels are the same up to handles. -/
inductive Label.Renumbered (R : Name → Name → Prop) : Label → Label → Prop
  | construct (c : Construct) : Renumbered R (.construct c) (.construct c)
  | binary (op : BinaryOp) : Renumbered R (.binary op) (.binary op)
  | unary (op : UnaryOp) : Renumbered R (.unary op) (.unary op)
  | atom {a b : Atom} : a.Renumbered R b → Renumbered R (.atom a) (.atom b)

/-- Messages call both labels the same. -/
theorem Label.Renumbered.text_eq {l m : Label} (h : l.Renumbered R m) : l.text = m.text := by
  cases h <;> rfl

namespace Tree

/-- The trees are the same up to handles, below atoms too. -/
inductive Renumbered (R : Name → Name → Prop) : Tree → Tree → Prop
  | node {l m : Label} {ts us : List Tree} : l.Renumbered R m →
      List.Forall₂ (Renumbered R) ts us → Renumbered R (.node l ts) (.node m us)

namespace Renumbered

variable {t u t' u' : Tree} {ts us : List Tree}

theorem of (c : Construct) (h : List.Forall₂ (Renumbered R) ts us) :
    Renumbered R (of c ts) (of c us) :=
  .node (.construct c) h

theorem lambda (h : Renumbered R t u) (h' : Renumbered R t' u') :
    Renumbered R (lambda t t') (lambda u u') :=
  .of .lambda (.cons h (.cons h' .nil))

theorem apply (h : Renumbered R t u) (h' : Renumbered R t' u') :
    Renumbered R (apply t t') (apply u u') :=
  .of .gamma (.cons h (.cons h' .nil))

theorem define (h : Renumbered R t u) (h' : Renumbered R t' u') :
    Renumbered R (define t t') (define u u') :=
  .of .definition (.cons h (.cons h' .nil))

theorem identifier {x y : Name} (h : R x y) : Renumbered R (identifier x) (identifier y) :=
  .node (.atom (.identifier h)) .nil

/-- Trees that are the same as one tree up to handles are the same as one another. -/
theorem fork {S T : Name → Name → Prop} (hT : ∀ x y z, R x y → S x z → T y z)
    (h : Renumbered R t u) (h' : Renumbered S t u') : Renumbered T u u' := by
  induction t using children_induction generalizing u u' with
  | node label children ih =>
    obtain ⟨hlabel, hs⟩ := h
    obtain ⟨hlabel', hs'⟩ := h'
    refine .node ?_ (forall₂_fork hs hs' fun t ht _ _ => ih t ht)
    cases hlabel with
    | construct c =>
      cases hlabel'
      exact .construct c
    | binary op =>
      cases hlabel'
      exact .binary op
    | unary op =>
      cases hlabel'
      exact .unary op
    | atom ha =>
      obtain _ | _ | _ | ha' := hlabel'
      exact .atom (ha.fork hT ha')

theorem curry (h : Renumbered R t u) (hs : List.Forall₂ (Renumbered R) ts us) :
    Renumbered R (curry t ts) (curry u us) := by
  induction hs generalizing t u with
  | nil => exact h
  | cons hfirst _ ih => exact h.lambda (ih hfirst)

/-- The parts of a definition. -/
theorem definition (h : Renumbered R t u) (context : Construct) :
    Alike R (fun d e => Renumbered R d.1 e.1 ∧ Renumbered R d.2 e.2) (t.definition context)
      (u.definition context) := by
  obtain ⟨hlabel, hs⟩ := h
  have hlength := hs.length_eq
  cases hlabel with
  | construct c =>
    cases c with
    | definition =>
      rcases hs with _ | ⟨hbinder, _ | ⟨hvalue, _ | ⟨hthird, hs⟩⟩⟩
      · exact .error (.same rfl)
      · exact .error (.same rfl)
      · exact .ok ⟨hbinder, hvalue⟩
      · simp only [Tree.definition, hlength]
        exact .error (.same rfl)
    | _ => exact .error (.same rfl)
  | binary op => exact .error (.same rfl)
  | unary op => exact .error (.same rfl)
  | atom ha => exact .error (.same rfl)

theorem definitions (hs : List.Forall₂ (Renumbered R) ts us) (context : Construct) :
    Alike R (fun d e => List.Forall₂ (Renumbered R) d.1 e.1 ∧ List.Forall₂ (Renumbered R) d.2 e.2)
      (definitions context ts) (definitions context us) := by
  induction hs with
  | nil => exact .ok ⟨.nil, .nil⟩
  | cons hfirst _ ih =>
    refine (hfirst.definition context).bind fun d e hde => ih.bind fun ds es hdes => ?_
    exact .ok ⟨.cons hde.1 hdes.1, .cons hde.2 hdes.2⟩

end Renumbered

end Tree

namespace Construct

variable {ts us : List Tree}

theorem wrongCount_alike {α β : Type} {A : α → β → Prop} (c : Construct) (expected : String)
    (h : ts.length = us.length) :
    Alike R A (.error (c.wrongCount expected ts)) (.error (c.wrongCount expected us)) := by
  rw [wrongCount, wrongCount, h]
  exact .error (.same rfl)

/-- What a construct abbreviates over trees that are the same up to handles. -/
theorem expand_alike (hR : Renumbering R) (c : Construct)
    (hs : List.Forall₂ (Tree.Renumbered R) ts us) :
    Alike R (Option.Rel (Tree.Renumbered R)) (c.expand ts) (c.expand us) := by
  have hlength := hs.length_eq
  cases c with
  | letIn =>
    rcases hs with _ | ⟨hequation, _ | ⟨hbody, _ | ⟨_, _⟩⟩⟩
    case cons.cons.nil =>
      refine (hequation.definition letIn).bind fun d e hde => .ok (.some ?_)
      exact (hde.1.lambda hbody).apply hde.2
    all_goals exact wrongCount_alike _ _ hlength
  | whereIn =>
    rcases hs with _ | ⟨hbody, _ | ⟨hequation, _ | ⟨_, _⟩⟩⟩
    case cons.cons.nil =>
      refine (hequation.definition whereIn).bind fun d e hde => .ok (.some ?_)
      exact (hde.1.lambda hbody).apply hde.2
    all_goals exact wrongCount_alike _ _ hlength
  | functionForm =>
    rcases hs with _ | ⟨hname, _ | ⟨hfirst, _ | ⟨hsecond, hrest⟩⟩⟩
    case cons.cons.cons => exact .ok (.some (hname.define (hfirst.curry (.cons hsecond hrest))))
    all_goals exact wrongCount_alike _ _ hlength
  | simultaneous =>
    rcases hs with _ | ⟨hfirst, _ | ⟨hsecond, hrest⟩⟩
    case cons.cons =>
      refine (Tree.Renumbered.definitions (.cons hfirst (.cons hsecond hrest)) simultaneous).bind
        fun d e hde => .ok (.some ?_)
      exact (Tree.Renumbered.of .comma hde.1).define (.of .tau hde.2)
    all_goals exact wrongCount_alike _ _ hlength
  | within =>
    rcases hs with _ | ⟨houter, _ | ⟨hinner, _ | ⟨_, _⟩⟩⟩
    case cons.cons.nil =>
      refine (houter.definition within).bind fun d e hde =>
        (hinner.definition within).bind fun d' e' hde' => .ok (.some ?_)
      exact hde'.1.define ((hde.1.lambda hde'.2).apply hde.2)
    all_goals exact wrongCount_alike _ _ hlength
  | between =>
    rcases hs with _ | ⟨hleft, _ | ⟨hfunction, _ | ⟨hright, _ | ⟨_, _⟩⟩⟩⟩
    case cons.cons.cons.nil => exact .ok (.some ((hfunction.apply hleft).apply hright))
    all_goals exact wrongCount_alike _ _ hlength
  | recursive =>
    rcases hs with _ | ⟨hequation, _ | ⟨_, _⟩⟩
    case cons.nil =>
      refine (hequation.definition recursive).bind fun d e hde => .ok (.some ?_)
      have hfixpoint : R .fixpoint .fixpoint := hR.reserved (by decide)
      exact hde.1.define ((Tree.Renumbered.identifier hfixpoint).apply (hde.1.lambda hde.2))
    all_goals exact wrongCount_alike _ _ hlength
  | lambda =>
    rcases hs with _ | ⟨hfirst, _ | ⟨hsecond, _ | ⟨hthird, hrest⟩⟩⟩
    case cons.cons.nil => exact .ok .none
    case cons.cons.cons =>
      exact .ok (.some (hfirst.curry (.cons hsecond (.cons hthird hrest))))
    all_goals exact wrongCount_alike _ _ hlength
  | gamma | tau | comma | definition | conditional => exact .ok .none

end Construct

namespace Tree

/-- Core forms that are the same up to handles, made with as many expansions. -/
def DesugaredAlike (R : Name → Name → Prop) (d e : Desugared) : Prop :=
  Renumbered R d.tree e.tree ∧ d.expansions = e.expansions

theorem desugarAll_alike {ts us : List Tree} (hs : List.Forall₂ (Renumbered R) ts us)
    (ih : ∀ t ∈ ts, ∀ {u}, Renumbered R t u →
      Alike R (DesugaredAlike R) t.desugar u.desugar) :
    Alike R (fun d e => List.Forall₂ (Renumbered R) d.1 e.1 ∧ d.2 = e.2) (desugarAll ts)
      (desugarAll us) := by
  induction hs with
  | nil => exact .ok ⟨.nil, rfl⟩
  | cons hfirst _ ihs =>
    rw [List.forall_mem_cons] at ih
    refine (ih.1 hfirst).bind fun d e hde => (ihs ih.2).bind fun ds es hdes => ?_
    exact .ok ⟨.cons hde.1 hdes.1, by rw [hde.2, hdes.2]⟩

/-- Desugaring takes trees that are the same up to handles to such trees, or refuses them for the
same reason. -/
theorem Renumbered.desugar (hR : Renumbering R) {t u : Tree} (h : Renumbered R t u) :
    Alike R (DesugaredAlike R) t.desugar u.desugar := by
  induction t using children_induction generalizing u with
  | node label children ih =>
    obtain ⟨hlabel, hs⟩ := h
    have hchildren := desugarAll_alike hs fun t ht _ => ih t ht
    cases hlabel with
    | atom ha => exact .ok ⟨.node (.atom ha) hs, rfl⟩
    | binary op => exact hchildren.bind fun d e hde => .ok ⟨.node (.binary op) hde.1, hde.2⟩
    | unary op => exact hchildren.bind fun d e hde => .ok ⟨.node (.unary op) hde.1, hde.2⟩
    | construct c =>
      refine hchildren.bind fun d e hde => (expand_alike hR c hde.1).bind fun o p hop => ?_
      cases hop with
      | none => exact .ok ⟨.of c hde.1, hde.2⟩
      | some htree => exact .ok ⟨htree, by rw [hde.2]⟩

end Tree

end EagerLambda
