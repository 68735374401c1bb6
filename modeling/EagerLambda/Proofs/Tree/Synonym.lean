import EagerLambda.Program
import EagerLambda.Proofs.Tree.Context
import EagerLambda.Proofs.Tree.Grammar
import EagerLambda.Proofs.Tree.Normal

/-!
# Different ways to write the same

Some constructs abbreviate a tree in which there may be abbreviations again. Either can be written
in the place of the other: whatever the subtrees are, and wherever in a program it stands, both have
the same core form or none, so the programs are laid out alike and run alike.

## Main definitions

- `Tree.Synonym` — two ways to write the same

## Main statements

- `Tree.Synonym.desugars_iff` — synonyms have the same core form, or none
- `Program.synonyms_interchangeable` — synonyms can be exchanged in a program
-/

namespace EagerLambda

open Construct

namespace Tree

/-- Two ways to write the same, whatever the subtrees are. -/
inductive Synonym : Tree → Tree → Prop
  | whereIn (equation body : Tree) :
      Synonym (of .letIn [equation, body]) (of .whereIn [body, equation])
  | functionForm (name first : Tree) (params : List Tree) (body : Tree) :
      Synonym (of .functionForm (name :: first :: params ++ [body]))
        (define name (of .lambda (first :: params ++ [body])))
  | lambda (first : Tree) (params : List Tree) (body : Tree) :
      Synonym (of .lambda (first :: params ++ [body])) (lambdas (first :: params) body)
  | between (left function right : Tree) :
      Synonym (of .between [left, function, right]) (apply (apply function left) right)
  | within (equation bound value : Tree) :
      Synonym (of .within [equation, define bound value])
        (define bound (of .letIn [equation, value]))

variable {core : Tree}

-- ════════════════════════════════════════════════════════════════════════
-- Core forms, construct by construct
-- ════════════════════════════════════════════════════════════════════════

/-- A core construct is desugared by desugaring its two parts. -/
theorem desugars_pair {c : Construct} (hc : ∀ cores, c.expand cores = .ok none)
    {first second : Tree} : (of c [first, second]).Desugars core ↔
      ∃ first' second', first.Desugars first' ∧ second.Desugars second' ∧
        core = of c [first', second'] := by
  constructor
  · intro h
    obtain ⟨cores, hcores, ⟨-, rfl⟩ | hexpands⟩ := desugars_construct h
    · rcases hcores with _ | ⟨hfirst, _ | ⟨hsecond, _ | _⟩⟩
      exact ⟨_, _, hfirst, hsecond, rfl⟩
    · cases hexpands <;> cases hc []
  · rintro ⟨first', second', hfirst, hsecond, rfl⟩
    exact .core (.cons hfirst (.cons hsecond .nil)) (hc _)

theorem desugars_apply {function argument : Tree} : (apply function argument).Desugars core ↔
    ∃ function' argument', function.Desugars function' ∧ argument.Desugars argument' ∧
      core = apply function' argument' :=
  desugars_pair fun _ => rfl

theorem desugars_definition {bound value : Tree} : (define bound value).Desugars core ↔
    ∃ bound' value', bound.Desugars bound' ∧ value.Desugars value' ∧ core = define bound' value' :=
  desugars_pair fun _ => rfl

/-- What only abbreviates is expanded. -/
theorem expands_of_sugar {c : Construct} (hc : c.isSugar = true) {children : List Tree}
    (h : (of c children).Desugars core) :
    ∃ cores, List.Forall₂ Desugars children cores ∧ c.Expands cores core := by
  obtain ⟨cores, hcores, ⟨hexpand, -⟩ | hexpands⟩ := desugars_construct h
  · exact absurd hexpand (expand_ne_none hc cores)
  · exact ⟨cores, hcores, hexpands⟩

theorem desugars_letIn {equation body : Tree} : (of .letIn [equation, body]).Desugars core ↔
    ∃ bound value body', equation.Desugars (define bound value) ∧ body.Desugars body' ∧
      core = apply (lambda bound body') value := by
  constructor
  · intro h
    obtain ⟨cores, hcores, hexpands⟩ := expands_of_sugar rfl h
    cases hexpands with
    | letIn bound value body' =>
      rcases hcores with _ | ⟨hequation, _ | ⟨hbody, _ | _⟩⟩
      exact ⟨bound, value, body', hequation, hbody, rfl⟩
  · rintro ⟨bound, value, body', hequation, hbody, rfl⟩
    exact .expand (.cons hequation (.cons hbody .nil)) rfl

theorem desugars_whereIn {equation body : Tree} : (of .whereIn [body, equation]).Desugars core ↔
    ∃ bound value body', equation.Desugars (define bound value) ∧ body.Desugars body' ∧
      core = apply (lambda bound body') value := by
  constructor
  · intro h
    obtain ⟨cores, hcores, hexpands⟩ := expands_of_sugar rfl h
    cases hexpands with
    | whereIn body' bound value =>
      rcases hcores with _ | ⟨hbody, _ | ⟨hequation, _ | _⟩⟩
      exact ⟨bound, value, body', hequation, hbody, rfl⟩
  · rintro ⟨bound, value, body', hequation, hbody, rfl⟩
    exact .expand (.cons hbody (.cons hequation .nil)) rfl

theorem desugars_within {outer inner : Tree} : (of .within [outer, inner]).Desugars core ↔
    ∃ outerBound outerValue bound value, outer.Desugars (define outerBound outerValue) ∧
      inner.Desugars (define bound value) ∧
      core = define bound (apply (lambda outerBound value) outerValue) := by
  constructor
  · intro h
    obtain ⟨cores, hcores, hexpands⟩ := expands_of_sugar rfl h
    cases hexpands with
    | within outerBound outerValue bound value =>
      rcases hcores with _ | ⟨houter, _ | ⟨hinner, _ | _⟩⟩
      exact ⟨outerBound, outerValue, bound, value, houter, hinner, rfl⟩
  · rintro ⟨outerBound, outerValue, bound, value, houter, hinner, rfl⟩
    exact .expand (.cons houter (.cons hinner .nil)) rfl

theorem desugars_between {left function right : Tree} :
    (of .between [left, function, right]).Desugars core ↔
      ∃ left' function' right', left.Desugars left' ∧ function.Desugars function' ∧
        right.Desugars right' ∧ core = apply (apply function' left') right' := by
  constructor
  · intro h
    obtain ⟨cores, hcores, hexpands⟩ := expands_of_sugar rfl h
    cases hexpands with
    | between left' function' right' =>
      rcases hcores with _ | ⟨hleft, _ | ⟨hfunction, _ | ⟨hright, _ | _⟩⟩⟩
      exact ⟨left', function', right', hleft, hfunction, hright, rfl⟩
  · rintro ⟨left', function', right', hleft, hfunction, hright, rfl⟩
    exact .expand (.cons hleft (.cons hfunction (.cons hright .nil))) rfl

/-- A function of one parameter is core, so its parts are desugared. -/
theorem desugars_single {binder body : Tree} : (lambda binder body).Desugars core ↔
    ∃ binder' body', binder.Desugars binder' ∧ body.Desugars body' ∧
      core = lambda binder' body' := by
  constructor
  · intro h
    obtain ⟨cores, hcores, ⟨-, rfl⟩ | hexpands⟩ := desugars_construct h
    · rcases hcores with _ | ⟨hbinder, _ | ⟨hbody, _ | _⟩⟩
      exact ⟨_, _, hbinder, hbody, rfl⟩
    · have hcount := hcores.length_eq
      cases hexpands
      simp at hcount
  · rintro ⟨binder', body', hbinder, hbody, rfl⟩
    exact .core (.cons hbinder (.cons hbody .nil)) rfl

theorem desugars_curry {first : Tree} {rest : List Tree} : (curry first rest).Desugars core ↔
    ∃ first' rest', first.Desugars first' ∧ List.Forall₂ Desugars rest rest' ∧
      core = curry first' rest' := by
  induction rest generalizing first core with
  | nil => simp [curry]
  | cons second rest ih =>
    rw [curry, desugars_single]
    constructor
    · rintro ⟨first', body', hfirst, hbody, rfl⟩
      obtain ⟨second', rest', hsecond, hrest, rfl⟩ := ih.1 hbody
      exact ⟨first', second' :: rest', hfirst, .cons hsecond hrest, rfl⟩
    · rintro ⟨first', _, hfirst, _ | ⟨hsecond, hrest⟩, rfl⟩
      exact ⟨first', _, hfirst, ih.2 ⟨_, _, hsecond, hrest, rfl⟩, rfl⟩

/-- A function of several parameters has the core form of the nested functions. -/
theorem desugars_lambda_iff {first second : Tree} {rest : List Tree} :
    (of .lambda (first :: second :: rest)).Desugars core ↔
      (curry first (second :: rest)).Desugars core := by
  rw [desugars_curry]
  constructor
  · intro h
    obtain ⟨cores, hcores, -⟩ := desugars_construct h
    obtain _ | ⟨hfirst, hrest⟩ := hcores
    obtain _ | ⟨hsecond, hothers⟩ := hrest
    refine ⟨_, _, hfirst, .cons hsecond hothers, desugars_unique h ?_⟩
    exact desugars_lambda (.cons hfirst (.cons hsecond hothers))
  · rintro ⟨first', _, hfirst, _ | ⟨hsecond, hothers⟩, rfl⟩
    exact desugars_lambda (.cons hfirst (.cons hsecond hothers))

theorem desugars_functionForm {name first second : Tree} {rest : List Tree} :
    (of .functionForm (name :: first :: second :: rest)).Desugars core ↔
      ∃ name' value, name.Desugars name' ∧ (curry first (second :: rest)).Desugars value ∧
        core = define name' value := by
  constructor
  · intro h
    obtain ⟨cores, hcores, hexpands⟩ := expands_of_sugar rfl h
    cases hexpands with
    | functionForm name' first' second' rest' =>
      obtain _ | ⟨hname, hparts⟩ := hcores
      obtain _ | ⟨hfirst, hrest⟩ := hparts
      exact ⟨name', _, hname, desugars_curry.2 ⟨first', _, hfirst, hrest, rfl⟩, rfl⟩
  · rintro ⟨name', value, hname, hvalue, rfl⟩
    obtain ⟨first', _, hfirst, _ | ⟨hsecond, hothers⟩, rfl⟩ := desugars_curry.1 hvalue
    exact .expand (.cons hname (.cons hfirst (.cons hsecond hothers))) rfl

-- ════════════════════════════════════════════════════════════════════════
-- Synonyms
-- ════════════════════════════════════════════════════════════════════════

theorem exists_cons_append (params : List Tree) (body : Tree) :
    ∃ second rest, params ++ [body] = second :: rest :=
  List.exists_cons_of_ne_nil (by simp)

/-- Synonyms have the same core form, or none. -/
theorem Synonym.desugars_iff {tree tree' : Tree} (h : Synonym tree tree') (core : Tree) :
    tree.Desugars core ↔ tree'.Desugars core := by
  cases h with
  | whereIn equation body => rw [desugars_letIn, desugars_whereIn]
  | functionForm name first params body =>
    obtain ⟨second, rest, hrest⟩ := exists_cons_append params body
    rw [List.cons_append, List.cons_append, hrest, desugars_functionForm, desugars_definition]
    simp only [desugars_lambda_iff]
  | lambda first params body =>
    obtain ⟨second, rest, hrest⟩ := exists_cons_append params body
    have hcurry : curry first (second :: rest) = lambdas (first :: params) body :=
      curry_eq_lambdas (by rw [← hrest]; rfl)
    rw [List.cons_append, hrest, desugars_lambda_iff, hcurry]
  | between left function right =>
    rw [desugars_between, desugars_apply]
    constructor
    · rintro ⟨left', function', right', hleft, hfunction, hright, rfl⟩
      exact ⟨_, right', desugars_apply.2 ⟨function', left', hfunction, hleft, rfl⟩, hright, rfl⟩
    · rintro ⟨applied, right', happlied, hright, rfl⟩
      obtain ⟨function', left', hfunction, hleft, rfl⟩ := desugars_apply.1 happlied
      exact ⟨left', function', right', hleft, hfunction, hright, rfl⟩
  | within equation bound value =>
    rw [desugars_within, desugars_definition]
    constructor
    · rintro ⟨outerBound, outerValue, bound', value', hequation, hinner, rfl⟩
      obtain ⟨_, _, hbound, hvalue, heq⟩ := desugars_definition.1 hinner
      cases heq
      exact ⟨bound', _, hbound,
        desugars_letIn.2 ⟨outerBound, outerValue, value', hequation, hvalue, rfl⟩, rfl⟩
    · rintro ⟨bound', _, hbound, hlet, rfl⟩
      obtain ⟨outerBound, outerValue, value', hequation, hvalue, rfl⟩ := desugars_letIn.1 hlet
      exact ⟨outerBound, outerValue, bound', value', hequation,
        desugars_definition.2 ⟨bound', value', hbound, hvalue, rfl⟩, rfl⟩

end Tree

namespace Program

open EagerLambda.Tree

/-- Trees with the same core form are laid out alike. -/
theorem compile_of_desugars {tree tree' core : Tree} (h : tree.Desugars core)
    (h' : tree'.Desugars core) : compile tree' = compile tree := by
  obtain ⟨expansions, h⟩ := h
  obtain ⟨expansions', h'⟩ := h'
  rw [compile, compile, h, h']
  rfl

theorem run_of_compile {tree tree' : Tree} (h : compile tree' = compile tree) (fuel : Nat)
    (settings : Machine.Settings) : run fuel settings tree' = run fuel settings tree := by
  rw [run, run, h]

theorem desugar_error_iff_not_desugars {tree : Tree} :
    (∃ error, tree.desugar = .error error) ↔ ∀ core, ¬ tree.Desugars core := by
  cases h : tree.desugar with
  | error e => simp [Desugars, h]
  | ok result =>
    simp only [reduceCtorEq, exists_false, false_iff, not_forall, not_not]
    exact ⟨result.tree, result.expansions, h⟩

/-- **Synonyms are interchangeable.** In a program that cannot be desugared it does not matter which
of two synonyms is written: neither can the other program. If a program can be desugared, the other
program has the same core form, hence the same control table, or the same error from the layout, and
all runs of it have the same report. -/
theorem synonyms_interchangeable (context : TreeContext) (hcontext : context.Exposed)
    {tree tree' : Tree} (h : Synonym tree tree') :
    ((∃ error, (context.fill tree).desugar = .error error) ↔
      ∃ error, (context.fill tree').desugar = .error error) ∧
    ∀ result, (context.fill tree).desugar = .ok result →
      ∃ result', (context.fill tree').desugar = .ok result' ∧ result'.tree = result.tree ∧
        compile (context.fill tree') = compile (context.fill tree) ∧
        ∀ fuel settings, run fuel settings (context.fill tree') =
          run fuel settings (context.fill tree) := by
  have hiff := TreeContext.desugars_fill hcontext h.desugars_iff
  refine ⟨?_, fun result hresult => ?_⟩
  · rw [desugar_error_iff_not_desugars, desugar_error_iff_not_desugars]
    exact forall_congr' fun core => not_congr (hiff core)
  · have hcore : (context.fill tree).Desugars result.tree := ⟨result.expansions, hresult⟩
    obtain ⟨expansions, hcore'⟩ := (hiff result.tree).1 hcore
    have hcompile := compile_of_desugars hcore ⟨expansions, hcore'⟩
    exact ⟨_, hcore', rfl, hcompile, run_of_compile hcompile⟩

/-- A `rec` around the hole, in the definition of a `let`. -/
def recursiveCall : TreeContext :=
  .node (.construct .letIn) [] (.node (.construct .recursive) [] .hole [])
    [.apply (.apply (.identifier ⟨17⟩) (.leaf (.integer 1))) (.leaf (.integer 2))]

theorem recursiveCall_interchangeable :
    let form := of .functionForm [.identifier ⟨17⟩, .identifier ⟨18⟩, .identifier ⟨19⟩,
      .node (.binary .sub) [.identifier ⟨18⟩, .identifier ⟨19⟩]]
    let definition := define (.identifier ⟨17⟩) (of .lambda [.identifier ⟨18⟩, .identifier ⟨19⟩,
      .node (.binary .sub) [.identifier ⟨18⟩, .identifier ⟨19⟩]])
    recursiveCall.Exposed ∧ Synonym form definition ∧
      (∃ result result', (recursiveCall.fill form).desugar = .ok result ∧
        (recursiveCall.fill definition).desugar = .ok result' ∧ result'.tree = result.tree) ∧
      (∀ fuel settings, run fuel settings (recursiveCall.fill definition) =
        run fuel settings (recursiveCall.fill form)) ∧
      run 30 {} (recursiveCall.fill form) = some ⟨.ok ⟨.integer (-1), 5, 22, 5⟩, []⟩ := by
  intro form definition
  have hexposed : recursiveCall.Exposed := ⟨nofun, nofun, trivial⟩
  have hsynonym : Synonym form definition := .functionForm _ _ [_] _
  have hform : (recursiveCall.fill form).desugar = .ok _ := rfl
  obtain ⟨-, hresult⟩ := synonyms_interchangeable recursiveCall hexposed hsynonym
  obtain ⟨result', hdefinition, htree, -, hrun⟩ := hresult _ hform
  exact ⟨hexposed, hsynonym, ⟨_, result', hform, hdefinition, htree⟩, hrun, rfl⟩

end Program

end EagerLambda
