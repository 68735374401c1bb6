import EagerLambda.Proofs.Evaluation.Tracking

/-!
# Recursive definitions

The core form of a recursive definition applies the fixed-point combinator to a function of the name
that is defined. Evaluated in environments, each application of the recursive function opens an
environment for the name, makes the function of the equation anew and applies this one. None of it
can be told from evaluation with lexical scopes, where the recursive function is applied at once.
The same goes for all other constructs, so a program and its core form are evaluated alike.

## Main statements

- `Tree.evaluateIn_means` — a tree is evaluated with lexical scopes like its core form with
  environments
- `Lexical.innerAt_tracks` — so are function bodies
-/

namespace EagerLambda

open EagerLambda.Computation (Tracks)
open Lexical (Inner Values Scope)

variable {contexts : List Context} {inner : Inner} {deeper : Deeper}

namespace Lexical

theorem atom_tracks {context : Context} {env : EnvId} (hscope : Scope contexts context env)
    (a : Atom) : Tracks contexts Values (atom context a) (a.evaluate env) := by
  cases a with
  | identifier name => exact lookup_tracks hscope name
  | integer n => exact .pure (.integer n)
  | string text => exact .pure (.string text)
  | truth b => exact .pure (.truth b)
  | nil => exact .pure Value.related_nil
  | dummy => exact .pure .dummy

theorem unary_tracks (op : UnaryOp) {a : Value Lexical} {a' : Value Body}
    (ha : Values contexts a a') : Tracks contexts Values (unary op a) (op.evaluate a') := by
  cases op with
  | print => exact Computation.call_tracks .print .nil ha
  | not => exact .ofResult (UnaryOp.apply_agree .not ha)
  | neg => exact .ofResult (UnaryOp.apply_agree .neg ha)

theorem makeFunction_tracks {context : Context} {env : EnvId} (hscope : Scope contexts context env)
    {children binders : List Tree} {params : List Name} {later : List (List Name)}
    {binder body body' : Tree} (hparts : Tree.functionParts children = .ok (params :: later, body))
    (hparams : binder.boundNames = .ok params)
    (hbinders : List.Forall₂ (fun b names => b.boundNames = .ok names) binders later)
    (hbody : body.ValueForm body') (deeper : Deeper) (site : Site) :
    Tracks contexts Values (makeFunction context children)
      ((Tree.lambda binder (Tree.lambdas binders body')).evaluateWith deeper env site) := by
  rw [makeFunction, hparts, Tree.evaluateWith_lambda deeper env site hparams]
  exact .pure (.closure ⟨rfl, hscope, rfl, binders, body', hbinders, hbody, rfl⟩)

/-- A tree in the scope of a definition is evaluated like a function is applied to the value of the
definition. -/
theorem under_tracks (hinner : inner.Tracks deeper) {context : Context} {env : EnvId}
    (hscope : Scope contexts context env) {equation binder body body' : Tree} {params : List Name}
    (hbound : equation.binder.boundNames = .ok params) (hbinder : binder.boundNames = .ok params)
    (hbody : body.ValueForm body') {v : Value Lexical} {w : Value Body} (hv : Values contexts v w)
    (site : Site) :
    Tracks contexts Values (under inner context equation v body)
      ((Tree.lambda binder body').evaluateWith deeper env site >>= fun f =>
        EagerLambda.applyWith deeper f w) := by
  rw [under, hbound, Tree.evaluateWith_lambda deeper env site hbinder body']
  refine (extend_tracks hscope params hv).bind ?_
  intro more context' env' hmore hscope'
  exact hinner.enter hscope' ⟨rfl, [], body', .nil, hbody, rfl⟩

/-- A recursive definition means what the value of the combinator's identifier is applied to, which
is a recursive function if this is the combinator. -/
theorem recursive_eq (inner : Inner) (context : Context) {equation body : Tree}
    {params : List Name} {later : List (List Name)}
    (hbound : equation.binder.boundNames = .ok params)
    (hparts : equation.equationParts = .ok (later, body)) :
    recursive inner context equation = lookup context .fixpoint >>= fun f =>
      applyWith inner f (.closure (close params ⟨later, body, context⟩)) := by
  rw [recursive, hbound, hparts]
  refine congrArg (lookup context .fixpoint >>= ·) (funext fun f => ?_)
  cases f <;> rfl

theorem recursive_tracks (hinner : inner.Tracks deeper) {context : Context} {env : EnvId}
    (hscope : Scope contexts context env) {equation binder body body' : Tree} {params : List Name}
    {later : List (List Name)} {binders : List Tree}
    (hbound : equation.binder.boundNames = .ok params) (hbinder : binder.boundNames = .ok params)
    (hparts : equation.equationParts = .ok (later, body))
    (hbinders : List.Forall₂ (fun b names => b.boundNames = .ok names) binders later)
    (hbody : body.ValueForm body') (site : Site) :
    Tracks contexts Values (recursive inner context equation)
      ((Tree.apply (.identifier .fixpoint)
        (.lambda binder (Tree.lambdas binders body'))).evaluateWith deeper env site) := by
  let self : Closure Body := ⟨⟨1 :: 1 :: site, [], Tree.lambdas binders body'⟩, params, env⟩
  have hself : Values contexts (.closure (close params ⟨later, body, context⟩)) (.closure self) :=
    .closure ⟨rfl, hscope, rfl, binders, body', hbinders, hbody, rfl⟩
  have hcore : (Tree.apply (.identifier .fixpoint)
      (.lambda binder (Tree.lambdas binders body'))).evaluateWith deeper env site =
      Computation.resolve env .fixpoint >>= fun f =>
        EagerLambda.applyWith deeper f (.closure self) := by
    rw [Tree.apply, Tree.of, Tree.evaluateWith, Tree.evaluateWith_lambda deeper env _ hbinder]
    rfl
  rw [recursive_eq inner context hbound hparts, hcore]
  exact (lookup_tracks hscope .fixpoint).bind fun more f f' hmore hf =>
    applyWith_tracks hinner hf (Values.mono hself hmore)

end Lexical

namespace Tree

theorem evaluateAllIn_means {trees cores : List Tree} (hlength : trees.length = cores.length)
    (ih : ∀ t t', (t, t') ∈ trees.zip cores → ∀ {contexts : List Context} {context : Context}
      {env : EnvId}, Scope contexts context env → ∀ site,
      Tracks contexts Values (t.evaluateIn inner context) (t'.evaluateWith deeper env site))
    {context : Context} {env : EnvId} (hscope : Scope contexts context env) (site : Site)
    (index : Nat) :
    Tracks contexts (fun contexts => List.Forall₂ (Values contexts))
      (evaluateAllIn inner context trees) (evaluateAll deeper env site index cores) := by
  induction trees generalizing cores index with
  | nil =>
    obtain rfl : cores = [] := List.length_eq_zero_iff.1 hlength.symm
    exact .pure .nil
  | cons t rest ihRest =>
    obtain ⟨t', rest', rfl⟩ := List.exists_cons_of_length_eq_add_one hlength.symm
    refine (ihRest (by simpa using hlength) (fun u u' hu => ih u u' (by simp [hu]))
      (index + 1)).bind fun more values values' hmore hvalues => ?_
    refine (ih t t' (by simp) (getElem?_of_initial hmore hscope) _).bind ?_
    intro more' value value' hmore' hvalue
    exact .pure (.cons hvalue (hvalues.imp fun _ _ hvw => Values.mono hvw hmore'))

/-- A tree is evaluated in a scope like its core form in an environment that stands for it. -/
theorem evaluateIn_means (hinner : inner.Tracks deeper) {tree core : Tree}
    (h : Means ValueForm True tree core) {contexts : List Context} {context : Context} {env : EnvId}
    (hscope : Scope contexts context env) (site : Site) :
    Tracks contexts Values (tree.evaluateIn inner context)
      (core.evaluateWith deeper env site) := by
  induction h generalizing contexts context env site with
  | atom a => exact Lexical.atom_tracks hscope a
  | binary op _ _ ihLeft ihRight =>
    refine (ihRight hscope _).bind ?_
    intro more b b' hmore hb
    refine (ihLeft (getElem?_of_initial hmore hscope) _).bind ?_
    intro more' a a' hmore' ha
    exact .ofResult (op.apply_agree ha (Values.mono hb hmore'))
  | unary op _ ih =>
    exact (ih hscope _).bind fun more a a' hmore ha => Lexical.unary_tracks op ha
  | gamma _ _ ihFunction ihArgument =>
    refine (ihArgument hscope _).bind ?_
    intro more a a' hmore ha
    refine (ihFunction (getElem?_of_initial hmore hscope) _).bind ?_
    intro more' f f' hmore' hf
    exact Lexical.applyWith_tracks hinner hf (Values.mono ha hmore')
  | tau hlength _ ih =>
    exact (evaluateAllIn_means hlength ih hscope site 0).bind fun _ _ _ _ hvalues =>
      .pure (.tuple hvalues)
  | conditional _ _ _ ihCondition ihThen ihElse =>
    refine (ihCondition hscope _).bind ?_
    intro more c c' hmore hc
    have hscope' := getElem?_of_initial hmore hscope
    cases hc with
    | truth b =>
      cases b with
      | true => exact ihThen hscope' _
      | false => exact ihElse hscope' _
    | _ => exact .fail _
  | lambda hparts hparams hbinders hbody =>
    exact Lexical.makeFunction_tracks hscope hparts hparams hbinders hbody deeper site
  | functionForm hparts hparams hbinders hbody =>
    exact Lexical.makeFunction_tracks hscope hparts hparams hbinders hbody deeper site
  | letIn hbound hbinder _ hbody ih | whereIn hbound hbinder _ hbody ih
  | within hbound hbinder _ hbody ih =>
    exact (ih hscope _).bind fun more v w hmore hv =>
      Lexical.under_tracks hinner (getElem?_of_initial hmore hscope) hbound hbinder hbody hv _
  | simultaneous hlength _ ih =>
    exact (evaluateAllIn_means hlength ih hscope site 0).bind fun _ _ _ _ hvalues =>
      .pure (.tuple hvalues)
  | @between left function right left' function' _ _ _ _ ihLeft ihFunction ihRight =>
    refine (ihRight hscope _).bind ?_
    intro more b b' hmore hb
    -- The core form of an infix application nests what the evaluator does in one row.
    have happlied : Tracks more Values
        (left.evaluateIn inner context >>= fun a => function.evaluateIn inner context >>= fun f =>
          Lexical.applyWith inner f a)
        ((apply function' left').evaluateWith deeper env (0 :: site)) := by
      have hscope' := getElem?_of_initial hmore hscope
      refine (ihLeft hscope' _).bind ?_
      intro more' a a' hmore' ha
      refine (ihFunction (getElem?_of_initial hmore' hscope') _).bind ?_
      intro _ f f' hmore' hf
      exact Lexical.applyWith_tracks hinner hf (Values.mono ha hmore')
    have hright := happlied.bind fun _ g g' hmore' hg =>
      Lexical.applyWith_tracks hinner hg (Values.mono hb hmore')
    simpa only [Computation.bind_assoc] using hright
  | definition _ ih => exact ih hscope _
  | recursive _ hbound hbinder hparts hbinders hbody =>
    exact Lexical.recursive_tracks hinner hscope hbound hbinder hparts hbinders hbody site

end Tree

namespace Lexical

/-- A body that has parameters left is entered by making the function of the first of them. -/
theorem enterWith_function {context : Context} {env : EnvId} (hscope : Scope contexts context env)
    {params : List Name} {later : List (List Name)} {tree : Tree} {body' : Body}
    (hbody : CoreForm ⟨params :: later, tree, context⟩ body') (deeper : Deeper) :
    ∃ d, EagerLambda.enterWith deeper env body' = pure (.closure d) ∧
      Closure.Tracks contexts (close params ⟨later, tree, context⟩) d := by
  obtain ⟨hlater, binders, core, hbinders, hform, htree⟩ := hbody
  obtain _ | @⟨binder, _, binders, _, hb, hbinders⟩ := hbinders
  rw [EagerLambda.enterWith, hlater, htree]
  have hlambda := Tree.evaluateWith_lambda deeper env body'.site hb (Tree.lambdas binders core)
  exact ⟨_, hlambda, rfl, hscope, rfl, binders, core, hbinders, hform, rfl⟩

/-- Within the same clock, what happens inside functions corresponds. -/
theorem innerAt_tracks (clock : Nat) : (innerAt clock).Tracks (deeperAt clock) := by
  induction clock with
  | zero => exact ⟨fun _ _ => .stopped, fun _ _ => .stopped, fun _ _ _ => .stopped⟩
  | succ clock ih =>
    constructor
    case enter =>
      rintro contexts ⟨later, tree, context⟩ body' env hscope hbody
      cases later with
      | nil =>
        obtain ⟨hlater, binders, core, hbinders, hform, htree⟩ := hbody
        cases hbinders
        simp only [innerAt, deeperAt, enterWith, EagerLambda.enterWith, hlater, htree]
        exact Tree.evaluateIn_means ih hform.means hscope _
      | cons params later =>
        obtain ⟨d, hd, hclosure⟩ := enterWith_function hscope hbody (deeperAt clock)
        simp only [innerAt, deeperAt, hd]
        exact .pure (.closure hclosure)
    case apply =>
      intro contexts f a f' a' hf ha
      exact applyWith_tracks ih hf ha
    case unfold =>
      intro contexts params later tree context body' env a a' hscope hbody ha
      -- In environments the function is made anew; here it is applied at once.
      obtain ⟨d, hd, hclosure⟩ := enterWith_function hscope hbody (deeperAt clock)
      simp only [innerAt, deeperAt, hd]
      exact applyWith_tracks ih (.closure hclosure) ha

end Lexical

end EagerLambda
