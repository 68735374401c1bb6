import EagerLambda.Program
import EagerLambda.Proofs.Control.Layout
import EagerLambda.Proofs.Evaluation.Relation
import EagerLambda.Proofs.Tree.Means

/-!
# Desugaring preserves meaning

A tree without recursive definitions and its core form are evaluated alike: in related environments
they come to related values, to the same error or to no answer, and they show related values in the
same order. Function values are related if the body of one is the core form of the body of the
other.

## Main definitions

- `Closure.CoreForm` — a function whose body is the core form of another one's body

## Main statements

- `Tree.evaluateWith_means` — a core tree is evaluated like the tree it stands for
- `Program.evaluate_desugar` — a program is evaluated like its core form
-/

namespace EagerLambda

/-- The second function is the first one in its core form. The parameters that the first function
binds later are bound by functions in the body of the second. -/
structure Closure.CoreForm (c d : Closure Body) : Prop where
  params : c.params = d.params
  env : c.env = d.env
  later : d.body.later = []
  body : ∃ binders core, List.Forall₂ (fun b names => b.boundNames = .ok names) binders
    c.body.later ∧ c.body.tree.CoreForm core ∧ d.body.tree = Tree.lambdas binders core

namespace Tree

open EagerLambda.Computation

variable {deeper deeper' : Deeper} {env : EnvId}

theorem makeFunction_eq {children : List Tree} {params : List Name} {later : List (List Name)}
    {body : Tree} (h : functionParts children = .ok (params :: later, body)) (env : EnvId)
    (site : Site) (index : Nat) :
    makeFunction env site index children =
      pure (.closure ⟨⟨index :: site, later, body⟩, params, env⟩) := by
  rw [makeFunction, h]

/-- A scope for the value of a definition is opened like the function that stands for it is
applied. -/
theorem scope_related (hdeeper : deeper.Related Closure.CoreForm deeper') {c c' : Computation Body
    (Value Body)} (hc : Computation.Related Closure.CoreForm (Value.Related Closure.CoreForm) c c')
    {bound binder body body' : Tree} {params : List Name} (hbound : bound.boundNames = .ok params)
    (hbinder : binder.boundNames = .ok params) (hbody : body.CoreForm body')
    (place site : Site) :
    Computation.Related Closure.CoreForm (Value.Related Closure.CoreForm)
      (c >>= fun value => ofResult bound.boundNames >>= fun names =>
        openScope names value env >>= fun inner => deeper.enter inner ⟨place, [], body⟩)
      (c' >>= fun value => (lambda binder body').evaluateWith deeper' env site >>= fun f =>
        applyWith deeper' f value) := by
  rw [hbound, evaluateWith_lambda deeper' env site hbinder body']
  refine hc.bind fun value value' hvalue => ?_
  refine (openScope_related params hvalue env).bind fun inner inner' hinner => ?_
  subst hinner
  have hclosure : Closure.CoreForm ⟨⟨place, [], body⟩, params, env⟩
      ⟨⟨1 :: site, [], body'⟩, params, env⟩ := ⟨rfl, rfl, rfl, [], body', .nil, hbody, rfl⟩
  exact hdeeper.enter inner hclosure

theorem evaluateAll_means {trees cores : List Tree} (hlength : trees.length = cores.length)
    (ih : ∀ t t', (t, t') ∈ trees.zip cores → ∀ (site site' : Site),
      Computation.Related Closure.CoreForm (Value.Related Closure.CoreForm)
        (t.evaluateWith deeper env site) (t'.evaluateWith deeper' env site'))
    (site site' : Site) (index index' : Nat) :
    Computation.Related Closure.CoreForm (List.Forall₂ (Value.Related Closure.CoreForm))
      (evaluateAll deeper env site index trees) (evaluateAll deeper' env site' index' cores) := by
  induction trees generalizing cores index index' with
  | nil =>
    obtain rfl : cores = [] := List.length_eq_zero_iff.1 hlength.symm
    exact .pure .nil
  | cons t rest ihRest =>
    obtain ⟨t', rest', rfl⟩ := List.exists_cons_of_length_eq_add_one hlength.symm
    refine (ihRest (by simpa using hlength) (fun u u' hu => ih u u' (by simp [hu]))
      (index + 1) (index' + 1)).bind fun values values' hvalues => ?_
    refine (ih t t' (by simp) _ _).bind fun value value' hvalue => ?_
    exact .pure (.cons hvalue hvalues)

/-- A core tree is evaluated like the tree it stands for. -/
theorem evaluateWith_means (hdeeper : deeper.Related Closure.CoreForm deeper') {tree core : Tree}
    (h : Means CoreForm False tree core) (env : EnvId) (site site' : Site) :
    Computation.Related Closure.CoreForm (Value.Related Closure.CoreForm)
      (tree.evaluateWith deeper env site) (core.evaluateWith deeper' env site') := by
  have hR : ∀ c d, Closure.CoreForm c d → c.params = d.params ∧ c.env = d.env :=
    fun c d hcd => ⟨hcd.params, hcd.env⟩
  induction h generalizing env site site' with
  | atom a => exact a.evaluate_related env
  | binary op _ _ ihLeft ihRight =>
    refine (ihRight env _ _).bind fun b b' hb => ?_
    refine (ihLeft env _ _).bind fun a a' ha => ?_
    exact .ofResult (op.apply_agree ha hb)
  | unary op _ ih => exact (ih env _ _).bind fun a a' ha => op.evaluate_related ha
  | gamma _ _ ihFunction ihArgument =>
    refine (ihArgument env _ _).bind fun a a' ha => ?_
    exact (ihFunction env _ _).bind fun f f' hf => applyWith_related hR hdeeper hf ha
  | tau hlength _ ih =>
    have hall := evaluateAll_means hlength (fun t t' ht => ih t t' ht env) site site' 0 0
    exact hall.bind fun values values' hvalues => .pure (.tuple hvalues)
  | conditional _ _ _ ihCondition ihThen ihElse =>
    refine (ihCondition env _ _).bind fun c c' hc => choose_related hc fun b => ?_
    cases b with
    | true => exact ihThen env _ _
    | false => exact ihElse env _ _
  | lambda hparts hparams hbinders hbody =>
    rw [of, evaluateWith, makeFunction_eq hparts, evaluateWith_lambda _ _ _ hparams]
    exact .pure (.closure ⟨rfl, rfl, rfl, _, _, hbinders, hbody, rfl⟩)
  | functionForm hparts hparams hbinders hbody =>
    rw [of, evaluateWith, makeFunction_eq hparts, evaluateWith_lambda _ _ _ hparams]
    exact .pure (.closure ⟨rfl, rfl, rfl, _, _, hbinders, hbody, rfl⟩)
  | letIn hbound hbinder _ hbody ih =>
    exact scope_related hdeeper (ih env _ _) hbound hbinder hbody _ _
  | whereIn hbound hbinder _ hbody ih =>
    exact scope_related hdeeper (ih env _ _) hbound hbinder hbody _ _
  | within hbound hbinder _ hbody ih =>
    exact scope_related hdeeper (ih env _ _) hbound hbinder hbody _ _
  | simultaneous hlength _ ih =>
    have hall := evaluateAll_means hlength (fun t t' ht => ih t t' ht env) site site' 0 0
    exact hall.bind fun values values' hvalues => .pure (.tuple hvalues)
  | @between left function right _ _ _ _ _ _ ihLeft ihFunction ihRight =>
    -- The core form of an infix application nests what the evaluator does in one row.
    refine (ihRight env _ _).bind fun b b' hb => ?_
    have happlied := (ihLeft env (0 :: site) (1 :: 0 :: site')).bind fun a a' ha =>
      (ihFunction env (1 :: site) (0 :: 0 :: site')).bind fun f f' hf =>
        applyWith_related hR hdeeper hf ha
    have hright := happlied.bind fun g g' hg => applyWith_related hR hdeeper hg hb
    have hassoc : ((left.evaluateWith deeper env (0 :: site) >>= fun a =>
          function.evaluateWith deeper env (1 :: site) >>= fun f => applyWith deeper f a) >>=
            fun g => applyWith deeper g b) =
        left.evaluateWith deeper env (0 :: site) >>= fun a =>
          function.evaluateWith deeper env (1 :: site) >>= fun f => applyWith deeper f a >>=
            fun g => applyWith deeper g b := by
      simp only [bind_assoc]
    rwa [hassoc] at hright
  | definition _ ih => exact ih env _ _
  | recursive hfalse => exact hfalse.elim

end Tree

/-- Within the same clock, what happens inside a function and inside its core form is related. -/
theorem deeperAt_coreForm (clock : Nat) :
    (deeperAt clock).Related Closure.CoreForm (deeperAt clock) := by
  induction clock with
  | zero => exact ⟨fun _ _ _ _ => .stopped, fun _ _ => .stopped⟩
  | succ clock ih =>
    refine ⟨fun env c d hcd => ?_, fun hf ha => ?_⟩
    · obtain ⟨hparams, henv, hlater, binders, core, hbinders, hbody, htree⟩ := hcd
      simp only [deeperAt, enterWith, hlater]
      generalize c.body.later = later at hbinders
      -- A body with later parameters makes the next function of the row, and only the last body is
      -- evaluated.
      cases hbinders with
      | nil =>
        rw [htree]
        exact Tree.evaluateWith_means ih hbody.means env _ _
      | @cons binder params binders later hb hbinders =>
        have hlambda := Tree.evaluateWith_lambda (deeperAt clock) env d.body.site hb
          (Tree.lambdas binders core)
        rw [htree, Tree.lambdas, List.foldr_cons, ← Tree.lambdas, hlambda]
        exact .pure (.closure ⟨rfl, rfl, rfl, binders, core, hbinders, hbody, rfl⟩)
    · exact applyWith_related (fun c d hcd => ⟨hcd.params, hcd.env⟩) ih hf ha

namespace Program

variable {tree : Tree} {desugared : Desugared} {table : Control.Table}

/-- **Desugaring preserves meaning.** A program without recursive definitions that can be compiled
is evaluated like its core form. In every environment and within every clock the two come to
values that are the same up to the core forms of function bodies, to the same error, or to no
answer, and they show the same values in the same order. -/
theorem evaluate_desugar (hrec : tree.recFree = true) (hdesugar : tree.desugar = .ok desugared)
    (hcompile : compile tree = .ok table) (clock : Nat) (env : EnvId) {store store' : Store Body}
    (hstore : store.Related Closure.CoreForm store') :
    Answer.Related Closure.CoreForm (Value.Related Closure.CoreForm)
      ((tree.evaluate clock env).run store) ((desugared.tree.evaluate clock env).run store') := by
  have htable : Control.Table.ofTree desugared.tree = .ok table := by
    rw [compile, hdesugar] at hcompile
    exact hcompile
  obtain ⟨code, hcode, -⟩ := Control.Table.ofTree_eq_ok.1 htable
  have hcore : desugared.tree.Core := Tree.core_of_fragment hcode
  have hform : tree.CoreForm desugared.tree :=
    ⟨hrec, hcore, desugared.tree, ⟨desugared.expansions, hdesugar⟩, hcore.valuePart_eq⟩
  exact Tree.evaluateWith_means (deeperAt_coreForm clock) hform.means env [] [] store store' hstore

/-- A program in which most abbreviations occur: it binds a number and a function of two numbers at
the same time and applies the function to the number and to a square. -/
def abbreviated : Tree :=
  let x : Tree := .identifier ⟨17⟩
  let f : Tree := .identifier ⟨18⟩
  let a : Tree := .identifier ⟨19⟩
  let b : Tree := .identifier ⟨20⟩
  let y : Tree := .identifier ⟨21⟩
  let z : Tree := .identifier ⟨22⟩
  .of .letIn [.of .simultaneous [.define x (.leaf (.integer 1)),
      .of .functionForm [f, a, b, .node (.binary .add) [.node (.unary .print) [a], b]]],
    .of .whereIn [.of .between [x, f, z],
      .of .within [.define y (.leaf (.integer 2)),
        .define (.of .comma [z]) (.node (.binary .mul) [y, y])]]]

theorem abbreviated_evaluate_desugar : ∃ desugared table, abbreviated.desugar = .ok desugared ∧
    compile abbreviated = .ok table ∧
    (∃ store, abbreviated.evaluateProgram 5 {} = .value (.integer 5) store ∧
      store.shown = [.integer 1]) ∧
    Answer.Related Closure.CoreForm (Value.Related Closure.CoreForm)
      (abbreviated.evaluateProgram 5 {}) (desugared.tree.evaluateProgram 5 {}) := by
  have hdesugar : abbreviated.desugar = .ok _ := rfl
  have hcompile : compile abbreviated = .ok _ := rfl
  have hcode : ({} : Machine.Settings).Codeless := fun _ h => absurd h List.not_mem_nil
  refine ⟨_, _, hdesugar, hcompile, ⟨_, rfl, rfl⟩, ?_⟩
  exact evaluate_desugar rfl hdesugar hcompile 5 .root (Store.initial_related_self hcode)

end Program

end EagerLambda
