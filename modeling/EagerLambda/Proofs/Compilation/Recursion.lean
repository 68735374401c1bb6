import EagerLambda.Proofs.Compilation.Correctness
import EagerLambda.Proofs.Evaluation.Recursion

/-!
# Recursive programs

A compiled program does what its evaluation with lexical scopes says, where a recursive definition
binds its name to one recursive function. The run ends with the same value, the same output or the
same error, at any depth of recursion, and it goes on for ever exactly if the evaluation does. The
machine numbers its environments, so all of this is about runs that do not need more of them than
there are numbers.

## Main definitions

- `Closure.Compiled` — a function whose structure is the code of another one's body
- `Program.Report.Tells` says what it means that a report is that of an evaluation

## Main statements

- `Program.run_iff_lexical` — runs and evaluations with lexical scopes end alike
-/

namespace EagerLambda

open Control Machine

variable {tree : Tree} {desugared : Desugared} {table : Table} {settings : Settings}

/-- The function of the machine has the same parameters, and its structure is the code of the core
form of the body. -/
structure Closure.Compiled (table : Table) (id : Site → ControlId) (c : Closure Lexical)
    (d : Closure) : Prop where
  params : c.params = d.params
  code : ∃ binders core site items,
    List.Forall₂ (fun b names => b.boundNames = .ok names) binders c.body.later ∧
      c.body.tree.ValueForm core ∧ (Tree.lambdas binders core).LaidOut table id site items ∧
      table.get? d.body = some ⟨d.body, items⟩

theorem Closure.Tracks.compiled {contexts : List Context} {id : Site → ControlId}
    {c : Closure Lexical} {d : Closure Body} {e : Closure} (h : c.Tracks contexts d)
    (he : Codes table id d e) : c.Compiled table id e := by
  obtain ⟨binders, core, hbinders, hform, htree⟩ := h.body.code
  obtain ⟨items, hlaid, hget⟩ := he.code
  have hbody : e.body = id d.body.site := by rw [he.eq_mapCode]; rfl
  have hparams : e.params = d.params := by rw [he.eq_mapCode]; rfl
  refine ⟨h.params.trans hparams.symm, binders, core, d.body.site, items, hbinders, hform, ?_, ?_⟩
  · rwa [← htree]
  · rwa [hbody]

/-- A run starts with one environment, which stands for the scope of a whole program. -/
theorem Store.initial_tracks (h : settings.Codeless) :
    Store.Tracks [Lexical.root settings] ⟨⟨#[]⟩, []⟩ (Store.initial settings) := by
  refine ⟨⟨?_, fun {i context} hi => ?_⟩, .nil⟩
  · exact Settings.size_environments _
  · obtain ⟨rfl, rfl⟩ : i = 0 ∧ Lexical.root settings = context := by
      simpa [List.getElem?_cons, List.getElem?_nil] using hi
    refine ⟨⟨none, (settings.mapCode fun _ => (default : Body)).root⟩, ?_,
      .root rfl (h.root_related _ _)⟩
    rw [Store.initial, Settings.environments_eq]
    rfl

namespace Program

/-- The two evaluations of a program within a clock. -/
theorem evaluateLexically_tracks (hdesugar : tree.desugar = .ok desugared)
    (hcore : desugared.tree.Core) (hcode : settings.Codeless) (clock : Nat) :
    Answer.Tracks [Lexical.root settings] Lexical.Values (tree.evaluateLexically clock settings)
      (desugared.tree.evaluateProgram clock settings) := by
  have hform : tree.ValueForm desugared.tree :=
    ⟨hcore, desugared.tree, ⟨desugared.expansions, hdesugar⟩, hcore.valuePart_eq⟩
  have hscope : Lexical.Scope [Lexical.root settings] (Lexical.root settings) .root := rfl
  exact Tree.evaluateIn_means (Lexical.innerAt_tracks clock) hform.means hscope [] _ _
    (Store.initial_tracks hcode)

/-- A report that tells an answer of the evaluation with environments tells what the evaluation
with lexical scopes answers. -/
theorem Report.Tells.lexical {contexts : List Context} {id : Site → ControlId}
    {answer : Answer Lexical (Value Lexical)} {answer' : Answer Body (Value Body)}
    {report : Report} (h : report.Tells (Codes table id) answer')
    (hroom : report.result ≠ .error (.machine .environmentsExhausted))
    (htracks : Answer.Tracks contexts Lexical.Values answer answer') :
    report.Tells (Closure.Compiled table id) answer := by
  have hcomp : ∀ {contexts : List Context} {v : Value Lexical} {w : Value Body} {u : Value},
      Lexical.Values contexts v w → Value.Related (Codes table id) w u →
        Value.Related (Closure.Compiled table id) v u :=
    fun hvw => hvw.comp fun _ _ _ hcd hde => hcd.compiled hde
  have hcompAll : ∀ {contexts : List Context} {vs : List (Value Lexical)} {ws : List (Value Body)}
      {us : List Value}, List.Forall₂ (Lexical.Values contexts) vs ws →
        List.Forall₂ (Value.Related (Codes table id)) ws.reverse us →
          List.Forall₂ (Value.Related (Closure.Compiled table id)) vs.reverse us := by
    intro contexts vs ws us hvs hws
    cases hcomp (.tuple (List.rel_reverse hvs)) (.tuple hws) with
    | tuple hus => exact hus
  cases htracks with
  | value hmore hv hstore =>
    obtain ⟨outcome, hresult, hw, hshown⟩ := h
    exact ⟨outcome, hresult, hcomp hv hw, hcompAll hstore.shown hshown⟩
  | failed error hmore hstore => exact ⟨h.1, hcompAll hstore.shown h.2⟩
  | pending => exact h.elim
  | exhausted => exact absurd h.1 hroom

/-- **Recursive programs.** As long as there are numbers for its environments, the run of a compiled
program without a budget reports what evaluation with lexical scopes answers: a value that is the
same up to the code of functions, or the same error, and the same output. The evaluation has an
answer exactly if the run ends. -/
theorem run_iff_lexical (hdesugar : tree.desugar = .ok desugared)
    (hcompile : compile tree = .ok table) (hbudget : settings.budget = none)
    (hcode : settings.Codeless)
    (hroom : ∀ fuel shown,
      run fuel settings tree ≠ some ⟨.error (.machine .environmentsExhausted), shown⟩) :
    (∀ fuel report, run fuel settings tree = some report →
      report.Tells (Closure.Compiled table desugared.tree.bodyId)
        (tree.evaluateLexically fuel settings)) ∧
    (∀ clock, tree.evaluateLexically clock settings ≠ .pending →
      ∃ fuel report, run fuel settings tree = some report ∧
        report.Tells (Closure.Compiled table desugared.tree.bodyId)
          (tree.evaluateLexically clock settings)) ∧
    ((∀ fuel, run fuel settings tree = none) ↔
      ∀ clock, tree.evaluateLexically clock settings = .pending) := by
  have hrun : ∀ fuel, run fuel settings tree = execute fuel settings table := fun fuel => by
    rw [run, hcompile]
  have htable : Table.ofTree desugared.tree = .ok table := by
    rw [compile, hdesugar] at hcompile
    exact hcompile
  obtain ⟨code, hfragment, -⟩ := Table.ofTree_eq_ok.1 htable
  have htracks := evaluateLexically_tracks hdesugar (Tree.core_of_fragment hfragment) hcode
  have htells : ∀ {fuel clock : Nat} {report : Report},
      execute fuel settings table = some report →
        report.Tells (Codes table desugared.tree.bodyId)
          (desugared.tree.evaluateProgram clock settings) →
        report.Tells (Closure.Compiled table desugared.tree.bodyId)
          (tree.evaluateLexically clock settings) := by
    intro fuel clock report hreport htells
    refine htells.lexical (fun hresult => ?_) (htracks clock)
    obtain ⟨result, shown⟩ := report
    obtain rfl : result = _ := hresult
    exact hroom fuel shown ((hrun fuel).trans hreport)
  have hreports : ∀ fuel report, run fuel settings tree = some report →
      report.Tells (Closure.Compiled table desugared.tree.bodyId)
        (tree.evaluateLexically fuel settings) := by
    intro fuel report hreport
    rw [hrun] at hreport
    exact htells hreport (tells_of_execute htable hbudget hcode hreport)
  have hanswers : ∀ clock, tree.evaluateLexically clock settings ≠ .pending →
      ∃ fuel report, run fuel settings tree = some report ∧
        report.Tells (Closure.Compiled table desugared.tree.bodyId)
          (tree.evaluateLexically clock settings) := by
    intro clock hanswer
    have hanswer' : desugared.tree.evaluateProgram clock settings ≠ .pending := fun hpending => by
      have hclock := htracks clock
      rw [hpending] at hclock
      generalize tree.evaluateLexically clock settings = answer at hanswer hclock
      cases hclock
      exact hanswer rfl
    obtain ⟨fuel, report, hreport, htold⟩ :=
      exists_report_tells htable hbudget hcode clock hanswer'
    exact ⟨fuel, report, (hrun fuel).trans hreport, htells hreport htold⟩
  refine ⟨hreports, hanswers, fun hnone clock => ?_, fun hpending fuel => ?_⟩
  · by_contra hanswer
    obtain ⟨fuel, report, hreport, -⟩ := hanswers clock hanswer
    cases (hnone fuel).symm.trans hreport
  · cases hreport : run fuel settings tree with
    | none => rfl
    | some report =>
      have htold := hreports fuel report hreport
      rw [hpending fuel] at htold
      exact htold.elim

/-- A recursive function of two parameters, applied to three and to nothing so far. It shows its
first argument and adds it to the second one until there is nothing left to add. -/
def summation : Tree :=
  let function : Tree := .identifier ⟨17⟩
  let number : Tree := .identifier ⟨18⟩
  let sum : Tree := .identifier ⟨19⟩
  let next : Tree := .apply
    (.apply function (.node (.binary .sub) [.node (.unary .print) [number], .leaf (.integer 1)]))
    (.node (.binary .add) [sum, number])
  let body : Tree := .of .conditional
    [.node (.binary .eq) [number, .leaf (.integer 0)], sum, next]
  .of .letIn [.of .recursive [.of .functionForm [function, number, sum, body]],
    .apply (.apply function (.leaf (.integer 3))) (.leaf (.integer 0))]

theorem summation_ends : ∃ desugared table outcome, summation.desugar = .ok desugared ∧
    compile summation = .ok table ∧
    (∀ fuel shown,
      run fuel {} summation ≠ some ⟨.error (.machine .environmentsExhausted), shown⟩) ∧
    run 88 {} summation = some ⟨.ok outcome, [.integer 3, .integer 2, .integer 1]⟩ ∧
    outcome.value = .integer 6 ∧
    Report.Tells (Closure.Compiled table desugared.tree.bodyId)
      (summation.evaluateLexically 88 {})
      ⟨.ok outcome, [.integer 3, .integer 2, .integer 1]⟩ := by
  have hdesugar : summation.desugar = .ok _ := rfl
  have hcompile : compile summation = .ok _ := rfl
  have hcode : ({} : Settings).Codeless := fun _ h => absurd h List.not_mem_nil
  have hrun : run 88 {} summation =
      some ⟨.ok _, [.integer 3, .integer 2, .integer 1]⟩ := rfl
  have hroom : ∀ fuel shown,
      run fuel {} summation ≠ some ⟨.error (.machine .environmentsExhausted), shown⟩ := by
    intro fuel shown hexhausted
    cases congrArg Report.result (run_unique hrun hexhausted)
  have htells := (run_iff_lexical hdesugar hcompile rfl hcode hroom).1 88 _ hrun
  exact ⟨_, _, _, hdesugar, hcompile, hroom, hrun, rfl, htells⟩

end Program

end EagerLambda
