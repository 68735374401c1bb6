import EagerLambda.Proofs.Compilation.Transcript
import EagerLambda.Proofs.Control.Checked
import EagerLambda.Proofs.Machine.Checked
import EagerLambda.Proofs.Tree.Checked
import EagerLambda.Proofs.Tree.Rename

/-!
# Programs with checked indexing

Every read by index in the passes and in the machine is guarded elsewhere: by a count of children,
by the shape of a closure, by the structures that were made before. Names are different, since a
handle means something only to the table that gave it out. If the tree and the bindings of a run
hold handles of the table only, so does everything that the run makes of them, and no index is ever
out of bounds.

## Main definitions

- `Program.compileChecked`, `Program.runChecked` — compiling and running with checked indexing
- `Program.listing?`, `Program.Report.transcript?` — what is written of them, read from a table
- `Machine.Settings.Known` — settings that bind and mention names of a table

## Main statements

- `Program.indices_in_bounds` — compiling, listing, running and reporting keep every index in bounds
-/

namespace EagerLambda

open Control NameTable

-- ════════════════════════════════════════════════════════════════════════
-- What is checked
-- ════════════════════════════════════════════════════════════════════════

/-- What is written of an error, with the name in it read from the table. -/
def Error.account? (names : NameTable) : Error → Option Error.Account
  | unboundVariable x => do
    let text ← names.text? x
    some ⟨"UnboundVariable", s!"unbound variable: {text}", [("name", text)]⟩
  | error => some (error.account names)

/-- The machine for a table and the state in which it starts. -/
def Machine.loadChecked (table : Table) (settings : Settings) : Checked (Machine × State) := do
  let (machine, start) ← load table settings
  let envs ← settings.environmentsChecked
  pure (machine, { start with envs := envs })

namespace Program

/-- The control table of a program tree. -/
def compileChecked (tree : Tree) : Checked Table := do
  let core ← tree.desugarChecked
  Table.ofTreeChecked core.tree

/-- Executes a control table. There is no report if the run is not over after `fuel` turns, and no
answer at all if an index was out of bounds. -/
def executeChecked (names : NameTable) (fuel : Nat) (settings : Machine.Settings) (table : Table) :
    Option (Option Report) := do
  match ← (Machine.loadChecked table settings).run with
  | .error error => some (some (.failed error))
  | .ok (machine, start) =>
    match ← machine.advanceChecked names fuel start with
    | .next _ => some none
    | .failed error s => some (some ⟨.error error, s.shown.reverse⟩)
    | .halted value s =>
      some (some ⟨.ok ⟨value, table.size, s.steps, s.envs.size⟩, s.shown.reverse⟩)

/-- Runs a program tree. -/
def runChecked (names : NameTable) (fuel : Nat) (settings : Machine.Settings) (tree : Tree) :
    Option (Option Report) := do
  match ← (compileChecked tree).run with
  | .error error => some (some (.failed error))
  | .ok table => executeChecked names fuel settings table

/-- What is written of the result of a run. -/
def resultAccount? (names : NameTable) :
    Except Error Outcome → Option (Except Error.Account Account)
  | .ok outcome => do
    let value ← outcome.value.display? names
    some (.ok ⟨value, outcome.value.typeName, outcome.structures, outcome.steps,
      outcome.environments⟩)
  | .error error => do
    let account ← error.account? names
    some (.error account)

/-- What is written of a run. -/
def Report.transcript? (names : NameTable) (report : Report) : Option Transcript := do
  let result ← resultAccount? names report.result
  let lines ← report.shown.mapM (Value.display? names)
  some ⟨result, lines⟩

/-- What is written of a compilation. -/
def listing? (names : NameTable) (tree : Tree) : Option (Except Error.Account (String × Nat)) := do
  match ← (compileChecked tree).run with
  | .ok table => do
    let text ← table.dump? names
    some (.ok (text, table.size))
  | .error error => do
    let account ← error.account? names
    some (.error account)

end Program

-- ════════════════════════════════════════════════════════════════════════
-- Known names
-- ════════════════════════════════════════════════════════════════════════

/-- The names that the settings bind, and those that the functions bound to them bind, were given
out by the table. -/
def Machine.Settings.Known (names : NameTable) (settings : Settings) : Prop :=
  ∀ binding ∈ settings.bindings, names.Holds binding.1 ∧ binding.2.Known names

variable {names : NameTable} {tree : Tree} {settings : Machine.Settings}

/-- A tree is the same as itself if its identifiers are. -/
theorem Tree.renumbered_self {R : Name → Name → Prop} (h : ∀ x ∈ tree.names, R x x) :
    tree.Renumbered R tree := by
  induction tree using children_induction with
  | node label children ih =>
    refine .node ?_ (List.forall₂_same.2 fun t ht => ih t ht fun x hx => h x ?_)
    · cases label with
      | construct c => exact .construct c
      | binary op => exact .binary op
      | unary op => exact .unary op
      | atom a =>
        cases a with
        | identifier x => exact .atom (.identifier (h x (by simp [names])))
        | _ => exact .atom (.constant fun _ h => by cases h)
    · exact namesAll_subset label children (mem_namesAll.2 ⟨t, ht, hx⟩)

theorem Machine.Settings.Known.renumbered (h : settings.Known names) :
    settings.Renumbered (SameText names names) settings where
  budget := rfl
  primitives := rfl
  bindings := List.forall₂_same.2 fun binding hbinding =>
    ⟨sameText_self_iff.2 (h binding hbinding).1, Value.known_iff.2 (h binding hbinding).2⟩

theorem Machine.loadChecked_gives (table : Table) (settings : Settings) :
    (loadChecked table settings).Gives (load table settings) := by
  have henvs := Checked.Gives.of_option settings.environmentsChecked_eq
  rw [loadChecked, load]
  cases table.entry? with
  | none => exact (Checked.Gives.of_except _).bind_error
  | some entry =>
    simp only
    split
    · exact (Checked.Gives.of_except _).bind_error
    · exact (Checked.Gives.of_except _).bind_ok (henvs.bind_ok (.of_except _))

/-- An error in which the name is known can be reported. -/
theorem Error.account?_eq {e : Error} (h : e.Renumbered (SameText names names) e) :
    e.account? names = some (e.account names) := by
  cases h with
  | unbound hx =>
    rw [account?, (sameText_self_iff.1 hx).text?_eq]
    rfl
  | same he =>
    cases e with
    | unboundVariable x => cases he
    | _ => rfl

namespace Program

theorem compileChecked_gives (tree : Tree) : (compileChecked tree).Gives (compile tree) :=
  tree.desugarChecked_gives.bind fun core _ => Table.ofTreeChecked_gives core.tree

theorem executeChecked_eq (hnames : names.Sound) {table : Table}
    (htable : table.Renumbered (SameText names names) table) (hsettings : settings.Known names)
    (fuel : Nat) :
    executeChecked names fuel settings table = some (execute fuel settings table) := by
  have hloaded := Machine.loadChecked_gives table settings
  have hload := Machine.load_renumbered (hnames.renumbering hnames) htable hsettings.renumbered
  rw [executeChecked, execute]
  cases hstart : Machine.load table settings with
  | error e =>
    rw [hstart] at hloaded
    rw [hloaded]
    rfl
  | ok loaded =>
    rw [hstart] at hloaded hload
    obtain ⟨machine, start⟩ := loaded
    obtain ⟨hmachine⟩ := hload
    obtain ⟨rfl, -, hknown⟩ := hmachine
    have hadvance : Machine.advanceChecked ⟨table, settings.budget⟩ names fuel start = some _ :=
      Machine.State.Known.advanceChecked_eq hnames htable fuel hknown
    rw [hloaded]
    simp only [Option.bind_eq_bind, Option.bind_some, hadvance]
    cases Machine.advance ⟨table, settings.budget⟩ fuel start <;> rfl

/-- A report in which all names are known can be written. -/
theorem Report.transcript?_eq {report : Report}
    (h : report.Renumbered (SameText names names) report) :
    report.transcript? names = some (report.transcript names) := by
  have hlines : report.shown.mapM (Value.display? names) =
      some (report.shown.map (Value.display names)) :=
    mapM_eq_some_map fun v hv => (Value.known_iff.1 (List.forall₂_same.1 h.shown v hv)).display?_eq
  have hresult := h.result
  rw [transcript?, transcript, hlines]
  cases hend : report.result with
  | ok outcome =>
    rw [hend] at hresult
    obtain ⟨houtcome⟩ := hresult
    rw [resultAccount?, (Value.known_iff.1 houtcome.1).display?_eq]
    rfl
  | error e =>
    rw [hend] at hresult
    obtain _ | he := hresult
    rw [resultAccount?, Error.account?_eq he]
    rfl

theorem runChecked_eq (hnames : names.Sound) (htree : tree.Renumbered (SameText names names) tree)
    (hsettings : settings.Known names) (fuel : Nat) :
    runChecked names fuel settings tree = some (run fuel settings tree) := by
  have hcompiled := compileChecked_gives tree
  have htable := compile_alike (hnames.renumbering hnames) htree
  rw [runChecked, run]
  cases hcompile : compile tree with
  | error e =>
    rw [hcompile] at hcompiled
    rw [hcompiled]
    rfl
  | ok table =>
    rw [hcompile] at hcompiled htable
    obtain ⟨htable⟩ := htable
    rw [hcompiled]
    exact executeChecked_eq hnames htable hsettings fuel

theorem listing?_eq (hnames : names.Sound) (htree : tree.Renumbered (SameText names names) tree) :
    listing? names tree = some (listing names tree) := by
  have hcompiled := compileChecked_gives tree
  have halike := compile_alike (hnames.renumbering hnames) htree
  rw [listing?, listing, hcompiled]
  cases hcompile : compile tree with
  | error e =>
    rw [hcompile] at halike
    obtain _ | he := halike
    simp only [Option.bind_eq_bind, Option.bind_some, Error.account?_eq he]
  | ok table =>
    rw [hcompile] at halike
    obtain ⟨htable⟩ := halike
    simp only [Option.bind_eq_bind, Option.bind_some, Table.dump?_eq htable]

/-- **Every index is in bounds.** Let a table of names be made by entering texts, and let it have
given out every identifier of a tree, every name bound in the settings and every name bound by a
function in them. The tree may have any shape otherwise, and the functions any body and environment.
Then the checked passes come to what the passes come to; the table of the program and the errors of
the passes can be written; the checked machine takes the turns of the machine, however many; and the
result of a run and every value it shows can be written. -/
theorem indices_in_bounds (hnames : NameTable.initial.Entered names)
    (htree : ∀ x ∈ tree.names, names.Holds x) (hsettings : settings.Known names) :
    (compileChecked tree).Gives (compile tree) ∧
      listing? names tree = some (listing names tree) ∧
      ∀ fuel, runChecked names fuel settings tree = some (run fuel settings tree) ∧
        ∀ report, run fuel settings tree = some report →
          report.transcript? names = some (report.transcript names) := by
  have hsound := hnames.sound initial_sound
  have hself : tree.Renumbered (SameText names names) tree :=
    Tree.renumbered_self fun x hx => sameText_self_iff.2 (htree x hx)
  refine ⟨compileChecked_gives tree, listing?_eq hsound hself, fun fuel =>
    ⟨runChecked_eq hsound hself hsettings fuel, fun report hreport => ?_⟩⟩
  have hrun := run_renumbered (hsound.renumbering hsound) hself hsettings.renumbered fuel
  rw [hreport] at hrun
  obtain ⟨hrenumbered⟩ := hrun
  exact Report.transcript?_eq hrenumbered

/-- `f (Print g)` over a table that knows both names. -/
def printedCall : Tree :=
  .apply (.identifier ⟨17⟩) (.apply (.identifier .printUpper) (.identifier ⟨18⟩))

/-- Settings that bind `g` to a function which was not made by the program. -/
def foreignFunction : Machine.Settings :=
  { bindings := [(⟨18⟩, .tuple [.eta ⟨⟨7⟩, [⟨17⟩, .fixpoint], ⟨40⟩⟩])] }

/-- A table that has given out handles for `f` and `g`. -/
def twoNames : NameTable := ⟨Name.reservedTexts ++ ["f", "g"]⟩

theorem indices_in_bounds_printedCall :
    NameTable.initial.Entered twoNames ∧ (∀ x ∈ printedCall.names, twoNames.Holds x) ∧
      foreignFunction.Known twoNames ∧
      ((compileChecked printedCall).Gives (compile printedCall) ∧
        listing? twoNames printedCall = some (listing twoNames printedCall) ∧
        ∀ fuel, runChecked twoNames fuel foreignFunction printedCall =
            some (run fuel foreignFunction printedCall) ∧
          ∀ report, run fuel foreignFunction printedCall = some report →
            report.transcript? twoNames = some (report.transcript twoNames)) ∧
      (run 10 foreignFunction printedCall).map (Report.transcript twoNames) =
        some ⟨.error ⟨"UnboundVariable", "unbound variable: f", [("name", "f")]⟩,
          ["([eta closure: f,Y: 7])"]⟩ := by
  have hf : NameTable.initial.intern "f" = .ok (⟨17⟩, ⟨Name.reservedTexts ++ ["f"]⟩) := rfl
  have hg : NameTable.intern ⟨Name.reservedTexts ++ ["f"]⟩ "g" = .ok (⟨18⟩, twoNames) := rfl
  have hnames : NameTable.initial.Entered twoNames := (Entered.of_intern hf).tail ⟨"g", ⟨18⟩, hg⟩
  have htree : ∀ x ∈ printedCall.names, twoNames.Holds x := by decide
  have hsettings : foreignFunction.Known twoNames := by
    have hparams : ∀ x ∈ [⟨17⟩, Name.fixpoint], twoNames.Holds x := by decide
    have hbound : twoNames.Holds ⟨18⟩ := by decide
    exact List.forall_mem_singleton.2 ⟨hbound, hparams, trivial⟩
  exact ⟨hnames, htree, hsettings, indices_in_bounds hnames htree hsettings, rfl⟩

/-- A handle that the table has not given out has no text to report. -/
example : executeChecked .initial 5 {} ⟨#[⟨.entry, [.load (.identifier ⟨17⟩)]⟩]⟩ = none := rfl

end Program

end EagerLambda
