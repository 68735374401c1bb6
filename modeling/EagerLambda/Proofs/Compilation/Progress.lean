import EagerLambda.Proofs.Compilation.Correctness
import EagerLambda.Proofs.Machine.Progress
import EagerLambda.Proofs.Machine.Provenance

/-!
# What keeps a run going

The items of a program that compiles refer to one another as the nodes of a tree do, so a run gets
through them unless it applies functions. For each function that it applies it takes at most a few
turns more than the program has nodes. A program without functions takes no more turns than its
nodes ask for.

As an environment is opened for each function that is applied, and their number is limited, every
run comes to an end, if only because there are no more environments.

## Main statements

- `Program.run_paced` — what lies between two applications of functions
- `Program.run_ends` — every run comes to an end
-/

namespace EagerLambda

open Control Machine

namespace Program

variable {tree core : Tree} {table : Table} {machine : Machine} {s s' : State}

-- ════════════════════════════════════════════════════════════════════════
-- Programs without functions
-- ════════════════════════════════════════════════════════════════════════

/-- What an item makes is a function of the program and binds the names of a binder. -/
theorem exists_binder_of_makes {body : ControlId} {params : List Name}
    (htable : Table.ofTree core = .ok table) (h : table.Makes body params) :
    .construct .lambda ∈ core.labels ∧ ∃ binder : Tree, binder.boundNames = .ok params := by
  obtain ⟨code, hcode, rfl, -⟩ := Table.ofTree_eq_ok.1 htable
  obtain ⟨id, found, hfound, hitem⟩ := h
  rw [Table.get?_ofItems] at hfound
  obtain ⟨items, hget, rfl⟩ := Option.map_eq_some_iff.1 hfound
  exact Tree.exists_binder_of_lists hcode
    (Fragment.mem_asStructures.1 ⟨items, List.mem_of_getElem? hget, hitem⟩)

/-- Where no item makes functions, there are none to be applied. -/
theorem not_opens_of_traced (hnone : ∀ body params, ¬ machine.table.Makes body params)
    (hs : Traced machine.table s) : ¬ Opens machine s := by
  intro hopens
  obtain ⟨s', hturn⟩ := hopens.succeeds
  obtain ⟨closure, rest, _, _, _, -, hoperands⟩ := (opens_iff_ready hturn).1 hopens
  have hclosure := hs.functions.operands (.closure closure) (hoperands ▸ List.mem_cons_self)
  exact hnone _ _ (Value.throughout_closure.1 hclosure).1

-- ════════════════════════════════════════════════════════════════════════
-- Runs
-- ════════════════════════════════════════════════════════════════════════

/-- What a run of a program starts from. -/
theorem exists_paced (htable : Table.ofTree core = .ok table) (settings : Settings) :
    ∃ start, load table settings = .ok (⟨table, settings.budget⟩, start) ∧
      Work table start.scopes (core.turns + 1) ∧ Paced table core.labels.length 0 0 start := by
  obtain ⟨⟨entry, hentry, hcomputes⟩, -⟩ := Table.ofTree_computes htable
  obtain ⟨items, -, hload⟩ := exists_load htable settings
  obtain ⟨hwork, hsize⟩ := work_of_load hload hentry hcomputes
  have hturns := core.turns_le
  exact ⟨_, hload, hwork, hsize, _, hwork, .inl (by omega)⟩

/-- A run that is over has a report. -/
theorem exists_report_of_stopped {settings : Settings} {start : State} {fuel : Nat}
    (hcompile : compile tree = .ok table)
    (hload : load table settings = .ok (⟨table, settings.budget⟩, start))
    (h : (advance ⟨table, settings.budget⟩ fuel start).stopped = true) :
    ∃ report, run fuel settings tree = some report := by
  rw [run, hcompile]
  simp only [execute, hload]
  cases hrun : advance ⟨table, settings.budget⟩ fuel start with
  | next s =>
    rw [hrun] at h
    cases h
  | halted v s => exact ⟨_, rfl⟩
  | failed error s => exact ⟨_, rfl⟩

/-- **Only functions keep a run going.** As many environments are opened in a run as functions are
applied. From every state of a run the machine gets to the next application of a function, or it
halts or fails, before it has taken more turns than three more than the program has nodes for each
function that it has applied and for the program itself. So a run that went on forever would apply
functions again and again. A program without functions halts or fails after a number of turns that
can be read off its core form. -/
theorem run_paced (hcompile : compile tree = .ok table) :
    ∃ desugared, tree.desugar = .ok desugared ∧ ∀ settings : Settings,
      ∃ start, load table settings = .ok (⟨table, settings.budget⟩, start) ∧
        (∀ fuel events s,
          advanceTracing ⟨table, settings.budget⟩ fuel [] start = (events, .next s) →
            s.envs.size = openings events + 1 ∧
            (∃ count,
              fuel + count ≤ (openings events + 1) * (desugared.tree.labels.length + 3) + 1 ∧
              ((advance ⟨table, settings.budget⟩ count s).stopped = true ∨
                ∃ s₁, advance ⟨table, settings.budget⟩ count s = .next s₁ ∧
                  Opens ⟨table, settings.budget⟩ s₁)) ∧
            ∀ states : Nat → State, states 0 = s →
              (∀ n, turn ⟨table, settings.budget⟩ (states n) = .next (states (n + 1))) →
                ∀ n, ∃ m ≥ n, Opens ⟨table, settings.budget⟩ (states m)) ∧
        (settings.Codeless → .construct .lambda ∉ desugared.tree.labels →
          ∃ report, run (desugared.tree.turns + 2) settings tree = some report) := by
  have hrun := hcompile
  rw [compile] at hrun
  obtain ⟨desugared, hdesugar, htable⟩ := bind_eq_ok.1 hrun
  refine ⟨desugared, hdesugar, fun settings => ?_⟩
  have hsound : (Machine.mk table settings.budget).table.Sound desugared.tree.labels.length :=
    (Table.ofTree_computes htable).2
  obtain ⟨start, hload, hwork, hstart⟩ := exists_paced htable settings
  refine ⟨start, hload, fun fuel events s htrace => ?_, fun hcode hnone => ?_⟩
  · have hpaced : Paced table _ (0 + fuel) (openings events) s := hstart.advance hsound htrace
    rw [Nat.zero_add] at hpaced
    obtain ⟨work, hwork', -⟩ := hpaced.work
    refine ⟨hpaced.size, hpaced.exists_opens hsound, ?_⟩
    rintro states rfl hstates
    exact opens_of_endless hsound hstates ⟨work, hwork'⟩
  · obtain ⟨count, hcount, hends⟩ := hwork.exists_opens hsound
    refine exists_report_of_stopped hcompile hload ?_
    rcases hends with hstopped | ⟨s₁, hreached, hopens⟩
    · exact advance_stopped_of_le hstopped hcount
    · have htraced : Traced table s₁ := advance_traced hreached (load_traced hcode hload)
      refine absurd hopens (not_opens_of_traced (fun body params hmakes => hnone ?_) htraced)
      exact (exists_binder_of_makes htable hmakes).1

/-- A program that shows a text, and which one it is depends on a comparison. -/
def comparisonShown : Tree :=
  .node (.unary .print) [.of .conditional
    [.node (.binary .gr) [.leaf (.integer 1), .leaf (.integer 0)],
      .leaf (.string "more"), .leaf (.string "less")]]

/-- A function that applies its argument twice, to one, applied to a function that gives its
argument back. -/
def appliedTwice : Tree :=
  let function : Tree := .identifier ⟨17⟩
  let x : Tree := .identifier ⟨18⟩
  .apply (.lambda function (.apply function (.apply function (.leaf (.integer 1)))))
    (.lambda x x)

theorem comparisonShown_appliedTwice_paced :
    (∃ desugared report, comparisonShown.desugar = .ok desugared ∧
      .construct .lambda ∉ desugared.tree.labels ∧ desugared.tree.turns = 6 ∧
      run 8 {} comparisonShown = some report ∧ report.shown = [.string "more"] ∧
      run 7 {} comparisonShown = none) ∧
    ∃ table start events s, compile appliedTwice = .ok table ∧
      load table {} = .ok (⟨table, none⟩, start) ∧
      advanceTracing ⟨table, none⟩ 9 [] start = (events, .next s) ∧
      openings events = 2 ∧ s.envs.size = 3 ∧
      ∃ count, 9 + count ≤ 43 ∧ ((advance ⟨table, none⟩ count s).stopped = true ∨
        ∃ s₁, advance ⟨table, none⟩ count s = .next s₁ ∧ Opens ⟨table, none⟩ s₁) := by
  constructor
  · have hcompile : compile comparisonShown = .ok _ := rfl
    obtain ⟨desugared, hdesugar, hpaced⟩ := run_paced hcompile
    obtain ⟨start, -, -, hends⟩ := hpaced {}
    cases hdesugar
    obtain ⟨report, hreport⟩ := hends (fun _ h => absurd h List.not_mem_nil) (by decide)
    refine ⟨_, report, rfl, by decide, rfl, hreport, ?_, rfl⟩
    cases hreport
    rfl
  · have hcompile : compile appliedTwice = .ok _ := rfl
    obtain ⟨desugared, hdesugar, hpaced⟩ := run_paced hcompile
    obtain ⟨start, hload, hreached, -⟩ := hpaced {}
    cases hdesugar
    obtain rfl := (Prod.mk.inj (Except.ok.inj hload)).2
    obtain ⟨hsize, hnext, -⟩ := hreached 9 _ _ rfl
    exact ⟨_, _, _, _, hcompile, hload, rfl, rfl, hsize, hnext⟩

/-- No more environments are opened than there are numbers for. -/
theorem advance_size_le {fuel : Nat} (h : machine.advance fuel s = .next s')
    (hs : s.envs.size ≤ handleLimit) : s'.envs.size ≤ handleLimit := by
  refine advance_next_of_turn (P := fun s => s.envs.size ≤ handleLimit)
    (fun s s' hturn hs => ?_) h hs
  rcases turn_envs hturn with henvs | ⟨parent, bindings, hfault, henvs⟩
  · rwa [henvs]
  · rw [henvs, Environments.size_push]
    exact (Environments.openFault?_eq_none_iff.1 hfault).2

/-- **Every run comes to an end**, as functions cannot be applied without environments. -/
theorem run_ends (tree : Tree) (settings : Settings) :
    ∃ fuel report, run fuel settings tree = some report := by
  cases hcompile : compile tree with
  | error error => exact ⟨0, .failed error, by rw [run, hcompile]⟩
  | ok table =>
    have hrun := hcompile
    rw [compile] at hrun
    obtain ⟨desugared, -, htable⟩ := bind_eq_ok.1 hrun
    obtain ⟨start, hload, -, hstart⟩ := exists_paced htable settings
    have hsound : (Machine.mk table settings.budget).table.Sound desugared.tree.labels.length :=
      (Table.ofTree_computes htable).2
    obtain ⟨most, hmost⟩ : ∃ most, most = handleLimit * (desugared.tree.labels.length + 3) :=
      ⟨_, rfl⟩
    refine ⟨most + 1, exists_report_of_stopped hcompile hload ?_⟩
    cases hend : advance ⟨table, settings.budget⟩ (most + 1) start with
    | halted v s => rfl
    | failed error s => rfl
    | next s =>
      have htrace : advanceTracing ⟨table, settings.budget⟩ (most + 1) [] start =
          ((advanceTracing ⟨table, settings.budget⟩ (most + 1) [] start).1, .next s) := by
        rw [← hend, ← advanceTracing_snd (most + 1) [] start]
      have hpaced : Paced table _ (0 + (most + 1)) _ s := hstart.advance hsound htrace
      have hsize := advance_size_le hend (by rw [hstart.size]; decide)
      have hturns := hpaced.taken_le
      rw [← hpaced.size] at hturns
      have hlimit := Nat.mul_le_mul_right (desugared.tree.labels.length + 3) hsize
      omega

end Program

end EagerLambda
