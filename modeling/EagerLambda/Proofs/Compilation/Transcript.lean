import EagerLambda.Printer
import EagerLambda.Program
import EagerLambda.Proofs.Machine.Renumbering
import EagerLambda.Proofs.NameTable

/-!
# What is written of a program

All that leaves a program leaves it as text and as counts: the listing of its table, the value or
the error of a run and the lines it prints. In these texts a handle is replaced by the text it
stands for, so programs that are the same up to handles are written alike.

## Main definitions

- `Error.Account`, `Program.Account` — what is written of an error and of a value
- `Program.Transcript` — what is written of a run
- `Program.listing` — what is written of a compilation

## Main statements

- `Program.listing_eq` — programs that are the same up to handles have the same listing
- `Program.run_renumbered`, `Program.Report.Renumbered.transcript_eq` — and their runs have the same
  transcript
-/

namespace EagerLambda

open Control NameTable

/-- What is written of an error: the short name of its kind, the sentence that reports it and its
fields, by name. -/
structure Error.Account where
  code : String
  message : String
  detail : List (String × String)
  deriving DecidableEq, Repr

/-- The fields of an error, by name. -/
def Error.detail (names : NameTable) : Error → List (String × String)
  | malformedNode construct fault => [("construct", construct), ("detail", fault.text)]
  | malformedControl fault => [("detail", fault.text)]
  | unboundVariable name => [("name", names.text name)]
  | typeMismatch expected got => [("expected", expected), ("got", got)]
  | divisionByZero => []
  | integerOverflow operation => [("operation", operation)]
  | indexOutOfRange index length => [("index", index.text), ("len", toString length)]
  | arityMismatch expected got => [("expected", toString expected), ("got", toString got)]
  | unknownItem item => [("item", item)]
  | budgetExhausted budget => [("budget", toString budget)]
  | machine fault => [("detail", fault.text)]

/-- What is written of an error. -/
def Error.account (names : NameTable) (error : Error) : Error.Account :=
  ⟨error.code, error.message names, error.detail names⟩

namespace Program

/-- What is written of a run that succeeds. -/
structure Account where
  value : String
  typeName : String
  structures : Nat
  steps : Nat
  environments : Nat
  deriving DecidableEq, Repr

def Outcome.account (names : NameTable) (outcome : Outcome) : Account :=
  ⟨outcome.value.display names, outcome.value.typeName, outcome.structures, outcome.steps,
    outcome.environments⟩

/-- What is written of a run: its value or its error, and the lines it prints. -/
structure Transcript where
  result : Except Error.Account Account
  lines : List String

def Report.transcript (names : NameTable) (report : Report) : Transcript where
  result :=
    match report.result with
    | .ok outcome => .ok (outcome.account names)
    | .error error => .error (error.account names)
  lines := report.shown.map (Value.display names)

/-- What is written of a compilation: the listing of the table and how many structures there are. -/
def listing (names : NameTable) (tree : Tree) : Except Error.Account (String × Nat) :=
  match compile tree with
  | .ok table => .ok (table.dump names, table.size)
  | .error error => .error (error.account names)

end Program

-- ════════════════════════════════════════════════════════════════════════
-- Texts that are the same
-- ════════════════════════════════════════════════════════════════════════

variable {names names' : NameTable}

theorem map_eq_map {α β γ : Type} {A : α → β → Prop} {f : α → γ} {g : β → γ} {xs : List α}
    {ys : List β} (h : List.Forall₂ A xs ys) (hfg : ∀ x y, A x y → f x = g y) :
    xs.map f = ys.map g := by
  induction h with
  | nil => rfl
  | cons hxy _ ih => rw [List.map_cons, List.map_cons, hfg _ _ hxy, ih]

theorem texts_eq {xs ys : List Name} (h : List.Forall₂ (SameText names names') xs ys) :
    xs.map names.text = ys.map names'.text :=
  map_eq_map h fun _ _ hxy => hxy.text_eq

theorem Atom.Renumbered.describe_eq {a b : Atom} (h : a.Renumbered (SameText names names') b) :
    a.describe names = b.describe names' := by
  cases h with
  | identifier hxy => exact hxy.text_eq
  | constant ha =>
    cases a with
    | identifier x => exact absurd rfl (ha x)
    | truth b => cases b <;> rfl
    | _ => rfl

theorem Control.Item.Renumbered.describe_eq {item item' : Item}
    (h : item.Renumbered (SameText names names') item') :
    item.describe names = item'.describe names' := by
  cases h with
  | load hab => exact hab.describe_eq
  | lambda body hxys => simp only [Item.describe, texts_eq hxys]
  | _ => rfl

theorem Control.Structure.Renumbered.describe_eq {c d : Structure}
    (h : c.Renumbered (SameText names names') d) : c.describe names = d.describe names' := by
  have hitems : c.items.map (Item.describe names) = d.items.map (Item.describe names') :=
    map_eq_map h.items fun _ _ hitem => hitem.describe_eq
  simp only [Structure.describe, h.id, hitems]

/-- Tables that are the same up to handles have the same listing. -/
theorem Control.Table.Renumbered.dump_eq {table table' : Table}
    (h : table.Renumbered (SameText names names') table') :
    table.dump names = table'.dump names' := by
  have hlines : table.structures.toList.map (Structure.describe names) =
      table'.structures.toList.map (Structure.describe names') :=
    map_eq_map h fun _ _ hcd => hcd.describe_eq
  rw [dump, dump, hlines]

theorem Closure.Renumbered.display_eq {c d : Closure} (h : c.Renumbered (SameText names names') d)
    (kind : String) : c.display names kind = d.display names' kind := by
  simp only [Closure.display, texts_eq h.params, h.body]

namespace Value

theorem writeRest_eq {vs ws : List Value}
    (h : List.Forall₂ (Value.Renumbered (SameText names names')) vs ws)
    (ih : ∀ v ∈ vs, ∀ {w}, v.Renumbered (SameText names names') w →
      ∀ out, v.write names out = w.write names' out) (out : String) :
    writeRest names out vs = writeRest names' out ws := by
  induction h generalizing out with
  | nil => rfl
  | cons hvw _ ihs =>
    rw [List.forall_mem_cons] at ih
    rw [writeRest, writeRest, ih.1 hvw, ihs ih.2]

theorem write_eq {v w : Value} (h : v.Renumbered (SameText names names') w) (out : String) :
    v.write names out = w.write names' out := by
  induction v using parts_induction generalizing w out with
  | tuple vs ih =>
    cases h with
    | tuple hs =>
      cases hs with
      | nil => rfl
      | cons hfirst hrest =>
        rw [List.forall_mem_cons] at ih
        rw [write, write, ih.1 hfirst, writeRest_eq hrest ih.2]
  | closure c =>
    cases h with
    | closure hcd => rw [write, write, hcd.display_eq]
  | eta c =>
    cases h with
    | eta hcd => rw [write, write, hcd.display_eq]
  | truth b =>
    cases h
    cases b <;> rfl
  | _ =>
    cases h
    rfl

/-- Values that are the same up to handles are shown alike. -/
theorem Renumbered.display_eq {v w : Value} (h : v.Renumbered (SameText names names') w) :
    v.display names = w.display names' :=
  write_eq h ""

theorem displays_eq {vs ws : List Value}
    (h : List.Forall₂ (Value.Renumbered (SameText names names')) vs ws) :
    vs.map (display names) = ws.map (display names') :=
  map_eq_map h fun _ _ hvw => Renumbered.display_eq hvw

end Value

theorem Error.account_unbound (names : NameTable) (x : Name) :
    (Error.unboundVariable x).account names =
      ⟨"UnboundVariable", s!"unbound variable: {names.text x}", [("name", names.text x)]⟩ := rfl

/-- Errors that are the same up to handles are reported alike. -/
theorem Error.Renumbered.account_eq {e e' : Error} (h : e.Renumbered (SameText names names') e') :
    e.account names = e'.account names' := by
  cases h with
  | unbound hxy => rw [account_unbound, account_unbound, hxy.text_eq]
  | same he =>
    cases e with
    | unboundVariable x => cases he
    | _ => rfl

-- ════════════════════════════════════════════════════════════════════════
-- Runs that are the same
-- ════════════════════════════════════════════════════════════════════════

namespace Program

variable {tree tree' : Tree} {settings settings' : Machine.Settings} {R : Name → Name → Prop}

/-- Trees that are the same up to handles have tables that are, or none for the same reason. -/
theorem compile_alike (hR : Renumbering R) (h : tree.Renumbered R tree') :
    Alike R (Table.Renumbered R) (compile tree) (compile tree') :=
  (h.desugar hR).bind fun _ _ hcore => hcore.1.ofTree

/-- What two runs come to is the same up to handles. -/
structure Report.Renumbered (R : Name → Name → Prop) (report report' : Report) : Prop where
  result : Alike R (fun o p => o.value.Renumbered R p.value ∧ o.structures = p.structures ∧
    o.steps = p.steps ∧ o.environments = p.environments) report.result report'.result
  shown : List.Forall₂ (Value.Renumbered R) report.shown report'.shown

/-- Runs of programs that are the same up to handles come to the same up to handles, if they are
over after this many turns. -/
theorem run_renumbered (hR : Renumbering R) (h : tree.Renumbered R tree')
    (hsettings : settings.Renumbered R settings') (fuel : Nat) :
    Option.Rel (Report.Renumbered R) (run fuel settings tree) (run fuel settings' tree') := by
  have hcompile := compile_alike hR h
  rw [run, run]
  generalize compile tree = r at hcompile ⊢
  generalize compile tree' = r' at hcompile ⊢
  cases hcompile with
  | error he => exact .some ⟨.error he, .nil⟩
  | @ok table table' htable =>
    have hload := Machine.load_renumbered hR htable hsettings
    simp only [execute]
    generalize Machine.load table settings = m at hload ⊢
    generalize Machine.load table' settings' = m' at hload ⊢
    cases hload with
    | error he => exact .some ⟨.error he, .nil⟩
    | @ok m m' hmachine =>
      obtain ⟨machine, start⟩ := m
      obtain ⟨machine', start'⟩ := m'
      obtain ⟨rfl, rfl, hstart⟩ := hmachine
      have hrun := Machine.advance_renumbered hR htable settings.budget fuel hstart
      simp only
      generalize Machine.advance ⟨table, settings.budget⟩ fuel start = t at hrun ⊢
      generalize Machine.advance ⟨table', settings.budget⟩ fuel start' = t' at hrun ⊢
      cases hrun with
      | next _ => exact .none
      | halted hvw hlast =>
        exact .some ⟨.ok ⟨hvw, htable.size_eq, hlast.steps, hlast.envs.size_eq⟩,
          List.rel_reverse hlast.shown⟩
      | failed he hlast => exact .some ⟨.error he, List.rel_reverse hlast.shown⟩

theorem Report.Renumbered.transcript_eq {report report' : Report}
    (h : report.Renumbered (SameText names names') report') :
    report.transcript names = report'.transcript names' := by
  obtain ⟨result, shown⟩ := report
  obtain ⟨result', shown'⟩ := report'
  obtain ⟨hresult, hshown⟩ := h
  simp only [transcript, Value.displays_eq hshown, Transcript.mk.injEq, and_true]
  cases hresult with
  | error he => exact congrArg _ he.account_eq
  | ok houtcome =>
    obtain ⟨hvalue, hstructures, hsteps, henvironments⟩ := houtcome
    simp only [Outcome.account, hvalue.display_eq, Value.Related.typeName_eq hvalue, hstructures,
      hsteps, henvironments]

/-- Programs that are the same up to handles have the same listing. -/
theorem listing_eq (hR : Renumbering (SameText names names'))
    (h : tree.Renumbered (SameText names names') tree') :
    listing names tree = listing names' tree' := by
  have hcompile := compile_alike hR h
  rw [listing, listing]
  generalize compile tree = r at hcompile ⊢
  generalize compile tree' = r' at hcompile ⊢
  cases hcompile with
  | error he => exact congrArg _ he.account_eq
  | ok htable => simp only [htable.dump_eq, htable.size_eq]

end Program

end EagerLambda
