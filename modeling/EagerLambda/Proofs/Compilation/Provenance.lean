import EagerLambda.Proofs.Compilation.Progress

/-!
# The functions of a compiled program

A program that compiles is executed with values of which every part is accounted for. A function,
wherever it is found, was made by an item of the control table, has a body there, binds a name and
keeps an environment that exists. A builtin that waits for an argument is `Conc`, and it has
received one, so that it never has to do without.

## Main definitions

- `Control.Table.Vouches` — what the table of a program says about a function

## Main statements

- `Control.Table.exists_body_of_makes` — the functions of a program have bodies
- `Program.functions_accounted` — every function in a run is vouched for
-/

namespace EagerLambda

open Control Machine

/-- A binder binds a name. -/
theorem Tree.ne_nil_of_boundNames {binder : Tree} {names : List Name}
    (h : binder.boundNames = .ok names) : names ≠ [] := by
  unfold boundNames at h
  split at h
  · next first rest =>
    rw [parameterNames_eq_ok] at h
    rintro rfl
    cases h
  · split at h
    · cases h
    · cases h
      exact List.cons_ne_nil _ _

namespace Control.Table

variable {table : Table} {count : Nat} {c : Closure}

/-- The function is made by an item of the table, which has a body for it, and takes an argument. It
was made in one of the first `count` environments. -/
structure Vouches (table : Table) (count : Nat) (c : Closure) : Prop where
  makes : table.Makes c.body c.params
  body : ∃ found, table.get? c.body = some found
  params : c.params ≠ []
  env : c.env.index < count

/-- The items that make functions refer to structures that exist. -/
theorem exists_body_of_makes {core : Tree} (htable : ofTree core = .ok table) {body : ControlId}
    {params : List Name} (h : table.Makes body params) : ∃ found, table.get? body = some found := by
  obtain ⟨code, hcode, rfl, -⟩ := ofTree_eq_ok.1 htable
  have htree := arborescent_ofItems (Tree.depthFirst_of_program hcode)
  obtain ⟨id, found, hfound, hitem⟩ := h
  have hrefers : (ofItems code.asStructures.toList).RefersTo id body :=
    ⟨found, hfound, List.mem_flatMap.2 ⟨_, hitem, List.mem_singleton_self body⟩⟩
  have hid : id.index < (ofItems code.asStructures.toList).size :=
    (Array.getElem?_eq_some_iff.1 hfound).1
  have hbody := (htree.reaches_entry body).1 (((htree.reaches_entry id).2 hid).tail hrefers)
  exact ⟨_, Array.getElem?_eq_getElem hbody⟩

/-- The table of a program vouches for the functions that are made by its items. -/
theorem vouches_of_sourced {core : Tree} (htable : ofTree core = .ok table)
    (h : Sourced table count c) : table.Vouches count c := by
  obtain ⟨hmakes, henv⟩ := h
  obtain ⟨-, binder, hbinder⟩ := Program.exists_binder_of_makes htable hmakes
  exact ⟨hmakes, exists_body_of_makes htable hmakes, Tree.ne_nil_of_boundNames hbinder, henv⟩

end Control.Table

/-- No function of a program and no partial application is bound at the root, at any depth. -/
def Machine.Settings.Plain (settings : Settings) : Prop :=
  ∀ binding ∈ settings.bindings, ∀ u : Value, u.Part binding.2 → u.Plain

namespace Machine.Settings

variable {settings : Settings}

theorem Plain.throughout (h : settings.Plain) (P : Closure → Prop) :
    settings.Throughout (Value.Accounted P) :=
  fun binding hbinding u hu => (Value.inherited_accounted P).plain (h binding hbinding u hu)

theorem Plain.codeless (h : settings.Plain) : settings.Codeless :=
  fun binding hbinding => Value.all_iff.2 fun u hu =>
    (Value.inherited_ofFunction _).plain (h binding hbinding u hu)

end Machine.Settings

namespace Program

variable {tree : Tree} {table : Table} {settings : Settings}

/-- **Every function in a run is one of the program.** A program that compiles can be executed, and
if the host has bound no functions and no partial applications, then whatever value lies on the
operand stack, is bound in an environment, was shown or is the value of the run, after any number of
turns, and whatever occurs in it: a function, also a recursive one, has its body and its parameters
from an item of the table, the body exists, there is a parameter, and the environment that it was
made in exists; and a partial application is that of `Conc` to one argument. So `Conc` never fails
for want of a first string. -/
theorem functions_accounted (hcompile : compile tree = .ok table) (hplain : settings.Plain) :
    ∃ start, load table settings = .ok (⟨table, settings.budget⟩, start) ∧ ∀ fuel,
      (∀ v, (advance ⟨table, settings.budget⟩ fuel start).Holds v → ∀ u : Value, u.Part v →
        u.Accounted
          (table.Vouches (advance ⟨table, settings.budget⟩ fuel start).state.envs.size)) ∧
      ∀ s, advance ⟨table, settings.budget⟩ fuel start ≠ .failed .unreceived s := by
  rw [compile] at hcompile
  obtain ⟨desugared, -, htable⟩ := bind_eq_ok.1 hcompile
  obtain ⟨items, -, hload⟩ := exists_load htable settings
  refine ⟨_, hload, fun fuel => ⟨fun v hv => ?_, fun s hs => advance_ne_unreceived hs rfl⟩⟩
  have htraced : Traced (Machine.mk table settings.budget).table (startState settings items) :=
    load_traced hplain.codeless hload
  have hrun := advance_accounted fuel htraced
    (load_throughout (Value.inherited_accounted _) hload (hplain.throughout _))
  have hparts := hrun.holds hv
  exact hparts.mono fun u hu => hu.mono fun c hc => Table.vouches_of_sourced htable hc

/-- `let rec f = fn x. x in (f, Conc 'a')`. -/
def recursiveAndPartial : Tree :=
  let f : Tree := .identifier ⟨17⟩
  let x : Tree := .identifier ⟨18⟩
  .of .letIn [.of .recursive [.define f (.lambda x x)],
    .of .tau [f, .apply (.identifier .conc) (.leaf (.string "a"))]]

theorem functions_accounted_recursiveAndPartial :
    let f : Closure := ⟨⟨2⟩, [⟨17⟩], .root⟩
    ∃ table start s, compile recursiveAndPartial = .ok table ∧ ({} : Settings).Plain ∧
      load table {} = .ok (⟨table, none⟩, start) ∧
      advance ⟨table, none⟩ 20 start =
        .halted (.tuple [.eta f, .partialApp .conc [.string "a"]]) s ∧
      s.envs.size = 2 ∧ table.Vouches 2 f := by
  intro f
  have hcompile : compile recursiveAndPartial = .ok _ := rfl
  have hplain : ({} : Settings).Plain := fun _ h => absurd h List.not_mem_nil
  obtain ⟨start, hload, hruns⟩ := functions_accounted hcompile hplain
  obtain rfl := (Prod.mk.inj (Except.ok.inj hload)).2
  refine ⟨_, _, _, hcompile, hplain, hload, rfl, rfl, ?_⟩
  -- The value is a tuple, and the recursive function is its first component.
  exact (hruns 20).1 _ (.final _) (.eta f) (.inside List.mem_cons_self .self)

end Program

end EagerLambda
