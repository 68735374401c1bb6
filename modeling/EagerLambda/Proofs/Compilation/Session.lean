import EagerLambda.Proofs.Compilation.Transcript

/-!
# Sessions

In a session many programs are read into one table of names and print to one printer. A program is
written with texts for its names; reading it enters these texts, so its handles depend on all that
was read before. What is replied and printed does not: another session, with any other past, replies
to the same program with the same texts and adds the same text to its output.

## Main definitions

- `Source` — a program as it is written, with what the host binds for it
- `Interning`, `Source.read` — reading a program into a table of names
- `Session`, `Session.compile`, `Session.run` — what can be asked of a session
- `Session.Reached` — the sessions that can come about

## Main statements

- `Source.read_renumbered` — two readings of a program are the same up to handles
- `Session.numbering_unobservable` — replies do not depend on the past of a session
-/

namespace EagerLambda

open NameTable Program

-- ════════════════════════════════════════════════════════════════════════
-- Reading
-- ════════════════════════════════════════════════════════════════════════

/-- A program as it is written, and how to run it. A name in it stands for the text that `spelling`
gives to it; several names may stand for one text. -/
structure Source where
  spelling : Name → String
  tree : Tree
  settings : Machine.Settings

/-- Computations that enter texts in a table of names. -/
abbrev Interning (α : Type) := StateT NameTable (Except NameTable.Full) α

/-- The handle of a written name. -/
def Name.read (spelling : Name → String) (x : Name) : Interning Name :=
  fun names => names.intern (spelling x)

def Label.read (spelling : Name → String) : Label → Interning Label
  | atom (.identifier x) => do
    let y ← x.read spelling
    pure (atom (.identifier y))
  | label => pure label

namespace Tree

mutual

/-- The tree with a handle for every written name. Names are entered from left to right. -/
def read (spelling : Name → String) : Tree → Interning Tree
  | node label children => do
    let label ← label.read spelling
    let children ← readAll spelling children
    pure (node label children)

def readAll (spelling : Name → String) : List Tree → Interning (List Tree)
  | [] => pure []
  | tree :: rest => do
    let first ← tree.read spelling
    let others ← readAll spelling rest
    pure (first :: others)

end

end Tree

def Closure.read (spelling : Name → String) (closure : Closure) : Interning Closure := do
  let params ← closure.params.mapM (Name.read spelling)
  pure ⟨closure.body, params, closure.env⟩

namespace Value

mutual

/-- The value with a handle for every written name. -/
def read (spelling : Name → String) : Value → Interning Value
  | tuple components => do
    let components ← readAll spelling components
    pure (tuple components)
  | closure c => do
    let c ← c.read spelling
    pure (closure c)
  | eta c => do
    let c ← c.read spelling
    pure (eta c)
  | partialApp b received => do
    let received ← readAll spelling received
    pure (partialApp b received)
  | value => pure value

def readAll (spelling : Name → String) : List Value → Interning (List Value)
  | [] => pure []
  | value :: rest => do
    let first ← value.read spelling
    let others ← readAll spelling rest
    pure (first :: others)

end

end Value

def readBinding (spelling : Name → String) (binding : Binding) : Interning Binding := do
  let x ← binding.1.read spelling
  let value ← binding.2.read spelling
  pure (x, value)

/-- The settings with a handle for every written name. -/
def Machine.Settings.read (spelling : Name → String) (settings : Settings) :
    Interning Settings := do
  let bindings ← settings.bindings.mapM (readBinding spelling)
  pure { settings with bindings := bindings }

/-- The tree and the settings of a source with handles for all names. -/
def Source.read (source : Source) : Interning (Tree × Machine.Settings) := do
  let tree ← source.tree.read source.spelling
  let settings ← source.settings.read source.spelling
  pure (tree, settings)

-- ════════════════════════════════════════════════════════════════════════
-- What is read
-- ════════════════════════════════════════════════════════════════════════

/-- In this table the handle `y` has the text that the written name `x` stands for. -/
def Spells (spelling : Name → String) (names : NameTable) (x y : Name) : Prop :=
  names.text? y = some (spelling x)

/-- A reader only enters texts, and `A` holds of what it reads in every table made from there on. -/
def Interning.Yields {α : Type} (m : Interning α) (A : NameTable → α → Prop) : Prop :=
  ∀ names a later, m names = .ok (a, later) →
    names.Entered later ∧ ∀ final, later.Entered final → A final a

namespace Interning.Yields

variable {α β : Type} {A : NameTable → α → Prop} {B : NameTable → β → Prop}

theorem pure {a : α} (h : ∀ names, A names a) : (pure a : Interning α).Yields A := by
  intro names a' later hm
  cases hm
  exact ⟨.refl, fun final _ => h final⟩

/-- One reader after the other. -/
theorem bind {m : Interning α} {f : α → Interning β} (h : m.Yields A)
    (hf : ∀ a, (f a).Yields fun names b => A names a → B names b) : (m >>= f).Yields B := by
  intro names b later hm
  obtain ⟨⟨a, between⟩, hfirst, hrest⟩ := bind_eq_ok.1 hm
  obtain ⟨hentered, ha⟩ := h _ _ _ hfirst
  obtain ⟨hentered', hb⟩ := hf a _ _ _ hrest
  exact ⟨hentered.trans hentered',
    fun final hfinal => hb final hfinal (ha final (hentered'.trans hfinal))⟩

/-- The elements of a list are read one after the other. -/
theorem mapM {f : α → Interning β} {C : NameTable → α → β → Prop}
    (hf : ∀ a, (f a).Yields fun names b => C names a b) (xs : List α) :
    (xs.mapM f).Yields fun names ys => List.Forall₂ (C names) xs ys := by
  induction xs with
  | nil => exact .pure fun _ => .nil
  | cons x xs ih =>
    rw [List.mapM_cons]
    exact (hf x).bind fun _ => ih.bind fun _ => .pure fun _ hys hy => .cons hy hys

end Interning.Yields

section Reading

variable (spelling : Name → String)

theorem Name.read_yields (x : Name) :
    (x.read spelling).Yields fun names y => Spells spelling names x y := by
  intro names y later hread
  obtain ⟨htext, -⟩ := intern_spec hread
  exact ⟨.of_intern hread, fun final hfinal => hfinal.text? htext⟩

theorem Label.read_yields (l : Label) :
    (l.read spelling).Yields fun names m => l.Renumbered (Spells spelling names) m := by
  cases l with
  | atom a =>
    cases a with
    | identifier x =>
      exact (x.read_yields spelling).bind fun _ => .pure fun _ hxy => .atom (.identifier hxy)
    | _ => exact .pure fun _ => .atom (.constant fun _ h => by cases h)
  | construct c => exact .pure fun _ => .construct c
  | binary op => exact .pure fun _ => .binary op
  | unary op => exact .pure fun _ => .unary op

theorem Tree.readAll_yields {ts : List Tree}
    (ih : ∀ t ∈ ts, (t.read spelling).Yields fun names u =>
      t.Renumbered (Spells spelling names) u) :
    (readAll spelling ts).Yields fun names us =>
      List.Forall₂ (Renumbered (Spells spelling names)) ts us := by
  induction ts with
  | nil =>
    rw [readAll]
    exact .pure fun _ => .nil
  | cons t ts ihs =>
    rw [List.forall_mem_cons] at ih
    rw [readAll]
    exact ih.1.bind fun _ => (ihs ih.2).bind fun _ => .pure fun _ hus hu => .cons hu hus

/-- What is read has the shape of what is written, and its handles have the texts that stand
there. -/
theorem Tree.read_yields (t : Tree) :
    (t.read spelling).Yields fun names u => t.Renumbered (Spells spelling names) u := by
  induction t using children_induction with
  | node label children ih =>
    rw [read]
    exact (label.read_yields spelling).bind fun _ => (readAll_yields spelling ih).bind fun _ =>
      .pure fun _ hchildren hlabel => .node hlabel hchildren

theorem Closure.read_yields (c : Closure) :
    (c.read spelling).Yields fun names d => c.Renumbered (Spells spelling names) d :=
  (Interning.Yields.mapM (Name.read_yields spelling) c.params).bind fun _ =>
    .pure fun _ hparams => ⟨rfl, hparams, rfl⟩

theorem Value.readAll_yields {vs : List Value}
    (ih : ∀ v ∈ vs, (v.read spelling).Yields fun names w =>
      v.Renumbered (Spells spelling names) w) :
    (readAll spelling vs).Yields fun names ws =>
      List.Forall₂ (Value.Renumbered (Spells spelling names)) vs ws := by
  induction vs with
  | nil =>
    rw [readAll]
    exact .pure fun _ => .nil
  | cons v vs ihs =>
    rw [List.forall_mem_cons] at ih
    rw [readAll]
    exact ih.1.bind fun _ => (ihs ih.2).bind fun _ => .pure fun _ hws hw => .cons hw hws

theorem Value.read_yields (v : Value) :
    (v.read spelling).Yields fun names w => v.Renumbered (Spells spelling names) w := by
  induction v using parts_induction with
  | tuple vs ih =>
    rw [read]
    exact (readAll_yields spelling ih).bind fun _ => .pure fun _ hvs => .tuple hvs
  | partialApp b vs ih =>
    rw [read]
    exact (readAll_yields spelling ih).bind fun _ => .pure fun _ hvs => .partialApp b hvs
  | closure c =>
    rw [read]
    exact (c.read_yields spelling).bind fun _ => .pure fun _ hc => .closure hc
  | eta c =>
    rw [read]
    exact (c.read_yields spelling).bind fun _ => .pure fun _ hc => .eta hc
  | integer n => exact .pure fun _ => .integer n
  | truth b => exact .pure fun _ => .truth b
  | string s => exact .pure fun _ => .string s
  | dummy => exact .pure fun _ => .dummy
  | fixpoint => exact .pure fun _ => .fixpoint
  | builtin b => exact .pure fun _ => .builtin b

theorem readBinding_yields (b : Binding) :
    (readBinding spelling b).Yields fun names c => BindingRenumbered (Spells spelling names) b c :=
  (b.1.read_yields spelling).bind fun _ => (b.2.read_yields spelling).bind fun _ =>
    .pure fun _ hvalue hname => ⟨hname, hvalue⟩

theorem Machine.Settings.read_yields (settings : Settings) :
    (settings.read spelling).Yields fun names settings' =>
      settings.Renumbered (Spells spelling names) settings' :=
  (Interning.Yields.mapM (readBinding_yields spelling) settings.bindings).bind fun _ =>
    .pure fun _ hbindings => ⟨rfl, rfl, hbindings⟩

theorem Source.read_yields (source : Source) :
    source.read.Yields fun names program =>
      source.tree.Renumbered (Spells source.spelling names) program.1 ∧
        source.settings.Renumbered (Spells source.spelling names) program.2 :=
  (source.tree.read_yields source.spelling).bind fun _ =>
    (source.settings.read_yields source.spelling).bind fun _ =>
      .pure fun _ hsettings htree => ⟨htree, hsettings⟩

end Reading

/-- Two readings of a source, into any two tables, are the same up to handles. -/
theorem Source.read_renumbered {source : Source} {names names' later later' : NameTable}
    {program program' : Tree × Machine.Settings} (hread : source.read names = .ok (program, later))
    (hread' : source.read names' = .ok (program', later')) :
    program.1.Renumbered (SameText later later') program'.1 ∧
      program.2.Renumbered (SameText later later') program'.2 := by
  obtain ⟨-, hspelled⟩ := source.read_yields _ _ _ hread
  obtain ⟨-, hspelled'⟩ := source.read_yields _ _ _ hread'
  obtain ⟨htree, hsettings⟩ := hspelled _ .refl
  obtain ⟨htree', hsettings'⟩ := hspelled' _ .refl
  have hsame : ∀ x y z, Spells source.spelling later x y → Spells source.spelling later' x z →
      SameText later later' y z := fun _ _ _ hy hz => ⟨_, hy, hz⟩
  exact ⟨htree.fork hsame htree', hsettings.fork hsame hsettings'⟩

-- ════════════════════════════════════════════════════════════════════════
-- Printing
-- ════════════════════════════════════════════════════════════════════════

/-- Prints lines one after the other. -/
def Printer.printLines (printer : Printer) (lines : List String) : Printer :=
  lines.foldl printLine printer

theorem Printer.printValues_eq (printer : Printer) (names : NameTable) (values : List Value) :
    printer.printValues names values = printer.printLines (values.map (Value.display names)) := by
  rw [printValues, printLines, List.foldl_map]

/-- Whatever a buffer has kept already, lines are added to it in the same way. -/
theorem Printer.exists_added (lines : List String) :
    ∃ added, ∀ kept, (buffer kept).printLines lines = buffer (kept ++ added) := by
  induction lines with
  | nil => exact ⟨"", fun kept => by rw [String.append_empty]; rfl⟩
  | cons line rest ih =>
    obtain ⟨added, hadded⟩ := ih
    refine ⟨line ++ "\n" ++ added, fun kept => ?_⟩
    have hrest : (buffer kept).printLines (line :: rest) =
        buffer (kept ++ line ++ "\n" ++ added) := hadded _
    simpa only [String.append_assoc] using hrest

-- ════════════════════════════════════════════════════════════════════════
-- Sessions
-- ════════════════════════════════════════════════════════════════════════

/-- The table of names and the printer that many programs share. -/
structure Session where
  names : NameTable
  printer : Printer

namespace Session

/-- A session in which nothing has happened yet. -/
def start (printer : Printer) : Session := ⟨.initial, printer⟩

/-- Reads a program and compiles it. -/
def compile (source : Source) (session : Session) :
    Except NameTable.Full (Except Error.Account (String × Nat) × Session) := do
  let (program, names) ← source.read session.names
  .ok (listing names program.1, { session with names := names })

/-- Reads a program and runs it. There is no reply if the run is not over after `fuel` turns. -/
def run (fuel : Nat) (source : Source) (session : Session) :
    Except NameTable.Full (Option (Transcript × Session)) := do
  let (program, names) ← source.read session.names
  .ok ((Program.run fuel program.2 program.1).map fun report =>
    (report.transcript names, ⟨names, session.printer.printValues names report.shown⟩))

/-- The sessions that can come about: texts may be entered, programs compiled and run, and the
output cleared, in any order. -/
inductive Reached : Session → Prop
  | start (printer : Printer) : Reached (start printer)
  | enter {session : Session} {text : String} {x : Name} {names : NameTable} : Reached session →
      session.names.intern text = .ok (x, names) → Reached { session with names := names }
  | compile {session after : Session} {source : Source}
      {reply : Except Error.Account (String × Nat)} : Reached session →
      session.compile source = .ok (reply, after) → Reached after
  | run {session after : Session} {fuel : Nat} {source : Source} {reply : Transcript} :
      Reached session → session.run fuel source = .ok (some (reply, after)) → Reached after
  | clear {session : Session} : Reached session →
      Reached { session with printer := session.printer.clear }

theorem Reached.sound {session : Session} (h : session.Reached) : session.names.Sound := by
  induction h with
  | start printer => exact initial_sound
  | enter _ hintern ih => exact ih.intern hintern
  | compile _ hcompile ih =>
    obtain ⟨⟨program, names⟩, hread, hreply⟩ := bind_eq_ok.1 hcompile
    cases hreply
    exact (Source.read_yields _ _ _ _ hread).1.sound ih
  | run _ hrun ih =>
    obtain ⟨⟨program, names⟩, hread, hreply⟩ := bind_eq_ok.1 hrun
    obtain ⟨report, -, hafter⟩ := Option.map_eq_some_iff.1 (Except.ok.inj hreply)
    cases hafter
    exact (Source.read_yields _ _ _ _ hread).1.sound ih
  | clear _ ih => exact ih

/-- The replies have the same texts and counts, and what is added to the output of the one session
is added to that of the other. -/
structure SameReply (session session' : Session) (reply reply' : Transcript × Session) :
    Prop where
  transcript : reply.1 = reply'.1
  added : ∃ added, (∀ kept, session.printer = .buffer kept →
      reply.2.printer = .buffer (kept ++ added)) ∧
    ∀ kept, session'.printer = .buffer kept → reply'.2.printer = .buffer (kept ++ added)

/-- The reply to a run and what it adds to the output depend on its transcript only. -/
theorem sameReply_of_transcript {session session' : Session} {names names' : NameTable}
    {report report' : Report} (h : report.transcript names = report'.transcript names') :
    SameReply session session'
      (report.transcript names, ⟨names, session.printer.printValues names report.shown⟩)
      (report'.transcript names', ⟨names', session'.printer.printValues names' report'.shown⟩) := by
  obtain ⟨added, hadded⟩ := Printer.exists_added (report.transcript names).lines
  have hlines : report'.shown.map (Value.display names') = (report.transcript names).lines :=
    (congrArg Transcript.lines h).symm
  refine ⟨h, added, fun kept hkept => ?_, fun kept hkept => ?_⟩
  · simp only [hkept, Printer.printValues_eq]
    exact hadded kept
  · simp only [hkept, Printer.printValues_eq, hlines]
    exact hadded kept

/-- **Replies do not depend on the past of a session.** A program that two sessions can read,
whatever was entered, compiled or run in them before, is compiled to the same listing or refused
with the same error in both. A run of it is over in both or in neither, with the same error, in
kind, message and fields, or the same value, type name and counts; it prints the same lines and adds
the same text to the output. -/
theorem numbering_unobservable {session session' : Session} (h : session.Reached)
    (h' : session'.Reached) {source : Source}
    {made made' : Except Error.Account (String × Nat) × Session}
    (hmade : session.compile source = .ok made) (hmade' : session'.compile source = .ok made') :
    made.1 = made'.1 ∧ ∀ fuel, ∃ reply reply', session.run fuel source = .ok reply ∧
      session'.run fuel source = .ok reply' ∧
      Option.Rel (SameReply session session') reply reply' := by
  obtain ⟨⟨program, names⟩, hread, hmade⟩ := bind_eq_ok.1 hmade
  obtain ⟨⟨program', names'⟩, hread', hmade'⟩ := bind_eq_ok.1 hmade'
  cases hmade
  cases hmade'
  obtain ⟨hentered, -⟩ := source.read_yields _ _ _ hread
  obtain ⟨hentered', -⟩ := source.read_yields _ _ _ hread'
  have hR : Renumbering (SameText names names') :=
    (hentered.sound h.sound).renumbering (hentered'.sound h'.sound)
  obtain ⟨htree, hsettings⟩ := Source.read_renumbered hread hread'
  refine ⟨listing_eq hR htree, fun fuel => ⟨_, _, bind_eq_ok.2 ⟨_, hread, rfl⟩,
    bind_eq_ok.2 ⟨_, hread', rfl⟩, ?_⟩⟩
  have hrun := run_renumbered hR htree hsettings fuel
  generalize Program.run fuel program.2 program.1 = r at hrun ⊢
  generalize Program.run fuel program'.2 program'.1 = r' at hrun ⊢
  cases hrun with
  | none => exact .none
  | some hreport => exact .some (sameReply_of_transcript hreport.transcript_eq)

/-- `let f x = y in (Print f) 1`, in which `y` is not bound. -/
def unboundCall : Source where
  spelling x := ["f", "x", "y", "Print"].getD x.index ""
  tree := .of .letIn [.of .functionForm [.identifier ⟨0⟩, .identifier ⟨1⟩, .identifier ⟨2⟩],
    .apply (.apply (.identifier ⟨3⟩) (.identifier ⟨0⟩)) (.leaf (.integer 1))]
  settings := {}

/-- A session in which something was read and printed already. -/
def used : Session := ⟨⟨Name.reservedTexts ++ ["y"]⟩, .buffer "before\n"⟩

theorem numbering_unobservable_unboundCall :
    ∃ made made', (start (.buffer "")).compile unboundCall = .ok made ∧
      used.compile unboundCall = .ok made' ∧ made.2.names ≠ made'.2.names ∧ made.1 = made'.1 ∧
      (∀ fuel, ∃ reply reply', (start (.buffer "")).run fuel unboundCall = .ok reply ∧
        used.run fuel unboundCall = .ok reply' ∧
        Option.Rel (SameReply (start (.buffer "")) used) reply reply') ∧
      used.run 30 unboundCall = .ok (some
        (⟨.error ⟨"UnboundVariable", "unbound variable: y", [("name", "y")]⟩,
          ["[lambda closure: x: 2]"]⟩,
          ⟨⟨Name.reservedTexts ++ ["y", "f", "x"]⟩,
            .buffer "before\n[lambda closure: x: 2]\n"⟩)) := by
  have hentered : NameTable.initial.intern "y" = .ok (⟨17⟩, used.names) := rfl
  have hused : used.Reached := .enter (.start (.buffer "before\n")) hentered
  have hcompile : (start (.buffer "")).compile unboundCall = .ok _ := rfl
  have hcompile' : used.compile unboundCall = .ok _ := rfl
  obtain ⟨hlisting, hrun⟩ := numbering_unobservable (.start _) hused hcompile hcompile'
  refine ⟨_, _, hcompile, hcompile', by decide, hlisting, hrun, ?_⟩
  rfl

end Session

end EagerLambda
