import EagerLambda.Value.Display

/-!
# Printers

A printer is where shown values go. A buffer keeps them, each on a line of its own, until it is
cleared; the other printers keep nothing.

## Main definitions

- `Printer` — the destinations
- `Printer.printLine`, `Printer.printValues`, `Printer.clear` — what can be done with one
- `Printer.output` — what a printer has kept
-/

namespace EagerLambda

/-- A destination for shown values. -/
inductive Printer
  /-- Keeps everything. -/
  | buffer (kept : String)
  /-- Drops everything. -/
  | silent
  /-- Passes everything on to the terminal and keeps nothing. -/
  | terminal
  deriving DecidableEq, Repr, Inhabited

namespace Printer

/-- Prints a line. -/
def printLine (printer : Printer) (line : String) : Printer :=
  match printer with
  | buffer kept => buffer (kept ++ line ++ "\n")
  | silent => silent
  | terminal => terminal

/-- Prints values, each on a line of its own. -/
def printValues (printer : Printer) (names : NameTable) (values : List Value) : Printer :=
  values.foldl (fun printer value => printer.printLine (value.display names)) printer

/-- Forgets what was kept. -/
def clear : Printer → Printer
  | buffer _ => buffer ""
  | silent => silent
  | terminal => terminal

/-- Everything printed since the start or the last clearing, if the printer keeps it. -/
def output : Printer → String
  | buffer kept => kept
  | silent => ""
  | terminal => ""

end Printer

end EagerLambda
