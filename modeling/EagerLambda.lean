import EagerLambda.Handle
import EagerLambda.NameTable
import EagerLambda.Integer
import EagerLambda.Operator
import EagerLambda.Tree
import EagerLambda.Error
import EagerLambda.Tree.Desugar
import EagerLambda.Chain
import EagerLambda.Control.Table
import EagerLambda.Control.Fragment
import EagerLambda.Builtin
import EagerLambda.Value
import EagerLambda.Value.Display
import EagerLambda.Operator.Apply
import EagerLambda.Builtin.Apply
import EagerLambda.Environment
import EagerLambda.Printer
import EagerLambda.Machine.State
import EagerLambda.Machine.Step
import EagerLambda.Machine.Trace
import EagerLambda.Program
import EagerLambda.Proofs.Value.Operations
import EagerLambda.Proofs.Environment.Relation
import EagerLambda.Proofs.Evaluation.Computation
import EagerLambda.Proofs.Evaluation.Evaluate
import EagerLambda.Proofs.Compilation.Correctness
import EagerLambda.Proofs.Compilation.Safety
import EagerLambda.Proofs.Evaluation.Desugar
import EagerLambda.Proofs.Compilation.Hygiene
import EagerLambda.Proofs.Compilation.Acceptance
import EagerLambda.Proofs.Machine.Budget
import EagerLambda.Proofs.Compilation.Scoping
import EagerLambda.Proofs.Compilation.Recursion
import EagerLambda.Proofs.Machine.Isolation
import EagerLambda.Proofs.Control.Decode
import EagerLambda.Proofs.Control.Numbering
import EagerLambda.Proofs.Compilation.Independence
import EagerLambda.Proofs.Compilation.Failure
import EagerLambda.Proofs.Compilation.Progress
import EagerLambda.Proofs.Machine.Captured
import EagerLambda.Proofs.Value.Power
import EagerLambda.Proofs.Tree.Normal
import EagerLambda.Proofs.Compilation.Session
import EagerLambda.Proofs.Compilation.Checked
import EagerLambda.Proofs.Tree.Synonym
import EagerLambda.Proofs.Tree.Account
import EagerLambda.Proofs.Compilation.Unrolling
import EagerLambda.Proofs.Value.Comparison
import EagerLambda.Proofs.Value.Display
import EagerLambda.Proofs.NameTable.Sharing
import EagerLambda.Proofs.Compilation.Provenance
