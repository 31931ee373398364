import Monkey.Main
import Monkey.Proofs.Grammar.Derivation
import Monkey.Session
import Monkey.Token.Stream
import Monkey.Token.Window
import Monkey.Proofs.Grammar.Budget
import Monkey.Proofs.Grammar.Exactness
import Monkey.Proofs.Evaluation.Budget
import Monkey.Proofs.Evaluation.Reference
import Monkey.Proofs.Evaluation.ReferenceClean
import Monkey.Proofs.Evaluation.Refinement
import Monkey.Proofs.Isolation.Operations
import Monkey.Proofs.Isolation.World
import Monkey.Proofs.Isolation.Changes
import Monkey.Proofs.Isolation.Simulation
import Monkey.Proofs.Isolation.Reachable
import Monkey.Proofs.Isolation.Steps
import Monkey.Proofs.Isolation.Families
import Monkey.Proofs.Isolation.Interleaving
import Monkey.Proofs.Output.Trace
import Monkey.Proofs.Output.Limit
import Monkey.Proofs.Output.Cut
import Monkey.Proofs.Spelling.Tokens
import Monkey.Proofs.Spelling.Numbers
import Monkey.Proofs.Spelling.Pieces
import Monkey.Proofs.Grammar.Monotone
import Monkey.Proofs.Hashes.Order
import Monkey.Proofs.Writing.Written
import Monkey.Proofs.Writing.RoundTrip
import Monkey.Proofs.Writing.Printed
import Monkey.Proofs.Writing.Data
import Monkey.Proofs.Writing.Canonical
import Monkey.Proofs.Joining.Texts
import Monkey.Proofs.Joining.Words
import Monkey.Proofs.Joining.Programs
import Monkey.Proofs.Joining.Runs
import Monkey.Proofs.Spelling.Lexemes
import Monkey.Proofs.Evaluation.Unnoticed
import Monkey.Proofs.Output.Sinks
import Monkey.Proofs.Output.Contents
import Monkey.Proofs.Dialogue.Lines
import Monkey.Proofs.Dialogue.Parts
import Monkey.Proofs.Dialogue.Transcript
import Monkey.Proofs.Dialogue.Cut
import Monkey.Proofs.Grammar.Calls
import Monkey.Proofs.Grammar.Termination
import Monkey.Proofs.Evaluation.Keeps
import Monkey.Proofs.Scopes.Writes
import Monkey.Proofs.Markers.Tight
import Monkey.Proofs.Failures.Reaches
import Monkey.Proofs.Failures.Contained
import Monkey.Proofs.Evaluation.Parts
import Monkey.Proofs.Arithmetic.Wrapping
import Monkey.Proofs.Hashes.LastWrite
import Monkey.Proofs.Grammar.Brackets
import Monkey.Proofs.Markers.Kept
import Monkey.Proofs.Scopes.Actions
import Monkey.Proofs.Spelling.Producible
import Monkey.Proofs.Spelling.Delivery
import Monkey.Proofs.Arrays.Builtins
import Monkey.Proofs.Equality.Values
import Monkey.Proofs.Equality.Origins
import Monkey.Proofs.Equality.Identity
import Monkey.Proofs.Grammar.Leaves
import Monkey.Proofs.Names.Images
import Monkey.Proofs.Names.Heaps
import Monkey.Proofs.Names.Runs
import Monkey.Proofs.Evaluation.Bodies
