import Shell.Environment.Family
import Shell.PipeCall
import Shell.Session
import Shell.Proofs.Channel.Books
import Shell.Proofs.Channel.Wakeup
import Shell.Proofs.Pipeline.Determined
import Shell.Proofs.Pipeline.Ends
import Shell.Proofs.Pipeline.Progress
import Shell.Proofs.Exec.Calls
import Shell.Proofs.Exec.Forks
import Shell.Proofs.Exec.Runs
import Shell.Proofs.Exec.Signals
import Shell.Proofs.Exec.Statuses
import Shell.Proofs.Exec.Temporaries
import Shell.Proofs.Exec.Within
import Shell.Proofs.Script.Starts
import Shell.Proofs.Script.Substitutions
import Shell.Proofs.Script.Rereading
import Shell.Proofs.Arithmetic.WholeNumbers
import Shell.Proofs.Token.Literals
import Shell.Proofs.Word.Fields
import Shell.Proofs.Printf.Requoting
import Shell.Proofs.Exec.Listing
import Shell.Proofs.Channel.Ends
import Shell.Proofs.Channel.Delivery
import Shell.Proofs.Exec.Termination
import Shell.Proofs.Word.Quoting
import Shell.Proofs.Exec.Rounds
import Shell.Proofs.Exec.Exports
import Shell.Proofs.Exec.Identifiers
import Shell.Proofs.Arithmetic.SignedConstants
import Shell.Proofs.Arithmetic.Printing
import Shell.Proofs.Script.Positions
import Shell.Proofs.Script.Continuations
import Shell.Proofs.Arithmetic.Compound
import Shell.Proofs.Arithmetic.Constants
import Shell.Proofs.Exec.Relays
import Shell.Proofs.Exec.Assignments
import Shell.Proofs.Word.ReadFields
import Shell.Proofs.Word.LogicalLines
import Shell.Proofs.Test.Trees
import Shell.Proofs.Test.Operands
import Shell.Proofs.Word.Escaping
import Shell.Proofs.Printf.Passes
import Shell.Proofs.Printf.Widths
import Shell.Proofs.Text.Escapes
import Shell.Proofs.Text.Lines
import Shell.Proofs.Printf.Numbers
import Shell.Proofs.Utility.Argv
import Shell.Proofs.Utility.Numbering
import Shell.Proofs.Script.SinglePass
import Shell.Proofs.Word.Backquotes
import Shell.Proofs.Exec.Stops
