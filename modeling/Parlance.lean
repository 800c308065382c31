import Parlance.Main
import Parlance.Recipe
import Parlance.Script.Build
import Parlance.Demo.Sleep
import Parlance.Proofs.Reading.Termination
import Parlance.Proofs.Reading.Tree
import Parlance.Proofs.Running.Barrier
import Parlance.Proofs.Running.CallByValue
import Parlance.Proofs.Reading.Locality
import Parlance.Proofs.Running.Completion
import Parlance.Proofs.Grammar.Derivation
import Parlance.Proofs.Grammar.Exits
import Parlance.Proofs.Running.Modes
import Parlance.Proofs.Running.CriticalPath
import Parlance.Proofs.Files.Commands
import Parlance.Proofs.Reading.Blame
import Parlance.Proofs.Reading.Moves
import Parlance.Proofs.Vocabulary.Extension
import Parlance.Proofs.Vocabulary.Registration
import Parlance.Proofs.Decimal.Rounding
import Parlance.Proofs.Decimal.WholeNumbers
import Parlance.Proofs.Running.InTurn
import Parlance.Proofs.Reading.Closing
import Parlance.Proofs.Rendering.Columns
import Parlance.Proofs.Rendering.Documents
import Parlance.Proofs.Rendering.Recovery
import Parlance.Proofs.Text.Spacing
import Parlance.Proofs.Cli.Arguments
import Parlance.Proofs.Spans
