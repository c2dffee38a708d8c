import Shellwright.Main
import Shellwright.Suggestion
import Shellwright.Proofs.Batch.Landing
import Shellwright.Proofs.Batch.Lowering
import Shellwright.Proofs.Batch.Cells
import Shellwright.Proofs.Script.Coupling
import Shellwright.Proofs.Agreement
import Shellwright.Proofs.Bash.Capture
import Shellwright.Proofs.Batch.Resolution
import Shellwright.Proofs.Precedence
import Shellwright.Proofs.Batch.Owners
import Shellwright.Proofs.Bash.Lines
import Shellwright.Proofs.CallOrder
import Shellwright.Proofs.Bash.Calling
import Shellwright.Proofs.Bash.Bodies
import Shellwright.Proofs.Layout.Alike
import Shellwright.Proofs.Layout.Source
import Shellwright.Proofs.Token.Tiling
import Shellwright.Proofs.Token.Spelling
import Shellwright.Proofs.Hidden.Source
import Shellwright.Proofs.Batch.Fragments
import Shellwright.Proofs.Bash.Fragments
import Shellwright.Proofs.Parse.Namespaces
import Shellwright.Proofs.Rendering.Inversion
import Shellwright.Proofs.Bash.Lowering
import Shellwright.Proofs.Build.Delivery
import Shellwright.Proofs.Batch.LineEnds
import Shellwright.Proofs.Token.Integers
import Shellwright.Proofs.Progress.Source
import Shellwright.Proofs.Token.LineFeeds
import Shellwright.Proofs.Batch.Literals
import Shellwright.Proofs.Bash.Literals
import Shellwright.Proofs.Bash.Readable
import Shellwright.Proofs.Batch.Cleanup
import Shellwright.Proofs.Batch.Margin
import Shellwright.Proofs.Batch.Placement
import Shellwright.Proofs.Bash.LocalState
import Shellwright.Proofs.Suggestion
