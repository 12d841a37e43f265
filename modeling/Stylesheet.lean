import Stylesheet.Arena.Edit
import Stylesheet.Arena.OfTree
import Stylesheet.Arena.Same
import Stylesheet.Json.Tree
import Stylesheet.Node.Printer
import Stylesheet.Parse
import Stylesheet.Proofs.Arena.Boundary
import Stylesheet.Proofs.Arena.Flag
import Stylesheet.Proofs.Arena.Semicolons
import Stylesheet.Proofs.Arena.Shapes
import Stylesheet.Proofs.Arena.Unclosed
import Stylesheet.Proofs.Checked.Lookups
import Stylesheet.Proofs.Parse.Acceptance
import Stylesheet.Proofs.Parse.Append
import Stylesheet.Proofs.Parse.Continued
import Stylesheet.Proofs.Parse.Files
import Stylesheet.Proofs.Parse.Idempotence
import Stylesheet.Proofs.Parse.Modes
import Stylesheet.Proofs.Parse.Outline
import Stylesheet.Proofs.Parse.Rearranged
import Stylesheet.Proofs.Token.Coherent
