import Stylesheet.Parse
import Stylesheet.Proofs.Arena.Acyclic
import Stylesheet.Proofs.Json.Tree

/-!
# The JSON text of an arena

The JSON text is that of the arena's tree. It determines the tree, so it determines the text, and
of a stylesheet that has been parsed and not edited it determines the arena, down to the numbers.
Edits leave nodes behind that are in no list, so in general it does not.
-/

namespace Stylesheet

namespace Arena

def json? (a : Arena) : Option String :=
  a.tree?.map fun t ↦ t.toJson.text

end Arena

end Stylesheet
