import Stylesheet.Path

/-!
# Options

Strict parsing fails where lenient parsing repairs. The path of the stylesheet is noted in its
nodes and errors and has no other use.
-/

namespace Stylesheet

structure Options where
  strict : Bool := false
  path : Option String := none
  deriving DecidableEq, Repr

/-- The path as it is noted: absolute, or as given if it has no absolute form. -/
def Options.file (options : Options) : Option String :=
  options.path.map fun path ↦ (Path.absolute? path).getD path

end Stylesheet
