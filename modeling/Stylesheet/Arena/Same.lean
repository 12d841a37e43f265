import Stylesheet.Arena.Basic
import Stylesheet.Error
import Stylesheet.Path

/-!
# Sameness of results

Two results are the same if they agree in everything, numbers and positions included. The files
they name are compared as paths and not as texts.
-/

namespace Stylesheet

def Source.mapFile (f : Option String → Option String) (source : Source) : Source :=
  { source with file := f source.file }

namespace Arena

def mapFile (f : Option String → Option String) (a : Arena) : Arena :=
  { a with
    entries := a.entries.map fun entry ↦ { entry with source := entry.source.mapFile f }
    file := f a.file }

def same (a b : Arena) : Bool :=
  a.mapFile (Option.map Path.canonical) = b.mapFile (Option.map Path.canonical)

end Arena

namespace ParseError

def mapFile (f : Option String → Option String) (e : ParseError) : ParseError :=
  { e with file := f e.file }

def same (d e : ParseError) : Bool :=
  d.mapFile (Option.map Path.canonical) = e.mapFile (Option.map Path.canonical)

end ParseError

/-- An arena is never the same as an error. -/
def sameResult : Except ParseError Arena → Except ParseError Arena → Bool
  | .ok a, .ok b => a.same b
  | .error d, .error e => d.same e
  | _, _ => false

end Stylesheet
