import Stylesheet.Node.Size
import Stylesheet.Options
import Stylesheet.Parse.Step
import Stylesheet.Token.Lexer

/-!
# Parsing

`read` reports the events of a parse and its result, a tree or an error; `parse` gives the result
alone.
-/

namespace Stylesheet

structure Outcome where
  events : List Event
  result : Except ParseError Tree

namespace Parse

def start (context : Context) (text : String) (tokens : List Token) : State where
  log := [.parsing context.strict text.utf8ByteSize, .tokenized tokens.length]

def run (context : Context) (text : String) (tokens : List Token) : Except Failure State := do
  let s ← tokens.foldlM (State.step context) (start context text tokens)
  s.finish context

end Parse

def read (options : Options) (text : String) : Outcome :=
  let context : Parse.Context := ⟨options.strict, options.file⟩
  match Parse.run context text (tokenize text) with
  | .ok s =>
    let tree := s.tree context.file
    ⟨(.parsed tree.size :: s.log).reverse, .ok tree⟩
  | .error failure =>
    ⟨failure.log.reverse, .error ⟨failure.kind, failure.position, text, context.file⟩⟩

def parse (options : Options) (text : String) : Except ParseError Tree :=
  (read options text).result

end Stylesheet
