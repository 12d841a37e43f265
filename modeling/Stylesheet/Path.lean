/-!
# Absolute file paths

A path is made absolute without looking at any file, as seen from the topmost directory. Repeated
slashes and components that name the directory they stand in disappear; those that lead to the
parent directory stay, for what they mean depends on links. Two slashes at the start, but not
more, are a root of their own, and a slash at the end stays. The empty path names nothing and has
no absolute form.

Paths are told apart by whether they start at a root and by their components. How many slashes
they start or end with makes no difference, so each path has a canonical spelling.
-/

namespace Stylesheet.Path

def root : List Char → String
  | '/' :: '/' :: '/' :: _ => "/"
  | '/' :: '/' :: _ => "//"
  | _ => "/"

def components (path : String) : List String :=
  (path.splitOn "/").filter fun name ↦ name != "" && name != "."

def absolute? (path : String) : Option String :=
  if path.isEmpty then none
  else
    let names := components path
    let closing := if path.toList.getLast? == some '/' && !names.isEmpty then "/" else ""
    some (root path.toList ++ "/".intercalate names ++ closing)

def canonical (path : String) : String :=
  let names := "/".intercalate (components path)
  if path.toList.head? == some '/' then "/" ++ names else names

end Stylesheet.Path
