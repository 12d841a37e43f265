/-!
# JSON text

Values as far as trees need them, and their compact text: no spaces, members in the order given.
Quotes, backslashes and control characters are escaped, by a letter where JSON has one; every
other character stands for itself.
-/

namespace Stylesheet

inductive Json where
  | bool (value : Bool)
  | number (value : Nat)
  | string (value : String)
  | list (items : List Json)
  /-- Members keep the order they are given in. -/
  | object (members : List (String × Json))

namespace Json

def hexDigit (n : Nat) : Char :=
  if n < 10 then Char.ofNat ('0'.toNat + n) else Char.ofNat ('a'.toNat + (n - 10))

def escape (c : Char) : List Char :=
  match c with
  | '"' => ['\\', '"']
  | '\\' => ['\\', '\\']
  | '\x08' => ['\\', 'b']
  | '\x0c' => ['\\', 'f']
  | '\n' => ['\\', 'n']
  | '\r' => ['\\', 'r']
  | '\t' => ['\\', 't']
  | c =>
    if c.toNat < 32 then ['\\', 'u', '0', '0', hexDigit (c.toNat / 16), hexDigit (c.toNat % 16)]
    else [c]

def addString (out : String) (s : String) : String :=
  (s.toList.foldl (fun out c ↦ (escape c).foldl String.push out) (out.push '"')).push '"'

mutual

def addTo (out : String) : Json → String
  | bool true => out ++ "true"
  | bool false => out ++ "false"
  | number n => out ++ n.repr
  | string s => addString out s
  | list [] => out ++ "[]"
  | list (j :: items) => (addItems (addTo (out.push '[') j) items).push ']'
  | object [] => out ++ "\x7b\x7d"
  | object ((key, j) :: members) =>
    (addMembers (addTo ((addString (out.push '{') key).push ':') j) members).push '}'

def addItems (out : String) : List Json → String
  | [] => out
  | j :: items => addItems (addTo (out.push ',') j) items

def addMembers (out : String) : List (String × Json) → String
  | [] => out
  | (key, j) :: members =>
    addMembers (addTo ((addString (out.push ',') key).push ':') j) members

end

def text (j : Json) : String :=
  addTo "" j

end Json

end Stylesheet
