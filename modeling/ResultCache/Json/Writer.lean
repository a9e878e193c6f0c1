/-!
Writing JSON without spaces. In string literals the quote, the backslash and the controls below
U+0020 are escaped; every other character stands for itself.
-/

namespace ResultCache.Json

/-- What stands for one character inside a literal. Controls without a letter of their own get
their four hexadecimal digits. -/
def quoteChar (c : Char) : List Char :=
  match c with
  | '"' => ['\\', '"']
  | '\\' => ['\\', '\\']
  | '\x08' => ['\\', 'b']
  | '\t' => ['\\', 't']
  | '\n' => ['\\', 'n']
  | '\x0c' => ['\\', 'f']
  | '\r' => ['\\', 'r']
  | c =>
    if c.toNat < 0x20 then
      ['\\', 'u', '0', '0', Nat.digitChar (c.toNat / 16), Nat.digitChar (c.toNat % 16)]
    else [c]

def quote (text : String) : List Char :=
  '"' :: text.toList.flatMap quoteChar ++ ['"']

def boolText (b : Bool) : List Char :=
  if b then ['t', 'r', 'u', 'e'] else ['f', 'a', 'l', 's', 'e']

def separated : List (List Char) → List Char
  | [] => []
  | first :: rest => first ++ rest.flatMap (',' :: ·)

def arrayText (items : List (List Char)) : List Char := '[' :: separated items ++ [']']

def memberText (name : String) (value : List Char) : List Char := quote name ++ ':' :: value

def objectText (members : List (List Char)) : List Char := '{' :: separated members ++ ['}']

end ResultCache.Json
