import Codemod.Text.Offset

/-!
# JSON Values and their Layout

A JSON value and the one text that this library writes for it: two spaces of
indentation for each level, one item or member on a line, a colon followed by a
space, and an empty array or object closed on the spot. Strings escape what
JSON demands and nothing more, so text in any script stays readable.

Numbers are kept as they are spelled, because only their spelling tells an
integer from a number that happens to have an integral value.

## Main definitions

* `Json`: A JSON value.
* `Json.quote`: A string between its quotes.
* `Json.pretty`: The layout of a value.
-/

namespace Codemod

/-- A JSON value. Members keep their order, and a number its spelling. -/
inductive Json
  | null
  | boolean (value : Bool)
  | number (spelling : Text)
  | string (value : Text)
  | array (items : List Json)
  | object (members : List (Text × Json))

namespace Json

/-- The number that counts `n` things. -/
def natural (n : Nat) : Json := .number (Nat.toDigits 10 n)

def escape (c : Char) : Text :=
  if c = '"' ∨ c = '\\' then ['\\', c]
  else if c = '\x08' then ['\\', 'b']
  else if c = '\x0c' then ['\\', 'f']
  else if c = '\n' then ['\\', 'n']
  else if c = '\r' then ['\\', 'r']
  else if c = '\t' then ['\\', 't']
  else if c.toNat < 0x10 then ['\\', 'u', '0', '0', '0'] ++ Nat.toDigits 16 c.toNat
  else if c.toNat < 0x20 then ['\\', 'u', '0', '0'] ++ Nat.toDigits 16 c.toNat
  else [c]

def quote (s : Text) : Text := '"' :: s.flatMap escape ++ ['"']

/-- The start of a line at nesting depth `n`. -/
def newLine (n : Nat) : Text := '\n' :: List.replicate (2 * n) ' '

/-- Items between two brackets, each on a line of its own one level below
    `depth`. -/
def bracketed (opener closer : Char) (depth : Nat) : List Text → Text
  | [] => [opener, closer]
  | first :: rest =>
    opener :: newLine (depth + 1) ++ first ++
      rest.flatMap (fun item => ',' :: newLine (depth + 1) ++ item) ++ newLine depth ++ [closer]

mutual

/-- The layout of a value at nesting depth `depth`. -/
def prettyAt (depth : Nat) : Json → Text
  | .null => "null".toList
  | .boolean true => "true".toList
  | .boolean false => "false".toList
  | .number spelling => spelling
  | .string value => quote value
  | .array items => bracketed '[' ']' depth (prettyItems (depth + 1) items)
  | .object members => bracketed '{' '}' depth (prettyMembers (depth + 1) members)

def prettyItems (depth : Nat) : List Json → List Text
  | [] => []
  | item :: rest => prettyAt depth item :: prettyItems depth rest

def prettyMembers (depth : Nat) : List (Text × Json) → List Text
  | [] => []
  | (key, value) :: rest =>
    (quote key ++ ": ".toList ++ prettyAt depth value) :: prettyMembers depth rest

end

def pretty (value : Json) : Text := prettyAt 0 value

end Json

end Codemod
