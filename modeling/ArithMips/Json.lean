import ArithMips.Text.Decimal

/-!
# JSON values

JSON values with integers for numbers, and their text over several lines: two blanks of indentation a level, one
item or field a line, and empty lists and objects on one line.
-/

namespace ArithMips

inductive Json where
  | bool (b : Bool)
  | int (z : Int)
  | str (s : Text)
  | arr (items : List Json)
  | obj (fields : List (Text × Json))

namespace Json

/-- A character as it stands inside a JSON string. -/
def escapedChar (c : Char) : Text :=
  if c = '"' then ['\\', '"']
  else if c = '\\' then ['\\', '\\']
  else if c = '\x08' then ['\\', 'b']
  else if c = '\t' then ['\\', 't']
  else if c = '\n' then ['\\', 'n']
  else if c = '\x0c' then ['\\', 'f']
  else if c = '\r' then ['\\', 'r']
  else if c.toNat < 0x20 then
    ['\\', 'u', '0', '0', Nat.digitChar (c.toNat / 16), Nat.digitChar (c.toNat % 16)]
  else [c]

def string (s : Text) : Text := '"' :: s.flatMap escapedChar ++ ['"']

/-- A line break with the indentation of a level. -/
def newline (level : Nat) : Text := '\n' :: List.replicate (2 * level) ' '

/-- The lines of a list or object between its brackets. -/
def block (level : Nat) (opening closing : Char) : List Text → Text
  | [] => [opening, closing]
  | lines =>
    opening :: newline (level + 1) ++ List.intercalate (',' :: newline (level + 1)) lines ++
      newline level ++ [closing]

mutual

/-- The text of a value that stands at the given level. -/
def render (level : Nat) : Json → Text
  | bool true => "true".toList
  | bool false => "false".toList
  | int z => Text.signedDecimal z
  | str s => string s
  | arr items => block level '[' ']' (renderItems (level + 1) items)
  | obj fields => block level '\x7b' '\x7d' (renderFields (level + 1) fields)

def renderItems (level : Nat) : List Json → List Text
  | [] => []
  | item :: rest => render level item :: renderItems level rest

def renderFields (level : Nat) : List (Text × Json) → List Text
  | [] => []
  | (key, value) :: rest => (string key ++ ':' :: ' ' :: render level value) :: renderFields level rest

end

def text (j : Json) : Text := render 0 j

end Json

end ArithMips
