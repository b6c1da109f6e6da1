import BranchBound.Json

/-!
# Writing JSON

Values are written over several lines, each level of nesting indented by two
spaces.  In strings only quotes, backslashes and control characters are escaped.
-/

namespace BranchBound.Json

/-- A hexadecimal digit. -/
def hexDigit (n : Nat) : Char :=
  if n < 10 then Char.ofNat ('0'.toNat + n) else Char.ofNat ('a'.toNat + (n - 10))

/-- A character inside quotes. -/
def escapeChar (c : Char) : List Char :=
  if c == '"' then ['\\', '"']
  else if c == '\\' then ['\\', '\\']
  else if c == '\x08' then ['\\', 'b']
  else if c == '\x0c' then ['\\', 'f']
  else if c == '\n' then ['\\', 'n']
  else if c == '\r' then ['\\', 'r']
  else if c == '\t' then ['\\', 't']
  else if c.toNat < 0x20 then
    ['\\', 'u', '0', '0', hexDigit (c.toNat / 16), hexDigit (c.toNat % 16)]
  else [c]

/-- A text in quotes. -/
def quoted (s : String) : String :=
  "\"" ++ String.ofList (s.toList.flatMap escapeChar) ++ "\""

/-- A new line at some level of nesting. -/
def newline (level : Nat) : String :=
  "\n" ++ String.ofList (List.replicate (2 * level) ' ')

/-- Separate texts by commas. -/
def joined (separator : String) : List String → String
  | [] => ""
  | [s] => s
  | s :: rest => s ++ separator ++ joined separator rest

mutual

/-- A value at some level of nesting. -/
def renderAt (level : Nat) : Json → String
  | .null => "null"
  | .bool b => if b then "true" else "false"
  | .number n => n.text
  | .string text => quoted (text.getD "")
  | .array [] => "[]"
  | .array items =>
      "[" ++ newline (level + 1) ++
        joined ("," ++ newline (level + 1)) (renderItems (level + 1) items) ++
        newline level ++ "]"
  | .object [] => "\x7b\x7d"
  | .object members =>
      "\x7b" ++ newline (level + 1) ++
        joined ("," ++ newline (level + 1)) (renderMembers (level + 1) members) ++
        newline level ++ "\x7d"

/-- Items at some level of nesting. -/
def renderItems (level : Nat) : List Json → List String
  | [] => []
  | item :: rest => renderAt level item :: renderItems level rest

/-- Members at some level of nesting. -/
def renderMembers (level : Nat) : List (Option String × Json) → List String
  | [] => []
  | (name, value) :: rest =>
      (quoted (name.getD "") ++ ": " ++ renderAt level value) :: renderMembers level rest

end

/-- A value as text. -/
def render (j : Json) : String :=
  renderAt 0 j

mutual

/-- A value on one line. -/
def compact : Json → String
  | .null => "null"
  | .bool b => if b then "true" else "false"
  | .number n => n.text
  | .string text => quoted (text.getD "")
  | .array items => "[" ++ joined "," (compactItems items) ++ "]"
  | .object members => "\x7b" ++ joined "," (compactMembers members) ++ "\x7d"

/-- Items on one line. -/
def compactItems : List Json → List String
  | [] => []
  | item :: rest => compact item :: compactItems rest

/-- Members on one line. -/
def compactMembers : List (Option String × Json) → List String
  | [] => []
  | (name, value) :: rest =>
      (quoted (name.getD "") ++ ":" ++ compact value) :: compactMembers rest

end

end BranchBound.Json
