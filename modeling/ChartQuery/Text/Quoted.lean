import ChartQuery.Text.Escaped

namespace ChartQuery.Text

/-- The code point in hexadecimal, as a quoted text shows a character without a form of its own. -/
def codePoint (c : Char) : List Char :=
  "\\u\x7b".toList ++ Nat.toDigits 16 c.toNat ++ ['}']

def quotedChar (c : Char) : List Char :=
  match c with
  | '\x00' => ['\\', '0']
  | '\t' => ['\\', 't']
  | '\n' => ['\\', 'n']
  | '\r' => ['\\', 'r']
  | '\\' => ['\\', '\\']
  | '"' => ['\\', '"']
  | c => if isEscaped c then codePoint c else [c]

/-- The text between double quotes, with a backslash before what could be misread. -/
def quoted (s : String) : String :=
  String.ofList ('"' :: s.toList.flatMap quotedChar ++ ['"'])

def listed (items : List String) : String := "[" ++ ", ".intercalate items ++ "]"

/-- Several texts, quoted, between square brackets. -/
def quotedList (items : List String) : String := listed (items.map quoted)

end ChartQuery.Text
