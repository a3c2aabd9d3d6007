import ChartQuery.Json.Basic

namespace ChartQuery.Json

/-- A control character by its code in four hexadecimal digits. -/
def controlCode (c : Char) : List Char :=
  let ds := Nat.toDigits 16 c.toNat
  ['\\', 'u'] ++ List.replicate (4 - ds.length) '0' ++ ds

def writtenChar (c : Char) : List Char :=
  match c with
  | '"' => ['\\', '"']
  | '\\' => ['\\', '\\']
  | '\x08' => ['\\', 'b']
  | '\x0c' => ['\\', 'f']
  | '\n' => ['\\', 'n']
  | '\r' => ['\\', 'r']
  | '\t' => ['\\', 't']
  | c => if c.toNat < 0x20 then controlCode c else [c]

def writtenString (s : String) : String :=
  String.ofList ('"' :: s.toList.flatMap writtenChar ++ ['"'])

mutual

def write (number : Binary64 → String) : Json → String
  | null => "null"
  | bool b => if b then "true" else "false"
  | int n => toString n
  | real x => number x
  | str s => writtenString s
  | arr xs => "[" ++ writeElements number xs ++ "]"
  | obj ms => "\x7b" ++ writeMembers number ms ++ "\x7d"

def writeElements (number : Binary64 → String) : List Json → String
  | [] => ""
  | [x] => write number x
  | x :: xs => write number x ++ "," ++ writeElements number xs

def writeMembers (number : Binary64 → String) : List (String × Json) → String
  | [] => ""
  | [(name, v)] => writtenString name ++ ":" ++ write number v
  | (name, v) :: ms =>
    writtenString name ++ ":" ++ write number v ++ "," ++ writeMembers number ms

end

end ChartQuery.Json
