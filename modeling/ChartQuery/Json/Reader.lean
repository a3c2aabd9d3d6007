import ChartQuery.Binary64.Decimal
import ChartQuery.Json.Basic

namespace ChartQuery.Json

open Text

def isSpace (c : Char) : Bool := c == ' ' || c == '\t' || c == '\n' || c == '\r'

def skipSpace (cs : List Char) : List Char := cs.dropWhile isSpace

def hexValue? (c : Char) : Option Nat :=
  if c.isDigit then some (digitValue c)
  else if 'a' ≤ c ∧ c ≤ 'f' then some (c.toNat - 'a'.toNat + 10)
  else if 'A' ≤ c ∧ c ≤ 'F' then some (c.toNat - 'A'.toNat + 10)
  else none

def codeUnit? : List Char → Option (Nat × List Char)
  | a :: b :: c :: d :: cs => do
    let high := (← hexValue? a) * 16 + (← hexValue? b)
    let low := (← hexValue? c) * 16 + (← hexValue? d)
    return (high * 256 + low, cs)
  | _ => none

/-- The character after `\u`: one code unit, or a high and a low surrogate. -/
def escapedUnit? (cs : List Char) : Option (Char × List Char) := do
  let (n, cs) ← codeUnit? cs
  if 0xd800 ≤ n ∧ n < 0xdc00 then
    match cs with
    | '\\' :: 'u' :: cs =>
      let (m, cs) ← codeUnit? cs
      if 0xdc00 ≤ m ∧ m < 0xe000 then
        return (Char.ofNat (0x10000 + (n - 0xd800) * 0x400 + (m - 0xdc00)), cs)
      else none
    | _ => none
  else if 0xdc00 ≤ n ∧ n < 0xe000 then none
  else return (Char.ofNat n, cs)

def escape? : List Char → Option (Char × List Char)
  | '"' :: cs => some ('"', cs)
  | '\\' :: cs => some ('\\', cs)
  | '/' :: cs => some ('/', cs)
  | 'b' :: cs => some ('\x08', cs)
  | 'f' :: cs => some ('\x0c', cs)
  | 'n' :: cs => some ('\n', cs)
  | 'r' :: cs => some ('\r', cs)
  | 't' :: cs => some ('\t', cs)
  | 'u' :: cs => escapedUnit? cs
  | _ => none

/-- The rest of a string, up to its closing quote. Each step takes at least one character, so
fuel as long as the text suffices. -/
def stringBody? : Nat → List Char → Option (List Char × List Char)
  | 0, _ => none
  | _ + 1, [] => none
  | _ + 1, '"' :: cs => some ([], cs)
  | fuel + 1, '\\' :: cs => do
    let (c, cs) ← escape? cs
    let (s, cs) ← stringBody? fuel cs
    return (c :: s, cs)
  | fuel + 1, c :: cs =>
    if c.toNat < 0x20 then none
    else do
      let (s, cs) ← stringBody? fuel cs
      return (c :: s, cs)

def string? (cs : List Char) : Option (String × List Char) := do
  let (s, cs) ← stringBody? (cs.length + 1) cs
  return (String.ofList s, cs)

/-- The value of a number text; `none` if it is too large for a finite double. A negative zero is a
`real`, for no integer writes it. -/
def ofNumeral? (negative : Bool) (whole places : List Char) (exponent : Option Int) :
    Option Json :=
  let n := signed negative (natOfDigits whole)
  if places = [] ∧ exponent = none ∧ -0x8000000000000000 ≤ n ∧ n < UInt64.size ∧
      ¬ (negative ∧ n = 0) then
    some (int n)
  else
    let x := (Decimal.ofDigits negative whole places (exponent.getD 0)).toBinary64
    if x.isFinite then some (real x) else none

/-- An exponent part, if the text starts with one; `none` if it is cut short. -/
def exponentPart? : List Char → Option (Option Int × List Char)
  | c :: cs =>
    if c = 'e' ∨ c = 'E' then
      let (negative, cs) := sign cs
      match digitRun cs with
      | ([], _) => none
      | (ds, cs) => some (some (signed negative (natOfDigits ds)), cs)
    else some (none, c :: cs)
  | [] => some (none, [])

/-- Digits after a point, which must be there once there is a point. -/
def fractionPart? : List Char → Option (List Char × List Char)
  | '.' :: cs =>
    match digitRun cs with
    | ([], _) => none
    | (ds, cs) => some (ds, cs)
  | cs => some ([], cs)

def number? (cs : List Char) : Option (Json × List Char) := do
  let (negative, cs) : Bool × List Char := match cs with
    | '-' :: cs => (true, cs)
    | cs => (false, cs)
  let (whole, cs) := digitRun cs
  match whole with
  | [] => none
  | '0' :: _ :: _ => none
  | _ =>
    let (places, cs) ← fractionPart? cs
    let (exponent, cs) ← exponentPart? cs
    return (← ofNumeral? negative whole places exponent, cs)

/-- Puts a member in place of one with the same name, or at the end. -/
def putMember (members : List (String × Json)) (name : String) (v : Json) :
    List (String × Json) :=
  if members.any (·.1 == name) then members.map fun m => if m.1 == name then (name, v) else m
  else members ++ [(name, v)]

mutual

def value? : Nat → List Char → Option (Json × List Char)
  | 0, _ => none
  | fuel + 1, cs =>
    match skipSpace cs with
    | 'n' :: 'u' :: 'l' :: 'l' :: cs => some (null, cs)
    | 't' :: 'r' :: 'u' :: 'e' :: cs => some (bool true, cs)
    | 'f' :: 'a' :: 'l' :: 's' :: 'e' :: cs => some (bool false, cs)
    | '"' :: cs => (string? cs).map fun (s, cs) => (str s, cs)
    | '[' :: cs =>
      match skipSpace cs with
      | ']' :: cs => some (arr [], cs)
      | cs => (elements? fuel cs).map fun (xs, cs) => (arr xs, cs)
    | '{' :: cs =>
      match skipSpace cs with
      | '}' :: cs => some (obj [], cs)
      | cs => (members? fuel [] cs).map fun (ms, cs) => (obj ms, cs)
    | cs => number? cs

def elements? : Nat → List Char → Option (List Json × List Char)
  | 0, _ => none
  | fuel + 1, cs => do
    let (x, cs) ← value? fuel cs
    match skipSpace cs with
    | ']' :: cs => return ([x], cs)
    | ',' :: cs =>
      let (xs, cs) ← elements? fuel cs
      return (x :: xs, cs)
    | _ => none

def members? : Nat → List (String × Json) → List Char →
    Option (List (String × Json) × List Char)
  | 0, _, _ => none
  | fuel + 1, done, cs =>
    match skipSpace cs with
    | '"' :: cs => do
      let (name, cs) ← string? cs
      match skipSpace cs with
      | ':' :: cs =>
        let (v, cs) ← value? fuel cs
        let done := putMember done name v
        match skipSpace cs with
        | '}' :: cs => return (done, cs)
        | ',' :: cs => members? fuel done cs
        | _ => none
      | _ => none
    | _ => none

end

/-- Reads a text that is one JSON value throughout. -/
def read? (text : String) : Option Json := do
  let cs := text.toList
  let (j, rest) ← value? (cs.length + 1) cs
  if skipSpace rest = [] then return j else none

end ChartQuery.Json
