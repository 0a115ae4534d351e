import Nib.Asm.Text

/-!
# Tokenizer

`next_token` reads one token off the rest of the line. At the end of the line it reads nothing
and returns `T_EOL` again.
-/

namespace Nib.Asm

inductive TokType
  | eol | ident | number | string
  | comma | colon | lbrak | rbrak | plus | minus | star
  | lparen | rparen
  deriving DecidableEq, Repr

structure Token where
  type : TokType
  sval : List Char := []
  ival : Int := 0
  deriving DecidableEq, Repr

/-- Single-character tokens. -/
def punct (c : Char) : Option TokType :=
  match c with
  | ',' => some .comma
  | ':' => some .colon
  | '[' => some .lbrak
  | ']' => some .rbrak
  | '+' => some .plus
  | '-' => some .minus
  | '*' => some .star
  | '(' => some .lparen
  | ')' => some .rparen
  | _ => none

/-- The character an escape stands for. -/
def unescape (c : Char) : Char :=
  match c with
  | 'n' => '\n'
  | 'r' => '\r'
  | 't' => '\t'
  | '0' => '\x00'
  | c => c

/-- The body of a quoted literal, at most `room` characters, and the text from where the loop
stops. -/
def scanString (delim : Char) : Nat → List Char → List Char × List Char
  | 0, s => ([], s)
  | _ + 1, [] => ([], [])
  | room + 1, c :: s =>
    if c = delim then ([], c :: s)
    else if c = '\\' then
      match s with
      | [] => (['\\'], [])
      | e :: s =>
        let (body, rest) := scanString delim room s
        (unescape e :: body, rest)
    else
      let (body, rest) := scanString delim room s
      (c :: body, rest)

/-- A quoted literal. A single character in single quotes is a number. -/
def lexQuoted (delim : Char) (s : List Char) : Token × List Char :=
  let (body, rest) := scanString delim 126 s
  let rest := match rest with
    | c :: rest' => if c = delim then rest' else c :: rest'
    | [] => []
  match body with
  | [c] => if delim = '\'' then ({ type := .number, sval := body, ival := c.toNat % 256 }, rest)
    else ({ type := .string, sval := body }, rest)
  | _ => ({ type := .string, sval := body }, rest)

/-- A number: `0x` and hexadecimal digits, hexadecimal digits and a trailing `h`, or decimal.
A decimal number is followed by whatever comes after the last hexadecimal digit. -/
def lexNumber (s : List Char) : Token × List Char :=
  let hex := match s with
    | '0' :: x :: rest => if x == 'x' || x == 'X' then some rest else none
    | _ => none
  match hex with
  | some rest =>
    let (n, rest) := strtol 16 rest
    ({ type := .number, ival := toInt32 n }, rest)
  | none =>
    match s.dropWhile isXDigit with
    | [] => ({ type := .number, ival := toInt32 (strtol 10 s).1 }, [])
    | c :: rest =>
      if c == 'h' || c == 'H' then ({ type := .number, ival := toInt32 (strtol 16 s).1 }, rest)
      else ({ type := .number, ival := toInt32 (strtol 10 s).1 }, c :: rest)

/-- An identifier, at most 126 characters of it. -/
def lexIdent (s : List Char) : Token × List Char :=
  let name := (s.take 126).takeWhile isIdentChar
  ({ type := .ident, sval := name }, s.drop name.length)

/-- One token, the rest of the line, and the number of errors reported. -/
def nextToken (s : List Char) : Token × List Char × Nat :=
  match skipWs s with
  | [] => ({ type := .eol }, [], 0)
  | c :: rest =>
    if c = '\n' || c = ';' then ({ type := .eol }, c :: rest, 0)
    else
      match punct c with
      | some type => ({ type }, rest, 0)
      | none =>
        if c = '\'' || c = '"' then
          let (t, rest) := lexQuoted c rest
          (t, rest, 0)
        else if c.isDigit then
          let (t, rest) := lexNumber (c :: rest)
          (t, rest, 0)
        else if isIdentStart c then
          let (t, rest) := lexIdent (c :: rest)
          (t, rest, 0)
        else ({ type := .eol }, rest, 1)

end Nib.Asm
