import Mathlib.Tactic.Common

/-!
# Source text

Character classes of the C locale, `strcasecmp` and `strtol`. A source line is a `List Char`
without its terminating NUL.
-/

namespace Nib.Asm

/-- The target's 32-bit `int`. -/
def toInt32 (n : Int) : Int := (n + 2147483648) % 4294967296 - 2147483648

def isXDigit (c : Char) : Bool :=
  c.isDigit || ('a' ≤ c && c ≤ 'f') || ('A' ≤ c && c ≤ 'F')

def isSpace (c : Char) : Bool :=
  c == ' ' || c == '\t' || c == '\n' || c == '\x0b' || c == '\x0c' || c == '\r'

/-- Characters of identifiers and labels. -/
def isIdentChar (c : Char) : Bool := c.isAlphanum || c == '_' || c == '.'

def isIdentStart (c : Char) : Bool := c.isAlpha || c == '_' || c == '.'

/-- `strcasecmp` finds no difference. -/
def sameName (a b : List Char) : Bool := a.map Char.toLower == b.map Char.toLower

/-- `strcasecmp` against a keyword. -/
def isWord (w : String) (s : List Char) : Bool := sameName s w.toList

/-- The tokenizer's white space. -/
def skipWs (s : List Char) : List Char := s.dropWhile fun c => c == ' ' || c == '\t'

/-! ## Numbers -/

def digitValue (c : Char) : Nat :=
  if c.isDigit then c.toNat - '0'.toNat
  else if 'a' ≤ c && c ≤ 'f' then c.toNat - 'a'.toNat + 10
  else c.toNat - 'A'.toNat + 10

def digitsValue (base : Nat) (ds : List Char) : Nat :=
  ds.foldl (fun n c => n * base + digitValue c) 0

/-- Saturate at the range of a 64-bit `long`, as `strtol` does. -/
def clampLong (n : Int) : Int := max (-9223372036854775808) (min 9223372036854775807 n)

def isBaseDigit (base : Nat) (c : Char) : Bool := if base = 16 then isXDigit c else c.isDigit

/-- The `0x` that `strtol` accepts in base 16 before a hexadecimal digit. -/
def skipHexPrefix (base : Nat) : List Char → List Char
  | '0' :: x :: d :: rest =>
    if base = 16 && (x == 'x' || x == 'X') && isXDigit d then d :: rest else '0' :: x :: d :: rest
  | s => s

/-- `strtol`: the value and what follows the number. Without digits nothing is consumed. -/
def strtol (base : Nat) (s : List Char) : Int × List Char :=
  let t := s.dropWhile isSpace
  let (negative, t) := match t with
    | '-' :: t => (true, t)
    | '+' :: t => (false, t)
    | t => (false, t)
  let t := skipHexPrefix base t
  let ds := t.takeWhile (isBaseDigit base)
  if ds.isEmpty then (0, s)
  else
    let n : Int := digitsValue base ds
    (clampLong (if negative then -n else n), t.dropWhile (isBaseDigit base))

end Nib.Asm
