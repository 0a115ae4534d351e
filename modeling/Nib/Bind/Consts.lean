import Nib.Bind.Globals
import Nib.Bind.Labels
import Nib.Infra.Printf

/-!
# Constants of a function

What `parse_function` makes of a `.const` line, and the line that `emit_function` prints for it.

* `dbItems` — the list of a string constant
* `parseConst` — strings, references to functions and far pointers
-/

namespace Nib.Bind

open Nib.Asm Infra

/-- The text before the last character `c`, all of it without one. -/
def beforeLast (c : Char) (text : Text) : Text :=
  if text.contains c then ((text.reverse.dropWhile (· ≠ c)).drop 1).reverse else text

/-- `strtol` in base 8. -/
def strtolOctal (s : Text) : Int × Text :=
  let t := s.dropWhile isSpace
  let (negative, t) := match t with
    | '-' :: t => (true, t)
    | '+' :: t => (false, t)
    | t => (false, t)
  let isOctal := fun c : Char => '0' ≤ c && c ≤ '7'
  let n : Int := digitsValue 8 (t.takeWhile isOctal)
  (clampLong (if negative then -n else n), t.dropWhile isOctal)

/-- `strtol` in base 0: the base is that of the prefix. -/
def strtolAuto (s : Text) : Int × Text :=
  let t := match s.dropWhile isSpace with
    | '-' :: t => t
    | '+' :: t => t
    | t => t
  match t with
  | '0' :: x :: d :: _ =>
    if (x == 'x' || x == 'X') && isXDigit d then strtol 16 s else strtolOctal s
  | '0' :: _ => strtolOctal s
  | _ => strtol 10 s

/-- The list of a string constant, from the position in the buffer of 256 characters. Nothing is
added from position 246 on. -/
def dbItems : Bool → Nat → Text → Text
  | _, _, [] => []
  | first, pos, c :: rest =>
    if 246 ≤ pos then []
    else
      let sep := if first then [] else [',', ' ']
      match c, rest with
      | '\\', 'x' :: a :: b :: rest =>
        sep ++ ['0', 'x', a, b] ++ dbItems false (pos + sep.length + 4) rest
      | c, rest => sep ++ ['\'', c, '\''] ++ dbItems false (pos + sep.length + 3) rest

/-- A constant. A reference to a function is resolved when it is printed. -/
structure FnConst where
  label : Text
  data : Text
  refName : Option Text := none
  deriving DecidableEq, Repr

/-- A `.const` line, after the directive. -/
def parseConst (f : LabelFn) (text : Text) : FnConst :=
  let (rawLabel, rest) := Line.readWord 32 text
  let label := f.constLabel rawLabel
  match skipComma rest with
  | '"' :: p =>
    { label
      data := label ++ [' ', 'd', 'b', ' '] ++ dbItems true (label.length + 4) (beforeLast '"' p) }
  | p =>
    if ['f', 'a', 'r', '.', 'r', 'e', 'f', ' '].isPrefixOf p then
      let name := (Line.readWord 64 (p.drop 8)).1
      { label
        data := label ++ [' ', 'd', 'w', ' '] ++ name ++ [',', ' ', 'S', 'E', 'G', ' '] ++ name
        refName := some name }
    else if ['f', 'a', 'r', ' '].isPrefixOf p then
      let (seg, p) := strtolAuto (p.drop 4)
      let off := (strtolAuto (if p.head? = some ':' then p.tail else p)).1
      { label
        data := label ++ [' ', 'd', 'w', ' ', '0', 'x'] ++ printHex 4 (off % 4294967296).toNat ++
          [',', ' ', '0', 'x'] ++ printHex 4 (seg % 4294967296).toNat }
    else { label, data := [] }

/-- A line of a function, as far as the buffer for lines holds it. -/
def readConst (f : LabelFn) (line : Text) : FnConst := parseConst f ((line.take 1023).drop 7)

/-- The line that is printed for a constant. -/
def emitConst (p : LabelProgram) (c : FnConst) : Text :=
  match c.refName with
  | some name =>
    c.label ++ [' ', 'd', 'w', ' '] ++ p.resolveFnName name ++ [',', ' ', 'S', 'E', 'G', ' '] ++
      p.resolveFnName name
  | none => c.data

end Nib.Bind
