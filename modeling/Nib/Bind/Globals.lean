import Nib.Bind.Modules

/-!
# Globals

* `parseGlobal` — what `parse_nir` reads of a `.global` line, and the size it computes
* `emitGlobal` — the lines `emit_item` prints
-/

namespace Nib.Bind

open Nib.Asm

/-! ## Words of a line -/

/-- The characters at which a word ends. -/
def endsWord (c : Char) : Bool := isSpace c || c == ',' || c == ')' || c == ']'

namespace Line

/-- `read_word` into a buffer. -/
def readWord (size : Nat) (text : Text) : Text × Text :=
  let t := skipWs text
  let word := (t.take (size - 1)).takeWhile fun c => !endsWord c
  (word, t.drop word.length)

end Line

/-- `skip_ws` around a comma. -/
def skipComma (text : Text) : Text :=
  match skipWs text with
  | ',' :: rest => skipWs rest
  | rest => rest

/-- `atoi`. -/
def atoi (s : Text) : Int := toInt32 (strtol 10 s).1

/-! ## Sizes -/

structure GlobalVar where
  name : Text
  type : Text
  size : Int
  deriving DecidableEq, Repr

/-- The size of an element, by the start of the type. -/
def elemWidth (type : Text) : Int :=
  if type.take 3 = ['u', '1', '6'] then 2
  else if type.take 3 = ['u', '3', '2'] then 4
  else if type.take 3 = ['f', 'a', 'r'] then 4
  else 1

/-- The size of a global. A type that is not known has two bytes. -/
def globalSize (type : Text) : Int :=
  if type = ['u', '8'] then 1
  else if type = ['u', '1', '6'] then 2
  else if type = ['u', '3', '2'] then 4
  else if type = ['s', 'e', 'g'] then 2
  else if type = ['f', 'a', 'r'] then 4
  else
    match type.dropWhile (· ≠ '[') with
    | [] => 2
    | _ :: count => elemWidth type * atoi count

/-- Strip a trailing comma. -/
def stripComma (t : Text) : Text := if t.getLast? = some ',' then t.dropLast else t

/-- A `.global` line, after the directive. -/
def parseGlobal (line : Text) : GlobalVar :=
  let (word, rest) := Line.readWord 64 line
  let type := (Line.readWord 32 (skipComma rest)).1
  { name := stripComma word, type, size := globalSize type }

/-! ## Emission -/

def dbZero : Text := [' ', 'd', 'b', ' ', '0']

def dwZero : Text := [' ', 'd', 'w', ' ', '0']

/-- Zeros for a size: words, and a byte for the rest. -/
def zeroLines (size : Int) : List Text :=
  List.replicate (size / 2).toNat ([' ', ' ', ' '] ++ dwZero) ++
    if size % 2 = 1 ∧ 0 < size then [[' ', ' ', ' '] ++ dbZero] else []

/-- The lines of a global without `at()`. -/
def emitGlobal (g : GlobalVar) : List Text :=
  if g.size = 1 then [g.name ++ ':' :: dbZero]
  else if g.size = 2 then [g.name ++ ':' :: dwZero]
  else (g.name ++ [':']) :: zeroLines g.size

end Nib.Bind
