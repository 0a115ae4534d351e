import Nib.Compile.Types
import Nib.Infra.Printf

/-!
# Global declarations

The lines that `compile_global` prints.
-/

namespace Nib.Compile

open Infra

/-- `type_str`, which prints a type with a size into a buffer of 64 characters. -/
def typeText : Ty → List Char
  | .u8 => ['u', '8']
  | .u16 => ['u', '1', '6']
  | .u32 => ['u', '3', '2']
  | .seg => ['s', 'e', 'g']
  | .bool => ['b', 'o', 'o', 'l']
  | .array e n => (typeText e ++ '[' :: printDec n ++ [']']).take 63
  | .bcd n => (['b', 'c', 'd'] ++ '[' :: printDec n ++ [']']).take 63
  | .struct name => name.toList
  | .far => ['f', 'a', 'r', '3', '2']
  | .void => ['v', 'o', 'i', 'd']

/-- `at(seg:off)` of a declaration. -/
def atText (at? : Option (Nat × Nat)) : List Char :=
  match at? with
  | none => []
  | some (seg, off) =>
    [',', ' ', 'a', 't', '(', '0', 'x'] ++ printHex 4 seg ++ [':', '0', 'x'] ++ printHex 4 off ++
      [')']

/-- The remark on a declaration with an initializer. -/
def initText (hasInit : Bool) : List Char :=
  if hasInit then " ; has initializer".toList else []

/-- The line of a global, after the directive. -/
def globalLine (name : List Char) (t : Ty) (at? : Option (Nat × Nat)) (hasInit : Bool) :
    List Char :=
  name ++ [',', ' '] ++ typeText t ++ (atText at? ++ initText hasInit)

/-! ## Initializers -/

/-- An element of an initializer: a constant, the address of a function, its far address, or a far
pointer of two constants. -/
inductive InitElem
  | int (val : Int)
  | near (fn : List Char)
  | far (fn : List Char)
  | farLit (seg off : Int)
  deriving DecidableEq, Repr

/-- An initializer. A string is given by the bytes between its quotes. -/
inductive InitExpr
  | scalar (e : InitElem)
  | array (es : List InitElem)
  | string (bytes : List Nat)
  deriving DecidableEq, Repr

/-- A number as `%X` prints it. -/
def asUnsigned (n : Int) : Nat := (n % 4294967296).toNat

/-- The line of an element, without one when it is rejected. -/
def elemLine (elemType : Ty) (elemSz : Int) : InitElem → Option (List Char)
  | .near fn => if elemSz = 2 then some ("  near.ref ".toList ++ fn) else none
  | .far fn => if elemType = .far then some ("  far.ref ".toList ++ fn) else none
  | .farLit seg off =>
    if elemType = .far then
      some ("  far 0x".toList ++ printHex 4 (seg % 65536).toNat ++ [':', '0', 'x'] ++
        printHex 4 (off % 65536).toNat)
    else none
  | .int val =>
    if elemSz = 1 then some ("  db 0x".toList ++ printHex 2 (val % 256).toNat)
    else if elemSz = 4 then some ("  dd 0x".toList ++ printHex 8 (asUnsigned val))
    else some ("  dw 0x".toList ++ printHex 4 (val % 65536).toNat)

/-- The line of an element without an initializer. -/
def fillLine (elemType : Ty) (elemSz : Int) : List Char :=
  if elemType = .far then "  far 0x0000:0x0000".toList
  else if elemSz = 1 then "  db 0x00".toList
  else "  dw 0x0000".toList

/-- An array without a size has the size of its initializer. -/
def sizedType (t : Ty) (init : InitExpr) : Ty :=
  match t, init with
  | .array e 0, .array es => .array e es.length
  | .array e 0, .string bytes => .array e bytes.length
  | t, _ => t

/-- What is printed for a declaration: a `.global` line, or a block of data lines. -/
inductive GlobalDecl
  | global (line : List Char)
  | data (line : List Char) (entries : List (List Char))
  deriving DecidableEq, Repr

/-- The start of a data block, after the directive. -/
def dataLine (name : List Char) (t : Ty) (at? : Option (Nat × Nat)) : List Char :=
  name ++ [',', ' '] ++ typeText t ++ atText at?

/-- A declaration with an initializer, none when an error is reported. -/
def compileGlobal (c : Compiler) (name : List Char) (t : Ty) (init : InitExpr)
    (at? : Option (Nat × Nat)) : Option GlobalDecl :=
  let t := sizedType t init
  match init, t with
  | .array es, .array e n =>
    if (es.length : Int) > n then none
    else do
      let lines ← es.mapM (elemLine e (typeSize c e))
      some (.data (dataLine name t at?)
        (lines ++ List.replicate (n - es.length).toNat (fillLine e (typeSize c e))))
  | .array _, _ => none
  | .string bytes, .array _ n =>
    if (bytes.length : Int) > n then none
    else
      some (.data (dataLine name t at?)
        ((bytes.map fun b => "  db 0x".toList ++ printHex 2 b) ++
          List.replicate (n - bytes.length).toNat "  db 0x00".toList))
  | _, t => some (.global (globalLine name t at? true))

/-! ## String literals

The bytes of a literal are the characters between its quotes, as the lexer hands them over. A
`.const` line prints them with every character that is not printable, the quote and the backslash as
hexadecimal escapes.
-/

/-- A byte that is printed as it is. -/
def IsPrinted (b : Nat) : Prop := 0x20 ≤ b ∧ b < 0x7F ∧ b ≠ 0x22 ∧ b ≠ 0x5C

instance (b : Nat) : Decidable (IsPrinted b) := inferInstanceAs (Decidable (_ ∧ _))

/-- A character of a `.const` line. -/
def nirChar (b : Nat) : List Char :=
  if IsPrinted b then [Char.ofNat b] else '\\' :: 'x' :: printHex 2 b

/-- The text of `.const id bytes`. -/
def constLine (id : Nat) (bytes : List Nat) : List Char :=
  ['.', 'c', 'o', 'n', 's', 't', ' ', '_', 'C'] ++ printDec id ++ [',', ' ', '"'] ++
    bytes.flatMap nirChar ++ ['"']

end Nib.Compile
