import Mathlib
import Nib.Asm.Spec.Data
import Nib.Bind.Consts
import Nib.Compile.Global

/-!
# String literals

* `LitChar` — the characters of a literal in the source, `rawText` as they are written and
  `decoded` what they mean
* `Intact` — when the bytes of a literal reach the assembler
-/

namespace Nib.Bind

open Nib.Asm Nib.Compile Infra

/-! ## Literals -/

inductive Escape
  | nul | newline | return | tab | backslash | quote
  deriving DecidableEq, Repr

/-- A character of a literal: a byte other than a quote or a backslash, or an escape sequence. -/
inductive LitChar
  | plain (b : Nat) (h : 0 < b ∧ b < 256 ∧ b ≠ 0x22 ∧ b ≠ 0x5C)
  | escape (e : Escape)
  | hex (a b : Char) (h : isXDigit a = true ∧ isXDigit b = true)

namespace Escape

def letter : Escape → Nat
  | .nul => 0x30
  | .newline => 0x6E
  | .return => 0x72
  | .tab => 0x74
  | .backslash => 0x5C
  | .quote => 0x22

def value : Escape → Nat
  | .nul => 0
  | .newline => 0x0A
  | .return => 0x0D
  | .tab => 0x09
  | .backslash => 0x5C
  | .quote => 0x22

end Escape

namespace LitChar

/-- The bytes of the source. -/
def raw : LitChar → List Nat
  | .plain b _ => [b]
  | .escape e => [0x5C, e.letter]
  | .hex a b _ => [0x5C, 0x78, a.toNat, b.toNat]

def value : LitChar → Nat
  | .plain b _ => b
  | .escape e => e.value
  | .hex a b _ => digitsValue 16 [a, b]

def isPlain : LitChar → Bool
  | .plain .. => true
  | _ => false

end LitChar

def rawText (lit : List LitChar) : List Nat := lit.flatMap LitChar.raw

def decoded (lit : List LitChar) : List Nat := lit.map LitChar.value

/-! ## The line of the assembler -/

/-- The line that is assembled for a constant of a function. -/
def stringLine (p : LabelProgram) (f : LabelFn) (id : Nat) (bytes : List Nat) : Text :=
  emitConst p (readConst f (constLine id bytes))

/-- The label of a constant. -/
def stringLabel (f : LabelFn) (id : Nat) : Text := f.constLabel (['_', 'C'] ++ printDec id)

def lineErrors (env : Env) (line : Text) : Nat :=
  (parseStatement env { ptr := (splitLine line).2 }).2.errors

/-! ## The condition -/

/-- The characters a byte takes in a list. -/
def itemWidth (b : Nat) : Nat := if IsPrinted b then 3 else 4

/-- The list stops after `n` bytes: from position `pos` on there is no room for the next one, or it
is an apostrophe. -/
def StopsAt : Bool → Nat → List Nat → Nat → Prop
  | _, _, [], n => n = 0
  | _, pos, b :: _, 0 => 246 ≤ pos ∨ b = 0x27
  | first, pos, b :: bytes, n + 1 =>
    pos < 246 ∧ b ≠ 0x27 ∧
      StopsAt false (pos + (if first then 0 else 2) + itemWidth b) bytes n

/-- There is no escape sequence and no apostrophe, and the list of all bytes but the last leaves
room in the buffer. -/
structure Intact (start : Nat) (lit : List LitChar) : Prop where
  plain : ∀ c ∈ lit, c.isPlain = true
  apostrophe : 0x27 ∉ rawText lit
  room : start + ((rawText lit).dropLast.map fun b => itemWidth b + 2).sum < 248

/-- There is an escape sequence, but the bytes of the source are those it stands for as far as the
list goes. -/
def Coincides (start : Nat) (lit : List LitChar) : Prop :=
  (∃ c ∈ lit, c.isPlain = false) ∧ decoded lit <+: rawText lit ∧
    StopsAt true start (rawText lit) lit.length

end Nib.Bind
