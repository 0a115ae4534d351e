import Mathlib
import Nib.Asm.Spec.Data
import Nib.Bind.Globals
import Nib.Compile.Global

/-!
# Storage of globals

* `Ty.Sound` — a type that the compiler can build
* `Reserves` — when the binder reserves the size of the type
-/

namespace Nib.Bind

open Nib.Asm Nib.Compile Infra

/-! ## Types -/

def InInt (n : Int) : Prop := -2147483648 ≤ n ∧ n ≤ 2147483647

/-- Structures are named and sizes are of type `int`. -/
def TySound : Ty → Prop
  | .array e n => TySound e ∧ InInt n
  | .bcd n => InInt n
  | .struct name => IsName name.toList
  | _ => True

/-- The type that is counted. -/
def rootType : Ty → Ty
  | .array e _ => rootType e
  | t => t

/-- The name before the first bracket. -/
def rootName (t : Ty) : Text :=
  match rootType t with
  | .bcd _ => ['b', 'c', 'd']
  | r => typeText r

/-- The numbers in brackets. -/
def counts : Ty → List Int
  | .array e n => counts e ++ [n]
  | .bcd n => [n]
  | _ => []

/-- The size of what is counted. A `bcd` counts bytes. -/
def rootSize (c : Compiler) (t : Ty) : Int :=
  match rootType t with
  | .bcd _ => 1
  | r => typeSize c r

/-! ## The condition -/

/-- The size of a type that is one word, for the binder. -/
def wordSize (word : Text) : Int :=
  if word = ['u', '8'] then 1
  else if word = ['u', '3', '2'] ∨ word = ['f', 'a', 'r'] then 4
  else 2

/-- The first count is that of the elements: the binder's width of an element, by its name, is the
size of everything the first count counts. Nothing is reserved for a negative count. -/
def ReservesCounts (width size : Int) (n : Int) (outer : List Int) : Prop :=
  if 0 < n then width = size * outer.prod else n = 0 ∨ size * outer.prod = 0

/-- When the size of a type is reserved. -/
def ReservesType (c : Compiler) (t : Ty) : Prop :=
  match counts t with
  | [] =>
    match t with
    | .u8 | .u16 | .u32 | .seg => True
    | .struct name => typeSize c t = wordSize (name.toList.take 31)
    | _ => False
  | n :: outer =>
    let room := 30 - (rootName t).length
    if 31 ≤ (rootName t).length then
      -- the bracket is cut off
      rootSize c t * (n * outer.prod) = 2
    else if (printDec n).length ≤ room then
      ReservesCounts (elemWidth (rootName t)) (rootSize c t) n outer
    else
      -- digits of the count are cut off
      max 0 (elemWidth (rootName t) * atoi ((printDec n).take room)) =
        rootSize c t * (n * outer.prod)

/-- A name of more than 63 characters runs into the type. -/
def Reserves (c : Compiler) (name : Text) (t : Ty) : Prop :=
  if name.length ≤ 63 then ReservesType c t
  else typeSize c t = wordSize ((name.drop 63).take 31)

end Nib.Bind
