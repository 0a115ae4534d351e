import Nib.Asm.IntelHex

/-!
# Reading Intel HEX

A record is a colon, a number of data bytes, an offset of two bytes, a type, the data and a
checksum, all in hexadecimal. The loader keeps the base that offsets are relative to.
-/

namespace Nib.Asm

/-- The bytes that are written as pairs of hexadecimal digits. -/
def readPairs : List Char → Option (List Nat)
  | [] => some []
  | [_] => none
  | a :: b :: rest =>
    if isXDigit a && isXDigit b then
      (readPairs rest).map fun bytes => (digitValue a * 16 + digitValue b) :: bytes
    else none

structure HexRecord where
  type : Nat
  offset : Nat
  data : List Nat
  deriving DecidableEq, Repr

/-- A record with the number of bytes it announces, whose bytes add up to 0. -/
def readRecord : List Char → Option HexRecord
  | ':' :: text =>
    match readPairs text with
    | some (count :: high :: low :: type :: rest) =>
      if rest.length = count + 1 ∧ (count + high + low + type + rest.sum) % 256 = 0 then
        some { type, offset := 256 * high + low, data := rest.take count }
      else none
    | _ => none
  | _ => none

/-- The base, the bytes stored so far with their addresses, and whether the end record came. -/
structure Loader where
  base : Nat := 0
  stored : List (Nat × Nat) := []
  ended : Bool := false
  deriving DecidableEq, Repr

/-- Type 00 stores its bytes from base and offset on, type 02 sets the base, type 01 ends. -/
def Loader.record (s : Loader) (r : HexRecord) : Option Loader :=
  if s.ended then none
  else if r.type = 0 then
    some { s with stored := s.stored ++ r.data.mapIdx fun i b => (s.base + r.offset + i, b) }
  else if r.type = 2 then
    match r.data with
    | [high, low] => some { s with base := (256 * high + low) * 16 }
    | _ => none
  else if r.type = 1 then some { s with ended := true }
  else none

def Loader.line (s : Loader) (text : List Char) : Option Loader := (readRecord text).bind s.record

/-- The bytes of a whole file, in the order in which they are stored. -/
def loadHex (lines : List (List Char)) : Option (List (Nat × Nat)) :=
  match lines.foldlM Loader.line {} with
  | some s => if s.ended then some s.stored else none
  | none => none

/-- The written addresses in ascending order, each with its byte. -/
def Image.contents (img : Image) : List (Nat × Nat) :=
  ((List.range maxAddress).filter img.written).map fun a => (a, (img.output a).toNat)

/-- Reading back gives the contents, and no data record goes past offset 0xFFFF. -/
structure Image.RoundTrip (img : Image) (lines : List (List Char)) : Prop where
  loads : loadHex lines = some img.contents
  inReach : ∀ line ∈ lines, ∀ r, readRecord line = some r → r.type = 0 →
    r.offset + r.data.length ≤ 65536

end Nib.Asm
