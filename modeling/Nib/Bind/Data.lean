import Nib.Bind.Consts

/-!
# Data blocks

* `parseData` — what `parse_nir` makes of the lines of a `.data` block
* `emitData` — the lines `emit_item` prints
-/

namespace Nib.Bind

open Nib.Asm Infra

/-- An entry of a data block. References to functions are resolved when they are printed. -/
inductive DataEntry
  | farRef (name : Text)
  | nearRef (name : Text)
  | line (text : Text)
  deriving DecidableEq, Repr

structure DataBlock where
  label : Text
  entries : List DataEntry
  deriving DecidableEq, Repr

def hasPrefix (w : String) (s : Text) : Bool := w.toList.isPrefixOf s

/-- A far pointer: its offset, then its segment. -/
def farEntry (text : Text) : Text :=
  let (seg, rest) := strtolAuto text
  let off := (strtolAuto (if rest.head? = some ':' then rest.tail else rest)).1
  "    dw 0x".toList ++ printHex 4 (off % 4294967296).toNat ++ ", 0x".toList ++
    printHex 4 (seg % 4294967296).toNat

/-- A line of a data block. The lines of the compiler are shorter than the buffer. -/
def dataEntry (text : Text) : Option DataEntry :=
  let dp := skipWs text
  if hasPrefix "far.ref " dp then some (.farRef (Line.readWord 64 (dp.drop 8)).1)
  else if hasPrefix "near.ref " dp then some (.nearRef (Line.readWord 64 (dp.drop 9)).1)
  else if hasPrefix "far " dp then some (.line (farEntry (dp.drop 4)))
  else if hasPrefix "dw " dp || hasPrefix "db " dp || hasPrefix "dd " dp then
    some (.line ("    ".toList ++ dp))
  else none

/-- A data block, from the text after the directive and its lines. -/
def parseData (text : Text) (lines : List Text) : DataBlock :=
  { label := stripComma (Line.readWord 64 text).1, entries := lines.filterMap dataEntry }

def emitEntry (p : LabelProgram) : DataEntry → Text
  | .farRef name =>
    [' ', ' ', ' ', ' ', 'd', 'w', ' '] ++ p.resolveFnName name ++ [',', ' ', 'S', 'E', 'G', ' '] ++
      p.resolveFnName name
  | .nearRef name => [' ', ' ', ' ', ' ', 'd', 'w', ' '] ++ p.resolveFnName name
  | .line text => text

/-- The lines of a data block without `at()`. -/
def emitData (p : LabelProgram) (db : DataBlock) : List Text :=
  (db.label ++ [':']) :: db.entries.map (emitEntry p)

end Nib.Bind
