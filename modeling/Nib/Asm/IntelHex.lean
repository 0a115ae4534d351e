import Mathlib
import Nib.Asm.Line
import Nib.Infra.Printf

/-!
# The Intel HEX writer

`--ihex` prints the written regions of the output as records, one on each line. A data record
holds up to 16 bytes; a record of type 02 sets the segment that its offset is relative to.

The loops have no fuel: the main loop leaves a written address behind in each turn.
-/

namespace Nib.Asm

open Nib.Infra

/-- `MAX_OUTPUT`. -/
def maxAddress : Nat := 1048576

/-- The arrays `output` and `written`. -/
structure Image where
  output : Nat → UInt8
  written : Nat → Bool

/-- The arrays at the end of a run. A byte that was never written is 0xFF. -/
def AsmState.image (s : AsmState) : Image where
  output addr := match s.output.find? fun w => w.1 == (addr : Int) with
    | some w => UInt8.ofNat w.2
    | none => 0xFF
  written addr := s.output.any fun w => w.1 == (addr : Int)

/-- The first of `n` addresses from `addr` on with a property, or else the address after them. -/
def seek (p : Nat → Bool) : Nat → Nat → Nat
  | 0, addr => addr
  | n + 1, addr => if p addr then addr else seek p n (addr + 1)

theorem le_seek (p : Nat → Bool) : ∀ n addr, addr ≤ seek p n addr
  | 0, _ => Nat.le_refl _
  | n + 1, addr => by
    rw [seek]
    split_ifs
    · exact Nat.le_refl _
    · exact Nat.le_of_succ_le (le_seek p n (addr + 1))

theorem seek_le (p : Nat → Bool) : ∀ n addr, seek p n addr ≤ addr + n
  | 0, _ => Nat.le_refl _
  | n + 1, addr => by
    have ih := seek_le p n (addr + 1)
    rw [seek]
    split_ifs <;> omega

theorem seek_not {p : Nat → Bool} : ∀ {n addr a : Nat}, addr ≤ a → a < seek p n addr → p a = false
  | 0, _, _, h1, h2 => absurd h2 (Nat.not_lt.mpr h1)
  | n + 1, addr, a, h1, h2 => by
    rw [seek] at h2
    split_ifs at h2 with hp
    · exact absurd h2 (Nat.not_lt.mpr h1)
    · rcases Nat.lt_or_eq_of_le h1 with h | rfl
      · exact seek_not h h2
      · simpa using hp

theorem seek_holds {p : Nat → Bool} : ∀ {n addr : Nat}, seek p n addr < addr + n →
    p (seek p n addr) = true
  | 0, _, h => absurd h (Nat.lt_irrefl _)
  | n + 1, addr, h => by
    rw [seek] at h ⊢
    split_ifs at h ⊢ with hp
    · exact hp
    · exact seek_holds (by omega)

/-! ## Records -/

/-- `(-cksum) & 0xFF`. -/
def checksum (bytes : List Nat) : Nat := (256 - bytes.sum % 256) % 256

/-- The extended segment address record. -/
def extRecord (segBase : Nat) : List Char :=
  ":02000002".toList ++ printHex 4 segBase ++
    printHex 2 (checksum [2, 2, segBase / 256 % 256, segBase % 256])

def dataRecord (offset : Nat) (bytes : List Nat) : List Char :=
  ':' :: printHex 2 bytes.length ++ printHex 4 (offset % 65536) ++ "00".toList ++
    bytes.flatMap (printHex 2) ++
    printHex 2 (checksum (bytes.length :: offset / 256 % 256 :: offset % 256 :: 0 :: bytes))

def endRecord : List Char := ":00000001FF".toList

namespace Image

variable (img : Image)

/-- The bytes of `n` addresses. -/
def bytes (addr n : Nat) : List Nat := (List.range' addr n).map fun a => (img.output a).toNat

/-- The data records of a run from `pos` to `stop`. -/
def dataRecords (base pos stop : Nat) : List (List Char) :=
  if pos < stop then
    let chunk := min (stop - pos) 16
    dataRecord (pos - base) (img.bytes pos chunk) :: dataRecords base (pos + chunk) stop
  else []
termination_by stop - pos

/-- The end of the run that starts at `addr`: the next address that is not written, within reach
of the segment. -/
def runEnd (addr : Nat) : Nat :=
  seek (fun a => !img.written a) (min (16 * (addr / 16) + 65536) maxAddress - addr) addr

theorem lt_runEnd {addr : Nat} (h : addr < maxAddress) (hw : img.written addr = true) :
    addr < img.runEnd addr := by
  unfold runEnd
  obtain ⟨n, hn⟩ : ∃ n, min (16 * (addr / 16) + 65536) maxAddress - addr = n + 1 :=
    ⟨min (16 * (addr / 16) + 65536) maxAddress - addr - 1, by omega⟩
  rw [hn, seek, hw]
  exact Nat.lt_of_succ_le (le_seek _ n (addr + 1))

/-- The first written address from `addr` on. -/
def nextWritten (addr : Nat) : Nat := seek img.written (maxAddress - addr) addr

theorem written_nextWritten {addr : Nat} (h : img.nextWritten addr < maxAddress) :
    img.written (img.nextWritten addr) = true := by
  have hle := le_seek img.written (maxAddress - addr) addr
  unfold nextWritten at h ⊢
  exact seek_holds (by omega)

/-- The records of all runs from `addr` on. `curExt` is the segment of the last record of
type 02. -/
def hexRecords (curExt : Option Nat) (addr : Nat) : List (List Char) :=
  let start := img.nextWritten addr
  if h : start < maxAddress then
    let segBase := start / 16
    let stop := img.runEnd start
    (if curExt = some segBase then [] else [extRecord segBase]) ++
      img.dataRecords (16 * segBase) start stop ++ hexRecords (some segBase) stop
  else []
termination_by maxAddress - addr
decreasing_by
  have h : img.nextWritten addr < maxAddress := h
  have h1 := img.lt_runEnd h (img.written_nextWritten h)
  have h2 : addr ≤ img.nextWritten addr := le_seek _ _ _
  omega

/-- What `--ihex` prints, line by line. -/
def writeHex : List (List Char) := img.hexRecords none 0 ++ [endRecord]

end Image

end Nib.Asm
