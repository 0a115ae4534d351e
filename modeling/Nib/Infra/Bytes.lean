import Mathlib

/-!
# A memory of bytes

Little-endian words in a memory whose addresses wrap around.

* `low`, `high`, `joinBytes` — a word and its bytes
* `readWord_write` — what is read back from a byte or a word that has been written
* `write_of_notMem` — the other bytes stay as they are
-/

namespace Nib.Infra

/-! ## The bytes of a word -/

def low (x : BitVec 16) : BitVec 8 := x.setWidth 8

def high (x : BitVec 16) : BitVec 8 := (x >>> 8).setWidth 8

def joinBytes (h l : BitVec 8) : BitVec 16 := h ++ l

@[simp] theorem low_joinBytes (h l : BitVec 8) : low (joinBytes h l) = l := by
  ext i hi
  simp only [low, joinBytes, BitVec.setWidth_append]
  grind

@[simp] theorem high_joinBytes (h l : BitVec 8) : high (joinBytes h l) = h := by
  ext i hi
  simp [high, joinBytes]
  grind

@[simp] theorem joinBytes_high_low (x : BitVec 16) : joinBytes (high x) (low x) = x := by
  ext i hi
  simp [low, high, joinBytes]
  grind

/-- A byte as a word. -/
def zeroExtend (l : BitVec 8) : BitVec 16 := joinBytes 0 l

/-- Replace the low byte, and the high one too unless only a byte is written. -/
def update (byteOnly : Bool) (old new : BitVec 16) : BitVec 16 :=
  if byteOnly then joinBytes (high old) (low new) else new

@[simp] theorem low_update (byteOnly : Bool) (old new : BitVec 16) :
    low (update byteOnly old new) = low new := by
  cases byteOnly <;> simp [update]

/-! ## Reading and writing -/

/-- A memory with addresses of 16 bits. -/
abbrev Memory : Type := BitVec 16 → BitVec 8

def readWord (m : Memory) (a : BitVec 16) : BitVec 16 := joinBytes (m (a + 1)) (m a)

/-- Write a word, or its low byte only. -/
def write (byteOnly : Bool) (m : Memory) (a x : BitVec 16) : Memory := fun b =>
  if b = a then low x
  else if byteOnly = false ∧ b = a + 1 then high x
  else m b

/-- The addresses that are written. -/
def written (byteOnly : Bool) (a b : BitVec 16) : Prop := b = a ∨ byteOnly = false ∧ b = a + 1

@[simp] theorem write_self (byteOnly : Bool) (m : Memory) (a x : BitVec 16) :
    write byteOnly m a x a = low x := if_pos rfl

/-- A word that is read where a word or a byte has been written. -/
theorem readWord_write (byteOnly : Bool) (m : Memory) (a x : BitVec 16) :
    readWord (write byteOnly m a x) a = update byteOnly (readWord m a) x := by
  cases byteOnly <;> simp [readWord, write, update]

theorem write_of_notMem {byteOnly : Bool} {a b : BitVec 16} (h : ¬written byteOnly a b)
    (m : Memory) (x : BitVec 16) : write byteOnly m a x b = m b := by
  unfold written at h
  unfold write
  rw [if_neg fun hb => h (.inl hb), if_neg fun hb => h (.inr hb)]

end Nib.Infra
