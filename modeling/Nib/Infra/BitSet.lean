import Mathlib.Data.Nat.Bitwise
import Mathlib.Data.Nat.Size

/-!
# Finite sets of naturals as bits of a natural

A set is a `Nat` and its members are the positions of its one bits. Every operation is a
bitwise one, so a set evaluates in the kernel, and every membership lemma is a `simp` lemma:
a proof about sets reduces to propositional logic on memberships.
-/

namespace Nib.Infra

/-- A finite set of naturals, one bit for each member. -/
abbrev BitSet := Nat

namespace BitSet

def empty : BitSet := 0

/-- Membership. -/
def has (s : BitSet) (v : Nat) : Bool := s.testBit v

def insert (s : BitSet) (v : Nat) : BitSet := s ||| (1 <<< v)

def union (s t : BitSet) : BitSet := s ||| t

/-- The members of `s` that are not in `t`. -/
def diff (s t : BitSet) : BitSet := s ^^^ (s &&& t)

def erase (s : BitSet) (v : Nat) : BitSet := diff s (1 <<< v)

/-- The members below `n`, in ascending order. -/
def toList (s : BitSet) (n : Nat) : List Nat := (List.range n).filter s.has

@[simp] theorem has_empty (v : Nat) : empty.has v = false := by simp [empty, has]

@[simp] theorem has_insert (s : BitSet) (v w : Nat) :
    (s.insert v).has w = (s.has w || decide (v = w)) := by
  simp only [insert, has, Nat.testBit_or, Nat.one_shiftLeft, Nat.testBit_two_pow]

@[simp] theorem has_union (s t : BitSet) (v : Nat) :
    (s.union t).has v = (s.has v || t.has v) := by
  simp only [union, has, Nat.testBit_or]

@[simp] theorem has_diff (s t : BitSet) (v : Nat) :
    (s.diff t).has v = (s.has v && !t.has v) := by
  simp only [diff, has, Nat.testBit_xor, Nat.testBit_and]
  cases s.testBit v <;> cases t.testBit v <;> rfl

@[simp] theorem has_erase (s : BitSet) (v w : Nat) :
    (s.erase v).has w = (s.has w && !decide (v = w)) := by
  simp only [erase, has_diff]
  congr 2
  simp only [has, Nat.one_shiftLeft, Nat.testBit_two_pow]

@[simp] theorem mem_toList {s : BitSet} {n v : Nat} :
    v ∈ s.toList n ↔ v < n ∧ s.has v = true := by
  simp [toList]

/-- Sets with the same members are equal. -/
theorem ext {s t : BitSet} (h : ∀ v, s.has v = t.has v) : s = t :=
  Nat.eq_of_testBit_eq h

/-- A union over a list of sets. -/
theorem has_foldl_union {ι : Type*} (f : ι → BitSet) (v : Nat) :
    ∀ (l : List ι) (s : BitSet),
      (l.foldl (fun acc i => acc.union (f i)) s).has v = (s.has v || l.any fun i => (f i).has v)
  | [], s => by simp
  | i :: l, s => by
    rw [List.foldl_cons, has_foldl_union f v l, has_union, List.any_cons, Bool.or_assoc]

/-- Inserting a list of members. -/
theorem has_foldl_insert (v : Nat) :
    ∀ (l : List Nat) (s : BitSet),
      (l.foldl insert s).has v = (s.has v || decide (v ∈ l))
  | [], s => by simp
  | w :: l, s => by
    rw [List.foldl_cons, has_foldl_insert v l, has_insert, Bool.or_assoc]
    congr 1
    by_cases h : v = w
    · simp [h]
    · simp [h, Ne.symm h]

/-- Erasing a list of members. -/
theorem has_foldl_erase (v : Nat) :
    ∀ (l : List Nat) (s : BitSet),
      (l.foldl erase s).has v = (s.has v && !decide (v ∈ l))
  | [], s => by simp
  | w :: l, s => by
    rw [List.foldl_cons, has_foldl_erase v l, has_erase, Bool.and_assoc]
    congr 1
    by_cases h : v = w
    · simp [h]
    · simp [h, Ne.symm h]

end BitSet

end Nib.Infra
