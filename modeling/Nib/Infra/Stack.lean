import Nib.Infra.Bytes

/-!
# Words on a stack

A stack that grows downwards in a memory whose addresses wrap around.

* `wordsAt` — the words from an address upwards
* `wordsAt_write` — a word that is written outside of them leaves them
* `wordsAt_pushWords` — pushes leave the words above
* `pushWords_wordsAt` — what has been pushed lies in front of what was there
-/

namespace Nib.Infra

/-! ## Words in memory -/

/-- The words that lie from an address upwards. -/
def wordsAt (m : Memory) : BitVec 16 → List (BitVec 16) → Prop
  | _, [] => True
  | a, w :: ws => readWord m a = w ∧ wordsAt m (a + 2) ws

theorem wordsAt_append {m : Memory} : ∀ {a : BitVec 16} {ws vs : List (BitVec 16)},
    wordsAt m a (ws ++ vs) ↔ wordsAt m a ws ∧ wordsAt m (a + BitVec.ofNat 16 (2 * ws.length)) vs
  | a, [], vs => by simp [wordsAt]
  | a, w :: ws, vs => by
    have hlen : a + BitVec.ofNat 16 (2 * (w :: ws).length) =
        a + 2 + BitVec.ofNat 16 (2 * ws.length) := by
      rw [List.length_cons]
      bv_omega
    rw [List.cons_append, wordsAt, wordsAt, wordsAt_append, hlen, and_assoc]

theorem readWord_of_wordsAt {m : Memory} : ∀ {a : BitVec 16} {ws : List (BitVec 16)} (i : Nat)
    (hi : i < ws.length), wordsAt m a ws → readWord m (a + BitVec.ofNat 16 (2 * i)) = ws[i]
  | a, _ :: _, 0, _, ⟨hw, _⟩ => by
    rw [Nat.mul_zero, BitVec.add_zero]
    exact hw
  | a, _ :: ws, i + 1, hi, ⟨_, hws⟩ => by
    have hadd : a + BitVec.ofNat 16 (2 * (i + 1)) = a + 2 + BitVec.ofNat 16 (2 * i) := by bv_omega
    rw [hadd]
    exact readWord_of_wordsAt i (Nat.lt_of_succ_lt_succ hi) hws

/-- A byte below the words, or above them. -/
def Outside (a : BitVec 16) (n : Nat) (b : BitVec 16) : Prop := 2 * n ≤ (b - a).toNat

theorem readWord_write_of_ne {m : Memory} {a b x : BitVec 16} (h : 2 ≤ (b - a).toNat)
    (h' : (b - a).toNat < 65535) : readWord (write false m b x) a = readWord m a := by
  have hlow : ¬written false b a := by
    unfold written
    rintro (rfl | ⟨-, rfl⟩) <;> bv_omega
  have hhigh : ¬written false b (a + 1) := by
    unfold written
    rintro (hb | ⟨-, hb⟩) <;> bv_omega
  unfold readWord
  rw [write_of_notMem hlow, write_of_notMem hhigh]

/-- A word that is written outside of the words leaves them. -/
theorem wordsAt_write {m : Memory} {b x : BitVec 16} : ∀ {a : BitVec 16} {ws : List (BitVec 16)},
    Outside a ws.length b → (b - a).toNat < 65535 → wordsAt m a ws →
    wordsAt (write false m b x) a ws
  | _, [], _, _, _ => trivial
  | a, w :: ws, hout, hlt, ⟨hw, hws⟩ => by
    unfold Outside at hout
    rw [List.length_cons] at hout
    have hsub : (b - (a + 2)).toNat = (b - a).toNat - 2 := by bv_omega
    refine ⟨?_, wordsAt_write ?_ (by omega) hws⟩
    · rw [readWord_write_of_ne (by omega) hlt]
      exact hw
    · unfold Outside
      omega

/-- Words stay where every byte of them does. -/
theorem wordsAt_congr {m m' : Memory} : ∀ {a : BitVec 16} {ws : List (BitVec 16)},
    (∀ i < 2 * ws.length, m' (a + BitVec.ofNat 16 i) = m (a + BitVec.ofNat 16 i)) →
    wordsAt m a ws → wordsAt m' a ws
  | _, [], _, _ => trivial
  | a, w :: ws, hkeep, ⟨hw, hws⟩ => by
    rw [List.length_cons] at hkeep
    have h0 := hkeep 0 (by omega)
    have h1 := hkeep 1 (by omega)
    rw [BitVec.add_zero] at h0
    refine ⟨?_, wordsAt_congr (fun i hi => ?_) hws⟩
    · rw [← hw, readWord, readWord, h0]
      exact congrArg₂ joinBytes h1 rfl
    · have hadd : a + 2 + BitVec.ofNat 16 i = a + BitVec.ofNat 16 (i + 2) := by bv_omega
      rw [hadd]
      exact hkeep (i + 2) (by omega)

/-! ## Pushing -/

/-- The memory and the stack pointer after words have been pushed. -/
def pushWords (m : Memory) (sp : BitVec 16) : List (BitVec 16) → Memory × BitVec 16
  | [] => (m, sp)
  | w :: ws => pushWords (write false m (sp - 2) w) (sp - 2) ws

theorem pushWords_sp : ∀ (m : Memory) (sp : BitVec 16) (ws : List (BitVec 16)),
    (pushWords m sp ws).2 = sp - BitVec.ofNat 16 (2 * ws.length)
  | _, sp, [] => (BitVec.sub_zero sp).symm
  | m, sp, w :: ws => by
    rw [pushWords, pushWords_sp, List.length_cons]
    bv_omega

/-- Pushes leave the words above, as long as they do not come around to them. -/
theorem wordsAt_pushWords {a : BitVec 16} {vs : List (BitVec 16)} :
    ∀ {ws : List (BitVec 16)} {m : Memory} {sp : BitVec 16},
    (a - sp).toNat + 2 * vs.length + 2 * ws.length ≤ 65536 → wordsAt m a vs →
    wordsAt (pushWords m sp ws).1 a vs
  | [], _, _, _, h => h
  | w :: ws, m, sp, hroom, h => by
    rw [List.length_cons] at hroom
    cases vs with
    | nil => trivial
    | cons v vs =>
      rw [List.length_cons] at hroom
      have hd : (a - (sp - 2)).toNat = (a - sp).toNat + 2 := by bv_omega
      have hb : (sp - 2 - a).toNat = 65534 - (a - sp).toNat := by bv_omega
      have hout : Outside a (v :: vs).length (sp - 2) := by
        unfold Outside
        rw [List.length_cons, hb]
        omega
      have hkeep : wordsAt (write false m (sp - 2) w) a (v :: vs) :=
        wordsAt_write hout (by omega) h
      have hroom' : (a - (sp - 2)).toNat + 2 * (v :: vs).length + 2 * ws.length ≤ 65536 := by
        rw [List.length_cons, hd]
        omega
      rw [pushWords]
      exact wordsAt_pushWords hroom' hkeep

/-- What has been pushed lies in front of what was there, the last word first. -/
theorem pushWords_wordsAt : ∀ {ws vs : List (BitVec 16)} {m : Memory} {sp : BitVec 16},
    2 * vs.length + 2 * ws.length ≤ 65536 → wordsAt m sp vs →
    wordsAt (pushWords m sp ws).1 (pushWords m sp ws).2 (ws.reverse ++ vs)
  | [], _, _, _, _, h => h
  | w :: ws, vs, m, sp, hroom, h => by
    rw [List.length_cons] at hroom
    have hpushed : wordsAt (write false m (sp - 2) w) (sp - 2) (w :: vs) := by
      refine ⟨?_, ?_⟩
      · rw [readWord_write]
        rfl
      · have hback : sp - 2 + 2 = sp := by bv_omega
        have hone : wordsAt (pushWords m sp [w]).1 sp vs := by
          refine wordsAt_pushWords ?_ h
          rw [BitVec.sub_self, List.length_singleton]
          simp only [BitVec.toNat_ofNat]
          omega
        rw [hback]
        exact hone
    rw [List.reverse_cons, List.append_assoc]
    exact pushWords_wordsAt (by rw [List.length_cons]; omega) hpushed

end Nib.Infra
