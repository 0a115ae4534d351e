import Mathlib.Data.Finset.Card
import Mathlib.Data.Finset.Range
import Mathlib.Logic.Function.Basic
import Mathlib.Tactic.Common

/-!
# Backward may-analysis of one fact on a finite graph

A fact holds at a node when the node generates it, or when the node does not kill it and it
holds at some successor. `Problem.Holds` is the least such set. A round-robin solver updates
the nodes in place, one sweep after another.

* `sweep_sound` — a sweep never claims a fact that does not hold
* `sweeps_complete` — after `k` sweeps every fact with a derivation of height `k` is claimed
* `holdsIn_of_holds` — on `n` nodes a derivation of height `n` is enough

The last one is the finite-height argument: the sets of nodes derivable in `k` steps grow
with `k`, and as soon as two consecutive ones agree they stop growing.
-/

namespace Nib.Infra.Dataflow

/-- One fact over a graph whose nodes are naturals. -/
structure Problem where
  gen : Nat → Bool
  kill : Nat → Bool
  succs : Nat → List Nat

namespace Problem

variable (P : Problem)

/-- The least solution. -/
inductive Holds : Nat → Prop
  | gen {b : Nat} : P.gen b = true → Holds b
  | step {b s : Nat} : P.kill b = false → s ∈ P.succs b → Holds s → Holds b

/-- Derivable with at most `k` nested steps. -/
def HoldsIn : Nat → Nat → Prop
  | 0, _ => False
  | k + 1, b => P.gen b = true ∨ (P.kill b = false ∧ ∃ s ∈ P.succs b, HoldsIn k s)

theorem holdsIn_succ {k b : Nat} (h : P.HoldsIn k b) : P.HoldsIn (k + 1) b := by
  induction k generalizing b with
  | zero => exact absurd h id
  | succ k ih =>
    rcases h with h | ⟨hk, s, hs, h⟩
    · exact Or.inl h
    · exact Or.inr ⟨hk, s, hs, ih h⟩

theorem holdsIn_mono {j k b : Nat} (hjk : j ≤ k) (h : P.HoldsIn j b) : P.HoldsIn k b := by
  induction hjk with
  | refl => exact h
  | step _ ih => exact P.holdsIn_succ ih

theorem exists_holdsIn {b : Nat} (h : P.Holds b) : ∃ k, P.HoldsIn k b := by
  induction h with
  | gen hg => exact ⟨1, Or.inl hg⟩
  | step hk hs _ ih =>
    obtain ⟨k, h⟩ := ih
    exact ⟨k + 1, Or.inr ⟨hk, _, hs, h⟩⟩

/-! ## The bound on the height -/

section Bound

variable {n : Nat}

/-- If one more step adds nothing below `n`, no number of further steps does. -/
theorem holdsIn_stable (hsucc : ∀ b, ∀ s ∈ P.succs b, s < n) {k : Nat}
    (hk : ∀ b < n, P.HoldsIn (k + 1) b → P.HoldsIn k b) :
    ∀ j, ∀ b < n, P.HoldsIn (k + j) b → P.HoldsIn k b
  | 0, _, _, h => h
  | j + 1, b, hb, h => by
    rcases h with h | ⟨hkill, s, hs, h⟩
    · exact hk b hb (Or.inl h)
    · exact hk b hb (Or.inr ⟨hkill, s, hs, holdsIn_stable hsucc hk j s (hsucc b s hs) h⟩)

/-- Until the sets stop growing, the `k`-th has at least `k` members. -/
theorem card_or_stable (n : Nat) (k : Nat) :
    (∃ j ≤ k, ∀ b < n, P.HoldsIn (j + 1) b → P.HoldsIn j b) ∨
      ∃ A : Finset Nat, k ≤ A.card ∧ ∀ b ∈ A, b < n ∧ P.HoldsIn k b := by
  induction k with
  | zero => exact Or.inr ⟨∅, by simp, by simp⟩
  | succ k ih =>
    rcases ih with ⟨j, hj, h⟩ | ⟨A, hA, hmem⟩
    · exact Or.inl ⟨j, by omega, h⟩
    · by_cases hst : ∀ b < n, P.HoldsIn (k + 1) b → P.HoldsIn k b
      · exact Or.inl ⟨k, by omega, hst⟩
      · push Not at hst
        obtain ⟨b, hb, h1, h2⟩ := hst
        have hnot : b ∉ A := fun hc => h2 (hmem b hc).2
        refine Or.inr ⟨insert b A, by rw [Finset.card_insert_of_notMem hnot]; omega, ?_⟩
        intro c hc
        rcases Finset.mem_insert.mp hc with rfl | hc
        · exact ⟨hb, h1⟩
        · exact ⟨(hmem c hc).1, P.holdsIn_succ (hmem c hc).2⟩

/-- **On `n` nodes a derivation of height `n` is enough.** -/
theorem holdsIn_of_holds (hsucc : ∀ b, ∀ s ∈ P.succs b, s < n) {b : Nat} (hb : b < n)
    (h : P.Holds b) : P.HoldsIn n b := by
  obtain ⟨k, hk⟩ := P.exists_holdsIn h
  rcases P.card_or_stable n n with ⟨j, hj, hst⟩ | ⟨A, hA, hmem⟩
  · have hjk : P.HoldsIn (j + k) b := P.holdsIn_mono (by omega) hk
    exact P.holdsIn_mono hj (P.holdsIn_stable hsucc hst k b hb hjk)
  · have hsub : A ⊆ Finset.range n := fun c hc => Finset.mem_range.mpr (hmem c hc).1
    have hAll : A = Finset.range n :=
      Finset.eq_of_subset_of_card_le hsub (by rw [Finset.card_range]; exact hA)
    exact (hmem b (hAll ▸ Finset.mem_range.mpr hb)).2

end Bound

/-! ## The round-robin solver -/

/-- The equation of one node, read in the current claims. -/
def transfer (f : Nat → Bool) (b : Nat) : Bool :=
  P.gen b || (!P.kill b && (P.succs b).any f)

/-- Update the listed nodes in place, one after another. -/
def sweep (f : Nat → Bool) : List Nat → (Nat → Bool)
  | [] => f
  | b :: bs => sweep (Function.update f b (P.transfer f b)) bs

theorem transfer_sound {f : Nat → Bool} (hf : ∀ b, f b = true → P.Holds b) {b : Nat}
    (h : P.transfer f b = true) : P.Holds b := by
  simp only [transfer, Bool.or_eq_true, Bool.and_eq_true, Bool.not_eq_true', List.any_eq_true]
    at h
  rcases h with h | ⟨hk, s, hs, h⟩
  · exact Holds.gen h
  · exact Holds.step hk hs (hf s h)

theorem sweep_sound : ∀ (bs : List Nat) {f : Nat → Bool}, (∀ b, f b = true → P.Holds b) →
    ∀ b, P.sweep f bs b = true → P.Holds b
  | [], _, hf, b, h => hf b h
  | c :: bs, f, hf, b, h => by
    refine sweep_sound bs ?_ b h
    intro d hd
    by_cases hdc : d = c
    · subst hdc
      rw [Function.update_self] at hd
      exact P.transfer_sound hf hd
    · rw [Function.update_of_ne hdc] at hd
      exact hf d hd

theorem transfer_complete {f : Nat → Bool} {k b : Nat} (hf : ∀ s ∈ P.succs b, P.HoldsIn k s →
    f s = true) (h : P.HoldsIn (k + 1) b) : P.transfer f b = true := by
  simp only [transfer, Bool.or_eq_true, Bool.and_eq_true, Bool.not_eq_true', List.any_eq_true]
  rcases h with h | ⟨hk, s, hs, h⟩
  · exact Or.inl h
  · exact Or.inr ⟨hk, s, hs, hf s hs h⟩

/-- Read in exact claims, the equation of a node is exact. -/
theorem transfer_exact {f : Nat → Bool} {b : Nat}
    (hf : ∀ s ∈ P.succs b, f s = true ↔ P.Holds s) : P.transfer f b = true ↔ P.Holds b := by
  simp only [transfer, Bool.or_eq_true, Bool.and_eq_true, Bool.not_eq_true', List.any_eq_true]
  constructor
  · rintro (hg | ⟨hk, s, hs, h⟩)
    · exact Holds.gen hg
    · exact Holds.step hk hs ((hf s hs).mp h)
  · rintro (hg | ⟨hk, hs, h⟩)
    · exact Or.inl hg
    · exact Or.inr ⟨hk, _, hs, (hf _ hs).mpr h⟩

section Complete

variable {n : Nat}

/-- What one sweep adds: claims of height `j` before it, of height `j + 1` after it at every
node it visits. Nodes already visited hold the higher claims, which include the lower ones. -/
theorem sweep_complete (hsucc : ∀ b, ∀ s ∈ P.succs b, s < n) {j : Nat} :
    ∀ (bs : List Nat) {f : Nat → Bool}, (∀ b < n, P.HoldsIn j b → f b = true) → ∀ b < n,
      (b ∈ bs ∨ (P.HoldsIn (j + 1) b → f b = true)) → P.HoldsIn (j + 1) b →
        P.sweep f bs b = true
  | [], _, _, b, _, hb, h => by
    rcases hb with hb | hb
    · exact absurd hb (by simp)
    · exact hb h
  | c :: bs, f, hf, b, hbn, hb, h => by
    have hc : P.HoldsIn (j + 1) c → P.transfer f c = true :=
      P.transfer_complete fun s hs hh => hf s (hsucc c s hs) hh
    refine sweep_complete hsucc bs ?_ b hbn ?_ h
    · intro d hd hdj
      by_cases hdc : d = c
      · subst hdc
        rw [Function.update_self]
        exact hc (P.holdsIn_succ hdj)
      · rw [Function.update_of_ne hdc]
        exact hf d hd hdj
    · by_cases hbc : b = c
      · subst hbc
        exact Or.inr fun h => by rw [Function.update_self]; exact hc h
      · rcases hb with hb | hb
        · exact Or.inl ((List.mem_cons.mp hb).resolve_left hbc)
        · exact Or.inr fun h => by rw [Function.update_of_ne hbc]; exact hb h

end Complete

/-- `k` sweeps over the same nodes. -/
def sweeps (bs : List Nat) : Nat → (Nat → Bool) → (Nat → Bool)
  | 0, f => f
  | k + 1, f => sweeps bs k (P.sweep f bs)

theorem sweeps_sound (bs : List Nat) : ∀ (k : Nat) {f : Nat → Bool},
    (∀ b, f b = true → P.Holds b) → ∀ b, P.sweeps bs k f b = true → P.Holds b
  | 0, _, hf, b, h => hf b h
  | k + 1, _, hf, b, h => sweeps_sound bs k (P.sweep_sound bs hf) b h

/-- **`k` sweeps over all nodes claim every fact with a derivation of height `k`.** -/
theorem sweeps_complete {n : Nat} {bs : List Nat} (hbs : ∀ b, b < n → b ∈ bs)
    (hsucc : ∀ b, ∀ s ∈ P.succs b, s < n) : ∀ (k j : Nat) {f : Nat → Bool},
    (∀ b < n, P.HoldsIn j b → f b = true) → ∀ b < n, P.HoldsIn (j + k) b →
      P.sweeps bs k f b = true
  | 0, _, _, hf, b, hb, h => hf b hb h
  | k + 1, j, f, hf, b, hb, h => by
    refine sweeps_complete hbs hsucc k (j + 1) ?_ b hb (by rwa [Nat.add_assoc, Nat.add_comm 1 k])
    intro c hc hj
    exact P.sweep_complete hsucc bs hf c hc (Or.inl (hbs c hc)) hj

end Problem

end Nib.Infra.Dataflow
