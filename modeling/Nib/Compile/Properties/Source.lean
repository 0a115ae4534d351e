import Nib.Compile.Spec.Source
import Mathlib.Logic.Function.Iterate

/-!
# What the statement trees do

* `for_counts` — the body of a `for` runs with the counts start, start - 1, …, 1
* `testEnters_xor_iff` — when the jumps printed for an exclusive or decide as it does
* `testEnters_pair` — the jumps printed for one or two flags that have a jump decide as they do
-/

namespace Nib.Compile

open Nib.Infra

variable {ρ : Type}

/-! ## The iterations of a `for` -/

/-- How often a body runs for a start value. -/
def iterations (x : BitVec 16) : Nat := if x = 0 then 65536 else x.toNat

theorem MachState.decr_vreg (s : MachState ρ) (v : Int) : (s.decr v).vreg v = s.vreg v - 1 := by
  simp only [MachState.decr, MachState.setVreg, if_true]

theorem iterations_pos (x : BitVec 16) : 0 < iterations x := by
  unfold iterations
  split_ifs with h
  · omega
  · bv_omega

/-- The count reaches zero with the last iteration and not before. -/
theorem countdown_eq_zero_iff {x : BitVec 16} {i : Nat} (h : i < iterations x) :
    x - BitVec.ofNat 16 (i + 1) = 0 ↔ i + 1 = iterations x := by
  unfold iterations at h ⊢
  split_ifs at h ⊢ with hx
  · subst hx
    bv_omega
  · bv_omega

section Count

variable {exec : Exec ρ} {whole : List Tree} {cx : Int} {lblTop lblEnd : Nat}
  {body rest : List Tree} {k : List Frame} {g : MachState ρ → MachState ρ}
  {ev : MachState ρ → List Line}

/-- The state at the start of the next iteration, for a body that does `g`. -/
def nextIteration (cx : Int) (g : MachState ρ → MachState ρ) (s : MachState ρ) : MachState ρ :=
  (g s).decr cx

/-- What `i` iterations emit. -/
def iterationEvents (cx : Int) (g : MachState ρ → MachState ρ) (ev : MachState ρ → List Line)
    (s : MachState ρ) : Nat → List Line
  | 0 => []
  | i + 1 => iterationEvents cx g ev s i ++ ev ((nextIteration cx g)^[i] s)

theorem iterate_vreg (hcx : ∀ s, (g s).vreg cx = s.vreg cx) (s : MachState ρ) :
    ∀ i, ((nextIteration cx g)^[i] s).vreg cx = s.vreg cx - BitVec.ofNat 16 i
  | 0 => by simp
  | i + 1 => by
    have ih := iterate_vreg hcx s i
    rw [Function.iterate_succ_apply', nextIteration, MachState.decr_vreg, hcx, ih]
    bv_omega

/-- **The body of a `for` runs with the counts start, start - 1, …, 1**, and 65536 times when the
start is 0, if it reaches its end and leaves the counter as it is. -/
theorem for_counts
    (hbody : ∀ s, ∃ n, Steps (srcStep exec whole) n ⟨body, .for cx lblTop lblEnd body rest :: k, s⟩
      (ev s) ⟨[], .for cx lblTop lblEnd body rest :: k, g s⟩)
    (hcx : ∀ s, (g s).vreg cx = s.vreg cx) (s : MachState ρ) :
    (∀ i < iterations (s.vreg cx),
      (∃ n, Steps (srcStep exec whole) n ⟨body, .for cx lblTop lblEnd body rest :: k, s⟩
        (iterationEvents cx g ev s i)
        ⟨body, .for cx lblTop lblEnd body rest :: k, (nextIteration cx g)^[i] s⟩) ∧
      ((nextIteration cx g)^[i] s).vreg cx = s.vreg cx - BitVec.ofNat 16 i) ∧
    ∃ n, Steps (srcStep exec whole) n ⟨body, .for cx lblTop lblEnd body rest :: k, s⟩
      (iterationEvents cx g ev s (iterations (s.vreg cx)))
      ⟨rest, k, (nextIteration cx g)^[iterations (s.vreg cx)] s⟩ := by
  -- one more iteration, and the test after it
  have hone : ∀ i, ∃ n, Steps (srcStep exec whole) n
      ⟨body, .for cx lblTop lblEnd body rest :: k, (nextIteration cx g)^[i] s⟩
      (ev ((nextIteration cx g)^[i] s))
      (testFor cx lblTop lblEnd body rest k (g ((nextIteration cx g)^[i] s))) := by
    intro i
    obtain ⟨n, hn⟩ := hbody ((nextIteration cx g)^[i] s)
    exact ⟨n + 1, hn.then_silent (.single rfl)⟩
  have hreach : ∀ i < iterations (s.vreg cx), ∃ n, Steps (srcStep exec whole) n
      ⟨body, .for cx lblTop lblEnd body rest :: k, s⟩ (iterationEvents cx g ev s i)
      ⟨body, .for cx lblTop lblEnd body rest :: k, (nextIteration cx g)^[i] s⟩ := by
    intro i
    induction i with
    | zero => exact fun _ => ⟨0, .refl _⟩
    | succ i ih =>
      intro hi
      obtain ⟨n, hn⟩ := ih (by omega)
      obtain ⟨m, hm⟩ := hone i
      have hv : ¬((g ((nextIteration cx g)^[i] s)).decr cx).vreg cx = 0 := by
        have := iterate_vreg hcx s (i + 1)
        rw [Function.iterate_succ_apply'] at this
        show ¬(nextIteration cx g _).vreg cx = 0
        rw [this, countdown_eq_zero_iff (by omega)]
        omega
      rw [testFor, if_neg hv] at hm
      rw [Function.iterate_succ_apply']
      exact ⟨n + m, hn.trans hm⟩
  refine ⟨fun i hi => ⟨hreach i hi, iterate_vreg hcx s i⟩, ?_⟩
  obtain ⟨i, hi⟩ : ∃ i, iterations (s.vreg cx) = i + 1 :=
    ⟨iterations (s.vreg cx) - 1, by have := iterations_pos (s.vreg cx); omega⟩
  obtain ⟨n, hn⟩ := hreach i (by omega)
  obtain ⟨m, hm⟩ := hone i
  have hv : ((g ((nextIteration cx g)^[i] s)).decr cx).vreg cx = 0 := by
    have := iterate_vreg hcx s (i + 1)
    rw [Function.iterate_succ_apply'] at this
    show (nextIteration cx g _).vreg cx = 0
    rw [this, countdown_eq_zero_iff (by omega)]
    exact hi.symm
  rw [testFor, if_pos hv] at hm
  rw [hi, Function.iterate_succ_apply']
  exact ⟨n + m, hn.trans hm⟩

end Count

/-! ## Flag tests -/

/-- Conditions of one or two flags that the compiler has the jumps for. -/
def jumpable : FlagExpr → Bool
  | .flag a | .not (.flag a) => hasJump a
  | .or (.flag a) (.flag b) | .and (.flag a) (.flag b) => hasJump a && hasJump b
  | _ => false

theorem jumpsOn_flag {a : Flag} (h : hasJump a = true) (flag : Flag → Bool) (set : Bool) :
    jumpsOn flag (.flag a) set = some (flag a == set) := if_pos h

/-- The jumps printed for these conditions decide as they do. -/
theorem testEnters_of_jumpable (flag : Flag → Bool) : ∀ {condition : FlagExpr},
    jumpable condition = true → testEnters flag condition = some (condition.eval flag)
  | .flag a, h => by
    rw [testEnters, jumpsOn_flag h, FlagExpr.eval]
    cases flag a <;> rfl
  | .not (.flag a), h => by
    rw [testEnters, jumpsOn_flag h, FlagExpr.eval, FlagExpr.eval]
    cases flag a <;> rfl
  | .or (.flag a) (.flag b), h => by
    obtain ⟨ha, hb⟩ := Bool.and_eq_true_iff.mp h
    simp only [testEnters, jumpsOn_flag ha, jumpsOn_flag hb, FlagExpr.eval]
    cases flag a <;> cases flag b <;> rfl
  | .and (.flag a) (.flag b), h => by
    obtain ⟨ha, hb⟩ := Bool.and_eq_true_iff.mp h
    simp only [testEnters, jumpsOn_flag ha, jumpsOn_flag hb, FlagExpr.eval]
    cases flag a <;> cases flag b <;> rfl

/-- The case of an exclusive or is skipped when only the second flag is set. -/
theorem testEnters_xor_iff {a b : Flag} (ha : hasJump a = true) (hb : hasJump b = true)
    (flag : Flag → Bool) :
    testEnters flag (.xor (.flag a) (.flag b)) =
        some ((FlagExpr.xor (.flag a) (.flag b)).eval flag) ↔
      ¬(flag a = false ∧ flag b = true) := by
  simp only [testEnters, jumpsOn_flag ha, jumpsOn_flag hb, FlagExpr.eval]
  cases flag a <;> cases flag b <;> decide

end Nib.Compile
