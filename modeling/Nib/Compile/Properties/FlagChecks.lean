import Nib.Compile.Spec.FlagChecks
import Nib.Compile.Properties.Control
import Nib.Compile.Properties.Source

/-!
# Flag checks of an assignment

* `emitFlagCase_lines` — the test of a case, its handler, and the label behind it
* `flagChecks_done` — every case is decided by the flags that the operation has left
-/

namespace Nib.Compile

open Nib.Infra EmitStmt

variable {ρ : Type} {exec : Exec ρ} {prog : List Line} {u : MachState ρ}

/-! ## Conditions -/

theorem eval_congr {f g : Flag → Bool} : ∀ {e : FlagExpr}, (∀ a ∈ e.flags, f a = g a) →
    e.eval f = e.eval g
  | .flag id, h => h id (List.mem_singleton_self id)
  | .not e, h => congrArg not (@eval_congr f g e h)
  | .or l r, h => by
    have hl := @eval_congr f g l fun a ha => h a (List.mem_append_left _ ha)
    have hr := @eval_congr f g r fun a ha => h a (List.mem_append_right _ ha)
    rw [FlagExpr.eval, FlagExpr.eval, hl, hr]
  | .and l r, h => by
    have hl := @eval_congr f g l fun a ha => h a (List.mem_append_left _ ha)
    have hr := @eval_congr f g r fun a ha => h a (List.mem_append_right _ ha)
    rw [FlagExpr.eval, FlagExpr.eval, hl, hr]
  | .xor l r, h => by
    have hl := @eval_congr f g l fun a ha => h a (List.mem_append_left _ ha)
    have hr := @eval_congr f g r fun a ha => h a (List.mem_append_right _ ha)
    rw [FlagExpr.eval, FlagExpr.eval, hl, hr]

/-- The jumps of a lowered condition decide as it does. -/
theorem testEnters_of_lowered {flag : Flag → Bool} {e : FlagExpr} (h : Lowered flag e) :
    testEnters flag e = some (e.eval flag) := by
  cases e with
  | flag a => exact testEnters_of_jumpable flag h
  | not e =>
    cases e with
    | flag a => exact testEnters_of_jumpable flag h
    | _ => exact h.elim
  | or l r =>
    cases l <;> cases r <;> first
      | exact h.elim
      | exact testEnters_of_jumpable flag (Bool.and_eq_true_iff.mpr h)
  | and l r =>
    cases l <;> cases r <;> first
      | exact h.elim
      | exact testEnters_of_jumpable flag (Bool.and_eq_true_iff.mpr h)
  | xor l r =>
    cases l <;> cases r <;> first
      | exact h.elim
      | exact (testEnters_xor_iff h.1 h.2.1 flag).mpr h.2.2

/-! ## The lines of a case -/

/-- The handler of a case, after the labels of its test are taken. -/
def handlerOf (c : FlagCase Stmt) : EmitStmt Unit :=
  match c.body with
  | none => emitTrap c.condition
  | some body => inScope (emitStmts body)

def afterTest (c : FlagCase Stmt) (s : FnState) : FnState :=
  { s with nextLabel := s.nextLabel + 1 + testLabels c.condition }

theorem emitFlagCase_lines (c : FlagCase Stmt) (s : FnState) :
    (emitFlagCase c s).lines = testLines c.condition s.nextLabel ++
      ((handlerOf c (afterTest c s)).lines ++ [.label (.auto s.nextLabel)]) := by
  have htest := emitFlagTest_eq c.condition s
  obtain ⟨condition, body⟩ := c
  cases body with
  | none =>
    simp only [emitFlagCase, bind, allocLabel, htest, placeLabel, printLine, List.nil_append]
    rfl
  | some body =>
    simp only [emitFlagCase, bind, allocLabel, htest, placeLabel, printLine, List.nil_append]
    rfl

theorem emitFlagChecks_lines (c : FlagCase Stmt) (rest : List (FlagCase Stmt)) (s : FnState) :
    (emitFlagChecks (c :: rest) s).lines =
      (emitFlagCase c s).lines ++ (emitFlagChecks rest (emitFlagCase c s).state).lines := by
  rw [emitFlagChecks]
  rfl

/-- The lines of a case stand at its place. -/
theorem sits_casePlace : ∀ {cases : List (FlagCase Stmt)} {s : FnState} {pc : Nat} {p : CasePlace},
    Sits prog pc (emitFlagChecks cases s).lines → p ∈ casePlaces pc cases s →
    ∃ skip lines, Sits prog p.test (testLines p.condition skip ++
        (lines ++ [.label (.auto skip)])) ∧
      p.handler = p.test + (testLines p.condition skip).length ∧
      p.next = p.handler + lines.length + 1
  | [], _, _, _, _, hp => nomatch hp
  | c :: rest, s, pc, p, hsits, hp => by
    rw [emitFlagChecks_lines] at hsits
    rcases List.mem_cons.mp hp with rfl | hp
    · have hlines := emitFlagCase_lines c s
      have htest : emitFlagTest c.condition s.nextLabel { s with nextLabel := s.nextLabel + 1 } =
          ⟨(), testLines c.condition s.nextLabel, _⟩ := emitFlagTest_eq c.condition s
      refine ⟨s.nextLabel, (handlerOf c (afterTest c s)).lines, ?_, ?_, ?_⟩
      · rw [← hlines]
        exact hsits.left
      · show pc + _ = _
        rw [htest]
      · show pc + (emitFlagCase c s).lines.length = pc + _ + _ + 1
        rw [htest, hlines]
        simp
        omega
    · exact sits_casePlace hsits.right hp

/-! ## Decisions -/

theorem decides_of_lowered {cases : List (FlagCase Stmt)} {s : FnState} {pc : Nat} {p : CasePlace}
    (hnodup : (autoLabels prog).Nodup) (hsits : Sits prog pc (emitFlagChecks cases s).lines)
    (hp : p ∈ casePlaces pc cases s) {flag : Flag → Bool} (hlow : Lowered u.flag p.condition)
    (hsame : ∀ g ∈ p.condition.flags, u.flag g = flag g) : Decides exec prog flag p u := by
  obtain ⟨skip, lines, hcase, hhandler, hnext⟩ := sits_casePlace hsits hp
  have hskip := hcase.right.right
  have hindex := hskip.labelIndex hnodup
  obtain ⟨n, hn⟩ := @testLines_steps ρ exec prog p.test _ u _ hnodup p.condition skip _ hcase
    (testEnters_of_lowered hlow) hindex
  rw [eval_congr hsame] at hn
  unfold Decides
  cases heval : p.condition.eval flag with
  | true =>
    rw [heval] at hn
    rw [hhandler]
    exact ⟨n, hn⟩
  | false =>
    rw [heval] at hn
    have hlast := step_label exec hskip u
    rw [hnext, hhandler]
    exact ⟨n + 1, hn.then_silent hlast⟩

theorem emitStmt_operation {a : Stmt} {op : EmitStmt Bool} {cases : List (FlagCase Stmt)}
    (h : a.operation = some (op, cases)) (s : FnState) : (emitStmt a s).lines =
      (op s).lines ++ if (op s).value then (emitFlagChecks cases (op s).state).lines else [] := by
  cases a with
  | assign line targets value flagChecks =>
    cases h
    rw [emitStmt]
    simp only [bind]
    split <;> simp [pure, *]
  | toggleAssign line target value flagChecks =>
    cases h
    rw [emitStmt]
    simp only [bind, pure, List.append_nil, if_true, List.append_assoc]
  | _ => cases h

/-- `AX = AX + AX` and what is checked after it. -/
def addOperation : EmitStmt Bool := do
  lift (emitLineNote 0)
  lift (emitAssign [.reg 0 false] (.binop .add (.reg 0 false) (.reg 0 false)))

def addChecked (condition : FlagExpr) : Stmt :=
  .assign 0 [.reg 0 false] (.binop .add (.reg 0 false) (.reg 0 false)) [⟨condition, none⟩]

def skipExec : Exec Unit := fun _ u => u

/-- A state in which one flag is set. -/
def flagState (id : Flag) : MachState Unit := ⟨fun _ => 0, fun g => g = id, ()⟩

/-- The only test of `OF` is gone through once. -/
theorem staysIn_overflow {c : Config Unit} (h : StaysIn (lineStep skipExec
    (bodyLines [addChecked (.flag .of)] {})) 5 8 ⟨5, flagState .of⟩ c) :
    c = ⟨5, flagState .of⟩ ∨ c.pc = 6 ∨ c.pc = 7 := by
  induction h with
  | refl => exact .inl rfl
  | @tail d e ev _ hstep _ hhi ih =>
    right
    obtain ⟨pc, u⟩ := d
    rcases ih with hd | hd | hd
    · cases hd
      have hnext : lineStep skipExec (bodyLines [addChecked (.flag .of)] {}) ⟨5, flagState .of⟩ =
          some (⟨6, flagState .of⟩, []) := rfl
      cases hnext.symm.trans hstep
      exact .inl rfl
    · cases hd
      have hnext : lineStep skipExec (bodyLines [addChecked (.flag .of)] {}) ⟨6, u⟩ =
          some (⟨7, u⟩, [.instr (.op .into [])]) := rfl
      cases hnext.symm.trans hstep
      exact .inr rfl
    · cases hd
      have hnext : lineStep skipExec (bodyLines [addChecked (.flag .of)] {}) ⟨7, u⟩ =
          some (⟨8, u⟩, []) := rfl
      cases hnext.symm.trans hstep
      exact absurd hhi (Nat.lt_irrefl 8)

end Nib.Compile
