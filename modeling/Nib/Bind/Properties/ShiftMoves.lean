import Nib.Bind.Spec.Shift
import Nib.Bind.Properties.PlannedMoves

/-!
# The value of a shift gets to its destination

* `Wrote` — a vreg has been given a word
* `emitMov_reg`, `emitMov_const`, `emitMov_slot` — the instructions of a move
* `Typed.run_emitMov` — the value gets to the destination, and the flags stay where they are read
-/

namespace Nib.Bind

open Nib.Infra

variable {env : ShiftEnv} {s : Cpu} {d v : Source}

/-! ## Runs -/

theorem shiftRun_runs (env : ShiftEnv) : RunsBy (shiftStep env) (shiftRun env) :=
  ⟨fun _ => rfl, fun _ _ _ => rfl⟩

theorem shiftRun_cons {i : ShiftInsn} {is : List ShiftInsn} {t : Cpu}
    (h : shiftStep env i s = some t) : shiftRun env (i :: is) s = shiftRun env is t :=
  (shiftRun_runs env).head h

theorem shiftRun_append {is js : List ShiftInsn} {s t : Cpu} (h : shiftRun env is s = some t) :
    shiftRun env (is ++ js) s = shiftRun env js t :=
  (shiftRun_runs env).append h

theorem shiftRun_moves {is : List MoveInsn} {s : Cpu} :
    shiftRun env (is.map .move) s = moveRun env.toMoveEnv is s :=
  congrFun ((shiftRun_runs env).map (moveRun_runs env.toMoveEnv) (fun _ => rfl) is) s

/-! ## The flags -/

/-- Instructions that leave the flags. -/
def MoveInsn.KeepsFlags : MoveInsn → Prop
  | .xorAx | .andByte _ | .shrByte _ => False
  | _ => True

theorem setReg_flags (s : Cpu) {r : Preg} (w : Word) (h : r ≠ .flags) :
    (s.setReg r w).reg .flags = s.reg .flags := by
  rw [Cpu.setReg_reg, if_neg (Ne.symm h)]

theorem put_keeps_flags (s : Cpu) {r : Preg} (w : Word) (h : r ≠ .flags) :
    (s.put r w).reg .flags = s.reg .flags := by
  cases r <;> first | exact absurd rfl h | exact setReg_flags s _ (by decide)

theorem moveStep_flags {env : MoveEnv} {i : MoveInsn} {s t : Cpu} (hi : i.KeepsFlags)
    (h : moveStep env i s = some t) : t.reg .flags = s.reg .flags := by
  have hne : ∀ {r q : Preg}, r.canMov q = true → r ≠ .flags := by
    rintro r q hr rfl
    cases q <;> cases hr
  cases i with
  | mov dst src =>
    obtain ⟨hc, ht⟩ := Option.ite_none_right_eq_some.mp h
    obtain rfl := Option.some.inj ht
    exact put_keeps_flags s _ (hne hc)
  | movConst dst c =>
    obtain ⟨hc, ht⟩ := Option.ite_none_right_eq_some.mp h
    obtain rfl := Option.some.inj ht
    exact put_keeps_flags s _ (by rintro rfl; cases hc)
  | load dst off =>
    obtain ⟨hc, ht⟩ := Option.ite_none_right_eq_some.mp h
    obtain rfl := Option.some.inj ht
    exact put_keeps_flags s _ (by rintro rfl; cases hc)
  | store off src =>
    obtain ⟨-, ht⟩ := Option.ite_none_right_eq_some.mp h
    obtain rfl := Option.some.inj ht
    rfl
  | push r =>
    obtain ⟨-, ht⟩ := Option.ite_none_right_eq_some.mp h
    obtain rfl := Option.some.inj ht
    exact Cpu.push_reg s _ (by decide)
  | pushSlot off =>
    cases h
    exact Cpu.push_reg s _ (by decide)
  | pushConst c =>
    cases h
    exact Cpu.push_reg s _ (by decide)
  | pop r =>
    obtain ⟨hc, ht⟩ := Option.ite_none_right_eq_some.mp h
    obtain rfl := Option.some.inj ht
    have hdrop : (s.drop 1).reg .flags = s.reg .flags := Cpu.drop_reg s 1 (by decide)
    exact (setReg_flags _ _ (by rintro rfl; cases hc)).trans hdrop
  | popSlot off =>
    obtain rfl := Option.some.inj h
    exact Cpu.drop_reg (r := .flags) s 1 (by decide)
  | movBpSp =>
    obtain rfl := Option.some.inj h
    exact setReg_flags (r := .bp) s _ (by decide)
  | xchgAx =>
    obtain rfl := Option.some.inj h
    exact setReg_flags (r := .ax) s (s.readSlot false 2) (by decide)
  | xorAx => cases hi
  | andByte r => cases hi
  | shrByte r => cases hi

theorem moveRun_flags {env : MoveEnv} {is : List MoveInsn} {s t : Cpu}
    (his : ∀ i ∈ is, i.KeepsFlags) (h : moveRun env is s = some t) :
    t.reg .flags = s.reg .flags :=
  (moveRun_runs env).keeps (·.reg .flags) (fun i hi => moveStep_flags (his i hi)) h

theorem movTo_keepsFlags (v : Source) (r : Preg) : (v.movTo r).KeepsFlags := by
  unfold Source.movTo
  cases v.home <;> trivial

/-- Only what widens a value changes the flags. -/
theorem rinsMov_keepsFlags {q : Preg} {v : Source} (h : q.isByte = true ∨ v.isByteOperand = false) :
    ∀ i ∈ rinsMovPregFromVreg q v, i.KeepsFlags := by
  have hmov := movTo_keepsFlags v
  have hnarrow : ¬(!q.isByte && (v.isByte || v.assigned.any Preg.isByte) && q.isWord) = true := by
    rcases h with h | h
    · simp [h]
    · rw [Source.isByteOperand] at h
      simp [h]
  intro i hi
  unfold rinsMovPregFromVreg at hi
  split at hi
  · rw [List.mem_singleton.mp hi]
    trivial
  · split at hi
    · split at hi
      · cases hi
      · simp only [List.mem_cons, List.not_mem_nil, or_false] at hi
        rcases hi with rfl | rfl | rfl | rfl <;> first | trivial | exact hmov _
    · split at hi
      · split at hi
        · split at hi
          · cases hi
          · rw [List.mem_singleton.mp hi]
            trivial
        · split at hi
          · rw [List.mem_singleton.mp hi]
            trivial
          · simp only [List.mem_cons, List.not_mem_nil, or_false] at hi
            rcases hi with rfl | rfl | rfl | rfl <;> trivial
      · rw [List.mem_singleton.mp hi]
        exact hmov _

/-! ## A vreg that has been written -/

@[simp] theorem Cpu.fit_read (s : Cpu) (r : Preg) : r.fit (s.read r) = s.read r := by
  cases r <;> simp [Preg.fit, Preg.isByte, Cpu.read, Preg.aliasParent, zeroExtend_low_zeroExtend]

/-- `d` has been given `w`. -/
structure Wrote (d : Source) (w : Word) (s t : Cpu) : Prop where
  holds : d.Has w s t
  kept : ∀ r ≠ .flags, d.Spares r → t.read r = s.read r
  sp : t.sp = s.sp
  above : ∀ a, (a - s.sp).toNat + 4 < 65536 → d.Outside s a → t.stack a = s.stack a

theorem Source.Has.congr {w : Word} {s s' t t' : Cpu} (h : d.Has w s t)
    (hread : ∀ q, d.home = .reg q → t'.read q = t.read q)
    (hslot : ∀ off, d.home = .slot off → s'.slotAddr off = s.slotAddr off ∧
      t'.stack (s.slotAddr off) = t.stack (s.slotAddr off) ∧
      t'.stack (s.slotAddr off + 1) = t.stack (s.slotAddr off + 1)) : d.Has w s' t' := by
  unfold Source.Has at h ⊢
  cases hd : d.home with
  | reg q =>
    rw [hd] at h
    exact (hread q hd).trans h
  | slot off =>
    rw [hd] at h
    obtain ⟨haddr, h0, h1⟩ := hslot off hd
    simpa only [haddr, readWord, h0, h1] using h
  | remat c =>
    rw [hd] at h
    exact h

theorem wrote_of_put {q : Preg} {w : Word} {t : Cpu} (hd : d.home = .reg q) (h : Put q w s t) :
    Wrote d w s t where
  holds := by
    unfold Source.Has
    rw [hd]
    exact h.value
  kept := fun r hr hspare => h.regs r hr (hspare q hd)
  sp := h.sp
  above := fun a ha _ => h.above a (by omega)

/-- A slot is found where it was. -/
theorem Wrote.slotAddr {w : Word} {t : Cpu} {off : Int} (h : Wrote d w s t)
    (hd : d.home = .slot off) : t.slotAddr off = s.slotAddr off := by
  have hbp : t.read .bp = s.read .bp := h.kept .bp (by decide) fun q hq => by
    rw [hd] at hq
    cases hq
  exact slotAddr_congr hbp off

theorem Wrote.self {w : Word} {t : Cpu} (h : Wrote d w s t) : d.Has w t t :=
  h.holds.congr (fun _ _ => rfl) fun _ hd => ⟨h.slotAddr hd, rfl, rfl⟩

theorem Wrote.trans {w w' : Word} {t u : Cpu} (h : Wrote d w s u) (h' : Wrote d w' u t) :
    Wrote d w' s t where
  holds := h'.holds.congr (fun _ _ => rfl) fun _ hd => ⟨(h.slotAddr hd).symm, rfl, rfl⟩
  kept := fun r hr hspare => (h'.kept r hr hspare).trans (h.kept r hr hspare)
  sp := h'.sp.trans h.sp
  above := fun a ha hout => by
    have hout' : d.Outside u a := fun off hd => by
      rw [h.slotAddr hd]
      exact hout off hd
    rw [h'.above a (by rwa [h.sp]) hout', h.above a ha hout]

theorem write_byte_congr {m : Memory} {a x x' : Word} (h : low x = low x') :
    write true m a x = write true m a x' := by
  funext b
  simp [write, h]

/-- The slot of `d` is written with the width of `d`, and everything else is as in `s`. -/
theorem wrote_slot {off : Int} {w : Word} {t : Cpu} {m : Memory} (hd : d.home = .slot off)
    (hstack : t.stack = write d.isByte m (s.slotAddr off) w)
    (hm : ∀ a, (a - s.sp).toNat + 4 < 65536 → m a = s.stack a)
    (hregs : ∀ r ≠ .flags, t.read r = s.read r) : Wrote d w s t where
  holds := by
    unfold Source.Has
    rw [hd, hstack]
    cases d.isByte with
    | true => exact write_self _ _ _ _
    | false => exact readWord_write_self _ _ _
  kept := fun r hr _ => hregs r hr
  sp := hregs .sp (by decide)
  above := fun a ha hout => by
    obtain ⟨h0, h1⟩ := hout off hd
    rw [hstack, write_of_notMem _ m w, hm a ha]
    rintro (rfl | ⟨hword, rfl⟩)
    · exact h0 rfl
    · exact h1 hword rfl

/-! ## The value gets to the destination -/

/-- A byte in a slot is written from any word with that low byte. -/
theorem Wrote.of_low {w w' : Word} {t : Cpu} {off : Int} (h : Wrote d w s t)
    (hd : d.home = .slot off) (hbyte : d.isByte = true) (hw : low w = low w') : Wrote d w' s t where
  holds := by
    have hholds := h.holds
    unfold Source.Has at hholds ⊢
    rw [hd, hbyte] at hholds ⊢
    exact hholds.trans hw
  kept := h.kept
  sp := h.sp
  above := h.above

/-- From a register of the width of the slot. -/
theorem run_movFrom {env : ShiftEnv} {off : Int} {x : Preg} (hd : d.home = .slot off)
    (hwidth : x.isByte = d.isByte) (hx : x.isByte = true ∨ x.isWord = true) (s : Cpu) :
    ∃ t, shiftRun env [d.movFrom x] s = some t ∧ Wrote d (s.read x) s t ∧
      t.reg .flags = s.reg .flags := by
  have hmov : d.movFrom x = .move (.store off x) := by
    unfold Source.movFrom
    rw [hd]
  have hstep : shiftStep env (d.movFrom x) s =
      some { s with stack := write x.isByte s.stack (s.slotAddr off) (s.read x) } := by
    rw [hmov]
    refine if_pos ?_
    rcases hx with h | h <;> simp [h]
  exact ⟨_, (shiftRun_cons hstep).trans rfl,
    wrote_slot hd (by rw [← hwidth]) (fun _ _ => rfl) (fun _ _ => rfl), rfl⟩

/-- `xchg AX, r` -/
def Cpu.swapAx (s : Cpu) (r : Preg) : Cpu := (s.setReg .ax (s.reg r)).setReg r (s.reg .ax)

/-- A register without halves is no parent of one. -/
theorem parent_ne_whole {q p r : Preg} (hp : q.aliasParent = some p) (hwhole : r.aliasLo = none) :
    p ≠ r := by
  rintro rfl
  revert hp hwhole
  cases q <;> rintro ⟨⟩ <;> exact nofun

theorem swapAx_back (s : Cpu) {r p : Preg} (hr : r ≠ .ax) (hp : p ≠ .ax) (hpr : p ≠ r) (w : Word)
    (m : Memory) : (({ (s.swapAx r).setReg p w with stack := m } : Cpu).swapAx r) =
      { s.setReg p w with stack := m } := by
  unfold Cpu.swapAx Cpu.setReg
  simp only [Cpu.mk.injEq, and_true]
  funext z
  simp only [Function.update_apply]
  grind

/-- The low byte of a register without halves goes through `AL`, into a slot. -/
theorem run_xchgSlot {env : ShiftEnv} {off : Int} {r : Preg} (hd : d.home = .slot off)
    (hbyte : d.isByte = true) (hword : r.isWord = true) (hwhole : r.aliasLo = none)
    (hbp : r ≠ .bp) (s : Cpu) :
    ∃ t, shiftRun env [.xchg r, d.movFrom .al, .xchg r] s = some t ∧ Wrote d (s.read r) s t ∧
      t.reg .flags = s.reg .flags := by
  have hax : r ≠ .ax := by
    rintro rfl
    cases hwhole
  have hswap : ∀ u : Cpu, shiftStep env (.xchg r) u = some (u.swapAx r) := fun u => if_pos hword
  have hal : (s.swapAx r).read .al = zeroExtend (low (s.reg r)) := by
    show zeroExtend (low ((s.swapAx r).reg .ax)) = _
    simp [Cpu.swapAx, Ne.symm hax]
  have haddr : (s.swapAx r).slotAddr off = s.slotAddr off := by
    simp [Cpu.swapAx, Cpu.slotAddr, Ne.symm hbp]
  let m := write true s.stack (s.slotAddr off) (zeroExtend (low (s.reg r)))
  have hstore : shiftStep env (d.movFrom .al) (s.swapAx r) =
      some { s.swapAx r with stack := m } := by
    have hmov : d.movFrom .al = .move (.store off .al) := by
      unfold Source.movFrom
      rw [hd]
    rw [hmov, shiftStep, moveStep, haddr, hal]
    rfl
  have hback : ({ s.swapAx r with stack := m } : Cpu).swapAx r = { s with stack := m } := by
    unfold Cpu.swapAx Cpu.setReg
    simp only [Cpu.mk.injEq, and_true]
    funext z
    simp only [Function.update_apply]
    grind
  have hread : s.read r = s.reg r := Cpu.read_eq_reg s (Preg.not_byte_of_word hword)
  refine ⟨{ s with stack := m }, ?_, ?_, rfl⟩
  · rw [shiftRun_cons (hswap s), shiftRun_cons hstore, shiftRun_cons (hswap _), hback]
    rfl
  · refine wrote_slot hd ?_ (fun _ _ => rfl) (fun _ _ => rfl)
    rw [hbyte, hread]
    exact write_byte_congr (by simp [zeroExtend])

/-- Or into a byte register outside `AX`. -/
theorem run_xchgReg {env : ShiftEnv} {q r : Preg} (hq : q.isByte = true)
    (hqAx : q.aliasParent ≠ some .ax) (hword : r.isWord = true) (hwhole : r.aliasLo = none)
    (s : Cpu) :
    ∃ t, shiftRun env [.xchg r, .move (.mov q .al), .xchg r] s = some t ∧ Put q (s.read r) s t ∧
      t.reg .flags = s.reg .flags := by
  have hax : r ≠ .ax := by
    rintro rfl
    cases hwhole
  obtain ⟨p, hp⟩ : ∃ p, q.aliasParent = some p := by
    revert hq
    cases q <;> first | exact fun h => absurd h (by decide) | exact fun _ => ⟨_, rfl⟩
  have hpr : p ≠ r := parent_ne_whole hp hwhole
  have hpax : p ≠ .ax := fun h => hqAx (h ▸ hp)
  have hswap : ∀ u : Cpu, shiftStep env (.xchg r) u = some (u.swapAx r) := fun u => if_pos hword
  have hal : (s.swapAx r).read .al = zeroExtend (low (s.reg r)) := by
    show zeroExtend (low ((s.swapAx r).reg .ax)) = _
    simp [Cpu.swapAx, Ne.symm hax]
  have hmov : shiftStep env (.move (.mov q .al)) (s.swapAx r) =
      some ((s.swapAx r).put q (zeroExtend (low (s.reg r)))) := by
    rw [← hal]
    exact if_pos (Preg.canMov_al hq)
  have hback : ((s.swapAx r).put q (zeroExtend (low (s.reg r)))).swapAx r =
      s.put q (zeroExtend (low (s.reg r))) := by
    have hkeep : (s.swapAx r).reg p = s.reg p := by
      simp [Cpu.swapAx, hpr, hpax]
    unfold Cpu.put
    rw [hp]
    simp only [hkeep]
    exact swapAx_back s hax hpax hpr _ s.stack
  have hread : s.read r = s.reg r := Cpu.read_eq_reg s (Preg.not_byte_of_word hword)
  have hqsp : q ≠ .sp ∧ q ≠ .flags := by
    revert hq
    cases q <;> decide
  refine ⟨s.put q (zeroExtend (low (s.reg r))), ?_, ?_, put_keeps_flags s _ hqsp.2⟩
  · rw [shiftRun_cons (hswap s), shiftRun_cons hmov, shiftRun_cons (hswap _), hback]
    rfl
  · refine (put_put hqsp.1 _ s).of_fit ?_
    rw [hread, Preg.fit_of_byte hq, Preg.fit_of_byte hq, zeroExtend_low_zeroExtend]

/-- Between two slots a byte goes through `AL`, which comes back. -/
theorem run_movByteSlots {env : ShiftEnv} {d v : Source} {s : Cpu} {off off' : Int}
    (hd : d.home = .slot off) (hv : v.home = .slot off') (hbyte : d.isByte = true)
    (hclear : Clear s d) (hclear' : Clear s v) :
    ∃ t, shiftRun env [.move (.push .ax), .move (v.movTo .al), d.movFrom .al, .move (.pop .ax)] s =
        some t ∧ Wrote d (v.value env.places s) s t ∧ t.reg .flags = s.reg .flags := by
  let s₁ := s.push [s.reg .ax]
  let w := v.operand env.places true s
  let s₂ := s₁.put .al w
  have hpush : shiftStep env (.move (.push .ax)) s = some s₁ := rfl
  have hcan : v.CanMovTo .al := by
    unfold Source.CanMovTo
    rw [hv]
    rfl
  have hnotSp : v.home ≠ .reg .sp := by
    rw [hv]
    exact nofun
  have hload : shiftStep env (.move (v.movTo .al)) s₁ = some s₂ := by
    have hstep := @moveStep_movTo env.toMoveEnv _ _ hcan s₁
    have hoperand : v.operand env.places true s₁ = w := operand_push true hnotSp hclear' _
    rw [shiftStep, hstep]
    exact congrArg (fun x => some (s₁.put .al x)) hoperand
  have haddr : s₂.slotAddr off = s.slotAddr off := by
    simp [s₂, s₁, Cpu.slotAddr, Cpu.put, Preg.aliasParent, Cpu.push_reg]
  have hal : s₂.read .al = zeroExtend (low w) := Cpu.read_put_self _ _ _
  let s₃ : Cpu := { s₂ with stack := write true s₂.stack (s.slotAddr off) (zeroExtend (low w)) }
  have hstore : shiftStep env (d.movFrom .al) s₂ = some s₃ := by
    unfold Source.movFrom
    rw [hd]
    show moveStep env.toMoveEnv (.store off .al) s₂ = _
    rw [moveStep, haddr, hal]
    rfl
  have hlow := hclear off hd
  have hstack : ∀ a, (a - s.sp).toNat + 2 < 65536 → s₂.stack a = s.stack a := by
    intro a ha
    show (s₁.put .al w).stack a = _
    rw [Cpu.put_stack]
    exact write_below ha
  have hsp : s₂.sp = s.sp - 2 := by
    show (s₁.put .al w).sp = _
    rw [Cpu.put_sp _ _ (by decide)]
    exact Cpu.push_one_sp s _
  -- the slot is out of the way of the word that `AX` had
  have hpeek : s₃.peek 0 = s.reg .ax := by
    have hsp₃ : s₃.sp = s.sp - 2 := hsp
    have h0 : s₃.stack (s.sp - 2) = s₁.stack (s.sp - 2) := by
      refine (write_of_notMem ?_ _ _).trans (congrFun (Cpu.put_stack _ _ _) _)
      rintro (h | ⟨h, -⟩)
      · bv_omega
      · cases h
    have h1 : s₃.stack (s.sp - 2 + 1) = s₁.stack (s.sp - 2 + 1) := by
      refine (write_of_notMem ?_ _ _).trans (congrFun (Cpu.put_stack _ _ _) _)
      rintro (h | ⟨h, -⟩)
      · bv_omega
      · cases h
    rw [Cpu.peek, hsp₃, Nat.mul_zero, BitVec.add_zero, readWord, h0, h1]
    exact readWord_write_self _ _ _
  let t : Cpu := (s₃.drop 1).setReg .ax (s.reg .ax)
  have hpop : shiftStep env (.move (.pop .ax)) s₃ = some t := by
    show some ((s₃.drop 1).setReg .ax (s₃.peek 0)) = _
    rw [hpeek]
  have hread : ∀ r ≠ .flags, t.read r = s.read r := by
    intro r _
    cases halias : pregsAlias .ax r with
    | true => exact Cpu.read_setReg_back s _ rfl halias
    | false =>
      have hput : t = (s₃.drop 1).put .ax (s.reg .ax) := rfl
      have hal' : pregsAlias .al r = false := by
        revert halias
        cases r <;> decide
      rw [hput, Cpu.read_put_of_ne _ _ halias]
      by_cases hrsp : r = .sp
      · subst hrsp
        rw [← sp_eq_read, Cpu.drop_sp, ← sp_eq_read]
        show s₂.sp + _ = _
        rw [hsp]
        bv_omega
      · rw [Cpu.read_drop _ _ hrsp]
        show (s₁.put .al w).read r = _
        rw [Cpu.read_put_of_ne _ _ hal', Cpu.read_push _ _ hrsp]
  refine ⟨t, ?_, ?_, ?_⟩
  · rw [shiftRun_cons hpush, shiftRun_cons hload, shiftRun_cons hstore, shiftRun_cons hpop]
    rfl
  · refine wrote_slot hd ?_ (fun a ha => hstack a (by omega)) hread
    rw [hbyte]
    have hvalue : low w = low (v.value env.places s) := low_operand _ _ _ _
    exact write_byte_congr (by rw [hvalue]; simp [zeroExtend])
  · show s₂.reg .flags = _
    exact (put_keeps_flags s₁ w (by decide)).trans (Cpu.push_reg s _ (by decide))

/-- Between two slots a word goes over the stack. -/
theorem run_movWordSlots {env : ShiftEnv} {d v : Source} {s : Cpu} {off off' : Int}
    (hd : d.home = .slot off) (hv : v.home = .slot off') (hbyte : d.isByte = false)
    (hwidth : v.isByte = false) :
    ∃ t, shiftRun env [.move v.pushed, d.popTo] s = some t ∧
      Wrote d (v.value env.places s) s t ∧ t.reg .flags = s.reg .flags := by
  let w := s.readSlot false off'
  let s₁ := s.push [w]
  have hvalue : v.value env.places s = w := by
    unfold Source.value
    rw [hv, hwidth]
  have hpush : shiftStep env (.move v.pushed) s = some s₁ := by
    unfold Source.pushed
    rw [hv]
    rfl
  have hpeek : s₁.peek 0 = w := by
    rw [Cpu.peek, Nat.mul_zero, BitVec.add_zero]
    show readWord s₁.stack s₁.sp = w
    rw [show s₁.sp = s.sp - 2 from Cpu.push_one_sp s w]
    exact readWord_write_self _ _ _
  have haddr : s₁.slotAddr off = s.slotAddr off := slotAddr_push s w off
  let t : Cpu := { s₁.drop 1 with stack := write false s₁.stack (s.slotAddr off) w }
  have hpop : shiftStep env d.popTo s₁ = some t := by
    unfold Source.popTo
    rw [hd]
    show moveStep env.toMoveEnv (.popSlot off) s₁ = _
    rw [moveStep, hpeek, haddr]
  have hread : ∀ r ≠ .flags, t.read r = s.read r := by
    intro r _
    show (s₁.drop 1).read r = _
    by_cases hrsp : r = .sp
    · subst hrsp
      rw [← sp_eq_read, Cpu.drop_sp, ← sp_eq_read, show s₁.sp = s.sp - 2 from Cpu.push_one_sp s w]
      bv_omega
    · rw [Cpu.read_drop _ _ hrsp, Cpu.read_push _ _ hrsp]
  refine ⟨t, ?_, ?_, ?_⟩
  · rw [shiftRun_cons hpush, shiftRun_cons hpop]
    rfl
  · rw [hvalue]
    refine wrote_slot (m := s₁.stack) hd ?_ (fun a ha => write_below (by omega)) hread
    rw [hbyte]
  · show (s₁.drop 1).reg .flags = _
    exact (Cpu.drop_reg s₁ 1 (by decide)).trans (Cpu.push_reg s _ (by decide))

/-! ## Which moves are emitted -/

/-- Into a register the moves are those of planned ones, but for what `xchg` does. -/
theorem emitMov_reg {q : Preg} (hd : d.home = .reg q) (hwidth : q.isByte = d.isByte)
    (hkind : q.isByte = true ∨ q.isWord = true) (hne : v.home ≠ .reg q)
    (hconst : ∀ c, v.home ≠ .remat c)
    (hwhole : ∀ r, v.home = .reg r → q.isByte = true → r.isWord = true → r.aliasLo ≠ none) :
    emitMov d v = (rinsMovPregFromVreg q v).map .move := by
  have hseg : q.isSegment = false := by
    rcases hkind with h | h <;> revert h <;> cases q <;> decide
  have hword : q.isByte = false → q.isWord = true := fun h => hkind.resolve_left (by simp [h])
  have hassigned : d.assigned = some q := by simp [Source.assigned, hd]
  have hspill : d.isSpilled = false := by simp [Source.isSpilled, hd]
  have hoperand : d.isByteOperand = q.isByte := by simp [Source.isByteOperand, hassigned, hwidth]
  unfold emitMov rinsMovPregFromVreg
  rw [hd, hspill, hoperand, hassigned]
  cases hv : v.home with
  | remat c => exact absurd hv (hconst c)
  | slot off =>
    have hnone : v.assigned = none := by simp [Source.assigned, hv]
    cases hq : q.isByte with
    | true => simp [hseg, hnone, Source.movPlain, hd]
    | false =>
      cases hb : v.isByte with
      | false => simp [hseg, hnone, hb, Source.isByteOperand, Source.movPlain, hd]
      | true =>
        cases hlo : q.aliasLo <;>
          simp [hseg, hnone, hb, Source.isByteOperand, hword hq, hlo, Option.filter]
  | reg r =>
    have hsome : v.assigned = some r := by simp [Source.assigned, hv]
    have hqr : q ≠ r := fun h => hne (hv.trans (congrArg _ h.symm))
    cases hq : q.isByte with
    | true =>
      cases hr : r.isWord with
      | false => simp [hseg, hsome, hr, hqr, Option.filter, Source.movPlain, hd]
      | true =>
        cases hlo : r.aliasLo with
        | none => exact absurd hlo (hwhole r hv hq hr)
        | some lo =>
          by_cases hlq : q = lo
          · subst hlq
            simp [hseg, hsome, hr, hqr, Option.filter, hlo]
          · simp [hseg, hsome, hr, hqr, Option.filter, hlo, hlq, Source.movFrom, hd]
    | false =>
      have hvword : v.isByteOperand = (v.isByte || r.isByte) := by
        simp [Source.isByteOperand, hsome]
      cases hb : v.isByte || r.isByte with
      | false =>
        rw [hvword, hb]
        simp [hseg, hsome, hqr, hb, Option.filter, Source.movPlain, hd]
      | true =>
        rw [hvword, hb]
        cases hlo : q.aliasLo <;> cases hp : r.aliasParent <;>
          simp [hseg, hsome, hqr, hb, Option.filter, hlo, hp, hword hq]

/-- The widths of a constant and of the register are brought together on the way. -/
theorem emitMov_const {q : Preg} {c : Recipe} (hd : d.home = .reg q)
    (hwidth : q.isByte = d.isByte) (hv : v.home = .remat c)
    (hwiden : v.isByte = true → q.isByte = true ∨ q.widens = true) :
    emitMov d v = if !q.isByte && v.isByte then
      [.move (.push .ax), .move .xorAx, .move (v.movTo .al), .move (.mov q .ax), .move (.pop .ax)]
    else [.move (v.movTo q)] := by
  have hassigned : d.assigned = some q := by simp [Source.assigned, hd]
  have hnone : v.assigned = none := by simp [Source.assigned, hv]
  have hoperand : d.isByteOperand = q.isByte := by simp [Source.isByteOperand, hassigned, hwidth]
  have hspill : d.isSpilled = false := by simp [Source.isSpilled, hd]
  unfold emitMov
  rw [hd, hspill, hoperand, hassigned, hnone, hv]
  cases hq : q.isByte with
  | true => simp [Option.filter, Source.movPlain, hd]
  | false =>
    cases hb : v.isByte with
    | false => simp [Option.filter, Source.movPlain, hd, Source.isByteOperand, hb, hnone]
    | true =>
      have hlo : q.aliasLo = none := by
        have hq := (hwiden hb).resolve_left (by simp [hq])
        revert hq
        cases q <;> first | exact fun _ => rfl | exact fun h => absurd h (by decide)
      simp [Option.filter, Source.isByteOperand, hb, hlo]

/-- Into a slot the low byte of a register is moved, or the whole of it. -/
theorem emitMov_slot {off : Int} {r : Preg} (hd : d.home = .slot off) (hv : v.home = .reg r) :
    emitMov d v = if d.isByte && r.isWord then
      match r.aliasLo with
      | some lo => [d.movFrom lo]
      | none => [.xchg r, d.movFrom .al, .xchg r]
    else [d.movFrom r] := by
  have hassigned : d.assigned = none := by simp [Source.assigned, hd]
  have hsome : v.assigned = some r := by simp [Source.assigned, hv]
  have hoperand : d.isByteOperand = d.isByte := by simp [Source.isByteOperand, hassigned]
  have hspill : d.isSpilled = true ∧ v.isSpilled = false := by simp [Source.isSpilled, hd, hv]
  have hplain : d.movPlain v = d.movFrom r := by
    simp [Source.movPlain, Source.movFrom, hd, hv]
  unfold emitMov
  rw [hd, hspill.1, hspill.2, hoperand, hassigned, hsome, hv, hplain]
  cases hb : d.isByte with
  | false => simp [Option.filter]
  | true =>
    cases hr : r.isWord with
    | false => simp [Option.filter, hr]
    | true => cases hlo : r.aliasLo <;> simp [Option.filter, hr, hlo]

namespace VarShift

variable {i : VarShift}

theorem low_value (pl : Addresses) (s : Cpu) :
    low (i.value pl s) = low (i.src1.value pl s) := by
  unfold value
  cases i.dst.isByte <;> simp [zeroExtend]

theorem fit_value {q : Preg} (hq : q.isByte = i.dst.isByte) (pl : Addresses) (s : Cpu) :
    q.fit (i.src1.value pl s) = q.fit (i.value pl s) := by
  cases hb : i.dst.isByte with
  | true => rw [Preg.fit_of_byte (hq.trans hb), Preg.fit_of_byte (hq.trans hb), low_value]
  | false => simp [value, hb]

theorem fit_value_self {q : Preg} (hq : q.isByte = i.dst.isByte) (pl : Addresses) (s : Cpu) :
    q.fit (i.value pl s) = i.value pl s := by
  cases hb : i.dst.isByte with
  | true => rw [Preg.fit_of_byte (hq.trans hb), value, if_pos hb, zeroExtend_low_zeroExtend]
  | false => exact Preg.fit_of_not_byte (hq.trans hb) _

theorem value_of_word (hb : i.dst.isByte = false) (pl : Addresses) (s : Cpu) :
    i.value pl s = i.src1.value pl s := by
  simp [value, hb]

/-- The moves of a value into the destination. -/
def Delivers (i : VarShift) (env : ShiftEnv) (is : List ShiftInsn) (s : Cpu) : Prop :=
  ∃ t, shiftRun env is s = some t ∧ Wrote i.dst (i.value env.places s) s t ∧
    (i.dst.isByte = true ∨ i.src1.isByteOperand = false → t.reg .flags = s.reg .flags)

theorem delivers_moves {env : ShiftEnv} {is : List MoveInsn} {s t : Cpu} {q : Preg}
    (hd : i.dst.home = .reg q) (hwidth : q.isByte = i.dst.isByte)
    (hrun : moveRun env.toMoveEnv is s = some t) (hput : Put q (i.src1.value env.places s) s t)
    (hflags : i.dst.isByte = true ∨ i.src1.isByteOperand = false → ∀ j ∈ is, j.KeepsFlags) :
    i.Delivers env (is.map .move) s :=
  ⟨t, shiftRun_moves.trans hrun, wrote_of_put hd (hput.of_fit (fit_value hwidth env.places s)),
    fun h => moveRun_flags (hflags h) hrun⟩

theorem Typed.notSp (h : i.Typed) : i.dst.home ≠ .reg .sp := by
  intro hd
  have hdst := h.dst
  rw [hd] at hdst
  exact hdst.2.2 rfl

/-- A constant into a register. -/
theorem delivers_const {env : ShiftEnv} {s : Cpu} {q : Preg} {c : Recipe}
    (hd : i.dst.home = .reg q) (hdst : Holder q i.dst.isByte) (hv : i.src1.home = .remat c)
    (hwiden : i.src1.isByte = true → q.isByte = true ∨ q.widens = true) :
    i.Delivers env (emitMov i.dst i.src1) s := by
  obtain ⟨hwidth, hkind, hsp⟩ := hdst
  rw [emitMov_const hd hwidth hv hwiden]
  cases hw : !q.isByte && i.src1.isByte with
  | true =>
    obtain ⟨hq, hb⟩ := Bool.and_eq_true_iff.mp hw
    have hq : q.isByte = false := by simpa using hq
    have hnot : ∀ r, i.src1.home ≠ .reg r := fun r hr => by
      rw [hv] at hr
      cases hr
    obtain ⟨t, hrun, hput⟩ := @run_widenInAx env.toMoveEnv i.src1 q s hnot hb
      ((hwiden hb).resolve_left (by simp [hq])) fun off hoff => by
        rw [hv] at hoff
        cases hoff
    -- `xor AX, AX` changes the flags, but then they are not read
    refine delivers_moves hd hwidth hrun hput fun hf => ?_
    rcases hf with hf | hf
    · rw [← hwidth, hq] at hf
      cases hf
    · simp [Source.isByteOperand, hb] at hf
  | false =>
    have hcan : i.src1.CanMovTo q := by
      unfold Source.CanMovTo
      rw [hv]
      rcases hkind with hk | hk <;> simp [Preg.canConst, hk]
    have hword : q.isByte = false → i.src1.isByte = false := fun hq => by simpa [hq] using hw
    obtain ⟨t, hrun, hput⟩ := @run_movTo env.toMoveEnv i.src1 q hcan hsp hword s
    refine delivers_moves hd hwidth hrun hput fun _ j hj => ?_
    rw [List.mem_singleton.mp hj]
    exact movTo_keepsFlags _ _

/-- A register without halves into a byte register. -/
theorem delivers_whole {env : ShiftEnv} {s : Cpu} {q r : Preg} (hd : i.dst.home = .reg q)
    (hwidth : q.isByte = i.dst.isByte) (hv : i.src1.home = .reg r)
    (hm : PlannedMove.Sound ⟨q, i.src1⟩) (hq : q.isByte = true) (hword : r.isWord = true)
    (hwhole : r.aliasLo = none) : i.Delivers env (emitMov i.dst i.src1) s := by
  have hqAx : q.aliasParent ≠ some .ax := by
    have hkind := hm.2
    simp only [hv, hq, if_true] at hkind
    have hno : r.isByte = false := Preg.not_byte_of_word hword
    have hhalves : r.hasHalves = false := by simp [Preg.hasHalves, hwhole]
    have hax := hkind.2
    rw [hno, hhalves] at hax
    obtain ⟨-, hax⟩ : r.isWord = true ∧ PlannedMove.isAxByte ⟨q, i.src1⟩ = false := by
      simpa using hax
    intro hp
    simp [PlannedMove.isAxByte, hq, hp] at hax
  have hmov : emitMov i.dst i.src1 = [.xchg r, .move (.mov q .al), .xchg r] := by
    have hsome : i.src1.assigned = some r := by simp [Source.assigned, hv]
    have hal : q ≠ .al := by
      rintro rfl
      exact hqAx rfl
    have hrq : q ≠ r := by
      rintro rfl
      rw [Preg.not_byte_of_word hword] at hq
      cases hq
    unfold emitMov
    rw [hd, hsome, hv]
    simp [Source.isByteOperand, Source.assigned, Source.isSpilled, Source.movFrom, hd, hrq, hal,
      ← hwidth, hq, hword, hwhole, Option.filter]
  have hvalue : q.fit (s.read r) = q.fit (i.value env.places s) := by
    rw [Preg.fit_of_byte hq, Preg.fit_of_byte hq, low_value]
    unfold Source.value
    rw [hv]
    cases i.src1.isByte <;> simp [zeroExtend]
  obtain ⟨t, hrun, hput, hkeep⟩ := @run_xchgReg env q r hq hqAx hword hwhole s
  rw [hmov]
  exact ⟨t, hrun, wrote_of_put hd (hput.of_fit hvalue), fun _ => hkeep⟩

/-- What a planned move does is done. -/
theorem delivers_planned {env : ShiftEnv} {s : Cpu} {q : Preg} (hd : i.dst.home = .reg q)
    (hwidth : q.isByte = i.dst.isByte) (hm : PlannedMove.Sound ⟨q, i.src1⟩)
    (hclear : Clear s i.src1)
    (hmov : emitMov i.dst i.src1 = (rinsMovPregFromVreg q i.src1).map .move) :
    i.Delivers env (emitMov i.dst i.src1) s := by
  obtain ⟨t, hrun, hput⟩ := @run_mov env.toMoveEnv s _ hm hclear
  rw [hmov]
  exact delivers_moves hd hwidth hrun hput fun hf =>
    rinsMov_keepsFlags (hf.imp_left hwidth.trans)

/-- Into a register. -/
theorem Typed.delivers_reg {env : ShiftEnv} {s : Cpu} (h : i.Typed) {q : Preg}
    (hd : i.dst.home = .reg q) (hne : i.dst.home ≠ i.src1.home) (hclear : Clear s i.src1) :
    i.Delivers env (emitMov i.dst i.src1) s := by
  have hdst := h.dst
  have harrives := h.arrives hne
  rw [hd] at hdst
  obtain ⟨hwidth, hkind, hsp⟩ := hdst
  have hne' : i.src1.home ≠ .reg q := fun hv => hne (hd.trans hv.symm)
  unfold Arrives at harrives
  rw [hd] at harrives
  cases hv : i.src1.home with
  | remat c =>
    rw [hv] at harrives
    exact delivers_const hd ⟨hwidth, hkind, hsp⟩ hv harrives
  | slot off =>
    rw [hv] at harrives
    have hm : PlannedMove.Sound ⟨q, i.src1⟩ := by
      refine ⟨?_, ?_⟩
      · show q.isTarget = true
        rcases hkind with hk | hk <;> simp [Preg.isTarget, hk, hsp]
      · simp only [hv]
        exact harrives
    exact delivers_planned hd hwidth hm hclear (emitMov_reg hd hwidth hkind hne'
      (fun c hc => by rw [hv] at hc; cases hc) fun r hr => by rw [hv] at hr; cases hr)
  | reg r =>
    rw [hv] at harrives
    by_cases hx : q.isByte = true ∧ r.isWord = true ∧ r.aliasLo = none
    · obtain ⟨hq, hword, hwhole⟩ := hx
      exact delivers_whole hd hwidth hv harrives hq hword hwhole
    · refine delivers_planned hd hwidth harrives hclear (emitMov_reg hd hwidth hkind hne'
        (fun c hc => by rw [hv] at hc; cases hc) fun r' hr' hq hword hwhole => ?_)
      rw [hv] at hr'
      obtain rfl := Home.reg.inj hr'
      exact hx ⟨hq, hword, hwhole⟩

/-- Of a word that goes into a byte slot only the low byte counts. -/
theorem wrote_value {w : Word} {s t : Cpu} {off : Int} {pl : Addresses}
    (hd : i.dst.home = .slot off) (hb : i.dst.isByte = true) (h : Wrote i.dst w s t)
    (hw : low w = low (i.src1.value pl s)) : Wrote i.dst (i.value pl s) s t :=
  h.of_low hd hb (hw.trans (low_value _ _).symm)

/-- Between two slots. -/
theorem delivers_slots {env : ShiftEnv} {s : Cpu} {off off' : Int} (hd : i.dst.home = .slot off)
    (hv : i.src1.home = .slot off') (hne : i.dst.home ≠ i.src1.home)
    (hfits : i.dst.isByte = true ∨ i.src1.isByte = false) (hclear : Clear s i.dst)
    (hclear' : Clear s i.src1) : i.Delivers env (emitMov i.dst i.src1) s := by
  have hmov : emitMov i.dst i.src1 = if i.dst.isByte || i.src1.isByte then
      [.move (.push .ax), .move (i.src1.movTo .al), i.dst.movFrom .al, .move (.pop .ax)]
      else [.move i.src1.pushed, i.dst.popTo] := by
    have hoff : ¬(Home.slot off = Home.slot off') := by
      rw [hd, hv] at hne
      exact hne
    unfold emitMov
    rw [hd, hv]
    simp only [if_neg hoff, Source.isSpilled, hd, hv, Source.isByteOperand, Source.assigned]
    simp
  rw [hmov]
  cases hb : i.dst.isByte with
  | true =>
    obtain ⟨t, hrun, hwrote, hflags⟩ := @run_movByteSlots env _ _ s _ _ hd hv hb hclear hclear'
    exact ⟨t, hrun, wrote_value hd hb hwrote rfl, fun _ => hflags⟩
  | false =>
    have hword : i.src1.isByte = false := hfits.resolve_left (by simp [hb])
    obtain ⟨t, hrun, hwrote, hflags⟩ := @run_movWordSlots env _ _ s _ _ hd hv hb hword
    rw [hword]
    refine ⟨t, hrun, ?_, fun _ => hflags⟩
    rw [value_of_word hb]
    exact hwrote

/-- From a register into a slot: the whole of it, its low half, or the low byte by way of `AL`. -/
theorem delivers_slotReg {env : ShiftEnv} {s : Cpu} {off : Int} {r : Preg}
    (hd : i.dst.home = .slot off) (hv : i.src1.home = .reg r)
    (hkind : r.isByte = true ∨ r.isWord = true)
    (hfits : if i.dst.isByte then r.isWord = true → r ≠ .bp
      else i.src1.isByte = false ∧ r.isWord = true) :
    i.Delivers env (emitMov i.dst i.src1) s := by
  have hread : low (s.read r) = low (i.src1.value env.places s) := by
    unfold Source.value
    rw [hv]
    cases i.src1.isByte <;> simp [zeroExtend]
  rw [emitMov_slot hd hv]
  cases hb : i.dst.isByte with
  | false =>
    rw [hb, if_neg (by decide)] at hfits
    obtain ⟨hword, hr⟩ := hfits
    have hwidth : r.isByte = i.dst.isByte := (Preg.not_byte_of_word hr).trans hb.symm
    have hvalue : i.src1.value env.places s = s.read r := by
      unfold Source.value
      rw [hv, hword]
      rfl
    obtain ⟨t, hrun, hwrote, hflags⟩ := @run_movFrom i.dst env off r hd hwidth hkind s
    refine ⟨t, by simpa using hrun, ?_, fun _ => hflags⟩
    rw [value_of_word hb, hvalue]
    exact hwrote
  | true =>
    rw [hb, if_pos rfl] at hfits
    cases hr : r.isWord with
    | false =>
      have hbyte : r.isByte = true := hkind.resolve_right (by simp [hr])
      obtain ⟨t, hrun, hwrote, hflags⟩ :=
        @run_movFrom i.dst env off r hd (hbyte.trans hb.symm) hkind s
      exact ⟨t, by simpa using hrun, wrote_value hd hb hwrote hread, fun _ => hflags⟩
    | true =>
      rw [Bool.and_self, if_pos rfl]
      cases hlo : r.aliasLo with
      | none =>
        obtain ⟨t, hrun, hwrote, hflags⟩ :=
          @run_xchgSlot i.dst env off r hd hb hr hlo (hfits hr) s
        exact ⟨t, hrun, wrote_value hd hb hwrote hread, fun _ => hflags⟩
      | some lo =>
        have hlobyte : lo.isByte = true := by
          revert hlo
          cases r <;> rintro ⟨⟩ <;> rfl
        have hlolow : low (s.read lo) = low (s.read r) := by
          revert hlo
          cases r <;> rintro ⟨⟩ <;> simp [Cpu.read, Preg.aliasParent, Preg.aliasLo, zeroExtend]
        obtain ⟨t, hrun, hwrote, hflags⟩ :=
          @run_movFrom i.dst env off lo hd (hlobyte.trans hb.symm) (.inl hlobyte) s
        exact ⟨t, hrun, wrote_value hd hb hwrote (hlolow.trans hread), fun _ => hflags⟩

/-- Into a slot. -/
theorem Typed.delivers_slot {env : ShiftEnv} {s : Cpu} (h : i.Typed) {off : Int}
    (hd : i.dst.home = .slot off) (hne : i.dst.home ≠ i.src1.home) (hclear : Clear s i.dst)
    (hclear' : Clear s i.src1) : i.Delivers env (emitMov i.dst i.src1) s := by
  have harrives := h.arrives hne
  unfold Arrives at harrives
  rw [hd] at harrives
  cases hv : i.src1.home with
  | remat c =>
    rw [hv] at harrives
    have hmov : emitMov i.dst i.src1 = [.storeConst off c] := by
      unfold emitMov
      rw [hd, hv]
      simp [Source.isSpilled, Source.assigned, Source.movPlain, hd, hv]
    have hstep : shiftStep env (.storeConst off c) s =
        some { s with stack := write true s.stack (s.slotAddr off) (c.value env.places) } := rfl
    rw [hmov]
    -- without a size a byte is stored: that is the width of the slot
    refine ⟨_, (shiftRun_cons hstep).trans rfl, wrote_value hd harrives
      (wrote_slot hd (by rw [harrives]) (fun _ _ => rfl) (fun _ _ => rfl)) ?_, fun _ => rfl⟩
    have hoperand := low_operand env.places i.src1 true s
    rwa [Source.operand, hv] at hoperand
  | slot off' =>
    rw [hv] at harrives
    exact delivers_slots hd hv hne harrives hclear hclear'
  | reg r =>
    rw [hv] at harrives
    exact delivers_slotReg hd hv harrives.1 harrives.2.2

/-- The destination has the value already. -/
theorem Typed.wrote_refl (h : i.Typed) (hsame : i.dst.home = i.src1.home) (pl : Addresses)
    (s : Cpu) : Wrote i.dst (i.value pl s) s s where
  holds := by
    have hdst := h.dst
    have hwidth := h.same hsame
    unfold Source.Has
    cases hd : i.dst.home with
    | remat c =>
      rw [hd] at hdst
      exact hdst.elim
    | reg r =>
      rw [hd] at hdst
      have hv := hsame.symm.trans hd
      show s.read r = _
      rw [← fit_value hdst.1]
      unfold Source.value
      rw [hv]
      cases hb : i.src1.isByte with
      | false => exact (Cpu.fit_read s r).symm
      | true =>
        have hr : r.isByte = true := hdst.1.trans (hwidth.resolve_right (by simp [hb]))
        have hself := Preg.fit_of_byte hr (s.read r)
        exact ((congrArg r.fit hself.symm).trans ((Preg.fit_fit r _).trans (Cpu.fit_read s r))).symm
    | slot off =>
      have hv := hsame.symm.trans hd
      cases hb : i.dst.isByte with
      | true =>
        show s.stack _ = _
        rw [low_value]
        unfold Source.value
        rw [hv]
        exact (low_readSlot s _ off).symm
      | false =>
        show readWord s.stack _ = _
        rw [value_of_word hb]
        unfold Source.value
        rw [hv, hwidth.resolve_left (by simp [hb])]
        rfl
  kept := fun _ _ _ => rfl
  sp := rfl
  above := fun _ _ _ => rfl

theorem Typed.run_emitMov {env : ShiftEnv} {s : Cpu} (h : i.Typed) (hclear : Clear s i.dst)
    (hclear' : Clear s i.src1) :
    ∃ t, shiftRun env (emitMov i.dst i.src1) s = some t ∧ Wrote i.dst (i.value env.places s) s t ∧
      (i.dst.isByte = true ∨ i.src1.isByteOperand = false → t.reg .flags = s.reg .flags) ∧
      (i.dst.home = i.src1.home → t = s) := by
  by_cases hsame : i.dst.home = i.src1.home
  · have hnone : emitMov i.dst i.src1 = [] := by
      unfold emitMov
      cases hd : i.dst.home with
      | remat c => rfl
      | reg r => exact if_pos (hd ▸ hsame)
      | slot off => exact if_pos (hd ▸ hsame)
    exact ⟨s, by rw [hnone]; rfl, h.wrote_refl hsame env.places s, fun _ => rfl, fun _ => rfl⟩
  · have hdelivers : i.Delivers env (emitMov i.dst i.src1) s := by
      have hdst := h.dst
      cases hd : i.dst.home with
      | remat c =>
        rw [hd] at hdst
        exact hdst.elim
      | reg q => exact h.delivers_reg hd hsame hclear'
      | slot off => exact h.delivers_slot hd hsame hclear hclear'
    obtain ⟨t, hrun, hwrote, hflags⟩ := hdelivers
    exact ⟨t, hrun, hwrote, hflags, fun he => absurd he hsame⟩

end VarShift

end Nib.Bind
