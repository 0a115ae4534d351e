import Nib.Bind.Spec.Moves
import Nib.Bind.Properties.Interrupt

/-!
# What the moves of one vreg do

* `Put` — a word has been put into a register
* `Left` — a word has been left on the stack
* `Taken` — a word has been taken from the stack
* `run_mov`, `run_push`, `run_popSaved` — which of them the sequences of instructions do
-/

namespace Nib.Bind

open Nib.Infra Turn

variable {env : MoveEnv}

/-! ## Reading and writing registers -/

theorem zeroExtend_low_zeroExtend (l : BitVec 8) :
    zeroExtend (low (zeroExtend l)) = zeroExtend l := by
  simp [zeroExtend]

namespace Preg

theorem fit_of_not_byte {r : Preg} (h : r.isByte = false) (w : Word) : r.fit w = w := by
  simp [fit, h]

theorem fit_of_byte {r : Preg} (h : r.isByte = true) (w : Word) : r.fit w = zeroExtend (low w) := by
  simp [fit, h]

theorem low_fit (r : Preg) (w : Word) : low (r.fit w) = low w := by
  cases hr : r.isByte with
  | true => simp [fit_of_byte hr, zeroExtend]
  | false => rw [fit_of_not_byte hr]

@[simp] theorem fit_fit (r : Preg) (w : Word) : r.fit (r.fit w) = r.fit w := by
  cases h : r.isByte <;> simp [fit, h, zeroExtend]

end Preg

namespace Cpu

@[simp] theorem put_stack (s : Cpu) (r : Preg) (w : Word) : (s.put r w).stack = s.stack := by
  cases r <;> rfl

theorem put_sp (s : Cpu) {r : Preg} (w : Word) (h : r ≠ .sp) : (s.put r w).sp = s.sp := by
  cases r <;> first | exact absurd rfl h | simp [put, Preg.aliasParent, sp]

theorem put_eq_setReg (s : Cpu) {r : Preg} (w : Word) (h : r.isByte = false) :
    s.put r w = s.setReg r w := by
  cases r <;> first | rfl | cases h

theorem read_eq_reg (s : Cpu) {r : Preg} (h : r.isByte = false) : s.read r = s.reg r := by
  cases r <;> first | rfl | cases h

theorem read_put_self (s : Cpu) (r : Preg) (w : Word) : (s.put r w).read r = r.fit w := by
  cases r <;> simp [read, put, Preg.fit, Preg.isByte, Preg.aliasParent, Preg.aliasLo]

theorem read_put_of_ne (s : Cpu) {d r : Preg} (w : Word) (h : pregsAlias d r = false) :
    (s.put d w).read r = s.read r := by
  cases d <;> cases r <;>
    first
    | exact absurd h (by decide)
    | simp [read, put, Preg.aliasParent, Preg.aliasLo]

/-- Registers are read alike when their words are. -/
theorem read_congr {s t : Cpu} (h : ∀ r ≠ .sp, t.reg r = s.reg r) {r : Preg} (hr : r ≠ .sp) :
    t.read r = s.read r := by
  cases r <;> first | exact absurd rfl hr | simp [read, Preg.aliasParent, h]

theorem read_push (s : Cpu) (ws : List Word) {r : Preg} (hr : r ≠ .sp) :
    (s.push ws).read r = s.read r :=
  read_congr (fun _ => push_reg s ws) hr

theorem read_drop (s : Cpu) (n : Nat) {r : Preg} (hr : r ≠ .sp) : (s.drop n).read r = s.read r :=
  read_congr (fun _ => drop_reg s n) hr

/-- A word register that gets back what it had has its halves back. -/
theorem read_setReg_back (s t : Cpu) {p r : Preg} (hp : p.isByte = false)
    (hr : pregsAlias p r = true) : (t.setReg p (s.reg p)).read r = s.read r := by
  cases p <;> cases r <;>
    first
    | exact absurd hr (by decide)
    | exact absurd hp (by decide)
    | simp [read, Preg.aliasParent]

@[simp] theorem push_one_stack (s : Cpu) (w : Word) :
    (s.push [w]).stack = write false s.stack (s.sp - 2) w := rfl

@[simp] theorem push_one_sp (s : Cpu) (w : Word) : (s.push [w]).sp = s.sp - 2 := by
  simp [push_sp]

@[simp] theorem drop_stack (s : Cpu) (n : Nat) : (s.drop n).stack = s.stack := rfl

@[simp] theorem setReg_stack (s : Cpu) (r : Preg) (w : Word) : (s.setReg r w).stack = s.stack := rfl

end Cpu

/-! ## Bytes as words -/

theorem and_byte (x : Word) : x &&& 255 = zeroExtend (low x) := by
  have hmask : ∀ (i : Nat) (hi : i < 16), (255#16)[i] = decide (i < 8) := by decide
  ext i hi
  simp [zeroExtend, joinBytes, low, hmask]
  grind

theorem shr_byte (x : Word) : x >>> 8 = zeroExtend (high x) := by
  ext i hi
  simp [zeroExtend, joinBytes, high]
  grind

theorem zeroExtend_ofInt {k : Int} (h0 : 0 ≤ k) (h1 : k ≤ 255) :
    zeroExtend (low (BitVec.ofInt 16 k)) = BitVec.ofInt 16 k := by
  obtain ⟨n, rfl⟩ := Int.eq_ofNat_of_zero_le h0
  have hn : n < 256 := by omega
  have hmod : n % 65536 = n := Nat.mod_eq_of_lt (by omega)
  have hmask : n &&& 255 = n := Nat.and_two_pow_sub_one_of_lt_two_pow (n := 8) hn
  rw [← and_byte, BitVec.ofInt_natCast]
  apply BitVec.eq_of_toNat_eq
  simp [hmod, hmask]

/-! ## Runs -/

theorem moveRun_runs (env : MoveEnv) : RunsBy (moveStep env) (moveRun env) :=
  ⟨fun _ => rfl, fun _ _ _ => rfl⟩

theorem moveRun_cons {i : MoveInsn} {is : List MoveInsn} {s t : Cpu}
    (h : moveStep env i s = some t) : moveRun env (i :: is) s = moveRun env is t :=
  (moveRun_runs env).head h

theorem moveRun_append {is js : List MoveInsn} {s t : Cpu} (h : moveRun env is s = some t) :
    moveRun env (is ++ js) s = moveRun env js t :=
  (moveRun_runs env).append h

/-! ## What sequences of instructions do -/

/-- The memory is as before but for `n` words below the stack pointer. -/
def Above (n : Nat) (s t : Cpu) : Prop :=
  ∀ a, (a - s.sp).toNat + 2 * n < 65536 → t.stack a = s.stack a

/-- `dst` has been given `w`. -/
structure Put (dst : Preg) (w : Word) (s t : Cpu) : Prop where
  value : t.read dst = dst.fit w
  regs : ∀ r ≠ .flags, pregsAlias dst r = false → t.read r = s.read r
  sp : t.sp = s.sp
  above : Above 2 s t

/-- `w` has been left on the stack. -/
structure Left (w : Word) (s t : Cpu) : Prop where
  regs : ∀ r ≠ .flags, r ≠ .sp → t.read r = s.read r
  sp : t.sp = s.sp - 2
  top : readWord t.stack t.sp = w
  above : Above 2 s t

/-- The word `w` has been taken from the stack for `dst`. -/
structure Taken (dst : Preg) (w : Word) (s t : Cpu) : Prop where
  value : t.read dst = dst.fit w
  regs : ∀ r ≠ .flags, r ≠ .sp → pregsAlias dst r = false → t.read r = s.read r
  sp : t.sp = s.sp + 2
  above : ∀ a, 2 ≤ (a - s.sp).toNat → (a - s.sp).toNat + 2 < 65536 → t.stack a = s.stack a

theorem Put.of_fit {dst : Preg} {w w' : Word} {s t : Cpu} (h : Put dst w s t)
    (hw : dst.fit w = dst.fit w') : Put dst w' s t :=
  { h with value := h.value.trans hw }

theorem put_put {dst : Preg} (hdst : dst ≠ .sp) (w : Word) (s : Cpu) :
    Put dst w s (s.put dst w) where
  value := Cpu.read_put_self s dst w
  regs := fun _ _ hr => Cpu.read_put_of_ne s w hr
  sp := Cpu.put_sp s w hdst
  above := fun _ _ => by rw [Cpu.put_stack]

theorem put_refl {dst : Preg} {w : Word} {s : Cpu} (h : s.read dst = dst.fit w) :
    Put dst w s s where
  value := h
  regs := fun _ _ _ => rfl
  sp := rfl
  above := fun _ _ => rfl

theorem write_below {m : Memory} {sp a x : BitVec 16} (h : (a - sp).toNat + 2 < 65536) :
    write false m (sp - 2) x a = m a := by
  refine write_of_notMem ?_ m x
  unfold written
  rintro (rfl | ⟨-, rfl⟩) <;> bv_omega

theorem sp_eq_read (s : Cpu) : s.sp = s.read .sp := rfl

/-- `AX` is used on the way and comes back. -/
theorem put_around {s u : Cpu} {dst : Preg} {w : Word} (hax : pregsAlias .ax dst = false)
    (hdst : dst ≠ .sp)
    (hregs : ∀ r ≠ .flags, pregsAlias .ax r = false → u.read r = (s.push [s.reg .ax]).read r)
    (hstack : u.stack = (s.push [s.reg .ax]).stack) :
    Put dst w s (((u.put dst w).drop 1).setReg .ax ((u.put dst w).peek 0)) := by
  have hsp : (u.put dst w).sp = s.sp - 2 := by
    rw [Cpu.put_sp u w hdst, sp_eq_read, hregs .sp (by decide) (by decide), ← sp_eq_read,
      Cpu.push_one_sp]
  have hpeek : (u.put dst w).peek 0 = s.reg .ax := by
    rw [Cpu.peek, hsp, Cpu.put_stack, hstack, Cpu.push_one_stack]
    simp [readWord_write, update]
  rw [hpeek]
  have hput : ((u.put dst w).drop 1).setReg .ax (s.reg .ax) =
      ((u.put dst w).drop 1).put .ax (s.reg .ax) := rfl
  refine ⟨?_, fun r hf hr => ?_, ?_, fun a ha => ?_⟩
  · rw [hput, Cpu.read_put_of_ne _ _ hax, Cpu.read_drop _ _ hdst, Cpu.read_put_self]
  · cases halias : pregsAlias .ax r with
    | true => exact Cpu.read_setReg_back s _ rfl halias
    | false =>
      rw [hput, Cpu.read_put_of_ne _ _ halias]
      by_cases hrsp : r = .sp
      · subst hrsp
        rw [← sp_eq_read, Cpu.drop_sp, hsp, ← sp_eq_read]
        bv_omega
      · rw [Cpu.read_drop _ _ hrsp, Cpu.read_put_of_ne _ _ hr, hregs r hf halias,
          Cpu.read_push _ _ hrsp]
  · rw [Cpu.setReg_sp _ _ (by decide), Cpu.drop_sp, hsp]
    bv_omega
  · rw [Cpu.setReg_stack, Cpu.drop_stack, Cpu.put_stack, hstack, Cpu.push_one_stack]
    exact write_below (by omega)

/-! ## A vreg into a register -/

/-- What `movTo` moves into a register. -/
def Source.operand (pl : Addresses) (v : Source) (byte : Bool) (s : Cpu) : Word :=
  match v.home with
  | .reg r => s.read r
  | .slot off => s.readSlot byte off
  | .remat c => c.value pl

def Source.CanMovTo (v : Source) (dst : Preg) : Prop :=
  match v.home with
  | .reg r => dst.canMov r = true
  | .slot _ => dst.canLoad = true
  | .remat _ => dst.canConst = true

theorem moveStep_movTo {v : Source} {dst : Preg} (h : v.CanMovTo dst) (s : Cpu) :
    moveStep env (v.movTo dst) s = some (s.put dst (v.operand env.places dst.isByte s)) := by
  unfold Source.CanMovTo at h
  unfold Source.movTo Source.operand
  cases hv : v.home with
  | reg r =>
    rw [hv] at h
    exact if_pos h
  | slot off =>
    rw [hv] at h
    exact if_pos h
  | remat c =>
    rw [hv] at h
    exact if_pos h

theorem assigned_of_home {v : Source} {r : Preg} (h : v.home = .reg r) : v.assigned = some r := by
  unfold Source.assigned
  rw [h]

theorem home_of_assigned {v : Source} {r : Preg} (h : v.assigned = some r) : v.home = .reg r := by
  unfold Source.assigned at h
  cases hv : v.home with
  | reg r' =>
    rw [hv] at h
    exact congrArg Home.reg (Option.some.inj h)
  | slot off =>
    rw [hv] at h
    cases h
  | remat c =>
    rw [hv] at h
    cases h

theorem low_readSlot (s : Cpu) (byte : Bool) (off : Int) :
    low (s.readSlot byte off) = s.stack (s.slotAddr off) := by
  cases byte <;> simp [Cpu.readSlot, readWord, zeroExtend]

/-- The operand and the value have the same low byte. -/
theorem low_operand (pl : Addresses) (v : Source) (byte : Bool) (s : Cpu) :
    low (v.operand pl byte s) = low (v.value pl s) := by
  unfold Source.operand Source.value
  cases v.home with
  | reg r => cases v.isByte <;> simp [zeroExtend]
  | slot off => rw [low_readSlot, low_readSlot]
  | remat c => cases v.isByte <;> simp [zeroExtend]

theorem operand_eq_value {pl : Addresses} {v : Source} (h : v.isByte = false) (s : Cpu) :
    v.operand pl false s = v.value pl s := by
  unfold Source.operand Source.value
  cases v.home <;> simp [h]

theorem pregsAlias_bp_of_ne {r : Preg} (h : r ≠ .bp) : pregsAlias r .bp = false := by
  revert h
  cases r <;> decide

/-- Slots are found where they were as long as `BP` stays. -/
theorem slotAddr_congr {s t : Cpu} (h : t.reg .bp = s.reg .bp) (off : Int) :
    t.slotAddr off = s.slotAddr off :=
  congrArg (· + BitVec.ofInt 16 off) h

theorem slotAddr_next (s : Cpu) (off : Int) : s.slotAddr (off + 1) = s.slotAddr off + 1 := by
  have hone : BitVec.ofInt 16 (off + 1) = BitVec.ofInt 16 off + 1 := by
    rw [BitVec.ofInt_add]
    rfl
  unfold Cpu.slotAddr
  rw [hone]
  bv_omega

theorem slotAddr_push (s : Cpu) (w : Word) (off : Int) :
    (s.push [w]).slotAddr off = s.slotAddr off :=
  slotAddr_congr (Cpu.push_reg s _ (by decide)) off

/-- A slot is read as before when `AX` has been pushed. -/
theorem operand_push {pl : Addresses} {v : Source} {s : Cpu} (byte : Bool)
    (hsp : v.home ≠ .reg .sp)
    (hroom : ∀ off, v.home = .slot off → (s.slotAddr off - s.sp).toNat + 6 ≤ 65536) (w : Word) :
    v.operand pl byte (s.push [w]) = v.operand pl byte s := by
  unfold Source.operand
  cases hv : v.home with
  | reg r => exact Cpu.read_push s _ fun hr => hsp (by rw [hv, hr])
  | slot off =>
    have haddr := slotAddr_push s w off
    have hlow := hroom off hv
    have h0 : (s.push [w]).stack (s.slotAddr off) = s.stack (s.slotAddr off) :=
      write_below (by omega)
    have h1 : (s.push [w]).stack (s.slotAddr off + 1) = s.stack (s.slotAddr off + 1) :=
      write_below (by bv_omega)
    simp only [Cpu.readSlot, haddr, readWord, h0, h1]
  | remat c => rfl

/-! ## One move -/

variable {v : Source} {dst : Preg} {s : Cpu}

theorem value_of_byte {pl : Addresses} (h : v.isByte = true) (s : Cpu) :
    zeroExtend (low (v.value pl s)) = v.value pl s := by
  unfold Source.value
  cases v.home <;> simp [h, Cpu.readSlot, zeroExtend]

theorem fit_operand {pl : Addresses} (h : dst.isByte = false → v.isByte = false) (s : Cpu) :
    dst.fit (v.operand pl dst.isByte s) = dst.fit (v.value pl s) := by
  cases hd : dst.isByte with
  | true => rw [Preg.fit_of_byte hd, Preg.fit_of_byte hd, low_operand]
  | false => rw [operand_eq_value (h hd)]

/-- The slot of a source is out of the way of pushes. -/
def Clear (s : Cpu) (v : Source) : Prop :=
  ∀ off, v.home = .slot off → (s.slotAddr off - s.sp).toNat + 6 ≤ 65536

theorem run_movTo (hcan : v.CanMovTo dst) (hdst : dst ≠ .sp)
    (hbyte : dst.isByte = false → v.isByte = false) (s : Cpu) :
    ∃ t, moveRun env [v.movTo dst] s = some t ∧ Put dst (v.value env.places s) s t :=
  ⟨_, moveRun_cons (moveStep_movTo hcan s), (put_put hdst _ s).of_fit (fit_operand hbyte s)⟩

/-- `AX` is saved, and `dst` is written from it or from `AL`. -/
theorem run_around {is : List MoveInsn} {s u : Cpu} {x : Preg} {w : Word}
    (hbody : moveRun env is (s.push [s.reg .ax]) = some u)
    (hregs : ∀ r ≠ .flags, pregsAlias .ax r = false → u.read r = (s.push [s.reg .ax]).read r)
    (hstack : u.stack = (s.push [s.reg .ax]).stack) (hmov : dst.canMov x = true)
    (hax : pregsAlias .ax dst = false) (hdst : dst ≠ .sp)
    (hfit : dst.fit (u.read x) = dst.fit w) :
    ∃ t, moveRun env (.push .ax :: (is ++ [.mov dst x, .pop .ax])) s = some t ∧ Put dst w s t := by
  have hmove : moveStep env (.mov dst x) u = some (u.put dst (u.read x)) := if_pos hmov
  refine ⟨((u.put dst (u.read x)).drop 1).setReg .ax ((u.put dst (u.read x)).peek 0), ?_,
    (put_around hax hdst hregs hstack).of_fit hfit⟩
  have hpush : moveStep env (.push .ax) s = some (s.push [s.reg .ax]) := rfl
  rw [moveRun_cons hpush, moveRun_append hbody, moveRun_cons hmove]
  rfl

/-- Through `AX`, which is saved. -/
theorem run_viaAx {x : Preg} (hcan : v.CanMovTo .ax) (hmov : dst.canMov x = true)
    (hax : pregsAlias .ax dst = false) (hdst : dst ≠ .sp) (hsp : v.home ≠ .reg .sp)
    (hclear : Clear s v)
    (hfit : ∀ u : Cpu, dst.fit ((u.put .ax (v.operand env.places false s)).read x) =
      dst.fit (v.value env.places s)) :
    ∃ t, moveRun env [.push .ax, v.movTo .ax, .mov dst x, .pop .ax] s = some t ∧
      Put dst (v.value env.places s) s t := by
  have hload := @moveStep_movTo env _ _ hcan (s.push [s.reg .ax])
  rw [operand_push _ hsp hclear] at hload
  have hbody : moveRun env [v.movTo .ax] (s.push [s.reg .ax]) = _ := moveRun_cons hload
  refine run_around hbody ?_ (Cpu.put_stack _ _ _) hmov hax hdst (hfit _)
  intro r _ hr
  exact Cpu.read_put_of_ne _ _ hr

/-- A byte from a slot, or a constant one, is widened in `AX`. -/
theorem run_widenViaAx (hv : ∀ r, v.home ≠ .reg r) (hbyte : v.isByte = true)
    (hmov : dst.canMov .ax = true) (hsp : dst ≠ .sp) (hax : pregsAlias .ax dst = false)
    (hclear : Clear s v) :
    ∃ t, moveRun env [.push .ax, .xorAx, v.movTo .al, .mov dst .ax, .pop .ax] s = some t ∧
      Put dst (v.value env.places s) s t := by
  let u : Cpu :=
    ((s.push [s.reg .ax]).setReg .ax 0).setReg .flags (env.flags .xorAx (s.push [s.reg .ax]))
  have hxor : moveStep env .xorAx (s.push [s.reg .ax]) = some u := rfl
  have hcan : v.CanMovTo .al := by
    unfold Source.CanMovTo
    cases hh : v.home with
    | reg r => exact absurd hh (hv r)
    | slot off => rfl
    | remat c => rfl
  have hoperand : v.operand env.places true u = v.operand env.places true s := by
    have hpush := @operand_push env.places v s true (hv .sp) hclear (s.reg .ax)
    rw [← hpush]
    unfold Source.operand
    cases hh : v.home with
    | reg r => exact absurd hh (hv r)
    | slot off => rfl
    | remat c => rfl
  have hlow : zeroExtend (low (v.operand env.places true s)) = v.value env.places s := by
    rw [low_operand, value_of_byte hbyte]
  have hload := @moveStep_movTo env _ _ hcan u
  have hbody : moveRun env [.xorAx, v.movTo .al] (s.push [s.reg .ax]) =
      some (u.put .al (v.operand env.places true s)) := by
    rw [moveRun_cons hxor, moveRun_cons hload, ← hoperand]
    rfl
  refine run_around hbody ?_ ?_ hmov hax hsp ?_
  · intro r hf hr
    cases r <;>
      first
      | exact absurd rfl hf
      | exact absurd hr (by decide)
      | simp [u, Cpu.read, Cpu.put, Preg.aliasParent]
  · rfl
  · rw [← hlow]
    simp [u, Cpu.read, Cpu.put, Preg.aliasParent, Preg.aliasLo, zeroExtend]
    rfl

theorem run_widenInAx (hv : ∀ r, v.home ≠ .reg r) (hbyte : v.isByte = true)
    (hdst : dst.widens = true) (hclear : Clear s v) :
    ∃ t, moveRun env [.push .ax, .xorAx, v.movTo .al, .mov dst .ax, .pop .ax] s = some t ∧
      Put dst (v.value env.places s) s t := by
  have hword : dst.canMov .ax = true ∧ dst ≠ .sp ∧ pregsAlias .ax dst = false := by
    revert hdst
    cases dst <;> decide
  exact run_widenViaAx hv hbyte hword.1 hword.2.1 hword.2.2 hclear

theorem put_flags {w : Word} {t : Cpu} (h : Put dst w s t) (hdst : dst ≠ .flags) (f : Word) :
    Put dst w s (t.setReg .flags f) := by
  have hother : ∀ r, r ≠ .flags → pregsAlias .flags r = false := by
    intro r hr
    cases r <;> first | rfl | exact absurd rfl hr
  have hread : ∀ r ≠ .flags, (t.setReg .flags f).read r = t.read r := fun r hr =>
    Cpu.read_put_of_ne t f (hother r hr)
  exact ⟨(hread dst hdst).trans h.value, fun r hf hr => (hread r hf).trans (h.regs r hf hr),
    (Cpu.setReg_sp t f (by decide)).trans h.sp, h.above⟩

theorem put_again {w w' : Word} {t : Cpu} (h : Put dst w s t) (hdst : dst ≠ .sp) :
    Put dst w' s (t.put dst w') where
  value := Cpu.read_put_self t dst w'
  regs := fun r hf hr => (Cpu.read_put_of_ne t w' hr).trans (h.regs r hf hr)
  sp := (Cpu.put_sp t w' hdst).trans h.sp
  above := fun a ha => by
    rw [Cpu.put_stack]
    exact h.above a ha

theorem Preg.not_byte_of_word {r : Preg} (h : r.isWord = true) : r.isByte = false := by
  revert h
  cases r <;> decide

theorem moveStep_andByte (h : dst.isWord = true) (u : Cpu) : moveStep env (.andByte dst) u =
    some ((u.put dst (u.reg dst &&& 255)).setReg .flags (env.flags (.andByte dst) u)) := by
  rw [Cpu.put_eq_setReg _ _ (Preg.not_byte_of_word h)]
  exact if_pos h

theorem moveStep_shrByte (h : dst.isWord = true) (u : Cpu) : moveStep env (.shrByte dst) u =
    some ((u.put dst (u.reg dst >>> 8)).setReg .flags (env.flags (.shrByte dst) u)) := by
  rw [Cpu.put_eq_setReg _ _ (Preg.not_byte_of_word h)]
  exact if_pos h

/-- A byte register is widened in the destination. -/
theorem run_widenByte {r p : Preg} (hv : v.home = .reg r) (hp : r.aliasParent = some p)
    (hdst : dst.widens = true) (s : Cpu) :
    ∃ t, moveRun env [.mov dst p,
        if some r = p.aliasLo then .andByte dst else .shrByte dst] s = some t ∧
      Put dst (v.value env.places s) s t := by
  have hword : dst.isWord = true ∧ dst.isByte = false ∧ dst ≠ .sp ∧ dst ≠ .flags := by
    revert hdst
    cases dst <;> decide
  obtain ⟨hw, hnot, hsp, hflags⟩ := hword
  have hparent : p.isWord = true ∧ p.isByte = false := by
    revert hp
    cases r <;> rintro ⟨⟩ <;> decide
  have hmov : dst.canMov p = true := by
    simp [Preg.canMov, hw, hparent.1]
  have hmove : moveStep env (.mov dst p) s = some (s.put dst (s.reg p)) := by
    rw [← Cpu.read_eq_reg s hparent.2]
    exact if_pos hmov
  have hreg : (s.put dst (s.reg p)).reg dst = s.reg p := by
    rw [Cpu.put_eq_setReg _ _ hnot, Cpu.setReg_reg, if_pos rfl]
  have hvalue : v.value env.places s = s.read r := by
    have hread : zeroExtend (low (s.read r)) = s.read r := by
      unfold Cpu.read
      rw [hp]
      exact zeroExtend_low_zeroExtend _
    unfold Source.value
    rw [hv]
    cases v.isByte
    · rfl
    · exact hread
  rw [hvalue, moveRun_cons hmove]
  have hdone := put_put hsp (s.reg p) s
  have hread : s.read r =
      zeroExtend (if p.aliasLo = some r then low (s.reg p) else high (s.reg p)) := by
    unfold Cpu.read
    rw [hp]
  by_cases hlo : some r = p.aliasLo
  · have hstep := @moveStep_andByte env dst hw (s.put dst (s.reg p))
    rw [hreg, and_byte] at hstep
    rw [if_pos hlo, moveRun_cons hstep, hread, if_pos hlo.symm]
    exact ⟨_, rfl, put_flags (put_again hdone hsp) hflags _⟩
  · have hstep := @moveStep_shrByte env dst hw (s.put dst (s.reg p))
    rw [hreg, shr_byte] at hstep
    rw [if_neg hlo, moveRun_cons hstep, hread, if_neg (Ne.symm hlo)]
    exact ⟨_, rfl, put_flags (put_again hdone hsp) hflags _⟩

/-- The kinds of destinations. -/
theorem Preg.isTarget_cases {r : Preg} (h : r.isTarget = true) :
    r ≠ .sp ∧ r ≠ .flags ∧ ((r.isByte = true ∧ r.isSegment = false) ∨
      (r.isWord = true ∧ r.isByte = false ∧ r.isSegment = false) ∨
      (r.isSegment = true ∧ r.isByte = false ∧ r.canPop = true ∧ r.canMov .ax = true ∧
        pregsAlias .ax r = false)) := by
  revert h
  cases r <;> decide

theorem emit_segment (hv : ∀ c, v.home ≠ .remat c) (hseg : dst.isSegment = true)
    (hne : v.assigned ≠ some dst) : rinsMovPregFromVreg dst v =
      [.push .ax, v.movTo .ax, .mov dst .ax, .pop .ax] := by
  unfold rinsMovPregFromVreg
  cases hh : v.home with
  | remat c => exact absurd hh (hv c)
  | reg r => simp [hseg, hne]
  | slot off => simp [hseg, hne]

/-- A slot or a byte register that fits the destination is moved by one instruction. -/
theorem emit_plain (hseg : dst.isSegment = false)
    (hword : ∀ r, v.assigned = some r → dst.isByte = true → r.isWord = false)
    (hwiden : dst.isByte = false → v.isByte = false ∧ v.assigned.any Preg.isByte = false) :
    rinsMovPregFromVreg dst v = [v.movTo dst] := by
  unfold rinsMovPregFromVreg
  cases hh : v.home with
  | remat c => simp [Source.movTo, hh]
  | reg r =>
    have hassigned : v.assigned = some r := by simp [Source.assigned, hh]
    cases hd : dst.isByte with
    | true =>
      have hnot := hword r hassigned hd
      simp [hseg, hassigned, Option.filter, hnot]
    | false =>
      have hno := hwiden hd
      rw [hassigned, Option.any_some] at hno
      simp [hseg, hassigned, hno.1, hno.2]
  | slot off =>
    have hassigned : v.assigned = none := by simp [Source.assigned, hh]
    cases hd : dst.isByte with
    | true => simp [hseg, hassigned]
    | false => simp [hseg, hassigned, (hwiden hd).1]

theorem run_slot {m : PlannedMove} {off : Int} (hm : m.Sound) (hv : m.src.home = .slot off)
    (hclear : Clear s m.src) : ∃ t, moveRun env (rinsMovPregFromVreg m.dst m.src) s = some t ∧
      Put m.dst (m.src.value env.places s) s t := by
  obtain ⟨htarget, hbyte⟩ := hm
  rw [hv] at hbyte
  have hassigned : m.src.assigned = none := by simp [Source.assigned, hv]
  have hcan : ∀ r : Preg, r.canLoad = true → m.src.CanMovTo r := by
    intro r hr
    unfold Source.CanMovTo
    rw [hv]
    exact hr
  obtain ⟨hsp, -, hkind⟩ := Preg.isTarget_cases htarget
  rcases hkind with ⟨hd, hseg⟩ | ⟨hd, hnot, hseg⟩ | ⟨hseg, hnot, -, hmov, hax⟩
  · rw [emit_plain hseg (by simp [hassigned]) (by simp [hd])]
    exact run_movTo (hcan _ (by simp [Preg.canLoad, hd])) hsp (by simp [hd]) s
  · cases hsrc : m.src.isByte with
    | false =>
      rw [emit_plain hseg (by simp [hassigned]) (by simp [hsrc, hassigned])]
      exact run_movTo (hcan _ (by simp [Preg.canLoad, hd])) hsp (fun _ => hsrc) s
    | true =>
      have hwidens : m.dst.widens = true := by
        rcases hbyte hsrc with h | h
        · rw [hnot] at h
          cases h
        · exact h
      have hlo : m.dst.aliasLo = none := by
        revert hwidens
        cases m.dst <;> decide
      have hemit : rinsMovPregFromVreg m.dst m.src =
          [.push .ax, .xorAx, m.src.movTo .al, .mov m.dst .ax, .pop .ax] := by
        unfold rinsMovPregFromVreg
        simp [hv, hseg, hassigned, hnot, hd, hsrc, hlo]
      rw [hemit]
      exact run_widenInAx (fun r hr => by rw [hv] at hr; cases hr) hsrc hwidens hclear
  · have hsrc : m.src.isByte = false := by
      cases hsrc : m.src.isByte with
      | false => rfl
      | true =>
        have hwidens : m.dst.widens = false := by
          revert hseg
          cases m.dst <;> decide
        rcases hbyte hsrc with h | h
        · exact absurd (hnot.symm.trans h) (by decide)
        · exact absurd (hwidens.symm.trans h) (by decide)
    rw [emit_segment (by simp [hv]) hseg (by simp [hassigned])]
    refine run_viaAx (hcan _ rfl) hmov hax hsp (by simp [hv]) hclear fun u => ?_
    rw [Cpu.read_put_self, operand_eq_value hsrc]
    rfl

theorem run_remat {m : PlannedMove} {c : Recipe} (hm : m.Sound) (hv : m.src.home = .remat c)
    (s : Cpu) : ∃ t, moveRun env (rinsMovPregFromVreg m.dst m.src) s = some t ∧
      Put m.dst (m.src.value env.places s) s t := by
  obtain ⟨htarget, hrest⟩ := hm
  rw [hv] at hrest
  obtain ⟨hseg, himm⟩ := hrest
  obtain ⟨hsp, -, hkind⟩ := Preg.isTarget_cases htarget
  have hcan : m.dst.canConst = true := by
    rcases hkind with ⟨hd, -⟩ | ⟨hd, -⟩ | ⟨hd, -⟩
    · simp [Preg.canConst, hd]
    · simp [Preg.canConst, hd]
    · rw [hseg] at hd
      cases hd
  have hemit : rinsMovPregFromVreg m.dst m.src = [.movConst m.dst c] := by
    unfold rinsMovPregFromVreg
    rw [hv]
  have hstep : moveStep env (.movConst m.dst c) s = some (s.put m.dst (c.value env.places)) :=
    if_pos hcan
  rw [hemit]
  refine ⟨_, moveRun_cons hstep, (put_put hsp _ s).of_fit ?_⟩
  unfold Source.value
  rw [hv]
  cases hsrc : m.src.isByte with
  | false => rfl
  | true =>
    cases hd : m.dst.isByte with
    | true => simp [Preg.fit, hd, zeroExtend]
    | false =>
      obtain ⟨k, rfl, h0, h1⟩ := himm hsrc hd
      exact congrArg m.dst.fit (zeroExtend_ofInt h0 h1).symm

theorem Preg.aliasLo_cases {r lo : Preg} (h : r.aliasLo = some lo) :
    r.isWord = true ∧ r.isByte = false ∧ lo.isByte = true ∧ lo.aliasParent = some r := by
  revert h
  cases r <;> rintro ⟨⟩ <;> decide

theorem read_lo {r lo : Preg} (h : r.aliasLo = some lo) (s : Cpu) :
    s.read lo = zeroExtend (low (s.read r)) := by
  obtain ⟨-, hnot, -, hp⟩ := Preg.aliasLo_cases h
  rw [Cpu.read_eq_reg s hnot, Cpu.read, hp]
  exact congrArg zeroExtend (if_pos h)

theorem Preg.ax_canMov {r : Preg} (h : r.isWord = true ∨ r.isSegment = true) :
    Preg.ax.canMov r = true := by
  revert h
  cases r <;> decide

theorem Preg.canMov_al {r : Preg} (h : r.isByte = true) : r.canMov .al = true := by
  revert h
  cases r <;> decide

/-- A byte destination takes the low byte of a register. -/
theorem run_byteReg {m : PlannedMove} {r : Preg} (hm : m.Sound) (hv : m.src.home = .reg r)
    (hd : m.dst.isByte = true) (s : Cpu) :
    ∃ t, moveRun env (rinsMovPregFromVreg m.dst m.src) s = some t ∧
      Put m.dst (m.src.value env.places s) s t := by
  obtain ⟨htarget, hrest⟩ := hm
  rw [hv] at hrest
  obtain ⟨⟨hrsp, hrflags⟩, hkind⟩ := hrest
  rw [if_pos hd] at hkind
  obtain ⟨hsp, -, -⟩ := Preg.isTarget_cases htarget
  have hseg : m.dst.isSegment = false := by
    revert hd
    cases m.dst <;> decide
  have hassigned : m.src.assigned = some r := by simp [Source.assigned, hv]
  have hlow : m.dst.fit (s.read r) = m.dst.fit (m.src.value env.places s) := by
    have hoperand := @low_operand env.places m.src true s
    rw [Source.operand, hv] at hoperand
    rw [Preg.fit_of_byte hd, Preg.fit_of_byte hd, hoperand]
  cases hrb : r.isByte with
  | true =>
    have hno : r.isWord = false := by
      revert hrb
      cases r <;> decide
    have hcan : m.src.CanMovTo m.dst := by
      unfold Source.CanMovTo
      rw [hv]
      simp [Preg.canMov, hd, hrb]
    rw [emit_plain hseg (by simp [hassigned, hno]) (by simp [hd])]
    exact run_movTo hcan hsp (by simp [hd]) s
  | false =>
    have hword : r.isWord = true := by
      rcases hkind with h | h | ⟨h, -⟩
      · rw [hrb] at h
        cases h
      · obtain ⟨lo, hlo⟩ := Option.isSome_iff_exists.mp h
        exact (Preg.aliasLo_cases hlo).1
      · exact h
    -- of a word the low half is moved, or all of it to `AX` when it has none
    cases hlo : r.aliasLo with
    | some lo =>
      have hemit : rinsMovPregFromVreg m.dst m.src =
          if m.dst = lo then [] else [.mov m.dst lo] := by
        unfold rinsMovPregFromVreg
        simp [hv, hseg, hassigned, Option.filter, hd, hword, hlo]
      rw [hemit]
      have hread : m.dst.fit (s.read lo) = m.dst.fit (m.src.value env.places s) := by
        rw [← hlow, read_lo hlo, Preg.fit_of_byte hd, Preg.fit_of_byte hd,
          zeroExtend_low_zeroExtend]
      by_cases heq : m.dst = lo
      · rw [if_pos heq]
        refine ⟨s, rfl, put_refl ?_⟩
        rw [← hread, heq, read_lo hlo, Preg.fit_of_byte (heq ▸ hd), zeroExtend_low_zeroExtend]
      · have hmov : m.dst.canMov lo = true := by
          simp [Preg.canMov, hd, (Preg.aliasLo_cases hlo).2.2.1]
        have hstep : moveStep env (.mov m.dst lo) s = some (s.put m.dst (s.read lo)) :=
          if_pos hmov
        rw [if_neg heq]
        exact ⟨_, moveRun_cons hstep, (put_put hsp _ s).of_fit hread⟩
    | none =>
      have hax : m.isAxByte = false := by
        rcases hkind with h | h | ⟨-, h⟩
        · rw [hrb] at h
          cases h
        · rw [Preg.hasHalves, hlo] at h
          cases h
        · exact h
      have hapart : m.dst ≠ .al ∧ pregsAlias .ax m.dst = false := by
        unfold PlannedMove.isAxByte at hax
        revert hax hd
        cases m.dst <;> decide
      have hemit : rinsMovPregFromVreg m.dst m.src =
          [.push .ax, m.src.movTo .ax, .mov m.dst .al, .pop .ax] := by
        unfold rinsMovPregFromVreg
        simp [hv, hseg, hassigned, Option.filter, hd, hword, hlo, hapart.1, Source.movTo]
      have hcan : m.src.CanMovTo .ax := by
        unfold Source.CanMovTo
        rw [hv]
        exact Preg.ax_canMov (.inl hword)
      rw [hemit]
      refine run_viaAx hcan (Preg.canMov_al hd) hapart.2 hsp ?_ ?_ fun u => ?_
      · rw [hv]
        exact fun h => hrsp (Home.reg.inj h)
      · intro off hoff
        rw [hv] at hoff
        cases hoff
      · have hal : (Preg.ax).aliasLo = some .al := rfl
        rw [read_lo hal, Cpu.read_put_self, Preg.fit_of_byte hd, zeroExtend_low_zeroExtend,
          Preg.fit_of_byte hd, ← low_operand]
        rfl

/-- **A sound move puts the value of its source into its destination.** -/
theorem run_mov {m : PlannedMove} (hm : m.Sound) (hclear : Clear s m.src) :
    ∃ t, moveRun env (rinsMovPregFromVreg m.dst m.src) s = some t ∧
      Put m.dst (m.src.value env.places s) s t := by
  cases hv : m.src.home with
  | slot off => exact run_slot hm hv hclear
  | remat c => exact run_remat hm hv s
  | reg r =>
    cases hd : m.dst.isByte with
    | true => exact run_byteReg hm hv hd s
    | false =>
      obtain ⟨htarget, hrest⟩ := hm
      rw [hv] at hrest
      obtain ⟨⟨hrsp, hrflags⟩, hkind⟩ := hrest
      rw [if_neg (by simp [hd])] at hkind
      have hassigned : m.src.assigned = some r := by simp [Source.assigned, hv]
      obtain ⟨hsp, -, hdst⟩ := Preg.isTarget_cases htarget
      cases hnarrow : m.src.isByte || r.isByte with
      | true =>
        rw [if_pos hnarrow] at hkind
        obtain ⟨hwidens, hrb⟩ := hkind
        obtain ⟨p, hp⟩ : ∃ p, r.aliasParent = some p := by
          revert hrb
          cases r <;> first | exact fun _ => ⟨_, rfl⟩ | exact fun h => absurd h (by decide)
        have hdst : m.dst.isWord = true ∧ m.dst.isSegment = false ∧ m.dst.aliasLo = none := by
          revert hwidens
          cases m.dst <;> decide
        have hemit : rinsMovPregFromVreg m.dst m.src =
            [.mov m.dst p, if some r = p.aliasLo then .andByte m.dst else .shrByte m.dst] := by
          unfold rinsMovPregFromVreg
          simp [hv, hassigned, hd, hdst, hrb, hp, Option.filter]
        rw [hemit]
        exact run_widenByte hv hp hwidens s
      | false =>
        obtain ⟨hsrc, hrb⟩ := (Bool.or_eq_false_iff.mp hnarrow)
        have hword : r.isWord = true ∨ r.isSegment = true := by
          revert hrsp hrflags hrb
          cases r <;> decide
        rcases hdst with ⟨hb, -⟩ | ⟨hw, -, hseg⟩ | ⟨hseg, -, -, hmov, hax⟩
        · rw [hd] at hb
          cases hb
        · have hcan : m.src.CanMovTo m.dst := by
            unfold Source.CanMovTo
            rw [hv]
            rcases hword with h | h <;> simp [Preg.canMov, hw, h]
          rw [emit_plain hseg (by simp [hd]) (by simp [hsrc, hassigned, hrb])]
          exact run_movTo hcan hsp (fun _ => hsrc) s
        · by_cases heq : r = m.dst
          · have hemit : rinsMovPregFromVreg m.dst m.src = [] := by
              unfold rinsMovPregFromVreg
              simp [hv, hseg, hassigned, heq]
            rw [hemit]
            refine ⟨s, rfl, put_refl ?_⟩
            simp [Source.value, hv, hsrc, heq, Preg.fit, hd]
          · have hcan : m.src.CanMovTo .ax := by
              unfold Source.CanMovTo
              rw [hv]
              exact Preg.ax_canMov hword
            rw [emit_segment (by simp [hv]) hseg (by simp [hassigned, heq])]
            refine run_viaAx hcan hmov hax hsp ?_ ?_ fun u => ?_
            · rw [hv]
              exact fun h => hrsp (Home.reg.inj h)
            · intro off hoff
              rw [hv] at hoff
              cases hoff
            · rw [Cpu.read_put_self, operand_eq_value hsrc]
              rfl

/-! ## Sources that are put aside -/

theorem readWord_write_self (m : Memory) (a x : Word) : readWord (write false m a x) a = x := by
  rw [readWord_write]
  rfl

theorem left_push (s : Cpu) (w : Word) : Left w s (s.push [w]) where
  regs := fun _ _ hr => Cpu.read_push s _ hr
  sp := Cpu.push_one_sp s w
  top := by
    rw [Cpu.push_one_sp, Cpu.push_one_stack]
    exact readWord_write_self _ _ _
  above := fun _ ha => write_below (by omega)

/-- The word above the one that `BP` points to is exchanged with `AX`, `BP` comes back. -/
theorem run_xchgTop {is : List MoveInsn} (s : Cpu) {x : Word} (hx : readWord s.stack s.sp = x)
    {u : Cpu} (hu : u = { (s.push [s.reg .bp]).setReg .bp (s.sp - 2) with
      stack := write false (s.push [s.reg .bp]).stack s.sp (s.reg .ax) }) :
    moveRun env (.push .bp :: .movBpSp :: .xchgAx :: is) s = moveRun env is (u.setReg .ax x) := by
  have hpush : moveStep env (.push .bp) s = some (s.push [s.reg .bp]) := rfl
  have hmov : moveStep env .movBpSp (s.push [s.reg .bp]) =
      some ((s.push [s.reg .bp]).setReg .bp (s.sp - 2)) := by
    rw [← Cpu.push_one_sp s (s.reg .bp)]
    rfl
  have haddr : ((s.push [s.reg .bp]).setReg .bp (s.sp - 2)).slotAddr 2 = s.sp := by
    rw [Cpu.slotAddr, Cpu.setReg_reg, if_pos rfl]
    show s.sp - 2 + 2 = s.sp
    bv_omega
  have hread : ((s.push [s.reg .bp]).setReg .bp (s.sp - 2)).readSlot false 2 = x := by
    rw [Cpu.readSlot, if_neg (by decide), haddr, Cpu.setReg_stack, Cpu.push_one_stack,
      readWord_write_of_ne (by bv_omega) (by bv_omega), hx]
  have hax : ((s.push [s.reg .bp]).setReg .bp (s.sp - 2)).reg .ax = s.reg .ax := by
    rw [Cpu.setReg_reg, if_neg (by decide), Cpu.push_reg s _ (by decide)]
  have hxchg : moveStep env .xchgAx ((s.push [s.reg .bp]).setReg .bp (s.sp - 2)) =
      some (u.setReg .ax x) := by
    subst hu
    rw [moveStep, haddr, hread, hax]
    rfl
  rw [moveRun_cons hpush, moveRun_cons hmov, moveRun_cons hxchg]

theorem run_pushByte (hcan : v.CanMovTo .al) (hsp : v.home ≠ .reg .sp) (hclear : Clear s v) :
    ∃ t, moveRun env (rinsPushByteVreg v) s = some t ∧
      Left (joinBytes (high (s.reg .ax)) (low (v.value env.places s))) s t := by
  have hpush : moveStep env (.push .ax) s = some (s.push [s.reg .ax]) := rfl
  have hload := @moveStep_movTo env _ _ hcan (s.push [s.reg .ax])
  rw [operand_push _ hsp hclear] at hload
  have hstep2 : (s.push [s.reg .ax]).put .al (v.operand env.places Preg.al.isByte s) =
      (s.push [s.reg .ax]).setReg .ax
        (joinBytes (high (s.reg .ax)) (low (v.value env.places s))) := by
    rw [← low_operand env.places v Preg.al.isByte s]
    rfl
  rw [hstep2] at hload
  let w := joinBytes (high (s.reg .ax)) (low (v.value env.places s))
  let s₂ := (s.push [s.reg .ax]).setReg .ax w
  have hsp₂ : s₂.sp = s.sp - 2 := by
    rw [Cpu.setReg_sp _ _ (by decide), Cpu.push_one_sp]
  have htop : readWord s₂.stack s₂.sp = s.reg .ax := by
    rw [hsp₂, Cpu.setReg_stack, Cpu.push_one_stack]
    exact readWord_write_self _ _ _
  let u : Cpu := { (s₂.push [s₂.reg .bp]).setReg .bp (s₂.sp - 2) with
    stack := write false (s₂.push [s₂.reg .bp]).stack s₂.sp (s₂.reg .ax) }
  have husp : (u.setReg .ax (s.reg .ax)).sp = s.sp - 4 := by
    have h : (u.setReg .ax (s.reg .ax)).sp = (s₂.push [s₂.reg .bp]).sp := by
      simp [u, Cpu.sp, Cpu.setReg]
    rw [h, Cpu.push_one_sp, hsp₂]
    bv_omega
  have hbp : s₂.reg .bp = s.reg .bp := by
    simp [s₂, Cpu.push_reg]
  have hpeek : (u.setReg .ax (s.reg .ax)).peek 0 = s.reg .bp := by
    rw [Cpu.peek, husp]
    show readWord (write false (write false s₂.stack (s₂.sp - 2) (s₂.reg .bp)) s₂.sp _) _ = _
    rw [Nat.mul_zero, BitVec.add_zero, hsp₂, readWord_write_of_ne (by bv_omega) (by bv_omega)]
    have haddr : s.sp - 2 - 2 = s.sp - 4 := by bv_omega
    rw [haddr, readWord_write_self, hbp]
  refine ⟨((u.setReg .ax (s.reg .ax)).drop 1).setReg .bp (s.reg .bp), ?_, ?_, ?_, ?_, ?_⟩
  · rw [rinsPushByteVreg, moveRun_cons hpush, moveRun_cons hload, run_xchgTop s₂ htop rfl, ← hpeek]
    rfl
  · intro r _ hr
    refine Cpu.read_congr (fun p hp => ?_) hr
    rw [Cpu.setReg_reg]
    by_cases hpb : p = .bp
    · rw [if_pos hpb, hpb]
    · rw [if_neg hpb, Cpu.drop_reg _ _ hp, Cpu.setReg_reg]
      by_cases hpa : p = .ax
      · rw [if_pos hpa, hpa]
      · rw [if_neg hpa]
        simp [u, s₂, Cpu.setReg, hpb, hpa, Cpu.push_reg _ _ hp]
  · rw [Cpu.setReg_sp _ _ (by decide), Cpu.drop_sp, husp]
    bv_omega
  · rw [Cpu.setReg_sp _ _ (by decide), Cpu.drop_sp, husp]
    have haddr : s.sp - 4 + BitVec.ofNat 16 (2 * 1) = s₂.sp := by
      rw [hsp₂]
      bv_omega
    rw [haddr]
    show readWord (write false _ s₂.sp (s₂.reg .ax)) s₂.sp = w
    rw [readWord_write_self]
    simp [s₂]
  · intro a ha
    show write false (write false (write false s.stack (s.sp - 2) _) (s₂.sp - 2) _) s₂.sp _ a = _
    rw [hsp₂, write_below (by omega), write_below (by bv_omega), write_below (by omega)]

/-- The word that is left has the byte of a byte vreg, and is a word vreg. -/
theorem run_pushTemp (h : v.Pushable) (hclear : Clear s v) :
    ∃ t w, moveRun env (rinsPushVregTemp v) s = some t ∧ Left w s t ∧
      low w = low (v.value env.places s) ∧ (v.isByte = false → w = v.value env.places s) := by
  unfold Source.Pushable at h
  unfold rinsPushVregTemp
  cases hsrc : v.isByte with
  | true =>
    have hcan : v.CanMovTo .al := by
      unfold Source.CanMovTo
      cases hv : v.home with
      | reg r =>
        rw [hv, hsrc] at h
        have hrb := h.2
        revert hrb
        cases r <;> decide
      | slot off => rfl
      | remat c => rfl
    have hsp : v.home ≠ .reg .sp := by
      intro hv
      rw [hv] at h
      exact h.1.1 rfl
    obtain ⟨t, hrun, hleft⟩ := @run_pushByte env _ _ hcan hsp hclear
    exact ⟨t, _, hrun, hleft, low_joinBytes _ _, fun h => by cases h⟩
  | false =>
    have hvalue : v.operand env.places false s = v.value env.places s := operand_eq_value hsrc s
    have hstep : moveStep env v.pushed s = some (s.push [v.value env.places s]) := by
      rw [← hvalue]
      unfold Source.pushed Source.operand
      cases hv : v.home with
      | reg r =>
        rw [hv, hsrc] at h
        obtain ⟨⟨hrsp, hrflags⟩, hrb⟩ := h
        have hpush : r.canPush = true := by
          revert hrsp hrflags hrb
          cases r <;> decide
        show _ = some (s.push [s.read r])
        rw [Cpu.read_eq_reg s hrb]
        exact if_pos hpush
      | slot off => rfl
      | remat c => rfl
    exact ⟨_, _, moveRun_cons hstep, left_push s _, rfl, fun _ => rfl⟩

theorem PlannedMove.SoundAside.pushable {m : PlannedMove} (haside : m.SoundAside)
    (hm : m.Sound) : m.src.Pushable := by
  obtain ⟨-, hhome⟩ := hm
  obtain ⟨-, hdst, hreg⟩ := haside
  unfold Source.Pushable
  cases hv : m.src.home with
  | reg r =>
    rw [hv] at hhome
    exact ⟨hhome.1, hreg r hv⟩
  | slot off => trivial
  | remat c => trivial

/-- The word that has been left lies above those that are pushed after it. -/
theorem Left.under {w : Word} {ws : List Word} {t u : Cpu} {n : Nat} (h : Left w s t)
    (hsp : u.sp = t.sp - BitVec.ofNat 16 (2 * ws.length)) (habove : Above n t u)
    (hn : 2 * n + 2 ≤ 65536) (htop : wordsAt u.stack u.sp ws.reverse) :
    wordsAt u.stack u.sp (w :: ws).reverse := by
  have hbase : u.sp + BitVec.ofNat 16 (2 * ws.reverse.length) = t.sp := by
    rw [hsp, List.length_reverse]
    bv_omega
  have h0 := habove t.sp (by rw [BitVec.sub_self]; simp only [BitVec.toNat_zero]; omega)
  have h1 := habove (t.sp + 1) (by bv_omega)
  rw [List.reverse_cons, wordsAt_append, hbase]
  refine ⟨htop, ?_, trivial⟩
  rw [← h.top, readWord, readWord, h0, h1]

/-- **The word that is put aside has what the destination is to hold.** -/
theorem run_push {m : PlannedMove} (hm : m.Sound) (haside : m.SoundAside) (hclear : Clear s m.src) :
    ∃ t w, moveRun env (rinsPushVregTemp m.src) s = some t ∧ Left w s t ∧
      m.dst.fit w = m.dst.fit (m.src.value env.places s) := by
  obtain ⟨t, w, hrun, hleft, hlow, hword⟩ := @run_pushTemp env _ s (haside.pushable hm) hclear
  refine ⟨t, w, hrun, hleft, ?_⟩
  cases hd : m.dst.isByte with
  | true => rw [Preg.fit_of_byte hd, Preg.fit_of_byte hd, hlow]
  | false =>
    have hsrc : m.src.isByte = false := by
      cases hsrc : m.src.isByte with
      | false => rfl
      | true => exact absurd ((haside.2.1 hsrc).symm.trans hd) (by decide)
    rw [hword hsrc]

/-! ## Taking them back -/

theorem moveStep_pop {r : Preg} (h : r.canPop = true) (s : Cpu) {w : Word}
    (hw : readWord s.stack s.sp = w) : moveStep env (.pop r) s = some ((s.drop 1).setReg r w) := by
  have hpeek : s.peek 0 = w := by
    rw [Cpu.peek, Nat.mul_zero, BitVec.add_zero, hw]
  rw [← hpeek]
  exact if_pos h

theorem taken_pop {r : Preg} (hr : r.isByte = false) (hsp : r ≠ .sp) (s : Cpu) (w : Word) :
    Taken r w s ((s.drop 1).setReg r w) := by
  rw [← Cpu.put_eq_setReg _ _ hr]
  refine ⟨Cpu.read_put_self _ _ _, fun r' _ hsp' hr' => ?_, ?_, fun _ _ _ => ?_⟩
  · rw [Cpu.read_put_of_ne _ _ hr', Cpu.read_drop _ _ hsp']
  · rw [Cpu.put_sp _ _ hsp, Cpu.drop_sp]
    rfl
  · rw [Cpu.put_stack, Cpu.drop_stack]

/-- A byte is taken through `AX`, which keeps its word. -/
theorem run_popByte (hdst : dst.isByte = true) (hax : pregsAlias .ax dst = false) {w : Word}
    (hw : readWord s.stack s.sp = w) :
    ∃ t, moveRun env [.push .bp, .movBpSp, .xchgAx, .mov dst .al, .pop .bp, .pop .ax] s = some t ∧
      Taken dst w s t := by
  have hdsp : dst ≠ .sp ∧ dst ≠ .bp ∧ pregsAlias .bp dst = false := by
    revert hdst
    cases dst <;> decide
  obtain ⟨hsp, hbp, hapart⟩ := hdsp
  let u : Cpu := { (s.push [s.reg .bp]).setReg .bp (s.sp - 2) with
    stack := write false (s.push [s.reg .bp]).stack s.sp (s.reg .ax) }
  let v := (u.setReg .ax w).put dst (zeroExtend (low w))
  have hmove : moveStep env (.mov dst .al) (u.setReg .ax w) = some v := by
    have hal : (u.setReg .ax w).read .al = zeroExtend (low w) := by
      simp [Cpu.read, Preg.aliasParent, Preg.aliasLo]
    have hstep : moveStep env (.mov dst .al) (u.setReg .ax w) =
        some ((u.setReg .ax w).put dst ((u.setReg .ax w).read .al)) := if_pos (Preg.canMov_al hdst)
    rw [hstep, hal]
  have hvsp : v.sp = s.sp - 2 := by
    have h : v.sp = (u.setReg .ax w).sp := Cpu.put_sp _ _ hsp
    have h' : (u.setReg .ax w).sp = (s.push [s.reg .bp]).sp := by
      simp [u, Cpu.sp, Cpu.setReg]
    rw [h, h', Cpu.push_one_sp]
  have hvstack : v.stack =
      write false (write false s.stack (s.sp - 2) (s.reg .bp)) s.sp (s.reg .ax) := by
    have h : v.stack = (u.setReg .ax w).stack := Cpu.put_stack _ _ _
    rw [h]
    rfl
  have hpopbp : moveStep env (.pop .bp) v = some ((v.drop 1).setReg .bp (s.reg .bp)) := by
    refine moveStep_pop rfl v ?_
    rw [hvsp, hvstack, readWord_write_of_ne (by bv_omega) (by bv_omega), readWord_write_self]
  have hsp' : ((v.drop 1).setReg .bp (s.reg .bp)).sp = s.sp := by
    rw [Cpu.setReg_sp _ _ (by decide), Cpu.drop_sp, hvsp]
    bv_omega
  have hpopax : moveStep env (.pop .ax) ((v.drop 1).setReg .bp (s.reg .bp)) =
      some ((((v.drop 1).setReg .bp (s.reg .bp)).drop 1).setReg .ax (s.reg .ax)) := by
    refine moveStep_pop rfl _ ?_
    rw [hsp', Cpu.setReg_stack, Cpu.drop_stack, hvstack, readWord_write_self]
  refine ⟨(((v.drop 1).setReg .bp (s.reg .bp)).drop 1).setReg .ax (s.reg .ax), ?_, ?_, ?_, ?_, ?_⟩
  · rw [run_xchgTop s hw rfl, moveRun_cons hmove, moveRun_cons hpopbp, moveRun_cons hpopax]
    rfl
  · rw [← Cpu.put_eq_setReg _ _ rfl, Cpu.read_put_of_ne _ _ hax, Cpu.read_drop _ _ hsp,
      ← Cpu.put_eq_setReg _ _ rfl, Cpu.read_put_of_ne _ _ hapart, Cpu.read_drop _ _ hsp]
    rw [Cpu.read_put_self, Preg.fit_of_byte hdst, Preg.fit_of_byte hdst, zeroExtend_low_zeroExtend]
  · intro r hf hrsp hr
    cases ha : pregsAlias .ax r with
    | true => exact Cpu.read_setReg_back s _ rfl ha
    | false =>
      rw [← Cpu.put_eq_setReg _ _ rfl, Cpu.read_put_of_ne _ _ ha, Cpu.read_drop _ _ hrsp]
      cases hb : pregsAlias .bp r with
      | true => exact Cpu.read_setReg_back s _ rfl hb
      | false =>
        rw [← Cpu.put_eq_setReg _ _ rfl, Cpu.read_put_of_ne _ _ hb, Cpu.read_drop _ _ hrsp,
          Cpu.read_put_of_ne _ _ hr, ← Cpu.put_eq_setReg _ _ rfl, Cpu.read_put_of_ne _ _ ha]
        have h : u.read r = ((s.push [s.reg .bp]).put .bp (s.sp - 2)).read r := by
          cases r <;> rfl
        rw [h, Cpu.read_put_of_ne _ _ hb, Cpu.read_push _ _ hrsp]
  · rw [Cpu.setReg_sp _ _ (by decide), Cpu.drop_sp, hsp']
    rfl
  · intro a h2 ha
    show v.stack a = _
    rw [hvstack, write_of_notMem, write_below ha]
    unfold written
    rintro (rfl | ⟨-, rfl⟩) <;> bv_omega

theorem run_popSaved {m : PlannedMove} (htarget : m.dst.isTarget = true)
    (hax : m.isAxByte = false) {w : Word} (hw : readWord s.stack s.sp = w) :
    ∃ t, moveRun env (popSaved m) s = some t ∧ Taken m.dst w s t := by
  unfold popSaved
  cases hd : m.dst.isByte with
  | true =>
    have hapart : m.dst.aliasParent ≠ some .ax ∧ pregsAlias .ax m.dst = false := by
      unfold PlannedMove.isAxByte at hax
      revert hax hd
      cases m.dst <;> decide
    rw [if_pos rfl, if_neg hapart.1]
    exact run_popByte hd hapart.2 hw
  | false =>
    obtain ⟨hsp, -, -⟩ := Preg.isTarget_cases htarget
    have hpop : m.dst.canPop = true := by
      revert htarget hd
      cases m.dst <;> decide
    rw [if_neg (by decide)]
    exact ⟨_, moveRun_cons (moveStep_pop hpop s hw), taken_pop hd hsp s w⟩

end Nib.Bind
