import Mathlib
import Nib.Bind.Spec.Entry
import Nib.Bind.Properties.Moves
import Nib.Bind.Properties.Interrupt

/-!
# Parameters that arrive

* `prologue_starts` — what the registers and the frame hold after the prologue
* `entryMove_run` — the move of one parameter
* `moves_arrive` — the moves one after the other
* `sound_arrives` — when every parameter arrives
-/

namespace Nib.Bind

open Nib.Infra

variable {env : MoveEnv} {segs : String → BitVec 16} {f : EntryFn} {p q : EntryParam} {e : Preg}
  {s t u : Cpu}

/-! ## The prologue -/

/-- The state before the moves. -/
structure Prepared (segs : String → BitVec 16) (f : EntryFn) (s t : Cpu) : Prop where
  regs : ∀ r, r ≠ .sp → t.reg r =
    if r = .ds then (f.frame.dsPolicy.source?.map (dsSourceValue segs)).getD (s.reg .ds)
    else if f.frame.needsFrame = true ∧ r = .bp then s.sp - 2 else s.reg r
  sp : f.frame.needsFrame = true →
    t.sp = s.sp - 2 - BitVec.ofNat 16 f.frame.frameSize - BitVec.ofNat 16 (2 * f.bodyWords)
  saved : f.frame.needsFrame = true → readWord t.stack (s.sp - 2) = s.reg .bp

theorem bodyRegs_length (f : EntryFn) : f.frame.bodyRegs.length = f.bodyWords := by
  unfold Handler.bodyRegs EntryFn.bodyWords
  rw [List.length_append]
  split <;> rfl

variable (segs) in
theorem prologue_starts (hsound : f.Sound) (hbare : f.frame.isBare = false) (s : Cpu) :
    ∃ t, wrapRun segs f.prologue s = some t ∧ Prepared segs f s t := by
  unfold EntryFn.prologue
  rw [if_neg (by rw [hbare]; exact Bool.false_ne_true), List.append_assoc, wrapRun_append]
  have hroom := hsound.room.2
  cases hframe : f.frame.needsFrame with
  | false =>
    have hrun : wrapRun segs f.frame.emitFrame s = some s := by
      unfold Handler.emitFrame
      rw [hframe]
      rfl
    obtain ⟨t, ht, hpush, hregs⟩ := @Handler.run_saveBody segs f.frame hsound.saved s
    rw [hrun, Option.bind_some]
    refine ⟨t, ht, ⟨fun r hr => ?_, fun h => ?_, fun h => ?_⟩⟩
    · rw [hregs r hr, hframe]
      simp
    · rw [hframe] at h
      cases h
    · rw [hframe] at h
      cases h
  | true =>
    obtain ⟨sB, hrun, hstack, hsp, hframed⟩ := @Handler.run_frame segs f.frame hframe s
    obtain ⟨t, ht, hpush, hregs⟩ := @Handler.run_saveBody segs f.frame hsound.saved sB
    rw [hrun, Option.bind_some]
    have hlen := bodyRegs_length f
    have hword : wordsAt sB.stack (s.sp - 2) [s.reg .bp] := by
      rw [hstack]
      have hnil : wordsAt s.stack s.sp [] := trivial
      have hp := (pushed_push s [s.reg .bp]).top (by simp) hnil
      rw [(pushed_push s [s.reg .bp]).sp] at hp
      exact hp
    have hd : (s.sp - 2 - sB.sp).toNat = f.frame.frameSize := by
      rw [hsp]
      exact Handler.toNat_sub_sub _ (by omega)
    refine ⟨t, ht, ⟨fun r hr => ?_, fun _ => ?_, fun _ => ?_⟩⟩
    · rw [hregs r hr, hframed r hr, hframed _ (by decide), hframe]
      simp
    · rw [hpush.sp, hsp, List.length_map, hlen]
    · refine (hpush.above ?_ hword).1
      rw [hd, List.length_singleton, hlen]
      omega

/-! ## One move -/

/-- The bytes of the home in memory. -/
def EntryParam.Occupies (p : EntryParam) (t : Cpu) (a : Word) : Prop :=
  ∃ off, p.home = .slot off ∧ ∃ k : Nat, k < (if p.isByte then 1 else 2) ∧
    a = t.slotAddr (off + k)

/-- The home has been given `w`; what lies elsewhere is as before. -/
structure Effect (p : EntryParam) (w : Word) (t u : Cpu) : Prop where
  holds : p.Holds w u
  regs : ∀ r ≠ .flags, (∀ x, p.home = .reg x → pregsAlias x r = false) → u.read r = t.read r
  sp : u.sp = t.sp
  mem : ∀ a, (a - t.sp).toNat + 4 < 65536 → ¬p.Occupies t a → u.stack a = t.stack a

theorem effect_of_put {r : Preg} {w : Word} (hhome : p.home = .reg r) (hbyte : r.isByte = false)
    (h : Put r w t u) : Effect p w t u where
  holds := by
    have hvalue : u.read r = w := h.value.trans (Preg.fit_of_not_byte hbyte w)
    unfold EntryParam.Holds
    rw [hhome]
    dsimp only
    split <;> rw [hvalue]
  regs := fun x hx hx' => h.regs x hx (hx' r hhome)
  sp := h.sp
  mem := fun a ha _ => h.above a ha

/-- The slot of a home is out of the way of pushes. -/
def EntryParam.ClearSlot (p : EntryParam) (t : Cpu) : Prop :=
  ∀ off, p.home = .slot off → (t.slotAddr off - t.sp).toNat + 6 ≤ 65536

theorem next_far {a sp : BitVec 16} (h : (a - sp).toNat + 6 ≤ 65536) :
    (a + 1 - sp).toNat + 4 < 65536 := by
  bv_omega

theorem effect_of_store {off : Int} {w : Word} (hhome : p.home = .slot off)
    (hregs : ∀ r ≠ .flags, u.read r = t.read r) (hstack : ∀ a, (a - t.sp).toNat + 4 < 65536 →
      u.stack a = write p.isByte t.stack (t.slotAddr off) w a)
    (hclear : p.ClearSlot t) : Effect p w t u where
  holds := by
    have hc := hclear off hhome
    have hbp : u.slotAddr off = t.slotAddr off :=
      slotAddr_congr (by
        have := hregs .bp (by decide)
        rwa [Cpu.read_eq_reg _ rfl, Cpu.read_eq_reg _ rfl] at this) off
    unfold EntryParam.Holds
    rw [hhome]
    dsimp only
    rw [hbp]
    cases hb : p.isByte with
    | true =>
      rw [if_pos rfl, hstack _ (by omega), write_self]
    | false =>
      rw [if_neg Bool.false_ne_true, readWord, hstack _ (next_far hc),
        hstack _ (by omega), hb]
      exact readWord_write_self _ _ _
  regs := fun r hr _ => hregs r hr
  sp := by
    have := hregs .sp (by decide)
    rwa [Cpu.read_eq_reg _ rfl, Cpu.read_eq_reg _ rfl] at this
  mem := fun a ha hocc => by
    rw [hstack a ha]
    refine write_of_notMem ?_ _ _
    unfold written
    rintro (rfl | ⟨hb, rfl⟩)
    · exact hocc ⟨off, hhome, 0, by split <;> decide, by simp⟩
    · refine hocc ⟨off, hhome, 1, by rw [hb]; decide, ?_⟩
      rw [← slotAddr_next]
      rfl

theorem Preg.storable {r : Preg} (h : r ≠ .flags) :
    (r.isByte || r.isWord || r.isSegment) = true := by
  revert h
  cases r <;> decide

theorem next_room {a sp : BitVec 16} (h : (a - sp).toNat + 6 ≤ 65536) :
    (a + 1 - sp).toNat + 5 ≤ 65536 := by
  bv_omega

/-- A slot is not the word below the stack pointer. -/
theorem pushed_ne {a sp : BitVec 16} (h : (a - sp).toNat + 5 ≤ 65536) :
    a ≠ sp - 2 ∧ a ≠ sp - 2 + 1 := by
  constructor <;> bv_omega

/-- The word that the prologue has saved `BP` in goes through `AX` to a slot. -/
theorem run_storeBp {off : Int} (hhome : p.home = .slot off) (hbyte : p.isByte = false)
    (hclear : p.ClearSlot t) (hbp : Clear t savedBp) :
    ∃ u, moveRun env (viaAx savedBp (.store off .ax)) t = some u ∧
      Effect p (savedBp.value env.places t) t u := by
  have hc := hclear off hhome
  have hload : moveStep env (savedBp.movTo .ax) (t.push [t.reg .ax]) =
      some ((t.push [t.reg .ax]).put .ax (savedBp.value env.places t)) := by
    have hcan : savedBp.CanMovTo .ax := (rfl : Preg.canLoad .ax = true)
    rw [moveStep_movTo hcan, operand_push _ (by decide) hbp]
    rfl
  obtain ⟨w, hw⟩ : ∃ w, savedBp.value env.places t = w := ⟨_, rfl⟩
  obtain ⟨u₂, hu₂⟩ : ∃ u₂, (t.push [t.reg .ax]).put .ax w = u₂ := ⟨_, rfl⟩
  rw [hw, hu₂] at hload
  have hsp : u₂.sp = t.sp - 2 := by
    rw [← hu₂, Cpu.put_sp _ _ (by decide), Cpu.push_one_sp]
  have hslot : u₂.slotAddr off = t.slotAddr off := by
    rw [← slotAddr_push t (t.reg .ax)]
    refine slotAddr_congr ?_ off
    rw [← Cpu.read_eq_reg _ rfl, ← hu₂, Cpu.read_put_of_ne _ _ (by decide), Cpu.read_eq_reg _ rfl]
  have hax : u₂.read .ax = w := by
    rw [← hu₂, Cpu.read_put_self]
    rfl
  have hread (r : Preg) (hr : pregsAlias .ax r = false) (hrsp : r ≠ .sp) :
      u₂.read r = t.read r := by
    rw [← hu₂, Cpu.read_put_of_ne _ _ hr, Cpu.read_push _ _ hrsp]
  have hstack : u₂.stack = write false t.stack (t.sp - 2) (t.reg .ax) := by
    rw [← hu₂, Cpu.put_stack, Cpu.push_one_stack]
  obtain ⟨u₃, hu₃⟩ : ∃ u₃ : Cpu,
      { u₂ with stack := write false u₂.stack (t.slotAddr off) w } = u₃ :=
    ⟨_, rfl⟩
  have hstore : moveStep env (.store off .ax) u₂ = some u₃ := by
    rw [← hu₃, ← hslot, ← hax]
    rfl
  have hregs₃ (r : Preg) : u₃.read r = u₂.read r := by
    rw [← hu₃]
    rfl
  have hsp₃ : u₃.sp = t.sp - 2 := by
    rw [← hsp, ← hu₃]
    rfl
  -- the slot is not where `AX` has been pushed
  have hpeek : u₃.peek 0 = t.reg .ax := by
    rw [Cpu.peek, Nat.mul_zero, BitVec.add_zero, hsp₃, ← hu₃]
    have hlo : ¬written false (t.slotAddr off) (t.sp - 2) := by
      unfold written
      rintro (h | ⟨-, h⟩)
      · exact (pushed_ne (by omega)).1 h.symm
      · exact (pushed_ne (next_room hc)).1 h.symm
    have hhi : ¬written false (t.slotAddr off) (t.sp - 2 + 1) := by
      unfold written
      rintro (h | ⟨-, h⟩)
      · exact (pushed_ne (by omega)).2 h.symm
      · exact (pushed_ne (next_room hc)).2 h.symm
    show joinBytes (write false _ _ _ (t.sp - 2 + 1)) (write false _ _ _ (t.sp - 2)) = _
    rw [write_of_notMem hlo, write_of_notMem hhi, hstack]
    exact readWord_write_self _ _ _
  refine ⟨(u₃.drop 1).setReg .ax (t.reg .ax), ?_, effect_of_store hhome (fun r hr => ?_)
    (fun a ha => ?_) hclear⟩
  · have hpush : moveStep env (.push .ax) t = some (t.push [t.reg .ax]) := rfl
    unfold viaAx
    rw [moveRun_cons hpush, moveRun_cons hload, moveRun_cons hstore, ← hpeek]
    rfl
  · cases halias : pregsAlias .ax r with
    | true => exact Cpu.read_setReg_back t _ rfl halias
    | false =>
      have hput : (u₃.drop 1).setReg .ax (t.reg .ax) = (u₃.drop 1).put .ax (t.reg .ax) := rfl
      rw [hput, Cpu.read_put_of_ne _ _ halias]
      by_cases hrsp : r = .sp
      · subst hrsp
        rw [← sp_eq_read, Cpu.drop_sp, hsp₃, ← sp_eq_read]
        bv_omega
      · rw [Cpu.read_drop _ _ hrsp, hregs₃, hread r halias hrsp]
  · rw [Cpu.setReg_stack, Cpu.drop_stack, ← hu₃, hbyte, hw]
    show write false u₂.stack _ w a = _
    rw [hstack]
    unfold write
    split
    · rfl
    · split
      · rfl
      · exact write_below (by omega)

/-- The source of a parameter as a vreg that is a word. -/
theorem entrySource_cases (needsFrame : Bool) (e : Preg) :
    (e = .bp ∧ needsFrame = true ∧ entrySource needsFrame e = savedBp) ∨
      ¬(e = .bp ∧ needsFrame = true) ∧ entrySource needsFrame e = { home := .reg e } := by
  unfold entrySource
  split
  · rename_i h
    exact .inl ⟨h.1, h.2, rfl⟩
  · rename_i h
    exact .inr ⟨h, rfl⟩

theorem run_mov_viaAx {v : Source} {r : Preg} (hbyte : v.isByte = false)
    (hcan : v.CanMovTo .ax) (hmov : r.canMov .ax = true) (hax : pregsAlias .ax r = false)
    (hr : r ≠ .sp) (hsp : v.home ≠ .reg .sp) (hclear : Clear t v) :
    ∃ u, moveRun env (viaAx v (.mov r .ax)) t = some u ∧ Put r (v.value env.places t) t u := by
  refine run_viaAx hcan hmov hax hr hsp hclear fun u => ?_
  rw [Cpu.read_put_self, operand_eq_value hbyte]
  rfl

theorem clear_reg {r : Preg} : Clear t { home := .reg r } := fun _ h => nomatch h

/-- A move into a register puts the source there. -/
theorem run_entryReg {needsFrame : Bool} {r : Preg} (he : p.expected = some e)
    (hhome : p.home = .reg r) (hfits : p.Fits needsFrame e) (hmoves : p.Moves needsFrame)
    (hclear : Clear t (entrySource needsFrame e)) :
    r.isByte = false ∧ ∃ u, moveRun env (p.entryMove needsFrame) t = some u ∧
      Put r ((entrySource needsFrame e).value env.places t) t u := by
  obtain ⟨hlocal, hesp, heflags, hkind⟩ := hfits
  rw [hhome] at hkind
  obtain ⟨hrsp, hrflags, -, hkind⟩ := hkind
  have hne : ¬(r = e ∨ pregsAlias r e = true) := by
    intro h
    refine hmoves ?_
    simp only [EntryParam.entryMove, he, hlocal, hhome, Bool.false_eq_true, if_false]
    rw [if_pos h]
  have hkind : e.isByte = false ∧ (p.isSeg = true ∧ r.isSegment = true ∧ r ≠ .cs ∨
      r.isWord = true ∧ e.isWord = true) := by
    rcases hkind with (rfl | ⟨-, h | h⟩) | ⟨-, h⟩
    · exact absurd (.inl rfl) hne
    · exact absurd (.inr (by simp [pregsAlias, h])) hne
    · exact absurd (.inr (by simp [pregsAlias, h])) hne
    · exact h
  have hemit : p.entryMove needsFrame =
      if p.isSeg ∧ r.isSegment then
        if e.isSegment then viaAx { home := .reg e } (.mov r .ax)
        else if e = .bp ∧ needsFrame then viaAx savedBp (.mov r .ax)
        else if e = .ax then [.mov r .ax]
        else viaAx { home := .reg e } (.mov r .ax)
      else if r.isWord ∧ e.isWord then
        if e = .bp ∧ needsFrame then
          if r = .ax then [savedBp.movTo .ax] else viaAx savedBp (.mov r .ax)
        else [.mov r e]
      else [] := by
    simp only [EntryParam.entryMove, he, hlocal, hhome, Bool.false_eq_true, if_false]
    rw [if_neg hne]
  obtain ⟨hebyte, hkind⟩ := hkind
  have heword : e.isWord = true ∨ e.isSegment = true := by
    revert hebyte heflags
    cases e <;> decide
  have hcan : Source.CanMovTo { home := .reg e } .ax := Preg.ax_canMov heword
  have hesource : ({ home := .reg e } : Source).home ≠ .reg .sp :=
    fun h => hesp (Home.reg.inj h)
  by_cases hseg : p.isSeg = true ∧ r.isSegment = true
  · rw [if_pos hseg] at hemit
    have hrcs : r ≠ .cs := by
      rcases hkind with h | h
      · exact h.2.2
      · rintro rfl
        cases h.1
    have hr : r.isByte = false ∧ r.canMov .ax = true ∧ pregsAlias .ax r = false := by
      revert hrcs
      have := hseg.2
      revert this
      cases r <;> decide
    refine ⟨hr.1, ?_⟩
    rcases entrySource_cases needsFrame e with ⟨rfl, hframe, hv⟩ | ⟨hnot, hv⟩
    · rw [hv] at hclear ⊢
      rw [if_neg (by decide), if_pos ⟨rfl, hframe⟩] at hemit
      rw [hemit]
      exact run_mov_viaAx rfl (rfl : Preg.canLoad .ax = true) hr.2.1 hr.2.2 hrsp (by decide) hclear
    · rw [hv]
      rw [if_neg hnot] at hemit
      have hvia : ∃ u, moveRun env (viaAx { home := .reg e } (.mov r .ax)) t = some u ∧
          Put r (Source.value env.places { home := .reg e } t) t u :=
        run_mov_viaAx rfl hcan hr.2.1 hr.2.2 hrsp hesource clear_reg
      split at hemit
      · rw [hemit]
        exact hvia
      · split at hemit
        · rename_i hax
          subst hax
          rw [hemit]
          have hcan' : Source.CanMovTo { home := .reg .ax } r := hr.2.1
          exact run_movTo hcan' hrsp (fun _ => rfl) t
        · rw [hemit]
          exact hvia
  · rw [if_neg hseg] at hemit
    have hwords : r.isWord = true ∧ e.isWord = true := by
      rcases hkind with h | h
      · exact absurd ⟨h.1, h.2.1⟩ hseg
      · exact h
    rw [if_pos hwords] at hemit
    have hrbyte : r.isByte = false := Preg.not_byte_of_word hwords.1
    refine ⟨hrbyte, ?_⟩
    rcases entrySource_cases needsFrame e with ⟨rfl, hframe, hv⟩ | ⟨hnot, hv⟩
    · rw [hv] at hclear ⊢
      rw [if_pos ⟨rfl, hframe⟩] at hemit
      split at hemit
      · rename_i hax
        subst hax
        rw [hemit]
        have hload : savedBp.CanMovTo .ax := (rfl : Preg.canLoad .ax = true)
        exact run_movTo hload hrsp (fun _ => rfl) t
      · rename_i hax
        rw [hemit]
        have hr : r.canMov .ax = true ∧ pregsAlias .ax r = false := by
          have := hwords.1
          revert this hax
          cases r <;> decide
        exact run_mov_viaAx rfl (rfl : Preg.canLoad .ax = true) hr.1 hr.2 hrsp (by decide) hclear
    · rw [hv]
      rw [if_neg hnot] at hemit
      rw [hemit]
      have hcan' : Source.CanMovTo { home := .reg e } r := by
        show r.canMov e = true
        simp [Preg.canMov, hwords]
      exact run_movTo hcan' hrsp (fun _ => rfl) t

/-- A store into a slot puts the source there. -/
theorem run_entrySlot {needsFrame : Bool} {off : Int} (he : p.expected = some e)
    (hhome : p.home = .slot off) (hfits : p.Fits needsFrame e) (hslot : p.ClearSlot t)
    (hclear : Clear t (entrySource needsFrame e)) :
    ∃ u, moveRun env (p.entryMove needsFrame) t = some u ∧
      Effect p ((entrySource needsFrame e).value env.places t) t u := by
  obtain ⟨hlocal, hesp, heflags, hkind⟩ := hfits
  rw [hhome] at hkind
  obtain ⟨-, hbyte⟩ := hkind
  have hemit : p.entryMove needsFrame =
      if e = .bp ∧ needsFrame then viaAx savedBp (.store off .ax) else [.store off e] := by
    simp only [EntryParam.entryMove, he, hlocal, hhome, Bool.false_eq_true, if_false]
  rcases entrySource_cases needsFrame e with ⟨rfl, hframe, hv⟩ | ⟨hnot, hv⟩
  · rw [hv] at hclear ⊢
    rw [if_pos ⟨rfl, hframe⟩] at hemit
    rw [hemit]
    exact run_storeBp hhome hbyte.symm hslot hclear
  · rw [if_neg hnot] at hemit
    rw [hv, hemit]
    have hstep : moveStep env (.store off e) t =
        some { t with stack := write e.isByte t.stack (t.slotAddr off) (t.read e) } :=
      if_pos (Preg.storable heflags)
    have hvalue : Source.value env.places { home := .reg e } t = t.read e := rfl
    refine ⟨_, (moveRun_cons hstep).trans rfl, ?_⟩
    rw [hvalue]
    exact effect_of_store hhome (fun _ _ => rfl) (fun a _ => by rw [hbyte]) hslot

variable (env) in
/-- **The move of one parameter** gives its home the value of its source. -/
theorem entryMove_run {needsFrame : Bool} (he : p.expected = some e)
    (hfits : p.Fits needsFrame e) (hmoves : p.Moves needsFrame) (hslot : p.ClearSlot t)
    (hclear : Clear t (entrySource needsFrame e)) :
    ∃ u, moveRun env (p.entryMove needsFrame) t = some u ∧
      Effect p ((entrySource needsFrame e).value env.places t) t u := by
  cases hhome : p.home with
  | reg r =>
    obtain ⟨hbyte, u, hu, hput⟩ := run_entryReg he hhome hfits hmoves hclear
    exact ⟨u, hu, effect_of_put hhome hbyte hput⟩
  | slot off => exact run_entrySlot he hhome hfits hslot hclear
  | nowhere =>
    refine absurd ?_ hmoves
    simp [EntryParam.entryMove, he, hhome]

/-! ## Homes that are left alone -/

theorem slotAddr_inj {off off' : Int} (h : t.slotAddr off = t.slotAddr off') :
    BitVec.ofInt 16 off = BitVec.ofInt 16 off' := by
  unfold Cpu.slotAddr at h
  exact (BitVec.add_right_inj _).mp h

theorem not_occupies {off : Int} (byte : Bool) (hapart : ∀ off', p.home = .slot off' →
    SlotsApart off byte off' p.isByte) {k : Nat} (hk : k < if byte then 1 else 2) :
    ¬p.Occupies t (t.slotAddr (off + k)) := by
  rintro ⟨off', hhome, k', hk', heq⟩
  exact hapart off' hhome k hk k' hk' (slotAddr_inj heq)

theorem Effect.holds_other {w w' : Word} (h : Effect p w' t u) (hq : q.Holds w t)
    (hapart : q.Apart p) (hflags : q.home ≠ .reg .flags) (hslot : q.ClearSlot t)
    (hbp : ∀ off, q.home = .slot off → u.reg .bp = t.reg .bp) :
    q.Holds w u := by
  unfold EntryParam.Holds at hq ⊢
  cases hhome : q.home with
  | nowhere => trivial
  | reg r =>
    rw [hhome] at hq
    dsimp only at hq ⊢
    rw [h.regs r (fun hr => hflags (hr ▸ hhome)) fun x hx => ?_]
    · exact hq
    · unfold EntryParam.Apart at hapart
      rw [hhome, hx] at hapart
      rw [pregsAlias_comm]
      exact hapart
  | slot off =>
    have hc := hslot off hhome
    have haddr : u.slotAddr off = t.slotAddr off := slotAddr_congr (hbp off hhome) off
    have happ : ∀ off', p.home = .slot off' → SlotsApart off q.isByte off' p.isByte := by
      intro off' hoff'
      unfold EntryParam.Apart at hapart
      rwa [hhome, hoff'] at hapart
    have hlo : u.stack (t.slotAddr off) = t.stack (t.slotAddr off) := by
      refine h.mem _ (by omega) ?_
      have hno := not_occupies (t := t) _ happ (k := 0) (by split <;> decide)
      simpa using hno
    rw [hhome] at hq
    dsimp only at hq ⊢
    rw [haddr]
    cases hb : q.isByte with
    | true =>
      rw [hb, if_pos rfl] at hq
      rw [if_pos rfl, hlo, hq]
    | false =>
      rw [hb, if_neg Bool.false_ne_true] at hq
      have hhi : u.stack (t.slotAddr off + 1) = t.stack (t.slotAddr off + 1) := by
        refine h.mem _ (next_far hc) ?_
        rw [← slotAddr_next]
        exact not_occupies _ happ (k := 1) (by rw [hb]; decide)
      rw [if_neg Bool.false_ne_true, ← hq, readWord, readWord, hlo, hhi]

/-! ## All moves -/

/-- The parameters `done` are in their homes; what these do not take is as after the prologue. -/
structure Progress (needsFrame : Bool) (s s₁ t : Cpu) (done : List EntryParam) : Prop where
  regs : ∀ r ≠ .flags, (∀ q ∈ done, q.Moves needsFrame → ∀ x, q.home = .reg x →
    pregsAlias x r = false) → t.read r = s₁.read r
  sp : t.sp = s₁.sp
  mem : ∀ a, (a - s₁.sp).toNat + 4 < 65536 →
    (∀ q ∈ done, q.Moves needsFrame → ¬q.Occupies s₁ a) → t.stack a = s₁.stack a
  holds : ∀ q ∈ done, ∀ e, q.expected = some e → q.Holds (s.read e) t

theorem not_moves_of_none {needsFrame : Bool} (h : p.expected = none) : ¬p.Moves needsFrame := by
  simp [EntryParam.Moves, EntryParam.entryMove, h]

theorem EntryParam.Moves.home {needsFrame : Bool} (h : p.Moves needsFrame) :
    p.home ≠ .nowhere := by
  intro hhome
  refine h ?_
  unfold EntryParam.entryMove
  rw [hhome]
  cases p.expected <;> simp

theorem moves_expected {needsFrame : Bool} (h : p.Moves needsFrame) :
    ∃ e, p.expected = some e := by
  cases he : p.expected with
  | none => exact absurd h (not_moves_of_none he)
  | some e => exact ⟨e, rfl⟩

/-- A parameter without a move is in place, or nowhere. -/
theorem inPlace_of_not_moves {needsFrame : Bool} (he : p.expected = some e)
    (hfits : p.Fits needsFrame e) (hmoves : ¬p.Moves needsFrame) :
    p.home = .nowhere ∨ ∃ r, p.home = .reg r ∧ p.InPlace e r := by
  have hnil : p.entryMove needsFrame = [] := by
    by_contra h
    exact hmoves h
  obtain ⟨hlocal, hesp, heflags, hkind⟩ := hfits
  simp only [EntryParam.entryMove, he, hlocal, Bool.false_eq_true, if_false] at hnil
  cases hhome : p.home with
  | nowhere => exact .inl rfl
  | slot off =>
    rw [hhome] at hnil
    dsimp only at hnil
    split at hnil <;> cases hnil
  | reg r =>
    refine .inr ⟨r, rfl, ?_⟩
    rw [hhome] at hkind hnil
    obtain ⟨-, -, -, hkind⟩ := hkind
    dsimp only at hnil
    rcases hkind with h | ⟨halias, hebyte, hkind⟩
    · exact h
    · by_cases heq : r = e
      · exact .inl heq
      · rw [if_neg (by simp [heq, halias])] at hnil
        rcases hkind with ⟨hseg, hrseg, -⟩ | hwords
        · rw [if_pos ⟨hseg, hrseg⟩] at hnil
          repeat' split at hnil
          all_goals cases hnil
        · have hrseg : ¬(p.isSeg = true ∧ r.isSegment = true) := by
            rintro ⟨-, h⟩
            have := hwords.1
            revert this h
            cases r <;> decide
          rw [if_neg hrseg, if_pos hwords] at hnil
          repeat' split at hnil
          all_goals cases hnil

theorem low_read_lo {r lo : Preg} (h : r.aliasLo = some lo) (s : Cpu) :
    low (s.read lo) = low (s.read r) := by
  rw [read_lo h]
  exact low_joinBytes _ _

theorem inPlace_holds {r : Preg} (hhome : p.home = .reg r) (h : p.InPlace e r)
    {s t : Cpu} (hr : t.read r = s.read r) : p.Holds (s.read e) t := by
  unfold EntryParam.Holds
  rw [hhome]
  dsimp only
  rcases h with rfl | ⟨hbyte, h | h⟩
  · split <;> rw [hr]
  · rw [hbyte, if_pos rfl, hr, low_read_lo h]
  · rw [hbyte, if_pos rfl, hr, low_read_lo h]

/-- Segment registers have no halves. -/
theorem EntryParam.InPlace.of_ds {r : Preg} (h : p.InPlace e r) (hr : r = .ds) : e = .ds := by
  subst hr
  rcases h with h | ⟨-, h | h⟩
  · exact h.symm
  · cases h
  · revert h
    cases e <;> rintro ⟨⟩

/-- The registers of parameters are as they were at the call. -/
theorem Prepared.read {s₁ : Cpu} (h : Prepared segs f s s₁) {r : Preg} (hsp : r ≠ .sp)
    (hds : f.frame.dsPolicy.source?.isSome = true → r ≠ .ds)
    (hbp : f.frame.needsFrame = true → r ≠ .bp) : s₁.read r = s.read r := by
  have hword {x : Preg} (hx : x ≠ .sp) (hxds : x = .ds → r = .ds) (hxbp : x = .bp → r = .bp) :
      s₁.reg x = s.reg x := by
    rw [h.regs x hx]
    split
    · rename_i hxd
      subst hxd
      cases hsrc : f.frame.dsPolicy.source? with
      | none => rfl
      | some src => exact absurd (hxds rfl) (hds (by rw [hsrc]; rfl))
    · split
      · rename_i hxb
        exact absurd (hxbp hxb.2) (hbp hxb.1)
      · rfl
  unfold Cpu.read
  cases hp : r.aliasParent with
  | none => exact hword hsp (fun h => h) fun h => h
  | some x =>
    have hx : x ≠ .sp ∧ x ≠ .ds ∧ x ≠ .bp := by
      revert hp
      cases r <;> rintro ⟨⟩ <;> decide
    dsimp only
    rw [hword hx.1 (fun h => absurd h hx.2.1) fun h => absurd h hx.2.2]

section Step

variable {s₁ : Cpu} {before after : List EntryParam}

/-- `BP` keeps the base of the frame. -/
theorem Progress.bp (h : Progress f.frame.needsFrame s s₁ t before)
    (hfits : ∀ q ∈ before, q.home ≠ .nowhere → ∀ e, q.expected = some e →
      q.Fits f.frame.needsFrame e) (hframe : f.frame.needsFrame = true) :
    t.reg .bp = s₁.reg .bp := by
  have hread := h.regs .bp (by decide) fun q hq hmoves x hx => by
    obtain ⟨e, he⟩ := moves_expected hmoves
    obtain ⟨-, -, -, hkind⟩ := hfits q hq hmoves.home e he
    rw [hx] at hkind
    refine pregsAlias_bp_of_ne fun hbp => ?_
    rw [hkind.2.2.1 hbp] at hframe
    cases hframe
  rwa [Cpu.read_eq_reg _ rfl, Cpu.read_eq_reg _ rfl] at hread

theorem InFrame.clear {off : Int} (hprep : Prepared segs f s s₁) (h : f.InFrame off)
    (hframe : f.frame.needsFrame = true) (hbp : t.reg .bp = s₁.reg .bp) (hsp : t.sp = s₁.sp) :
    (t.slotAddr off - t.sp).toNat + 6 ≤ 65536 := by
  obtain ⟨h1, h2⟩ := h
  have hbase : t.reg .bp = s.sp - 2 := by
    rw [hbp, hprep.regs .bp (by decide), if_neg (by decide), if_pos ⟨hframe, rfl⟩]
  unfold Cpu.slotAddr
  rw [hbase, hsp, hprep.sp hframe]
  have heq : s.sp - 2 + BitVec.ofInt 16 off - (s.sp - 2 - BitVec.ofNat 16 f.frame.frameSize -
      BitVec.ofNat 16 (2 * f.bodyWords)) =
      BitVec.ofInt 16 (off + f.frame.frameSize + 2 * f.bodyWords) := by
    have hnat (n : Nat) : BitVec.ofNat 16 n = BitVec.ofInt 16 n := by simp
    rw [hnat, hnat, BitVec.ofInt_add, BitVec.ofInt_add]
    push_cast
    grind
  rw [heq, BitVec.toNat_ofInt]
  omega

variable (env) in
/-- The source of a parameter has its value when its turn comes. -/
theorem source_value (hsound : f.Sound) (hprep : Prepared segs f s s₁)
    (h : Progress f.frame.needsFrame s s₁ t before) (hbare : f.frame.isBare = false)
    (hp : p ∈ f.params) (hhome : p.home ≠ .nowhere)
    (hbefore : ∀ q ∈ before, q ∈ f.params) (he : p.expected = some e)
    (hspares : ∀ q ∈ before, q.Moves f.frame.needsFrame → q.Spares e) :
    (entrySource f.frame.needsFrame e).value env.places t = s.read e := by
  have hfits (q : EntryParam) (hq : q ∈ before) := hsound.fits q (hbefore q hq)
  rcases entrySource_cases f.frame.needsFrame e with ⟨rfl, hframe, hv⟩ | ⟨hnot, hv⟩
  · rw [hv]
    have hbp := h.bp hfits hframe
    have hbp₁ : s₁.reg .bp = s.sp - 2 := by
      rw [hprep.regs .bp (by decide), if_neg (by decide), if_pos ⟨hframe, rfl⟩]
    have haddr : t.slotAddr 0 = s.sp - 2 := by
      unfold Cpu.slotAddr
      rw [hbp, hbp₁]
      simp
    have hclear := InFrame.clear hprep hsound.room hframe hbp h.sp
    rw [h.sp] at hclear
    have haddr₁ (k : Nat) : s₁.slotAddr (0 + k) = t.slotAddr (0 + k) := slotAddr_congr hbp.symm _
    have hfree (k : Nat) (hk : k < 2) : ∀ q ∈ before, q.Moves f.frame.needsFrame →
        ¬q.Occupies s₁ (t.slotAddr (0 + k)) := by
      intro q hq hmoves
      rw [← haddr₁]
      refine not_occupies false (fun off' hoff' => ?_) hk
      have := hspares q hq hmoves
      unfold EntryParam.Spares at this
      rw [hoff'] at this
      exact fun k hk k' hk' heq => this rfl k' hk' k hk heq.symm
    have hlo : t.stack (s.sp - 2) = s₁.stack (s.sp - 2) := by
      rw [← haddr]
      have hno := hfree 0 (by decide)
      exact h.mem _ (by omega) (by simpa using hno)
    have hhi : t.stack (s.sp - 2 + 1) = s₁.stack (s.sp - 2 + 1) := by
      rw [← haddr, ← slotAddr_next]
      have hno := hfree 1 (by decide)
      refine h.mem _ ?_ (by simpa using hno)
      rw [slotAddr_next]
      exact next_far hclear
    show readWord t.stack (t.slotAddr 0) = _
    rw [haddr, Cpu.read_eq_reg _ rfl, ← hprep.saved hframe, readWord, readWord, hlo, hhi]
  · rw [hv]
    obtain ⟨-, hesp, heflags, -⟩ := hsound.fits p hp hhome e he
    show t.read e = _
    rw [h.regs e heflags fun q hq hmoves x hx => ?_]
    · refine hprep.read hesp (fun hds hed => ?_) fun hframe hbp => hnot ⟨hbp, hframe⟩
      exact hsound.ds hbare hds p hp hhome (hed ▸ he)
    · have := hspares q hq hmoves
      unfold EntryParam.Spares at this
      rwa [hx] at this

variable (env) in
/-- **One parameter** gets to its home, and those before it stay in theirs. -/
theorem progress_step (hsound : f.Sound) (hprep : Prepared segs f s s₁)
    (h : Progress f.frame.needsFrame s s₁ t before) (hbare : f.frame.isBare = false)
    (hparams : f.params = before ++ p :: after) :
    ∃ u, moveRun env (p.entryMove f.frame.needsFrame) t = some u ∧
      Progress f.frame.needsFrame s s₁ u (before ++ [p]) := by
  have hp : p ∈ f.params := by simp [hparams]
  have hbefore : ∀ q ∈ before, q ∈ f.params := fun q hq => by simp [hparams, hq]
  have hlater {q : EntryParam} (hq : q ∈ before) := by
    have := hsound.later
    rw [hparams] at this
    exact (List.pairwise_append.mp this).2.2 q hq p List.mem_cons_self
  have hearlier {q : EntryParam} (hq : q ∈ before) := by
    have := hsound.earlier
    rw [hparams] at this
    exact (List.pairwise_append.mp this).2.2 q hq p List.mem_cons_self
  have hframed {q : EntryParam} (hq : q ∈ f.params) (he : ∃ e, q.expected = some e) :
      (∀ off, q.home = .slot off → f.frame.needsFrame = true) ∧ q.home ≠ .reg .flags := by
    obtain ⟨e, he⟩ := he
    constructor
    · intro off hoff
      obtain ⟨-, -, -, hkind⟩ :=
        hsound.fits q hq (by rw [hoff]; exact EntryHome.noConfusion) e he
      rw [hoff] at hkind
      exact hkind.1
    · intro hreg
      obtain ⟨-, -, -, hkind⟩ :=
        hsound.fits q hq (by rw [hreg]; exact EntryHome.noConfusion) e he
      rw [hreg] at hkind
      exact hkind.2.1 rfl
  have hbp : f.frame.needsFrame = true → t.reg .bp = s₁.reg .bp :=
    h.bp fun q hq => hsound.fits q (hbefore q hq)
  have hslot {q : EntryParam} (hq : q ∈ f.params) (he : ∃ e, q.expected = some e) :
      q.ClearSlot t := fun off hoff =>
    InFrame.clear hprep (hsound.slots q hq off hoff) ((hframed hq he).1 off hoff)
      (hbp ((hframed hq he).1 off hoff)) h.sp
  by_cases hmoves : p.Moves f.frame.needsFrame
  · obtain ⟨e, he⟩ := moves_expected hmoves
    have hhome := hmoves.home
    have hclear : Clear t (entrySource f.frame.needsFrame e) := by
      rcases entrySource_cases f.frame.needsFrame e with ⟨rfl, hframe, hv⟩ | ⟨-, hv⟩
      · rw [hv]
        rintro off ⟨⟩
        exact InFrame.clear hprep hsound.room hframe (hbp hframe) h.sp
      · rw [hv]
        exact clear_reg
    have hvalue := source_value env hsound hprep h hbare hp hhome hbefore he fun q hq hqm => by
      obtain ⟨e', he'⟩ := moves_expected hqm
      exact (hlater hq e' e he' he hqm).1 hmoves
    obtain ⟨u, hu, heff⟩ := entryMove_run env he (hsound.fits p hp hhome e he) hmoves
      (hslot hp ⟨e, he⟩) hclear
    rw [hvalue] at heff
    have hubp : f.frame.needsFrame = true → u.reg .bp = t.reg .bp := by
      intro hframe
      have hread := heff.regs .bp (by decide) fun x hx => by
        obtain ⟨-, -, -, hkind⟩ := hsound.fits p hp hhome e he
        rw [hx] at hkind
        refine pregsAlias_bp_of_ne fun hxbp => ?_
        rw [hkind.2.2.1 hxbp] at hframe
        cases hframe
      rwa [Cpu.read_eq_reg _ rfl, Cpu.read_eq_reg _ rfl] at hread
    refine ⟨u, hu, ⟨fun r hr hfree => ?_, heff.sp.trans h.sp, fun a ha hfree => ?_,
      fun q hq e' he' => ?_⟩⟩
    · rw [heff.regs r hr fun x hx => hfree p (by simp) hmoves x hx]
      exact h.regs r hr fun q hq => hfree q (by simp [hq])
    · have hocc : ¬p.Occupies t a := by
        rintro ⟨off, hoff, k, hk, rfl⟩
        refine hfree p (by simp) hmoves ⟨off, hoff, k, hk, ?_⟩
        exact slotAddr_congr (hbp ((hframed hp ⟨e, he⟩).1 off hoff)) _
      rw [heff.mem a (by rw [h.sp]; exact ha) hocc]
      exact h.mem a ha fun q hq => hfree q (by simp [hq])
    · rcases List.mem_append.mp hq with hq | hq
      · refine heff.holds_other (h.holds q hq e' he') (hearlier hq e' e he' he hmoves)
          (hframed (hbefore q hq) ⟨e', he'⟩).2 (hslot (hbefore q hq) ⟨e', he'⟩) fun off hoff => ?_
        exact hubp ((hframed (hbefore q hq) ⟨e', he'⟩).1 off hoff)
      · obtain rfl := List.mem_singleton.mp hq
        obtain rfl : e = e' := Option.some.inj (he.symm.trans he')
        exact heff.holds
  · have hnil : p.entryMove f.frame.needsFrame = [] := by
      by_contra hne
      exact hmoves hne
    have hnone {P : EntryParam → Prop}
        (hP : ∀ q ∈ before ++ [p], q.Moves f.frame.needsFrame → P q) :
        ∀ q ∈ before, q.Moves f.frame.needsFrame → P q := fun q hq => hP q (by simp [hq])
    rw [hnil]
    refine ⟨t, rfl, ⟨fun r hr hfree => h.regs r hr (hnone hfree), h.sp,
      fun a ha hfree => h.mem a ha (hnone hfree), fun q hq e' he' => ?_⟩⟩
    rcases List.mem_append.mp hq with hq | hq
    · exact h.holds q hq e' he'
    · obtain rfl := List.mem_singleton.mp hq
      by_cases hnowhere : q.home = .nowhere
      · unfold EntryParam.Holds
        rw [hnowhere]
        trivial
      have hfits := hsound.fits q hp hnowhere e' he'
      obtain ⟨r, hhome, hplace⟩ :=
        (inPlace_of_not_moves he' hfits hmoves).resolve_left hnowhere
      obtain ⟨-, hesp, heflags, hkind⟩ := hfits
      rw [hhome] at hkind
      obtain ⟨hrsp, hrflags, hrbp, -⟩ := hkind
      refine inPlace_holds hhome hplace ?_
      rw [h.regs r hrflags fun x hx hxm y hy => ?_]
      · refine hprep.read hrsp (fun hds hrds => ?_) fun hframe hbp => ?_
        · refine hsound.ds hbare hds q hp hnowhere ?_
          rw [he', hplace.of_ds hrds]
        · rw [hrbp hbp] at hframe
          cases hframe
      · obtain ⟨e, he⟩ := moves_expected hxm
        have hapart := (hlater hx e e' he he' hxm).2
        unfold EntryParam.Apart at hapart
        rwa [hy, hhome] at hapart

variable (env) in
/-- **The moves** take the parameters to their homes, one after the other. -/
theorem moves_arrive (hsound : f.Sound) (hprep : Prepared segs f s s₁)
    (hbare : f.frame.isBare = false) : ∀ (before after : List EntryParam) (t : Cpu),
    f.params = before ++ after → Progress f.frame.needsFrame s s₁ t before →
    ∃ u, moveRun env (after.flatMap (EntryParam.entryMove f.frame.needsFrame)) t = some u ∧
      Progress f.frame.needsFrame s s₁ u f.params
  | before, [], t, hparams, h => by
    rw [List.append_nil] at hparams
    exact ⟨t, rfl, hparams ▸ h⟩
  | before, p :: after, t, hparams, h => by
    obtain ⟨u, hu, hnext⟩ := progress_step env hsound hprep h hbare hparams
    obtain ⟨v, hv, hdone⟩ := moves_arrive hsound hprep hbare (before ++ [p]) after u
      (by rw [hparams, List.append_assoc, List.singleton_append]) hnext
    refine ⟨v, ?_, hdone⟩
    rw [List.flatMap_cons, moveRun_append hu, hv]

end Step

/-! ## Functions whose parameters arrive -/

/-- **Parameters that nothing overwrites arrive.** -/
theorem sound_arrives (f : EntryFn) (hsound : f.Sound) : f.Arrives := by
  intro env segs s
  cases hbare : f.frame.isBare with
  | true =>
    have hprologue : f.prologue = [] := by
      unfold EntryFn.prologue
      rw [if_pos hbare]
    have hmoves : f.emitParamEntryMoves = [] := by
      unfold EntryFn.emitParamEntryMoves
      rw [if_pos hbare]
    refine ⟨s, ?_, fun p hp e he => ?_⟩
    · unfold EntryFn.enter
      rw [hprologue, hmoves]
      rfl
    · by_cases hnowhere : p.home = .nowhere
      · unfold EntryParam.Holds
        rw [hnowhere]
        trivial
      · obtain ⟨r, hhome, hplace⟩ := (inPlace_of_not_moves he (hsound.fits p hp hnowhere e he)
          (hsound.bare hbare p hp)).resolve_left hnowhere
        exact inPlace_holds hhome hplace rfl
  | false =>
    obtain ⟨s₁, hrun, hprep⟩ := prologue_starts segs hsound hbare s
    have hstart : Progress f.frame.needsFrame s s₁ s₁ [] :=
      ⟨fun _ _ _ => rfl, rfl, fun _ _ _ => rfl, fun _ h => nomatch h⟩
    obtain ⟨t, ht, hdone⟩ := moves_arrive env hsound hprep hbare [] f.params s₁ rfl hstart
    refine ⟨t, ?_, fun p hp e he => hdone.holds p hp e he⟩
    unfold EntryFn.enter EntryFn.emitParamEntryMoves
    rw [hrun, if_neg (by rw [hbare]; exact Bool.false_ne_true)]
    exact ht

theorem noPreserves_length : ([] : List Preg).length ≤ 21 := by decide

/-- Two words, the second to the register that the first comes from. -/
def chainedWords : EntryFn where
  frame := { preserves_length := noPreserves_length }
  params := [{ expected := some .dx, home := .reg .cx }, { expected := some .bx, home := .reg .dx }]

theorem chainedWords_arrive : chainedWords.Arrives := by
  have hpair {P : EntryParam → EntryParam → Prop}
      (h : P { expected := some .dx, home := .reg .cx }
        { expected := some .bx, home := .reg .dx }) :
      chainedWords.params.Pairwise P :=
    List.pairwise_pair.mpr h
  refine sound_arrives chainedWords ⟨nofun, nofun, ⟨by decide, by decide⟩, fun p hp off hoff => ?_,
    fun p hp _ e he => ?_, nofun, hpair ?_, hpair ?_⟩
  · rcases List.mem_pair.mp hp with rfl | rfl <;> cases hoff
  · rcases List.mem_pair.mp hp with rfl | rfl <;> obtain rfl := Option.some.inj he <;>
      exact ⟨rfl, by decide, by decide, by decide, by decide, nofun,
        .inr ⟨rfl, rfl, .inr ⟨rfl, rfl⟩⟩⟩
  · rintro e e' - he' -
    obtain rfl := Option.some.inj he'
    exact ⟨fun _ => rfl, rfl⟩
  · rintro e e' - - -
    rfl

/-- Two words whose homes are the registers that they arrive in, exchanged. -/
def exchangedWords : EntryFn where
  frame := { preserves_length := noPreserves_length }
  params := [{ expected := some .ax, home := .reg .bx }, { expected := some .bx, home := .reg .ax }]

/-- The second parameter is read when the first is already there. -/
theorem exchangedWords_lost : ¬exchangedWords.Arrives := by
  intro h
  let s : Cpu := ⟨fun r => if r = .ax then 1 else 2, 0, fun _ => 0⟩
  obtain ⟨t, ht, hholds⟩ := h ⟨⟨fun _ => 0, fun _ => 0⟩, fun _ _ => 0⟩ (fun _ => 0) s
  have hax : t.read .ax = s.read .bx :=
    hholds { expected := some .bx, home := .reg .ax } (by decide) .bx rfl
  obtain rfl := Option.some.inj ht
  revert hax
  decide

end Nib.Bind
