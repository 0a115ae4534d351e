import Nib.Bind.Spec.Returns
import Nib.Bind.Properties.PlannedMoves

/-!
# Sound returns are in their places

* `run_registerReturns` — the turns of the scheduler, when no return value is on the stack
* `run_stackReturns` — the pushes and the pops, when one is
* `retvalReturns_of_sound` — both
-/

namespace Nib.Bind

open Nib.Infra Turn

variable {env : MoveEnv} {s : Cpu} {fn : ReturnAbi} {srcs : List Source}

/-! ## Between registers -/

theorem mem_returnMoves {m : PlannedMove} : m ∈ returnMoves fn srcs ↔
    ∃ ri, srcs[ri]? = some m.src ∧ fn.functionReturnReg ri = some m.dst ∧
      m.src.assigned ≠ some m.dst := by
  unfold returnMoves
  rw [List.mem_filterMap]
  constructor
  · rintro ⟨⟨v, ri⟩, hv, hm⟩
    rw [List.mk_mem_zipIdx_iff_getElem?] at hv
    cases hr : fn.functionReturnReg ri with
    | none => simp [hr] at hm
    | some r =>
      simp only [hr] at hm
      split at hm
      · cases hm
      · rename_i hne
        cases hm
        exact ⟨ri, hv, hr, hne⟩
  · rintro ⟨ri, hv, hr, hne⟩
    refine ⟨(m.src, ri), List.mk_mem_zipIdx_iff_getElem?.mpr hv, ?_⟩
    simp [hr, hne]

theorem pairwise_zipIdx {α : Type*} (l : List α) : l.zipIdx.Pairwise fun a b => a.2 < b.2 := by
  have h : (l.zipIdx.map Prod.snd).Pairwise (· < ·) := by
    rw [List.zipIdx_map_snd]
    exact List.pairwise_lt_range'
  exact List.pairwise_map.mp h

theorem lt_of_getElem? {α : Type*} {l : List α} {i : Nat} {a : α} (h : l[i]? = some a) :
    i < l.length := (List.getElem?_eq_some_iff.mp h).1

theorem returnMove_dst {u : Source} {k : Nat} {m : PlannedMove}
    (hm : (match fn.functionReturnReg k with
      | none => none
      | some r => if u.assigned = some r then none else some ⟨r, u⟩) = some m) :
    fn.functionReturnReg k = some m.dst := by
  cases hr : fn.functionReturnReg k with
  | none => simp [hr] at hm
  | some r =>
    simp only [hr] at hm
    split at hm <;> cases hm
    rfl

theorem returnMoves_apart (h : fn.PlacesApart srcs.length) :
    DisjointTargets (returnMoves fn srcs) := by
  unfold DisjointTargets returnMoves
  refine List.pairwise_filterMap.mpr ((pairwise_zipIdx srcs).imp_of_mem ?_)
  rintro ⟨v, i⟩ ⟨w, j⟩ hv hw hlt m hm m' hm'
  rw [List.mk_mem_zipIdx_iff_getElem?] at hv hw
  exact h.regs i (lt_of_getElem? hv) j (lt_of_getElem? hw) (Nat.ne_of_lt hlt) _ _
    (returnMove_dst hm) (returnMove_dst hm')

theorem returnTurns_perm (moves : List PlannedMove) :
    ((returnTurns moves).map Turn.item).Perm moves.zipIdx := by
  refine schedule_perm (fun h => List.mem_of_head? h) (fun us hus => ?_) (by simp)
  cases us with
  | nil => exact absurd rfl hus
  | cons m us => exact ⟨m, rfl⟩

/-- Without a cycle no move is forced. -/
theorem perform_of_acyclic {moves : List PlannedMove}
    (hacyclic : ∀ us : List Numbered, us ≠ [] → us.Sublist moves.zipIdx →
      ¬Stuck clobbersReturnSrc us) : saves (returnTurns moves) = [] := by
  refine List.eq_nil_iff_forall_not_mem.mpr fun m hm => ?_
  obtain ⟨us, hsub, hstuck, hv⟩ := stuck_of_save (mem_saves.mp hm)
  refine hacyclic us ?_ hsub hstuck
  rintro rfl
  cases hv

theorem flatMap_performed {ts : List (Turn Numbered)} (h : saves ts = []) :
    ts.flatMap emitReturnTurn = ts.flatMap emitTurn := by
  refine List.flatMap_congr fun t ht => ?_
  cases t with
  | perform m => rfl
  | save m =>
    have hm := mem_saves.mpr ht
    rw [h] at hm
    cases hm

theorem undisturbed_returns {ts : List (Turn Numbered)} (h : Ordered clobbersReturnSrc ts)
    (hapart : ts.Pairwise fun t t' => pregsAlias t.item.1.dst t'.item.1.dst = false)
    (hbase : ∀ t ∈ ts, t.item.1.dst = .bp → ∀ t' ∈ ts, t'.item.1.dst ≠ .bp →
      ∀ off, t'.item.1.src.home ≠ .slot off) : Undisturbed ts := by
  induction ts with
  | nil => trivial
  | cons t ts ih =>
    obtain ⟨happ, hapart⟩ := List.pairwise_cons.mp hapart
    have hrest : Ordered clobbersReturnSrc ts → Undisturbed ts := fun h =>
      ih h hapart fun u hu hbp u' hu' =>
        hbase u (List.mem_cons_of_mem _ hu) hbp u' (List.mem_cons_of_mem _ hu')
    cases t with
    | save m => exact hrest h
    | perform m =>
      refine ⟨fun u hu r hr => ?_, hrest h.2⟩
      rcases hr with hr | ⟨⟨off, hoff⟩, rfl⟩
      · have hno := h.1 u hu
        rw [clobbersReturnSrc, assigned_of_home hr] at hno
        exact hno
      · have hne : m.1.dst ≠ .bp := by
          intro hbp
          have hother : u.item.1.dst ≠ .bp := by
            intro hbp'
            have halias : pregsAlias m.1.dst u.item.1.dst = false := happ u hu
            rw [hbp, hbp'] at halias
            cases halias
          exact hbase _ List.mem_cons_self hbp u (List.mem_cons_of_mem _ hu) hother off hoff
        revert hne
        cases m.1.dst <;> decide

/-- A value that is in its register already. -/
theorem read_of_assigned {pl : Addresses} {r : Preg} {v : Source}
    (hsound : PlannedMove.Sound ⟨r, v⟩) (hv : v.home = .reg r) (s : Cpu) :
    s.read r = r.fit (v.value pl s) := by
  obtain ⟨-, hhome⟩ := hsound
  rw [hv] at hhome
  have hkind := hhome.2
  unfold Source.value
  rw [hv]
  cases hb : r.isByte with
  | true =>
    obtain ⟨p, hp⟩ : ∃ p, r.aliasParent = some p := by
      revert hb
      cases r <;> first | exact fun _ => ⟨_, rfl⟩ | exact fun h => absurd h (by decide)
    rw [Preg.fit_of_byte hb]
    cases v.isByte <;> simp [Cpu.read, hp, zeroExtend]
  | false =>
    have hnarrow : v.isByte = false := by
      cases hvb : v.isByte with
      | false => rfl
      | true =>
        simp [hb, hvb] at hkind
    rw [Preg.fit_of_not_byte hb]
    simp [hnarrow]

theorem run_registerReturns (hapart : fn.PlacesApart srcs.length)
    (h : RegisterReturnsSound fn srcs) (hroom : s.HasRoom srcs.length srcs)
    (hslots : ∀ ri < srcs.length, fn.returnSlot ri = none) :
    ∃ t, moveRun env ((returnTurns (returnMoves fn srcs)).flatMap emitReturnTurn) s = some t ∧
      Returned env.places fn srcs s t := by
  let moves := returnMoves fn srcs
  have hperm := returnTurns_perm moves
  have hnone := perform_of_acyclic h.acyclic
  have hmem : ∀ t ∈ returnTurns moves, t.item.1 ∈ moves := fun t ht =>
    fst_mem (hperm.subset (List.mem_map_of_mem ht))
  have hdst := turns_apart hperm (returnMoves_apart hapart)
  have hordered := undisturbed_returns
    (ordered_schedule (fun h => List.mem_of_head? h) (nodup_zipIdx moves)) hdst
    fun t ht hbp t' ht' hne => h.base _ (hmem t ht) hbp _ (hmem t' ht') hne
  have hplan : Plan (returnTurns moves) := by
    refine ⟨hordered, hdst, fun t ht => ?_, fun m hm => ?_⟩
    · obtain ⟨ri, hv, hr, -⟩ := mem_returnMoves.mp (hmem t ht)
      exact h.sound ri _ _ hv hr
    · rw [hnone] at hm
      cases hm
  have hlen : (returnTurns moves).length ≤ srcs.length := by
    have hcount : moves.length ≤ srcs.zipIdx.length := List.length_filterMap_le _ _
    have hsame := hperm.length_eq
    simp only [List.length_map, List.length_zipIdx] at hcount hsame
    omega
  have hturns : s.HasRoom (returnTurns moves).length
      ((returnTurns moves).map fun u => u.item.1.src) := by
    refine ⟨by have hn := hroom.1; omega, fun v hv off hoff => ?_⟩
    obtain ⟨u, hu, rfl⟩ := List.mem_map.mp hv
    obtain ⟨ri, hsrc, -, -⟩ := mem_returnMoves.mp (hmem u hu)
    have hlow := hroom.2 _ (List.mem_of_getElem? hsrc) off hoff
    omega
  obtain ⟨t, ws, hrun, ht⟩ := @run_turns env s _ hplan hturns
  refine ⟨t, ?_, fun ri v hv => ⟨fun r hr => ?_, fun off hoff => ?_⟩⟩
  · rw [flatMap_performed hnone]
    exact hrun
  · have hsound := h.sound ri v r hv hr
    by_cases hin : v.assigned = some r
    · have hhome := home_of_assigned hin
      have hkind := Preg.isTarget_cases hsound.1
      rw [ht.kept r hkind.2.1 hkind.1 fun m hm => ?_]
      · exact read_of_assigned hsound hhome s
      · -- the other return values have other registers
        obtain ⟨rj, hsrc, hq, hne⟩ := mem_returnMoves.mp (hmem _ (mem_performed.mp hm))
        refine hapart.regs rj (lt_of_getElem? hsrc) ri (lt_of_getElem? hv) ?_ _ _ hq hr
        rintro rfl
        have hsame : (some m.1.src : Option Source) = some v := hsrc.symm.trans hv
        have hreg : (some m.1.dst : Option Preg) = some r := hq.symm.trans hr
        refine hne ?_
        show m.1.src.assigned = some m.1.dst
        rw [hreg, Option.some.inj hsame]
        exact hin
    · have hmove : (⟨r, v⟩ : PlannedMove) ∈ moves := mem_returnMoves.mpr ⟨ri, hv, hr, hin⟩
      obtain ⟨turn, hturn, hn⟩ := exists_turn hperm hmove
      cases turn with
      | save m =>
        have hm := mem_saves.mpr hturn
        rw [hnone] at hm
        cases hm
      | perform m =>
        have hn : m.1 = ⟨r, v⟩ := hn
        have hholds := ht.holds m (mem_performed.mpr hturn)
        rw [hn] at hholds
        exact hholds
  · rw [hslots ri (lt_of_getElem? hv)] at hoff
    cases hoff

/-! ## Over the stack: the pushes -/

/-- A word that is, or whose low byte is, the value of the vreg. -/
def Word.Is (w x : Word) (byte : Bool) : Prop := low w = low x ∧ (byte = false → w = x)

/-- `ws` are the words of the vregs, the last one on top of the stack. -/
structure AllPushed (pl : Addresses) (vs : List Source) (s t : Cpu) (ws : List Word) : Prop where
  words : List.Forall₂ (fun v w => Word.Is w (v.value pl s) v.isByte) vs ws
  regs : ∀ r ≠ .flags, r ≠ .sp → t.read r = s.read r
  sp : t.sp = s.sp - BitVec.ofNat 16 (2 * ws.length)
  top : wordsAt t.stack t.sp ws.reverse
  above : Above (vs.length + 2) s t

theorem run_pushes {vs : List Source} (hpush : ∀ v ∈ vs, v.Pushable)
    (hroom : s.HasRoom vs.length vs) :
    ∃ t ws, moveRun env (vs.flatMap rinsPushRetSrc) s = some t ∧
      AllPushed env.places vs s t ws := by
  induction vs generalizing s with
  | nil =>
    refine ⟨s, [], rfl, .nil, fun _ _ _ => rfl, ?_, trivial, fun _ _ => rfl⟩
    exact (BitVec.sub_zero s.sp).symm
  | cons v vs ih =>
    have hpushable := hpush v List.mem_cons_self
    have hclear : Clear s v := by
      intro off hoff
      have hlow := hroom.2 v List.mem_cons_self off hoff
      omega
    obtain ⟨s₁, w, hrun, hleft, hw⟩ := @run_pushTemp env v s hpushable hclear
    have hn := hroom.1
    rw [List.length_cons] at hn
    have haddr : ∀ off, s₁.slotAddr off = s.slotAddr off :=
      slotAddr_congr (hleft.regs .bp (by decide) (by decide))
    have hvalue : ∀ u ∈ vs, u.value env.places s₁ = u.value env.places s := by
      intro u hu
      refine value_congr (fun r hr => ?_) hleft.above fun off hoff => ?_
      · have hne : r ≠ .sp ∧ r ≠ .flags := by
          have hu := hpush u (List.mem_cons_of_mem _ hu)
          rcases hr with hr | ⟨-, rfl⟩
          · rw [Source.Pushable, hr] at hu
            exact hu.1
          · decide
        exact hleft.regs r hne.2 hne.1
      · have hlow := hroom.2 u (List.mem_cons_of_mem _ hu) off hoff
        omega
    have hroom₁ : s₁.HasRoom vs.length vs := by
      refine ⟨by omega, fun u hu off hoff => ?_⟩
      have hlow := hroom.2 u (List.mem_cons_of_mem _ hu) off hoff
      rw [List.length_cons] at hlow
      rw [haddr, hleft.sp]
      bv_omega
    obtain ⟨t, ws, hrun', ht⟩ :=
      ih (fun u hu => hpush u (List.mem_cons_of_mem _ hu)) hroom₁
    refine ⟨t, w :: ws, ?_, .cons hw ?_, ?_, ?_, ?_, ?_⟩
    · rw [List.flatMap_cons, rinsPushRetSrc, moveRun_append hrun, hrun']
    · refine forall₂_congr_mem ht.words fun u hu w' hw' => ?_
      rw [← hvalue u hu]
      exact hw'
    · intro r hf hr
      rw [ht.regs r hf hr, hleft.regs r hf hr]
    · rw [ht.sp, hleft.sp, List.length_cons]
      bv_omega
    · exact hleft.under ht.sp ht.above (by omega) ht.top
    · intro a ha
      rw [List.length_cons] at ha
      have hdist : (a - s₁.sp).toNat = (a - s.sp).toNat + 2 := by
        rw [hleft.sp]
        bv_omega
      rw [ht.above a (by omega), hleft.above a (by omega)]

/-! ## Over the stack: the pops -/

/-- What the pop of one return value does with the word `w`. -/
structure PoppedReturn (fn : ReturnAbi) (v : Source × Nat) (w : Word) (s t : Cpu) : Prop where
  reg : ∀ r, fn.returnSlot v.2 = none → fn.functionReturnReg v.2 = some r → t.read r = r.fit w
  slot : ∀ off, fn.returnSlot v.2 = some off →
    t.stack (s.slotAddr off) = low w ∧
    (v.1.isByte = false → readWord t.stack (s.slotAddr off) = w)
  regs : ∀ q ≠ .flags, q ≠ .sp →
    (fn.returnSlot v.2 = none → ∀ r, fn.functionReturnReg v.2 = some r → pregsAlias r q = false) →
    (fn.TakenInAx v.2 v.1 → pregsAlias .ax q = false) → t.read q = s.read q
  sp : t.sp = s.sp + 2
  stack : ∀ a, (∀ off, fn.returnSlot v.2 = some off → a ≠ s.slotAddr off ∧
    (v.1.isByte = false → a ≠ s.slotAddr off + 1)) → t.stack a = s.stack a

theorem popReturn_slot {v : Source × Nat} {off : Int} (h : fn.returnSlot v.2 = some off) :
    popReturn fn v = rinsPopBpSlot off v.1.isByte := by
  unfold popReturn
  rw [h]

theorem popReturn_reg {v : Source × Nat} {r : Preg} (h : fn.returnSlot v.2 = none)
    (hr : fn.functionReturnReg v.2 = some r) : popReturn fn v =
      if r.isByte then .pop .ax :: (if r = .al then [] else [.mov r .al]) else [.pop r] := by
  unfold popReturn
  rw [h, hr]
  rfl

theorem run_popSlot {v : Source × Nat} {off : Int} {w : Word} (hslot : fn.returnSlot v.2 = some off)
    (hw : readWord s.stack s.sp = w) :
    ∃ t, moveRun env (popReturn fn v) s = some t ∧ PoppedReturn fn v w s t := by
  rw [popReturn_slot hslot, rinsPopBpSlot]
  cases hb : v.1.isByte with
  | true =>
    let s₁ := (s.drop 1).setReg .ax w
    have hpop : moveStep env (.pop .ax) s = some s₁ := moveStep_pop rfl s hw
    have haddr : s₁.slotAddr off = s.slotAddr off := by
      simp [s₁, Cpu.slotAddr, Cpu.drop_reg]
    have hal : s₁.read .al = zeroExtend (low w) := by
      simp [s₁, Cpu.read, Preg.aliasParent, Preg.aliasLo]
    let t : Cpu := { s₁ with stack := write true s₁.stack (s.slotAddr off) (zeroExtend (low w)) }
    have hstore : moveStep env (.store off .al) s₁ = some t := by
      rw [moveStep, haddr, hal]
      rfl
    refine ⟨t, ?_, ?_, ?_, ?_, ?_, ?_⟩
    · rw [if_pos rfl, moveRun_cons hpop, moveRun_cons hstore]
      rfl
    · intro r hnone
      rw [hslot] at hnone
      cases hnone
    · intro off' hoff'
      rw [hslot] at hoff'
      obtain rfl := Option.some.inj hoff'
      refine ⟨?_, fun h => ?_⟩
      · exact (write_self _ _ _ _).trans (by simp [zeroExtend])
      · rw [hb] at h
        cases h
    · intro q hf hq _ hax
      have hax := hax (.inl ⟨off, hslot, hb⟩)
      show s₁.read q = _
      have hs₁ : s₁ = (s.drop 1).put .ax w := rfl
      rw [hs₁, Cpu.read_put_of_ne _ _ hax, Cpu.read_drop _ _ hq]
    · show s₁.sp = _
      rw [Cpu.setReg_sp _ _ (by decide), Cpu.drop_sp]
      rfl
    · intro a ha
      refine write_of_notMem ?_ _ _
      rintro (rfl | ⟨h, -⟩)
      · exact (ha off hslot).1 rfl
      · cases h
  | false =>
    have hpeek : s.peek 0 = w := by
      rw [Cpu.peek, Nat.mul_zero, BitVec.add_zero, hw]
    let t : Cpu := { s.drop 1 with stack := write false s.stack (s.slotAddr off) w }
    have hpop : moveStep env (.popSlot off) s = some t := by
      rw [moveStep, hpeek]
    refine ⟨t, ?_, ?_, ?_, ?_, ?_, ?_⟩
    · rw [if_neg (by decide), moveRun_cons hpop]
      rfl
    · intro r hnone
      rw [hslot] at hnone
      cases hnone
    · intro off' hoff'
      rw [hslot] at hoff'
      obtain rfl := Option.some.inj hoff'
      exact ⟨write_self _ _ _ _, fun _ => readWord_write_self _ _ _⟩
    · intro q _ hq _ _
      exact Cpu.read_drop _ _ hq
    · exact Cpu.drop_sp s 1
    · intro a ha
      refine write_of_notMem ?_ _ _
      rintro (rfl | ⟨-, rfl⟩)
      · exact (ha off hslot).1 rfl
      · exact (ha off hslot).2 hb rfl

theorem run_popReg {v : Source × Nat} {r : Preg} {w : Word} (hslot : fn.returnSlot v.2 = none)
    (hreg : fn.functionReturnReg v.2 = some r) (htarget : r.isTarget = true)
    (hw : readWord s.stack s.sp = w) :
    ∃ t, moveRun env (popReturn fn v) s = some t ∧ PoppedReturn fn v w s t := by
  obtain ⟨hsp, -, -⟩ := Preg.isTarget_cases htarget
  have hother : ∀ {t : Cpu}, (∀ off, fn.returnSlot v.2 = some off →
      t.stack (s.slotAddr off) = low w ∧
        (v.1.isByte = false → readWord t.stack (s.slotAddr off) = w)) := by
    intro t off hoff
    rw [hslot] at hoff
    cases hoff
  rw [popReturn_reg hslot hreg]
  cases hb : r.isByte with
  | false =>
    have hcan : r.canPop = true := by
      revert htarget hb
      cases r <;> decide
    have htaken := taken_pop hb hsp s w
    refine ⟨(s.drop 1).setReg r w, ?_, ?_, hother, ?_, htaken.sp, fun _ _ => rfl⟩
    · rw [if_neg (by decide), moveRun_cons (moveStep_pop hcan s hw)]
      rfl
    · intro r' _ hr'
      obtain rfl := Option.some.inj (hreg.symm.trans hr')
      exact htaken.value
    · intro q hf hq hr _
      exact htaken.regs q hf hq (hr hslot r hreg)
  | true =>
    let s₁ := (s.drop 1).put .ax w
    have hpop : moveStep env (.pop .ax) s = some s₁ := moveStep_pop rfl s hw
    have hal : s₁.read .al = zeroExtend (low w) := by
      simp [s₁, Cpu.put, Cpu.read, Preg.aliasParent, Preg.aliasLo]
    have hs₁sp : s₁.sp = s.sp + 2 := by
      rw [Cpu.put_sp _ _ (by decide), Cpu.drop_sp]
      rfl
    have hkeep : ∀ q ≠ .sp, (fn.TakenInAx v.2 v.1 → pregsAlias .ax q = false) →
        s₁.read q = s.read q := by
      intro q hq hax
      rw [Cpu.read_put_of_ne _ _ (hax (.inr ⟨r, hslot, hreg, hb⟩)), Cpu.read_drop _ _ hq]
    by_cases hral : r = .al
    · refine ⟨s₁, ?_, ?_, hother, fun q _ hq _ hax => hkeep q hq hax, hs₁sp, fun _ _ => rfl⟩
      · rw [if_pos rfl, if_pos hral, moveRun_cons hpop]
        rfl
      · intro r' _ hr'
        obtain rfl := Option.some.inj (hreg.symm.trans hr')
        rw [hral, hal]
        rfl
    · have hmov : moveStep env (.mov r .al) s₁ = some (s₁.put r (zeroExtend (low w))) := by
        rw [← hal]
        exact if_pos (Preg.canMov_al hb)
      refine ⟨s₁.put r (zeroExtend (low w)), ?_, ?_, hother, ?_, ?_, ?_⟩
      · rw [if_pos rfl, if_neg hral, moveRun_cons hpop, moveRun_cons hmov]
        rfl
      · intro r' _ hr'
        obtain rfl := Option.some.inj (hreg.symm.trans hr')
        rw [Cpu.read_put_self, Preg.fit_of_byte hb, Preg.fit_of_byte hb,
          zeroExtend_low_zeroExtend]
      · intro q _ hq hr hax
        rw [Cpu.read_put_of_ne _ _ (hr hslot r hreg)]
        exact hkeep q hq hax
      · rw [Cpu.put_sp _ _ hsp]
        exact hs₁sp
      · intro a _
        rw [Cpu.put_stack]
        exact congrFun (Cpu.put_stack (s.drop 1) .ax w) a

theorem run_popReturn {v : Source × Nat} {w : Word}
    (hplaced : fn.returnSlot v.2 ≠ none ∨ fn.functionReturnReg v.2 ≠ none)
    (hreg : ∀ r, fn.functionReturnReg v.2 = some r → r.isTarget = true)
    (hw : readWord s.stack s.sp = w) :
    ∃ t, moveRun env (popReturn fn v) s = some t ∧ PoppedReturn fn v w s t := by
  cases hslot : fn.returnSlot v.2 with
  | some off => exact run_popSlot hslot hw
  | none =>
    cases hr : fn.functionReturnReg v.2 with
    | some r => exact run_popReg hslot hr (hreg r hr) hw
    | none =>
      rcases hplaced with h | h
      · exact absurd hslot h
      · exact absurd hr h

/-- The pop of `w` leaves what has been popped for `v`. -/
structure Unharmed (fn : ReturnAbi) (v w : Source × Nat) : Prop where
  reg : ∀ r, fn.functionReturnReg v.2 = some r →
    (fn.returnSlot w.2 = none → ∀ q, fn.functionReturnReg w.2 = some q → pregsAlias q r = false) ∧
      (fn.TakenInAx w.2 w.1 → pregsAlias .ax r = false)
  slot : ∀ a b, fn.returnSlot v.2 = some a → fn.returnSlot w.2 = some b →
    2 ≤ (BitVec.ofInt 16 a - BitVec.ofInt 16 b).toNat ∧
      2 ≤ (BitVec.ofInt 16 b - BitVec.ofInt 16 a).toNat
  base : fn.returnSlot w.2 ≠ none → fn.functionReturnReg v.2 ≠ some .bp

/-- What the pops leave. Slots are at fixed distances from `base`. -/
structure AllPopped (fn : ReturnAbi) (value : Source → Word) (base : Word)
    (vs : List (Source × Nat)) (s t : Cpu) : Prop where
  reg : ∀ v ∈ vs, ∀ r, fn.returnSlot v.2 = none → fn.functionReturnReg v.2 = some r →
    t.read r = r.fit (value v.1)
  slot : ∀ v ∈ vs, ∀ off, fn.returnSlot v.2 = some off →
    t.stack (base + BitVec.ofInt 16 off) = low (value v.1) ∧
      (v.1.isByte = false → readWord t.stack (base + BitVec.ofInt 16 off) = value v.1)
  regs : ∀ q ≠ .flags, q ≠ .sp → (∀ v ∈ vs,
    (fn.returnSlot v.2 = none → ∀ r, fn.functionReturnReg v.2 = some r → pregsAlias r q = false) ∧
      (fn.TakenInAx v.2 v.1 → pregsAlias .ax q = false)) → t.read q = s.read q
  stack : ∀ a, (∀ v ∈ vs, ∀ off, fn.returnSlot v.2 = some off → a ≠ base + BitVec.ofInt 16 off ∧
    (v.1.isByte = false → a ≠ base + BitVec.ofInt 16 off + 1)) → t.stack a = s.stack a

theorem run_returnPops {value : Source → Word} {base : Word} {vs : List (Source × Nat)}
    {ws : List Word}
    (hws : List.Forall₂ (fun v w => Word.Is w (value v.1) v.1.isByte) vs ws)
    (hplaced : ∀ v ∈ vs, fn.returnSlot v.2 ≠ none ∨ fn.functionReturnReg v.2 ≠ none)
    (hreg : ∀ v ∈ vs, ∀ r, fn.functionReturnReg v.2 = some r →
      r.isTarget = true ∧ (v.1.isByte = true → r.isByte = true))
    (hpair : vs.Pairwise (Unharmed fn))
    (hbase : (∃ v ∈ vs, fn.returnSlot v.2 ≠ none) → s.reg .bp = base)
    (hclear : ∀ v ∈ vs, ∀ off, fn.returnSlot v.2 = some off →
      2 * ws.length ≤ (base + BitVec.ofInt 16 off - s.sp).toNat ∧
        (base + BitVec.ofInt 16 off - s.sp).toNat + 2 ≤ 65536)
    (hwords : wordsAt s.stack s.sp ws) :
    ∃ t, moveRun env (vs.flatMap (popReturn fn)) s = some t ∧ AllPopped fn value base vs s t := by
  induction hws generalizing s with
  | nil =>
    refine ⟨s, rfl, ?_, ?_, fun _ _ _ _ => rfl, fun _ _ => rfl⟩
    · intro v hv
      cases hv
    · intro v hv
      cases hv
  | @cons v w vs ws hw hws ih =>
    obtain ⟨htop, hrest⟩ := hwords
    obtain ⟨hharm, hpair⟩ := List.pairwise_cons.mp hpair
    have hregv := hreg v List.mem_cons_self
    obtain ⟨s₁, hrun, hpop⟩ := @run_popReturn env s fn v w (hplaced v List.mem_cons_self)
      (fun r hr => (hregv r hr).1) htop
    have haddr : ∀ off, fn.returnSlot v.2 = some off →
        s.slotAddr off = base + BitVec.ofInt 16 off := by
      intro off hoff
      rw [Cpu.slotAddr, hbase ⟨v, List.mem_cons_self, by rw [hoff]; exact Option.some_ne_none off⟩]
    -- while slots are left, nothing is returned in `BP`
    have hbase₁ : (∃ u ∈ vs, fn.returnSlot u.2 ≠ none) → s₁.reg .bp = base := by
      rintro ⟨u, hu, hslot⟩
      rw [← hbase ⟨u, List.mem_cons_of_mem _ hu, hslot⟩]
      refine hpop.regs .bp (by decide) (by decide) (fun _ r hr => pregsAlias_bp_of_ne ?_)
        fun _ => rfl
      rintro rfl
      exact (hharm u hu).base hslot hr
    have hclear₁ : ∀ u ∈ vs, ∀ off, fn.returnSlot u.2 = some off →
        2 * ws.length ≤ (base + BitVec.ofInt 16 off - s₁.sp).toNat ∧
          (base + BitVec.ofInt 16 off - s₁.sp).toNat + 2 ≤ 65536 := by
      intro u hu off hoff
      have h := hclear u (List.mem_cons_of_mem _ hu) off hoff
      rw [List.length_cons] at h
      rw [hpop.sp]
      constructor <;> bv_omega
    have hwords₁ : wordsAt s₁.stack s₁.sp ws := by
      rw [hpop.sp]
      refine wordsAt_congr (fun i hi => hpop.stack _ fun off hoff => ?_) hrest
      have h := hclear v List.mem_cons_self off hoff
      rw [List.length_cons] at h
      rw [haddr off hoff]
      refine ⟨?_, fun _ => ?_⟩ <;> bv_omega
    obtain ⟨t, hrun', ht⟩ := ih (fun u hu => hplaced u (List.mem_cons_of_mem _ hu))
      (fun u hu => hreg u (List.mem_cons_of_mem _ hu)) hpair hbase₁ hclear₁ hwords₁
    refine ⟨t, ?_, ?_, ?_, ?_, ?_⟩
    · rw [List.flatMap_cons, moveRun_append hrun, hrun']
    · intro u hu r hslot hr
      rcases List.mem_cons.mp hu with rfl | hu
      · -- the pops after it leave the register, also those by way of `AX`
        have hkind := Preg.isTarget_cases (hregv r hr).1
        rw [ht.regs r hkind.2.1 hkind.1 fun u' hu' => (hharm u' hu').reg r hr,
          hpop.reg r hslot hr]
        cases hb : r.isByte with
        | true => rw [Preg.fit_of_byte hb, Preg.fit_of_byte hb, hw.1]
        | false =>
          have hsrc : u.1.isByte = false := by
            cases hsrc : u.1.isByte with
            | false => rfl
            | true => exact absurd (((hregv r hr).2 hsrc).symm.trans hb) (by decide)
          rw [hw.2 hsrc]
      · exact ht.reg u hu r hslot hr
    · intro u hu off hoff
      rcases List.mem_cons.mp hu with rfl | hu
      · -- the slots of the others are two apart or more
        have hpopped := hpop.slot off hoff
        rw [haddr off hoff] at hpopped
        have h0 : t.stack (base + BitVec.ofInt 16 off) =
            s₁.stack (base + BitVec.ofInt 16 off) := by
          refine ht.stack _ fun u' hu' b hb => ?_
          have h := (hharm u' hu').slot off b hoff hb
          refine ⟨?_, fun _ => ?_⟩ <;> bv_omega
        have h1 : t.stack (base + BitVec.ofInt 16 off + 1) =
            s₁.stack (base + BitVec.ofInt 16 off + 1) := by
          refine ht.stack _ fun u' hu' b hb => ?_
          have h := (hharm u' hu').slot off b hoff hb
          refine ⟨?_, fun _ => ?_⟩ <;> bv_omega
        rw [h0, readWord, h1, h0, ← readWord]
        exact ⟨hpopped.1.trans hw.1, fun hsrc => (hpopped.2 hsrc).trans (hw.2 hsrc)⟩
      · exact ht.slot u hu off hoff
    · intro q hf hq hall
      have hv := hall v List.mem_cons_self
      rw [ht.regs q hf hq fun u hu => hall u (List.mem_cons_of_mem _ hu),
        hpop.regs q hf hq hv.1 hv.2]
    · intro a ha
      rw [ht.stack a fun u hu => ha u (List.mem_cons_of_mem _ hu)]
      refine hpop.stack a fun off hoff => ?_
      rw [haddr off hoff]
      exact ha v List.mem_cons_self off hoff

/-! ## All of it -/

/-- A return value has a register or a slot, not both. -/
theorem returnSlot_of_reg {ri : Nat} {r : Preg} (h : fn.functionReturnReg ri = some r) :
    fn.returnSlot ri = none := by
  unfold ReturnAbi.functionReturnReg at h
  unfold ReturnAbi.returnSlot
  cases hd : fn.returns[ri]? with
  | none => rfl
  | some d =>
    cases hs : d.onStack with
    | false => simp [Option.filter, hs]
    | true => simp [hd, hs] at h

theorem unharmed_reverse (hapart : fn.PlacesApart srcs.length) (h : StackReturnsSound fn srcs) :
    srcs.zipIdx.reverse.Pairwise (Unharmed fn) := by
  refine List.pairwise_reverse.mpr ((pairwise_zipIdx srcs).imp_of_mem ?_)
  rintro ⟨w, i⟩ ⟨v, j⟩ hw hv hlt
  rw [List.mk_mem_zipIdx_iff_getElem?] at hw hv
  have hi := lt_of_getElem? hw
  have hj := lt_of_getElem? hv
  have hne : i ≠ j := Nat.ne_of_lt hlt
  refine ⟨fun r hr => ⟨fun _ q hq => ?_, fun hax => ?_⟩, fun a b ha hb => ⟨?_, ?_⟩, fun hslot => ?_⟩
  · exact hapart.regs i hi j hj hne q r hq hr
  · exact h.ax i w j r hw hlt hj hax hr
  · exact hapart.slots j hj i hi hne.symm a b ha hb
  · exact hapart.slots i hi j hj hne b a hb ha
  · exact h.bp i j hlt hj hslot

theorem run_stackReturns (hapart : fn.PlacesApart srcs.length) (h : StackReturnsSound fn srcs)
    (hroom : s.HasRoom srcs.length srcs) (hslots : s.SlotsClear fn srcs.length) :
    ∃ t, moveRun env (srcs.flatMap rinsPushRetSrc ++ srcs.zipIdx.reverse.flatMap (popReturn fn)) s =
      some t ∧ Returned env.places fn srcs s t := by
  obtain ⟨s₁, ws, hrun, hpushed⟩ := @run_pushes env s srcs h.push hroom
  have hlen : srcs.length = ws.length := hpushed.words.length_eq
  have hws : List.Forall₂ (fun v w => Word.Is w (v.1.value env.places s) v.1.isByte)
      srcs.zipIdx.reverse ws.reverse := by
    have hfst : srcs.zipIdx.map Prod.fst = srcs := by simp
    have hwords := hpushed.words
    rw [← hfst] at hwords
    exact List.forall₂_reverse_iff.mpr (List.forall₂_map_left_iff.mp hwords)
  have hmem : ∀ {v : Source × Nat}, v ∈ srcs.zipIdx.reverse → srcs[v.2]? = some v.1 := fun hv =>
    List.mk_mem_zipIdx_iff_getElem?.mp (List.mem_reverse.mp hv)
  have hbp : s₁.reg .bp = s.reg .bp := hpushed.regs .bp (by decide) (by decide)
  have hclear : ∀ v ∈ srcs.zipIdx.reverse, ∀ off, fn.returnSlot v.2 = some off →
      2 * ws.reverse.length ≤ (s.reg .bp + BitVec.ofInt 16 off - s₁.sp).toNat ∧
        (s.reg .bp + BitVec.ofInt 16 off - s₁.sp).toNat + 2 ≤ 65536 := by
    intro v _ off hoff
    have hlow := hslots v.2 off hoff
    unfold Cpu.slotAddr at hlow
    rw [hlen] at hlow
    rw [hpushed.sp, List.length_reverse]
    constructor <;> bv_omega
  obtain ⟨t, hrun', ht⟩ := @run_returnPops env s₁ fn (fun v => v.value env.places s) (s.reg .bp) _ _
    hws (fun v hv => h.placed v.2 (lt_of_getElem? (hmem hv)))
    (fun v hv r hr => h.reg v.2 v.1 r (hmem hv) hr) (unharmed_reverse hapart h) (fun _ => hbp)
    hclear hpushed.top
  refine ⟨t, ?_, fun ri v hv => ⟨fun r hr => ?_, fun off hoff => ?_⟩⟩
  · rw [moveRun_append hrun, hrun']
  · have hin : (v, ri) ∈ srcs.zipIdx.reverse :=
      List.mem_reverse.mpr (List.mk_mem_zipIdx_iff_getElem?.mpr hv)
    exact ht.reg (v, ri) hin r (returnSlot_of_reg hr) hr
  · have hin : (v, ri) ∈ srcs.zipIdx.reverse :=
      List.mem_reverse.mpr (List.mk_mem_zipIdx_iff_getElem?.mpr hv)
    obtain ⟨hbyte, hword⟩ := ht.slot (v, ri) hin off hoff
    unfold Source.InSlot Cpu.slotAddr
    cases hsrc : v.isByte with
    | true =>
      rw [if_pos rfl, hbyte]
      exact value_of_byte hsrc s
    | false =>
      rw [if_neg (by decide)]
      exact hword hsrc

/-- Two words, in `AX` and `DX`. -/
def pairAbi : ReturnAbi := { returns := [{ type := "u16" }, { type := "u16" }] }

theorem pairAbi_slot (ri : Nat) : pairAbi.returnSlot ri = none := by
  rcases ri with _ | _ | ri <;> rfl

/-- `AX` takes `DX` before `DX` takes `BX`. -/
def chainedPair : List Source := [{ home := .reg .dx }, { home := .reg .bx }]

theorem chainedPair_sound : ReturnsSound pairAbi chainedPair where
  apart := by
    constructor
    · intro i hi j hj hne r q hr hq
      have hi : i = 0 ∨ i = 1 := by
        have h : i < 2 := hi
        omega
      have hj : j = 0 ∨ j = 1 := by
        have h : j < 2 := hj
        omega
      rcases hi with rfl | rfl <;> rcases hj with rfl | rfl <;>
        first
        | exact absurd rfl hne
        | (cases hr; cases hq; rfl)
    · intro i _ j _ _ a b ha
      rw [pairAbi_slot] at ha
      cases ha
  registers := fun _ => by
    constructor
    · intro ri v r hv hr
      rcases ri with _ | _ | ri
      · cases hv
        cases hr
        exact ⟨rfl, ⟨by decide, by decide⟩, trivial⟩
      · cases hv
        cases hr
        exact ⟨rfl, ⟨by decide, by decide⟩, trivial⟩
      · cases hv
    · intro us hus hsub hstuck
      have hcases : ∀ m ∈ us, m = (⟨.ax, { home := .reg .dx }⟩, 0) ∨
          m = (⟨.dx, { home := .reg .bx }⟩, 1) := fun m hm =>
        List.mem_pair.mp (hsub.subset hm)
      -- nothing waits for `AX`, and then nothing else is left for `DX` to wait for
      have hfirst : (⟨.ax, { home := .reg .dx }⟩, 0) ∉ us := by
        intro hm
        obtain ⟨j, hj, hne, hhits⟩ := hstuck _ hm
        rcases hcases j hj with rfl | rfl
        · exact hne rfl
        · cases hhits
      obtain ⟨m, hm⟩ := List.exists_mem_of_ne_nil us hus
      obtain ⟨j, hj, hne, -⟩ := hstuck m hm
      rcases hcases m hm with rfl | rfl
      · exact hfirst hm
      · rcases hcases j hj with rfl | rfl
        · exact hfirst hj
        · exact hne rfl
    · intro m hm hbp
      have hm : m ∈ [(⟨.ax, { home := .reg .dx }⟩ : PlannedMove), ⟨.dx, { home := .reg .bx }⟩] :=
        hm
      rcases List.mem_pair.mp hm with rfl | rfl <;> cases hbp
  stack := by
    rintro ⟨ri, -, hslot⟩
    exact absurd (pairAbi_slot ri) hslot

/-- `return b, a;`: each register waits for the other. -/
def swappedPair : List Source := [{ home := .reg .dx }, { home := .reg .ax }]

end Nib.Bind
