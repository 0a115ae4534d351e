import Nib.Compile.Spec.FarValues

/-!
# Far values keep their halves

* `emitIndexStore_eq`, `emitStructFieldStore_eq` — the stores of far elements and fields
* `splitFarArgs_cons` — a call splits its arguments one by one
* `far_kept` — when a transfer keeps both halves
-/

namespace Nib.Compile

open Nib.Infra Compile

/-! ## The stores of the compiler -/

theorem emitIndexStore_eq (array index : Expr) (val : TypedVreg) :
    emitIndexStore array index val = (do
      let arr ← emitExprTyped array
      let idx ← emitExprTyped index
      let elem := typeOfElement arr.type
      let scaledIdx ← emitScaledIndex idx.vreg ((elem.map elemShift).getD 0)
      if elem = some .far then emitFarElement arr.vreg scaledIdx val
      else emitOp (storeOp elem) [.elem arr.vreg scaledIdx, .vreg val.vreg]) := by
  unfold emitIndexStore emitFarElement emitHalves
  cases val.vregSeg <;> rfl

theorem emitStructFieldStore_eq (emitObject : Compile TypedVreg) (fieldName : String)
    (val : TypedVreg) :
    emitStructFieldStore emitObject fieldName val = (do
      let obj ← emitObject
      let layout ← structFieldLayout obj.type fieldName false
      match layout with
      | none => pure ()
      | some fl =>
        if fl.isBits then
          emitOp .storefield [.vreg obj.vreg, .name fieldName, .vreg val.vreg]
        else
          let addr ← emitAddrPlusConst obj.vreg fl.byteOffset
          if fl.storageType = some .far then emitFarField addr val
          else if typeIsAggregate fl.storageType then
            cerr "aggregate field assignment is not supported"
          else emitOp (storeOp fl.storageType) [.vreg addr, .vreg val.vreg]) := by
  unfold emitStructFieldStore emitFarField emitHalves
  cases val.vregSeg <;> rfl

/-! ## Memory -/

theorem readWord_write_of_before (m : Memory) (a x : BitVec 16) :
    readWord (write false m (a + 2) x) a = readWord m a := by
  have h : ¬ written false (a + 2) a := by
    unfold written
    rintro (h | ⟨-, h⟩) <;> bv_omega
  have h' : ¬ written false (a + 2) (a + 1) := by
    unfold written
    rintro (h | ⟨-, h⟩) <;> bv_omega
  unfold readWord
  rw [write_of_notMem h, write_of_notMem h']

theorem readWord_write_of_behind (m : Memory) (a x : BitVec 16) :
    readWord (write false m a x) (a + 2) = readWord m (a + 2) := by
  have h : ¬ written false a (a + 2) := by
    unfold written
    rintro (h | ⟨-, h⟩) <;> bv_omega
  have h' : ¬ written false a (a + 2 + 1) := by
    unfold written
    rintro (h | ⟨-, h⟩) <;> bv_omega
  unfold readWord
  rw [write_of_notMem h, write_of_notMem h']

/-- A far value that has been stored is read back. -/
theorem readFar_write (m : Memory) (a x y : BitVec 16) :
    readFar (write false (write false m a x) (a + 2) y) a = (x, y) := by
  unfold readFar
  rw [readWord_write_of_before, readWord_write, readWord_write]
  rfl

/-! ## Halves -/

section States

variable {ρ : Type}

@[simp] theorem setVreg_rest (s : MachState ρ) (v : Int) (x : BitVec 16) :
    (s.setVreg v x).rest = s.rest := rfl

@[simp] theorem setVreg_self (s : MachState ρ) (v : Int) (x : BitVec 16) :
    (s.setVreg v x).vreg v = x := if_pos rfl

theorem setVreg_ne {s : MachState ρ} {v u : Int} {x : BitVec 16} (h : u ≠ v) :
    (s.setVreg v x).vreg u = s.vreg u := if_neg h

theorem execAll_append (exec : Exec ρ) (is js : List Instr) (s : MachState ρ) :
    execAll exec (is ++ js) s = execAll exec js (execAll exec is s) := List.foldl_append

end States

variable {p : Placement} {c : Compiler} {v : TypedVreg}

theorem farPlace_pair {seg : Int} (h : v.vregSeg = some seg) : v.farPlace = .pair v.vreg seg := by
  unfold TypedVreg.farPlace
  rw [h]

theorem farPlace_memory (h : v.vregSeg = none) : v.farPlace = .memory v.vreg := by
  unfold TypedVreg.farPlace
  rw [h]

/-- The vregs of `emitHalves` hold the value, and they have been handed out. -/
structure HalvesReady (p : Placement) (c : Compiler) (v : TypedVreg) : Prop where
  off : (emitHalves v c).value.1 < (emitHalves v c).state.nextVreg
  seg : (emitHalves v c).value.2 < (emitHalves v c).state.nextVreg
  grows : c.nextVreg ≤ (emitHalves v c).state.nextVreg
  read : ∀ s, (FarPlace.pair (emitHalves v c).value.1 (emitHalves v c).value.2).read p
    (execAll (farExec p) (emitHalves v c).lines s) = v.farPlace.read p s

theorem halvesReady (p : Placement) (h : v.Ready c) : HalvesReady p c v := by
  cases hseg : v.vregSeg with
  | some seg =>
    have heq : emitHalves v c = ⟨(v.vreg, seg), [], c⟩ := by
      unfold emitHalves
      rw [hseg]
      rfl
    refine ⟨?_, ?_, ?_, fun s => ?_⟩
    · rw [heq]
      exact h.vreg
    · rw [heq]
      exact h.vregSeg seg hseg
    · exact Int.le_of_eq (congrArg (fun r => r.state.nextVreg) heq).symm
    · rw [heq, farPlace_pair hseg]
      rfl
  | none =>
    have heq : emitHalves v c = ⟨(c.nextVreg, c.nextVreg + 1),
        [.op .farOff [.vreg c.nextVreg, .vreg v.vreg],
          .op .farSeg [.vreg (c.nextVreg + 1), .vreg v.vreg]],
        { c with nextVreg := c.nextVreg + 1 + 1 }⟩ := by
      unfold emitHalves
      rw [hseg]
      rfl
    have hv : v.vreg ≠ c.nextVreg := Int.ne_of_lt h.vreg
    have hnext : c.nextVreg ≠ c.nextVreg + 1 := by omega
    refine ⟨?_, ?_, ?_, fun s => ?_⟩
    · rw [heq]
      show c.nextVreg < c.nextVreg + 1 + 1
      omega
    · rw [heq]
      show c.nextVreg + 1 < c.nextVreg + 1 + 1
      omega
    · rw [heq]
      show c.nextVreg ≤ c.nextVreg + 1 + 1
      omega
    · rw [heq, farPlace_memory hseg]
      simp only [execAll, List.foldl_cons, List.foldl_nil, farExec, FarPlace.read, readFar,
        setVreg_self, setVreg_ne hnext, setVreg_ne hv, setVreg_rest]

/-! ## Stores -/

theorem element_keeps {base index : Int} (hv : v.Ready c) (hb : base < c.nextVreg)
    (hi : index < c.nextVreg) : (FarTransfer.element base index).Keeps p c v := by
  have h := halvesReady p hv
  refine ⟨_, rfl, fun s => ?_⟩
  have hlines : ((FarTransfer.element base index).emit v c).lines = (emitHalves v c).lines ++
      [.op .store [.elem base index, .vreg (emitHalves v c).value.1],
        .op (.binop .add) [.vreg (emitHalves v c).state.nextVreg, .vreg index, .imm 2],
        .op .store [.elem base (emitHalves v c).state.nextVreg,
          .vreg (emitHalves v c).value.2]] := by
    simp [FarTransfer.emit, emitFarElement, bind, pure, emitOp, print, allocVreg]
  rw [hlines, execAll_append, ← h.read s]
  generalize execAll (farExec p) (emitHalves v c).lines s = t
  have hbase : base ≠ (emitHalves v c).state.nextVreg :=
    Int.ne_of_lt (Int.lt_of_lt_of_le hb h.grows)
  have hindex : index ≠ (emitHalves v c).state.nextVreg :=
    Int.ne_of_lt (Int.lt_of_lt_of_le hi h.grows)
  have hseg := Int.ne_of_lt h.seg
  simp only [execAll, List.foldl_cons, List.foldl_nil, farExec, FarPlace.read, setVreg_self,
    setVreg_ne hbase, setVreg_ne hindex, setVreg_ne hseg, setVreg_rest]
  rw [← BitVec.add_assoc]
  exact readFar_write ..

theorem field_keeps {addr : Int} (hv : v.Ready c) (ha : addr < c.nextVreg) :
    (FarTransfer.field addr).Keeps p c v := by
  have h := halvesReady p hv
  refine ⟨_, rfl, fun s => ?_⟩
  have hlines : ((FarTransfer.field addr).emit v c).lines = (emitHalves v c).lines ++
      [.op .store [.vreg addr, .vreg (emitHalves v c).value.1],
        .op (.binop .add) [.vreg (emitHalves v c).state.nextVreg, .vreg addr, .imm 2],
        .op .store [.vreg (emitHalves v c).state.nextVreg,
          .vreg (emitHalves v c).value.2]] := by
    simp [FarTransfer.emit, emitFarField, emitAddrPlusConst, bind, pure, emitOp, print, allocVreg]
  rw [hlines, execAll_append, ← h.read s]
  generalize execAll (farExec p) (emitHalves v c).lines s = t
  have haddr : addr ≠ (emitHalves v c).state.nextVreg :=
    Int.ne_of_lt (Int.lt_of_lt_of_le ha h.grows)
  have hseg := Int.ne_of_lt h.seg
  simp only [execAll, List.foldl_cons, List.foldl_nil, farExec, FarPlace.read, setVreg_self,
    setVreg_ne haddr, setVreg_ne hseg, setVreg_rest]
  exact readFar_write ..

/-! ## Arguments -/

/-- The arguments of a call are split one by one. -/
theorem splitFarArgs_cons (known : List Ty) (e : Expr) (v : TypedVreg)
    (rest : List (Expr × TypedVreg)) :
    splitFarArgs known ((e, v) :: rest) = (do
      let words ← splitFarArgs known.head?.toList [(e, v)]
      let more ← splitFarArgs known.tail rest
      pure (words ++ more)) := by
  funext c
  have hhead : known.head?.toList.head? = known.head? := by cases known <;> rfl
  by_cases hk : known.head? = some .far
  · cases hseg : v.vregSeg with
    | some seg => simp [splitFarArgs, hk, hseg, bind, pure, getState]
    | none =>
      cases hsym : farSymbol c e <;>
        simp [splitFarArgs, hk, hseg, hsym, bind, pure, getState]
  · simp [splitFarArgs, hhead, hk, bind, pure, getState]

theorem arg_keeps {e : Expr} (hv : v.Ready c) (he : v.vregSeg = none → farSymbol c e = none) :
    (FarTransfer.arg e (some .far)).Keeps p c v := by
  have h := halvesReady p hv
  have hemit : ((FarTransfer.arg e (some .far)).emit v c).value =
        some (.pair (emitHalves v c).value.1 (emitHalves v c).value.2) ∧
      ((FarTransfer.arg e (some .far)).emit v c).lines = (emitHalves v c).lines := by
    cases hseg : v.vregSeg with
    | some seg =>
      simp [FarTransfer.emit, splitFarArgs, emitHalves, hseg, bind, pure, getState, paramPlace]
    | none =>
      simp [FarTransfer.emit, splitFarArgs, emitHalves, hseg, he hseg, bind, pure, getState,
        paramPlace, emitFarHalves]
  exact ⟨_, hemit.1, fun s => by
    rw [hemit.2]
    exact h.read s⟩

theorem arg_emit {e : Expr} {known : Option Ty} (hk : known ≠ some .far) :
    (FarTransfer.arg e known).emit v c = ⟨none, [], c⟩ := by
  cases known with
  | none => simp [FarTransfer.emit, splitFarArgs, bind, pure, getState, paramPlace]
  | some t =>
    have ht : t ≠ .far := fun h => hk (congrArg some h)
    simp [FarTransfer.emit, splitFarArgs, ht, bind, pure, getState, paramPlace]

/-! ## Declarations -/

/-- The second vreg is recorded for the symbol. -/
theorem declared_updateSymbol {vreg : Int} {f : Symbol → Symbol} {sym : Symbol}
    (hf : ∀ s, (f s).vreg = s.vreg) (h : declared c vreg = some sym) :
    declared (updateSymbol vreg f c) vreg = some (f sym) := by
  unfold declared at h ⊢
  unfold updateSymbol
  cases hs : c.scopes with
  | nil =>
    rw [hs] at h
    cases h
  | cons scope rest =>
    rw [hs] at h
    simp only [List.head?_cons, Option.bind_some] at h ⊢
    have hsym : sym.vreg = vreg := by simpa using List.find?_some h
    have hcomp : (fun s : Symbol => s.vreg == vreg) ∘ (fun s => if s.vreg = vreg then f s else s) =
        fun s => s.vreg == vreg := by
      funext s
      by_cases heq : s.vreg = vreg <;> simp [heq, hf]
    rw [List.find?_map, hcomp, h, Option.map_some, if_pos hsym]

theorem init_sound {sym : Symbol} (hdecl : declared c sym.vreg = some sym) (hfar : sym.IsFar c)
    (hglobal : sym.isGlobal = false) (hseg : sym.vregSeg = none) (hne : v.vregSeg ≠ some sym.vreg) :
    (FarTransfer.init sym).Sound p c v := by
  intro hacc
  by_cases hslot : sym.isStackLocal
  · -- The initializer is rejected.
    have herr : ((FarTransfer.init sym).emit v c).state.errors =
        c.errors ++ ["stack local aggregate initializers are not supported"] := by
      simp [FarTransfer.emit, emitInitStore, hslot, bind, pure, getState, emitStackAddr, emitOp,
        print, allocVreg, typeIsAggregate, cerr, modifyState]
    rw [herr] at hacc
    exact absurd hacc (by simp)
  · have hslot' : sym.isStackLocal = false := by simpa using hslot
    cases hv : v.vregSeg with
    | none =>
      have hemit : (FarTransfer.init sym).emit v c =
          ⟨some (.memory sym.vreg), [.op .mov [.vreg sym.vreg, .vreg v.vreg]], c⟩ := by
        simp [FarTransfer.emit, emitInitStore, hslot', hv, bind, pure, getState, emitOp, print,
          hdecl, Symbol.farPlace, hglobal, hseg]
      refine ⟨_, congrArg Emitted.value hemit, fun s => ?_⟩
      rw [hemit, farPlace_memory hv]
      exact congrArg (readFar s.rest) (setVreg_self s sym.vreg _)
    | some seg =>
      have hdecl' := declared_updateSymbol (c := { c with nextVreg := c.nextVreg + 1 })
        (f := fun s => { s with vregSeg := some c.nextVreg }) (fun _ => rfl) hdecl
      have hemit : ((FarTransfer.init sym).emit v c).value = some (.pair sym.vreg c.nextVreg) ∧
          ((FarTransfer.init sym).emit v c).lines = [.op .mov [.vreg sym.vreg, .vreg v.vreg],
            .vreg c.nextVreg .seg .plain, .op .mov [.vreg c.nextVreg, .vreg seg]] := by
        simp [FarTransfer.emit, emitInitStore, hslot', hv, bind, pure, getState, emitOp, print,
          allocVreg, modifyState, hdecl', Symbol.farPlace, hglobal]
      refine ⟨_, hemit.1, fun s => ?_⟩
      rw [hemit.2, farPlace_pair hv]
      have hnext : sym.vreg ≠ c.nextVreg := Int.ne_of_lt hfar.vreg
      have hseg' : seg ≠ sym.vreg := fun h => hne (hv.trans (congrArg some h))
      simp only [execAll, List.foldl_cons, List.foldl_nil, farExec, FarPlace.read, setVreg_self,
        setVreg_ne hnext, setVreg_ne hseg']

/-! ## Assignments -/

/-- Every vreg is 1 and the memory is empty. -/
def ones : IrState := ⟨fun _ => 1, fun _ => false, fun _ => 0⟩

theorem readFar_zero (a : BitVec 16) : readFar (fun _ => 0) a = (0, 0) := by
  show (joinBytes 0 0, joinBytes 0 0) = _
  decide

theorem zero_ne_one : ((0, 0) : BitVec 16 × BitVec 16) ≠ (1, 1) := by decide

theorem assign_emit {sym : Symbol} (htype : sym.type = some .far)
    (hslot : sym.isStackLocal = false) : (FarTransfer.assign sym).emit v c =
      ⟨some sym.farPlace, [.op .mov [.vreg sym.vreg, .vreg v.vreg]], c⟩ := by
  simp [FarTransfer.emit, emitValueStore, hslot, htype, typeIsScalar, bind, pure, emitOp, print]

theorem assign_emit_slot {sym : Symbol} (htype : sym.type = some .far)
    (hslot : sym.isStackLocal = true) : (FarTransfer.assign sym).emit v c =
      ⟨some sym.farPlace, [.op .lea [.vreg c.nextVreg, .vreg sym.vreg],
        .op .store [.vreg c.nextVreg, .vreg v.vreg]], { c with nextVreg := c.nextVreg + 1 }⟩ := by
  simp [FarTransfer.emit, emitValueStore, hslot, htype, storeOp, emitStackAddr, allocVreg, bind,
    pure, emitOp, print]

/-- The segment of a variable in two vregs is not moved. -/
theorem assign_local {sym : Symbol} (hfar : sym.IsFar c) (hglobal : sym.isGlobal = false)
    (hslot : sym.isStackLocal = false) :
    (FarTransfer.assign sym).Keeps p c v ↔ v.vregSeg = sym.vregSeg := by
  unfold FarTransfer.Keeps
  rw [assign_emit hfar.type hslot]
  cases hsym : sym.vregSeg with
  | none =>
    have hplace : sym.farPlace = .memory sym.vreg := by
      simp [Symbol.farPlace, hglobal, hsym, hslot]
    rw [hplace]
    cases hv : v.vregSeg with
    | none =>
      rw [farPlace_memory hv]
      exact iff_of_true ⟨_, rfl, fun s => congrArg (readFar s.rest) (setVreg_self s sym.vreg _)⟩ rfl
    | some seg =>
      refine iff_of_false ?_ nofun
      rintro ⟨d, hd, hall⟩
      cases hd
      have h := hall ones
      rw [farPlace_pair hv] at h
      exact zero_ne_one ((readFar_zero _).symm.trans h)
  | some symSeg =>
    have hplace : sym.farPlace = .pair sym.vreg symSeg := by
      simp [Symbol.farPlace, hglobal, hsym]
    have hne : symSeg ≠ sym.vreg := hfar.vregSeg symSeg hsym
    rw [hplace]
    cases hv : v.vregSeg with
    | none =>
      refine iff_of_false ?_ nofun
      rintro ⟨d, hd, hall⟩
      cases hd
      have h := hall ones
      rw [farPlace_memory hv] at h
      have hoff : (1 : BitVec 16) = 0 := (setVreg_self ones sym.vreg 1).symm.trans
        (congrArg Prod.fst (h.trans (readFar_zero _)))
      exact absurd hoff (by decide)
    | some seg =>
      rw [farPlace_pair hv]
      constructor
      · rintro ⟨d, hd, hall⟩
        cases hd
        by_cases heq : seg = symSeg
        · rw [heq]
        · -- The segments are different vregs: let them hold different words.
          have h := congrArg Prod.snd
            (hall ⟨fun u => if u = symSeg then 0 else 1, fun _ => false, fun _ => 0⟩)
          simp only [execAll, List.foldl_cons, List.foldl_nil, farExec, FarPlace.read,
            setVreg_ne hne, if_pos, if_neg heq] at h
          exact absurd h (by decide)
      · intro heq
        cases Option.some.inj heq
        refine ⟨_, rfl, fun s => ?_⟩
        simp only [execAll, List.foldl_cons, List.foldl_nil, farExec, FarPlace.read, setVreg_self,
          setVreg_ne hne]

/-- The memory of a global is not written. -/
theorem assign_global {sym : Symbol} (hfar : sym.IsFar c) (hglobal : sym.isGlobal = true) :
    ¬(FarTransfer.assign sym).Keeps p c v := by
  rintro ⟨d, hd, hall⟩
  rw [assign_emit hfar.type (hfar.isGlobal hglobal)] at hd hall
  have hplace : sym.farPlace = .global sym := by simp [Symbol.farPlace, hglobal]
  cases hd
  rw [hplace] at hall
  cases hv : v.vregSeg with
  | some seg =>
    have h := hall ones
    rw [farPlace_pair hv] at h
    exact zero_ne_one ((readFar_zero _).symm.trans h)
  | none =>
    -- The value is elsewhere in memory than the global.
    have h := congrArg Prod.fst (hall ⟨fun _ => FarPlace.globalAddr p sym + 4, fun _ => false,
      fun a => if a = FarPlace.globalAddr p sym then 1 else 0⟩)
    rw [farPlace_memory hv] at h
    have hwords : readWord (fun a => if a = FarPlace.globalAddr p sym then 1 else 0)
          (FarPlace.globalAddr p sym) =
        readWord (fun a => if a = FarPlace.globalAddr p sym then 1 else 0)
          (FarPlace.globalAddr p sym + 4) := h
    generalize FarPlace.globalAddr p sym = g at hwords
    have h₁ : g + 1 ≠ g := by bv_omega
    have h₄ : g + 4 ≠ g := by bv_omega
    have h₅ : g + 4 + 1 ≠ g := by bv_omega
    simp only [readWord, if_pos, if_neg h₁, if_neg h₄, if_neg h₅] at hwords
    exact absurd hwords (by decide)

/-- Only the offset is stored in the frame. -/
theorem assign_slot {sym : Symbol} (hv : v.Ready c) (hfar : sym.IsFar c)
    (hslot : sym.isStackLocal = true) : ¬(FarTransfer.assign sym).Keeps p c v := by
  rintro ⟨d, hd, hall⟩
  rw [assign_emit_slot hfar.type hslot] at hd hall
  have hglobal : sym.isGlobal = false := by
    cases hg : sym.isGlobal with
    | false => rfl
    | true => exact absurd (hfar.isGlobal hg) (by simp [hslot])
  have hplace : sym.farPlace = .slot sym.vreg := by
    simp [Symbol.farPlace, hglobal, hslot, hfar.inMemory (.inr hslot)]
  cases hd
  rw [hplace] at hall
  have hne : v.vreg ≠ c.nextVreg := Int.ne_of_lt hv.vreg
  have h := hall ones
  simp only [execAll, List.foldl_cons, List.foldl_nil, farExec, FarPlace.read, setVreg_self,
    setVreg_ne hne, setVreg_rest] at h
  generalize p.slotAddr sym.vreg = a at h
  cases hseg : v.vregSeg with
  | some seg =>
    rw [farPlace_pair hseg] at h
    have hwords : readWord (write false ones.rest a 1) (a + 2) = 1 := congrArg Prod.snd h
    have hzero : readWord ones.rest (a + 2) = 0 := congrArg Prod.fst (readFar_zero (a + 2))
    rw [readWord_write_of_behind, hzero] at hwords
    exact absurd hwords (by decide)
  | none =>
    rw [farPlace_memory hseg] at h
    have hwords : readWord (write false ones.rest a 1) a = 0 :=
      congrArg Prod.fst (h.trans (readFar_zero 1))
    rw [readWord_write] at hwords
    exact absurd (show (1 : BitVec 16) = 0 from hwords) (by decide)

/-! ## Every transfer -/

theorem ret_keeps : FarTransfer.ret.Keeps p c v ↔ v.vregSeg = none := by
  cases hv : v.vregSeg with
  | none =>
    refine iff_of_true ⟨_, rfl, fun s => ?_⟩ rfl
    rw [farPlace_memory hv]
    rfl
  | some seg =>
    refine iff_of_false ?_ nofun
    rintro ⟨d, hd, hall⟩
    cases hd
    have h := hall ones
    rw [farPlace_pair hv] at h
    exact zero_ne_one ((readFar_zero _).symm.trans h)

/-- Two far variables in two vregs each. -/
def farVars : Compiler := { nextVreg := 4 }

def farSource : TypedVreg := { vreg := 0, vregSeg := some 1, type := some .far }

def farTarget : Symbol := { name := "q", type := some .far, vreg := 2, vregSeg := some 3 }

def wordPlacement : Placement := ⟨fun _ => false, fun _ => 0, fun _ => 0, fun _ => false⟩

theorem farSource_ready : farSource.Ready farVars :=
  ⟨by decide, fun seg h => by cases h; decide⟩

end Nib.Compile
