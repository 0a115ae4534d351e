import Nib.Compile.Spec.Addresses
import Nib.Compile.Properties.Elements

/-!
# Which operands have their address taken

* `name_takes_iff`, `element_takes_iff`, `field_takes_iff` — one kind of operand
* `takesAddress_iff` — when the value is the address of the operand
-/

namespace Nib.Compile

open Nib.Infra Compile

variable {f : String → Memory → BitVec 16 → BitVec 16} {c : Compiler} {p : Placement}
  {g : Segments} {s : IrState} {far : Bool}

/-! ## Places -/

theorem symLookup_name {n : String} {sym : Symbol} (h : symLookup c n = some sym) :
    sym.name = n := by
  obtain ⟨scope, -, hfind⟩ := List.exists_of_findSome?_eq_some h
  simpa using List.find?_some hfind

/-- Labels where `at()` puts them, or else at zero. -/
def atLabels (c : Compiler) (l : String) : BitVec 16 :=
  match symLookup c l with
  | some sym => if sym.hasAt && !sym.isInitData then BitVec.ofInt 16 sym.atOff else 0
  | none => 0

/-- A placement with all slots at one address. -/
def slotsAt (c : Compiler) (a : BitVec 16) : Placement where
  isByte _ := false
  labelAddr := atLabels c
  slotAddr _ := a
  keepsHigh _ := false

theorem slotsAt_putsAt (a : BitVec 16) : (slotsAt c a).PutsAt c := by
  intro name sym hsym hat hinit
  show atLabels c sym.name = _
  rw [symLookup_name hsym, atLabels, hsym]
  simp [hat, hinit]

theorem globalAddr_eq (hp : p.PutsAt c) {n : String} {sym : Symbol}
    (h : symLookup c n = some sym) : FarPlace.globalAddr p sym = p.labelAddr n := by
  unfold FarPlace.globalAddr
  have hname := symLookup_name h
  by_cases hdirect : (sym.hasAt && !sym.isInitData) = true
  · rw [if_pos hdirect]
    simp only [Bool.and_eq_true, Bool.not_eq_true'] at hdirect
    rw [← hp n sym h hdirect.1 hdirect.2, hname]
  · rw [if_neg hdirect, hname]

def noSegments : Segments := { segOf := fun _ => 0, ds := 0 }

/-- Vregs that all hold `a`, and memory that is all `x`. -/
def filled (a : BitVec 16) (x : BitVec 8) : IrState :=
  { vreg := fun _ => a, flag := fun _ => false, rest := fun _ => x }

section Lines

variable {t : SeenState} (d : Int)

@[simp] theorem addrExec_label (l : String) :
    addrExec p g f (.op .mov [.vreg d, .name l]) t = t.setVreg d (p.labelAddr l) := rfl

@[simp] theorem addrExec_segOf (l : String) :
    addrExec p g f (.op .mov [.vreg d, .segOf l]) t = t.setVreg d (g.segOf l) := rfl

@[simp] theorem addrExec_slot (v : Int) :
    addrExec p g f (.op .lea [.vreg d, .vreg v]) t = t.setVreg d (p.slotAddr v) := rfl

@[simp] theorem addrExec_move (v : Int) :
    addrExec p g f (.op .mov [.vreg d, .vreg v]) t = t.setVreg d (t.vreg v) := rfl

@[simp] theorem addrExec_vreg (ty : Ty) (attr : VregAttr) :
    addrExec p g f (.vreg d ty attr) t = t := rfl

end Lines

-- The lines of an address are written out and carried out.
attribute [local simp] AddrOperand.emit AddrOperand.addrOp AddrOperand.Accepted AddrOperand.storage
  emitUnopTyped emitUnopValue emitNameAddr emitIdent emitGlobalValue emitFarLabel emitStackFarAddr
  emitStackAddr emitSegMove ExprEmit.plain tv tvFar bind pure getState modifyState cerr emitOp print
  allocVreg execAll MachState.setVreg

/-! ## The last line -/

/-- The address of what is not a name is the value of the operand, in a vreg of its own. -/
theorem run_addr_value (m : Compile TypedVreg) (t : SeenState) :
    let r := emitUnopValue .addr m c
    (execAll (addrExec p g f) r.lines t).vreg r.value.vreg =
      (execAll (addrExec p g f) (m c).lines t).vreg (m c).value.vreg := by
  simp

/-- The far address of what is not a name has no segment. -/
theorem farAddr_value_near (m : Compile TypedVreg) :
    (emitUnopValue .farAddr m c).value.vregSeg = none := by
  show (tv _ (m c).value.type _).value.vregSeg = none
  cases (m c).value.type with
  | none => rfl
  | some ty => cases ty <;> rfl

/-! ## Elements -/

theorem addrExec_load (e : Element) (t : SeenState) :
    execAll (addrExec p g f) (e.emitLoad c).lines t =
      execAll (elementExec f) (e.emitLoad c).lines t := by
  obtain ⟨base, index, type, length⟩ := e
  cases type <;> rfl

theorem element_takes_iff {e : Element} (h : e.Ready c) :
    (AddrOperand.element e).TakesAddress f c far ↔ (AddrOperand.element e).HasAddress c far := by
  by_cases hlen : e.length ≤ 0
  · exact ⟨fun _ => Or.inl hlen, fun _ p g s _ hs => absurd hs (not_inBounds hlen)⟩
  have hpos : 0 < e.length := Int.not_le.mp hlen
  cases far with
  | true =>
    constructor
    · intro hx
      obtain ⟨_, -, -, hseg⟩ :=
        hx (slotsAt c 0) noSegments (constState 0) (slotsAt_putsAt 0) (inBounds_zero hpos)
      obtain ⟨seg, hsome, -⟩ := hseg rfl
      exact absurd ((farAddr_value_near (c := c) e.emitLoad).symm.trans hsome) nofun
    · rintro (hle | ⟨hfar, -⟩)
      · exact absurd hle hlen
      · cases hfar
  | false =>
    constructor
    · intro hx
      have hval : ∀ s, e.InBounds s → (execAll (elementExec f) (e.emitLoad c).lines
          (SeenState.start s)).vreg (e.emitLoad c).value.vreg = e.addr c s := by
        intro s hs
        obtain ⟨a, ha, hv, -⟩ := hx (slotsAt c 0) noSegments s (slotsAt_putsAt 0) hs
        cases ha
        rw [← addrExec_load (p := slotsAt c 0) (g := noSegments), ← run_addr_value]
        exact hv
      have hhref : byReference (some e.type) = true := by
        rw [← Bool.not_eq_false]
        intro href
        have hv := hval (filled 0 1) hpos
        have haddr : e.addr c (filled 0 1) = 0#16 := by
          show 0#16 + 0#16 * _ = 0#16
          rw [BitVec.zero_mul, BitVec.add_zero]
        rw [haddr] at hv
        by_cases hfar : e.type = .far
        · have hlow := congrArg List.head? (run_far (f := f) (s := filled 0 1) h hfar).2
          have hlow' : some (low ((execAll (elementExec f) (e.emitLoad c).lines
              (SeenState.start (filled 0 1))).vreg (e.emitLoad c).value.vreg)) = some 1#8 := hlow
          rw [hv] at hlow'
          exact absurd hlow' (by decide)
        · have hword := (run_load (f := f) (s := filled 0 1) h hfar href).2.2
          rw [hv] at hword
          split at hword
          · exact absurd (show 0#16 = zeroExtend 1 from hword) (by decide)
          · exact absurd (show 0#16 = joinBytes 1 1 from hword) (by decide)
      refine Or.inr ⟨rfl, hhref, unscaled_of_addr fun s hs => ?_⟩
      rw [← hval s hs]
      exact (run_reference h hhref).2.symm
    · rintro (hle | ⟨-, href, hun⟩) p g s - hs
      · exact absurd hle hlen
      · refine ⟨_, rfl, ?_, nofun⟩
        refine (run_addr_value e.emitLoad _).trans ?_
        rw [addrExec_load]
        exact (run_reference h href).2.trans (addr_of_unscaled hun hs)

/-! ## Fields -/

section Fields

variable {l : FieldLayout} {t : SeenState}

theorem addrExec_tv (d : Int) (type : Option Ty) :
    execAll (addrExec p g f) (tv d type c).lines t =
      execAll (elementExec f) (tv d type c).lines t := by
  cases type with
  | none => rfl
  | some ty => cases ty <;> rfl

theorem addrExec_addr (o off : Int) :
    execAll (addrExec p g f) (emitAddrPlusConst o off c).lines t =
      execAll (elementExec f) (emitAddrPlusConst o off c).lines t := by
  unfold emitAddrPlusConst
  split <;> rfl

theorem addrExec_object (a : Int) :
    execAll (addrExec p g f) (emitObjectValue l a c).lines t =
      execAll (elementExec f) (emitObjectValue l a c).lines t := by
  unfold emitObjectValue
  by_cases hfar : l.storageType = some .far
  · rw [if_pos hfar]
    rfl
  · rw [if_neg hfar]
    by_cases hagg : typeIsAggregate l.storageType = true
    · rw [if_pos hagg]
      exact addrExec_tv a l.accessType
    · rw [if_neg hagg]
      unfold loadOp
      by_cases h8 : l.storageType = some .u8
      · rw [if_pos h8]
        exact addrExec_tv (c := { c with nextVreg := c.nextVreg + 1 })
          (t := SeenState.loadByte t c.nextVreg (t.vreg a)) c.nextVreg l.accessType
      · rw [if_neg h8]
        exact addrExec_tv (c := { c with nextVreg := c.nextVreg + 1 })
          (t := SeenState.loadWord t c.nextVreg (t.vreg a)) c.nextVreg l.accessType

/-- What is moved for the address of a field: the value of the field. -/
def fieldValue (f : String → Memory → BitVec 16 → BitVec 16) (c : Compiler) (l : FieldLayout)
    (obj : Int) (s : IrState) : BitVec 16 :=
  let r := emitAddrPlusConst obj l.byteOffset c
  let t := execAll (elementExec f) r.lines (SeenState.start s)
  (execAll (elementExec f) (emitObjectValue l r.value r.state).lines t).vreg
    (emitObjectValue l r.value r.state).value.vreg

/-- Where a field lies. -/
def fieldAddr (l : FieldLayout) (obj : Int) (s : IrState) : BitVec 16 :=
  s.vreg obj + BitVec.ofInt 16 l.byteOffset

variable {obj : Int} {struct name : String}

theorem fieldValue_reference (hobj : obj < c.nextVreg) (href : byReference l.storageType = true) :
    fieldValue f c l obj s = fieldAddr l obj s :=
  (run_object_reference href).2.trans (run_addr l.byteOffset hobj).2.1

theorem fieldValue_far (hobj : obj < c.nextVreg) (hfar : l.storageType = some .far) :
    low (fieldValue f c l obj s) = s.rest (fieldAddr l obj s) := by
  obtain ⟨hrest, hv, hlt⟩ := run_addr (f := f) (t := SeenState.start s) l.byteOffset hobj
  have hhead := congrArg List.head? (run_object_far (f := f) hlt hfar hrest).2
  rw [hv] at hhead
  have hbyte : some (low (fieldValue f c l obj s)) =
      some (s.rest (fieldAddr l obj s + 0#16)) := hhead
  rw [BitVec.add_zero] at hbyte
  exact Option.some.inj hbyte

theorem fieldValue_word (hobj : obj < c.nextVreg) (hfar : l.storageType ≠ some .far)
    (href : byReference l.storageType = false) :
    fieldValue f c l obj s =
      if l.storageType = some .u8 then zeroExtend (s.rest (fieldAddr l obj s))
      else readWord s.rest (fieldAddr l obj s) := by
  obtain ⟨hrest, hv, -⟩ := run_addr (f := f) (t := SeenState.start s) l.byteOffset hobj
  have hword := (run_object_word (f := f) (c := (emitAddrPlusConst obj l.byteOffset c).state)
    (a := (emitAddrPlusConst obj l.byteOffset c).value) hfar href hrest).2.2
  rw [hv] at hword
  exact hword

/-- The value of a field that is not passed by reference is not its address in every memory. -/
theorem fieldValue_ne (hobj : obj < c.nextVreg) (href : byReference l.storageType = false) :
    ¬∀ s, fieldValue f c l obj s = fieldAddr l obj s := by
  intro h
  by_cases hfar : l.storageType = some .far
  · have hlow : ∀ x, low (fieldAddr l obj (filled 0 0)) = x := by
      intro x
      exact (congrArg low (h (filled 0 x))).symm.trans (fieldValue_far hobj hfar)
    exact absurd ((hlow 0).symm.trans (hlow 1)) (by decide)
  · have hword : ∀ x, fieldAddr l obj (filled 0 0) =
        if l.storageType = some .u8 then zeroExtend x else joinBytes x x := by
      intro x
      exact (h (filled 0 x)).symm.trans (fieldValue_word hobj hfar href)
    have hsame := (hword 0).symm.trans (hword 1)
    split at hsame <;> exact absurd hsame (by decide)

theorem emitFieldValue_plain (hbits : ¬l.isBits = true) :
    emitFieldValue obj name l = emitAddrPlusConst obj l.byteOffset >>= emitObjectValue l := by
  unfold emitFieldValue
  rw [if_neg hbits]

theorem field_value (hl : structField c struct name = some l) (hbits : ¬l.isBits = true) :
    (execAll (addrExec p g f) ((AddrOperand.field obj struct name).emit false c).lines
      (SeenState.start s)).vreg ((AddrOperand.field obj struct name).emit false c).value.vreg =
        fieldValue f c l obj s := by
  have hstruct : TypedVreg.type { vreg := obj, type := some (.struct struct) } ≠ some .far := nofun
  have hemit : emitStructFieldValue { vreg := obj, type := some (.struct struct) } name false c =
      (emitAddrPlusConst obj l.byteOffset >>= emitObjectValue l) c := by
    refine (congrFun (emitStructFieldValue_eq hstruct name false) c).trans ?_
    refine (bind_eq_of_silent (structFieldLayout_found (c := c) rfl hl)).trans ?_
    exact congrFun (emitFieldValue_plain hbits) c
  refine (run_addr_value _ _).trans ?_
  rw [hemit]
  show (execAll (addrExec p g f) (_ ++ _) _).vreg _ = _
  rw [execAll_append, addrExec_addr, addrExec_object]
  rfl

theorem field_storage (hl : structField c struct name = some l) (hbits : ¬l.isBits = true) :
    (AddrOperand.field obj struct name).storage c p g s = some ⟨g.ds, fieldAddr l obj s⟩ := by
  simp only [AddrOperand.storage, hl, if_neg hbits]
  rfl

theorem field_takes_iff (hobj : obj < c.nextVreg) :
    (AddrOperand.field obj struct name).TakesAddress f c far ↔
      (AddrOperand.field obj struct name).HasAddress c far := by
  constructor
  · intro hx
    have hplace := fun s => hx (slotsAt c 0) noSegments s (slotsAt_putsAt 0) trivial
    cases far with
    | true =>
      obtain ⟨_, -, -, hseg⟩ := hplace (filled 0 0)
      obtain ⟨seg, hsome, -⟩ := hseg rfl
      exact absurd ((farAddr_value_near (c := c) _).symm.trans hsome) nofun
    | false =>
      obtain ⟨_, ha, -⟩ := hplace (filled 0 0)
      cases hl : structField c struct name with
      | none =>
        simp only [AddrOperand.storage, hl] at ha
        cases ha
      | some l =>
        have hbits : ¬l.isBits = true := by
          intro hbits
          simp only [AddrOperand.storage, hl, if_pos hbits] at ha
          cases ha
        refine ⟨rfl, l, hl, Bool.eq_false_iff.mpr hbits, ?_⟩
        rw [← Bool.not_eq_false]
        intro href
        refine fieldValue_ne (f := f) hobj href fun s => ?_
        obtain ⟨_, ha, hv, -⟩ := hplace s
        rw [field_storage hl hbits] at ha
        cases ha
        exact (field_value hl hbits).symm.trans hv
  · rintro ⟨rfl, l, hl, hbits, href⟩ p g s - -
    have hbits' : ¬l.isBits = true := Bool.eq_false_iff.mp hbits
    exact ⟨_, field_storage hl hbits', (field_value hl hbits').trans
      (fieldValue_reference hobj href), nofun⟩

end Fields

/-! ## Names -/

section Names

variable {n : String} {sym : Symbol} {t : SeenState}

theorem function_value (hf : (findFunction c n).isSome = true) :
    let v := ((AddrOperand.name n).emit far c).value
    let t' := execAll (addrExec p g f) ((AddrOperand.name n).emit far c).lines t
    t'.vreg v.vreg = p.labelAddr n ∧
      (far = true → ∃ seg, v.vregSeg = some seg ∧ t'.vreg seg = g.segOf n) := by
  have h01 : c.nextVreg ≠ c.nextVreg + 1 := by omega
  cases far <;>
    simp [hf, h01]

theorem slot_value (hf : (findFunction c n).isSome = false) (hsym : symLookup c n = some sym)
    (hlocal : sym.isStackLocal = true) :
    let v := ((AddrOperand.name n).emit far c).value
    let t' := execAll (addrExec p g f) ((AddrOperand.name n).emit far c).lines t
    t'.vreg v.vreg = p.slotAddr sym.vreg ∧
      (far = true → ∃ seg, v.vregSeg = some seg ∧ t'.vreg seg = p.labelAddr "SS") := by
  have h01 : c.nextVreg ≠ c.nextVreg + 1 := by omega
  have h02 : c.nextVreg ≠ c.nextVreg + 1 + 1 := by omega
  cases far <;>
    simp [hf, hsym, hlocal, h01, h02]

theorem global_far_value (hf : (findFunction c n).isSome = false)
    (hsym : symLookup c n = some sym) (hlocal : sym.isStackLocal = false)
    (hglobal : sym.isGlobal = true) :
    let v := ((AddrOperand.name n).emit true c).value
    let t' := execAll (addrExec p g f) ((AddrOperand.name n).emit true c).lines t
    t'.vreg v.vreg = p.labelAddr sym.name ∧
      ∃ seg, v.vregSeg = some seg ∧ t'.vreg seg = g.segOf sym.name := by
  have h01 : c.nextVreg ≠ c.nextVreg + 1 := by omega
  simp [hf, hsym, hlocal, hglobal, h01]

/-- Any other name is evaluated. -/
theorem emit_near_value (hf : (findFunction c n).isSome = false)
    (hlocal : ∀ sym, symLookup c n = some sym → sym.isStackLocal = false) :
    (AddrOperand.name n).emit false c = emitUnopValue .addr (emitIdent n) c := by
  have hnone : emitNameAddr .addr n c = ⟨none, [], c⟩ := by
    unfold emitNameAddr
    refine (bind_eq_of_silent (m := getState) (a := c) rfl).trans ?_
    show (if (findFunction c n).isSome = true then _ else _ : Compile (Option TypedVreg)) c = _
    rw [hf, if_neg Bool.false_ne_true]
    cases hsym : symLookup c n with
    | none => rfl
    | some sym =>
      show (if sym.isStackLocal = true then _ else _ : Compile (Option TypedVreg)) c = _
      rw [hlocal sym hsym]
      rfl
  exact bind_eq_of_silent hnone

/-- A far address of anything else is an error. -/
theorem not_accepted_far (hf : (findFunction c n).isSome = false)
    (h : ∀ sym, symLookup c n = some sym → sym.isStackLocal = false ∧ sym.isGlobal = false) :
    ¬(AddrOperand.name n).Accepted c true := by
  cases hsym : symLookup c n with
  | none =>
    simp [hf, hsym]
  | some sym =>
    simp [hf, hsym, (h sym hsym).1, (h sym hsym).2]

/-! ### The value of a name -/

theorem emitIdent_global (hisr : isIsr c n = false) (hsym : symLookup c n = some sym)
    (hglobal : sym.isGlobal = true) : emitIdent n c = emitGlobalValue sym c := by
  unfold emitIdent
  refine (bind_eq_of_silent (m := getState) (a := c) rfl).trans ?_
  simp only [hisr, hsym, hglobal, Bool.false_eq_true, if_false, if_true]

theorem emitIdent_local (hisr : isIsr c n = false) (hsym : symLookup c n = some sym)
    (hglobal : sym.isGlobal = false) (hseg : sym.vregSeg = none)
    (hlocal : sym.isStackLocal = false) : emitIdent n c = tv sym.vreg sym.type c := by
  unfold emitIdent
  refine (bind_eq_of_silent (m := getState) (a := c) rfl).trans ?_
  simp only [hisr, hsym, hglobal, hseg, hlocal, Bool.false_eq_true, if_false]

theorem isr_value (hisr : isIsr c n = true) :
    (execAll (addrExec p g f) (emitIdent n c).lines t).vreg (emitIdent n c).value.vreg =
      p.labelAddr n := by
  simp [hisr]

theorem run_line (i : Instr) (d : Int) (type : Option Ty) :
    (execAll (addrExec p g f) ([i] ++ (tv d type c).lines) t).vreg (tv d type c).value.vreg =
      (addrExec p g f i t).vreg d := by
  show (execAll (addrExec p g f) (tv d type c).lines (addrExec p g f i t)).vreg _ = _
  rw [addrExec_tv, (run_tv d type).2.2, (run_tv (f := f) (t := t) d type).1]

theorem emitGlobalValue_eq (sym : Symbol) :
    emitGlobalValue sym c = (do
      print (if typeIsScalar sym.type then
          .op .loadmem [.vreg c.nextVreg, .mem (if sym.hasAt && !sym.isInitData then .abs sym.atOff
            else .sym sym.name)]
        else .op .mov [.vreg c.nextVreg, if sym.hasAt && !sym.isInitData then .hex sym.atOff
          else .name sym.name])
      tv c.nextVreg sym.type) { c with nextVreg := c.nextVreg + 1 } := by
  unfold emitGlobalValue
  cases h : typeIsScalar sym.type <;> rfl

theorem global_value (hisr : isIsr c n = false) (hsym : symLookup c n = some sym)
    (hglobal : sym.isGlobal = true) :
    (execAll (addrExec p g f) (emitIdent n c).lines t).vreg (emitIdent n c).value.vreg =
      if typeIsScalar sym.type = true then readWord t.rest.mem (FarPlace.globalAddr p sym)
      else FarPlace.globalAddr p sym := by
  rw [emitIdent_global hisr hsym hglobal, emitGlobalValue_eq]
  refine (run_line (c := { c with nextVreg := c.nextVreg + 1 }) _ c.nextVreg sym.type).trans ?_
  unfold FarPlace.globalAddr
  by_cases hscalar : typeIsScalar sym.type = true
  · rw [if_pos hscalar, if_pos hscalar]
    by_cases hdirect : (sym.hasAt && !sym.isInitData) = true
    · rw [if_pos hdirect, if_pos hdirect]
      exact setVreg_self ..
    · rw [if_neg hdirect, if_neg hdirect]
      exact setVreg_self ..
  · rw [if_neg hscalar, if_neg hscalar]
    by_cases hdirect : (sym.hasAt && !sym.isInitData) = true
    · rw [if_pos hdirect, if_pos hdirect]
      exact setVreg_self ..
    · rw [if_neg hdirect, if_neg hdirect]
      exact setVreg_self ..

theorem local_value (hisr : isIsr c n = false) (hsym : symLookup c n = some sym)
    (hglobal : sym.isGlobal = false) (hseg : sym.vregSeg = none)
    (hlocal : sym.isStackLocal = false) :
    (execAll (addrExec p g f) (emitIdent n c).lines t).vreg (emitIdent n c).value.vreg =
      t.vreg sym.vreg := by
  rw [emitIdent_local hisr hsym hglobal hseg hlocal]
  cases sym.type with
  | none => rfl
  | some ty => cases ty <;> rfl

/-! ### Where names are -/

theorem ne_add_one (x : BitVec 16) : x ≠ x + 1 := by bv_omega

theorem name_storage_isr (hisr : isIsr c n = true) :
    (AddrOperand.name n).storage c p g s = some ⟨g.segOf n, p.labelAddr n⟩ := if_pos hisr

theorem name_storage_symbol (hisr : isIsr c n = false) (hsym : symLookup c n = some sym) :
    (AddrOperand.name n).storage c p g s = sym.storage p g s := by
  simp [hisr, hsym]

theorem name_storage_global (hp : p.PutsAt c) (hsym : symLookup c n = some sym)
    (hglobal : sym.isGlobal = true) :
    (AddrOperand.name n).storage c p g s = some ⟨g.segOf n, p.labelAddr n⟩ := by
  cases hisr : isIsr c n with
  | true => exact name_storage_isr hisr
  | false =>
    rw [name_storage_symbol hisr hsym, Symbol.storage, if_pos hglobal, symLookup_name hsym,
      globalAddr_eq hp hsym]

/-- What is not global is found where slots and vregs say. -/
theorem local_storage_off {b : BitVec 16} {x : BitVec 8} {a : Storage}
    (hglobal : sym.isGlobal = false)
    (h : sym.storage (slotsAt c b) g (filled b x) = some a) : a.off = b := by
  rw [Symbol.storage, hglobal, if_neg Bool.false_ne_true] at h
  split at h
  · cases h
  · split at h
    · cases h
      rfl
    · split at h
      · cases h
        rfl
      · cases h

theorem function_takes_iff (hf : (findFunction c n).isSome = true) :
    (AddrOperand.name n).TakesAddress f c far ↔ AddrOperand.NotShadowed c n := by
  constructor
  · intro hx
    cases hisr : isIsr c n with
    | true => exact Or.inl hisr
    | false =>
      refine Or.inr fun sym hsym => ?_
      rw [← Bool.not_eq_false]
      intro hglobal
      obtain ⟨a, ha, hv, -⟩ := hx (slotsAt c (atLabels c n + 1)) noSegments
        (filled (atLabels c n + 1) 0) (slotsAt_putsAt _) trivial
      rw [name_storage_symbol hisr hsym] at ha
      have hoff := local_storage_off hglobal ha
      exact absurd ((function_value hf).1.symm.trans (hv.trans hoff)) (ne_add_one _)
  · intro h p g s hp _
    have hstorage : (AddrOperand.name n).storage c p g s = some ⟨g.segOf n, p.labelAddr n⟩ := by
      rcases h with hisr | h
      · exact name_storage_isr hisr
      · cases hsym : symLookup c n with
        | none => simp [hsym, hf]
        | some sym => exact name_storage_global hp hsym (h sym hsym)
    exact ⟨_, hstorage, (function_value hf).1, (function_value hf).2⟩

theorem slot_takes_iff (hf : (findFunction c n).isSome = false)
    (hsym : symLookup c n = some sym) (hlocal : sym.isStackLocal = true) :
    (AddrOperand.name n).TakesAddress f c far ↔ AddrOperand.InFrame c n sym := by
  constructor
  · intro hx
    obtain ⟨a, ha, hv, -⟩ := hx (slotsAt c (atLabels c n + 1)) noSegments
      (filled (atLabels c n + 1) 0) (slotsAt_putsAt _) trivial
    have hoff : atLabels c n + 1 = a.off := (slot_value hf hsym hlocal).1.symm.trans hv
    have hlabel : ∀ seg, some (Storage.mk seg (atLabels c n)) ≠ some a := by
      rintro seg h
      cases h
      exact ne_add_one _ hoff.symm
    cases hisr : isIsr c n with
    | true => exact absurd ((name_storage_isr hisr).symm.trans ha) (hlabel _)
    | false =>
      cases hglobal : sym.isGlobal with
      | true =>
        exact absurd ((name_storage_global (slotsAt_putsAt _) hsym hglobal).symm.trans ha)
          (hlabel _)
      | false =>
        cases hseg : sym.vregSeg with
        | some seg =>
          rw [name_storage_symbol hisr hsym, Symbol.storage, hglobal, hseg] at ha
          cases ha
        | none => exact ⟨hisr, hglobal, hseg⟩
  · rintro ⟨hisr, hglobal, hseg⟩ p g s - -
    refine ⟨⟨p.labelAddr "SS", p.slotAddr sym.vreg⟩, ?_, (slot_value hf hsym hlocal).1,
      (slot_value hf hsym hlocal).2⟩
    rw [name_storage_symbol hisr hsym, Symbol.storage, hglobal, hseg, hlocal]
    rfl

theorem only_local (hsym : symLookup c n = some sym) (hlocal : sym.isStackLocal = false) :
    ∀ sym', symLookup c n = some sym' → sym'.isStackLocal = false := by
  intro sym' h
  rw [hsym] at h
  cases h
  exact hlocal

/-- A scalar is evaluated, and what is in memory is not its address in every memory. -/
theorem scalar_not_takes (hf : (findFunction c n).isSome = false) (hisr : isIsr c n = false)
    (hsym : symLookup c n = some sym) (hlocal : sym.isStackLocal = false)
    (hglobal : sym.isGlobal = true) (hscalar : typeIsScalar sym.type = true) :
    ¬(AddrOperand.name n).TakesAddress f c false := by
  intro hx
  have hword : ∀ x : BitVec 8, joinBytes x x = atLabels c n := by
    intro x
    obtain ⟨a, ha, hv, -⟩ := hx (slotsAt c 0) noSegments (filled 0 x) (slotsAt_putsAt 0) trivial
    rw [name_storage_global (slotsAt_putsAt 0) hsym hglobal] at ha
    cases ha
    rw [emit_near_value hf (only_local hsym hlocal)] at hv
    have hvalue := (run_addr_value (f := f) (p := slotsAt c 0) (g := noSegments) (emitIdent n)
      (SeenState.start (filled 0 x))).symm.trans hv
    rw [global_value hisr hsym hglobal, if_pos hscalar] at hvalue
    exact hvalue
  exact absurd ((hword 0).trans (hword 1).symm) (by decide)

theorem near_value_takes (hf : (findFunction c n).isSome = false)
    (hlocal : ∀ sym, symLookup c n = some sym → sym.isStackLocal = false)
    (h : ∀ p g s, Placement.PutsAt p c → ∃ a, (AddrOperand.name n).storage c p g s = some a ∧
      (execAll (addrExec p g f) (emitIdent n c).lines (SeenState.start s)).vreg
        (emitIdent n c).value.vreg = a.off) :
    (AddrOperand.name n).TakesAddress f c false := by
  intro p g s hp _
  obtain ⟨a, ha, hv⟩ := h p g s hp
  refine ⟨a, ha, ?_, nofun⟩
  rw [emit_near_value hf hlocal]
  exact (run_addr_value _ _).trans hv

theorem isr_takes (hf : (findFunction c n).isSome = false) (hisr : isIsr c n = true)
    (hlocal : ∀ sym, symLookup c n = some sym → sym.isStackLocal = false) :
    (AddrOperand.name n).TakesAddress f c false :=
  near_value_takes hf hlocal fun _ _ _ _ => ⟨_, name_storage_isr hisr, isr_value hisr⟩

theorem unknown_takes_iff (haccept : (AddrOperand.name n).Accepted c far)
    (hf : (findFunction c n).isSome = false) (hsym : symLookup c n = none) :
    (AddrOperand.name n).TakesAddress f c far ↔ isIsr c n = true := by
  have hno : ∀ sym, symLookup c n ≠ some sym := fun _ h => nomatch hsym.symm.trans h
  cases far with
  | true => exact absurd haccept (not_accepted_far hf fun sym h => absurd h (hno sym))
  | false =>
    constructor
    · intro hx
      rw [← Bool.not_eq_false]
      intro hisr
      obtain ⟨_, ha, -⟩ := hx (slotsAt c 0) noSegments (filled 0 0) (slotsAt_putsAt 0) trivial
      simp [hisr, hsym, hf] at ha
    · exact fun hisr => isr_takes hf hisr fun sym h => absurd h (hno sym)

/-- What `@` accepts and is not in the frame is global. -/
theorem far_takes (haccept : (AddrOperand.name n).Accepted c true)
    (hf : (findFunction c n).isSome = false) (hsym : symLookup c n = some sym)
    (hlocal : sym.isStackLocal = false) : (AddrOperand.name n).TakesAddress f c true := by
  cases hglobal : sym.isGlobal with
  | true =>
    intro p g s hp _
    have hvalue := global_far_value (f := f) (p := p) (g := g) (t := SeenState.start s) hf
      hsym hlocal hglobal
    rw [symLookup_name hsym] at hvalue
    exact ⟨_, name_storage_global hp hsym hglobal, hvalue.1, fun _ => hvalue.2⟩
  | false =>
    refine absurd haccept (not_accepted_far hf fun sym' h => ?_)
    rw [hsym] at h
    cases h
    exact ⟨hlocal, hglobal⟩

section Evaluated

variable (hf : (findFunction c n).isSome = false) (hisr : isIsr c n = false)
  (hsym : symLookup c n = some sym) (hlocal : sym.isStackLocal = false)

include hf hisr hsym hlocal

theorem global_takes_iff (hglobal : sym.isGlobal = true) :
    (AddrOperand.name n).TakesAddress f c false ↔ typeIsScalar sym.type = false := by
  constructor
  · intro hx
    rw [← Bool.not_eq_true]
    exact fun hscalar => scalar_not_takes hf hisr hsym hlocal hglobal hscalar hx
  · intro hscalar
    refine near_value_takes hf (only_local hsym hlocal) fun p g s hp =>
      ⟨_, name_storage_global hp hsym hglobal, ?_⟩
    rw [global_value hisr hsym hglobal, hscalar, if_neg Bool.false_ne_true]
    exact globalAddr_eq hp hsym

/-- A vreg may hold where an aggregate is. Nothing else in vregs is in memory. -/
theorem local_takes_iff (hglobal : sym.isGlobal = false) :
    (AddrOperand.name n).TakesAddress f c false ↔
      sym.vregSeg = none ∧ typeIsAggregate sym.type = true := by
  have hstorage : ∀ p g s, (AddrOperand.name n).storage c p g s =
      if sym.vregSeg.isSome then none
      else if typeIsAggregate sym.type then some ⟨g.ds, s.vreg sym.vreg⟩ else none := by
    intro p g s
    rw [name_storage_symbol hisr hsym, Symbol.storage, hglobal, hlocal]
    rfl
  constructor
  · intro hx
    obtain ⟨_, ha, -⟩ := hx (slotsAt c 0) noSegments (filled 0 0) (slotsAt_putsAt 0) trivial
    rw [hstorage] at ha
    cases hseg : sym.vregSeg with
    | some seg =>
      rw [hseg] at ha
      cases ha
    | none =>
      refine ⟨rfl, ?_⟩
      rw [← Bool.not_eq_false]
      intro hagg
      rw [hseg, hagg] at ha
      cases ha
  · rintro ⟨hseg, hagg⟩
    refine near_value_takes hf (only_local hsym hlocal) fun p g s _ =>
      ⟨⟨g.ds, s.vreg sym.vreg⟩, ?_, local_value hisr hsym hglobal hseg hlocal⟩
    rw [hstorage, hseg, hagg]
    rfl

end Evaluated

theorem AddrOperand.name_hasAddress : (AddrOperand.name n).HasAddress c far =
    if (findFunction c n).isSome then NotShadowed c n
    else
      match symLookup c n with
      | none => isIsr c n = true
      | some sym =>
        if sym.isStackLocal then InFrame c n sym
        else
          isIsr c n = true ∨ far = true ∨
            if sym.isGlobal then typeIsScalar sym.type = false
            else sym.vregSeg = none ∧ typeIsAggregate sym.type = true := rfl

theorem name_takes_iff (haccept : (AddrOperand.name n).Accepted c far) :
    (AddrOperand.name n).TakesAddress f c far ↔ (AddrOperand.name n).HasAddress c far := by
  rw [AddrOperand.name_hasAddress]
  cases hf : (findFunction c n).isSome with
  | true =>
    rw [if_pos rfl]
    exact function_takes_iff hf
  | false =>
    rw [if_neg Bool.false_ne_true]
    cases hsym : symLookup c n with
    | none => exact unknown_takes_iff haccept hf hsym
    | some sym =>
      show _ ↔ if sym.isStackLocal = true then _ else _
      cases hlocal : sym.isStackLocal with
      | true =>
        rw [if_pos rfl]
        exact slot_takes_iff hf hsym hlocal
      | false =>
        rw [if_neg Bool.false_ne_true]
        cases far with
        | true => exact iff_of_true (far_takes haccept hf hsym hlocal) (Or.inr (Or.inl rfl))
        | false =>
          cases hisr : isIsr c n with
          | true =>
            exact iff_of_true (isr_takes hf hisr (only_local hsym hlocal)) (Or.inl rfl)
          | false =>
            rw [or_iff_right Bool.false_ne_true, or_iff_right Bool.false_ne_true]
            cases hglobal : sym.isGlobal with
            | true => exact global_takes_iff hf hisr hsym hlocal hglobal
            | false => exact local_takes_iff hf hisr hsym hlocal hglobal

end Names

end Nib.Compile
