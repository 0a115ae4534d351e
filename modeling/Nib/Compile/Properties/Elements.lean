import Nib.Compile.Spec.Elements
import Nib.Compile.Properties.FarValues

/-!
# Which accesses are those of the element

* `emitIndex_eq`, `emitCheckedIndex_eq`, `emitIndexStore_elements` — the accesses of the compiler
* `run_load`, `run_far`, `run_reference` — what a load leaves
* `accesses_exact_iff` — when an access is one of the element
-/

namespace Nib.Compile

open Nib.Infra Compile

/-! ## The accesses of the compiler -/

theorem emitIndex_eq (array index : ExprEmit) :
    emitIndex array index = (do
      let arr ← array.typed
      let idx ← index.typed
      indexTypeErrors arr.type idx.type
      match arr.type with
      | some (.array t n) => (Element.mk arr.vreg idx.vreg t n).emitLoad
      | _ => (Element.mk arr.vreg idx.vreg .u8 0).emitLoad) := by
  refine congrArg (array.typed >>= ·) (funext fun arr => ?_)
  refine congrArg (index.typed >>= ·) (funext fun idx => ?_)
  refine congrArg (indexTypeErrors arr.type idx.type >>= ·) (funext fun _ => ?_)
  cases arr.type with
  | none => rfl
  | some t => cases t <;> rfl

theorem emitCheckedIndex_eq (array index : ExprEmit) :
    emitCheckedIndex array index = (do
      let arr ← array.typed
      let idx ← index.typed
      indexTypeErrors arr.type idx.type
      match arr.type with
      | some (.array t n) => (Element.mk arr.vreg idx.vreg t n).emitChecked
      | some (.bcd n) => (Element.mk arr.vreg idx.vreg .u8 n).emitChecked
      | _ => (Element.mk arr.vreg idx.vreg .u8 0).emitChecked) := by
  refine congrArg (array.typed >>= ·) (funext fun arr => ?_)
  refine congrArg (index.typed >>= ·) (funext fun idx => ?_)
  refine congrArg (indexTypeErrors arr.type idx.type >>= ·) (funext fun _ => ?_)
  cases arr.type with
  | none => rfl
  | some t => cases t <;> rfl

theorem emitIndexStore_elements (array index : Expr) (val : TypedVreg) :
    emitIndexStore array index val = (do
      let arr ← emitExprTyped array
      let idx ← emitExprTyped index
      match arr.type with
      | some (.array t n) => (Element.mk arr.vreg idx.vreg t n).emitStore val
      | _ => emitOp .store [.elem arr.vreg idx.vreg, .vreg val.vreg]) := by
  refine congrArg (emitExprTyped array >>= ·) (funext fun arr => ?_)
  refine congrArg (emitExprTyped index >>= ·) (funext fun idx => ?_)
  cases arr.type with
  | none => rfl
  | some t =>
    cases t
    case array elem n => cases elem <;> rfl
    all_goals rfl

/-! ## Bytes -/

theorem length_bytesAt (a : BitVec 16) (n : Nat) : (bytesAt a n).length = n := by
  simp [bytesAt]

theorem bytesAt_add (a : BitVec 16) (m n : Nat) :
    bytesAt a m ++ bytesAt (a + BitVec.ofNat 16 m) n = bytesAt a (m + n) := by
  simp [bytesAt, List.range_add, BitVec.add_assoc, BitVec.ofNat_add, Function.comp_def]

theorem bytesAt_inj {a b : BitVec 16} {n : Nat} (hn : 0 < n) (h : bytesAt a n = bytesAt b n) :
    a = b := by
  obtain ⟨n, rfl⟩ := Nat.exists_eq_succ_of_ne_zero (Nat.ne_of_gt hn)
  simp only [bytesAt, List.range_succ_eq_map, List.map_cons, List.cons.injEq] at h
  simpa using h.1

theorem writeBytes_byte (m : Memory) (a x : BitVec 16) :
    writeBytes m a [low x] = write true m a x := by
  funext b
  simp [writeBytes, write]

theorem writeBytes_word (m : Memory) (a x : BitVec 16) (rest : List (BitVec 8)) :
    writeBytes m a (low x :: high x :: rest) = writeBytes (write false m a x) (a + 2) rest := by
  have hne : a ≠ a + 1 := by bv_omega
  have hadd : a + 1 + 1 = a + 2 := by bv_omega
  have hword : (fun b => if b = a + 1 then high x else if b = a then low x else m b) =
      write false m a x := by
    funext b
    unfold write
    by_cases hb : b = a
    · subst hb
      rw [if_neg hne, if_pos rfl, if_pos rfl]
    · rw [if_neg hb, if_neg hb]
      simp only [true_and]
  rw [writeBytes, writeBytes, hadd, hword]

/-! ## What a load leaves -/

section Run

variable {f : String → Memory → BitVec 16 → BitVec 16} {c : Compiler} {e : Element}
variable {s : IrState}

-- The lines of an access are written out and carried out.
attribute [local simp] Element.emitLoad Element.emitChecked Element.emitStore emitScaledIndex
  emitFarHalves elemShift loadOp storeOp typeIsAggregate tv tvFar bind pure emitOp print
  allocVreg execAll elementExec SeenState.start SeenState.loadWord SeenState.loadByte
  SeenState.store MachState.setVreg

/-- The offset that is added to the start of the array. -/
def Element.offset (e : Element) (s : IrState) : BitVec 16 :=
  s.vreg e.index <<< (elemShift e.type).toNat

theorem run_load (h : e.Ready c) (hfar : e.type ≠ .far)
    (href : byReference (some e.type) = false) :
    let v := (e.emitLoad c).value
    let t := execAll (elementExec f) (e.emitLoad c).lines (SeenState.start s)
    let a := s.vreg e.base + e.offset s
    v.vregSeg = none ∧
      t.rest = { mem := s.rest, reads := bytesAt a (if e.type = .u8 then 1 else 2) } ∧
      t.vreg v.vreg = if e.type = .u8 then zeroExtend (s.rest a) else readWord s.rest a := by
  obtain ⟨base, index, type, length⟩ := e
  have hb : base ≠ c.nextVreg := Int.ne_of_lt h.base
  cases type
  case far => exact absurd rfl hfar
  case array => cases href
  case bcd => cases href
  case struct => cases href
  all_goals
    simp [Element.offset, hb]

theorem run_reference (h : e.Ready c) (href : byReference (some e.type) = true) :
    let v := (e.emitLoad c).value
    let t := execAll (elementExec f) (e.emitLoad c).lines (SeenState.start s)
    t.rest = { mem := s.rest } ∧ t.vreg v.vreg = s.vreg e.base + s.vreg e.index := by
  obtain ⟨base, index, type, length⟩ := e
  cases type
  case array | bcd | struct =>
    simp
  all_goals cases href

theorem readFar_bytes (m : Memory) (a : BitVec 16) :
    [low (readWord m a), high (readWord m a), low (readWord m (a + 2)),
      high (readWord m (a + 2))] = (bytesAt a 4).map m := by
  simp only [readWord, low_joinBytes, high_joinBytes, BitVec.add_assoc]
  simp [bytesAt, List.range_succ]

theorem run_far (h : e.Ready c) (hfar : e.type = .far) :
    let v := (e.emitLoad c).value
    let t := execAll (elementExec f) (e.emitLoad c).lines (SeenState.start s)
    let a := s.vreg e.base + e.offset s
    t.rest = { mem := s.rest, reads := bytesAt a 4 } ∧
      v.bytes t.vreg = (bytesAt a 4).map s.rest := by
  obtain ⟨base, index, type, length⟩ := e
  subst hfar
  have hb : base ≠ c.nextVreg := Int.ne_of_lt h.base
  have hk : c.nextVreg ≠ c.nextVreg + 1 := by omega
  intro v t a
  have hreads : t.rest = { mem := s.rest, reads := bytesAt a 2 ++ bytesAt (a + 2) 2 } := by
    simp [t, a, Element.offset, hb, hk]
  have hbytes : v.bytes t.vreg = [low (readWord s.rest a), high (readWord s.rest a),
      low (readWord s.rest (a + 2)), high (readWord s.rest (a + 2))] := by
    simp [v, t, a, TypedVreg.bytes, Element.offset, hb, hk]
  rw [hreads, hbytes, readFar_bytes]
  exact ⟨congrArg (fun r => ({ mem := s.rest, reads := r } : SeenMemory)) (bytesAt_add a 2 2), rfl⟩

theorem run_checked (h : e.Ready c) :
    let v := (e.emitChecked c).value
    let t := execAll (elementExec f) (e.emitChecked c).lines (SeenState.start s)
    let a := s.vreg e.base + e.offset s
    v.vregSeg = none ∧
      t.rest = { mem := s.rest, reads := bytesAt a (if e.type = .u8 then 1 else 2) } ∧
      t.vreg v.vreg = if e.type = .u8 then zeroExtend (s.rest a) else readWord s.rest a := by
  obtain ⟨base, index, type, length⟩ := e
  have hb : base ≠ c.nextVreg := Int.ne_of_lt h.base
  cases type
  all_goals
    simp [Element.offset, hb]

/-! ## What a store leaves -/

theorem run_store (h : e.Ready c) (hfar : e.type ≠ .far) {val : TypedVreg}
    (hval : val.vreg < c.nextVreg) :
    let t := execAll (elementExec f) (e.emitStore val c).lines (SeenState.start s)
    let a := s.vreg e.base + e.offset s
    t.rest = { mem := write (decide (e.type = .u8)) s.rest a (s.vreg val.vreg),
               writes := bytesAt a (if e.type = .u8 then 1 else 2) } := by
  obtain ⟨base, index, type, length⟩ := e
  have hb : base ≠ c.nextVreg := Int.ne_of_lt h.base
  have hv : val.vreg ≠ c.nextVreg := Int.ne_of_lt hval
  cases type
  case far => exact absurd rfl hfar
  all_goals
    simp [Element.offset, hb, hv]

theorem run_store_pair (h : e.Ready c) (hfar : e.type = .far) {val : TypedVreg} {seg : Int}
    (hval : val.vreg < c.nextVreg) (hseg : val.vregSeg = some seg) (hlt : seg < c.nextVreg) :
    let t := execAll (elementExec f) (e.emitStore val c).lines (SeenState.start s)
    let a := s.vreg e.base + e.offset s
    t.rest = { mem := write false (write false s.rest a (s.vreg val.vreg)) (a + 2) (s.vreg seg),
               writes := bytesAt a 4 } := by
  obtain ⟨base, index, type, length⟩ := e
  subst hfar
  have hb : base < c.nextVreg := h.base
  intro t a
  have hrun : t.rest =
      { mem := write false (write false s.rest a (s.vreg val.vreg)) (a + 2) (s.vreg seg),
        writes := bytesAt a 2 ++ bytesAt (a + 2) 2 } := by
    simp [t, a, Element.offset, hseg, Int.ne_of_lt hb, Int.ne_of_lt hval, Int.ne_of_lt hlt,
      Int.ne_of_lt (Int.lt_add_one_of_le (Int.le_of_lt hb)),
      Int.ne_of_lt (Int.lt_add_one_of_le (Int.le_of_lt hlt)), BitVec.add_assoc]
  rw [hrun]
  exact congrArg (fun w => SeenMemory.mk _ [] w []) (bytesAt_add a 2 2)

theorem run_store_memory (h : e.Ready c) (hfar : e.type = .far) {val : TypedVreg}
    (hval : val.vreg < c.nextVreg) (hseg : val.vregSeg = none) :
    let t := execAll (elementExec f) (e.emitStore val c).lines (SeenState.start s)
    let a := s.vreg e.base + e.offset s
    let b := s.vreg val.vreg
    t.rest = { mem := write false (write false s.rest a (readWord s.rest b)) (a + 2)
                 (readWord s.rest (b + 2)),
               reads := bytesAt b 4, writes := bytesAt a 4 } := by
  obtain ⟨base, index, type, length⟩ := e
  subst hfar
  have hb : base < c.nextVreg := h.base
  intro t a b
  have hrun : t.rest =
      { mem := write false (write false s.rest a (readWord s.rest b)) (a + 2)
          (readWord s.rest (b + 2)),
        reads := bytesAt b 2 ++ bytesAt (b + 2) 2,
        writes := bytesAt a 2 ++ bytesAt (a + 2) 2 } := by
    have hb1 : base ≠ c.nextVreg + 1 := by omega
    have hb2 : base ≠ c.nextVreg + 1 + 1 := by omega
    have hb3 : base ≠ c.nextVreg + 1 + 1 + 1 := by omega
    have hv1 : val.vreg ≠ c.nextVreg + 1 := by omega
    have h01 : c.nextVreg ≠ c.nextVreg + 1 := by omega
    have h02 : c.nextVreg ≠ c.nextVreg + 1 + 1 := by omega
    simp [t, a, b, Element.offset, hseg, Int.ne_of_lt hb, Int.ne_of_lt hval, hb1, hb2, hb3, hv1,
      h01, h02, BitVec.add_assoc]
  rw [hrun]
  exact congrArg₂ (fun r w => SeenMemory.mk _ r w []) (bytesAt_add b 2 2) (bytesAt_add a 2 2)

/-! ## The address of an element -/

theorem offset_eq (c : Compiler) (ht : IsShifted e.type) :
    e.offset s = s.vreg e.index * BitVec.ofInt 16 (typeSize c e.type) := by
  obtain ⟨base, index, type, length⟩ := e
  unfold Element.offset
  rw [BitVec.shiftLeft_eq_mul_twoPow]
  cases type <;> first | rfl | exact ht.elim

theorem addr_of_shifted (c : Compiler) (ht : IsShifted e.type) :
    s.vreg e.base + e.offset s = e.addr c s := by
  rw [offset_eq c ht]
  rfl

theorem addr_of_unscaled (h : e.Unscaled c) (hs : e.InBounds s) :
    s.vreg e.base + s.vreg e.index = e.addr c s := by
  unfold Element.addr
  rcases h with h | h
  · have hzero : s.vreg e.index = 0#16 := by
      have := hs
      unfold Element.InBounds at this
      exact BitVec.eq_of_toNat_eq (by simp; omega)
    rw [hzero, BitVec.zero_mul]
  · have hone : BitVec.ofInt 16 (typeSize c e.type) = 1#16 := by
      rw [← BitVec.toNat_inj, BitVec.toNat_ofInt, BitVec.toNat_ofNat]
      omega
    rw [hone, BitVec.mul_one]

/-- The state in which every vreg is `x`. -/
def constState (x : BitVec 16) : IrState :=
  { vreg := fun _ => x, flag := fun _ => false, rest := fun _ => 0 }

theorem unscaled_of_addr
    (h : ∀ s, e.InBounds s → s.vreg e.base + s.vreg e.index = e.addr c s) : e.Unscaled c := by
  by_cases hle : e.length ≤ 1
  · exact Or.inl hle
  · right
    have hadd := h (constState 1) (show ((1 : Nat) : Int) < e.length by omega)
    have hmul : 1#16 + 1#16 = 1#16 + 1#16 * BitVec.ofInt 16 (typeSize c e.type) := hadd
    rw [BitVec.one_mul] at hmul
    have hone := congrArg BitVec.toNat ((BitVec.add_right_inj 1#16).mp hmul)
    rw [BitVec.toNat_ofInt, BitVec.toNat_ofNat] at hone
    omega

theorem inBounds_zero (h : 0 < e.length) : e.InBounds (constState 0) := h

theorem not_inBounds (h : e.length ≤ 0) : ¬e.InBounds s := by
  unfold Element.InBounds
  omega

/-! ## Values -/

section Values

variable {type : Option Ty} {a : BitVec 16} {m : Memory} {v : TypedVreg} {t : SeenState}

/-- What reads a byte or a word reads an object of that size. -/
theorem DeliversObject.isWord (h : DeliversObject c type a m v t)
    (hreads : t.rest.reads.length = if type = some .u8 then 1 else 2) :
    ∃ ty, type = some ty ∧ IsShifted ty ∧ ty ≠ .far := by
  unfold DeliversObject at h
  by_cases href : byReference type = true
  · rw [if_pos href] at h
    rw [h.1] at hreads
    split at hreads <;> cases hreads
  · rw [if_neg href] at h
    rw [h.1, length_bytesAt] at hreads
    match type with
    | none => cases hreads
    | some .u8 => exact ⟨.u8, rfl, trivial, nofun⟩
    | some .u16 => exact ⟨.u16, rfl, trivial, nofun⟩
    | some .seg => exact ⟨.seg, rfl, trivial, nofun⟩
    | some .u32 | some .bool | some .far | some .void => cases hreads
    | some (.array ..) | some (.bcd _) | some (.struct _) => exact absurd rfl href

theorem delivers_word {ty : Ty} (hty : IsShifted ty) (hfar : ty ≠ .far) (hseg : v.vregSeg = none)
    (hrest : t.rest = { mem := m, reads := bytesAt a (if ty = .u8 then 1 else 2) })
    (hv : t.vreg v.vreg = if ty = .u8 then zeroExtend (m a) else readWord m a) :
    DeliversObject c (some ty) a m v t := by
  cases ty
  case u8 =>
    refine ⟨hrest, ?_⟩
    rw [if_pos rfl] at hv
    simp [TypedVreg.bytes, hseg, hv, zeroExtend, bytesAt, typeSizeOpt, typeSize, typeSizeWith]
  case u16 | seg =>
    refine ⟨hrest, ?_⟩
    rw [if_neg (by decide)] at hv
    simp [TypedVreg.bytes, hseg, hv, readWord, bytesAt, typeSizeOpt, typeSize, typeSizeWith,
      List.range_succ]
  case far => exact absurd rfl hfar
  all_goals exact hty.elim

theorem delivers_far (hrest : t.rest = { mem := m, reads := bytesAt a 4 })
    (hv : v.bytes t.vreg = (bytesAt a 4).map m) : DeliversObject c (some .far) a m v t := by
  refine ⟨hrest, ?_⟩
  rw [hv]
  exact List.take_of_length_le (by simp [length_bytesAt, typeSizeOpt, typeSize, typeSizeWith])

theorem delivers_reference (href : byReference type = true) :
    DeliversObject c type a m v t ↔ t.rest = { mem := m } ∧ t.vreg v.vreg = a := by
  unfold DeliversObject
  rw [if_pos href]

/-! ### Values that are stored -/

variable {ty : Ty} {val : TypedVreg}

theorem not_shifted_of_reference (href : byReference (some ty) = true) :
    ¬IsShifted ty := by
  cases ty <;> first | exact id | cases href

theorem source_eq_none (hty : IsShifted ty) (hfar : ty ≠ .far ∨ val.vregSeg ≠ none) :
    val.source ty s = none := by
  refine if_neg ?_
  rintro (href | ⟨hf, hseg⟩)
  · exact not_shifted_of_reference href hty
  · exact hfar.elim (fun h => h hf) (fun h => h hseg)

theorem stores_word (hty : IsShifted ty) (hfar : ty ≠ .far)
    (hrest : t.rest = { mem := write (decide (ty = .u8)) s.rest a (s.vreg val.vreg),
                        writes := bytesAt a (if ty = .u8 then 1 else 2) }) :
    StoresObject c ty a val s t := by
  unfold StoresObject
  rw [source_eq_none hty (Or.inl hfar)]
  cases ty
  case u8 =>
    show t.rest = { mem := writeBytes s.rest a [low (s.vreg val.vreg)], writes := bytesAt a 1 }
    rw [writeBytes_byte]
    exact hrest
  case u16 | seg =>
    show t.rest = { mem := writeBytes s.rest a (low (s.vreg val.vreg) :: high (s.vreg val.vreg) ::
      (val.vregSeg.toList.flatMap _).take 0), writes := bytesAt a 2 }
    rw [writeBytes_word]
    exact hrest
  case far => exact absurd rfl hfar
  all_goals exact hty.elim

theorem stores_pair {seg : Int} (hseg : val.vregSeg = some seg)
    (hrest : t.rest = { mem := write false (write false s.rest a (s.vreg val.vreg)) (a + 2)
                          (s.vreg seg), writes := bytesAt a 4 }) :
    StoresObject c .far a val s t := by
  have hsource : val.source .far s = none :=
    source_eq_none trivial (Or.inr (by rw [hseg]; exact Option.some_ne_none seg))
  unfold StoresObject
  rw [hsource]
  have hbytes : val.bytes s.vreg = [low (s.vreg val.vreg), high (s.vreg val.vreg),
      low (s.vreg seg), high (s.vreg seg)] := by
    rw [TypedVreg.bytes, hseg]
    rfl
  show t.rest = { mem := writeBytes s.rest a ((val.bytes s.vreg).take 4), writes := bytesAt a 4 }
  rw [hbytes, hrest]
  show _ = SeenMemory.mk (writeBytes s.rest a [_, _, _, _]) _ _ _
  rw [writeBytes_word, writeBytes_word]
  rfl

theorem stores_memory (hseg : val.vregSeg = none)
    (hrest : t.rest = { mem := write false (write false s.rest a
                          (readWord s.rest (s.vreg val.vreg))) (a + 2)
                          (readWord s.rest (s.vreg val.vreg + 2)),
                        reads := bytesAt (s.vreg val.vreg) 4, writes := bytesAt a 4 }) :
    StoresObject c .far a val s t := by
  have hsource : val.source .far s = some (s.vreg val.vreg) := if_pos (Or.inr ⟨rfl, hseg⟩)
  unfold StoresObject
  rw [hsource]
  show t.rest = { mem := writeBytes s.rest a ((bytesAt (s.vreg val.vreg) 4).map s.rest),
                  reads := bytesAt (s.vreg val.vreg) 4, writes := bytesAt a 4 }
  rw [← readFar_bytes, writeBytes_word, writeBytes_word, hrest]
  rfl

/-- What writes a byte or a word, and reads nothing, stores an object of that size. -/
theorem StoresObject.isWord (h : StoresObject c ty a val s t) (hfar : ty ≠ .far)
    (hreads : t.rest.reads = [])
    (hwrites : t.rest.writes.length = if ty = .u8 then 1 else 2) : IsShifted ty := by
  unfold StoresObject at h
  cases hsource : val.source ty s with
  | some b =>
    rw [hsource] at h
    have hr := congrArg (fun r => r.reads.length) h
    have hw := congrArg (fun r => r.writes.length) h
    simp only [hreads, hwrites, length_bytesAt, List.length_nil] at hr hw
    rw [← hr] at hw
    split at hw <;> cases hw
  | none =>
    have href : byReference (some ty) ≠ true := by
      intro href
      rw [TypedVreg.source, if_pos (Or.inl href)] at hsource
      cases hsource
    rw [hsource] at h
    have hw := congrArg (fun r => r.writes.length) h
    simp only [hwrites, length_bytesAt] at hw
    cases ty
    case u8 | u16 | seg => trivial
    case far => exact absurd rfl hfar
    case u32 | bool | void => cases hw
    all_goals exact absurd rfl href

end Values

/-! ## Loads and addresses -/

namespace ElementAccess

theorem load_exact_iff (h : e.Ready c) : Exact f c e .load ↔ load.Scales c e := by
  by_cases hlen : e.length ≤ 0
  · exact ⟨fun _ => Or.inl hlen, fun _ s hs => absurd hs (not_inBounds hlen)⟩
  by_cases href : byReference (some e.type) = true
  · constructor
    · intro hx
      refine Or.inr (Or.inr ⟨href, unscaled_of_addr fun s hs => ?_⟩)
      rw [← (run_reference (f := f) h href).2]
      exact ((delivers_reference href).mp (hx s hs)).2
    · rintro (hle | hty | ⟨-, hun⟩) s hs
      · exact absurd hle hlen
      · exact absurd hty (not_shifted_of_reference href)
      · have hrun := run_reference (f := f) (s := s) h href
        exact (delivers_reference href).mpr ⟨hrun.1, hrun.2.trans (addr_of_unscaled hun hs)⟩
  · rw [Bool.not_eq_true] at href
    by_cases hfar : e.type = .far
    · have hty : IsShifted e.type := hfar ▸ trivial
      refine ⟨fun _ => Or.inr (Or.inl hty), fun _ s _ => ?_⟩
      have hrun := run_far (f := f) (s := s) h hfar
      rw [addr_of_shifted c hty] at hrun
      show DeliversObject c (some e.type) _ _ _ _
      rw [hfar]
      exact delivers_far hrun.1 hrun.2
    · constructor
      · intro hx
        obtain ⟨-, hrest, -⟩ := run_load (f := f) (s := constState 0) h hfar href
        have hd : DeliversObject c (some e.type) (e.addr c (constState 0)) (constState 0).rest
          (e.emitLoad c).value
          (execAll (elementExec f) (e.emitLoad c).lines (SeenState.start (constState 0))) :=
          hx _ (inBounds_zero (Int.not_le.mp hlen))
        obtain ⟨ty, hsome, hty, -⟩ := hd.isWord (by rw [hrest]; simp [length_bytesAt])
        cases hsome
        exact Or.inr (Or.inl hty)
      · rintro (hle | hty | ⟨href', -⟩) s hs
        · exact absurd hle hlen
        · obtain ⟨hseg, hrest, hv⟩ := run_load (f := f) (s := s) h hfar href
          rw [addr_of_shifted c hty] at hrest hv
          exact delivers_word hty hfar hseg hrest hv
        · rw [href] at href'
          cases href'

theorem checked_exact_iff (h : e.Ready c) : Exact f c e .checked ↔ checked.Scales c e := by
  by_cases hlen : e.length ≤ 0
  · exact ⟨fun _ => Or.inl hlen, fun _ s hs => absurd hs (not_inBounds hlen)⟩
  constructor
  · intro hx
    obtain ⟨-, hrest, -⟩ := run_checked (f := f) (s := constState 0) h
    have hd : DeliversObject c (some e.type) (e.addr c (constState 0)) (constState 0).rest
      (e.emitChecked c).value
      (execAll (elementExec f) (e.emitChecked c).lines (SeenState.start (constState 0))) :=
      hx _ (inBounds_zero (Int.not_le.mp hlen))
    obtain ⟨ty, hsome, hty, hne⟩ := hd.isWord (by rw [hrest]; simp [length_bytesAt])
    cases hsome
    exact Or.inr ⟨hty, hne⟩
  · rintro (hle | ⟨hty, hfar⟩) s hs
    · exact absurd hle hlen
    · obtain ⟨hseg, hrest, hv⟩ := run_checked (f := f) (s := s) h
      rw [addr_of_shifted c hty] at hrest hv
      exact delivers_word hty hfar hseg hrest hv

/-- A load that touches memory reads it. -/
theorem reads_of_value (h : e.Ready c) (href : byReference (some e.type) = false) :
    (execAll (elementExec f) (e.emitLoad c).lines (SeenState.start s)).rest.reads ≠ [] := by
  intro hnil
  have hlen := congrArg List.length hnil
  by_cases hfar : e.type = .far
  · rw [(run_far h hfar).1, length_bytesAt] at hlen
    cases hlen
  · rw [(run_load h hfar href).2.1, length_bytesAt] at hlen
    split at hlen <;> cases hlen

/-- The address is moved to a vreg of its own. -/
theorem run_address :
    let v := (emit e .address c).value
    let t := execAll (elementExec f) (emit e .address c).lines (SeenState.start s)
    let t' := execAll (elementExec f) (e.emitLoad c).lines (SeenState.start s)
    t.rest = t'.rest ∧ t.vreg v.vreg = t'.vreg (e.emitLoad c).value.vreg := by
  simp [emit, emitUnopValue]

theorem address_exact_iff (h : e.Ready c) : Exact f c e .address ↔ address.Scales c e := by
  by_cases hlen : e.length ≤ 0
  · exact ⟨fun _ => Or.inl hlen, fun _ s hs => absurd hs (not_inBounds hlen)⟩
  constructor
  · intro hx
    have href : byReference (some e.type) = true := by
      rw [← Bool.not_eq_false]
      intro href
      refine reads_of_value (f := f) (s := constState 0) h href ?_
      rw [← (run_address (f := f)).1]
      exact congrArg SeenMemory.reads (hx _ (inBounds_zero (Int.not_le.mp hlen))).1
    refine Or.inr ⟨href, unscaled_of_addr fun s hs => ?_⟩
    rw [← (run_reference (f := f) h href).2, ← (run_address (f := f)).2]
    exact (hx s hs).2
  · rintro (hle | ⟨href, hun⟩) s hs
    · exact absurd hle hlen
    · have hrun := run_reference (f := f) (s := s) h href
      have haddr := run_address (f := f) (c := c) (e := e) (s := s)
      exact ⟨haddr.1.trans hrun.1, haddr.2.trans (hrun.2.trans (addr_of_unscaled hun hs))⟩

/-! ## Stores -/

theorem store_exact_iff (h : e.Ready c) {val : TypedVreg} (hval : (store val).Ready c) :
    Exact f c e (.store val) ↔ (store val).Scales c e := by
  by_cases hlen : e.length ≤ 0
  · exact ⟨fun _ => Or.inl hlen, fun _ s hs => absurd hs (not_inBounds hlen)⟩
  -- The run of the access is that of the store.
  have hexact : Exact f c e (.store val) ↔ ∀ s, e.InBounds s → StoresObject c e.type
      (e.addr c s) val s (execAll (elementExec f) (e.emitStore val c).lines
        (SeenState.start s)) := by
    rw [← List.append_nil (e.emitStore val c).lines]
    exact Iff.rfl
  rw [hexact]
  by_cases hfar : e.type = .far
  · have hty : IsShifted e.type := hfar ▸ trivial
    refine ⟨fun _ => Or.inr hty, fun _ s _ => ?_⟩
    rw [← addr_of_shifted c hty, hfar]
    cases hseg : val.vregSeg with
    | some seg =>
      exact stores_pair hseg (run_store_pair h hfar hval.1 hseg (hval.2 seg hseg))
    | none => exact stores_memory hseg (run_store_memory h hfar hval.1 hseg)
  · constructor
    · intro hx
      have hrun := run_store (f := f) (s := constState 0) h hfar hval.1
      have hd := hx _ (inBounds_zero (Int.not_le.mp hlen))
      exact Or.inr (hd.isWord hfar (congrArg SeenMemory.reads hrun)
        ((congrArg (fun r => r.writes.length) hrun).trans (length_bytesAt ..)))
    · rintro (hle | hty) s hs
      · exact absurd hle hlen
      · rw [← addr_of_shifted c hty]
        exact stores_word hty hfar (run_store h hfar hval.1)

end ElementAccess

/-! ## Fields -/

/-- The part of `emitStructFieldValue` that reads what lies at an address. -/
def emitObjectValue (l : FieldLayout) (addr : Int) : Compile TypedVreg := do
  if l.storageType = some .far then
    let offV ← allocVreg
    let segTmp ← allocVreg
    let segV ← allocVreg
    emitOp .load [.vreg offV, .vreg addr]
    let segAddr ← emitAddrPlusConst addr 2
    emitOp .load [.vreg segTmp, .vreg segAddr]
    emitSegMove segV segTmp
    tvFar offV segV
  else if typeIsAggregate l.storageType then tv addr l.accessType
  else
    let dst ← allocVreg
    emitOp (loadOp l.storageType) [.vreg dst, .vreg addr]
    tv dst l.accessType

/-- The part of `emitStructFieldValue` that reads a field of a known layout. -/
def emitFieldValue (obj : Int) (name : String) (l : FieldLayout) : Compile TypedVreg := do
  if l.isBits then
    let dst ← allocVreg
    emitOp .field [.vreg dst, .vreg obj, .name name]
    tv dst l.accessType
  else
    let addr ← emitAddrPlusConst obj l.byteOffset
    emitObjectValue l addr

theorem structFieldLayout_found {type : Option Ty} {name : String} {raw : Bool}
    {l : FieldLayout} {c' : Compiler} (hs : c'.structs = c.structs)
    (h : (structFieldLayout type name raw c).value = some l) :
    structFieldLayout type name raw c' = ⟨some l, [], c'⟩ := by
  cases type with
  | none => cases h
  | some ty =>
    cases ty
    case struct sname =>
      have hfind : findStruct c' sname = findStruct c sname := by
        unfold findStruct
        rw [hs]
      have hsize : typeSize c' = typeSize c := by
        funext ty
        unfold typeSize
        rw [hs]
      simp only [structFieldLayout, bind, getState] at h ⊢
      rw [hfind, hsize]
      cases hf : findStruct c sname with
      | none =>
        rw [hf] at h
        cases h
      | some sg =>
        rw [hf] at h
        simp only at h ⊢
        cases hl : findField (typeSize c) sg.aligned name raw 0 sg.fields with
        | none =>
          rw [hl] at h
          cases h
        | some l' =>
          rw [hl] at h
          cases h
          rfl
    all_goals cases h

theorem emitStructFieldValue_eq {obj : TypedVreg} (h : obj.type ≠ some .far) (name : String)
    (raw : Bool) : emitStructFieldValue obj name raw = (do
      let layout ← structFieldLayout obj.type name raw
      match layout with
      | none =>
        let v ← allocVreg
        tv v (some .u16)
      | some l => emitFieldValue obj.vreg name l) := by
  unfold emitStructFieldValue
  rw [if_neg h]
  rfl

theorem bind_eq_of_silent {α β : Type} {m : Compile α} {k : α → Compile β} {a : α}
    (h : m c = ⟨a, [], c⟩) : (m >>= k) c = k a c := by
  simp only [bind, h]
  rfl

theorem bind_congr_at {α β : Type} {m : Compile α} {k k' : α → Compile β}
    (h : k (m c).value (m c).state = k' (m c).value (m c).state) : (m >>= k) c = (m >>= k') c := by
  simp only [bind, h]

theorem emitField_eq {name : String} {l : FieldLayout}
    (hfl : ElementAccess.fieldOf c e name = some l) :
    byReference (some e.type) = true ∧ (ElementAccess.field name).emit e c = (do
      let obj ← e.emitLoad
      emitFieldValue obj.vreg name l) c := by
  obtain ⟨base, index, type, length⟩ := e
  cases type
  case struct sname =>
    refine ⟨rfl, bind_congr_at ?_⟩
    have hstruct : TypedVreg.type { vreg := c.nextVreg, type := some (.struct sname) } ≠
        some .far := nofun
    refine (congrFun (emitStructFieldValue_eq hstruct name false) _).trans ?_
    have hfound : structFieldLayout (some (.struct sname)) name false
        { c with nextVreg := c.nextVreg + 1 } =
          ⟨some l, [], { c with nextVreg := c.nextVreg + 1 }⟩ :=
      structFieldLayout_found (c := c) rfl hfl
    exact bind_eq_of_silent hfound
  all_goals cases hfl

/-! ### What a field leaves -/

variable {t : SeenState} {m : Memory} {l : FieldLayout}

theorem run_addr {o : Int} (off : Int) (ho : o < c.nextVreg) :
    let r := emitAddrPlusConst o off c
    let t' := execAll (elementExec f) r.lines t
    t'.rest = t.rest ∧ t'.vreg r.value = t.vreg o + BitVec.ofInt 16 off ∧
      r.value < r.state.nextVreg := by
  unfold emitAddrPlusConst
  by_cases h : off = 0
  · rw [if_pos h]
    refine ⟨rfl, ?_, ho⟩
    rw [h]
    exact (BitVec.add_zero _).symm
  · rw [if_neg h]
    refine ⟨rfl, setVreg_self .., ?_⟩
    show c.nextVreg < c.nextVreg + 1
    omega

theorem run_object_far {a : Int} (ha : a < c.nextVreg) (hfar : l.storageType = some .far)
    (hrest : t.rest = { mem := m }) :
    let v := (emitObjectValue l a c).value
    let t' := execAll (elementExec f) (emitObjectValue l a c).lines t
    t'.rest = { mem := m, reads := bytesAt (t.vreg a) 4 } ∧
      v.bytes t'.vreg = (bytesAt (t.vreg a) 4).map m := by
  have h0 : a ≠ c.nextVreg := by omega
  have h01 : c.nextVreg ≠ c.nextVreg + 1 := by omega
  have h02 : c.nextVreg ≠ c.nextVreg + 1 + 1 := by omega
  have h03 : c.nextVreg ≠ c.nextVreg + 1 + 1 + 1 := by omega
  intro v t'
  have hreads : t'.rest =
      { mem := m, reads := bytesAt (t.vreg a) 2 ++ bytesAt (t.vreg a + 2) 2 } := by
    simp [t', emitObjectValue, emitAddrPlusConst, emitSegMove, hfar, hrest, h0]
  have hbytes : v.bytes t'.vreg = [low (readWord m (t.vreg a)), high (readWord m (t.vreg a)),
      low (readWord m (t.vreg a + 2)), high (readWord m (t.vreg a + 2))] := by
    simp [v, t', TypedVreg.bytes, emitObjectValue, emitAddrPlusConst, emitSegMove, hfar, hrest, h0,
      h01, h02, h03]
  rw [hreads, hbytes, readFar_bytes]
  exact ⟨congrArg (fun r => ({ mem := m, reads := r } : SeenMemory)) (bytesAt_add _ 2 2), rfl⟩

theorem run_object_reference {a : Int} (href : byReference l.storageType = true) :
    let v := (emitObjectValue l a c).value
    let t' := execAll (elementExec f) (emitObjectValue l a c).lines t
    t'.rest = t.rest ∧ t'.vreg v.vreg = t.vreg a := by
  unfold emitObjectValue
  match h : l.storageType with
  | none | some .u8 | some .u16 | some .u32 | some .seg | some .bool | some .far | some .void =>
    rw [h] at href
    cases href
  | some (.array ..) | some (.bcd _) | some (.struct _) =>
    cases hty : l.accessType with
    | none => exact ⟨rfl, rfl⟩
    | some ty => cases ty <;> exact ⟨rfl, rfl⟩

theorem run_tv (d : Int) (type : Option Ty) :
    (tv d type c).value.vreg = d ∧ (tv d type c).value.vregSeg = none ∧
      execAll (elementExec f) (tv d type c).lines t = t := by
  cases type with
  | none => exact ⟨rfl, rfl, rfl⟩
  | some ty => cases ty <;> exact ⟨rfl, rfl, rfl⟩

theorem run_object_word {a : Int} (hfar : l.storageType ≠ some .far)
    (href : byReference l.storageType = false) (hrest : t.rest = { mem := m }) :
    let v := (emitObjectValue l a c).value
    let t' := execAll (elementExec f) (emitObjectValue l a c).lines t
    v.vregSeg = none ∧
      t'.rest = { mem := m,
                  reads := bytesAt (t.vreg a) (if l.storageType = some .u8 then 1 else 2) } ∧
      t'.vreg v.vreg = if l.storageType = some .u8 then zeroExtend (m (t.vreg a))
        else readWord m (t.vreg a) := by
  have hagg : typeIsAggregate l.storageType = false := by
    match h : l.storageType with
    | none | some .u8 | some .u16 | some .u32 | some .seg | some .bool | some .void => rfl
    | some .far => exact absurd h hfar
    | some (.array ..) | some (.bcd _) | some (.struct _) =>
      rw [h] at href
      cases href
  unfold emitObjectValue
  rw [if_neg hfar, if_neg (by rw [hagg]; exact Bool.false_ne_true)]
  by_cases h8 : l.storageType = some .u8
  · have hload : loadOp l.storageType = .loadb := if_pos h8
    obtain ⟨hvreg, hseg, hrun⟩ := run_tv (f := f) (c := { c with nextVreg := c.nextVreg + 1 })
      (t := SeenState.loadByte t c.nextVreg (t.vreg a)) c.nextVreg l.accessType
    rw [hload, if_pos h8, if_pos h8]
    refine ⟨hseg, (congrArg MachState.rest hrun).trans ?_, ?_⟩
    · rw [SeenState.loadByte, hrest]
      rfl
    · refine (congrFun (congrArg MachState.vreg hrun) _).trans ?_
      refine (congrArg _ hvreg).trans ?_
      rw [SeenState.loadByte, hrest]
      exact setVreg_self ..
  · have hload : loadOp l.storageType = .load := if_neg h8
    obtain ⟨hvreg, hseg, hrun⟩ := run_tv (f := f) (c := { c with nextVreg := c.nextVreg + 1 })
      (t := SeenState.loadWord t c.nextVreg (t.vreg a)) c.nextVreg l.accessType
    rw [hload, if_neg h8, if_neg h8]
    refine ⟨hseg, (congrArg MachState.rest hrun).trans ?_, ?_⟩
    · rw [SeenState.loadWord, hrest]
      rfl
    · refine (congrFun (congrArg MachState.vreg hrun) _).trans ?_
      refine (congrArg _ hvreg).trans ?_
      rw [SeenState.loadWord, hrest]
      exact setVreg_self ..

/-- What lies at an address is delivered if it is an aggregate or of a type that is shifted, and
only then. -/
theorem run_object {d : Compiler} {a : Int} (ha : a < c.nextVreg)
    (hrest : t.rest = { mem := m }) :
    DeliversObject d l.storageType (t.vreg a) m (emitObjectValue l a c).value
        (execAll (elementExec f) (emitObjectValue l a c).lines t) ↔
      byReference l.storageType = true ∨ ∃ ty, l.storageType = some ty ∧ IsShifted ty := by
  by_cases href : byReference l.storageType = true
  · have hrun := run_object_reference (f := f) (c := c) (t := t) (a := a) href
    exact ⟨fun _ => Or.inl href, fun _ => (delivers_reference href).mpr
      ⟨hrun.1.trans hrest, hrun.2⟩⟩
  rw [Bool.not_eq_true] at href
  by_cases hfar : l.storageType = some .far
  · have hrun := run_object_far (f := f) ha hfar hrest
    refine ⟨fun _ => Or.inr ⟨.far, hfar, trivial⟩, fun _ => ?_⟩
    rw [hfar]
    exact delivers_far hrun.1 hrun.2
  · obtain ⟨hseg, hreads, hv⟩ := run_object_word (f := f) (c := c) (a := a) hfar href hrest
    constructor
    · intro hd
      obtain ⟨ty, hsome, hty, -⟩ := hd.isWord (by rw [hreads]; exact length_bytesAt ..)
      exact Or.inr ⟨ty, hsome, hty⟩
    · rintro (href' | ⟨ty, hsome, hty⟩)
      · rw [href] at href'
        cases href'
      · rw [hsome] at hreads hv hfar ⊢
        refine delivers_word hty (fun h => hfar (congrArg some h)) hseg ?_ ?_
        · simpa using hreads
        · simpa using hv

/-- A bit field is that of its object, and what is not one is an object behind its start. -/
theorem run_field {d : Compiler} {o : Int} (name : String) (ho : o < c.nextVreg)
    (hrest : t.rest = { mem := m }) :
    DeliversField f d name l (t.vreg o) m (emitFieldValue o name l c).value
        (execAll (elementExec f) (emitFieldValue o name l c).lines t) ↔ l.IsRead := by
  unfold emitFieldValue DeliversField FieldLayout.IsRead
  by_cases hbits : l.isBits = true
  · rw [if_pos hbits, if_pos hbits]
    refine ⟨fun _ => Or.inl hbits, fun _ => ?_⟩
    obtain ⟨hvreg, -, hrun⟩ := run_tv (f := f) (c := { c with nextVreg := c.nextVreg + 1 })
      (t := elementExec f (.op .field [.vreg c.nextVreg, .vreg o, .name name]) t) c.nextVreg
      l.accessType
    constructor
    · refine (congrArg MachState.rest hrun).trans ?_
      show SeenMemory.mk t.rest.mem t.rest.reads t.rest.writes _ = _
      rw [hrest]
      rfl
    · refine (congrFun (congrArg MachState.vreg hrun) _).trans ((congrArg _ hvreg).trans ?_)
      refine (setVreg_self t c.nextVreg _).trans ?_
      rw [hrest]
  · rw [if_neg hbits, if_neg hbits]
    obtain ⟨hr, hv, hlt⟩ := run_addr (f := f) (t := t) l.byteOffset ho
    have hobject := run_object (f := f) (d := d) (l := l) hlt (hr.trans hrest)
    rw [hv, ← execAll_append] at hobject
    exact hobject.trans (or_iff_right hbits).symm

/-- Where a field is read from is seen. -/
theorem DeliversField.inj {name : String} {a b : BitVec 16} {v : TypedVreg}
    (ha : DeliversField f c name l a m v t) (hb : DeliversField f c name l b m v t)
    (hread : l.IsRead) : a = b := by
  unfold DeliversField at ha hb
  by_cases hbits : l.isBits = true
  · rw [if_pos hbits] at ha hb
    have hfields := congrArg SeenMemory.bitFields (ha.1.symm.trans hb.1)
    simpa using hfields
  · rw [if_neg hbits] at ha hb
    refine (BitVec.add_left_inj (BitVec.ofInt 16 l.byteOffset)).mp ?_
    rcases hread with hread | href | ⟨ty, hsome, hty⟩
    · exact absurd hread hbits
    · rw [delivers_reference href] at ha hb
      exact ha.2.symm.trans hb.2
    · have href : ¬byReference l.storageType = true := by
        rw [hsome]
        exact fun href => not_shifted_of_reference href hty
      unfold DeliversObject at ha hb
      rw [if_neg href] at ha hb
      have hreads := congrArg SeenMemory.reads (ha.1.symm.trans hb.1)
      refine bytesAt_inj ?_ hreads
      rw [hsome]
      revert hty
      cases ty <;> intro hty <;> first | exact hty.elim | exact Nat.succ_pos _

theorem load_ready (href : byReference (some e.type) = true) :
    (e.emitLoad c).value.vreg < (e.emitLoad c).state.nextVreg := by
  obtain ⟨base, index, type, length⟩ := e
  have hlt : c.nextVreg < c.nextVreg + 1 := by omega
  cases type
  case array | bcd | struct => exact hlt
  all_goals cases href

namespace ElementAccess

theorem field_exact_iff (h : e.Ready c) (name : String) :
    Exact f c e (.field name) ↔ (field name).Scales c e := by
  by_cases hlen : e.length ≤ 0
  · exact ⟨fun _ => Or.inl hlen, fun _ s hs => absurd hs (not_inBounds hlen)⟩
  -- The object is where the load leaves it.
  have hrun : ∀ s l, fieldOf c e name = some l →
      (DeliversField f c name l (s.vreg e.base + s.vreg e.index) s.rest
        (emit e (.field name) c).value
        (execAll (elementExec f) (emit e (.field name) c).lines (SeenState.start s)) ↔
          l.IsRead) := by
    intro s l hfl
    obtain ⟨href, hemit⟩ := emitField_eq hfl
    have hload := run_reference (f := f) (s := s) h href
    have hfield := run_field (f := f) (d := c) (l := l) name
      (load_ready (c := c) href) hload.1
    rw [hload.2, ← execAll_append] at hfield
    rw [hemit]
    exact hfield
  constructor
  · intro hx
    refine Or.inr fun l hfl => ?_
    have hzero : (constState 0).vreg e.base + (constState 0).vreg e.index =
        e.addr c (constState 0) := by
      show 0#16 + 0#16 = 0#16 + 0#16 * _
      rw [BitVec.zero_mul]
    have hread : l.IsRead := by
      refine (hrun (constState 0) l hfl).mp ?_
      rw [hzero]
      exact hx _ (inBounds_zero (Int.not_le.mp hlen)) l hfl
    exact ⟨unscaled_of_addr fun s hs => ((hrun s l hfl).mpr hread).inj (hx s hs l hfl) hread,
      hread⟩
  · rintro (hle | hfields) s hs
    · exact absurd hle hlen
    · intro v t l hfl
      obtain ⟨hun, hread⟩ := hfields l hfl
      rw [← addr_of_unscaled hun hs]
      exact (hrun s l hfl).mpr hread

end ElementAccess

end Run

end Nib.Compile
