import Nib.Compile.Spec.Folding
import Nib.Infra.Run

/-!
# The instructions of constant expressions

* `arith_eq` — the operators that commute with cutting off bits
* `delivers_binop`, `delivers_unop` — an operation on what its operands leave
* `emitted_delivers` — the emitted instructions compute `runExpr`
-/

namespace Nib.Compile

open Nib.Infra Compile

variable {count : BitVec 8 → Nat} {byte : Bool} {a b x : BitVec 16} {m n : Int}

/-! ## Bits of numbers -/

theorem cut_eq_cut_iff : cut byte a = cut byte b ↔
    a.toNat % (if byte then 256 else 65536) = b.toNat % (if byte then 256 else 65536) := by
  cases byte with
  | false => simp [cut, ← BitVec.toNat_inj, Nat.mod_eq_of_lt a.isLt, Nat.mod_eq_of_lt b.isLt]
  | true =>
    simp only [cut, if_true, ← BitVec.toNat_inj, low, BitVec.toNat_setWidth]
    omega

@[simp] theorem cut_cut : cut byte (cut byte a) = cut byte a := by
  cases byte <;> simp [cut, low]

theorem ofInt_toInt32 (n : Int) : BitVec.ofInt 16 (toInt32 n) = BitVec.ofInt 16 n := by
  rw [toInt32, BitVec.toInt_ofInt, ← BitVec.toInt_inj, BitVec.toInt_ofInt, BitVec.toInt_ofInt]
  exact Int.bmod_bmod_of_dvd ⟨65536, rfl⟩

theorem ofInt_bitsInt32 {f : BitVec 32 → BitVec 32 → BitVec 32}
    {g : BitVec 16 → BitVec 16 → BitVec 16}
    (hf : ∀ x y, (f x y).setWidth 16 = g (x.setWidth 16) (y.setWidth 16)) (m n : Int) :
    BitVec.ofInt 16 (bitsInt32 f m n) = g (BitVec.ofInt 16 m) (BitVec.ofInt 16 n) := by
  have hset (x : BitVec 32) : BitVec.ofInt 16 x.toInt = x.setWidth 16 := by
    rw [← BitVec.toNat_inj, BitVec.toNat_setWidth, BitVec.toNat_ofInt, BitVec.toInt_eq_toNat_cond]
    have := x.isLt
    split <;> omega
  have hint (i : Int) : (BitVec.ofInt 32 i).setWidth 16 = BitVec.ofInt 16 i := by
    rw [← BitVec.toNat_inj, BitVec.toNat_setWidth, BitVec.toNat_ofInt, BitVec.toNat_ofInt]
    omega
  rw [bitsInt32, hset, hf, hint, hint]

/-! ## Operators -/

theorem cut_add : cut byte (cut byte a + cut byte b) = cut byte (a + b) := by
  cases byte with
  | false => rfl
  | true =>
    rw [cut_eq_cut_iff]
    simp only [cut, low, if_true, BitVec.toNat_add, BitVec.toNat_setWidth]
    omega

theorem cut_sub : cut byte (cut byte a - cut byte b) = cut byte (a - b) := by
  cases byte with
  | false => rfl
  | true =>
    rw [cut_eq_cut_iff]
    simp only [cut, low, if_true, BitVec.toNat_sub, BitVec.toNat_setWidth]
    omega

theorem cut_mul : cut byte (cut byte a * cut byte b) = cut byte (a * b) := by
  cases byte with
  | false => rfl
  | true =>
    rw [cut_eq_cut_iff]
    simp only [cut, low, if_true, BitVec.toNat_mul, BitVec.toNat_setWidth]
    have hdvd : 256 ∣ 2 ^ 16 := by decide
    rw [Nat.mod_mod_of_dvd _ hdvd, Nat.mod_mod_of_dvd _ hdvd,
      Nat.mod_eq_of_lt (by omega : a.toNat % 2 ^ 8 < 2 ^ 16),
      Nat.mod_eq_of_lt (by omega : b.toNat % 2 ^ 8 < 2 ^ 16)]
    exact (Nat.mul_mod a.toNat b.toNat 256).symm

/-- An operand only counts by the bits of the width. A count has eight of them. -/
theorem arith_cut (op : OpKind) :
    arith count byte op (cut byte a) (cut (byte && !binopIsShift op) b) =
      arith count byte op a b := by
  cases byte with
  | false => simp [cut]
  | true =>
    have hadd : cut true (cut true a + cut true b) = cut true (a + b) := cut_add
    have hsub : cut true (cut true a - cut true b) = cut true (a - b) := cut_sub
    have hmul : cut true (cut true a * cut true b) = cut true (a * b) := cut_mul
    cases op
    case add => exact congrArg some hadd
    case sub => exact congrArg some hsub
    case mul => exact congrArg some hmul
    all_goals simp [arith, cut, binopIsShift, low]

theorem isCut_iff : cut byte x = x ↔ (byte = true → x.toNat < 256) := by
  cases byte with
  | false => simp [cut]
  | true =>
    simp [cut, low, ← BitVec.toNat_inj]
    omega

theorem toNat_cut_lt (h : byte = true) : (cut byte a).toNat < 256 := isCut_iff.mp cut_cut h

theorem arith_isCut {op : OpKind} (h : arith count byte op a b = some x) : cut byte x = x := by
  have hlt (hbyte : byte = true) : (cut byte a).toNat < 256 := toNat_cut_lt hbyte
  cases op
  case div =>
    simp only [arith] at h
    split at h
    · cases h
    · cases h
      rw [isCut_iff, BitVec.toNat_udiv]
      exact fun hbyte => Nat.lt_of_le_of_lt (Nat.div_le_self _ _) (hlt hbyte)
  case mod =>
    simp only [arith] at h
    split at h
    · cases h
    · cases h
      rw [isCut_iff, BitVec.toNat_umod]
      exact fun hbyte => Nat.lt_of_le_of_lt (Nat.mod_le _ _) (hlt hbyte)
  case shr =>
    cases h
    rw [isCut_iff, BitVec.toNat_ushiftRight, Nat.shiftRight_eq_div_pow]
    exact fun hbyte => Nat.lt_of_le_of_lt (Nat.div_le_self _ _) (hlt hbyte)
  all_goals
    cases h
    try exact cut_cut

theorem arithUnary_isCut {op : UnopKind} (h : arithUnary byte op a = some x) : cut byte x = x := by
  cases op <;> cases h <;> exact cut_cut

/-- The operators that commute with cutting off bits. -/
theorem arith_eq {op : OpKind} {k : Int} (hop : mayDiffer op = false)
    (h : evalConstBinop op m n = some k) :
    arith count byte op (BitVec.ofInt 16 m) (BitVec.ofInt 16 n) =
      some (cut byte (BitVec.ofInt 16 k)) := by
  cases op
  case add =>
    cases h
    rw [ofInt_toInt32, BitVec.ofInt_add]
    rfl
  case sub =>
    cases h
    rw [ofInt_toInt32, Int.sub_eq_add_neg, BitVec.ofInt_add, BitVec.ofInt_neg,
      ← BitVec.sub_eq_add_neg]
    rfl
  case mul =>
    cases h
    rw [ofInt_toInt32, BitVec.ofInt_mul]
    rfl
  case and =>
    cases h
    rw [ofInt_bitsInt32 fun _ _ => BitVec.setWidth_and]
    rfl
  case or =>
    cases h
    rw [ofInt_bitsInt32 fun _ _ => BitVec.setWidth_or]
    rfl
  case xor =>
    cases h
    rw [ofInt_bitsInt32 fun _ _ => BitVec.setWidth_xor]
    rfl
  case div | mod | shl | shr => cases hop
  all_goals cases h

theorem arithUnary_neg : arithUnary byte .neg (cut byte (BitVec.ofInt 16 n)) =
    some (cut byte (BitVec.ofInt 16 (toInt32 (-n)))) := by
  rw [ofInt_toInt32, BitVec.ofInt_neg]
  have h : cut byte (0 - cut byte (BitVec.ofInt 16 n)) = cut byte (0 - BitVec.ofInt 16 n) := by
    rw [← cut_sub, cut_cut, cut_sub]
  simpa [arithUnary] using h

theorem arithUnary_not : arithUnary byte .not (cut byte (BitVec.ofInt 16 n)) =
    some (cut byte (BitVec.ofInt 16 (toInt32 (-n - 1)))) := by
  have hnot (x : BitVec 16) : ~~~x = -1 - x := by
    have hone : (-1 : BitVec 16) = 65535 := rfl
    have hnum : (65535 : BitVec 16).toNat = 65535 := rfl
    have := x.isLt
    rw [hone, ← BitVec.toNat_inj, BitVec.toNat_not, BitVec.toNat_sub, hnum]
    omega
  rw [ofInt_toInt32, arithUnary, Int.sub_eq_add_neg, Int.add_comm, BitVec.ofInt_add,
    BitVec.ofInt_neg, BitVec.ofInt_neg, ← BitVec.sub_eq_add_neg, hnot, ← cut_sub, cut_cut, cut_sub]
  rfl

/-! ## Running the emitted instructions -/

theorem regRun_runsBy (count : BitVec 8 → Nat) (isByte : Int → Bool) :
    RunsBy (regStep count isByte) (regRun count isByte) :=
  ⟨fun _ => rfl, fun _ _ _ => rfl⟩

/-- Lines that leave a value in an operand. They use the vregs from `lo` to `hi`. -/
structure Delivers (count : BitVec 8 → Nat) (lines : List Instr) (arg : Arg) (lo hi : Int)
    (val : Option (BitVec 16)) : Prop where
  le : lo ≤ hi
  within : ∀ v, arg = .vreg v → lo ≤ v ∧ v < hi
  records : ∀ i ∈ lines, ∀ v, byteVreg i = some v → lo ≤ v ∧ v < hi
  runs : ∀ w : Int → Bool, (∀ v, lo ≤ v → v < hi → w v = recorded lines v) → ∀ s,
    (regRun count w lines s).bind (fun t => operandValue t arg) = val
  frame : ∀ w s t, regRun count w lines s = some t → ∀ v < lo, t v = s v

/-- The line that records the width of a value. -/
def widthLines (byte : Bool) (v : Int) : List Instr := if byte then [.vreg v .u8 .plain] else []

theorem regRun_widthLines {w : Int → Bool} {v : Int} (s : Vregs) :
    regRun count w (widthLines byte v) s = some s := by
  cases byte <;> rfl

theorem recorded_append (is js : List Instr) (v : Int) :
    recorded (is ++ js) v = (recorded is v || recorded js v) := List.any_append

theorem recorded_eq_false {lines : List Instr} {v : Int}
    (h : ∀ i ∈ lines, byteVreg i ≠ some v) : recorded lines v = false := by
  simpa [recorded] using h

theorem recorded_widthLines (v : Int) : recorded (widthLines byte v) v = byte := by
  cases byte <;> simp [recorded, widthLines, byteVreg]

theorem byteVreg_widthLines {i : Instr} {u v : Int} (hi : i ∈ widthLines byte u)
    (h : byteVreg i = some v) : v = u := by
  cases byte with
  | false => cases hi
  | true =>
    obtain rfl := List.mem_singleton.mp hi
    exact (Option.some.inj h).symm

@[simp] theorem Vregs.set_self (s : Vregs) (d : Int) (x : BitVec 16) : s.set d x d = x := if_pos rfl

theorem Vregs.set_of_ne (s : Vregs) {d v : Int} (x : BitVec 16) (h : v ≠ d) :
    s.set d x v = s v := if_neg h

@[simp] theorem operandValue_vreg (s : Vregs) (v : Int) : operandValue s (.vreg v) = some (s v) :=
  rfl

/-- Lines that end in an operation with a destination of its own, whose width is recorded behind
it. -/
theorem delivers_last {l : List Instr} {i : Instr} {lo hi : Int} {val : Option (BitVec 16)}
    {f : Bool → Vregs → Option (BitVec 16)} (hno : byteVreg i = none)
    (hstep : ∀ w t, regStep count w i t = (f (w hi) t).map (t.set hi)) (hle : lo ≤ hi)
    (hrecords : ∀ j ∈ l, ∀ v, byteVreg j = some v → lo ≤ v ∧ v < hi)
    (hruns : ∀ w : Int → Bool, (∀ v, lo ≤ v → v < hi → w v = recorded l v) → ∀ s,
      (regRun count w l s).bind (f byte) = val)
    (hframe : ∀ w s t, regRun count w l s = some t → ∀ v < lo, t v = s v) :
    Delivers count (l ++ i :: widthLines byte hi) (.vreg hi) lo (hi + 1) val := by
  have hrun (w : Int → Bool) (s : Vregs) :
      regRun count w (l ++ i :: widthLines byte hi) s =
        (regRun count w l s).bind fun t => (f (w hi) t).map (t.set hi) := by
    rw [(regRun_runsBy count w).append_eq]
    refine congrArg _ (funext fun t => ?_)
    rw [(regRun_runsBy count w).cons, hstep,
      show regRun count w (widthLines byte hi) = some from funext regRun_widthLines,
      Option.bind_fun_some]
  have hrec (v : Int) : recorded (l ++ i :: widthLines byte hi) v =
      (recorded l v || recorded (widthLines byte hi) v) := by
    rw [recorded_append]
    simp [recorded, hno]
  have hlines : recorded l hi = false :=
    recorded_eq_false fun j hj hv => by have := hrecords j hj hi hv; omega
  have hwl {v : Int} (hv : v < hi) : recorded (widthLines byte hi) v = false :=
    recorded_eq_false fun j hj h => by have := byteVreg_widthLines hj h; omega
  refine ⟨by omega, fun v hv => by cases hv; omega, fun j hj v hv => ?_, fun w hw s => ?_,
    fun w s t ht v hv => ?_⟩
  · rcases List.mem_append.mp hj with hj | hj
    · have := hrecords j hj v hv
      omega
    · rcases List.mem_cons.mp hj with rfl | hj
      · cases hno.symm.trans hv
      · have := byteVreg_widthLines hj hv
        omega
  · have hwhi : w hi = byte := by
      rw [hw hi (by omega) (by omega), hrec, hlines, recorded_widthLines, Bool.false_or]
    have hval := hruns w (fun v hlo hhi => by
      rw [hw v hlo (by omega), hrec, hwl hhi, Bool.or_false]) s
    rw [hrun, hwhi, ← hval]
    cases regRun count w l s with
    | none => rfl
    | some t =>
      simp only [Option.bind_some]
      cases f byte t with
      | none => rfl
      | some x => simp
  · rw [hrun] at ht
    obtain ⟨t1, ht1, ht⟩ := Option.bind_eq_some_iff.mp ht
    obtain ⟨x, -, rfl⟩ := Option.map_eq_some_iff.mp ht
    rw [t1.set_of_ne _ (by omega), hframe w s t1 ht1 v hv]

/-- A literal. -/
theorem delivers_lit (n lo : Int) :
    Delivers count (.op .mov [.vreg lo, .imm n] :: widthLines byte lo) (.vreg lo) lo (lo + 1)
      (some (cut byte (BitVec.ofInt 16 n))) := by
  have hstep (w : Int → Bool) (t : Vregs) : regStep count w (.op .mov [.vreg lo, .imm n]) t =
      (some (cut (w lo) (BitVec.ofInt 16 n))).map (t.set lo) := rfl
  refine delivers_last (l := []) (f := fun byte _ => some (cut byte (BitVec.ofInt 16 n))) rfl hstep
    le_rfl (fun j hj => (nomatch hj)) (fun w _ s => rfl) fun w s t ht v _ => ?_
  cases ht
  rfl

/-- A literal that is a right operand. -/
theorem delivers_imm (n lo : Int) :
    Delivers count [] (.imm n) lo lo (some (BitVec.ofInt 16 n)) := by
  refine ⟨by omega, fun v hv => (nomatch hv), fun i hi => (nomatch hi), fun w _ s => rfl,
    fun w s t ht v _ => ?_⟩
  cases ht
  rfl

/-- A binary operation on what its operands leave. -/
theorem delivers_binop {ll rl : List Instr} {op : OpKind} {lv lo mid hi : Int} {arg : Arg}
    {va vb : Option (BitVec 16)} (hl : Delivers count ll (.vreg lv) lo mid va)
    (hr : Delivers count rl arg mid hi vb) :
    Delivers count (ll ++ (rl ++ .op (.binop op) [.vreg hi, .vreg lv, arg] :: widthLines byte hi))
      (.vreg hi) lo (hi + 1) (va.bind fun a => vb.bind (arith count byte op a)) := by
  have hle := hl.le
  have hle' := hr.le
  have hin := hl.within lv rfl
  have hstep (w : Int → Bool) (u : Vregs) :
      regStep count w (.op (.binop op) [.vreg hi, .vreg lv, arg]) u =
        ((operandValue u arg).bind fun b => arith count (w hi) op (u lv) b).map (u.set hi) := by
    have hdef : regStep count w (.op (.binop op) [.vreg hi, .vreg lv, arg]) u =
        (operandValue u arg).bind fun b => (arith count (w hi) op (u lv) b).map (u.set hi) := rfl
    rw [hdef, Option.map_bind]
    rfl
  have hll {v : Int} (hv : mid ≤ v) : recorded ll v = false :=
    recorded_eq_false fun i hi h => by have := hl.records i hi v h; omega
  have hrl {v : Int} (hv : v < mid) : recorded rl v = false :=
    recorded_eq_false fun i hi h => by have := hr.records i hi v h; omega
  rw [← List.append_assoc]
  refine delivers_last
    (f := fun byte u => (operandValue u arg).bind fun b => arith count byte op (u lv) b) rfl hstep
    (by omega) (fun i hi v hv => ?_) (fun w hw s => ?_) fun w s t ht v hv => ?_
  · rcases List.mem_append.mp hi with hi | hi
    · have := hl.records i hi v hv
      omega
    · have := hr.records i hi v hv
      omega
  · have hruns := hl.runs w (fun v hlo hmid => by
      rw [hw v hlo (by omega), recorded_append, hrl hmid, Bool.or_false]) s
    rw [(regRun_runsBy count w).append_eq]
    cases ht : regRun count w ll s with
    | none =>
      rw [ht] at hruns
      rw [← hruns]
      rfl
    | some t =>
      rw [ht] at hruns
      have hruns' := hr.runs w (fun v hmid hhi => by
        rw [hw v (by omega) hhi, recorded_append, hll hmid, Bool.false_or]) t
      rw [← hruns, ← hruns']
      simp only [Option.bind_some]
      cases hu : regRun count w rl t with
      | none => rfl
      | some u =>
        have hsame : u lv = t lv := hr.frame w t u hu lv hin.2
        simp only [Option.bind_some, operandValue_vreg, hsame]
  · rw [(regRun_runsBy count w).append_eq] at ht
    obtain ⟨t1, ht1, ht⟩ := Option.bind_eq_some_iff.mp ht
    rw [hr.frame w t1 t ht v (by omega), hl.frame w s t1 ht1 v hv]

/-- A unary operation on what its operand leaves. -/
theorem delivers_unop {ls : List Instr} {op : UnopKind} {u lo hi : Int} {va : Option (BitVec 16)}
    (h : Delivers count ls (.vreg u) lo hi va) :
    Delivers count (ls ++ .op (.unop op) [.vreg hi, .vreg u] :: widthLines byte hi) (.vreg hi) lo
      (hi + 1) (va.bind (arithUnary byte op)) := by
  refine delivers_last (f := fun byte t => arithUnary byte op (t u)) rfl (fun _ _ => rfl) h.le
    h.records (fun w hw s => ?_) h.frame
  rw [← h.runs w hw s]
  cases regRun count w ls s <;> rfl

/-! ## The emission -/

/-- The type of a value of this width. -/
def FitsWidth (byte : Bool) (type : Option Ty) : Prop :=
  if byte then type = some .u8 else type = none ∨ type = some .u16 ∨ type = some .u32

theorem tv_eq {type : Option Ty} (h : FitsWidth byte type) (v : Int) (c : Compiler) :
    tv v type c = ⟨{ vreg := v, type }, widthLines byte v, c⟩ := by
  cases byte with
  | true =>
    obtain rfl : type = some .u8 := h
    rfl
  | false => rcases h with rfl | rfl | rfl <;> rfl

/-- What an expression leaves, with its type. -/
structure Emits (count : BitVec 8 → Nat) (r : Emitted TypedVreg) (lo : Int) (byte : Bool)
    (val : Option (BitVec 16)) : Prop where
  delivers : Delivers count r.lines (.vreg r.value.vreg) lo r.state.nextVreg val
  type : FitsWidth byte r.value.type

/-- A step that only reports errors and finds a type. -/
structure Types (byte : Bool) (m : Compile (Option Ty)) : Prop where
  lines : ∀ c, (m c).lines = []
  next : ∀ c, (m c).state.nextVreg = c.nextVreg
  type : ∀ c, FitsWidth byte (m c).value

theorem types_checkArith {l r : Option Ty} (op : OpKind) (hl : FitsWidth byte l)
    (hr : FitsWidth byte r ∨ r = none) : Types byte (checkArith l r op) := by
  cases byte with
  | true =>
    obtain rfl : l = some .u8 := hl
    have hr' : r = some .u8 ∨ r = none := hr
    rcases hr' with rfl | rfl <;>
      constructor <;> intro c <;> simp [checkArith, typeIsBcd, typeIsAggregate, typeIsInteger,
        FitsWidth, pure]
  | false =>
    have hr' : r = none ∨ r = some .u16 ∨ r = some .u32 := hr.elim id .inl
    -- the product of two words is a `u32`
    by_cases hop : op = .mul ∨ op = .smul <;> rcases hl with rfl | rfl | rfl <;>
      rcases hr' with rfl | rfl | rfl <;> constructor <;> intro c <;>
      simp [checkArith, typeIsBcd, typeIsAggregate, typeIsInteger, FitsWidth, pure, bind, cerr,
        modifyState, hop]

/-- The operation itself, behind its operands. -/
theorem emits_operation {op : OpKind} {ll rl : List Instr} {lv lo mid dst : Int} {arg : Arg}
    {va vb : Option (BitVec 16)} {type : Option Ty} {c : Compiler}
    (hl : Delivers count ll (.vreg lv) lo mid va) (hr : Delivers count rl arg mid dst vb)
    (htype : FitsWidth byte type) (hc : c.nextVreg = dst + 1) :
    Emits count ⟨(tv dst type c).value,
      ll ++ (rl ++ ([.op (.binop op) [.vreg dst, .vreg lv, arg]] ++ (tv dst type c).lines)),
      (tv dst type c).state⟩ lo byte (va.bind fun a => vb.bind (arith count byte op a)) := by
  rw [tv_eq htype]
  refine ⟨?_, htype⟩
  show Delivers count _ _ lo c.nextVreg _
  rw [hc]
  exact delivers_binop hl hr

theorem types_shift {l target : Option Ty} (hl : FitsWidth byte l)
    (htarget : l = none → FitsWidth byte target) :
    Types byte (do shiftTypeError l; pure (if l.isSome then l else target)) := by
  have hok (c : Compiler) : shiftTypeError l c = ⟨(), [], c⟩ := by
    cases byte with
    | true =>
      obtain rfl : l = some .u8 := hl
      rfl
    | false => rcases hl with rfl | rfl | rfl <;> rfl
  have hvalue : FitsWidth byte (if l.isSome then l else target) := by
    cases l with
    | none => exact htarget rfl
    | some t => exact hl
  constructor <;> intro c <;> simp only [bind, hok]
  · rfl
  · rfl
  · exact hvalue

/-- The right operand of an operation, which may be a literal. -/
def EmitsRight (count : BitVec 8 → Nat) (m : Compile (TypedVreg × Arg)) (byte : Bool)
    (val : Option (BitVec 16)) : Prop :=
  ∀ c, Delivers count (m c).lines (m c).value.2 c.nextVreg (m c).state.nextVreg val ∧
    (FitsWidth byte (m c).value.1.type ∨ (m c).value.1.type = none)

theorem emitsRight_lit {right : Expr} {emit : Compile TypedVreg} {n : Int}
    (h : litIntValue right = some n) :
    EmitsRight count (emitRight right emit) byte (some (BitVec.ofInt 16 n)) := by
  intro c
  simp only [emitRight, h]
  exact ⟨delivers_imm n c.nextVreg, .inr rfl⟩

theorem emitsRight_value {right : Expr} {emit : Compile TypedVreg} {val : Option (BitVec 16)}
    (h : litIntValue right = none) (he : ∀ c, Emits count (emit c) c.nextVreg byte val) :
    EmitsRight count (emitRight right emit) byte val := by
  intro c
  simp only [emitRight, h]
  refine ⟨?_, .inl (he c).type⟩
  have := (he c).delivers
  simpa [bind, pure] using this

theorem types_binopTypeFor {op : OpKind} {l r target : Option Ty} (hl : FitsWidth byte l)
    (hr : FitsWidth (byte && !binopIsShift op) r ∨ r = none) (htarget : FitsWidth byte target) :
    Types byte (binopTypeFor op l r target) := by
  unfold binopTypeFor
  cases hop : binopIsShift op with
  | true => exact types_shift hl fun _ => htarget
  | false =>
    rw [hop, Bool.not_false, Bool.and_true] at hr
    have h := types_checkArith op hl hr
    refine ⟨fun c => ?_, fun c => h.next c, fun c => ?_⟩
    · show (checkArith l r op c).lines ++ [] = []
      rw [h.lines, List.append_nil]
    · show FitsWidth byte (if (checkArith l r op c).value.isSome then (checkArith l r op c).value
        else target)
      split
      · exact h.type c
      · exact htarget

theorem types_binopType {op : OpKind} {l r : Option Ty} (hcompare : binopIsCompare op = false)
    (hxchg : op ≠ .xchg) (hl : FitsWidth false l) (hr : FitsWidth false r ∨ r = none) :
    Types false (binopType op l r) := by
  unfold binopType
  rw [if_neg (by rw [hcompare]; exact Bool.false_ne_true), if_neg hxchg]
  split
  · have h : Types false (do shiftTypeError l; pure (if l.isSome then l else none)) :=
      types_shift hl fun _ => .inl rfl
    have heq : (if l.isSome then l else none) = l := by cases l <;> rfl
    rwa [heq] at h
  · exact types_checkArith op hl hr

/-- The emission piece by piece. -/
theorem emitBinopFor_eq (op : OpKind) (right : Expr) (l r : ExprEmit) (target : Option Ty)
    (c : Compiler) {a : Emitted TypedVreg} {b : Emitted (TypedVreg × Arg)}
    {t : Emitted (Option Ty)} (ha : l.typedFor target c = a)
    (hb : emitRight right (r.typedFor (if binopIsShift op then none else target)) a.state = b)
    (ht : binopTypeFor op a.value.type b.value.1.type target b.state = t) :
    emitBinopFor op right l r target c =
      let d := tv t.state.nextVreg t.value { t.state with nextVreg := t.state.nextVreg + 1 }
      ⟨d.value, a.lines ++ (b.lines ++ (t.lines ++
        ([.op (.binop op) [.vreg t.state.nextVreg, .vreg a.value.vreg, b.value.2]] ++ d.lines))),
        d.state⟩ := by
  subst ha hb ht
  rfl

theorem emitBinopFor_emits {op : OpKind} {right : Expr} {l r : ExprEmit} {target : Option Ty}
    {va vb : Option (BitVec 16)} (hbyte : FitsWidth byte target)
    (hl : ∀ c, Emits count (l.typedFor target c) c.nextVreg byte va)
    (hr : EmitsRight count (emitRight right (r.typedFor (if binopIsShift op then none else target)))
      (byte && !binopIsShift op) vb) (c : Compiler) :
    Emits count (emitBinopFor op right l r target c) c.nextVreg byte
      (va.bind fun a => vb.bind (arith count byte op a)) := by
  obtain ⟨a, ha⟩ : ∃ a, l.typedFor target c = a := ⟨_, rfl⟩
  obtain ⟨b, hb⟩ : ∃ b, emitRight right
      (r.typedFor (if binopIsShift op then none else target)) a.state = b := ⟨_, rfl⟩
  obtain ⟨t, ht⟩ : ∃ t, binopTypeFor op a.value.type b.value.1.type target b.state = t := ⟨_, rfl⟩
  have hla := hl c
  rw [ha] at hla
  have hrb := hr a.state
  rw [hb] at hrb
  have htypes := types_binopTypeFor hla.type hrb.2 hbyte
  have hlines := htypes.lines b.state
  have hnext := htypes.next b.state
  have htype := htypes.type b.state
  rw [ht] at hlines hnext htype
  rw [emitBinopFor_eq op right l r target c ha hb ht, hlines, hnext]
  exact emits_operation hla.delivers hrb.1 htype rfl

theorem emitBinopTyped_eq (op : OpKind) (right : Expr) (l r : ExprEmit) (c : Compiler)
    {a : Emitted TypedVreg} {b : Emitted (TypedVreg × Arg)} {t : Emitted (Option Ty)}
    (ha : l.typed c = a) (hb : emitRight right r.typed a.state = b)
    (ht : binopType op a.value.type b.value.1.type
      { b.state with nextVreg := b.state.nextVreg + 1 } = t) (hword : a.value.type ≠ some .u8) :
    emitBinopTyped op right l r c =
      let d := tv b.state.nextVreg t.value t.state
      ⟨d.value, a.lines ++ (b.lines ++ ([] ++ (t.lines ++
        ([.op (.binop op) [.vreg b.state.nextVreg, .vreg a.value.vreg, b.value.2]] ++ d.lines)))),
        d.state⟩ := by
  subst ha hb ht
  have hno : ¬((op = .mul ∨ op = .smul) ∧ (l.typed c).value.type = some .u8) :=
    fun h => hword h.2
  unfold emitBinopTyped
  show Emitted.mk _ (_ ++ (_ ++ (_ ++ (_ ++ _)))) _ = _
  have hite {α : Type} (x y : α) :
      (if (op = .mul ∨ op = .smul) ∧ (l.typed c).value.type = some .u8 then x else y) = y :=
    if_neg hno
  simp only [hite]
  rfl

theorem emitBinopTyped_emits {op : OpKind} {right : Expr} {l r : ExprEmit}
    {va vb : Option (BitVec 16)} (hcompare : binopIsCompare op = false) (hxchg : op ≠ .xchg)
    (hl : ∀ c, Emits count (l.typed c) c.nextVreg false va)
    (hr : EmitsRight count (emitRight right r.typed) false vb) (c : Compiler) :
    Emits count (emitBinopTyped op right l r c) c.nextVreg false
      (va.bind fun a => vb.bind (arith count false op a)) := by
  obtain ⟨a, ha⟩ : ∃ a, l.typed c = a := ⟨_, rfl⟩
  obtain ⟨b, hb⟩ : ∃ b, emitRight right r.typed a.state = b := ⟨_, rfl⟩
  obtain ⟨t, ht⟩ : ∃ t, binopType op a.value.type b.value.1.type
      { b.state with nextVreg := b.state.nextVreg + 1 } = t := ⟨_, rfl⟩
  have hla := hl c
  rw [ha] at hla
  have hrb := hr a.state
  rw [hb] at hrb
  have htypes := types_binopType hcompare hxchg hla.type hrb.2
  have hlines := htypes.lines { b.state with nextVreg := b.state.nextVreg + 1 }
  have hnext := htypes.next { b.state with nextVreg := b.state.nextVreg + 1 }
  have htype := htypes.type { b.state with nextVreg := b.state.nextVreg + 1 }
  rw [ht] at hlines hnext htype
  have hword : a.value.type ≠ some .u8 := by
    rcases hla.type with h | h | h <;> rw [h] <;> decide
  rw [emitBinopTyped_eq op right l r c ha hb ht hword, hlines]
  exact emits_operation hla.delivers hrb.1 htype hnext

theorem adoptTarget_none (emit : Compile TypedVreg) : adoptTarget emit none = emit := by
  funext c
  show (⟨(emit c).value, (emit c).lines ++ [], (emit c).state⟩ : Emitted TypedVreg) = emit c
  rw [List.append_nil]

theorem emits_unary {op : UnopKind} {r : Emitted TypedVreg} {lo : Int} {va : Option (BitVec 16)}
    {type : Option Ty} (h : Emits count r lo byte va) (htype : FitsWidth byte type) :
    Emits count ⟨{ vreg := r.state.nextVreg, type }, r.lines ++
        .op (.unop op) [.vreg r.state.nextVreg, .vreg r.value.vreg] ::
          widthLines byte r.state.nextVreg,
      { r.state with nextVreg := r.state.nextVreg + 1 }⟩ lo byte (va.bind (arithUnary byte op)) :=
  ⟨delivers_unop h.delivers, htype⟩

theorem typeErrors_eq {type : Option Ty} (h : FitsWidth byte type) (c : Compiler) :
    negTypeError type c = ⟨(), [], c⟩ ∧ notTypeError type c = ⟨(), [], c⟩ := by
  cases byte with
  | true =>
    obtain rfl : type = some .u8 := h
    exact ⟨rfl, rfl⟩
  | false => rcases h with rfl | rfl | rfl <;> exact ⟨rfl, rfl⟩

theorem emitUnopFor_emits {op : UnopKind} {emit : ExprEmit} {target : Option Ty}
    {va : Option (BitVec 16)} (hbyte : FitsWidth byte target)
    (h : ∀ c, Emits count (emit.typedFor target c) c.nextVreg byte va) (c : Compiler) :
    Emits count (emitUnopFor op emit target c) c.nextVreg byte (va.bind (arithUnary byte op)) := by
  obtain ⟨a, ha⟩ : ∃ a, emit.typedFor target c = a := ⟨_, rfl⟩
  have hemit := h c
  rw [ha] at hemit
  have htype : FitsWidth byte (if a.value.type.isSome then a.value.type else target) := by
    split
    · exact hemit.type
    · exact hbyte
  have herr := typeErrors_eq hemit.type a.state
  have heq : emitUnopFor op emit target c =
      ⟨⟨a.state.nextVreg, none, if a.value.type.isSome then a.value.type else target⟩,
        a.lines ++ .op (.unop op) [.vreg a.state.nextVreg, .vreg a.value.vreg] ::
          widthLines byte a.state.nextVreg,
        { a.state with nextVreg := a.state.nextVreg + 1 }⟩ := by
    subst ha
    unfold emitUnopFor
    show Emitted.mk _ (_ ++ _) _ = _
    by_cases hop : op = .neg
    · have hite {α : Type} (x y : α) : (if op = .neg then x else y) = x := if_pos hop
      simp only [hite]
      simp only [bind, allocVreg, herr.1, tv_eq htype]
      rfl
    · have hite {α : Type} (x y : α) : (if op = .neg then x else y) = y := if_neg hop
      simp only [hite]
      simp only [bind, allocVreg, herr.2, tv_eq htype]
      rfl
  rw [heq]
  exact emits_unary hemit htype

theorem emitUnopValue_emits {op : UnopKind} {emit : Compile TypedVreg}
    {va : Option (BitVec 16)} (hop : op = .neg ∨ op = .not)
    (h : ∀ c, Emits count (emit c) c.nextVreg false va) (c : Compiler) :
    Emits count (emitUnopValue op emit c) c.nextVreg false (va.bind (arithUnary false op)) := by
  obtain ⟨a, ha⟩ : ∃ a, emit c = a := ⟨_, rfl⟩
  have hemit := h c
  rw [ha] at hemit
  have herr := typeErrors_eq hemit.type { a.state with nextVreg := a.state.nextVreg + 1 }
  have heq : emitUnopValue op emit c = ⟨{ vreg := a.state.nextVreg, type := a.value.type },
      a.lines ++ .op (.unop op) [.vreg a.state.nextVreg, .vreg a.value.vreg] ::
        widthLines false a.state.nextVreg,
      { a.state with nextVreg := a.state.nextVreg + 1 }⟩ := by
    subst ha
    simp only [emitUnopValue, bind, allocVreg]
    rcases hop with rfl | rfl
    · simp only [herr.1, tv_eq hemit.type]
      rfl
    · simp only [herr.2, tv_eq hemit.type]
      rfl
  rw [heq]
  exact emits_unary hemit hemit.type

/-! ## Constant expressions -/

variable {c : Compiler} {e : Expr} {target : Option Ty}

theorem runExpr_isCut {e : Expr} : ∀ {byte : Bool} {x : BitVec 16},
    runExpr count c byte e = some x → cut byte x = x := by
  intro byte x h
  cases e <;> simp only [runExpr] at h
  case litInt n =>
    cases h
    exact cut_cut
  case ident name =>
    obtain ⟨n, -, rfl⟩ := Option.map_eq_some_iff.mp h
    exact cut_cut
  case binop op l r =>
    obtain ⟨a, -, h⟩ := Option.bind_eq_some_iff.mp h
    obtain ⟨b, -, h⟩ := Option.bind_eq_some_iff.mp h
    exact arith_isCut h
  case unop op e =>
    obtain ⟨a, -, h⟩ := Option.bind_eq_some_iff.mp h
    exact arithUnary_isCut h
  all_goals cases h

/-- A left operand of its width sees of the right one what counts. -/
theorem arith_cut_right {op : OpKind} (ha : cut byte a = a) :
    arith count byte op a (cut (byte && !binopIsShift op) b) = arith count byte op a b := by
  have h : arith count byte op (cut byte a) (cut (byte && !binopIsShift op) b) =
      arith count byte op a b := arith_cut op
  rwa [ha] at h

theorem evalConstBinop_op {op : OpKind} {k : Int} (h : evalConstBinop op m n = some k) :
    binopIsCompare op = false ∧ op ≠ .xchg := by
  cases op <;> first | (cases h; done) | exact ⟨rfl, by decide⟩

/-- A right operand that is a literal, perhaps under its name. -/
theorem runExpr_lit {q : Int} (h : evalConstExpr c e = some n)
    (hlit : litIntValue (resolveConstantsExpr c e) = some q) :
    runExpr count c byte e = some (cut byte (BitVec.ofInt 16 q)) := by
  cases e <;> first | (cases h; done) | skip
  case litInt k =>
    cases hlit
    rfl
  case ident name =>
    have hname : findConstant c name = some n := h
    simp only [resolveConstantsExpr, hname] at hlit
    cases hlit
    simp [runExpr, hname]
  all_goals cases hlit

/-- An expression without a target type is compiled as one for none. -/
theorem typed_eq (h : evalConstExpr c e = some n) :
    (emitExpr (resolveConstantsExpr c e)).typed =
      (emitExpr (resolveConstantsExpr c e)).typedFor none := by
  cases e <;> first | (cases h; done) | skip
  case litInt k => rfl
  case ident name =>
    have hname : findConstant c name = some n := h
    simp only [resolveConstantsExpr, hname]
    rfl
  case binop op l r => exact (adoptTarget_none _).symm
  case unop op e => exact (adoptTarget_none _).symm

theorem emits_lit (n : Int) (hbyte : FitsWidth (target == some .u8) target)
    (htarget : target = none ∨ typeIsInteger target = true) (c' : Compiler) :
    Emits count ((emitLitInt n).typedFor target c') c'.nextVreg (target == some .u8)
      (some (cut (target == some .u8) (BitVec.ofInt 16 n))) := by
  have heq : (emitLitInt n).typedFor target c' = ⟨⟨c'.nextVreg, none, target⟩,
      .op .mov [.vreg c'.nextVreg, .imm n] :: widthLines (target == some .u8) c'.nextVreg,
      { c' with nextVreg := c'.nextVreg + 1 }⟩ := by
    unfold emitLitInt
    rcases htarget with rfl | h
    · rfl
    · simp only [h, if_true, bind, allocVreg, tv_eq hbyte]
      rfl
  rw [heq]
  exact ⟨delivers_lit n c'.nextVreg, hbyte⟩

theorem fitsWidth_target (h : target = none ∨ typeIsInteger target = true) :
    FitsWidth (target == some .u8) target := by
  rcases h with rfl | h
  · exact .inl rfl
  · cases target with
    | none => exact .inl rfl
    | some t => cases t <;> simp_all [typeIsInteger, FitsWidth]

/-- A binary operation, whose operands are emitted for their targets. -/
theorem emits_binop {op : OpKind} {l r : Expr} {k : Int} (hl : evalConstExpr c l = some m)
    (hr : evalConstExpr c r = some n) (hk : evalConstBinop op m n = some k)
    (htarget : target = none ∨ typeIsInteger target = true)
    (ihl : ∀ c', Emits count ((emitExpr (resolveConstantsExpr c l)).typedFor target c') c'.nextVreg
      (target == some .u8) (runExpr count c (target == some .u8) l))
    (ihr : ∀ t : Option Ty, t = none ∨ typeIsInteger t = true → ∀ c', Emits count
      ((emitExpr (resolveConstantsExpr c r)).typedFor t c') c'.nextVreg (t == some .u8)
        (runExpr count c (t == some .u8) r)) (c' : Compiler) :
    Emits count ((emitExpr (resolveConstantsExpr c (.binop op l r))).typedFor target c')
      c'.nextVreg (target == some .u8)
      (runExpr count c (target == some .u8) (.binop op l r)) := by
  obtain ⟨hcompare, hxchg⟩ := evalConstBinop_op hk
  -- the right operand of a shift is compiled without a target
  obtain ⟨t, ht⟩ : ∃ t, (if binopIsShift op then none else target) = t := ⟨_, rfl⟩
  have htt : t = none ∨ typeIsInteger t = true := by
    rw [← ht]
    split
    · exact .inl rfl
    · exact htarget
  have hbyte : (t == some .u8) = ((target == some .u8) && !binopIsShift op) := by
    rw [← ht]
    cases binopIsShift op <;> simp
  have hright : ∃ vb, EmitsRight count (emitRight (resolveConstantsExpr c r)
      ((emitExpr (resolveConstantsExpr c r)).typedFor t)) (t == some .u8) vb ∧
      runExpr count c (target == some .u8) (.binop op l r) =
        (runExpr count c (target == some .u8) l).bind fun a =>
          vb.bind (arith count (target == some .u8) op a) := by
    cases hlit : litIntValue (resolveConstantsExpr c r) with
    | none =>
      refine ⟨_, emitsRight_value hlit (ihr t htt), ?_⟩
      rw [runExpr, hbyte]
    | some q =>
      refine ⟨_, emitsRight_lit hlit, ?_⟩
      rw [runExpr, runExpr_lit hr hlit]
      cases ha : runExpr count c (target == some .u8) l with
      | none => rfl
      | some a => exact arith_cut_right (runExpr_isCut ha)
  obtain ⟨vb, hvb, hval⟩ := hright
  rw [hval]
  rcases htarget with rfl | htarget
  · obtain rfl : none = t := by simpa using ht
    show Emits count (adoptTarget _ none c') _ _ _
    rw [adoptTarget_none]
    refine emitBinopTyped_emits hcompare hxchg (fun c' => ?_) ?_ c'
    · rw [typed_eq hl]
      exact ihl c'
    · rw [typed_eq hr]
      exact hvb
  · have heq : (emitExpr (resolveConstantsExpr c (.binop op l r))).typedFor target =
        emitBinopFor op (resolveConstantsExpr c r) (emitExpr (resolveConstantsExpr c l))
          (emitExpr (resolveConstantsExpr c r)) target := by
      simp [resolveConstantsExpr, emitExpr, emitBinop, htarget, hcompare, hxchg]
    rw [heq]
    rw [hbyte] at hvb
    subst ht
    exact emitBinopFor_emits (fitsWidth_target (.inr htarget)) ihl hvb c'

theorem emits_unop {op : UnopKind} {e : Expr} (hop : op = .neg ∨ op = .not)
    (he : evalConstExpr c e = some n) (htarget : target = none ∨ typeIsInteger target = true)
    (ih : ∀ c', Emits count ((emitExpr (resolveConstantsExpr c e)).typedFor target c') c'.nextVreg
      (target == some .u8) (runExpr count c (target == some .u8) e)) (c' : Compiler) :
    Emits count ((emitExpr (resolveConstantsExpr c (.unop op e))).typedFor target c')
      c'.nextVreg (target == some .u8)
      (runExpr count c (target == some .u8) (.unop op e)) := by
  rw [runExpr]
  rcases htarget with rfl | htarget
  · show Emits count (adoptTarget _ none c') _ _ _
    rw [adoptTarget_none]
    have hvalue : emitUnopTyped op (resolveConstantsExpr c e)
        (emitExpr (resolveConstantsExpr c e)) =
          emitUnopValue op (emitExpr (resolveConstantsExpr c e)).typed := by
      unfold emitUnopTyped
      split
      · rename_i name hname
        -- a name that is left has no value
        cases e <;> first | (cases he; done) | (cases hname) | skip
        have hfound : findConstant c _ = some n := he
        simp [resolveConstantsExpr, hfound] at hname
      · rfl
    rw [hvalue]
    refine emitUnopValue_emits hop (fun c' => ?_) c'
    rw [typed_eq he]
    exact ih c'
  · have heq : (emitExpr (resolveConstantsExpr c (.unop op e))).typedFor target =
        emitUnopFor op (emitExpr (resolveConstantsExpr c e)) target := by
      rcases hop with rfl | rfl <;> simp [resolveConstantsExpr, emitExpr, emitUnop, htarget]
    rw [heq]
    exact emitUnopFor_emits (fitsWidth_target (.inr htarget)) ih c'

/-- **The emitted instructions** compute the expression operator by operator. -/
theorem emitted_delivers : ∀ (e : Expr) (n : Int), evalConstExpr c e = some n →
    ∀ target : Option Ty, target = none ∨ typeIsInteger target = true → ∀ c' : Compiler,
      Emits count ((emitExpr (resolveConstantsExpr c e)).typedFor target c') c'.nextVreg
        (target == some .u8) (runExpr count c (target == some .u8) e)
  | .litInt k, _, _, target, htarget, c' => emits_lit k (fitsWidth_target htarget) htarget c'
  | .ident name, n, h, target, htarget, c' => by
    have hname : findConstant c name = some n := h
    simp only [resolveConstantsExpr, runExpr, hname, Option.map_some]
    exact emits_lit n (fitsWidth_target htarget) htarget c'
  | .binop op l r, k, h, target, htarget, c' => by
    obtain ⟨m, hl, h⟩ := Option.bind_eq_some_iff.mp h
    obtain ⟨n, hr, h⟩ := Option.bind_eq_some_iff.mp h
    exact emits_binop hl hr h htarget (emitted_delivers l m hl target htarget)
      (emitted_delivers r n hr) c'
  | .unop .neg e, _, h, target, htarget, c' => by
    obtain ⟨m, he, -⟩ := Option.map_eq_some_iff.mp h
    exact emits_unop (.inl rfl) he htarget (emitted_delivers e m he target htarget) c'
  | .unop .not e, _, h, target, htarget, c' => by
    obtain ⟨m, he, -⟩ := Option.map_eq_some_iff.mp h
    exact emits_unop (.inr rfl) he htarget (emitted_delivers e m he target htarget) c'

end Nib.Compile
