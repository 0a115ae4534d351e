import Nib.Compile.Properties.Place

/-!
# The lines of a function run as its statements do

* `while_leads`, `for_leads`, `ite_leads` — the lines of a test lead to what it chooses
* `testLines_steps` — the lines of a flag test enter the case or jump to its end
* `trees_simulation` — a faithful step of the trees is a number of steps of the lines
* `emitStmts_runs` — the lines run as the statements, as long as every step is faithful
-/

namespace Nib.Compile

open Nib.Infra

/-! ## Configurations -/

section Configurations

variable {ρ : Type} (exec : Exec ρ) (prog : List Line)

/-- A position among the trees is a position among the lines. -/
structure Meets (c : SrcConfig ρ) (d : Config ρ) : Prop where
  state : c.state = d.state
  at_pc : At exec prog c.cur c.frames d.pc

/-- The lines go from a position to one that meets a configuration of the trees. -/
def Leads (pc : Nat) (s : MachState ρ) (r : SrcConfig ρ × List Line) : Prop :=
  ∃ n d, 0 < n ∧ Steps (lineStep exec prog) n ⟨pc, s⟩ r.2 d ∧ Meets exec prog r.1 d

end Configurations

/-! ## Jumps -/

section Jumps

variable {ρ : Type} {exec : Exec ρ} {s : MachState ρ} {cond : List Instr} {v cx : Int}
  {lblTop lblEnd : Nat} {body rest : List Tree} {k : List Frame}

theorem takeJump_ifZero_taken (h : s.vreg v = 0) : takeJump (.ifZero v) s = some (true, s) := by
  simp only [takeJump, h, beq_self_eq_true]

theorem takeJump_ifZero_not (h : ¬s.vreg v = 0) : takeJump (.ifZero v) s = some (false, s) := by
  simp only [takeJump, beq_eq_false_iff_ne.mpr h]

theorem takeJump_loop_zero (h : (s.decr v).vreg v = 0) :
    takeJump (.loop v) s = some (false, s.decr v) := by
  simp only [takeJump, h, bne_self_eq_false]

theorem takeJump_loop_nonzero (h : ¬(s.decr v).vreg v = 0) :
    takeJump (.loop v) s = some (true, s.decr v) := by
  simp only [takeJump, bne_iff_ne.mpr h]

theorem testWhile_zero (h : (execAll exec cond s).vreg v = 0) :
    testWhile exec cond v lblTop lblEnd body rest k s =
      (⟨rest, k, execAll exec cond s⟩, cond.map .instr) :=
  if_pos h

theorem testWhile_nonzero (h : ¬(execAll exec cond s).vreg v = 0) :
    testWhile exec cond v lblTop lblEnd body rest k s =
      (⟨body, .while cond v lblTop lblEnd body rest :: k, execAll exec cond s⟩,
        cond.map .instr) :=
  if_neg h

theorem testFor_zero (h : (s.decr cx).vreg cx = 0) :
    testFor cx lblTop lblEnd body rest k s = ⟨rest, k, s.decr cx⟩ :=
  if_pos h

theorem testFor_nonzero (h : ¬(s.decr cx).vreg cx = 0) :
    testFor cx lblTop lblEnd body rest k s =
      ⟨body, .for cx lblTop lblEnd body rest :: k, s.decr cx⟩ :=
  if_neg h

end Jumps

/-! ## Loops -/

section Loops

variable {ρ : Type} {exec : Exec ρ} {prog : List Line} {pc pct : Nat} {k : List Frame}
  {ts rest body : List Tree} {cond start : List Instr} {v cx : Int} {lblTop lblEnd : Nat}

/-- From its label on, the lines of a `while` test its condition. -/
theorem while_leads (hnodup : (autoLabels prog).Nodup)
    (h : At exec prog (.while cond v lblTop lblEnd body :: rest) k pct) (s : MachState ρ) :
    Leads exec prog pct s (testWhile exec cond v lblTop lblEnd body rest k s) := by
  have hl := h.while_lines
  have hj := hl.tail.right
  rw [List.length_map] at hj
  have hcond := (step_label exec hl s).trans (steps_instrs exec cond hl.tail s)
  rw [List.nil_append] at hcond
  let s' := execAll exec cond s
  by_cases hv : s'.vreg v = 0
  · -- the condition is false: on to the line after the label of the end
    have hend := hj.tail.right.tail
    have hjump := step_jump exec hj (takeJump_ifZero_taken hv) (hend.labelIndex hnodup)
    have hsteps := (hcond.then_silent hjump).then_silent (step_label exec hend s')
    rw [testWhile_zero hv]
    exact ⟨_, _, by omega, hsteps, rfl, h.while_rest⟩
  · have hjump := step_noJump exec hj (takeJump_ifZero_not hv)
    rw [testWhile_nonzero hv]
    exact ⟨_, _, by omega, hcond.then_silent hjump, rfl, h.while_body⟩

/-- A step without events first. -/
theorem Leads.after {s s' : MachState ρ} {r : SrcConfig ρ × List Line} {n : Nat}
    (h : Leads exec prog pct s' r) (hsteps : Steps (lineStep exec prog) n ⟨pc, s⟩ [] ⟨pct, s'⟩) :
    Leads exec prog pc s r := by
  obtain ⟨m, d, hm, hsteps', hmeets⟩ := h
  exact ⟨n + m, d, by omega, hsteps.trans hsteps', hmeets⟩

/-- The end of the body of a `for` counts down and tests. -/
theorem for_leads (hnodup : (autoLabels prog).Nodup)
    (h : At exec prog (.for start cx lblTop lblEnd body :: rest) k pct) (s : MachState ρ)
    (hpc : pc = pct + start.length + 1 + (treesLines (some (lblEnd, lblTop)) body).length) :
    Leads exec prog pc s (testFor cx lblTop lblEnd body rest k s, []) := by
  have htop := h.for_lines.right
  rw [List.length_map] at htop
  have hloop := htop.tail.right
  rw [← hpc] at hloop
  by_cases hv : (s.decr cx).vreg cx = 0
  · have hjump := step_noJump exec hloop (takeJump_loop_zero hv)
    rw [testFor_zero hv]
    refine ⟨_, _, by omega, hjump.then_silent (step_label exec hloop.tail _), rfl, ?_⟩
    rw [hpc]
    exact h.for_rest
  · have hjump := step_jump exec hloop (takeJump_loop_nonzero hv)
      (htop.labelIndex hnodup)
    rw [testFor_nonzero hv]
    exact ⟨_, _, by omega, hjump.then_silent (step_label exec htop _), rfl, h.for_body⟩

/-- **The end of a block or of the body of a loop.** -/
theorem endStep_leads (hnodup : (autoLabels prog).Nodup) (h : FrameEnd exec prog k pc)
    (s : MachState ρ) {r : SrcConfig ρ × List Line} (hr : endStep exec k s = some r) :
    Leads exec prog pc s r := by
  cases h with
  | done => cases hr
  | block hsilent hsits hframes =>
    obtain ⟨n, hn, hsteps⟩ := hsilent s
    cases hr
    exact ⟨n, _, hn, hsteps, rfl, hsits, hframes⟩
  | «while» hsits hframes hpc =>
    cases hr
    have hat := At.mk hsits hframes
    have hback := hat.while_lines.tail.right.tail.right
    rw [List.length_map] at hback
    rw [while_length] at hpc
    have hgo : takeJump .always s = some (true, s) := rfl
    have hjump := step_jump exec hback hgo
      (hat.while_lines.labelIndex hnodup)
    refine (while_leads hnodup hat s).after (n := 1) ?_
    convert hjump using 2
    omega
  | «for» hsits hframes hpc =>
    cases hr
    rw [for_length] at hpc
    exact for_leads hnodup ⟨hsits, hframes⟩ s (by omega)

end Loops

/-! ## Leaving a loop early -/

section LoopJumps

variable {ρ : Type} {exec : Exec ρ} {prog : List Line} {pc : Nat} {k : List Frame}

/-- The label of the end of the innermost loop stands before what follows the loop. -/
theorem breakOut_at (hnodup : (autoLabels prog).Nodup) (h : FrameEnd exec prog k pc) {b c : Nat}
    (hk : loopLabels k = some (b, c)) : ∃ rest k' i ls, breakOut k = some (rest, k') ∧
      labelIndex prog (.auto b) = some i ∧ Sits prog i (.label (.auto b) :: ls) ∧
      At exec prog rest k' (i + 1) := by
  induction h with
  | done => cases hk
  | block _ _ _ ih => exact ih hk
  | @«while» _ _ _ _ _ rest k _ _ hsits hframes _ _ =>
    cases hk
    have hat := At.mk hsits hframes
    have hend := hat.while_lines.tail.right.tail.right.tail
    rw [List.length_map] at hend
    exact ⟨rest, k, _, _, rfl, hend.labelIndex hnodup, hend, hat.while_rest⟩
  | @«for» _ _ _ _ _ rest k _ _ hsits hframes _ _ =>
    cases hk
    have hat := At.mk hsits hframes
    have hend := hat.for_lines.right.tail.right.tail
    rw [List.length_map] at hend
    exact ⟨rest, k, _, _, rfl, hend.labelIndex hnodup, hend, hat.for_rest⟩

theorem breakOut_none : ∀ k : List Frame, loopLabels k = none → breakOut k = none
  | [], _ => rfl
  | .block _ :: k, h => breakOut_none k h

theorem innermostLoop_none : ∀ k : List Frame, loopLabels k = none → innermostLoop k = none
  | [], _ => rfl
  | .block _ :: k, h => innermostLoop_none k h

/-- The label `continue` jumps to is the one before the test of a `while`, or before the body of a
`for`. -/
theorem innermostLoop_at (hnodup : (autoLabels prog).Nodup) (h : FrameEnd exec prog k pc)
    {b c : Nat} (hk : loopLabels k = some (b, c)) :
    (∃ cond v body rest k' i, innermostLoop k = some (.while cond v c b body rest, k') ∧
      labelIndex prog (.auto c) = some i ∧
      At exec prog (.while cond v c b body :: rest) k' i) ∨
    ∃ cx body rest k', innermostLoop k = some (.for cx c b body rest, k') := by
  induction h with
  | done => cases hk
  | block _ _ _ ih => exact ih hk
  | @«while» cond v _ _ body rest k i _ hsits hframes _ _ =>
    cases hk
    have hat := At.mk hsits hframes
    exact .inl ⟨cond, v, body, rest, k, i, rfl, hat.while_lines.labelIndex hnodup, hat⟩
  | @«for» _ cx _ _ body rest k _ _ _ _ _ _ =>
    cases hk
    exact .inr ⟨cx, body, rest, k, rfl⟩

end LoopJumps

/-! ## Flag tests -/

section FlagTests

variable {ρ : Type} {exec : Exec ρ} {prog : List Line} {pc i : Nat} {s : MachState ρ}
  {rest : List Line}

/-- The jump of an operand is taken, or the run goes on after it. -/
theorem operandJump_steps (exec : Exec ρ) {e : FlagExpr} {set b : Bool} {label : Nat}
    (h : Sits prog pc (operandJump e set label ++ rest)) (hj : jumpsOn s.flag e set = some b)
    (hi : labelIndex prog (.auto label) = some i) :
    ∃ n, Steps (lineStep exec prog) n ⟨pc, s⟩ []
      ⟨if b then i else pc + (operandJump e set label).length, s⟩ := by
  cases e with
  | flag id =>
    simp only [jumpsOn] at hj
    split_ifs at hj with hid
    cases hj
    cases hb : s.flag id == set with
    | true => exact ⟨1, step_jump exec h (by simp only [takeJump, hid, hb, if_true]) hi⟩
    | false => exact ⟨1, step_noJump exec h (by simp only [takeJump, hid, hb, if_true])⟩
  | _ =>
    cases hj
    exact ⟨0, .refl _⟩

/-- Two operands, either of which enters the case. -/
theorem orLines_steps (hnodup : (autoLabels prog).Nodup) {l r : FlagExpr} {skip : Nat} {b : Bool}
    (h : Sits prog pc (testLines (.or l r) skip ++ rest))
    (ht : testEnters s.flag (.or l r) = some b) (hi : labelIndex prog (.auto skip) = some i) :
    ∃ n, Steps (lineStep exec prog) n ⟨pc, s⟩ []
      ⟨if b then pc + (testLines (.or l r) skip).length else i, s⟩ := by
  simp only [testLines, List.append_assoc, List.cons_append, List.nil_append] at h
  have hjmp := h.right.right
  have hlabel := step_label exec hjmp.tail s
  have henter := hjmp.tail.labelIndex hnodup
  have hlen : pc + (testLines (.or l r) skip).length =
      pc + (operandJump l true (skip + 1)).length +
        (operandJump r true (skip + 1)).length + 1 + 1 := by
    simp only [testLines, List.length_append, List.length_cons, List.length_nil]
    omega
  rw [hlen]
  simp only [testEnters] at ht
  cases hl : jumpsOn s.flag l true with
  | none =>
    rw [hl] at ht
    cases ht
  | some bl =>
    obtain ⟨n, hn⟩ := operandJump_steps exec h hl henter
    rw [hl] at ht
    cases bl with
    | true =>
      cases ht
      exact ⟨n + 1, hn.then_silent hlabel⟩
    | false =>
      obtain ⟨m, hm⟩ := operandJump_steps exec h.right ht henter
      cases b with
      | true => exact ⟨n + (m + 1), hn.then_silent (hm.then_silent hlabel)⟩
      | false => exact ⟨n + (m + 1), hn.then_silent (hm.then_silent (step_jump exec hjmp rfl hi))⟩

/-- Two operands, either of which skips the case. -/
theorem andLines_steps {l r : FlagExpr} {skip : Nat} {b : Bool}
    (h : Sits prog pc (testLines (.and l r) skip ++ rest))
    (ht : testEnters s.flag (.and l r) = some b) (hi : labelIndex prog (.auto skip) = some i) :
    ∃ n, Steps (lineStep exec prog) n ⟨pc, s⟩ []
      ⟨if b then pc + (testLines (.and l r) skip).length else i, s⟩ := by
  simp only [testLines, List.append_assoc] at h
  have hlen : pc + (testLines (.and l r) skip).length =
      pc + (operandJump l false skip).length + (operandJump r false skip).length := by
    simp only [testLines, List.length_append]
    omega
  rw [hlen]
  simp only [testEnters] at ht
  cases hl : jumpsOn s.flag l false with
  | none =>
    rw [hl] at ht
    cases ht
  | some bl =>
    obtain ⟨n, hn⟩ := operandJump_steps exec h hl hi
    rw [hl] at ht
    cases bl with
    | true =>
      cases ht
      exact ⟨n, hn⟩
    | false =>
      obtain ⟨br, hr, rfl⟩ := Option.map_eq_some_iff.mp ht
      obtain ⟨m, hm⟩ := operandJump_steps exec h.right hr hi
      cases br <;> exact ⟨n + m, hn.then_silent hm⟩

/-- The first operand leads to the label before the last jump, and so does the jump after the
second one. -/
theorem xorLines_steps (hnodup : (autoLabels prog).Nodup) {l r : FlagExpr} {skip : Nat} {b : Bool}
    (h : Sits prog pc (testLines (.xor l r) skip ++ rest))
    (ht : testEnters s.flag (.xor l r) = some b) (hi : labelIndex prog (.auto skip) = some i) :
    ∃ n, Steps (lineStep exec prog) n ⟨pc, s⟩ []
      ⟨if b then pc + (testLines (.xor l r) skip).length else i, s⟩ := by
  simp only [testLines, List.append_assoc, List.cons_append, List.nil_append] at h
  have hjmp := h.right.right
  have hset := hjmp.tail
  let pset := pc + (operandJump l true (skip + 1)).length + (operandJump r false skip).length + 1
  have hlen : pc + (testLines (.xor l r) skip).length =
      pset + 1 + (operandJump r true skip).length := by
    simp only [testLines, List.length_append, List.length_cons, List.length_nil, pset]
    omega
  rw [hlen]
  -- from the label on, the second operand decides
  have hsecond : ∀ b', (jumpsOn s.flag r true).map not = some b' →
      ∃ n, Steps (lineStep exec prog) n ⟨pset, s⟩ []
        ⟨if b' then pset + 1 + (operandJump r true skip).length else i, s⟩ := by
    intro b' hb'
    obtain ⟨br, hr, rfl⟩ := Option.map_eq_some_iff.mp hb'
    obtain ⟨m, hm⟩ := operandJump_steps exec hset.tail hr hi
    have hlabel := step_label exec hset s
    cases br <;> exact ⟨1 + m, hlabel.then_silent hm⟩
  simp only [testEnters] at ht
  cases hl : jumpsOn s.flag l true with
  | none =>
    rw [hl] at ht
    cases ht
  | some bl =>
    obtain ⟨n, hn⟩ := operandJump_steps exec h hl (hset.labelIndex hnodup)
    rw [hl] at ht
    cases bl with
    | true =>
      obtain ⟨m, hm⟩ := hsecond b ht
      exact ⟨n + m, hn.then_silent hm⟩
    | false =>
      cases hr : jumpsOn s.flag r false with
      | none =>
        rw [hr] at ht
        cases ht
      | some br =>
        obtain ⟨m, hm⟩ := operandJump_steps exec h.right hr hi
        rw [hr] at ht
        cases br with
        | true =>
          cases ht
          exact ⟨n + m, hn.then_silent hm⟩
        | false =>
          have hgo : takeJump .always s = some (true, s) := rfl
          have hback := step_jump exec hjmp hgo (hset.labelIndex hnodup)
          obtain ⟨p, hp⟩ := hsecond b ht
          exact ⟨n + (m + (1 + p)), hn.then_silent (hm.then_silent (hback.then_silent hp))⟩

/-- **The lines of a flag test enter the case, or jump to the end of it.** -/
theorem testLines_steps (hnodup : (autoLabels prog).Nodup) {condition : FlagExpr} {skip : Nat}
    {b : Bool} (h : Sits prog pc (testLines condition skip ++ rest))
    (ht : testEnters s.flag condition = some b) (hi : labelIndex prog (.auto skip) = some i) :
    ∃ n, Steps (lineStep exec prog) n ⟨pc, s⟩ []
      ⟨if b then pc + (testLines condition skip).length else i, s⟩ := by
  cases condition with
  | or l r => exact orLines_steps hnodup h ht hi
  | and l r => exact andLines_steps h ht hi
  | xor l r => exact xorLines_steps hnodup h ht hi
  | flag id =>
    obtain ⟨b', hb', rfl⟩ := Option.map_eq_some_iff.mp ht
    obtain ⟨n, hn⟩ := operandJump_steps exec h hb' hi
    cases b' <;> exact ⟨n, hn⟩
  | not e =>
    cases e with
    | flag id =>
      obtain ⟨b', hb', rfl⟩ := Option.map_eq_some_iff.mp ht
      obtain ⟨n, hn⟩ := operandJump_steps exec h hb' hi
      cases b' <;> exact ⟨n, hn⟩
    | _ =>
      cases ht
      exact ⟨0, .refl _⟩

end FlagTests

/-! ## Branches -/

section Branches

variable {ρ : Type} {exec : Exec ρ} {prog : List Line} {pc : Nat} {k : List Frame}
  {cond : List Instr} {v : Int} {lblElse lblEnd : Nat} {thenBody rest : List Tree}
  {elseBody : Option (List Tree)}

/-- **The lines of an `if` evaluate its condition once and lead to the branch it chooses.** -/
theorem ite_leads (hnodup : (autoLabels prog).Nodup)
    (h : At exec prog (.ite cond v lblElse lblEnd thenBody elseBody :: rest) k pc)
    (s : MachState ρ) {branch : List Tree} (hbranch : branch =
      if (execAll exec cond s).vreg v = 0 then elseBody.getD [] else thenBody) :
    Leads exec prog pc s
      (⟨branch, .block rest :: k, execAll exec cond s⟩, cond.map .instr) := by
  have hcond := steps_instrs exec cond h.ite_lines s
  have hjz := h.ite_lines.right
  rw [List.length_map] at hjz
  by_cases hv : (execAll exec cond s).vreg v = 0
  · rw [if_pos hv] at hbranch
    subst hbranch
    have helse := h.ite_sits_else
    cases elseBody with
    | none =>
      have hjump := step_jump exec hjz (takeJump_ifZero_taken hv)
        (helse.labelIndex hnodup)
      exact ⟨_, _, by omega, hcond.then_silent hjump, rfl, helse.nil, h.ite_noElse⟩
    | some elseTrees =>
      have hjump := step_jump exec hjz (takeJump_ifZero_taken hv)
        (helse.tail.labelIndex hnodup)
      exact ⟨_, _, by omega,
        (hcond.then_silent hjump).then_silent (step_label exec helse.tail _), rfl, h.ite_else⟩
  · rw [if_neg hv] at hbranch
    subst hbranch
    have hjump := step_noJump exec hjz (takeJump_ifZero_not hv)
    exact ⟨_, _, by omega, hcond.then_silent hjump, rfl, h.ite_then hnodup⟩

end Branches

/-! ## The simulation -/

section Simulation

variable {ρ : Type} {exec : Exec ρ} {prog : List Line} {whole : List Tree}

/-- The lines meet a step, or they are already there and less is left of the trees. -/
def Follows (exec : Exec ρ) (prog : List Line) (pc : Nat) (c : SrcConfig ρ)
    (r : SrcConfig ρ × List Line) : Prop :=
  ∃ n d, Steps (lineStep exec prog) n ⟨pc, c.state⟩ r.2 d ∧ Meets exec prog r.1 d ∧
    (0 < n ∨ sizeOf r.1.cur < sizeOf c.cur)

theorem Leads.follows {pc : Nat} {c : SrcConfig ρ} {r : SrcConfig ρ × List Line}
    (h : Leads exec prog pc c.state r) : Follows exec prog pc c r := by
  obtain ⟨n, d, hn, hsteps, hmeets⟩ := h
  exact ⟨n, d, hsteps, hmeets, .inl hn⟩

theorem sizeOf_rest_lt (t : Tree) (rest : List Tree) : sizeOf rest < sizeOf (t :: rest) := by
  rw [List.cons.sizeOf_spec]
  omega

theorem sizeOf_body_lt (condition : FlagExpr) (skip : Nat) (body rest : List Tree) :
    sizeOf body < sizeOf (Tree.check condition skip body :: rest) := by
  rw [List.cons.sizeOf_spec, Tree.check.sizeOf_spec]
  omega

/-- **A step of the first tree is some steps of its lines.** -/
theorem treeStep_follows (hnodup : (autoLabels prog).Nodup) (hwhole : At exec prog whole [] 0)
    (hprog : prog = treesLines none whole)
    {t : Tree} {rest : List Tree} {k : List Frame} {pc : Nat} {s : MachState ρ}
    (h : At exec prog (t :: rest) k pc) (hok : isFaithful ⟨t :: rest, k, s⟩)
    {r : SrcConfig ρ × List Line} (hr : treeStep exec whole t rest k s = some r) :
    Follows exec prog pc ⟨t :: rest, k, s⟩ r := by
  cases t with
  | code is =>
    cases hr
    have hrest := h.tail
    rw [Tree.lines, List.length_map] at hrest
    exact ⟨_, _, steps_instrs exec is h.sits_head s, ⟨rfl, hrest⟩, .inr (sizeOf_rest_lt _ _)⟩
  | exit e args =>
    cases hr
    have hstep : lineStep exec prog ⟨pc, s⟩ = some (⟨prog.length, s⟩, [.exit e args]) := by
      have hget := Sits.getElem? h.sits_head
      simp only [lineStep, hget]
    exact ⟨1, _, .single hstep, ⟨rfl, sits_end prog, .done⟩, .inl Nat.one_pos⟩
  | label name =>
    cases hr
    exact ⟨1, _, step_label exec h.sits_head s, ⟨rfl, h.tail⟩, .inl Nat.one_pos⟩
  | goto name =>
    obtain ⟨⟨ts, k'⟩, hfind, rfl⟩ := Option.map_eq_some_iff.mp hr
    have hfinds : Finds exec prog name 0 (treesLines none whole) (findTrees name whole []) :=
      findTrees_at hnodup whole hwhole
    rw [hfind] at hfinds
    obtain ⟨i, hi, hat⟩ := hfinds
    have hindex : labelIndex prog (.user name) = some i := by
      rw [hprog]
      exact hi
    rw [Nat.zero_add] at hat
    exact ⟨1, _, step_jump exec h.sits_head rfl hindex, ⟨rfl, hat⟩, .inl Nat.one_pos⟩
  | brk =>
    have hs := h.sits_head
    have htail := h.tail
    simp only [treeStep] at hr
    cases hk : loopLabels k with
    | none =>
      -- outside of a loop no line is printed
      rw [hk, Tree.lines] at htail
      rw [breakOut_none k hk] at hr
      cases hr
      exact ⟨0, _, .refl _, ⟨rfl, htail⟩, .inr (sizeOf_rest_lt _ _)⟩
    | some p =>
      obtain ⟨b, c⟩ := p
      obtain ⟨rest', k', i, ls, hbreak, hi, hlabel, hat⟩ := breakOut_at hnodup h.frames hk
      rw [hbreak] at hr
      rw [hk, Tree.lines] at hs
      cases hr
      exact ⟨_, _, (step_jump exec hs rfl hi).then_silent (step_label exec hlabel s), ⟨rfl, hat⟩,
        .inl (by omega)⟩
  | cont =>
    have hs := h.sits_head
    have htail := h.tail
    simp only [treeStep] at hr
    cases hk : loopLabels k with
    | none =>
      rw [hk, Tree.lines] at htail
      rw [innermostLoop_none k hk] at hr
      cases hr
      exact ⟨0, _, .refl _, ⟨rfl, htail⟩, .inr (sizeOf_rest_lt _ _)⟩
    | some p =>
      obtain ⟨b, c⟩ := p
      rw [hk, Tree.lines] at hs
      rcases innermostLoop_at hnodup h.frames hk with
        ⟨cond, v, body, rest', k', i, hloop, hi, hat⟩ | ⟨cx, body, rest', k', hloop⟩
      · rw [hloop] at hr
        cases hr
        have hjump : Steps (lineStep exec prog) 1 ⟨pc, s⟩ [] ⟨i, s⟩ := step_jump exec hs rfl hi
        exact ((while_leads hnodup hat s).after hjump).follows (c := ⟨_, k, s⟩)
      · -- the label of a `for` is not where its test is
        simp only [isFaithful, hloop, Bool.false_eq_true] at hok
  | ite cond v lblElse lblEnd thenBody elseBody =>
    cases hr
    exact (ite_leads hnodup h s rfl).follows (c := ⟨_, k, s⟩)
  | «while» cond v lblTop lblEnd body =>
    cases hr
    exact (while_leads hnodup h s).follows (c := ⟨_, k, s⟩)
  | «for» start cx lblTop lblEnd body =>
    cases hr
    have hstart := steps_instrs exec start h.for_lines s
    have htop := h.for_lines.right
    rw [List.length_map] at htop
    exact ⟨_, _, hstart.then_silent (step_label exec htop _), ⟨rfl, h.for_body⟩, .inl (by omega)⟩
  | check condition skip body =>
    have henters : testEnters s.flag condition = some (condition.eval s.flag) :=
      beq_iff_eq.mp hok
    have hskip := h.check_lines.right.right
    obtain ⟨n, hsteps⟩ := @testLines_steps _ exec _ _ _ _ _ hnodup _ _ _ h.check_lines henters
      (hskip.labelIndex hnodup)
    simp only [treeStep] at hr
    cases hc : condition.eval s.flag with
    | true =>
      rw [hc, if_pos rfl] at hr hsteps
      cases hr
      exact ⟨n, _, hsteps, ⟨rfl, h.check_body⟩, .inr (sizeOf_body_lt _ _ _ _)⟩
    | false =>
      rw [hc] at hr hsteps
      cases hr
      exact ⟨_, _, hsteps.then_silent (step_label exec hskip s), ⟨rfl, h.check_rest⟩,
        .inl (by omega)⟩
  | dropped conditions =>
    have hnone : conditions.any (FlagExpr.eval s.flag) = false := by
      simpa [isFaithful] using hok
    simp only [treeStep, hnone] at hr
    cases hr
    have htail := h.tail
    rw [Tree.lines] at htail
    exact ⟨0, _, .refl _, ⟨rfl, htail⟩, .inr (sizeOf_rest_lt _ _)⟩

/-- A configuration without a step is met by a position without one. -/
theorem srcStep_halts (hwhole : At exec prog whole [] 0) (hnodup : (autoLabels prog).Nodup)
    (hprog : prog = treesLines none whole) {c : SrcConfig ρ} {d : Config ρ}
    (h : Meets exec prog c d) (hok : isFaithful c) (hc : srcStep exec whole c = none) :
    lineStep exec prog d = none := by
  obtain ⟨cur, k, s⟩ := c
  obtain ⟨hstate, hat⟩ := h
  cases cur with
  | nil =>
    cases k with
    | nil =>
      -- the end of the function
      have hend := hat.frames
      generalize hp : d.pc + _ = pc at hend
      cases hend
      have hpc : d.pc = prog.length := hp
      simp only [lineStep, hpc, List.getElem?_eq_none (Nat.le_refl _)]
    | cons f k => cases f <;> cases hc
  | cons t rest =>
    cases t with
    | goto name =>
      have hfinds : Finds exec prog name 0 (treesLines none whole) (findTrees name whole []) :=
        findTrees_at hnodup whole hwhole
      have hfind : findTrees name whole [] = none := Option.map_eq_none_iff.mp hc
      rw [hfind] at hfinds
      have hindex : labelIndex prog (.user name) = none := by
        rw [hprog]
        exact hfinds
      have hget : prog[d.pc]? = some (.jump .always (.user name)) :=
        Sits.getElem? hat.sits_head
      simp only [lineStep, hget, takeJump, hindex, Option.map_none]
    | brk =>
      simp only [srcStep, treeStep] at hc
      split at hc <;> cases hc
    | cont =>
      simp only [srcStep, treeStep] at hc
      split at hc
      · rename_i f k' hloop
        cases f <;> cases hc
      · cases hc
    | check condition skip body =>
      simp only [srcStep, treeStep] at hc
      split_ifs at hc
    | dropped conditions =>
      have hnone : conditions.any (FlagExpr.eval s.flag) = false := by
        simpa [isFaithful] using hok
      simp only [srcStep, treeStep, hnone] at hc
      cases hc
    | _ => cases hc

/-- **The lines of the trees simulate the trees** in every faithful configuration. -/
theorem trees_simulation (hwhole : At exec prog whole [] 0) (hnodup : (autoLabels prog).Nodup)
    (hprog : prog = treesLines none whole) :
    Simulation (srcStep exec whole) (lineStep exec prog) (fun c => isFaithful c)
      (Meets exec prog)
      (fun c => sizeOf c.cur) where
  step := by
    rintro ⟨cur, k, s⟩ ⟨pc, s'⟩ c' ev ⟨hstate, hat⟩ hok hc
    cases hstate
    cases cur with
    | nil =>
      have hend := hat.frames
      exact (endStep_leads hnodup hend s hc).follows (c := ⟨[], k, s⟩)
    | cons t rest => exact treeStep_follows hnodup hwhole hprog hat hok hc
  halt := fun h hok hc => ⟨0, _, .refl _, srcStep_halts hwhole hnodup hprog h hok hc⟩

end Simulation

/-! ## Function bodies -/

section Bodies

variable {ρ : Type}

/-- The lines of a function body. -/
def bodyLines (body : List Stmt) (s : FnState) : List Line := (emitStmts body s).lines

/-- The trees of a function body. -/
def bodyTrees (body : List Stmt) (s : FnState) : List Tree := (outlineStmts body s).trees

/-- **The lines printed for a function body run as its statements do**, from every state, as long
as the run of the statements is faithful. -/
theorem emitStmts_runs (body : List Stmt) (s : FnState) (hs : s.loopDepth = 0) (exec : Exec ρ)
    (st : MachState ρ)
    (hok : ∀ n, isFaithful (run (srcStep exec (bodyTrees body s)) n
      ⟨bodyTrees body s, [], st⟩).1) :
    SameRuns (srcStep exec (bodyTrees body s)) (lineStep exec (bodyLines body s))
      (fun c d => c.state = d.state) ⟨bodyTrees body s, [], st⟩ ⟨0, st⟩ := by
  obtain ⟨-, hlines, -, -, hlabels⟩ := emitStmts_lowers body none s hs
  have hnodup : (autoLabels (bodyLines body s)).Nodup := hlabels.nodup
  have hsits : Sits (bodyLines body s) 0 (treesLines none (bodyTrees body s)) := by
    refine ⟨[], [], ?_, rfl⟩
    rw [List.append_nil, List.nil_append]
    exact hlines
  have hat : At exec (bodyLines body s) (bodyTrees body s) [] 0 := by
    refine ⟨hsits, ?_⟩
    have hlength : 0 + (treesLines (loopLabels []) (bodyTrees body s)).length =
        (bodyLines body s).length := by
      rw [Nat.zero_add]
      exact congrArg List.length hlines.symm
    rw [hlength]
    exact .done
  exact ((trees_simulation hat hnodup hlines).sameRuns ⟨rfl, hat⟩ hok).mono
    fun h => h.state

/-! ### Two loops -/

/-- `mov` loads a constant; the other lines do nothing. -/
def movExec : Exec Unit := fun i s =>
  match i with
  | .op .mov [.vreg v, .imm n] => s.setVreg v (BitVec.ofInt 16 n)
  | _ => s

def zeroState : MachState Unit := ⟨fun _ => 0, fun _ => false, ()⟩

/-- `for (CX in 2..0) { nop(); }` -/
def twoNops : List Stmt :=
  [.forStmt 0 (.litInt 2) (.litInt 0) [.expr 0 (.call (.ident "nop") [])]]

/-- `for (CX in 2..0) { nop(); continue; }` -/
def twoNopsContinue : List Stmt :=
  [.forStmt 0 (.litInt 2) (.litInt 0) [.expr 0 (.call (.ident "nop") []), .continueStmt 0]]

/-- A run that has halted is faithful if its first configurations are. -/
theorem faithful_of_halted {exec : Exec ρ} {whole : List Tree} {c : SrcConfig ρ} {m : Nat}
    (hhalt : (srcStep exec whole (run (srcStep exec whole) m c).1).isNone)
    (h : ∀ n < m + 1, isFaithful (run (srcStep exec whole) n c).1) (n : Nat) :
    isFaithful (run (srcStep exec whole) n c).1 := by
  rcases Nat.lt_or_ge n (m + 1) with hn | hn
  · exact h n hn
  · rw [run_eq_of_halted (Option.isNone_iff_eq_none.mp hhalt) (by omega : m ≤ n)]
    exact h m (Nat.lt_succ_self m)

set_option maxRecDepth 100000 in
theorem emitStmts_runs_twoNops :
    SameRuns (srcStep movExec (bodyTrees twoNops {})) (lineStep movExec (bodyLines twoNops {}))
      (fun c d => c.state = d.state) ⟨bodyTrees twoNops {}, [], zeroState⟩ ⟨0, zeroState⟩ :=
  emitStmts_runs twoNops {} rfl movExec zeroState
    (faithful_of_halted (m := 11) (by decide) (by decide))

set_option maxRecDepth 100000 in
/-- A `continue` in a `for` does not count down: the lines run for ever. -/
theorem continue_for_differs :
    (emitStmts twoNopsContinue {}).state.comp.errors = [] ∧
    ¬SameRuns (srcStep movExec (bodyTrees twoNopsContinue {}))
      (lineStep movExec (bodyLines twoNopsContinue {})) (fun c d => c.state = d.state)
      ⟨bodyTrees twoNopsContinue {}, [], zeroState⟩ ⟨0, zeroState⟩ := by
  refine ⟨by decide, fun h => ?_⟩
  have hhalt : (srcStep movExec (bodyTrees twoNopsContinue {})
      (run (srcStep movExec (bodyTrees twoNopsContinue {})) 11
        ⟨bodyTrees twoNopsContinue {}, [], zeroState⟩).1).isNone := by decide
  -- the statements emit four events, the lines a fifth one
  have hsrc : (run (srcStep movExec (bodyTrees twoNopsContinue {})) 11
      ⟨bodyTrees twoNopsContinue {}, [], zeroState⟩).2.length = 4 := by decide
  have htgt : (run (lineStep movExec (bodyLines twoNopsContinue {})) 12
      ⟨0, zeroState⟩).2.length = 5 := by decide
  obtain ⟨n, hn⟩ := h.covers 12
  have hle := hn.length_le
  rw [htgt] at hle
  have hpre : (run (srcStep movExec (bodyTrees twoNopsContinue {})) n
      ⟨bodyTrees twoNopsContinue {}, [], zeroState⟩).2.length ≤ 4 := by
    rw [← hsrc]
    rcases Nat.le_total n 11 with hn | hn
    · exact (run_isPrefix hn _).length_le
    · exact Nat.le_of_eq (congrArg (fun r => r.2.length)
        (run_eq_of_halted (Option.isNone_iff_eq_none.mp hhalt) hn))
  omega

end Bodies

end Nib.Compile