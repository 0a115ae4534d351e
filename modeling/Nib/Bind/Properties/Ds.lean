import Nib.Bind.Spec.Ds
import Mathlib.Data.List.Nodup

/-!
# `ds()` policies

* `savesDs_policy` — a function with a policy never saves `DS` through its list
* `Kept` — the invariant: what the running code needs of `DS`, and the words pushed for it
* `Kept.step` — a step that respects the policies keeps the invariant
* `policies_kept` — in a run of such steps the policies are in force and `DS` is given back
* `callee_loses_ds` — a callee without a policy changes the `DS` of its caller
-/

namespace Nib.Bind.DsProgram

section

variable {p : DsProgram} {segs : String → BitVec 16}

/-! ## What is saved -/

theorem eq_of_name {f g : DsFn} (hf : f ∈ p.functions) (hg : g ∈ p.functions)
    (h : f.name = g.name) : f = g :=
  List.inj_on_of_nodup_map p.named hf hg h

theorem computeClobbers_policy {order : List DsFn} (ho : ∀ f ∈ order, f ∈ p.functions) :
    ∀ {table : ClobberTable},
      (∀ f ∈ p.functions, f.name ∈ table → f.policy = .unspec) →
      ∀ f ∈ p.functions, f.name ∈ p.computeClobbers table order → f.policy = .unspec := by
  -- the table only ever names functions without a policy
  induction order with
  | nil => intro table ht; exact ht
  | cons f order ih =>
    intro table ht
    refine ih (fun g hg => ho g (List.mem_cons_of_mem _ hg)) ?_
    intro g hg hm
    by_cases hc : p.fnClobbers table f = true
    · rw [if_pos hc, List.mem_cons] at hm
      rcases hm with hm | hm
      · rw [eq_of_name hg (ho f List.mem_cons_self) hm]
        simp only [fnClobbers, Bool.and_eq_true, beq_iff_eq] at hc
        exact hc.2
      · exact ht g hg hm
    · rw [if_neg hc] at hm
      exact ht g hg hm

theorem savesDs_policy {f : DsFn} (hf : f ∈ p.functions) (h : f.policy ≠ .unspec) :
    p.savesDs f = false := by
  by_contra hs
  simp only [savesDs, clobbersDs, Bool.not_eq_false, Bool.and_eq_true, List.contains_iff_mem] at hs
  exact h (computeClobbers_policy (fun g hg => (p.ordered.mem_iff).1 hg)
    (fun _ _ hm => absurd hm List.not_mem_nil) f hf hs.2)

/-- At most one word is pushed for `DS`. -/
theorem tailCleanup_eq (f : DsFn) :
    p.tailCleanup f = if p.savesDs f || p.dsExplicitSave f then [.pop] else [] := by
  cases h : p.savesDs f <;> simp [tailCleanup, dsExplicitSave, h]

theorem pushes_of_source {f : DsFn} (hf : f ∈ p.functions) {src : DsSource}
    (h : f.policy.source? = some src) : p.pushes (.fn f) = true := by
  have hb : f.isBare = false := by
    cases hb : f.isBare with
    | false => rfl
    | true => rw [p.bareSetup f hf hb] at h; cases h
  cases hs : p.savesDs f <;> simp [pushes, dsExplicitSave, hb, hs, h]

theorem exitOps_eq {f : DsFn} (hf : f ∈ p.functions) {tail : Bool}
    (ht : tail = true → f.isBare = true → p.savesDs f = false) :
    p.exitOps tail (.fn f) = if p.pushes (.fn f) then [.pop] else [] := by
  have hc := tailCleanup_eq (p := p) f
  cases hb : f.isBare with
  | false =>
    have he : p.epilogue f = p.tailCleanup f := by simp [epilogue, tailCleanup, hb]
    simp [exitOps, pushes, hb, he, hc]
  | true =>
    have he : p.dsExplicitSave f = false := by simp [dsExplicitSave, p.bareSetup f hf hb]
    cases tail with
    | false => simp [exitOps, epilogue, pushes, hb]
    | true => simp [exitOps, pushes, hb, hc, he, ht rfl hb]

theorem run_prologue {f : DsFn} (hf : f ∈ p.functions) (ds : BitVec 16) (words : List (BitVec 16)) :
    runDsOps segs (p.prologue f) (ds, words) =
      some ((f.policy.source?.map (dsSourceValue segs)).getD ds,
        (if p.pushes (.fn f) then [ds] else []) ++ words) := by
  cases hb : f.isBare with
  | true => simp [prologue, pushes, runDsOps, hb, p.bareSetup f hf hb]
  | false =>
    cases hp : f.policy.source? with
    | none =>
      cases hs : p.savesDs f <;> simp [prologue, dsSetup, pushes, dsExplicitSave, runDsOps, *]
    | some src =>
      cases hs : p.savesDs f <;> simp [prologue, dsSetup, pushes, dsExplicitSave, runDsOps, *]

/-! ## The invariant -/

/-- What `DS` has to be while code runs. -/
def required (segs : String → BitVec 16) (fr : DsFrame) : Option (BitVec 16) :=
  match fr.code with
  | .fn f =>
    match f.policy.source? with
    | some src => some (dsSourceValue segs src)
    | none => if f.policy = .unspec then none else some fr.entry
  | .outside _ => none

theorem required_eq_none {fr : DsFrame} (h : hasPolicy fr.code = false) :
    required segs fr = none := by
  cases hc : fr.code with
  | outside e => simp [required, hc]
  | fn f =>
    have hp : f.policy = .unspec := by simpa [hasPolicy, hc] using h
    simp [required, hc, hp, DsPolicy.source?]

/-- Each frame has the `DS` that it needs: the innermost in the register, the others when what they
called returns. What was pushed is what each frame was entered with. -/
def Kept (p : DsProgram) (segs : String → BitVec 16) :
    BitVec 16 → List (BitVec 16) → List DsFrame → Prop
  | _, _, [] => True
  | ds, words, fr :: rest =>
    (∀ f, fr.code = .fn f → f ∈ p.functions) ∧ (∀ w, required segs fr = some w → ds = w) ∧
      ∃ below, words = (if p.pushes fr.code then [fr.entry] else []) ++ below ∧
        Kept p segs fr.entry below rest

theorem Kept.change {ds ds' : BitVec 16} {words : List (BitVec 16)} {frames : List DsFrame}
    (h : Kept p segs ds words frames) (hn : ∀ fr ∈ frames.head?, hasPolicy fr.code = false) :
    Kept p segs ds' words frames := by
  cases frames with
  | nil => trivial
  | cons fr rest =>
    obtain ⟨hm, -, hb⟩ := h
    refine ⟨hm, fun w hw => ?_, hb⟩
    rw [required_eq_none (hn fr rfl)] at hw
    cases hw

theorem Goes.mem {i : DsInsn} {c : DsCode} (h : p.Goes i c) (f : DsFn) (hc : c = .fn f) :
    f ∈ p.functions := by
  subst hc
  cases i with
  | call name => exact List.mem_of_find?_eq_some h
  | tailcall name => exact List.mem_of_find?_eq_some h
  | icall name => exact h
  | ntailcall name => exact h
  | uses => exact h.elim
  | defines value => exact h.elim
  | asm value clobbers => exact h.elim
  | ret => exact h.elim

theorem Kept.enter {s s' : DsState} {c : DsCode} (h : Kept p segs s.ds s.words s.frames)
    (hc : ∀ f, c = .fn f → f ∈ p.functions) (he : p.enter segs c s = some s') :
    Kept p segs s'.ds s'.words s'.frames := by
  cases c with
  | outside e =>
    simp only [DsProgram.enter, entryOps, runDsOps, Option.map_some, Option.some.injEq] at he
    subst he
    exact ⟨hc, fun w hw => by simp [required] at hw, s.words, rfl, h⟩
  | fn f =>
    simp only [DsProgram.enter, entryOps, run_prologue (hc f rfl), Option.map_some,
      Option.some.injEq] at he
    subst he
    refine ⟨hc, fun w hw => ?_, s.words, rfl, h⟩
    cases hp : f.policy.source? with
    | some src => simpa [required, hp] using hw
    | none =>
      simp only [required, hp] at hw
      split at hw
      · cases hw
      · simpa using hw

/-- What an exit leaves: the `DS` of the entry if it was pushed, else the present one. -/
theorem leave_eq {s : DsState} {fr : DsFrame} {rest : List DsFrame} {tail : Bool}
    (h : Kept p segs s.ds s.words (fr :: rest))
    (ht : tail = true → ∀ f, fr.code = .fn f → f.isBare = true → p.savesDs f = false) :
    ∃ below, Kept p segs fr.entry below rest ∧
      p.leave segs tail fr rest s = some
        { ds := if p.pushes fr.code then fr.entry else s.ds, words := below, frames := rest } := by
  obtain ⟨hm, -, below, hw, hb⟩ := h
  refine ⟨below, hb, ?_⟩
  have hx : p.exitOps tail fr.code = if p.pushes fr.code then [.pop] else [] := by
    cases hc : fr.code with
    | outside e => rfl
    | fn f => exact exitOps_eq (hm f hc) fun h' => ht h' f hc
  cases hp : p.pushes fr.code with
  | true => simp [DsProgram.leave, hx, hw, hp, runDsOps]
  | false => simp [DsProgram.leave, hx, hw, hp, runDsOps]

/-- Code with a policy that has pushed nothing has the `DS` it was entered with. -/
theorem Kept.entry {ds : BitVec 16} {words : List (BitVec 16)} {fr : DsFrame} {rest : List DsFrame}
    (h : Kept p segs ds words (fr :: rest)) (hp : hasPolicy fr.code = true)
    (hn : p.pushes fr.code = false) : ds = fr.entry := by
  obtain ⟨hm, hr, -⟩ := h
  cases hc : fr.code with
  | outside e => rw [hc] at hp; cases hp
  | fn f =>
    rw [hc] at hp hn
    have hs : f.policy.source? = none := by
      cases hs : f.policy.source? with
      | none => rfl
      | some src => rw [pushes_of_source (hm f hc) hs] at hn; cases hn
    have hu : f.policy ≠ .unspec := by simpa [hasPolicy] using hp
    exact hr _ (by simp [required, hc, hs, hu])

theorem Kept.leave {s s' : DsState} {fr : DsFrame} {rest : List DsFrame} {tail : Bool}
    (h : Kept p segs s.ds s.words s.frames) (hf : s.frames = fr :: rest)
    (hr : p.Respects (.leaves tail) s) (hl : p.leave segs tail fr rest s = some s') :
    Kept p segs s'.ds s'.words s'.frames := by
  rw [hf] at h
  obtain ⟨hcallers, htail⟩ := hr fr rest hf
  obtain ⟨below, hb, he⟩ := leave_eq h htail
  rw [he, Option.some.injEq] at hl
  subst hl
  cases hp : p.pushes fr.code with
  | true => exact hb
  | false =>
    -- nothing was pushed: `DS` is that of the entry, or the caller needs none
    by_cases hd : s.ds = fr.entry
    · simpa [hd] using hb
    · have hn : hasPolicy fr.code = false := by
        by_contra hc
        exact hd (h.entry (by simpa using hc) hp)
      exact hb.change (hcallers hn hp hd)

/-! ## Runs -/

theorem Kept.step {s s' : DsState} {l : DsLabel} (h : Kept p segs s.ds s.words s.frames)
    (hs : p.DsStep segs l s s') (hr : p.Respects l s) :
    Kept p segs s'.ds s'.words s'.frames := by
  -- a pinned variable, a block of assembly and outside code change `DS` in the same way
  have hchanges : ∀ value, p.Respects (.changes value) s →
      Kept p segs value s.words s.frames := by
    intro value hv
    by_cases he : value = s.ds
    · rw [he]; exact h
    · exact h.change (hv he)
  cases hs with
  | uses hf hi => exact h
  | defines hf hi => exact hchanges _ hr
  | asm hf hi => exact hchanges _ hr
  | outside hf => exact hchanges _ hr
  | call hf hi ht hg he => exact h.enter hg.mem he
  | interrupt hm he => exact h.enter (fun _ hc => by cases hc; exact hm) he
  | ret hf hi hl => exact h.leave hf hr hl
  | outsideRet hf hk hl => exact h.leave hf hr hl
  | tailcall hf hi ht hg hl he => exact (h.leave hf hr hl).enter hg.mem he

theorem Kept.run {s₀ s : DsState} (h : p.DsRun segs p.Respects s₀ s) :
    Kept p segs s.ds s.words s.frames := by
  induction h with
  | start ds => trivial
  | step _ hs hr ih => exact ih.step hs hr

theorem Kept.inForce {s : DsState} (h : Kept p segs s.ds s.words s.frames) : InForce segs s := by
  intro f entry rest hf src hsrc
  rw [hf] at h
  exact h.2.1 _ (by simp [required, hsrc])

theorem Kept.givesBack {s : DsState} (h : Kept p segs s.ds s.words s.frames) :
    p.GivesBack segs s := by
  intro f entry rest hf hu tail
  rw [hf] at h
  have hsaves : p.savesDs f = false := savesDs_policy (h.1 f rfl) hu
  have htail : tail = true → ∀ g, DsCode.fn f = .fn g → g.isBare = true → p.savesDs g = false := by
    intro _ g hg _
    cases hg
    exact hsaves
  obtain ⟨below, -, hl⟩ := leave_eq h htail
  refine ⟨_, hl, ?_⟩
  cases hp : p.pushes (.fn f) with
  | true => rfl
  | false => exact h.entry (by simpa [hasPolicy] using hu) hp

/-- The policies are kept in every state of a run in which functions with a policy do not change
`DS`, and code without one gives `DS` back to them. -/
theorem policies_kept (p : DsProgram) (segs : String → BitVec 16) {s₀ s : DsState}
    (h : p.DsRun segs p.Respects s₀ s) : p.KeepsPolicies segs s :=
  ⟨(Kept.run h).inForce, (Kept.run h).givesBack⟩

end

/-! ## A callee that loses `DS` -/

/-- `fn copy_far(...) { seg DS = ...; }`, without a policy. -/
def copyFar : DsFn := { name := "copy_far", body := [.defines 0x1234, .uses, .ret] }

/-- `fn draw() ds(0x0040) { copy_far(...); ... }` -/
def draw : DsFn :=
  { name := "draw", policy := .literal 0x40, body := [.call "copy_far", .uses, .ret] }

def drawing : DsProgram where
  functions := [draw, copyFar]
  order := [copyFar, draw]
  ordered := by decide
  named := by decide
  bareSetup := by decide
  noneBody := by decide

/-- `draw` has been entered with `DS` zero, and has called `copy_far`. -/
theorem drawing_calls {allowed : DsLabel → DsState → Prop} (ha : ∀ s, allowed .enters s) :
    drawing.DsRun (fun _ => 0) allowed { ds := 0 }
      { ds := 0x40, words := [0], frames := [⟨.fn copyFar, 0x40⟩, ⟨.fn draw, 0⟩] } := by
  have hdraw : drawing.DsRun (fun _ => 0) allowed { ds := 0 }
      { ds := 0x40, words := [0], frames := [⟨.fn draw, 0⟩] } :=
    .step (.start 0) (.interrupt (f := draw) (by decide) rfl) (ha _)
  exact .step hdraw (.call (i := .call "copy_far") (c := .fn copyFar) rfl (by decide) rfl rfl rfl)
    (ha _)

theorem policies_kept_drawing :
    drawing.KeepsPolicies (fun _ => 0)
      { ds := 0x40, words := [0], frames := [⟨.fn draw, 0⟩] } :=
  have hret : drawing.DsRun (fun _ => 0) drawing.Respects { ds := 0 }
      { ds := 0x40, words := [0], frames := [⟨.fn draw, 0⟩] } :=
    .step (drawing_calls fun _ => trivial) (.ret rfl (by decide) rfl) (by
      intro fr rest h
      obtain ⟨rfl, rfl⟩ := List.cons.inj h
      exact ⟨fun _ _ hd => absurd rfl hd, fun ht => by cases ht⟩)
  policies_kept drawing (fun _ => 0) hret

/-- After the call `DS` is what `copy_far` has put there. -/
theorem callee_loses_ds :
    ¬∀ s₀ s : DsState, drawing.DsRun (fun _ => 0) (fun _ _ => True) s₀ s →
      drawing.KeepsPolicies (fun _ => 0) s := by
  intro h
  have hdefines : drawing.DsRun (fun _ => 0) (fun _ _ => True) { ds := 0 }
      { ds := 0x1234, words := [0], frames := [⟨.fn copyFar, 0x40⟩, ⟨.fn draw, 0⟩] } :=
    .step (drawing_calls fun _ => trivial) (.defines rfl (by decide)) trivial
  have hret : drawing.DsRun (fun _ => 0) (fun _ _ => True) { ds := 0 }
      { ds := 0x1234, words := [0], frames := [⟨.fn draw, 0⟩] } :=
    .step hdefines (.ret rfl (by decide) rfl) trivial
  have hds := (h _ _ hret).inForce draw 0 [] rfl (.literal 0x40) rfl
  exact absurd hds (by decide)

end Nib.Bind.DsProgram
