import Nib.Bind.Properties.Params

/-!
# Descriptors agree with their functions

* `assignAll_pins` — pins that do not overlap are the registers of the parameters
* `propagate_pins` — also after the propagation through all functions
* `descriptor_agrees` — when an indirect call agrees with the function
-/

namespace Nib.Bind

/-! ## Pins of one function -/

namespace ParamRegs

variable {vregs : VregTable} {s : ParamRegs}

theorem give_self (i : Nat) (r : Preg) : (s.give i r).regs i = some r := Function.update_self ..

theorem give_of_ne {i j : Nat} (h : j ≠ i) (r : Preg) : (s.give i r).regs j = s.regs j :=
  Function.update_of_ne h ..

theorem follow_regs {i : Nat} {r : Preg} (w : Preg × Nat) (h : s.regs i = some r) :
    (follow s w).regs i = some r := by
  unfold follow
  split
  · rename_i hw
    have hne : i ≠ w.2 := by
      rintro rfl
      rw [h] at hw
      simp at hw
    rw [give_of_ne hne]
    exact h
  · exact h

theorem fill_regs {i : Nat} {r : Preg} (p : FnParam × Nat) (h : s.regs i = some r) :
    (fill vregs s p).regs i = some r := by
  unfold fill
  split
  · exact h
  · rename_i hp
    have hne : i ≠ p.2 := by
      rintro rfl
      exact hp (.inr (by rw [h]; rfl))
    split
    · rw [give_of_ne hne]
      exact h
    · exact h

/-- What is in use after pins have been given: the pins and their halves. -/
structure Pinned (pins : List Preg) (s : ParamRegs) : Prop where
  regs : ∀ i r, pins[i]? = some r → s.regs i = some r
  used : ∀ x, s.used x = true → ∃ r ∈ pins, x = r ∨ r.aliasLo = some x ∨ r.aliasHi = some x

theorem pinned_nil : Pinned [] {} := ⟨fun _ _ h => (nomatch h), fun _ h => (nomatch h)⟩

theorem alias_of_half {r x : Preg} (h : x = r ∨ r.aliasLo = some x ∨ r.aliasHi = some x) :
    pregsAlias r x = true := by
  unfold pregsAlias
  rcases h with rfl | h | h <;> simp [*]

/-- The next pin is free, and is given. -/
theorem Pinned.honor {pins : List Preg} (h : Pinned pins s) {p : FnParam} {r : Preg}
    (hplace : p.place ≠ .stack) (hpref : (vregs p.vreg).prefer = some r)
    (hapart : ∀ q ∈ pins, pregsAlias q r = false) :
    Pinned (pins ++ [r]) (honor vregs s (p, pins.length)) := by
  have hfree : s.used r = false := by
    cases hused : s.used r with
    | false => rfl
    | true =>
      obtain ⟨q, hq, hx⟩ := h.used r hused
      have := alias_of_half hx
      rw [hapart q hq] at this
      cases this
  have hgive : ParamRegs.honor vregs s (p, pins.length) = s.give pins.length r := by
    unfold ParamRegs.honor
    rw [if_neg hplace, hpref]
    simp [hfree]
  rw [hgive]
  refine ⟨fun i q hq => ?_, fun x hx => ?_⟩
  · by_cases hi : i = pins.length
    · subst hi
      rw [List.getElem?_append_right (Nat.le_refl _), Nat.sub_self] at hq
      cases hq
      exact give_self ..
    · rw [give_of_ne hi]
      have hlt : i < pins.length := by
        have := (List.getElem?_eq_some_iff.mp hq).1
        rw [List.length_append, List.length_singleton] at this
        omega
      rw [List.getElem?_append_left hlt] at hq
      exact h.regs i q hq
  · simp only [give, Bool.or_eq_true, beq_iff_eq] at hx
    rcases hx with ((hx | hx) | hx) | hx
    · obtain ⟨q, hq, hqx⟩ := h.used x hx
      exact ⟨q, List.mem_append_left _ hq, hqx⟩
    · exact ⟨r, List.mem_append_right _ (List.mem_singleton_self r), .inl hx⟩
    · exact ⟨r, List.mem_append_right _ (List.mem_singleton_self r), .inr (.inl hx)⟩
    · exact ⟨r, List.mem_append_right _ (List.mem_singleton_self r), .inr (.inr hx)⟩

/-- The parameters that follow are given their pins one by one. -/
theorem honor_pins : ∀ {params : List FnParam} {pins rest : List Preg} {s : ParamRegs},
    Pinned pins s → params.map FnParam.pin = rest.map some →
    (∀ p ∈ params, p.place ≠ .stack) →
    (∀ p ∈ params, ∀ r, p.pin = some r → (vregs p.vreg).prefer = some r) →
    (pins ++ rest).Pairwise (fun q r => pregsAlias q r = false) →
    Pinned (pins ++ rest) ((params.zipIdx pins.length).foldl (honor vregs) s)
  | [], pins, rest, s, h, hpins, _, _, _ => by
    have hrest : rest = [] := by
      cases rest with
      | nil => rfl
      | cons r rest => cases hpins
    subst hrest
    rw [List.append_nil]
    exact h
  | p :: params, pins, rest, s, h, hpins, hplace, hpref, hpair => by
    cases rest with
    | nil => cases hpins
    | cons r rest =>
      obtain ⟨hp, hpins⟩ := List.cons.inj hpins
      have hapart : ∀ q ∈ pins, pregsAlias q r = false := fun q hq =>
        (List.pairwise_append.mp hpair).2.2 q hq r (List.mem_cons_self ..)
      have hstep := h.honor (hplace p (List.mem_cons_self ..))
        (hpref p (List.mem_cons_self ..) r hp) hapart
      have hlen : (pins ++ [r]).length = pins.length + 1 := by simp
      have hassoc : pins ++ [r] ++ rest = pins ++ r :: rest := by simp
      have ih := honor_pins hstep hpins
        (fun q hq => hplace q (List.mem_cons_of_mem _ hq))
        (fun q hq => hpref q (List.mem_cons_of_mem _ hq)) (by rw [hassoc]; exact hpair)
      rw [hlen, hassoc] at ih
      exact ih

/-- **Pins that do not overlap are the registers of the parameters.** -/
theorem assignAll_pins {params : List FnParam} {insns : List Insn} {pins : List Preg}
    (hpins : params.map FnParam.pin = pins.map some) (hplace : ∀ p ∈ params, p.place ≠ .stack)
    (hpref : ∀ p ∈ params, ∀ r, p.pin = some r → (vregs p.vreg).prefer = some r)
    (hpair : pins.Pairwise fun q r => pregsAlias q r = false) {i : Nat} {r : Preg}
    (hr : pins[i]? = some r) : (assignAll vregs params insns).regs i = some r := by
  have hhonor := (honor_pins pinned_nil hpins hplace hpref hpair).regs i r hr
  refine foldl_keeps (P := fun s : ParamRegs => s.regs i = some r) ?_ fun _ p _ _ h => fill_regs p h
  exact foldl_keeps (P := fun s : ParamRegs => s.regs i = some r) hhonor
    fun _ w _ _ h => follow_regs w h

end ParamRegs

/-! ## Pins of all functions -/

namespace PropState

/-- A vreg that prefers a register keeps it. -/
structure KeepsPrefs (s s' : PropState) : Prop where
  prefer : ∀ fi v r, (s.vregs fi v).prefer = some r → (s'.vregs fi v).prefer = some r

theorem KeepsPrefs.refl (s : PropState) : KeepsPrefs s s := ⟨fun _ _ _ h => h⟩

theorem KeepsPrefs.trans {a b c : PropState} (h : KeepsPrefs a b) (h' : KeepsPrefs b c) :
    KeepsPrefs a c := ⟨fun fi v r hr => h'.prefer fi v r (h.prefer fi v r hr)⟩

theorem keepsPrefs_foldl {α : Type} {f : PropState → α → PropState}
    (h : ∀ s x, KeepsPrefs s (f s x)) (l : List α) (s : PropState) : KeepsPrefs s (l.foldl f s) :=
  ParamRegs.foldl_keeps (.refl s) fun _ _ _ _ hk => hk.trans (h _ _)

/-- Changing one vreg keeps the preferences when it keeps that of this vreg. -/
theorem keepsPrefs_update {s : PropState} {fi v : Nat} {x : VregInfo}
    (h : ∀ r, (s.vregs fi v).prefer = some r → x.prefer = some r) :
    KeepsPrefs s { s with
      vregs := Function.update s.vregs fi (Function.update (s.vregs fi) v x) } := by
  refine ⟨fun fj w r hr => ?_⟩
  by_cases hf : fj = fi
  · subst hf
    by_cases hw : w = v
    · subst hw
      simpa using h r hr
    · simpa [hw] using hr
  · simpa [hf] using hr

theorem keepsPrefs_prefer (s : PropState) (fi v : Nat) (r : Option Preg) :
    KeepsPrefs s (s.prefer fi v r) := by
  unfold prefer
  split
  · exact .refl s
  · split
    · exact .refl s
    · rename_i hnone
      refine keepsPrefs_update fun q hq => ?_
      rw [hq] at hnone
      simp at hnone

theorem keepsPrefs_markSeg (s : PropState) (fi v : Nat) : KeepsPrefs s (s.markSeg fi v) :=
  keepsPrefs_update fun _ h => h

theorem keepsPrefs_preferReturns (s : PropState) (caller : Nat) (rets : List (Option Nat))
    (returns : List FnReturn) : KeepsPrefs s (s.preferReturns caller rets returns) := by
  refine keepsPrefs_foldl (fun s x => ?_) _ _
  dsimp only
  split
  · exact keepsPrefs_prefer ..
  · exact .refl s

theorem keepsPrefs_callerArg (fi caller : Nat) (s : PropState) (a : Nat × FnParam × Nat) :
    KeepsPrefs s (callerArg fi caller s a) := by
  unfold callerArg
  split
  · exact .refl s
  · dsimp only
    split
    · exact (keepsPrefs_prefer ..).trans (keepsPrefs_markSeg ..)
    · exact keepsPrefs_prefer ..

theorem keepsPrefs_callerEdge (fi : Nat) (fn : BindFn) (s : PropState) (e : CallEdge) :
    KeepsPrefs s (callerEdge fi fn s e) := by
  unfold callerEdge
  split
  · exact .refl s
  · exact (keepsPrefs_foldl (keepsPrefs_callerArg fi e.caller) _ _).trans
      (keepsPrefs_preferReturns ..)

theorem keepsPrefs_externEdge (externs : List ExternFn) (s : PropState) (e : CallEdge) :
    KeepsPrefs s (externEdge externs s e) := by
  unfold externEdge
  split
  · exact .refl s
  · split
    · exact .refl s
    · exact (keepsPrefs_foldl (fun s x => keepsPrefs_prefer ..) _ _).trans
        (keepsPrefs_preferReturns ..)

theorem keepsPrefs_resolve (fns : List BindFn) (edges : List CallEdge) (s : PropState) (fi : Nat) :
    KeepsPrefs s (resolve fns edges s fi) := by
  unfold resolve
  split
  · exact .refl s
  · rename_i fn _
    have hassign : KeepsPrefs s (s.assignFn fn fi) := ⟨fun _ _ _ h => h⟩
    exact hassign.trans (keepsPrefs_foldl (keepsPrefs_callerEdge fi fn) edges _)

/-- **Every function gets its pins**, where they do not overlap. -/
theorem propagate_pins {fns : List BindFn} {externs : List ExternFn} {fi : Nat} {fn : BindFn}
    {pins : List Preg} (hf : fns[fi]? = some fn) (hpins : fn.params.map FnParam.pin = pins.map some)
    (hplace : ∀ p ∈ fn.params, p.place ≠ .stack)
    (hpref : ∀ p ∈ fn.params, ∀ r, p.pin = some r → (fn.vregs p.vreg).prefer = some r)
    (hpair : pins.Pairwise fun q r => pregsAlias q r = false)
    (herr : (propagatePreferences fns externs).errors = 0) {i : Nat} {r : Preg}
    (hr : pins[i]? = some r) : (propagatePreferences fns externs).regs fi i = some r := by
  have hkeeps : KeepsRegs ((topoSort (buildCallGraph fns) fns.length).foldl
      (resolve fns (buildCallGraph fns)) (afterExterns fns externs))
      (propagatePreferences fns externs) := keepsRegs_foldl keepsRegs_preferParams _ _
  have hlt : fi < fns.length := (List.getElem?_eq_some_iff.mp hf).1
  obtain ⟨before, after, hl⟩ := List.append_of_mem (mem_topoSort hlt)
  rw [hkeeps.errors, hl] at herr
  obtain ⟨hregs, -⟩ := foldl_resolve_regs hf (hl ▸ topoSort_nodup _ _) herr
  rw [hkeeps.regs, hl, hregs]
  refine ParamRegs.assignAll_pins hpins hplace (fun p hp q hq => ?_) hpair hr
  have hinit : ((initial fns).vregs fi p.vreg).prefer = some q := by
    show (((fns[fi]?.map BindFn.vregs).getD fun _ => {}) p.vreg).prefer = some q
    rw [hf]
    exact hpref p hp q hq
  have hexterns : KeepsPrefs (initial fns) (afterExterns fns externs) :=
    keepsPrefs_foldl (keepsPrefs_externEdge externs) _ _
  have hbefore := keepsPrefs_foldl (keepsPrefs_resolve fns (buildCallGraph fns)) before
    (afterExterns fns externs)
  exact hbefore.prefer fi p.vreg q (hexterns.prefer fi p.vreg q hinit)

end PropState

/-! ## The two readings of a declaration -/

theorem readPlace_of_pin (text : Text) {pin : Option Preg} (h : pin.isSome) :
    readPlace text pin = .register := if_pos h

theorem descriptor_pins (d : FnDecl) : d.descriptor.params.map EParam.pin = d.pins := by
  unfold FnDecl.descriptor FnDecl.pins FnDecl.header
  rw [List.map_flatMap, List.map_flatMap]
  refine congrArg (fun f => List.flatMap f d.params) (funext fun p => ?_)
  unfold externParam fnParam
  split <;> rfl

theorem descriptor_place {d : FnDecl} {x : EParam} (hx : x ∈ d.descriptor.params)
    (hpin : x.pin.isSome) : x.place = .register := by
  obtain ⟨p, -, hx⟩ := List.mem_flatMap.mp hx
  unfold externParam at hx
  split at hx
  · rcases List.mem_cons.mp hx with rfl | hx
    · exact readPlace_of_pin _ hpin
    · rw [List.mem_singleton] at hx
      subst hx
      exact readPlace_of_pin _ hpin
  · rw [List.mem_singleton] at hx
    subst hx
    exact readPlace_of_pin _ hpin

theorem header_place {d : FnDecl} {x : ParamClass × AbiPlace × Option Preg} (hx : x ∈ d.header)
    (hpin : x.2.2.isSome) : x.2.1 = .register := by
  obtain ⟨p, -, hx⟩ := List.mem_flatMap.mp hx
  unfold fnParam at hx
  split at hx
  · rcases List.mem_cons.mp hx with rfl | hx
    · exact readPlace_of_pin _ hpin
    · rw [List.mem_singleton] at hx
      subst hx
      exact readPlace_of_pin _ hpin
  · rw [List.mem_singleton] at hx
    subst hx
    exact readPlace_of_pin _ hpin

theorem readReturn_stack (r : ReturnDecl) :
    (readReturn r).place = .stack ↔ r.effectivePlace = .stack := by
  show readPlace (abiPlaceText r.effectivePlace) r.pin = .stack ↔ _
  cases hpin : r.pin with
  | some q =>
    have heff : r.effectivePlace = .register := if_pos (by rw [hpin]; rfl)
    rw [heff, readPlace_of_pin _ rfl]
  | none =>
    generalize r.effectivePlace = place
    cases place <;> decide

namespace Implements

variable {d : FnDecl} {fn : BindFn}

theorem pins (h : Implements d fn) : fn.params.map FnParam.pin = d.pins := by
  unfold FnDecl.pins
  rw [← h.params, List.map_map]
  rfl

theorem place (h : Implements d fn) {p : FnParam} (hp : p ∈ fn.params) (hpin : p.pin.isSome) :
    p.place = .register := by
  have hmem : (p.cls, p.place, p.pin) ∈ d.header := by
    rw [← h.params]
    exact List.mem_map_of_mem hp
  exact header_place hmem hpin

end Implements

/-! ## Arguments -/

/-- An argument that is placed is in its pin. -/
theorem argReg_eq_some {a : Option Preg} {x : EParam} {r : Preg} : argReg a x = some r ↔
    x.place ≠ .stack ∧ x.pin = some r ∧ ∀ q, a = some q → q = r ∨ pregsAlias q r = false := by
  unfold argReg planMove
  by_cases hplace : x.place = .stack
  · simp [hplace]
  · rw [if_neg hplace]
    cases hpin : x.pin with
    | none => simp
    | some e =>
      cases a with
      | none => simp [hplace]
      | some q =>
        by_cases hq : q = e
        · subst hq
          simp [hplace]
          exact fun h => .inl h
        · cases hal : pregsAlias q e with
          | true =>
            simp [hq, hal]
            rintro - rfl
            exact ⟨hq, hal⟩
          | false =>
            simp [hq, hal, hplace]
            rintro rfl
            exact .inr hal

theorem exists_pins {l : List (Option Preg)} (h : ∀ p ∈ l, p.isSome) :
    ∃ pins : List Preg, l = pins.map some := by
  induction l with
  | nil => exact ⟨[], rfl⟩
  | cons p l ih =>
    obtain ⟨pins, rfl⟩ := ih fun q hq => h q (List.mem_cons_of_mem _ hq)
    obtain ⟨r, rfl⟩ := Option.isSome_iff_exists.mp (h p (List.mem_cons_self ..))
    exact ⟨r :: pins, rfl⟩

section

variable {d : FnDecl} {fn : BindFn} {regs : Nat → Option Preg} {pins : List Preg}

theorem paramSlots_pins (hpins : fn.params.map FnParam.pin = pins.map some)
    (hplace : ∀ p ∈ fn.params, p.place ≠ .stack)
    (hregs : ∀ (i : Nat) r, pins[i]? = some r → regs i = some r) :
    paramSlots d.isFar fn.params regs = pins.map fun r => .reg (some r) := by
  have hlen : fn.params.length = pins.length := by
    simpa using congrArg List.length hpins
  unfold paramSlots
  refine List.ext_getElem (by simp [hlen]) fun i hi hi' => ?_
  rw [List.length_map] at hi'
  have hr : regs i = some pins[i] := hregs i _ (List.getElem?_eq_getElem hi')
  simp [hplace _ (List.getElem_mem _), hr]

theorem stackSlots_pins (pins : List Preg) :
    stackSlots (pins.map fun r => AbiSlot.reg (some r)) = 0 := by
  unfold stackSlots
  rw [List.countP_eq_zero]
  intro s hs
  obtain ⟨r, -, rfl⟩ := List.mem_map.mp hs
  exact Bool.false_ne_true

theorem stackSlots_returns {isFar : Bool} {words : Nat → Nat} {returns : List FnReturn}
    (h : ∀ r ∈ returns, r.place ≠ .stack) : stackSlots (returnSlots isFar words returns) = 0 := by
  unfold stackSlots returnSlots
  rw [List.countP_eq_zero]
  intro s hs
  obtain ⟨⟨r, i⟩, hr, rfl⟩ := List.mem_map.mp hs
  have hmem : r ∈ returns := List.mem_of_getElem? (List.mem_zipIdx_iff_getElem?.mp hr)
  dsimp only
  rw [if_neg (h r hmem)]
  exact Bool.false_ne_true

/-- Arguments that are all placed are in the pins of the descriptor. -/
theorem argRegs_pins {params : List EParam} {actual : List (Option Preg)}
    (hlen : actual.length = params.length) (hpins : params.map EParam.pin = pins.map some)
    (hplace : ∀ x ∈ params, x.place ≠ .stack)
    (hactual : ∀ (i : Nat) a r, actual[i]? = some (some a) → pins[i]? = some r →
      a = r ∨ pregsAlias a r = false) :
    (actual.zip params).map (fun a => argReg a.1 a.2) = pins.map some := by
  have hlen' : params.length = pins.length := by
    simpa using congrArg List.length hpins
  refine List.ext_getElem (by simp [hlen, hlen']) fun i hi hi' => ?_
  rw [List.length_map] at hi'
  have hip : i < params.length := hlen' ▸ hi'
  have hia : i < actual.length := hlen ▸ hip
  have hpin : params[i].pin = some pins[i] := by
    have := congrArg (fun l => l[i]?) hpins
    simpa [hip, hi'] using this
  simp only [List.getElem_map, List.getElem_zip]
  refine argReg_eq_some.mpr ⟨hplace _ (List.getElem_mem _), hpin, fun q hq => ?_⟩
  refine hactual i q pins[i] ?_ (List.getElem?_eq_getElem hi')
  rw [List.getElem?_eq_getElem hia, hq]

end

/-! ## Results and preserved registers -/

theorem returnReg_isSome {r : FnReturn} {i : Nat} :
    (returnReg r i).isSome ↔ r.place ≠ .stack ∧ (r.pin.isSome ∨ i < 4) := by
  unfold returnReg
  by_cases hplace : r.place = .stack
  · simp [hplace]
  · rw [if_neg hplace]
    cases r.pin with
    | some p => simp [hplace]
    | none =>
      unfold defaultReturnReg
      cases r.isByte <;> simp [hplace]

theorem calleePreserves_kept {d : FnDecl} {collected : Preg → Bool} {r : Preg}
    (h : d.descriptor.calleePreserves r = true) :
    fnPreserves d.preserves collected d.dsPolicy r = true := by
  unfold Descriptor.calleePreserves FnDecl.descriptor at h
  unfold fnPreserves
  dsimp only at h ⊢
  rw [Bool.or_eq_true, Bool.and_eq_true] at h
  cases hclob : collected r && !(r == .ds && d.dsPolicy != .unspec) with
  | false => rfl
  | true =>
    rw [Bool.and_eq_true, Bool.not_eq_true'] at hclob
    rcases h with h | h
    · rw [Bool.or_eq_true, List.contains_iff_mem, List.mem_filter]
      refine .inr ⟨List.contains_iff_mem.mp h, ?_⟩
      rw [hclob.1, hclob.2]
      rfl
    · rw [h.1, h.2] at hclob
      cases hclob.2

/-! ## Agreement -/

section

variable {fns : List BindFn} {externs : List ExternFn} {fi : Nat} {fn : BindFn} {d : FnDecl}
  {collected : Preg → Bool} {words : Nat → Nat} {call : IndirectCall} {callerFar : Bool}
  {actual : List (Option Preg)}

theorem reachable_of_agrees {regs : Nat → Option Preg} (hd : Implements d fn)
    (h : Agrees d fn regs collected words call callerFar actual) :
    Reachable d call callerFar actual := by
  have hpins := descriptor_pins d
  have hlen := h.args.2
  have hlen' : d.descriptor.params.length = d.pins.length := by
    rw [← hpins, List.length_map]
  have hget : ∀ (i : Nat) (hi : i < d.descriptor.params.length),
      d.pins[i]? = some d.descriptor.params[i].pin := by
    intro i hi
    rw [← hpins, List.getElem?_map, List.getElem?_eq_getElem hi]
    rfl
  have hplaced : ∀ (i : Nat) (hi : i < d.descriptor.params.length) (hia : i < actual.length),
      ∃ r, argReg actual[i] d.descriptor.params[i] = some r := by
    intro i hi hia
    refine Option.isSome_iff_exists.mp (h.given (actual[i], d.descriptor.params[i]) ?_)
    rw [← List.getElem_zip (h := by rw [List.length_zip]; omega)]
    exact List.getElem_mem _
  refine ⟨?_, ?_, ?_, h.address, hlen.trans hlen', ?_⟩
  · intro p hp
    obtain ⟨i, hi, rfl⟩ := List.getElem_of_mem hp
    have hi' : i < d.descriptor.params.length := hlen' ▸ hi
    obtain ⟨r, hr⟩ := hplaced i hi' (hlen ▸ hi')
    have heq := (List.getElem?_eq_getElem hi).symm.trans (hget i hi')
    rw [Option.some.inj heq, (argReg_eq_some.mp hr).2.1]
    rfl
  · intro i j hij r r' hi hj
    have hi' : i < d.descriptor.params.length := by
      rw [hlen']
      exact (List.getElem?_eq_some_iff.mp hi).1
    have hj' : j < d.descriptor.params.length := by
      rw [hlen']
      exact (List.getElem?_eq_some_iff.mp hj).1
    rw [hget i hi'] at hi
    rw [hget j hj'] at hj
    exact h.apart i j hij _ _ (List.getElem?_eq_getElem hi') (List.getElem?_eq_getElem hj') r r'
      (Option.some.inj hi) (Option.some.inj hj)
  · intro i r hr
    have hret : d.descriptor.returns[i]? = some (readReturn r) := by
      show (d.returns.map readReturn)[i]? = _
      rw [List.getElem?_map, hr]
      rfl
    have hlt : i < fn.returns.length := by
      rw [hd.returns, List.length_map]
      exact (List.getElem?_eq_some_iff.mp hr).1
    obtain ⟨q, hq, -⟩ := h.returns i hlt
    have hsome : (returnReg (readReturn r) i).isSome := by
      unfold Descriptor.returnReg at hq
      rw [hret, Option.bind_some] at hq
      rw [hq]
      rfl
    obtain ⟨hplace, hreg⟩ := returnReg_isSome.mp hsome
    exact ⟨fun hs => hplace ((readReturn_stack r).mpr hs), hreg⟩
  · intro i a r ha hr
    have hia := (List.getElem?_eq_some_iff.mp ha).1
    have hi' : i < d.descriptor.params.length := hlen ▸ hia
    obtain ⟨e, he⟩ := hplaced i hi' hia
    obtain ⟨-, hpin, hal⟩ := argReg_eq_some.mp he
    rw [hget i hi', hpin] at hr
    obtain rfl := Option.some.inj (Option.some.inj hr)
    have hval := Option.some.inj ((List.getElem?_eq_getElem hia).symm.trans ha)
    exact hal a hval

theorem agrees_of_reachable (hf : fns[fi]? = some fn) (hd : Implements d fn)
    (herr : (propagatePreferences fns externs).errors = 0)
    (h : Reachable d call callerFar actual) :
    Agrees d fn ((propagatePreferences fns externs).regs fi) collected words call callerFar
      actual := by
  obtain ⟨pins, hpins⟩ := exists_pins h.pinned
  -- both sides read the same list of pins: the callee from its parameters, the caller from the
  -- descriptor
  have hfnPins : fn.params.map FnParam.pin = pins.map some := hd.pins.trans hpins
  have hdPins : d.descriptor.params.map EParam.pin = pins.map some :=
    (descriptor_pins d).trans hpins
  have hsome : ∀ {α : Type} {f : α → Option Preg} {l : List α}, l.map f = pins.map some →
      ∀ x ∈ l, (f x).isSome := by
    intro α f l hl x hx
    have hmem : f x ∈ pins.map some := hl ▸ List.mem_map_of_mem hx
    obtain ⟨r, -, hr⟩ := List.mem_map.mp hmem
    rw [← hr]
    rfl
  have hfnPlace : ∀ p ∈ fn.params, p.place ≠ .stack := by
    intro p hp hstack
    have hreg := hd.place hp (hsome hfnPins p hp)
    rw [hstack] at hreg
    cases hreg
  have hdPlace : ∀ x ∈ d.descriptor.params, x.place ≠ .stack := by
    intro x hx hstack
    have hreg := descriptor_place hx (hsome hdPins x hx)
    rw [hstack] at hreg
    cases hreg
  have hpinsGet : ∀ (i : Nat) r, pins[i]? = some r → d.pins[i]? = some (some r) := by
    intro i r hr
    rw [hpins, List.getElem?_map, hr]
    rfl
  -- pins that do not share a register survive the propagation of preferences
  have hpair : pins.Pairwise fun q r => pregsAlias q r = false := by
    rw [List.pairwise_iff_getElem]
    intro i j hi hj hij
    exact h.apart i j (Nat.ne_of_lt hij) _ _ (hpinsGet i _ (List.getElem?_eq_getElem hi))
      (hpinsGet j _ (List.getElem?_eq_getElem hj))
  have hslots : paramSlots d.isFar fn.params ((propagatePreferences fns externs).regs fi) =
      pins.map fun r => .reg (some r) :=
    paramSlots_pins hfnPins hfnPlace fun i r hr =>
      PropState.propagate_pins hf hfnPins hfnPlace hd.prefer hpair herr hr
  have hlen : actual.length = d.descriptor.params.length := by
    have hl := congrArg List.length (descriptor_pins d)
    rw [List.length_map] at hl
    exact h.length.trans hl.symm
  have hargs := argRegs_pins hlen hdPins hdPlace fun i a r ha hr =>
    h.actual i a r ha (hpinsGet i r hr)
  have hreturnPlace : ∀ r ∈ fn.returns, r.place ≠ .stack := by
    intro r hr
    rw [hd.returns] at hr
    obtain ⟨q, hq, rfl⟩ := List.mem_map.mp hr
    obtain ⟨i, hi, rfl⟩ := List.getElem_of_mem hq
    exact fun hs => (h.returns i _ (List.getElem?_eq_getElem hi)).1 ((readReturn_stack _).mp hs)
  refine ⟨⟨?_, hlen⟩, ?_, ?_, ?_, ?_, h.address, fun r hr => calleePreserves_kept hr⟩
  · have hmap := congrArg (List.map AbiSlot.reg) hargs
    rw [List.map_map, List.map_map] at hmap
    rw [hslots]
    exact hmap
  · intro a ha
    have hmem : argReg a.1 a.2 ∈ pins.map some := hargs ▸ List.mem_map_of_mem ha
    obtain ⟨r, -, hr⟩ := List.mem_map.mp hmem
    rw [← hr]
    rfl
  · intro i j hij x y hx hy r r' hr hr'
    refine h.apart i j hij r r' ?_ ?_
    · rw [← descriptor_pins, List.getElem?_map, hx, ← hr]
      rfl
    · rw [← descriptor_pins, List.getElem?_map, hy, ← hr']
      rfl
  · intro i hi
    have hdecl : i < d.returns.length := by
      rw [hd.returns, List.length_map] at hi
      exact hi
    obtain ⟨hplace, hreg⟩ := h.returns i _ (List.getElem?_eq_getElem hdecl)
    have hsomeReg : (returnReg (readReturn d.returns[i]) i).isSome :=
      returnReg_isSome.mpr ⟨fun hs => hplace ((readReturn_stack _).mp hs), hreg⟩
    obtain ⟨r, hr⟩ := Option.isSome_iff_exists.mp hsomeReg
    have hget : fn.returns[i]? = some (readReturn d.returns[i]) := by
      rw [hd.returns, List.getElem?_map, List.getElem?_eq_getElem hdecl]
      rfl
    refine ⟨r, ?_, ?_⟩
    · unfold Descriptor.returnReg
      show (d.returns.map readReturn)[i]?.bind _ = _
      rw [← hd.returns, hget]
      exact hr
    · have hmem := hreturnPlace _ (List.mem_of_getElem? hget)
      unfold returnSlots
      rw [List.getElem?_map, List.getElem?_zipIdx, hget]
      simp [hmem, hr]
  · rw [hslots, stackSlots_pins, stackSlots_returns hreturnPlace]
    cases call <;> rfl

end

/-! ## Two declarations -/

/-- `far f(n: u16 in CX, str: far32 in ES:DI) -> u8`. -/
def printDecl : FnDecl where
  isFar := true
  params := [{ name := ['n'], typeText := ['u', '1', '6'], pin := some .cx },
    { name := ['s', 't', 'r'], typeText := ['f', 'a', 'r'], isFar := true, pin := some .di,
      segPin := some .es }]
  returns := [{ isByte := true }]

def printFn : BindFn where
  name := "print"
  params := [{ vreg := 0, place := .register, pin := some .cx },
    { vreg := 1, place := .register, pin := some .di },
    { vreg := 2, cls := .seg, place := .register, pin := some .es }]
  returns := [{ isByte := true }]
  vregs := fun v =>
    if v = 0 then { prefer := some .cx } else if v = 1 then { prefer := some .di }
    else { prefer := some .es, isSeg := true }

theorem printFn_implements : Implements printDecl printFn where
  params := by decide
  returns := by decide
  prefer := by decide

theorem printDecl_reachable :
    Reachable printDecl .icall false [some .ax, some .di, none] where
  pinned := by decide
  apart := by
    have hpins : printDecl.pins = [some .cx, some .di, some .es] := by decide
    have hpair : [some Preg.cx, some .di, some .es].Pairwise fun p q =>
        ∀ r r', p = some r → q = some r' → pregsAlias r r' = false := by
      refine .cons ?_ (.cons ?_ (.cons ?_ .nil)) <;> simp [pregsAlias, Preg.aliasLo, Preg.aliasHi]
    rw [hpins]
    intro i j hij r r' hi hj
    obtain ⟨hi', hir⟩ := List.getElem?_eq_some_iff.mp hi
    obtain ⟨hj', hjr⟩ := List.getElem?_eq_some_iff.mp hj
    rcases Nat.lt_or_gt_of_ne hij with hlt | hlt
    · exact List.pairwise_iff_getElem.mp hpair i j hi' hj' hlt r r' hir hjr
    · rw [pregsAlias_comm]
      exact List.pairwise_iff_getElem.mp hpair j i hj' hi' hlt r' r hjr hir
  returns := by
    intro i r hr
    cases i with
    | zero =>
      cases hr
      exact ⟨by decide, .inr (by decide)⟩
    | succ i => cases hr
  address := rfl
  length := by decide
  actual := by
    intro i a r ha hr
    rcases i with _ | _ | _ | i
    · cases ha
      cases hr
      exact .inr rfl
    · cases ha
      cases hr
      exact .inl rfl
    · cases ha
    · cases ha

/-- `far f(str: far32)`: the two words are passed on the stack. -/
def stackDecl : FnDecl where
  isFar := true
  params := [{ name := ['s', 't', 'r'], typeText := ['f', 'a', 'r'], isFar := true }]

def stackFn : BindFn where
  name := "f"
  params := [{ vreg := 0, place := .stack }, { vreg := 1, cls := .seg, place := .stack }]
  vregs := fun _ => {}

end Nib.Bind
