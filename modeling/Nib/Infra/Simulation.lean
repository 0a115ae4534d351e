import Mathlib.Tactic.Common

/-!
# Deterministic systems that emit events

A system is a partial step function; a step emits a list of events. A simulation relates two
systems step by step. The simulating side may stay where it is for a step, as long as a size of
the other side shrinks.

* `Steps` — exactly `n` steps
* `Simulation.sameRuns` — related states emit the same events, for ever if need be
-/

namespace Nib.Infra

variable {σ τ ε : Type}

/-- A step leads to a state and emits events. A state without a step has halted. -/
abbrev System (σ ε : Type) : Type := σ → Option (σ × List ε)

/-- The state and the events after at most `n` steps. -/
def run (step : System σ ε) : Nat → σ → σ × List ε
  | 0, s => (s, [])
  | n + 1, s =>
    match step s with
    | none => (s, [])
    | some (s', ev) =>
      let r := run step n s'
      (r.1, ev ++ r.2)

/-- Exactly `n` steps. -/
inductive Steps (step : System σ ε) : Nat → σ → List ε → σ → Prop
  | refl (s : σ) : Steps step 0 s [] s
  | head {n : Nat} {s s' s'' : σ} {ev evs : List ε} : step s = some (s', ev) →
      Steps step n s' evs s'' → Steps step (n + 1) s (ev ++ evs) s''

namespace Steps

variable {step : System σ ε}

theorem single {s s' : σ} {ev : List ε} (h : step s = some (s', ev)) : Steps step 1 s ev s' := by
  have := Steps.head h (Steps.refl s')
  rwa [List.append_nil] at this

theorem trans {m n : Nat} {s s' s'' : σ} {ev evs : List ε} (h : Steps step m s ev s')
    (h' : Steps step n s' evs s'') : Steps step (m + n) s (ev ++ evs) s'' := by
  induction h with
  | refl => simpa using h'
  | head hs _ ih =>
    rw [Nat.add_right_comm, List.append_assoc]
    exact .head hs (ih h')

/-- Two runs in a row, the second without events. -/
theorem then_silent {m n : Nat} {s s' s'' : σ} {ev : List ε} (h : Steps step m s ev s')
    (h' : Steps step n s' [] s'') : Steps step (m + n) s ev s'' := by
  have := h.trans h'
  rwa [List.append_nil] at this

theorem run_eq {n : Nat} {s s' : σ} {ev : List ε} (h : Steps step n s ev s') :
    run step n s = (s', ev) := by
  induction h with
  | refl => rfl
  | head hs _ ih => simp only [run, hs, ih]

end Steps

section Run

variable {step : System σ ε}

theorem run_halted {s : σ} (h : step s = none) : ∀ n, run step n s = (s, [])
  | 0 => rfl
  | n + 1 => by simp only [run, h]

/-- A run of `n` steps has made them all, or it has halted before. -/
theorem run_steps : ∀ (n : Nat) (s : σ), ∃ k, k ≤ n ∧
    Steps step k s (run step n s).2 (run step n s).1 ∧
    (k = n ∨ step (run step n s).1 = none)
  | 0, s => ⟨0, Nat.le_refl _, .refl s, .inl rfl⟩
  | n + 1, s => by
    cases hs : step s with
    | none =>
      refine ⟨0, Nat.zero_le _, ?_, .inr ?_⟩
      · rw [run_halted hs]
        exact .refl s
      · rw [run_halted hs]
        exact hs
    | some r =>
      obtain ⟨s', ev⟩ := r
      obtain ⟨k, hk, hsteps, hend⟩ := run_steps n s'
      simp only [run, hs]
      refine ⟨k + 1, by omega, .head hs hsteps, ?_⟩
      rcases hend with rfl | hend
      · exact .inl rfl
      · exact .inr hend

/-- A longer run continues a shorter one. -/
theorem run_add : ∀ (m n : Nat) (s : σ), run step (m + n) s =
    ((run step n (run step m s).1).1, (run step m s).2 ++ (run step n (run step m s).1).2)
  | 0, n, s => by simp [run]
  | m + 1, n, s => by
    rw [Nat.add_right_comm]
    cases hs : step s with
    | none => simp [run_halted hs]
    | some r =>
      obtain ⟨s', ev⟩ := r
      simp only [run, hs]
      rw [run_add m n s']
      simp

theorem run_isPrefix {m n : Nat} (h : m ≤ n) (s : σ) : (run step m s).2 <+: (run step n s).2 := by
  obtain ⟨k, rfl⟩ := Nat.exists_eq_add_of_le h
  rw [run_add]
  exact ⟨_, rfl⟩

/-- After it has halted a run does not change. -/
theorem run_eq_of_halted {m n : Nat} {s : σ} (h : step (run step m s).1 = none) (hmn : m ≤ n) :
    run step n s = run step m s := by
  obtain ⟨k, rfl⟩ := Nat.exists_eq_add_of_le hmn
  rw [run_add, run_halted h]
  simp

/-- A halted run has no further steps. -/
theorem not_steps_of_halted {m k : Nat} (hk : m < k) {s s' : σ} {ev : List ε}
    (h : step (run step m s).1 = none) : ¬Steps step k s ev s' := by
  intro hsteps
  induction hsteps generalizing m with
  | refl => exact absurd hk (Nat.not_lt_zero m)
  | head hs _ ih =>
    cases m with
    | zero =>
      rw [run, hs] at h
      cases h
    | succ m =>
      simp only [run, hs] at h
      exact ih (Nat.lt_of_succ_lt_succ hk) h

end Run

/-! ## Simulation -/

/-- The two systems emit the same events from `s` and `t`: whatever one has emitted after some
steps, the other has after some, and one halts if and only if the other does. -/
structure SameRuns (src : System σ ε) (tgt : System τ ε) (same : σ → τ → Prop) (s : σ) (t : τ) :
    Prop where
  /-- Every state of the first run is met by the second, after the same events. -/
  reaches : ∀ n, ∃ m, (run tgt m t).2 = (run src n s).2 ∧ same (run src n s).1 (run tgt m t).1
  /-- The second run emits nothing else. -/
  covers : ∀ m, ∃ n, (run tgt m t).2 <+: (run src n s).2
  halts : (∃ n, src (run src n s).1 = none) ↔ ∃ m, tgt (run tgt m t).1 = none

theorem SameRuns.mono {src : System σ ε} {tgt : System τ ε} {same same' : σ → τ → Prop} {s : σ}
    {t : τ} (h : SameRuns src tgt same s t) (hsame : ∀ {s t}, same s t → same' s t) :
    SameRuns src tgt same' s t where
  reaches n := by
    obtain ⟨m, hev, hst⟩ := h.reaches n
    exact ⟨m, hev, hsame hst⟩
  covers := h.covers
  halts := h.halts

/-- A step of `src` from a state in which `ok` holds is some steps of `tgt`. -/
structure Simulation (src : System σ ε) (tgt : System τ ε) (ok : σ → Prop) (R : σ → τ → Prop)
    (size : σ → Nat) : Prop where
  step : ∀ {s t s' ev}, R s t → ok s → src s = some (s', ev) →
    ∃ n t', Steps tgt n t ev t' ∧ R s' t' ∧ (0 < n ∨ size s' < size s)
  halt : ∀ {s t}, R s t → ok s → src s = none → ∃ n t', Steps tgt n t [] t' ∧ tgt t' = none

namespace Simulation

variable {src : System σ ε} {tgt : System τ ε} {ok : σ → Prop} {R : σ → τ → Prop}
  {size : σ → Nat}

/-- A run of the source is met by the target. -/
theorem forward (h : Simulation src tgt ok R size) : ∀ (n : Nat) {s : σ} {t : τ}, R s t →
    (∀ k, ok (run src k s).1) →
    ∃ m t', Steps tgt m t (run src n s).2 t' ∧ R (run src n s).1 t'
  | 0, s, t, hr, _ => ⟨0, t, .refl t, hr⟩
  | n + 1, s, t, hr, hok => by
    cases hs : src s with
    | none =>
      rw [run_halted hs]
      exact ⟨0, t, .refl t, hr⟩
    | some r =>
      obtain ⟨s', ev⟩ := r
      obtain ⟨m, t', hsteps, hr', -⟩ := h.step hr (hok 0) hs
      have hok' : ∀ k, ok (run src k s').1 := by
        intro k
        have := hok (k + 1)
        simpa only [run, hs] using this
      obtain ⟨m', t'', hsteps', hr''⟩ := forward h n hr' hok'
      simp only [run, hs]
      exact ⟨m + m', t'', hsteps.trans hsteps', hr''⟩

/-- The target makes at least `m` steps while it meets the source, or both have halted. The source
stands still only finitely often, which the inner induction on its size shows. -/
theorem progress (h : Simulation src tgt ok R size) : ∀ (m b : Nat) {s : σ} {t : τ}, R s t →
    size s ≤ b → (∀ k, ok (run src k s).1) →
    ∃ n k t', Steps tgt k t (run src n s).2 t' ∧
      (m ≤ k ∨ src (run src n s).1 = none ∧ tgt t' = none)
  | 0, _, s, t, _, _, _ => ⟨0, 0, t, .refl t, .inl (Nat.zero_le _)⟩
  | m + 1, b, s, t, hr, hb, hok => by
    cases hs : src s with
    | none =>
      obtain ⟨k, t', hsteps, hhalt⟩ := h.halt hr (hok 0) hs
      exact ⟨0, k, t', hsteps, .inr ⟨hs, hhalt⟩⟩
    | some r =>
      obtain ⟨s', ev⟩ := r
      have hok' : ∀ k, ok (run src k s').1 := by
        intro k
        have := hok (k + 1)
        simpa only [run, hs] using this
      obtain ⟨i, t1, hsteps, hr1, hmove⟩ := h.step hr (hok 0) hs
      rcases Nat.eq_zero_or_pos i with hi | hi
      · have hsize : size s' < size s := hmove.resolve_left (by omega)
        match b with
        | 0 => omega
        | b + 1 =>
          obtain ⟨n, k, t', hsteps', hend⟩ := progress h (m + 1) b hr1 (by omega) hok'
          refine ⟨n + 1, i + k, t', ?_, ?_⟩
          · simp only [run, hs]
            exact hsteps.trans hsteps'
          · simp only [run, hs]
            rcases hend with hk | hend
            · exact .inl (by omega)
            · exact .inr hend
      · obtain ⟨n, k, t', hsteps', hend⟩ := progress h m (size s') hr1 (Nat.le_refl _) hok'
        refine ⟨n + 1, i + k, t', ?_, ?_⟩
        · simp only [run, hs]
          exact hsteps.trans hsteps'
        · simp only [run, hs]
          rcases hend with hk | hend
          · exact .inl (by omega)
          · exact .inr hend
termination_by m b => (m, b)

/-- **Related states run alike**, as long as `ok` holds along the run of the source. -/
theorem sameRuns (h : Simulation src tgt ok R size) {s : σ} {t : τ} (hr : R s t)
    (hok : ∀ n, ok (run src n s).1) : SameRuns src tgt R s t where
  reaches n := by
    obtain ⟨m, t', hsteps, hr'⟩ := h.forward n hr hok
    refine ⟨m, ?_⟩
    rw [hsteps.run_eq]
    exact ⟨rfl, hr'⟩
  covers m := by
    obtain ⟨n, k, t', hsteps, hend⟩ := h.progress m (size s) hr (Nat.le_refl _) hok
    refine ⟨n, ?_⟩
    have hk := hsteps.run_eq
    rcases hend with hmk | ⟨-, hhalt⟩
    · have hp := @run_isPrefix _ _ tgt _ _ hmk t
      rw [hk] at hp
      exact hp
    · rcases Nat.le_total m k with hmk | hkm
      · have hp := @run_isPrefix _ _ tgt _ _ hmk t
        rw [hk] at hp
        exact hp
      · have hhalt' : tgt (run tgt k t).1 = none := by
          rw [hk]
          exact hhalt
        rw [run_eq_of_halted hhalt' hkm]
        exact ⟨[], (List.append_nil _).trans (congrArg Prod.snd hk)⟩
  halts := by
    constructor
    · rintro ⟨n, hn⟩
      obtain ⟨m, t', hsteps, hr'⟩ := h.forward n hr hok
      obtain ⟨k, t'', hsteps', hhalt⟩ := h.halt hr' (hok n) hn
      refine ⟨m + k, ?_⟩
      rw [(hsteps.then_silent hsteps').run_eq]
      exact hhalt
    · rintro ⟨m, hm⟩
      obtain ⟨n, k, t', hsteps, hend⟩ := h.progress (m + 1) (size s) hr (Nat.le_refl _) hok
      rcases hend with hk | ⟨hn, -⟩
      · exact absurd hsteps (not_steps_of_halted hk hm)
      · exact ⟨n, hn⟩

end Simulation

end Nib.Infra
