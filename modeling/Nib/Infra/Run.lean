import Mathlib.Tactic.Common

/-!
# Runs of instructions

A list of instructions is run one step after the other, as long as there is one.

* `RunsBy.append` — one list after the other
* `RunsBy.map` — the instructions are some of a larger set
* `RunsBy.stepped` — every instruction of a run has a step
* `RunsBy.keeps` — what every instruction keeps, the run keeps
-/

namespace Nib.Infra

variable {ι κ σ τ : Type} {step : ι → σ → Option σ} {run : List ι → σ → Option σ}

/-- `run` is the run for the instructions of `step`. -/
structure RunsBy (step : ι → σ → Option σ) (run : List ι → σ → Option σ) : Prop where
  nil : ∀ s, run [] s = some s
  cons : ∀ i is s, run (i :: is) s = (step i s).bind (run is)

namespace RunsBy

theorem head (h : RunsBy step run) {i : ι} {is : List ι} {s t : σ} (hi : step i s = some t) :
    run (i :: is) s = run is t := by
  rw [h.cons, hi, Option.bind_some]

theorem append_eq (h : RunsBy step run) (is js : List ι) (s : σ) :
    run (is ++ js) s = (run is s).bind (run js) := by
  induction is generalizing s with
  | nil =>
    rw [h.nil]
    rfl
  | cons i is ih =>
    rw [List.cons_append, h.cons, h.cons, Option.bind_assoc]
    exact congrArg _ (funext ih)

theorem append (h : RunsBy step run) {is js : List ι} {s t : σ} (his : run is s = some t) :
    run (is ++ js) s = run js t := by
  rw [h.append_eq, his, Option.bind_some]

/-- Instructions of another kind that do the same. -/
theorem map (h : RunsBy step run) {step' : κ → σ → Option σ} {run' : List κ → σ → Option σ}
    (h' : RunsBy step' run') {f : κ → ι} (hf : ∀ j, step (f j) = step' j) (js : List κ) :
    run (js.map f) = run' js := by
  funext s
  induction js generalizing s with
  | nil => exact (h.nil s).trans (h'.nil s).symm
  | cons j js ih =>
    rw [List.map_cons, h.cons, h'.cons, hf]
    exact congrArg _ (funext ih)

/-- No instruction of a run is stuck. -/
theorem stepped (h : RunsBy step run) {is : List ι} {s t : σ} (hrun : run is s = some t) :
    ∀ i ∈ is, ∃ u v, step i u = some v := by
  induction is generalizing s with
  | nil => exact fun _ hi => nomatch hi
  | cons j js ih =>
    rw [h.cons] at hrun
    obtain ⟨u, hu, hrest⟩ := Option.bind_eq_some_iff.mp hrun
    intro i hi
    rcases List.mem_cons.mp hi with rfl | hi
    · exact ⟨s, u, hu⟩
    · exact ih hrest i hi

theorem keeps (h : RunsBy step run) (g : σ → τ) {is : List ι} {s t : σ}
    (his : ∀ i ∈ is, ∀ {s t}, step i s = some t → g t = g s) (hrun : run is s = some t) :
    g t = g s := by
  induction is generalizing s with
  | nil =>
    rw [h.nil] at hrun
    cases hrun
    rfl
  | cons i is ih =>
    rw [h.cons] at hrun
    obtain ⟨u, hu, hrest⟩ := Option.bind_eq_some_iff.mp hrun
    rw [ih (fun j hj => his j (List.mem_cons_of_mem i hj)) hrest]
    exact his i List.mem_cons_self hu

end RunsBy

end Nib.Infra
