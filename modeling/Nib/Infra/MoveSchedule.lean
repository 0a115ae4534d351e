import Mathlib.Data.List.Nodup
import Mathlib.Tactic.Common

/-!
# Scheduling parallel moves

Moves that are to happen at once are carried out one after the other. A move may go first when it
does not overwrite what another one still has to read. When every pending move does, the source
of one of them is put aside.

* `ordered_schedule` — a move that is performed overwrites nothing that is read later
* `schedule_perm` — every move has its turn, once
* `stuck_of_save` — a source is put aside only among moves that all wait for each other
* `saves_sublist` — sources are put aside in the order of the moves
-/

namespace Nib.Infra

/-- Perform a move, or put its source aside. -/
inductive Turn (ι : Type*)
  | perform (i : ι)
  | save (i : ι)

namespace Turn

variable {ι : Type*}

def item : Turn ι → ι
  | perform i => i
  | save i => i

/-- The moves that have been performed. -/
def performed : List (Turn ι) → List ι
  | [] => []
  | perform i :: ts => i :: performed ts
  | save _ :: ts => performed ts

/-- The moves whose sources have been put aside, the first one first. -/
def saves : List (Turn ι) → List ι
  | [] => []
  | perform _ :: ts => saves ts
  | save i :: ts => i :: saves ts

theorem mem_performed {ts : List (Turn ι)} {i : ι} : i ∈ performed ts ↔ perform i ∈ ts := by
  induction ts with
  | nil => simp [performed]
  | cons t ts ih => cases t <;> simp [performed, ih]

theorem mem_saves {ts : List (Turn ι)} {i : ι} : i ∈ saves ts ↔ save i ∈ ts := by
  induction ts with
  | nil => simp [saves]
  | cons t ts ih => cases t <;> simp [saves, ih]

theorem saves_sublist_items (ts : List (Turn ι)) : (saves ts).Sublist (ts.map item) := by
  induction ts with
  | nil => exact .slnil
  | cons t ts ih =>
    cases t with
    | perform i => exact ih.cons i
    | save i => exact ih.cons_cons i

end Turn

open Turn

variable {ι : Type*} [DecidableEq ι]

section
variable (hits : ι → ι → Bool) (victim : List ι → Option ι)

/-- No other pending move reads what `i` overwrites. -/
def ready (us : List ι) (i : ι) : Bool := us.all fun j => j == i || !hits i j

/-- At most `n` turns for the pending moves. -/
def schedule : Nat → List ι → List (Turn ι)
  | 0, _ => []
  | n + 1, us =>
    match us.find? (ready hits us) with
    | some i => perform i :: schedule n (us.erase i)
    | none =>
      match victim us with
      | some i => save i :: schedule n (us.erase i)
      | none => []

/-- Every move overwrites what another one reads. -/
def Stuck (us : List ι) : Prop := ∀ i ∈ us, ∃ j ∈ us, j ≠ i ∧ hits i j = true

/-- What is performed overwrites nothing that is read later. -/
def Ordered : List (Turn ι) → Prop
  | [] => True
  | perform i :: ts => (∀ t ∈ ts, hits i t.item = false) ∧ Ordered ts
  | save _ :: ts => Ordered ts

end

variable {hits : ι → ι → Bool} {victim : List ι → Option ι}

theorem hits_of_ready {us : List ι} {i j : ι} (h : ready hits us i = true) (hj : j ∈ us)
    (hne : j ≠ i) : hits i j = false := by
  have hor := List.all_eq_true.mp h j hj
  simpa [hne] using hor

theorem stuck_of_find? {us : List ι} (h : us.find? (ready hits us) = none) : Stuck hits us := by
  intro i hi
  have hnot := List.find?_eq_none.mp h i hi
  simpa [ready] using hnot

/-- The two ways in which the next turn is chosen. -/
theorem schedule_cases (hits : ι → ι → Bool) (victim : List ι → Option ι) (n : Nat)
    (us : List ι) :
    (∃ i ∈ us, ready hits us i = true ∧
      schedule hits victim (n + 1) us = perform i :: schedule hits victim n (us.erase i)) ∨
    (∃ i, Stuck hits us ∧ victim us = some i ∧
      schedule hits victim (n + 1) us = save i :: schedule hits victim n (us.erase i)) ∨
    (victim us = none ∧ schedule hits victim (n + 1) us = []) := by
  cases hf : us.find? (ready hits us) with
  | some i =>
    refine .inl ⟨i, List.mem_of_find?_eq_some hf, List.find?_some hf, ?_⟩
    simp only [schedule, hf]
  | none =>
    cases hv : victim us with
    | some i => exact .inr (.inl ⟨i, stuck_of_find? hf, rfl, by simp only [schedule, hf, hv]⟩)
    | none => exact .inr (.inr ⟨rfl, by simp only [schedule, hf, hv]⟩)

variable (hmem : ∀ {us : List ι} {i : ι}, victim us = some i → i ∈ us)
include hmem

theorem item_mem_schedule {n : Nat} {us : List ι} {t : Turn ι}
    (ht : t ∈ schedule hits victim n us) : t.item ∈ us := by
  induction n generalizing us with
  | zero => cases ht
  | succ n ih =>
    rcases schedule_cases hits victim n us with
      ⟨i, hi, -, heq⟩ | ⟨i, -, hv, heq⟩ | ⟨-, heq⟩
    · rw [heq] at ht
      rcases List.mem_cons.mp ht with rfl | ht
      · exact hi
      · exact List.mem_of_mem_erase (ih ht)
    · rw [heq] at ht
      rcases List.mem_cons.mp ht with rfl | ht
      · exact hmem hv
      · exact List.mem_of_mem_erase (ih ht)
    · rw [heq] at ht
      cases ht

theorem ordered_schedule {n : Nat} {us : List ι} (hnd : us.Nodup) :
    Ordered hits (schedule hits victim n us) := by
  induction n generalizing us with
  | zero => trivial
  | succ n ih =>
    rcases schedule_cases hits victim n us with
      ⟨i, hi, hready, heq⟩ | ⟨i, -, -, heq⟩ | ⟨-, heq⟩
    · rw [heq]
      refine ⟨fun t ht => ?_, ih (hnd.erase i)⟩
      have hlater := item_mem_schedule hmem ht
      obtain ⟨hne, hin⟩ := hnd.mem_erase_iff.mp hlater
      exact hits_of_ready hready hin hne
    · rw [heq]
      exact ih (hnd.erase i)
    · rw [heq]
      trivial

theorem schedule_perm (hsome : ∀ us : List ι, us ≠ [] → ∃ i, victim us = some i) {n : Nat}
    {us : List ι} (hn : us.length ≤ n) : ((schedule hits victim n us).map item).Perm us := by
  induction n generalizing us with
  | zero =>
    obtain rfl := List.length_eq_zero_iff.mp (Nat.le_zero.mp hn)
    exact .refl _
  | succ n ih =>
    have hrest : ∀ i ∈ us, (us.erase i).length ≤ n := by
      intro i hi
      have hlen := List.length_erase_add_one hi
      omega
    rcases schedule_cases hits victim n us with
      ⟨i, hi, -, heq⟩ | ⟨i, -, hv, heq⟩ | ⟨hv, heq⟩
    · rw [heq]
      exact ((ih (hrest i hi)).cons i).trans (List.perm_cons_erase hi).symm
    · rw [heq]
      exact ((ih (hrest i (hmem hv))).cons i).trans (List.perm_cons_erase (hmem hv)).symm
    · rw [heq]
      by_cases hus : us = []
      · rw [hus]
        exact .refl _
      · obtain ⟨i, hi⟩ := hsome us hus
        rw [hv] at hi
        cases hi

omit hmem in
theorem stuck_of_save {n : Nat} {us : List ι} {i : ι}
    (h : save i ∈ schedule hits victim n us) :
    ∃ vs : List ι, vs.Sublist us ∧ Stuck hits vs ∧ victim vs = some i := by
  induction n generalizing us with
  | zero => cases h
  | succ n ih =>
    rcases schedule_cases hits victim n us with
      ⟨j, -, -, heq⟩ | ⟨j, hstuck, hv, heq⟩ | ⟨-, heq⟩
    · rw [heq] at h
      rcases List.mem_cons.mp h with h | h
      · cases h
      · obtain ⟨vs, hsub, hvs⟩ := ih h
        exact ⟨vs, hsub.trans List.erase_sublist, hvs⟩
    · rw [heq] at h
      rcases List.mem_cons.mp h with h | h
      · cases h
        exact ⟨us, .refl us, hstuck, hv⟩
      · obtain ⟨vs, hsub, hvs⟩ := ih h
        exact ⟨vs, hsub.trans List.erase_sublist, hvs⟩
    · rw [heq] at h
      cases h

omit hmem in
/-- When the first move that is kept is put aside, they are put aside in their order. -/
theorem saves_sublist {keep : ι → Bool} (hfirst : ∀ {us : List ι} {i : ι}, victim us = some i →
    keep i = true → us.find? keep = some i) {n : Nat} {us : List ι} (hnd : us.Nodup)
    (hkeep : ∀ i ∈ saves (schedule hits victim n us), keep i = true) :
    (saves (schedule hits victim n us)).Sublist (us.filter keep) := by
  induction n generalizing us with
  | zero => exact List.nil_sublist _
  | succ n ih =>
    rcases schedule_cases hits victim n us with
      ⟨i, -, -, heq⟩ | ⟨i, -, hv, heq⟩ | ⟨-, heq⟩
    · rw [heq] at hkeep ⊢
      exact (ih (hnd.erase i) hkeep).trans (List.erase_sublist.filter keep)
    · rw [heq] at hkeep ⊢
      have hi := hkeep i List.mem_cons_self
      obtain ⟨-, pre, post, hus, hpre⟩ := List.find?_eq_some_iff_append.mp (hfirst hv hi)
      have hrest := ih (hnd.erase i) fun j hj => hkeep j (List.mem_cons_of_mem i hj)
      have hnot : i ∉ pre := fun hin => by
        have hno := hpre i hin
        rw [hi] at hno
        cases hno
      have hskip : pre.filter keep = [] := List.filter_eq_nil_iff.mpr fun j hj => by
        have hno := hpre j hj
        simpa using hno
      have hleft : (us.erase i).filter keep = post.filter keep := by
        rw [hus, List.erase_append_right _ hnot, List.erase_cons_head, List.filter_append, hskip,
          List.nil_append]
      have hall : us.filter keep = i :: post.filter keep := by
        rw [hus, List.filter_append, hskip, List.nil_append, List.filter_cons_of_pos hi]
      rw [hall]
      rw [hleft] at hrest
      exact hrest.cons_cons i
    · rw [heq]
      exact List.nil_sublist _

omit hmem in
theorem filter_mem_of_sublist {us vs : List ι} (h : us.Sublist vs) (hnd : vs.Nodup) :
    vs.filter (· ∈ us) = us := by
  induction h with
  | slnil => rfl
  | cons a h ih =>
    obtain ⟨ha, hnd⟩ := List.nodup_cons.mp hnd
    rw [List.filter_cons_of_neg (by simpa using fun hin => ha (h.subset hin))]
    exact ih hnd
  | @cons_cons us vs a h ih =>
    obtain ⟨ha, hnd⟩ := List.nodup_cons.mp hnd
    have hsame : vs.filter (· ∈ a :: us) = vs.filter (· ∈ us) := by
      refine List.filter_congr fun b hb => ?_
      have hne : b ≠ a := fun hba => ha (hba ▸ hb)
      simp [hne]
    rw [List.filter_cons_of_pos (by simp), hsame, ih hnd]

end Nib.Infra
