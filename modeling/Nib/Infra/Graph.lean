import Mathlib

/-!
# Cycles and searches in a graph

* `reachesCycle_of_stuck` — in a finite set without a last element, every path ends in a cycle
* `not_reachesCycle_of_rank` — a path along which a rank goes down meets no cycle

Two recursive searches with fuel, as a program writes them: one passes on the vertices it has
marked, the other passes on what it has found out and marks only the vertices it is inside of.

* `reaches_iff` — the first decides whether a path leads to a goal round the vertices to avoid
* `always_iff` — the second decides whether every path leads to a goal, past no bad vertex
* `inevitable_iff_ways` — in other words, every endless walk comes to one
-/

namespace Nib.Infra

open Relation

variable {α : Type*} {r : α → α → Prop}

/-- A path leads from here into a cycle. -/
def ReachesCycle (r : α → α → Prop) (x : α) : Prop :=
  ∃ c, ReflTransGen r x c ∧ TransGen r c c

theorem transGen_iterate {f : α → α} (hf : ∀ x, r x (f x)) (x : α) :
    ∀ n, TransGen r x (f^[n + 1] x)
  | 0 => .single (hf x)
  | n + 1 => by
    rw [Function.iterate_succ_apply']
    exact (transGen_iterate hf x n).tail (hf _)

theorem transGen_iterate_add {f : α → α} (hf : ∀ x, r x (f x)) (x : α) {m n : Nat} (h : m < n) :
    TransGen r (f^[m] x) (f^[n] x) := by
  obtain ⟨k, rfl⟩ : ∃ k, n = k + 1 + m := ⟨n - m - 1, by omega⟩
  rw [Function.iterate_add_apply]
  exact transGen_iterate hf _ k

theorem reachesCycle_of_stuck {S : Set α} (hfin : S.Finite) (hstuck : ∀ x ∈ S, ∃ y ∈ S, r x y)
    {x : α} (hx : x ∈ S) : ReachesCycle r x := by
  have hnext : ∀ x : S, ∃ y : S, r x y := by
    rintro ⟨x, hx⟩
    obtain ⟨y, hy, hxy⟩ := hstuck x hx
    exact ⟨⟨y, hy⟩, hxy⟩
  choose f hf using hnext
  have : Finite S := hfin
  -- the walk along `f` comes back to an element that it has met
  obtain ⟨m, n, hne, heq⟩ := Finite.exists_ne_map_eq_of_infinite fun n : ℕ => f^[n] ⟨x, hx⟩
  wlog hlt : m < n generalizing m n
  · exact this n m hne.symm heq.symm (by omega)
  have hlift : ∀ {a b : S}, TransGen (fun a b : S => r a b) a b → TransGen r a b :=
    fun h => h.lift Subtype.val fun _ _ h => h
  refine ⟨(f^[m] ⟨x, hx⟩ : S), ?_, ?_⟩
  · cases m with
    | zero => exact .refl
    | succ m => exact (hlift (transGen_iterate hf ⟨x, hx⟩ m)).to_reflTransGen
  · have hcycle := hlift (transGen_iterate_add hf ⟨x, hx⟩ hlt)
    rwa [← heq] at hcycle

theorem not_reachesCycle_of_rank {S : Set α} {rank : α → ℕ}
    (hrank : ∀ x ∈ S, ∀ y, r x y → y ∈ S ∧ rank y < rank x) {x : α} (hx : x ∈ S) :
    ¬ReachesCycle r x := by
  rintro ⟨c, hxc, hc⟩
  have hreach : ∀ y, ReflTransGen r x y → y ∈ S := by
    intro y hy
    induction hy with
    | refl => exact hx
    | tail _ hr ih => exact (hrank _ ih _ hr).1
  have hcS := hreach c hxc
  have hbelow : ∀ y, TransGen r c y → y ∈ S ∧ rank y < rank c := by
    intro y hy
    induction hy with
    | single hr => exact hrank _ hcS _ hr
    | tail _ hr ih => exact ⟨(hrank _ ih.1 _ hr).1, (hrank _ ih.1 _ hr).2.trans ih.2⟩
  exact lt_irrefl _ (hbelow c hc).2

end Nib.Infra

namespace Nib.Infra.Search

open Relation

variable {α σ : Type*}

/-- Try one vertex after the other until the search succeeds. -/
def anyOf (f : α → σ → Bool × σ) : List α → σ → Bool × σ
  | [], s => (false, s)
  | x :: xs, s =>
    let r := f x s
    if r.1 then r else anyOf f xs r.2

/-- Try one vertex after the other until the search fails. -/
def allOf (f : α → σ → Bool × σ) : List α → σ → Bool × σ
  | [], s => (true, s)
  | x :: xs, s =>
    let r := f x s
    if r.1 then allOf f xs r.2 else r

section

variable {f : α → σ → Bool × σ} {x : α} {xs : List α} {s : σ}

theorem anyOf_cons_true (h : (f x s).1 = true) : anyOf f (x :: xs) s = f x s := by
  simp [anyOf, h]

theorem anyOf_cons_false (h : (f x s).1 = false) :
    anyOf f (x :: xs) s = anyOf f xs (f x s).2 := by
  simp [anyOf, h]

theorem allOf_cons_true (h : (f x s).1 = true) : allOf f (x :: xs) s = allOf f xs (f x s).2 := by
  simp [allOf, h]

theorem allOf_cons_false (h : (f x s).1 = false) : allOf f (x :: xs) s = f x s := by
  simp [allOf, h]

end

variable (succs : α → List α)

/-! ## A path to a goal -/

/-- Whether a goal is reached from a vertex, with the vertices marked so far. -/
def reaches [DecidableEq α] (avoid goal : α → Bool) : Nat → α → List α → Bool × List α
  | 0, _, visited => (false, visited)
  | fuel + 1, x, visited =>
    if avoid x then (false, visited)
    else if goal x then (true, visited)
    else if visited.contains x then (false, visited)
    else anyOf (reaches avoid goal fuel) (succs x) (x :: visited)

/-- A step to a vertex that is not avoided. -/
def Avoiding (avoid : α → Bool) (x y : α) : Prop := y ∈ succs x ∧ avoid y = false

/-- Nothing is left to do for a marked vertex: it is no goal, and its successors are marked. -/
structure Done (avoid goal : α → Bool) (visited : List α) (x : α) : Prop where
  allowed : avoid x = false
  noGoal : goal x = false
  marked : ∀ y ∈ succs x, avoid y = false → y ∈ visited

section

variable {succs} {avoid goal : α → Bool}

theorem Done.mono {v w : List α} (hvw : ∀ x ∈ v, x ∈ w) {x : α} (h : Done succs avoid goal v x) :
    Done succs avoid goal w x :=
  ⟨h.allowed, h.noGoal, fun y hy ha => hvw y (h.marked y hy ha)⟩

/-- What a search that has failed leaves behind. -/
structure Failed (succs : α → List α) (avoid goal : α → Bool) (before after : List α) :
    Prop where
  grows : ∀ x ∈ before, x ∈ after
  done : ∀ x ∈ after, x ∈ before ∨ Done succs avoid goal after x

theorem Failed.refl (v : List α) : Failed succs avoid goal v v := ⟨fun _ h => h, fun _ h => .inl h⟩

theorem Failed.trans {u v w : List α} (h : Failed succs avoid goal u v)
    (h' : Failed succs avoid goal v w) : Failed succs avoid goal u w := by
  refine ⟨fun x hx => h'.grows x (h.grows x hx), fun x hx => ?_⟩
  rcases h'.done x hx with hv | hd
  · exact (h.done x hv).imp id (Done.mono h'.grows)
  · exact .inr hd

/-- How many vertices are still unmarked. -/
def missing [DecidableEq α] (U : Finset α) (visited : List α) : ℕ := (U.filter (· ∉ visited)).card

theorem missing_mono [DecidableEq α] (U : Finset α) {v w : List α} (h : ∀ x ∈ v, x ∈ w) :
    missing U w ≤ missing U v :=
  Finset.card_le_card fun x hx => by
    rw [Finset.mem_filter] at hx ⊢
    exact ⟨hx.1, fun hv => hx.2 (h x hv)⟩

theorem missing_cons [DecidableEq α] (U : Finset α) {v : List α} {x : α} (hx : x ∈ U) (hv : x ∉ v) :
    missing U (x :: v) < missing U v := by
  refine Finset.card_lt_card (Finset.ssubset_iff_of_subset ?_ |>.mpr ⟨x, ?_, ?_⟩)
  · intro y hy
    rw [Finset.mem_filter] at hy ⊢
    exact ⟨hy.1, fun h => hy.2 (List.mem_cons_of_mem _ h)⟩
  · exact Finset.mem_filter.mpr ⟨hx, hv⟩
  · simp

/-- The vertices of a list, one after the other. -/
theorem anyOf_failed [DecidableEq α] {U : Finset α} {n : ℕ} {f : α → List α → Bool × List α}
    (hf : ∀ x v, missing U v < n → (f x v).1 = false →
      Failed succs avoid goal v (f x v).2 ∧ (avoid x = false → x ∈ (f x v).2)) :
    ∀ (xs : List α) (v : List α), missing U v < n → (anyOf f xs v).1 = false →
      Failed succs avoid goal v (anyOf f xs v).2 ∧
        ∀ x ∈ xs, avoid x = false → x ∈ (anyOf f xs v).2 := by
  intro xs
  induction xs with
  | nil => exact fun v _ _ => ⟨.refl v, by simp⟩
  | cons x xs ih =>
    intro v hn h
    cases hx : (f x v).1 with
    | true => rw [anyOf_cons_true hx, hx] at h; cases h
    | false =>
      rw [anyOf_cons_false hx] at h ⊢
      obtain ⟨hfail, hmem⟩ := hf x v hn hx
      obtain ⟨hfail', hmem'⟩ := ih _ ((missing_mono U hfail.grows).trans_lt hn) h
      refine ⟨hfail.trans hfail', fun y hy ha => ?_⟩
      rcases List.mem_cons.mp hy with rfl | hy
      · exact hfail'.grows _ (hmem ha)
      · exact hmem' y hy ha

/-- **A failed search has marked everything it can get to.** -/
theorem reaches_failed [DecidableEq α] {U : Finset α} (hU : ∀ x, avoid x = false → x ∈ U) :
    ∀ (fuel : ℕ) (x : α) (v : List α), missing U v < fuel →
      (reaches succs avoid goal fuel x v).1 = false →
      Failed succs avoid goal v (reaches succs avoid goal fuel x v).2 ∧
        (avoid x = false → x ∈ (reaches succs avoid goal fuel x v).2) := by
  intro fuel
  induction fuel with
  | zero => exact fun _ _ hn => absurd hn (Nat.not_lt_zero _)
  | succ fuel ih =>
    intro x v hn h
    rw [reaches] at h ⊢
    by_cases ha : avoid x = true
    · rw [if_pos ha]
      exact ⟨.refl v, fun h' => by rw [ha] at h'; cases h'⟩
    rw [if_neg ha] at h ⊢
    rw [Bool.not_eq_true] at ha
    by_cases hg : goal x = true
    · rw [if_pos hg] at h; cases h
    rw [if_neg hg] at h ⊢
    by_cases hv : v.contains x = true
    · rw [if_pos hv]
      exact ⟨.refl v, fun _ => List.contains_iff_mem.mp hv⟩
    rw [if_neg hv] at h ⊢
    have hxv : x ∉ v := fun hmem => hv (List.contains_iff_mem.mpr hmem)
    -- `x` is marked for the first time, so there is one vertex less to mark
    have hn' : missing U (x :: v) < fuel := by
      have := missing_cons U (hU x ha) hxv
      omega
    obtain ⟨hfail, hmem⟩ := anyOf_failed ih (succs x) (x :: v) hn' h
    refine ⟨⟨fun y hy => hfail.grows y (List.mem_cons_of_mem _ hy), fun y hy => ?_⟩,
      fun _ => hfail.grows x List.mem_cons_self⟩
    rcases hfail.done y hy with hy | hy
    · rcases List.mem_cons.mp hy with rfl | hy
      · exact .inr ⟨ha, Bool.not_eq_true _ ▸ hg, hmem⟩
      · exact .inl hy
    · exact .inr hy

theorem anyOf_true {f : α → List α → Bool × List α} :
    ∀ (xs : List α) (v : List α), (anyOf f xs v).1 = true → ∃ x ∈ xs, ∃ w, (f x w).1 = true := by
  intro xs
  induction xs with
  | nil => exact fun v h => by cases h
  | cons x xs ih =>
    intro v h
    cases hx : (f x v).1 with
    | true => exact ⟨x, List.mem_cons_self, v, hx⟩
    | false =>
      rw [anyOf_cons_false hx] at h
      obtain ⟨y, hy, hw⟩ := ih _ h
      exact ⟨y, List.mem_cons_of_mem _ hy, hw⟩

theorem reaches_sound [DecidableEq α] : ∀ (fuel : ℕ) (x : α) (v : List α),
    (reaches succs avoid goal fuel x v).1 = true →
      avoid x = false ∧ ∃ y, ReflTransGen (Avoiding succs avoid) x y ∧ goal y = true := by
  intro fuel
  induction fuel with
  | zero => exact fun _ _ h => by cases h
  | succ fuel ih =>
    intro x v h
    rw [reaches] at h
    by_cases ha : avoid x = true
    · rw [if_pos ha] at h; cases h
    rw [if_neg ha] at h
    rw [Bool.not_eq_true] at ha
    refine ⟨ha, ?_⟩
    by_cases hg : goal x = true
    · exact ⟨x, .refl, hg⟩
    rw [if_neg hg] at h
    by_cases hv : v.contains x = true
    · rw [if_pos hv] at h; cases h
    rw [if_neg hv] at h
    obtain ⟨y, hy, w, hw⟩ := anyOf_true _ _ h
    obtain ⟨hay, z, hyz, hz⟩ := ih y w hw
    exact ⟨z, .head ⟨hy, hay⟩ hyz, hz⟩

/-- **The search decides whether a path leads to a goal.** -/
theorem reaches_iff [DecidableEq α] {U : Finset α} (hU : ∀ x, avoid x = false → x ∈ U) {fuel : ℕ}
    (hfuel : U.card < fuel) (x : α) :
    (reaches succs avoid goal fuel x []).1 = true ↔
      avoid x = false ∧ ∃ y, ReflTransGen (Avoiding succs avoid) x y ∧ goal y = true := by
  refine ⟨reaches_sound fuel x [], ?_⟩
  rintro ⟨ha, y, hxy, hy⟩
  by_contra h
  rw [Bool.not_eq_true] at h
  have hn : missing U [] < fuel := (Finset.card_filter_le _ _).trans_lt hfuel
  obtain ⟨hfail, hx⟩ := reaches_failed hU fuel x [] hn h
  -- what is marked is done, so that a path never leaves it
  have hclosed : ∀ z, ReflTransGen (Avoiding succs avoid) x z →
      z ∈ (reaches succs avoid goal fuel x []).2 := by
    intro z hz
    induction hz with
    | refl => exact hx ha
    | tail _ hstep ih =>
      rcases hfail.done _ ih with h0 | hdone
      · simp at h0
      · exact hdone.marked _ hstep.1 hstep.2
  rcases hfail.done y (hclosed y hxy) with h0 | hdone
  · simp at h0
  · exact absurd (hdone.noGoal.symm.trans hy) (by decide)

end

/-! ## Every path to a goal -/

/-- What has been found out of a vertex is remembered. -/
abbrev Memo (α : Type*) := α → Option Bool

/-- Whether every path from a vertex leads to a goal. `inside` are the vertices that the search
is inside of. -/
def always [DecidableEq α] (outside bad goal : α → Bool) : Nat → List α → α → Memo α → Bool × Memo α
  | 0, _, _, memo => (false, memo)
  | fuel + 1, inside, x, memo =>
    if outside x then (false, memo)
    else if inside.contains x then (false, memo)
    else
      match memo x with
      | some known => (known, memo)
      | none =>
        if bad x then (false, Function.update memo x (some false))
        else if goal x then (true, Function.update memo x (some true))
        else if (succs x).isEmpty then (false, Function.update memo x (some false))
        else
          let r := allOf (always outside bad goal fuel (x :: inside)) (succs x) memo
          (r.1, Function.update r.2 x (some r.1))

/-- Every path from the vertex leads to a goal, and past no bad vertex. -/
inductive Inevitable (bad goal : α → Bool) : α → Prop
  | here {x : α} : bad x = false → goal x = true → Inevitable bad goal x
  | step {x : α} : bad x = false → goal x = false → succs x ≠ [] →
      (∀ y ∈ succs x, Inevitable bad goal y) → Inevitable bad goal x

/-- A step from a vertex that is no goal. -/
def Onward (goal : α → Bool) (x y : α) : Prop := goal x = false ∧ y ∈ succs x

section

variable {succs} {bad goal : α → Bool}

theorem Inevitable.notBad {x : α} (h : Inevitable succs bad goal x) : bad x = false := by
  cases h <;> assumption

theorem Inevitable.onward {x y : α} (h : Inevitable succs bad goal x)
    (hxy : Onward succs goal x y) : Inevitable succs bad goal y := by
  cases h with
  | here _ hg => exact absurd (hxy.1.symm.trans hg) (by decide)
  | step _ _ _ hs => exact hs y hxy.2

/-- **No walk that misses the goals goes on for ever.** -/
theorem Inevitable.acc {x : α} (h : Inevitable succs bad goal x) :
    Acc (fun y x => Onward succs goal x y) x := by
  induction h with
  | here _ hg => exact ⟨_, fun y hy => absurd (hy.1.symm.trans hg) (by decide)⟩
  | step _ _ _ _ ih => exact ⟨_, fun y hy => ih y hy.2⟩

theorem Inevitable.noCycle {x : α} (h : Inevitable succs bad goal x) :
    ¬TransGen (Onward succs goal) x x := by
  have hacc : Acc (TransGen fun y x => Onward succs goal x y) x := h.acc.transGen
  induction hacc with
  | intro x _ ih => exact fun hc => ih x (transGen_swap.mp hc) h hc

end

/-! ### Every way -/

/-- An endless walk; at a vertex without successors it stays. -/
def Way (succs : α → List α) (way : ℕ → α) : Prop :=
  ∀ n, way (n + 1) ∈ succs (way n) ∨ (succs (way n) = [] ∧ way (n + 1) = way n)

section

variable {succs} {bad goal : α → Bool} {x : α}

theorem Inevitable.ways (h : Inevitable succs bad goal x) :
    ∀ way : ℕ → α, Way succs way → way 0 = x →
      ∃ n, goal (way n) = true ∧ ∀ k ≤ n, bad (way k) = false := by
  induction h with
  | here hb hg =>
    intro way _ h0
    refine ⟨0, h0 ▸ hg, fun k hk => ?_⟩
    rw [Nat.le_zero.mp hk, h0]
    exact hb
  | @step x hb _ hne _ ih =>
    intro way hway h0
    have h1 : way 1 ∈ succs x := by
      rcases hway 0 with h | ⟨h, _⟩
      · rwa [h0] at h
      · rw [h0] at h
        exact absurd h hne
    obtain ⟨n, hn, hall⟩ := ih (way 1) h1 (fun n => way (n + 1)) (fun n => hway (n + 1)) rfl
    refine ⟨n + 1, hn, fun k hk => ?_⟩
    cases k with
    | zero => rw [h0]; exact hb
    | succ k => exact hall k (by omega)

/-- A vertex from which the goals can be missed has a way that misses them: it goes on to a
successor of the same kind as long as it meets nothing bad. -/
theorem inevitable_of_ways (h : ∀ way : ℕ → α, Way succs way → way 0 = x →
    ∃ n, goal (way n) = true ∧ ∀ k ≤ n, bad (way k) = false) :
    Inevitable succs bad goal x := by
  by_contra hx
  have hnext : ∀ y, ∃ z, (z ∈ succs y ∨ (succs y = [] ∧ z = y)) ∧
      (¬Inevitable succs bad goal y → bad y = false → ¬Inevitable succs bad goal z) := by
    intro y
    by_cases hex : ∃ z ∈ succs y, ¬Inevitable succs bad goal z
    · obtain ⟨z, hz, hnz⟩ := hex
      exact ⟨z, .inl hz, fun _ _ => hnz⟩
    have hall : ∀ z ∈ succs y, Inevitable succs bad goal z := fun z hz =>
      by_contra fun hn => hex ⟨z, hz, hn⟩
    by_cases hs : succs y = []
    · exact ⟨y, .inr ⟨hs, rfl⟩, fun hy _ => hy⟩
    obtain ⟨z, hz⟩ := List.exists_mem_of_ne_nil _ hs
    refine ⟨z, .inl hz, fun hy hb => (hy ?_).elim⟩
    cases hg : goal y with
    | false => exact .step hb hg hs hall
    | true => exact .here hb hg
  choose next hmem hkeep using hnext
  -- the way that always takes such a successor meets a goal, where it would have had to stop
  obtain ⟨n, hn, hall⟩ := h (fun n => next^[n] x)
    (fun n => by simp only [Function.iterate_succ_apply']; exact hmem _) rfl
  have hnot : ∀ k ≤ n, ¬Inevitable succs bad goal (next^[k] x) := by
    intro k hk
    induction k with
    | zero => exact hx
    | succ k ih =>
      rw [Function.iterate_succ_apply']
      exact hkeep _ (ih (by omega)) (hall k (by omega))
  exact hnot n le_rfl (.here (hall n le_rfl) hn)

/-- **A goal is inevitable when every way comes to one.** -/
theorem inevitable_iff_ways : Inevitable succs bad goal x ↔
    ∀ way : ℕ → α, Way succs way → way 0 = x →
      ∃ n, goal (way n) = true ∧ ∀ k ≤ n, bad (way k) = false :=
  ⟨Inevitable.ways, inevitable_of_ways⟩

/-- A path to a vertex without successors is the start of an endless walk. -/
theorem exists_way : ∀ {l : List α} {x : α}, (x :: l).IsChain (fun a b => b ∈ succs a) →
    (∀ y, (x :: l).getLast? = some y → succs y = []) →
    ∃ way : ℕ → α, Way succs way ∧ way 0 = x ∧ ∀ n, way n ∈ x :: l := by
  intro l
  induction l with
  | nil =>
    intro x _ hlast
    exact ⟨fun _ => x, fun _ => .inr ⟨hlast x rfl, rfl⟩, rfl, fun _ => List.mem_cons_self⟩
  | cons y l ih =>
    intro x hchain hlast
    obtain ⟨hxy, hchain⟩ := List.isChain_cons_cons.mp hchain
    obtain ⟨way, hway, h0, hmem⟩ := ih hchain fun z hz => hlast z (by rwa [List.getLast?_cons_cons])
    refine ⟨fun n => n.casesOn x way, fun n => ?_, rfl, fun n => ?_⟩
    · cases n with
      | zero =>
        left
        change way 0 ∈ succs x
        rwa [h0]
      | succ n => exact hway n
    · cases n with
      | zero => exact List.mem_cons_self
      | succ n => exact List.mem_cons_of_mem _ (hmem n)

/-- Every vertex of a path that keeps off `avoid` is reached that way. -/
theorem reflTransGen_of_chain {avoid : α} : ∀ {l : List α} {x y : α},
    (x :: l).IsChain (fun a b => b ∈ succs a) → (∀ z ∈ l, z ≠ avoid) → y ∈ x :: l →
    ReflTransGen (fun a b => b ∈ succs a ∧ b ≠ avoid) x y := by
  intro l
  induction l with
  | nil =>
    intro x y _ _ hy
    rw [List.mem_singleton.mp hy]
  | cons z l ih =>
    intro x y hchain havoid hy
    obtain ⟨hxz, hchain⟩ := List.isChain_cons_cons.mp hchain
    rcases List.mem_cons.mp hy with rfl | hy
    · exact .refl
    · exact .head ⟨hxz, havoid z List.mem_cons_self⟩
        (ih hchain (fun w hw => havoid w (List.mem_cons_of_mem _ hw)) hy)

end

/-! ### What is remembered is right -/

/-- Whatever is remembered of a vertex is right. -/
def Right (P : α → Prop) (memo : Memo α) : Prop :=
  ∀ x known, memo x = some known → (known = true ↔ P x)

theorem Right.update [DecidableEq α] {P : α → Prop} {memo : Memo α} (h : Right P memo) {x : α}
    {known : Bool} (hx : known = true ↔ P x) :
    Right P (Function.update memo x (some known)) := by
  intro y b hy
  by_cases hyx : y = x
  · subst hyx
    rw [Function.update_self, Option.some.injEq] at hy
    rwa [← hy]
  · rw [Function.update_of_ne hyx] at hy
    exact h y b hy

/-- The vertices of a list, one after the other. -/
theorem allOf_spec {I : σ → Prop} {P : α → Prop} {f : α → σ → Bool × σ} :
    ∀ (xs : List α) (s : σ),
      (∀ y ∈ xs, ∀ s, I s → ((f y s).1 = true ↔ P y) ∧ I (f y s).2) → I s →
      ((allOf f xs s).1 = true ↔ ∀ y ∈ xs, P y) ∧ I (allOf f xs s).2 := by
  intro xs
  induction xs with
  | nil => exact fun s _ hs => ⟨by simp [allOf], hs⟩
  | cons x xs ih =>
    intro s hf hs
    obtain ⟨hx, hI⟩ := hf x List.mem_cons_self s hs
    cases hres : (f x s).1 with
    | true =>
      rw [allOf_cons_true hres]
      obtain ⟨hall, hI'⟩ := ih (f x s).2 (fun y hy => hf y (List.mem_cons_of_mem _ hy)) hI
      refine ⟨?_, hI'⟩
      rw [hall, List.forall_mem_cons]
      exact ⟨fun h => ⟨hx.mp hres, h⟩, And.right⟩
    | false =>
      rw [allOf_cons_false hres]
      refine ⟨⟨fun h => ?_, fun h => ?_⟩, hI⟩
      · rw [hres] at h; cases h
      · exact hx.mpr (h x List.mem_cons_self)

section

variable {succs} {outside bad goal : α → Bool}

/-- The vertices from which the goals are inevitable, inside the graph. -/
def Surely (succs : α → List α) (outside bad goal : α → Bool) : α → Prop :=
  Inevitable succs (fun x => outside x || bad x) goal

/-- **The search is right, and so is what it remembers.** The vertices that it is inside of lead
to the one it looks at; meeting one of them again closes a cycle. -/
theorem always_right [DecidableEq α] {U : Finset α} (hU : ∀ x, outside x = false → x ∈ U) :
    ∀ (fuel : ℕ) (inside : List α) (x : α) (memo : Memo α), missing U inside < fuel →
      (∀ y ∈ inside, TransGen (Onward succs goal) y x) →
      Right (Surely succs outside bad goal) memo →
      ((always succs outside bad goal fuel inside x memo).1 = true ↔
        Surely succs outside bad goal x) ∧
      Right (Surely succs outside bad goal)
        (always succs outside bad goal fuel inside x memo).2 := by
  intro fuel
  induction fuel with
  | zero => exact fun _ _ _ hn => absurd hn (Nat.not_lt_zero _)
  | succ fuel ih =>
    intro inside x memo hn hin hmemo
    rw [always]
    by_cases hout : outside x = true
    · rw [if_pos hout]
      refine ⟨⟨fun h => (by cases h), fun h => ?_⟩, hmemo⟩
      have := h.notBad
      simp [hout] at this
    rw [if_neg hout]
    rw [Bool.not_eq_true] at hout
    -- the walk has come back to a vertex that it is inside of, so it can go on for ever
    by_cases hx : inside.contains x = true
    · rw [if_pos hx]
      refine ⟨⟨fun h => (by cases h), fun h => ?_⟩, hmemo⟩
      exact absurd (hin x (List.contains_iff_mem.mp hx)) h.noCycle
    rw [if_neg hx]
    cases hknown : memo x with
    | some known => exact ⟨hmemo x known hknown, hmemo⟩
    | none =>
      dsimp only
      have hfalse : ¬Surely succs outside bad goal x →
          (false = true ↔ Surely succs outside bad goal x) := fun h => by simp [h]
      by_cases hbad : bad x = true
      · rw [if_pos hbad]
        have hnot : ¬Surely succs outside bad goal x := fun h => by simpa [hbad] using h.notBad
        exact ⟨hfalse hnot, hmemo.update (hfalse hnot)⟩
      rw [if_neg hbad]
      rw [Bool.not_eq_true] at hbad
      have hok : (outside x || bad x) = false := by rw [hout, hbad]; rfl
      by_cases hgoal : goal x = true
      · rw [if_pos hgoal]
        have hyes : true = true ↔ Surely succs outside bad goal x :=
          ⟨fun _ => .here hok hgoal, fun _ => rfl⟩
        exact ⟨hyes, hmemo.update hyes⟩
      rw [if_neg hgoal]
      rw [Bool.not_eq_true] at hgoal
      by_cases hend : (succs x).isEmpty = true
      · rw [if_pos hend]
        have hnot : ¬Surely succs outside bad goal x := by
          intro h
          cases h with
          | here _ hg => exact absurd (hgoal.symm.trans hg) (by decide)
          | step _ _ hne _ => exact hne (List.isEmpty_iff.mp hend)
        exact ⟨hfalse hnot, hmemo.update (hfalse hnot)⟩
      rw [if_neg hend]
      -- every successor is looked at with `x` among the vertices that lead to it
      have hmiss : missing U (x :: inside) < fuel := by
        have := missing_cons U (hU x hout) fun h => hx (List.contains_iff_mem.mpr h)
        omega
      obtain ⟨hall, hmemo'⟩ := allOf_spec (succs x) memo
        (fun y hy memo hmemo => ih (x :: inside) y memo hmiss (fun z hz => by
          rcases List.mem_cons.mp hz with rfl | hz
          · exact .single ⟨hgoal, hy⟩
          · exact (hin z hz).tail ⟨hgoal, hy⟩) hmemo) hmemo
      have hx' := hall.trans (show _ ↔ Surely succs outside bad goal x from
        ⟨fun h => .step hok hgoal (fun h0 => hend (List.isEmpty_iff.mpr h0)) h,
          fun h y hy => h.onward ⟨hgoal, hy⟩⟩)
      exact ⟨hx', hmemo'.update hx'⟩

/-- **The search decides whether the goals are inevitable.** -/
theorem always_iff [DecidableEq α] {U : Finset α} (hU : ∀ x, outside x = false → x ∈ U) {fuel : ℕ}
    (hfuel : U.card < fuel) (x : α) :
    (always succs outside bad goal fuel [] x fun _ => none).1 = true ↔
      Surely succs outside bad goal x :=
  (always_right hU fuel [] x _ ((Finset.card_filter_le _ _).trans_lt hfuel) (by simp)
    fun _ _ h => by cases h).1

end

end Nib.Infra.Search
