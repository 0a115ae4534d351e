import Nib.Bind.Liveness

/-!
# Interference graph

`build_igraph` walks every block backward with a live set. At each definition it adds edges
between the defined vreg and everything live, and at the block top between all vregs that
remain live.
-/

namespace Nib.Bind

open Nib.Infra

/-- Set both bits of an edge. -/
def setEdge (rows : List BitSet) (a b : Nat) : List BitSet :=
  (rows.modify a (·.insert b)).modify b (·.insert a)

theorem getD_modify_insert {rows : List BitSet} {a b : Nat} (ha : a < rows.length) (x y : Nat) :
    ((rows.modify a (·.insert b)).getD x .empty).has y =
      ((rows.getD x .empty).has y || (decide (x = a) && decide (y = b))) := by
  rw [List.getD_eq_getElem?_getD, List.getElem?_modify, List.getD_eq_getElem?_getD]
  by_cases h : a = x
  · subst h
    simp [ha, eq_comm]
  · simp [h, Ne.symm h]

theorem setEdge_has {rows : List BitSet} {a b : Nat} (ha : a < rows.length)
    (hb : b < rows.length) (x y : Nat) :
    ((setEdge rows a b).getD x .empty).has y =
      ((rows.getD x .empty).has y || (decide (x = a) && decide (y = b)) ||
        (decide (x = b) && decide (y = a))) := by
  rw [setEdge, getD_modify_insert (by rwa [List.length_modify]), getD_modify_insert ha]

/-- Adjacency rows over `n` vregs, with the degrees. Edges go both ways. -/
structure Igraph (n : Nat) where
  rows : List BitSet
  degree : List Nat
  rows_length : rows.length = n
  symm : ∀ a b, (rows.getD a .empty).has b = (rows.getD b .empty).has a

namespace Igraph

variable {n : Nat}

def empty (n : Nat) : Igraph n :=
  { rows := List.replicate n BitSet.empty
    degree := List.replicate n 0
    rows_length := List.length_replicate
    symm := fun a b => by
      simp only [List.getD_eq_getElem?_getD, List.getElem?_replicate]
      split <;> split <;> simp }

/-- The row of `v`. -/
def row (g : Igraph n) (v : Nat) : BitSet := g.rows.getD v .empty

theorem symm_setEdge (g : Igraph n) {a b : Nat} (ha : a < n) (hb : b < n) (x y : Nat) :
    ((setEdge g.rows a b).getD x .empty).has y =
      ((setEdge g.rows a b).getD y .empty).has x := by
  have hla : a < g.rows.length := g.rows_length.symm ▸ ha
  have hlb : b < g.rows.length := g.rows_length.symm ▸ hb
  rw [setEdge_has hla hlb, setEdge_has hla hlb, g.symm x y, Bool.or_assoc, Bool.or_assoc]
  congr 1
  rw [Bool.or_comm, Bool.and_comm, Bool.and_comm (decide (x = a))]

def addInterference (g : Igraph n) (a b : Nat) : Igraph n :=
  if h : a = b ∨ n ≤ a ∨ n ≤ b then g
  else if (g.row a).has b then g
  else
    { rows := setEdge g.rows a b
      degree := (g.degree.modify a (· + 1)).modify b (· + 1)
      rows_length := by simp [setEdge, g.rows_length]
      symm := g.symm_setEdge (by omega) (by omega) }

/-- Edges between `d` and every member of `live`. -/
def addInterferences (g : Igraph n) (live : BitSet) (d : Nat) : Igraph n :=
  (live.toList n).foldl (fun g v => g.addInterference d v) g

/-- Edges between all remaining live vregs. -/
def addClique (g : Igraph n) (live : BitSet) : Igraph n :=
  (live.toList n).foldl
    (fun g b1 => ((live.toList n).filter (b1 < ·)).foldl (fun g b2 => g.addInterference b1 b2) g) g

end Igraph

/-- The state of a backward walk: the live set and the graph so far. -/
structure Walk (n : Nat) where
  live : BitSet
  graph : Igraph n

namespace Walk

variable {n : Nat}

/-- A definition interferes with everything live, and kills the vreg. -/
def define (s : Walk n) (d : Nat) : Walk n :=
  { live := s.live.erase d, graph := s.graph.addInterferences s.live d }

def addUses (s : Walk n) (vs : List Nat) : Walk n :=
  { s with live := (vs.filter (· < n)).foldl BitSet.insert s.live }

/-- The uses of a copy are added after its definition (coalescing exception), those of any
other instruction before it. -/
def step (s : Walk n) (ins : Insn) : Walk n :=
  let s := if ins.isCopy then s else s.addUses ins.uses
  let s := (ins.defs.filter (· < n)).foldl define s
  if ins.isCopy then s.addUses ins.src1.toList else s

end Walk

namespace Func

variable (fn : Func)

/-- One block: the backward walk, then the edges at the block top. -/
def igraphBlock (liveOut : BitSet) (bb : Block) (g : Igraph fn.nvregs) : Igraph fn.nvregs :=
  let s := (fn.blockInsns bb).foldr (fun ins s => Walk.step s ins) ⟨liveOut, g⟩
  s.graph.addClique s.live

def buildIgraph (blocks : List Block) (liveOut : List BitSet) : Igraph fn.nvregs :=
  (blocks.zip liveOut).foldl (fun g x => fn.igraphBlock x.2 x.1 g) (Igraph.empty fn.nvregs)

/-- The graph the binder builds for a function. -/
def igraph : Igraph fn.nvregs :=
  fn.buildIgraph fn.buildCfg (fn.computeCfgLiveness fn.buildCfg).liveOut

end Func

end Nib.Bind
