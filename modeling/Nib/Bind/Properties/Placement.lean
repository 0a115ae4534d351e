import Nib.Bind.Spec.Placement
import Nib.Asm.Properties.Layout

/-!
# The passes keep the levels

* `placeEvents_levels` — the placement pass records the innermost segment
* `emitEvents_levels` — the emission pass writes every item there, and so does the assembler
* `placement_tracks` — both passes over a root module
-/

namespace Nib.Bind

open Nib.Asm

/-! ## The stack of segments -/

/-- The stack holds the segments of the levels, above no segment. -/
structure SegState.At (s : SegState) (l : Levels) : Prop where
  segs : s.current :: s.stack = l ++ [-1]
  depth : s.depth = l.length

namespace SegState.At

variable {s : SegState} {l : Levels}

theorem init : SegState.At {} [] := ⟨rfl, rfl⟩

theorem current (h : s.At l) : s.current = l.head?.getD (-1) := by
  have hs := h.segs
  cases l with
  | nil => exact (List.cons.inj hs).1
  | cons seg l => exact (List.cons.inj hs).1

theorem push (h : s.At l) (seg : Int) : (s.push seg).At (seg :: l) :=
  ⟨congrArg (seg :: ·) h.segs, congrArg (· + 1) h.depth⟩

theorem pop (h : s.At l) : s.pop.At l.tail := by
  obtain ⟨hs, hd⟩ := h
  unfold SegState.pop
  cases l with
  | nil =>
    obtain ⟨hcur, hstack⟩ := List.cons.inj hs
    rw [hstack]
    refine ⟨?_, ?_⟩
    · show [s.current] = [-1]
      rw [hcur]
    · show s.depth - 1 = 0
      rw [hd]
      rfl
  | cons seg l =>
    obtain ⟨-, hstack⟩ := List.cons.inj hs
    cases hst : s.stack with
    | nil => simp [hst] at hstack
    | cons top rest =>
      rw [hst] at hstack
      refine ⟨hstack, ?_⟩
      show s.depth - 1 = l.length
      rw [hd]
      rfl

theorem popTimes : ∀ (n : Nat) {s : SegState} {l : Levels}, s.At l →
    (SegState.popTimes n s).At (l.drop n)
  | 0, _, _, h => h
  | n + 1, _, l, h => by
    have hpop := popTimes n h.pop
    rw [List.drop_tail] at hpop
    exact hpop

/-- Unwinding leaves the levels that were there before. -/
theorem unwind {top : Levels} (h : s.At (top ++ l)) : (s.unwind l.length).At l := by
  have hpop := popTimes (s.depth - l.length) h
  have hlen : s.depth - l.length = top.length := by
    rw [h.depth, List.length_append]
    omega
  rw [hlen, List.drop_left] at hpop
  unfold SegState.unwind
  rw [hlen]
  exact hpop

end SegState.At

/-! ## Levels of a module -/

/-- A module that closes only what it has opened leaves the levels below. -/
theorem atEvents_keeps : ∀ {events : List Event} {top l : Levels}, Closes top.length events →
    ∃ top', (atEvents events (top ++ l)).2 = top' ++ l
  | [], top, _, _ => ⟨top, rfl⟩
  | .use _ :: rest, _, _, h => @atEvents_keeps rest _ _ h
  | .item _ i :: rest, top, l, h => by
    show ∃ top', (atEvents rest (i.levels (top ++ l))).2 = top' ++ l
    have hopen : Closes (top.length + i.atSeg?.toList.length) rest →
        ∃ top', (atEvents rest (i.atSeg?.toList ++ (top ++ l))).2 = top' ++ l := by
      intro h
      rw [← List.append_assoc]
      refine atEvents_keeps ?_
      rw [List.length_append, Nat.add_comm]
      exact h
    cases i with
    | endAt =>
      obtain ⟨hpos, hrest⟩ := h
      cases top with
      | nil => exact absurd hpos (Nat.lt_irrefl 0)
      | cons seg top => exact @atEvents_keeps rest top l hrest
    | fn f => exact hopen h
    | data d => exact hopen h
    | glob g => exact hopen h
    | «at» seg off => exact hopen h

/-! ## The placement pass -/

/-- An item is placed at the levels it opens, and an error is counted unless the innermost segment
is recorded. -/
theorem placeItem_levels {i : Item} {s : PlaceState} {l : Levels} (h : s.segs.At l)
    (hfn : ∀ f, (placeItem i s).1 = .fn f → f.hasAt = false) :
    (placeItem i s).2.segs.At ((placeItem i s).1.levels l) ∧
      s.errors ≤ (placeItem i s).2.errors ∧
      ((placeItem i s).2.errors = s.errors →
        ∀ m ∈ (placeItem i s).1.marks l, m.Recorded) := by
  cases i with
  | fn f =>
    have hat : f.hasAt = false :=
      hfn { f with emitSeg := some (if f.hasAt then f.atSeg else s.segs.current) } rfl
    have hlev : ∀ seg, Item.levels (.fn { f with emitSeg := seg }) l = l := by
      intro seg
      simp [Item.levels, Item.atSeg?, hat]
    refine ⟨?_, Nat.le_refl _, fun _ m hm => ?_⟩
    · show s.segs.At _
      rw [placeItem, hlev]
      exact h
    · simp only [placeItem, Item.marks, Item.hasLabel, if_true, List.mem_singleton, hlev] at hm
      subst hm
      simp [Mark.Recorded, hat, h.current]
  | data d =>
    cases hat : d.hasAt with
    | true =>
      have hplace : placeItem (.data d) s =
          (.data { d with emitSeg := some d.atSeg }, { s with segs := s.segs.push d.atSeg }) := by
        simp [placeItem, hat]
      rw [hplace]
      refine ⟨?_, Nat.le_refl _, fun _ m hm => ?_⟩
      · simpa [Item.levels, Item.atSeg?, hat] using h.push d.atSeg
      · simp [Item.marks, Item.hasLabel, Item.levels, Item.atSeg?, hat] at hm
        subst hm
        simp [Mark.Recorded]
    | false =>
      have hlev : ∀ seg, Item.levels (.data { d with emitSeg := seg }) l = l := by
        intro seg
        simp [Item.levels, Item.atSeg?, hat]
      by_cases hseg : s.segs.current ≥ 0
      · have hplace : placeItem (.data d) s =
            (.data { d with emitSeg := some s.segs.current }, s) := by
          simp [placeItem, hat, hseg]
        rw [hplace]
        refine ⟨?_, Nat.le_refl _, fun _ m hm => ?_⟩
        · rw [hlev]
          exact h
        · simp only [Item.marks, Item.hasLabel, if_true, List.mem_singleton, hlev] at hm
          subst hm
          -- a segment from zero on belongs to a level
          have hcur := h.current
          cases l with
          | nil =>
            have : s.segs.current = -1 := hcur
            omega
          | cons seg l => exact ⟨seg, rfl, congrArg some hcur⟩
      · have hplace : placeItem (.data d) s = (.data d, { s with errors := s.errors + 1 }) := by
          simp [placeItem, hat, hseg]
        rw [hplace]
        refine ⟨?_, Nat.le_succ _, fun herr => absurd herr (Nat.succ_ne_self _)⟩
        rw [show Item.levels (.data d) l = l from hlev d.emitSeg]
        exact h
  | glob g =>
    refine ⟨?_, ?_, fun _ m hm => ?_⟩
    · cases hat : g.hasAt with
      | true => simpa [placeItem, Item.levels, Item.atSeg?, hat] using h.push g.atSeg
      | false => simpa [placeItem, Item.levels, Item.atSeg?, hat] using h
    · simp only [placeItem]
      split <;> exact Nat.le_refl _
    · simp only [placeItem, Item.marks, Item.hasLabel, if_true, List.mem_singleton] at hm
      subst hm
      trivial
  | «at» seg off => exact ⟨h.push seg, Nat.le_refl _, fun _ m hm => absurd hm List.not_mem_nil⟩
  | endAt => exact ⟨h.pop, Nat.le_refl _, fun _ m hm => absurd hm List.not_mem_nil⟩

mutual

theorem placeEvent_levels : ∀ {e : Event} {s : PlaceState} {l : Levels}, s.segs.At l →
    NoAtFn [(placeEvent e s).1] → EventKeeps (placeEvent e s).1 →
    (placeEvent e s).2.segs.At (atEvent (placeEvent e s).1 l).2 ∧
      s.errors ≤ (placeEvent e s).2.errors ∧
      ((placeEvent e s).2.errors = s.errors →
        ∀ m ∈ (atEvent (placeEvent e s).1 l).1, m.Recorded)
  | .item _ i, s, l, h, hfn, _ =>
    placeItem_levels h fun f hf => hfn f (by simp [placeEvent, eventsItems, eventItems, hf])
  | .use sub, s, l, h, hfn, hkeep => by
    obtain ⟨hcloses, hsub⟩ := hkeep
    obtain ⟨hat, hle, hrec⟩ := placeEvents_levels h
      (fun f hf => hfn f (by simpa [placeEvent, eventsItems, eventItems] using hf)) hsub
    obtain ⟨top, htop⟩ := @atEvents_keeps _ [] l hcloses
    refine ⟨?_, hle, hrec⟩
    rw [List.nil_append] at htop
    rw [htop] at hat
    have hunwind := hat.unwind
    rw [← h.depth] at hunwind
    exact hunwind

/-- **The placement pass records the innermost segment.** -/
theorem placeEvents_levels : ∀ {events : List Event} {s : PlaceState} {l : Levels}, s.segs.At l →
    NoAtFn (placeEvents events s).1 → EventsKeep (placeEvents events s).1 →
    (placeEvents events s).2.segs.At (atEvents (placeEvents events s).1 l).2 ∧
      s.errors ≤ (placeEvents events s).2.errors ∧
      ((placeEvents events s).2.errors = s.errors →
        ∀ m ∈ (atEvents (placeEvents events s).1 l).1, m.Recorded)
  | [], _, _, h, _, _ => ⟨h, Nat.le_refl _, fun _ m hm => absurd hm List.not_mem_nil⟩
  | e :: rest, s, l, h, hfn, hkeep => by
    obtain ⟨hat, hle, hrec⟩ := placeEvent_levels (e := e) h
      (fun f hf => hfn f (by
        simpa [placeEvents, eventsItems] using .inl (by simpa [eventsItems] using hf)))
      hkeep.1
    obtain ⟨hat', hle', hrec'⟩ := placeEvents_levels hat
      (fun f hf => hfn f (List.mem_append_right _ hf)) hkeep.2
    refine ⟨hat', Nat.le_trans hle hle', fun herr m hm => ?_⟩
    have herr' : (placeEvents rest (placeEvent e s).2).2.errors = s.errors := herr
    rcases List.mem_append.mp hm with hm | hm
    · exact hrec (by omega) m hm
    · exact hrec' (by omega) m hm

end

/-! ## Running the written lines -/

theorem runLines_append : ∀ (n : Nat) (xs ys : List OutLine) (s : AsmState),
    runLines n (xs ++ ys) s = runLines (n + xs.length) ys (runLines n xs s)
  | _, [], _, _ => rfl
  | n, x :: xs, ys, s => by
    show runLines (n + 1) (xs ++ ys) (x.exec n s) = _
    rw [runLines_append, List.length_cons, Nat.add_right_comm, Nat.add_assoc]
    rfl

theorem outMarks_append : ∀ (n : Nat) (xs ys : List OutLine) (s : AsmState),
    outMarks n (xs ++ ys) s =
      outMarks n xs s ++ outMarks (n + xs.length) ys (runLines n xs s)
  | _, [], _, _ => rfl
  | n, x :: xs, ys, s => by
    show x.marks s ++ outMarks (n + 1) (xs ++ ys) (x.exec n s) = _
    rw [outMarks_append, ← List.append_assoc, List.length_cons, Nat.add_right_comm, Nat.add_assoc]
    rfl

/-- A label does not move the output. -/
theorem frames_defineLabel (s : AsmState) (name : Text) (ltype : LabelType) :
    frames (s.defineLabel (.pos name ltype)) = frames s := by
  show frames (s.addLabelTyped name s.pos ltype) = frames s
  unfold AsmState.addLabelTyped
  split_ifs <;> rfl

theorem frames_emitBytes (s : AsmState) (bs : List Nat) : ∃ out,
    frames (s.emitBytes bs) = ⟨s.orgBase, out, s.segBase⟩ :: s.orgStack := by
  refine ⟨(s.emitBytes bs).outPos, ?_⟩
  have hbase := AsmState.emitBytes_keeps AsmState.orgBase AsmState.emitByte_orgBase bs s
  have hstack := AsmState.emitBytes_keeps AsmState.orgStack AsmState.emitByte_orgStack bs s
  have hseg := AsmState.emitBytes_keeps AsmState.segBase (fun s b => by
    unfold AsmState.emitByte
    split_ifs <;> rfl) bs s
  unfold frames
  rw [hbase, hstack, hseg]

/-- A statement of a body only adds to the output. -/
theorem frames_plain {st : Statement} (h : isPlain st = true) (n : Nat) (s : AsmState) : ∃ out,
    frames (s.execStatement n st) = ⟨s.orgBase, out, s.segBase⟩ :: s.orgStack := by
  cases st with
  | org op => cases h
  | endorg => cases h
  | seg op => cases h
  | empty => exact ⟨s.outPos, rfl⟩
  | notInstr => exact ⟨s.outPos, rfl⟩
  | data bytes => exact frames_emitBytes s bytes
  | instr i =>
    obtain ⟨relaxed, jcc, hrelax⟩ := AsmState.markRelaxedLine_shape s n
    show ∃ out, frames (((if (encode (s.site n) i).relax then s.markRelaxedLine n else s).addErrors
      (encode (s.site n) i).errors).emitBytes (encode (s.site n) i).bytes) = _
    split
    · rw [hrelax]
      exact frames_emitBytes _ _
    · exact frames_emitBytes _ _

/-- The lines of a body only add to the output, and have no label. -/
theorem runLines_body : ∀ {sts : List Statement}, (∀ st ∈ sts, isPlain st = true) →
    ∀ (n : Nat) (s : AsmState), outMarks n (sts.map .stmt) s = [] ∧
      ∃ out, frames (runLines n (sts.map .stmt) s) = ⟨s.orgBase, out, s.segBase⟩ :: s.orgStack
  | [], _, _, s => ⟨rfl, s.outPos, rfl⟩
  | st :: sts, h, n, s => by
    obtain ⟨hmarks, out, hrun⟩ := runLines_body
      (fun x hx => h x (List.mem_cons_of_mem _ hx)) (n + 1) (s.execStatement n st)
    obtain ⟨out', hst⟩ := frames_plain (h st (List.mem_cons_self ..)) n s
    refine ⟨hmarks, out, ?_⟩
    obtain ⟨hhead, htail⟩ := List.cons.inj hst
    obtain ⟨hbase, -, hseg⟩ := OrgState.mk.inj hhead
    rw [hbase, hseg, htail] at hrun
    exact hrun

/-- The label of an item and its lines. -/
theorem runLines_item (i : Item) (body : ItemLines) (seg : Int) (n : Nat) (s : AsmState) :
    outMarks n (itemLines i body seg) s = [⟨i, seg, s.segBase, s.orgStack.length⟩] ∧
      ∃ out, frames (runLines n (itemLines i body seg) s) =
        ⟨s.orgBase, out, s.segBase⟩ :: s.orgStack := by
  have hlabel := frames_defineLabel s i.name .code
  obtain ⟨hhead, htail⟩ := List.cons.inj hlabel
  obtain ⟨hbase, -, hseg⟩ := OrgState.mk.inj hhead
  obtain ⟨hmarks, out, hrun⟩ := runLines_body body.plain (n + 1) (s.defineLabel (.pos i.name .code))
  refine ⟨?_, out, ?_⟩
  · show [_] ++ outMarks (n + 1) _ _ = _
    exact congrArg _ hmarks
  · rw [hbase, hseg, htail] at hrun
    exact hrun

/-- As many positions are closed as there are lines, but the last position stays. -/
theorem runLines_endorg : ∀ (k n : Nat) (s : AsmState), k < (frames s).length →
    outMarks n (List.replicate k (.stmt .endorg)) s = [] ∧
      frames (runLines n (List.replicate k (.stmt .endorg)) s) = (frames s).drop k
  | 0, _, _, _ => ⟨rfl, rfl⟩
  | k + 1, n, s, h => by
    have hpop : frames (s.execStatement n .endorg) = s.orgStack := by
      cases hst : s.orgStack with
      | nil =>
        have : (frames s).length = 1 := by simp [frames, hst]
        omega
      | cons st rest =>
        simp only [AsmState.execStatement, hst]
        rfl
    have hlt : k < (frames (s.execStatement n .endorg)).length := by
      rw [hpop]
      simpa [frames] using h
    obtain ⟨hmarks, hrun⟩ := runLines_endorg k (n + 1) (s.execStatement n .endorg) hlt
    refine ⟨hmarks, ?_⟩
    show frames (runLines (n + 1) _ (s.execStatement n .endorg)) = s.orgStack.drop k
    rw [hrun, hpop]

/-! ## The emission pass -/

/-- The binder, the assembler and the levels agree. -/
structure InStep (segs : SegState) (a : AsmState) (l : Levels) : Prop where
  at_ : segs.At l
  bases : (frames a).map OrgState.segBase = l ++ [0]

namespace InStep

variable {segs : SegState} {a : AsmState} {l : Levels}

theorem depth (h : InStep segs a l) : a.orgStack.length = l.length := by
  have hlen := congrArg List.length h.bases
  simpa [frames] using hlen

theorem segBase (h : InStep segs a l) : a.segBase = l.head?.getD 0 := by
  have hb := h.bases
  cases l with
  | nil => exact (List.cons.inj hb).1
  | cons seg l => exact (List.cons.inj hb).1

theorem of_frames {a' : AsmState} (h : InStep segs a l) {f : OrgState} {fs : List OrgState}
    (hf : frames a = f :: fs) {out : Int} (hf' : frames a' = { f with outPos := out } :: fs) :
    InStep segs a' l := by
  refine ⟨h.at_, ?_⟩
  rw [← h.bases, hf, hf']
  rfl

end InStep

/-- What an item does to the positions of the assembler. -/
inductive Moves : Item → List OrgState → List OrgState → Prop
  | closeNone (f : OrgState) : Moves .endAt [f] [f]
  | close (f g : OrgState) (fs : List OrgState) : Moves .endAt (f :: g :: fs) (g :: fs)
  | opens {i : Item} {seg : Int} (f : OrgState) (fs : List OrgState) (h : i.atSeg? = some seg) :
    Moves i fs (f :: fs)
  | writes {i : Item} (f : OrgState) (fs : List OrgState) (out : Int) (h : i.atSeg? = none)
    (hl : i.hasLabel = true) : Moves i (f :: fs) ({ f with outPos := out } :: fs)

theorem levels_of_hasLabel {i : Item} (hl : i.hasLabel = true) (l : Levels) :
    i.levels l = i.atSeg?.toList ++ l := by
  cases i with
  | fn f => rfl
  | data d => rfl
  | glob g => rfl
  | «at» seg off => rfl
  | endAt => cases hl

/-- An item is written in step with the levels. -/
structure WrittenAt (i : Item) (e e' : EmitState) (n : Nat) (a : AsmState) (l : Levels)
    (lines : List OutLine) : Prop where
  out : e'.out = e.out ++ lines
  marks : outMarks n lines a = (i.marks l).map Mark.written
  inStep : InStep e'.segs (runLines n lines a) (i.levels l)
  moves : Moves i (frames a) (frames (runLines n lines a))

/-- A label in the innermost segment. -/
theorem marks_itemLines {segs : SegState} {a : AsmState} {l : Levels} (h : InStep segs a l)
    (i : Item) (body : ItemLines) (n : Nat) :
    outMarks n (itemLines i body segs.current) a = [Mark.written ⟨i, l.head?, l.length⟩] := by
  rw [(runLines_item i body segs.current n a).1, h.at_.current, h.segBase, h.depth]
  rfl

/-- An item without `at()` is written where the output is. -/
theorem written_plain {i : Item} (hat : i.atSeg? = none) (hl : i.hasLabel = true)
    {segs : SegState} {e : EmitState} {a : AsmState} {l : Levels} (h : InStep segs a l)
    (body : ItemLines) (n : Nat) (hsegs : e.segs = segs) :
    WrittenAt i e (e.print (itemLines i body segs.current)) n a l
      (itemLines i body segs.current) := by
  have hlev : i.levels l = l := by
    rw [levels_of_hasLabel hl, hat]
    rfl
  obtain ⟨hm, out, hrun⟩ := runLines_item i body segs.current n a
  have hf : frames a = ⟨a.orgBase, a.outPos, a.segBase⟩ :: a.orgStack := rfl
  refine ⟨rfl, ?_, ?_, ?_⟩
  · rw [marks_itemLines h, Item.marks, if_pos hl, hlev]
    rfl
  · rw [hlev]
    show InStep e.segs _ _
    rw [hsegs]
    exact h.of_frames hf hrun
  · rw [hf, hrun]
    exact .writes _ _ out hat hl

theorem frames_at (seg off : Int) (n : Nat) (a : AsmState) :
    frames (runLines n [orgLine seg off, segLine seg] a) =
      ⟨seg * 16 + off, 0, seg⟩ :: frames a := rfl

theorem InStep.push {segs : SegState} {a : AsmState} {l : Levels} (h : InStep segs a l)
    (seg off : Int) (n : Nat) :
    InStep (segs.push seg) (runLines n [orgLine seg off, segLine seg] a) (seg :: l) :=
  ⟨h.at_.push seg, congrArg (seg :: ·) h.bases⟩

/-- An item with `at()` is written at its own place. -/
theorem written_at {i : Item} {seg : Int} (hat : i.atSeg? = some seg) (hl : i.hasLabel = true)
    {e : EmitState} {a : AsmState} {l : Levels} (h : InStep e.segs a l) (off : Int)
    (body : ItemLines) (n : Nat) :
    WrittenAt i e ((emitAt e seg off).print (itemLines i body seg)) n a l
      ([orgLine seg off, segLine seg] ++ itemLines i body seg) := by
  have hlev : i.levels l = seg :: l := by
    rw [levels_of_hasLabel hl, hat]
    rfl
  have hpush := h.push seg off n
  obtain ⟨hm, out, hrun⟩ := runLines_item i body seg (n + 2)
    (runLines n [orgLine seg off, segLine seg] a)
  refine ⟨?_, ?_, ?_, ?_⟩
  · show (e.out ++ [orgLine seg off, segLine seg]) ++ itemLines i body seg = _
    rw [List.append_assoc]
  · rw [outMarks_append, Item.marks, if_pos hl, hlev]
    exact marks_itemLines hpush i body (n + 2)
  · rw [runLines_append, hlev]
    exact hpush.of_frames (frames_at seg off n a) hrun
  · rw [runLines_append]
    rw [show n + [orgLine seg off, segLine seg].length = n + 2 from rfl, hrun]
    exact .opens _ _ hat

/-- The segment line of a data block names the segment that is in force. -/
theorem InStep.segLine {segs : SegState} {a : AsmState} {seg : Int} {l : Levels}
    (h : InStep segs a (seg :: l)) (n : Nat) :
    frames (runLines n [segLine seg] a) = frames a := by
  have hseg : a.segBase = seg := h.segBase
  show (⟨a.orgBase, a.outPos, seg⟩ : OrgState) :: a.orgStack = _
  rw [← hseg]
  rfl

/-- **Every item is written in step with the levels.** -/
theorem emitItem_written {i : Item} {e : EmitState} {a : AsmState} {l : Levels}
    (h : InStep e.segs a l) (hfn : ∀ f, i = .fn f → f.hasAt = false)
    (hrec : ∀ m ∈ i.marks l, m.Recorded) (n : Nat) :
    ∃ lines, WrittenAt i e (emitItem i e) n a l lines := by
  cases i with
  | fn f =>
    have hat := hfn f rfl
    have hemit : emitItem (.fn f) e = e.print (itemLines (.fn f) f.body e.segs.current) := by
      simp [emitItem, emitFunction, hat, EmitState.print]
    rw [hemit]
    exact ⟨_, written_plain (by simp [Item.atSeg?, hat]) rfl h f.body n rfl⟩
  | data d =>
    cases hat : d.hasAt with
    | true =>
      have hemit : emitItem (.data d) e =
          (emitAt e d.atSeg d.atOff).print (itemLines (.data d) d.body d.atSeg) := by
        simp [emitItem, hat, emitAt, SegState.push]
      rw [hemit]
      exact ⟨_, written_at (by simp [Item.atSeg?, hat]) rfl h _ _ n⟩
    | false =>
      -- a data block in place states its segment again, which must be the one in force
      have hnone : (Item.data d).atSeg? = none := by simp [Item.atSeg?, hat]
      have hlev : (Item.data d).levels l = l := by simp [Item.levels, hnone]
      obtain ⟨seg, hseg, hd⟩ := hrec ⟨.data d, l.head?, l.length⟩
        (by simp [Item.marks, Item.hasLabel, hlev])
      cases l with
      | nil => cases hseg
      | cons seg' l =>
        obtain rfl : seg' = seg := Option.some.inj hseg
        have hemit : emitItem (.data d) e = (e.print [Nib.Bind.segLine seg']).print
            (itemLines (.data d) d.body e.segs.current) := by
          simp [emitItem, hat, hd, EmitState.print]
        have hframes := h.segLine n
        have hstep : InStep e.segs (runLines n [Nib.Bind.segLine seg'] a) (seg' :: l) :=
          ⟨h.at_, hframes ▸ h.bases⟩
        have hw := written_plain (e := e.print [Nib.Bind.segLine seg']) hnone rfl hstep d.body
          (n + 1) rfl
        rw [hemit]
        refine ⟨[Nib.Bind.segLine seg'] ++ itemLines (.data d) d.body e.segs.current,
          ?_, ?_, ?_, ?_⟩
        · rw [hw.out]
          show (e.out ++ [Nib.Bind.segLine seg']) ++ _ = _
          rw [List.append_assoc]
        · rw [outMarks_append]
          exact hw.marks
        · rw [runLines_append]
          exact hw.inStep
        · rw [runLines_append, ← hframes]
          exact hw.moves
  | glob g =>
    cases hat : g.hasAt with
    | true =>
      have hemit : emitItem (.glob g) e =
          (emitAt e g.atSeg g.atOff).print (itemLines (.glob g) g.body g.atSeg) := by
        simp [emitItem, hat, emitAt, SegState.push]
      rw [hemit]
      exact ⟨_, written_at (by simp [Item.atSeg?, hat]) rfl h _ _ n⟩
    | false =>
      have hemit : emitItem (.glob g) e = e.print (itemLines (.glob g) g.body e.segs.current) := by
        simp [emitItem, hat]
      rw [hemit]
      exact ⟨_, written_plain (by simp [Item.atSeg?, hat]) rfl h g.body n rfl⟩
  | «at» seg off =>
    exact ⟨_, rfl, rfl, h.push seg off n, .opens ⟨seg * 16 + off, 0, seg⟩ (frames a) rfl⟩
  | endAt =>
    have hbases := h.bases
    cases hst : a.orgStack with
    | nil =>
      have hframes : frames (runLines n [.stmt .endorg] a) = frames a := by
        simp [runLines, OutLine.exec, AsmState.execStatement, hst]
      have hl : l = [] := by simpa [hst] using h.depth.symm
      refine ⟨[.stmt .endorg], rfl, rfl, ⟨h.at_.pop, ?_⟩, ?_⟩
      · rw [hframes, hbases, hl]
        rfl
      · rw [hframes, frames, hst]
        exact .closeNone _
    | cons st rest =>
      have hframes : frames (runLines n [.stmt .endorg] a) = st :: rest := by
        simp [runLines, OutLine.exec, AsmState.execStatement, hst, frames]
      rw [frames, hst] at hbases
      cases l with
      | nil => cases (List.cons.inj hbases).2
      | cons seg l =>
        refine ⟨[.stmt .endorg], rfl, rfl, ⟨h.at_.pop, ?_⟩, ?_⟩
        · rw [hframes]
          exact (List.cons.inj hbases).2
        · rw [hframes, frames, hst]
          exact .close _ _ _

/-! ## Whole modules -/

/-- The position `f` that a module starts at is kept: below what the module has opened, its base
and its segment stay, and its output too unless something is written there. -/
def Stays (k : Nat) (events : List Event) (fs fs' : List OrgState) : Prop :=
  ∀ top f base, fs = top ++ f :: base → top.length = k → Closes k events →
    ∃ top' f', fs' = top' ++ f' :: base ∧ f'.orgBase = f.orgBase ∧ f'.segBase = f.segBase ∧
      (WritesInside k events → f'.outPos = f.outPos)

/-- The events are written in step with the levels. -/
structure Traced (events : List Event) (e e' : EmitState) (n : Nat) (a : AsmState) (l : Levels)
    (lines : List OutLine) : Prop where
  out : e'.out = e.out ++ lines
  marks : outMarks n lines a = (atEvents events l).1.map Mark.written
  inStep : InStep e'.segs (runLines n lines a) (atEvents events l).2
  stays : ∀ k, Stays k events (frames a) (frames (runLines n lines a))

theorem closes_item {i : Item} (hi : i ≠ .endAt) (k : Nat) (module : Text) (rest : List Event) :
    Closes k (.item module i :: rest) ↔ Closes (k + i.atSeg?.toList.length) rest := by
  cases i with
  | endAt => exact absurd rfl hi
  | _ => simp only [Closes]

theorem writesInside_item {i : Item} (hi : i ≠ .endAt) (k : Nat) (module : Text)
    (rest : List Event) : WritesInside k (.item module i :: rest) ↔
      (i.hasLabel = true → 0 < k + i.atSeg?.toList.length) ∧
        WritesInside (k + i.atSeg?.toList.length) rest := by
  cases i with
  | endAt => exact absurd rfl hi
  | _ => simp only [WritesInside]

/-- An item before others. -/
theorem Moves.stays {i : Item} {module : Text} {rest : List Event} {fs fs' fs'' : List OrgState}
    (h : Moves i fs fs') (hrest : ∀ k, Stays k rest fs' fs'') (k : Nat) :
    Stays k (.item module i :: rest) fs fs'' := by
  intro top f base hfs hk hcloses
  subst hk
  cases h with
  | closeNone g =>
    obtain ⟨hpos, -⟩ := hcloses
    cases top with
    | nil => exact absurd hpos (Nat.lt_irrefl 0)
    | cons t top => simp at hfs
  | close g g' gs =>
    obtain ⟨hpos, hcl⟩ := hcloses
    cases top with
    | nil => exact absurd hpos (Nat.lt_irrefl 0)
    | cons t top =>
      obtain ⟨-, hgs⟩ := List.cons.inj hfs
      obtain ⟨top', f', hfs', hbase, hseg, hout⟩ := hrest top.length top f base hgs rfl hcl
      refine ⟨top', f', hfs', hbase, hseg, fun hw => hout ?_⟩
      simpa [WritesInside] using hw
  | opens g _ hat =>
    have hne : i ≠ .endAt := by
      rintro rfl
      cases hat
    rw [closes_item hne] at hcloses
    obtain ⟨top', f', hfs', hbase, hseg, hout⟩ := hrest _ (g :: top) f base
      (congrArg (g :: ·) hfs) (by rw [hat]; rfl) hcloses
    refine ⟨top', f', hfs', hbase, hseg, fun hw => hout ?_⟩
    exact ((writesInside_item hne _ _ _).mp hw).2
  | writes g gs out hat hl =>
    have hne : i ≠ .endAt := by
      rintro rfl
      cases hl
    rw [closes_item hne, hat] at hcloses
    have hinside := writesInside_item hne top.length module rest
    rw [hat] at hinside
    cases top with
    | nil =>
      obtain ⟨rfl, rfl⟩ := List.cons.inj hfs
      obtain ⟨top', f', hfs', hbase, hseg, -⟩ :=
        hrest 0 [] { g with outPos := out } gs rfl rfl hcloses
      -- the item is written at the position itself
      exact ⟨top', f', hfs', hbase, hseg, fun hw =>
        absurd ((hinside.mp hw).1 hl) (Nat.lt_irrefl 0)⟩
    | cons t top =>
      obtain ⟨rfl, rfl⟩ := List.cons.inj hfs
      obtain ⟨top', f', hfs', hbase, hseg, hout⟩ :=
        hrest _ ({ g with outPos := out } :: top) f base rfl rfl hcloses
      exact ⟨top', f', hfs', hbase, hseg, fun hw => hout (hinside.mp hw).2⟩

/-- What a used module has written, with its unwinding. -/
theorem emitUse_traced {sub : List Event} {e e' : EmitState} {n : Nat} {a : AsmState} {l : Levels}
    {lines : List OutLine} (h : InStep e.segs a l) (hsub : Traced sub e e' n a l lines)
    (hcloses : Closes 0 sub) : ∃ lines' f, (emitUnwind e' e.segs.depth).out = e.out ++ lines' ∧
      outMarks n lines' a = (atEvents sub l).1.map Mark.written ∧
      (emitUnwind e' e.segs.depth).segs.At l ∧
      frames (runLines n lines' a) = f :: a.orgStack ∧ f.orgBase = a.orgBase ∧
      f.segBase = a.segBase ∧ (WritesInside 0 sub → f.outPos = a.outPos) := by
  obtain ⟨top, f, hframes, hbase, hseg, hout⟩ :=
    hsub.stays 0 [] ⟨a.orgBase, a.outPos, a.segBase⟩ a.orgStack rfl rfl hcloses
  obtain ⟨opened, hopened⟩ := @atEvents_keeps _ [] l hcloses
  rw [List.nil_append] at hopened
  have hat := hsub.inStep.at_
  rw [hopened] at hat
  -- the levels the module has left open are the positions above `f`
  have hcount : e'.segs.depth - e.segs.depth = top.length := by
    have hlen := congrArg List.length hsub.inStep.bases
    rw [hframes, hopened] at hlen
    simp only [List.length_map, List.length_append, List.length_cons, List.length_nil] at hlen
    have hd := hat.depth
    rw [List.length_append] at hd
    have hl := h.depth
    rw [hd, h.at_.depth]
    omega
  obtain ⟨hmarks, hrun⟩ := runLines_endorg top.length (n + lines.length) (runLines n lines a)
    (by rw [hframes, List.length_append, List.length_cons]; omega)
  refine ⟨lines ++ List.replicate top.length (.stmt .endorg), f, ?_, ?_, ?_, ?_, hbase, hseg, hout⟩
  · show e'.out ++ List.replicate (e'.segs.depth - e.segs.depth) (.stmt .endorg) = _
    rw [hcount, hsub.out, List.append_assoc]
  · rw [outMarks_append, hmarks, List.append_nil]
    exact hsub.marks
  · show (e'.segs.unwind e.segs.depth).At l
    rw [h.at_.depth]
    exact hat.unwind
  · rw [runLines_append, hrun, hframes, List.drop_left]

/-- A used module before other events. -/
theorem stays_use {sub rest : List Event} {a : AsmState} {f : OrgState} {fs : List OrgState}
    (hbase : f.orgBase = a.orgBase) (hseg : f.segBase = a.segBase)
    (hout : WritesInside 0 sub → f.outPos = a.outPos)
    (hrest : ∀ k, Stays k rest (f :: a.orgStack) fs) (k : Nat) :
    Stays k (.use sub :: rest) (frames a) fs := by
  intro top g base hfs hk hcloses
  cases top with
  | nil =>
    obtain ⟨rfl, rfl⟩ := List.cons.inj hfs
    obtain ⟨top', f', hfs', hbase', hseg', hout'⟩ := hrest k [] f a.orgStack rfl hk hcloses
    refine ⟨top', f', hfs', hbase'.trans hbase, hseg'.trans hseg, fun hw => ?_⟩
    rw [WritesInside] at hw
    exact (hout' hw.2).trans (hout (hw.1 hk.symm))
  | cons t top =>
    obtain ⟨rfl, hst⟩ := List.cons.inj hfs
    obtain ⟨top', f', hfs', hbase', hseg', hout'⟩ :=
      hrest k (f :: top) g base (congrArg (f :: ·) hst) hk hcloses
    refine ⟨top', f', hfs', hbase', hseg', fun hw => hout' ?_⟩
    rw [WritesInside] at hw
    exact hw.2

/-- **The emission pass writes every item in step with the levels**, by induction over the
events. -/
theorem emitEvents_levels : ∀ {events : List Event} {e : EmitState} {a : AsmState} {l : Levels},
    InStep e.segs a l → NoAtFn events → EventsKeep events →
    (∀ m ∈ (atEvents events l).1, m.Recorded) → ∀ n,
    ∃ lines, Traced events e (emitEvents events e) n a l lines
  | [], e, a, l, h, _, _, _, n =>
    ⟨[], (List.append_nil _).symm, rfl, h, fun _ top f base hfs _ _ =>
      ⟨top, f, hfs, rfl, rfl, fun _ => rfl⟩⟩
  | .item module i :: rest, e, a, l, h, hfn, hkeep, hrec, n => by
    obtain ⟨lines, hw⟩ := emitItem_written h
      (fun f hf => hfn f (hf ▸ List.mem_cons_self ..))
      (fun m hm => hrec m (List.mem_append_left _ hm)) n
    obtain ⟨lines', ht⟩ := emitEvents_levels hw.inStep
      (fun f hf => hfn f (List.mem_cons_of_mem _ hf)) hkeep.2
      (fun m hm => hrec m (List.mem_append_right _ hm)) (n + lines.length)
    refine ⟨lines ++ lines', ?_, ?_, ?_, ?_⟩
    · rw [← List.append_assoc, ← hw.out]
      exact ht.out
    · rw [outMarks_append, hw.marks, ht.marks]
      exact (List.map_append ..).symm
    · rw [runLines_append]
      exact ht.inStep
    · rw [runLines_append]
      exact hw.moves.stays ht.stays
  | .use sub :: rest, e, a, l, h, hfn, hkeep, hrec, n => by
    obtain ⟨⟨hcloses, hsubKeep⟩, hrestKeep⟩ := hkeep
    obtain ⟨lines, hsub⟩ := emitEvents_levels h
      (fun f hf => hfn f (List.mem_append_left _ hf)) hsubKeep
      (fun m hm => hrec m (List.mem_append_left _ hm)) n
    obtain ⟨lines', f, hout, hmarks, hat, hframes, hbase, hseg, hpos⟩ :=
      emitUse_traced h hsub hcloses
    have hstep : InStep (emitUnwind (emitEvents sub e) e.segs.depth).segs (runLines n lines' a) l :=
      ⟨hat, by rw [hframes, ← h.bases, frames, List.map_cons, List.map_cons, hseg]⟩
    obtain ⟨lines'', ht⟩ := emitEvents_levels hstep
      (fun g hg => hfn g (List.mem_append_right _ hg)) hrestKeep
      (fun m hm => hrec m (List.mem_append_right _ hm)) (n + lines'.length)
    refine ⟨lines' ++ lines'', ?_, ?_, ?_, ?_⟩
    · rw [← List.append_assoc, ← hout]
      exact ht.out
    · rw [outMarks_append, hmarks, ht.marks]
      exact (List.map_append ..).symm
    · rw [runLines_append]
      exact ht.inStep
    · rw [runLines_append]
      refine stays_use hbase hseg hpos fun k => ?_
      rw [← hframes]
      exact ht.stays k

/-! ## Both passes -/

theorem SegState.At.unique {s s' : SegState} {l : Levels} (h : s.At l) (h' : s'.At l) : s = s' := by
  obtain ⟨hs, hd⟩ := h
  obtain ⟨hs', hd'⟩ := h'
  obtain ⟨hcur, hstack⟩ := List.cons.inj (hs.trans hs'.symm)
  cases s
  cases s'
  simp only at hcur hstack hd hd'
  rw [hcur, hstack, hd, hd']

/-- The state in which the emission comes to a used module is in step. -/
theorem ComesTo.inStep {events sub : List Event} {e e' : EmitState} {l l' : Levels}
    (h : ComesTo events e l sub e' l') : ∀ {a : AsmState} {n : Nat}, InStep e.segs a l →
    NoAtFn events → EventsKeep events → (∀ m ∈ (atEvents events l).1, m.Recorded) →
    (NoAtFn sub ∧ Closes 0 sub ∧ EventsKeep sub ∧ ∀ m ∈ (atEvents sub l').1, m.Recorded) ∧
      ∃ lines, e'.out = e.out ++ lines ∧ InStep e'.segs (runLines n lines a) l' := by
  induction h with
  | here sub rest e l =>
    intro a n hstep hfn hkeep hrec
    obtain ⟨⟨hcloses, hsub⟩, -⟩ := hkeep
    exact ⟨⟨fun f hf => hfn f (List.mem_append_left _ hf), hcloses, hsub,
      fun m hm => hrec m (List.mem_append_left _ hm)⟩, [], (List.append_nil _).symm, hstep⟩
  | inside h ih =>
    intro a n hstep hfn hkeep hrec
    exact ih hstep (fun f hf => hfn f (List.mem_append_left _ hf)) hkeep.1.2
      (fun m hm => hrec m (List.mem_append_left _ hm))
  | @later ev rest sub e e' l l' h ih =>
    intro a n hstep hfn hkeep hrec
    obtain ⟨lines, ht⟩ := @emitEvents_levels [ev] _ _ _ hstep
      (fun f hf => hfn f (List.mem_append_left _ (by simpa [eventsItems] using hf)))
      ⟨hkeep.1, trivial⟩
      (fun m hm => hrec m (List.mem_append_left _ (by simpa [atEvents] using hm))) n
    obtain ⟨hsub, lines', hout, hstep'⟩ := ih (n := n + lines.length) ht.inStep
      (fun f hf => hfn f (List.mem_append_right _ hf)) hkeep.2
      (fun m hm => hrec m (List.mem_append_right _ hm))
    refine ⟨hsub, lines ++ lines', ?_, ?_⟩
    · rw [hout, ← List.append_assoc]
      exact congrArg (· ++ lines') ht.out
    · rw [runLines_append]
      exact hstep'

/-- A module that uses another one, and the other one. -/
def usingFile : NirFile where
  path := ['m', '.', 'n', 'i', 'r']
  lines :=
    [ .item (.at 0xE000 0),
      .use ['"', 'l', '.', 'n', 'i', 'f', '"'],
      .item (.fn { name := ['f'] }) ]

def usedFile : NirFile where
  path := ['l', '.', 'n', 'i', 'r']
  lines :=
    [ .item (.data { name := ['d'] }),
      .item (.at 0xF000 0),
      .item (.glob { name := ['v'] }) ]

/-- What the passes meet: the used module leaves a level open. -/
def usingEvents : List Event :=
  [ .item ['m'] (.at 0xE000 0),
    .use
      [ .item ['l'] (.data { name := ['d'], emitSeg := some 0xE000 }),
        .item ['l'] (.at 0xF000 0),
        .item ['l'] (.glob { name := ['v'] }) ],
    .item ['m'] (.fn { name := ['f'], emitSeg := some 0xE000 }) ]

/-- A function at its own place: `end at;` closes the level before it in the binder, and the level
of the function in the assembler. -/
def atFunctionFile : NirFile where
  path := ['m', '.', 'n', 'i', 'r']
  lines :=
    [ .item (.at 0xE000 0),
      .item (.fn { name := ['r'], hasAt := true, atSeg := 0xFFFF, atOff := 0 }),
      .item .endAt,
      .item (.fn { name := ['g'] }) ]

end Nib.Bind
