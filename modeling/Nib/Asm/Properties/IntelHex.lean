import Nib.Asm.Spec.IntelHex
import Nib.Asm.Properties.Numerals

/-!
# Intel HEX round trip

* `readRecord_dataRecord`, `readRecord_extRecord` — a printed record is read back
* `fold_dataRecords` — the records of a run store its bytes
* `fold_hexRecords` — the records of all runs store the written bytes from an address on
* `hex_round_trip` — the whole file
-/

namespace Nib.Asm

open Nib.Infra

/-! ## Printed bytes -/

/-- The last digit of a printed number. -/
theorem printHex_snoc (w n : Nat) :
    printHex (w + 2) n = printHex (w + 1) (n / 16) ++ [(Nat.digitChar (n % 16)).toUpper] := by
  unfold printHex
  by_cases h : n < 16
  · rw [Nat.toDigits_of_lt_base h, Nat.div_eq_of_lt h, Nat.mod_eq_of_lt h,
      Nat.toDigits_of_lt_base (by decide : 0 < 16)]
    have hzero : (Nat.digitChar 0).toUpper = '0' := by decide
    simp only [List.map_cons, List.map_nil, List.length_singleton, Nat.add_sub_cancel, hzero]
    rw [Nat.add_sub_assoc (by decide : 1 ≤ 2), List.replicate_succ']
  · have hge : 16 ≤ n := Nat.not_lt.mp h
    rw [Nat.toDigits_of_base_le (by decide) hge]
    simp only [List.map_append, List.map_cons, List.map_nil, List.length_append,
      List.length_singleton]
    rw [← List.append_assoc]
    congr 3
    omega

theorem printHex_one {d : Nat} (h : d < 16) : printHex 1 d = [(Nat.digitChar d).toUpper] := by
  rw [printHex, Nat.toDigits_of_lt_base h]
  rfl

theorem printHex_byte {b : Nat} (h : b < 256) :
    printHex 2 b = [(Nat.digitChar (b / 16)).toUpper, (Nat.digitChar (b % 16)).toUpper] := by
  rw [printHex_snoc, printHex_one (by omega)]
  rfl

theorem printHex_word {n : Nat} (h : n < 65536) :
    printHex 4 n = printHex 2 (n / 256) ++ printHex 2 (n % 256) := by
  have h1 : n / 16 / 16 = n / 256 := Nat.div_div_eq_div_mul n 16 16
  have h2 : n % 256 / 16 = n / 16 % 16 := by omega
  have h3 : n % 256 % 16 = n % 16 := by omega
  rw [printHex_snoc, printHex_snoc, printHex_byte (b := n % 256) (by omega), h1, h2, h3,
    List.append_assoc]
  rfl

theorem readPairs_byte {b : Nat} (h : b < 256) (rest : List Char) :
    readPairs (printHex 2 b ++ rest) = (readPairs rest).map (b :: ·) := by
  have hx := isXDigit_upper (b / 16) (by omega)
  have hy := isXDigit_upper (b % 16) (by omega)
  rw [printHex_byte h]
  show (if _ then _ else _) = _
  rw [hx, hy, digitValue_upper _ (by omega), digitValue_upper _ (by omega), Bool.and_self,
    if_pos rfl]
  have hb : b / 16 * 16 + b % 16 = b := by omega
  rw [hb]
  rfl

theorem readPairs_bytes : ∀ {bytes : List Nat}, (∀ b ∈ bytes, b < 256) → ∀ rest,
    readPairs (bytes.flatMap (printHex 2) ++ rest) = (readPairs rest).map (bytes ++ ·)
  | [], _, rest => by simp
  | b :: bytes, h, rest => by
    have ih := readPairs_bytes (fun c hc => h c (List.mem_cons_of_mem b hc)) rest
    rw [List.flatMap_cons, List.append_assoc, readPairs_byte (h b List.mem_cons_self), ih,
      Option.map_map]
    rfl

theorem readPairs_word {n : Nat} (h : n < 65536) (rest : List Char) :
    readPairs (printHex 4 n ++ rest) = (readPairs rest).map (n / 256 :: n % 256 :: ·) := by
  rw [printHex_word h, List.append_assoc, readPairs_byte (by omega), readPairs_byte (by omega),
    Option.map_map]
  rfl

/-! ## Printed records -/

theorem checksum_lt (bytes : List Nat) : checksum bytes < 256 := Nat.mod_lt _ (by decide)

theorem sum_checksum (bytes : List Nat) : (bytes.sum + checksum bytes) % 256 = 0 := by
  unfold checksum
  omega

theorem readPairs_last {b : Nat} (h : b < 256) : readPairs (printHex 2 b) = some [b] := by
  rw [← List.append_nil (printHex 2 b), readPairs_byte h]
  rfl

theorem readRecord_pairs {text : List Char} {count high low type : Nat} {rest : List Nat}
    (h : readPairs text = some (count :: high :: low :: type :: rest))
    (hlen : rest.length = count + 1)
    (hsum : (count + high + low + type + rest.sum) % 256 = 0) :
    readRecord (':' :: text) =
      some { type, offset := 256 * high + low, data := rest.take count } := by
  rw [readRecord, h]
  exact if_pos ⟨hlen, hsum⟩

theorem readRecord_dataRecord {offset : Nat} {bytes : List Nat} (ho : offset < 65536)
    (hlen : bytes.length < 256) (hb : ∀ b ∈ bytes, b < 256) :
    readRecord (dataRecord offset bytes) = some { type := 0, offset, data := bytes } := by
  have hsum := sum_checksum (bytes.length :: offset / 256 % 256 :: offset % 256 :: 0 :: bytes)
  unfold dataRecord
  generalize hcs : checksum (bytes.length :: offset / 256 % 256 :: offset % 256 :: 0 :: bytes) = cs
    at hsum
  have hcs' : cs < 256 := hcs ▸ checksum_lt _
  have htext : readPairs (printHex 2 bytes.length ++ printHex 4 (offset % 65536) ++ "00".toList ++
      bytes.flatMap (printHex 2) ++ printHex 2 cs) =
      some (bytes.length :: offset / 256 :: offset % 256 :: 0 :: (bytes ++ [cs])) := by
    have hzero : "00".toList = printHex 2 0 := by decide
    rw [hzero, Nat.mod_eq_of_lt ho]
    simp only [List.append_assoc]
    rw [readPairs_byte hlen, readPairs_word ho, readPairs_byte (by decide), readPairs_bytes hb,
      readPairs_last hcs']
    rfl
  have hfull :
      (bytes.length + offset / 256 + offset % 256 + 0 + (bytes ++ [cs]).sum) % 256 = 0 := by
    have hmod : offset / 256 % 256 = offset / 256 := Nat.mod_eq_of_lt (by omega)
    rw [hmod] at hsum
    simp only [List.sum_cons, List.sum_append, List.sum_nil] at hsum ⊢
    omega
  have hread := readRecord_pairs htext (by simp) hfull
  rw [List.take_left', Nat.div_add_mod] at hread
  · exact hread
  · rfl

theorem readRecord_extRecord {segBase : Nat} (h : segBase < 65536) :
    readRecord (extRecord segBase) =
      some { type := 2, offset := 0, data := [segBase / 256, segBase % 256] } := by
  have hsum := sum_checksum [2, 2, segBase / 256 % 256, segBase % 256]
  unfold extRecord
  generalize hcs : checksum [2, 2, segBase / 256 % 256, segBase % 256] = cs at hsum
  have hcs' : cs < 256 := hcs ▸ checksum_lt _
  have hhead : ":02000002".toList = ':' :: (printHex 2 2 ++ printHex 4 0 ++ printHex 2 2) := by
    decide
  have htext : readPairs (printHex 2 2 ++ printHex 4 0 ++ printHex 2 2 ++ printHex 4 segBase ++
      printHex 2 cs) = some (2 :: 0 :: 0 :: 2 :: [segBase / 256, segBase % 256, cs]) := by
    simp only [List.append_assoc]
    rw [readPairs_byte (by decide), readPairs_word (by decide), readPairs_byte (by decide),
      readPairs_word h, readPairs_last hcs']
    rfl
  have hfull : (2 + 0 + 0 + 2 + [segBase / 256, segBase % 256, cs].sum) % 256 = 0 := by
    have hmod : segBase / 256 % 256 = segBase / 256 := Nat.mod_eq_of_lt (by omega)
    rw [hmod] at hsum
    simp only [List.sum_cons, List.sum_nil] at hsum ⊢
    omega
  rw [hhead]
  exact readRecord_pairs htext rfl hfull

theorem readRecord_endRecord : readRecord endRecord = some { type := 1, offset := 0, data := [] } :=
  by decide

/-! ## Loading -/

theorem line_dataRecord {s : Loader} (hs : s.ended = false) {offset : Nat} {bytes : List Nat}
    (ho : offset < 65536) (hlen : bytes.length < 256) (hb : ∀ b ∈ bytes, b < 256) :
    s.line (dataRecord offset bytes) =
      some { s with stored := s.stored ++ bytes.mapIdx fun i b => (s.base + offset + i, b) } := by
  rw [Loader.line, readRecord_dataRecord ho hlen hb, Option.bind_some, Loader.record, hs,
    if_neg (by decide), if_pos rfl]

theorem line_extRecord {s : Loader} (hs : s.ended = false) {segBase : Nat} (h : segBase < 65536) :
    s.line (extRecord segBase) = some { s with base := 16 * segBase } := by
  rw [Loader.line, readRecord_extRecord h, Option.bind_some, Loader.record, hs,
    if_neg (by decide), if_neg (show ¬2 = 0 by decide), if_pos rfl]
  simp only [Nat.div_add_mod, Nat.mul_comm]

namespace Image

variable (img : Image)

/-- The bytes of `n` addresses with their addresses. -/
def stretch (addr n : Nat) : List (Nat × Nat) :=
  (List.range' addr n).map fun a => (a, (img.output a).toNat)

theorem stretch_append (addr m n : Nat) :
    img.stretch addr m ++ img.stretch (addr + m) n = img.stretch addr (m + n) := by
  rw [stretch, stretch, stretch, ← List.map_append, List.range'_append_1]

theorem bytes_length (addr n : Nat) : (img.bytes addr n).length = n := by
  simp [bytes]

theorem bytes_lt {addr n b : Nat} (h : b ∈ img.bytes addr n) : b < 256 := by
  obtain ⟨a, -, rfl⟩ := List.mem_map.mp h
  exact (img.output a).toNat_lt

theorem mapIdx_bytes (addr n : Nat) :
    (img.bytes addr n).mapIdx (fun i b => (addr + i, b)) = img.stretch addr n := by
  refine List.ext_getElem (by simp [bytes, stretch]) fun i h1 h2 => ?_
  simp [bytes, stretch]

/-- **The records of a run store its bytes.** Each turn of the loop prints one record. -/
theorem fold_dataRecords {base stop : Nat} (hreach : stop ≤ base + 65536) (pos : Nat)
    (hbase : base ≤ pos) (hle : pos ≤ stop) {s : Loader} (hs : s.ended = false)
    (hb : s.base = base) :
    (img.dataRecords base pos stop).foldlM Loader.line s =
      some { s with stored := s.stored ++ img.stretch pos (stop - pos) } := by
  rw [dataRecords]
  split_ifs with hlt
  · have hchunk : 0 < min (stop - pos) 16 := by omega
    have hline := @line_dataRecord s hs (pos - base) (img.bytes pos (min (stop - pos) 16))
      (by omega) (by rw [bytes_length]; omega) fun b => img.bytes_lt
    have haddr : s.base + (pos - base) = pos := by omega
    rw [haddr, mapIdx_bytes] at hline
    simp only [List.foldlM_cons, hline, Option.bind_eq_bind, Option.bind_some]
    have ih := fold_dataRecords hreach (pos + min (stop - pos) 16) (by omega) (by omega)
      (s := { s with stored := s.stored ++ img.stretch pos (min (stop - pos) 16) }) hs hb
    rw [ih]
    have hsplit : min (stop - pos) 16 + (stop - (pos + min (stop - pos) 16)) = stop - pos := by
      omega
    simp only [List.append_assoc, stretch_append, hsplit]
  · have hzero : stop - pos = 0 := by omega
    rw [hzero]
    simp [stretch]
termination_by stop - pos

theorem mem_dataRecords {base stop : Nat} {line : List Char} (hreach : stop ≤ base + 65536)
    (pos : Nat) (hbase : base ≤ pos) (hle : pos ≤ stop)
    (h : line ∈ img.dataRecords base pos stop) :
    ∃ r, readRecord line = some r ∧ r.offset + r.data.length ≤ 65536 := by
  rw [dataRecords] at h
  split_ifs at h with hlt
  · rcases List.mem_cons.mp h with rfl | h
    · have hread := @readRecord_dataRecord (pos - base) (img.bytes pos (min (stop - pos) 16))
        (by omega) (by rw [bytes_length]; omega) fun b => img.bytes_lt
      refine ⟨_, hread, ?_⟩
      show pos - base + (img.bytes pos (min (stop - pos) 16)).length ≤ 65536
      rw [bytes_length]
      omega
    · have hchunk : 0 < min (stop - pos) 16 := by omega
      exact mem_dataRecords hreach (pos + min (stop - pos) 16) (by omega) (by omega) h
  · cases h
termination_by stop - pos

/-! ## Runs -/

/-- The written bytes of `n` addresses with their addresses. -/
def writtenIn (addr n : Nat) : List (Nat × Nat) :=
  ((List.range' addr n).filter img.written).map fun a => (a, (img.output a).toNat)

theorem writtenIn_append (addr m n : Nat) :
    img.writtenIn addr m ++ img.writtenIn (addr + m) n = img.writtenIn addr (m + n) := by
  rw [writtenIn, writtenIn, writtenIn, ← List.map_append, ← List.filter_append,
    List.range'_append_1]

/-- Nothing is written up to the next written address. -/
theorem writtenIn_gap (addr : Nat) : img.writtenIn addr (img.nextWritten addr - addr) = [] := by
  have hnone : (List.range' addr (img.nextWritten addr - addr)).filter img.written = [] := by
    rw [List.filter_eq_nil_iff]
    intro a ha
    obtain ⟨h1, h2⟩ := List.mem_range'_1.mp ha
    exact Bool.eq_false_iff.mp (seek_not h1 (show a < img.nextWritten addr by omega))
  rw [writtenIn, hnone]
  rfl

/-- Everything is written up to the end of a run. -/
theorem writtenIn_run (addr : Nat) :
    img.writtenIn addr (img.runEnd addr - addr) = img.stretch addr (img.runEnd addr - addr) := by
  have hall : (List.range' addr (img.runEnd addr - addr)).filter img.written =
      List.range' addr (img.runEnd addr - addr) := by
    rw [List.filter_eq_self]
    intro a ha
    obtain ⟨h1, h2⟩ := List.mem_range'_1.mp ha
    have hrun := seek_not h1 (show a < img.runEnd addr by omega)
    simpa using hrun
  rw [writtenIn, hall, stretch]

theorem runEnd_le {addr : Nat} (h : addr < maxAddress) :
    img.runEnd addr ≤ 16 * (addr / 16) + 65536 ∧ img.runEnd addr ≤ maxAddress := by
  have hle := seek_le (fun a => !img.written a)
    (min (16 * (addr / 16) + 65536) maxAddress - addr) addr
  unfold runEnd
  omega

/-- **The records of all runs from an address on store the written bytes from there.** Whenever
a type 02 record is left out, the loader has the base already. -/
theorem fold_hexRecords (curExt : Option Nat) (addr : Nat) (hle : addr ≤ maxAddress) {s : Loader}
    (hs : s.ended = false) (hb : ∀ seg, curExt = some seg → s.base = 16 * seg) :
    ∃ base, (img.hexRecords curExt addr).foldlM Loader.line s =
      some { s with base, stored := s.stored ++ img.writtenIn addr (maxAddress - addr) } := by
  have hstart : addr ≤ img.nextWritten addr := le_seek _ _ _
  have hmax : img.nextWritten addr ≤ maxAddress := by
    have := seek_le img.written (maxAddress - addr) addr
    unfold nextWritten
    omega
  rw [hexRecords]
  by_cases h : img.nextWritten addr < maxAddress
  · have hrun := img.lt_runEnd h (img.written_nextWritten h)
    obtain ⟨hreach, hstop⟩ := img.runEnd_le h
    rw [dif_pos h]
    -- the loader has the segment of the run after the optional record
    have hext : (if curExt = some (img.nextWritten addr / 16) then []
        else [extRecord (img.nextWritten addr / 16)]).foldlM Loader.line s =
        some { s with base := 16 * (img.nextWritten addr / 16) } := by
      split_ifs with hcur
      · rw [← hb _ hcur]
        rfl
      · have hseg : img.nextWritten addr / 16 < 65536 := by
          unfold maxAddress at h
          omega
        rw [List.foldlM_cons, line_extRecord hs hseg]
        rfl
    have hdata := img.fold_dataRecords hreach (img.nextWritten addr) (by omega) (by omega)
      (s := { s with base := 16 * (img.nextWritten addr / 16) }) hs rfl
    obtain ⟨base, hrest⟩ := fold_hexRecords (some (img.nextWritten addr / 16))
      (img.runEnd (img.nextWritten addr)) hstop
      (s := { s with
        base := 16 * (img.nextWritten addr / 16)
        stored := s.stored ++ img.stretch (img.nextWritten addr)
          (img.runEnd (img.nextWritten addr) - img.nextWritten addr) })
      hs fun seg hseg => by rw [Option.some.inj hseg]
    refine ⟨base, ?_⟩
    rw [List.foldlM_append, List.foldlM_append, hext, Option.bind_eq_bind,
      Option.bind_some, hdata, Option.bind_some, hrest]
    have hsplit : img.writtenIn addr (maxAddress - addr) =
        img.stretch (img.nextWritten addr)
            (img.runEnd (img.nextWritten addr) - img.nextWritten addr) ++
          img.writtenIn (img.runEnd (img.nextWritten addr))
            (maxAddress - img.runEnd (img.nextWritten addr)) := by
      have h1 := img.writtenIn_append addr (img.nextWritten addr - addr)
        (maxAddress - img.nextWritten addr)
      have h2 := img.writtenIn_append (img.nextWritten addr)
        (img.runEnd (img.nextWritten addr) - img.nextWritten addr)
        (maxAddress - img.runEnd (img.nextWritten addr))
      have hlen1 : img.nextWritten addr - addr + (maxAddress - img.nextWritten addr) =
          maxAddress - addr := by omega
      have hlen2 : img.runEnd (img.nextWritten addr) - img.nextWritten addr +
          (maxAddress - img.runEnd (img.nextWritten addr)) =
            maxAddress - img.nextWritten addr := by omega
      rw [Nat.add_sub_cancel' hstart, writtenIn_gap, List.nil_append, hlen1] at h1
      rw [Nat.add_sub_cancel' (by omega), writtenIn_run, hlen2] at h2
      rw [← h1, ← h2]
    rw [hsplit, List.append_assoc]
  · have heq : img.nextWritten addr = maxAddress := by omega
    have hgap := img.writtenIn_gap addr
    rw [heq] at hgap
    rw [dif_neg h, hgap, List.append_nil]
    exact ⟨s.base, rfl⟩
termination_by maxAddress - addr

theorem mem_hexRecords {curExt : Option Nat} {addr : Nat} {line : List Char}
    (h : line ∈ img.hexRecords curExt addr) :
    ∃ r, readRecord line = some r ∧ (r.type = 0 → r.offset + r.data.length ≤ 65536) := by
  rw [hexRecords] at h
  by_cases hlt : img.nextWritten addr < maxAddress
  · have hrun := img.lt_runEnd hlt (img.written_nextWritten hlt)
    obtain ⟨hreach, -⟩ := img.runEnd_le hlt
    have hstart : addr ≤ img.nextWritten addr := le_seek _ _ _
    rw [dif_pos hlt] at h
    rcases List.mem_append.mp h with h | h
    · rcases List.mem_append.mp h with h | h
      · split_ifs at h
        · cases h
        · rw [List.mem_singleton.mp h]
          have hseg : img.nextWritten addr / 16 < 65536 := by
            unfold maxAddress at hlt
            omega
          exact ⟨_, readRecord_extRecord hseg, fun h0 => absurd h0 (show ¬2 = 0 by decide)⟩
      · obtain ⟨r, hr, hlen⟩ := img.mem_dataRecords hreach _ (by omega) (by omega) h
        exact ⟨r, hr, fun _ => hlen⟩
    · exact mem_hexRecords h
  · rw [dif_neg hlt] at h
    cases h
termination_by maxAddress - addr

end Image

theorem load_writeHex (img : Image) : loadHex img.writeHex = some img.contents := by
  obtain ⟨base, hfold⟩ := img.fold_hexRecords none 0 (Nat.zero_le _) (s := {}) rfl
    fun seg h => by cases h
  have hend : Loader.line { base, stored := img.writtenIn 0 maxAddress } endRecord =
      some { base, stored := img.writtenIn 0 maxAddress, ended := true } := by
    rw [Loader.line, readRecord_endRecord]
    rfl
  have hload : img.writeHex.foldlM Loader.line {} =
      some { base, stored := img.writtenIn 0 maxAddress, ended := true } := by
    rw [Image.writeHex, List.foldlM_append, hfold]
    simp only [Nat.sub_zero, List.nil_append, Option.bind_eq_bind, Option.bind_some,
      List.foldlM_cons, hend]
    rfl
  rw [loadHex, hload, Image.contents, List.range_eq_range']
  rfl

/-- **Intel HEX round trip.** Reading the printed records gives each written address once, with
its byte. -/
theorem hex_round_trip (img : Image) : img.RoundTrip img.writeHex := by
  refine ⟨load_writeHex img, fun line hmem r hread h0 => ?_⟩
  rcases List.mem_append.mp hmem with h | h
  · obtain ⟨r', hread', hlen⟩ := img.mem_hexRecords h
    rw [Option.some.inj (hread.symm.trans hread')] at h0 ⊢
    exact hlen h0
  · rw [List.mem_singleton.mp h, readRecord_endRecord] at hread
    rw [← Option.some.inj hread] at h0
    exact absurd h0 (by decide)

/-- What nibasm prints with `--ihex` holds the bytes that pass 2 wrote. -/
theorem assemble_hex (lines : List (List Char)) :
    loadHex (assemble lines).image.writeHex = some (assemble lines).image.contents :=
  load_writeHex _

end Nib.Asm
