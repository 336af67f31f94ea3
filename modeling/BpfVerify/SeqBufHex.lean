import BpfVerify.SeqBuf

/-!
# Hexadecimal text, chunk by chunk

`seq_buf_putmem_hex` on a little-endian machine against its purpose: the text of one chunk of
eight bytes after the other is appended, up to the first that overflows.
-/
namespace BpfVerify.SeqBuf
open Word

/-- Consecutive chunks of eight bytes, the last of which may be shorter. -/
def chunks (mem : List Byte) : List (List Byte) :=
  if mem.length = 0 then [] else mem.take 8 :: chunks (mem.drop 8)
termination_by mem.length
decreasing_by
  rw [List.length_drop]
  omega

/-- The two lower-case digits of a byte. -/
def hexByte (b : Byte) : List Byte :=
  [b.toNat / 16, b.toNat % 16].map fun digit => BitVec.ofNat 8 (Nat.digitChar digit).toNat

/-- The digits of a chunk from its last byte on, and a blank. -/
def chunkHex (chunk : List Byte) : List Byte := chunk.reverse.flatMap hexByte ++ [0x20]

/-- Appends the text of each chunk, up to the first that overflows. -/
def putChunks (s : SeqBuf) : List (List Byte) → ℤ × SeqBuf
  | [] => (0, s)
  | chunk :: rest =>
    let s' := (seqBufPutmem s (chunkHex chunk)).2
    if seqBufHasOverflowed s' then (-1, s') else putChunks s' rest

lemma hexByte_eq : ∀ b : Byte, hexByte b = [hexAscHi b, hexAscLo b] := by
  decide +kernel

lemma chunkHex_eq (chunk : List Byte) : chunkHex chunk = chunkText false chunk := by
  rw [chunkHex, chunkText, hexDigits, if_neg Bool.false_ne_true, funext hexByte_eq]

lemma hexLoop_eq_putChunks (s : SeqBuf) (data : List Byte) :
    hexLoop false s data = putChunks s (chunks data) := by
  induction hn : data.length using Nat.strong_induction_on generalizing s data with
  | _ n ih =>
    rw [chunks]
    by_cases hempty : data.length = 0
    · rw [hexLoop, if_pos hempty, if_pos hempty]
      rfl
    · have hdrop : (data.drop 8).length < n := by
        rw [List.length_drop]
        omega
      rw [hexLoop_step false s hempty, if_neg hempty, putChunks, chunkHex_eq]
      simp only [ih _ hdrop _ _ rfl]

lemma length_of_mem_chunks {mem chunk : List Byte} (h : chunk ∈ chunks mem) : chunk.length ≤ 8 := by
  induction hn : mem.length using Nat.strong_induction_on generalizing mem with
  | _ n ih =>
    rw [chunks] at h
    split_ifs at h with hempty
    · cases h
    · cases List.mem_cons.mp h with
      | inl hfirst =>
        rw [hfirst, List.length_take]
        omega
      | inr hrest =>
        apply ih (mem.drop 8).length _ hrest rfl
        rw [List.length_drop]
        omega

lemma putChunks_cons {s s' : SeqBuf} {chunk : List Byte} (rest : List (List Byte))
    (hs' : (seqBufPutmem s (chunkHex chunk)).2 = s') (hover : ¬ seqBufHasOverflowed s' = true) :
    putChunks s (chunk :: rest) = putChunks s' rest := by
  rw [putChunks]
  simp only [hs']
  rw [if_neg hover]

/-- A copy that overflows leaves only the mark. -/
lemma seqBufPutmem_overflow {s : SeqBuf} {src : List Byte}
    (hover : seqBufHasOverflowed (seqBufPutmem s src).2 = true) :
    seqBufPutmem s src = (-1, seqBufSetOverflow s) := by
  unfold seqBufPutmem at hover ⊢
  split_ifs with hfit
  · rw [if_pos hfit, seqBufHasOverflowed, decide_eq_true_eq] at hover
    rw [seqBufCanFit, decide_eq_true_eq] at hfit
    exact absurd hover (by simpa using hfit)
  · rfl

lemma putChunks_ret (s : SeqBuf) {l : List (List Byte)} (hl : l ≠ []) :
    ((putChunks s l).1 = 0 ∨ (putChunks s l).1 = -1) ∧
      ((putChunks s l).1 = -1 ↔ seqBufHasOverflowed (putChunks s l).2 = true) := by
  induction l generalizing s with
  | nil => exact absurd rfl hl
  | cons chunk rest ih =>
    by_cases hover : seqBufHasOverflowed (seqBufPutmem s (chunkHex chunk)).2 = true
    · rw [putChunks, if_pos hover]
      exact ⟨.inr rfl, iff_of_true rfl hover⟩
    · rw [putChunks_cons rest rfl hover]
      by_cases hrest : rest = []
      · rw [hrest]
        exact ⟨.inl rfl, iff_of_false (show (0 : ℤ) ≠ -1 by decide) hover⟩
      · exact ih _ hrest

/-- The chunks before the one that overflows are all appended. -/
lemma putChunks_overflow (s : SeqBuf) {l : List (List Byte)} (hret : (putChunks s l).1 = -1) :
    ∃ done chunk rest t, l = done ++ chunk :: rest ∧ putChunks s done = (0, t) ∧
      seqBufPutmem t (chunkHex chunk) = (-1, (putChunks s l).2) ∧
      (putChunks s l).2 = seqBufSetOverflow t := by
  induction l generalizing s with
  | nil => cases hret
  | cons chunk rest ih =>
    by_cases hover : seqBufHasOverflowed (seqBufPutmem s (chunkHex chunk)).2 = true
    · have hput := seqBufPutmem_overflow hover
      rw [putChunks, if_pos hover, hput]
      exact ⟨[], chunk, rest, s, rfl, rfl, hput, rfl⟩
    · rw [putChunks_cons rest rfl hover] at hret ⊢
      obtain ⟨done, last, after, t, hl, hdone, hrest⟩ := ih _ hret
      refine ⟨chunk :: done, last, after, t, by rw [hl, List.cons_append], ?_, hrest⟩
      rw [putChunks_cons done rfl hover, hdone]

lemma putChunks_text {s t : SeqBuf} {l : List (List Byte)} (hsize : s.size < 2 ^ 63)
    (hlen : s.len ≤ s.size) (hl : ∀ chunk ∈ l, chunk.length ≤ 8) (h : putChunks s l = (0, t)) :
    t.len ≤ s.size ∧ t.text = s.text ++ l.flatMap chunkHex := by
  induction l generalizing s with
  | nil =>
    cases h
    exact ⟨hlen, (List.append_nil _).symm⟩
  | cons chunk rest ih =>
    have hwf : WF s := ⟨by omega, by omega⟩
    have hgrows := chunk_grows hwf false chunk (hl chunk List.mem_cons_self)
    rw [← chunkHex_eq] at hgrows
    by_cases hover : seqBufHasOverflowed (seqBufPutmem s (chunkHex chunk)).2 = true
    · rw [putChunks, if_pos hover] at h
      cases h
    · rw [putChunks_cons rest rfl hover] at h
      rw [seqBufHasOverflowed, decide_eq_true_eq, hgrows.size_eq] at hover
      obtain ⟨hfit, htext⟩ := (hgrows.appended hlen).resolve_right (by omega)
      have hrest := ih (by rw [hgrows.size_eq]; exact hsize) (by rw [hgrows.size_eq]; exact hfit)
        (fun chunk' hmem => hl chunk' (List.mem_cons_of_mem _ hmem)) h
      rw [hgrows.size_eq, htext] at hrest
      rw [List.flatMap_cons, ← List.append_assoc]
      exact hrest

/-- What `seq_buf_putmem_hex` does with the bytes `mem`. -/
structure HexPut (s : SeqBuf) (mem : List Byte) : Prop where
  chunkwise : seqBufPutmemHex false s mem = putChunks s (chunks mem)
  /-- The branch for at most eight bytes against the loop. -/
  branch : mem.length ≤ maxMemhexBytes → seqBufPutmemHex false s mem = hexLoop false s mem
  empty : mem = [] → seqBufPutmemHex false s mem = (0, s)
  returns : mem ≠ [] →
    ((seqBufPutmemHex false s mem).1 = 0 ∨ (seqBufPutmemHex false s mem).1 = -1) ∧
    ((seqBufPutmemHex false s mem).1 = -1 ↔
      seqBufHasOverflowed (seqBufPutmemHex false s mem).2 = true)
  /-- On overflow the buffer holds the text of whole chunks, and the next one did not fit. -/
  kept : (seqBufPutmemHex false s mem).1 = -1 → ∃ done chunk rest t,
    chunks mem = done ++ chunk :: rest ∧ putChunks s done = (0, t) ∧
    seqBufPutmem t (chunkHex chunk) = (-1, (seqBufPutmemHex false s mem).2) ∧
    (seqBufPutmemHex false s mem).2 = seqBufSetOverflow t ∧
    (s.len ≤ s.size → t.len ≤ s.size ∧
      (List.range t.len).map (seqBufPutmemHex false s mem).2.buffer =
        s.text ++ done.flatMap chunkHex)

theorem seqBufPutmemHex_chunks (s : SeqBuf) (mem : List Byte) (hsize : s.size < 2 ^ 63) :
    HexPut s mem := by
  have hchunks : seqBufPutmemHex false s mem = putChunks s (chunks mem) := by
    rw [seqBufPutmemHex_eq_hexLoop, hexLoop_eq_putChunks]
  constructor
  case chunkwise => exact hchunks
  case branch => exact fun _ => seqBufPutmemHex_eq_hexLoop false s mem
  case empty =>
    rintro rfl
    rw [hchunks, chunks]
    rfl
  case returns =>
    intro hne
    rw [hchunks]
    apply putChunks_ret
    rw [chunks, if_neg (List.length_eq_zero_iff.not.mpr hne)]
    exact List.cons_ne_nil _ _
  case kept =>
    intro hret
    rw [hchunks] at hret ⊢
    obtain ⟨done, chunk, rest, t, hsplit, hdone, hput, hlast⟩ := putChunks_overflow s hret
    refine ⟨done, chunk, rest, t, hsplit, hdone, hput, hlast, ?_⟩
    intro hlen
    rw [hlast]
    apply putChunks_text hsize hlen _ hdone
    intro chunk' hmem
    exact length_of_mem_chunks (by rw [hsplit]; exact List.mem_append_left _ hmem)

/-- Nine bytes do not fit in 20, but the first eight do. -/
theorem seqBufPutmemHex_chunks_nine :
    HexPut { buffer := fun _ => 0, size := 20, len := 0 } (List.replicate 9 0xab) :=
  seqBufPutmemHex_chunks _ _ (by decide)

end BpfVerify.SeqBuf
