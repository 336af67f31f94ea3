import BpfVerify.Word

/-!
# Sequence buffers

`shims/lib/seq_buf.c`: pieces are appended behind `len` while they fit; `len = size + 1`
stands for a buffer that has overflowed. Every append is one bounded copy, so a sequence of
calls either holds all its pieces or has overflowed for good.
-/
namespace BpfVerify
open Word

/-- `struct seq_buf` with the memory behind its `buffer` pointer. -/
structure SeqBuf where
  buffer : ℕ → BitVec 8
  size : ℕ
  len : ℕ

namespace SeqBuf

abbrev Byte := BitVec 8

/-- A string of bytes other than NUL; the terminator follows in memory. -/
structure CString where
  bytes : List Byte
  nonzero : ∀ b ∈ bytes, b ≠ 0

def CString.memory (str : CString) : List Byte := str.bytes ++ [0]

/-- `while (s[n]) n++` over the memory of a string. -/
def strlen : List Byte → ℕ
  | [] => 0
  | b :: s => if b ≠ 0 then strlen s + 1 else 0

/-- The bytes of `src`, stored one after the other from `d` on. -/
def memcpy (buffer : ℕ → Byte) (d : ℕ) : List Byte → ℕ → Byte
  | [] => buffer
  | b :: src => memcpy (Function.update buffer d b) (d + 1) src

/-- Of the kernel's header. -/
def seqBufSetOverflow (s : SeqBuf) : SeqBuf := { s with len := u64 (s.size + 1) }

/-- Of the kernel's header. -/
def seqBufHasOverflowed (s : SeqBuf) : Bool := s.len > s.size

def seqBufCanFit (s : SeqBuf) (len : ℕ) : Bool := u64 (s.len + len) ≤ s.size

def seqBufPuts (s : SeqBuf) (str : CString) : ℤ × SeqBuf :=
  let len := u64 (strlen str.memory + 1)
  if seqBufCanFit s len then
    (0, { s with buffer := memcpy s.buffer s.len (str.memory.take len),
                 len := u64 (s.len + sub64 len 1) })
  else (-1, seqBufSetOverflow s)

def seqBufPutc (s : SeqBuf) (c : Byte) : ℤ × SeqBuf :=
  if seqBufCanFit s 1 then
    (0, { s with buffer := Function.update s.buffer s.len c, len := u64 (s.len + 1) })
  else (-1, seqBufSetOverflow s)

/-- `mem` is the `len` bytes behind the pointer. -/
def seqBufPutmem (s : SeqBuf) (mem : List Byte) : ℤ × SeqBuf :=
  if seqBufCanFit s mem.length then
    (0, { s with buffer := memcpy s.buffer s.len mem, len := u64 (s.len + mem.length) })
  else (-1, seqBufSetOverflow s)

def maxMemhexBytes : ℕ := 8

/-- `__seq_hex_asc`. -/
def seqHexAsc (digit : Byte) : Byte :=
  BitVec.ofNat 8 ("0123456789abcdef".toList.getD digit.toNat '0').toNat

def hexAscLo (x : Byte) : Byte := seqHexAsc (x &&& 0x0f)

def hexAscHi (x : Byte) : Byte := seqHexAsc ((x &&& 0xf0) >>> 4)

/-- What the inner loop leaves in `hex`: two digits a byte, from the most significant byte on
for the byte order of the machine. -/
def hexDigits (bigEndian : Bool) (data : List Byte) : List Byte :=
  (if bigEndian then data else data.reverse).flatMap fun b => [hexAscHi b, hexAscLo b]

/-- The `while` loop of `seq_buf_putmem_hex` over the bytes left. -/
def hexLoop (bigEndian : Bool) (s : SeqBuf) (data : List Byte) : ℤ × SeqBuf :=
  if data.length = 0 then (0, s)
  else
    let startLen := min data.length maxMemhexBytes
    let hex := hexDigits bigEndian (data.take startLen)
    if hex.length = 0 ∨ hex.length / 2 > data.length then (0, s)
    else
      let (_, s) := seqBufPutmem s (hex ++ [0x20])
      if seqBufHasOverflowed s then (-1, s)
      else hexLoop bigEndian s (data.drop startLen)
termination_by data.length
decreasing_by
  rw [List.length_drop, maxMemhexBytes]
  omega

def seqBufPutmemHex (bigEndian : Bool) (s : SeqBuf) (mem : List Byte) : ℤ × SeqBuf :=
  if mem.length ≤ maxMemhexBytes then
    if mem.length = 0 then (0, s)
    else
      let hex := hexDigits bigEndian mem
      if hex.length = 0 ∨ hex.length / 2 > mem.length then (-1, s)
      else
        let (_, s) := seqBufPutmem s (hex ++ [0x20])
        (if seqBufHasOverflowed s then -1 else 0, s)
  else hexLoop bigEndian s mem

inductive Op where
  | puts (str : CString)
  | putc (c : Byte)
  | putmem (mem : List Byte)
  | putmemHex (mem : List Byte)

def exec (bigEndian : Bool) (s : SeqBuf) : Op → ℤ × SeqBuf
  | .puts str => seqBufPuts s str
  | .putc c => seqBufPutc s c
  | .putmem mem => seqBufPutmem s mem
  | .putmemHex mem => seqBufPutmemHex bigEndian s mem

def execAll (bigEndian : Bool) (s : SeqBuf) (ops : List Op) : SeqBuf :=
  ops.foldl (fun s op => (exec bigEndian s op).2) s

/-! ## Bounded copies -/

/-- The bytes of the buffer before `len`. -/
def text (s : SeqBuf) : List Byte := (List.range s.len).map s.buffer

lemma memcpy_range (buffer : ℕ → Byte) (d : ℕ) (src : List Byte) :
    (List.range (d + src.length)).map (memcpy buffer d src) = (List.range d).map buffer ++ src := by
  induction src generalizing buffer d with
  | nil => simp [memcpy]
  | cons b src ih =>
    have hlen : d + (b :: src).length = d + 1 + src.length := by
      rw [List.length_cons]
      omega
    have hkeep : (List.range d).map (Function.update buffer d b) = (List.range d).map buffer := by
      apply List.map_congr_left
      intro i hi
      exact Function.update_of_ne (List.mem_range.mp hi).ne _ _
    rw [memcpy, hlen, ih, List.range_succ, List.map_append, hkeep]
    simp

lemma memcpy_frame (buffer : ℕ → Byte) (d : ℕ) (src : List Byte) {i : ℕ}
    (h : i < d ∨ d + src.length ≤ i) : memcpy buffer d src i = buffer i := by
  induction src generalizing buffer d with
  | nil => rfl
  | cons b src ih =>
    rw [List.length_cons] at h
    rw [memcpy, ih _ _ (by omega)]
    exact Function.update_of_ne (by omega) _ _

/-- Copies `src` if it fits, of which `k` bytes count. -/
def put (s : SeqBuf) (src : List Byte) (k : ℕ) : ℤ × SeqBuf :=
  if s.len + src.length ≤ s.size then
    (0, { s with buffer := memcpy s.buffer s.len src, len := s.len + k })
  else (-1, { s with len := s.size + 1 })

/-- A buffer as the calls leave it: its length is in bounds or says overflow. -/
structure WF (s : SeqBuf) : Prop where
  size_lt : s.size < 2 ^ 64 - 2 ^ 33
  len_le : s.len ≤ s.size + 1

lemma WF.canFit {s : SeqBuf} (h : WF s) {len : ℕ} (hlen : len ≤ 2 ^ 32) :
    seqBufCanFit s len = decide (s.len + len ≤ s.size) := by
  have hsize := h.size_lt
  have hle := h.len_le
  rw [seqBufCanFit, u64_of_lt (by omega)]

lemma WF.setOverflow {s : SeqBuf} (h : WF s) :
    seqBufSetOverflow s = { s with len := s.size + 1 } := by
  have hsize := h.size_lt
  rw [seqBufSetOverflow, u64_of_lt (by omega)]

lemma strlen_memory (str : CString) : strlen str.memory = str.bytes.length := by
  obtain ⟨bytes, hnonzero⟩ := str
  unfold CString.memory
  induction bytes with
  | nil => rfl
  | cons b bytes ih =>
    have htail := ih fun c hc => hnonzero c (List.mem_cons_of_mem _ hc)
    simp only [List.cons_append, strlen, List.length_cons]
    rw [if_pos (hnonzero b List.mem_cons_self), htail]

lemma seqBufPuts_eq {s : SeqBuf} (h : WF s) {str : CString} (hshort : str.bytes.length < 2 ^ 32) :
    seqBufPuts s str = put s (str.bytes ++ [0]) str.bytes.length := by
  have hsize := h.size_lt
  have hle := h.len_le
  have hlen : u64 (strlen str.memory + 1) = str.bytes.length + 1 := by
    rw [strlen_memory, u64_of_lt (by omega)]
  have htake : str.memory.take (str.bytes.length + 1) = str.bytes ++ [0] := by
    rw [CString.memory, List.take_of_length_le (by simp)]
  have hsub : sub64 (str.bytes.length + 1) 1 = str.bytes.length := by
    rw [sub64_of_le (by omega) (by omega), Nat.add_sub_cancel]
  rw [seqBufPuts, put, hlen, htake, hsub, h.canFit (by omega), h.setOverflow,
    u64_of_lt (by omega), List.length_append, List.length_singleton]
  simp only [decide_eq_true_eq]

lemma seqBufPutc_eq {s : SeqBuf} (h : WF s) (c : Byte) : seqBufPutc s c = put s [c] 1 := by
  have hsize := h.size_lt
  have hle := h.len_le
  rw [seqBufPutc, put, h.canFit (by omega), h.setOverflow, u64_of_lt (by omega),
    List.length_singleton]
  simp only [decide_eq_true_eq]
  rfl

lemma seqBufPutmem_eq {s : SeqBuf} (h : WF s) {mem : List Byte} (hshort : mem.length < 2 ^ 32) :
    seqBufPutmem s mem = put s mem mem.length := by
  have hsize := h.size_lt
  have hle := h.len_le
  rw [seqBufPutmem, put, h.canFit (by omega), h.setOverflow, u64_of_lt (by omega)]
  simp only [decide_eq_true_eq]

/-! ## What one call appends -/

/-- `s'` is `s` with `piece` appended, or has overflowed; one that had overflowed is as before. -/
structure Grows (s s' : SeqBuf) (piece : List Byte) : Prop where
  size_eq : s'.size = s.size
  frame : ∀ i, s.size ≤ i → s'.buffer i = s.buffer i
  appended : s.len ≤ s.size →
    s'.len ≤ s.size ∧ s'.text = s.text ++ piece ∨ s'.len = s.size + 1
  stays : s.len = s.size + 1 → s' = s

lemma Grows.refl (s : SeqBuf) : Grows s s [] := by
  constructor
  case size_eq => rfl
  case frame => exact fun i _ => rfl
  case appended => exact fun h => .inl ⟨h, (List.append_nil _).symm⟩
  case stays => exact fun _ => rfl

lemma Grows.trans {s s' s'' : SeqBuf} {piece piece' : List Byte} (h : Grows s s' piece)
    (h' : Grows s' s'' piece') : Grows s s'' (piece ++ piece') := by
  obtain ⟨hsize, hframe, happ, hstay⟩ := h
  obtain ⟨hsize', hframe', happ', hstay'⟩ := h'
  rw [hsize] at hframe' happ' hstay'
  constructor
  case size_eq => exact hsize'.trans hsize
  case frame => exact fun i hi => (hframe' i hi).trans (hframe i hi)
  case appended =>
    intro hle
    cases happ hle with
    | inl hfit =>
      cases happ' hfit.1 with
      | inl hfit' => exact .inl ⟨hfit'.1, by rw [hfit'.2, hfit.2, List.append_assoc]⟩
      | inr hover => exact .inr hover
    | inr hover =>
      rw [hstay' hover]
      exact .inr hover
  case stays =>
    intro hover
    rw [hstay hover] at hstay'
    rw [hstay' hover]

lemma Grows.wf {s s' : SeqBuf} {piece : List Byte} (h : Grows s s' piece) (hs : WF s) : WF s' := by
  have hsize := hs.size_lt
  have hle := hs.len_le
  constructor
  · rw [h.size_eq]
    exact hsize
  · rw [h.size_eq]
    by_cases hover : s.len = s.size + 1
    · rw [h.stays hover]
      exact hle
    · cases h.appended (by omega) with
      | inl hfit => omega
      | inr hover => omega

lemma put_grows (s : SeqBuf) (src : List Byte) {k : ℕ} (hk : k ≤ src.length) :
    Grows s (put s src k).2 (src.take k) := by
  unfold put
  split_ifs with hfit
  · constructor
    case size_eq => rfl
    case frame =>
      intro i hi
      exact memcpy_frame _ _ _ (.inr (by omega))
    case appended =>
      intro _
      refine .inl ⟨?_, ?_⟩
      · dsimp only
        omega
      · have hrange := congrArg (List.take (s.len + k)) (memcpy_range s.buffer s.len src)
        rw [← List.map_take, List.take_range, Nat.min_eq_left (by omega), List.take_append,
          List.length_map, List.length_range, Nat.add_sub_cancel_left,
          List.take_of_length_le (by simp)] at hrange
        exact hrange
    case stays => exact fun hover => absurd hfit (by omega)
  · constructor
    case size_eq => rfl
    case frame => exact fun i _ => rfl
    case appended => exact fun _ => .inr rfl
    case stays =>
      intro hover
      rw [← hover]

/-- A copy returns 0 iff it fits. -/
lemma put_ret (s : SeqBuf) (src : List Byte) {k : ℕ} (hk : k ≤ src.length) :
    ((put s src k).1 = 0 ↔ (put s src k).2.len ≤ s.size) ∧
      ((put s src k).1 = 0 ∨ (put s src k).1 = -1) := by
  unfold put
  split_ifs with hfit
  · refine ⟨?_, .inl rfl⟩
    dsimp only
    omega
  · refine ⟨?_, .inr rfl⟩
    dsimp only
    omega

lemma put_fits (s : SeqBuf) (src : List Byte) {k : ℕ} (hk : k ≤ src.length) :
    (put s src k).2.len ≤ s.size ↔ s.len + src.length ≤ s.size := by
  unfold put
  split_ifs with hfit
  · dsimp only
    omega
  · dsimp only
    omega

lemma Grows.of_overflow {s s' : SeqBuf} {piece : List Byte} (h : Grows s s' piece)
    (hover : s'.len = s.size + 1) (piece' : List Byte) : Grows s s' piece' :=
  ⟨h.size_eq, h.frame, fun _ => .inr hover, h.stays⟩

/-! ## Hexadecimal text -/

/-- The text of a chunk: its digits and a blank. -/
def chunkText (bigEndian : Bool) (data : List Byte) : List Byte := hexDigits bigEndian data ++ [0x20]

/-- The texts of the chunks of eight bytes, the last of which may be shorter. -/
def hexText (bigEndian : Bool) (data : List Byte) : List Byte :=
  if data.length = 0 then []
  else chunkText bigEndian (data.take 8) ++ hexText bigEndian (data.drop 8)
termination_by data.length
decreasing_by
  rw [List.length_drop]
  omega

lemma length_hexDigits (bigEndian : Bool) (data : List Byte) :
    (hexDigits bigEndian data).length = 2 * data.length := by
  have hpairs (l : List Byte) : (l.flatMap fun b => [hexAscHi b, hexAscLo b]).length = 2 * l.length := by
    induction l with
    | nil => rfl
    | cons b l ih =>
      rw [List.flatMap_cons, List.length_append, ih, List.length_cons, List.length_cons]
      simp
      omega
  unfold hexDigits
  split_ifs
  · exact hpairs data
  · rw [hpairs, List.length_reverse]

/-- The check of the digits never fires. -/
lemma hexDigits_check (bigEndian : Bool) (data : List Byte) {n : ℕ} (hne : data.length ≠ 0)
    (hn : data.length ≤ n) :
    ¬ ((hexDigits bigEndian data).length = 0 ∨ (hexDigits bigEndian data).length / 2 > n) := by
  have hlen := length_hexDigits bigEndian data
  omega

/-- One iteration of the loop. -/
lemma hexLoop_step (bigEndian : Bool) (s : SeqBuf) {data : List Byte} (hne : data.length ≠ 0) :
    hexLoop bigEndian s data =
      let s' := (seqBufPutmem s (chunkText bigEndian (data.take 8))).2
      if seqBufHasOverflowed s' then (-1, s') else hexLoop bigEndian s' (data.drop 8) := by
  have htake : data.take (min data.length maxMemhexBytes) = data.take 8 := by
    rw [maxMemhexBytes, Nat.min_comm, ← List.take_eq_take_min]
  have hdrop : data.drop (min data.length maxMemhexBytes) = data.drop 8 := by
    rw [maxMemhexBytes, Nat.min_comm, ← List.drop_eq_drop_min]
  have hlength := List.length_take (i := 8) (l := data)
  have hcheck := hexDigits_check bigEndian (data.take 8) (n := data.length) (by omega) (by omega)
  rw [hexLoop, if_neg hne]
  simp only [htake, hdrop]
  rw [if_neg hcheck]
  rfl

/-- The branch for at most eight bytes is one iteration of the loop. -/
lemma seqBufPutmemHex_eq_hexLoop (bigEndian : Bool) (s : SeqBuf) (mem : List Byte) :
    seqBufPutmemHex bigEndian s mem = hexLoop bigEndian s mem := by
  unfold seqBufPutmemHex
  by_cases hshort : mem.length ≤ maxMemhexBytes
  · rw [if_pos hshort]
    rw [maxMemhexBytes] at hshort
    by_cases hempty : mem.length = 0
    · rw [if_pos hempty, hexLoop, if_pos hempty]
    · have hrest : ∀ s, hexLoop bigEndian s (mem.drop 8) = (0, s) := by
        intro s
        rw [hexLoop, if_pos]
        rw [List.length_drop]
        omega
      rw [if_neg hempty, hexLoop_step bigEndian s hempty, List.take_of_length_le hshort]
      simp only [hrest, chunkText]
      rw [if_neg (hexDigits_check bigEndian mem hempty le_rfl)]
      split_ifs with hover
      · rfl
      · rfl
  · rw [if_neg hshort]

lemma chunk_eq_put {s : SeqBuf} (h : WF s) (bigEndian : Bool) (data : List Byte)
    (hle : data.length ≤ 8) : seqBufPutmem s (chunkText bigEndian data) =
      put s (chunkText bigEndian data) (chunkText bigEndian data).length := by
  refine seqBufPutmem_eq h ?_
  rw [chunkText, List.length_append, length_hexDigits, List.length_singleton]
  omega

lemma chunk_grows {s : SeqBuf} (h : WF s) (bigEndian : Bool) (data : List Byte)
    (hle : data.length ≤ 8) :
    Grows s (seqBufPutmem s (chunkText bigEndian data)).2 (chunkText bigEndian data) := by
  have hgrows := put_grows s (chunkText bigEndian data) le_rfl
  rwa [List.take_length, ← chunk_eq_put h bigEndian data hle] at hgrows

lemma hexLoop_grows {s : SeqBuf} (h : WF s) (bigEndian : Bool) (data : List Byte) :
    Grows s (hexLoop bigEndian s data).2 (hexText bigEndian data) := by
  -- along the loop of the code, the text one chunk shorter each time
  induction hn : data.length using Nat.strong_induction_on generalizing s data with
  | _ n ih =>
    rw [hexText]
    by_cases hempty : data.length = 0
    · rw [hexLoop, if_pos hempty, if_pos hempty]
      exact .refl s
    · have hlength := List.length_take (i := 8) (l := data)
      have hchunk := chunk_grows h bigEndian (data.take 8) (by omega)
      rw [hexLoop_step bigEndian s hempty, if_neg hempty]
      dsimp only
      split_ifs with hover
      · have hlen : (seqBufPutmem s (chunkText bigEndian (data.take 8))).2.len = s.size + 1 := by
          have hle := (hchunk.wf h).len_le
          rw [hchunk.size_eq] at hle
          rw [seqBufHasOverflowed, decide_eq_true_eq, hchunk.size_eq] at hover
          omega
        exact hchunk.of_overflow hlen _
      · refine hchunk.trans (ih (data.drop 8).length ?_ (hchunk.wf h) _ rfl)
        rw [List.length_drop]
        omega

/-- The text of all chunks is appended iff it fits. -/
lemma hexLoop_fits {s : SeqBuf} (h : WF s) (bigEndian : Bool) (data : List Byte) :
    (hexLoop bigEndian s data).2.len ≤ s.size ↔
      s.len + (hexText bigEndian data).length ≤ s.size := by
  induction hn : data.length using Nat.strong_induction_on generalizing s data with
  | _ n ih =>
    rw [hexText]
    by_cases hempty : data.length = 0
    · rw [hexLoop, if_pos hempty, if_pos hempty, List.length_nil, Nat.add_zero]
    · have hlength := List.length_take (i := 8) (l := data)
      have hchunk := chunk_grows h bigEndian (data.take 8) (by omega)
      have hput := chunk_eq_put h bigEndian (data.take 8) (by omega)
      have hfits := put_fits s (chunkText bigEndian (data.take 8)) le_rfl
      rw [← hput] at hfits
      rw [hexLoop_step bigEndian s hempty, if_neg hempty, List.length_append]
      dsimp only
      split_ifs with hover
      · rw [seqBufHasOverflowed, decide_eq_true_eq, hchunk.size_eq] at hover
        dsimp only
        omega
      · rw [seqBufHasOverflowed, decide_eq_true_eq, hchunk.size_eq, not_lt, hfits] at hover
        have hlen : (seqBufPutmem s (chunkText bigEndian (data.take 8))).2.len =
            s.len + (chunkText bigEndian (data.take 8)).length := by
          rw [hput, put, if_pos hover]
        have hrest := ih (data.drop 8).length (by rw [List.length_drop]; omega) (hchunk.wf h) _ rfl
        rw [hchunk.size_eq, hlen, Nat.add_assoc] at hrest
        exact hrest

/-! ## Sequences of calls -/

/-- Strings are shorter than 2 ^ 32 bytes, and so is what an `unsigned int` counts. -/
def Op.Short : Op → Prop
  | .puts str => str.bytes.length < 2 ^ 32
  | .putc _ => True
  | .putmem mem | .putmemHex mem => mem.length < 2 ^ 32

/-- The piece that a call appends. -/
def Op.piece (bigEndian : Bool) : Op → List Byte
  | .puts str => str.bytes
  | .putc c => [c]
  | .putmem mem => mem
  | .putmemHex mem => hexText bigEndian mem

/-- The bytes of the buffer that a call needs behind `len`: `seq_buf_puts` copies the NUL too. -/
def Op.room (bigEndian : Bool) : Op → ℕ
  | .puts str => str.bytes.length + 1
  | op => (op.piece bigEndian).length

/-- All calls but `seq_buf_putmem_hex` are one copy. -/
lemma exec_put {s : SeqBuf} (h : WF s) (bigEndian : Bool) {op : Op} (hop : op.Short)
    (hsingle : ∀ mem, op ≠ .putmemHex mem) :
    ∃ src k, exec bigEndian s op = put s src k ∧ k ≤ src.length ∧
      src.take k = op.piece bigEndian ∧ src.length = op.room bigEndian := by
  cases op with
  | puts str =>
    refine ⟨str.bytes ++ [0], str.bytes.length, seqBufPuts_eq h hop, ?_, List.take_left, ?_⟩
    · rw [List.length_append]
      omega
    · rw [List.length_append, List.length_singleton, Op.room]
  | putc c => exact ⟨[c], 1, seqBufPutc_eq h c, le_rfl, rfl, rfl⟩
  | putmem mem => exact ⟨mem, mem.length, seqBufPutmem_eq h hop, le_rfl, List.take_length, rfl⟩
  | putmemHex mem => exact absurd rfl (hsingle mem)

lemma exec_grows {s : SeqBuf} (h : WF s) (bigEndian : Bool) {op : Op} (hop : op.Short) :
    Grows s (exec bigEndian s op).2 (op.piece bigEndian) := by
  by_cases hsingle : ∀ mem, op ≠ .putmemHex mem
  · obtain ⟨src, k, heq, hk, hpiece, -⟩ := exec_put h bigEndian hop hsingle
    rw [heq, ← hpiece]
    exact put_grows s src hk
  · push Not at hsingle
    obtain ⟨mem, rfl⟩ := hsingle
    rw [exec, seqBufPutmemHex_eq_hexLoop]
    exact hexLoop_grows h bigEndian mem

/-- A call overflows only where its piece does not fit. -/
lemma exec_fits {s : SeqBuf} (h : WF s) (bigEndian : Bool) {op : Op} (hop : op.Short) :
    (exec bigEndian s op).2.len ≤ s.size ↔ s.len + op.room bigEndian ≤ s.size := by
  by_cases hsingle : ∀ mem, op ≠ .putmemHex mem
  · obtain ⟨src, k, heq, hk, -, hroom⟩ := exec_put h bigEndian hop hsingle
    rw [heq, ← hroom]
    exact put_fits s src hk
  · push Not at hsingle
    obtain ⟨mem, rfl⟩ := hsingle
    rw [exec, seqBufPutmemHex_eq_hexLoop]
    exact hexLoop_fits h bigEndian mem

lemma execAll_grows {s : SeqBuf} (h : WF s) (bigEndian : Bool) {ops : List Op}
    (hops : ∀ op ∈ ops, op.Short) :
    Grows s (execAll bigEndian s ops) (ops.flatMap (Op.piece bigEndian)) := by
  induction ops generalizing s with
  | nil => exact .refl s
  | cons op ops ih =>
    have hstep := exec_grows h bigEndian (hops op List.mem_cons_self)
    have hrest := ih (hstep.wf h) fun op' hop' => hops op' (List.mem_cons_of_mem _ hop')
    exact hstep.trans hrest

/-- What holds of a buffer of `size` bytes after the calls `ops`, and of the next call on it. -/
structure Sound (bigEndian : Bool) (buffer : ℕ → Byte) (size : ℕ) (ops : List Op) (s : SeqBuf) :
    Prop where
  size_eq : s.size = size
  /-- The bytes before `len` are those of all pieces, or the buffer has overflowed. -/
  content : s.len ≤ size ∧ s.text = ops.flatMap (Op.piece bigEndian) ∨ s.len = size + 1
  inside : ∀ i, size ≤ i → s.buffer i = buffer i
  fits : ∀ op, op.Short →
    ((exec bigEndian s op).2.len ≤ size ↔ s.len + op.room bigEndian ≤ size)
  overflowed : s.len = size + 1 → ∀ op, op.Short → (exec bigEndian s op).2 = s
  returns : ∀ op, op.Short → (∀ mem, op ≠ .putmemHex mem) →
    ((exec bigEndian s op).1 = 0 ∨ (exec bigEndian s op).1 = -1) ∧
    ((exec bigEndian s op).1 = 0 ↔ s.len ≤ size ∧ (exec bigEndian s op).2.len ≤ size ∧
      (exec bigEndian s op).2.text = s.text ++ op.piece bigEndian)

/-- Every sequence of calls on an empty buffer is sound. -/
theorem run_appends (bigEndian : Bool) (buffer : ℕ → Byte) {size : ℕ} (hsize : size < 2 ^ 64 - 2 ^ 33)
    {ops : List Op} (hops : ∀ op ∈ ops, op.Short) :
    Sound bigEndian buffer size ops
      (execAll bigEndian { buffer := buffer, size := size, len := 0 } ops) := by
  have hinit : WF { buffer := buffer, size := size, len := 0 } := ⟨hsize, Nat.zero_le _⟩
  have hgrows := execAll_grows hinit bigEndian hops
  generalize execAll bigEndian { buffer := buffer, size := size, len := 0 } ops = s at hgrows
  have hwf := hgrows.wf hinit
  have hsame : s.size = size := hgrows.size_eq
  constructor
  case size_eq => exact hsame
  case content => exact hgrows.appended (Nat.zero_le _)
  case inside => exact hgrows.frame
  case fits =>
    intro op hop
    rw [← hsame]
    exact exec_fits hwf bigEndian hop
  case overflowed =>
    intro hover op hop
    exact (exec_grows hwf bigEndian hop).stays (by rw [hover, hsame])
  case returns =>
    intro op hop hsingle
    obtain ⟨src, k, heq, hk, hpiece, -⟩ := exec_put hwf bigEndian hop hsingle
    obtain ⟨hret, hvalue⟩ := put_ret s src hk
    have hstep := put_grows s src hk
    rw [hpiece] at hstep
    rw [heq]
    refine ⟨hvalue, ?_⟩
    rw [hret, hsame]
    refine ⟨?_, fun h => h.2.1⟩
    intro hle
    have hlen : s.len ≤ size := by
      by_contra hover
      have hbound := hwf.len_le
      rw [hstep.stays (by omega)] at hle
      omega
    cases hstep.appended (by omega) with
    | inl hfit => exact ⟨hlen, hle, hfit.2⟩
    | inr hover => omega

/-- The string `ok` of the harness. -/
def okString : CString := ⟨[0x6f, 0x6b], by decide⟩

/-- Calls of the harness on its buffer of 32 bytes, which leave `ok-0201 ` there. -/
theorem run_appends_harness :
    ∃ s, s = execAll false { buffer := fun _ => 0, size := 32, len := 0 }
        [.puts okString, .putc 0x2d, .putmemHex [1, 2]] ∧
      s.text = [0x6f, 0x6b, 0x2d, 0x30, 0x32, 0x30, 0x31, 0x20] ∧
      Sound false (fun _ => 0) 32 [.puts okString, .putc 0x2d, .putmemHex [1, 2]] s := by
  have hops : ∀ op ∈ [Op.puts okString, .putc 0x2d, .putmemHex [1, 2]], op.Short := by
    simp [Op.Short, okString]
  exact ⟨_, rfl, by decide, run_appends false (fun _ => 0) (by norm_num) hops⟩

end SeqBuf

end BpfVerify
