import BpfVerify.Bits
import BpfVerify.Word

/-!
# Prefix matching of the LPM trie

`fls` and `fls64`, the byte-order helpers, `extract_bit` and `longest_prefix_match` of
`shims/kernel/bpf/lpm_trie.c`. A read outside the data bytes is `none`.
-/
namespace BpfVerify.LpmTrie
open Bits Word

abbrev Byte := BitVec 8

/-! ## Bit scan and byte order -/

/-- One halving of `fls`: with no bit of `mask` set, the word moves up by `k`. -/
def flsStep (mask : BitVec 32) (k : ℕ) (v : BitVec 32 × ℕ) : BitVec 32 × ℕ :=
  if v.1 &&& mask = 0 then (v.1 <<< k, v.2 - k) else v

def fls (x : BitVec 32) : ℕ :=
  if x = 0 then 0
  else
    let v := (x, 32)
    let v := flsStep 0xffff0000 16 v
    let v := flsStep 0xff000000 8 v
    let v := flsStep 0xf0000000 4 v
    let v := flsStep 0xc0000000 2 v
    if v.1 &&& 0x80000000 = 0 then v.2 - 1 else v.2

def fls64 (x : BitVec 64) : ℕ :=
  let hi := (x >>> 32).setWidth 32
  if hi ≠ 0 then fls hi + 32 else fls (x.setWidth 32)

def be32ToCpu (x : BitVec 32) : BitVec 32 :=
  ((x &&& 0xff000000) >>> 24) ||| ((x &&& 0x00ff0000) >>> 8) |||
    ((x &&& 0x0000ff00) <<< 8) ||| ((x &&& 0x000000ff) <<< 24)

def be16ToCpu (x : BitVec 16) : BitVec 16 := (x >>> 8) ||| (x <<< 8)

/-- A little-endian load of `*(__be32 *)&data[i]`. -/
def load32 (data : List Byte) (i : ℕ) : Option (BitVec 32) := do
  let b₀ ← data[i]?
  let b₁ ← data[i + 1]?
  let b₂ ← data[i + 2]?
  let b₃ ← data[i + 3]?
  return b₀.setWidth 32 ||| b₁.setWidth 32 <<< 8 ||| b₂.setWidth 32 <<< 16 ||| b₃.setWidth 32 <<< 24

def load16 (data : List Byte) (i : ℕ) : Option (BitVec 16) := do
  let b₀ ← data[i]?
  let b₁ ← data[i + 1]?
  return b₀.setWidth 16 ||| b₁.setWidth 16 <<< 8

/-! ## Matching -/

def extractBit (data : List Byte) (index : ℕ) : Option Bool := do
  let b ← data[index / 8]?
  return b.toNat &&& (1 <<< (7 - index % 8)) ≠ 0

/-- The `while` loop of `longest_prefix_match`: a returned length, or `prefixlen` and `i` after
the last whole word. -/
def matchWords (dataSize limit : ℕ) (node key : List Byte) :
    ℕ → ℕ → ℕ → Option (ℕ ⊕ ℕ × ℕ)
  | 0, _, _ => none
  | fuel + 1, prefixlen, i =>
      if dataSize ≥ u32 (i + 4) then do
        let n ← load32 node i
        let k ← load32 key i
        let diff := be32ToCpu (n ^^^ k)
        let prefixlen := u32 (prefixlen + (32 - fls diff))
        if prefixlen ≥ limit then return .inl limit
        else if diff ≠ 0 then return .inl prefixlen
        else matchWords dataSize limit node key fuel prefixlen (u32 (i + 4))
      else return .inr (prefixlen, i)

/-- The `u16` step of `longest_prefix_match`. -/
def matchHalf (dataSize limit : ℕ) (node key : List Byte) (prefixlen i : ℕ) :
    Option (ℕ ⊕ ℕ × ℕ) :=
  if dataSize ≥ u32 (i + 2) then do
    let n ← load16 node i
    let k ← load16 key i
    let diff := be16ToCpu (n ^^^ k)
    let prefixlen := u32 (prefixlen + (16 - fls (diff.setWidth 32)))
    if prefixlen ≥ limit then return .inl limit
    else if diff ≠ 0 then return .inl prefixlen
    else return .inr (prefixlen, u32 (i + 2))
  else return .inr (prefixlen, i)

/-- The `u8` step of `longest_prefix_match`. -/
def matchByte (dataSize limit : ℕ) (node key : List Byte) (prefixlen i : ℕ) : Option ℕ :=
  if dataSize ≥ u32 (i + 1) then do
    let n ← node[i]?
    let k ← key[i]?
    let prefixlen := u32 (prefixlen + (8 - fls ((n ^^^ k).setWidth 32)))
    if prefixlen ≥ limit then return limit else return prefixlen
  else return prefixlen

/-- `longest_prefix_match`; every turn of the loop takes four of the `dataSize` bytes. -/
def longestPrefixMatch (dataSize nodePrefixlen keyPrefixlen : ℕ) (node key : List Byte) :
    Option ℕ := do
  let limit := min nodePrefixlen keyPrefixlen
  match ← matchWords dataSize limit node key (dataSize + 1) 0 0 with
  | .inl len => return len
  | .inr (prefixlen, i) =>
    match ← matchHalf dataSize limit node key prefixlen i with
    | .inl len => return len
    | .inr (prefixlen, i) => matchByte dataSize limit node key prefixlen i

/-! ## What they compute -/

/-- The data bytes as one bit string. -/
def dataBits (data : List Byte) : List Bool := data.flatMap msbBits

lemma length_dataBits (data : List Byte) : (dataBits data).length = 8 * data.length := by
  induction data with
  | nil => rfl
  | cons b data ih =>
    rw [dataBits, List.flatMap_cons, List.length_append, length_msbBits, List.length_cons]
    rw [dataBits] at ih
    omega

lemma extractBit_eq (data : List Byte) (index : ℕ) :
    extractBit data index = (dataBits data)[index]? := by
  induction data generalizing index with
  | nil => simp [extractBit, dataBits]
  | cons b data ih =>
    rw [dataBits, List.flatMap_cons, List.getElem?_append, length_msbBits]
    by_cases hi : index < 8
    · have hdiv : index / 8 = 0 := by omega
      have hmod : index % 8 = index := by omega
      have hbit : decide (b.toNat &&& 1 <<< (7 - index) = 0) = !b.getLsbD (7 - index) := by
        rw [Nat.one_shiftLeft, Nat.and_two_pow, BitVec.testBit_toNat]
        cases b.getLsbD (7 - index) <;> simp
      rw [if_pos hi]
      simp [extractBit, hdiv, hmod, hbit, msbBits, hi, BitVec.getMsbD]
    · have hdiv : index / 8 = (index - 8) / 8 + 1 := by omega
      have hmod : index % 8 = (index - 8) % 8 := by omega
      rw [if_neg hi]
      rw [dataBits] at ih
      rw [← ih (index - 8), extractBit, extractBit, hdiv, hmod, List.getElem?_cons_succ]

/-- Masking the bits from `j` on tests whether the word is below `2 ^ j`. -/
lemma and_high_eq_zero_iff (x : BitVec 32) {j : ℕ} (hj : j < 32) :
    x &&& (BitVec.allOnes 32 <<< j) = 0 ↔ x.toNat < 2 ^ j := by
  constructor
  · intro h
    apply Nat.lt_pow_two_of_testBit
    intro i hi
    rw [BitVec.testBit_toNat]
    by_cases hlt : i < 32
    · have hb := congrArg (fun y : BitVec 32 => y.getLsbD i) h
      simp only [BitVec.getLsbD_and, BitVec.getLsbD_shiftLeft, BitVec.getLsbD_allOnes, hlt,
        Nat.not_lt.mpr hi, show i - j < 32 by omega] at hb
      simpa using hb
    · exact BitVec.getLsbD_of_ge x i (by omega)
  · intro h
    apply BitVec.eq_of_getLsbD_eq
    intro i hi
    by_cases hlt : i < j
    · simp [hlt]
    · have hx : x.getLsbD i = false := by
        rw [← BitVec.testBit_toNat]
        exact Nat.testBit_lt_two_pow (lt_of_lt_of_le h (Nat.pow_le_pow_right (by norm_num)
          (Nat.not_lt.mp hlt)))
      simp [hx]

/-- The state of `fls` on its way: the word still to scan, moved up, and its bit count. -/
def FlsAt (x : BitVec 32) (j : ℕ) (v : BitVec 32 × ℕ) : Prop :=
  2 ^ j ≤ v.1.toNat ∧ Nat.size v.1.toNat + v.2 = Nat.size x.toNat + 32

lemma FlsAt.step {x : BitVec 32} {j : ℕ} {v : BitVec 32 × ℕ} (h : FlsAt x j v) (k : ℕ)
    (mask : BitVec 32) (hk : 0 < k) (hjk : j + 2 * k = 32)
    (hmask : mask = BitVec.allOnes 32 <<< (32 - k)) : FlsAt x (j + k) (flsStep mask k v) := by
  obtain ⟨hlow, hsize⟩ := h
  subst hmask
  by_cases hz : v.1.toNat < 2 ^ (32 - k)
  · have hpos : v.1.toNat ≠ 0 := by
      have := Nat.two_pow_pos j
      omega
    have hshift : (v.1 <<< k).toNat = v.1.toNat <<< k := by
      rw [BitVec.toNat_shiftLeft, Nat.shiftLeft_eq]
      apply Nat.mod_eq_of_lt
      calc v.1.toNat * 2 ^ k < 2 ^ (32 - k) * 2 ^ k :=
            Nat.mul_lt_mul_of_pos_right hz (Nat.two_pow_pos k)
        _ = 2 ^ 32 := by rw [← pow_add, Nat.sub_add_cancel (by omega)]
    have hle : Nat.size v.1.toNat ≤ 32 - k := Nat.size_le.mpr hz
    rw [flsStep, if_pos ((and_high_eq_zero_iff v.1 (by omega)).mpr hz), FlsAt, hshift,
      Nat.size_shiftLeft hpos, Nat.shiftLeft_eq, pow_add]
    exact ⟨Nat.mul_le_mul_right _ hlow, by omega⟩
  · have hne : ¬ v.1 &&& (BitVec.allOnes 32 <<< (32 - k)) = 0 := fun he =>
      hz ((and_high_eq_zero_iff v.1 (by omega)).mp he)
    rw [flsStep, if_neg hne]
    refine ⟨?_, hsize⟩
    rw [show j + k = 32 - k by omega]
    exact Nat.not_lt.mp hz

theorem fls_eq_size (x : BitVec 32) : fls x = Nat.size x.toNat := by
  by_cases hx : x = 0
  · simp [fls, hx]
  · have hpos : x.toNat ≠ 0 := fun h => hx (BitVec.eq_of_toNat_eq (by simpa using h))
    have h₀ : FlsAt x 0 (x, 32) := ⟨by simpa [Nat.one_le_iff_ne_zero] using hpos, rfl⟩
    have h₁ := h₀.step 16 0xffff0000 (by omega) (by omega) (by decide)
    have h₂ := h₁.step 8 0xff000000 (by omega) (by omega) (by decide)
    have h₃ := h₂.step 4 0xf0000000 (by omega) (by omega) (by decide)
    have h₄ := h₃.step 2 0xc0000000 (by omega) (by omega) (by decide)
    have hmask : (0x80000000 : BitVec 32) = BitVec.allOnes 32 <<< 31 := by decide
    simp only [fls, if_neg hx, hmask]
    generalize flsStep 0xc0000000 2 _ = v at h₄ ⊢
    obtain ⟨hlow, hsize⟩ := h₄
    by_cases hz : v.1.toNat < 2 ^ 31
    · have hs : Nat.size v.1.toNat = 31 :=
        le_antisymm (Nat.size_le.mpr hz) (Nat.lt_size.mpr hlow)
      rw [if_pos ((and_high_eq_zero_iff v.1 (by omega)).mpr hz)]
      omega
    · have hs : Nat.size v.1.toNat = 32 :=
        le_antisymm (Nat.size_le.mpr v.1.isLt) (Nat.lt_size.mpr (Nat.not_lt.mp hz))
      rw [if_neg fun he => hz ((and_high_eq_zero_iff v.1 (by omega)).mp he)]
      omega

lemma fls_ne_zero {x : BitVec 32} (hx : x ≠ 0) : fls x ≠ 0 := by
  rw [fls_eq_size, Ne, Nat.size_eq_zero]
  exact fun h => hx (BitVec.eq_of_toNat_eq h)

lemma be32ToCpu_xor (x y : BitVec 32) : be32ToCpu (x ^^^ y) = be32ToCpu x ^^^ be32ToCpu y := by
  apply BitVec.eq_of_getLsbD_eq
  intro i hi
  interval_cases i <;> simp [be32ToCpu]

lemma msbBits_be32ToCpu (b₀ b₁ b₂ b₃ : Byte) :
    msbBits (be32ToCpu (b₀.setWidth 32 ||| b₁.setWidth 32 <<< 8 ||| b₂.setWidth 32 <<< 16 |||
      b₃.setWidth 32 <<< 24)) = dataBits [b₀, b₁, b₂, b₃] := by
  simp [msbBits, dataBits, be32ToCpu, List.range_succ, BitVec.getMsbD]

/-- The word step of the matching counts the leading bits on which four bytes agree. -/
lemma load32_diff {node key : List Byte} (hn : node.length = 4) (hk : key.length = 4) :
    ∃ n k, load32 node 0 = some n ∧ load32 key 0 = some k ∧
      32 - fls (be32ToCpu (n ^^^ k)) = commonPrefix (dataBits node) (dataBits key) := by
  match node, key, hn, hk with
  | [b₀, b₁, b₂, b₃], [c₀, c₁, c₂, c₃], _, _ =>
    refine ⟨_, _, rfl, rfl, ?_⟩
    rw [be32ToCpu_xor, fls_eq_size, ← commonPrefix_msbBits, msbBits_be32ToCpu,
      msbBits_be32ToCpu]

lemma be16ToCpu_xor (x y : BitVec 16) : be16ToCpu (x ^^^ y) = be16ToCpu x ^^^ be16ToCpu y := by
  apply BitVec.eq_of_getLsbD_eq
  intro i hi
  interval_cases i <;> simp [be16ToCpu]

lemma msbBits_be16ToCpu (b₀ b₁ : Byte) :
    msbBits (be16ToCpu (b₀.setWidth 16 ||| b₁.setWidth 16 <<< 8)) = dataBits [b₀, b₁] := by
  simp [msbBits, dataBits, be16ToCpu, List.range_succ, BitVec.getMsbD]

/-- `fls` of a narrower word. -/
lemma sub_fls {w : ℕ} (hw : w ≤ 32) (x y : BitVec w) :
    w - fls ((x ^^^ y).setWidth 32) = commonPrefix (msbBits x) (msbBits y) := by
  have hlt : (x ^^^ y).toNat < 2 ^ 32 :=
    (x ^^^ y).isLt.trans_le (Nat.pow_le_pow_right (by norm_num) hw)
  rw [fls_eq_size, BitVec.toNat_setWidth, Nat.mod_eq_of_lt hlt, commonPrefix_msbBits]

/-- The same for the `u16` step and two bytes. -/
lemma load16_diff {node key : List Byte} (hn : node.length = 2) (hk : key.length = 2) :
    ∃ n k, load16 node 0 = some n ∧ load16 key 0 = some k ∧
      16 - fls ((be16ToCpu (n ^^^ k)).setWidth 32) =
        commonPrefix (dataBits node) (dataBits key) := by
  match node, key, hn, hk with
  | [b₀, b₁], [c₀, c₁], _, _ =>
    refine ⟨_, _, rfl, rfl, ?_⟩
    rw [be16ToCpu_xor, sub_fls (by norm_num), msbBits_be16ToCpu, msbBits_be16ToCpu]

/-! ## Every width -/

section Widths

variable {d limit i : ℕ} {node key : List Byte}

/-- The bits of the `k` bytes from `i` on. -/
def chunk (data : List Byte) (i k : ℕ) : List Byte := (data.drop i).take k

/-- What the bytes from `i` on still add to the match. -/
def matchFrom (node key : List Byte) (i : ℕ) : ℕ :=
  commonPrefix (dataBits (node.drop i)) (dataBits (key.drop i))

def chunkMatch (node key : List Byte) (i k : ℕ) : ℕ :=
  commonPrefix (dataBits (chunk node i k)) (dataBits (chunk key i k))

lemma length_chunk {data : List Byte} {k : ℕ} (h : i + k ≤ data.length) :
    (chunk data i k).length = k := by
  rw [chunk, List.length_take, List.length_drop]
  omega

lemma load32_chunk (data : List Byte) (i : ℕ) : load32 data i = load32 (chunk data i 4) 0 := by
  simp [load32, chunk, List.getElem?_drop]

lemma load16_chunk (data : List Byte) (i : ℕ) : load16 data i = load16 (chunk data i 2) 0 := by
  simp [load16, chunk, List.getElem?_drop]

lemma dataBits_chunk_one {data : List Byte} (h : i < data.length) :
    dataBits (chunk data i 1) = msbBits data[i] := by
  rw [chunk, List.drop_eq_getElem_cons h, List.take_succ_cons, List.take_zero, dataBits,
    List.flatMap_cons, List.flatMap_nil, List.append_nil]

/-- A chunk is matched in whole and the rest counts on, or the match ends in it. -/
lemma matchFrom_chunk {k : ℕ} (hn : i + k ≤ node.length) (hk : i + k ≤ key.length) :
    chunkMatch node key i k ≤ 8 * k ∧
      matchFrom node key i = if chunkMatch node key i k = 8 * k then 8 * k + matchFrom node key (i + k)
        else chunkMatch node key i k := by
  have hlen {data : List Byte} (h : i + k ≤ data.length) :
      (dataBits (chunk data i k)).length = 8 * k := by rw [length_dataBits, length_chunk h]
  have hsplit (data : List Byte) :
      dataBits (data.drop i) = dataBits (chunk data i k) ++ dataBits (data.drop (i + k)) := by
    rw [dataBits, dataBits, dataBits, ← List.flatMap_append, chunk, ← List.drop_drop,
      List.take_append_drop]
  constructor
  · rw [← hlen hn]
    exact commonPrefix_le_left _ _
  · rw [matchFrom, hsplit, hsplit, commonPrefix_append _ _ ((hlen hn).trans (hlen hk).symm), hlen hn]
    rfl

/-- The first `i` bytes are matched, without reaching the limit. -/
structure Reached (d limit : ℕ) (node key : List Byte) (prefixlen i : ℕ) : Prop where
  le : i ≤ d
  len : prefixlen = 8 * i
  within : prefixlen ≤ limit
  total : matchFrom node key 0 = 8 * i + matchFrom node key i

/-- A step returns the length of the match, or goes on with less than `k` bytes left. -/
def Matched (d limit : ℕ) (node key : List Byte) (k : ℕ) : ℕ ⊕ ℕ × ℕ → Prop
  | .inl len => len = min limit (matchFrom node key 0)
  | .inr (prefixlen, i) => Reached d limit node key prefixlen i ∧ d < i + k

/-- The three ways a chunk of `k` bytes ends. -/
lemma Reached.chunk {prefixlen k : ℕ} (h : Reached d limit node key prefixlen i)
    (hn : node.length = d) (hk : key.length = d) (hfit : i + k ≤ d) :
    (limit ≤ prefixlen + chunkMatch node key i k → limit = min limit (matchFrom node key 0)) ∧
    (prefixlen + chunkMatch node key i k < limit →
      (chunkMatch node key i k < 8 * k →
        prefixlen + chunkMatch node key i k = min limit (matchFrom node key 0)) ∧
      (chunkMatch node key i k = 8 * k →
        Reached d limit node key (prefixlen + chunkMatch node key i k) (i + k))) := by
  obtain ⟨hle, hmatch⟩ := matchFrom_chunk (show i + k ≤ node.length by omega)
    (show i + k ≤ key.length by omega)
  have hlen := h.len
  have htotal := h.total
  split_ifs at hmatch with hwhole
  · refine ⟨fun hlim => by omega, fun hlim => ⟨fun hpart => by omega, fun _ => ?_⟩⟩
    exact ⟨hfit, by omega, hlim.le, by omega⟩
  · refine ⟨fun hlim => by omega, fun hlim => ⟨fun _ => by omega, fun he => absurd he hwhole⟩⟩

lemma matchWords_spec (hd : d < 2 ^ 28) (hn : node.length = d) (hk : key.length = d) {fuel prefixlen : ℕ}
    (h : Reached d limit node key prefixlen i) (hfuel : d < i + 4 * fuel) :
    ∃ r, matchWords d limit node key fuel prefixlen i = some r ∧ Matched d limit node key 4 r := by
  induction fuel generalizing prefixlen i with
  | zero =>
    have hle := h.le
    omega
  | succ fuel ih =>
    have hle := h.le
    have hlen := h.len
    have hi : u32 (i + 4) = i + 4 := u32_of_lt (by omega)
    unfold matchWords
    rw [hi]
    by_cases hfit : i + 4 ≤ d
    · obtain ⟨n, k, hload, hload', hdiff⟩ := load32_diff
        (length_chunk (show i + 4 ≤ node.length by omega))
        (length_chunk (show i + 4 ≤ key.length by omega))
      rw [← load32_chunk] at hload hload'
      change _ = chunkMatch node key i 4 at hdiff
      obtain ⟨hlimit, hbelow⟩ := h.chunk hn hk hfit
      have hp : u32 (prefixlen + (32 - fls (be32ToCpu (n ^^^ k)))) =
          prefixlen + chunkMatch node key i 4 := by
        rw [hdiff, u32_of_lt]
        omega
      rw [if_pos hfit, hload, hload']
      simp only [Option.bind_eq_bind, Option.bind_some, hp, Option.pure_def]
      by_cases hlim : prefixlen + chunkMatch node key i 4 ≥ limit
      · rw [if_pos hlim]
        exact ⟨_, rfl, hlimit hlim⟩
      · obtain ⟨hpart, hwhole⟩ := hbelow (Nat.not_le.mp hlim)
        rw [if_neg hlim]
        by_cases hzero : be32ToCpu (n ^^^ k) = 0
        · rw [if_neg (not_not_intro hzero)]
          rw [hzero] at hdiff
          exact ih (hwhole hdiff.symm) (by omega)
        · have hpos := fls_ne_zero hzero
          rw [if_pos hzero]
          exact ⟨_, rfl, hpart (by omega)⟩
    · rw [if_neg hfit]
      exact ⟨_, rfl, h, by omega⟩

lemma matchHalf_spec (hd : d < 2 ^ 28) (hn : node.length = d) (hk : key.length = d) {prefixlen : ℕ}
    (h : Reached d limit node key prefixlen i) (hrest : d < i + 4) :
    ∃ r, matchHalf d limit node key prefixlen i = some r ∧ Matched d limit node key 2 r := by
  have hle := h.le
  have hlen := h.len
  have hi : u32 (i + 2) = i + 2 := u32_of_lt (by omega)
  unfold matchHalf
  rw [hi]
  by_cases hfit : i + 2 ≤ d
  · obtain ⟨n, k, hload, hload', hdiff⟩ := load16_diff
      (length_chunk (show i + 2 ≤ node.length by omega))
      (length_chunk (show i + 2 ≤ key.length by omega))
    rw [← load16_chunk] at hload hload'
    change _ = chunkMatch node key i 2 at hdiff
    obtain ⟨hlimit, hbelow⟩ := h.chunk hn hk hfit
    have hp : u32 (prefixlen + (16 - fls ((be16ToCpu (n ^^^ k)).setWidth 32))) =
        prefixlen + chunkMatch node key i 2 := by
      rw [hdiff, u32_of_lt]
      omega
    rw [if_pos hfit, hload, hload']
    simp only [Option.bind_eq_bind, Option.bind_some, hp, Option.pure_def]
    by_cases hlim : prefixlen + chunkMatch node key i 2 ≥ limit
    · rw [if_pos hlim]
      exact ⟨_, rfl, hlimit hlim⟩
    · obtain ⟨hpart, hwhole⟩ := hbelow (Nat.not_le.mp hlim)
      rw [if_neg hlim]
      by_cases hzero : be16ToCpu (n ^^^ k) = 0
      · rw [if_neg (not_not_intro hzero)]
        rw [hzero] at hdiff
        exact ⟨_, rfl, hwhole hdiff.symm, by omega⟩
      · have hwide : (be16ToCpu (n ^^^ k)).setWidth 32 ≠ 0 := by
          intro h0
          have hnat := congrArg BitVec.toNat h0
          rw [BitVec.toNat_setWidth_of_le (by norm_num)] at hnat
          exact hzero (BitVec.eq_of_toNat_eq hnat)
        have hpos := fls_ne_zero hwide
        rw [if_pos hzero]
        exact ⟨_, rfl, hpart (by omega)⟩
  · rw [if_neg hfit]
    exact ⟨_, rfl, h, by omega⟩

lemma matchFrom_end (hn : node.length = d) : matchFrom node key d = 0 := by
  rw [matchFrom, List.drop_of_length_le hn.le]
  rfl

lemma matchByte_spec (hd : d < 2 ^ 28) (hn : node.length = d) (hk : key.length = d) {prefixlen : ℕ}
    (h : Reached d limit node key prefixlen i) (hrest : d < i + 2) :
    matchByte d limit node key prefixlen i = some (min limit (matchFrom node key 0)) := by
  have hle := h.le
  have hlen := h.len
  have hi : u32 (i + 1) = i + 1 := u32_of_lt (by omega)
  unfold matchByte
  rw [hi]
  by_cases hfit : i + 1 ≤ d
  · have hni : i < node.length := by omega
    have hki : i < key.length := by omega
    have hchunk : 8 - fls ((node[i] ^^^ key[i]).setWidth 32) = chunkMatch node key i 1 := by
      rw [sub_fls (by norm_num), chunkMatch, dataBits_chunk_one hni, dataBits_chunk_one hki]
    obtain ⟨hlimit, hbelow⟩ := h.chunk hn hk hfit
    have hp : u32 (prefixlen + (8 - fls ((node[i] ^^^ key[i]).setWidth 32))) =
        prefixlen + chunkMatch node key i 1 := by
      rw [hchunk, u32_of_lt]
      omega
    rw [if_pos hfit, List.getElem?_eq_getElem hni, List.getElem?_eq_getElem hki]
    simp only [Option.bind_eq_bind, Option.bind_some, hp, Option.pure_def]
    by_cases hlim : prefixlen + chunkMatch node key i 1 ≥ limit
    · rw [if_pos hlim, ← hlimit hlim]
    · obtain ⟨hpart, hwhole⟩ := hbelow (Nat.not_le.mp hlim)
      rw [if_neg hlim]
      by_cases hall : chunkMatch node key i 1 = 8 * 1
      · -- the last byte is matched in whole, so nothing is left
        have hend := (hwhole hall).total
        have hdone : i + 1 = d := by omega
        rw [hdone, matchFrom_end hn] at hend
        congr 1
        omega
      · rw [← hpart (by omega)]
  · have hdone : i = d := by omega
    have hend := h.total
    have hwithin := h.within
    rw [hdone, matchFrom_end hn] at hend
    rw [if_neg hfit, Option.pure_def]
    congr 1
    omega

lemma longestPrefixMatch_eq (hd : d < 2 ^ 28) (hn : node.length = d) (hk : key.length = d)
    (np kp : ℕ) :
    longestPrefixMatch d np kp node key =
      some (min np (min kp (commonPrefix (dataBits node) (dataBits key)))) := by
  have hstart : Reached d (min np kp) node key 0 0 := ⟨Nat.zero_le d, rfl, Nat.zero_le _, by simp⟩
  have hall : matchFrom node key 0 = commonPrefix (dataBits node) (dataBits key) := rfl
  rw [← min_assoc, ← hall]
  unfold longestPrefixMatch
  obtain ⟨r, hwords, hr⟩ := matchWords_spec hd hn hk hstart (show d < 0 + 4 * (d + 1) by omega)
  simp only [hwords, Option.bind_eq_bind, Option.bind_some]
  cases r with
  | inl len =>
    rw [Option.pure_def]
    exact congrArg some hr
  | inr v =>
    obtain ⟨hreached, hrest⟩ := hr
    obtain ⟨r', hhalf, hr'⟩ := matchHalf_spec hd hn hk hreached hrest
    simp only [hhalf, Option.bind_some]
    cases r' with
    | inl len =>
      rw [Option.pure_def]
      exact congrArg some hr'
    | inr v' =>
      obtain ⟨hreached', hrest'⟩ := hr'
      exact matchByte_spec hd hn hk hreached' hrest'

end Widths

/-- `longest_prefix_match` is exact for every number of data bytes, and reads none but these. -/
theorem longestPrefixMatch_exact {dataSize : ℕ} (_ : 1 ≤ dataSize) (hsize : dataSize < 2 ^ 28)
    (node key : Vector Byte dataSize) (nodePrefixlen keyPrefixlen : BitVec 32) :
    longestPrefixMatch dataSize nodePrefixlen.toNat keyPrefixlen.toNat node.toList key.toList =
      some (min nodePrefixlen.toNat (min keyPrefixlen.toNat
        (commonPrefix (dataBits node.toList) (dataBits key.toList)))) :=
  longestPrefixMatch_eq hsize node.length_toList key.length_toList _ _

/-- Seven bytes take a word, a halfword and a byte. -/
theorem longestPrefixMatch_seven :
    longestPrefixMatch 7 56 55 [10, 0, 0, 1, 2, 3, 5] [10, 0, 0, 1, 2, 3, 4] =
      some (min 56 (min 55 (commonPrefix (dataBits [10, 0, 0, 1, 2, 3, 5])
        (dataBits [10, 0, 0, 1, 2, 3, 4])))) :=
  longestPrefixMatch_exact (by decide) (by decide) #v[10, 0, 0, 1, 2, 3, 5] #v[10, 0, 0, 1, 2, 3, 4]
    56 55

end BpfVerify.LpmTrie
