import BpfVerify.Unescape

/-!
# Hexadecimal text of bytes and back

`bin2hex` and `hex2bin` of `lib/hexdump.c`. The text and the bytes are two separate buffers, one of
which is read while the other one is written.
-/
namespace BpfVerify.HexDump
open TracedMemory Unescape

def einval : ℤ := 22

def hexAsc (digit : Byte) : Byte := ch ("0123456789abcdef".toList.getD digit.toNat '0')

/-- The new position behind the two digits. -/
def hexBytePack (m : Memory Byte) (buf : ℕ) (byte : Byte) : ℕ × Memory Byte :=
  let m := m.store buf (hexAsc ((byte >>> 4) &&& 0xf))
  let m := m.store (buf + 1) (hexAsc (byte &&& 0xf))
  (buf + 2, m)

/-- What a conversion returns, with the buffer written and the buffer read. -/
structure Converted (α : Type) where
  ret : α
  out : Memory Byte
  inp : Memory Byte

def bin2hex : ℕ → Memory Byte → ℕ → Memory Byte → ℕ → Converted ℕ
  | 0, out, dst, inp, _ => ⟨dst, out, inp⟩
  | count + 1, out, dst, inp, src =>
    let (byte, inp) := inp.load src
    let (dst, out) := hexBytePack out dst byte
    bin2hex count out dst inp (src + 1)

def hex2bin : ℕ → Memory Byte → ℕ → Memory Byte → ℕ → Converted ℤ
  | 0, out, _, inp, _ => ⟨0, out, inp⟩
  | count + 1, out, dst, inp, src =>
    let (c, inp) := inp.load src
    let hi := hexToBin c
    if hi < 0 then ⟨-einval, out, inp⟩
    else
      let (c, inp) := inp.load (src + 1)
      let lo := hexToBin c
      if lo < 0 then ⟨-einval, out, inp⟩
      else
        let byte := (BitVec.ofInt 32 hi <<< 4 ||| BitVec.ofInt 32 lo).setWidth 8
        hex2bin count (out.store dst byte) (dst + 1) inp (src + 2)

/-! ## The text of bytes -/

def isHex (c : Byte) : Prop := c ∈ "0123456789abcdefABCDEF".toList.map ch

instance (c : Byte) : Decidable (isHex c) := inferInstanceAs (Decidable (_ ∈ _))

def lower (c : Byte) : Byte := if ch 'A' ≤ c ∧ c ≤ ch 'Z' then c + 0x20 else c

/-- Two digits for each byte. -/
def hexText (bytes : List Byte) : List Byte :=
  bytes.flatMap fun byte : Byte => [hexAsc (byte >>> 4), hexAsc (byte &&& 0xf)]

/-- One byte for every two digits. -/
def hexBytes : List Byte → List Byte
  | c :: d :: text =>
    BitVec.ofNat 8 (16 * (hexValue c).getD 0 + (hexValue d).getD 0) :: hexBytes text
  | _ => []

/-- The digits of every byte, both ways. -/
lemma digits_byte : ∀ c : Byte, (isHex c ↔ (hexValue c).isSome = true) ∧ isHex (hexAsc c) ∧
    (isHex c → hexAsc (BitVec.ofNat 8 ((hexValue c).getD 0)) = lower c) ∧
    BitVec.ofNat 8 (16 * (hexValue (hexAsc (c >>> 4))).getD 0 +
      (hexValue (hexAsc (c &&& 0xf))).getD 0) = c ∧
    c >>> 4 &&& (0xf : Byte) = c >>> 4 := by
  decide +kernel

lemma isHex_iff (c : Byte) : isHex c ↔ (hexValue c).isSome = true := (digits_byte c).1

lemma isHex_hexAsc (d : Byte) : isHex (hexAsc d) := (digits_byte d).2.1

lemma hexAsc_hexValue (c : Byte) (hc : isHex c) :
    hexAsc (BitVec.ofNat 8 ((hexValue c).getD 0)) = lower c := (digits_byte c).2.2.1 hc

lemma hexValue_halves (byte : Byte) : BitVec.ofNat 8 (16 * (hexValue (hexAsc (byte >>> 4))).getD 0 +
    (hexValue (hexAsc (byte &&& 0xf))).getD 0) = byte := (digits_byte byte).2.2.2.1

lemma high_half (byte : Byte) : byte >>> 4 &&& (0xf : Byte) = byte >>> 4 :=
  (digits_byte byte).2.2.2.2

lemma hexValue_getD_lt (c : Byte) : (hexValue c).getD 0 < 16 := by
  cases hc : hexValue c with
  | none => decide
  | some v => exact hexValue_lt c v hc

lemma halves_of_pair {v w : ℕ} (hv : v < 16) (hw : w < 16) :
    BitVec.ofNat 8 (16 * v + w) >>> 4 = BitVec.ofNat 8 v ∧
      BitVec.ofNat 8 (16 * v + w) &&& 0xf = BitVec.ofNat 8 w := by
  have hlow (n : ℕ) : n &&& 0xf = n % 16 := Nat.and_two_pow_sub_one_eq_mod n 4
  constructor
  · apply BitVec.eq_of_toNat_eq
    rw [BitVec.toNat_ushiftRight, BitVec.toNat_ofNat, BitVec.toNat_ofNat,
      Nat.shiftRight_eq_div_pow]
    omega
  · apply BitVec.eq_of_toNat_eq
    rw [BitVec.toNat_and, BitVec.toNat_ofNat, BitVec.toNat_ofNat,
      show (0xf : BitVec 8).toNat = 0xf from rfl, hlow]
    omega

lemma hexText_cons (byte : Byte) (bytes : List Byte) :
    hexText (byte :: bytes) = hexText [byte] ++ hexText bytes := rfl

lemma length_hexText (bytes : List Byte) : (hexText bytes).length = 2 * bytes.length := by
  induction bytes with
  | nil => rfl
  | cons byte bytes ih =>
    rw [hexText, List.flatMap_cons, List.length_append, ← hexText, ih, List.length_cons,
      List.length_cons, List.length_cons, List.length_nil]
    omega

lemma isHex_of_mem_hexText {bytes : List Byte} {c : Byte} (h : c ∈ hexText bytes) : isHex c := by
  obtain ⟨byte, -, hc⟩ := List.mem_flatMap.mp h
  rw [List.mem_pair] at hc
  cases hc with
  | inl hc => exact hc ▸ isHex_hexAsc _
  | inr hc => exact hc ▸ isHex_hexAsc _

theorem hexBytes_hexText (bytes : List Byte) : hexBytes (hexText bytes) = bytes := by
  induction bytes with
  | nil => rfl
  | cons byte bytes ih =>
    show BitVec.ofNat 8 _ :: hexBytes (hexText bytes) = byte :: bytes
    rw [ih, hexValue_halves]

/-- The digits of what a text of digits stands for are its own in lower case. -/
theorem hexText_hexBytes (n : ℕ) {text : List Byte} (hlen : text.length = 2 * n)
    (h : ∀ c ∈ text, isHex c) : hexText (hexBytes text) = text.map lower := by
  induction n generalizing text with
  | zero => rw [List.eq_nil_of_length_eq_zero hlen]; rfl
  | succ n ih =>
    match text, hlen with
    | c :: d :: text, hlen =>
      obtain ⟨hc, hd, hrest⟩ : isHex c ∧ isHex d ∧ ∀ e ∈ text, isHex e := by
        simpa only [List.mem_cons, forall_eq_or_imp] using h
      obtain ⟨hhigh, hlow⟩ := halves_of_pair (hexValue_getD_lt c) (hexValue_getD_lt d)
      have htext := ih (by simpa [Nat.mul_succ] using hlen) hrest
      rw [hexBytes, hexText, List.flatMap_cons, hhigh, hlow, hexAsc_hexValue c hc,
        hexAsc_hexValue d hd, ← hexText, htext]
      rfl

lemma length_hexBytes (n : ℕ) {text : List Byte} (hlen : text.length = 2 * n) :
    (hexBytes text).length = n := by
  induction n generalizing text with
  | zero => rw [List.eq_nil_of_length_eq_zero hlen]; rfl
  | succ n ih =>
    match text, hlen with
    | c :: d :: text, hlen =>
      rw [hexBytes, List.length_cons, ih (by simpa [Nat.mul_succ] using hlen)]

/-! ## The loops -/

lemma hexBytePack_eq (m : Memory Byte) (buf : ℕ) (byte : Byte) :
    hexBytePack m buf byte = (buf + 2, m.stores buf (hexText [byte])) := by
  have hdigits : hexText [byte] = [hexAsc (byte >>> 4), hexAsc (byte &&& 0xf)] := rfl
  rw [hexBytePack, high_half, hdigits, ← Memory.store_stores, ← Memory.store_stores,
    Memory.stores_nil]

theorem bin2hex_eq (count : ℕ) (out : Memory Byte) (dst : ℕ) (inp : Memory Byte) (src : ℕ) :
    bin2hex count out dst inp src = ⟨dst + 2 * count,
      out.stores dst (hexText (region inp.cells src count)), inp.loads src count⟩ := by
  induction count generalizing out dst inp src with
  | zero => rfl
  | succ count ih =>
    have hlen : 2 = (hexText [inp.cells src]).length := rfl
    rw [bin2hex, Memory.load_eq]
    simp only [hexBytePack_eq]
    rw [ih, Memory.cells_loads, Memory.loads_loads, Nat.add_comm 1 count, region,
      hexText_cons (inp.cells src) (region _ _ _), ← Memory.stores_stores, ← hlen, Nat.mul_succ,
      Nat.add_comm (2 * count) 2, Nat.add_assoc]

lemma packed_pair {v w : ℕ} (hv : v < 16) (hw : w < 16) :
    (BitVec.ofInt 32 v <<< 4 ||| BitVec.ofInt 32 w).setWidth 8 = BitVec.ofNat 8 (16 * v + w) := by
  have hall : ∀ v w : Fin 16,
      (BitVec.ofInt 32 (v : ℕ) <<< 4 ||| BitVec.ofInt 32 (w : ℕ)).setWidth 8 =
        BitVec.ofNat 8 (16 * v + w) := by
    decide +kernel
  exact hall ⟨v, hv⟩ ⟨w, hw⟩

lemma hexToBin_of_isHex {c : Byte} (h : isHex c) : hexToBin c = ((hexValue c).getD 0 : ℕ) := by
  obtain ⟨v, hv⟩ := Option.isSome_iff_exists.mp ((isHex_iff c).mp h)
  rw [(hexToBin_some hv).1, hv]
  rfl

lemma hexToBin_of_not_isHex {c : Byte} (h : ¬ isHex c) : hexToBin c = -1 := by
  rw [isHex_iff, Option.not_isSome_iff_eq_none] at h
  exact hexToBin_none h

section Steps
variable (count : ℕ) (out : Memory Byte) (dst : ℕ) {inp : Memory Byte} {src : ℕ}

lemma hex2bin_pair (hc : isHex (inp.cells src)) (hd : isHex (inp.cells (src + 1))) :
    hex2bin (count + 1) out dst inp src =
      hex2bin count (out.stores dst (hexBytes (region inp.cells src 2))) (dst + 1)
        (inp.loads src 2) (src + 2) := by
  have hpack := packed_pair (hexValue_getD_lt (inp.cells src))
    (hexValue_getD_lt (inp.cells (src + 1)))
  rw [hex2bin]
  simp only [Memory.load_eq, Memory.cells_loads, Memory.loads_loads, hexToBin_of_isHex hc,
    hexToBin_of_isHex hd, Int.natCast_nonneg, not_lt.mpr, if_false, hpack]
  rfl

/-- A character that is not a digit ends the loop before its pair is stored. -/
lemma hex2bin_stop {j : ℕ} (hj : j < 2) (h : ∀ i < j, isHex (inp.cells (src + i)))
    (hbad : ¬ isHex (inp.cells (src + j))) :
    hex2bin (count + 1) out dst inp src = ⟨-einval, out, inp.loads src (j + 1)⟩ := by
  rw [hex2bin]
  match j, hj with
  | 0, _ =>
    simp only [Memory.load_eq, hexToBin_of_not_isHex (show ¬ isHex (inp.cells src) from hbad)]
    rfl
  | 1, _ =>
    have hfirst : isHex (inp.cells src) := h 0 (by omega)
    simp only [Memory.load_eq, Memory.cells_loads, Memory.loads_loads, hexToBin_of_isHex hfirst,
      hexToBin_of_not_isHex hbad, Int.natCast_nonneg, not_lt.mpr, if_false]
    rfl

end Steps

/-- The first `k` pairs are decoded where all of their characters are digits. -/
lemma hex2bin_pairs (k n : ℕ) {out : Memory Byte} {dst : ℕ} {inp : Memory Byte} {src : ℕ}
    (h : ∀ i < 2 * k, isHex (inp.cells (src + i))) : hex2bin (k + n) out dst inp src =
      hex2bin n (out.stores dst (hexBytes (region inp.cells src (2 * k)))) (dst + k)
        (inp.loads src (2 * k)) (src + 2 * k) := by
  induction k generalizing out dst inp src with
  | zero => rw [Nat.zero_add]; rfl
  | succ k ih =>
    have hrest : ∀ i < 2 * k, isHex ((inp.loads src 2).cells (src + 2 + i)) := by
      intro i hi
      rw [Memory.cells_loads, Nat.add_assoc]
      exact h (2 + i) (by omega)
    have hfirst : isHex (inp.cells src) := h 0 (by omega)
    have hpair := hex2bin_pair (k + n) out dst hfirst (h 1 (by omega))
    have hbytes : hexBytes (region inp.cells src (2 * (k + 1))) =
        hexBytes (region inp.cells src 2) ++ hexBytes (region inp.cells (src + 2) (2 * k)) := rfl
    rw [Nat.add_right_comm, hpair, ih hrest, Memory.cells_loads, Memory.loads_loads, hbytes,
      ← Memory.stores_stores, Nat.mul_succ, Nat.add_comm (2 * k) 2, Nat.add_assoc src 2,
      Nat.add_assoc dst 1, Nat.add_comm 1 k]
    rfl

/-! ## Both directions -/

variable {count : ℕ} {out : Memory Byte} {dst : ℕ} {inp : Memory Byte} {src : ℕ}

theorem hex2bin_of_all (h : ∀ i < 2 * count, isHex (inp.cells (src + i))) :
    hex2bin count out dst inp src =
      ⟨0, out.stores dst (hexBytes (region inp.cells src (2 * count))), inp.loads src (2 * count)⟩ :=
  hex2bin_pairs count 0 h

/-- The loop ends with the first character that is not a digit. -/
theorem hex2bin_of_bad {j : ℕ} (hj : j < 2 * count) (h : ∀ i < j, isHex (inp.cells (src + i)))
    (hbad : ¬ isHex (inp.cells (src + j))) : hex2bin count out dst inp src =
      ⟨-einval, out.stores dst (hexBytes (region inp.cells src (2 * (j / 2)))),
        inp.loads src (j + 1)⟩ := by
  obtain ⟨n, rfl⟩ : ∃ n, count = j / 2 + (n + 1) := ⟨count - j / 2 - 1, by omega⟩
  have hsplit : src + 2 * (j / 2) + j % 2 = src + j := by omega
  have hfirst : ∀ i < j % 2, isHex ((inp.loads src (2 * (j / 2))).cells (src + 2 * (j / 2) + i)) := by
    intro i hi
    rw [Memory.cells_loads, Nat.add_assoc]
    exact h _ (by omega)
  have hstop := hex2bin_stop n (out.stores dst (hexBytes (region inp.cells src (2 * (j / 2)))))
    (dst + j / 2) (Nat.mod_lt j two_pos) hfirst (by rwa [Memory.cells_loads, hsplit])
  rw [hex2bin_pairs (j / 2) (n + 1) fun i hi => h i (by omega), hstop, Memory.loads_loads,
    ← Nat.add_assoc, Nat.div_add_mod]

lemma exists_bad (h : ¬ ∀ i < 2 * count, isHex (inp.cells (src + i))) :
    ∃ j < 2 * count, (∀ i < j, isHex (inp.cells (src + i))) ∧ ¬ isHex (inp.cells (src + j)) := by
  have hex : ∃ j, j < 2 * count ∧ ¬ isHex (inp.cells (src + j)) := by
    simpa only [not_forall, exists_prop] using h
  obtain ⟨hlt, hbad⟩ := Nat.find_spec hex
  refine ⟨Nat.find hex, hlt, fun i hi => ?_, hbad⟩
  by_contra hnot
  exact Nat.find_min hex hi ⟨by omega, hnot⟩

lemma hexText_of_prefix {k : ℕ} (h : ∀ i < 2 * k, isHex (inp.cells (src + i))) :
    hexText (hexBytes (region inp.cells src (2 * k))) = (region inp.cells src (2 * k)).map lower := by
  apply hexText_hexBytes k (length_region _ _ _)
  intro c hc
  obtain ⟨i, hi, rfl⟩ := mem_region.mp hc
  exact h i hi

lemma ret_eq_zero_iff :
    (hex2bin count out dst inp src).ret = 0 ↔ ∀ i < 2 * count, isHex (inp.cells (src + i)) := by
  constructor
  · intro hret
    by_contra hnot
    obtain ⟨j, hj, hfirst, hbad⟩ := exists_bad hnot
    rw [hex2bin_of_bad hj hfirst hbad] at hret
    have hzero : -einval = 0 := hret
    exact absurd hzero (by decide)
  · intro h
    rw [hex2bin_of_all h]

theorem hex2bin_bin2hex (count : ℕ) (text bytes out : Memory Byte) (t b d : ℕ) :
    (hex2bin count out d (bin2hex count text t bytes b).out t).ret = 0 ∧
      region (hex2bin count out d (bin2hex count text t bytes b).out t).out.cells d count =
        region bytes.cells b count := by
  have hlen : (hexText (region bytes.cells b count)).length = 2 * count := by
    rw [length_hexText, length_region]
  have htext : region (bin2hex count text t bytes b).out.cells t (2 * count) =
      hexText (region bytes.cells b count) := by
    rw [bin2hex_eq, Memory.cells_stores, ← hlen, region_fill]
  have hall : ∀ i < 2 * count, isHex ((bin2hex count text t bytes b).out.cells (t + i)) :=
    fun i hi => isHex_of_mem_hexText (htext ▸ mem_region.mpr ⟨i, hi, rfl⟩)
  have hbytes := region_fill out.cells d (region bytes.cells b count)
  rw [length_region] at hbytes
  rw [hex2bin_of_all hall, htext, hexBytes_hexText]
  exact ⟨rfl, hbytes⟩

/-- The other way round the case of the digits is lost. -/
theorem bin2hex_hex2bin (hret : (hex2bin count out dst inp src).ret = 0) (text' : Memory Byte)
    (t' : ℕ) :
    region (bin2hex count text' t' (hex2bin count out dst inp src).out dst).out.cells t'
        (2 * count) = (region inp.cells src (2 * count)).map lower := by
  have hall := ret_eq_zero_iff.mp hret
  have hcount : (hexBytes (region inp.cells src (2 * count))).length = count :=
    length_hexBytes count (length_region _ _ _)
  have hlen : ((region inp.cells src (2 * count)).map lower).length = 2 * count := by
    rw [List.length_map, length_region]
  have hbytes := region_fill out.cells dst (hexBytes (region inp.cells src (2 * count)))
  rw [hcount] at hbytes
  rw [hex2bin_of_all hall, bin2hex_eq, Memory.cells_stores, Memory.cells_stores, hbytes,
    hexText_of_prefix hall]
  exact (congrArg _ hlen.symm).trans (region_fill _ _ _)

/-- A failure is at the first character that is no digit. -/
theorem hex2bin_rejects (hret : (hex2bin count out dst inp src).ret ≠ 0) :
    (hex2bin count out dst inp src).ret = -einval ∧
      ∃ k < count, ∃ j < 2, (∀ i < 2 * k + j, isHex (inp.cells (src + i))) ∧
        ¬ isHex (inp.cells (src + (2 * k + j))) ∧
        hexText (region (hex2bin count out dst inp src).out.cells dst k) =
          (region inp.cells src (2 * k)).map lower ∧
        (∀ a, a < dst ∨ dst + k ≤ a →
          (hex2bin count out dst inp src).out.cells a = out.cells a) ∧
        ∀ a, .read a ∈ (hex2bin count out dst inp src).inp.trace →
          .read a ∈ inp.trace ∨ src ≤ a ∧ a ≤ src + (2 * k + j) := by
  obtain ⟨j, hj, hfirst, hbad⟩ := exists_bad (ret_eq_zero_iff.not.mp hret)
  have hsplit : 2 * (j / 2) + j % 2 = j := Nat.div_add_mod j 2
  have hlen : (hexBytes (region inp.cells src (2 * (j / 2)))).length = j / 2 :=
    length_hexBytes _ (length_region _ _ _)
  have hbytes := region_fill out.cells dst (hexBytes (region inp.cells src (2 * (j / 2))))
  rw [hlen] at hbytes
  rw [hex2bin_of_bad hj hfirst hbad]
  refine ⟨rfl, j / 2, by omega, j % 2, by omega, ?_⟩
  rw [hsplit]
  refine ⟨hfirst, hbad, ?_, ?_, ?_⟩
  · rw [Memory.cells_stores, hbytes]
    exact hexText_of_prefix fun i hi => hfirst i (by omega)
  · intro a ha
    exact fill_of_outside _ (by rwa [hlen])
  · intro a ha
    exact (Memory.mem_trace_loads.mp ha).elim (fun h => .inr (by omega)) .inl

/-- What `bin2hex` writes `hex2bin` reads back; `hex2bin` accepts the texts of hexadecimal digits
and nothing else, and where it fails it has decoded the pairs before the failure only. -/
theorem hex_round_trip :
    (∀ (count : ℕ) (text bytes out : Memory Byte) (t b d : ℕ),
      (hex2bin count out d (bin2hex count text t bytes b).out t).ret = 0 ∧
      region (hex2bin count out d (bin2hex count text t bytes b).out t).out.cells d count =
        region bytes.cells b count) ∧
    ∀ (count : ℕ) (out text : Memory Byte) (d t : ℕ),
      ((hex2bin count out d text t).ret = 0 ↔ ∀ c ∈ region text.cells t (2 * count), isHex c) ∧
      ((hex2bin count out d text t).ret = 0 → ∀ (text' : Memory Byte) (t' : ℕ),
        region (bin2hex count text' t' (hex2bin count out d text t).out d).out.cells t' (2 * count) =
          (region text.cells t (2 * count)).map lower) ∧
      ((hex2bin count out d text t).ret ≠ 0 → (hex2bin count out d text t).ret = -einval ∧
        ∃ k < count, ∃ j < 2, (∀ i < 2 * k + j, isHex (text.cells (t + i))) ∧
          ¬ isHex (text.cells (t + (2 * k + j))) ∧
          hexText (region (hex2bin count out d text t).out.cells d k) =
            (region text.cells t (2 * k)).map lower ∧
          (∀ a, a < d ∨ d + k ≤ a → (hex2bin count out d text t).out.cells a = out.cells a) ∧
          ∀ a, .read a ∈ (hex2bin count out d text t).inp.trace →
            .read a ∈ text.trace ∨ t ≤ a ∧ a ≤ t + (2 * k + j)) := by
  refine ⟨hex2bin_bin2hex, fun count out text d t => ⟨?_, bin2hex_hex2bin, hex2bin_rejects⟩⟩
  rw [ret_eq_zero_iff]
  constructor
  · intro h c hc
    obtain ⟨i, hi, rfl⟩ := mem_region.mp hc
    exact h i hi
  · exact fun h i hi => h _ (mem_region.mpr ⟨i, hi, rfl⟩)

/-- The second character of the second pair is not a digit: one byte is decoded. -/
theorem hex_round_trip_bad :
    (hex2bin 2 ⟨fun _ => 0xff, []⟩ 0 ⟨fun a => ("5A0g".toList.map ch).getD a 0, []⟩ 0).ret =
      -einval := by
  have hret : (hex2bin 2 ⟨fun _ => 0xff, []⟩ 0
      ⟨fun a => ("5A0g".toList.map ch).getD a 0, []⟩ 0).ret ≠ 0 := by
    decide +kernel
  exact ((hex_round_trip.2 2 _ _ 0 0).2.2 hret).1

end BpfVerify.HexDump
