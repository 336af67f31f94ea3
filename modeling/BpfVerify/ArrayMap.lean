import Mathlib

/-!
# Array maps

The keys of an array map and the addresses of its values: `arraymap.c`, with the way back from an
address to its key in `helpers.c`.
-/
namespace BpfVerify.ArrayMap

def enoent : ℤ := 2

def u32Max : BitVec 32 := 0xffffffff

/-- `BPF_MAP_TYPE_ARRAY` of `helpers.c`. -/
def mapTypeArray : BitVec 32 := 2

/-- `struct bpf_array`, with the address of its values. -/
structure BpfArray where
  mapType : BitVec 32
  keySize : BitVec 32
  maxEntries : BitVec 32
  elemSize : BitVec 32
  indexMask : BitVec 32
  value : BitVec 64

def arrayMapElemPtr (array : BpfArray) (index : BitVec 32) : BitVec 64 :=
  array.value + array.elemSize.setWidth 64 * index.setWidth 64

/-- `NULL` is `none`: no address inside the array is `NULL`. -/
def arrayMapLookupElem (array : BpfArray) (index : BitVec 32) : Option (BitVec 64) :=
  if index ≥ array.maxEntries then none
  else some (array.value +
    array.elemSize.setWidth 64 * (index &&& array.indexMask).setWidth 64)

/-- The return value, and what is written to `next_key`. A `NULL` key is `none`. -/
def bpfArrayGetNextKey (array : BpfArray) (key : Option (BitVec 32)) : ℤ × Option (BitVec 32) :=
  let index := key.getD u32Max
  if index ≥ array.maxEntries then (0, some 0)
  else if index = array.maxEntries - 1 then (-enoent, none)
  else (0, some (index + 1))

/-- The key is in `arr_idx`, or at an address before the value. -/
inductive KeyPtr where
  | arrIdx (index : BitVec 32)
  | address (p : BitVec 64)
  deriving DecidableEq

def roundUp (x y : BitVec 32) : BitVec 32 := (x + y - 1) / y * y

/-- The difference of two pointers is signed. -/
def mapKeyFromValue (array : BpfArray) (value : BitVec 64) : KeyPtr :=
  if array.mapType = mapTypeArray then
    .arrIdx (((value - array.value).sdiv (array.elemSize.setWidth 64)).setWidth 32)
  else .address (value - (roundUp array.keySize 8).setWidth 64)

/-- The keys that a caller gets who feeds each result back, and the first return value that is not
zero within `fuel` calls. -/
def walk (array : BpfArray) : ℕ → Option (BitVec 32) → List (BitVec 32) × Option ℤ
  | 0, _ => ([], none)
  | fuel + 1, key =>
    match bpfArrayGetNextKey array key with
    | (0, some next) =>
      let rest := walk array fuel (some next)
      (next :: rest.1, rest.2)
    | (ret, _) => ([], some ret)

/-- What the allocation leaves behind. -/
structure Allocated (array : BpfArray) : Prop where
  entries : 1 ≤ array.maxEntries.toNat
  elem : 1 ≤ array.elemSize.toNat ∧ array.elemSize.toNat ≤ 2 ^ 31
  mask : ∃ k, array.indexMask.toNat = 2 ^ k - 1 ∧ array.maxEntries.toNat - 1 ≤ 2 ^ k - 1

/-- The keys of the map in their order. -/
def keys (array : BpfArray) : List (BitVec 32) :=
  (List.range array.maxEntries.toNat).map (BitVec.ofNat 32)

variable {array : BpfArray}

/-! ## Keys -/

lemma getNextKey_null : bpfArrayGetNextKey array none = (0, some 0) := by
  have hall : u32Max ≥ array.maxEntries := BitVec.le_def.mpr (by
    have hlt := array.maxEntries.isLt
    show array.maxEntries.toNat ≤ 2 ^ 32 - 1
    omega)
  rw [bpfArrayGetNextKey, Option.getD_none, if_pos hall]

lemma getNextKey_outside {key : BitVec 32} (h : array.maxEntries ≤ key) :
    bpfArrayGetNextKey array (some key) = (0, some 0) := if_pos h

lemma toNat_pred (h : Allocated array) :
    (array.maxEntries - 1).toNat = array.maxEntries.toNat - 1 := by
  have hpos := h.entries
  rw [BitVec.toNat_sub, show (1 : BitVec 32).toNat = 1 from rfl]
  omega

lemma getNextKey_last (h : Allocated array) :
    bpfArrayGetNextKey array (some (array.maxEntries - 1)) = (-enoent, none) := by
  have hpos := h.entries
  have hin : ¬ array.maxEntries - 1 ≥ array.maxEntries := by
    rw [ge_iff_le, BitVec.le_def, toNat_pred h]
    omega
  rw [bpfArrayGetNextKey, Option.getD_some, if_neg hin, if_pos rfl]

lemma getNextKey_inside (h : Allocated array) {i : ℕ} (hi : i + 1 < array.maxEntries.toNat) :
    bpfArrayGetNextKey array (some (BitVec.ofNat 32 i)) = (0, some (BitVec.ofNat 32 (i + 1))) := by
  have hbound := array.maxEntries.isLt
  have hnat : (BitVec.ofNat 32 i).toNat = i := by
    rw [BitVec.toNat_ofNat]
    omega
  have hin : ¬ BitVec.ofNat 32 i ≥ array.maxEntries := by
    rw [ge_iff_le, BitVec.le_def, hnat]
    omega
  have hlast : BitVec.ofNat 32 i ≠ array.maxEntries - 1 := by
    intro heq
    have hpred := congrArg BitVec.toNat heq
    rw [hnat, toNat_pred h] at hpred
    omega
  rw [bpfArrayGetNextKey, Option.getD_some, if_neg hin, if_neg hlast, BitVec.ofNat_add]
  rfl

lemma walk_step {key : Option (BitVec 32)} {next : BitVec 32}
    (h : bpfArrayGetNextKey array key = (0, some next)) (fuel : ℕ) :
    walk array (fuel + 1) key =
      (next :: (walk array fuel (some next)).1, (walk array fuel (some next)).2) := by
  rw [walk, h]
  rfl

/-- From key `i` on the walk yields the keys behind it. -/
lemma walk_some (h : Allocated array) {i n : ℕ} (hn : i + 1 + n = array.maxEntries.toNat)
    (fuel : ℕ) :
    walk array (n + 1 + fuel) (some (BitVec.ofNat 32 i)) =
      ((List.range' (i + 1) n).map (BitVec.ofNat 32), some (-enoent)) := by
  induction n generalizing i with
  | zero =>
    have hlast : BitVec.ofNat 32 i = array.maxEntries - 1 := by
      apply BitVec.eq_of_toNat_eq
      have hbound := array.maxEntries.isLt
      rw [toNat_pred h, BitVec.toNat_ofNat]
      omega
    rw [Nat.zero_add, Nat.add_comm 1 fuel, walk, hlast, getNextKey_last h]
    rfl
  | succ n ih =>
    have hnext := getNextKey_inside h (i := i) (by omega)
    rw [Nat.add_right_comm, walk_step hnext, ih (i := i + 1) (by omega), List.range'_succ,
      List.map_cons]

theorem walk_null (h : Allocated array) (fuel : ℕ) :
    walk array (array.maxEntries.toNat + 1 + fuel) none = (keys array, some (-enoent)) := by
  have hpos := h.entries
  obtain ⟨n, hn⟩ : ∃ n, array.maxEntries.toNat = n + 1 := ⟨array.maxEntries.toNat - 1, by omega⟩
  have hrest := walk_some h (i := 0) (n := n) (by omega) fuel
  have hzero : BitVec.ofNat 32 0 = 0 := rfl
  rw [hzero] at hrest
  rw [keys, hn, Nat.add_right_comm, walk_step getNextKey_null, hrest, List.range_eq_range',
    List.range'_succ, List.map_cons]
  rfl

lemma mem_keys {key : BitVec 32} :
    key ∈ keys array ↔ key.toNat < array.maxEntries.toNat := by
  rw [keys, List.mem_map]
  constructor
  · rintro ⟨i, hi, rfl⟩
    have hbound := array.maxEntries.isLt
    rw [List.mem_range] at hi
    rw [BitVec.toNat_ofNat]
    omega
  · intro hlt
    refine ⟨key.toNat, List.mem_range.mpr hlt, ?_⟩
    rw [BitVec.ofNat_toNat, BitVec.setWidth_eq]

lemma nodup_keys : (keys array).Nodup := by
  refine List.Nodup.map_on ?_ List.nodup_range
  intro i hi j hj heq
  have hbound := array.maxEntries.isLt
  rw [List.mem_range] at hi hj
  have hnat := congrArg BitVec.toNat heq
  rw [BitVec.toNat_ofNat, BitVec.toNat_ofNat] at hnat
  omega

/-! ## Values -/

lemma lookup_isSome {key : BitVec 32} :
    (arrayMapLookupElem array key).isSome ↔ key.toNat < array.maxEntries.toNat := by
  rw [arrayMapLookupElem]
  split_ifs with hout
  · rw [ge_iff_le, BitVec.le_def] at hout
    simpa using hout
  · rw [ge_iff_le, BitVec.le_def] at hout
    simpa using hout

/-- The mask leaves the keys of the map as they are. -/
lemma and_indexMask (h : Allocated array) {key : BitVec 32}
    (hkey : key.toNat < array.maxEntries.toNat) : key &&& array.indexMask = key := by
  obtain ⟨k, hmask, hle⟩ := h.mask
  have hpow : 0 < 2 ^ k := Nat.two_pow_pos k
  apply BitVec.eq_of_toNat_eq
  rw [BitVec.toNat_and, hmask, Nat.and_two_pow_sub_one_eq_mod]
  exact Nat.mod_eq_of_lt (by omega)

/-- An element ends below `2 ^ 63` behind the first one. -/
lemma offset_le (h : Allocated array) (key : BitVec 32) :
    array.elemSize.toNat * key.toNat + array.elemSize.toNat ≤ 2 ^ 63 := by
  have hlt := key.isLt
  calc array.elemSize.toNat * key.toNat + array.elemSize.toNat
      = array.elemSize.toNat * (key.toNat + 1) := by rw [Nat.mul_add, Nat.mul_one]
    _ ≤ 2 ^ 31 * 2 ^ 32 := Nat.mul_le_mul h.elem.2 (by omega)
    _ = 2 ^ 63 := by norm_num

/-- The product in 64 bits is the one of the natural numbers. -/
lemma toNat_offset (h : Allocated array) (key : BitVec 32) :
    (array.elemSize.setWidth 64 * key.setWidth 64).toNat =
      array.elemSize.toNat * key.toNat := by
  have hle := offset_le h key
  have helem := array.elemSize.isLt
  have hlt := key.isLt
  rw [BitVec.toNat_mul, BitVec.toNat_setWidth, BitVec.toNat_setWidth,
    Nat.mod_eq_of_lt (show array.elemSize.toNat < 2 ^ 64 by omega),
    Nat.mod_eq_of_lt (show key.toNat < 2 ^ 64 by omega), Nat.mod_eq_of_lt (by omega)]

lemma elemPtr_eq (h : Allocated array) (key : BitVec 32) :
    arrayMapElemPtr array key =
      array.value + BitVec.ofNat 64 (array.elemSize.toNat * key.toNat) := by
  rw [← toNat_offset h key, BitVec.ofNat_toNat, BitVec.setWidth_eq, arrayMapElemPtr]

lemma lookup_eq_elemPtr (h : Allocated array) {key : BitVec 32} {p : BitVec 64}
    (hp : arrayMapLookupElem array key = some p) : p = arrayMapElemPtr array key := by
  have hkey : key.toNat < array.maxEntries.toNat :=
    lookup_isSome.mp (Option.isSome_of_mem hp)
  have hin : ¬ key ≥ array.maxEntries := by
    rw [ge_iff_le, BitVec.le_def]
    omega
  rw [arrayMapLookupElem, if_neg hin, and_indexMask h hkey] at hp
  exact (Option.some.inj hp).symm

/-- A byte of the element of a key, as the address of the values and one offset. -/
lemma lookup_add (h : Allocated array) {key : BitVec 32} {p : BitVec 64}
    (hp : arrayMapLookupElem array key = some p) (a : ℕ) :
    p + BitVec.ofNat 64 a =
      array.value + BitVec.ofNat 64 (array.elemSize.toNat * key.toNat + a) := by
  rw [lookup_eq_elemPtr h hp, elemPtr_eq h, BitVec.ofNat_add, BitVec.add_assoc]

lemma ofNat_inj {m n : ℕ} (hm : m < 2 ^ 63) (hn : n < 2 ^ 63)
    (h : BitVec.ofNat 64 m = BitVec.ofNat 64 n) : m = n := by
  have hnat := congrArg BitVec.toNat h
  rw [BitVec.toNat_ofNat, BitVec.toNat_ofNat] at hnat
  omega

theorem elements_disjoint (h : Allocated array) {key key' : BitVec 32} {p p' : BitVec 64}
    (hp : arrayMapLookupElem array key = some p) (hp' : arrayMapLookupElem array key' = some p')
    {a b : ℕ} (ha : a < array.elemSize.toNat) (hb : b < array.elemSize.toNat)
    (heq : p + BitVec.ofNat 64 a = p' + BitVec.ofNat 64 b) : key = key' := by
  have hle := offset_le h key
  have hle' := offset_le h key'
  rw [lookup_add h hp, lookup_add h hp'] at heq
  have hnat := ofNat_inj (by omega) (by omega) ((BitVec.add_right_inj _).mp heq)
  -- the key is the quotient, the byte the remainder
  have hquot := congrArg (· / array.elemSize.toNat) hnat
  simp only [Nat.mul_add_div h.elem.1, Nat.div_eq_of_lt ha, Nat.div_eq_of_lt hb,
    Nat.add_zero] at hquot
  exact BitVec.eq_of_toNat_eq hquot

/-- Signed division is the unsigned one on values below `2 ^ 63`. -/
lemma sdiv_ofNat {m n : ℕ} (hm : m < 2 ^ 63) (hn : n < 2 ^ 63) :
    (BitVec.ofNat 64 m).sdiv (BitVec.ofNat 64 n) = BitVec.ofNat 64 (m / n) := by
  have hmsb : ∀ k < 2 ^ 63, (BitVec.ofNat 64 k).msb = false := by
    intro k hk
    rw [BitVec.msb_eq_false_iff_two_mul_lt, BitVec.toNat_ofNat]
    omega
  rw [BitVec.sdiv_eq, hmsb m hm, hmsb n hn]
  apply BitVec.eq_of_toNat_eq
  have hdiv := Nat.div_le_self m n
  rw [BitVec.toNat_ofNat, Nat.mod_eq_of_lt (by omega)]
  show (BitVec.ofNat 64 m).toNat / (BitVec.ofNat 64 n).toNat = m / n
  rw [BitVec.toNat_ofNat, BitVec.toNat_ofNat, Nat.mod_eq_of_lt (by omega),
    Nat.mod_eq_of_lt (by omega)]

theorem mapKeyFromValue_element (h : Allocated array) (htype : array.mapType = mapTypeArray)
    {key : BitVec 32} {p : BitVec 64} (hp : arrayMapLookupElem array key = some p) {a : ℕ}
    (ha : a < array.elemSize.toNat) :
    mapKeyFromValue array (p + BitVec.ofNat 64 a) = .arrIdx key := by
  have hle := offset_le h key
  have hlt := key.isLt
  have helem := array.elemSize.isLt
  have hsize : array.elemSize.setWidth 64 = BitVec.ofNat 64 array.elemSize.toNat := by
    rw [BitVec.ofNat_toNat]
  rw [mapKeyFromValue, if_pos htype, lookup_add h hp, BitVec.add_comm array.value,
    BitVec.add_sub_cancel, hsize, sdiv_ofNat (by omega) (by omega), Nat.mul_add_div h.elem.1,
    Nat.div_eq_of_lt ha]
  congr 1
  apply BitVec.eq_of_toNat_eq
  rw [BitVec.toNat_setWidth, BitVec.toNat_ofNat]
  omega

/-! ## Keys and values -/

/-- The keys come once each and in order, `lookup` knows them and no other, their elements do not
meet, and the way back from an element finds its key. -/
theorem keys_and_values_agree (h : Allocated array) :
    (∀ fuel, walk array (array.maxEntries.toNat + 1 + fuel) none = (keys array, some (-enoent))) ∧
    (keys array).Nodup ∧
    bpfArrayGetNextKey array (some (array.maxEntries - 1)) = (-enoent, none) ∧
    (∀ key, array.maxEntries ≤ key → bpfArrayGetNextKey array (some key) = (0, some 0)) ∧
    (∀ key, (arrayMapLookupElem array key).isSome ↔ key ∈ keys array) ∧
    (∀ key p, arrayMapLookupElem array key = some p →
      p = arrayMapElemPtr array key ∧
      p = array.value + BitVec.ofNat 64 (array.elemSize.toNat * key.toNat) ∧
      array.elemSize.toNat * key.toNat + array.elemSize.toNat ≤ 2 ^ 63) ∧
    (∀ key key' p p', arrayMapLookupElem array key = some p →
      arrayMapLookupElem array key' = some p' → key ≠ key' →
      ∀ a < array.elemSize.toNat, ∀ b < array.elemSize.toNat,
        p + BitVec.ofNat 64 a ≠ p' + BitVec.ofNat 64 b) ∧
    (array.mapType = mapTypeArray → ∀ key p, arrayMapLookupElem array key = some p →
      ∀ a < array.elemSize.toNat,
        mapKeyFromValue array (p + BitVec.ofNat 64 a) = .arrIdx key) := by
  refine ⟨walk_null h, nodup_keys, getNextKey_last h, fun _ hout => getNextKey_outside hout,
    fun _ => lookup_isSome.trans mem_keys.symm, ?_, ?_, ?_⟩
  · intro key p hp
    have hptr := lookup_eq_elemPtr h hp
    exact ⟨hptr, hptr.trans (elemPtr_eq h key), offset_le h key⟩
  · intro key key' p p' hp hp' hne a ha b hb heq
    exact hne (elements_disjoint h hp hp' ha hb heq)
  · intro htype key p hp a ha
    exact mapKeyFromValue_element h htype hp ha

/-- Five elements of twelve bytes at `0x1000`. -/
def five : BpfArray where
  mapType := mapTypeArray
  keySize := 4
  maxEntries := 5
  elemSize := 12
  indexMask := 7
  value := 0x1000

lemma allocated_five : Allocated five :=
  ⟨by decide, by decide, 3, by decide, by decide⟩

theorem keys_and_values_agree_five :
    walk five 6 none = ([0, 1, 2, 3, 4], some (-enoent)) ∧
      mapKeyFromValue five 0x102f = .arrIdx 3 := by
  obtain ⟨hwalk, -, -, -, -, -, -, hback⟩ := keys_and_values_agree allocated_five
  exact ⟨hwalk 0, hback rfl 3 0x1024 rfl 11 (by decide)⟩

end BpfVerify.ArrayMap
