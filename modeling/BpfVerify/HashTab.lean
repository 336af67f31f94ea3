import Mathlib

/-!
# Element accounting of hash tables

`hashtab.c` counts the elements of a table in one of two counters, a `s64` or an `int`, and in the
map itself. It computes the memory of a table from these counts.
-/
namespace BpfVerify.HashTab

def eperm : ℤ := 1
def e2big : ℤ := 7
def einval : ℤ := 22
def enotsupp : ℤ := 95

def capSysAdmin : ℕ := 21
def pcpuMinUnitSize : BitVec 32 := 32 <<< 10
def kmallocMaxSize : BitVec 32 := 1 <<< 22
def numaNoNode : BitVec 32 := -1

def bpfFNoPrealloc : BitVec 32 := 1 <<< 0
def bpfFNoCommonLru : BitVec 32 := 1 <<< 1
def bpfFNumaNode : BitVec 32 := 1 <<< 2
def bpfFRdonly : BitVec 32 := 1 <<< 3
def bpfFWronly : BitVec 32 := 1 <<< 4
def bpfFZeroSeed : BitVec 32 := 1 <<< 6
def bpfFRdonlyProg : BitVec 32 := 1 <<< 7
def bpfFWronlyProg : BitVec 32 := 1 <<< 8

def bpfFAccessMask : BitVec 32 := bpfFRdonly ||| bpfFRdonlyProg ||| bpfFWronly ||| bpfFWronlyProg

def htabCreateFlagMask : BitVec 32 :=
  bpfFNoPrealloc ||| bpfFNoCommonLru ||| bpfFNumaNode ||| bpfFAccessMask ||| bpfFZeroSeed

def mapTypePercpuHash : BitVec 32 := 5
def mapTypeLruHash : BitVec 32 := 9
def mapTypeLruPercpuHash : BitVec 32 := 10
def mapTypeHashOfMaps : BitVec 32 := 13

/-! The sizes of the structures on a 64-bit machine. -/

def sizeofHtab : BitVec 64 := 192
def sizeofBucket : BitVec 64 := 16
def sizeofHtabElem : BitVec 64 := 48
def sizeofLlistNode : BitVec 64 := 8
def sizeofPointer : BitVec 64 := 8

/-- `union bpf_attr` as the creation of a map reads it. -/
structure Attr where
  mapType : BitVec 32
  keySize : BitVec 32
  valueSize : BitVec 32
  maxEntries : BitVec 32
  mapFlags : BitVec 32
  numaNode : BitVec 32

structure BpfMap where
  mapType : BitVec 32
  keySize : BitVec 32
  valueSize : BitVec 32
  maxEntries : BitVec 32
  mapFlags : BitVec 32
  elemCount : BitVec 32

/-- `pcount` is a `s64`, `count` an `int`. -/
structure BpfHtab where
  map : BpfMap
  pcount : BitVec 64
  count : BitVec 32
  usePercpuCounter : Bool
  nBuckets : BitVec 32
  elemSize : BitVec 32

def capable (_cap : ℕ) : Bool := false

def numPossibleCpus : BitVec 32 := 4

def roundUp (x y : BitVec 32) : BitVec 32 := (x + y - 1) / y * y

/-! ## The check of the attributes -/

def bpfMapAttrNumaNode (attr : Attr) : BitVec 32 :=
  if attr.mapFlags &&& bpfFNumaNode ≠ 0 then attr.numaNode else numaNoNode

def bpfMapFlagsAccessOk (accessFlags : BitVec 32) : Bool :=
  accessFlags &&& (bpfFRdonlyProg ||| bpfFWronlyProg) ≠ bpfFRdonlyProg ||| bpfFWronlyProg

def htabMapAllocCheck (attr : Attr) : ℤ :=
  let percpu := attr.mapType = mapTypePercpuHash ∨ attr.mapType = mapTypeLruPercpuHash
  let lru := attr.mapType = mapTypeLruHash ∨ attr.mapType = mapTypeLruPercpuHash
  let percpuLru := attr.mapFlags &&& bpfFNoCommonLru ≠ 0
  let prealloc := ¬ attr.mapFlags &&& bpfFNoPrealloc ≠ 0
  let zeroSeed := attr.mapFlags &&& bpfFZeroSeed ≠ 0
  let numaNode := bpfMapAttrNumaNode attr
  if zeroSeed ∧ ¬ capable capSysAdmin then -eperm
  else if attr.mapFlags &&& ~~~htabCreateFlagMask ≠ 0 ∨ ¬ bpfMapFlagsAccessOk attr.mapFlags then
    -einval
  else if ¬ lru ∧ percpuLru then -einval
  else if lru ∧ ¬ prealloc then -enotsupp
  else if numaNode ≠ numaNoNode ∧ (percpu ∨ percpuLru) then -einval
  else if attr.maxEntries = 0 ∨ attr.keySize = 0 ∨ attr.valueSize = 0 then -einval
  else if attr.keySize.setWidth 64 + attr.valueSize.setWidth 64 ≥
      kmallocMaxSize.setWidth 64 - sizeofHtabElem then -e2big
  else if percpu ∧ roundUp attr.valueSize 8 > pcpuMinUnitSize then -e2big
  else 0

/-! ## The counters -/

def atomicInc (v : BitVec 32) : BitVec 32 := v + 1

def atomicDec (v : BitVec 32) : BitVec 32 := v - 1

def percpuCounterAddBatch (fbc amount : BitVec 64) : BitVec 64 := fbc + amount

def percpuCounterCompare (fbc rhs : BitVec 64) : ℤ :=
  if fbc.slt rhs then -1
  else if rhs.slt fbc then 1
  else 0

def bpfMapIncElemCount (map : BpfMap) : BpfMap := { map with elemCount := map.elemCount + 1 }

def bpfMapDecElemCount (map : BpfMap) : BpfMap := { map with elemCount := map.elemCount - 1 }

/-- The `int` is compared as a `u32`. -/
def isMapFull (htab : BpfHtab) : Bool :=
  if htab.usePercpuCounter then
    percpuCounterCompare htab.pcount (htab.map.maxEntries.setWidth 64) ≥ 0
  else htab.count ≥ htab.map.maxEntries

def incElemCount (htab : BpfHtab) : BpfHtab :=
  let htab := { htab with map := bpfMapIncElemCount htab.map }
  if htab.usePercpuCounter then { htab with pcount := percpuCounterAddBatch htab.pcount 1 }
  else { htab with count := atomicInc htab.count }

def decElemCount (htab : BpfHtab) : BpfHtab :=
  let htab := { htab with map := bpfMapDecElemCount htab.map }
  if htab.usePercpuCounter then { htab with pcount := percpuCounterAddBatch htab.pcount (-1) }
  else { htab with count := atomicDec htab.count }

/-! ## Memory -/

def htabIsPrealloc (htab : BpfHtab) : Bool := ¬ htab.map.mapFlags &&& bpfFNoPrealloc ≠ 0

def htabIsLru (htab : BpfHtab) : Bool :=
  htab.map.mapType = mapTypeLruHash ∨ htab.map.mapType = mapTypeLruPercpuHash

def htabIsPercpu (htab : BpfHtab) : Bool :=
  htab.map.mapType = mapTypePercpuHash ∨ htab.map.mapType = mapTypeLruPercpuHash

def isFdHtab (htab : BpfHtab) : Bool := htab.map.mapType = mapTypeHashOfMaps

def htabHasExtraElems (htab : BpfHtab) : Bool :=
  ¬ htabIsPercpu htab ∧ ¬ htabIsLru htab ∧ ¬ isFdHtab htab

/-- Both arms of the conditional expression become `s64` before `num_entries` takes them. -/
def liveEntries (htab : BpfHtab) : BitVec 64 :=
  if htab.usePercpuCounter then htab.pcount else htab.count.signExtend 64

def htabMapMemUsage (htab : BpfHtab) : BitVec 64 :=
  let valueSize := roundUp htab.map.valueSize 8
  let usage := sizeofHtab + sizeofBucket * htab.nBuckets.setWidth 64
  if htabIsPrealloc htab then
    let numEntries := htab.map.maxEntries.setWidth 64 +
      if htabHasExtraElems htab then numPossibleCpus.setWidth 64 else 0
    let usage := usage + htab.elemSize.setWidth 64 * numEntries
    if htabIsPercpu htab then usage + (valueSize * numPossibleCpus).setWidth 64 * numEntries
    else if ¬ htabIsLru htab then usage + sizeofPointer * numPossibleCpus.setWidth 64
    else usage
  else
    let numEntries := liveEntries htab
    let usage := usage + (htab.elemSize.setWidth 64 + sizeofLlistNode) * numEntries
    if htabIsPercpu htab then
      usage + (sizeofLlistNode + sizeofPointer) * numEntries +
        (valueSize * numPossibleCpus).setWidth 64 * numEntries
    else usage

/-! ## Runs -/

inductive Op where
  | inc
  | dec

def step (htab : BpfHtab) : Op → BpfHtab
  | .inc => incElemCount htab
  | .dec => decElemCount htab

def run (htab : BpfHtab) (ops : List Op) : BpfHtab := ops.foldl step htab

/-- The number of live elements that a step adds. -/
def Op.delta : Op → ℤ
  | .inc => 1
  | .dec => -1

def live (ops : List Op) : ℤ := (ops.map Op.delta).sum

/-- The table with `n` elements counted in its own mode. -/
def counted (htab : BpfHtab) (n : ℤ) : BpfHtab :=
  { htab with
    map := { htab.map with elemCount := BitVec.ofInt 32 n }
    pcount := if htab.usePercpuCounter then BitVec.ofInt 64 n else 0
    count := if htab.usePercpuCounter then 0 else BitVec.ofInt 32 n }

variable {htab : BpfHtab}

@[simp] lemma counted_usePercpuCounter (n : ℤ) :
    (counted htab n).usePercpuCounter = htab.usePercpuCounter := rfl

@[simp] lemma counted_maxEntries (n : ℤ) :
    (counted htab n).map.maxEntries = htab.map.maxEntries := rfl

lemma counted_pcount (h : htab.usePercpuCounter = true) (k : ℕ) :
    (counted htab k).pcount = BitVec.ofNat 64 k :=
  (if_pos h).trans (BitVec.ofInt_natCast 64 k)

lemma counted_count (h : htab.usePercpuCounter = false) (k : ℕ) :
    (counted htab k).count = BitVec.ofNat 32 k :=
  (if_neg (Bool.eq_false_iff.mp h)).trans (BitVec.ofInt_natCast 32 k)

lemma ofInt_pred (w : ℕ) (n : ℤ) : BitVec.ofInt w (n + -1) = BitVec.ofInt w n - 1 := by
  rw [BitVec.ofInt_add, BitVec.sub_eq_add_neg, BitVec.ofInt_neg, BitVec.ofInt_ofNat]
  rfl

lemma incElemCount_counted (n : ℤ) : incElemCount (counted htab n) = counted htab (n + 1) := by
  cases hmode : htab.usePercpuCounter with
  | true =>
    simp [incElemCount, counted, hmode, bpfMapIncElemCount, percpuCounterAddBatch,
      BitVec.ofInt_add]
  | false => simp [incElemCount, counted, hmode, bpfMapIncElemCount, atomicInc, BitVec.ofInt_add]

lemma decElemCount_counted (n : ℤ) : decElemCount (counted htab n) = counted htab (n + -1) := by
  have hadd : BitVec.ofInt 64 (n + -1) = BitVec.ofInt 64 n + -1 := BitVec.ofInt_add ..
  cases hmode : htab.usePercpuCounter with
  | true =>
    simp only [decElemCount, counted, hmode, bpfMapDecElemCount, percpuCounterAddBatch,
      ofInt_pred 32, hadd, if_true]
  | false =>
    simp only [decElemCount, counted, hmode, bpfMapDecElemCount, atomicDec, ofInt_pred 32,
      Bool.false_eq_true, if_false]

lemma step_counted (op : Op) (n : ℤ) : step (counted htab n) op = counted htab (n + op.delta) := by
  cases op with
  | inc => exact incElemCount_counted n
  | dec => exact decElemCount_counted n

/-- A run adds what its steps add, in either mode. -/
theorem run_counted (ops : List Op) (n : ℤ) :
    run (counted htab n) ops = counted htab (n + live ops) := by
  induction ops generalizing n with
  | nil => rw [live, List.map_nil, List.sum_nil, Int.add_zero, run, List.foldl_nil]
  | cons op ops ih =>
    have hrest := ih (n + op.delta)
    rw [run] at hrest
    rw [run, List.foldl_cons, step_counted, hrest, live, live, List.map_cons, List.sum_cons,
      Int.add_assoc]

/-- The state of a table before its first element. -/
structure Fresh (htab : BpfHtab) : Prop where
  elemCount : htab.map.elemCount = 0
  pcount : htab.pcount = 0
  count : htab.count = 0

lemma counted_zero (h : Fresh htab) : counted htab 0 = htab := by
  obtain ⟨⟨mapType, keySize, valueSize, maxEntries, mapFlags, elemCount⟩, pcount, count, mode,
    nBuckets, elemSize⟩ := htab
  obtain rfl : elemCount = 0 := h.elemCount
  obtain rfl : pcount = 0 := h.pcount
  obtain rfl : count = 0 := h.count
  cases mode with
  | true => rfl
  | false => rfl

lemma run_fresh (h : Fresh htab) (ops : List Op) : run htab ops = counted htab (live ops) := by
  have hrun : run (counted htab 0) ops = counted htab (0 + live ops) := run_counted ops 0
  rwa [counted_zero h, Int.zero_add] at hrun

/-! ## What the counters tell -/

lemma toNat_ofNat_live {w k : ℕ} (hw : 31 ≤ w) (hk : k < 2 ^ 31) :
    (BitVec.ofNat w k).toNat = k := by
  rw [BitVec.toNat_ofNat]
  exact Nat.mod_eq_of_lt (hk.trans_le (Nat.pow_le_pow_right (by decide) hw))

lemma elemCount_counted {k : ℕ} (hk : k < 2 ^ 31) :
    (counted htab k).map.elemCount.toNat = k := by
  show (BitVec.ofInt 32 k).toNat = k
  rw [BitVec.ofInt_natCast, toNat_ofNat_live (by decide) hk]

lemma percpuCounterCompare_nonneg (x y : BitVec 64) :
    percpuCounterCompare x y ≥ 0 ↔ y.toInt ≤ x.toInt := by
  rw [percpuCounterCompare]
  split_ifs with hlt hgt
  · rw [BitVec.slt_iff_toInt_lt] at hlt
    omega
  · rw [BitVec.slt_iff_toInt_lt] at hgt
    omega
  · rw [BitVec.slt_iff_toInt_lt] at hlt
    omega

lemma toInt_setWidth (x : BitVec 32) : (x.setWidth 64).toInt = x.toNat := by
  have hlt := x.isLt
  have hnat : (x.setWidth 64).toNat = x.toNat := by
    rw [BitVec.toNat_setWidth]
    omega
  rw [BitVec.toInt_eq_toNat_of_lt (by omega), hnat]

theorem isMapFull_counted {k : ℕ} (hk : k < 2 ^ 31) :
    isMapFull (counted htab k) = true ↔ htab.map.maxEntries.toNat ≤ k := by
  rw [isMapFull, counted_usePercpuCounter, counted_maxEntries]
  cases hmode : htab.usePercpuCounter with
  | true =>
    have hnat := toNat_ofNat_live (w := 64) (by decide) hk
    rw [if_pos rfl, decide_eq_true_iff, percpuCounterCompare_nonneg, counted_pcount hmode,
      toInt_setWidth, BitVec.toInt_eq_toNat_of_lt (by omega), hnat, Int.ofNat_le]
  | false =>
    rw [if_neg Bool.false_ne_true, decide_eq_true_iff, counted_count hmode, ge_iff_le,
      BitVec.le_def, toNat_ofNat_live (by decide) hk]

/-- The element count that the memory is computed from is the same in both modes. -/
lemma liveEntries_counted {k : ℕ} (hk : k < 2 ^ 31) :
    liveEntries (counted htab k) = BitVec.ofNat 64 k := by
  rw [liveEntries, counted_usePercpuCounter]
  cases hmode : htab.usePercpuCounter with
  | true => rw [if_pos rfl, counted_pcount hmode]
  | false =>
    have hnat := toNat_ofNat_live (w := 32) (by decide) hk
    have hmsb : (BitVec.ofNat 32 k).msb = false := by
      rw [BitVec.msb_eq_false_iff_two_mul_lt, hnat]
      omega
    rw [if_neg Bool.false_ne_true, counted_count hmode,
      BitVec.signExtend_eq_setWidth_of_msb_false hmsb]
    apply BitVec.eq_of_toNat_eq
    rw [BitVec.toNat_setWidth, hnat, toNat_ofNat_live (by decide) hk]
    omega

/-! ## Memory over the natural numbers -/

/-- The sum of products that `htab_map_mem_usage` writes down, for `n` live elements. -/
def memUsage (htab : BpfHtab) (n : ℕ) : ℕ :=
  let valueSize := (htab.map.valueSize.toNat + 7) / 8 * 8
  let usage := 192 + 16 * htab.nBuckets.toNat
  if htabIsPrealloc htab then
    let numEntries := htab.map.maxEntries.toNat + if htabHasExtraElems htab then 4 else 0
    let usage := usage + htab.elemSize.toNat * numEntries
    if htabIsPercpu htab then usage + valueSize * 4 * numEntries
    else if ¬ htabIsLru htab then usage + 8 * 4
    else usage
  else
    let usage := usage + (htab.elemSize.toNat + 8) * n
    if htabIsPercpu htab then usage + (8 + 8) * n + valueSize * 4 * n
    else usage

/-- The fields of a table that the attributes of its creation give. -/
structure FromAttr (htab : BpfHtab) (attr : Attr) : Prop where
  mapType : htab.map.mapType = attr.mapType
  keySize : htab.map.keySize = attr.keySize
  valueSize : htab.map.valueSize = attr.valueSize
  maxEntries : htab.map.maxEntries = attr.maxEntries
  mapFlags : htab.map.mapFlags = attr.mapFlags

lemma passed {c : Prop} [Decidable c] {e r : ℤ} (he : -e ≠ 0)
    (h : (if c then -e else r) = 0) : ¬ c ∧ r = 0 := by
  by_cases hc : c
  · rw [if_pos hc] at h
    exact absurd h he
  · rw [if_neg hc] at h
    exact ⟨hc, h⟩

/-- What the check says of the sizes. -/
lemma alloc_accepted {attr : Attr} (h : htabMapAllocCheck attr = 0) :
    attr.keySize.toNat + attr.valueSize.toNat < 4194256 ∧
      (attr.mapType = mapTypePercpuHash ∨ attr.mapType = mapTypeLruPercpuHash →
        (roundUp attr.valueSize 8).toNat ≤ 32768) := by
  have hkey := attr.keySize.isLt
  have hvalue := attr.valueSize.isLt
  rw [htabMapAllocCheck] at h
  obtain ⟨-, h⟩ := passed (by decide) h
  obtain ⟨-, h⟩ := passed (by decide) h
  obtain ⟨-, h⟩ := passed (by decide) h
  obtain ⟨-, h⟩ := passed (by decide) h
  obtain ⟨-, h⟩ := passed (by decide) h
  obtain ⟨-, h⟩ := passed (by decide) h
  obtain ⟨hsize, h⟩ := passed (by decide) h
  obtain ⟨hunit, -⟩ := passed (by decide) h
  constructor
  · rw [ge_iff_le, BitVec.le_def, BitVec.toNat_add, BitVec.toNat_setWidth,
      BitVec.toNat_setWidth, show (kmallocMaxSize.setWidth 64 - sizeofHtabElem).toNat = 4194256
        from rfl] at hsize
    omega
  · intro hpercpu
    have hle := mt (And.intro hpercpu) hunit
    rwa [gt_iff_lt, BitVec.lt_def, not_lt] at hle

lemma toNat_roundUp {x : BitVec 32} (hx : x.toNat < 4194256) :
    (roundUp x 8).toNat = (x.toNat + 7) / 8 * 8 := by
  have hsum : (x + 8 - 1).toNat = x.toNat + 7 := by
    rw [BitVec.toNat_sub, BitVec.toNat_add, show (8 : BitVec 32).toNat = 8 from rfl,
      show (1 : BitVec 32).toNat = 1 from rfl]
    omega
  rw [roundUp, BitVec.toNat_mul, BitVec.toNat_udiv, hsum, show (8 : BitVec 32).toNat = 8 from rfl]
  omega

/-- The sizes of the values of one element, over the processors, fit in a `u32`. -/
lemma accepted_valueSize {attr : Attr} (h : htabMapAllocCheck attr = 0)
    (hattr : FromAttr htab attr) :
    (roundUp htab.map.valueSize 8).toNat = (htab.map.valueSize.toNat + 7) / 8 * 8 ∧
      (htabIsPercpu htab → (htab.map.valueSize.toNat + 7) / 8 * 8 * 4 ≤ 2 ^ 17) := by
  obtain ⟨hsize, hunit⟩ := alloc_accepted h
  have hround := toNat_roundUp (x := attr.valueSize) (by omega)
  rw [hattr.valueSize]
  refine ⟨hround, ?_⟩
  intro hpercpu
  rw [htabIsPercpu, decide_eq_true_iff, hattr.mapType] at hpercpu
  have hle := hunit hpercpu
  rw [hround] at hle
  omega

lemma toNat_valueSize_mul {v : ℕ} (hround : (roundUp htab.map.valueSize 8).toNat = v)
    (hle : v * 4 ≤ 2 ^ 17) :
    (roundUp htab.map.valueSize 8 * numPossibleCpus).toNat = v * 4 := by
  rw [BitVec.toNat_mul, hround, show numPossibleCpus.toNat = 4 from rfl]
  exact Nat.mod_eq_of_lt (by omega)

/-- In 64 bits the sum is the one of the natural numbers up to its size. -/
lemma memUsage_ofNat {n : ℕ} (hlive : liveEntries htab = BitVec.ofNat 64 n)
    (hvalue : htabIsPercpu htab → (roundUp htab.map.valueSize 8 * numPossibleCpus).toNat =
      (htab.map.valueSize.toNat + 7) / 8 * 8 * 4) :
    htabMapMemUsage htab = BitVec.ofNat 64 (memUsage htab n) := by
  have hwide : ∀ x : BitVec 32, x.setWidth 64 = BitVec.ofNat 64 x.toNat :=
    fun x => (BitVec.ofNat_toNat 64 x).symm
  have hextra : (if htabHasExtraElems htab then numPossibleCpus.setWidth 64 else 0) =
      BitVec.ofNat 64 (if htabHasExtraElems htab then 4 else 0) := by
    split_ifs
    · rfl
    · rfl
  have hhtab : sizeofHtab = BitVec.ofNat 64 192 := rfl
  have hbucket : sizeofBucket = BitVec.ofNat 64 16 := rfl
  have hnode : sizeofLlistNode = BitVec.ofNat 64 8 := rfl
  have hptr : sizeofPointer = BitVec.ofNat 64 8 := rfl
  have hcpus : numPossibleCpus.setWidth 64 = BitVec.ofNat 64 4 := rfl
  by_cases hprealloc : htabIsPrealloc htab
  · by_cases hpercpu : htabIsPercpu htab
    · simp only [htabMapMemUsage, memUsage, if_pos hprealloc, if_pos hpercpu, hextra]
      simp only [hwide, hvalue hpercpu, hhtab, hbucket, BitVec.ofNat_add, BitVec.ofNat_mul]
    · by_cases hlru : htabIsLru htab
      · simp only [htabMapMemUsage, memUsage, if_pos hprealloc, if_neg hpercpu, hextra, hlru,
          not_true, if_false]
        simp only [hwide, hhtab, hbucket, BitVec.ofNat_add, BitVec.ofNat_mul]
      · simp only [htabMapMemUsage, memUsage, if_pos hprealloc, if_neg hpercpu, hextra,
          if_pos hlru]
        simp only [hcpus, hptr, hwide, hhtab, hbucket, BitVec.ofNat_add, BitVec.ofNat_mul]
  · by_cases hpercpu : htabIsPercpu htab
    · simp only [htabMapMemUsage, memUsage, if_neg hprealloc, if_pos hpercpu, hlive]
      simp only [hwide, hvalue hpercpu, hhtab, hbucket, hnode, hptr, BitVec.ofNat_add,
        BitVec.ofNat_mul]
    · simp only [htabMapMemUsage, memUsage, if_neg hprealloc, if_neg hpercpu, hlive]
      simp only [hwide, hhtab, hbucket, hnode, BitVec.ofNat_add, BitVec.ofNat_mul]

lemma memUsage_lt {n : ℕ} (hn : n < 2 ^ 31) (helem : htab.elemSize.toNat < 2 ^ 23)
    (hbuckets : htab.nBuckets.toNat ≤ 2 ^ 31)
    (hvalue : htabIsPercpu htab → (htab.map.valueSize.toNat + 7) / 8 * 8 * 4 ≤ 2 ^ 17) :
    memUsage htab n < 2 ^ 64 := by
  have hmax := htab.map.maxEntries.isLt
  have hentries : htab.map.maxEntries.toNat + (if htabHasExtraElems htab then 4 else 0) ≤
      2 ^ 33 := by
    split_ifs
    · omega
    · omega
  simp only [memUsage]
  generalize htab.map.maxEntries.toNat + (if htabHasExtraElems htab then 4 else 0) = entries
    at hentries ⊢
  have helems := Nat.mul_le_mul helem.le hentries
  have hnodes := Nat.mul_le_mul (show htab.elemSize.toNat + 8 ≤ 2 ^ 24 by omega) hn.le
  split_ifs with hprealloc hpercpu hlru hpercpu
  · have hvalues := Nat.mul_le_mul (hvalue hpercpu) hentries
    omega
  · omega
  · omega
  · have hvalues := Nat.mul_le_mul (hvalue hpercpu) hn.le
    omega
  · omega

/-! ## The two modes -/

/-- The tables differ in `use_percpu_counter` at most. -/
def SameButMode (a b : BpfHtab) : Prop := ∃ percpu, b = { a with usePercpuCounter := percpu }

lemma memUsage_mode {a b : BpfHtab} (h : SameButMode a b) {k : ℕ} (hk : k < 2 ^ 31) :
    htabMapMemUsage (counted a k) = htabMapMemUsage (counted b k) := by
  obtain ⟨percpu, rfl⟩ := h
  simp only [htabMapMemUsage, liveEntries_counted hk]
  rfl

lemma memUsage_counted {attr : Attr} (hattr : FromAttr htab attr)
    (hcheck : htabMapAllocCheck attr = 0) (helem : htab.elemSize.toNat < 2 ^ 23)
    (hbuckets : htab.nBuckets.toNat ≤ 2 ^ 31) {k : ℕ} (hk : k < 2 ^ 31) :
    (htabMapMemUsage (counted htab k)).toNat = memUsage htab k := by
  obtain ⟨hround, hunit⟩ := accepted_valueSize hcheck hattr
  have hvalue : htabIsPercpu htab → (roundUp htab.map.valueSize 8 * numPossibleCpus).toNat =
      (htab.map.valueSize.toNat + 7) / 8 * 8 * 4 :=
    fun hpercpu => toNat_valueSize_mul hround (hunit hpercpu)
  have husage : htabMapMemUsage (counted htab k) = BitVec.ofNat 64 (memUsage htab k) :=
    memUsage_ofNat (liveEntries_counted hk) hvalue
  rw [husage, BitVec.toNat_ofNat, Nat.mod_eq_of_lt (memUsage_lt hk helem hbuckets hunit)]

/-- After every step of a common run the tables have counted the live elements, answer alike
whether they are full, and take the same memory. Where the attributes were accepted, no
intermediate of it wraps. -/
theorem element_accounting {a b : BpfHtab} (hsame : SameButMode a b) (hfresh : Fresh a)
    {ops : List Op} (hlive : ∀ done, done <+: ops → 0 ≤ live done ∧ live done < 2 ^ 31) :
    ∀ done, done <+: ops → ∃ n : ℕ, live done = n ∧
      (run a done).map.elemCount.toNat = n ∧ (run b done).map.elemCount.toNat = n ∧
      (isMapFull (run a done) = true ↔ a.map.maxEntries.toNat ≤ n) ∧
      (isMapFull (run b done) = true ↔ a.map.maxEntries.toNat ≤ n) ∧
      htabMapMemUsage (run a done) = htabMapMemUsage (run b done) ∧
      (∀ attr, FromAttr a attr → htabMapAllocCheck attr = 0 →
        a.elemSize.toNat < 2 ^ 23 → a.nBuckets.toNat ≤ 2 ^ 31 →
        (htabMapMemUsage (run a done)).toNat = memUsage a n ∧
        (roundUp a.map.valueSize 8).toNat = (a.map.valueSize.toNat + 7) / 8 * 8 ∧
        (htabIsPercpu a → (roundUp a.map.valueSize 8 * numPossibleCpus).toNat =
          (a.map.valueSize.toNat + 7) / 8 * 8 * 4)) := by
  intro done hdone
  obtain ⟨hnonneg, hlt⟩ := hlive done hdone
  obtain ⟨n, hn⟩ := Int.eq_ofNat_of_zero_le hnonneg
  have hk : n < 2 ^ 31 := by omega
  have hfresh' : Fresh b := by
    obtain ⟨percpu, rfl⟩ := hsame
    exact ⟨hfresh.elemCount, hfresh.pcount, hfresh.count⟩
  have hmax : b.map.maxEntries = a.map.maxEntries := by
    obtain ⟨percpu, rfl⟩ := hsame
    rfl
  rw [run_fresh hfresh, run_fresh hfresh', hn]
  refine ⟨n, rfl, elemCount_counted hk, elemCount_counted hk, isMapFull_counted hk, ?_,
    memUsage_mode hsame hk, ?_⟩
  · rw [isMapFull_counted hk, hmax]
  · intro attr hattr hcheck helem hbuckets
    obtain ⟨hround, hunit⟩ := accepted_valueSize hcheck hattr
    exact ⟨memUsage_counted hattr hcheck helem hbuckets hk, hround,
      fun hpercpu => toNat_valueSize_mul hround (hunit hpercpu)⟩

/-- A per-CPU hash without preallocated elements. -/
def sparse (percpu : Bool) : BpfHtab where
  map := ⟨mapTypePercpuHash, 4, 5, 2, bpfFNoPrealloc, 0⟩
  pcount := 0
  count := 0
  usePercpuCounter := percpu
  nBuckets := 4
  elemSize := 32

theorem element_accounting_sparse :
    isMapFull (run (sparse true) [.inc, .inc]) = true ∧
      isMapFull (run (sparse false) [.inc, .inc]) = true ∧
      (htabMapMemUsage (run (sparse true) [.inc, .inc])).toNat = 432 := by
  have hlive : ∀ done, done <+: [Op.inc, .inc] → 0 ≤ live done ∧ live done < 2 ^ 31 := by
    have hinits : ∀ done ∈ [Op.inc, .inc].inits, 0 ≤ live done ∧ live done < 2 ^ 31 := by
      decide
    intro done hdone
    exact hinits done ((List.mem_inits done _).mpr hdone)
  obtain ⟨n, hn, -, -, hfull, hfull', -, husage⟩ := element_accounting
    (a := sparse true) (b := sparse false) ⟨false, rfl⟩ ⟨rfl, rfl, rfl⟩ hlive _ List.prefix_rfl
  obtain rfl : n = 2 := by
    have htwo : live [Op.inc, .inc] = 2 := rfl
    omega
  refine ⟨hfull.mpr (by decide), hfull'.mpr (by decide), ?_⟩
  exact (husage ⟨mapTypePercpuHash, 4, 5, 2, bpfFNoPrealloc, 0⟩ ⟨rfl, rfl, rfl, rfl, rfl⟩ rfl
    (by decide) (by decide)).1

end BpfVerify.HashTab
