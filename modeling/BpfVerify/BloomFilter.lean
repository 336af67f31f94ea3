import Mathlib

/-!
# The bloom filter

`shims/kernel/bpf/bloom_filter.c`: a bitset of four 64-bit words, written and read at the
positions that a family of hash functions gives a value. The bitset is also the set of its
positions; over a history of calls it is the union of the positions of the values pushed.
-/
namespace BpfVerify.BloomFilter

/-- The bytes behind the `void *value`. -/
abbrev Value := List (BitVec 8)

/-- `jhash` and `jhash2` of the kernel: a value, its length (in bytes, in words) and a seed. -/
structure HashFamily where
  jhash : Value → BitVec 32 → BitVec 32 → BitVec 32
  jhash2 : Value → BitVec 32 → BitVec 32 → BitVec 32

abbrev Bitset := Fin 4 → BitVec 64

structure BpfBloomFilter where
  /-- `map.value_size`. -/
  valueSize : BitVec 32
  bitsetMask : BitVec 32
  hashSeed : BitVec 32
  nrHashFuncs : BitVec 32
  bitset : Bitset

def bpfAny : BitVec 64 := 0

def enoent : ℤ := 2

def einval : ℤ := 22

def bloomBitsetBits : BitVec 32 := 256

def bloomFilterInit (valueSize nrHashFuncs seed : BitVec 32) : BpfBloomFilter where
  valueSize := valueSize
  bitsetMask := bloomBitsetBits - 1
  hashSeed := seed
  nrHashFuncs := nrHashFuncs
  bitset := fun _ => 0

/-- `(bit >> 6) & 3`. -/
def word (bit : BitVec 32) : Fin 4 :=
  ⟨((bit >>> 6) &&& 3#32).toNat, by
    rw [BitVec.toNat_and]
    exact Nat.lt_of_le_of_lt Nat.and_le_right (by decide)⟩

/-- `1ULL << (bit & 63)`. -/
def mask (bit : BitVec 32) : BitVec 64 := 1#64 <<< (bit &&& 63#32).toNat

def bloomTestBit (bitset : Bitset) (bit : BitVec 32) : Bool :=
  bitset (word bit) &&& mask bit != 0

def bloomSetBit (bitset : Bitset) (bit : BitVec 32) : Bitset :=
  Function.update bitset (word bit) (bitset (word bit) ||| mask bit)

section Calls

variable (hash : HashFamily)

def bloomHash (bloom : BpfBloomFilter) (value : Value) (valueSize index : BitVec 32) : BitVec 32 :=
  let h :=
    if valueSize % 4 = 0 then hash.jhash2 value (valueSize / 4) (bloom.hashSeed + index)
    else hash.jhash value valueSize (bloom.hashSeed + index)
  h &&& bloom.bitsetMask

/-- The loop of `bloom_map_peek_elem` from `i` on. -/
def peekLoop (bloom : BpfBloomFilter) (value : Value) (i : BitVec 32) : ℤ :=
  if i < bloom.nrHashFuncs then
    let h := bloomHash hash bloom value bloom.valueSize i
    if !bloomTestBit bloom.bitset h then -enoent
    else peekLoop bloom value (i + 1)
  else 0
termination_by bloom.nrHashFuncs.toNat - i.toNat
decreasing_by bv_omega

def bloomMapPeekElem (bloom : BpfBloomFilter) (value : Value) : ℤ := peekLoop hash bloom value 0

/-- The loop of `bloom_map_push_elem` from `i` on. -/
def pushLoop (bloom : BpfBloomFilter) (value : Value) (i : BitVec 32) : BpfBloomFilter :=
  if i < bloom.nrHashFuncs then
    let h := bloomHash hash bloom value bloom.valueSize i
    pushLoop { bloom with bitset := bloomSetBit bloom.bitset h } value (i + 1)
  else bloom
termination_by bloom.nrHashFuncs.toNat - i.toNat
decreasing_by bv_omega

def bloomMapPushElem (bloom : BpfBloomFilter) (value : Value) (flags : BitVec 64) :
    ℤ × BpfBloomFilter :=
  if flags ≠ bpfAny then (-einval, bloom)
  else (0, pushLoop hash bloom value 0)

inductive Op where
  | push (value : Value) (flags : BitVec 64)
  | peek (value : Value)

def exec (bloom : BpfBloomFilter) : Op → ℤ × BpfBloomFilter
  | .push value flags => bloomMapPushElem hash bloom value flags
  | .peek value => (bloomMapPeekElem hash bloom value, bloom)

/-- The filter after a sequence of calls. -/
def execAll (bloom : BpfBloomFilter) (ops : List Op) : BpfBloomFilter :=
  ops.foldl (fun b op => (exec hash b op).2) bloom

end Calls

/-! ## The bitset as a set of positions -/

/-- The position that a `bit` argument stands for. -/
def position (bit : BitVec 32) : Fin 256 := ⟨bit.toNat % 256, Nat.mod_lt _ (by decide)⟩

def bits (bitset : Bitset) : Set (Fin 256) :=
  {p | (bitset ⟨p / 64, by omega⟩).getLsbD (p % 64) = true}

lemma mem_bits {bitset : Bitset} {p : Fin 256} :
    p ∈ bits bitset ↔ (bitset ⟨p / 64, by omega⟩).getLsbD (p % 64) = true := Iff.rfl

lemma word_eq (bit : BitVec 32) : word bit = ⟨position bit / 64, by omega⟩ := by
  have hand : bit.toNat / 64 &&& 3 = bit.toNat / 64 % 4 := Nat.and_two_pow_sub_one_eq_mod _ 2
  apply Fin.ext
  simp only [word, position, BitVec.toNat_and, BitVec.toNat_ushiftRight, BitVec.toNat_ofNat,
    Nat.shiftRight_eq_div_pow, Nat.reducePow, Nat.reduceMod, hand]
  omega

lemma getLsbD_mask (bit : BitVec 32) {k : ℕ} (hk : k < 64) :
    (mask bit).getLsbD k = decide (k = position bit % 64) := by
  have hand : bit.toNat &&& 63 = bit.toNat % 64 := Nat.and_two_pow_sub_one_eq_mod _ 6
  have hoff : (bit &&& 63#32).toNat = (position bit : ℕ) % 64 := by
    simp only [position, BitVec.toNat_and, BitVec.toNat_ofNat, Nat.reducePow, Nat.reduceMod, hand]
    omega
  rw [mask, hoff, BitVec.getLsbD_shiftLeft, BitVec.getLsbD_one]
  by_cases h : k = (position bit : ℕ) % 64
  · simp [← h, hk]
  · simp [h, hk]
    omega

lemma bloomTestBit_iff (bitset : Bitset) (bit : BitVec 32) :
    bloomTestBit bitset bit = true ↔ position bit ∈ bits bitset := by
  have hlt : (position bit : ℕ) % 64 < 64 := Nat.mod_lt _ (by decide)
  rw [bloomTestBit, bne_iff_ne, mem_bits, word_eq]
  constructor
  · intro hne
    by_contra hbit
    apply hne
    apply BitVec.eq_of_getLsbD_eq
    intro k hk
    rw [BitVec.getLsbD_and, getLsbD_mask bit hk, BitVec.ofNat_eq_ofNat, BitVec.getLsbD_zero]
    by_cases h : k = (position bit : ℕ) % 64
    · simpa [h] using hbit
    · simp [h]
  · intro hbit hzero
    have h := congrArg (fun x => BitVec.getLsbD x ((position bit : ℕ) % 64)) hzero
    simp [BitVec.getLsbD_and, getLsbD_mask bit hlt, hbit] at h

/-- Or-ing the mask into its word adds one position. -/
lemma bits_bloomSetBit (bitset : Bitset) (bit : BitVec 32) :
    bits (bloomSetBit bitset bit) = insert (position bit) (bits bitset) := by
  ext p
  have hlt : (p : ℕ) % 64 < 64 := Nat.mod_lt _ (by decide)
  rw [Set.mem_insert_iff, mem_bits, mem_bits, bloomSetBit, word_eq]
  by_cases hw : (p : ℕ) / 64 = (position bit : ℕ) / 64
  · have hp : (p : ℕ) % 64 = (position bit : ℕ) % 64 ↔ p = position bit := by
      rw [Fin.ext_iff]
      omega
    simp only [hw, Function.update_self, BitVec.getLsbD_or, getLsbD_mask bit hlt, Bool.or_eq_true,
      decide_eq_true_eq, hp]
    exact or_comm
  · have hne : p ≠ position bit := fun h => hw (by rw [h])
    rw [Function.update_of_ne (by simpa using hw)]
    simp [hne]

lemma bits_injective : Function.Injective bits := by
  intro b b' h
  funext w
  apply BitVec.eq_of_getLsbD_eq
  intro k hk
  have hp := Set.ext_iff.mp h ⟨64 * w + k, by omega⟩
  have hdiv : (64 * (w : ℕ) + k) / 64 = w := by omega
  have hmod : (64 * (w : ℕ) + k) % 64 = k := by omega
  simp only [mem_bits, hdiv, hmod, Fin.eta] at hp
  exact Bool.eq_iff_iff.mpr hp

/-! ## Histories -/

section Histories

variable (hash : HashFamily)

/-- The positions of a value, one for each hash function. -/
def positions (bloom : BpfBloomFilter) (value : Value) : Set (Fin 256) :=
  {p | ∃ i < bloom.nrHashFuncs, p = position (bloomHash hash bloom value bloom.valueSize i)}

lemma peekLoop_eq (bloom : BpfBloomFilter) (value : Value) (i : BitVec 32) :
    (peekLoop hash bloom value i = 0 ↔ ∀ j, i ≤ j → j < bloom.nrHashFuncs →
      position (bloomHash hash bloom value bloom.valueSize j) ∈ bits bloom.bitset) ∧
    (peekLoop hash bloom value i = 0 ∨ peekLoop hash bloom value i = -enoent) := by
  induction i using peekLoop.induct hash bloom value with
  | case1 i hlt h hclear =>
    rw [peekLoop, if_pos hlt, if_pos hclear]
    refine ⟨?_, .inr rfl⟩
    have habsent : ¬ position h ∈ bits bloom.bitset := by
      rw [← bloomTestBit_iff]
      simpa using hclear
    constructor
    · intro h0
      exact absurd h0 (by decide)
    · intro hall
      exact absurd (hall i (BitVec.le_refl i) hlt) habsent
  | case2 i hlt h hset ih =>
    rw [peekLoop, if_pos hlt, if_neg hset]
    refine ⟨?_, ih.2⟩
    have hpresent : position h ∈ bits bloom.bitset := by
      rw [← bloomTestBit_iff]
      simpa using hset
    rw [ih.1]
    constructor
    · intro hall j hij hj
      by_cases he : j = i
      · rw [he]
        exact hpresent
      · exact hall j (by bv_omega) hj
    · intro hall j hij hj
      exact hall j (by bv_omega) hj
  | case3 i hge =>
    rw [peekLoop, if_neg hge]
    refine ⟨?_, .inl rfl⟩
    simp only [true_iff]
    intro j hij hj
    exact absurd (show i < bloom.nrHashFuncs by bv_omega) hge

/-- A value is present iff all its positions are. -/
lemma bloomMapPeekElem_iff (bloom : BpfBloomFilter) (value : Value) :
    bloomMapPeekElem hash bloom value = 0 ↔ positions hash bloom value ⊆ bits bloom.bitset := by
  rw [bloomMapPeekElem, (peekLoop_eq hash bloom value 0).1]
  constructor
  · intro hall p hp
    obtain ⟨i, hi, rfl⟩ := hp
    exact hall i (by bv_omega) hi
  · intro hsub j _ hj
    exact hsub ⟨j, hj, rfl⟩

lemma pushLoop_eq (bloom : BpfBloomFilter) (value : Value) (i : BitVec 32) :
    ∃ b, pushLoop hash bloom value i = { bloom with bitset := b } ∧
      bits b = bits bloom.bitset ∪ {p | ∃ j, i ≤ j ∧ j < bloom.nrHashFuncs ∧
        p = position (bloomHash hash bloom value bloom.valueSize j)} := by
  induction bloom, i using pushLoop.induct hash value with
  | case1 bloom i hlt h ih =>
    obtain ⟨b, hb, hbits⟩ := ih
    rw [pushLoop, if_pos hlt]
    refine ⟨b, hb, ?_⟩
    rw [hbits, bits_bloomSetBit]
    ext p
    constructor
    · intro hp
      cases hp with
      | inl hold =>
        cases hold with
        | inl hnew => exact .inr ⟨i, BitVec.le_refl i, hlt, hnew⟩
        | inr hold => exact .inl hold
      | inr hlater =>
        obtain ⟨j, hij, hj, hp⟩ := hlater
        exact .inr ⟨j, by bv_omega, hj, hp⟩
    · intro hp
      cases hp with
      | inl hold => exact .inl (.inr hold)
      | inr hlater =>
        obtain ⟨j, hij, hj, hp⟩ := hlater
        by_cases he : j = i
        · exact .inl (.inl (by rw [hp, he]))
        · exact .inr ⟨j, by bv_omega, hj, hp⟩
  | case2 bloom i hge =>
    rw [pushLoop, if_neg hge]
    refine ⟨bloom.bitset, rfl, ?_⟩
    have hempty : {p | ∃ j, i ≤ j ∧ j < bloom.nrHashFuncs ∧
        p = position (bloomHash hash bloom value bloom.valueSize j)} = ∅ := by
      ext p
      constructor
      · intro hp
        obtain ⟨j, hij, hj, -⟩ := hp
        exact absurd (show i < bloom.nrHashFuncs by bv_omega) hge
      · exact fun hp => absurd hp (Set.notMem_empty p)
    rw [hempty, Set.union_empty]

/-- A push with `BPF_ANY` adds the positions of its value. -/
lemma bloomMapPushElem_any (bloom : BpfBloomFilter) (value : Value) :
    ∃ b, bloomMapPushElem hash bloom value bpfAny = (0, { bloom with bitset := b }) ∧
      bits b = bits bloom.bitset ∪ positions hash bloom value := by
  obtain ⟨b, hb, hbits⟩ := pushLoop_eq hash bloom value 0
  refine ⟨b, ?_, ?_⟩
  · rw [bloomMapPushElem, if_neg (not_not_intro rfl), hb]
  · rw [hbits]
    congr 1
    ext p
    constructor
    · intro hp
      obtain ⟨j, -, hj, hp⟩ := hp
      exact ⟨j, hj, hp⟩
    · intro hp
      obtain ⟨j, hj, hp⟩ := hp
      exact ⟨j, by bv_omega, hj, hp⟩

lemma bloomMapPushElem_other (bloom : BpfBloomFilter) (value : Value) {flags : BitVec 64}
    (h : flags ≠ bpfAny) : bloomMapPushElem hash bloom value flags = (-einval, bloom) := by
  rw [bloomMapPushElem, if_pos h]

/-- The values pushed with `BPF_ANY`. -/
def pushed (ops : List Op) : Set Value := {v | Op.push v bpfAny ∈ ops}

/-- One call adds the positions of the value it pushes. -/
lemma exec_bits (bloom : BpfBloomFilter) (op : Op) :
    ∃ b, (exec hash bloom op).2 = { bloom with bitset := b } ∧
      bits b = bits bloom.bitset ∪ ⋃ v ∈ pushed [op], positions hash bloom v := by
  cases op with
  | push value flags =>
    by_cases h : flags = bpfAny
    · subst h
      obtain ⟨b, hb, hbits⟩ := bloomMapPushElem_any hash bloom value
      refine ⟨b, by rw [exec, hb], ?_⟩
      have hpushed : pushed [.push value bpfAny] = {value} := by
        ext v
        simp [pushed]
      rw [hbits, hpushed, Set.biUnion_singleton]
    · refine ⟨bloom.bitset, by rw [exec, bloomMapPushElem_other hash bloom value h], ?_⟩
      have hpushed : pushed [.push value flags] = ∅ := by
        ext v
        simp [pushed, Ne.symm h]
      rw [hpushed, Set.biUnion_empty, Set.union_empty]
  | peek value =>
    refine ⟨bloom.bitset, rfl, ?_⟩
    have hpushed : pushed [.peek value] = ∅ := by
      ext v
      simp [pushed]
    rw [hpushed, Set.biUnion_empty, Set.union_empty]

/-- The bitset of a history is the union of the positions of the values pushed. -/
lemma execAll_bits (bloom : BpfBloomFilter) (ops : List Op) :
    ∃ b, execAll hash bloom ops = { bloom with bitset := b } ∧
      bits b = bits bloom.bitset ∪ ⋃ v ∈ pushed ops, positions hash bloom v := by
  induction ops generalizing bloom with
  | nil =>
    refine ⟨bloom.bitset, rfl, ?_⟩
    simp [pushed]
  | cons op ops ih =>
    obtain ⟨b, hb, hbits⟩ := exec_bits hash bloom op
    obtain ⟨b', hb', hbits'⟩ := ih { bloom with bitset := b }
    refine ⟨b', ?_, ?_⟩
    · rw [execAll, List.foldl_cons, hb]
      exact hb'
    · have hpushed : pushed (op :: ops) = pushed [op] ∪ pushed ops := by
        ext v
        simp [pushed]
      rw [hbits', hbits, hpushed, Set.biUnion_union, Set.union_assoc]
      rfl

lemma bits_init (valueSize nrHashFuncs seed : BitVec 32) :
    bits (bloomFilterInit valueSize nrHashFuncs seed).bitset = ∅ := by
  ext p
  simp [mem_bits, bloomFilterInit]

/-- Masked hashes that stand for the same position are equal. -/
lemma position_injOn {x y : BitVec 32} (h : position (x &&& 255#32) = position (y &&& 255#32)) :
    x &&& 255#32 = y &&& 255#32 := by
  have hx : (x &&& 255#32).toNat < 256 := Nat.lt_of_le_of_lt Nat.and_le_right (by decide)
  have hy : (y &&& 255#32).toNat < 256 := Nat.lt_of_le_of_lt Nat.and_le_right (by decide)
  have h := Fin.mk.inj h
  rw [Nat.mod_eq_of_lt hx, Nat.mod_eq_of_lt hy] at h
  exact BitVec.eq_of_toNat_eq h

/-- What holds after the calls `ops` on a filter made by `bloom_filter_init`. -/
structure Contract (valueSize nrHashFuncs seed : BitVec 32) (ops : List Op)
    (bloom : BpfBloomFilter) : Prop where
  /-- No false negatives. -/
  present : ∀ v ∈ pushed ops, bloomMapPeekElem hash bloom v = 0
  accepted : ∀ v, (bloomMapPushElem hash bloom v bpfAny).1 = 0
  rejected : ∀ v flags, flags ≠ bpfAny → exec hash bloom (.push v flags) = (-einval, bloom)
  peek_pure : ∀ v, (exec hash bloom (.peek v)).2 = bloom
  determined : ∀ ops', pushed ops' = pushed ops →
    (execAll hash (bloomFilterInit valueSize nrHashFuncs seed) ops').bitset = bloom.bitset
  present_iff : ∀ v, bloomMapPeekElem hash bloom v = 0 ↔
    ∀ i < nrHashFuncs, ∃ w ∈ pushed ops, ∃ j < nrHashFuncs,
      bloomHash hash bloom w valueSize j = bloomHash hash bloom v valueSize i
  absent : ∀ v, bloomMapPeekElem hash bloom v ≠ 0 → bloomMapPeekElem hash bloom v = -enoent

/-- Every history of calls keeps the contract. -/
theorem run_contract (valueSize nrHashFuncs seed : BitVec 32) (ops : List Op) :
    Contract hash valueSize nrHashFuncs seed ops
      (execAll hash (bloomFilterInit valueSize nrHashFuncs seed) ops) := by
  obtain ⟨b, hb, hbits⟩ := execAll_bits hash (bloomFilterInit valueSize nrHashFuncs seed) ops
  rw [bits_init, Set.empty_union] at hbits
  -- whether a value is present, in terms of positions
  have hpeek (v : Value) : bloomMapPeekElem hash
      (execAll hash (bloomFilterInit valueSize nrHashFuncs seed) ops) v = 0 ↔
      positions hash (bloomFilterInit valueSize nrHashFuncs seed) v ⊆
        ⋃ w ∈ pushed ops, positions hash (bloomFilterInit valueSize nrHashFuncs seed) w := by
    rw [bloomMapPeekElem_iff, hb, ← hbits]
    rfl
  constructor
  case present =>
    intro v hv
    rw [hpeek]
    exact Set.subset_biUnion_of_mem hv
  case accepted =>
    intro v
    obtain ⟨b', hb', -⟩ := bloomMapPushElem_any hash
      (execAll hash (bloomFilterInit valueSize nrHashFuncs seed) ops) v
    rw [hb']
  case rejected =>
    intro v flags hflags
    exact bloomMapPushElem_other hash _ v hflags
  case peek_pure => exact fun v => rfl
  case determined =>
    intro ops' hpushed
    obtain ⟨b', hb', hbits'⟩ := execAll_bits hash (bloomFilterInit valueSize nrHashFuncs seed) ops'
    rw [bits_init, Set.empty_union, hpushed, ← hbits] at hbits'
    rw [hb, hb', bits_injective hbits']
  case present_iff =>
    intro v
    rw [hpeek, hb]
    constructor
    · intro hsub i hi
      obtain ⟨w, hw, j, hj, hp⟩ := Set.mem_iUnion₂.mp (hsub ⟨i, hi, rfl⟩)
      exact ⟨w, hw, j, hj, (position_injOn hp).symm⟩
    · intro hall p hp
      obtain ⟨i, hi, rfl⟩ := hp
      obtain ⟨w, hw, j, hj, heq⟩ := hall i hi
      exact Set.mem_iUnion₂.mpr ⟨w, hw, j, hj, congrArg position heq.symm⟩
  case absent =>
    intro v hne
    exact (peekLoop_eq hash _ v 0).2.resolve_left hne

end Histories

end BpfVerify.BloomFilter
