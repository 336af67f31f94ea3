import BpfVerify.WordSet

/-!
# Words with free bits

A word and a mask stand for the words that agree with it outside the mask, where the bits are
free. Inside the mask the word itself has no bits set.
-/
namespace FreeBits

variable {w : ℕ}

/-- The words with the bits of `v` outside the mask `m`. -/
def agreeing (v m : BitVec w) : Set (BitVec w) := {z | z &&& ~~~m = v}

@[simp] lemma mem_agreeing {v m z : BitVec w} : z ∈ agreeing v m ↔ z &&& ~~~m = v := Iff.rfl

lemma mem_iff_bits {v m z : BitVec w} :
    z ∈ agreeing v m ↔ ∀ i < w, (z.getLsbD i && !m.getLsbD i) = v.getLsbD i := by
  rw [mem_agreeing, BitVec.eq_of_getLsbD_eq_iff]
  refine forall₂_congr fun i hi => ?_
  rw [BitVec.getLsbD_and, BitVec.getLsbD_not, decide_eq_true hi, Bool.true_and]

lemma disjoint_iff_bits {v m : BitVec w} :
    v &&& m = 0 ↔ ∀ i < w, (v.getLsbD i && m.getLsbD i) = false := by
  rw [BitVec.eq_of_getLsbD_eq_iff]
  refine forall₂_congr fun i hi => ?_
  rw [BitVec.getLsbD_and, BitVec.ofNat_eq_ofNat, BitVec.getLsbD_zero]

/-- Free bits may be chosen. -/
lemma or_mem {v m : BitVec w} (h : v &&& m = 0) (x : BitVec w) : v ||| x &&& m ∈ agreeing v m := by
  rw [disjoint_iff_bits] at h
  rw [mem_iff_bits]
  intro i hi
  have hi' := h i hi
  rw [BitVec.getLsbD_or, BitVec.getLsbD_and]
  cases hv : v.getLsbD i with
  | true => simpa [hv] using hi'
  | false => simp

lemma self_mem {v m : BitVec w} (h : v &&& m = 0) : v ∈ agreeing v m := by
  have hmem := or_mem h 0
  simpa using hmem

/-- Fewer words agree where fewer bits are free and the others are the same. -/
theorem subset_iff {v m v' m' : BitVec w} (h : v' &&& m' = 0) :
    agreeing v' m' ⊆ agreeing v m ↔ m' &&& ~~~m = 0 ∧ v' &&& ~~~m = v := by
  constructor
  · intro hsub
    have hlow := hsub (self_mem h)
    have hhigh := hsub (or_mem h (BitVec.allOnes w))
    refine ⟨?_, hlow⟩
    rw [mem_iff_bits] at hlow hhigh
    rw [disjoint_iff_bits] at h ⊢
    intro i hi
    have hli := hlow i hi
    have hhi := hhigh i hi
    have hdi := h i hi
    rw [← hli, BitVec.getLsbD_or, BitVec.getLsbD_and, BitVec.getLsbD_allOnes,
      decide_eq_true hi] at hhi
    rw [BitVec.getLsbD_not, decide_eq_true hi]
    cases hv : v'.getLsbD i with
    | true => simp_all
    | false => simpa [hv] using hhi
  · rintro ⟨hmask, rfl⟩ z hz
    rw [disjoint_iff_bits] at hmask
    rw [mem_iff_bits] at hz ⊢
    intro i hi
    have hmi := hmask i hi
    rw [BitVec.getLsbD_not, decide_eq_true hi] at hmi
    rw [BitVec.getLsbD_and, BitVec.getLsbD_not, decide_eq_true hi, ← hz i hi]
    revert hmi
    cases z.getLsbD i <;> cases m'.getLsbD i <;> cases m.getLsbD i <;> simp

/-- One word alone agrees where no bit is free. -/
theorem eq_singleton_iff {v m x : BitVec w} (h : v &&& m = 0) :
    agreeing v m = {x} ↔ m = 0 ∧ v = x := by
  constructor
  · intro heq
    have hx : v = x := by simpa [heq] using self_mem h
    have hones : v ||| BitVec.allOnes w &&& m = x := by simpa [heq] using or_mem h (BitVec.allOnes w)
    refine ⟨?_, hx⟩
    rw [disjoint_iff_bits] at h
    apply BitVec.eq_of_getLsbD_eq
    intro i hi
    have hbit := congrArg (fun y => y.getLsbD i) (hones.trans hx.symm)
    have hdi := h i hi
    simp only [BitVec.getLsbD_or, BitVec.getLsbD_and, BitVec.getLsbD_allOnes,
      decide_eq_true hi] at hbit
    rw [BitVec.ofNat_eq_ofNat, BitVec.getLsbD_zero]
    cases hv : v.getLsbD i with
    | true => simpa [hv] using hdi
    | false => simpa [hv] using hbit
  · rintro ⟨rfl, rfl⟩
    ext z
    simp

/-- The words that agree, cut down to the bits of `k`. -/
theorem image_and {v m : BitVec w} (h : v &&& m = 0) (k : BitVec w) :
    (fun z => z &&& k) '' agreeing v m = agreeing (v &&& k) (m &&& k) := by
  ext y
  constructor
  · rintro ⟨z, hz, rfl⟩
    rw [mem_iff_bits] at hz ⊢
    intro i hi
    simp only [BitVec.getLsbD_and, ← hz i hi]
    cases z.getLsbD i <;> cases m.getLsbD i <;> cases k.getLsbD i <;> rfl
  · intro hy
    refine ⟨v ||| y &&& m, or_mem h y, ?_⟩
    rw [disjoint_iff_bits] at h
    rw [mem_iff_bits] at hy
    apply BitVec.eq_of_getLsbD_eq
    intro i hi
    have hdi := h i hi
    have hyi := hy i hi
    simp only [BitVec.getLsbD_and, BitVec.getLsbD_or] at hyi ⊢
    revert hdi hyi
    cases v.getLsbD i <;> cases m.getLsbD i <;> cases k.getLsbD i <;> cases y.getLsbD i <;> simp

/-- What agrees within the bits of `k` has no bits outside. -/
lemma disjoint_and {v m : BitVec w} (h : v &&& m = 0) (k : BitVec w) :
    (v &&& k) &&& (m &&& k) = 0 := by
  rw [disjoint_iff_bits] at h ⊢
  intro i hi
  have hdi := h i hi
  rw [BitVec.getLsbD_and, BitVec.getLsbD_and]
  cases hv : v.getLsbD i with
  | true => simp_all
  | false => simp

/-! ## Listing the words -/

/-- `v` with the bits of `s` at the positions `pos 0`, ..., `pos (n - 1)`. -/
def spread (v : BitVec w) (pos : ℕ → ℕ) (n s : ℕ) : BitVec w :=
  (List.range n).foldl (fun z b => if s.testBit b then z ||| 1#w <<< pos b else z) v

lemma spread_succ (v : BitVec w) (pos : ℕ → ℕ) (n s : ℕ) : spread v pos (n + 1) s =
    if s.testBit n then spread v pos n s ||| 1#w <<< pos n else spread v pos n s := by
  rw [spread, List.range_succ, List.foldl_append]
  rfl

lemma getLsbD_one_shiftLeft {i : ℕ} (hi : i < w) (p : ℕ) :
    (1#w <<< p).getLsbD i = decide (i = p) := by
  rw [BitVec.getLsbD_shiftLeft, decide_eq_true hi, BitVec.getLsbD_one,
    decide_eq_true (show 0 < w by omega), Bool.true_and, Bool.true_and]
  by_cases h : i = p
  · simp [h]
  · by_cases hlt : i < p
    · simp [hlt, h]
    · simp only [hlt, h, decide_false, Bool.not_false, Bool.true_and, decide_eq_false_iff_not]
      omega

lemma getLsbD_spread (v : BitVec w) (pos : ℕ → ℕ) (n s : ℕ) {i : ℕ} (hi : i < w) :
    (spread v pos n s).getLsbD i = true ↔
      v.getLsbD i = true ∨ ∃ b < n, pos b = i ∧ s.testBit b = true := by
  induction n with
  | zero => simp [spread]
  | succ n ih =>
    rw [spread_succ]
    by_cases hs : s.testBit n = true
    · rw [if_pos hs, BitVec.getLsbD_or, Bool.or_eq_true, ih, getLsbD_one_shiftLeft hi,
        decide_eq_true_eq, or_assoc]
      refine or_congr_right ?_
      constructor
      · rintro (⟨b, hb, hpos, hbit⟩ | rfl)
        · exact ⟨b, by omega, hpos, hbit⟩
        · exact ⟨n, by omega, rfl, hs⟩
      · rintro ⟨b, hb, hpos, hbit⟩
        by_cases hbn : b = n
        · exact .inr (hbn ▸ hpos.symm)
        · exact .inl ⟨b, by omega, hpos, hbit⟩
    · rw [if_neg hs, ih]
      refine or_congr_right ?_
      constructor
      · rintro ⟨b, hb, hpos, hbit⟩
        exact ⟨b, by omega, hpos, hbit⟩
      · rintro ⟨b, hb, hpos, hbit⟩
        by_cases hbn : b = n
        · exact absurd (hbn ▸ hbit) hs
        · exact ⟨b, by omega, hpos, hbit⟩

/-- The positions `pos 0`, ..., `pos (n - 1)` are those of the mask `m`, each once. -/
structure Positions (m : BitVec w) (pos : ℕ → ℕ) (n : ℕ) : Prop where
  inj : ∀ b < n, ∀ b' < n, pos b = pos b' → b = b'
  lt : ∀ b < n, pos b < w
  bit : ∀ i < w, m.getLsbD i = true ↔ ∃ b < n, pos b = i

variable {v m : BitVec w} {pos : ℕ → ℕ} {n : ℕ}

lemma Positions.spread_mem (hpos : Positions m pos n) (h : v &&& m = 0) (s : ℕ) :
    spread v pos n s ∈ agreeing v m := by
  rw [disjoint_iff_bits] at h
  rw [mem_iff_bits]
  intro i hi
  rw [Bool.eq_iff_iff, Bool.and_eq_true, getLsbD_spread v pos n s hi, Bool.not_eq_true',
    ← Bool.not_eq_true, hpos.bit i hi]
  constructor
  · rintro ⟨hv | ⟨b, hb, hpb, -⟩, hnone⟩
    · exact hv
    · exact absurd ⟨b, hb, hpb⟩ hnone
  · intro hv
    refine ⟨.inl hv, ?_⟩
    rw [← hpos.bit i hi]
    intro hm
    simpa [hv, hm] using h i hi

/-- Inside the mask the bits are those of `s`. -/
lemma Positions.testBit (hpos : Positions m pos n) (h : v &&& m = 0) (s : ℕ) {b : ℕ} (hb : b < n) :
    (spread v pos n s).getLsbD (pos b) = s.testBit b := by
  rw [disjoint_iff_bits] at h
  have hlt := hpos.lt b hb
  have hm := (hpos.bit _ hlt).mpr ⟨b, hb, rfl⟩
  rw [Bool.eq_iff_iff, getLsbD_spread v pos n s hlt]
  constructor
  · rintro (hv | ⟨b', hb', heq, hbit⟩)
    · simpa [hv, hm] using h _ hlt
    · exact hpos.inj b' hb' b hb heq ▸ hbit
  · exact fun hbit => .inr ⟨b, hb, rfl, hbit⟩

/-- The `2 ^ n` choices of the free bits are the words that agree, each of them once. -/
theorem Positions.list_agreeing (hpos : Positions m pos n) (h : v &&& m = 0) :
    ((List.range (2 ^ n)).map (spread v pos n)).Nodup ∧
      ∀ z, z ∈ (List.range (2 ^ n)).map (spread v pos n) ↔ z ∈ agreeing v m := by
  constructor
  · apply List.Nodup.map_on _ List.nodup_range
    intro s hs s' hs' heq
    apply Nat.eq_of_testBit_eq
    intro b
    by_cases hb : b < n
    · rw [← hpos.testBit h s hb, heq, hpos.testBit h s' hb]
    · have hle : 2 ^ n ≤ 2 ^ b := Nat.pow_le_pow_right (by decide) (by omega)
      rw [Nat.testBit_lt_two_pow ((List.mem_range.mp hs).trans_le hle),
        Nat.testBit_lt_two_pow ((List.mem_range.mp hs').trans_le hle)]
  · intro z
    rw [List.mem_map]
    constructor
    · rintro ⟨s, -, rfl⟩
      exact hpos.spread_mem h s
    · intro hz
      have hbits (b : ℕ) (hb : b < n) : (Nat.ofBits fun b : Fin n => z.getLsbD (pos b)).testBit b =
          z.getLsbD (pos b) := Nat.testBit_ofBits_lt _ b hb
      refine ⟨Nat.ofBits fun b : Fin n => z.getLsbD (pos b),
        List.mem_range.mpr (Nat.ofBits_lt_two_pow _), ?_⟩
      rw [mem_iff_bits] at hz
      apply BitVec.eq_of_getLsbD_eq
      intro i hi
      rw [Bool.eq_iff_iff, getLsbD_spread v pos n _ hi, ← hz i hi, Bool.and_eq_true,
        Bool.not_eq_true', ← Bool.not_eq_true, hpos.bit i hi]
      constructor
      · rintro (⟨hzi, -⟩ | ⟨b, hb, rfl, hbit⟩)
        · exact hzi
        · rwa [← hbits b hb]
      · intro hzi
        by_cases hfree : ∃ b < n, pos b = i
        · obtain ⟨b, hb, rfl⟩ := hfree
          exact .inr ⟨b, hb, rfl, (hbits b hb).trans hzi⟩
        · exact .inl ⟨hzi, hfree⟩

/-! ## Counting the free bits -/

/-- The positions of the bits that are set, in ascending order. -/
def setBits (m : BitVec w) : List ℕ := (List.range w).filter m.getLsbD

lemma mem_setBits {i : ℕ} : i ∈ setBits m ↔ i < w ∧ m.getLsbD i = true := by
  rw [setBits, List.mem_filter, List.mem_range]

lemma nodup_setBits (m : BitVec w) : (setBits m).Nodup := List.nodup_range.filter _

lemma length_setBits (m : BitVec w) : (setBits m).length = m.cpop.toNat := by
  have hset : (setBits m).toFinset = {i ∈ Finset.range w | m.getLsbD i = true} := by
    ext i
    rw [List.mem_toFinset, mem_setBits, Finset.mem_filter, Finset.mem_range]
  rw [WordSet.toNat_cpop, Nat.count_eq_card_filter_range, ← hset,
    List.toFinset_card_of_nodup (nodup_setBits m)]

lemma positions_setBits (m : BitVec w) :
    Positions m (fun b => (setBits m).getD b 0) (setBits m).length where
  inj := by
    intro b hb b' hb' heq
    rw [List.getD_eq_getElem _ _ hb, List.getD_eq_getElem _ _ hb'] at heq
    exact (nodup_setBits m).getElem_inj_iff.mp heq
  lt := by
    intro b hb
    rw [List.getD_eq_getElem _ _ hb]
    exact (mem_setBits.mp (List.getElem_mem hb)).1
  bit := by
    intro i hi
    have hmem : m.getLsbD i = true ↔ i ∈ setBits m := by rw [mem_setBits, and_iff_right hi]
    rw [hmem, List.mem_iff_getElem]
    refine exists_congr fun b => ⟨?_, ?_⟩
    · rintro ⟨hb, rfl⟩
      exact ⟨hb, List.getD_eq_getElem _ _ hb⟩
    · rintro ⟨hb, rfl⟩
      exact ⟨hb, (List.getD_eq_getElem _ _ hb).symm⟩

/-- One more bit adds at most one. -/
lemma cpop_or_one_le (m : BitVec w) (p : ℕ) :
    (m ||| 1#w <<< p).cpop.toNat ≤ m.cpop.toNat + 1 := by
  rw [WordSet.toNat_cpop, WordSet.toNat_cpop, Nat.count_eq_card_filter_range,
    Nat.count_eq_card_filter_range]
  refine (Finset.card_le_card fun i hi => ?_).trans (Finset.card_insert_le p _)
  rw [Finset.mem_filter, Finset.mem_range] at hi
  obtain ⟨hi, hbit⟩ := hi
  rw [BitVec.getLsbD_or, getLsbD_one_shiftLeft hi, Bool.or_eq_true, decide_eq_true_eq] at hbit
  rw [Finset.mem_insert, Finset.mem_filter, Finset.mem_range]
  exact hbit.elim (fun h => .inr ⟨hi, h⟩) .inl

end FreeBits
