import Mathlib

/-!
# Sets of positions in arrays of words

An array of words of `w` bits holds position `i` in bit `i % w` of word `i / w`. A test or a count
over the positions below `n` is one over whole words, and over the low bits of the word after them.
-/
namespace WordSet

abbrev Words (w : ℕ) := ℕ → BitVec w

variable {w : ℕ}

def bit (m : Words w) (i : ℕ) : Bool := (m (i / w)).getLsbD (i % w)

/-- The positions below `n` that are set. -/
def members (m : Words w) (n : ℕ) : Finset ℕ := (Finset.range n).filter fun i => bit m i = true

@[simp] lemma mem_members {m : Words w} {n i : ℕ} : i ∈ members m n ↔ i < n ∧ bit m i = true := by
  rw [members, Finset.mem_filter, Finset.mem_range]

lemma members_subset (m : Words w) (n : ℕ) : members m n ⊆ Finset.range n :=
  Finset.filter_subset _ _

/-- The word with the lowest `r` bits set. -/
def low (w r : ℕ) : BitVec w := BitVec.allOnes w >>> (w - r)

lemma getLsbD_low {r : ℕ} (k : ℕ) (hr : r ≤ w) : (low w r).getLsbD k = decide (k < r) := by
  rw [low, BitVec.getLsbD_ushiftRight, BitVec.getLsbD_allOnes]
  congr 1
  rw [eq_iff_iff]
  omega

lemma bit_word {m : Words w} {j k : ℕ} (hk : k < w) : bit m (w * j + k) = (m j).getLsbD k := by
  rw [bit, Nat.mul_add_div (by omega), Nat.div_eq_of_lt hk, Nat.add_zero, Nat.mul_add_mod,
    Nat.mod_eq_of_lt hk]

lemma eq_of_bit {m m' : Words w} (h : ∀ i, bit m i = bit m' i) : m = m' := by
  ext1 j
  apply BitVec.eq_of_getLsbD_eq
  intro k hk
  rw [← bit_word hk, ← bit_word hk, h]

/-- What is set in words that are equal up to `n` is the same. -/
lemma members_congr {m m' : Words w} {n : ℕ} (h : ∀ i < n, bit m i = bit m' i) :
    members m n = members m' n := by
  apply Finset.filter_congr
  intro i hi
  rw [h i (Finset.mem_range.mp hi)]

section Operations
variable (m m' : Words w) (i n : ℕ)

lemma bit_and : bit (fun k => m k &&& m' k) i = (bit m i && bit m' i) := BitVec.getLsbD_and

lemma bit_or : bit (fun k => m k ||| m' k) i = (bit m i || bit m' i) := BitVec.getLsbD_or

lemma bit_xor : bit (fun k => m k ^^^ m' k) i = (bit m i ^^ bit m' i) := BitVec.getLsbD_xor

lemma bit_not (hw : 0 < w) : bit (fun k => ~~~m k) i = !bit m i := by
  rw [bit, BitVec.getLsbD_not, decide_eq_true (Nat.mod_lt i hw), Bool.true_and]
  rfl

lemma members_and : members (fun k => m k &&& m' k) n = members m n ∩ members m' n := by
  ext i
  simp only [mem_members, bit_and, Finset.mem_inter, Bool.and_eq_true]
  tauto

lemma members_or : members (fun k => m k ||| m' k) n = members m n ∪ members m' n := by
  ext i
  simp only [mem_members, bit_or, Finset.mem_union, Bool.or_eq_true]
  tauto

lemma members_andnot (hw : 0 < w) :
    members (fun k => m k &&& ~~~m' k) n = members m n \ members m' n := by
  ext i
  rw [mem_members, Finset.mem_sdiff, mem_members, mem_members, bit_and m (fun k => ~~~m' k),
    bit_not m' i hw]
  by_cases hi : i < n
  · simp [hi]
  · simp [hi]

lemma members_xor :
    members (fun k => m k ^^^ m' k) n = symmDiff (members m n) (members m' n) := by
  ext i
  rw [mem_members, Finset.mem_symmDiff, mem_members, mem_members, bit_xor]
  by_cases hi : i < n
  · cases bit m i with
    | true => simp [hi]
    | false => simp [hi]
  · simp [hi]

lemma members_xor_eq_empty :
    members (fun k => m k ^^^ m' k) n = ∅ ↔ members m n = members m' n := by
  rw [members_xor, ← Finset.bot_eq_empty, symmDiff_eq_bot]

lemma members_not (hw : 0 < w) :
    members (fun k => ~~~m k) n = Finset.range n \ members m n := by
  ext i
  rw [mem_members, Finset.mem_sdiff, Finset.mem_range, mem_members, bit_not m i hw]
  cases bit m i with
  | true => simp
  | false => simp

end Operations

/-! ## Looking for a position -/

lemma ne_zero_iff {x : BitVec w} : x ≠ 0 ↔ ∃ k < w, x.getLsbD k = true := by
  constructor
  · intro hx
    by_contra hnone
    push Not at hnone
    apply hx
    apply BitVec.eq_of_getLsbD_eq
    intro k hk
    simpa using hnone k hk
  · rintro ⟨k, -, hk⟩ rfl
    simp at hk

lemma or_ne_zero_iff {x y : BitVec w} : x ||| y ≠ 0 ↔ x ≠ 0 ∨ y ≠ 0 := by
  rw [← not_and_or]
  exact not_congr BitVec.or_eq_zero_iff

lemma and_low_ne_zero_iff {x : BitVec w} {r : ℕ} (hr : r ≤ w) :
    x &&& low w r ≠ 0 ↔ ∃ k < r, x.getLsbD k = true := by
  rw [ne_zero_iff]
  constructor
  · rintro ⟨k, hk, hbit⟩
    rw [BitVec.getLsbD_and, getLsbD_low k hr, Bool.and_eq_true, decide_eq_true_eq] at hbit
    exact ⟨k, hbit.2, hbit.1⟩
  · rintro ⟨k, hk, hbit⟩
    refine ⟨k, by omega, ?_⟩
    rw [BitVec.getLsbD_and, getLsbD_low k hr, hbit, decide_eq_true hk]
    rfl

/-- Some position below `w * q + r` is set iff it is in a whole word or in the last one. -/
theorem members_nonempty_iff {m : Words w} {q r : ℕ} (hr : r ≤ w) :
    (members m (w * q + r)).Nonempty ↔ (∃ j < q, m j ≠ 0) ∨ m q &&& low w r ≠ 0 := by
  rw [and_low_ne_zero_iff hr]
  constructor
  · rintro ⟨i, hi⟩
    obtain ⟨hlt, hbit⟩ := mem_members.mp hi
    have hw : 0 < w := by
      by_contra hw
      have hwz : w = 0 := by omega
      subst hwz
      omega
    have hmod := Nat.mod_lt i hw
    have hdiv := Nat.div_add_mod i w
    by_cases hq : i / w < q
    · exact .inl ⟨i / w, hq, ne_zero_iff.mpr ⟨i % w, hmod, hbit⟩⟩
    · have heq : i / w = q := by
        apply le_antisymm _ (not_lt.mp hq)
        rw [Nat.div_le_iff_le_mul_add_pred hw]
        have hmul : w * q + r ≤ w * q + w := by omega
        omega
      refine .inr ⟨i % w, ?_, heq ▸ hbit⟩
      rw [heq] at hdiv
      omega
  · rintro (⟨j, hj, hne⟩ | ⟨k, hk, hbit⟩)
    · obtain ⟨k, hk, hbit⟩ := ne_zero_iff.mp hne
      refine ⟨w * j + k, mem_members.mpr ⟨?_, by rwa [bit_word hk]⟩⟩
      have hle : w * (j + 1) ≤ w * q := Nat.mul_le_mul_left w hj
      rw [Nat.mul_succ] at hle
      omega
    · exact ⟨w * q + k, mem_members.mpr ⟨by omega, by rwa [bit_word (by omega)]⟩⟩

/-! ## Counting -/

lemma count_getLsbD (x : BitVec w) (n acc : ℕ) :
    x.cpopNatRec n acc = Nat.count (fun k => x.getLsbD k = true) n + acc := by
  induction n generalizing acc with
  | zero => simp
  | succ n ih =>
    rw [BitVec.cpopNatRec_succ, ih, Nat.count_succ]
    cases x.getLsbD n with
    | true => simp; omega
    | false => simp

/-- The population count counts the bits that are set. -/
lemma toNat_cpop (x : BitVec w) : x.cpop.toNat = Nat.count (fun k => x.getLsbD k = true) w := by
  rw [BitVec.toNat_cpop, count_getLsbD, Nat.add_zero]

lemma count_congr {p q : ℕ → Prop} [DecidablePred p] [DecidablePred q] {n : ℕ}
    (h : ∀ k < n, p k ↔ q k) : Nat.count p n = Nat.count q n := by
  rw [Nat.count_eq_card_filter_range, Nat.count_eq_card_filter_range]
  congr 1
  exact Finset.filter_congr fun k hk => h k (Finset.mem_range.mp hk)

lemma toNat_cpop_and_low (x : BitVec w) {r : ℕ} (hr : r ≤ w) :
    (x &&& low w r).cpop.toNat = Nat.count (fun k => x.getLsbD k = true) r := by
  have hsplit : ∀ p : ℕ → Prop, ∀ [DecidablePred p],
      Nat.count p w = Nat.count p r + Nat.count (fun k => p (r + k)) (w - r) := by
    intro p _
    rw [← Nat.count_add, Nat.add_sub_cancel' hr]
  have hlow : ∀ k < r, (x &&& low w r).getLsbD k = true ↔ x.getLsbD k = true := by
    intro k hk
    rw [BitVec.getLsbD_and, getLsbD_low k hr, decide_eq_true hk, Bool.and_true]
  have hhigh : ∀ k, ¬ (x &&& low w r).getLsbD (r + k) = true := by
    intro k hk
    rw [BitVec.getLsbD_and, getLsbD_low _ hr, decide_eq_false (by omega), Bool.and_false] at hk
    cases hk
  rw [toNat_cpop, hsplit, count_congr hlow, Nat.count_of_forall_not fun k _ => hhigh k, Nat.add_zero]

lemma card_members (m : Words w) (n : ℕ) :
    (members m n).card = Nat.count (fun i => bit m i = true) n := by
  rw [Nat.count_eq_card_filter_range, members]

/-- The positions below `w * q + r` are those of `q` words and of the low bits of the next. -/
theorem card_members_words (m : Words w) (q : ℕ) {r : ℕ} (hr : r ≤ w) :
    (members m (w * q + r)).card =
      ∑ j ∈ Finset.range q, (m j).cpop.toNat + (m q &&& low w r).cpop.toNat := by
  have hword : ∀ j k, k ≤ w → Nat.count (fun i => bit m (w * j + i) = true) k =
      Nat.count (fun i => (m j).getLsbD i = true) k := by
    intro j k hk
    apply count_congr
    intro i hi
    rw [bit_word (by omega)]
  rw [card_members, Nat.count_add, hword q r hr, toNat_cpop_and_low _ hr]
  congr 1
  induction q with
  | zero => rfl
  | succ q ih =>
    rw [Nat.mul_succ, Nat.count_add, ih, Finset.sum_range_succ, hword q w le_rfl, toNat_cpop]

end WordSet
