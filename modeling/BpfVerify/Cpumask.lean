import BpfVerify.WordSet

/-!
# CPU masks

The operations of `shims/cpumask/include/linux/cpumask.h` on masks of one word, against sets of
processors.
-/
namespace BpfVerify.Cpumask

/-- `struct cpumask` -/
abbrev Mask := BitVec 64

def nrCpus : ℕ := 8

def bit (cpu : ℕ) : Mask := 1 <<< cpu

def validMask : Mask := bit nrCpus - 1

def has (bits : Mask) (cpu : ℕ) : Bool := bits &&& bit cpu != 0

/-- The first processor below `nrCpus` with the property, or `nrCpus`. -/
def scan (p : ℕ → Bool) : ℕ := ((List.range nrCpus).find? p).getD nrCpus

def cpumaskFirst (src : Mask) : ℕ :=
  let bits := src &&& validMask
  scan fun cpu => has bits cpu

def cpumaskFirstZero (src : Mask) : ℕ :=
  let bits := src &&& validMask
  scan fun cpu => !has bits cpu

def cpumaskFirstAnd (src1 src2 : Mask) : ℕ := cpumaskFirst (src1 &&& src2)

def cpumaskSetCpu (cpu : ℕ) (dst : Mask) : Mask := (dst ||| bit cpu) &&& validMask

def cpumaskClearCpu (cpu : ℕ) (dst : Mask) : Mask := dst &&& ~~~bit cpu

def cpumaskTestCpu (cpu : ℕ) (src : Mask) : Bool := has src cpu

def cpumaskTestAndSetCpu (cpu : ℕ) (dst : Mask) : Bool × Mask :=
  let old := cpumaskTestCpu cpu dst
  (old, cpumaskSetCpu cpu dst)

def cpumaskTestAndClearCpu (cpu : ℕ) (dst : Mask) : Bool × Mask :=
  let old := cpumaskTestCpu cpu dst
  (old, cpumaskClearCpu cpu dst)

def cpumaskSetall : Mask := validMask

def cpumaskClear : Mask := 0

def cpumaskAnd (src1 src2 : Mask) : Bool × Mask :=
  let dst := (src1 &&& src2) &&& validMask
  (dst != 0, dst)

def cpumaskOr (src1 src2 : Mask) : Mask := (src1 ||| src2) &&& validMask

def cpumaskXor (src1 src2 : Mask) : Mask := (src1 ^^^ src2) &&& validMask

def cpumaskEqual (src1 src2 : Mask) : Bool := src1 &&& validMask == src2 &&& validMask

def cpumaskIntersects (src1 src2 : Mask) : Bool := (src1 &&& src2) &&& validMask != 0

def cpumaskSubset (src1 src2 : Mask) : Bool := src1 &&& validMask &&& ~~~src2 == 0

def cpumaskEmpty (src : Mask) : Bool := src &&& validMask == 0

def cpumaskFull (src : Mask) : Bool := src &&& validMask == validMask

def cpumaskCopy (src : Mask) : Mask := src &&& validMask

/-- `bitmap_copy`, by which a mask is filled from storage. -/
def bitmapCopy (src : Mask) : Mask := src &&& validMask

def cpumaskWeight (src : Mask) : ℕ :=
  let bits := src &&& validMask
  (List.range nrCpus).foldl (fun weight cpu => weight + (has bits cpu).toNat) 0

/-! ## The set that a mask holds -/

/-- No bit above the processors is set. -/
structure Holds (w : Mask) (s : Finset ℕ) : Prop where
  bits : ∀ k, w.getLsbD k = true ↔ k ∈ s
  below : ∀ k ∈ s, k < nrCpus

lemma getLsbD_bit {cpu : ℕ} (h : cpu < 64) (k : ℕ) : (bit cpu).getLsbD k = true ↔ k = cpu := by
  have htwo : bit cpu = BitVec.twoPow 64 cpu := rfl
  rw [htwo, BitVec.getLsbD_twoPow, Bool.and_eq_true, decide_eq_true_eq, decide_eq_true_eq,
    eq_comm]
  exact and_iff_right h

lemma getLsbD_validMask (k : ℕ) : validMask.getLsbD k = true ↔ k < nrCpus := by
  by_cases hk : k < 64
  · have hall : ∀ k < 64, validMask.getLsbD k = true ↔ k < nrCpus := by decide
    exact hall k hk
  · rw [BitVec.getLsbD_of_ge _ _ (not_lt.1 hk), nrCpus]
    simp
    omega

lemma getLsbD_masked (w : Mask) (k : ℕ) :
    (w &&& validMask).getLsbD k = true ↔ k < nrCpus ∧ w.getLsbD k = true := by
  rw [BitVec.getLsbD_and, Bool.and_eq_true, getLsbD_validMask, and_comm]

lemma has_iff {cpu : ℕ} (h : cpu < 64) (w : Mask) : has w cpu = true ↔ w.getLsbD cpu = true := by
  rw [has, bne_iff_ne, WordSet.ne_zero_iff]
  constructor
  · rintro ⟨k, -, hk⟩
    rw [BitVec.getLsbD_and, Bool.and_eq_true, getLsbD_bit h] at hk
    rw [← hk.2, hk.1]
  · intro hcpu
    refine ⟨cpu, h, ?_⟩
    rw [BitVec.getLsbD_and, hcpu, (getLsbD_bit h cpu).2 rfl]
    rfl

/-- What is masked holds the processors among the bits. -/
lemma holds_masked {w : Mask} {s : Finset ℕ}
    (h : ∀ k, k ∈ s ↔ k < nrCpus ∧ w.getLsbD k = true) : Holds (w &&& validMask) s :=
  ⟨fun k => (getLsbD_masked w k).trans (h k).symm, fun k hk => ((h k).1 hk).1⟩

lemma Holds.masked {w : Mask} {s : Finset ℕ} (h : Holds w s) : Holds (w &&& validMask) s := by
  refine holds_masked fun k => ?_
  rw [h.bits]
  exact (and_iff_right_of_imp (h.below k)).symm

lemma Holds.has {w : Mask} {s : Finset ℕ} (h : Holds w s) {cpu : ℕ} (hcpu : cpu < 64) :
    has w cpu = true ↔ cpu ∈ s := by
  rw [has_iff hcpu, h.bits]

lemma Holds.eq_zero_iff {w : Mask} {s : Finset ℕ} (h : Holds w s) : w = 0 ↔ s = ∅ := by
  rw [← not_iff_not, ← ne_eq, WordSet.ne_zero_iff, ← ne_eq, ← Finset.nonempty_iff_ne_empty]
  constructor
  · rintro ⟨k, -, hk⟩
    exact ⟨k, (h.bits k).1 hk⟩
  · rintro ⟨k, hk⟩
    exact ⟨k, (h.below k hk).trans (by decide), (h.bits k).2 hk⟩

lemma Holds.eq_iff {w w' : Mask} {s t : Finset ℕ} (h : Holds w s) (h' : Holds w' t) :
    w = w' ↔ s = t := by
  constructor
  · rintro rfl
    ext k
    rw [← h.bits, ← h'.bits]
  · rintro rfl
    apply BitVec.eq_of_getLsbD_eq
    intro k _
    rw [Bool.eq_iff_iff, h.bits, h'.bits]

/-- The scan finds the least member. -/
lemma scan_eq {p : ℕ → Bool} {s : Finset ℕ} (h : ∀ k ∈ s, k < nrCpus)
    (hp : ∀ k < nrCpus, p k = true ↔ k ∈ s) : scan p = s.min.untopD nrCpus := by
  rw [scan]
  cases hfind : (List.range nrCpus).find? p with
  | none =>
    have hempty : s = ∅ := by
      refine Finset.eq_empty_of_forall_notMem fun k hk => ?_
      have hnot := List.find?_eq_none.1 hfind k (List.mem_range.2 (h k hk))
      exact hnot ((hp k (h k hk)).2 hk)
    rw [hempty]
    rfl
  | some k =>
    obtain ⟨hk, hrange, hleast⟩ := List.find?_range_eq_some.1 hfind
    have hlt := List.mem_range.1 hrange
    have hmem : k ∈ s := (hp k hlt).1 hk
    have hmin : s.min = (k : WithTop ℕ) := by
      have hle : ∀ j ∈ s, k ≤ j := by
        intro j hj
        by_contra hjk
        have hnot := hleast j (not_le.1 hjk)
        rw [(hp j (h j hj)).2 hj] at hnot
        cases hnot
      exact le_antisymm (Finset.min_le hmem) (Finset.le_min fun j hj =>
        WithTop.coe_le_coe.2 (hle j hj))
    rw [hmin]
    rfl

lemma foldl_count (p : ℕ → Bool) (n : ℕ) :
    (List.range n).foldl (fun weight cpu => weight + (p cpu).toNat) 0 =
      ((Finset.range n).filter fun k => p k = true).card := by
  induction n with
  | zero => rfl
  | succ n ih =>
    rw [List.range_succ, List.foldl_append, ih, Finset.range_add_one, Finset.filter_insert]
    cases hp : p n with
    | false => simp [hp]
    | true => simp [hp, Finset.card_insert_of_notMem]

/-! ## Runs over a bank of masks -/

inductive Op
  | set (d cpu : ℕ) | clear (d cpu : ℕ)
  | testAndSet (d cpu : ℕ) | testAndClear (d cpu : ℕ)
  | setall (d : ℕ) | clearAll (d : ℕ)
  | and (d a b : ℕ) | or (d a b : ℕ) | xor (d a b : ℕ)
  | copy (d a : ℕ) | fill (d : ℕ) (raw : Mask)
  | test (a cpu : ℕ) | first (a : ℕ) | firstZero (a : ℕ) | firstAnd (a b : ℕ) | weight (a : ℕ)
  | equal (a b : ℕ) | intersects (a b : ℕ) | subset (a b : ℕ) | empty (a : ℕ) | full (a : ℕ)

inductive Answer
  | done
  | flag (b : Bool)
  | number (n : ℕ)

open Function (update)

/-- An operation on the masks of a bank, and what it returns. -/
def exec (m : ℕ → Mask) : Op → (ℕ → Mask) × Answer
  | .set d cpu => (update m d (cpumaskSetCpu cpu (m d)), .done)
  | .clear d cpu => (update m d (cpumaskClearCpu cpu (m d)), .done)
  | .testAndSet d cpu =>
    let r := cpumaskTestAndSetCpu cpu (m d)
    (update m d r.2, .flag r.1)
  | .testAndClear d cpu =>
    let r := cpumaskTestAndClearCpu cpu (m d)
    (update m d r.2, .flag r.1)
  | .setall d => (update m d cpumaskSetall, .done)
  | .clearAll d => (update m d cpumaskClear, .done)
  | .and d a b =>
    let r := cpumaskAnd (m a) (m b)
    (update m d r.2, .flag r.1)
  | .or d a b => (update m d (cpumaskOr (m a) (m b)), .done)
  | .xor d a b => (update m d (cpumaskXor (m a) (m b)), .done)
  | .copy d a => (update m d (cpumaskCopy (m a)), .done)
  | .fill d raw => (update m d (bitmapCopy raw), .done)
  | .test a cpu => (m, .flag (cpumaskTestCpu cpu (m a)))
  | .first a => (m, .number (cpumaskFirst (m a)))
  | .firstZero a => (m, .number (cpumaskFirstZero (m a)))
  | .firstAnd a b => (m, .number (cpumaskFirstAnd (m a) (m b)))
  | .weight a => (m, .number (cpumaskWeight (m a)))
  | .equal a b => (m, .flag (cpumaskEqual (m a) (m b)))
  | .intersects a b => (m, .flag (cpumaskIntersects (m a) (m b)))
  | .subset a b => (m, .flag (cpumaskSubset (m a) (m b)))
  | .empty a => (m, .flag (cpumaskEmpty (m a)))
  | .full a => (m, .flag (cpumaskFull (m a)))

def everyCpu : Finset ℕ := Finset.range nrCpus

/-- The same operation on sets. -/
def spec (s : ℕ → Finset ℕ) : Op → (ℕ → Finset ℕ) × Answer
  | .set d cpu => (update s d (insert cpu (s d) ∩ everyCpu), .done)
  | .clear d cpu => (update s d (s d \ {cpu}), .done)
  | .testAndSet d cpu => (update s d (insert cpu (s d) ∩ everyCpu), .flag (cpu ∈ s d))
  | .testAndClear d cpu => (update s d (s d \ {cpu}), .flag (cpu ∈ s d))
  | .setall d => (update s d everyCpu, .done)
  | .clearAll d => (update s d ∅, .done)
  | .and d a b => (update s d (s a ∩ s b), .flag (s a ∩ s b).Nonempty)
  | .or d a b => (update s d (s a ∪ s b), .done)
  | .xor d a b => (update s d (symmDiff (s a) (s b)), .done)
  | .copy d a => (update s d (s a), .done)
  | .fill d raw => (update s d (everyCpu.filter fun k => raw.getLsbD k = true), .done)
  | .test a cpu => (s, .flag (cpu ∈ s a))
  | .first a => (s, .number ((s a).min.untopD nrCpus))
  | .firstZero a => (s, .number ((everyCpu \ s a).min.untopD nrCpus))
  | .firstAnd a b => (s, .number ((s a ∩ s b).min.untopD nrCpus))
  | .weight a => (s, .number (s a).card)
  | .equal a b => (s, .flag (s a = s b))
  | .intersects a b => (s, .flag (s a ∩ s b).Nonempty)
  | .subset a b => (s, .flag (s a ⊆ s b))
  | .empty a => (s, .flag (s a = ∅))
  | .full a => (s, .flag (s a = everyCpu))

/-- A shift by 64 or more is undefined. -/
def Op.Defined : Op → Prop
  | .set _ cpu | .clear _ cpu | .testAndSet _ cpu | .testAndClear _ cpu | .test _ cpu => cpu < 64
  | _ => True

/-! ### The masks that the operations write -/

variable {w w' : Mask} {s t : Finset ℕ} {cpu : ℕ}

lemma Holds.setCpu (h : Holds w s) (hcpu : cpu < 64) :
    Holds (cpumaskSetCpu cpu w) (insert cpu s ∩ everyCpu) := by
  refine holds_masked fun k => ?_
  rw [BitVec.getLsbD_or, Bool.or_eq_true, h.bits, getLsbD_bit hcpu, Finset.mem_inter,
    Finset.mem_insert, everyCpu, Finset.mem_range]
  tauto

lemma Holds.clearCpu (h : Holds w s) (hcpu : cpu < 64) :
    Holds (cpumaskClearCpu cpu w) (s \ {cpu}) := by
  refine ⟨fun k => ?_, fun k hk => h.below k (Finset.mem_sdiff.1 hk).1⟩
  rw [cpumaskClearCpu, BitVec.getLsbD_and, BitVec.getLsbD_not, Bool.and_eq_true, Bool.and_eq_true,
    h.bits, decide_eq_true_eq, Bool.not_eq_true', Bool.eq_false_iff, ne_eq, getLsbD_bit hcpu,
    Finset.mem_sdiff, Finset.mem_singleton]
  constructor
  · rintro ⟨hk, -, hne⟩
    exact ⟨hk, hne⟩
  · rintro ⟨hk, hne⟩
    exact ⟨hk, (h.below k hk).trans (by decide), hne⟩

lemma holds_setall : Holds cpumaskSetall everyCpu :=
  ⟨fun k => (getLsbD_validMask k).trans Finset.mem_range.symm, fun _ hk => Finset.mem_range.1 hk⟩

lemma holds_clear : Holds cpumaskClear ∅ := by
  refine ⟨fun k => ?_, fun k hk => absurd hk (Finset.notMem_empty k)⟩
  simp [cpumaskClear]

lemma Holds.and (h : Holds w s) (h' : Holds w' t) : Holds (w &&& w') (s ∩ t) := by
  refine ⟨fun k => ?_, fun k hk => h.below k (Finset.mem_inter.1 hk).1⟩
  rw [BitVec.getLsbD_and, Bool.and_eq_true, h.bits, h'.bits, Finset.mem_inter]

lemma Holds.or (h : Holds w s) (h' : Holds w' t) : Holds (w ||| w') (s ∪ t) := by
  refine ⟨fun k => ?_, fun k hk => (Finset.mem_union.1 hk).elim (h.below k) (h'.below k)⟩
  rw [BitVec.getLsbD_or, Bool.or_eq_true, h.bits, h'.bits, Finset.mem_union]

lemma Holds.xor (h : Holds w s) (h' : Holds w' t) : Holds (w ^^^ w') (symmDiff s t) := by
  refine ⟨fun k => ?_, fun k hk => ?_⟩
  · rw [BitVec.getLsbD_xor, Finset.mem_symmDiff, ← h.bits, ← h'.bits]
    cases w.getLsbD k <;> cases w'.getLsbD k <;> simp
  · rcases Finset.mem_symmDiff.1 hk with ⟨hs, -⟩ | ⟨ht, -⟩
    · exact h.below k hs
    · exact h'.below k ht

lemma holds_fill (raw : Mask) :
    Holds (bitmapCopy raw) (everyCpu.filter fun k => raw.getLsbD k = true) := by
  refine holds_masked fun k => ?_
  rw [Finset.mem_filter, everyCpu, Finset.mem_range]

/-! ### What the operations find out -/

lemma Holds.first (h : Holds w s) : cpumaskFirst w = s.min.untopD nrCpus :=
  scan_eq h.below fun _ hk => h.masked.has (hk.trans (by decide))

lemma Holds.firstZero (h : Holds w s) :
    cpumaskFirstZero w = (everyCpu \ s).min.untopD nrCpus := by
  refine scan_eq (fun k hk => Finset.mem_range.1 (Finset.mem_sdiff.1 hk).1) fun k hk => ?_
  rw [Bool.not_eq_true', Bool.eq_false_iff, ne_eq, h.masked.has (hk.trans (by decide)),
    Finset.mem_sdiff, everyCpu, Finset.mem_range]
  exact (and_iff_right hk).symm

lemma Holds.weight (h : Holds w s) : cpumaskWeight w = s.card := by
  rw [cpumaskWeight, foldl_count]
  congr 1
  ext k
  rw [Finset.mem_filter, Finset.mem_range]
  constructor
  · rintro ⟨hk, hhas⟩
    exact (h.masked.has (hk.trans (by decide))).1 hhas
  · intro hk
    exact ⟨h.below k hk, (h.masked.has ((h.below k hk).trans (by decide))).2 hk⟩

lemma Holds.subset (h : Holds w s) (h' : Holds w' t) : cpumaskSubset w w' = true ↔ s ⊆ t := by
  have hdiff : Holds (w &&& validMask &&& ~~~w') (s \ t) := by
    refine ⟨fun k => ?_, fun k hk => h.below k (Finset.mem_sdiff.1 hk).1⟩
    rw [BitVec.getLsbD_and, BitVec.getLsbD_not, Bool.and_eq_true, Bool.and_eq_true, h.masked.bits,
      decide_eq_true_eq, Bool.not_eq_true', Bool.eq_false_iff, ne_eq, h'.bits, Finset.mem_sdiff]
    constructor
    · rintro ⟨hk, -, hne⟩
      exact ⟨hk, hne⟩
    · rintro ⟨hk, hne⟩
      exact ⟨hk, (h.below k hk).trans (by decide), hne⟩
  rw [cpumaskSubset, beq_iff_eq, hdiff.eq_zero_iff, Finset.sdiff_eq_empty_iff_subset]

lemma Holds.intersects (h : Holds w s) (h' : Holds w' t) :
    (w &&& w' &&& validMask != 0) = decide (s ∩ t).Nonempty := by
  rw [Bool.eq_iff_iff, bne_iff_ne, ne_eq, (h.and h').masked.eq_zero_iff, decide_eq_true_eq,
    ← ne_eq, Finset.nonempty_iff_ne_empty]

/-! ### The refinement -/

/-- Every mask of the bank holds the set of its place. -/
def Bank (m : ℕ → Mask) (s : ℕ → Finset ℕ) : Prop := ∀ i, Holds (m i) (s i)

lemma Bank.update {m : ℕ → Mask} {s : ℕ → Finset ℕ} (h : Bank m s) (d : ℕ) {w : Mask}
    {t : Finset ℕ} (hw : Holds w t) : Bank (update m d w) (update s d t) := by
  intro i
  by_cases hi : i = d
  · subst hi
    simpa using hw
  · simpa [Function.update_of_ne hi] using h i

theorem bank_exec {m : ℕ → Mask} {s : ℕ → Finset ℕ} (h : Bank m s) {op : Op} (hop : op.Defined) :
    (exec m op).2 = (spec s op).2 ∧ Bank (exec m op).1 (spec s op).1 := by
  cases op with
  | set d cpu => exact ⟨rfl, h.update d ((h d).setCpu hop)⟩
  | clear d cpu => exact ⟨rfl, h.update d ((h d).clearCpu hop)⟩
  | testAndSet d cpu =>
    refine ⟨congrArg Answer.flag ?_, h.update d ((h d).setCpu hop)⟩
    exact Bool.eq_iff_iff.2 (((h d).has hop).trans decide_eq_true_iff.symm)
  | testAndClear d cpu =>
    refine ⟨congrArg Answer.flag ?_, h.update d ((h d).clearCpu hop)⟩
    exact Bool.eq_iff_iff.2 (((h d).has hop).trans decide_eq_true_iff.symm)
  | setall d => exact ⟨rfl, h.update d holds_setall⟩
  | clearAll d => exact ⟨rfl, h.update d holds_clear⟩
  | and d a b =>
    exact ⟨congrArg Answer.flag ((h a).intersects (h b)), h.update d ((h a).and (h b)).masked⟩
  | or d a b => exact ⟨rfl, h.update d ((h a).or (h b)).masked⟩
  | xor d a b => exact ⟨rfl, h.update d ((h a).xor (h b)).masked⟩
  | copy d a => exact ⟨rfl, h.update d (h a).masked⟩
  | fill d raw => exact ⟨rfl, h.update d (holds_fill raw)⟩
  | test a cpu =>
    refine ⟨congrArg Answer.flag ?_, h⟩
    exact Bool.eq_iff_iff.2 (((h a).has hop).trans decide_eq_true_iff.symm)
  | first a => exact ⟨congrArg Answer.number (h a).first, h⟩
  | firstZero a => exact ⟨congrArg Answer.number (h a).firstZero, h⟩
  | firstAnd a b => exact ⟨congrArg Answer.number ((h a).and (h b)).first, h⟩
  | weight a => exact ⟨congrArg Answer.number (h a).weight, h⟩
  | equal a b =>
    refine ⟨congrArg Answer.flag ?_, h⟩
    rw [cpumaskEqual, Bool.eq_iff_iff, beq_iff_eq, (h a).masked.eq_iff (h b).masked,
      decide_eq_true_iff]
  | intersects a b => exact ⟨congrArg Answer.flag ((h a).intersects (h b)), h⟩
  | subset a b =>
    refine ⟨congrArg Answer.flag ?_, h⟩
    exact Bool.eq_iff_iff.2 (((h a).subset (h b)).trans decide_eq_true_iff.symm)
  | empty a =>
    refine ⟨congrArg Answer.flag ?_, h⟩
    rw [cpumaskEmpty, Bool.eq_iff_iff, beq_iff_eq, (h a).masked.eq_zero_iff, decide_eq_true_iff]
  | full a =>
    refine ⟨congrArg Answer.flag ?_, h⟩
    have hall : Holds validMask everyCpu := holds_setall
    rw [cpumaskFull, Bool.eq_iff_iff, beq_iff_eq, (h a).masked.eq_iff hall, decide_eq_true_iff]

/-- The answers of a run. -/
def run {σ : Type} (step : σ → Op → σ × Answer) : σ → List Op → List Answer
  | _, [] => []
  | state, op :: ops => (step state op).2 :: run step (step state op).1 ops

lemma bank_run {m : ℕ → Mask} {s : ℕ → Finset ℕ} (h : Bank m s) {ops : List Op}
    (hops : ∀ op ∈ ops, op.Defined) : run exec m ops = run spec s ops := by
  induction ops generalizing m s with
  | nil => rfl
  | cons op ops ih =>
    obtain ⟨hans, hbank⟩ := bank_exec h (hops op (List.mem_cons_self ..))
    rw [run, hans, ih hbank fun op' hop' => hops op' (List.mem_cons_of_mem _ hop')]
    rfl

/-- From zeroed masks on, every run of the operations gives the answers of the same operations on
sets of processors. -/
theorem run_refines (ops : List Op) (hops : ∀ op ∈ ops, op.Defined) :
    run exec (fun _ => cpumaskClear) ops = run spec (fun _ => ∅) ops :=
  bank_run (fun _ => holds_clear) hops

theorem run_refines_harness :
    run exec (fun _ => cpumaskClear) [.set 0 1, .set 0 8, .test 0 8, .firstZero 0] =
      run spec (fun _ => ∅) [.set 0 1, .set 0 8, .test 0 8, .firstZero 0] :=
  run_refines _ (by simp [Op.Defined])

end BpfVerify.Cpumask
