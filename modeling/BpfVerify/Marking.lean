import Mathlib

/-!
# Marking by sweeps

A node of a graph reaches a source if it is one, or if it lets pass what a successor reaches. Marks
that are assigned node by node, from the marks of the successors as they stand, never go further
than that; and `n` sweeps over `n` nodes get as far, in whatever order they visit the nodes.
-/
namespace BpfVerify.Marking

structure Graph where
  succ : ℕ → List ℕ
  source : Set ℕ
  passes : Set ℕ

variable {g : Graph}

inductive Graph.Reaches (g : Graph) : ℕ → Prop
  | source {i : ℕ} : i ∈ g.source → g.Reaches i
  | pass {i j : ℕ} : i ∈ g.passes → j ∈ g.succ i → g.Reaches j → g.Reaches i

/-- The condition for a mark, by the marks of the successors. -/
def Graph.Marks (g : Graph) (m : Set ℕ) (i : ℕ) : Prop :=
  i ∈ g.source ∨ i ∈ g.passes ∧ ∃ j ∈ g.succ i, j ∈ m

/-- The mark of a node assigned. -/
def Graph.assign (g : Graph) (m : Set ℕ) (i : ℕ) : Set ℕ := {k | if k = i then g.Marks m i else k ∈ m}

def Graph.sweep (g : Graph) (order : List ℕ) (m : Set ℕ) : Set ℕ := order.foldl g.assign m

variable {m m' : Set ℕ} {i k : ℕ} {order : List ℕ}

lemma mem_assign_self : i ∈ g.assign m i ↔ g.Marks m i := by
  rw [Graph.assign, Set.mem_ofPred_eq, if_pos rfl]

lemma mem_assign_of_ne (h : k ≠ i) : k ∈ g.assign m i ↔ k ∈ m := by
  rw [Graph.assign, Set.mem_ofPred_eq, if_neg h]

lemma Graph.Marks.mono (hm : m ⊆ m') (h : g.Marks m i) : g.Marks m' i := by
  refine h.imp_right fun ⟨hpass, j, hj, hjm⟩ => ?_
  exact ⟨hpass, j, hj, hm hjm⟩

/-- Every mark has a reason among the marks. -/
def Supported (g : Graph) (m : Set ℕ) : Prop := ∀ i ∈ m, g.Marks m i

lemma subset_assign (hm : Supported g m) (i : ℕ) : m ⊆ g.assign m i := by
  intro k hk
  by_cases hki : k = i
  · subst hki
    exact mem_assign_self.mpr (hm k hk)
  · exact (mem_assign_of_ne hki).mpr hk

lemma supported_assign (hm : Supported g m) (i : ℕ) : Supported g (g.assign m i) := by
  intro k hk
  refine Graph.Marks.mono (subset_assign hm i) ?_
  by_cases hki : k = i
  · subst hki
    exact mem_assign_self.mp hk
  · exact hm k ((mem_assign_of_ne hki).mp hk)

lemma supported_sweep (hm : Supported g m) (order : List ℕ) :
    Supported g (g.sweep order m) ∧ m ⊆ g.sweep order m := by
  induction order generalizing m with
  | nil => exact ⟨hm, subset_rfl⟩
  | cons i order ih =>
    obtain ⟨hsupported, hsub⟩ := ih (supported_assign hm i)
    exact ⟨hsupported, (subset_assign hm i).trans hsub⟩

/-- A sweep marks at least what the marks before it say. -/
lemma mem_sweep_of_marks (hm : Supported g m) (hi : i ∈ order) (h : g.Marks m i) :
    i ∈ g.sweep order m := by
  induction order generalizing m with
  | nil => exact absurd hi List.not_mem_nil
  | cons k order ih =>
    have hnext := supported_assign hm k
    cases List.mem_cons.mp hi with
    | inl heq =>
      subst heq
      exact (supported_sweep hnext order).2 (mem_assign_self.mpr h)
    | inr hrest => exact ih hnext hrest (h.mono (subset_assign hm k))

lemma reaches_of_mem_assign (hm : ∀ k ∈ m, g.Reaches k) (i : ℕ) :
    ∀ k ∈ g.assign m i, g.Reaches k := by
  intro k hk
  by_cases hki : k = i
  · subst hki
    rcases mem_assign_self.mp hk with hsource | ⟨hpass, j, hj, hjm⟩
    · exact .source hsource
    · exact .pass hpass hj (hm j hjm)
  · exact hm k ((mem_assign_of_ne hki).mp hk)

lemma reaches_of_mem_sweep (hm : ∀ k ∈ m, g.Reaches k) (order : List ℕ) :
    ∀ k ∈ g.sweep order m, g.Reaches k := by
  induction order generalizing m with
  | nil => exact hm
  | cons i order ih => exact ih (reaches_of_mem_assign hm i)

/-! ## The number of sweeps -/

/-- The nodes with a source fewer than `k` steps away. -/
def Graph.within (g : Graph) : ℕ → Set ℕ
  | 0 => ∅
  | k + 1 => {i | g.Marks (g.within k) i}

lemma within_subset_succ (k : ℕ) : g.within k ⊆ g.within (k + 1) := by
  induction k with
  | zero => exact Set.empty_subset _
  | succ k ih => exact fun i hi => Graph.Marks.mono ih hi

lemma exists_within (h : g.Reaches i) : ∃ k, i ∈ g.within k := by
  induction h with
  | source hi => exact ⟨1, .inl hi⟩
  | pass hpass hj _ ih =>
    obtain ⟨k, hk⟩ := ih
    exact ⟨k + 1, .inr ⟨hpass, _, hj, hk⟩⟩

/-- The nodes below `n` are closed under successors. -/
def Graph.Closed (g : Graph) (n : ℕ) : Prop := ∀ i < n, ∀ j ∈ g.succ i, j < n

section
variable {n : ℕ}

/-- Where no node is new, none will be. -/
lemma within_stable (hg : g.Closed n) {k : ℕ}
    (hk : ∀ i < n, i ∈ g.within (k + 1) → i ∈ g.within k) (l : ℕ) :
    ∀ i < n, i ∈ g.within l → i ∈ g.within k := by
  induction l with
  | zero => exact fun i _ hi => absurd hi (Set.notMem_empty i)
  | succ l ih =>
    intro i hi hmarks
    refine hk i hi (hmarks.imp_right fun ⟨hpass, j, hj, hjl⟩ => ?_)
    exact ⟨hpass, j, hj, ih j (hg i hi j hj) hjl⟩

/-- As long as a node is missing, every step brings a new one. -/
lemma le_ncard_within (hg : g.Closed n) {k : ℕ} (hi : i < n) (hreach : g.Reaches i)
    (hnot : i ∉ g.within k) : k ≤ (g.within k ∩ Set.Iio n).ncard := by
  induction k with
  | zero => exact Nat.zero_le _
  | succ k ih =>
    have hk : i ∉ g.within k := fun h => hnot (within_subset_succ k h)
    have hgrows : g.within k ∩ Set.Iio n ⊂ g.within (k + 1) ∩ Set.Iio n := by
      refine Set.ssubset_iff_subset_ne.mpr
        ⟨Set.inter_subset_inter_left _ (within_subset_succ k), fun heq => ?_⟩
      obtain ⟨l, hl⟩ := exists_within hreach
      refine hk (within_stable hg (fun j hj hjk => ?_) l i hi hl)
      have hmem : j ∈ g.within (k + 1) ∩ Set.Iio n := ⟨hjk, hj⟩
      exact (heq ▸ hmem).1
    have hfinite : (g.within (k + 1) ∩ Set.Iio n).Finite := (Set.finite_Iio n).inter_of_right _
    have hlt := Set.ncard_lt_ncard hgrows hfinite
    have hle := ih hk
    omega

/-- Among `n` nodes no way to a source needs `n` steps. -/
lemma mem_within_of_reaches (hg : g.Closed n) (hi : i < n) (hreach : g.Reaches i) :
    i ∈ g.within n := by
  by_contra hnot
  have hle := le_ncard_within hg hi hreach hnot
  have hsub : g.within n ∩ Set.Iio n ⊂ Set.Iio n := by
    refine Set.ssubset_iff_subset_ne.mpr ⟨Set.inter_subset_right, fun heq => hnot ?_⟩
    have hmem : i ∈ Set.Iio n := hi
    exact (heq ▸ hmem).1
  have hlt := Set.ncard_lt_ncard hsub (Set.finite_Iio n)
  rw [Set.ncard_Iio_nat] at hlt
  omega

/-- A sweep that visits all nodes looks one step farther. -/
lemma within_subset_sweeps (hg : g.Closed n) (horder : ∀ i < n, i ∈ order) (k : ℕ) :
    Supported g ((g.sweep order)^[k] ∅) ∧
      ∀ i < n, i ∈ g.within k → i ∈ (g.sweep order)^[k] ∅ := by
  induction k with
  | zero => exact ⟨fun i hi => absurd hi (Set.notMem_empty i), fun i _ hi => hi⟩
  | succ k ih =>
    obtain ⟨hsupported, hwithin⟩ := ih
    rw [Function.iterate_succ_apply']
    refine ⟨(supported_sweep hsupported order).1, fun i hi hmarks => ?_⟩
    refine mem_sweep_of_marks hsupported (horder i hi) (hmarks.imp_right ?_)
    exact fun ⟨hpass, j, hj, hjk⟩ => ⟨hpass, j, hj, hwithin j (hg i hi j hj) hjk⟩

lemma reaches_of_mem_sweeps (order : List ℕ) (k : ℕ) :
    ∀ i ∈ (g.sweep order)^[k] ∅, g.Reaches i := by
  induction k with
  | zero => exact fun i hi => absurd hi (Set.notMem_empty i)
  | succ k ih =>
    rw [Function.iterate_succ_apply']
    exact reaches_of_mem_sweep ih order

/-- After `n` sweeps exactly the nodes that reach a source are marked. -/
theorem mem_sweeps_iff (hg : g.Closed n) (horder : ∀ i < n, i ∈ order) (hi : i < n) :
    i ∈ (g.sweep order)^[n] ∅ ↔ g.Reaches i := by
  constructor
  · exact reaches_of_mem_sweeps order n i
  · intro hreach
    exact (within_subset_sweeps hg horder n).2 i hi (mem_within_of_reaches hg hi hreach)

end

end BpfVerify.Marking
