import BpfVerify.LocalStorage

/-!
# Cache indices of local-storage maps

`bpf_local_storage_cache_idx_get` and `bpf_local_storage_cache_idx_free`: each map gets the index
that the fewest maps use. The counters are `u64`; what they count is the number of handles that
are out, and they count it as long as these fit.
-/
namespace BpfVerify.CacheIndex
open LocalStorage

instance : NeZero cacheSize := ⟨by decide⟩

abbrev Idx := Fin cacheSize

/-- `idx_usage_counts` of `struct bpf_local_storage_cache`. -/
abbrev Counts := Idx → UInt64

/-- `U64_MAX`. -/
def u64Max : UInt64 := ~~~0

/-- The loop of `bpf_local_storage_cache_idx_get` over the indices left. -/
def idxSearch (counts : Counts) : List Idx → UInt64 → Idx → Idx
  | [], _, res => res
  | i :: is, minUsage, res =>
    if counts i < minUsage then
      let minUsage := counts i
      if minUsage = 0 then i else idxSearch counts is minUsage i
    else idxSearch counts is minUsage res

/-- `bpf_local_storage_cache_idx_get`. -/
def cacheIdxGet (counts : Counts) : Idx × Counts :=
  let res := idxSearch counts (List.finRange cacheSize) u64Max 0
  (res, Function.update counts res (counts res + 1))

/-- `bpf_local_storage_cache_idx_free`. -/
def cacheIdxFree (counts : Counts) (idx : Idx) : Counts :=
  Function.update counts idx (counts idx - 1)

/-! ## The search -/

/-- The smallest index among those with the minimal count. -/
structure FirstMin (counts : Counts) (res : Idx) : Prop where
  le : ∀ j, (counts res).toNat ≤ (counts j).toNat
  lt_of_lt : ∀ j < res, (counts res).toNat < (counts j).toNat

/-- Where the search over `is` finds a count below `minUsage`: at the first of the least ones. -/
def Found (counts : Counts) (is : List Idx) (minUsage : UInt64) (r : Idx) : Prop :=
  ∃ as bs, is = as ++ r :: bs ∧ (counts r).toNat < minUsage.toNat ∧
    (∀ j ∈ is, (counts r).toNat ≤ (counts j).toNat) ∧
    ∀ j ∈ as, (counts r).toNat < (counts j).toNat

/-- An index that is not below what is found does not matter. -/
lemma Found.cons {counts : Counts} {is : List Idx} {minUsage bound : UInt64} {r i : Idx}
    (h : Found counts is minUsage r) (hi : minUsage.toNat ≤ (counts i).toNat)
    (hbound : minUsage.toNat ≤ bound.toNat) : Found counts (i :: is) bound r := by
  obtain ⟨as, bs, rfl, hlt, hle, has⟩ := h
  refine ⟨i :: as, bs, rfl, by omega, ?_, ?_⟩
  · intro j hj
    rcases List.mem_cons.mp hj with rfl | hj
    · omega
    · exact hle j hj
  · intro j hj
    rcases List.mem_cons.mp hj with rfl | hj
    · omega
    · exact has j hj

/-- The search keeps what it has found before unless it finds a count below. -/
lemma idxSearch_cases (counts : Counts) (is : List Idx) (minUsage : UInt64) (res : Idx) :
    (idxSearch counts is minUsage res = res ∧
      ∀ j ∈ is, minUsage.toNat ≤ (counts j).toNat) ∨
    Found counts is minUsage (idxSearch counts is minUsage res) := by
  induction is generalizing minUsage res with
  | nil => exact .inl ⟨rfl, by simp⟩
  | cons i is ih =>
    simp only [idxSearch]
    split_ifs with hlt hzero
    · -- a free index ends the search
      rw [UInt64.lt_iff_toNat_lt] at hlt
      refine .inr ⟨[], is, rfl, hlt, ?_, by simp⟩
      intro j _
      rw [show (counts i).toNat = 0 from congrArg UInt64.toNat hzero]
      exact Nat.zero_le _
    · rw [UInt64.lt_iff_toNat_lt] at hlt
      right
      rcases ih (counts i) i with ⟨hres, hle⟩ | hfound
      · rw [hres]
        refine ⟨[], is, rfl, hlt, ?_, by simp⟩
        intro j hj
        rcases List.mem_cons.mp hj with rfl | hj
        · exact le_rfl
        · exact hle j hj
      · exact hfound.cons le_rfl hlt.le
    · rw [UInt64.lt_iff_toNat_lt, not_lt] at hlt
      rcases ih minUsage res with ⟨hres, hle⟩ | hfound
      · refine .inl ⟨hres, ?_⟩
        intro j hj
        rcases List.mem_cons.mp hj with rfl | hj
        · exact hlt
        · exact hle j hj
      · exact .inr (hfound.cons hlt le_rfl)

lemma toNat_le_u64Max (x : UInt64) : x.toNat ≤ u64Max.toNat := by
  have hx : x.toNat < 2 ^ 64 := x.toNat_lt
  have hmax : u64Max.toNat = 2 ^ 64 - 1 := by decide
  omega

theorem cacheIdxGet_firstMin (counts : Counts) : FirstMin counts (cacheIdxGet counts).1 := by
  rcases idxSearch_cases counts (List.finRange cacheSize) u64Max 0 with
    ⟨hres, hle⟩ | ⟨as, bs, hsplit, -, hle, has⟩
  · -- nothing is below the sentinel: all counters stand at it
    rw [cacheIdxGet, hres]
    constructor
    · intro j
      exact (toNat_le_u64Max _).trans (hle j (List.mem_finRange j))
    · intro j hj
      exact absurd hj (Fin.not_lt_zero j)
  · constructor
    · exact fun j => hle j (List.mem_finRange j)
    · intro j hj
      apply has j
      have hsorted := List.pairwise_lt_finRange cacheSize
      have hmem := List.mem_finRange j
      rw [hsplit] at hsorted hmem
      have htail := (List.pairwise_cons.mp (List.pairwise_append.mp hsorted).2.1).1
      rcases List.mem_append.mp hmem with hj' | hj'
      · exact hj'
      · rcases List.mem_cons.mp hj' with rfl | hj'
        · exact absurd hj (lt_irrefl _)
        · exact absurd (hj.trans (htail j hj')) (lt_irrefl _)

/-! ## Histories -/

/-- The counters with the number of handles on each index that were given out and not yet
returned. -/
structure Usage where
  counts : Counts
  outstanding : Idx → ℕ

/-- The zeroed cache. -/
def Usage.init : Usage where
  counts := fun _ => 0
  outstanding := fun _ => 0

def Usage.total (u : Usage) : ℕ := ∑ i, u.outstanding i

inductive Op where
  | get
  | free (idx : Idx)

def exec (u : Usage) : Op → Usage
  | .get =>
    let (res, counts) := cacheIdxGet u.counts
    ⟨counts, Function.update u.outstanding res (u.outstanding res + 1)⟩
  | .free idx =>
    ⟨cacheIdxFree u.counts idx, Function.update u.outstanding idx (u.outstanding idx - 1)⟩

def execAll (u : Usage) (ops : List Op) : Usage := ops.foldl exec u

/-- The handles that the counters can tell apart. -/
def capacity : ℕ := cacheSize * (2 ^ 64 - 1)

/-- Each index that is returned was given out, and no more handles than `capacity` are out. -/
def Allowed : Usage → List Op → Prop
  | _, [] => True
  | u, .get :: ops => u.total < capacity ∧ Allowed (exec u .get) ops
  | u, .free idx :: ops => 0 < u.outstanding idx ∧ Allowed (exec u (.free idx)) ops

/-- Each counter tells the handles on its index. -/
def Exact (u : Usage) : Prop := ∀ i, (u.counts i).toNat = u.outstanding i

lemma Exact.lt {u : Usage} (h : Exact u) (i : Idx) : u.outstanding i < 2 ^ 64 := by
  rw [← h i]
  exact (u.counts i).toNat_lt

lemma total_exec_get (u : Usage) : (exec u .get).total = u.total + 1 := by
  obtain ⟨r, hr⟩ : ∃ r, (cacheIdxGet u.counts).1 = r := ⟨_, rfl⟩
  have hnew := Finset.sum_update_of_mem (Finset.mem_univ r) u.outstanding (u.outstanding r + 1)
  have hold := Finset.sum_eq_add_sum_sdiff_singleton_of_mem (Finset.mem_univ r) u.outstanding
  simp only [exec, Usage.total, hr, hnew, hold]
  omega

/-- While a handle is left, some index has room for it, and so has the one that is chosen. -/
lemma Exact.room {u : Usage} (h : Exact u) (htotal : u.total < capacity) :
    (u.counts (cacheIdxGet u.counts).1).toNat < 2 ^ 64 - 1 := by
  by_contra hfull
  have hmin := (cacheIdxGet_firstMin u.counts).le
  have hall : ∀ i ∈ Finset.univ, 2 ^ 64 - 1 ≤ u.outstanding i := by
    intro i _
    rw [← h i]
    exact (not_lt.mp hfull).trans (hmin i)
  have hsum := Finset.card_nsmul_le_sum Finset.univ u.outstanding (2 ^ 64 - 1) hall
  rw [Finset.card_univ, Fintype.card_fin, smul_eq_mul] at hsum
  exact absurd htotal (not_lt.mpr hsum)

lemma Exact.get {u : Usage} (h : Exact u) (htotal : u.total < capacity) :
    Exact (exec u .get) := by
  intro i
  have hroom := h.room htotal
  simp only [exec]
  by_cases hi : i = (cacheIdxGet u.counts).1
  · have hone : ((u.counts i) + 1).toNat = (u.counts i).toNat + 1 := by
      rw [UInt64.toNat_add, UInt64.toNat_one, Nat.mod_eq_of_lt]
      rw [hi]
      omega
    rw [hi] at hone ⊢
    rw [Function.update_self, ← h, ← hone]
    exact congrArg UInt64.toNat (Function.update_self ..)
  · rw [Function.update_of_ne hi, ← h]
    exact congrArg UInt64.toNat (Function.update_of_ne hi ..)

lemma Exact.free {u : Usage} (h : Exact u) {idx : Idx} (hidx : 0 < u.outstanding idx) :
    Exact (exec u (.free idx)) := by
  intro i
  simp only [exec, cacheIdxFree]
  by_cases hi : i = idx
  · subst hi
    have hle : (1 : UInt64) ≤ u.counts i := by
      rw [UInt64.le_iff_toNat_le, h]
      exact hidx
    rw [Function.update_self, Function.update_self, UInt64.toNat_sub_of_le _ _ hle, h]
    rfl
  · rw [Function.update_of_ne hi, Function.update_of_ne hi, h]

theorem Exact.execAll {u : Usage} (h : Exact u) {ops : List Op} (hops : Allowed u ops) :
    Exact (execAll u ops) := by
  induction ops generalizing u with
  | nil => exact h
  | cons op ops ih =>
    cases op with
    | get => exact ih (h.get hops.1) hops.2
    | free idx => exact ih (h.free hops.1) hops.2

/-- The numbers of handles on any two indices differ by at most one. -/
def Balanced (u : Usage) : Prop := ∀ i j, u.outstanding i ≤ u.outstanding j + 1

/-- A handle on one of the least used indices keeps the balance. -/
lemma Balanced.get {u : Usage} (hb : Balanced u) (h : Exact u) : Balanced (exec u .get) := by
  intro i j
  have hmin := (cacheIdxGet_firstMin u.counts).le
  simp only [h _] at hmin
  have hi := hb i j
  have hmi := hmin i
  have hmj := hmin j
  simp only [exec, Function.update_apply]
  split_ifs with hir hjr hjr
  · omega
  · rw [← hir] at hmj
    omega
  · rw [← hjr] at hmi ⊢
    omega
  · exact hi

/-- A run of gets keeps the balance. -/
theorem Balanced.execAll {u : Usage} (hb : Balanced u) (h : Exact u) {ops : List Op}
    (hops : Allowed u ops) (hgets : ∀ op ∈ ops, op = .get) : Balanced (execAll u ops) := by
  induction ops generalizing u with
  | nil => exact hb
  | cons op ops ih =>
    obtain rfl := hgets op List.mem_cons_self
    exact ih (hb.get h) (h.get hops.1) hops.2 fun op hop => hgets op (List.mem_cons_of_mem _ hop)

lemma exact_init : Exact Usage.init := fun _ => rfl

/-- After every allowed history of a zeroed cache, each counter is the number of handles on its
index, the next get returns the first of the least used ones, and gets alone have kept the
counters within one of each other. -/
theorem run_counts {ops : List Op} (hops : Allowed Usage.init ops) :
    (∀ i, ((execAll Usage.init ops).counts i).toNat = (execAll Usage.init ops).outstanding i) ∧
    FirstMin (execAll Usage.init ops).counts (cacheIdxGet (execAll Usage.init ops).counts).1 ∧
    ((∃ i, (execAll Usage.init ops).counts i = 0) →
      (execAll Usage.init ops).counts (cacheIdxGet (execAll Usage.init ops).counts).1 = 0) ∧
    ((∀ op ∈ ops, op = .get) → ∀ i j, ((execAll Usage.init ops).counts i).toNat ≤
      ((execAll Usage.init ops).counts j).toNat + 1) := by
  have hexact := exact_init.execAll hops
  have hmin := cacheIdxGet_firstMin (execAll Usage.init ops).counts
  refine ⟨hexact, hmin, ?_, ?_⟩
  · rintro ⟨i, hi⟩
    have hle := hmin.le i
    rw [hi, UInt64.toNat_zero, Nat.le_zero] at hle
    exact UInt64.toNat_inj.mp hle
  · intro hgets i j
    have hzero : Balanced Usage.init := fun _ _ => Nat.zero_le _
    rw [hexact, hexact]
    exact hzero.execAll exact_init hops hgets i j

/-- Two gets, the return of the first index and a third get. -/
theorem run_counts_three :
    Allowed Usage.init [.get, .get, .free 0, .get] ∧
    ∀ i, ((execAll Usage.init [.get, .get, .free 0, .get]).counts i).toNat =
      (execAll Usage.init [.get, .get, .free 0, .get]).outstanding i := by
  have hops : Allowed Usage.init [.get, .get, .free 0, .get] :=
    ⟨by decide, by decide, by decide, by decide, trivial⟩
  exact ⟨hops, (run_counts hops).1⟩

/-! ## Beyond the capacity -/

lemma execAll_concat (u : Usage) (ops : List Op) (op : Op) :
    execAll u (ops ++ [op]) = exec (execAll u ops) op := by
  simp only [execAll, List.foldl_append, List.foldl_cons, List.foldl_nil]

lemma total_gets (n : ℕ) : (execAll Usage.init (List.replicate n .get)).total = n := by
  induction n with
  | zero => rfl
  | succ n ih => rw [List.replicate_succ', execAll_concat, total_exec_get, ih]

lemma allowed_gets {u : Usage} {n : ℕ} (h : u.total + n ≤ capacity) :
    Allowed u (List.replicate n .get) := by
  induction n generalizing u with
  | zero => trivial
  | succ n ih =>
    refine ⟨by omega, ih ?_⟩
    rw [total_exec_get]
    omega

/-- At the capacity every counter is full. -/
lemma Exact.full {u : Usage} (h : Exact u) (htotal : u.total = capacity) (i : Idx) :
    u.outstanding i = 2 ^ 64 - 1 := by
  have hle : ∀ j ∈ Finset.univ, u.outstanding j ≤ 2 ^ 64 - 1 := fun j _ => by
    have hlt := h.lt j
    omega
  have hsum : ∑ j, u.outstanding j = ∑ _j : Idx, (2 ^ 64 - 1) := by
    rw [Finset.sum_const, Finset.card_univ, Fintype.card_fin, smul_eq_mul]
    exact htotal
  exact (Finset.sum_eq_sum_iff_of_le hle).mp hsum i (Finset.mem_univ i)

/-- One get more wraps a counter to zero, with 2 ^ 64 handles on its index. -/
lemma Exact.wraps {u : Usage} (h : Exact u) (htotal : u.total = capacity) :
    ∃ i, ((exec u .get).counts i).toNat = 0 ∧ (exec u .get).outstanding i = 2 ^ 64 := by
  obtain ⟨r, hr⟩ : ∃ r, (cacheIdxGet u.counts).1 = r := ⟨_, rfl⟩
  have hfull := h.full htotal r
  have hcount : u.counts r + 1 = 0 := by
    rw [← UInt64.toNat_inj, UInt64.toNat_add, h r, hfull]
    rfl
  refine ⟨r, ?_, ?_⟩
  · simp only [exec, cacheIdxGet] at hr ⊢
    rw [hr, Function.update_self, hcount]
    rfl
  · simp only [exec, hr, Function.update_self, hfull]
    rfl

/-- Gets alone fill the counters up to the capacity, and one more breaks the count. -/
theorem gets_wrap :
    ∃ i, ((execAll Usage.init (List.replicate (capacity + 1) .get)).counts i).toNat ≠
      (execAll Usage.init (List.replicate (capacity + 1) .get)).outstanding i := by
  have hinit : Usage.init.total = 0 := by simp [Usage.total, Usage.init]
  have hops : Allowed Usage.init (List.replicate capacity .get) :=
    allowed_gets (by rw [hinit, Nat.zero_add])
  obtain ⟨i, hzero, hhandles⟩ := (exact_init.execAll hops).wraps (total_gets capacity)
  refine ⟨i, ?_⟩
  rw [List.replicate_succ', execAll_concat, hzero, hhandles]
  exact (Nat.two_pow_pos 64).ne

end BpfVerify.CacheIndex
