import Mathlib

/-!
# Binary heaps in level order

The slots `0 .. n` of an array hold a binary tree: the parent of slot `j` is `(j - 1) / 2`.
A sift keeps the tree ordered but for the edges at one slot; each swap moves that slot one
level, so the number of levels bounds the number of swaps.
-/
namespace BinaryHeap

variable {α : Type*} {data : ℕ → α} {n : ℕ}

def parent (j : ℕ) : ℕ := (j - 1) / 2

/-- The values of the first `n` slots. -/
def contents (data : ℕ → α) (n : ℕ) : Multiset α := (Finset.range n).val.map data

lemma contents_congr {data' : ℕ → α} (h : ∀ j < n, data' j = data j) :
    contents data' n = contents data n :=
  Multiset.map_congr rfl fun j hj => h j (Finset.mem_range.mp hj)

lemma contents_succ (data : ℕ → α) (n : ℕ) : contents data (n + 1) = data n ::ₘ contents data n := by
  rw [contents, Finset.range_val, Multiset.range_succ, Multiset.map_cons]
  rfl

lemma contents_swap {a b : ℕ} (ha : a < n) (hb : b < n) :
    contents (data ∘ Equiv.swap a b) n = contents data n := by
  have hperm : (Finset.range n).map (Equiv.swap a b).toEmbedding = Finset.range n := by
    apply Finset.map_perm
    intro c hc
    by_contra hout
    apply hc
    have hca : c ≠ a := fun h => hout (by simpa [h] using ha)
    have hcb : c ≠ b := fun h => hout (by simpa [h] using hb)
    exact Equiv.swap_apply_of_ne_of_ne hca hcb
  have hval := congrArg Finset.val hperm
  rw [Finset.map_val] at hval
  rw [contents, contents, ← Multiset.map_map]
  exact congrArg (Multiset.map data) hval

variable [LinearOrder α]

def Ordered (data : ℕ → α) (n : ℕ) : Prop := ∀ j < n, 0 < j → data (parent j) ≤ data j

/-- Only the edge into slot `i` may be out of order, and what is below `i` fits its parent. -/
structure UpReady (data : ℕ → α) (n i : ℕ) : Prop where
  edge : ∀ j < n, 0 < j → j ≠ i → data (parent j) ≤ data j
  grand : ∀ j < n, 0 < j → parent j = i → 0 < i → data (parent i) ≤ data j

/-- Only the edges out of slot `i` may be out of order, and what is below `i` fits its parent. -/
structure DownReady (data : ℕ → α) (n i : ℕ) : Prop where
  edge : ∀ j < n, 0 < j → parent j ≠ i → data (parent j) ≤ data j
  grand : ∀ j < n, 0 < j → parent j = i → 0 < i → data (parent i) ≤ data j

lemma Ordered.root_le (h : Ordered data n) {j : ℕ} (hj : j < n) : data 0 ≤ data j := by
  induction j using Nat.strong_induction_on with
  | _ j ih =>
    by_cases h0 : j = 0
    · rw [h0]
    · have hlt : parent j < j := by
        unfold parent
        omega
      exact (ih (parent j) hlt (by omega)).trans (h j hj (by omega))

namespace UpReady

/-- A value pushed behind an ordered heap is ready to go up. -/
lemma of_ordered (h : Ordered data n) : UpReady data (n + 1) n := by
  constructor
  case edge =>
    intro j hj h0 hne
    exact h j (by omega) h0
  case grand =>
    intro j hj h0 hpar
    unfold parent at hpar
    omega

lemma finish {i : ℕ} (h : UpReady data n i) (hi : 0 < i → data (parent i) ≤ data i) :
    Ordered data n := by
  intro j hj h0
  by_cases hji : j = i
  · rw [hji] at h0 ⊢
    exact hi h0
  · exact h.edge j hj h0 hji

/-- A swap with a larger parent. -/
lemma swap {i : ℕ} (h : UpReady data n i) (hin : i < n) (h0 : 0 < i)
    (hlt : data i < data (parent i)) :
    UpReady (data ∘ Equiv.swap i (parent i)) n (parent i) := by
  have hpi : parent i < i := by
    unfold parent
    omega
  have hother {j : ℕ} (h1 : j ≠ i) (h2 : j ≠ parent i) : Equiv.swap i (parent i) j = j :=
    Equiv.swap_apply_of_ne_of_ne h1 h2
  constructor
  case edge =>
    intro j hj hj0 hne
    have hpj : parent j < j := by
      unfold parent
      omega
    simp only [Function.comp_apply]
    by_cases hji : j = i
    · rw [hji, Equiv.swap_apply_left, Equiv.swap_apply_right]
      exact hlt.le
    · rw [hother hji hne]
      by_cases hp1 : parent j = i
      · rw [hp1, Equiv.swap_apply_left]
        exact h.grand j hj hj0 hp1 h0
      · by_cases hp2 : parent j = parent i
        · rw [hp2, Equiv.swap_apply_right]
          have hedge := h.edge j hj hj0 hji
          rw [hp2] at hedge
          exact hlt.le.trans hedge
        · rw [hother hp1 hp2]
          exact h.edge j hj hj0 hji
  case grand =>
    intro j hj hj0 hpar hp0
    have hgrand : parent (parent i) < parent i := by
      unfold parent at hp0 ⊢
      omega
    have hroot := h.edge (parent i) (by omega) hp0 (by omega)
    simp only [Function.comp_apply]
    rw [hother (by omega) (by omega)]
    by_cases hji : j = i
    · rw [hji, Equiv.swap_apply_left]
      exact hroot
    · have hjp : j ≠ parent i := by
        intro he
        rw [he] at hpar
        omega
      rw [hother hji hjp]
      have hedge := h.edge j hj hj0 hji
      rw [hpar] at hedge
      exact hroot.trans hedge

end UpReady

namespace DownReady

/-- A new value at the root of an ordered heap is ready to go down. -/
lemma of_ordered (h : ∀ j < n, 0 < j → 0 < parent j → data (parent j) ≤ data j) :
    DownReady data n 0 := by
  constructor
  case edge => exact fun j hj h0 hne => h j hj h0 (by omega)
  case grand => exact fun j hj h0 hpar hi => absurd hi (lt_irrefl 0)

lemma finish {i : ℕ} (h : DownReady data n i)
    (hi : ∀ j < n, 0 < j → parent j = i → data i ≤ data j) : Ordered data n := by
  intro j hj h0
  by_cases hpar : parent j = i
  · rw [hpar]
    exact hi j hj h0 hpar
  · exact h.edge j hj h0 hpar

/-- A swap with the smallest child. -/
lemma swap {i c : ℕ} (h : DownReady data n i) (hcn : c < n) (hc0 : 0 < c) (hc : parent c = i)
    (hlt : data c < data i) (hmin : ∀ j < n, 0 < j → parent j = i → data c ≤ data j) :
    DownReady (data ∘ Equiv.swap i c) n c := by
  have hic : i < c := by
    unfold parent at hc
    omega
  have hother {j : ℕ} (h1 : j ≠ i) (h2 : j ≠ c) : Equiv.swap i c j = j :=
    Equiv.swap_apply_of_ne_of_ne h1 h2
  have hlt_parent {j : ℕ} (hj : 0 < j) : parent j < j := by
    unfold parent
    omega
  constructor
  case edge =>
    intro j hj hj0 hpar
    simp only [Function.comp_apply]
    by_cases hjc : j = c
    · rw [hjc, hc, Equiv.swap_apply_left, Equiv.swap_apply_right]
      exact hlt.le
    · by_cases hpi : parent j = i
      · have := hlt_parent hj0
        rw [hpi, Equiv.swap_apply_left, hother (by omega) hjc]
        exact hmin j hj hj0 hpi
      · rw [hother hpi hpar]
        by_cases hji : j = i
        · rw [hji, Equiv.swap_apply_left]
          rw [hji] at hj0
          exact h.grand c hcn hc0 hc hj0
        · rw [hother hji hjc]
          exact h.edge j hj hj0 hpi
  case grand =>
    intro j hj hj0 hpar _
    have := hlt_parent hj0
    simp only [Function.comp_apply]
    rw [hc, Equiv.swap_apply_left, hother (by omega) (by omega)]
    have hedge := h.edge j hj hj0 (by omega)
    rwa [hpar] at hedge

end DownReady

end BinaryHeap
