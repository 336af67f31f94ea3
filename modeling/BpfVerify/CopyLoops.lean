import Mathlib

/-! Copying loops inside one memory, upwards and downwards, for every overlap of the destination `d`
with the source `s`. -/
namespace BpfVerify.CopyLoops

variable {α : Type*}

/-- One item after the other, from the first on. -/
def copyUp (mem : ℤ → α) (d s : ℤ) : ℕ → ℤ → α
  | 0 => mem
  | i + 1 =>
      let mem := copyUp mem d s i
      Function.update mem (d + i) (mem (s + i))

/-- One item after the other, from the last on. -/
def copyDown (mem : ℤ → α) (d s : ℤ) : ℕ → ℤ → α
  | 0 => mem
  | i + 1 => copyDown (Function.update mem (d + i) (mem (s + i))) d s i

/-- The memory with the `n` items that were at `s` now at `d`. -/
def moved (mem : ℤ → α) (d s : ℤ) (n : ℕ) (a : ℤ) : α :=
  if d ≤ a ∧ a < d + n then mem (s + (a - d)) else mem a

/-- The item that ends up at the offset `i` of a copy: upwards into its own source the first items
repeat. -/
def upSource (d s i : ℤ) : ℤ := if s < d then s + i % (d - s) else s + i

/-- Downwards into its own source the last items repeat. -/
def downSource (d s n i : ℤ) : ℤ :=
  if d < s then s + n - 1 - (n - 1 - i) % (s - d) else s + i

lemma copyUp_eq (mem : ℤ → α) (d s : ℤ) (n : ℕ) (a : ℤ) :
    copyUp mem d s n a = if d ≤ a ∧ a < d + n then mem (upSource d s (a - d)) else mem a := by
  induction n generalizing a with
  | zero => rw [copyUp, if_neg (by omega)]
  | succ n ih =>
    rw [copyUp]
    by_cases ha : a = d + n
    · subst ha
      rw [Function.update_self, if_pos (by omega), ih, add_sub_cancel_left]
      by_cases hsd : s < d
      · simp only [upSource, if_pos hsd]
        by_cases hrange : d ≤ s + n
        · rw [if_pos (by omega)]
          have hmod : (s + n - d) % (d - s) = (n : ℤ) % (d - s) := by
            rw [show s + n - d = n - (d - s) by ring, Int.sub_emod_right]
          rw [hmod]
        · rw [if_neg (by omega), Int.emod_eq_of_lt (by omega) (by omega)]
      · rw [if_neg (by omega), upSource, if_neg hsd]
    · rw [Function.update_of_ne ha, ih]
      congr 1
      apply propext
      omega

lemma emod_succ {j k : ℤ} : (j + 1) % k = (j % k + 1) % k := by
  conv_lhs => rw [← Int.emod_add_mul_ediv j k]
  rw [add_right_comm, Int.add_mul_emod_self_left]

lemma copyDown_eq (mem : ℤ → α) (d s : ℤ) (n : ℕ) (a : ℤ) :
    copyDown mem d s n a = if d ≤ a ∧ a < d + n then mem (downSource d s n (a - d)) else mem a := by
  induction n generalizing mem a with
  | zero => rw [copyDown, if_neg (by omega)]
  | succ n ih =>
    rw [copyDown, ih]
    by_cases ha : a = d + n
    · subst ha
      rw [if_neg (by omega), Function.update_self, if_pos (by omega), downSource]
      by_cases hds : d < s
      · rw [if_pos hds]
        have hzero : ((n + 1 : ℕ) : ℤ) - 1 - (d + n - d) = 0 := by omega
        rw [hzero, Int.zero_emod]
        congr 1
        omega
      · rw [if_neg hds, add_sub_cancel_left]
    · by_cases hrange : d ≤ a ∧ a < d + n
      · rw [if_pos hrange, if_pos (by omega), downSource, downSource]
        by_cases hds : d < s
        · rw [if_pos hds, if_pos hds]
          have hk : 0 < s - d := by omega
          generalize hj : (n : ℤ) - 1 - (a - d) = j
          have hj' : ((n + 1 : ℕ) : ℤ) - 1 - (a - d) = j + 1 := by omega
          rw [hj']
          have hlow := Int.emod_nonneg j hk.ne'
          have hhigh := Int.emod_lt_of_pos j hk
          by_cases hwrap : j % (s - d) = s - d - 1
          · -- the source is the item that has been written last
            have hnext : (j + 1) % (s - d) = 0 := by
              rw [emod_succ, hwrap, sub_add_cancel, Int.emod_self]
            rw [hnext, hwrap]
            have haddr : s + n - 1 - (s - d - 1) = d + n := by ring
            rw [haddr, Function.update_self]
            congr 1
            omega
          · have hnext : (j + 1) % (s - d) = j % (s - d) + 1 := by
              rw [emod_succ, Int.emod_eq_of_lt (by omega) (by omega)]
            rw [hnext, Function.update_of_ne (by omega)]
            congr 1
            omega
        · rw [if_neg hds, if_neg hds, Function.update_of_ne (by omega)]
      · rw [if_neg hrange, if_neg (by omega), Function.update_of_ne ha]

lemma upSource_eq {d s i : ℤ} (hi : 0 ≤ i) (h : s < d → i < d - s) : upSource d s i = s + i := by
  rw [upSource]
  split_ifs with hsd
  · rw [Int.emod_eq_of_lt hi (h hsd)]
  · rfl

lemma downSource_eq {d s n i : ℤ} (hi : i < n) (h : d < s → n - 1 - i < s - d) :
    downSource d s n i = s + i := by
  rw [downSource]
  split_ifs with hds
  · rw [Int.emod_eq_of_lt (by omega) (h hds)]
    ring
  · rfl

/-- Upwards the items move unless the destination starts inside the source. -/
lemma copyUp_eq_moved (mem : ℤ → α) {d s : ℤ} {n : ℕ} (h : ¬ (s < d ∧ d < s + n)) :
    copyUp mem d s n = moved mem d s n := by
  funext a
  rw [copyUp_eq, moved]
  split_ifs with ha
  · rw [upSource_eq (by omega) (by omega)]
  · rfl

/-- Downwards they move unless the source starts inside the destination. -/
lemma copyDown_eq_moved (mem : ℤ → α) {d s : ℤ} {n : ℕ} (h : ¬ (d < s ∧ s < d + n)) :
    copyDown mem d s n = moved mem d s n := by
  funext a
  rw [copyDown_eq, moved]
  split_ifs with ha
  · rw [downSource_eq (by omega) (by omega)]
  · rfl

lemma moved_self (mem : ℤ → α) (d : ℤ) (n : ℕ) : moved mem d d n = mem := by
  funext a
  rw [moved, add_sub_cancel, ite_self]

/-- A copy that puts the item of another address somewhere is seen on some memory. -/
lemma eq_of_forall_read [Nontrivial α] {a b : ℤ} (h : ∀ mem : ℤ → α, mem a = mem b) : a = b := by
  obtain ⟨x, y, hxy⟩ := exists_pair_ne α
  by_contra hab
  refine hxy ?_
  have hread := h (Function.update (fun _ => y) a x)
  rwa [Function.update_self, Function.update_of_ne (Ne.symm hab)] at hread

/-- Of `n` items only the first `m` are copied upwards: exactly these memories are right. -/
theorem copyUp_eq_moved_iff [Nontrivial α] {d s : ℤ} {m n : ℕ} (hmn : m ≤ n) :
    (∀ mem : ℤ → α, copyUp mem d s m = moved mem d s n) ↔
      d = s ∨ m = n ∧ ¬ (s < d ∧ d < s + n) := by
  constructor
  · intro h
    by_cases hds : d = s
    · exact .inl hds
    have hlen : m = n := by
      by_contra hne
      have heq : d + m = s + m := by
        refine eq_of_forall_read fun mem : ℤ → α => ?_
        have hread := congrFun (h mem) (d + m)
        rw [copyUp_eq, moved, if_neg (by omega), if_pos (by omega), add_sub_cancel_left] at hread
        exact hread
      exact hds (add_right_cancel heq)
    refine .inr ⟨hlen, fun hin => hds (eq_of_forall_read fun mem : ℤ → α => ?_)⟩
    have hread := congrFun (h mem) (d + (d - s))
    rw [copyUp_eq, moved, if_pos (by omega), if_pos (by omega), add_sub_cancel_left, upSource,
      if_pos hin.1, Int.emod_self, add_zero, add_sub_cancel] at hread
    exact hread.symm
  · rintro (rfl | ⟨rfl, hapart⟩) mem
    · rw [copyUp_eq_moved mem (by omega), moved_self, moved_self]
    · exact copyUp_eq_moved mem hapart

theorem copyDown_eq_moved_iff [Nontrivial α] {d s : ℤ} {m n : ℕ} (hmn : m ≤ n) :
    (∀ mem : ℤ → α, copyDown mem d s m = moved mem d s n) ↔
      d = s ∨ m = n ∧ ¬ (d < s ∧ s < d + n) := by
  constructor
  · intro h
    by_cases hds : d = s
    · exact .inl hds
    have hlen : m = n := by
      by_contra hne
      have heq : d + m = s + m := by
        refine eq_of_forall_read fun mem : ℤ → α => ?_
        have hread := congrFun (h mem) (d + m)
        rw [copyDown_eq, moved, if_neg (by omega), if_pos (by omega), add_sub_cancel_left] at hread
        exact hread
      exact hds (add_right_cancel heq)
    subst hlen
    refine .inr ⟨rfl, fun hin => ?_⟩
    -- the item whose place is that of the last source item
    have heq : s + m - 1 = s + (m - 1 - (s - d)) := by
      refine eq_of_forall_read fun mem : ℤ → α => ?_
      have hread := congrFun (h mem) (d + (m - 1 - (s - d)))
      have hoffset : (m : ℤ) - 1 - (m - 1 - (s - d)) = s - d := by ring
      rw [copyDown_eq, moved, if_pos (by omega), if_pos (by omega), add_sub_cancel_left, downSource,
        if_pos hin.1, hoffset, Int.emod_self, sub_zero] at hread
      exact hread
    omega
  · rintro (rfl | ⟨rfl, hapart⟩) mem
    · rw [copyDown_eq_moved mem (by omega), moved_self, moved_self]
    · exact copyDown_eq_moved mem hapart

end BpfVerify.CopyLoops
