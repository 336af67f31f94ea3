import Mathlib.Data.BitVec
import Mathlib.Data.Set.Basic

/-!
# Arcs of the circle of words

An arc is a base and the number of steps from it to the last value, which may pass the end of the
range. A full arc has every value.
-/
namespace BpfVerify.Arcs

variable {w : ℕ}

structure Arc (w : ℕ) where
  base : BitVec w
  size : BitVec w
  deriving DecidableEq

/-- A difference below zero is taken from the number of words. -/
lemma toNat_sub_of_lt {x y : BitVec w} (hlt : x < y) :
    (x - y).toNat = 2 ^ w + x.toNat - y.toNat := by
  have hlt' : x.toNat < y.toNat := hlt
  have hy : y.toNat < 2 ^ w := y.isLt
  rw [BitVec.toNat_sub, Nat.mod_eq_of_lt (by omega)]
  omega

namespace Arc

/-- The values on the arc. -/
def values (c : Arc w) : Set (BitVec w) := {v | v - c.base ≤ c.size}

/-- The values on the arc in their order from the base. -/
def list (c : Arc w) : List (BitVec w) :=
  (List.range (c.size.toNat + 1)).map fun i => c.base + BitVec.ofNat w i

/-- The value at the end of the arc. -/
def last (c : Arc w) : BitVec w := c.base + c.size

/-- The arc is a range of words: it does not pass the end. -/
def Straight (c : Arc w) : Prop := c.base.toNat + c.size.toNat < 2 ^ w

variable {a b c : Arc w} {v : BitVec w}

lemma mem_values : v ∈ c.values ↔ (v - c.base).toNat ≤ c.size.toNat := BitVec.le_def

lemma base_mem_values (c : Arc w) : c.base ∈ c.values := by
  rw [mem_values, BitVec.sub_self]
  exact Nat.zero_le _

lemma add_mem_values {i : ℕ} (hi : i ≤ c.size.toNat) : c.base + BitVec.ofNat w i ∈ c.values := by
  have hlt : i < 2 ^ w := hi.trans_lt c.size.isLt
  rw [mem_values, add_sub_cancel_left, BitVec.toNat_ofNat, Nat.mod_eq_of_lt hlt]
  exact hi

lemma mem_values_iff_exists :
    v ∈ c.values ↔ ∃ i ≤ c.size.toNat, c.base + BitVec.ofNat w i = v := by
  constructor
  · intro hv
    refine ⟨_, mem_values.mp hv, ?_⟩
    rw [BitVec.ofNat_toNat, BitVec.setWidth_eq, BitVec.add_comm, BitVec.sub_add_cancel]
  · rintro ⟨i, hi, rfl⟩
    exact add_mem_values hi

lemma mem_list : v ∈ c.list ↔ v ∈ c.values := by
  simp only [list, List.mem_map, List.mem_range, mem_values_iff_exists, Nat.lt_succ_iff]

lemma values_of_full (hfull : c.size = BitVec.allOnes w) : c.values = Set.univ := by
  refine Set.eq_univ_of_forall fun v => ?_
  rw [mem_values, hfull, BitVec.toNat_allOnes]
  exact Nat.le_sub_one_of_lt (v - c.base).isLt

lemma Straight.toNat_last (hc : c.Straight) : c.last.toNat = c.base.toNat + c.size.toNat := by
  rw [last, BitVec.toNat_add, Nat.mod_eq_of_lt hc]

/-- An arc that is not full leaves out the value after its last one. -/
lemma next_notMem_values (hfull : c.size ≠ BitVec.allOnes w) :
    c.size.toNat + 1 < 2 ^ w ∧ c.base + BitVec.ofNat w (c.size.toNat + 1) ∉ c.values := by
  have hne : c.size.toNat ≠ 2 ^ w - 1 := by
    rw [← BitVec.toNat_allOnes]
    exact fun h => hfull (BitVec.eq_of_toNat_eq h)
  have hlt : c.size.toNat + 1 < 2 ^ w := by
    have := c.size.isLt
    omega
  refine ⟨hlt, ?_⟩
  rw [mem_values, add_sub_cancel_left, BitVec.toNat_ofNat, Nat.mod_eq_of_lt hlt]
  omega

/-- Around the circle, an arc lies on another one iff it ends before the other does. -/
theorem values_subset_iff : b.values ⊆ a.values ↔
    a.size = BitVec.allOnes w ∨ (b.base - a.base).toNat + b.size.toNat ≤ a.size.toNat := by
  have hsplit (v : BitVec w) : v - a.base = (v - b.base) + (b.base - a.base) := by
    rw [sub_add_sub_cancel]
  constructor
  · intro hsub
    by_contra hnot
    rw [not_or, not_le] at hnot
    obtain ⟨hlt, hnext⟩ := next_notMem_values hnot.1
    have hbase : (b.base - a.base).toNat ≤ a.size.toNat :=
      mem_values.mp (hsub b.base_mem_values)
    have hofNat : BitVec.ofNat w (b.base - a.base).toNat = b.base - a.base := by
      rw [BitVec.ofNat_toNat, BitVec.setWidth_eq]
    -- the value after the last one of `a` is on `b`
    have hoff : b.base + BitVec.ofNat w (a.size.toNat + 1 - (b.base - a.base).toNat) =
        a.base + BitVec.ofNat w (a.size.toNat + 1) := by
      obtain ⟨k, hk⟩ : ∃ k, a.size.toNat + 1 = (b.base - a.base).toNat + k :=
        Nat.exists_eq_add_of_le (by omega)
      rw [hk, Nat.add_sub_cancel_left, BitVec.ofNat_add, hofNat, ← add_assoc, add_sub_cancel]
    exact hnext (hoff ▸ hsub (add_mem_values (by omega)))
  · rintro (hfull | hle) v hv
    · rw [values_of_full hfull]
      exact Set.mem_univ v
    · rw [mem_values] at hv ⊢
      rw [hsplit, BitVec.toNat_add]
      exact (Nat.mod_le _ _).trans (by omega)

end Arc

end BpfVerify.Arcs
