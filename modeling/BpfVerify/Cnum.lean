import BpfVerify.Arcs

/-!
# The circular numbers of the shim

The subset test of `shims/states/include/linux/cnum.h`, which `kernel/bpf/states.c` is compiled
with in the place of the kernel's own.
-/
namespace BpfVerify.Cnum
open Arcs

abbrev Cnum32 := Arc 32

abbrev Cnum64 := Arc 64

/-- The test at a width. The last difference wraps when `cur` begins after the end of `old`. -/
def cnumIsSubset {w : ℕ} (old cur : Arc w) : Bool :=
  if old.size = BitVec.allOnes w then true
  else if cur.base < old.base then false
  else decide (cur.size ≤ old.size - (cur.base - old.base))

def cnum32IsSubset (old cur : Cnum32) : Bool := cnumIsSubset old cur

def cnum64IsSubset (old cur : Cnum64) : Bool := cnumIsSubset old cur

variable {w : ℕ} {old cur : Arc w}

lemma isSubset_of_lt (hfull : old.size ≠ BitVec.allOnes w) (hlt : cur.base < old.base) :
    cnumIsSubset old cur = false := by
  rw [cnumIsSubset, if_neg hfull, if_pos hlt]

lemma isSubset_of_le (hfull : old.size ≠ BitVec.allOnes w) (hle : old.base ≤ cur.base) :
    cnumIsSubset old cur = true ↔ cur.size ≤ old.size - (cur.base - old.base) := by
  rw [cnumIsSubset, if_neg hfull, if_neg (BitVec.not_lt.mpr hle), decide_eq_true_eq]

/-- Where `cur` begins on `old`, the last difference is what is left of `old`. -/
lemma le_sub_iff (hoff : cur.base - old.base ≤ old.size) :
    cur.size ≤ old.size - (cur.base - old.base) ↔
      (cur.base - old.base).toNat + cur.size.toNat ≤ old.size.toNat := by
  have hle : (cur.base - old.base).toNat ≤ old.size.toNat := hoff
  rw [BitVec.le_def, BitVec.toNat_sub_of_le hoff]
  omega

/-- The test says yes to the arcs that `old` covers without passing the end of the range, and to
arcs that begin after the end of `old`. -/
lemma isSubset_iff (hfull : old.size ≠ BitVec.allOnes w) : cnumIsSubset old cur = true ↔
    old.base ≤ cur.base ∧ (cur.values ⊆ old.values ∨
      old.size < cur.base - old.base ∧ cur.size ≤ old.size - (cur.base - old.base)) := by
  rw [Arc.values_subset_iff, or_iff_right hfull]
  rcases Nat.lt_or_ge cur.base.toNat old.base.toNat with hlt | hge
  · rw [isSubset_of_lt hfull hlt]
    exact iff_of_false Bool.false_ne_true fun h => BitVec.not_le.mpr hlt h.1
  · rw [isSubset_of_le hfull hge, and_iff_right (a := old.base ≤ cur.base) hge]
    rcases Nat.lt_or_ge old.size.toNat (cur.base - old.base).toNat with hout | hon
    · have hlt : old.size.toNat < (cur.base - old.base).toNat := hout
      rw [and_iff_right (a := old.size < cur.base - old.base) hout, or_iff_right (by omega)]
    · rw [le_sub_iff hon, or_iff_left fun h => BitVec.not_lt.mpr hon h.1]

lemma not_subset_of_lt_sub (hfull : old.size ≠ BitVec.allOnes w)
    (hout : old.size < cur.base - old.base) : ¬ cur.values ⊆ old.values := by
  have hlt : old.size.toNat < (cur.base - old.base).toNat := hout
  rw [Arc.values_subset_iff, or_iff_right hfull]
  omega

/-- A range above `old` is not so long that the difference, once wrapped, is too small for it. -/
lemma wrapped_of_straight (hold : old.Straight) (hcur : cur.Straight) (hge : old.base ≤ cur.base) :
    old.size < cur.base - old.base ∧ cur.size ≤ old.size - (cur.base - old.base) ↔
      old.last < cur.base := by
  have hle : old.base.toNat ≤ cur.base.toNat := hge
  have hoff : (cur.base - old.base).toNat = cur.base.toNat - old.base.toNat :=
    BitVec.toNat_sub_of_le hge
  rw [BitVec.lt_def (x := old.last), hold.toNat_last]
  constructor
  · rintro ⟨hout, -⟩
    have hlt : old.size.toNat < (cur.base - old.base).toNat := hout
    omega
  · intro hlast
    have hout : old.size < cur.base - old.base := by
      rw [BitVec.lt_def]
      omega
    refine ⟨hout, ?_⟩
    rw [BitVec.le_def, toNat_sub_of_lt hout]
    rw [Arc.Straight] at hcur
    omega

/-- A range that begins before `old` does not lie on it, since `old` does not come around. -/
lemma not_subset_of_straight (hfull : old.size ≠ BitVec.allOnes w) (hold : old.Straight)
    (hlt : cur.base < old.base) : ¬ cur.values ⊆ old.values := by
  have hoff := toNat_sub_of_lt hlt
  rw [Arc.Straight] at hold
  rw [Arc.values_subset_iff, or_iff_right hfull]
  omega

/-- When the test is wrong: it says yes to a `cur` that begins after the end of `old`, and no to
one that lies on `old` after the end of the range. Between ranges, every `cur` above `old` is said
to lie on it. -/
theorem cnumIsSubset_exact (old cur : Arc w) :
    (cnumIsSubset old cur = true ∧ ¬ cur.values ⊆ old.values ↔
      old.size ≠ BitVec.allOnes w ∧ old.base ≤ cur.base ∧ old.size < cur.base - old.base ∧
        cur.size ≤ old.size - (cur.base - old.base)) ∧
    (cnumIsSubset old cur = false ∧ cur.values ⊆ old.values ↔
      old.size ≠ BitVec.allOnes w ∧ cur.base < old.base ∧
        (cur.base - old.base).toNat + cur.size.toNat ≤ old.size.toNat) ∧
    (old.Straight → cur.Straight →
      (cnumIsSubset old cur = true ↔ cur.values ⊆ old.values ∨ old.last < cur.base)) := by
  by_cases hfull : old.size = BitVec.allOnes w
  case pos =>
    have htrue : cnumIsSubset old cur = true := if_pos hfull
    have hsub : cur.values ⊆ old.values := Arc.values_subset_iff.mpr (.inl hfull)
    simp [htrue, hsub, hfull]
  case neg =>
    refine ⟨?_, ?_, fun hold hcur => ?_⟩
    · rw [isSubset_iff hfull, and_iff_right hfull]
      constructor
      · rintro ⟨⟨hge, hsub | hwrapped⟩, hnot⟩
        · exact absurd hsub hnot
        · exact ⟨hge, hwrapped⟩
      · rintro ⟨hge, hwrapped⟩
        exact ⟨⟨hge, .inr hwrapped⟩, not_subset_of_lt_sub hfull hwrapped.1⟩
    · rw [Arc.values_subset_iff, or_iff_right hfull, and_iff_right hfull,
        ← Bool.not_eq_true, isSubset_iff hfull, Arc.values_subset_iff, or_iff_right hfull]
      constructor
      · rintro ⟨hno, hle⟩
        exact ⟨BitVec.not_le.mp fun hge => hno ⟨hge, .inl hle⟩, hle⟩
      · rintro ⟨hlt, hle⟩
        exact ⟨fun h => BitVec.not_le.mpr hlt h.1, hle⟩
    · rw [isSubset_iff hfull]
      rcases Nat.lt_or_ge cur.base.toNat old.base.toNat with hlt | hge
      · have hlast : ¬ old.last < cur.base := by
          have hlt' : cur.base.toNat < old.base.toNat := hlt
          rw [BitVec.lt_def, hold.toNat_last]
          omega
        exact iff_of_false (fun h => BitVec.not_le.mpr hlt h.1)
          (not_or.mpr ⟨not_subset_of_straight hfull hold hlt, hlast⟩)
      · rw [and_iff_right (a := old.base ≤ cur.base) hge, wrapped_of_straight hold hcur hge]

end BpfVerify.Cnum
