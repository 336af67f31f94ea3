import BpfVerify.FreeBits

/-!
# Tristate numbers

The predicates on `struct tnum` of `verifier.c` and of `bpf_verifier.h`, against the values that a
tnum stands for.
-/
namespace BpfVerify.Tristate
open FreeBits

structure Tnum where
  value : BitVec 64
  mask : BitVec 64
  deriving DecidableEq

namespace Tnum

/-- Unknown bits are clear in the value. -/
def WF (t : Tnum) : Prop := t.value &&& t.mask = 0

instance (t : Tnum) : Decidable t.WF := inferInstanceAs (Decidable (_ = _))

/-- The values that the tnum stands for. -/
def gamma (t : Tnum) : Set (BitVec 64) := agreeing t.value t.mask

end Tnum

def tnumIn (old cur : Tnum) : Bool :=
  if cur.mask &&& ~~~old.mask ≠ 0 then false
  else
    let cur := { cur with value := cur.value &&& ~~~old.mask }
    old.value == cur.value

/-- A conversion to `u32`, stored in a `u64`. -/
def low32 (x : BitVec 64) : BitVec 64 := (x.setWidth 32).setWidth 64

def tnumSubreg (t : Tnum) : Tnum := { value := low32 t.value, mask := low32 t.mask }

def tnumIsConst (t : Tnum) : Bool := t.mask == 0

def tnumSubregIsConst (t : Tnum) : Bool := (tnumSubreg t).mask == 0

def tnumEqualsConst (t : Tnum) (value : BitVec 64) : Bool := tnumIsConst t && t.value == value

/-- `SCALAR_VALUE` of `enum bpf_reg_type`. -/
def scalarValue : BitVec 32 := 1

/-- What the constant folding reads of `struct bpf_reg_state`. -/
structure RegState where
  type : BitVec 32
  varOff : Tnum

def isRegConst (reg : RegState) (subreg32 : Bool) : Bool :=
  reg.type == scalarValue && tnumIsConst (if subreg32 then tnumSubreg reg.varOff else reg.varOff)

def regConstValue (reg : RegState) (subreg32 : Bool) : BitVec 64 :=
  if subreg32 then (tnumSubreg reg.varOff).value else reg.varOff.value

/-! ## The values behind the predicates -/

lemma toNat_low32 (x : BitVec 64) : (low32 x).toNat = x.toNat % 2 ^ 32 := by
  rw [low32, BitVec.toNat_setWidth, BitVec.toNat_setWidth]
  omega

lemma low32_eq_and (x : BitVec 64) : low32 x = x &&& 0xffffffff := by
  apply BitVec.eq_of_toNat_eq
  rw [toNat_low32, BitVec.toNat_and]
  exact (Nat.and_two_pow_sub_one_eq_mod x.toNat 32).symm

theorem tnumIn_iff {a b : Tnum} (hb : b.WF) : tnumIn a b = true ↔ b.gamma ⊆ a.gamma := by
  rw [Tnum.gamma, Tnum.gamma, subset_iff hb, tnumIn]
  by_cases hmask : b.mask &&& ~~~a.mask = 0
  · rw [if_neg (not_not.mpr hmask)]
    simp only [beq_iff_eq, hmask, true_and]
    exact eq_comm
  · rw [if_pos hmask]
    exact iff_of_false Bool.false_ne_true fun h => hmask h.1

theorem gamma_tnumSubreg {t : Tnum} (ht : t.WF) : (tnumSubreg t).gamma = low32 '' t.gamma := by
  have hlow : low32 = fun z => z &&& 0xffffffff := funext low32_eq_and
  rw [hlow, Tnum.gamma, Tnum.gamma, image_and ht, tnumSubreg, hlow]

theorem wf_tnumSubreg {t : Tnum} (ht : t.WF) : (tnumSubreg t).WF := by
  rw [Tnum.WF, tnumSubreg, low32_eq_and, low32_eq_and]
  exact disjoint_and ht _

theorem tnumEqualsConst_iff {t : Tnum} (ht : t.WF) (v : BitVec 64) :
    tnumEqualsConst t v = true ↔ t.gamma = {v} := by
  rw [Tnum.gamma, eq_singleton_iff ht, tnumEqualsConst, tnumIsConst, Bool.and_eq_true, beq_iff_eq,
    beq_iff_eq]

theorem tnumIsConst_iff {t : Tnum} (ht : t.WF) :
    tnumIsConst t = true ↔ ∃ x, t.gamma = {x} := by
  simp only [← tnumEqualsConst_iff ht, tnumEqualsConst, Bool.and_eq_true, beq_iff_eq]
  exact ⟨fun h => ⟨t.value, h, rfl⟩, fun ⟨_, h, _⟩ => h⟩

lemma setWidth_low32 (z : BitVec 64) : (low32 z).setWidth 32 = z.setWidth 32 := by
  rw [low32, BitVec.setWidth_setWidth_of_le _ (by decide), BitVec.setWidth_eq]

/-- The values of the subregister are one value where the low halves of all values are. -/
theorem tnumSubregIsConst_iff {t : Tnum} (ht : t.WF) : tnumSubregIsConst t = true ↔
    ∃ x : BitVec 32, (fun z => z.setWidth 32) '' t.gamma = {x} := by
  have hcut : (fun z : BitVec 64 => z.setWidth 32) '' t.gamma =
      (fun z : BitVec 64 => z.setWidth 32) '' (tnumSubreg t).gamma := by
    rw [gamma_tnumSubreg ht, Set.image_image]
    simp only [setWidth_low32]
  have hwide : (tnumSubreg t).gamma =
      (fun x : BitVec 32 => x.setWidth 64) '' ((fun z : BitVec 64 => z.setWidth 32) '' t.gamma) := by
    rw [gamma_tnumSubreg ht, Set.image_image]
    rfl
  show tnumIsConst (tnumSubreg t) = true ↔ _
  rw [tnumIsConst_iff (wf_tnumSubreg ht)]
  constructor
  · rintro ⟨x, hx⟩
    exact ⟨x.setWidth 32, by rw [hcut, hx, Set.image_singleton]⟩
  · rintro ⟨x, hx⟩
    exact ⟨x.setWidth 64, by rw [hwide, hx, Set.image_singleton]⟩

/-- A constant is what all values that a register may have are. -/
theorem regConstValue_eq {reg : RegState} {subreg32 : Bool}
    (h : isRegConst reg subreg32 = true) {z : BitVec 64} (hz : z ∈ reg.varOff.gamma) :
    (if subreg32 then low32 z else z) = regConstValue reg subreg32 := by
  obtain ⟨-, hconst⟩ := Bool.and_eq_true_iff.mp h
  rw [tnumIsConst, beq_iff_eq] at hconst
  have hvalue : z &&& ~~~reg.varOff.mask = reg.varOff.value := hz
  cases subreg32 with
  | false =>
    have hmask : reg.varOff.mask = 0 := hconst
    rw [hmask, show ~~~(0 : BitVec 64) = BitVec.allOnes 64 from rfl, BitVec.and_allOnes] at hvalue
    exact hvalue
  | true =>
    have hmask : low32 reg.varOff.mask = 0 := hconst
    have hkeep : (z &&& ~~~reg.varOff.mask) &&& 0xffffffff = z &&& 0xffffffff := by
      rw [low32_eq_and, disjoint_iff_bits] at hmask
      apply BitVec.eq_of_getLsbD_eq
      intro i hi
      have hbit := hmask i hi
      rw [BitVec.getLsbD_and, BitVec.getLsbD_and, BitVec.getLsbD_not, decide_eq_true hi,
        BitVec.getLsbD_and]
      revert hbit
      cases z.getLsbD i <;> cases reg.varOff.mask.getLsbD i <;> simp
    show low32 z = low32 reg.varOff.value
    rw [low32_eq_and, low32_eq_and, ← hvalue, hkeep]

/-- The predicates say of the values that a tnum stands for what they are named for. -/
theorem predicates_exact {a b t : Tnum} (hb : b.WF) (ht : t.WF) :
    (tnumIn a b = true ↔ b.gamma ⊆ a.gamma) ∧
    ((tnumSubreg t).gamma = {y | ∃ z ∈ t.gamma, y.toNat = z.toNat % 2 ^ 32} ∧
      (tnumSubreg t).WF) ∧
    (tnumIsConst t = true ↔ ∃ x, t.gamma = {x}) ∧
    (tnumSubregIsConst t = true ↔ ∃ x : BitVec 32, (fun z => z.setWidth 32) '' t.gamma = {x}) ∧
    (∀ v, tnumEqualsConst t v = true ↔ t.gamma = {v}) ∧
    ∀ (reg : RegState) (subreg32 : Bool), isRegConst reg subreg32 = true →
      ∀ z ∈ reg.varOff.gamma, (if subreg32 then low32 z else z) = regConstValue reg subreg32 := by
  have hsub : (tnumSubreg t).gamma = low32 '' t.gamma := gamma_tnumSubreg ht
  refine ⟨tnumIn_iff hb, ⟨?_, wf_tnumSubreg ht⟩, tnumIsConst_iff ht, tnumSubregIsConst_iff ht,
    tnumEqualsConst_iff ht, fun reg subreg32 h z hz => regConstValue_eq h hz⟩
  rw [hsub]
  ext y
  constructor
  · rintro ⟨z, hz, rfl⟩
    exact ⟨z, hz, toNat_low32 z⟩
  · rintro ⟨z, hz, hy⟩
    exact ⟨z, hz, BitVec.eq_of_toNat_eq ((toNat_low32 z).trans hy.symm)⟩

/-- Eight values of which the lower half is known. -/
theorem predicates_exact_high :
    (⟨5, 0x700000000⟩ : Tnum).WF ∧ tnumSubregIsConst ⟨5, 0x700000000⟩ = true ∧
    ∃ x : BitVec 32, (fun z => z.setWidth 32) '' (⟨5, 0x700000000⟩ : Tnum).gamma = {x} := by
  have hwf : (⟨5, 0x700000000⟩ : Tnum).WF := by decide
  have hconst : tnumSubregIsConst ⟨5, 0x700000000⟩ = true := by decide
  exact ⟨hwf, hconst, (predicates_exact (a := ⟨5, 0⟩) hwf hwf).2.2.2.1.mp hconst⟩

end BpfVerify.Tristate
