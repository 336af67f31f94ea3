import Mathlib

/-!
# Bit strings

Bit strings are lists, most significant bit first. The common prefix of two words is read off
the size of their exclusive or.
-/
namespace BpfVerify.Bits

/-- The number of leading elements two bit strings share. -/
def commonPrefix : List Bool → List Bool → ℕ
  | a :: as, b :: bs => if a = b then commonPrefix as bs + 1 else 0
  | _, _ => 0

@[simp] lemma commonPrefix_nil_left (bs : List Bool) : commonPrefix [] bs = 0 := rfl

@[simp] lemma commonPrefix_nil_right (as : List Bool) : commonPrefix as [] = 0 := by
  cases as with
  | nil => rfl
  | cons a as => rfl

lemma commonPrefix_cons (a b : Bool) (as bs : List Bool) :
    commonPrefix (a :: as) (b :: bs) = if a = b then commonPrefix as bs + 1 else 0 := rfl

lemma commonPrefix_le_left (as bs : List Bool) : commonPrefix as bs ≤ as.length := by
  induction as generalizing bs with
  | nil => simp
  | cons a as ih =>
    cases bs with
    | nil => simp
    | cons b bs =>
      have hle := ih bs
      simp only [commonPrefix_cons, List.length_cons]
      split <;> omega

lemma commonPrefix_comm (as bs : List Bool) : commonPrefix as bs = commonPrefix bs as := by
  induction as generalizing bs with
  | nil => simp
  | cons a as ih =>
    cases bs with
    | nil => simp
    | cons b bs => simp [commonPrefix_cons, ih bs, eq_comm]

lemma commonPrefix_le_right (as bs : List Bool) : commonPrefix as bs ≤ bs.length := by
  rw [commonPrefix_comm]
  exact commonPrefix_le_left bs as

lemma commonPrefix_take (as bs : List Bool) (m n : ℕ) :
    commonPrefix (as.take m) (bs.take n) = min m (min n (commonPrefix as bs)) := by
  induction as generalizing bs m n with
  | nil => simp
  | cons a as ih =>
    cases bs with
    | nil => simp
    | cons b bs =>
      cases m with
      | zero => simp
      | succ m =>
        cases n with
        | zero => simp
        | succ n =>
          simp only [List.take_succ_cons, commonPrefix_cons, ih bs m n]
          split <;> omega

lemma take_commonPrefix (as bs : List Bool) :
    as.take (commonPrefix as bs) = bs.take (commonPrefix as bs) := by
  induction as generalizing bs with
  | nil => simp
  | cons a as ih =>
    cases bs with
    | nil => simp
    | cons b bs =>
      by_cases hab : a = b
      · simp [commonPrefix_cons, hab, ih bs]
      · simp [commonPrefix_cons, hab]

/-- Where two bit strings part, they have different bits. -/
lemma getElem_commonPrefix_ne (as bs : List Bool) (ha : commonPrefix as bs < as.length)
    (hb : commonPrefix as bs < bs.length) :
    as[commonPrefix as bs] ≠ bs[commonPrefix as bs] := by
  induction as generalizing bs with
  | nil => simp at ha
  | cons a as ih =>
    cases bs with
    | nil => simp at hb
    | cons b bs =>
      by_cases hab : a = b
      · simp only [commonPrefix_cons, hab, if_true, List.length_cons] at ha hb ⊢
        simp [ih bs (by omega) (by omega)]
      · simp [commonPrefix_cons, hab]

lemma commonPrefix_eq_length_iff (as bs : List Bool) :
    commonPrefix as bs = as.length ↔ as <+: bs := by
  constructor
  · intro h
    have ht := take_commonPrefix as bs
    rw [h, List.take_length] at ht
    rw [ht]
    exact List.take_prefix _ _
  · rintro ⟨cs, rfl⟩
    induction as with
    | nil => simp
    | cons a as ih => simp [commonPrefix_cons, ih]

/-- Two bit strings that leave `p` with different bits share just `p`. -/
lemma commonPrefix_of_fork {p as bs : List Bool} {b : Bool} (ha : p ++ [b] <+: as)
    (hb : p ++ [!b] <+: bs) : commonPrefix as bs = p.length := by
  obtain ⟨u, rfl⟩ := ha
  obtain ⟨v, rfl⟩ := hb
  induction p with
  | nil => simp [commonPrefix_cons]
  | cons a p ih => simpa [commonPrefix_cons] using ih

lemma length_le_commonPrefix {p as bs : List Bool} (ha : p <+: as) (hb : p <+: bs) :
    p.length ≤ commonPrefix as bs := by
  obtain ⟨u, rfl⟩ := ha
  obtain ⟨v, rfl⟩ := hb
  induction p with
  | nil => simp
  | cons a p ih => simpa [commonPrefix_cons] using ih

/-- Two bit strings agree on a first part of one length, or part within it. -/
lemma commonPrefix_append {as bs : List Bool} (us vs : List Bool) (h : as.length = bs.length) :
    commonPrefix (as ++ us) (bs ++ vs) =
      if commonPrefix as bs = as.length then as.length + commonPrefix us vs
      else commonPrefix as bs := by
  induction as generalizing bs with
  | nil =>
    obtain rfl : bs = [] := List.length_eq_zero_iff.mp h.symm
    simp
  | cons a as ih =>
    cases bs with
    | nil => simp at h
    | cons b bs =>
      have hlen : as.length = bs.length := by simpa using h
      have htail := ih hlen
      by_cases hab : a = b
      · simp only [List.cons_append, commonPrefix_cons, if_pos hab, List.length_cons,
          Nat.add_right_cancel_iff, htail]
        split_ifs <;> omega
      · simp [commonPrefix_cons, hab]

/-! ## Words -/

/-- The bits of a word, most significant first. -/
def msbBits {w : ℕ} (x : BitVec w) : List Bool := (List.range w).map x.getMsbD

@[simp] lemma length_msbBits {w : ℕ} (x : BitVec w) : (msbBits x).length = w := by
  simp [msbBits]

lemma msbBits_cons {w : ℕ} (b : Bool) (x : BitVec w) :
    msbBits (BitVec.cons b x) = b :: msbBits x := by
  apply List.ext_getElem
  · simp
  · intro i h₁ h₂
    cases i with
    | zero => simp [msbBits, BitVec.getMsbD, BitVec.getElem_cons]
    | succ i =>
      simp only [length_msbBits] at h₁
      have hi : w - (i + 1) = w - 1 - i := by omega
      have hne : w - 1 - i ≠ w := by omega
      have hlt : i < w := by omega
      simp [msbBits, BitVec.getMsbD, BitVec.getLsbD_cons, hne, hlt, hi]

/-- Two words agree on all bits above the highest set bit of their exclusive or. -/
theorem commonPrefix_msbBits {w : ℕ} (x y : BitVec w) :
    commonPrefix (msbBits x) (msbBits y) = w - Nat.size (x ^^^ y).toNat := by
  induction w with
  | zero => simp [msbBits]
  | succ w ih =>
    obtain ⟨a, x, rfl⟩ : ∃ a x', x = BitVec.cons a x' := ⟨x.msb, x.setWidth w, by simp⟩
    obtain ⟨b, y, rfl⟩ : ∃ b y', y = BitVec.cons b y' := ⟨y.msb, y.setWidth w, by simp⟩
    have hsize : Nat.size (x ^^^ y).toNat ≤ w := Nat.size_le.mpr (x ^^^ y).isLt
    have hxor : BitVec.cons a x ^^^ BitVec.cons b y = BitVec.cons (a ^^ b) (x ^^^ y) := by
      simp
    rw [hxor, msbBits_cons, msbBits_cons, BitVec.toNat_cons']
    by_cases hab : a = b
    · subst hab
      simp only [commonPrefix_cons, if_true, ih, Bool.xor_self, Bool.toNat_false, Nat.zero_shiftLeft,
        Nat.zero_add]
      omega
    · have hone : (a ^^ b).toNat = 1 := by
        cases a <;> cases b <;> simp_all
      have hlt := (x ^^^ y).isLt
      have hbig : Nat.size ((a ^^ b).toNat <<< w + (x ^^^ y).toNat) = w + 1 := by
        rw [hone, Nat.one_shiftLeft]
        apply le_antisymm
        · rw [Nat.size_le, pow_succ]
          omega
        · exact Nat.lt_size.mpr (by omega)
      simp only [commonPrefix_cons, if_neg hab]
      omega

end BpfVerify.Bits
