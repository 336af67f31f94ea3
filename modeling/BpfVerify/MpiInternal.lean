import BpfVerify.CopyLoops

/-!
# Limb arithmetic

The macros of `shims/lib/crypto/mpi/mpi-internal.h` on limbs of `w` bits: division of two limbs by
one with a precomputed inverse, and copying and normalising limb vectors.
-/
namespace BpfVerify.MpiInternal
open CopyLoops

/-- The double-limb operations of `longlong.h`, which is not part of the shim. -/
structure LongLong (w : ℕ) where
  umulPpmm : BitVec w → BitVec w → BitVec w × BitVec w
  subDdmmss : BitVec w → BitVec w → BitVec w → BitVec w → BitVec w × BitVec w
  umulPpmm_spec : ∀ u v, (umulPpmm u v).1.toNat * 2 ^ w + (umulPpmm u v).2.toNat = u.toNat * v.toNat
  subDdmmss_spec : ∀ ah al bh bl,
    (subDdmmss ah al bh bl).1.toNat * 2 ^ w + (subDdmmss ah al bh bl).2.toNat =
      (ah.toNat * 2 ^ w + al.toNat + 2 ^ w * 2 ^ w - (bh.toNat * 2 ^ w + bl.toNat)) %
        (2 ^ w * 2 ^ w)

section
variable {w : ℕ} (ll : LongLong w)

/-- The variables `_xh`, `_r` and `_q` after the two corrections of the high limb. -/
def correctHigh (xh r q d : BitVec w) : BitVec w × BitVec w × BitVec w :=
  if xh ≠ 0 then
    let x := ll.subDdmmss xh r 0 d
    if x.1 ≠ 0 then
      let y := ll.subDdmmss x.1 x.2 0 d
      (y.1, y.2, q + 1 + 1)
    else (x.1, x.2, q + 1)
  else (xh, r, q)

/-- `UDIV_QRNND_PREINV`: the quotient and the remainder. -/
def udivQrnndPreinv (nh nl d di : BitVec w) : BitVec w × BitVec w :=
  let q := (ll.umulPpmm nh di).1 + nh
  let x := ll.umulPpmm q d
  let x := ll.subDdmmss nh nl x.1 x.2
  let (_, r, q) := correctHigh ll x.1 x.2 q d
  if r ≥ d then (q + 1, r - d) else (q, r)

variable {ll}

/-- The value of two limbs. -/
def pair (x : BitVec w × BitVec w) : ℕ := x.1.toNat * 2 ^ w + x.2.toNat

lemma subDdmmss_of_le {ah al bh bl : BitVec w}
    (h : bh.toNat * 2 ^ w + bl.toNat ≤ ah.toNat * 2 ^ w + al.toNat) :
    pair (ll.subDdmmss ah al bh bl) =
      ah.toNat * 2 ^ w + al.toNat - (bh.toNat * 2 ^ w + bl.toNat) := by
  have hah := ah.isLt
  have hal := al.isLt
  have hlt : ah.toNat * 2 ^ w + al.toNat < 2 ^ w * 2 ^ w := by
    calc ah.toNat * 2 ^ w + al.toNat < ah.toNat * 2 ^ w + 2 ^ w := by omega
      _ = (ah.toNat + 1) * 2 ^ w := by ring
      _ ≤ 2 ^ w * 2 ^ w := Nat.mul_le_mul_right _ hah
  rw [pair, ll.subDdmmss_spec, Nat.add_comm _ (2 ^ w * 2 ^ w), Nat.add_sub_assoc h,
    Nat.add_mod_left, Nat.mod_eq_of_lt (by omega)]

lemma pair_fst_eq_zero_iff (x : BitVec w × BitVec w) : x.1 = 0 ↔ pair x < 2 ^ w := by
  have hlow := x.2.isLt
  rw [pair]
  constructor
  · intro h
    rw [h, BitVec.ofNat_eq_ofNat, BitVec.toNat_ofNat, Nat.zero_mod]
    omega
  · intro h
    apply BitVec.eq_of_toNat_eq
    have hpos : x.1.toNat * 2 ^ w < 1 * 2 ^ w := by omega
    have hlt := Nat.lt_of_mul_lt_mul_right hpos
    simpa using Nat.lt_one_iff.mp hlt

lemma pair_of_fst_eq_zero {x : BitVec w × BitVec w} (h : x.1 = 0) : pair x = x.2.toNat := by
  rw [pair, h, BitVec.ofNat_eq_ofNat, BitVec.toNat_ofNat, Nat.zero_mod, Nat.zero_mul, Nat.zero_add]

lemma subDdmmss_zero {xh r d : BitVec w} (h : d.toNat ≤ pair (xh, r)) :
    pair (ll.subDdmmss xh r 0 d) = pair (xh, r) - d.toNat := by
  have hzero : (0 : BitVec w).toNat * 2 ^ w + d.toNat = d.toNat := by
    rw [BitVec.ofNat_eq_ofNat, BitVec.toNat_ofNat, Nat.zero_mod, Nat.zero_mul, Nat.zero_add]
  rw [subDdmmss_of_le (by rw [hzero]; exact h), hzero, pair]

/-- The corrections take the divisor off until one limb is left. -/
lemma correctHigh_spec {xh r d : BitVec w} (q : BitVec w) (hx : pair (xh, r) < 2 ^ w + 2 * d.toNat) :
    ∃ k : ℕ, (correctHigh ll xh r q d).2.2 = q + BitVec.ofNat w k ∧
      (correctHigh ll xh r q d).2.1.toNat + k * d.toNat = pair (xh, r) := by
  have hd := d.isLt
  by_cases hxh : xh = 0
  · refine ⟨0, ?_, ?_⟩
    · simp [correctHigh, hxh]
    · rw [pair_of_fst_eq_zero hxh, correctHigh, if_neg (not_not.mpr hxh), Nat.zero_mul,
        Nat.add_zero]
  · have hge : ¬ pair (xh, r) < 2 ^ w := fun hlt => hxh ((pair_fst_eq_zero_iff (xh, r)).mpr hlt)
    have hle : d.toNat ≤ pair (xh, r) := by omega
    have hone : pair (ll.subDdmmss xh r 0 d) = pair (xh, r) - d.toNat := subDdmmss_zero hle
    rw [correctHigh, if_pos hxh]
    dsimp only
    generalize ll.subDdmmss xh r 0 d = x at hone
    by_cases hx1 : x.1 = 0
    · rw [if_neg (not_not.mpr hx1)]
      rw [pair_of_fst_eq_zero hx1] at hone
      exact ⟨1, rfl, by dsimp only; omega⟩
    · have hge' : ¬ pair x < 2 ^ w := fun hlt => hx1 ((pair_fst_eq_zero_iff x).mpr hlt)
      have hle' : d.toNat ≤ pair (x.1, x.2) := by
        change d.toNat ≤ pair x
        omega
      have htwo : pair (ll.subDdmmss x.1 x.2 0 d) = pair x - d.toNat := subDdmmss_zero hle'
      rw [if_pos hx1]
      generalize ll.subDdmmss x.1 x.2 0 d = y at htwo
      have hy : y.1 = 0 := by
        rw [pair_fst_eq_zero_iff, htwo, hone]
        omega
      rw [pair_of_fst_eq_zero hy] at htwo
      refine ⟨2, ?_, ?_⟩
      · change q + 1 + 1 = q + BitVec.ofNat w 2
        rw [BitVec.add_assoc]
        exact congrArg (q + ·) (BitVec.ofNat_add 1 1).symm
      · change y.2.toNat + 2 * d.toNat = _
        have hpair : pair (x.1, x.2) = pair x := rfl
        omega

/-! ## The estimate -/

/-- Multiplying with the inverse gives the quotient, or up to three less. -/
lemma estimate {B d nh nl : ℕ} (hd : d < B) (hnh : nh < d) (hnl : nl < B) :
    nh * ((B * B - 1) / d) / B * d ≤ nh * B + nl ∧
      nh * B + nl - nh * ((B * B - 1) / d) / B * d < B + 2 * d := by
  generalize hv : (B * B - 1) / d = v
  generalize hq : nh * v / B = q
  have hB0 : 0 < B := Nat.lt_of_le_of_lt (Nat.zero_le _) hd
  have hd0 : 0 < d := Nat.lt_of_le_of_lt (Nat.zero_le _) hnh
  have hBB : 0 < B * B := Nat.mul_pos hB0 hB0
  have hvle : v * d ≤ B * B := (hv ▸ Nat.div_mul_le_self (B * B - 1) d).trans (Nat.sub_le _ _)
  have hvlt : B * B ≤ v * d + d := by
    have hlt := Nat.lt_div_mul_add (a := B * B - 1) hd0
    rw [hv] at hlt
    omega
  have hqle : q * B ≤ nh * v := hq ▸ Nat.div_mul_le_self (nh * v) B
  have hqlt : nh * v < q * B + B := hq ▸ Nat.lt_div_mul_add hB0
  have hlow : q * d ≤ nh * B := by
    refine Nat.le_of_mul_le_mul_right ?_ hB0
    calc q * d * B = q * B * d := by ring
      _ ≤ nh * v * d := Nat.mul_le_mul_right _ hqle
      _ = nh * (v * d) := by ring
      _ ≤ nh * (B * B) := Nat.mul_le_mul_left _ hvle
      _ = nh * B * B := by ring
  have hhigh : nh * B < q * d + 2 * d := by
    refine Nat.lt_of_mul_lt_mul_right (a := B) ?_
    calc nh * B * B = nh * (B * B) := by ring
      _ ≤ nh * (v * d + d) := Nat.mul_le_mul_left _ hvlt
      _ = nh * v * d + nh * d := by ring
      _ < (q * B + B) * d + B * d := by
          have hfirst := Nat.mul_lt_mul_of_pos_right hqlt hd0
          have hsecond := Nat.mul_le_mul_right d (hnh.trans hd).le
          omega
      _ = (q * d + 2 * d) * B := by ring
  exact ⟨by omega, by omega⟩

/-- The quotient estimate does not leave the limb. -/
lemma toNat_estimate {nh d di : BitVec w} (hnh : nh.toNat < d.toNat)
    (hdi : di.toNat + 2 ^ w = (2 ^ w * 2 ^ w - 1) / d.toNat) :
    ((ll.umulPpmm nh di).1 + nh).toNat =
      nh.toNat * ((2 ^ w * 2 ^ w - 1) / d.toNat) / 2 ^ w := by
  have hpos : 0 < 2 ^ w := Nat.two_pow_pos w
  have hspec := ll.umulPpmm_spec nh di
  have hlow := (ll.umulPpmm nh di).2.isLt
  have hhigh : (ll.umulPpmm nh di).1.toNat = nh.toNat * di.toNat / 2 ^ w := by
    rw [← hspec, Nat.add_comm, Nat.add_mul_div_right _ _ hpos, Nat.div_eq_of_lt hlow, Nat.zero_add]
  have hsum : nh.toNat * di.toNat / 2 ^ w + nh.toNat =
      nh.toNat * ((2 ^ w * 2 ^ w - 1) / d.toNat) / 2 ^ w := by
    rw [← hdi, Nat.mul_add, Nat.add_mul_div_right _ _ hpos]
  have hlt : nh.toNat * ((2 ^ w * 2 ^ w - 1) / d.toNat) / 2 ^ w < 2 ^ w := by
    have hle := (estimate d.isLt hnh hpos).1
    refine Nat.lt_of_mul_lt_mul_right (a := d.toNat) ?_
    calc _ ≤ nh.toNat * 2 ^ w + 0 := hle
      _ < d.toNat * 2 ^ w := by
          rw [Nat.add_zero]
          exact Nat.mul_lt_mul_of_pos_right hnh hpos
      _ = 2 ^ w * d.toNat := Nat.mul_comm _ _
  rw [BitVec.toNat_add, hhigh, hsum, Nat.mod_eq_of_lt hlt]

lemma toNat_quotient {n q k r d : ℕ} (hn : r + (q + k) * d = n) (hr : r < d)
    (hlt : n < d * 2 ^ w) :
    (BitVec.ofNat w q + BitVec.ofNat w k).toNat = n / d ∧ r = n % d := by
  obtain ⟨hdiv, hmod⟩ : n / d = q + k ∧ n % d = r := by
    rw [Nat.div_mod_unique (Nat.zero_lt_of_lt hr), Nat.mul_comm d]
    exact ⟨hn, hr⟩
  have hquot : q + k < 2 ^ w := by
    rw [← hdiv]
    exact Nat.div_lt_of_lt_mul hlt
  rw [← BitVec.ofNat_add, BitVec.toNat_ofNat, Nat.mod_eq_of_lt hquot]
  exact ⟨hdiv.symm, hmod.symm⟩

/-- For a normalised divisor and its inverse, `UDIV_QRNND_PREINV` divides. -/
theorem udivQrnndPreinv_exact (ll : LongLong w) {nh nl d di : BitVec w}
    (hd : 2 ^ w ≤ 2 * d.toNat) (hnh : nh < d)
    (hdi : di.toNat + 2 ^ w = (2 ^ w * 2 ^ w - 1) / d.toNat) :
    (udivQrnndPreinv ll nh nl d di).1.toNat = (nh.toNat * 2 ^ w + nl.toNat) / d.toNat ∧
      (udivQrnndPreinv ll nh nl d di).2.toNat = (nh.toNat * 2 ^ w + nl.toNat) % d.toNat := by
  have hnh' : nh.toNat < d.toNat := BitVec.lt_def.mp hnh
  have hest : ((ll.umulPpmm nh di).1 + nh).toNat =
      nh.toNat * ((2 ^ w * 2 ^ w - 1) / d.toNat) / 2 ^ w := toNat_estimate hnh' hdi
  obtain ⟨hle, hlt⟩ := estimate d.isLt hnh' nl.isLt
  have hn : nh.toNat * 2 ^ w + nl.toNat < d.toNat * 2 ^ w := by
    calc nh.toNat * 2 ^ w + nl.toNat < nh.toNat * 2 ^ w + 2 ^ w := Nat.add_lt_add_left nl.isLt _
      _ = (nh.toNat + 1) * 2 ^ w := by ring
      _ ≤ d.toNat * 2 ^ w := Nat.mul_le_mul_right _ hnh'
  rw [udivQrnndPreinv]
  generalize (ll.umulPpmm nh di).1 + nh = q at hest
  have hmul : pair (ll.umulPpmm q d) = q.toNat * d.toNat := ll.umulPpmm_spec q d
  rw [← hest] at hle hlt
  generalize ll.umulPpmm q d = x at hmul
  have hsub : pair (ll.subDdmmss nh nl x.1 x.2) =
      nh.toNat * 2 ^ w + nl.toNat - q.toNat * d.toNat := by
    rw [← hmul]
    exact subDdmmss_of_le (by rw [← hmul] at hle; exact hle)
  generalize ll.subDdmmss nh nl x.1 x.2 = x at hsub
  have hx : pair (x.1, x.2) < 2 ^ w + 2 * d.toNat := by
    change pair x < _
    omega
  obtain ⟨k, hq, hr⟩ : ∃ k : ℕ, (correctHigh ll x.1 x.2 q d).2.2 = q + BitVec.ofNat w k ∧
      (correctHigh ll x.1 x.2 q d).2.1.toNat + k * d.toNat = pair (x.1, x.2) :=
    correctHigh_spec q hx
  change _ = pair x at hr
  dsimp only
  generalize correctHigh ll x.1 x.2 q d = y at hq hr
  obtain ⟨_, r, q'⟩ := y
  dsimp only at hq hr ⊢
  have hqk : q' = BitVec.ofNat w q.toNat + BitVec.ofNat w k := by
    rw [hq, BitVec.ofNat_toNat, BitVec.setWidth_eq]
  have hsum : r.toNat + (q.toNat + k) * d.toNat = nh.toNat * 2 ^ w + nl.toNat := by
    rw [Nat.add_mul]
    omega
  by_cases hge : r ≥ d
  · -- the divisor goes into the last limb once more
    have hge' : d.toNat ≤ r.toNat := BitVec.le_def.mp hge
    have hrd : (r - d).toNat = r.toNat - d.toNat := BitVec.toNat_sub_of_le hge
    have hr_lt := r.isLt
    rw [if_pos hge, hqk, BitVec.add_assoc, hrd]
    have hk : BitVec.ofNat w k + 1 = BitVec.ofNat w (k + 1) := (BitVec.ofNat_add k 1).symm
    rw [hk]
    refine toNat_quotient ?_ (by omega) hn
    rw [← Nat.add_assoc, Nat.add_mul, Nat.one_mul]
    omega
  · have hlt' : r.toNat < d.toNat := by
      rw [ge_iff_le, BitVec.le_def, Nat.not_le] at hge
      exact hge
    rw [if_neg hge, hqk]
    exact toNat_quotient hsum hlt' hn

/-- The double-limb operations by way of numbers. -/
def LongLong.ofNat (w : ℕ) : LongLong w where
  umulPpmm u v := (BitVec.ofNat w (u.toNat * v.toNat / 2 ^ w), BitVec.ofNat w (u.toNat * v.toNat))
  subDdmmss ah al bh bl :=
    let n := (ah.toNat * 2 ^ w + al.toNat + 2 ^ w * 2 ^ w - (bh.toNat * 2 ^ w + bl.toNat)) %
      (2 ^ w * 2 ^ w)
    (BitVec.ofNat w (n / 2 ^ w), BitVec.ofNat w n)
  umulPpmm_spec u v := by
    have hlt : u.toNat * v.toNat / 2 ^ w < 2 ^ w :=
      Nat.div_lt_of_lt_mul (Nat.mul_lt_mul'' u.isLt v.isLt)
    dsimp only
    rw [BitVec.toNat_ofNat, BitVec.toNat_ofNat, Nat.mod_eq_of_lt hlt, Nat.div_add_mod']
  subDdmmss_spec ah al bh bl := by
    dsimp only
    generalize hn : (ah.toNat * 2 ^ w + al.toNat + 2 ^ w * 2 ^ w - (bh.toNat * 2 ^ w + bl.toNat)) %
      (2 ^ w * 2 ^ w) = n
    have hlt : n / 2 ^ w < 2 ^ w := by
      refine Nat.div_lt_of_lt_mul ?_
      rw [← hn]
      exact Nat.mod_lt _ (Nat.mul_pos (Nat.two_pow_pos w) (Nat.two_pow_pos w))
    rw [BitVec.toNat_ofNat, BitVec.toNat_ofNat, Nat.mod_eq_of_lt hlt, Nat.div_add_mod']

/-- The divisor 0xc0 on limbs of eight bits. -/
theorem udivQrnndPreinv_exact_sample :
    (udivQrnndPreinv (LongLong.ofNat 8) 0xbf 0xff 0xc0 0x55).1.toNat = 0xbfff / 0xc0 :=
  (udivQrnndPreinv_exact (LongLong.ofNat 8) (by decide) (by decide) (by decide)).1

end

/-! ## Limb vectors -/

section
variable {w : ℕ}

/-- The limbs of the memory, by address. -/
abbrev Limbs (w : ℕ) := ℤ → BitVec w

/-- `MPN_COPY`, upwards. -/
def mpnCopy (mem : Limbs w) (d s : ℤ) (n : ℕ) : Limbs w := copyUp mem d s n

/-- `MPN_COPY_DECR`, downwards. -/
def mpnCopyDecr (mem : Limbs w) (d s : ℤ) (n : ℕ) : Limbs w := copyDown mem d s n

/-- `MPN_NORMALIZE`: the size without the zero limbs at the top. -/
def mpnNormalize (mem : Limbs w) (d : ℤ) : ℕ → ℕ
  | 0 => 0
  | n + 1 => if mem (d + n) ≠ 0 then n + 1 else mpnNormalize mem d n

/-- The `n` limbs from `d` on, least significant first. -/
def limbs (mem : Limbs w) (d : ℤ) (n : ℕ) : List ℕ :=
  (List.range n).map fun i : ℕ => (mem (d + i)).toNat

lemma limbs_succ (mem : Limbs w) (d : ℤ) (n : ℕ) :
    limbs mem d (n + 1) = limbs mem d n ++ [(mem (d + n)).toNat] := by
  rw [limbs, List.range_succ, List.map_append, List.map_singleton, limbs]

lemma limbs_moved (mem : Limbs w) (d s : ℤ) (n : ℕ) :
    limbs (moved mem d s n) d n = limbs mem s n := by
  refine List.map_congr_left fun i hi => ?_
  have hlt := List.mem_range.mp hi
  rw [moved, if_pos (by omega), add_sub_cancel_left]

lemma limbs_lt (mem : Limbs w) (d : ℤ) (n : ℕ) : ∀ x ∈ limbs mem d n, x < 2 ^ w := by
  intro x hx
  obtain ⟨i, -, rfl⟩ := List.mem_map.mp hx
  exact (mem (d + i)).isLt

/-- `MPN_NORMALIZE` keeps the number that the vector stands for and leaves exactly its digits. -/
theorem mpnNormalize_digits (mem : Limbs w) (d : ℤ) (n : ℕ) (hw : 0 < w) :
    limbs mem d (mpnNormalize mem d n) =
      Nat.digits (2 ^ w) (Nat.ofDigits (2 ^ w) (limbs mem d n)) := by
  have hbase : 1 < 2 ^ w := Nat.one_lt_two_pow hw.ne'
  induction n with
  | zero => simp [mpnNormalize, limbs]
  | succ n ih =>
    rw [mpnNormalize]
    by_cases htop : mem (d + n) = 0
    · rw [if_neg (not_not.mpr htop), ih, limbs_succ, htop, Nat.ofDigits_append]
      simp
    · rw [if_pos htop, Nat.digits_ofDigits (2 ^ w) hbase _ (limbs_lt mem d (n + 1))]
      intro hne
      simp only [limbs_succ, List.getLast_concat]
      exact fun hzero => htop (BitVec.eq_of_toNat_eq (by simpa using hzero))

/-- `MPN_COPY` moves the limbs of every memory unless the destination starts inside the source, and
`MPN_COPY_DECR` unless the source starts inside the destination. Where they do, the normalised
destination holds exactly the digits of the number at the source. -/
theorem mpnCopy_exact (hw : 0 < w) (d s : ℤ) (n : ℕ) :
    ((∀ mem : Limbs w, mpnCopy mem d s n = moved mem d s n) ↔ ¬ (s < d ∧ d < s + n)) ∧
    ((∀ mem : Limbs w, mpnCopyDecr mem d s n = moved mem d s n) ↔ ¬ (d < s ∧ s < d + n)) ∧
    ∀ mem copied : Limbs w, (¬ (s < d ∧ d < s + n) ∧ copied = mpnCopy mem d s n) ∨
        (¬ (d < s ∧ s < d + n) ∧ copied = mpnCopyDecr mem d s n) →
      limbs copied d (mpnNormalize copied d n) =
        Nat.digits (2 ^ w) (Nat.ofDigits (2 ^ w) (limbs mem s n)) := by
  have : Nontrivial (BitVec w) := ⟨0, 1, fun h => by
    have hone := congrArg BitVec.toNat h
    simp [hw.ne'] at hone⟩
  refine ⟨?_, ?_, fun mem copied h => ?_⟩
  · exact (copyUp_eq_moved_iff le_rfl).trans (by omega)
  · exact (copyDown_eq_moved_iff le_rfl).trans (by omega)
  · have hmoved : copied = moved mem d s n := by
      rcases h with ⟨hapart, rfl⟩ | ⟨hapart, rfl⟩
      · exact copyUp_eq_moved mem hapart
      · exact copyDown_eq_moved mem hapart
    rw [mpnNormalize_digits copied d n hw, hmoved, limbs_moved]

/-- Limbs of eight bits that count. -/
def rising : Limbs 8 := BitVec.ofInt 8

theorem mpnCopy_exact_rising :
    limbs (mpnCopyDecr rising 1 0 4) 1 (mpnNormalize (mpnCopyDecr rising 1 0 4) 1 4) =
      Nat.digits (2 ^ 8) (Nat.ofDigits (2 ^ 8) (limbs rising 0 4)) :=
  (mpnCopy_exact (by decide) 1 0 4).2.2 rising _ (.inr ⟨by decide, rfl⟩)

end

end BpfVerify.MpiInternal
