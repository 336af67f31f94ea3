import BpfVerify.Bitmap

/-!
# Ranges of a bitmap

`__bitmap_set` and `__bitmap_clear` of `lib/bitmap.c` write whole words. The harness of
`bitmap_parselist` brings its own versions, which write one bit after the other.
-/
namespace BpfVerify.Bitmap
open WordSet

/-- `BITMAP_FIRST_WORD_MASK`: `~0UL << (start & 63)`. -/
def bitmapFirstWordMask (start : UInt32) : BitVec 64 :=
  BitVec.allOnes 64 <<< (start &&& 63).toNat

/-- `while (len - bits_to_set >= 0)`, where the word at `p` is written under a mask. -/
def rangeLoop (write : BitVec 64 → BitVec 64 → BitVec 64) (map : Map) (p : ℕ) (len : ℤ)
    (bitsToSet : ℕ+) (mask : BitVec 64) : Map × ℕ × ℤ × BitVec 64 :=
  if 0 ≤ len - bitsToSet then
    rangeLoop write (Function.update map p (write (map p) mask)) (p + 1) (len - bitsToSet) 64
      (BitVec.allOnes 64)
  else (map, p, len, mask)
termination_by len.toNat
decreasing_by
  have hpos := bitsToSet.pos
  omega

/-- `64 - start % 64`. -/
def bitsInWord (start : UInt32) : ℕ+ :=
  ⟨64 - start.toNat % 64, Nat.sub_pos_of_lt (Nat.mod_lt _ (by decide))⟩

def bitmapRange (write : BitVec 64 → BitVec 64 → BitVec 64) (map : Map) (start : UInt32)
    (len : ℤ) : Map :=
  let size := start + UInt32.ofInt len
  let (map, p, len, mask) :=
    rangeLoop write map (start / 64).toNat len (bitsInWord start) (bitmapFirstWordMask start)
  if len ≠ 0 then
    Function.update map p (write (map p) (mask &&& bitmapLastWordMask size))
  else map

/-- `*p |= mask`. -/
def orMask (word mask : BitVec 64) : BitVec 64 := word ||| mask

/-- `*p &= ~mask`. -/
def clearMask (word mask : BitVec 64) : BitVec 64 := word &&& ~~~mask

def bitmapSet (map : Map) (start : UInt32) (len : ℤ) : Map := bitmapRange orMask map start len

def bitmapClear (map : Map) (start : UInt32) (len : ℤ) : Map := bitmapRange clearMask map start len

namespace Parselist

/-- `while (len-- > 0)`, where the bit at `start` is written. -/
def bitLoop (write : BitVec 64 → BitVec 64 → BitVec 64) (map : Map) (start : UInt32) (len : ℤ) :
    Map :=
  if 0 < len then
    let p := (start / 64).toNat
    bitLoop write (Function.update map p (write (map p) (1#64 <<< (start % 64).toNat))) (start + 1)
      (len - 1)
  else map
termination_by len.toNat

def bitmapSet (map : Map) (start : UInt32) (len : ℤ) : Map := bitLoop orMask map start len

def bitmapClear (map : Map) (start : UInt32) (len : ℤ) : Map := bitLoop clearMask map start len

end Parselist

/-- `write` puts `v` where the mask is set. -/
def Puts (write : BitVec 64 → BitVec 64 → BitVec 64) (v : Bool) : Prop :=
  ∀ word mask k, k < 64 →
    (write word mask).getLsbD k = if mask.getLsbD k = true then v else word.getLsbD k

lemma puts_orMask : Puts orMask true := by
  intro word mask k _
  rw [orMask, BitVec.getLsbD_or]
  cases mask.getLsbD k with
  | true => simp
  | false => simp

lemma puts_clearMask : Puts clearMask false := by
  intro word mask k hk
  rw [clearMask, BitVec.getLsbD_and, BitVec.getLsbD_not, decide_eq_true hk]
  cases mask.getLsbD k with
  | true => simp
  | false => simp

/-- The positions from `start` up to `stop` are `v`, and the others are as before. -/
def Filled (v : Bool) (start stop : ℕ) (map map' : Map) : Prop :=
  ∀ i, bit map' i = if start ≤ i ∧ i < stop then v else bit map i

section
variable {write : BitVec 64 → BitVec 64 → BitVec 64} {v : Bool}

lemma Filled.refl (start : ℕ) (map : Map) : Filled v start start map map := by
  intro i
  exact (if_neg (by omega)).symm

lemma Filled.trans {start mid stop : ℕ} {map map' map'' : Map} (h : Filled v start mid map map')
    (h' : Filled v mid stop map' map'') (hle : start ≤ mid) (hle' : mid ≤ stop) :
    Filled v start stop map map'' := by
  intro i
  rw [h' i, h i]
  split_ifs <;> first | rfl | omega

lemma Filled.unique {start stop : ℕ} {map map' map'' : Map} (h : Filled v start stop map map')
    (h' : Filled v start stop map map'') : map' = map'' := by
  apply eq_of_bit
  intro i
  rw [h i, h' i]

/-- One write under a mask that covers the positions of a word from `start` up to `stop`. -/
lemma Puts.filled (hw : Puts write v) {map : Map} {p start stop : ℕ} {mask : BitVec 64}
    (hstart : 64 * p ≤ start) (hstop : stop ≤ 64 * (p + 1))
    (hmask : ∀ k < 64, mask.getLsbD k = true ↔ start ≤ 64 * p + k ∧ 64 * p + k < stop) :
    Filled v start stop map (Function.update map p (write (map p) mask)) := by
  intro i
  have hlt := Nat.mod_lt i (show 0 < 64 by decide)
  have hdiv := Nat.div_add_mod i 64
  rw [bit]
  by_cases hp : i / 64 = p
  · rw [hp] at hdiv
    have hiff := hmask (i % 64) hlt
    rw [hdiv] at hiff
    rw [hp, Function.update_self, hw _ _ _ hlt, if_congr hiff rfl rfl, bit, hp]
  · rw [Function.update_of_ne hp]
    exact (if_neg (by omega)).symm

/-! ## Bit by bit -/

lemma getLsbD_bit (n k : ℕ) (hk : k < 64) :
    (1#64 <<< n).getLsbD k = true ↔ k = n := by
  rw [BitVec.getLsbD_shiftLeft, decide_eq_true hk, Bool.true_and, BitVec.getLsbD_one]
  simp
  omega

lemma toNat_add_one {start : UInt32} (h : start.toNat < 2 ^ 31) :
    (start + 1).toNat = start.toNat + 1 := by
  rw [UInt32.toNat_add]
  exact Nat.mod_eq_of_lt (by simp; omega)

lemma bitLoop_filled (hw : Puts write v) (map : Map) (start : UInt32) (len : ℤ) (hlen : 0 ≤ len)
    (hlt : start.toNat + len < 2 ^ 31) :
    Filled v start.toNat (start.toNat + len.toNat) map (Parselist.bitLoop write map start len) := by
  induction map, start, len using Parselist.bitLoop.induct write with
  | case1 map start len hpos p ih =>
    have hnext : (start + 1).toNat = start.toNat + 1 := toNat_add_one (by omega)
    rw [Parselist.bitLoop, if_pos hpos]
    have hrest := ih (by omega) (by omega)
    have hstop : (start + 1).toNat + (len - 1).toNat = start.toNat + len.toNat := by omega
    rw [hstop, hnext] at hrest
    have hdiv := Nat.div_add_mod start.toNat 64
    have hp : p = start.toNat / 64 := rfl
    have hk : (start % 64).toNat = start.toNat % 64 := rfl
    have hone : Filled v start.toNat (start.toNat + 1) map
        (Function.update map p (write (map p) (1#64 <<< (start % 64).toNat))) := by
      apply hw.filled
      · omega
      · omega
      · intro k hk64
        rw [getLsbD_bit _ _ hk64]
        omega
    exact hone.trans hrest (by omega) (by omega)
  | case2 map start len hpos =>
    have hzero : len = 0 := by omega
    rw [Parselist.bitLoop, if_neg hpos, hzero]
    exact Filled.refl _ map

/-! ## Word by word -/

/-- The mask covers the word of `start` from `start` on. -/
def Covers (start : ℕ) (mask : BitVec 64) : Prop :=
  ∀ k < 64, mask.getLsbD k = true ↔ start % 64 ≤ k

lemma covers_firstWordMask (start : UInt32) : Covers start.toNat (bitmapFirstWordMask start) := by
  intro k hk
  have hmask : (start &&& 63).toNat = start.toNat % 64 := by
    rw [UInt32.toNat_and]
    exact Nat.and_two_pow_sub_one_eq_mod start.toNat 6
  rw [bitmapFirstWordMask, hmask, BitVec.getLsbD_shiftLeft, decide_eq_true hk,
    BitVec.getLsbD_allOnes]
  simp
  omega

lemma covers_allOnes {start : ℕ} (h : start % 64 = 0) : Covers start (BitVec.allOnes 64) := by
  intro k hk
  rw [BitVec.getLsbD_allOnes, decide_eq_true hk, h]
  simp

/-- The loop writes whole words up to some position, and leaves less than its word. -/
lemma rangeLoop_spec (hw : Puts write v) (map : Map) (p : ℕ) (len : ℤ) (bitsToSet : ℕ+)
    (mask : BitVec 64) (start : ℕ) (hlen : 0 ≤ len) (hp : p = start / 64)
    (hbits : (bitsToSet : ℕ) = 64 - start % 64) (hmask : Covers start mask) :
    ∃ map' mid len' mask', rangeLoop write map p len bitsToSet mask = (map', mid / 64, len', mask') ∧
      Filled v start mid map map' ∧ start ≤ mid ∧ mid + len' = start + len ∧ 0 ≤ len' ∧
      mid % 64 + len' < 64 ∧ Covers mid mask' := by
  induction map, p, len, bitsToSet, mask using rangeLoop.induct write generalizing start with
  | case1 map p len bitsToSet mask hle ih =>
    have hnext : 64 * (p + 1) % 64 = 0 := Nat.mul_mod_right 64 (p + 1)
    obtain ⟨map', mid, len', mask', hloop, hfilled, hmid, hsum, hrest⟩ :=
      ih (64 * (p + 1)) (by omega) (by omega) (by rw [hnext]; rfl) (covers_allOnes hnext)
    have hone : Filled v start (64 * (p + 1)) map
        (Function.update map p (write (map p) mask)) := by
      apply hw.filled
      · omega
      · omega
      · intro k hk
        rw [hmask k hk]
        omega
    rw [rangeLoop, if_pos hle]
    exact ⟨map', mid, len', mask', hloop, hone.trans hfilled (by omega) hmid, by omega, by omega,
      hrest⟩
  | case2 map p len bitsToSet mask hle =>
    rw [rangeLoop, if_neg hle, hp]
    exact ⟨map, start, len, mask, rfl, Filled.refl start map, le_rfl, rfl, hlen, by omega, hmask⟩

lemma bitmapRange_filled (hw : Puts write v) (map : Map) (start : UInt32) (len : ℤ)
    (hlen : 0 ≤ len) (hlt : start.toNat + len < 2 ^ 31) :
    Filled v start.toNat (start.toNat + len.toNat) map (bitmapRange write map start len) := by
  obtain ⟨map', mid, len', mask', hloop, hfilled, hmid, hsum, hlen', hword, hmask⟩ :=
    rangeLoop_spec hw map (start / 64).toNat len (bitsInWord start) (bitmapFirstWordMask start)
      start.toNat hlen rfl rfl (covers_firstWordMask start)
  simp only [bitmapRange, hloop]
  split_ifs with hne
  · -- the last word is partly written
    have hsize : (start + UInt32.ofInt len).toNat = start.toNat + len.toNat := by
      have hto : (UInt32.ofInt len).toNat = len.toNat := by
        rw [UInt32.ofInt, UInt32.toNat_ofNat']
        omega
      rw [UInt32.toNat_add, hto]
      exact Nat.mod_eq_of_lt (by omega)
    have hmod : (start.toNat + len.toNat) % 64 = mid % 64 + len'.toNat := by omega
    apply hfilled.trans _ hmid (by omega)
    apply hw.filled
    · omega
    · omega
    · intro k hk
      have hr : (start + UInt32.ofInt len) % 64 ≠ 0 := by
        intro h0
        have hzero := congrArg UInt32.toNat h0
        rw [UInt32.toNat_mod, hsize] at hzero
        simp at hzero
        omega
      rw [BitVec.getLsbD_and, Bool.and_eq_true, hmask k hk, bitmapLastWordMask_eq hr, hsize,
        getLsbD_low _ (by omega), decide_eq_true_eq]
      omega
  · have hstop : start.toNat + len.toNat = mid := by omega
    rw [hstop]
    exact hfilled

/-- Setting and clearing word by word gives the same map as bit by bit: the positions from `start`
up to `start + len` are written, and no other one. -/
theorem bitmapRange_eq_bitLoop (map : Map) (start : UInt32) (len : ℤ) (hlen : 0 ≤ len)
    (hlt : start.toNat + len < 2 ^ 31) :
    (bitmapSet map start len = Parselist.bitmapSet map start len ∧
      ∀ i, bit (bitmapSet map start len) i =
        if start.toNat ≤ i ∧ i < start.toNat + len.toNat then true else bit map i) ∧
    (bitmapClear map start len = Parselist.bitmapClear map start len ∧
      ∀ i, bit (bitmapClear map start len) i =
        if start.toNat ≤ i ∧ i < start.toNat + len.toNat then false else bit map i) := by
  have hset := bitmapRange_filled puts_orMask map start len hlen hlt
  have hclear := bitmapRange_filled puts_clearMask map start len hlen hlt
  refine ⟨⟨?_, hset⟩, ?_, hclear⟩
  · exact hset.unique (bitLoop_filled puts_orMask map start len hlen hlt)
  · exact hclear.unique (bitLoop_filled puts_clearMask map start len hlen hlt)

theorem bitmapRange_eq_bitLoop_hundred :
    bitmapSet (fun _ => 0) 60 100 = Parselist.bitmapSet (fun _ => 0) 60 100 ∧
      bit (bitmapSet (fun _ => 0) 60 100) 159 = true ∧
      bit (bitmapClear (fun _ => 1) 60 100) 192 = true := by
  have hset := (bitmapRange_eq_bitLoop (fun _ => 0) 60 100 (by decide) (by decide)).1
  have hclear := (bitmapRange_eq_bitLoop (fun _ => 1) 60 100 (by decide) (by decide)).2
  refine ⟨hset.1, ?_, ?_⟩
  · rw [hset.2]
    rfl
  · rw [hclear.2]
    rfl

end

end BpfVerify.Bitmap
