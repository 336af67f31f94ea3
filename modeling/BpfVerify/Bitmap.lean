import BpfVerify.WordSet

/-!
# Bitmaps

The operations of `lib/bitmap.c` on whole bitmaps. A bitmap is an array of 64-bit words, and its
positions from `bits` on are garbage. Words are read and written through pointers, so that the
destination of an operation may be one of its operands.
-/
namespace BpfVerify.Bitmap
open WordSet

abbrev Map := Words 64

abbrev Memory (P : Type) := P → Map

def bitsToLongs (bits : UInt32) : ℕ := (bits.toNat + 64 - 1) / 64

/-- `BITMAP_LAST_WORD_MASK`: `~0UL >> (-bits & 63)`. -/
def bitmapLastWordMask (bits : UInt32) : BitVec 64 := BitVec.allOnes 64 >>> (-bits &&& 63).toNat

def hweightLong (x : BitVec 64) : UInt32 := UInt32.ofNat x.cpop.toNat

/-- `for (k = 0; k < lim; k++) body`. -/
def forWords {σ : Type} (lim : ℕ) (body : ℕ → σ → σ) (s : σ) : σ :=
  (List.range lim).foldl (fun s k => body k s) s

@[simp] lemma forWords_zero {σ : Type} (body : ℕ → σ → σ) (s : σ) : forWords 0 body s = s := rfl

lemma forWords_succ {σ : Type} (lim : ℕ) (body : ℕ → σ → σ) (s : σ) :
    forWords (lim + 1) body s = body lim (forWords lim body s) := by
  rw [forWords, List.range_succ, List.foldl_append]
  rfl

/-- The tests return `hit` at the first whole word that passes `whole`, or at a last one that
passes `last`. -/
def findWord (whole last : ℕ → Bool) (hit : Bool) (bits : UInt32) : Bool :=
  let lim := (bits / 64).toNat
  if (List.range lim).any whole then hit
  else if bits % 64 ≠ 0 ∧ last lim = true then hit
  else !hit

def bitmapEqual (bitmap1 bitmap2 : Map) (bits : UInt32) : Bool :=
  findWord (fun k => bitmap1 k != bitmap2 k)
    (fun k => (bitmap1 k ^^^ bitmap2 k) &&& bitmapLastWordMask bits != 0) false bits

def bitmapOrEqual (bitmap1 bitmap2 bitmap3 : Map) (bits : UInt32) : Bool :=
  findWord (fun k => (bitmap1 k ||| bitmap2 k) != bitmap3 k)
    (fun k => ((bitmap1 k ||| bitmap2 k) ^^^ bitmap3 k) &&& bitmapLastWordMask bits != 0) false bits

def bitmapIntersects (bitmap1 bitmap2 : Map) (bits : UInt32) : Bool :=
  findWord (fun k => bitmap1 k &&& bitmap2 k != 0)
    (fun k => (bitmap1 k &&& bitmap2 k) &&& bitmapLastWordMask bits != 0) true bits

def bitmapSubset (bitmap1 bitmap2 : Map) (bits : UInt32) : Bool :=
  findWord (fun k => bitmap1 k &&& ~~~bitmap2 k != 0)
    (fun k => (bitmap1 k &&& ~~~bitmap2 k) &&& bitmapLastWordMask bits != 0) false bits

/-- The counts add up the weights of the whole words, and of the low bits of the last one. -/
def weightWords (word : ℕ → BitVec 64) (bits : UInt32) : UInt32 :=
  let lim := (bits / 64).toNat
  let w := forWords lim (fun k w => w + hweightLong (word k)) 0
  if bits % 64 ≠ 0 then w + hweightLong (word lim &&& bitmapLastWordMask bits) else w

def bitmapWeight (bitmap : Map) (bits : UInt32) : UInt32 := weightWords bitmap bits

def bitmapWeightAnd (bitmap1 bitmap2 : Map) (bits : UInt32) : UInt32 :=
  weightWords (fun k => bitmap1 k &&& bitmap2 k) bits

def bitmapWeightAndnot (bitmap1 bitmap2 : Map) (bits : UInt32) : UInt32 :=
  weightWords (fun k => bitmap1 k &&& ~~~bitmap2 k) bits

section Stores
variable {P : Type} [DecidableEq P]

/-- `dst[k] = x`. -/
def store (mem : Memory P) (dst : P) (k : ℕ) (x : BitVec 64) : Memory P :=
  Function.update mem dst (Function.update (mem dst) k x)

/-- Operations that fill all words of `dst` and return nothing. -/
def storeWords (mem : Memory P) (dst : P) (word : (P → BitVec 64) → BitVec 64) (bits : UInt32) :
    Memory P :=
  forWords (bitsToLongs bits) (fun k mem => store mem dst k (word fun p => mem p k)) mem

def bitmapComplement (mem : Memory P) (dst src : P) (bits : UInt32) : Memory P :=
  storeWords mem dst (fun v => ~~~v src) bits

def bitmapOr (mem : Memory P) (dst bitmap1 bitmap2 : P) (bits : UInt32) : Memory P :=
  storeWords mem dst (fun v => v bitmap1 ||| v bitmap2) bits

def bitmapXor (mem : Memory P) (dst bitmap1 bitmap2 : P) (bits : UInt32) : Memory P :=
  storeWords mem dst (fun v => v bitmap1 ^^^ v bitmap2) bits

def bitmapReplace (mem : Memory P) (dst old new mask : P) (bits : UInt32) : Memory P :=
  storeWords mem dst (fun v => (v old &&& ~~~v mask) ||| (v new &&& v mask)) bits

/-- Operations that clear the garbage of `dst` and return whether a bit is left. -/
def storeMasked (mem : Memory P) (dst : P) (word : (P → BitVec 64) → BitVec 64) (bits : UInt32) :
    Memory P × Bool :=
  let lim := (bits / 64).toNat
  let s := forWords lim (fun k s =>
    let x := word fun p => s.1 p k
    (store s.1 dst k x, s.2 ||| x)) (mem, (0 : BitVec 64))
  if bits % 64 ≠ 0 then
    let x := (word fun p => s.1 p lim) &&& bitmapLastWordMask bits
    (store s.1 dst lim x, s.2 ||| x != 0)
  else (s.1, s.2 != 0)

def bitmapAnd (mem : Memory P) (dst bitmap1 bitmap2 : P) (bits : UInt32) : Memory P × Bool :=
  storeMasked mem dst (fun v => v bitmap1 &&& v bitmap2) bits

def bitmapAndnot (mem : Memory P) (dst bitmap1 bitmap2 : P) (bits : UInt32) : Memory P × Bool :=
  storeMasked mem dst (fun v => v bitmap1 &&& ~~~v bitmap2) bits

/-- Operations that fill all words of `dst` and count its bits, the garbage left out. -/
def storeWeighted (mem : Memory P) (dst : P) (word : (P → BitVec 64) → BitVec 64) (bits : UInt32) :
    Memory P × UInt32 :=
  let lim := (bits / 64).toNat
  let s := forWords lim (fun k s =>
    let mem := store s.1 dst k (word fun p => s.1 p k)
    (mem, s.2 + hweightLong (mem dst k))) (mem, (0 : UInt32))
  if bits % 64 ≠ 0 then
    let mem := store s.1 dst lim (word fun p => s.1 p lim)
    (mem, s.2 + hweightLong (mem dst lim &&& bitmapLastWordMask bits))
  else s

def bitmapWeightedOr (mem : Memory P) (dst bitmap1 bitmap2 : P) (bits : UInt32) :
    Memory P × UInt32 :=
  storeWeighted mem dst (fun v => v bitmap1 ||| v bitmap2) bits

def bitmapWeightedXor (mem : Memory P) (dst bitmap1 bitmap2 : P) (bits : UInt32) :
    Memory P × UInt32 :=
  storeWeighted mem dst (fun v => v bitmap1 ^^^ v bitmap2) bits

end Stores

/-! ## The last word -/

lemma bitmapLastWordMask_eq {bits : UInt32} (h : bits % 64 ≠ 0) :
    bitmapLastWordMask bits = low 64 (bits.toNat % 64) := by
  have hmod : bits.toNat % 64 ≠ 0 := by
    intro h0
    apply h
    apply UInt32.toNat_inj.mp
    simpa using h0
  have hlt := bits.toNat_lt
  rw [bitmapLastWordMask, low]
  congr 1
  rw [UInt32.toNat_and, UInt32.toNat_neg]
  have hmask : ((63 : UInt32).toNat) = 2 ^ 6 - 1 := rfl
  have hsize : UInt32.size = 2 ^ 32 := rfl
  rw [hmask, Nat.and_two_pow_sub_one_eq_mod, hsize]
  omega

/-- The low bits of the word that is not whole, none when there is no such word. -/
lemma split_bits (bits : UInt32) :
    64 * (bits / 64).toNat + bits.toNat % 64 = bits.toNat ∧ bits.toNat % 64 ≤ 64 ∧
      (bits % 64 = 0 → low 64 (bits.toNat % 64) = 0) := by
  refine ⟨?_, by omega, ?_⟩
  · rw [UInt32.toNat_div]
    exact Nat.div_add_mod bits.toNat 64
  · intro h
    have hmod : bits.toNat % 64 = 0 := by simpa using congrArg UInt32.toNat h
    rw [hmod]
    rfl

lemma members_bits_nonempty_iff (m : Map) (bits : UInt32) :
    (members m bits.toNat).Nonempty ↔ (∃ k < (bits / 64).toNat, m k ≠ 0) ∨
      bits % 64 ≠ 0 ∧ m (bits / 64).toNat &&& bitmapLastWordMask bits ≠ 0 := by
  obtain ⟨hsplit, hle, hnone⟩ := split_bits bits
  rw [← hsplit, members_nonempty_iff hle]
  apply or_congr_right
  by_cases hr : bits % 64 = 0
  · simp [hr, hnone hr]
  · rw [bitmapLastWordMask_eq hr]
    exact (and_iff_right hr).symm

lemma card_members_bits (m : Map) (bits : UInt32) :
    (members m bits.toNat).card = ∑ k ∈ Finset.range (bits / 64).toNat, (m k).cpop.toNat +
      if bits % 64 ≠ 0 then
        (m (bits / 64).toNat &&& bitmapLastWordMask bits).cpop.toNat else 0 := by
  obtain ⟨hsplit, hle, hnone⟩ := split_bits bits
  rw [← hsplit, card_members_words m _ hle]
  congr 1
  by_cases hr : bits % 64 = 0
  · rw [hnone hr, if_neg (not_not.mpr hr)]
    simp
  · rw [if_pos hr, bitmapLastWordMask_eq hr]

/-! ## Tests and counts -/

lemma findWord_eq_hit_iff {whole last : ℕ → Bool} {hit : Bool} {bits : UInt32} (m : Map)
    (hwhole : ∀ k, whole k = true ↔ m k ≠ 0)
    (hlast : ∀ k, last k = true ↔ m k &&& bitmapLastWordMask bits ≠ 0) :
    findWord whole last hit bits = hit ↔ (members m bits.toNat).Nonempty := by
  have hany : (List.range (bits / 64).toNat).any whole = true ↔
      ∃ k < (bits / 64).toNat, m k ≠ 0 := by
    simp only [List.any_eq_true, List.mem_range, hwhole]
  rw [members_bits_nonempty_iff, ← hany, ← hlast]
  simp only [findWord]
  split_ifs with hw hl
  · exact iff_of_true rfl (.inl hw)
  · exact iff_of_true rfl (.inr hl)
  · exact iff_of_false (Bool.not_ne_self hit) (not_or.mpr ⟨hw, hl⟩)

lemma bitmapIntersects_iff (a b : Map) (bits : UInt32) :
    bitmapIntersects a b bits = true ↔
      (members a bits.toNat ∩ members b bits.toNat).Nonempty := by
  rw [← members_and, bitmapIntersects]
  apply findWord_eq_hit_iff
  · simp
  · simp

lemma findWord_true_iff {whole last : ℕ → Bool} {bits : UInt32} (m : Map)
    (hwhole : ∀ k, whole k = true ↔ m k ≠ 0)
    (hlast : ∀ k, last k = true ↔ m k &&& bitmapLastWordMask bits ≠ 0) :
    findWord whole last false bits = true ↔ members m bits.toNat = ∅ := by
  rw [← Finset.not_nonempty_iff_eq_empty, ← findWord_eq_hit_iff m hwhole hlast,
    Bool.not_eq_false]

lemma bitmapEqual_iff (a b : Map) (bits : UInt32) :
    bitmapEqual a b bits = true ↔ members a bits.toNat = members b bits.toNat := by
  rw [bitmapEqual, ← members_xor_eq_empty]
  apply findWord_true_iff
  · simp
  · simp

lemma bitmapOrEqual_iff (a b c : Map) (bits : UInt32) :
    bitmapOrEqual a b c bits = true ↔
      members a bits.toNat ∪ members b bits.toNat = members c bits.toNat := by
  rw [bitmapOrEqual, ← members_or, ← members_xor_eq_empty]
  apply findWord_true_iff
  · simp
  · simp

lemma bitmapSubset_iff (a b : Map) (bits : UInt32) :
    bitmapSubset a b bits = true ↔ members a bits.toNat ⊆ members b bits.toNat := by
  rw [← Finset.sdiff_eq_empty_iff_subset, ← members_andnot a b _ (by decide), bitmapSubset]
  apply findWord_true_iff
  · simp
  · simp

lemma hweight_words (m : Map) (lim : ℕ) :
    forWords lim (fun k w => w + hweightLong (m k)) 0 =
      UInt32.ofNat (∑ k ∈ Finset.range lim, (m k).cpop.toNat) := by
  induction lim with
  | zero => rfl
  | succ lim ih => rw [forWords_succ, ih, Finset.sum_range_succ, UInt32.ofNat_add, hweightLong]

lemma weightWords_eq (m : Map) (bits : UInt32) :
    weightWords m bits = UInt32.ofNat (members m bits.toNat).card := by
  simp only [weightWords]
  rw [card_members_bits, hweight_words, UInt32.ofNat_add]
  split_ifs with hr
  · rfl
  · simp

lemma bitmapWeight_eq (a : Map) (bits : UInt32) :
    bitmapWeight a bits = UInt32.ofNat (members a bits.toNat).card :=
  weightWords_eq a bits

lemma bitmapWeightAnd_eq (a b : Map) (bits : UInt32) : bitmapWeightAnd a b bits =
    UInt32.ofNat (members a bits.toNat ∩ members b bits.toNat).card := by
  rw [bitmapWeightAnd, weightWords_eq, members_and]

lemma bitmapWeightAndnot_eq (a b : Map) (bits : UInt32) : bitmapWeightAndnot a b bits =
    UInt32.ofNat (members a bits.toNat \ members b bits.toNat).card := by
  rw [bitmapWeightAndnot, weightWords_eq, members_andnot _ _ _ (by decide)]

/-- No count overflows: there are no more positions than `bits`. -/
lemma toNat_ofNat_card {s : Finset ℕ} {bits : UInt32} (h : s ⊆ Finset.range bits.toNat) :
    (UInt32.ofNat s.card).toNat = s.card := by
  apply UInt32.toNat_ofNat_of_lt'
  have hle := Finset.card_le_card h
  rw [Finset.card_range] at hle
  exact hle.trans_lt bits.toNat_lt

/-! ## Stores -/

section
variable {P : Type} [DecidableEq P]

/-- The memory after the first `n` words of `dst` were filled. -/
def filled (mem : Memory P) (dst : P) (word : (P → BitVec 64) → BitVec 64) (n : ℕ) : Memory P :=
  fun p k => if p = dst ∧ k < n then word fun q => mem q k else mem p k

/-- `dst` holds the set `s` below `bits`, and no other word has changed. -/
structure Holds (mem mem' : Memory P) (dst : P) (bits : UInt32) (s : Finset ℕ) : Prop where
  members_eq : members (mem' dst) bits.toNat = s
  frame : ∀ p k, p ≠ dst ∨ bitsToLongs bits ≤ k → mem' p k = mem p k

variable (mem : Memory P) (dst : P) (word : (P → BitVec 64) → BitVec 64)

@[simp] lemma store_self (k : ℕ) (x : BitVec 64) : store mem dst k x dst k = x := by
  simp [store]

lemma store_of_ne {p : P} {k j : ℕ} (x : BitVec 64) (h : p ≠ dst ∨ j ≠ k) :
    store mem dst k x p j = mem p j := by
  by_cases hp : p = dst
  · subst hp
    simp [store, h.resolve_left (not_not.mpr rfl)]
  · simp [store, hp]

lemma filled_zero : filled mem dst word 0 = mem := by
  ext1 p
  ext1 k
  exact if_neg (by omega)

lemma filled_of_lt {n k : ℕ} (h : k < n) : filled mem dst word n dst k = word fun p => mem p k :=
  if_pos ⟨rfl, h⟩

lemma filled_of_ne {p : P} {n k : ℕ} (h : p ≠ dst ∨ n ≤ k) :
    filled mem dst word n p k = mem p k := by
  apply if_neg
  rintro ⟨hp, hk⟩
  exact h.elim (fun hne => hne hp) (fun hle => by omega)

/-- All operands are read at an index before `dst` is written there. -/
lemma word_filled (n : ℕ) : (fun p => filled mem dst word n p n) = fun p => mem p n := by
  ext1 p
  exact filled_of_ne mem dst word (.inr le_rfl)

lemma store_filled (n : ℕ) :
    store (filled mem dst word n) dst n (word fun p => mem p n) =
      filled mem dst word (n + 1) := by
  ext1 p
  ext1 k
  by_cases h : p = dst ∧ k = n
  · obtain ⟨rfl, rfl⟩ := h
    rw [store_self, filled_of_lt mem p word (Nat.lt_succ_self k)]
  · rw [store_of_ne _ _ _ (not_and_or.mp h)]
    have hlt : p = dst ∧ k < n ↔ p = dst ∧ k < n + 1 := by
      apply and_congr_right
      intro hp
      have hk : k ≠ n := fun hk => h ⟨hp, hk⟩
      omega
    simp only [filled, hlt]

lemma bitsToLongs_eq (bits : UInt32) :
    bitsToLongs bits = (bits / 64).toNat + if bits % 64 ≠ 0 then 1 else 0 := by
  obtain ⟨hsplit, -, -⟩ := split_bits bits
  rw [bitsToLongs]
  split_ifs with hr
  · have hmod : bits.toNat % 64 ≠ 0 := fun h0 => hr (UInt32.toNat_inj.mp (by simpa using h0))
    omega
  · have hmod : bits.toNat % 64 = 0 := by simpa using congrArg UInt32.toNat (not_not.mp hr)
    omega

lemma filled_holds (bits : UInt32) :
    Holds mem (filled mem dst word (bitsToLongs bits)) dst bits
      (members (fun k => word fun p => mem p k) bits.toNat) := by
  constructor
  case members_eq =>
    apply members_congr
    intro i hi
    rw [bit, bit, filled_of_lt]
    rw [bitsToLongs]
    omega
  case frame => exact fun p k h => filled_of_ne mem dst word h

lemma storeWords_holds (bits : UInt32) :
    Holds mem (storeWords mem dst word bits) dst bits
      (members (fun k => word fun p => mem p k) bits.toNat) := by
  have hloop : ∀ n, forWords n (fun k mem => store mem dst k (word fun p => mem p k)) mem =
      filled mem dst word n := by
    intro n
    induction n with
    | zero => exact (filled_zero mem dst word).symm
    | succ n ih => rw [forWords_succ, ih, word_filled, store_filled]
  rw [storeWords, hloop]
  exact filled_holds mem dst word bits

/-- The whole words are filled, and the last one keeps at least the bits below `bits`. -/
lemma store_last_holds {bits : UInt32} (hr : bits % 64 ≠ 0) :
    let lim := (bits / 64).toNat
    Holds mem (store (filled mem dst word lim) dst lim
      ((word fun p => mem p lim) &&& bitmapLastWordMask bits)) dst bits
      (members (fun k => word fun p => mem p k) bits.toNat) := by
  intro lim
  have hlim : lim < bitsToLongs bits := by rw [bitsToLongs_eq, if_pos hr]; omega
  constructor
  case members_eq =>
    apply members_congr
    intro i hi
    obtain ⟨hsplit, -, -⟩ := split_bits bits
    rw [bit, bit]
    by_cases hlt : i / 64 < lim
    · rw [store_of_ne _ _ _ (.inr hlt.ne), filled_of_lt _ _ _ hlt]
    · have heq : i / 64 = lim := by omega
      rw [heq, store_self, BitVec.getLsbD_and, bitmapLastWordMask_eq hr,
        getLsbD_low _ (by omega), decide_eq_true (by omega), Bool.and_true]
  case frame =>
    intro p k h
    rw [store_of_ne, filled_of_ne]
    · exact h.imp_right fun hk => by omega
    · exact h.imp_right fun hk => by omega

lemma storeMasked_spec (bits : UInt32) :
    let s := members (fun k => word fun p => mem p k) bits.toNat
    Holds mem (storeMasked mem dst word bits).1 dst bits s ∧
      ((storeMasked mem dst word bits).2 = true ↔ s.Nonempty) := by
  intro s
  have hloop : ∀ n, ∃ result : BitVec 64, (forWords n (fun k s =>
        let x := word fun p => s.1 p k
        (store s.1 dst k x, s.2 ||| x)) (mem, (0 : BitVec 64))) = (filled mem dst word n, result) ∧
      (result ≠ 0 ↔ ∃ k < n, (word fun p => mem p k) ≠ 0) := by
    intro n
    induction n with
    | zero => exact ⟨0, by rw [filled_zero]; rfl, by simp⟩
    | succ n ih =>
      obtain ⟨result, hn, hresult⟩ := ih
      refine ⟨result ||| word fun p => mem p n, ?_, ?_⟩
      · rw [forWords_succ, hn]
        simp only [word_filled, store_filled]
      · rw [or_ne_zero_iff, hresult, Nat.exists_lt_succ_right]
  obtain ⟨result, hn, hresult⟩ := hloop (bits / 64).toNat
  have hiff := members_bits_nonempty_iff (fun k => word fun p => mem p k) bits
  simp only [storeMasked, hn, word_filled]
  split_ifs with hr
  · refine ⟨store_last_holds mem dst word hr, ?_⟩
    rw [bne_iff_ne, or_ne_zero_iff, hresult, hiff]
    exact or_congr_right (and_iff_right hr).symm
  · refine ⟨?_, ?_⟩
    · have hlongs : bitsToLongs bits = (bits / 64).toNat := by
        rw [bitsToLongs_eq, if_neg hr, Nat.add_zero]
      rw [← hlongs]
      exact filled_holds mem dst word bits
    · rw [bne_iff_ne, hresult, hiff]
      exact (or_iff_left fun h => hr h.1).symm

lemma storeWeighted_spec (bits : UInt32) :
    Holds mem (storeWeighted mem dst word bits).1 dst bits
      (members (fun k => word fun p => mem p k) bits.toNat) ∧
      (storeWeighted mem dst word bits).2 = weightWords (fun k => word fun p => mem p k) bits := by
  have hloop : ∀ n, forWords n (fun k s =>
        let mem := store s.1 dst k (word fun p => s.1 p k)
        (mem, s.2 + hweightLong (mem dst k))) (mem, (0 : UInt32)) =
      (filled mem dst word n,
        forWords n (fun k w => w + hweightLong (word fun p => mem p k)) 0) := by
    intro n
    induction n with
    | zero => rw [filled_zero]; rfl
    | succ n ih =>
      rw [forWords_succ, forWords_succ, ih]
      simp only [word_filled, store_filled, filled_of_lt mem dst word (Nat.lt_succ_self n)]
  have hfilled := filled_holds mem dst word bits
  rw [bitsToLongs_eq] at hfilled
  simp only [storeWeighted, weightWords, hloop, word_filled, store_filled]
  split_ifs with hr
  · rw [if_pos hr] at hfilled
    refine ⟨hfilled, ?_⟩
    rw [filled_of_lt mem dst word (Nat.lt_succ_self _)]
  · rw [if_neg hr] at hfilled
    exact ⟨hfilled, rfl⟩

end

/-! ## The algebra -/

section
variable {P : Type} [DecidableEq P]

/-- The positions of the bitmap at `p` that are set. -/
abbrev set (mem : Memory P) (bits : UInt32) (p : P) : Finset ℕ := members (mem p) bits.toNat

/-- What the operations compute on the bitmaps at `a`, `b` and `c`, and what they leave at `dst`,
in terms of their sets of positions below `bits`. -/
structure SetAlgebra (mem : Memory P) (dst a b c : P) (bits : UInt32) : Prop where
  equal : bitmapEqual (mem a) (mem b) bits = true ↔ set mem bits a = set mem bits b
  or_equal : bitmapOrEqual (mem a) (mem b) (mem c) bits = true ↔
    set mem bits a ∪ set mem bits b = set mem bits c
  intersects : bitmapIntersects (mem a) (mem b) bits = true ↔
    (set mem bits a ∩ set mem bits b).Nonempty
  subset : bitmapSubset (mem a) (mem b) bits = true ↔ set mem bits a ⊆ set mem bits b
  and : Holds mem (bitmapAnd mem dst a b bits).1 dst bits (set mem bits a ∩ set mem bits b)
  and_ret : (bitmapAnd mem dst a b bits).2 = true ↔ (set mem bits a ∩ set mem bits b).Nonempty
  andnot : Holds mem (bitmapAndnot mem dst a b bits).1 dst bits (set mem bits a \ set mem bits b)
  andnot_ret : (bitmapAndnot mem dst a b bits).2 = true ↔
    (set mem bits a \ set mem bits b).Nonempty
  or : Holds mem (bitmapOr mem dst a b bits) dst bits (set mem bits a ∪ set mem bits b)
  xor : Holds mem (bitmapXor mem dst a b bits) dst bits
    (symmDiff (set mem bits a) (set mem bits b))
  complement : Holds mem (bitmapComplement mem dst a bits) dst bits
    (Finset.range bits.toNat \ set mem bits a)
  replace : Holds mem (bitmapReplace mem dst a b c bits) dst bits
    (set mem bits a \ set mem bits c ∪ set mem bits b ∩ set mem bits c)
  weight : (bitmapWeight (mem a) bits).toNat = (set mem bits a).card
  weight_and : (bitmapWeightAnd (mem a) (mem b) bits).toNat =
    (set mem bits a ∩ set mem bits b).card
  weight_andnot : (bitmapWeightAndnot (mem a) (mem b) bits).toNat =
    (set mem bits a \ set mem bits b).card
  weighted_or : Holds mem (bitmapWeightedOr mem dst a b bits).1 dst bits
    (set mem bits a ∪ set mem bits b)
  weighted_or_ret : (bitmapWeightedOr mem dst a b bits).2.toNat =
    (set mem bits a ∪ set mem bits b).card
  weighted_xor : Holds mem (bitmapWeightedXor mem dst a b bits).1 dst bits
    (symmDiff (set mem bits a) (set mem bits b))
  weighted_xor_ret : (bitmapWeightedXor mem dst a b bits).2.toNat =
    (symmDiff (set mem bits a) (set mem bits b)).card
  inclusion_exclusion : (bitmapWeightedOr mem dst a b bits).2 =
    bitmapWeight (mem a) bits + bitmapWeight (mem b) bits -
      bitmapWeightAnd (mem a) (mem b) bits
  differences : (bitmapWeightedXor mem dst a b bits).2 =
    bitmapWeightAndnot (mem a) (mem b) bits + bitmapWeightAndnot (mem b) (mem a) bits
  subset_iff : bitmapSubset (mem a) (mem b) bits = true ↔
    bitmapWeightAndnot (mem a) (mem b) bits = 0

section Values
variable (mem : Memory P) (dst a b c : P) (bits : UInt32)

lemma bitmapAnd_spec :
    Holds mem (bitmapAnd mem dst a b bits).1 dst bits (set mem bits a ∩ set mem bits b) ∧
      ((bitmapAnd mem dst a b bits).2 = true ↔ (set mem bits a ∩ set mem bits b).Nonempty) := by
  have h := storeMasked_spec mem dst (fun v => v a &&& v b) bits
  simp only [members_and] at h
  exact h

lemma bitmapAndnot_spec :
    Holds mem (bitmapAndnot mem dst a b bits).1 dst bits (set mem bits a \ set mem bits b) ∧
      ((bitmapAndnot mem dst a b bits).2 = true ↔
        (set mem bits a \ set mem bits b).Nonempty) := by
  have h := storeMasked_spec mem dst (fun v => v a &&& ~~~v b) bits
  simp only [members_andnot (mem a) (mem b) bits.toNat (by decide)] at h
  exact h

lemma bitmapOr_holds :
    Holds mem (bitmapOr mem dst a b bits) dst bits (set mem bits a ∪ set mem bits b) := by
  have h := storeWords_holds mem dst (fun v => v a ||| v b) bits
  rw [members_or] at h
  exact h

lemma bitmapXor_holds :
    Holds mem (bitmapXor mem dst a b bits) dst bits
      (symmDiff (set mem bits a) (set mem bits b)) := by
  have h := storeWords_holds mem dst (fun v => v a ^^^ v b) bits
  rw [members_xor] at h
  exact h

lemma bitmapComplement_holds :
    Holds mem (bitmapComplement mem dst a bits) dst bits
      (Finset.range bits.toNat \ set mem bits a) := by
  have h := storeWords_holds mem dst (fun v => ~~~v a) bits
  rw [members_not _ _ (by decide)] at h
  exact h

lemma bitmapReplace_holds :
    Holds mem (bitmapReplace mem dst a b c bits) dst bits
      (set mem bits a \ set mem bits c ∪ set mem bits b ∩ set mem bits c) := by
  have h := storeWords_holds mem dst (fun v => (v a &&& ~~~v c) ||| (v b &&& v c)) bits
  rw [members_or (fun k => mem a k &&& ~~~mem c k), members_andnot _ _ _ (by decide),
    members_and] at h
  exact h

lemma bitmapWeightedOr_spec :
    Holds mem (bitmapWeightedOr mem dst a b bits).1 dst bits (set mem bits a ∪ set mem bits b) ∧
      (bitmapWeightedOr mem dst a b bits).2 =
        UInt32.ofNat (set mem bits a ∪ set mem bits b).card := by
  have h := storeWeighted_spec mem dst (fun v => v a ||| v b) bits
  rw [weightWords_eq, members_or] at h
  exact h

lemma bitmapWeightedXor_spec :
    Holds mem (bitmapWeightedXor mem dst a b bits).1 dst bits
      (symmDiff (set mem bits a) (set mem bits b)) ∧
      (bitmapWeightedXor mem dst a b bits).2 =
        UInt32.ofNat (symmDiff (set mem bits a) (set mem bits b)).card := by
  have h := storeWeighted_spec mem dst (fun v => v a ^^^ v b) bits
  rw [weightWords_eq, members_xor] at h
  exact h

end Values

/-- The operations implement set algebra on the first `bits` positions, whatever the garbage above
them and wherever the destination is. -/
theorem bitmap_setAlgebra (mem : Memory P) (dst a b c : P) (bits : UInt32) :
    SetAlgebra mem dst a b c bits := by
  have ha := members_subset (mem a) bits.toNat
  have hb := members_subset (mem b) bits.toNat
  have hxor : symmDiff (set mem bits a) (set mem bits b) ⊆ Finset.range bits.toNat :=
    (symmDiff_le_sup (a := set mem bits a)).trans (Finset.union_subset ha hb)
  have hdisj := disjoint_sdiff_sdiff (x := set mem bits a) (y := set mem bits b)
  constructor
  case equal => exact bitmapEqual_iff _ _ bits
  case or_equal => exact bitmapOrEqual_iff _ _ _ bits
  case intersects => exact bitmapIntersects_iff _ _ bits
  case subset => exact bitmapSubset_iff _ _ bits
  case and => exact (bitmapAnd_spec mem dst a b bits).1
  case and_ret => exact (bitmapAnd_spec mem dst a b bits).2
  case andnot => exact (bitmapAndnot_spec mem dst a b bits).1
  case andnot_ret => exact (bitmapAndnot_spec mem dst a b bits).2
  case or => exact bitmapOr_holds mem dst a b bits
  case xor => exact bitmapXor_holds mem dst a b bits
  case complement => exact bitmapComplement_holds mem dst a bits
  case replace => exact bitmapReplace_holds mem dst a b c bits
  case weight => rw [bitmapWeight_eq, toNat_ofNat_card ha]
  case weight_and =>
    rw [bitmapWeightAnd_eq, toNat_ofNat_card (Finset.inter_subset_left.trans ha)]
  case weight_andnot =>
    rw [bitmapWeightAndnot_eq, toNat_ofNat_card (Finset.sdiff_subset.trans ha)]
  case weighted_or => exact (bitmapWeightedOr_spec mem dst a b bits).1
  case weighted_or_ret =>
    rw [(bitmapWeightedOr_spec mem dst a b bits).2,
      toNat_ofNat_card (Finset.union_subset ha hb)]
  case weighted_xor => exact (bitmapWeightedXor_spec mem dst a b bits).1
  case weighted_xor_ret =>
    rw [(bitmapWeightedXor_spec mem dst a b bits).2, toNat_ofNat_card hxor]
  case inclusion_exclusion =>
    rw [(bitmapWeightedOr_spec mem dst a b bits).2, bitmapWeight_eq, bitmapWeight_eq,
      bitmapWeightAnd_eq, ← UInt32.ofNat_add, ← Finset.card_union_add_card_inter,
      UInt32.ofNat_add, UInt32.add_sub_cancel]
  case differences =>
    rw [(bitmapWeightedXor_spec mem dst a b bits).2, bitmapWeightAndnot_eq,
      bitmapWeightAndnot_eq, ← UInt32.ofNat_add, ← Finset.card_union_of_disjoint hdisj]
    rfl
  case subset_iff =>
    have hcount := toNat_ofNat_card (Finset.sdiff_subset.trans ha : _ \ set mem bits b ⊆ _)
    rw [bitmapSubset_iff, bitmapWeightAndnot_eq, ← UInt32.toNat_inj, hcount]
    exact Finset.sdiff_eq_empty_iff_subset.symm.trans Finset.card_eq_zero.symm

end

end BpfVerify.Bitmap
