import BpfVerify.Fuzz
import BpfVerify.Tristate
import BpfVerify.WordSet

/-!
# The tnum soundness fuzzer

`userspace/harnesses/tnum_soundness.c`: small tnums drawn from a fuzz input, the list of the values
of each, and the checks of an abstract operation on all of them. The operations themselves are those
of the kernel tree that the harness is compiled against.
-/
namespace BpfVerify.TnumSoundness
open FreeBits Tristate Fuzz

def tnumMember (z : BitVec 64) (t : Tnum) : Bool := z &&& ~~~t.mask == t.value

/-- The loop over `nbits` draws of a bit. -/
def genMask : ℕ → BitVec 64 → FuzzInput → BitVec 64 × FuzzInput
  | 0, mask, input => (mask, input)
  | n + 1, mask, input =>
    let (x, input) := fuzzU64 input
    genMask n (mask ||| 1#64 <<< (x &&& 63).toNat) input

/-- `gen_tnum` after its first draw. -/
def drawTnum (nbits : ℕ) (input : FuzzInput) : Tnum × FuzzInput :=
  let (mask, input) := genMask nbits 0 input
  let (x, input) := fuzzU64 input
  -- known bits must be 0 under mask
  ({ value := x.toBitVec &&& ~~~mask, mask := mask }, input)

def genTnum (input : FuzzInput) (maxbits : ℤ) : Option (Tnum × FuzzInput) :=
  (fuzzRange input 0 (UInt64.ofInt maxbits)).map fun bits =>
    drawTnum (Int.bmod bits.1.toNat (2 ^ 32)).toNat bits.2

/-- The positions of the unknown bits among those still to be scanned, after `bitpos`. -/
def scanBits (mask : BitVec 64) : List ℕ → List ℕ → List ℕ
  | [], bitpos => bitpos
  | i :: rest, bitpos =>
    if bitpos.length < 16 then
      scanBits mask rest (if mask &&& 1#64 <<< i ≠ 0 then bitpos ++ [i] else bitpos)
    else bitpos

/-- The member with the bits of `s` at the positions found. -/
def member (t : Tnum) (bitpos : List ℕ) (s : ℕ) : BitVec 64 :=
  (List.range bitpos.length).foldl
    (fun z b => if s.testBit b then z ||| 1#64 <<< bitpos.getD b 0 else z) t.value

def enumerate (t : Tnum) (out : ℕ → BitVec 64) (cap : ℤ) : ℤ × (ℕ → BitVec 64) :=
  let bitpos := scanBits t.mask (List.range 64) []
  let nb := bitpos.length
  if nb > 12 then (-1, out)
  else
    let n := 1 <<< nb
    if (n : ℤ) > cap then (-1, out)
    else (n, (List.range n).foldl (fun out s => Function.update out s (member t bitpos s)) out)

/-! ## The checks -/

/-- A number under the format `%#llx`. -/
def hexText (x : BitVec 64) : String :=
  if x = 0 then "0" else "0x" ++ String.ofList (Nat.toDigits 16 x.toNat)

def tnumText (t : Tnum) : String := "\x7b" ++ hexText t.value ++ "," ++ hexText t.mask ++ "\x7d"

/-- What a message leaves in a buffer of `msglen` bytes. -/
def snprintf (msglen : ℕ) (text : String) : String := String.ofList (text.toList.take (msglen - 1))

/-- `none` where the check returns 0, and the message where it returns 1. -/
def checkBinop (name : String) (ra a b : Tnum) (am : ℕ → BitVec 64) (an : ℤ) (bm : ℕ → BitVec 64)
    (bn : ℤ) (concrete : BitVec 64 → BitVec 64 → BitVec 64) (msglen : ℕ) : Option String :=
  (List.range an.toNat).findSome? fun i =>
    (List.range bn.toNat).findSome? fun j =>
      let r := concrete (am i) (bm j)
      if tnumMember r ra then none
      else some <| snprintf msglen <| "UNSOUND tnum_" ++ name ++ ": a=" ++ tnumText a ++
        " b=" ++ tnumText b ++ " x=" ++ hexText (am i) ++ " y=" ++ hexText (bm j) ++
        " -> " ++ hexText r ++ " NOT in result " ++ tnumText ra

/-- The abstract operations of the kernel tree that the harness includes. -/
structure Kernel where
  tnumAdd : Tnum → Tnum → Tnum
  tnumSub : Tnum → Tnum → Tnum
  tnumAnd : Tnum → Tnum → Tnum
  tnumOr : Tnum → Tnum → Tnum
  tnumXor : Tnum → Tnum → Tnum
  tnumMul : Tnum → Tnum → Tnum
  tnumLshift : Tnum → UInt8 → Tnum
  tnumRshift : Tnum → UInt8 → Tnum

structure Binop where
  n : String
  op : Tnum → Tnum → Tnum
  c : BitVec 64 → BitVec 64 → BitVec 64

def Kernel.binops (k : Kernel) : List Binop :=
  [⟨"add", k.tnumAdd, fun x y => x + y⟩,
    ⟨"sub", k.tnumSub, fun x y => x - y⟩,
    ⟨"and", k.tnumAnd, fun x y => x &&& y⟩,
    ⟨"or", k.tnumOr, fun x y => x ||| y⟩,
    ⟨"xor", k.tnumXor, fun x y => x ^^^ y⟩,
    ⟨"mul", k.tnumMul, fun x y => x * y⟩]

/-- The unary shifts, on one member of `a` after the other. -/
def checkShifts (a rl rr : Tnum) (sh : UInt8) (am : ℕ → BitVec 64) (an : ℤ) (msglen : ℕ) :
    Option String :=
  let text (name : String) (x : BitVec 64) :=
    snprintf msglen <| "UNSOUND tnum_" ++ name ++ " sh=" ++ toString sh.toNat ++
      " a=" ++ tnumText a ++ " x=" ++ hexText x
  (List.range an.toNat).findSome? fun i =>
    if ¬ tnumMember (am i <<< sh.toNat) rl then some (text "lshift" (am i))
    else if ¬ tnumMember (am i >>> sh.toNat) rr then some (text "rshift" (am i))
    else none

/-- How an iteration ends: `skip` and `pass` both return 0. -/
inductive Outcome where
  | skip
  | pass
  | fail (msg : String)
  deriving DecidableEq

/-- `fuzz_case` after it has drawn the two tnums. -/
def checkCase (k : Kernel) (a b : Tnum) (input : FuzzInput) (am bm : ℕ → BitVec 64) (msglen : ℕ) :
    Outcome :=
  let ea := enumerate a am (1 <<< 6)
  let eb := enumerate b bm (1 <<< 6)
  if ea.1 < 0 ∨ eb.1 < 0 then .skip
  else
    match k.binops.findSome? fun o =>
        checkBinop o.n (o.op a b) a b ea.2 ea.1 eb.2 eb.1 o.c msglen with
    | some msg => .fail msg
    | none =>
      let sh := ((fuzzU64 input).1 &&& 63).toUInt8
      match checkShifts a (k.tnumLshift a sh) (k.tnumRshift a sh) sh ea.2 ea.1 msglen with
      | some msg => .fail msg
      | none => .pass

/-- `am` and `bm` are what the two arrays hold before they are filled. -/
def fuzzCase (k : Kernel) (input : FuzzInput) (am bm : ℕ → BitVec 64) (msglen : ℕ) :
    Option Outcome :=
  (genTnum input 6).bind fun a =>
    (genTnum a.2 6).map fun b => checkCase k a.1 b.1 b.2 am bm msglen

/-! ## The generated tnums -/

lemma genMask_succ (n : ℕ) (mask : BitVec 64) (input : FuzzInput) :
    genMask (n + 1) mask input =
      genMask n (mask ||| 1#64 <<< ((fuzzU64 input).1 &&& 63).toNat) (fuzzU64 input).2 := by
  rw [genMask]

lemma genMask_cpop_le (n : ℕ) (mask : BitVec 64) (input : FuzzInput) :
    (genMask n mask input).1.cpop.toNat ≤ mask.cpop.toNat + n := by
  induction n generalizing mask input with
  | zero => exact le_rfl
  | succ n ih =>
    have hbit := cpop_or_one_le mask ((fuzzU64 input).1 &&& 63).toNat
    have hrest := ih (mask ||| 1#64 <<< ((fuzzU64 input).1 &&& 63).toNat) (fuzzU64 input).2
    rw [genMask_succ]
    omega

lemma disjoint_and_not (x m : BitVec 64) : (x &&& ~~~m) &&& m = 0 := by
  rw [disjoint_iff_bits]
  intro i hi
  rw [BitVec.getLsbD_and, BitVec.getLsbD_not]
  cases m.getLsbD i <;> simp

lemma drawTnum_wf (nbits : ℕ) (input : FuzzInput) : (drawTnum nbits input).1.WF ∧
    (drawTnum nbits input).1.mask.cpop.toNat ≤ nbits := by
  have hmask := genMask_cpop_le nbits 0 input
  have hzero : (0 : BitVec 64).cpop.toNat = 0 := by rw [WordSet.toNat_cpop]; simp
  rw [hzero, Nat.zero_add] at hmask
  exact ⟨disjoint_and_not _ _, hmask⟩

lemma genTnum_of_draw {input next : FuzzInput} {x : UInt64} (h : fuzzU64 input = (x, next)) :
    genTnum input 6 = some (drawTnum (x % 7).toNat next) := by
  have hbits : fuzzRange input 0 6 = some (x % 7, next) := by
    rw [fuzzRange_zero input (by decide) (by decide), h]
    rfl
  have hlt : (x % 7).toNat < 7 := Nat.mod_lt x.toNat (by decide)
  have hnbits : Int.bmod (x % 7).toNat (2 ^ 32) = (x % 7).toNat :=
    Int.bmod_eq_of_le (by omega) (by omega)
  rw [genTnum, show UInt64.ofInt 6 = 6 from rfl, hbits, Option.map_some, hnbits, Int.toNat_natCast]

/-- Every fuzz input gives a tnum, with at most six unknown bits. -/
theorem genTnum_eq_some (input : FuzzInput) :
    ∃ t rest, genTnum input 6 = some (t, rest) ∧ t.WF ∧ t.mask.cpop.toNat ≤ 6 := by
  obtain ⟨⟨x, next⟩, hdraw⟩ : ∃ drawn, fuzzU64 input = drawn := ⟨_, rfl⟩
  have hlt : (x % 7).toNat < 7 := Nat.mod_lt x.toNat (by decide)
  rw [genTnum_of_draw hdraw]
  generalize (x % 7).toNat = nbits at hlt
  obtain ⟨hwf, hle⟩ := drawTnum_wf nbits next
  exact ⟨_, _, rfl, hwf, hle.trans (by omega)⟩

/-! ## The enumeration -/

lemma and_bit_ne_zero {m : BitVec 64} {i : ℕ} :
    m &&& 1#64 <<< i ≠ 0 ↔ m.getLsbD i = true := by
  rw [WordSet.ne_zero_iff]
  constructor
  · rintro ⟨k, hk, hbit⟩
    rw [BitVec.getLsbD_and, getLsbD_one_shiftLeft hk, Bool.and_eq_true, decide_eq_true_eq] at hbit
    exact hbit.2 ▸ hbit.1
  · intro hbit
    have hi : i < 64 := BitVec.lt_of_getLsbD hbit
    refine ⟨i, hi, ?_⟩
    rw [BitVec.getLsbD_and, getLsbD_one_shiftLeft hi, hbit, decide_eq_true rfl, Bool.and_true]

/-- The scan stops with the sixteenth position. -/
lemma scanBits_eq (m : BitVec 64) (is bitpos : List ℕ) (h : bitpos.length ≤ 16) :
    scanBits m is bitpos = (bitpos ++ is.filter m.getLsbD).take 16 := by
  induction is generalizing bitpos with
  | nil => rw [scanBits, List.filter_nil, List.append_nil, List.take_of_length_le h]
  | cons i is ih =>
    rw [scanBits]
    by_cases hlen : bitpos.length < 16
    · rw [if_pos hlen]
      by_cases hbit : m.getLsbD i = true
      · rw [if_pos (and_bit_ne_zero.mpr hbit), ih _ (by simpa using hlen),
          List.filter_cons_of_pos hbit, List.append_assoc, List.singleton_append]
      · rw [if_neg (and_bit_ne_zero.not.mpr hbit), ih _ h, List.filter_cons_of_neg hbit]
    · rw [if_neg hlen, List.take_append_of_le_length (by omega), List.take_of_length_le h]

lemma scanBits_all (m : BitVec 64) :
    scanBits m (List.range 64) [] = (setBits m).take 16 := scanBits_eq m _ [] (by decide)

lemma length_scanBits (m : BitVec 64) :
    (scanBits m (List.range 64) []).length = min 16 m.cpop.toNat := by
  rw [scanBits_all, List.length_take, length_setBits]

lemma foldl_update (f : ℕ → BitVec 64) (n : ℕ) (out : ℕ → BitVec 64) :
    (List.range n).foldl (fun out s => Function.update out s (f s)) out =
      fun s => if s < n then f s else out s := by
  induction n with
  | zero => rfl
  | succ n ih =>
    rw [List.range_succ, List.foldl_append, ih]
    funext s
    rw [List.foldl_cons, List.foldl_nil, Function.update_apply]
    by_cases hs : s = n
    · rw [if_pos hs, if_pos (by omega), hs]
    · rw [if_neg hs]
      exact if_congr (by omega) rfl rfl

/-- The values of the first `n` cells. -/
def cells (out : ℕ → BitVec 64) (n : ℤ) : List (BitVec 64) := (List.range n.toNat).map out

variable {t : Tnum}

lemma enumerate_skip {cap : ℤ} (h : 12 < t.mask.cpop.toNat ∨ cap < 2 ^ t.mask.cpop.toNat)
    (out : ℕ → BitVec 64) : enumerate t out cap = (-1, out) := by
  have hlen := length_scanBits t.mask
  rw [enumerate]
  by_cases hpop : 12 < t.mask.cpop.toNat
  · exact if_pos (by omega)
  · have hnb : (scanBits t.mask (List.range 64) []).length = t.mask.cpop.toNat := by omega
    have hcap : cap < 2 ^ t.mask.cpop.toNat := h.resolve_left hpop
    rw [if_neg (by omega), hnb, Nat.one_shiftLeft]
    exact if_pos (by exact_mod_cast hcap)

lemma enumerate_run {cap : ℤ} (hpop : t.mask.cpop.toNat ≤ 12) (hcap : 2 ^ t.mask.cpop.toNat ≤ cap)
    (out : ℕ → BitVec 64) : enumerate t out cap = (((2 ^ t.mask.cpop.toNat : ℕ) : ℤ), fun s =>
      if s < 2 ^ t.mask.cpop.toNat then member t (setBits t.mask) s else out s) := by
  have hlen := length_setBits t.mask
  have hscan : scanBits t.mask (List.range 64) [] = setBits t.mask := by
    rw [scanBits_all, List.take_of_length_le (by omega)]
  have hfits : ¬ ((2 ^ t.mask.cpop.toNat : ℕ) : ℤ) > cap := by
    push_cast
    omega
  rw [enumerate, hscan, hlen, Nat.one_shiftLeft, if_neg (by omega)]
  dsimp only
  rw [if_neg hfits, foldl_update]

/-- The cells filled hold the members, each of them once. -/
theorem enumerate_members (ht : t.WF) {cap : ℤ} (hpop : t.mask.cpop.toNat ≤ 12)
    (hcap : 2 ^ t.mask.cpop.toNat ≤ cap) (out : ℕ → BitVec 64) :
    (cells (enumerate t out cap).2 (enumerate t out cap).1).Nodup ∧
      ∀ z, z ∈ cells (enumerate t out cap).2 (enumerate t out cap).1 ↔ z ∈ t.gamma := by
  have hcells : cells (enumerate t out cap).2 (enumerate t out cap).1 =
      (List.range (2 ^ t.mask.cpop.toNat)).map
        (spread t.value (fun b => (setBits t.mask).getD b 0) t.mask.cpop.toNat) := by
    rw [enumerate_run hpop hcap, cells, Int.toNat_natCast]
    apply List.map_congr_left
    intro s hs
    dsimp only
    rw [if_pos (List.mem_range.mp hs), member, length_setBits]
    rfl
  rw [hcells]
  exact Positions.list_agreeing (length_setBits t.mask ▸ positions_setBits t.mask) ht

/-! ## Completeness of the checks -/

/-- The abstract operation covers the concrete one on all values that two tnums stand for. -/
def Sound (concrete : BitVec 64 → BitVec 64 → BitVec 64) (a b ra : Tnum) : Prop :=
  ∀ x ∈ a.gamma, ∀ y ∈ b.gamma, concrete x y ∈ ra.gamma

lemma tnumMember_iff {z : BitVec 64} : tnumMember z t = true ↔ z ∈ t.gamma := by
  rw [tnumMember, beq_iff_eq, Tnum.gamma, mem_agreeing]

lemma mem_cells {out : ℕ → BitVec 64} {n : ℤ} {z : BitVec 64} :
    z ∈ cells out n ↔ ∃ i < n.toNat, out i = z := by
  simp only [cells, List.mem_map, List.mem_range]

lemma checkBinop_eq_none {name : String} {ra a b : Tnum} {am bm : ℕ → BitVec 64} {an bn : ℤ}
    {concrete : BitVec 64 → BitVec 64 → BitVec 64} {msglen : ℕ} :
    checkBinop name ra a b am an bm bn concrete msglen = none ↔
      ∀ x ∈ cells am an, ∀ y ∈ cells bm bn, concrete x y ∈ ra.gamma := by
  simp only [checkBinop, List.findSome?_eq_none_iff, List.mem_range, ite_eq_left_iff,
    reduceCtorEq, imp_false, not_not, tnumMember_iff, mem_cells]
  constructor
  · rintro h x ⟨i, hi, rfl⟩ y ⟨j, hj, rfl⟩
    exact h i hi j hj
  · exact fun h i hi j hj => h _ ⟨i, hi, rfl⟩ _ ⟨j, hj, rfl⟩

lemma checkShifts_eq_none {a rl rr : Tnum} {sh : UInt8} {am : ℕ → BitVec 64} {an : ℤ}
    {msglen : ℕ} : checkShifts a rl rr sh am an msglen = none ↔
      ∀ x ∈ cells am an, x <<< sh.toNat ∈ rl.gamma ∧ x >>> sh.toNat ∈ rr.gamma := by
  simp only [checkShifts, List.findSome?_eq_none_iff, List.mem_range, mem_cells]
  constructor
  · rintro h x ⟨i, hi, rfl⟩
    have hi := h i hi
    split_ifs at hi with hl hr
    exact ⟨tnumMember_iff.mp hl, tnumMember_iff.mp hr⟩
  · intro h i hi
    obtain ⟨hl, hr⟩ := h _ ⟨i, hi, rfl⟩
    rw [if_neg (not_not.mpr (tnumMember_iff.mpr hl)), if_neg (not_not.mpr (tnumMember_iff.mpr hr))]

/-- All values of two tnums are compared before a case passes. -/
theorem checkCase_eq_pass {a b : Tnum} (ha : a.WF) (hb : b.WF) (hpa : a.mask.cpop.toNat ≤ 6)
    (hpb : b.mask.cpop.toNat ≤ 6) (k : Kernel) (input : FuzzInput) (am bm : ℕ → BitVec 64)
    (msglen : ℕ) : checkCase k a b input am bm msglen ≠ .skip ∧
      (checkCase k a b input am bm msglen = .pass ↔
        (∀ o ∈ k.binops, Sound o.c a b (o.op a b)) ∧
        ∀ x ∈ a.gamma, x <<< ((fuzzU64 input).1 &&& 63).toUInt8.toNat ∈
            (k.tnumLshift a ((fuzzU64 input).1 &&& 63).toUInt8).gamma ∧
          x >>> ((fuzzU64 input).1 &&& 63).toUInt8.toNat ∈
            (k.tnumRshift a ((fuzzU64 input).1 &&& 63).toUInt8).gamma) := by
  have hfits {t : Tnum} (h : t.mask.cpop.toNat ≤ 6) :
      (2 : ℤ) ^ t.mask.cpop.toNat ≤ ((1 <<< 6 : ℕ) : ℤ) := by
    exact_mod_cast Nat.pow_le_pow_right (by decide) h
  have hcount {t : Tnum} (h : t.mask.cpop.toNat ≤ 6) (out : ℕ → BitVec 64) :
      ¬ (enumerate t out (1 <<< 6)).1 < 0 := by
    rw [enumerate_run (h.trans (by decide)) (hfits h)]
    exact not_lt.mpr (Int.natCast_nonneg _)
  obtain ⟨-, hma⟩ := enumerate_members ha (hpa.trans (by decide)) (hfits hpa) am
  obtain ⟨-, hmb⟩ := enumerate_members hb (hpb.trans (by decide)) (hfits hpb) bm
  have hbinops : (k.binops.findSome? fun o => checkBinop o.n (o.op a b) a b
      (enumerate a am (1 <<< 6)).2 (enumerate a am (1 <<< 6)).1 (enumerate b bm (1 <<< 6)).2
      (enumerate b bm (1 <<< 6)).1 o.c msglen) = none ↔
      ∀ o ∈ k.binops, Sound o.c a b (o.op a b) := by
    simp only [List.findSome?_eq_none_iff, checkBinop_eq_none, hma, hmb, Sound]
  have hshifts (rl rr : Tnum) (sh : UInt8) : checkShifts a rl rr sh
      (enumerate a am (1 <<< 6)).2 (enumerate a am (1 <<< 6)).1 msglen = none ↔
      ∀ x ∈ a.gamma, x <<< sh.toNat ∈ rl.gamma ∧ x >>> sh.toNat ∈ rr.gamma := by
    simp only [checkShifts_eq_none, hma]
  rw [checkCase]
  dsimp only
  rw [if_neg (not_or.mpr ⟨hcount hpa am, hcount hpb bm⟩), ← hbinops, ← hshifts]
  split
  case h_1 msg hmsg =>
    refine ⟨nofun, iff_of_false nofun fun h => ?_⟩
    exact Option.some_ne_none msg (hmsg.symm.trans h.1)
  case h_2 hnone =>
    split
    case h_1 msg hmsg =>
      refine ⟨nofun, iff_of_false nofun fun h => ?_⟩
      exact Option.some_ne_none msg (hmsg.symm.trans h.2)
    case h_2 hnone' => exact ⟨nofun, iff_of_true rfl ⟨hnone, hnone'⟩⟩

/-- The operations of the kernel are sound on the tnums drawn from an input. -/
def SoundOn (k : Kernel) (input : FuzzInput) : Prop :=
  ∃ a b r s, genTnum input 6 = some (a, r) ∧ genTnum r 6 = some (b, s) ∧
    (∀ o ∈ k.binops, Sound o.c a b (o.op a b)) ∧
    ∀ x ∈ a.gamma, x <<< ((fuzzU64 s).1 &&& 63).toUInt8.toNat ∈
        (k.tnumLshift a ((fuzzU64 s).1 &&& 63).toUInt8).gamma ∧
      x >>> ((fuzzU64 s).1 &&& 63).toUInt8.toNat ∈
        (k.tnumRshift a ((fuzzU64 s).1 &&& 63).toUInt8).gamma

/-- A case is never skipped, and it passes iff the operations are sound on what it draws. -/
lemma fuzzCase_eq_pass (k : Kernel) (input : FuzzInput) (am bm : ℕ → BitVec 64) (msglen : ℕ) :
    ∃ outcome, fuzzCase k input am bm msglen = some outcome ∧ outcome ≠ .skip ∧
      (outcome = .pass ↔ SoundOn k input) := by
  obtain ⟨a, r, ha, hwa, hpa⟩ := genTnum_eq_some input
  obtain ⟨b, s, hb, hwb, hpb⟩ := genTnum_eq_some r
  obtain ⟨hskip, hpass⟩ := checkCase_eq_pass hwa hwb hpa hpb k s am bm msglen
  refine ⟨checkCase k a b s am bm msglen, ?_, hskip, ?_⟩
  · rw [fuzzCase, ha, Option.bind_some, hb, Option.map_some]
  · rw [hpass]
    constructor
    · exact fun hall => ⟨a, b, r, s, ha, hb, hall⟩
    · rintro ⟨a', b', r', s', ha', hb', hall⟩
      rw [ha, Option.some.injEq, Prod.mk.injEq] at ha'
      obtain ⟨rfl, rfl⟩ := ha'
      rw [hb, Option.some.injEq, Prod.mk.injEq] at hb'
      obtain ⟨rfl, rfl⟩ := hb'
      exact hall

/-- An iteration is a whole soundness check: the two lists of values are complete and without
repetition, none is skipped, the check on them decides soundness, and so does the whole case on the
tnums that it draws. -/
theorem fuzzCase_complete :
    (∀ (t : Tnum) (out : ℕ → BitVec 64) (cap : ℤ), t.WF →
      ((enumerate t out cap).1 = -1 ↔
        12 < t.mask.cpop.toNat ∨ cap < 2 ^ t.mask.cpop.toNat) ∧
      ((enumerate t out cap).1 ≠ -1 → (enumerate t out cap).1 = 2 ^ t.mask.cpop.toNat ∧
        (cells (enumerate t out cap).2 (2 ^ t.mask.cpop.toNat)).Nodup ∧
        ∀ z, z ∈ cells (enumerate t out cap).2 (2 ^ t.mask.cpop.toNat) ↔ z ∈ t.gamma)) ∧
    (∀ input : FuzzInput,
      ∃ t rest, genTnum input 6 = some (t, rest) ∧ t.WF ∧ t.mask.cpop.toNat ≤ 6) ∧
    (∀ (k : Kernel) (input : FuzzInput) (am bm : ℕ → BitVec 64) (msglen : ℕ),
      ∃ outcome, fuzzCase k input am bm msglen = some outcome ∧ outcome ≠ .skip ∧
        (outcome = .pass ↔ SoundOn k input)) ∧
    ∀ (name : String) (ra a b : Tnum) (am bm : ℕ → BitVec 64) (capa capb : ℤ)
      (op : BitVec 64 → BitVec 64 → BitVec 64) (msglen : ℕ), a.WF → b.WF →
      (enumerate a am capa).1 ≠ -1 → (enumerate b bm capb).1 ≠ -1 →
      (checkBinop name ra a b (enumerate a am capa).2 (enumerate a am capa).1
          (enumerate b bm capb).2 (enumerate b bm capb).1 op msglen = none ↔
        ∀ x ∈ a.gamma, ∀ y ∈ b.gamma, op x y ∈ ra.gamma) := by
  have hcount (t : Tnum) (out : ℕ → BitVec 64) (cap : ℤ) : (enumerate t out cap).1 = -1 ↔
      12 < t.mask.cpop.toNat ∨ cap < 2 ^ t.mask.cpop.toNat := by
    constructor
    · intro heq
      by_contra hrun
      rw [not_or, not_lt, not_lt] at hrun
      rw [enumerate_run hrun.1 hrun.2] at heq
      have hneg : ((2 ^ t.mask.cpop.toNat : ℕ) : ℤ) = -1 := heq
      have hnonneg := Int.natCast_nonneg (2 ^ t.mask.cpop.toNat)
      rw [hneg] at hnonneg
      exact absurd hnonneg (by decide)
    · intro hskip
      rw [enumerate_skip hskip]
  have hrun {t : Tnum} {out : ℕ → BitVec 64} {cap : ℤ} (h : (enumerate t out cap).1 ≠ -1) :
      t.mask.cpop.toNat ≤ 12 ∧ 2 ^ t.mask.cpop.toNat ≤ cap := by
    rw [ne_eq, hcount, not_or, not_lt, not_lt] at h
    exact h
  refine ⟨?_, genTnum_eq_some, fuzzCase_eq_pass, ?_⟩
  · intro t out cap ht
    refine ⟨hcount t out cap, fun h => ?_⟩
    obtain ⟨hpop, hcap⟩ := hrun h
    have hn : (enumerate t out cap).1 = 2 ^ t.mask.cpop.toNat := by
      rw [enumerate_run hpop hcap]
      exact Nat.cast_pow 2 _
    have hmem := enumerate_members ht hpop hcap out
    rw [hn] at hmem
    exact ⟨hn, hmem⟩
  · intro name ra a b am bm capa capb op msglen hwa hwb ha hb
    obtain ⟨-, hma⟩ := enumerate_members hwa (hrun ha).1 (hrun ha).2 am
    obtain ⟨-, hmb⟩ := enumerate_members hwb (hrun hb).1 (hrun hb).2 bm
    simp only [checkBinop_eq_none, hma, hmb]

/-- Operations that know nothing. -/
def unknownKernel : Kernel where
  tnumAdd := fun _ _ => ⟨0, -1⟩
  tnumSub := fun _ _ => ⟨0, -1⟩
  tnumAnd := fun _ _ => ⟨0, -1⟩
  tnumOr := fun _ _ => ⟨0, -1⟩
  tnumXor := fun _ _ => ⟨0, -1⟩
  tnumMul := fun _ _ => ⟨0, -1⟩
  tnumLshift := fun _ _ => ⟨0, -1⟩
  tnumRshift := fun _ _ => ⟨0, -1⟩

lemma mem_unknown (z : BitVec 64) : z ∈ (⟨0, -1⟩ : Tnum).gamma := by
  rw [Tnum.gamma, mem_agreeing]
  exact BitVec.and_zero

lemma binops_unknownKernel {o : Binop} {a b : Tnum} (ho : o ∈ unknownKernel.binops) :
    o.op a b = ⟨0, -1⟩ := by
  simp only [Kernel.binops, List.mem_cons, List.not_mem_nil, or_false] at ho
  rcases ho with rfl | rfl | rfl | rfl | rfl | rfl <;> rfl

/-- A kernel whose `tnum_and` answers 1 whatever it is asked. -/
def wrongAnd : Kernel := { unknownKernel with tnumAnd := fun _ _ => ⟨1, 0⟩ }

/-- Four unknown values, of which two meet in a bit. -/
def lowBits : Tnum := ⟨0, 3⟩

/-- The four values with bits 1 and 63 unknown; an input on which the first tnum drawn is the
constant 0, where a kernel that knows nothing passes and a wrong `tnum_and` fails; a check of `&` on
two lists that passes and one that does not. -/
theorem fuzzCase_complete_corners :
    (enumerate ⟨5, 0x8000000000000002⟩ 0 64).1 = 4 ∧
    (cells (enumerate ⟨5, 0x8000000000000002⟩ 0 64).2 4).Nodup ∧
    fuzzCase unknownKernel ⟨0, 0, 0⟩ 0 0 256 = some .pass ∧
    (∃ msg, fuzzCase wrongAnd ⟨0, 0, 0⟩ 0 0 256 = some (.fail msg)) ∧
    checkBinop "and" ⟨0, -1⟩ lowBits lowBits (enumerate lowBits 0 64).2 (enumerate lowBits 0 64).1
      (enumerate lowBits 0 64).2 (enumerate lowBits 0 64).1 (fun x y => x &&& y) 256 = none ∧
    checkBinop "and" ⟨0, 1⟩ lowBits lowBits (enumerate lowBits 0 64).2 (enumerate lowBits 0 64).1
      (enumerate lowBits 0 64).2 (enumerate lowBits 0 64).1 (fun x y => x &&& y) 256 ≠ none := by
  have hwf : (⟨5, 0x8000000000000002⟩ : Tnum).WF := by decide
  have hpop : (0x8000000000000002 : BitVec 64).cpop.toNat = 2 := by decide
  have hlow : lowBits.WF := by decide
  have hlowPop : lowBits.mask.cpop.toNat = 2 := by decide
  obtain ⟨hlists, hdrawn, hcase, hcheck⟩ := fuzzCase_complete
  obtain ⟨hskip, hrun⟩ := hlists ⟨5, 0x8000000000000002⟩ 0 64 hwf
  simp only [hpop] at hskip hrun
  obtain ⟨hn, hnodup, -⟩ := hrun (hskip.not.mpr (by decide))
  have hlist : (enumerate lowBits 0 64).1 ≠ -1 := by
    rw [ne_eq, (hlists lowBits 0 64 hlow).1, hlowPop]
    decide
  refine ⟨hn, hnodup, ?_, ?_, ?_, ?_⟩
  · obtain ⟨outcome, heq, -, hpass⟩ := hcase unknownKernel ⟨0, 0, 0⟩ 0 0 256
    obtain ⟨a, r, ha, -, -⟩ := hdrawn ⟨0, 0, 0⟩
    obtain ⟨b, s, hb, -, -⟩ := hdrawn r
    rw [heq, hpass.mpr ⟨a, b, r, s, ha, hb, fun o ho x _ y _ => ?_,
      fun x _ => ⟨mem_unknown _, mem_unknown _⟩⟩]
    rw [binops_unknownKernel ho]
    exact mem_unknown _
  · obtain ⟨outcome, heq, hskip, hpass⟩ := hcase wrongAnd ⟨0, 0, 0⟩ 0 0 256
    have hne : outcome ≠ .pass := by
      intro hp
      obtain ⟨a, b, r, s, ha, hb, hsound, -⟩ := hpass.mp hp
      have hzero : genTnum ⟨0, 0, 0⟩ 6 = some (⟨0, 0⟩, ⟨0, 2, 0⟩) := by decide +kernel
      rw [hzero, Option.some.injEq, Prod.mk.injEq] at ha
      obtain ⟨rfl, rfl⟩ := ha
      obtain ⟨b', s', hb', hwb, -⟩ := hdrawn ⟨0, 2, 0⟩
      rw [hb, Option.some.injEq, Prod.mk.injEq] at hb'
      obtain ⟨rfl, rfl⟩ := hb'
      have hand : Sound (fun x y => x &&& y) ⟨0, 0⟩ b ⟨1, 0⟩ :=
        hsound ⟨"and", wrongAnd.tnumAnd, fun x y => x &&& y⟩ (by simp [Kernel.binops])
      have hone : 0#64 &&& b.value ∈ (⟨1, 0⟩ : Tnum).gamma :=
        hand 0 (tnumMember_iff.mp (by decide)) b.value (self_mem hwb)
      rw [BitVec.zero_and] at hone
      exact absurd (tnumMember_iff.mpr hone) (by decide)
    cases outcome with
    | skip => exact absurd rfl hskip
    | pass => exact absurd rfl hne
    | fail msg => exact ⟨msg, heq⟩
  · exact (hcheck "and" _ _ _ 0 0 64 64 _ 256 hlow hlow hlist hlist).mpr
      fun x _ y _ => mem_unknown _
  · intro hnone
    have hall := (hcheck "and" _ _ _ 0 0 64 64 _ 256 hlow hlow hlist hlist).mp hnone
    have htwo : (2 : BitVec 64) ∈ lowBits.gamma := tnumMember_iff.mp (by decide)
    exact absurd (tnumMember_iff.mpr (hall 2 htwo 2 htwo)) (by decide)

end BpfVerify.TnumSoundness
