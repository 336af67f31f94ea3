import BpfVerify.WordSet

/-!
# Helper prototypes

The checks of `check_func_proto` on the arguments of a helper function, in `verifier.c`.
-/
namespace BpfVerify.FuncProto

def einval : ℤ := 22

/-! ## `enum bpf_arg_type` and its flags -/

def argPtrToMem : BitVec 32 := 4
def argConstSize : BitVec 32 := 6
def argConstSizeOrZero : BitVec 32 := 7
def argPtrToSpinLock : BitVec 32 := 10
def argPtrToBtfId : BitVec 32 := 13

def bpfBaseTypeMask : BitVec 32 := 0xff
def memRdonly : BitVec 32 := 1 <<< 9
def objRelease : BitVec 32 := 1 <<< 13
def memUninit : BitVec 32 := 1 <<< 15
def memFixedSize : BitVec 32 := 1 <<< 18
def memWrite : BitVec 32 := 1 <<< 26

def bpfPtrPoison : BitVec 64 := 1

/-- The sizes and the BTF ids of the arguments share one storage. -/
structure BpfFuncProto where
  argType : Fin 5 → BitVec 32
  argWord : Fin 5 → BitVec 64

namespace BpfFuncProto

def argSize (fn : BpfFuncProto) : Fin 5 → BitVec 64 := fn.argWord

def argBtfId (fn : BpfFuncProto) : Fin 5 → BitVec 64 := fn.argWord

end BpfFuncProto

structure BpfCallArgMeta where
  releaseRegno : BitVec 8
  deriving DecidableEq

def baseType (type : BitVec 32) : BitVec 32 := type &&& bpfBaseTypeMask

def hasFlag (type flag : BitVec 32) : Bool := type &&& flag != 0

def argTypeIsMemSize (type : BitVec 32) : Bool := type == argConstSize || type == argConstSizeOrZero

def argTypeIsRawMem (type : BitVec 32) : Bool :=
  baseType type == argPtrToMem && hasFlag type memUninit

def argTypeIsRelease (type : BitVec 32) : Bool := hasFlag type objRelease

def checkRawModeOk (fn : BpfFuncProto) : Bool :=
  let count := 0
  let count := if argTypeIsRawMem (fn.argType 0) then count + 1 else count
  let count := if argTypeIsRawMem (fn.argType 1) then count + 1 else count
  let count := if argTypeIsRawMem (fn.argType 2) then count + 1 else count
  let count := if argTypeIsRawMem (fn.argType 3) then count + 1 else count
  let count := if argTypeIsRawMem (fn.argType 4) then count + 1 else count
  count ≤ 1

def nextIsSize (fn : BpfFuncProto) (arg : Fin 5) : Bool :=
  if h : arg.val + 1 < 5 then argTypeIsMemSize (fn.argType ⟨arg.val + 1, h⟩) else false

def checkArgsPairInvalid (fn : BpfFuncProto) (arg : Fin 5) : Bool :=
  let isFixed := hasFlag (fn.argType arg) memFixedSize
  let hasSize := fn.argSize arg != 0
  let isNextSize := nextIsSize fn arg
  if baseType (fn.argType arg) ≠ argPtrToMem then isNextSize
  else hasSize == isNextSize || isNextSize == isFixed

def checkArgPairOk (fn : BpfFuncProto) : Bool :=
  if argTypeIsMemSize (fn.argType 0) || checkArgsPairInvalid fn 0 || checkArgsPairInvalid fn 1 ||
      checkArgsPairInvalid fn 2 || checkArgsPairInvalid fn 3 || checkArgsPairInvalid fn 4 then false
  else true

/-- The loop of `check_btf_id_ok` over the arguments left. -/
def btfIdLoop (fn : BpfFuncProto) : List (Fin 5) → Bool
  | [] => true
  | i :: rest =>
    if baseType (fn.argType i) = argPtrToBtfId then fn.argBtfId i != 0
    else if baseType (fn.argType i) = argPtrToSpinLock then fn.argBtfId i == bpfPtrPoison
    else if baseType (fn.argType i) ≠ argPtrToBtfId ∧ fn.argBtfId i ≠ 0 ∧
        (baseType (fn.argType i) ≠ argPtrToMem ∨ ¬ hasFlag (fn.argType i) memFixedSize) then false
    else btfIdLoop fn rest

def checkBtfIdOk (fn : BpfFuncProto) : Bool := btfIdLoop fn (List.finRange 5)

/-- The loop of `check_mem_arg_rw_flag_ok` over the arguments left. -/
def rwFlagLoop (fn : BpfFuncProto) : List (Fin 5) → Bool
  | [] => true
  | i :: rest =>
    let argType := fn.argType i
    if baseType argType ≠ argPtrToMem then rwFlagLoop fn rest
    else if ¬ hasFlag argType (memWrite ||| memRdonly) then false
    else rwFlagLoop fn rest

def checkMemArgRwFlagOk (fn : BpfFuncProto) : Bool := rwFlagLoop fn (List.finRange 5)

/-- The loop of `check_proto_release_reg` over the arguments left. -/
def releaseLoop (fn : BpfFuncProto) : List (Fin 5) → BpfCallArgMeta → Bool × BpfCallArgMeta
  | [], argMeta => (true, argMeta)
  | i :: rest, argMeta =>
    if argTypeIsRelease (fn.argType i) then
      if argMeta.releaseRegno ≠ 0 then (false, argMeta)
      else releaseLoop fn rest { argMeta with releaseRegno := BitVec.ofNat 8 (i.val + 1) }
    else releaseLoop fn rest argMeta

def checkProtoReleaseReg (fn : BpfFuncProto) (argMeta : BpfCallArgMeta) : Bool × BpfCallArgMeta :=
  releaseLoop fn (List.finRange 5) argMeta

/-- The result, with the record as the release check leaves it where it is reached. -/
def checkFuncProto (fn : BpfFuncProto) (argMeta : BpfCallArgMeta) : ℤ × BpfCallArgMeta :=
  if checkRawModeOk fn && checkArgPairOk fn && checkMemArgRwFlagOk fn then
    let (ok, argMeta) := checkProtoReleaseReg fn argMeta
    (if ok && checkBtfIdOk fn then 0 else -einval, argMeta)
  else (-einval, argMeta)

/-! ## What is accepted -/

/-- The type of the argument is that of a size, without flags. -/
def IsSize (fn : BpfFuncProto) (i : Fin 5) : Prop :=
  fn.argType i = argConstSize ∨ fn.argType i = argConstSizeOrZero

def IsMem (fn : BpfFuncProto) (i : Fin 5) : Prop := baseType (fn.argType i) = argPtrToMem

def IsRawMem (fn : BpfFuncProto) (i : Fin 5) : Prop :=
  IsMem fn i ∧ hasFlag (fn.argType i) memUninit = true

def IsFixed (fn : BpfFuncProto) (i : Fin 5) : Prop := hasFlag (fn.argType i) memFixedSize = true

def IsRelease (fn : BpfFuncProto) (i : Fin 5) : Prop := hasFlag (fn.argType i) objRelease = true

def FollowedBySize (fn : BpfFuncProto) (i : Fin 5) : Prop :=
  ∃ j : Fin 5, j.val = i.val + 1 ∧ IsSize fn j

/-- The memory, the sizes and the released argument of a signature fit together. -/
structure WellFormed (fn : BpfFuncProto) (releaseRegno : BitVec 8) : Prop where
  raw : ∀ i j, IsRawMem fn i → IsRawMem fn j → i = j
  first : ¬ IsSize fn 0
  size : ∀ i, IsSize fn i → ∃ j : Fin 5, j.val + 1 = i.val ∧ IsMem fn j ∧ ¬ IsFixed fn j ∧
    fn.argSize j = 0
  mem : ∀ i, IsMem fn i → (IsFixed fn i ∧ fn.argSize i ≠ 0 ∧ ¬ FollowedBySize fn i) ∨
    (¬ IsFixed fn i ∧ fn.argSize i = 0 ∧ FollowedBySize fn i)
  access : ∀ i, IsMem fn i →
    hasFlag (fn.argType i) memWrite = true ∨ hasFlag (fn.argType i) memRdonly = true
  release : ∀ i j, IsRelease fn i → IsRelease fn j → i = j
  regno : ∀ i, IsRelease fn i → releaseRegno.toNat = i.val + 1
  noRegno : (∀ i, ¬ IsRelease fn i) → releaseRegno = 0

variable {fn : BpfFuncProto}

lemma argTypeIsMemSize_iff {i : Fin 5} : argTypeIsMemSize (fn.argType i) = true ↔ IsSize fn i := by
  rw [argTypeIsMemSize, Bool.or_eq_true, beq_iff_eq, beq_iff_eq, IsSize]

lemma argTypeIsRawMem_iff {i : Fin 5} : argTypeIsRawMem (fn.argType i) = true ↔ IsRawMem fn i := by
  rw [argTypeIsRawMem, Bool.and_eq_true, beq_iff_eq, IsRawMem, IsMem]

lemma hasFlag_or {type flag flag' : BitVec 32} :
    hasFlag type (flag ||| flag') = true ↔ hasFlag type flag = true ∨ hasFlag type flag' = true := by
  simp only [hasFlag, bne_iff_ne, BitVec.and_or_distrib_left, WordSet.or_ne_zero_iff]

lemma raw_of_checkRawModeOk (h : checkRawModeOk fn = true) {i j : Fin 5} (hi : IsRawMem fn i)
    (hj : IsRawMem fn j) : i = j := by
  have hcount : (Finset.univ.filter fun i => argTypeIsRawMem (fn.argType i) = true).card ≤ 1 := by
    rw [Finset.card_filter, Fin.sum_univ_five]
    simp only [checkRawModeOk, decide_eq_true_eq] at h
    split_ifs at h ⊢ <;> omega
  rw [← argTypeIsRawMem_iff] at hi hj
  exact Finset.card_le_one.mp hcount i (by simpa using hi) j (by simpa using hj)

lemma nextIsSize_iff {i : Fin 5} : nextIsSize fn i = true ↔ FollowedBySize fn i := by
  rw [nextIsSize]
  constructor
  · intro h
    split_ifs at h with hlt
    exact ⟨⟨i.val + 1, hlt⟩, rfl, argTypeIsMemSize_iff.mp h⟩
  · rintro ⟨j, hj, hsize⟩
    have hlt : i.val + 1 < 5 := hj ▸ j.isLt
    have heq : (⟨i.val + 1, hlt⟩ : Fin 5) = j := Fin.ext hj.symm
    rw [dif_pos hlt, heq]
    exact argTypeIsMemSize_iff.mpr hsize

lemma checkArgsPairInvalid_eq_false {i : Fin 5} : checkArgsPairInvalid fn i = false ↔
    (IsMem fn i → (IsFixed fn i ∧ fn.argSize i ≠ 0 ∧ ¬ FollowedBySize fn i) ∨
      (¬ IsFixed fn i ∧ fn.argSize i = 0 ∧ FollowedBySize fn i)) ∧
    (¬ IsMem fn i → ¬ FollowedBySize fn i) := by
  rw [checkArgsPairInvalid, ← nextIsSize_iff, IsFixed]
  by_cases hmem : IsMem fn i
  · have hbase : baseType (fn.argType i) = argPtrToMem := hmem
    rw [if_neg (not_not.mpr hbase), forall_prop_of_true hmem,
      forall_prop_of_false (not_not.mpr hmem), and_true]
    cases nextIsSize fn i <;> cases hasFlag (fn.argType i) memFixedSize <;> simp
  · have hbase : baseType (fn.argType i) ≠ argPtrToMem := hmem
    rw [if_pos hbase, forall_prop_of_false hmem, forall_prop_of_true hmem, true_and,
      Bool.not_eq_true]

lemma checkArgPairOk_iff : checkArgPairOk fn = true ↔
    ¬ IsSize fn 0 ∧ ∀ i, checkArgsPairInvalid fn i = false := by
  simp only [checkArgPairOk, ← argTypeIsMemSize_iff, Fin.forall_fin_succ]
  simp
  tauto

/-- A size follows memory that needs one. -/
lemma size_of_checkArgPairOk (h : checkArgPairOk fn = true) {i : Fin 5} (hi : IsSize fn i) :
    ∃ j : Fin 5, j.val + 1 = i.val ∧ IsMem fn j ∧ ¬ IsFixed fn j ∧ fn.argSize j = 0 := by
  obtain ⟨hfirst, hpairs⟩ := checkArgPairOk_iff.mp h
  have hpos : i.val ≠ 0 := by
    intro h0
    exact hfirst ((Fin.ext h0 : i = 0) ▸ hi)
  have hlt : i.val - 1 < 5 := by omega
  have hnext : FollowedBySize fn ⟨i.val - 1, hlt⟩ := ⟨i, by dsimp only; omega, hi⟩
  obtain ⟨hmem, hother⟩ := checkArgsPairInvalid_eq_false.mp (hpairs ⟨i.val - 1, hlt⟩)
  have hj : IsMem fn ⟨i.val - 1, hlt⟩ := by
    by_contra hnot
    exact hother hnot hnext
  obtain ⟨-, -, hno⟩ | ⟨hfixed, hsize, -⟩ := hmem hj
  · exact absurd hnext hno
  · exact ⟨⟨i.val - 1, hlt⟩, by dsimp only; omega, hj, hfixed, hsize⟩

/-! ## The loops -/

lemma rwFlagLoop_iff (is : List (Fin 5)) : rwFlagLoop fn is = true ↔ ∀ i ∈ is, IsMem fn i →
    hasFlag (fn.argType i) memWrite = true ∨ hasFlag (fn.argType i) memRdonly = true := by
  induction is with
  | nil => simp [rwFlagLoop]
  | cons i is ih =>
    rw [rwFlagLoop, List.forall_mem_cons, ← ih, ← hasFlag_or]
    by_cases hmem : IsMem fn i
    · have hbase : baseType (fn.argType i) = argPtrToMem := hmem
      rw [if_neg (not_not.mpr hbase), forall_prop_of_true hmem]
      cases hasFlag (fn.argType i) (memWrite ||| memRdonly) <;> simp
    · have hbase : baseType (fn.argType i) ≠ argPtrToMem := hmem
      rw [if_pos hbase, forall_prop_of_false hmem, true_and]

lemma releaseLoop_of_set (is : List (Fin 5)) {argMeta : BpfCallArgMeta}
    (hset : argMeta.releaseRegno ≠ 0) : (releaseLoop fn is argMeta).1 = true →
      (∀ i ∈ is, ¬ IsRelease fn i) ∧ (releaseLoop fn is argMeta).2 = argMeta := by
  intro h
  induction is with
  | nil => exact ⟨by simp, rfl⟩
  | cons i is ih =>
    rw [releaseLoop] at h ⊢
    by_cases hi : argTypeIsRelease (fn.argType i) = true
    · rw [if_pos hi, if_pos hset] at h
      cases h
    · rw [if_neg hi] at h ⊢
      obtain ⟨hrest, heq⟩ := ih h
      exact ⟨List.forall_mem_cons.mpr ⟨hi, hrest⟩, heq⟩

/-- From a clear record on, the loop accepts one release, which it records. -/
lemma releaseLoop_of_zero (is : List (Fin 5)) {argMeta : BpfCallArgMeta}
    (hzero : argMeta.releaseRegno = 0) (h : (releaseLoop fn is argMeta).1 = true) :
    (∀ i ∈ is, ∀ j ∈ is, IsRelease fn i → IsRelease fn j → i = j) ∧
      (∀ i ∈ is, IsRelease fn i → (releaseLoop fn is argMeta).2.releaseRegno.toNat = i.val + 1) ∧
      ((∀ i ∈ is, ¬ IsRelease fn i) → (releaseLoop fn is argMeta).2.releaseRegno = 0) := by
  induction is with
  | nil => simp [releaseLoop, hzero]
  | cons i is ih =>
    rw [releaseLoop] at h ⊢
    by_cases hi : argTypeIsRelease (fn.argType i) = true
    · have hregno : (BitVec.ofNat 8 (i.val + 1)).toNat = i.val + 1 := by
        rw [BitVec.toNat_ofNat]
        omega
      have hset : (BpfCallArgMeta.mk (BitVec.ofNat 8 (i.val + 1))).releaseRegno ≠ 0 := by
        intro h0
        have h0' : BitVec.ofNat 8 (i.val + 1) = 0 := h0
        rw [h0'] at hregno
        exact absurd hregno (by simp)
      rw [if_pos hi, if_neg (not_not.mpr hzero)] at h ⊢
      obtain ⟨hrest, heq⟩ := releaseLoop_of_set is hset h
      rw [heq]
      have honly : ∀ j ∈ i :: is, IsRelease fn j → j = i := by
        intro j hj hrel
        cases List.mem_cons.mp hj with
        | inl hji => exact hji
        | inr hjis => exact absurd hrel (hrest j hjis)
      refine ⟨?_, ?_, ?_⟩
      · intro j hj k hk hrelj hrelk
        rw [honly j hj hrelj, honly k hk hrelk]
      · intro j hj hrelj
        rw [honly j hj hrelj]
        exact hregno
      · exact fun hnone => absurd hi (hnone i List.mem_cons_self)
    · rw [if_neg hi] at h ⊢
      obtain ⟨hone, hregno, hnone⟩ := ih h
      have hlater : ∀ j ∈ i :: is, IsRelease fn j → j ∈ is := by
        intro j hj hrel
        exact (List.mem_cons.mp hj).resolve_left fun hji => hi (hji ▸ hrel)
      refine ⟨?_, ?_, ?_⟩
      · intro j hj k hk hrelj hrelk
        exact hone j (hlater j hj hrelj) k (hlater k hk hrelk) hrelj hrelk
      · exact fun j hj hrelj => hregno j (hlater j hj hrelj) hrelj
      · exact fun hall => hnone fun j hj => hall j (List.mem_cons_of_mem i hj)

/-- What the four checks before that of the ids have seen. -/
theorem wellFormed_of_checks {argMeta : BpfCallArgMeta} (hzero : argMeta.releaseRegno = 0)
    (hraw : checkRawModeOk fn = true) (hpair : checkArgPairOk fn = true)
    (haccess : checkMemArgRwFlagOk fn = true)
    (hrelease : (checkProtoReleaseReg fn argMeta).1 = true) :
    WellFormed fn (checkProtoReleaseReg fn argMeta).2.releaseRegno := by
  obtain ⟨hone, hregno, hnone⟩ := releaseLoop_of_zero (List.finRange 5) hzero hrelease
  obtain ⟨hfirst, hpairs⟩ := checkArgPairOk_iff.mp hpair
  constructor
  case raw => exact fun i j => raw_of_checkRawModeOk hraw
  case first => exact hfirst
  case size => exact fun i => size_of_checkArgPairOk hpair
  case mem => exact fun i => (checkArgsPairInvalid_eq_false.mp (hpairs i)).1
  case access => exact fun i => (rwFlagLoop_iff _).mp haccess i (List.mem_finRange i)
  case release => exact fun i j => hone i (List.mem_finRange i) j (List.mem_finRange j)
  case regno => exact fun i => hregno i (List.mem_finRange i)
  case noRegno => exact fun h => hnone fun i _ => h i

lemma checkFuncProto_eq_zero {argMeta : BpfCallArgMeta} : (checkFuncProto fn argMeta).1 = 0 ↔
    (checkRawModeOk fn = true ∧ checkArgPairOk fn = true ∧ checkMemArgRwFlagOk fn = true ∧
      (checkProtoReleaseReg fn argMeta).1 = true) ∧ checkBtfIdOk fn = true := by
  rw [checkFuncProto]
  obtain ⟨ok, after⟩ := checkProtoReleaseReg fn argMeta
  cases checkRawModeOk fn <;> cases checkArgPairOk fn <;> cases checkMemArgRwFlagOk fn <;>
    cases ok <;> cases checkBtfIdOk fn <;> simp [einval]

/-- Accepted signatures are well formed, and the record names the released argument. -/
theorem checkFuncProto_wellFormed (fn : BpfFuncProto) (argMeta : BpfCallArgMeta)
    (hzero : argMeta.releaseRegno = 0) (h : (checkFuncProto fn argMeta).1 = 0) :
    WellFormed fn (checkFuncProto fn argMeta).2.releaseRegno := by
  obtain ⟨⟨hraw, hpair, haccess, hrelease⟩, -⟩ := checkFuncProto_eq_zero.mp h
  have hmeta : (checkFuncProto fn argMeta).2 = (checkProtoReleaseReg fn argMeta).2 := by
    rw [checkFuncProto, hraw, hpair, haccess]
    rfl
  rw [hmeta]
  exact wellFormed_of_checks hzero hraw hpair haccess hrelease

/-- Memory to be filled with its size, and a socket to be released. -/
def readAndRelease : BpfFuncProto where
  argType i := [argPtrToMem ||| memUninit ||| memWrite, argConstSize, 12 ||| objRelease].getD i.val 0
  argWord _ := 0

theorem checkFuncProto_wellFormed_read :
    (checkFuncProto readAndRelease ⟨0⟩).1 = 0 ∧
    WellFormed readAndRelease (checkFuncProto readAndRelease ⟨0⟩).2.releaseRegno := by
  have hret : (checkFuncProto readAndRelease ⟨0⟩).1 = 0 := by decide
  exact ⟨hret, checkFuncProto_wellFormed readAndRelease ⟨0⟩ rfl hret⟩

/-! ## BTF ids -/

def IsBtfId (fn : BpfFuncProto) (i : Fin 5) : Prop := baseType (fn.argType i) = argPtrToBtfId

def IsSpinLock (fn : BpfFuncProto) (i : Fin 5) : Prop := baseType (fn.argType i) = argPtrToSpinLock

/-- The id of the argument is as its type demands. -/
structure IdRight (fn : BpfFuncProto) (i : Fin 5) : Prop where
  btfId : IsBtfId fn i → fn.argBtfId i ≠ 0
  spinLock : IsSpinLock fn i → fn.argBtfId i = bpfPtrPoison
  other : ¬ IsBtfId fn i → ¬ IsSpinLock fn i → fn.argBtfId i ≠ 0 → IsMem fn i ∧ IsFixed fn i

/-- The loop returns at this argument. -/
def Ends (fn : BpfFuncProto) (i : Fin 5) : Prop := IsBtfId fn i ∨ IsSpinLock fn i

lemma spinLock_ne_btfId {i : Fin 5} (h : IsSpinLock fn i) : ¬ IsBtfId fn i := by
  intro h'
  exact absurd (h.symm.trans h') (by decide)

/-- No argument of the list is before its head. -/
lemma none_before_head {a : Fin 5} {is : List (Fin 5)} (hlt : ∀ j ∈ is, a < j) :
    ∀ j ∈ a :: is, ¬ j < a := by
  intro j hj hja
  cases List.mem_cons.mp hj with
  | inl heq => exact absurd (heq ▸ hja) (lt_irrefl a)
  | inr hmem => exact absurd (hlt j hmem) hja.asymm

lemma idRight_of_ends {a : Fin 5} {is : List (Fin 5)} (hlt : ∀ j ∈ is, a < j)
    (hends : Ends fn a) :
    (∀ i ∈ a :: is, (∀ j ∈ a :: is, j < i → ¬ Ends fn j) → IdRight fn i) ↔ IdRight fn a := by
  constructor
  · intro h
    exact h a List.mem_cons_self fun j hj hja => absurd hja (none_before_head hlt j hj)
  · intro ha i hi hbefore
    cases List.mem_cons.mp hi with
    | inl heq => exact heq ▸ ha
    | inr hmem => exact absurd hends (hbefore a List.mem_cons_self (hlt i hmem))

lemma idRight_of_not_ends {a : Fin 5} {is : List (Fin 5)} (hends : ¬ Ends fn a)
    (hright : IdRight fn a) :
    (∀ i ∈ a :: is, (∀ j ∈ a :: is, j < i → ¬ Ends fn j) → IdRight fn i) ↔
      ∀ i ∈ is, (∀ j ∈ is, j < i → ¬ Ends fn j) → IdRight fn i := by
  constructor
  · intro h i hi hbefore
    refine h i (List.mem_cons_of_mem a hi) fun j hj hji => ?_
    cases List.mem_cons.mp hj with
    | inl heq => exact heq ▸ hends
    | inr hmem => exact hbefore j hmem hji
  · intro h i hi hbefore
    cases List.mem_cons.mp hi with
    | inl heq => exact heq ▸ hright
    | inr hmem => exact h i hmem fun j hj => hbefore j (List.mem_cons_of_mem a hj)

/-- The arguments that are left are looked at up to the first at which the loop returns. -/
lemma btfIdLoop_iff (is : List (Fin 5)) (hsorted : is.Pairwise (· < ·)) :
    btfIdLoop fn is = true ↔ ∀ i ∈ is, (∀ j ∈ is, j < i → ¬ Ends fn j) → IdRight fn i := by
  induction is with
  | nil => simp [btfIdLoop]
  | cons a is ih =>
    obtain ⟨hlt, hrest⟩ := List.pairwise_cons.mp hsorted
    rw [btfIdLoop]
    by_cases hbtf : IsBtfId fn a
    · have hbase : baseType (fn.argType a) = argPtrToBtfId := hbtf
      rw [if_pos hbase, idRight_of_ends hlt (.inl hbtf), bne_iff_ne]
      exact ⟨fun h => ⟨fun _ => h, fun hs => absurd hbtf (spinLock_ne_btfId hs), absurd hbtf⟩,
        fun h => h.btfId hbtf⟩
    have hbase : ¬ baseType (fn.argType a) = argPtrToBtfId := hbtf
    by_cases hspin : IsSpinLock fn a
    · have hlock : baseType (fn.argType a) = argPtrToSpinLock := hspin
      rw [if_neg hbase, if_pos hlock, idRight_of_ends hlt (.inr hspin), beq_iff_eq]
      exact ⟨fun h => ⟨fun hb => absurd hb hbtf, fun _ => h, fun _ => absurd hspin⟩,
        fun h => h.spinLock hspin⟩
    have hlock : ¬ baseType (fn.argType a) = argPtrToSpinLock := hspin
    rw [if_neg hbase, if_neg hlock]
    by_cases hid : fn.argBtfId a ≠ 0 → IsMem fn a ∧ IsFixed fn a
    · have hright : IdRight fn a := ⟨fun hb => absurd hb hbtf, fun hs => absurd hs hspin,
        fun _ _ => hid⟩
      have hgo : ¬ (baseType (fn.argType a) ≠ argPtrToBtfId ∧ fn.argBtfId a ≠ 0 ∧
          (baseType (fn.argType a) ≠ argPtrToMem ∨ ¬ hasFlag (fn.argType a) memFixedSize)) := by
        rintro ⟨-, hne, hmem | hfixed⟩
        · exact hmem (hid hne).1
        · exact hfixed (hid hne).2
      rw [if_neg hgo, ih hrest, idRight_of_not_ends (not_or.mpr ⟨hbtf, hspin⟩) hright]
    · have hstop : baseType (fn.argType a) ≠ argPtrToBtfId ∧ fn.argBtfId a ≠ 0 ∧
          (baseType (fn.argType a) ≠ argPtrToMem ∨ ¬ hasFlag (fn.argType a) memFixedSize) := by
        rw [Classical.not_imp, not_and_or] at hid
        exact ⟨hbase, hid⟩
      rw [if_pos hstop]
      refine iff_of_false Bool.false_ne_true fun h => ?_
      have hright := h a List.mem_cons_self fun j hj hja =>
        absurd hja (none_before_head hlt j hj)
      exact hid (hright.other hbtf hspin)

lemma checkBtfIdOk_iff :
    checkBtfIdOk fn = true ↔ ∀ i, (∀ j < i, ¬ Ends fn j) → IdRight fn i := by
  rw [checkBtfIdOk, btfIdLoop_iff _ (List.pairwise_lt_finRange 5)]
  simp only [List.mem_finRange, forall_true_left]

/-- An argument up to the first at which the loop returns is wrong, or all behind it are right. -/
def IdsCovered (fn : BpfFuncProto) : Prop :=
  (∃ i, (∀ j < i, ¬ Ends fn j) ∧ ¬ IdRight fn i) ∨ ∀ i, (∃ j < i, Ends fn j) → IdRight fn i

lemma idsCovered_iff : (checkBtfIdOk fn = true → ∀ i, IdRight fn i) ↔ IdsCovered fn := by
  rw [checkBtfIdOk_iff, IdsCovered]
  constructor
  · intro h
    by_cases hall : ∀ i, (∀ j < i, ¬ Ends fn j) → IdRight fn i
    · exact .inr fun i _ => h hall i
    · left
      simpa only [not_forall, exists_prop] using hall
  · rintro (⟨k, hbefore, hwrong⟩ | hlater) hchecked i
    · exact absurd (hchecked k hbefore) hwrong
    · by_cases hends : ∃ j < i, Ends fn j
      · exact hlater i hends
      · exact hchecked i fun j hj hj' => hends ⟨j, hj, hj'⟩

/-- Two arguments with BTF ids, the second of which has none. -/
def twoBtfIds : BpfFuncProto where
  argType i := if i.val < 2 then argPtrToBtfId else 0
  argWord i := if i.val < 1 then 0x1000 else 0

/-- The check returns at the first argument, and the second one is accepted without an id. -/
theorem twoBtfIds_accepted : checkBtfIdOk twoBtfIds = true ∧
    (checkFuncProto twoBtfIds ⟨0⟩).1 = 0 ∧ ¬ ∀ i, IdRight twoBtfIds i := by
  have hid : baseType (twoBtfIds.argType 1) = argPtrToBtfId := by decide
  refine ⟨by decide, by decide, fun h => ?_⟩
  exact absurd ((h 1).btfId hid) (by decide)

/-- The ids of all arguments are right behind an accepting check in exactly the covered cases. -/
theorem btfIds_right_iff (fn : BpfFuncProto) :
    ((checkBtfIdOk fn = true → ∀ i, IdRight fn i) ↔ IdsCovered fn) ∧
    ∀ argMeta : BpfCallArgMeta, ((checkFuncProto fn argMeta).1 = 0 → ∀ i, IdRight fn i) ↔
      (checkRawModeOk fn = false ∨ checkArgPairOk fn = false ∨ checkMemArgRwFlagOk fn = false ∨
        (checkProtoReleaseReg fn argMeta).1 = false) ∨ IdsCovered fn := by
  refine ⟨idsCovered_iff, fun argMeta => ?_⟩
  rw [checkFuncProto_eq_zero, ← idsCovered_iff]
  cases checkRawModeOk fn <;> cases checkArgPairOk fn <;> cases checkMemArgRwFlagOk fn <;>
    cases (checkProtoReleaseReg fn argMeta).1 <;> simp

end BpfVerify.FuncProto
