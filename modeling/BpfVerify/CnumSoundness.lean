import BpfVerify.Cnum
import BpfVerify.FuzzMain

/-!
# The cnum soundness fuzzer

`userspace/harnesses/cnum_soundness.c`: small arcs drawn near the ends of the signed and unsigned
ranges, and the checks of the operations of the kernel tree on all values of them, at both widths
and between them.
-/
namespace BpfVerify.CnumSoundness
open Arcs Cnum Fuzz FuzzMain

/-- A draw: what it gives, and the input after it. -/
abbrev Draw := StateT FuzzInput Option

variable {w : ℕ}

def maxSize : UInt64 := 16

def u64 : Draw UInt64 := fun input => some (fuzzU64 input)

def range (hi : UInt64) : Draw UInt64 := fun input => fuzzRange input 0 hi

/-- Two draws inside one expression, which the compiler orders. -/
def both {α β : Type} (leftFirst : Bool) (x : Draw α) (y : Draw β) : Draw (α × β) :=
  if leftFirst then do
    let a ← x
    let b ← y
    return (a, b)
  else do
    let b ← y
    let a ← x
    return (a, b)

/-- The boundary values of a width, and which of two draws the compiler makes first. -/
structure Generator (w : ℕ) where
  bnd : List (BitVec w)
  indexFirst : Bool
  baseFirst : Bool

def Generator.pick (g : Generator w) : Draw (BitVec w) := do
  let x ← u64
  if x &&& 1 ≠ 0 then
    let (i, off) ← both g.indexFirst (range (UInt64.ofNat (g.bnd.length - 1)))
      (range (2 * maxSize))
    return g.bnd.getD i.toNat 0 + off.toBitVec.setWidth w - maxSize.toBitVec.setWidth w
  else
    let x ← u64
    return x.toBitVec.setWidth w

def Generator.gen (g : Generator w) : Draw (Arc w) := do
  let (base, size) ← both g.baseFirst g.pick (range maxSize)
  return { base := base, size := size.toBitVec.setWidth w }

/-- A bound and the one at most `n` above it. -/
def Generator.bounds (g : Generator w) (n : UInt64) : Draw (BitVec w × BitVec w) := do
  let lo ← g.pick
  let off ← range n
  return (lo, lo + off.toBitVec.setWidth w)

def bnd32 : List (BitVec 32) :=
  [0, 1, 0x7fffffff, 0x80000000, 0xffffffff, 0x7ffffffe, 0x80000001]

def bnd64 : List (BitVec 64) :=
  [0, 1, 0x7fffffffffffffff, 0x8000000000000000, 0xffffffffffffffff]

/-- The operations of the kernel tree at a width. The signed results are words. -/
structure Ops (w : ℕ) where
  contains : Arc w → BitVec w → Bool
  add : Arc w → Arc w → Arc w
  negate : Arc w → Arc w
  intersect : Arc w → Arc w → Arc w
  isSubset : Arc w → Arc w → Bool
  umin : Arc w → BitVec w
  umax : Arc w → BitVec w
  smin : Arc w → BitVec w
  smax : Arc w → BitVec w
  fromSrange : BitVec w → BitVec w → Arc w
  intersectWithUrange : Arc w → BitVec w → BitVec w → Arc w
  intersectWithSrange : Arc w → BitVec w → BitVec w → Arc w

structure Kernel where
  cnum32 : Ops 32
  cnum64 : Ops 64
  cnum32FromCnum64 : Cnum64 → Cnum32
  cnum64Cnum32Intersect : Cnum64 → Cnum32 → Cnum64

/-! ## The messages -/

def unsignedText (x : BitVec w) : String := toString x.toNat

def signedText (x : BitVec w) : String := toString x.toInt

def arcText (c : Arc w) : String :=
  "\x7b" ++ unsignedText c.base ++ "," ++ unsignedText c.size ++ "\x7d"

def rangeText (text : BitVec w → String) (lo hi : BitVec w) : String :=
  "[" ++ text lo ++ "," ++ text hi ++ "]"

/-- The messages of the checks at a width. -/
structure Messages (w : ℕ) where
  contains : Arc w → BitVec w → String
  add : Arc w → Arc w → BitVec w → Arc w → String
  negate : Arc w → BitVec w → Arc w → String
  intersect : Arc w → Arc w → BitVec w → Arc w → String
  subsetUnsound : Arc w → Arc w → String
  subsetImprecise : Arc w → Arc w → String
  umin : Arc w → BitVec w → BitVec w → BitVec w → String
  smin : Arc w → BitVec w → BitVec w → BitVec w → String
  fromSrange : BitVec w → BitVec w → BitVec w → Arc w → String
  urange : Arc w → BitVec w → BitVec w → BitVec w → Arc w → String
  srange : Arc w → BitVec w → BitVec w → BitVec w → Arc w → String

def messages32 : Messages 32 where
  contains a v := "32 contains miss: a=" ++ arcText a ++ " v=" ++ unsignedText v
  add a b v r := "32 add unsound: a=" ++ arcText a ++ " b=" ++ arcText b ++ " x+y=" ++
    unsignedText v ++ " r=" ++ arcText r
  negate a v n := "32 negate unsound: a=" ++ arcText a ++ " -x=" ++ unsignedText v ++ " n=" ++
    arcText n
  intersect a b v x := "32 intersect unsound: a=" ++ arcText a ++ " b=" ++ arcText b ++ " v=" ++
    unsignedText v ++ " x=" ++ arcText x
  subsetUnsound a b := "32 is_subset unsound (claimed b⊆a, false): a=" ++ arcText a ++ " b=" ++
    arcText b
  subsetImprecise a b := "32 is_subset imprecise (missed b⊆a): a=" ++ arcText a ++ " b=" ++
    arcText b
  umin a v lo hi := "32 umin/umax unsound: a=" ++ arcText a ++ " v=" ++ unsignedText v ++ " " ++
    rangeText unsignedText lo hi
  smin a v lo hi := "32 smin/smax unsound: a=" ++ arcText a ++ " v=" ++ signedText v ++ " " ++
    rangeText signedText lo hi
  fromSrange lo hi s c := "32 from_srange unsound: " ++ rangeText signedText lo hi ++ " s=" ++
    signedText s ++ " c=" ++ arcText c
  urange a lo hi v dst := "32 intersect_with_urange dropped: a=" ++ arcText a ++ " " ++
    rangeText unsignedText lo hi ++ " v=" ++ unsignedText v ++ " dst=" ++ arcText dst
  srange a lo hi v dst := "32 intersect_with_srange dropped: a=" ++ arcText a ++ " " ++
    rangeText signedText lo hi ++ " v=" ++ signedText v ++ " dst=" ++ arcText dst

def messages64 : Messages 64 where
  contains a _ := "64 contains miss: a=" ++ arcText a
  add a b _ r := "64 add unsound: a=" ++ arcText a ++ " b=" ++ arcText b ++ " r=" ++ arcText r
  negate a _ n := "64 negate unsound: a=" ++ arcText a ++ " n=" ++ arcText n
  intersect a b _ x := "64 intersect unsound: a=" ++ arcText a ++ " b=" ++ arcText b ++ " x=" ++
    arcText x
  subsetUnsound a b := "64 is_subset unsound: a=" ++ arcText a ++ " b=" ++ arcText b
  subsetImprecise a b := "64 is_subset imprecise: a=" ++ arcText a ++ " b=" ++ arcText b
  umin a _ _ _ := "64 umin/umax unsound: a=" ++ arcText a
  smin a _ _ _ := "64 smin/smax unsound: a=" ++ arcText a
  fromSrange lo hi s _ := "64 from_srange unsound: " ++ rangeText signedText lo hi ++ " s=" ++
    signedText s
  urange a _ _ v _ := "64 intersect_with_urange dropped: a=" ++ arcText a ++ " v=" ++
    unsignedText v
  srange a _ _ v _ := "64 intersect_with_srange dropped: a=" ++ arcText a ++ " v=" ++ signedText v

/-! ## The checks -/

/-- A loop over the values of an arc, up to the first that is wrong. -/
def sweep (c : Arc w) (good : BitVec w → Bool) (msg : BitVec w → String) : Option String :=
  c.list.findSome? fun v => if good v then none else some (msg v)

def checkSubset (o : Ops w) (m : Messages w) (a b : Arc w) : Option String :=
  let claim := o.isSubset a b
  let truth := b.list.all (o.contains a)
  if claim && !truth then some (m.subsetUnsound a b)
  else if !claim && truth then some (m.subsetImprecise a b)
  else none

def checkProjections (o : Ops w) (m : Messages w) (a : Arc w) : Option String :=
  a.list.findSome? fun v =>
    if v < o.umin a ∨ o.umax a < v then some (m.umin a v (o.umin a) (o.umax a))
    else if v.toInt < (o.smin a).toInt ∨ (o.smax a).toInt < v.toInt then
      some (m.smin a v (o.smin a) (o.smax a))
    else none

/-- The checks on the two arcs. -/
def checkArcs (o : Ops w) (m : Messages w) (a b : Arc w) : Option String :=
  let r := o.add a b
  let n := o.negate a
  let x := o.intersect a b
  sweep a (o.contains a) (m.contains a)
  |>.or (a.list.findSome? fun v => sweep b (fun u => o.contains r (v + u))
    (fun u => m.add a b (v + u) r))
  |>.or (sweep a (fun v => o.contains n (-v)) (fun v => m.negate a (-v) n))
  |>.or (sweep a (fun v => !(o.contains b v && !o.contains x v)) (fun v => m.intersect a b v x))
  |>.or (checkSubset o m a b)
  |>.or (checkProjections o m a)

/-- The loop from `lo` ends when it meets `hi`, after the end of the range if it must. -/
def checkFromSrange (o : Ops w) (m : Messages w) (lo hi : BitVec w) : Option String :=
  let c := o.fromSrange lo hi
  sweep ⟨lo, hi - lo⟩ (o.contains c) (fun s => m.fromSrange lo hi s c)

def checkUrange (o : Ops w) (m : Messages w) (a : Arc w) (lo hi : BitVec w) : Option String :=
  let dst := o.intersectWithUrange a lo hi
  sweep a (fun v => !(decide (lo ≤ v) && decide (v ≤ hi) && !o.contains dst v))
    (fun v => m.urange a lo hi v dst)

def checkSrange (o : Ops w) (m : Messages w) (a : Arc w) (lo hi : BitVec w) : Option String :=
  let dst := o.intersectWithSrange a lo hi
  sweep a (fun v => !(lo.sle v && v.sle hi && !o.contains dst v)) (fun v => m.srange a lo hi v dst)

/-- The next draws are made when the checks before them find nothing. -/
def unlessFailed (failed : Option String) (next : Draw (Option String)) : Draw (Option String) :=
  match failed with
  | some msg => return some msg
  | none => next

/-- `check32` and `check64`. -/
def check (o : Ops w) (m : Messages w) (g : Generator w) : Draw (Option String) := do
  let a ← g.gen
  let b ← g.gen
  unlessFailed (checkArcs o m a b) do
    let (lo, hi) ← g.bounds maxSize
    unlessFailed (checkFromSrange o m lo hi) do
      let (lo, hi) ← g.bounds (4 * maxSize)
      unlessFailed (checkUrange o m a lo hi) do
        let (lo, hi) ← g.bounds (4 * maxSize)
        return checkSrange o m a lo hi

def checkMixed (k : Kernel) (g32 : Generator 32) (g64 : Generator 64) : Draw (Option String) := do
  let c ← g64.gen
  let nc := k.cnum32FromCnum64 c
  unlessFailed (sweep c (fun v => k.cnum32.contains nc (v.setWidth 32)) fun v =>
      "from_cnum64 unsound: c=" ++ arcText c ++ " lo32=" ++ unsignedText (v.setWidth 32) ++
        " nc=" ++ arcText nc) do
    let b ← g32.gen
    let r := k.cnum64Cnum32Intersect c b
    return sweep c (fun v => !(k.cnum32.contains b (v.setWidth 32) && !k.cnum64.contains r v))
      fun v => "cnum32_intersect unsound: c=" ++ arcText c ++ " b=" ++ arcText b ++ " v=" ++
        unsignedText v ++ " r=" ++ arcText r

/-- The orders that the compiler has chosen. -/
structure Order where
  pick32 : Bool
  gen32 : Bool
  pick64 : Bool
  gen64 : Bool

def Order.generator32 (order : Order) : Generator 32 := ⟨bnd32, order.pick32, order.gen32⟩

def Order.generator64 (order : Order) : Generator 64 := ⟨bnd64, order.pick64, order.gen64⟩

def check32 (k : Kernel) (order : Order) : Draw (Option String) :=
  check k.cnum32 messages32 order.generator32

def check64 (k : Kernel) (order : Order) : Draw (Option String) :=
  check k.cnum64 messages64 order.generator64

def fuzzCase (k : Kernel) (order : Order) : Draw (Option String) := do
  let failed ← check32 k order
  unlessFailed failed do
    let failed ← check64 k order
    unlessFailed failed (checkMixed k order.generator32 order.generator64)

/-! ## What the checks find -/

/-- The arcs and the bounds that a call of `check` draws. -/
structure Case (w : ℕ) where
  a : Arc w
  b : Arc w
  fromSrange : BitVec w × BitVec w
  urange : BitVec w × BitVec w
  srange : BitVec w × BitVec w

def Generator.case (g : Generator w) : Draw (Case w) := do
  let a ← g.gen
  let b ← g.gen
  let fromSrange ← g.bounds maxSize
  let urange ← g.bounds (4 * maxSize)
  let srange ← g.bounds (4 * maxSize)
  return ⟨a, b, fromSrange, urange, srange⟩

/-- The operations are right on all values of the two arcs. -/
structure SoundArcs (o : Ops w) (a b : Arc w) : Prop where
  contains : ∀ v ∈ a.values, o.contains a v
  add : ∀ x ∈ a.values, ∀ y ∈ b.values, o.contains (o.add a b) (x + y)
  negate : ∀ x ∈ a.values, o.contains (o.negate a) (-x)
  intersect : ∀ v ∈ a.values, o.contains b v → o.contains (o.intersect a b) v
  subset : o.isSubset a b = true ↔ ∀ v ∈ b.values, o.contains a v
  unsigned : ∀ v ∈ a.values, o.umin a ≤ v ∧ v ≤ o.umax a
  signed : ∀ v ∈ a.values, (o.smin a).toInt ≤ v.toInt ∧ v.toInt ≤ (o.smax a).toInt

/-- The operations are right on all values of a case. -/
structure Sound (o : Ops w) (c : Case w) : Prop where
  arcs : SoundArcs o c.a c.b
  fromSrange : ∀ v ∈ (⟨c.fromSrange.1, c.fromSrange.2 - c.fromSrange.1⟩ : Arc w).values,
    o.contains (o.fromSrange c.fromSrange.1 c.fromSrange.2) v
  urange : ∀ v ∈ c.a.values, c.urange.1 ≤ v → v ≤ c.urange.2 →
    o.contains (o.intersectWithUrange c.a c.urange.1 c.urange.2) v
  srange : ∀ v ∈ c.a.values, c.srange.1.toInt ≤ v.toInt → v.toInt ≤ c.srange.2.toInt →
    o.contains (o.intersectWithSrange c.a c.srange.1 c.srange.2) v

/-- The operations between the widths are right on all values of the wider arc. -/
structure SoundMixed (k : Kernel) (c : Cnum64) (b : Cnum32) : Prop where
  narrow : ∀ v ∈ c.values, k.cnum32.contains (k.cnum32FromCnum64 c) (v.setWidth 32)
  refine : ∀ v ∈ c.values, k.cnum32.contains b (v.setWidth 32) →
    k.cnum64.contains (k.cnum64Cnum32Intersect c b) v

variable {o : Ops w} {m : Messages w} {a b c : Arc w} {k : Kernel}

lemma sweep_eq_none {good : BitVec w → Bool} {msg : BitVec w → String} :
    sweep c good msg = none ↔ ∀ v ∈ c.values, good v = true := by
  simp only [sweep, List.findSome?_eq_none_iff, Arc.mem_list, ite_eq_left_iff, reduceCtorEq,
    imp_false, Bool.not_eq_true, Bool.not_eq_false]

lemma checkSubset_eq_none : checkSubset o m a b = none ↔
    (o.isSubset a b = true ↔ ∀ v ∈ b.values, o.contains a v) := by
  have htruth : b.list.all (o.contains a) = true ↔ ∀ v ∈ b.values, o.contains a v := by
    simp only [List.all_eq_true, Arc.mem_list]
  rw [← htruth, checkSubset]
  cases o.isSubset a b <;> cases b.list.all (o.contains a) <;> simp

lemma checkProjections_eq_none : checkProjections o m a = none ↔
    (∀ v ∈ a.values, o.umin a ≤ v ∧ v ≤ o.umax a) ∧
      ∀ v ∈ a.values, (o.smin a).toInt ≤ v.toInt ∧ v.toInt ≤ (o.smax a).toInt := by
  simp only [checkProjections, List.findSome?_eq_none_iff, Arc.mem_list]
  rw [← forall₂_and]
  refine forall₂_congr fun v _ => ?_
  split_ifs with hu hs
  · refine iff_of_false not_false fun h => ?_
    rcases hu with hu | hu
    · exact BitVec.not_le.mpr hu h.1.1
    · exact BitVec.not_le.mpr hu h.1.2
  · exact iff_of_false not_false fun h => by omega
  · rw [not_or, BitVec.not_lt, BitVec.not_lt] at hu
    exact iff_of_true rfl ⟨hu, by omega⟩

lemma checkArcs_eq_none : checkArcs o m a b = none ↔ SoundArcs o a b := by
  simp only [checkArcs, Option.or_eq_none_iff, sweep_eq_none, List.findSome?_eq_none_iff,
    Arc.mem_list, checkSubset_eq_none, checkProjections_eq_none, Bool.not_eq_true',
    Bool.and_eq_false_iff, Bool.not_eq_false']
  constructor
  · rintro ⟨⟨⟨⟨⟨hcontains, hadd⟩, hnegate⟩, hintersect⟩, hsubset⟩, hunsigned, hsigned⟩
    refine ⟨hcontains, hadd, hnegate, fun v hv hb => ?_, hsubset, hunsigned, hsigned⟩
    exact (hintersect v hv).resolve_left (by simp [hb])
  · rintro ⟨hcontains, hadd, hnegate, hintersect, hsubset, hunsigned, hsigned⟩
    refine ⟨⟨⟨⟨⟨hcontains, hadd⟩, hnegate⟩, fun v hv => ?_⟩, hsubset⟩, hunsigned, hsigned⟩
    exact (Bool.eq_false_or_eq_true (o.contains b v)).symm.imp_right (hintersect v hv)

lemma checkFromSrange_eq_none {lo hi : BitVec w} : checkFromSrange o m lo hi = none ↔
    ∀ v ∈ (⟨lo, hi - lo⟩ : Arc w).values, o.contains (o.fromSrange lo hi) v :=
  sweep_eq_none

/-- A value may be missing unless a condition on it holds. -/
lemma not_and_not_iff {p q : Bool} : (!(p && !q)) = true ↔ (p = true → q = true) := by
  cases p <;> cases q <;> simp

lemma checkUrange_eq_none {lo hi : BitVec w} : checkUrange o m a lo hi = none ↔
    ∀ v ∈ a.values, lo ≤ v → v ≤ hi → o.contains (o.intersectWithUrange a lo hi) v := by
  simp only [checkUrange, sweep_eq_none, not_and_not_iff, Bool.and_eq_true, decide_eq_true_eq,
    and_imp]

lemma checkSrange_eq_none {lo hi : BitVec w} : checkSrange o m a lo hi = none ↔
    ∀ v ∈ a.values, lo.toInt ≤ v.toInt → v.toInt ≤ hi.toInt →
      o.contains (o.intersectWithSrange a lo hi) v := by
  simp only [checkSrange, sweep_eq_none, not_and_not_iff, Bool.and_eq_true, BitVec.sle_iff_toInt_le,
    and_imp]

/-! ## Draws -/

/-- The draw has a result on every input. -/
def Total {α : Type} (d : Draw α) : Prop := ∀ input, ∃ x rest, d input = some (x, rest)

section
variable {α β : Type} {d : Draw α} {f : α → Draw β}

lemma run_bind {input rest : FuzzInput} {x : α} (h : d input = some (x, rest)) :
    (d >>= f) input = f x rest := by
  show (d input).bind (fun drawn => f drawn.1 drawn.2) = f x rest
  rw [h, Option.bind_some]

lemma total_pure (x : α) : Total (pure x : Draw α) := fun input => ⟨x, input, rfl⟩

lemma total_bind (hd : Total d) (hf : ∀ x, Total (f x)) : Total (d >>= f) := by
  intro input
  obtain ⟨x, mid, hx⟩ := hd input
  obtain ⟨y, rest, hy⟩ := hf x mid
  exact ⟨y, rest, (run_bind hx).trans hy⟩

lemma total_both (leftFirst : Bool) {x : Draw α} {y : Draw β} (hx : Total x) (hy : Total y) :
    Total (both leftFirst x y) := by
  cases leftFirst
  · exact total_bind hy fun b => total_bind hx fun a => total_pure (a, b)
  · exact total_bind hx fun a => total_bind hy fun b => total_pure (a, b)

end

lemma total_u64 : Total u64 := fun _ => ⟨_, _, rfl⟩

lemma total_range {hi : UInt64} (hhi : hi + 1 ≠ 0) : Total (range hi) := by
  intro input
  by_cases hzero : hi = 0
  · exact ⟨0, input, if_pos (UInt64.le_zero_iff.mpr hzero)⟩
  · exact ⟨_, _, fuzzRange_zero input hzero hhi⟩

/-- The list of the boundary values has an index that can be drawn. -/
def Generator.Bounded (g : Generator w) : Prop := UInt64.ofNat (g.bnd.length - 1) + 1 ≠ 0

section
variable {g : Generator w}

lemma total_pick (hg : g.Bounded) : Total g.pick := by
  refine total_bind total_u64 fun x => ?_
  split_ifs
  · refine total_bind (total_both _ (total_range hg) (total_range (by decide))) fun drawn => ?_
    exact total_pure _
  · exact total_bind total_u64 fun x => total_pure _

lemma total_gen (hg : g.Bounded) : Total g.gen :=
  total_bind (total_both _ (total_pick hg) (total_range (by decide))) fun _ => total_pure _

lemma total_bounds (hg : g.Bounded) {n : UInt64} (hn : n + 1 ≠ 0) : Total (g.bounds n) :=
  total_bind (total_pick hg) fun _ => total_bind (total_range hn) fun _ => total_pure _

end

/-! ## What a call decides -/

/-- The call returns 0, with `rest` left of the input, if `P` holds, and a message if not. -/
def Decides (call : Draw (Option String)) (input : FuzzInput) (P : Prop) (rest : FuzzInput) :
    Prop :=
  (P → call input = some (none, rest)) ∧ (¬ P → ∃ msg last, call input = some (some msg, last))

section
variable {call next : Draw (Option String)} {input mid rest : FuzzInput} {P Q : Prop}
  {failed : Option String}

lemma decides_pure (h : failed = none ↔ P) :
    Decides (pure failed : Draw (Option String)) input P input := by
  refine ⟨fun hP => by rw [h.mpr hP]; rfl, fun hP => ?_⟩
  obtain ⟨msg, rfl⟩ := Option.ne_none_iff_exists'.mp (h.not.mpr hP)
  exact ⟨msg, input, rfl⟩

lemma decides_draw {α : Type} {d : Draw α} {f : α → Draw (Option String)} {x : α}
    (hd : d input = some (x, mid)) (hf : Decides (f x) mid P rest) :
    Decides (d >>= f) input P rest := by
  rw [Decides, run_bind hd]
  exact hf

lemma decides_unlessFailed (h : failed = none ↔ P) (hnext : Decides next input Q rest) :
    Decides (unlessFailed failed next) input (P ∧ Q) rest := by
  cases failed with
  | none => simpa only [unlessFailed, Decides, h.mp rfl, true_and] using hnext
  | some msg =>
    have hP : ¬ P := fun hP => Option.some_ne_none msg (h.mpr hP)
    exact ⟨fun hand => absurd hand.1 hP, fun _ => ⟨msg, input, rfl⟩⟩

lemma decides_bind (hcall : Decides call input P mid) (hnext : Decides next mid Q rest) :
    Decides (call >>= fun failed => unlessFailed failed next) input (P ∧ Q) rest := by
  by_cases hP : P
  · exact decides_draw (hcall.1 hP) (decides_unlessFailed (iff_of_true rfl hP) hnext)
  · obtain ⟨msg, last, hmsg⟩ := hcall.2 hP
    refine ⟨fun hand => absurd hand.1 hP, fun _ => ⟨msg, last, ?_⟩⟩
    rw [run_bind hmsg]
    rfl

end

/-- The draws of a call do not depend on what the operations return, and the call decides whether
these are right on what it has drawn. -/
lemma check_decides {g : Generator w} (hg : g.Bounded) (o : Ops w) (m : Messages w)
    (input : FuzzInput) : ∃ drawn rest, g.case input = some (drawn, rest) ∧
      Decides (check o m g) input (Sound o drawn) rest := by
  obtain ⟨a, r₁, ha⟩ := total_gen hg input
  obtain ⟨b, r₂, hb⟩ := total_gen hg r₁
  obtain ⟨s, r₃, hs⟩ := total_bounds hg (n := maxSize) (by decide) r₂
  obtain ⟨u, r₄, hu⟩ := total_bounds hg (n := 4 * maxSize) (by decide) r₃
  obtain ⟨t, r₅, ht⟩ := total_bounds hg (n := 4 * maxSize) (by decide) r₄
  refine ⟨⟨a, b, s, u, t⟩, r₅, ?_, ?_⟩
  · rw [Generator.case, run_bind ha, run_bind hb, run_bind hs, run_bind hu, run_bind ht]
    rfl
  · have hsound : Sound o ⟨a, b, s, u, t⟩ ↔ SoundArcs o a b ∧
        (∀ v ∈ (⟨s.1, s.2 - s.1⟩ : Arc w).values, o.contains (o.fromSrange s.1 s.2) v) ∧
        (∀ v ∈ a.values, u.1 ≤ v → v ≤ u.2 → o.contains (o.intersectWithUrange a u.1 u.2) v) ∧
        ∀ v ∈ a.values, t.1.toInt ≤ v.toInt → v.toInt ≤ t.2.toInt →
          o.contains (o.intersectWithSrange a t.1 t.2) v :=
      ⟨fun h => ⟨h.arcs, h.fromSrange, h.urange, h.srange⟩,
        fun h => ⟨h.1, h.2.1, h.2.2.1, h.2.2.2⟩⟩
    rw [hsound, check]
    refine decides_draw ha (decides_draw hb (decides_unlessFailed checkArcs_eq_none ?_))
    refine decides_draw hs (decides_unlessFailed checkFromSrange_eq_none ?_)
    refine decides_draw hu (decides_unlessFailed checkUrange_eq_none ?_)
    exact decides_draw ht (decides_pure checkSrange_eq_none)

lemma total_case {g : Generator w} (hg : g.Bounded) : Total g.case := by
  refine total_bind (total_gen hg) fun _ => total_bind (total_gen hg) fun _ => ?_
  refine total_bind (total_bounds hg (by decide)) fun _ => ?_
  refine total_bind (total_bounds hg (by decide)) fun _ => ?_
  exact total_bind (total_bounds hg (by decide)) fun _ => total_pure _

lemma checkMixed_decides {g32 : Generator 32} {g64 : Generator 64} (h32 : g32.Bounded)
    (h64 : g64.Bounded) (k : Kernel) (input : FuzzInput) : ∃ c mid b rest,
      g64.gen input = some (c, mid) ∧ g32.gen mid = some (b, rest) ∧
      Decides (checkMixed k g32 g64) input (SoundMixed k c b) rest := by
  obtain ⟨c, mid, hc⟩ := total_gen h64 input
  obtain ⟨b, rest, hb⟩ := total_gen h32 mid
  refine ⟨c, mid, b, rest, hc, hb, ?_⟩
  have hsound : SoundMixed k c b ↔
      (∀ v ∈ c.values, k.cnum32.contains (k.cnum32FromCnum64 c) (v.setWidth 32)) ∧
      ∀ v ∈ c.values, k.cnum32.contains b (v.setWidth 32) →
        k.cnum64.contains (k.cnum64Cnum32Intersect c b) v :=
    ⟨fun h => ⟨h.narrow, h.refine⟩, fun h => ⟨h.1, h.2⟩⟩
  rw [hsound, checkMixed]
  refine decides_draw hc (decides_unlessFailed sweep_eq_none ?_)
  refine decides_draw hb (decides_pure ?_)
  rw [sweep_eq_none]
  simp only [not_and_not_iff]

/-! ## The fuzzer -/

/-- What an iteration draws. -/
def drawCase (order : Order) : Draw (Case 32 × Case 64 × Cnum64 × Cnum32) := do
  let narrow ← order.generator32.case
  let wide ← order.generator64.case
  let c ← order.generator64.gen
  let b ← order.generator32.gen
  return (narrow, wide, c, b)

/-- The operations of the kernel are right on all that is drawn from an input. -/
def SoundOn (k : Kernel) (order : Order) (input : FuzzInput) : Prop :=
  ∃ narrow wide c b rest, drawCase order input = some ((narrow, wide, c, b), rest) ∧
    Sound k.cnum32 narrow ∧ Sound k.cnum64 wide ∧ SoundMixed k c b

/-- How a call returns; `warns` is what the kernel code adds to the counter. -/
def caseResult (warns : UInt64) : Option (Option String × FuzzInput) → CaseResult
  | some (some msg, _) => ⟨1, (TnumSoundness.snprintf 256 msg).toList, warns⟩
  | _ => ⟨0, [], warns⟩

def cnumHarness (k : Kernel) (order : Order) (warns : FuzzInput → UInt64) : Harness where
  fuzzName := "cnum_soundness".toList
  fuzzCase input := caseResult (warns input) (fuzzCase k order input)

lemma bounded32 (order : Order) : order.generator32.Bounded := by
  show UInt64.ofNat (bnd32.length - 1) + 1 ≠ 0
  decide

lemma bounded64 (order : Order) : order.generator64.Bounded := by
  show UInt64.ofNat (bnd64.length - 1) + 1 ≠ 0
  decide

lemma total_drawCase (order : Order) : Total (drawCase order) := by
  refine total_bind (total_case (bounded32 order)) fun _ => ?_
  refine total_bind (total_case (bounded64 order)) fun _ => ?_
  refine total_bind (total_gen (bounded64 order)) fun _ => ?_
  exact total_bind (total_gen (bounded32 order)) fun _ => total_pure _

lemma fuzzCase_decides (k : Kernel) (order : Order) (input : FuzzInput) :
    ∃ rest, Decides (fuzzCase k order) input (SoundOn k order input) rest := by
  obtain ⟨narrow, r₁, hnarrow, h32⟩ :=
    check_decides (bounded32 order) k.cnum32 messages32 input
  obtain ⟨wide, r₂, hwide, h64⟩ := check_decides (bounded64 order) k.cnum64 messages64 r₁
  obtain ⟨c, r₃, b, r₄, hc, hb, hmixed⟩ :=
    checkMixed_decides (bounded32 order) (bounded64 order) k r₂
  have hdraw : drawCase order input = some ((narrow, wide, c, b), r₄) := by
    rw [drawCase, run_bind hnarrow, run_bind hwide, run_bind hc, run_bind hb]
    rfl
  have hsound : SoundOn k order input ↔
      Sound k.cnum32 narrow ∧ Sound k.cnum64 wide ∧ SoundMixed k c b := by
    rw [SoundOn, hdraw]
    constructor
    · rintro ⟨narrow', wide', c', b', rest, heq, hall⟩
      cases heq
      exact hall
    · exact fun hall => ⟨narrow, wide, c, b, r₄, rfl, hall⟩
  rw [hsound]
  exact ⟨r₄, decides_bind h32 (decides_bind h64 hmixed)⟩

lemma fails_cnumHarness {order : Order} {warns : FuzzInput → UInt64} {base : UInt64} {it : ℕ} :
    ¬ Fails (cnumHarness k order warns) base it ↔
      SoundOn k order (caseInput base it) ∧ warns (caseInput base it) = 0 := by
  obtain ⟨rest, hpass, hfail⟩ := fuzzCase_decides k order (caseInput base it)
  have hresult : (cnumHarness k order warns).fuzzCase (caseInput base it) =
      caseResult (warns (caseInput base it)) (fuzzCase k order (caseInput base it)) := rfl
  rw [Fails, hresult, not_or, not_not, not_not]
  by_cases hsound : SoundOn k order (caseInput base it)
  · rw [hpass hsound]
    simp [caseResult, hsound]
  · obtain ⟨msg, last, hmsg⟩ := hfail hsound
    rw [hmsg]
    simp [caseResult, hsound]

/-- A run of the fuzzer exits with 0 iff on all that it draws the operations of the kernel are
right at both widths and between them, and nothing warns. Whichever order the compiler gives to the
draws, what is drawn does not depend on the operations. -/
theorem cnumMain_decides (k : Kernel) (order : Order) (warns : FuzzInput → UInt64)
    {args : List Text} {o : Options} (hargs : parseArgs args .default = some o) :
    ∃ out, main (cnumHarness k order warns) args = some out ∧
      (out.status = 0 ∨ out.status = 1) ∧
      (out.status = 0 ↔ ∀ it < o.iters.toNat,
        SoundOn k order (caseInput o.base it) ∧ warns (caseInput o.base it) = 0) := by
  obtain ⟨hstatus, hzero⟩ := outcome_status (cnumHarness k order warns) o.base o.iters
  refine ⟨_, main_eq hargs, hstatus, ?_⟩
  rw [hzero]
  simp only [fails_cnumHarness]

/-- Operations that keep no bound, but test membership and inclusion exactly. -/
def coarseOps (w : ℕ) : Ops w where
  contains c v := decide (v - c.base ≤ c.size)
  add _ _ := ⟨0, BitVec.allOnes w⟩
  negate _ := ⟨0, BitVec.allOnes w⟩
  intersect a _ := a
  isSubset a b := decide (a.size = BitVec.allOnes w ∨
    (b.base - a.base).toNat + b.size.toNat ≤ a.size.toNat)
  umin _ := 0
  umax _ := BitVec.allOnes w
  smin _ := BitVec.intMin w
  smax _ := BitVec.intMax w
  fromSrange lo hi := ⟨lo, hi - lo⟩
  intersectWithUrange a _ _ := a
  intersectWithSrange a _ _ := a

def coarseKernel : Kernel where
  cnum32 := coarseOps 32
  cnum64 := coarseOps 64
  cnum32FromCnum64 _ := ⟨0, BitVec.allOnes 32⟩
  cnum64Cnum32Intersect c _ := c

lemma contains_coarseOps {v : BitVec w} :
    (coarseOps w).contains c v = true ↔ v ∈ c.values := decide_eq_true_iff

lemma full_coarseOps {v : BitVec w} :
    (coarseOps w).contains ⟨0, BitVec.allOnes w⟩ v = true := by
  rw [contains_coarseOps, Arc.values_of_full rfl]
  exact Set.mem_univ v

lemma sound_coarseOps (c : Case w) : Sound (coarseOps w) c where
  arcs := {
    contains := fun v hv => contains_coarseOps.mpr hv
    add := fun x _ y _ => full_coarseOps
    negate := fun x _ => full_coarseOps
    intersect := fun v hv _ => contains_coarseOps.mpr hv
    subset := by
      simp only [contains_coarseOps]
      exact decide_eq_true_iff.trans Arc.values_subset_iff.symm
    unsigned := fun v _ => by
      refine ⟨BitVec.le_def.mpr (Nat.zero_le _), BitVec.le_def.mpr ?_⟩
      show v.toNat ≤ (BitVec.allOnes w).toNat
      rw [BitVec.toNat_allOnes]
      exact Nat.le_sub_one_of_lt v.isLt
    signed := fun v _ => by
      refine ⟨BitVec.toInt_intMin_le v, ?_⟩
      show v.toInt ≤ (BitVec.intMax w).toInt
      rw [BitVec.toInt_intMax]
      exact Int.le_sub_one_of_lt BitVec.toInt_lt }
  fromSrange := fun v hv => contains_coarseOps.mpr hv
  urange := fun v hv _ _ => contains_coarseOps.mpr hv
  srange := fun v hv _ _ => contains_coarseOps.mpr hv

theorem cnumMain_decides_coarse : ∃ out, main (cnumHarness coarseKernel ⟨true, true, true, true⟩
    fun _ => 0) ["--iters".toList, "4".toList] = some out ∧ out.status = 0 := by
  have hargs : parseArgs ["--iters".toList, "4".toList] .default = some ⟨4, 0x1234567⟩ := by decide
  obtain ⟨out, hrun, -, hstatus⟩ := cnumMain_decides coarseKernel ⟨true, true, true, true⟩
    (fun _ => 0) hargs
  refine ⟨out, hrun, hstatus.mpr fun it _ => ⟨?_, rfl⟩⟩
  obtain ⟨⟨narrow, wide, c, b⟩, rest, hdraw⟩ :=
    total_drawCase ⟨true, true, true, true⟩ (caseInput 0x1234567 it)
  exact ⟨narrow, wide, c, b, rest, hdraw, sound_coarseOps narrow, sound_coarseOps wide,
    fun _ _ => full_coarseOps, fun _ hv _ => contains_coarseOps.mpr hv⟩

end BpfVerify.CnumSoundness
