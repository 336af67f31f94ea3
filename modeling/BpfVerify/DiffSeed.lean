import Mathlib

/-!
# Differential input generator

`tools/diff_seed.h` derives the four inputs of an iteration from a base seed, and
`tools/diff_compare.py` keeps a hand-written copy in unbounded integers to print the
inputs of a divergence. Both are embedded here, with the two loops that consume the C
generator and the loop that prints with the Python one.
-/
namespace BpfVerify.DiffSeed

/-- `DIFF_NINPUTS` of the header and `NINPUTS` of the script. -/
def nInputs : ℕ := 4

/-- Signed `long` arithmetic: a value outside the range is undefined behaviour. -/
def long (x : ℤ) : Option ℤ := if -2 ^ 63 ≤ x ∧ x < 2 ^ 63 then some x else none

lemma long_of_range {x : ℤ} (hl : -2 ^ 63 ≤ x) (hu : x < 2 ^ 63) : long x = some x :=
  if_pos ⟨hl, hu⟩

/-! ## The C generator -/

def diffCorners : List UInt64 :=
  [0, 1, 2, 3, ~~~0, ~~~0 - 1,
    0x8000000000000000, 0x7fffffffffffffff,
    0xffffffff, 0x100000000, 0x80000000, 0x7fffffff,
    0xff, 0x100, 0xffff, 0x10000]

def diffNCorners : ℕ := diffCorners.length

def diffMix (z : UInt64) : UInt64 :=
  let z := (z ^^^ (z >>> 30)) * 0xbf58476d1ce4e5b9
  let z := (z ^^^ (z >>> 27)) * 0x94d049bb133111eb
  z ^^^ (z >>> 31)

/-- `iter * DIFF_NINPUTS + k + 1`, computed in `long`. -/
def diffIndex (iter : ℤ) (k : ℕ) : Option ℤ := do
  let scaled ← long (iter * nInputs)
  let shifted ← long (scaled + k)
  long (shifted + 1)

/-- `diff_mix(base + 0x9e3779b97f4a7c15ULL * (uint64_t)index)`. -/
def diffDraw (base : UInt64) (iter : ℤ) (k : ℕ) : Option UInt64 :=
  (diffIndex iter k).map fun index =>
    diffMix (base + 0x9e3779b97f4a7c15 * UInt64.ofInt index)

/-- `iter % DIFF_NCORNERS` is unsigned: the `long` is converted to `size_t` first. -/
def toSize (iter : ℤ) : ℕ := (iter % 2 ^ 64).toNat

def corner (i : ℕ) : UInt64 := diffCorners.getD (i % diffNCorners) 0

/-- The four values written to `out`, or `none` where a signed product overflows. -/
def diffGenInputs (base : UInt64) (iter : ℤ) : Option (List UInt64) := do
  if iter < (diffNCorners * diffNCorners : ℕ) then
    let rest ← [2, 3].mapM (diffDraw base iter)
    return corner (toSize iter) :: corner (toSize iter / diffNCorners) :: rest
  else
    [0, 1, 2, 3].mapM (diffDraw base iter)

/-! ## The Python copy -/

def corners : List ℕ :=
  [0, 1, 2, 3, (1 <<< 64) - 1, (1 <<< 64) - 2,
    0x8000000000000000, 0x7fffffffffffffff,
    0xffffffff, 0x100000000, 0x80000000, 0x7fffffff,
    0xff, 0x100, 0xffff, 0x10000]

def mask : ℕ := (1 <<< 64) - 1

def mix (z : ℕ) : ℕ :=
  let z := z &&& mask
  let z := ((z ^^^ (z >>> 30)) * 0xbf58476d1ce4e5b9) &&& mask
  let z := ((z ^^^ (z >>> 27)) * 0x94d049bb133111eb) &&& mask
  (z ^^^ (z >>> 31)) &&& mask

def draw (base it k : ℕ) : ℕ :=
  mix ((base + 0x9e3779b97f4a7c15 * (it * nInputs + k + 1)) &&& mask)

def genInputs (base it : ℕ) : List ℕ :=
  let out := List.replicate nInputs 0
  let nc := corners.length
  if it < nc * nc then
    let out := (out.set 0 (corners.getD (it % nc) 0)).set 1 (corners.getD (it / nc % nc) 0)
    (List.range' 2 (nInputs - 2)).foldl (fun out k => out.set k (draw base it k)) out
  else
    (List.range nInputs).foldl (fun out k => out.set k (draw base it k)) out

/-! ## The loops that consume the generators

A trace lists, for each iteration run, the inputs it ran on and the output it wrote. -/

abbrev Trace := List (List UInt64 × UInt64)

/-- The loop of `tools/diff_native.c`, with the 32-bit fold of each result. -/
def diffNative (diffCompute : List UInt64 → UInt64) (base : UInt64) : ℕ → ℕ → Option Trace
  | _, 0 => some []
  | it, n + 1 => do
      let inputs ← diffGenInputs base it
      let r := diffCompute inputs
      let folded := (r ^^^ (r >>> 32)).toUInt32.toUInt64
      let rest ← diffNative diffCompute base (it + 1) n
      return (inputs, folded) :: rest

def inputMapEntries : ℕ := 4

/-- The values `emit_object` stores in `input_map`, key by key. -/
def inputMap (seeds : List UInt64) : List UInt64 :=
  (List.range inputMapEntries).map fun k => if k < nInputs then seeds.getD k 0 else 0

/-- The loop of `emit_object` in `tools/bpf_runner.c`. `runProg` stands for the kernel: it
gives the 64-bit output of the loaded program on the map contents, or `none` when a libbpf
call fails, which ends the loop with status 2 after the outputs already written. -/
def emitObject (runProg : ℕ → List UInt64 → Option UInt64) (base : UInt64) :
    ℕ → ℕ → Option (Trace × ℕ)
  | _, 0 => some ([], 0)
  | it, n + 1 => do
      let seeds ← diffGenInputs base it
      match runProg it (inputMap seeds) with
      | none => return ([], 2)
      | some outv =>
        let (rest, rc) ← emitObject runProg base (it + 1) n
        return ((inputMap seeds, outv) :: rest, rc)

/-- One printed `DIVERGE` line of `tools/diff_compare.py`. -/
structure Divergence where
  iter : ℕ
  inputs : List ℕ
  native : ℕ
  bpf : ℕ
  deriving DecidableEq, Repr

def compareStep (base : ℕ) (maxReport : ℤ) (nat bpf : List ℕ) (acc : List Divergence × ℕ)
    (i : ℕ) : List Divergence × ℕ :=
  if nat.getD i 0 ≠ bpf.getD i 0 then
    (if (acc.2 : ℤ) < maxReport then
        acc.1 ++ [⟨i, genInputs base i, nat.getD i 0, bpf.getD i 0⟩]
      else acc.1, acc.2 + 1)
  else acc

/-- The comparison of `diff_compare.main` on the two loaded files: the lines it prints and
its exit status. -/
def diffCompare (base : ℕ) (maxReport : ℤ) (nat bpf : List ℕ) : List Divergence × ℕ :=
  let n := min nat.length bpf.length
  let out := (List.range n).foldl (compareStep base maxReport nat bpf) ([], 0)
  (out.1, if out.2 ≠ 0 then 1 else 0)

/-! ## Agreement of the two copies -/

lemma land_mask (n : ℕ) : n &&& mask = n % 2 ^ 64 := Nat.and_two_pow_sub_one_eq_mod n 64

lemma xor_shiftRight_lt {n : ℕ} (h : n < 2 ^ 64) (s : ℕ) : n ^^^ (n >>> s) < 2 ^ 64 :=
  Nat.xor_lt_two_pow h ((Nat.shiftRight_le n s).trans_lt h)

/-- The masked unbounded mixer is the wrapping one on every 64-bit value. -/
theorem mix_toNat (z : UInt64) : mix z.toNat = (diffMix z).toNat := by
  have hz : z.toNat % 2 ^ 64 = z.toNat := Nat.mod_eq_of_lt z.toNat_lt
  have hlast (w : UInt64) : (w.toNat ^^^ w.toNat >>> 31) % 2 ^ 64 =
      w.toNat ^^^ w.toNat >>> 31 :=
    Nat.mod_eq_of_lt (xor_shiftRight_lt w.toNat_lt 31)
  have hstep (w c : UInt64) (s : ℕ) (hs : s < 64) :
      (w.toNat ^^^ w.toNat >>> s) * c.toNat % 2 ^ 64 =
        ((w ^^^ (w >>> UInt64.ofNat s)) * c).toNat := by
    have hs' : s % 2 ^ 64 % 64 = s := by omega
    simp only [UInt64.toNat_mul, UInt64.toNat_xor, UInt64.toNat_shiftRight,
      UInt64.toNat_ofNat', hs']
  simp only [mix, land_mask, hz]
  have h1 := hstep z 0xbf58476d1ce4e5b9 30 (by decide)
  have h2 := hstep ((z ^^^ (z >>> 30)) * 0xbf58476d1ce4e5b9) 0x94d049bb133111eb 27 (by decide)
  simp only [UInt64.reduceToNat, UInt64.reduceOfNat] at h1 h2
  rw [h1, h2, hlast]
  simp [diffMix]

lemma toSize_natCast {it : ℕ} (h : it < 2 ^ 64) : toSize it = it := by
  have hm : ((it : ℤ) % 2 ^ 64) = it := Int.emod_eq_of_lt (by omega) (by omega)
  rw [toSize, hm, Int.toNat_natCast]

lemma ofInt_natCast {i : ℕ} (h : i < 2 ^ 64) : UInt64.ofInt i = UInt64.ofNat i := by
  change UInt64.ofNat (toSize i) = UInt64.ofNat i
  rw [toSize_natCast h]

lemma base_add_toNat (base c : UInt64) (i : ℕ) :
    (base.toNat + c.toNat * i) % 2 ^ 64 = (base + c * UInt64.ofNat i).toNat := by
  simp only [UInt64.toNat_add, UInt64.toNat_mul, UInt64.toNat_ofNat', Nat.mul_mod_mod,
    Nat.add_mod_mod]

/-- No signed sum of the index overflows when the last one does not. -/
lemma diffIndex_eq {it k : ℕ} (h : it * 4 + k + 1 < 2 ^ 63) :
    diffIndex it k = some ((it * nInputs + k + 1 : ℕ) : ℤ) := by
  have hn : ((nInputs : ℕ) : ℤ) = 4 := rfl
  have h1 : long ((it : ℤ) * 4) = some ((it : ℤ) * 4) :=
    long_of_range (by omega) (by omega)
  have h2 : long ((it : ℤ) * 4 + k) = some ((it : ℤ) * 4 + k) :=
    long_of_range (by omega) (by omega)
  have h3 : long ((it : ℤ) * 4 + k + 1) = some ((it : ℤ) * 4 + k + 1) :=
    long_of_range (by omega) (by omega)
  unfold diffIndex
  rw [hn, h1, Option.bind_eq_bind, Option.bind_some, h2, Option.bind_some, h3]
  push_cast
  rw [hn]

lemma diffDraw_eq (base : UInt64) (it k : ℕ) (h : it * 4 + k + 1 < 2 ^ 63) :
    diffDraw base it k =
      some (diffMix (base + 0x9e3779b97f4a7c15 * UInt64.ofNat (it * nInputs + k + 1))) := by
  have hi : it * nInputs + k + 1 < 2 ^ 64 := by simp only [nInputs]; omega
  rw [diffDraw, diffIndex_eq h, Option.map_some, ofInt_natCast hi]

/-- One masked draw equals one wrapping draw. -/
theorem draw_toNat (base : UInt64) (it k : ℕ) :
    draw base.toNat it k =
      (diffMix (base + 0x9e3779b97f4a7c15 * UInt64.ofNat (it * nInputs + k + 1))).toNat := by
  have hb := base_add_toNat base 0x9e3779b97f4a7c15 (it * nInputs + k + 1)
  rw [← mix_toNat, ← hb, draw, land_mask]
  rfl

lemma corners_eq : corners = diffCorners.map UInt64.toNat := by decide

lemma corners_length : corners.length = diffNCorners := by decide

lemma corner_toNat (i : ℕ) : (corner i).toNat = corners.getD (i % diffNCorners) 0 := by
  have hlen : i % diffNCorners < diffCorners.length := Nat.mod_lt _ (by decide)
  rw [corner, corners_eq, List.getD_eq_getElem?_getD, List.getD_eq_getElem?_getD,
    List.getElem?_map, List.getElem?_eq_getElem hlen]
  rfl

/-- Both copies return the same four values, in the corner sweep and beyond it. -/
theorem diffGenInputs_eq (base : UInt64) {it : ℕ} (h : it * 4 + 4 < 2 ^ 63) :
    (diffGenInputs base it).map (List.map UInt64.toNat) = some (genInputs base.toNat it) := by
  have e0 := diffDraw_eq base it 0 (by omega)
  have e1 := diffDraw_eq base it 1 (by omega)
  have e2 := diffDraw_eq base it 2 (by omega)
  have e3 := diffDraw_eq base it 3 (by omega)
  have hsize : toSize it = it := toSize_natCast (by omega)
  unfold diffGenInputs genInputs
  rw [corners_length]
  by_cases hc : it < diffNCorners * diffNCorners
  · have hc' : (it : ℤ) < (diffNCorners * diffNCorners : ℕ) := by exact_mod_cast hc
    rw [if_pos hc, if_pos hc']
    simp [hsize, e2, e3, corner_toNat, nInputs, draw_toNat, List.range'_succ,
      List.replicate_succ]
  · have hc' : ¬ (it : ℤ) < (diffNCorners * diffNCorners : ℕ) := by exact_mod_cast hc
    rw [if_neg hc, if_neg hc']
    simp [e0, e1, e2, e3, nInputs, draw_toNat, List.range_succ, List.replicate_succ]

/-! ## Replayed inputs -/

/-- A generator call that returned did not overflow its `long` index. -/
lemma range_of_diffGenInputs {base : UInt64} {it : ℕ} {xs : List UInt64}
    (h : diffGenInputs base it = some xs) : it * 4 + 4 < 2 ^ 63 := by
  by_contra hlarge
  have hc : ¬ (it : ℤ) < (diffNCorners * diffNCorners : ℕ) := by
    have : diffNCorners * diffNCorners = 256 := by decide
    omega
  have hlong : ∀ x : ℤ, 2 ^ 63 ≤ x → long x = none := fun x hx =>
    if_neg (fun hr => absurd hr.2 (not_lt.mpr hx))
  have hindex : diffIndex it 3 = none := by
    cases hi : diffIndex it 3 with
    | none => rfl
    | some v =>
      have hn : ((nInputs : ℕ) : ℤ) = 4 := rfl
      simp only [diffIndex, Option.bind_eq_bind, Option.bind_eq_some_iff, long,
        Option.ite_none_right_eq_some, Option.some.injEq, hn] at hi
      obtain ⟨a, ⟨-, rfl⟩, b, ⟨-, rfl⟩, hb, -⟩ := hi
      omega
  have hdraw : diffDraw base it 3 = none := by rw [diffDraw, hindex, Option.map_none]
  rw [diffGenInputs, if_neg hc] at h
  simp [hdraw] at h

lemma length_of_diffGenInputs {base : UInt64} {it : ℕ} {xs : List UInt64}
    (h : diffGenInputs base it = some xs) : xs.length = 4 := by
  have heq := diffGenInputs_eq base (range_of_diffGenInputs h)
  rw [h, Option.map_some, Option.some.injEq] at heq
  have hlen := congrArg List.length heq
  rw [List.length_map] at hlen
  rw [hlen]
  simp only [genInputs, nInputs]
  split <;> simp [List.range'_succ, List.range_succ, List.replicate_succ]

lemma inputMap_eq {seeds : List UInt64} (h : seeds.length = 4) : inputMap seeds = seeds := by
  match seeds, h with
  | [a, b, c, d], _ => rfl

/-- Every entry of a trace that starts at `it` ran on the generated inputs of its index. -/
def Generated (base : UInt64) (it : ℕ) (tr : Trace) : Prop :=
  ∀ j e, tr[j]? = some e → diffGenInputs base (it + j : ℕ) = some e.1

lemma Generated.cons {base : UInt64} {it : ℕ} {inputs : List UInt64} {out : UInt64} {tr : Trace}
    (h : diffGenInputs base it = some inputs) (ht : Generated base (it + 1) tr) :
    Generated base it ((inputs, out) :: tr) := by
  intro j e he
  cases j with
  | zero =>
    simp only [List.getElem?_cons_zero, Option.some.injEq] at he
    subst e
    simpa using h
  | succ j =>
    have := ht j e (by simpa using he)
    rwa [show it + 1 + j = it + (j + 1) by omega] at this

theorem diffNative_generated {compute : List UInt64 → UInt64} {base : UInt64} {it n : ℕ}
    {tr : Trace} (h : diffNative compute base it n = some tr) : Generated base it tr := by
  induction n generalizing it tr with
  | zero =>
    simp only [diffNative, Option.some.injEq] at h
    subst tr
    intro j e he
    simp at he
  | succ n ih =>
    simp only [diffNative, Option.bind_eq_bind, Option.bind_eq_some_iff, Option.pure_def,
      Option.some.injEq] at h
    obtain ⟨inputs, hi, rest, hr, rfl⟩ := h
    exact Generated.cons hi (ih hr)

theorem emitObject_generated {runProg : ℕ → List UInt64 → Option UInt64} {base : UInt64}
    {it n rc : ℕ} {tr : Trace} (h : emitObject runProg base it n = some (tr, rc)) :
    Generated base it tr := by
  induction n generalizing it tr rc with
  | zero =>
    simp only [emitObject, Option.some.injEq, Prod.mk.injEq] at h
    obtain ⟨rfl, -⟩ := h
    intro j e he
    simp at he
  | succ n ih =>
    simp only [emitObject, Option.bind_eq_bind, Option.bind_eq_some_iff] at h
    obtain ⟨seeds, hs, h⟩ := h
    cases hrun : runProg it (inputMap seeds) with
    | none =>
      simp only [hrun, Option.pure_def, Option.some.injEq, Prod.mk.injEq] at h
      obtain ⟨rfl, -⟩ := h
      intro j e he
      simp at he
    | some outv =>
      simp only [hrun, Option.bind_eq_some_iff, Option.pure_def, Option.some.injEq,
        Prod.mk.injEq] at h
      obtain ⟨⟨rest, rc'⟩, hr, rfl, -⟩ := h
      rw [inputMap_eq (length_of_diffGenInputs hs)]
      exact Generated.cons hs (ih hr)

/-- A printed line carries the Python inputs of an index both files have. -/
lemma mem_diffCompare {base : ℕ} {maxReport : ℤ} {nat bpf : List ℕ} {d : Divergence}
    (h : d ∈ (diffCompare base maxReport nat bpf).1) :
    d.inputs = genInputs base d.iter ∧ d.iter < nat.length ∧ d.iter < bpf.length := by
  have hfold : ∀ (is : List ℕ) (acc : List Divergence × ℕ),
      (∀ e ∈ acc.1, e.inputs = genInputs base e.iter ∧ e.iter < nat.length ∧
        e.iter < bpf.length) → (∀ i ∈ is, i < min nat.length bpf.length) →
      ∀ e ∈ (is.foldl (compareStep base maxReport nat bpf) acc).1,
        e.inputs = genInputs base e.iter ∧ e.iter < nat.length ∧ e.iter < bpf.length := by
    intro is
    induction is with
    | nil => intro acc hacc _; exact hacc
    | cons i is ih =>
      intro acc hacc hi
      refine ih _ ?_ (fun j hj => hi j (by simp [hj]))
      have hb := hi i (by simp)
      intro e he
      unfold compareStep at he
      split_ifs at he with hne hrep
      · rcases List.mem_append.mp he with he | he
        · exact hacc e he
        · rw [List.mem_singleton] at he
          subst e
          exact ⟨rfl, lt_of_lt_of_le hb (min_le_left _ _), lt_of_lt_of_le hb (min_le_right _ _)⟩
      · exact hacc e he
      · exact hacc e he
  exact hfold _ _ (by simp) (by simp) d h

/-- The Python copy returns the values of the C generator at every defined index, and each
printed divergence shows the inputs that the native driver and the runner both ran on. -/
theorem genInputs_replays (base : UInt64) :
    (∀ it : ℕ, it * 4 + 4 < 2 ^ 63 →
      (diffGenInputs base it).map (List.map UInt64.toNat) = some (genInputs base.toNat it)) ∧
    ∀ (diffCompute : List UInt64 → UInt64) (runProg : ℕ → List UInt64 → Option UInt64)
      (iters rc : ℕ) (maxReport : ℤ) (native bpf : Trace),
      diffNative diffCompute base 0 iters = some native →
      emitObject runProg base 0 iters = some (bpf, rc) →
      ∀ d ∈ (diffCompare base.toNat maxReport (native.map (·.2.toNat))
          (bpf.map (·.2.toNat))).1,
        (∃ out, (native.map fun e => (e.1.map UInt64.toNat, e.2))[d.iter]? = some (d.inputs, out)) ∧
        ∃ out, (bpf.map fun e => (e.1.map UInt64.toNat, e.2))[d.iter]? = some (d.inputs, out) := by
  refine ⟨fun it h => diffGenInputs_eq base h, ?_⟩
  intro diffCompute runProg iters rc maxReport native bpf hn hb d hd
  obtain ⟨hin, hln, hlb⟩ := mem_diffCompare hd
  have hreplay : ∀ tr : Trace, Generated base 0 tr → d.iter < tr.length →
      ∃ out, (tr.map fun e => (e.1.map UInt64.toNat, e.2))[d.iter]? = some (d.inputs, out) := by
    intro tr htr hlt
    have he : tr[d.iter]? = some tr[d.iter] := List.getElem?_eq_getElem hlt
    have hg := htr _ _ he
    rw [zero_add] at hg
    have heq := diffGenInputs_eq base (range_of_diffGenInputs hg)
    rw [hg, Option.map_some, Option.some.injEq] at heq
    refine ⟨tr[d.iter].2, ?_⟩
    rw [List.getElem?_map, he, Option.map_some, heq, hin]
  exact ⟨hreplay native (diffNative_generated hn) (by simpa using hln),
    hreplay bpf (emitObject_generated hb) (by simpa using hlb)⟩

/-- Iteration 300 of the default base, and a run of two iterations whose second output
diverges. -/
theorem genInputs_replays_default :
    (diffGenInputs 0x1234567 300).map (List.map UInt64.toNat) =
      some (genInputs 0x1234567 300) ∧
    ∃ native bpf : Trace, diffNative (fun _ => 0) 0x1234567 0 2 = some native ∧
      emitObject (fun it _ => some (UInt64.ofNat it)) 0x1234567 0 2 = some (bpf, 0) ∧
      (diffCompare 0x1234567 10 (native.map (·.2.toNat)) (bpf.map (·.2.toNat))).1 ≠ [] ∧
      ∀ d ∈ (diffCompare 0x1234567 10 (native.map (·.2.toNat)) (bpf.map (·.2.toNat))).1,
        ∃ out, (bpf.map fun e => (e.1.map UInt64.toNat, e.2))[d.iter]? = some (d.inputs, out) := by
  refine ⟨(genInputs_replays 0x1234567).1 300 (by decide), ?_⟩
  refine ⟨(diffNative (fun _ => 0) 0x1234567 0 2).getD [],
    ((emitObject (fun it _ => some (UInt64.ofNat it)) 0x1234567 0 2).getD ([], 0)).1,
    by decide, by decide, by decide, ?_⟩
  intro d hd
  exact ((genInputs_replays 0x1234567).2 (fun _ => 0) (fun it _ => some (UInt64.ofNat it))
    2 0 10 _ _ (by decide) (by decide) d hd).2

end BpfVerify.DiffSeed
