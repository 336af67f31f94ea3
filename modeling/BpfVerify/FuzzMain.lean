import BpfVerify.Json
import BpfVerify.Numeral
import BpfVerify.SeedMixer
import BpfVerify.TnumSoundness

/-!
# The fuzz driver

`main` of `userspace/fuzz_main.c`: the options, the loop over the iterations with their seeds, and
the lines printed for the failing ones, which are to reproduce what they report.
-/
namespace BpfVerify.FuzzMain
open DiffSeed Fuzz SeedMixer

abbrev Text := List Char

/-- What a case returns, what it leaves in `msg`, and how much it adds to `khost_warn_count`. -/
structure CaseResult where
  rc : ℤ
  msg : Text
  warns : UInt64

/-- A harness, by its name and its `fuzz_case`. -/
structure Harness where
  fuzzName : Text
  fuzzCase : FuzzInput → CaseResult

structure Options where
  iters : ℤ
  base : UInt64
  deriving DecidableEq

/-- The values before the options are read. -/
def Options.default : Options := ⟨5000000, 0x1234567⟩

def maxReport : ℕ := 5

/-- The loop over `argv`. With `--only` it ends, and the sum `only + 1` is a `long`. -/
def parseArgs : List Text → Options → Option Options
  | arg :: value :: rest, o =>
    if arg = "--iters".toList then parseArgs rest { o with iters := Numeral.strtol value }
    else if arg = "--seed".toList then parseArgs rest { o with base := Numeral.strtoull value }
    else if arg = "--only".toList then
      (long (Numeral.strtol value + 1)).map fun iters => { o with iters := iters }
    else parseArgs (value :: rest) o
  | _, o => some o

/-- The variables of the loop, and the lines printed. -/
structure Run where
  khostWarnCount : UInt64
  failures : ℕ
  reported : ℕ
  lines : List Text

/-- The text of `0x%llx`. -/
def seedText (base : UInt64) : Text := "0x".toList ++ Nat.toDigits 16 base.toNat

def failText (h : Harness) (base : UInt64) (it : ℕ) (msg : Text) (warned : Bool) : Text :=
  "FAIL ".toList ++ h.fuzzName ++ " iter=".toList ++ Json.decimal it ++ " seed=".toList ++
    seedText base ++ ": ".toList ++ (if msg ≠ [] then msg else "(property violated)".toList) ++
    (if warned then " [WARN fired]".toList else []) ++ ['\n']

/-- One pass of the loop over the iterations. -/
def iteration (h : Harness) (base : UInt64) (run : Run) (it : ℕ) : Option Run :=
  (seedFor base it).map fun state =>
    let result := h.fuzzCase { state := state, draw := 0, iter := it }
    let khostWarnCount := run.khostWarnCount + result.warns
    let warned := khostWarnCount != run.khostWarnCount
    let run := { run with khostWarnCount := khostWarnCount }
    if result.rc ≠ 0 ∨ warned then
      if run.reported < maxReport then
        { run with
          failures := run.failures + 1
          reported := run.reported + 1
          lines := run.lines ++ [failText h base it result.msg warned] }
      else { run with failures := run.failures + 1 }
    else run

structure Outcome where
  lines : List Text
  summary : Text
  status : ℕ

def main (h : Harness) (args : List Text) : Option Outcome := do
  let o ← parseArgs args .default
  let run ← (List.range o.iters.toNat).foldlM (iteration h o.base) ⟨0, 0, 0, []⟩
  return {
    lines := run.lines
    summary := h.fuzzName ++ ": ".toList ++ Json.decimal o.iters ++ " iters, ".toList ++
      Json.decimal run.failures ++ " failures\n".toList
    status := if run.failures ≠ 0 then 1 else 0 }

/-! ## What a run prints -/

/-- The input of an iteration. -/
def caseInput (base : UInt64) (it : ℕ) : FuzzInput :=
  { state := (seedFor base it).getD 0, draw := 0, iter := it }

/-- The case fails or makes the kernel code warn. -/
def Fails (h : Harness) (base : UInt64) (it : ℕ) : Prop :=
  (h.fuzzCase (caseInput base it)).rc ≠ 0 ∨ (h.fuzzCase (caseInput base it)).warns ≠ 0

instance (h : Harness) (base : UInt64) : DecidablePred (Fails h base) := fun _ => instDecidableOr

/-- The iterations below `n` that fail. -/
def failing (h : Harness) (base : UInt64) (n : ℕ) : List ℕ :=
  (List.range n).filter (Fails h base)

def line (h : Harness) (base : UInt64) (it : ℕ) : Text :=
  failText h base it (h.fuzzCase (caseInput base it)).msg
    (decide ((h.fuzzCase (caseInput base it)).warns ≠ 0))

variable {h : Harness} {base : UInt64}

lemma seedFor_caseInput (base : UInt64) {it : ℕ} (hit : it < 2 ^ 63 - 1) :
    seedFor base it = some (caseInput base it).state := by
  have hl : -2 ^ 63 ≤ (it : ℤ) := by omega
  have hseed := seedFor_eq base hl (by omega)
  rw [caseInput, hseed, Option.getD_some]

lemma warned_iff (count warns : UInt64) : (count + warns != count) = decide (warns ≠ 0) := by
  rw [Bool.eq_iff_iff, bne_iff_ne, decide_eq_true_eq, not_iff_not]
  constructor
  · intro heq
    have hsub := congrArg (· - count) heq
    simpa [UInt64.add_comm count warns, UInt64.add_sub_cancel] using hsub
  · rintro rfl
    exact UInt64.add_zero count

lemma caseInput_eta (base : UInt64) (it : ℕ) :
    ({ state := (caseInput base it).state, draw := 0, iter := it } : FuzzInput) =
      caseInput base it := by
  simp only [caseInput]

lemma iteration_of_fails {it : ℕ} (hit : it < 2 ^ 63 - 1) (hf : Fails h base it) (run : Run) :
    iteration h base run it = some
      { khostWarnCount := run.khostWarnCount + (h.fuzzCase (caseInput base it)).warns
        failures := run.failures + 1
        reported := if run.reported < maxReport then run.reported + 1 else run.reported
        lines := if run.reported < maxReport then run.lines ++ [line h base it] else run.lines } := by
  simp only [iteration, seedFor_caseInput base hit, Option.map_some, caseInput_eta, warned_iff,
    decide_eq_true_eq]
  rw [Fails] at hf
  rw [if_pos hf]
  split_ifs
  · rfl
  · rfl

lemma iteration_of_not_fails {it : ℕ} (hit : it < 2 ^ 63 - 1) (hf : ¬ Fails h base it) (run : Run) :
    iteration h base run it = some
      { run with khostWarnCount :=
          run.khostWarnCount + (h.fuzzCase (caseInput base it)).warns } := by
  simp only [iteration, seedFor_caseInput base hit, Option.map_some, caseInput_eta, warned_iff,
    decide_eq_true_eq]
  rw [Fails] at hf
  rw [if_neg hf]

lemma failing_succ_of_fails {n : ℕ} (hf : Fails h base n) :
    failing h base (n + 1) = failing h base n ++ [n] := by
  rw [failing, List.range_succ, List.filter_append, List.filter_cons_of_pos (by simpa using hf),
    List.filter_nil, failing]

lemma failing_succ_of_not_fails {n : ℕ} (hf : ¬ Fails h base n) :
    failing h base (n + 1) = failing h base n := by
  rw [failing, List.range_succ, List.filter_append, List.filter_cons_of_neg (by simpa using hf),
    List.filter_nil, List.append_nil, failing]

/-- The loop counts the failing iterations and prints the lines of the first ones. -/
lemma foldlM_iteration (h : Harness) (base : UInt64) (n : ℕ) (hn : n ≤ 2 ^ 63 - 1) :
    ∃ count, (List.range n).foldlM (iteration h base) ⟨0, 0, 0, []⟩ =
      some ⟨count, (failing h base n).length, min maxReport (failing h base n).length,
        ((failing h base n).take maxReport).map (line h base)⟩ := by
  induction n with
  | zero => exact ⟨0, rfl⟩
  | succ n ih =>
    obtain ⟨count, hrun⟩ := ih (by omega)
    refine ⟨count + (h.fuzzCase (caseInput base n)).warns, ?_⟩
    rw [List.range_succ, List.foldlM_append, hrun, Option.bind_eq_bind, Option.bind_some,
      List.foldlM_cons]
    by_cases hf : Fails h base n
    · rw [iteration_of_fails (by omega) hf, Option.bind_eq_bind, Option.bind_some, List.foldlM_nil,
        failing_succ_of_fails hf, List.length_append, List.length_singleton]
      dsimp only
      by_cases hlt : (failing h base n).length < maxReport
      · have hmin : min maxReport (failing h base n).length = (failing h base n).length := by omega
        have hmin' : min maxReport ((failing h base n).length + 1) =
            (failing h base n).length + 1 := by omega
        rw [hmin, if_pos hlt, if_pos hlt, hmin', List.take_of_length_le hlt.le,
          List.take_of_length_le (by rw [List.length_append, List.length_singleton]; omega),
          List.map_append]
        rfl
      · have hmin : min maxReport (failing h base n).length = maxReport := by omega
        have hmin' : min maxReport ((failing h base n).length + 1) = maxReport := by omega
        rw [hmin, if_neg (lt_irrefl _), if_neg (lt_irrefl _), hmin',
          List.take_append_of_le_length (by omega)]
        rfl
    · rw [iteration_of_not_fails (by omega) hf, Option.bind_eq_bind, Option.bind_some,
        List.foldlM_nil, failing_succ_of_not_fails hf]
      rfl

/-! ## The options -/

lemma strtol_lt (t : Text) : Numeral.strtol t < 2 ^ 63 := by
  rw [Numeral.strtol]
  omega

/-- The numbers of iterations that the options can ask for. -/
lemma iters_of_parseArgs {args : List Text} {o o' : Options} (ho : o.iters < 2 ^ 63)
    (hargs : parseArgs args o = some o') : o'.iters < 2 ^ 63 := by
  induction args, o using parseArgs.induct with
  | case1 value rest o ih =>
    rw [parseArgs, if_pos rfl] at hargs
    exact ih (strtol_lt value) hargs
  | case2 value rest o hiters ih =>
    rw [parseArgs, if_neg hiters, if_pos rfl] at hargs
    exact ih ho hargs
  | case3 value rest o hiters hseed =>
    rw [parseArgs, if_neg hiters, if_neg hseed, if_pos rfl, Option.map_eq_some_iff] at hargs
    obtain ⟨iters, hlong, rfl⟩ := hargs
    rw [long, Option.ite_none_right_eq_some] at hlong
    obtain ⟨hrange, heq⟩ := hlong
    exact (Option.some.inj heq) ▸ hrange.2
  | case4 arg value rest o hiters hseed honly ih =>
    rw [parseArgs, if_neg hiters, if_neg hseed, if_neg honly] at hargs
    exact ih ho hargs
  | case5 args o hargs' =>
    rw [parseArgs.eq_2 _ _ hargs', Option.some.injEq] at hargs
    exact hargs ▸ ho

/-- The outcome of a run over the iterations below `n`. -/
def outcome (h : Harness) (base : UInt64) (iters : ℤ) : Outcome where
  lines := ((failing h base iters.toNat).take maxReport).map (line h base)
  summary := h.fuzzName ++ ": ".toList ++ Json.decimal iters ++ " iters, ".toList ++
    Json.decimal (failing h base iters.toNat).length ++ " failures\n".toList
  status := if (failing h base iters.toNat).length ≠ 0 then 1 else 0

lemma main_eq {args : List Text} {o : Options} (hargs : parseArgs args .default = some o) :
    main h args = some (outcome h o.base o.iters) := by
  have hlt : o.iters < 2 ^ 63 := iters_of_parseArgs (by decide) hargs
  obtain ⟨count, hrun⟩ := foldlM_iteration h o.base o.iters.toNat (by omega)
  rw [main, hargs, Option.bind_eq_bind, Option.bind_some, hrun]
  rfl

lemma outcome_status (h : Harness) (base : UInt64) (iters : ℤ) :
    ((outcome h base iters).status = 0 ∨ (outcome h base iters).status = 1) ∧
    ((outcome h base iters).status = 0 ↔ ∀ it < iters.toNat, ¬ Fails h base it) := by
  have hnil : failing h base iters.toNat = [] ↔ ∀ it < iters.toNat, ¬ Fails h base it := by
    rw [failing, List.filter_eq_nil_iff]
    simp only [List.mem_range, decide_eq_true_eq]
  rw [← hnil, ← List.length_eq_zero_iff, outcome]
  dsimp only
  split_ifs with hne
  · exact ⟨.inr rfl, iff_of_false (by decide) hne⟩
  · exact ⟨.inl rfl, iff_of_true rfl (not_not.mp hne)⟩

section
open TnumSoundness FreeBits Tristate

variable (k : Kernel) (warns : FuzzInput → UInt64) (am bm : FuzzInput → ℕ → BitVec 64)

/-- How an outcome is returned. -/
def caseResult (warns : UInt64) : Option TnumSoundness.Outcome → CaseResult
  | some (.fail msg) => ⟨1, msg.toList, warns⟩
  | _ => ⟨0, [], warns⟩

/-- `fuzz_case` of `harnesses/tnum_soundness.c`; `warns` is what the kernel code adds to the
counter, and `am` and `bm` what the two arrays hold at first. -/
def tnumHarness : Harness where
  fuzzName := "tnum_soundness".toList
  fuzzCase input := caseResult (warns input) (fuzzCase k input (am input) (bm input) 256)

lemma tnumHarness_fuzzCase (input : FuzzInput) : (tnumHarness k warns am bm).fuzzCase input =
    caseResult (warns input) (fuzzCase k input (am input) (bm input) 256) := by
  unfold tnumHarness
  dsimp only

variable {k warns am bm}

lemma fuzzCase_tnumHarness (input : FuzzInput) :
    ((tnumHarness k warns am bm).fuzzCase input).rc ≠ 0 ∨
      ((tnumHarness k warns am bm).fuzzCase input).warns ≠ 0 ↔
    ¬ (SoundOn k input ∧ warns input = 0) := by
  obtain ⟨outcome, hcase, hskip, hsound⟩ := fuzzCase_eq_pass k input (am input) (bm input) 256
  rw [← hsound, not_and_or, tnumHarness_fuzzCase, hcase]
  cases outcome with
  | skip => exact absurd rfl hskip
  | pass => simp [caseResult]
  | fail msg => simp [caseResult]

/-- A run of the fuzzer exits with 0 iff the operations of the kernel are sound on every pair of
tnums that it draws and nothing warns, whatever the arrays hold. -/
theorem tnumMain_decides (k : Kernel) (warns : FuzzInput → UInt64)
    (am bm : FuzzInput → ℕ → BitVec 64) {args : List Text} {o : Options}
    (hargs : parseArgs args .default = some o) :
    ∃ out, main (tnumHarness k warns am bm) args = some out ∧
      (out.status = 0 ∨ out.status = 1) ∧
      (out.status = 0 ↔ ∀ it < o.iters.toNat,
        SoundOn k (caseInput o.base it) ∧ warns (caseInput o.base it) = 0) := by
  obtain ⟨hstatus, hzero⟩ := outcome_status (tnumHarness k warns am bm) o.base o.iters
  refine ⟨_, main_eq hargs, hstatus, ?_⟩
  rw [hzero]
  simp only [Fails, fuzzCase_tnumHarness, not_not]

theorem tnumMain_decides_unknown : ∃ out, main (tnumHarness unknownKernel (fun _ => 0)
    (fun _ _ => 0) fun _ _ => 0) ["--iters".toList, "4".toList] = some out ∧ out.status = 0 := by
  have hargs : parseArgs ["--iters".toList, "4".toList] .default = some ⟨4, 0x1234567⟩ := by decide
  obtain ⟨out, hrun, -, hstatus⟩ := tnumMain_decides unknownKernel (fun _ => 0) (fun _ _ => 0)
    (fun _ _ => 0) hargs
  refine ⟨out, hrun, hstatus.mpr fun it _ => ⟨?_, rfl⟩⟩
  obtain ⟨a, r, ha, -, -⟩ := genTnum_eq_some (caseInput 0x1234567 it)
  obtain ⟨b, s, hb, -, -⟩ := genTnum_eq_some r
  refine ⟨a, b, r, s, ha, hb, ?_, fun x _ => ⟨mem_unknown _, mem_unknown _⟩⟩
  intro o ho x _ y _
  rw [binops_unknownKernel ho]
  exact mem_unknown _

end

end BpfVerify.FuzzMain
