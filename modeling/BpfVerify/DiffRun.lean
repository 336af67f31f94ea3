import BpfVerify.DiffCompare
import BpfVerify.Numeral

/-!
# A differential run

`tools/diff.sh` from the two drivers to the verdict. `tools/diff_native.c` and the emit mode of
`tools/bpf_runner.c` write one file each, the second from inside the guest of `tools/uml-run.sh`,
and `tools/diff_compare.py` reads both files. `tools/diff_all.sh` reads its options and runs every
target.
-/
namespace BpfVerify.DiffRun
open DiffSeed DiffCompare Numeral

/-! ## The two drivers -/

/-- `DEFAULT_DIFF_BODY` of `tools/diff_build.py`; `lookup` is what `input_map` holds. -/
def defaultDiffBody (diffCompute : List UInt64 → UInt64) (lookup : ℕ → Option UInt64) : UInt32 :=
  let r := diffCompute ((List.range nInputs).map fun k => (lookup k).getD 0)
  (r ^^^ (r >>> 32)).toUInt32

/-- What libbpf answers: whether the object opens and loads, whether it has a program and an
`input_map`, and in each iteration whether the updates and the test run succeed. -/
structure Libbpf where
  loads : Bool
  hasProgAndMap : Bool
  mapUpdateElem : ℕ → ℕ → Bool
  progTestRun : ℕ → Bool

/-- One iteration in the kernel. The return value is zero-extended to the output. -/
def Libbpf.runProg (l : Libbpf) (prog : (ℕ → Option UInt64) → UInt32) (it : ℕ)
    (map : List UInt64) : Option UInt64 :=
  if (List.range inputMapEntries).all (l.mapUpdateElem it) && l.progTestRun it then
    some (prog fun k => map[k]?).toUInt64
  else none

/-- How the guest of `uml-run.sh` ends. One that dies leaves no status behind. -/
inductive Guest where
  | noKernel
  | died
  | halted

/-- The status that `uml-run.sh` exits with, and what the command has written. -/
def umlRun : Guest → Option (List UInt8 × ℕ) → Option (List UInt8 × ℕ)
  | .noKernel, _ => some ([], 3)
  | .died, command => command.map fun out => (out.1, 3)
  | .halted, command => command

/-- The status of a process that does not get to a `return` of `main`: a signal ended it, or it
could not be started. -/
abbrev Broken := { status : ℕ // status ≠ 0 }

/-- A directory of `diff/`, with the outcome of each step that is run for it. Neither driver looks
at the result of a write, and a broken one stops at any point, so that of each file only the first
bytes may reach the disk. -/
structure Target where
  computeH : Bool
  nativeFlags : Bool
  diffBuild : Bool
  cc : Bool
  diffCompute : List UInt64 → UInt64
  nativeOpens : Bool
  nativeBroken : Option Broken
  nativeKept : ℕ
  guest : Guest
  emitOpens : Bool
  emitBroken : Option Broken
  libbpf : Libbpf
  prog : (ℕ → Option UInt64) → UInt32
  emitKept : ℕ

/-- The status that the shell sees, where `main` would return `rc`. -/
def exitStatus (broken : Option Broken) (rc : ℕ) : ℕ := broken.elim rc (·.1)

/-- `main` of `diff_native.c`. -/
def Target.nativeMain (t : Target) (base : UInt64) (iters : ℤ) : Option (List UInt8 × ℕ) :=
  if ¬ t.nativeOpens then some ([], 2)
  else (diffNative t.diffCompute base 0 iters.toNat).map fun trace =>
    ((dump (trace.map (·.2))).take t.nativeKept, exitStatus t.nativeBroken 0)

/-- `main` of `bpf_runner.c` with `--emit`. -/
def Target.emitMain (t : Target) (base : UInt64) (iters : ℤ) : Option (List UInt8 × ℕ) :=
  if ¬ t.emitOpens then some ([], 2)
  else if ¬ t.libbpf.loads then some ([], 2)
  else if ¬ t.libbpf.hasProgAndMap then some ([], 2)
  else (emitObject (t.libbpf.runProg t.prog) base 0 iters.toNat).map fun out =>
    ((dump (out.1.map (·.2))).take t.emitKept, exitStatus t.emitBroken out.2)

/-! ## The scripts -/

/-- The exit status of `diff.sh` for a target. -/
def diffSh (t : Target) (base : UInt64) (iters : ℤ) : Option ℕ :=
  if ¬ t.computeH then some 2
  else if ¬ t.nativeFlags then some 2
  else if ¬ t.diffBuild then some 1
  else if ¬ t.cc then some 1
  else do
    let native ← t.nativeMain base iters
    if native.2 ≠ 0 then return 1
    let bpf ← umlRun t.guest (t.emitMain base iters)
    if bpf.2 ≠ 0 then return 1
    return (main base.toNat 10 native.1 bpf.1).status

/-- The two arrays of `diff_all.sh`, as the numbers of targets that passed and failed. -/
def diffAllStep (iters : ℤ) (counts : ℕ × ℕ) (t : Target) : Option (ℕ × ℕ) :=
  if ¬ t.computeH then some counts
  else (diffSh t 0x1234567 iters).map fun status =>
    if status = 0 then (counts.1 + 1, counts.2) else (counts.1, counts.2 + 1)

/-- `${DIFF_ITERS:-20000}` -/
def defaultIters (diffIters : Option Text) : Text :=
  match diffIters with
  | none => "20000".toList
  | some t => if t = [] then "20000".toList else t

/-- The loop over the arguments: the number of iterations, or the status that the script ends with.
Where `--iters` comes last, `set -u` ends it. -/
def diffAllArgs : List Text → Text → Except ℕ Text
  | [], iters => .ok iters
  | [arg], _ => .error (if arg = "--iters".toList then 1 else 2)
  | arg :: value :: rest, _iters =>
    if arg = "--iters".toList then diffAllArgs rest value else .error 2

/-- A word that the script of the guest, where it stands without quotes, hands on as it is. -/
def shellWord (t : Text) : Bool := !t.isEmpty && t.all fun c => c.isAlphanum || c == '-' || c == '+'

/-- Both drivers read the number with `strtol`. What the guest makes of a text that is not one
word is left open. -/
def diffAll (diffIters : Option Text) (args : List Text) (targets : List Target) : Option ℕ :=
  match diffAllArgs args (defaultIters diffIters) with
  | .error status => some status
  | .ok iters =>
    if !shellWord iters then none
    else (targets.foldlM (diffAllStep (strtol iters)) (0, 0)).map fun counts =>
      if counts.2 > 0 then 1 else 0

/-! ## What the files hold -/

/-- The inputs of an iteration. -/
def inputs (base : UInt64) (it : ℕ) : List UInt64 := (diffGenInputs base it).getD []

variable {base : UInt64}

lemma diffGenInputs_inputs {it : ℕ} (h : it * 4 + 4 < 2 ^ 63) :
    diffGenInputs base it = some (inputs base it) := by
  have heq := diffGenInputs_eq base h
  rw [Option.map_eq_some_iff] at heq
  obtain ⟨xs, hxs, -⟩ := heq
  rw [inputs, hxs, Option.getD_some]

lemma length_inputs {it : ℕ} (h : it * 4 + 4 < 2 ^ 63) : (inputs base it).length = 4 :=
  length_of_diffGenInputs (diffGenInputs_inputs h)

/-- The word that the native driver writes for a result. -/
def folded (r : UInt64) : UInt64 := (r ^^^ (r >>> 32)).toUInt32.toUInt64

lemma diffNative_eq (diffCompute : List UInt64 → UInt64) {it n : ℕ}
    (h : (it + n) * 4 < 2 ^ 63) : diffNative diffCompute base it n =
      some ((List.range' it n).map fun i =>
        (inputs base i, folded (diffCompute (inputs base i)))) := by
  induction n generalizing it with
  | zero => rfl
  | succ n ih =>
    have hin : diffGenInputs base it = some (inputs base it) := diffGenInputs_inputs (by omega)
    rw [diffNative, hin, Option.bind_eq_bind, Option.bind_some, ih (by omega)]
    rfl

/-- Whether every libbpf call of an iteration succeeds. -/
def Libbpf.Answers (l : Libbpf) (it : ℕ) : Prop :=
  (∀ k < inputMapEntries, l.mapUpdateElem it k = true) ∧ l.progTestRun it = true

/-- What the program reads when its input map holds `xs`. -/
def output (prog : (ℕ → Option UInt64) → UInt32) (xs : List UInt64) : UInt64 :=
  (prog fun k => xs[k]?).toUInt64

lemma runProg_of_answers {l : Libbpf} {it : ℕ} (h : l.Answers it)
    (prog : (ℕ → Option UInt64) → UInt32) (xs : List UInt64) :
    l.runProg prog it xs = some (output prog xs) := by
  have hall : (List.range inputMapEntries).all (l.mapUpdateElem it) = true :=
    List.all_eq_true.mpr fun k hk => h.1 k (List.mem_range.mp hk)
  rw [Libbpf.runProg, hall, h.2]
  rfl

lemma runProg_of_not_answers {l : Libbpf} {it : ℕ} (h : ¬ l.Answers it)
    (prog : (ℕ → Option UInt64) → UInt32) (xs : List UInt64) : l.runProg prog it xs = none := by
  rw [Libbpf.runProg, if_neg]
  rw [Bool.and_eq_true, List.all_eq_true]
  rintro ⟨hall, hrun⟩
  exact h ⟨fun k hk => hall k (List.mem_range.mpr hk), hrun⟩

/-- A run writes the output of every iteration, or stops with status 2. -/
lemma emitObject_eq (l : Libbpf) (prog : (ℕ → Option UInt64) → UInt32) {it n : ℕ}
    (h : (it + n) * 4 < 2 ^ 63) :
    ((∀ i, it ≤ i → i < it + n → l.Answers i) ∧ emitObject (l.runProg prog) base it n =
      some ((List.range' it n).map fun i => (inputs base i, output prog (inputs base i)), 0)) ∨
    (¬ (∀ i, it ≤ i → i < it + n → l.Answers i) ∧
      ∃ trace, emitObject (l.runProg prog) base it n = some (trace, 2)) := by
  induction n generalizing it with
  | zero => exact .inl ⟨fun i hl hu => by omega, rfl⟩
  | succ n ih =>
    have hin : diffGenInputs base it = some (inputs base it) := diffGenInputs_inputs (by omega)
    have hmap : inputMap (inputs base it) = inputs base it :=
      inputMap_eq (length_inputs (by omega))
    by_cases ha : l.Answers it
    · have hrun := runProg_of_answers ha prog (inputs base it)
      have hnext : (it + 1 + n) * 4 < 2 ^ 63 := by omega
      rcases ih hnext with ⟨hall, hrest⟩ | ⟨hsome, trace, hrest⟩
      · refine .inl ⟨fun i hl hu => ?_, ?_⟩
        · rcases Nat.eq_or_lt_of_le hl with rfl | hlt
          · exact ha
          · exact hall i hlt (by omega)
        · rw [emitObject, hin, Option.bind_eq_bind, Option.bind_some, hmap, hrun]
          dsimp only
          rw [hrest]
          rfl
      · refine .inr ⟨fun hall => hsome fun i hl hu => hall i (by omega) (by omega), ?_⟩
        refine ⟨(inputs base it, output prog (inputs base it)) :: trace, ?_⟩
        rw [emitObject, hin, Option.bind_eq_bind, Option.bind_some, hmap, hrun]
        dsimp only
        rw [hrest]
        rfl
    · refine .inr ⟨fun hall => ha (hall it le_rfl (by omega)), [], ?_⟩
      rw [emitObject, hin, Option.bind_eq_bind, Option.bind_some, hmap,
        runProg_of_not_answers ha prog]
      rfl

/-! ## The verdict -/

/-- Both objects are built, both output files open, both drivers return, and no call in the guest
fails. -/
structure Target.Runs (t : Target) (iters : ℤ) : Prop where
  nativeFlags : t.nativeFlags = true
  diffBuild : t.diffBuild = true
  cc : t.cc = true
  nativeOpens : t.nativeOpens = true
  nativeReturns : t.nativeBroken = none
  halted : t.guest = .halted
  emitOpens : t.emitOpens = true
  emitReturns : t.emitBroken = none
  loads : t.libbpf.loads = true
  hasProgAndMap : t.libbpf.hasProgAndMap = true
  answers : ∀ it < iters.toNat, t.libbpf.Answers it

/-- The number of iterations whose outputs are in both files. -/
def Target.kept (t : Target) (iters : ℤ) : ℕ :=
  min iters.toNat (min (t.nativeKept / 8) (t.emitKept / 8))

/-- The compared outputs are equal. -/
def Target.Agrees (t : Target) (base : UInt64) (iters : ℤ) : Prop :=
  ∀ it < t.kept iters, folded (t.diffCompute (inputs base it)) = output t.prog (inputs base it)

lemma status_dump_take (maxReport : ℤ) (f g : ℕ → UInt64) (n kf kg : ℕ) :
    (main base.toNat maxReport ((dump ((List.range n).map f)).take kf)
        ((dump ((List.range n).map g)).take kg)).status = 0 ↔
      ∀ i < min n (min (kf / 8) (kg / 8)), f i = g i := by
  have hwords (h : ℕ → UInt64) (k : ℕ) : load ((dump ((List.range n).map h)).take k) =
      (List.range (min (k / 8) n)).map fun i => (h i).toNat := by
    rw [load_dump_take, ← List.map_take, List.take_range, List.map_map]
    rfl
  have hlen : min n (min (kf / 8) (kg / 8)) =
      min (load ((dump ((List.range n).map f)).take kf)).length
        (load ((dump ((List.range n).map g)).take kg)).length := by
    rw [hwords, hwords, List.length_map, List.length_map, List.length_range, List.length_range]
    omega
  have htake (k : ℕ) (hk : min n (min (kf / 8) (kg / 8)) ≤ min (k / 8) n) (h : ℕ → UInt64) :
      (load ((dump ((List.range n).map h)).take k)).take (min n (min (kf / 8) (kg / 8))) =
        (List.range (min n (min (kf / 8) (kg / 8)))).map fun i => (h i).toNat := by
    rw [hwords, ← List.map_take, List.take_range, Nat.min_eq_left hk]
  rw [status_eq_zero_iff hlen, htake kf (by omega) f, htake kg (by omega) g, List.map_inj_left]
  exact forall_congr' fun i => by rw [List.mem_range, UInt64.toNat_inj]

/-- A broken driver is told from one that returns zero. -/
lemma exitStatus_eq_zero_iff {broken : Option Broken} {rc : ℕ} :
    exitStatus broken rc = 0 ↔ broken = none ∧ rc = 0 := by
  cases broken with
  | none => simp [exitStatus]
  | some b => simp [exitStatus, b.2]

lemma nativeMain_eq {t : Target} {iters : ℤ} (h : iters * 4 < 2 ^ 63) (ho : t.nativeOpens = true) :
    t.nativeMain base iters = some ((dump ((List.range iters.toNat).map fun i =>
      folded (t.diffCompute (inputs base i)))).take t.nativeKept, exitStatus t.nativeBroken 0) := by
  rw [Target.nativeMain, if_neg (not_not.mpr ho), diffNative_eq t.diffCompute (by omega),
    Option.map_some, List.map_map, List.range_eq_range']
  rfl

/-- What a run of the runner needs to return zero. -/
structure Target.Emits (t : Target) (iters : ℤ) : Prop where
  opens : t.emitOpens = true
  returns : t.emitBroken = none
  loads : t.libbpf.loads = true
  hasProgAndMap : t.libbpf.hasProgAndMap = true
  answers : ∀ it < iters.toNat, t.libbpf.Answers it

lemma Target.Runs.emits {t : Target} {iters : ℤ} (h : t.Runs iters) : t.Emits iters :=
  ⟨h.emitOpens, h.emitReturns, h.loads, h.hasProgAndMap, h.answers⟩

lemma emitMain_cases {t : Target} {iters : ℤ} (h : iters * 4 < 2 ^ 63) :
    (t.Emits iters ∧ t.emitMain base iters = some ((dump ((List.range iters.toNat).map fun i =>
        output t.prog (inputs base i))).take t.emitKept, 0)) ∨
    ¬ t.Emits iters ∧ ∃ out rc, t.emitMain base iters = some (out, rc) ∧ rc ≠ 0 := by
  by_cases ho : t.emitOpens = true
  case neg =>
    exact .inr ⟨fun he => ho he.opens, [], 2, by rw [Target.emitMain, if_pos ho], by decide⟩
  by_cases hl : t.libbpf.loads = true
  case neg =>
    refine .inr ⟨fun he => hl he.loads, [], 2, ?_, by decide⟩
    rw [Target.emitMain, if_neg (not_not.mpr ho), if_pos hl]
  by_cases hp : t.libbpf.hasProgAndMap = true
  case neg =>
    refine .inr ⟨fun he => hp he.hasProgAndMap, [], 2, ?_, by decide⟩
    rw [Target.emitMain, if_neg (not_not.mpr ho), if_neg (not_not.mpr hl), if_pos hp]
  have hmain : t.emitMain base iters =
      (emitObject (t.libbpf.runProg t.prog) base 0 iters.toNat).map fun out =>
        ((dump (out.1.map (·.2))).take t.emitKept, exitStatus t.emitBroken out.2) := by
    rw [Target.emitMain, if_neg (not_not.mpr ho), if_neg (not_not.mpr hl), if_neg (not_not.mpr hp)]
  have hiters : (0 + iters.toNat) * 4 < 2 ^ 63 := by omega
  rcases emitObject_eq t.libbpf t.prog hiters with ⟨hall, hrun⟩ | ⟨hsome, trace, hrun⟩
  · by_cases hb : t.emitBroken = none
    · refine .inl ⟨⟨ho, hb, hl, hp, fun it hit => hall it (by omega) (by omega)⟩, ?_⟩
      rw [hmain, hrun, Option.map_some, List.map_map, List.range_eq_range', hb]
      rfl
    · refine .inr ⟨fun he => hb he.returns, _, _, by rw [hmain, hrun, Option.map_some], ?_⟩
      exact fun hzero => hb (exitStatus_eq_zero_iff.mp hzero).1
  · refine .inr ⟨fun he => hsome fun i _ hu => he.answers i (by omega), _, _,
      by rw [hmain, hrun, Option.map_some], ?_⟩
    exact fun hzero => two_ne_zero (exitStatus_eq_zero_iff.mp hzero).2

/-- The guest adds its own ways to fail. -/
lemma umlRun_emitMain {t : Target} {iters : ℤ} (h : iters * 4 < 2 ^ 63) :
    (t.guest = .halted ∧ t.Emits iters ∧ umlRun t.guest (t.emitMain base iters) =
      some ((dump ((List.range iters.toNat).map fun i =>
        output t.prog (inputs base i))).take t.emitKept, 0)) ∨
    ¬ t.Runs iters ∧ ∃ out rc, umlRun t.guest (t.emitMain base iters) = some (out, rc) ∧
      rc ≠ 0 := by
  have hemit := @emitMain_cases base t iters h
  cases hg : t.guest with
  | noKernel =>
    refine .inr ⟨fun hr => ?_, [], 3, rfl, by decide⟩
    rw [hr.halted] at hg
    exact nomatch hg
  | died =>
    refine .inr ⟨fun hr => ?_, ?_⟩
    · rw [hr.halted] at hg
      exact nomatch hg
    · rcases hemit with ⟨-, hrun⟩ | ⟨-, out, rc, hrun, -⟩
      · exact ⟨_, 3, by rw [umlRun, hrun, Option.map_some], by decide⟩
      · exact ⟨out, 3, by rw [umlRun, hrun, Option.map_some], by decide⟩
  | halted =>
    rcases hemit with ⟨he, hrun⟩ | ⟨he, out, rc, hrun, hrc⟩
    · exact .inl ⟨rfl, he, hrun⟩
    · exact .inr ⟨fun hr => he hr.emits, out, rc, hrun, hrc⟩

/-- A target passes iff its two sides run and write equal outputs. -/
lemma diffSh_eq {t : Target} {iters : ℤ} (h : iters * 4 < 2 ^ 63) (hc : t.computeH = true) :
    ∃ status, diffSh t base iters = some status ∧
      (status = 0 ↔ t.Runs iters ∧ t.Agrees base iters) := by
  by_cases hf : t.nativeFlags = true
  case neg =>
    refine ⟨2, ?_, iff_of_false (by decide) fun hr => hf hr.1.nativeFlags⟩
    rw [diffSh, if_neg (not_not.mpr hc), if_pos hf]
  by_cases hb : t.diffBuild = true
  case neg =>
    refine ⟨1, ?_, iff_of_false (by decide) fun hr => hb hr.1.diffBuild⟩
    rw [diffSh, if_neg (not_not.mpr hc), if_neg (not_not.mpr hf), if_pos hb]
  by_cases hcc : t.cc = true
  case neg =>
    refine ⟨1, ?_, iff_of_false (by decide) fun hr => hcc hr.1.cc⟩
    rw [diffSh, if_neg (not_not.mpr hc), if_neg (not_not.mpr hf), if_neg (not_not.mpr hb),
      if_pos hcc]
  rw [diffSh, if_neg (not_not.mpr hc), if_neg (not_not.mpr hf), if_neg (not_not.mpr hb),
    if_neg (not_not.mpr hcc)]
  by_cases hn : t.nativeOpens = true
  case neg =>
    refine ⟨1, ?_, iff_of_false (by decide) fun hr => hn hr.1.nativeOpens⟩
    rw [Target.nativeMain, if_pos hn]
    rfl
  rw [nativeMain_eq h hn]
  by_cases hend : t.nativeBroken = none
  case neg =>
    refine ⟨1, ?_, iff_of_false (by decide) fun hr => hend hr.1.nativeReturns⟩
    have hne : exitStatus t.nativeBroken 0 ≠ 0 := fun hzero =>
      hend (exitStatus_eq_zero_iff.mp hzero).1
    simp [hne]
  rw [hend]
  rcases umlRun_emitMain h with ⟨hg, he, hrun⟩ | ⟨hr, out, rc, hrun, hrc⟩
  · rw [hrun]
    refine ⟨_, rfl, ?_⟩
    rw [status_dump_take]
    exact ⟨fun heq => ⟨⟨hf, hb, hcc, hn, hend, hg, he.opens, he.returns, he.loads,
      he.hasProgAndMap, he.answers⟩, heq⟩, fun hr => hr.2⟩
  · rw [hrun]
    refine ⟨1, ?_, iff_of_false (by decide) fun hall => hr hall.1⟩
    simp [hrc]

lemma foldlM_diffAllStep {iters : ℤ} (h : iters * 4 < 2 ^ 63) (targets : List Target)
    (counts : ℕ × ℕ) : ∃ passed failed,
      targets.foldlM (diffAllStep iters) counts = some (passed, counts.2 + failed) ∧
      (failed = 0 ↔ ∀ t ∈ targets, t.computeH = true →
        t.Runs iters ∧ t.Agrees 0x1234567 iters) := by
  induction targets generalizing counts with
  | nil => exact ⟨counts.1, 0, rfl, iff_of_true rfl fun _ ht => nomatch ht⟩
  | cons t targets ih =>
    by_cases hc : t.computeH = true
    · obtain ⟨status, hrun, hstatus⟩ := diffSh_eq h hc
      have hstep : diffAllStep iters counts t = some (if status = 0 then
          (counts.1 + 1, counts.2) else (counts.1, counts.2 + 1)) := by
        rw [diffAllStep, if_neg (not_not.mpr hc), hrun, Option.map_some]
      rw [List.foldlM_cons, hstep, Option.bind_eq_bind, Option.bind_some]
      by_cases hzero : status = 0
      · obtain ⟨passed, failed, hrest, hfailed⟩ := ih (counts.1 + 1, counts.2)
        refine ⟨passed, failed, by rw [if_pos hzero, hrest], ?_⟩
        rw [hfailed, List.forall_mem_cons]
        exact ⟨fun hall => ⟨fun _ => hstatus.mp hzero, hall⟩, fun hall => hall.2⟩
      · obtain ⟨passed, failed, hrest, -⟩ := ih (counts.1, counts.2 + 1)
        refine ⟨passed, failed + 1, ?_, iff_of_false (by omega) fun hall => ?_⟩
        · rw [if_neg hzero, hrest]
          congr 2
          omega
        · exact hzero (hstatus.mpr (hall t (List.mem_cons_self ..) hc))
    · have hstep : diffAllStep iters counts t = some counts := by rw [diffAllStep, if_pos hc]
      obtain ⟨passed, failed, hrest, hfailed⟩ := ih counts
      refine ⟨passed, failed, ?_, ?_⟩
      · rw [List.foldlM_cons, hstep, Option.bind_eq_bind, Option.bind_some, hrest]
      · rw [hfailed, List.forall_mem_cons]
        exact ⟨fun hall => ⟨fun htrue => absurd htrue hc, hall⟩, fun hall => hall.2⟩

/-- The default body returns the fold that the native driver writes. -/
lemma output_defaultDiffBody (bpfCompute : List UInt64 → UInt64) {xs : List UInt64}
    (h : xs.length = 4) : output (defaultDiffBody bpfCompute) xs = folded (bpfCompute xs) := by
  match xs, h with
  | [a, b, c, d], _ => rfl

/-- `--iters` and a number, once for every number. -/
def optionWords (values : List Text) : List Text :=
  values.flatMap fun value => ["--iters".toList, value]

lemma diffAllArgs_optionWords (values rest : List Text) (iters : Text) :
    diffAllArgs (optionWords values ++ rest) iters =
      diffAllArgs rest (values.getLast?.getD iters) := by
  induction values generalizing iters with
  | nil => rfl
  | cons value values ih =>
    have hstep : diffAllArgs (optionWords (value :: values) ++ rest) iters =
        diffAllArgs (optionWords values ++ rest) value := by
      simp [optionWords, diffAllArgs]
    rw [hstep, ih]
    cases values with
    | nil => rfl
    | cons w values => rw [List.getLast?_cons_cons, List.getLast?_cons]; rfl

/-- A command line is a run of numbers, or ends one with an `--iters` that has no number or with
an argument that is not known. -/
lemma args_cases (args : List Text) : (∃ values, args = optionWords values) ∨
    (∃ values, args = optionWords values ++ ["--iters".toList]) ∨
    ∃ values arg rest, args = optionWords values ++ arg :: rest ∧ arg ≠ "--iters".toList := by
  induction args using List.twoStepInduction with
  | nil => exact .inl ⟨[], rfl⟩
  | singleton arg =>
    by_cases harg : arg = "--iters".toList
    · exact .inr (.inl ⟨[], by rw [harg]; rfl⟩)
    · exact .inr (.inr ⟨[], arg, [], rfl, harg⟩)
  | cons_cons arg value rest ih _ =>
    by_cases harg : arg = "--iters".toList
    · have hcons (values : List Text) (tail : List Text) :
          arg :: value :: (optionWords values ++ tail) = optionWords (value :: values) ++ tail := by
        rw [harg]
        rfl
      rcases ih with ⟨values, rfl⟩ | ⟨values, rfl⟩ | ⟨values, bad, tail, rfl, hbad⟩
      · exact .inl ⟨value :: values, by simpa using hcons values []⟩
      · exact .inr (.inl ⟨value :: values, hcons values _⟩)
      · exact .inr (.inr ⟨value :: values, bad, tail, hcons values _, hbad⟩)
    · exact .inr (.inr ⟨[], arg, value :: rest, rfl, harg⟩)

/-- The last number wins. -/
def chosenIters (diffIters : Option Text) (values : List Text) : Text :=
  values.getLast?.getD (defaultIters diffIters)

lemma diffAllArgs_numbers (diffIters : Option Text) (values : List Text) :
    diffAllArgs (optionWords values) (defaultIters diffIters) =
      .ok (chosenIters diffIters values) := by
  have h := diffAllArgs_optionWords values [] (defaultIters diffIters)
  rw [List.append_nil] at h
  exact h

lemma chosenIters_congr (diffIters : Option Text) {values values' : List Text}
    (h : optionWords values = optionWords values') :
    chosenIters diffIters values = chosenIters diffIters values' := by
  have hread := diffAllArgs_numbers diffIters values
  rw [h, diffAllArgs_numbers] at hread
  exact (Except.ok.inj hread).symm

lemma diffAllArgs_missing (values : List Text) (iters : Text) :
    diffAllArgs (optionWords values ++ ["--iters".toList]) iters = .error 1 := by
  rw [diffAllArgs_optionWords, diffAllArgs, if_pos rfl]

lemma diffAllArgs_unknown (values rest : List Text) {arg : Text} (h : arg ≠ "--iters".toList)
    (iters : Text) : diffAllArgs (optionWords values ++ arg :: rest) iters = .error 2 := by
  rw [diffAllArgs_optionWords]
  cases rest with
  | nil => rw [diffAllArgs, if_neg h]
  | cons value rest => rw [diffAllArgs, if_neg h]

/-- With its arguments read, `diff_all.sh` passes iff every target does. -/
lemma diffAll_numbers {diffIters : Option Text} {values : List Text}
    (hword : shellWord (chosenIters diffIters values) = true)
    (h : strtol (chosenIters diffIters values) * 4 < 2 ^ 63) (targets : List Target) :
    ∃ status, diffAll diffIters (optionWords values) targets = some status ∧
      (status = 0 ∨ status = 1) ∧
      (status = 0 ↔ ∀ t ∈ targets, t.computeH = true →
        t.Runs (strtol (chosenIters diffIters values)) ∧
        t.Agrees 0x1234567 (strtol (chosenIters diffIters values))) := by
  obtain ⟨passed, failed, hrun, hfailed⟩ := foldlM_diffAllStep h targets (0, 0)
  refine ⟨if 0 + failed > 0 then 1 else 0, ?_, ?_, ?_⟩
  · rw [diffAll, diffAllArgs_numbers]
    dsimp only
    rw [hword, Bool.not_true, if_neg Bool.false_ne_true, hrun, Option.map_some]
  · split_ifs
    · exact .inr rfl
    · exact .inl rfl
  · have hzero : (if 0 + failed > 0 then 1 else 0) = 0 ↔ failed = 0 := by
      split_ifs with hpos
      · exact iff_of_false (by decide) (by omega)
      · exact iff_of_true rfl (by omega)
    rw [hzero, hfailed]

/-- The compared folds of the two compilations are equal. -/
def Target.Folds (t : Target) (bpfCompute : List UInt64 → UInt64) (base : UInt64) (iters : ℤ) :
    Prop :=
  ∀ it < t.kept iters,
    folded (t.diffCompute (inputs base it)) = folded (bpfCompute (inputs base it))

lemma agrees_iff_folds {t : Target} {bpfCompute : List UInt64 → UInt64} {iters : ℤ}
    (h : iters * 4 < 2 ^ 63) (hbody : t.prog = defaultDiffBody bpfCompute) :
    t.Agrees base iters ↔ t.Folds bpfCompute base iters := by
  refine forall_congr' fun it => forall_congr' fun hit => ?_
  have hlt : it < min iters.toNat (min (t.nativeKept / 8) (t.emitKept / 8)) := hit
  rw [hbody, output_defaultDiffBody _ (length_inputs (by omega))]

/-- `diff_all.sh` ends with 2 iff it meets an argument it does not know, and with 0 iff its
arguments are numbers of iterations and every target is built and run to its end on both sides and
no output that reached the two files differs; with the default body those are the folds of the
results of the two compilations. Short files that the comparator accepts come from lost writes
only, never from a run that stopped. -/
theorem diffAll_agrees {diffIters : Option Text} {args : List Text}
    (hnumber : ∀ values, args = optionWords values →
      shellWord (chosenIters diffIters values) = true ∧
      strtol (chosenIters diffIters values) * 4 < 2 ^ 63)
    (bpfCompute : Target → List UInt64 → UInt64) {targets : List Target}
    (hbody : ∀ t ∈ targets, t.prog = defaultDiffBody (bpfCompute t)) :
    ∃ status, diffAll diffIters args targets = some status ∧ status ≤ 2 ∧
      (status = 2 ↔ ∃ values arg rest, args = optionWords values ++ arg :: rest ∧
        arg ≠ "--iters".toList) ∧
      (status = 0 ↔ ∃ values, args = optionWords values ∧ ∀ t ∈ targets, t.computeH = true →
        t.Runs (strtol (chosenIters diffIters values)) ∧
        t.Folds (bpfCompute t) 0x1234567 (strtol (chosenIters diffIters values))) := by
  -- what the loop over the arguments makes of a command line tells its three forms apart
  have hno (values : List Text) {status : ℕ}
      (h : diffAllArgs args (defaultIters diffIters) = .error status) :
      args ≠ optionWords values := by
    rintro rfl
    rw [diffAllArgs_numbers] at h
    exact nomatch h
  rcases args_cases args with ⟨values, hargs⟩ | ⟨values, hargs⟩ | ⟨values, arg, rest, hargs, harg⟩
  · obtain ⟨hword, hiters⟩ := hnumber values hargs
    obtain ⟨status, hrun, hle, hstatus⟩ := diffAll_numbers hword hiters targets
    have hread := diffAllArgs_numbers diffIters values
    refine ⟨status, by rw [hargs, hrun], by omega, iff_of_false (by omega) ?_, ?_⟩
    · rintro ⟨values', arg, rest, hargs', harg⟩
      rw [← hargs, hargs', diffAllArgs_unknown _ _ harg] at hread
      exact nomatch hread
    · rw [hstatus]
      have hagrees : (∀ t ∈ targets, t.computeH = true →
          t.Runs (strtol (chosenIters diffIters values)) ∧
          t.Agrees 0x1234567 (strtol (chosenIters diffIters values))) ↔
          ∀ t ∈ targets, t.computeH = true → t.Runs (strtol (chosenIters diffIters values)) ∧
            t.Folds (bpfCompute t) 0x1234567 (strtol (chosenIters diffIters values)) := by
        refine forall_congr' fun t => forall_congr' fun ht => forall_congr' fun _ => ?_
        rw [agrees_iff_folds hiters (hbody t ht)]
      rw [hagrees]
      refine ⟨fun hall => ⟨values, hargs, hall⟩, ?_⟩
      rintro ⟨values', hargs', hall⟩
      rw [chosenIters_congr diffIters (hargs.symm.trans hargs')]
      exact hall
  · have hread : diffAllArgs args (defaultIters diffIters) = .error 1 := by
      rw [hargs, diffAllArgs_missing]
    refine ⟨1, by rw [diffAll, hread], by omega, iff_of_false (by omega) ?_,
      iff_of_false (by omega) fun ⟨values', h, _⟩ => hno values' hread h⟩
    rintro ⟨values', arg, rest, hargs', harg⟩
    rw [hargs', diffAllArgs_unknown _ _ harg] at hread
    exact absurd (Except.error.inj hread) (by decide)
  · have hread : diffAllArgs args (defaultIters diffIters) = .error 2 := by
      rw [hargs, diffAllArgs_unknown _ _ harg]
    exact ⟨2, by rw [diffAll, hread], le_rfl, iff_of_true rfl ⟨values, arg, rest, hargs, harg⟩,
      iff_of_false (by omega) fun ⟨values', h, _⟩ => hno values' hread h⟩

/-- A target whose compilations differ in the upper half of the second result. -/
def sample : Target where
  computeH := true
  nativeFlags := true
  diffBuild := true
  cc := true
  diffCompute := fun xs => xs.headD 0
  nativeOpens := true
  nativeBroken := none
  nativeKept := 16
  guest := .halted
  emitOpens := true
  emitBroken := none
  libbpf := ⟨true, true, fun _ _ => true, fun _ => true⟩
  prog := defaultDiffBody fun xs => xs.headD 0 <<< 32
  emitKept := 16

/-- The same target with a native driver that a signal ends. -/
def crashing : Target := { sample with nativeBroken := some ⟨139, by decide⟩ }

lemma prog_sample {t : Target} (h : t = sample ∨ t = crashing) :
    t.prog = defaultDiffBody fun xs => xs.headD 0 <<< 32 := by
  rcases h with rfl | rfl <;> rfl

/-- One target that agrees, with two numbers of which the second counts, and a crash beside it. -/
theorem diffAll_agrees_sample :
    diffAll none ["--iters".toList, "9".toList, "--iters".toList, "0x2".toList] [sample] = some 0 ∧
    diffAll none ["--iters".toList, "2".toList] [sample, crashing] = some 1 := by
  have hword (numbers : List Text) (h : chosenIters none numbers = "0x2".toList ∨
      chosenIters none numbers = "2".toList) : ∀ values, optionWords numbers = optionWords values →
      shellWord (chosenIters none values) = true ∧
      strtol (chosenIters none values) * 4 < 2 ^ 63 := by
    intro values heq
    have htwo : shellWord (chosenIters none numbers) = true ∧
        strtol (chosenIters none numbers) = 2 := by
      rcases h with h | h <;> rw [h] <;> exact ⟨rfl, rfl⟩
    rw [← chosenIters_congr none heq, htwo.2]
    exact ⟨htwo.1, by norm_num⟩
  constructor
  · obtain ⟨status, hrun, -, -, hstatus⟩ := diffAll_agrees
      (hword ["9".toList, "0x2".toList] (.inl rfl)) (fun _ xs => xs.headD 0 <<< 32)
      (List.forall_mem_singleton.mpr (prog_sample (.inl rfl)))
    have hzero : status = 0 := by
      refine hstatus.mpr ⟨_, rfl, List.forall_mem_singleton.mpr fun _ => ⟨?_, ?_⟩⟩
      · exact ⟨rfl, rfl, rfl, rfl, rfl, rfl, rfl, rfl, rfl, rfl, fun _ _ => ⟨fun _ _ => rfl, rfl⟩⟩
      · intro it hit
        have hlt : it < 2 := hit
        interval_cases it
        · decide
        · decide
    rw [← hzero]
    exact hrun
  · obtain ⟨status, hrun, hle, htwo, hstatus⟩ := diffAll_agrees
      (hword ["2".toList] (.inr rfl)) (fun _ xs => xs.headD 0 <<< 32)
      (List.forall_mem_cons.mpr ⟨prog_sample (.inl rfl),
        List.forall_mem_singleton.mpr (prog_sample (.inr rfl))⟩)
    have hne0 : status ≠ 0 := fun hzero => by
      obtain ⟨_, -, hall⟩ := hstatus.mp hzero
      exact nomatch (hall crashing (by simp) rfl).1.nativeReturns
    have hne2 : status ≠ 2 := fun h2 => by
      obtain ⟨values, arg, rest, heq, harg⟩ := htwo.mp h2
      have hread := diffAllArgs_unknown values rest harg (defaultIters none)
      rw [← heq] at hread
      exact nomatch hread
    obtain rfl : status = 1 := by omega
    exact hrun

end BpfVerify.DiffRun
