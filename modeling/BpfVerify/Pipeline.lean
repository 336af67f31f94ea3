import BpfVerify.Veristat

/-!
# Results of a pipeline run

`main` of `pipeline.py` from the compiled objects to `results.json`. What the tools answer is
the `Host`; the parsed `results.json` is the value itself. No results are written where the
script exits before or ends in an uncaught exception.
-/
namespace BpfVerify.Pipeline
open Python Json Execution Veristat

structure Host where
  /-- The output directory. -/
  output : Text
  /-- `compile_harness` on a target: its success and error lines, `none` where the target is
  skipped for want of a source. -/
  compileHarness : Text → Option (Bool × List Text)
  veristatIsFile : Bool
  /-- The split of the object files into batches. -/
  split : List Text → Option (List (List Text))
  batchOutcome : ℕ → BatchOutcome
  /-- `capture_verifier_log` on a target's object. -/
  captureVerifierLog : Text → Text
  runnerAvailable : Bool
  runnerProcess : RunnerProcess
  /-- `collect_meta`. -/
  collectMeta : Json
  /-- The value of a Unicode decimal digit. -/
  digit : Char → Option ℕ

namespace Host

def objectPath (host : Host) (name : Text) : Text := host.output ++ ['/'] ++ objectName name

/-- `compiled_ok`, by name. -/
def compiledOk (host : Host) (targets : List (Text × Json)) : List Text :=
  (targets.map Prod.fst).filter fun name =>
    match host.compileHarness name with
    | some (ok, _) => ok
    | none => false

def firstError : List Text → Text
  | [] => "unknown error".toList
  | error :: _ => error.take 200

/-- `compiled_fail`. -/
def compiledFail (host : Host) (targets : List (Text × Json)) : List (Text × Text) :=
  (targets.map Prod.fst).filterMap fun name =>
    match host.compileHarness name with
    | some (false, errors) => some (name, firstError errors)
    | _ => none

end Host

/-- `rows.get(f"{name}.bpf.o", {}).get("verdict") == "success"`. -/
def verified (rows : Rows) (name : Text) : Bool :=
  (((get? (objectName name) rows).getD []) |> get? "verdict".toList |>.getD .null).isStr "success"

/-- `exec_objs`, by name. -/
def execObjs (targets : List (Text × Json)) (rows : Rows) (ok : List Text) : Option (List Text) :=
  ok.filterM fun name => do
    let execute ← (← get? name targets).get "execute"
    return execute.truthy && verified rows name

/-- The summary line of an executed target shows `r['cases'][:1]`, which needs a list or a
string. -/
def printable (r : Json) : Option Unit := do
  if !(← r.get "executed").truthy then return ()
  if !(← r.get "failures").truthy then return ()
  match ← r.item "cases" with
  | .arr _ => return ()
  | .str _ => return ()
  | _ => none

/-- The expected-failure part of a result entry. -/
def matchBoundary (ran : Bool) (pattern : Json) (log : Text) (entry : List (Text × Json)) :
    Option (List (Text × Json)) :=
  if !pattern.truthy then some entry
  else
    let entry := set "expect_failure".toList pattern entry
    if ran && ((get? "verdict".toList entry).getD .null).isStr "failure" then
      match pattern with
      | .str p =>
        let entry := set "expect_failure_matched".toList (.bool (decide (p <:+: log))) entry
        let line := (splitlines log).find? fun l => decide (p <:+: l)
        some (set "failure_line".toList ((line.map fun l => Json.str (strip l)).getD .null) entry)
      | _ => none
    else some entry

/-- The result entry of a compiled target with configuration `cfg`. -/
def resultEntry (v : Verification) (execResults : List (Text × Json)) (log : Text) (name : Text)
    (cfg : Json) : Option Json := do
  let row := (get? (objectName name) v.rows).getD [("verdict".toList, .null)]
  let entry := update [("compiled".toList, .bool true), ("suite".toList, ← cfg.item "suite")] row
  let entry ← matchBoundary v.ran (← cfg.get "expect_failure") log entry
  match get? name execResults with
  | some r => return .obj (set "execution".toList r entry)
  | none => return .obj entry

def failedEntry (error : Text) : Json :=
  .obj [("compiled".toList, .bool false), ("error".toList, .str error)]

/-- `results["targets"]`. -/
def resultTargets (host : Host) (targets : List (Text × Json)) (v : Verification)
    (execResults : List (Text × Json)) : Option (List (Text × Json)) := do
  let compiled ← (host.compiledOk targets).mapM fun name => do
    let entry ← resultEntry v execResults (host.captureVerifierLog name) name (← get? name targets)
    return (name, entry)
  let failed := (host.compiledFail targets).map fun p => (p.1, failedEntry p.2)
  return update (update [] compiled) failed

/-- `results` as it is written. -/
def resultsJson (host : Host) (v : Verification) (entries : List (Text × Json)) : Json :=
  let results := [("schema".toList, Json.int 1), ("meta".toList, host.collectMeta),
    ("veristat_ran".toList, .bool v.ran), ("targets".toList, .obj entries)]
  .obj (if strip v.stderr = [] then results
    else results ++ [("veristat_stderr".toList, .str v.stderr)])

/-- The results written, for the selected `targets` and their configurations. -/
def main (host : Host) (targets : List (Text × Json)) : Option Json :=
  let ok := host.compiledOk targets
  if ok = [] then none
  else do
    let v ← runVeristat host.digit host.veristatIsFile host.split host.batchOutcome
      (ok.map host.objectPath)
    let objs ← execObjs targets v.rows ok
    let execResults ← runExecution objs host.runnerAvailable host.runnerProcess
    let _ ← execResults.mapM fun p => printable p.2
    let entries ← resultTargets host targets v execResults
    return resultsJson host v entries

/-! ## What a result entry says -/

variable {host : Host} {targets : List (Text × Json)}

lemma main_cases {results : Json} (h : main host targets = some results) :
    ∃ v execResults entries,
      runVeristat host.digit host.veristatIsFile host.split host.batchOutcome
        ((host.compiledOk targets).map host.objectPath) = some v ∧
      resultTargets host targets v execResults = some entries ∧
      results = resultsJson host v entries := by
  unfold main at h
  dsimp only at h
  split_ifs at h
  obtain ⟨v, hv, h⟩ := Option.bind_eq_some_iff.mp h
  obtain ⟨objs, -, h⟩ := Option.bind_eq_some_iff.mp h
  obtain ⟨execResults, -, h⟩ := Option.bind_eq_some_iff.mp h
  obtain ⟨-, -, h⟩ := Option.bind_eq_some_iff.mp h
  obtain ⟨entries, hentries, h⟩ := Option.bind_eq_some_iff.mp h
  exact ⟨v, execResults, entries, hv, hentries, (Option.some.inj h).symm⟩

lemma item_resultsJson (v : Verification) (entries : List (Text × Json)) :
    (resultsJson host v entries).item "targets" = some (.obj entries) ∧
    (resultsJson host v entries).getD "veristat_ran" (.bool false) = some (.bool v.ran) ∧
    (resultsJson host v entries).get "veristat_ran" = some (.bool v.ran) := by
  unfold resultsJson
  dsimp only
  split_ifs <;>
    simp only [item_obj, getD_obj, get_obj, List.cons_append, List.nil_append, get?_cons, String.toList_inj,
      String.reduceEq, if_true, if_false, Option.getD_some, and_self]

lemma mem_compiledOk {name : Text} (h : name ∈ host.compiledOk targets) :
    ∃ errors, host.compileHarness name = some (true, errors) := by
  have hok := (List.mem_filter.mp h).2
  split at hok
  · next ok errors he => exact ⟨errors, by rw [he, hok]⟩
  · simp at hok

/-- Every entry is one of a failed compilation or of a compiled target. -/
lemma mem_resultTargets {v : Verification} {execResults entries : List (Text × Json)}
    (h : resultTargets host targets v execResults = some entries) {name : Text} {t : Json}
    (hmem : (name, t) ∈ entries) :
    (∃ error, t = failedEntry error) ∨
      (∃ errors, host.compileHarness name = some (true, errors)) ∧ ∃ cfg,
        get? name targets = some cfg ∧
        resultEntry v execResults (host.captureVerifierLog name) name cfg = some t := by
  unfold resultTargets at h
  obtain ⟨compiled, hcompiled, h⟩ := Option.bind_eq_some_iff.mp h
  rw [← Option.some.inj h] at hmem
  cases mem_update hmem with
  | inr hfailed =>
    obtain ⟨p, -, hp⟩ := List.mem_map.mp hfailed
    exact .inl ⟨p.2, (congrArg Prod.snd hp).symm⟩
  | inl hmem =>
    have hmem : (name, t) ∈ compiled := by simpa using mem_update hmem
    obtain ⟨name', hok, hentry⟩ := (mapM_eq_some hcompiled).2 _ hmem
    obtain ⟨cfg, hcfg, hentry⟩ := Option.bind_eq_some_iff.mp hentry
    obtain ⟨t', ht', hentry⟩ := Option.bind_eq_some_iff.mp hentry
    have hpair : (name', t') = (name, t) := Option.some.inj hentry
    obtain ⟨rfl, rfl⟩ := Prod.mk.inj hpair
    exact .inr ⟨mem_compiledOk hok, cfg, hcfg, ht'⟩

/-- The entry before the expected failure and the execution are added to it. -/
def baseEntry (suite : Json) (row : List (Text × Json)) : List (Text × Json) :=
  update [("compiled".toList, .bool true), ("suite".toList, suite)] row

/-- A row brings its verdict and none of the keys that the pipeline adds itself. -/
lemma get?_baseEntry {digit : Char → Option ℕ} {row : List (Text × Json)} (suite : Json)
    (hrow : row = [("verdict".toList, .null)] ∨ ∃ r, row = rowOf digit r) :
    get? "verdict".toList (baseEntry suite row) = get? "verdict".toList row ∧
    get? "expect_failure".toList (baseEntry suite row) = none ∧
    get? "expect_failure_matched".toList (baseEntry suite row) = none := by
  cases hrow with
  | inl h =>
    simp only [h, baseEntry, update, List.foldl_cons, List.foldl_nil, get?_set, get?_cons, get?_nil,
      String.toList_inj, String.reduceEq, if_true, if_false, and_self]
  | inr h =>
    obtain ⟨r, h⟩ := h
    simp only [h, baseEntry, rowOf, update, List.foldl_cons, List.foldl_nil, get?_set, get?_cons,
      get?_nil, String.toList_inj, String.reduceEq, if_true, if_false, and_self]

lemma resultEntry_cases {v : Verification} {execResults : List (Text × Json)} {log name : Text}
    {cfg t : Json} (h : resultEntry v execResults log name cfg = some t) :
    ∃ suite pattern entry members, cfg.get "expect_failure" = some pattern ∧
      matchBoundary v.ran pattern log (baseEntry suite
        ((get? (objectName name) v.rows).getD [("verdict".toList, .null)])) = some entry ∧
      t = .obj members ∧
      ∀ key : String, key ≠ "execution" → get? key.toList members = get? key.toList entry := by
  unfold resultEntry at h
  obtain ⟨suite, -, h⟩ := Option.bind_eq_some_iff.mp h
  obtain ⟨pattern, hpattern, h⟩ := Option.bind_eq_some_iff.mp h
  obtain ⟨entry, hentry, h⟩ := Option.bind_eq_some_iff.mp h
  split at h
  · next r _ =>
    refine ⟨suite, pattern, entry, _, hpattern, hentry, (Option.some.inj h).symm, ?_⟩
    intro key hkey
    rw [get?_set, if_neg (by rwa [String.toList_inj])]
  · exact ⟨suite, pattern, entry, _, hpattern, hentry, (Option.some.inj h).symm, fun _ _ => rfl⟩

/-- What `expect_failure` adds: the pattern, and a match only for a failure that the log
explains. -/
lemma matchBoundary_cases {pattern : Json} {log : Text} {base entry : List (Text × Json)}
    (h : matchBoundary true pattern log base = some entry)
    (hbase : get? "expect_failure_matched".toList base = none) :
    (pattern.truthy = false ∧ entry = base) ∨
    (pattern.truthy = true ∧ get? "expect_failure".toList entry = some pattern ∧
      (((get? "expect_failure_matched".toList entry).getD .null).truthy = true →
        ((get? "verdict".toList base).getD .null).isStr "failure" = true ∧
        ∃ p, pattern = .str p ∧ p <:+: log)) := by
  unfold matchBoundary at h
  by_cases hp : pattern.truthy = true
  · right
    simp only [hp, Bool.not_true, Bool.false_eq_true, if_false, Bool.true_and, get?_set,
      String.toList_inj, String.reduceEq] at h
    split_ifs at h with hv
    · cases pattern with
      | str p =>
        simp only [Option.some.injEq] at h
        refine ⟨hp, ?_, ?_⟩
        · simp only [← h, get?_set, String.toList_inj, String.reduceEq, if_true, if_false]
        · intro hm
          simp only [← h, get?_set, String.toList_inj, String.reduceEq, if_true, if_false,
            Option.getD_some, truthy, decide_eq_true_eq] at hm
          exact ⟨hv, p, rfl, hm⟩
      | _ => simp at h
    · simp only [Option.some.injEq] at h
      refine ⟨hp, ?_, ?_⟩
      · simp only [← h, get?_set, if_true]
      · intro hm
        simp only [← h, get?_set, String.toList_inj, String.reduceEq, if_false, hbase,
          Option.getD_none, truthy, Bool.false_eq_true] at hm
  · left
    simp only [Bool.not_eq_true] at hp
    simp only [hp, Bool.not_false, if_true, Option.some.injEq] at h
    exact ⟨hp, h.symm⟩

end BpfVerify.Pipeline
