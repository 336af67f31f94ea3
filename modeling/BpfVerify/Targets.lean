import BpfVerify.Pipeline
import BpfVerify.ShimDrift
import BpfVerify.Templates

/-!
# Targets

`pipeline.py` before the compiler runs: the directories of the targets, the selection by suites, and
the text of a harness file. `tools/diff_build.py` builds its harness from the same directories. A
result is `none` where the script ends in an exception or with an error message.
-/
namespace BpfVerify.Targets
open Python Json Regex Templates Veristat Pipeline
open ShimDrift (Alphabet callPattern)

/-! ## Suites -/

/-- `TARGET_SUITES`. -/
inductive Suite where
  | compat
  | coverage
  | proof
  deriving DecidableEq

namespace Suite

instance : Fintype Suite := ⟨{compat, coverage, proof}, fun s => by cases s <;> decide⟩

def name : Suite → Text
  | compat => "compat".toList
  | coverage => "coverage".toList
  | proof => "proof".toList

def ofName? (t : Text) : Option Suite := [compat, coverage, proof].find? fun s => s.name = t

end Suite

def defaultHarnessBody : Text := "    return 0;".toList

/-- `re.search(r"\bBPF_PROVE\s*\(", harness_body)` is the second test. -/
def classifySuite (u : Alphabet) (name harnessBody : Text) : Suite :=
  if "_prove".toList <:+ name ∨
      finditer (callPattern u "BPF_PROVE".toList).matchLen harnessBody ≠ [] then .proof
  else if strip harnessBody ≠ [] ∧ strip harnessBody ≠ strip defaultHarnessBody then .coverage
  else .compat

/-- The loop over the pieces of the values, with the suites selected so far. -/
def selectPieces : List Text → Finset Suite → Except Text (Finset Suite)
  | [], selected => .ok (if selected = ∅ then Finset.univ else selected)
  | raw :: rest, selected =>
    let suite := strip raw
    if suite = [] then selectPieces rest selected
    else if suite = "all".toList then .ok Finset.univ
    else
      match Suite.ofName? suite with
      | some s => selectPieces rest (insert s selected)
      | none => .error ("unknown suite '".toList ++ suite ++
          "' (choose from all, compat, coverage, proof)".toList)

def parseSuiteSelection (values : List Text) : Except Text (Finset Suite) :=
  selectPieces (values.flatMap fun value => value.splitOn ',') ∅

/-! ## The target directories -/

/-- The files of `targets/<name>/`, `none` for one that does not exist. -/
structure TargetDir where
  config : Option Text
  harness : Option Text
  preInclude : Option Text
  preamble : Option Text

structure Tree where
  order : Text
  dirs : Text → Option TargetDir
  /-- The files of `targets/_shared/`. -/
  shared : Text → Option Text

/-- `cfg[key] = value`. -/
def setItem (key : String) (value : Json) : Json → Option Json
  | .obj members => some (.obj (set key.toList value members))
  | _ => none

/-- What a loop over a value goes through. -/
def iterate : Json → Option (List Json)
  | .arr xs => some xs
  | .str s => some (s.map fun c => .str [c])
  | .obj members => some (members.map fun p => .str p.1)
  | _ => none

def asText : Json → Option Text
  | .str s => some s
  | _ => none

def readConfig (dir : TargetDir) : Option Json :=
  match dir.config with
  | some text => loads text
  | none => some (.obj [])

def readShared (tree : Tree) (cfg : Json) : Option (List Text) := do
  let snippets ← iterate (← cfg.getD "pre_include_shared" (.arr []))
  snippets.mapM fun snippet => (asText snippet).bind tree.shared

def loadTarget (u : Alphabet) (tree : Tree) (name : Text) : Option Json := do
  let dir ← tree.dirs name
  let cfg ← readConfig dir
  let harnessBody := dir.harness.getD defaultHarnessBody
  let cfg ← setItem "harness_body" (.str harnessBody) cfg
  let snippets ← readShared tree cfg
  let cfg ← setItem "pre_include" (.str (snippets.flatten ++ dir.preInclude.getD [])) cfg
  let cfg ← setItem "preamble" (.str (dir.preamble.getD [])) cfg
  let suite ← cfg.get "suite"
  setItem "suite" (if suite.truthy then suite else .str (classifySuite u name harnessBody).name) cfg

/-- The lines of `targets/ORDER`. The test for `#` is made before the line is stripped. -/
def loadOrder (text : Text) : List Text :=
  ((splitlines text).filter fun line => strip line ≠ [] ∧ line.head? ≠ some '#').map strip

def loadTargets (u : Alphabet) (tree : Tree) : Option (List (Text × Json)) :=
  let order := loadOrder tree.order
  if ¬ order.Nodup then none
  else order.mapM fun name => (loadTarget u tree name).map fun cfg => (name, cfg)

/-- `cfg["suite"] in selected_suites`; a list and a dictionary cannot be looked up in a set. -/
def inSuites (selected : Finset Suite) : Json → Option Bool
  | .str t => some (decide (∃ s ∈ selected, s.name = t))
  | .arr _ => none
  | .obj _ => none
  | _ => some false

/-- The filter of `main`, which is left out when all suites are selected. -/
def selectTargets (selected : Finset Suite) (targets : List (Text × Json)) :
    Option (List (Text × Json)) :=
  if selected ≠ Finset.univ then
    targets.filterM fun p => (p.2.item "suite").bind (inSuites selected)
  else some targets

/-- `main` with the values of `--suite`. -/
def run (u : Alphabet) (host : Host) (tree : Tree) (values : List Text) : Option Json := do
  let selected ← (parseSuiteSelection values).toOption
  let targets ← loadTargets u tree
  Pipeline.main host (← selectTargets selected targets)

/-! ## Harness files -/

/-- The paths of the pipeline, and what it asks of the file system. -/
structure Paths where
  ksrc : Text
  shim : Text
  /-- `str(Path(p))`. -/
  normal : Text → Text
  isThere : Text → Bool

def Paths.subst (paths : Paths) (s : Text) : Text :=
  replaceAll "\x7bshim\x7d".toList paths.shim (replaceAll "\x7bksrc\x7d".toList paths.ksrc s)

def resolveCandidates (paths : Paths) (candidates : Json) : Option Text := do
  let resolved ← (← iterate candidates).mapM fun p =>
    (asText p).map fun p => paths.normal (paths.subst p)
  match resolved with
  | [] => none
  | [p] => some p
  | p :: rest => some (((p :: rest).find? paths.isThere).getD p)

/-- The fields of `targets/harness_template.c`. -/
inductive Field where
  | srcName
  | srcPath
  | safeName
  | harnessBody
  | extraIncludes
  | extraPreInclude
  | extraPreamble
  deriving DecidableEq

namespace Field

def name : Field → Text
  | srcName => "SRC_NAME".toList
  | srcPath => "SRC_PATH".toList
  | safeName => "SAFE_NAME".toList
  | harnessBody => "HARNESS_BODY".toList
  | extraIncludes => "EXTRA_INCLUDES".toList
  | extraPreInclude => "EXTRA_PRE_INCLUDE".toList
  | extraPreamble => "EXTRA_PREAMBLE".toList

/-- The fields in the order in which they are replaced. -/
def order : List Field :=
  [srcName, srcPath, safeName, harnessBody, extraIncludes, extraPreInclude, extraPreamble]

end Field

def safeNameOf (t : Text) : Text := replaceAll ['.'] ['_'] (replaceAll ['-'] ['_'] t)

def includeLines (includes : List Text) : Text :=
  ['\n'].intercalate (includes.map fun p => "#include \"".toList ++ p ++ ['"'])

def extraIncludesOf (paths : Paths) (cfg : Json) : Option (List Text) := do
  (← iterate (← cfg.getD "extra_includes" (.arr []))).mapM (resolveCandidates paths)

/-- The text for each field. -/
def fieldText (paths : Paths) (srcName srcPath : Text) (includes : List Text)
    (body pre preamble : Text) : Field → Text
  | .srcName => srcName
  | .srcPath => srcPath
  | .safeName => safeNameOf srcName
  | .harnessBody => body
  | .extraIncludes => includeLines includes
  | .extraPreInclude => paths.subst pre
  | .extraPreamble => preamble

/-- The harness file when the fields are replaced in this order. -/
def harnessContentIn (order : List Field) (paths : Paths) (template srcName srcPath : Text)
    (cfg : Json) : Option Text := do
  let includes ← extraIncludesOf paths cfg
  let body ← asText (← cfg.item "harness_body")
  let pre ← asText (← cfg.item "pre_include")
  let preamble ← asText (← cfg.item "preamble")
  return fillAll (token '@' Field.name) (fieldText paths srcName srcPath includes body pre preamble)
    order template

/-- The harness file that `compile_harness` writes. -/
def harnessContent (paths : Paths) (template srcName srcPath : Text) (cfg : Json) : Option Text :=
  harnessContentIn Field.order paths template srcName srcPath cfg

/-- `DEFAULT_DIFF_BODY`. -/
def defaultDiffBody : Text :=
  ("    __u32 k;\n    __u64 in[4];\n    __u64 *p;\n" ++
    "    k = 0; p = bpf_map_lookup_elem(&input_map, &k); in[0] = p ? *p : 0;\n" ++
    "    k = 1; p = bpf_map_lookup_elem(&input_map, &k); in[1] = p ? *p : 0;\n" ++
    "    k = 2; p = bpf_map_lookup_elem(&input_map, &k); in[2] = p ? *p : 0;\n" ++
    "    k = 3; p = bpf_map_lookup_elem(&input_map, &k); in[3] = p ? *p : 0;\n" ++
    "    __u64 r = diff_compute(in);\n    return (int)(__u32)(r ^ (r >> 32));\n").toList

/-- The files of `diff/<name>/`. -/
structure DiffDir where
  compute : Text
  base : Option Text
  harness : Option Text

/-- The configuration that `tools/diff_build.py` compiles. -/
def diffConfig (u : Alphabet) (tree : Tree) (name : Text) (dir : DiffDir) : Option Json := do
  let cfg ← loadTarget u tree ((dir.base.map strip).getD name)
  let cfg ← setItem "harness_body" (.str (dir.harness.getD defaultDiffBody)) cfg
  let preamble ← asText (← cfg.getD "preamble" (.str []))
  setItem "preamble" (.str (preamble ++ ['\n'] ++ dir.compute)) cfg

/-! ## Runs by suites -/

lemma suite_name_injective : Function.Injective Suite.name := by
  intro s s' h
  cases s <;> cases s' <;> first | rfl | exact absurd h (by decide)

lemma parse_single (s : Suite) : parseSuiteSelection [s.name] = .ok {s} := by
  cases s <;> rfl

lemma single_ne_univ (s : Suite) : ({s} : Finset Suite) ≠ Finset.univ := by
  cases s <;> decide

lemma inSuites_eq_some_true {selected : Finset Suite} {v : Json} :
    inSuites selected v = some true ↔ ∃ s ∈ selected, v = .str s.name := by
  cases v with
  | str t =>
    rw [inSuites, Option.some.injEq, decide_eq_true_eq]
    simp only [Json.str.injEq, eq_comm]
  | _ => simp [inSuites]

variable {u : Alphabet} {host : Host} {tree : Tree} {targets chosen : List (Text × Json)}
  {selected : Finset Suite} {values : List Text} {results : Json}

/-- The suite of a configuration is among those selected. -/
def InSuites (selected : Finset Suite) (cfg : Json) : Prop :=
  ∃ s ∈ selected, cfg.item "suite" = some (.str s.name)

lemma mem_selectTargets (h : selectTargets selected targets = some chosen) {p : Text × Json} :
    p ∈ chosen ↔ p ∈ targets ∧ (selected = Finset.univ ∨ InSuites selected p.2) := by
  rw [selectTargets] at h
  split_ifs at h with hall
  · obtain ⟨rfl, -⟩ := filterM_eq_some h
    rw [List.mem_filter, decide_eq_true_eq, or_iff_right hall, Option.bind_eq_some_iff, InSuites]
    simp only [inSuites_eq_some_true]
    refine and_congr_right fun _ => ?_
    constructor
    · rintro ⟨v, hv, s, hs, rfl⟩
      exact ⟨s, hs, hv⟩
    · rintro ⟨s, hs, hv⟩
      exact ⟨_, hv, s, hs, rfl⟩
  · rw [← Option.some.inj h, and_iff_left (.inl (not_not.mp hall))]

lemma mem_compiledOk_iff {name : Text} : name ∈ host.compiledOk targets ↔
    name ∈ targets.map Prod.fst ∧ ∃ errors, host.compileHarness name = some (true, errors) := by
  refine ⟨fun h => ⟨List.mem_of_mem_filter h, mem_compiledOk h⟩, ?_⟩
  rintro ⟨hmem, errors, hok⟩
  exact List.mem_filter.mpr ⟨hmem, by rw [hok]⟩

lemma mem_compiledFail_iff {name : Text} : name ∈ (host.compiledFail targets).map Prod.fst ↔
    name ∈ targets.map Prod.fst ∧ ∃ errors, host.compileHarness name = some (false, errors) := by
  simp only [Host.compiledFail, List.mem_map, List.mem_filterMap]
  constructor
  · rintro ⟨⟨name', error⟩, ⟨name'', hmem, hfail⟩, rfl⟩
    split at hfail
    · next errors he =>
      obtain ⟨rfl, -⟩ := Prod.mk.inj (Option.some.inj hfail)
      exact ⟨hmem, errors, he⟩
    · exact absurd hfail (Option.some_ne_none _).symm
  · rintro ⟨hmem, errors, he⟩
    exact ⟨(name, Host.firstError errors), ⟨name, hmem, by rw [he]⟩, rfl⟩

/-- The results have an entry for each target that is not skipped. -/
lemma main_names (h : Pipeline.main host targets = some results) : ∃ entries,
    results.item "targets" = some (.obj entries) ∧ ∀ name, name ∈ entries.map Prod.fst ↔
      name ∈ targets.map Prod.fst ∧ host.compileHarness name ≠ none := by
  obtain ⟨v, execResults, entries, -, hentries, rfl⟩ := main_cases h
  refine ⟨entries, (item_resultsJson v entries).1, fun name => ?_⟩
  obtain ⟨compiled, hcompiled, hentries⟩ := Option.bind_eq_some_iff.mp hentries
  obtain ⟨hall, hback⟩ := mapM_eq_some hcompiled
  have hnames : name ∈ compiled.map Prod.fst ↔ name ∈ host.compiledOk targets := by
    constructor
    · intro hmem
      obtain ⟨p, hp, rfl⟩ := List.mem_map.mp hmem
      obtain ⟨name', hok, hentry⟩ := hback p hp
      obtain ⟨cfg, -, hentry⟩ := Option.bind_eq_some_iff.mp hentry
      obtain ⟨t, -, hentry⟩ := Option.bind_eq_some_iff.mp hentry
      exact (congrArg Prod.fst (Option.some.inj hentry)) ▸ hok
    · intro hok
      obtain ⟨p, hp, hentry⟩ := hall name hok
      obtain ⟨cfg, -, hentry⟩ := Option.bind_eq_some_iff.mp hentry
      obtain ⟨t, -, hentry⟩ := Option.bind_eq_some_iff.mp hentry
      exact List.mem_map.mpr ⟨p, hp, (congrArg Prod.fst (Option.some.inj hentry)).symm⟩
  have hfailed : ((host.compiledFail targets).map fun p => (p.1, failedEntry p.2)).map Prod.fst =
      (host.compiledFail targets).map Prod.fst := by
    rw [List.map_map]
    rfl
  rw [← Option.some.inj hentries, keys_update, keys_update, hfailed, hnames, mem_compiledOk_iff,
    mem_compiledFail_iff, List.map_nil, or_iff_right List.not_mem_nil, ← and_or_left]
  refine and_congr_right fun _ => ?_
  constructor
  · rintro (⟨errors, he⟩ | ⟨errors, he⟩)
    · exact he ▸ Option.some_ne_none _
    · exact he ▸ Option.some_ne_none _
  · intro hne
    obtain ⟨⟨ok, errors⟩, he⟩ := Option.ne_none_iff_exists'.mp hne
    cases ok with
    | true => exact .inl ⟨errors, he⟩
    | false => exact .inr ⟨errors, he⟩

/-! ## A target as it is loaded -/

/-- What `target.json` says about the suite. -/
def pinned (config : List (Text × Json)) : Json := (get? "suite".toList config).getD .null

def suiteOf (u : Alphabet) (name : Text) (dir : TargetDir) (config : List (Text × Json)) : Json :=
  if (pinned config).truthy then pinned config
  else .str (classifySuite u name (dir.harness.getD defaultHarnessBody)).name

/-- The members of a configuration, from its directory and the shared snippets. -/
def loaded (u : Alphabet) (name : Text) (dir : TargetDir) (config : List (Text × Json))
    (snippets : List Text) : List (Text × Json) :=
  set "suite".toList (suiteOf u name dir config) <|
    set "preamble".toList (.str (dir.preamble.getD [])) <|
      set "pre_include".toList (.str (snippets.flatten ++ dir.preInclude.getD [])) <|
        set "harness_body".toList (.str (dir.harness.getD defaultHarnessBody)) config

variable {name : Text} {dir : TargetDir} {config : List (Text × Json)} {snippets : List Text}

lemma get?_loaded (key : String) : get? key.toList (loaded u name dir config snippets) =
    if key = "suite" then some (suiteOf u name dir config)
    else if key = "preamble" then some (.str (dir.preamble.getD []))
    else if key = "pre_include" then
      some (.str (snippets.flatten ++ dir.preInclude.getD []))
    else if key = "harness_body" then some (.str (dir.harness.getD defaultHarnessBody))
    else get? key.toList config := by
  simp only [loaded, get?_set, String.toList_inj]

lemma readShared_set {value : Json} :
    readShared tree (.obj (set "harness_body".toList value config)) =
      readShared tree (.obj config) := by
  simp only [readShared, getD_obj, get?_set, String.toList_inj, String.reduceEq, if_false]

lemma loadTarget_of_dir (hdir : tree.dirs name = some dir)
    (hconfig : readConfig dir = some (.obj config))
    (hshared : readShared tree (.obj config) = some snippets) :
    loadTarget u tree name = some (.obj (loaded u name dir config snippets)) := by
  simp only [loadTarget, hdir, hconfig, setItem, Option.bind_eq_bind, Option.bind_some,
    readShared_set, hshared, get_obj, get?_set, String.toList_inj, String.reduceEq, if_false]
  rfl

lemma exists_dir {cfg : Json} (h : loadTarget u tree name = some cfg) :
    ∃ dir config snippets, tree.dirs name = some dir ∧ readConfig dir = some (.obj config) ∧
      readShared tree (.obj config) = some snippets ∧
      cfg = .obj (loaded u name dir config snippets) := by
  have hload := h
  obtain ⟨dir, hdir, h⟩ := Option.bind_eq_some_iff.mp h
  obtain ⟨cfg₀, hcfg₀, h⟩ := Option.bind_eq_some_iff.mp h
  obtain ⟨cfg₁, hcfg₁, h⟩ := Option.bind_eq_some_iff.mp h
  obtain ⟨snippets, hsnippets, -⟩ := Option.bind_eq_some_iff.mp h
  cases cfg₀ with
  | obj config =>
    rw [setItem, Option.some.injEq] at hcfg₁
    rw [← hcfg₁, readShared_set] at hsnippets
    refine ⟨dir, config, snippets, hdir, hcfg₀, hsnippets, ?_⟩
    exact Option.some.inj (hload.symm.trans (loadTarget_of_dir hdir hcfg₀ hsnippets))
  | _ => exact absurd hcfg₁ (Option.some_ne_none _).symm

/-- The names are those of the order file, without repetition. -/
lemma loadTargets_eq_some (h : loadTargets u tree = some targets) :
    (targets.map Prod.fst).Nodup ∧ ∀ p ∈ targets, loadTarget u tree p.1 = some p.2 := by
  rw [loadTargets] at h
  split_ifs at h with hnodup
  have hpair {name : Text} {p : Text × Json}
      (hp : (loadTarget u tree name).map (fun cfg => (name, cfg)) = some p) :
      p.1 = name ∧ loadTarget u tree name = some p.2 := by
    obtain ⟨cfg, hcfg, rfl⟩ := Option.map_eq_some_iff.mp hp
    exact ⟨rfl, hcfg⟩
  constructor
  · suffices hfst : targets.map Prod.fst = loadOrder tree.order by rwa [hfst]
    clear hnodup
    generalize loadOrder tree.order = names at h
    induction names generalizing targets with
    | nil =>
      rw [List.mapM_nil] at h
      rw [← Option.some.inj h, List.map_nil]
    | cons name names ih =>
      rw [List.mapM_cons] at h
      obtain ⟨p, hp, h⟩ := Option.bind_eq_some_iff.mp h
      obtain ⟨rest, hrest, h⟩ := Option.bind_eq_some_iff.mp h
      rw [← Option.some.inj h, List.map_cons, (hpair hp).1, ih hrest]
  · intro p hp
    obtain ⟨name, -, hname⟩ := (mapM_eq_some h).2 p hp
    obtain ⟨hfst, hload⟩ := hpair hname
    rwa [hfst]

/-- The targets of a run, by name. -/
lemma run_names (hrun : run u host tree values = some results) : ∃ selected targets entries,
    parseSuiteSelection values = .ok selected ∧ loadTargets u tree = some targets ∧
    results.item "targets" = some (.obj entries) ∧ ∀ name, name ∈ entries.map Prod.fst ↔
      host.compileHarness name ≠ none ∧
        ∃ cfg, (name, cfg) ∈ targets ∧ (selected = Finset.univ ∨ InSuites selected cfg) := by
  obtain ⟨selected, hselected, hrun⟩ := Option.bind_eq_some_iff.mp hrun
  obtain ⟨targets, htargets, hrun⟩ := Option.bind_eq_some_iff.mp hrun
  obtain ⟨chosen, hchosen, hrun⟩ := Option.bind_eq_some_iff.mp hrun
  obtain ⟨entries, hentries, hnames⟩ := main_names hrun
  refine ⟨selected, targets, entries, ?_, htargets, hentries, fun name => ?_⟩
  · cases hparse : parseSuiteSelection values with
    | ok s =>
      rw [hparse] at hselected
      exact congrArg Except.ok (Option.some.inj hselected)
    | error msg =>
      rw [hparse] at hselected
      exact absurd hselected (Option.some_ne_none _).symm
  · rw [hnames, and_comm]
    refine and_congr_right fun _ => ?_
    rw [List.mem_map]
    constructor
    · rintro ⟨p, hp, rfl⟩
      exact ⟨p.2, (mem_selectTargets hchosen).mp hp⟩
    · rintro ⟨cfg, hcfg⟩
      exact ⟨(name, cfg), (mem_selectTargets hchosen).mpr hcfg, rfl⟩

/-- Runs of one suite each, against a run of all, whatever the tools answer in each: the runs only
find the same sources. No target is in two of them, and those that are in none are the ones whose
`target.json` pins something that is no suite. -/
theorem suite_runs_partition (u : Alphabet) (host : Host) (hosts : Suite → Host) (tree : Tree)
    (hskip : ∀ s name, (hosts s).compileHarness name = none ↔ host.compileHarness name = none)
    {full : Json} {single : Suite → Json} (hfull : run u host tree [] = some full)
    (hsingle : ∀ s, run u (hosts s) tree [s.name] = some (single s)) :
    ∃ entries, ∃ part : Suite → List (Text × Json),
      full.item "targets" = some (.obj entries) ∧
      (∀ s, (single s).item "targets" = some (.obj (part s))) ∧
      (∀ s, ∀ name ∈ (part s).map Prod.fst, name ∈ entries.map Prod.fst) ∧
      (∀ s s' name, name ∈ (part s).map Prod.fst → name ∈ (part s').map Prod.fst → s = s') ∧
      ∀ name ∈ entries.map Prod.fst, ∃ dir config, tree.dirs name = some dir ∧
        readConfig dir = some (.obj config) ∧ ((∃ s, name ∈ (part s).map Prod.fst) ↔
          ((pinned config).truthy = true → ∃ s : Suite, pinned config = .str s.name)) := by
  obtain ⟨selected, targets, entries, hselected, hload, hentries, hnames⟩ := run_names hfull
  have hall : selected = Finset.univ := (Except.ok.inj hselected).symm
  obtain ⟨hnodup, hcfg⟩ := loadTargets_eq_some hload
  have hone (s : Suite) : ∃ part, (single s).item "targets" = some (.obj part) ∧
      ∀ name, name ∈ part.map Prod.fst ↔ host.compileHarness name ≠ none ∧
        ∃ cfg, (name, cfg) ∈ targets ∧ cfg.item "suite" = some (.str s.name) := by
    obtain ⟨selected', targets', part, hselected', hload', hpart, hpnames⟩ := run_names (hsingle s)
    obtain rfl : targets = targets' := Option.some.inj (hload.symm.trans hload')
    obtain rfl : {s} = selected' := Except.ok.inj ((parse_single s).symm.trans hselected')
    refine ⟨part, hpart, fun name => ?_⟩
    rw [hpnames, Ne, hskip]
    simp only [single_ne_univ, false_or, InSuites, Finset.mem_singleton, exists_eq_left]
  choose part hpart hpnames using hone
  refine ⟨entries, part, hentries, hpart, ?_, ?_, ?_⟩
  · intro s name hmem
    obtain ⟨hne, cfg, hmem, -⟩ := (hpnames s name).mp hmem
    exact (hnames name).mpr ⟨hne, cfg, hmem, .inl hall⟩
  · intro s s' name hs hs'
    obtain ⟨-, cfg, hmem, hsuite⟩ := (hpnames s name).mp hs
    obtain ⟨-, cfg', hmem', hsuite'⟩ := (hpnames s' name).mp hs'
    obtain rfl : cfg = cfg' := Option.some.inj
      ((get?_of_mem hnodup hmem).symm.trans (get?_of_mem hnodup hmem'))
    exact suite_name_injective (Json.str.inj (Option.some.inj (hsuite.symm.trans hsuite')))
  · intro name hmem
    obtain ⟨hne, cfg, hmem, -⟩ := (hnames name).mp hmem
    have hloaded : loadTarget u tree name = some cfg := hcfg _ hmem
    obtain ⟨dir, config, snippets, hdir, hconfig, -, heq⟩ := exists_dir hloaded
    refine ⟨dir, config, hdir, hconfig, ?_⟩
    have hsuite : cfg.item "suite" = some (suiteOf u name dir config) := by
      rw [heq, item_obj, get?_loaded, if_pos rfl]
    have hin (s : Suite) : name ∈ (part s).map Prod.fst ↔
        suiteOf u name dir config = .str s.name := by
      rw [hpnames, and_iff_right hne]
      constructor
      · rintro ⟨cfg', hmem', hsuite'⟩
        obtain rfl : cfg = cfg' := Option.some.inj
          ((get?_of_mem hnodup hmem).symm.trans (get?_of_mem hnodup hmem'))
        exact Option.some.inj (hsuite.symm.trans hsuite')
      · exact fun heq => ⟨cfg, hmem, heq ▸ hsuite⟩
    simp only [hin, suiteOf]
    split_ifs with htruthy
    · simp only [htruthy, forall_const]
    · exact iff_of_true ⟨_, rfl⟩ fun h => absurd h htruthy

/-- A target of each suite, told by its harness and its name, and one with a suite of its own. -/
def fourTargets : Tree where
  order := "gcd\nsort\nverifier_prove\nlegacy\n".toList
  dirs name := some
    { config := if name = "legacy".toList then some "\x7b\"suite\": \"old\"\x7d".toList else none
      harness := if name = "sort".toList then some "    return sort_probe();".toList else none
      preInclude := none
      preamble := none }
  shared _ := none

def csvOf (names : List String) : Text :=
  "file_name,prog_name,verdict,".toList ++ "duration,total_insns,".toList ++
    "total_states,peak_states\n".toList ++
    names.flatMap fun name => name.toList ++ ".bpf.o,prog,success,10,64,4,2\n".toList

/-- Everything compiles, and the batches of `veristat` end as given. -/
def hostOf (batchOutcome : ℕ → BatchOutcome) : Host where
  output := "output2".toList
  compileHarness := fun _ => some (true, [])
  veristatIsFile := true
  split := slices 2
  batchOutcome := batchOutcome
  captureVerifierLog := fun _ => []
  runnerAvailable := false
  runnerProcess := .timeout
  collectMeta := .null
  digit := fun _ => none

def fullHost : Host := hostOf fun
  | 0 => .exited (csvOf ["gcd", "sort"]) [] 0
  | _ => .exited (csvOf ["verifier_prove", "legacy"]) [] 0

def singleHost : Suite → Host
  | .compat => hostOf fun _ => .exited (csvOf ["gcd"]) [] 0
  | .coverage => hostOf fun _ => .timeout
  | .proof => hostOf fun _ => .exited (csvOf ["verifier_prove"]) [] 0

lemma pinned_legacy {dir : TargetDir} {config : List (Text × Json)}
    (hdir : fourTargets.dirs "legacy".toList = some dir)
    (hconfig : readConfig dir = some (.obj config)) : pinned config = .str "old".toList := by
  rw [← Option.some.inj hdir] at hconfig
  have hload : loads "\x7b\"suite\": \"old\"\x7d".toList =
      some (.obj [("suite".toList, .str "old".toList)]) := by decide +kernel
  have hmembers := Json.obj.inj (Option.some.inj (hload.symm.trans hconfig))
  rw [← hmembers, pinned]
  rfl

/-- The target with a suite of its own is in the full run alone. -/
theorem suite_runs_partition_four : ∃ full, ∃ single : Suite → Json, ∃ entries,
    ∃ part : Suite → List (Text × Json),
    run ShimDrift.asciiAlphabet fullHost fourTargets [] = some full ∧
    (∀ s, run ShimDrift.asciiAlphabet (singleHost s) fourTargets [s.name] = some (single s)) ∧
    full.item "targets" = some (.obj entries) ∧
    (∀ s, (single s).item "targets" = some (.obj (part s))) ∧
    (∀ s s' name, name ∈ (part s).map Prod.fst → name ∈ (part s').map Prod.fst → s = s') ∧
    "legacy".toList ∈ entries.map Prod.fst ∧ ∀ s, "legacy".toList ∉ (part s).map Prod.fst := by
  have hrun (s : Suite) : ∃ results,
      run ShimDrift.asciiAlphabet (singleHost s) fourTargets [s.name] = some results := by
    refine Option.isSome_iff_exists.mp ?_
    cases s <;> decide +kernel
  obtain ⟨entry, hentry⟩ : ∃ entry, ((run ShimDrift.asciiAlphabet fullHost fourTargets []).bind
      fun results => results.item "targets").bind (fun v => v.item "legacy") = some entry :=
    Option.isSome_iff_exists.mp (by decide +kernel)
  obtain ⟨v, hv, hlegacy⟩ := Option.bind_eq_some_iff.mp hentry
  obtain ⟨full, hfull, hitem⟩ := Option.bind_eq_some_iff.mp hv
  choose single hsingle using hrun
  have hskip : ∀ s name, (singleHost s).compileHarness name = none ↔
      fullHost.compileHarness name = none := by
    intro s name
    cases s <;> exact Iff.rfl
  obtain ⟨entries, part, hentries, hpart, -, hdisjoint, hpinned⟩ :=
    suite_runs_partition _ _ _ _ hskip hfull hsingle
  have hmem : "legacy".toList ∈ entries.map Prod.fst := by
    rw [hitem] at hentries
    rw [Option.some.inj hentries, item_obj] at hlegacy
    exact get?_isSome_iff.mp (Option.isSome_iff_exists.mpr ⟨entry, hlegacy⟩)
  refine ⟨full, single, entries, part, hfull, hsingle, hentries, hpart, hdisjoint, hmem, ?_⟩
  intro s hs
  obtain ⟨dir, config, hdir, hconfig, hiff⟩ := hpinned _ hmem
  have hold := pinned_legacy hdir hconfig
  obtain ⟨s', hs'⟩ := hiff.mp ⟨s, hs⟩ (by rw [hold]; rfl)
  rw [hold] at hs'
  cases s' <;> exact absurd (Json.str.inj hs') (by decide)

/-! ## The text of a harness file -/

section
variable {paths : Paths} {template : Template Field Char} {includes : List Text}

lemma extraIncludesOf_loaded : extraIncludesOf paths (.obj (loaded u name dir config snippets)) =
    extraIncludesOf paths (.obj config) := by
  simp only [extraIncludesOf, getD_obj, get?_loaded, String.reduceEq, if_false]

/-- The fields are filled in at once. -/
lemma fillAll_fields (ht : template.Clean '@' Field.name) {order : List Field}
    (horder : order.Perm Field.order) {value : Field → Text} (hvalue : ∀ k, '@' ∉ value k) :
    fillAll (token '@' Field.name) value order (template.render (token '@' Field.name)) =
      template.render value := by
  have hall (k : Field) : k ∈ order := horder.mem_iff.mpr (by cases k <;> decide)
  rw [fillAll_render ht (horder.nodup_iff.mpr (by decide)) fun k _ => hvalue k]
  simp only [hall, if_true]

lemma harnessContent_of_items (ht : template.Clean '@' Field.name) {cfg : Json}
    {body pre preamble srcName srcPath : Text}
    (hincludes : extraIncludesOf paths cfg = some includes)
    (hbody : cfg.item "harness_body" = some (.str body))
    (hpre : cfg.item "pre_include" = some (.str pre))
    (hpreamble : cfg.item "preamble" = some (.str preamble))
    (hvalue : ∀ k, '@' ∉ fieldText paths srcName srcPath includes body pre preamble k)
    {order : List Field} (horder : order.Perm Field.order) :
    harnessContentIn order paths (template.render (token '@' Field.name)) srcName srcPath cfg =
      some (template.render (fieldText paths srcName srcPath includes body pre preamble)) := by
  simp only [harnessContentIn, hincludes, hbody, hpre, hpreamble, asText, Option.bind_eq_bind,
    Option.bind_some, fillAll_fields ht horder hvalue]
  rfl

/-- A harness file is the template with the texts of the target in their places, as long as none
has the delimiter, and the order in which `compile_harness` replaces the fields is no matter. The
differential harness is the same template with the same includes, its own body, and `compute.h`
after the preamble of the target. -/
theorem harness_filled (u : Alphabet) (ht : template.Clean '@' Field.name)
    (hdir : tree.dirs name = some dir) (hconfig : readConfig dir = some (.obj config))
    (hshared : readShared tree (.obj config) = some snippets)
    (hincludes : extraIncludesOf paths (.obj config) = some includes) (srcPath : Text) :
    (∃ cfg, loadTarget u tree name = some cfg ∧
      ((∀ k, '@' ∉ fieldText paths name srcPath includes (dir.harness.getD defaultHarnessBody)
          (snippets.flatten ++ dir.preInclude.getD []) (dir.preamble.getD []) k) →
        ∀ order : List Field, order.Perm Field.order →
          harnessContentIn order paths (template.render (token '@' Field.name)) name srcPath cfg =
          some (template.render (fieldText paths name srcPath includes
            (dir.harness.getD defaultHarnessBody)
            (snippets.flatten ++ dir.preInclude.getD []) (dir.preamble.getD []))))) ∧
    ∀ (diffName : Text) (diff : DiffDir), (diff.base.map strip).getD diffName = name →
      ∃ cfg, diffConfig u tree diffName diff = some cfg ∧
        ((∀ k, '@' ∉ fieldText paths diffName srcPath includes (diff.harness.getD defaultDiffBody)
            (snippets.flatten ++ dir.preInclude.getD [])
            (dir.preamble.getD [] ++ ['\n'] ++ diff.compute) k) →
          ∀ order : List Field, order.Perm Field.order → harnessContentIn order paths
              (template.render (token '@' Field.name)) diffName srcPath cfg =
            some (template.render (fieldText paths diffName srcPath includes
              (diff.harness.getD defaultDiffBody) (snippets.flatten ++ dir.preInclude.getD [])
              (dir.preamble.getD [] ++ ['\n'] ++ diff.compute)))) := by
  have hload := loadTarget_of_dir (u := u) hdir hconfig hshared
  constructor
  · refine ⟨_, hload, fun hvalue _ horder =>
      harnessContent_of_items ht ?_ ?_ ?_ ?_ hvalue horder⟩
    · rw [extraIncludesOf_loaded, hincludes]
    · rw [item_obj, get?_loaded]
      rfl
    · rw [item_obj, get?_loaded]
      rfl
    · rw [item_obj, get?_loaded]
      rfl
  · intro diffName diff hbase
    have hcfg : diffConfig u tree diffName diff = some (.obj (set "preamble".toList
        (.str (dir.preamble.getD [] ++ ['\n'] ++ diff.compute)) (set "harness_body".toList
          (.str (diff.harness.getD defaultDiffBody)) (loaded u name dir config snippets)))) := by
      simp only [diffConfig, hbase, hload, setItem, getD_obj, get?_set, get?_loaded,
        String.toList_inj, String.reduceEq, if_false, if_true, asText, Option.bind_eq_bind,
        Option.bind_some, Option.getD_some]
    refine ⟨_, hcfg, fun hvalue _ horder =>
      harnessContent_of_items ht ?_ ?_ ?_ ?_ hvalue horder⟩
    · have hsame : extraIncludesOf paths (.obj (loaded u name dir config snippets)) = some includes :=
        extraIncludesOf_loaded.trans hincludes
      rw [← hsame]
      simp only [extraIncludesOf, getD_obj, get?_set, String.toList_inj, String.reduceEq, if_false]
    · simp only [item_obj, get?_set, String.toList_inj, String.reduceEq, if_false, if_true]
    · simp only [item_obj, get?_set, get?_loaded, String.toList_inj, String.reduceEq, if_false,
        if_true]
    · simp only [item_obj, get?_set, if_true]

/-- The entry point of the template. -/
def entryTemplate : Template Field Char where
  head := "/* ".toList
  body := [(.srcName, " */\nint bpf_prog_".toList), (.safeName, "(void *ctx)\n".toList),
    (.harnessBody, "\n".toList)]

lemma field_name_injective : Function.Injective Field.name := by
  intro k k' h
  cases k <;> cases k' <;> first | rfl | exact absurd h (by decide)

lemma entryTemplate_clean : entryTemplate.Clean '@' Field.name where
  names k := by cases k <;> decide
  distinct := field_name_injective
  head := by decide
  between := by
    have hnewline (k : Field) : '\n' ∉ k.name := by cases k <;> decide
    simp only [entryTemplate, List.forall_mem_cons]
    exact ⟨⟨by decide, _, by decide, hnewline⟩, ⟨by decide, _, by decide, hnewline⟩,
      ⟨by decide, _, by decide, hnewline⟩, fun _ h => absurd h List.not_mem_nil⟩

theorem harness_filled_sort : ∃ cfg, loadTarget ShimDrift.asciiAlphabet fourTargets
    "sort".toList = some cfg ∧
    harnessContent ⟨"bpf-next".toList, "shims".toList, id, fun _ => true⟩
      (entryTemplate.render (token '@' Field.name)) "sort".toList "lib/sort.c".toList cfg =
        some ("/* sort */\nint bpf_prog_sort(void *ctx)\n" ++
          "    return sort_probe();\n").toList := by
  have hdir : fourTargets.dirs "sort".toList = some _ := rfl
  have hshared : readShared fourTargets (.obj []) = some [] := rfl
  have hincludes : extraIncludesOf ⟨"bpf-next".toList, "shims".toList, id, fun _ => true⟩
      (.obj []) = some [] := rfl
  obtain ⟨⟨cfg, hload, hfill⟩, -⟩ := harness_filled ShimDrift.asciiAlphabet entryTemplate_clean
    hdir rfl hshared hincludes "lib/sort.c".toList
  refine ⟨cfg, hload, (hfill (fun k => ?_) _ (.refl _)).trans ?_⟩
  · cases k <;> decide +kernel
  · decide +kernel

end

end BpfVerify.Targets
