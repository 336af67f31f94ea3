import BpfVerify.Pipeline

/-!
# Soundness of the gate

A pipeline run whose results pass `check_results.py` against a baseline has, for each target
of the baseline and no other, a compiled object, the verdict it should have in the verifier's
own output, and an instruction count that has not collapsed.
-/
namespace BpfVerify.GateSound
open Python Json Execution Veristat Pipeline CheckResults

/-! ## A silent gate -/

/-- What the verdict part asks of an entry when the verifier ran. -/
lemma verdictErrors_nil {name : Text} {t : Json} (h : verdictErrors true name t = some []) :
    ∃ members, t = .obj members ∧
      ((get? "compiled".toList members).getD .null).truthy = true ∧
      (((get? "expect_failure".toList members).getD .null).truthy = false →
        ((get? "verdict".toList members).getD .null).isStr "success" = true) ∧
      (((get? "expect_failure".toList members).getD .null).truthy = true →
        ((get? "expect_failure_matched".toList members).getD .null).truthy = true) := by
  cases t with
  | obj members =>
    refine ⟨members, rfl, ?_⟩
    unfold verdictErrors at h
    simp only [get_obj] at h
    simp only [getD_obj, Option.bind_eq_bind, Option.bind_some] at h
    generalize (get? "expect_failure".toList members).getD .null = expect at h ⊢
    generalize (get? "compiled".toList members).getD .null = compiled at h ⊢
    generalize (get? "verdict".toList members).getD .null = verdict at h ⊢
    generalize (get? "expect_failure_matched".toList members).getD .null = matched at h ⊢
    split_ifs at h <;> simp_all
  | _ => simp [verdictErrors, Json.get, Json.getD] at h

/-- An execution leg that gets as far as its failing case reports it. -/
lemma failingCase_ne_nil {name : Text} {ex : Json} {errors : List GateError}
    (h : (do
      let case ← firstCase (← ex.get "cases")
      return [GateError.propertyFailed name (← ex.item "failures") (← ex.item "iters")
        (← case.get "seeds") (← case.get "retval")]) = some errors) : errors ≠ [] := by
  obtain ⟨_, -, h⟩ := Option.bind_eq_some_iff.mp h
  obtain ⟨_, -, h⟩ := Option.bind_eq_some_iff.mp h
  obtain ⟨_, -, h⟩ := Option.bind_eq_some_iff.mp h
  obtain ⟨_, -, h⟩ := Option.bind_eq_some_iff.mp h
  obtain ⟨_, -, h⟩ := Option.bind_eq_some_iff.mp h
  obtain ⟨_, -, h⟩ := Option.bind_eq_some_iff.mp h
  rw [← Option.some.inj h]
  exact List.cons_ne_nil _ _

/-- What the execution leg asks of an entry. -/
lemma executionErrors_nil {name : Text} {t ex executed failures : Json}
    (h : executionErrors name t = some []) (hex : t.get "execution" = some ex)
    (hexecuted : ex.get "executed" = some executed) (hfailures : ex.get "failures" = some failures)
    (ht : executed.truthy = true) : failures.truthy = false := by
  by_contra hf
  rw [Bool.not_eq_false] at hf
  have hobj : ex.truthy = true := by
    cases ex with
    | obj members =>
      cases members with
      | nil =>
        simp only [get_obj, get?_nil, Option.getD_none, Option.some.injEq] at hexecuted
        simp [← hexecuted, truthy] at ht
      | cons => rfl
    | _ => simp [Json.get, Json.getD] at hexecuted
  unfold executionErrors at h
  simp only [hex, hexecuted, hfailures, Option.bind_eq_bind, Option.bind_some, hobj, ht, hf,
    Bool.not_true, Bool.false_eq_true, if_false] at h
  exact failingCase_ne_nil h rfl

/-- The checks a run of the gate has made when it returns 0 against a baseline. -/
structure Silent (results baselineFile : Json) (entries baseline : List (Text × Json)) : Prop where
  resultTargets : results.item "targets" = some (.obj entries)
  baselineTargets : baselineFile.item "targets" = some (.obj baseline)
  each : ∀ p ∈ entries, targetErrors true p.1 p.2 = some []
  messages : ∃ stderr, results.getD "veristat_stderr" (.str []) = some stderr ∧
    openErrors stderr = some []
  compared : ∀ p ∈ baseline, baselineErrors entries p.1 p.2 = some []
  known : newTargets entries baseline = []

lemma items_eq_some {v : Json} {members : List (Text × Json)} (h : items v = some members) :
    v = .obj members := by
  cases v <;> simp_all [items]

lemma mem_sortedItems {d : List (Text × Json)} {p : Text × Json} : p ∈ sortedItems d ↔ p ∈ d :=
  List.mem_mergeSort

/-- The parts of a comparison that comes to an end. -/
lemma main_compared {results baselineFile ran : Json} {report : Report}
    (hran : results.getD "veristat_ran" (.bool false) = some ran) (htrue : ran.truthy = true)
    (h : CheckResults.main results (some baselineFile) false = some report) :
    ∃ entries baseline perTarget stderr perLine perBase hollow,
      results.item "targets" = some (.obj entries) ∧
      baselineFile.item "targets" = some (.obj baseline) ∧
      (sortedItems entries).mapM (fun p => targetErrors true p.1 p.2) = some perTarget ∧
      results.getD "veristat_stderr" (.str []) = some stderr ∧ openErrors stderr = some perLine ∧
      (sortedItems baseline).mapM (fun p => baselineErrors entries p.1 p.2) = some perBase ∧
      entries.mapM (fun p => hollow? p.1 p.2) = some hollow ∧
      report.errors = perTarget.flatten ++ perLine ++
        (perBase.flatten ++ (newTargets entries baseline).map .notInBaseline) ∧
      report.status = if report.errors.length ≠ 0 then 1 else 0 := by
  unfold CheckResults.main at h
  obtain ⟨targets, htargets, h⟩ := Option.bind_eq_some_iff.mp h
  obtain ⟨entries, hentries, h⟩ := Option.bind_eq_some_iff.mp h
  simp only [hran, htrue, Option.bind_eq_bind, Option.bind_some, Bool.not_true, Bool.false_eq_true,
    if_false] at h
  obtain ⟨errors, herrors, h⟩ := Option.bind_eq_some_iff.mp h
  obtain ⟨⟨compared, warnings⟩, hpart, h⟩ := Option.bind_eq_some_iff.mp h
  obtain ⟨hollow, hhollow, h⟩ := Option.bind_eq_some_iff.mp h
  -- the absolute gates
  obtain ⟨perTarget, hper, herrors⟩ := Option.bind_eq_some_iff.mp herrors
  obtain ⟨stderr, hstderr, herrors⟩ := Option.bind_eq_some_iff.mp herrors
  obtain ⟨perLine, hline, herrors⟩ := Option.bind_eq_some_iff.mp herrors
  -- the comparison
  obtain ⟨comps, hcomp, hpair⟩ := Option.map_eq_some_iff.mp hpart
  obtain ⟨baselineJson, hjson, hcomp⟩ := Option.bind_eq_some_iff.mp hcomp
  obtain ⟨baseline, hbaseline, hcomp⟩ := Option.bind_eq_some_iff.mp hcomp
  obtain ⟨perBase, hbase, hcomp⟩ := Option.bind_eq_some_iff.mp hcomp
  have hsum : errors ++ compared = perTarget.flatten ++ perLine ++
      (perBase.flatten ++ (newTargets entries baseline).map .notInBaseline) := by
    have hcompared : comps = compared := congrArg Prod.fst hpair
    rw [← hcompared, ← Option.some.inj hcomp, ← Option.some.inj herrors]
  have hreport := Option.some.inj h
  refine ⟨entries, baseline, perTarget, stderr, perLine, perBase, hollow, ?_, ?_, hper, hstderr,
    hline, hbase, hhollow, ?_, ?_⟩
  · rw [htargets, items_eq_some hentries]
  · rw [hjson, items_eq_some hbaseline]
  · rw [← hreport, hsum]
  · rw [← hreport]

lemma main_silent {results baselineFile ran : Json} {report : Report}
    (hran : results.getD "veristat_ran" (.bool false) = some ran) (htrue : ran.truthy = true)
    (h : CheckResults.main results (some baselineFile) false = some report)
    (hstatus : report.status = 0) : ∃ entries baseline, Silent results baselineFile entries baseline := by
  obtain ⟨entries, baseline, perTarget, stderr, perLine, perBase, -, htargets, hbaseline, hper,
    hstderr, hline, hbase, -, herrors, hcode⟩ := main_compared hran htrue h
  have hnil : report.errors = [] := by
    by_contra hne
    have hlen : report.errors.length ≠ 0 := fun h0 => hne (List.length_eq_zero_iff.mp h0)
    rw [if_pos hlen] at hcode
    exact one_ne_zero (hcode.symm.trans hstatus)
  rw [hnil] at herrors
  obtain ⟨habsolute, hcompared⟩ := List.append_eq_nil_iff.mp herrors.symm
  obtain ⟨hflat, hlines⟩ := List.append_eq_nil_iff.mp habsolute
  obtain ⟨hflat', hnew⟩ := List.append_eq_nil_iff.mp hcompared
  refine ⟨entries, baseline, ?_⟩
  constructor
  case resultTargets => exact htargets
  case baselineTargets => exact hbaseline
  case each => exact fun p hp => (flatten_eq_nil_iff hper).mp hflat p (mem_sortedItems.mpr hp)
  case messages => exact ⟨stderr, hstderr, by rw [hline, hlines]⟩
  case compared => exact fun p hp => (flatten_eq_nil_iff hbase).mp hflat' p (mem_sortedItems.mpr hp)
  case known => exact List.map_eq_nil_iff.mp hnew

/-- A gate that has nothing to report returns 0. -/
lemma main_of_silent {results baselineFile ran : Json} {entries baseline : List (Text × Json)}
    (h : Silent results baselineFile entries baseline)
    (hran : results.getD "veristat_ran" (.bool false) = some ran) (htrue : ran.truthy = true)
    {hollow : List (List Text)} (hhollow : entries.mapM (fun p => hollow? p.1 p.2) = some hollow) :
    ∃ report, CheckResults.main results (some baselineFile) false = some report ∧
      report.status = 0 := by
  obtain ⟨perTarget, hper, hflat⟩ := mapM_of_nil (f := fun p => targetErrors true p.1 p.2)
    fun p hp => h.each p (mem_sortedItems.mp hp)
  obtain ⟨perBase, hbase, hflat'⟩ := mapM_of_nil (f := fun p => baselineErrors entries p.1 p.2)
    fun p hp => h.compared p (mem_sortedItems.mp hp)
  obtain ⟨stderr, hstderr, hscan⟩ := h.messages
  have habsolute : absoluteErrors results entries true = some [] := by
    simp only [absoluteErrors, hper, hstderr, hscan, Option.bind_eq_bind, Option.bind_some, hflat]
    rfl
  have hcompare : comparisonErrors baselineFile entries = some [] := by
    simp only [comparisonErrors, h.baselineTargets, items, hbase, Option.bind_eq_bind,
      Option.bind_some, hflat', h.known]
    rfl
  simp only [CheckResults.main, h.resultTargets, items, hran, htrue, Option.bind_eq_bind,
    Option.bind_some, habsolute, hcompare, hhollow, Bool.not_true, Bool.false_eq_true, if_false,
    Option.map_some]
  exact ⟨_, rfl, rfl⟩

/-- Both sides of the comparison name the same targets. -/
lemma Silent.same_targets {results baselineFile : Json} {entries baseline : List (Text × Json)}
    (h : Silent results baselineFile entries baseline) (name : Text) :
    name ∈ entries.map Prod.fst ↔ name ∈ baseline.map Prod.fst := by
  constructor
  · intro hname
    have hnew := h.known
    rw [newTargets, List.filter_eq_nil_iff] at hnew
    obtain ⟨p, hp, hpn⟩ := List.mem_map.mp hname
    have := hnew name (List.mem_map.mpr ⟨p, mem_sortedItems.mpr hp, hpn⟩)
    rw [← get?_isSome_iff]
    cases hb : get? name baseline with
    | none => simp [hb] at this
    | some => rfl
  · intro hname
    obtain ⟨p, hp, hpn⟩ := List.mem_map.mp hname
    have hcmp := h.compared p hp
    rw [hpn] at hcmp
    rw [← get?_isSome_iff]
    cases ht : get? name entries with
    | none => simp [baselineErrors, ht, isNone] at hcmp
    | some => rfl

/-! ## From a silent gate back to the verifier -/

section Entry

variable {digit : Char → Option ℕ} {outcome : ℕ → BatchOutcome} {n : ℕ} {v₀ v : Verification}

/-- The row of a target is the default or has a CSV row behind it. -/
lemma row_cases (hg : Gathers digit outcome 0 n v₀ v) (h₀ : v₀.rows = []) (name : Text)
    {row : List (Text × Json)}
    (hrow : row = (get? (objectName name) v.rows).getD [("verdict".toList, .null)]) :
    (row = [("verdict".toList, .null)] ∨ ∃ r, row = rowOf digit r) ∧
      ∀ s, ((get? "verdict".toList row).getD .null).isStr s = true → HasRow outcome n name s := by
  cases he : get? (objectName name) v.rows with
  | none =>
    rw [he, Option.getD_none] at hrow
    refine ⟨.inl hrow, ?_⟩
    intro s hs
    rw [hrow, get?_cons, if_pos rfl, Option.getD_some] at hs
    simp [isStr] at hs
  | some entry =>
    rw [he, Option.getD_some] at hrow
    subst hrow
    constructor
    · cases hg.rows _ (mem_of_get?_eq_some he) with
      | inl hold => simp [h₀] at hold
      | inr hnew =>
        obtain ⟨-, -, -, -, -, -, -, -, -, r, -, hr, -⟩ := hnew
        exact .inr ⟨r, hr⟩
    · intro s hs
      cases hv : get? "verdict".toList row with
      | none =>
        rw [hv, Option.getD_none] at hs
        simp [isStr] at hs
      | some verdict =>
        rw [hv, Option.getD_some] at hs
        exact hg.hasRow h₀ he hv hs

/-- An entry that passes the verdict part has the CSV row that its configuration asks for. -/
lemma entry_sound (hg : Gathers digit outcome 0 n v₀ v) (h₀ : v₀.rows = []) (hran : v.ran = true)
    {execResults : List (Text × Json)} {log name : Text} {cfg t : Json}
    (ht : resultEntry v execResults log name cfg = some t)
    (hgate : verdictErrors true name t = some []) :
    ∃ pattern, cfg.get "expect_failure" = some pattern ∧
      (pattern.truthy = false → HasRow outcome n name "success") ∧
      (pattern.truthy = true → HasRow outcome n name "failure" ∧
        ∃ p, pattern = .str p ∧ p <:+: log) := by
  obtain ⟨suite, pattern, entry, members, hpattern, hmatch, rfl, hkeys⟩ := resultEntry_cases ht
  obtain ⟨hform, hhas⟩ := row_cases hg h₀ name rfl
  obtain ⟨hverdict, hexpect, hmatched⟩ := get?_baseEntry suite hform
  obtain ⟨members', hmem, -, hsuccess, hfailure⟩ := verdictErrors_nil hgate
  obtain rfl : members = members' := by simpa using hmem
  rw [hkeys _ (by decide), hkeys _ (by decide)] at hsuccess hfailure
  rw [hran] at hmatch
  refine ⟨pattern, hpattern, ?_, ?_⟩
  · intro hp
    cases matchBoundary_cases hmatch hmatched with
    | inl h =>
      rw [h.2, hexpect, hverdict] at hsuccess
      exact hhas "success" (hsuccess rfl)
    | inr h => simp [hp] at h
  · intro hp
    cases matchBoundary_cases hmatch hmatched with
    | inl h => simp [hp] at h
    | inr h =>
      obtain ⟨-, hset, hlog⟩ := h
      rw [hset] at hfailure
      obtain ⟨hv, p, hpat, hin⟩ := hlog (hfailure hp)
      rw [hverdict] at hv
      exact ⟨hhas "failure" hv, p, hpat, hin⟩

end Entry

/-- The scan finds what a message holds. -/
lemma openErrors_nil {text : Text} (h : openErrors (.str text) = some []) :
    ¬ "Failed to open".toList <:+: text := by
  intro hin
  have hbreak : ∀ c ∈ "Failed to open".toList, isBreak c = false := by simp [isBreak]
  obtain ⟨line, hline, hlin⟩ := infix_splitlines (by simp) hbreak hin
  unfold openErrors at h
  have hnil := List.map_eq_nil_iff.mp (Option.some.inj h)
  exact List.filter_eq_nil_iff.mp hnil line hline (decide_eq_true hlin)

/-- Messages that are not written are blank. -/
lemma stderr_resultsJson {host : Host} {v : Verification} {entries : List (Text × Json)} {stderr : Json}
    (h : (resultsJson host v entries).getD "veristat_stderr" (.str []) = some stderr)
    (hscan : openErrors stderr = some []) : ¬ "Failed to open".toList <:+: v.stderr := by
  unfold resultsJson at h
  dsimp only at h
  split_ifs at h with hblank
  · intro hin
    have hF : isSpace 'F' = true :=
      isSpace_of_strip_eq_nil hblank 'F' (hin.subset (by simp))
    revert hF
    decide
  · simp only [getD_obj, List.cons_append, List.nil_append, get?_cons, String.toList_inj,
      String.reduceEq, if_true, if_false, Option.getD_some, Option.some.injEq] at h
    rw [← h] at hscan
    exact openErrors_nil hscan

/-! ## Instruction counts -/

/-- The count `n` has not collapsed against the baseline's: it is not below the product of
doubles that the gate compares with, which is half of the baseline where the baseline is an
integer that a double holds and where half of a double is a double. -/
structure NotCollapsed (bInsns : Json) (n : ℤ) : Prop where
  product : ∃ x, mulFloat bInsns degenerationRatio = some x ∧ Double.intLt n x = false
  int : ∀ m : ℤ, bInsns = .int m → |m| ≤ 2 ^ 53 → m ≤ 2 * n
  float : ∀ q h, bInsns = .float (.fin q h) → Double.Representable (q / 2) → q / 2 ≤ n

lemma mul_degenerationRatio {q : ℚ} (hq : Double.Representable q)
    (hhalf : Double.Representable (q / 2)) :
    (Double.fin q hq).mul degenerationRatio = .fin (q / 2) hhalf :=
  Double.mul_of_representable hq Double.representable_half hhalf (by ring)

lemma floatOfInt_of_fin {n : ℤ} {q : ℚ} {h : Double.Representable q}
    (hq : Double.ofRat n = .fin q h) : floatOfInt n = some (.fin q h) := by
  unfold floatOfInt
  rw [hq]

lemma mulFloat_int {m : ℤ} (h : |m| ≤ 2 ^ 53) :
    ∃ hr, mulFloat (.int m) degenerationRatio = some (.fin (m / 2) hr) := by
  have hm : Double.Representable m := by
    simpa using Double.representable_scaled h (show -1074 ≤ (0 : ℤ) by norm_num) (by norm_num)
  have hhalf : Double.Representable ((m : ℚ) / 2) := by
    have := Double.representable_scaled h (show -1074 ≤ (-1 : ℤ) by norm_num) (by norm_num)
    rwa [zpow_neg_one, ← div_eq_mul_inv] at this
  refine ⟨hhalf, ?_⟩
  have hfloat : floatOfInt m = some (.fin m hm) :=
    floatOfInt_of_fin (Double.ofRat_of_representable hm)
  rw [mulFloat, hfloat, Option.map_some, mul_degenerationRatio hm hhalf]

lemma notCollapsed_of_product {bInsns : Json} {n : ℤ} {x : Double}
    (hx : mulFloat bInsns degenerationRatio = some x) (hlt : Double.intLt n x = false) :
    NotCollapsed bInsns n := by
  refine ⟨⟨x, hx, hlt⟩, ?_, ?_⟩
  · intro m hm hle
    obtain ⟨hr, hprod⟩ := mulFloat_int hle
    rw [hm, hprod] at hx
    rw [← Option.some.inj hx, Double.intLt, decide_eq_false_iff_not, not_lt] at hlt
    have : (m : ℚ) ≤ 2 * n := by linarith
    exact_mod_cast this
  · intro q h hq hhalf
    rw [hq, mulFloat, mul_degenerationRatio h hhalf] at hx
    rwa [← Option.some.inj hx, Double.intLt, decide_eq_false_iff_not, not_lt] at hlt

/-- A comparison that reports nothing about a verified target has seen no collapse. -/
lemma baselineErrors_nil {entries : List (Text × Json)} {name : Text} {b t bInsns : Json} {n : ℤ}
    (h : baselineErrors entries name b = some []) (ht : get? name entries = some t)
    {compiled verdict : Json} (hcompiled : t.get "compiled" = some compiled)
    (hc : compiled.truthy = true) (hverdict : t.get "verdict" = some verdict)
    (hv : verdict.isStr "success" = true) (hb : b.get "insns" = some bInsns)
    (hbt : bInsns.truthy = true) (hn : t.get "insns" = some (.int n)) : NotCollapsed bInsns n := by
  have hobj : t.isNone = false := by
    cases t with
    | null => simp [Json.get, Json.getD] at hn
    | _ => rfl
  have hint : (Json.int n).isNone = false := rfl
  unfold baselineErrors at h
  simp only [ht, Option.getD_some, hobj, hcompiled, hverdict, hc, hv, hb, hbt, hn, hint,
    Option.bind_eq_bind, Option.bind_some, Bool.not_true, Bool.or_self, Bool.false_eq_true, if_false,
    Bool.not_false, Bool.and_self, if_true] at h
  obtain ⟨x, hx, h⟩ := Option.bind_eq_some_iff.mp h
  obtain ⟨below, hlt, h⟩ := Option.bind_eq_some_iff.mp h
  split_ifs at h with hbelow
  · simp at h
  · rw [ltFloat, Option.some.injEq] at hlt
    rw [← hlt, Bool.not_eq_true] at hbelow
    exact notCollapsed_of_product hx hbelow

/-! ## The gate -/

/-- What a passing gate has established about the run, its results `entries` and the
`baseline`; `batches` is the number of verifier runs. -/
structure Sound (host : Host) (targets : List (Text × Json)) (batches : ℕ)
    (entries baseline : List (Text × Json)) : Prop where
  sameTargets : ∀ name, name ∈ entries.map Prod.fst ↔ name ∈ baseline.map Prod.fst
  compiled : ∀ name ∈ entries.map Prod.fst, ∃ errors, host.compileHarness name = some (true, errors)
  verdicts : ∀ name ∈ entries.map Prod.fst, ∃ cfg pattern, get? name targets = some cfg ∧
    cfg.get "expect_failure" = some pattern ∧
    (pattern.truthy = false → HasRow host.batchOutcome batches name "success") ∧
    (pattern.truthy = true → HasRow host.batchOutcome batches name "failure" ∧
      ∃ p, pattern = .str p ∧ p <:+: host.captureVerifierLog name)
  insns : ∀ name b t bInsns n, (name, b) ∈ baseline → get? name entries = some t →
    t.get "verdict" = some (.str "success".toList) → b.get "insns" = some bInsns →
    bInsns.truthy = true → t.get "insns" = some (.int n) → NotCollapsed bInsns n
  messages : ∀ i < batches, ∀ stdout stderr returncode,
    host.batchOutcome i = .exited stdout stderr returncode →
    ¬ "Failed to open".toList <:+: stderr ∧ ∃ rows noise,
      parseVeristatCsv host.digit stdout = some (rows, noise) ∧
      ∀ line ∈ noise, ¬ "Failed to open".toList <:+: line
  executions : ∀ name t ex executed failures, (name, t) ∈ entries → t.get "execution" = some ex →
    ex.get "executed" = some executed → ex.get "failures" = some failures →
    executed.truthy = true → failures.truthy = false

lemma Silent.entry {results baselineFile : Json} {entries baseline : List (Text × Json)}
    (h : Silent results baselineFile entries baseline) {name : Text} {t : Json}
    (hmem : (name, t) ∈ entries) :
    verdictErrors true name t = some [] ∧ executionErrors name t = some [] := by
  have heach := h.each _ hmem
  obtain ⟨errors, hverdict, heach⟩ := Option.bind_eq_some_iff.mp heach
  obtain ⟨errors', hexec, heach⟩ := Option.bind_eq_some_iff.mp heach
  obtain ⟨rfl, rfl⟩ := List.append_eq_nil_iff.mp (Option.some.inj heach)
  exact ⟨hverdict, hexec⟩

/-- A run whose results pass the gate against a baseline is sound. -/
theorem gate_sound {host : Host} {targets : List (Text × Json)} {results baselineFile : Json}
    {report : Report} (hmain : Pipeline.main host targets = some results)
    (hran : results.get "veristat_ran" = some (.bool true))
    (hgate : CheckResults.main results (some baselineFile) false = some report)
    (hstatus : report.status = 0) :
    ∃ batches entries baseline,
      host.split ((host.compiledOk targets).map host.objectPath) = some batches ∧
      results.item "targets" = some (.obj entries) ∧
      baselineFile.item "targets" = some (.obj baseline) ∧
      Sound host targets batches.length entries baseline := by
  obtain ⟨v, execResults, written, hv, hwritten, rfl⟩ := main_cases hmain
  obtain ⟨htargets, hveristat, hveristat'⟩ := @item_resultsJson host v written
  have hvran : v.ran = true := by simpa [hveristat'] using hran
  obtain ⟨batches, hsplit, hg⟩ := runVeristat_gathers hv hvran
  obtain ⟨entries, baseline, hs⟩ := main_silent (hveristat.trans (by rw [hvran])) rfl hgate hstatus
  obtain rfl := item_obj_unique htargets hs.resultTargets
  refine ⟨batches, written, baseline, hsplit, htargets, hs.baselineTargets, ?_⟩
  -- a passing entry is that of a compiled target
  have hcompiled (name : Text) (t : Json) (hmem : (name, t) ∈ written) :
      (∃ errors, host.compileHarness name = some (true, errors)) ∧ ∃ cfg,
        get? name targets = some cfg ∧
        resultEntry v execResults (host.captureVerifierLog name) name cfg = some t := by
    cases mem_resultTargets hwritten hmem with
    | inr h => exact h
    | inl h =>
      obtain ⟨error, rfl⟩ := h
      obtain ⟨members, he, htrue, -⟩ := verdictErrors_nil (hs.entry hmem).1
      obtain rfl := Json.obj.inj he
      rw [get?_cons, if_pos rfl, Option.getD_some] at htrue
      exact absurd htrue Bool.false_ne_true
  have hname (name : Text) (h : name ∈ written.map Prod.fst) : ∃ t, (name, t) ∈ written := by
    obtain ⟨p, hp, rfl⟩ := List.mem_map.mp h
    exact ⟨p.2, hp⟩
  constructor
  case sameTargets => exact hs.same_targets
  case compiled =>
    intro name h
    obtain ⟨t, ht⟩ := hname name h
    exact (hcompiled name t ht).1
  case verdicts =>
    intro name h
    obtain ⟨t, ht⟩ := hname name h
    obtain ⟨-, cfg, hcfg, hentry⟩ := hcompiled name t ht
    obtain ⟨pattern, hpattern, hrows⟩ := entry_sound hg rfl hvran hentry (hs.entry ht).1
    exact ⟨cfg, pattern, hcfg, hpattern, hrows⟩
  case insns =>
    intro name b t bInsns n hb ht hverdict hbi hbt hn
    obtain ⟨members, rfl, hc, -⟩ := verdictErrors_nil (hs.entry (mem_of_get?_eq_some ht)).1
    exact baselineErrors_nil (hs.compared _ hb) ht (get_obj members "compiled") hc hverdict
      (isStr_iff.mpr rfl) hbi hbt hn
  case messages =>
    obtain ⟨stderr, hstderr, hscan⟩ := hs.messages
    intro i hi stdout stderr' returncode hout
    exact hg.not_infix (stderr_resultsJson hstderr hscan) hi hout
  case executions =>
    intro name t ex executed failures hmem hex hexecuted hfailures htrue
    exact executionErrors_nil (hs.entry hmem).2 hex hexecuted hfailures htrue

/-! A run of one target, `crc16`, whose object verifies in 2 ^ 52 instructions. -/

def asciiDigit (c : Char) : Option ℕ := if c.isDigit then some (c.toNat - '0'.toNat) else none

def crc16Csv : Text :=
  ("file_name,prog_name,verdict,duration,total_insns,total_states,peak_states\n" ++
    "crc16.bpf.o,prog,success,10,4503599627370496,4,2\n").toList

def crc16Host : Host where
  output := "output2".toList
  compileHarness := fun _ => some (true, [])
  veristatIsFile := true
  split := fun objs => some [objs]
  batchOutcome := fun _ => .exited crc16Csv [] 0
  captureVerifierLog := fun _ => []
  runnerAvailable := false
  runnerProcess := .timeout
  collectMeta := .null
  digit := asciiDigit

def crc16Targets : List (Text × Json) :=
  [("crc16".toList, .obj [("suite".toList, .str "coverage".toList)])]

def crc16Entry : List (Text × Json) :=
  [("compiled".toList, .bool true), ("suite".toList, .str "coverage".toList),
   ("prog".toList, .str "prog".toList), ("verdict".toList, .str "success".toList),
   ("duration_us".toList, .int 10), ("insns".toList, .int 4503599627370496),
   ("states".toList, .int 4), ("peak_states".toList, .int 2)]

def crc16Results : Json :=
  .obj [("schema".toList, .int 1), ("meta".toList, .null), ("veristat_ran".toList, .bool true),
    ("targets".toList, .obj [("crc16".toList, .obj crc16Entry)])]

/-- A baseline of the same target with its own instruction count. -/
def crc16Baseline (insns : ℤ) : Json :=
  .obj [("targets".toList, .obj [("crc16".toList, .obj [("insns".toList, .int insns)])])]

lemma main_crc16 : Pipeline.main crc16Host crc16Targets = some crc16Results := by
  decide +kernel

lemma get_crc16 (key : String) : (Json.obj crc16Entry).get key =
    some (if "compiled" = key then .bool true else if "suite" = key then .str "coverage".toList
      else if "prog" = key then .str "prog".toList else if "verdict" = key then .str "success".toList
      else if "duration_us" = key then .int 10 else if "insns" = key then .int 4503599627370496
      else if "states" = key then .int 4 else if "peak_states" = key then .int 2 else .null) := by
  simp only [crc16Entry, get_obj, getD_get?_cons, get?_nil, Option.getD_none, String.toList_inj]

lemma targetErrors_crc16 : targetErrors true "crc16".toList (.obj crc16Entry) = some [] := by
  have hverdict := verdictErrors_success true "crc16".toList (get_crc16 "expect_failure")
    (get_crc16 "compiled") (get_crc16 "verdict") rfl rfl rfl
  have hleg : executionErrors "crc16".toList (.obj crc16Entry) = some [] := by
    unfold executionErrors
    rw [get_crc16 "execution"]
    rfl
  rw [targetErrors, hverdict, hleg]
  rfl

/-- The gate passes a count that is not below the product. -/
lemma baselineErrors_of_not_lt {entries : List (Text × Json)} {name : Text} {b t : Json}
    {n insns : ℤ} {x : Double} (ht : get? name entries = some t) (hc : t.get "compiled" = some (.bool true))
    (hv : t.get "verdict" = some (.str "success".toList)) (hn : t.get "insns" = some (.int n))
    (hb : b.get "insns" = some (.int insns)) (h0 : insns ≠ 0)
    (hx : mulFloat (.int insns) degenerationRatio = some x) (hlt : Double.intLt n x = false) :
    baselineErrors entries name b = some [] := by
  have htrue : (Json.int insns).truthy = true := by
    simpa [truthy] using h0
  have hsome : t.isNone = false := by
    cases t with
    | null => simp [Json.get, Json.getD] at hc
    | _ => rfl
  have hint : (Json.int n).isNone = false := rfl
  have hcompiled : (Json.bool true).truthy = true := rfl
  have hs : (Json.str "success".toList).isStr "success" = true := isStr_iff.mpr rfl
  unfold baselineErrors
  rw [ht, Option.getD_some]
  simp only [hsome, hc, hv, hn, hb, htrue, hint, hcompiled, hs, hx, ltFloat, hlt,
    Option.bind_eq_bind, Option.bind_some, Bool.not_true, Bool.or_self, Bool.not_false,
    Bool.and_self, Bool.false_eq_true, if_false, if_true]
  rfl

lemma baselineErrors_crc16 {insns : ℤ} {x : Double} (h0 : insns ≠ 0)
    (hx : mulFloat (.int insns) degenerationRatio = some x)
    (hlt : Double.intLt 4503599627370496 x = false) :
    baselineErrors [("crc16".toList, .obj crc16Entry)] "crc16".toList
      (.obj [("insns".toList, .int insns)]) = some [] :=
  baselineErrors_of_not_lt rfl (get_crc16 "compiled") (get_crc16 "verdict") (get_crc16 "insns") rfl
    h0 hx hlt

lemma silent_crc16 {insns : ℤ} {x : Double} (h0 : insns ≠ 0)
    (hx : mulFloat (.int insns) degenerationRatio = some x)
    (hlt : Double.intLt 4503599627370496 x = false) :
    Silent crc16Results (crc16Baseline insns) [("crc16".toList, .obj crc16Entry)]
      [("crc16".toList, .obj [("insns".toList, .int insns)])] := by
  constructor
  case resultTargets => rfl
  case baselineTargets => rfl
  case each =>
    intro p hp
    rw [List.mem_singleton.mp hp]
    exact targetErrors_crc16
  case messages => exact ⟨.str [], rfl, rfl⟩
  case compared =>
    intro p hp
    rw [List.mem_singleton.mp hp]
    exact baselineErrors_crc16 h0 hx hlt
  case known =>
    rw [newTargets, sortedItems, List.mergeSort_singleton]
    rfl

lemma status_crc16 {insns : ℤ} {x : Double} (h0 : insns ≠ 0)
    (hx : mulFloat (.int insns) degenerationRatio = some x)
    (hlt : Double.intLt 4503599627370496 x = false) :
    ∃ report, CheckResults.main crc16Results (some (crc16Baseline insns)) false = some report ∧
      report.status = 0 := by
  have hhollow : [("crc16".toList, Json.obj crc16Entry)].mapM (fun p => hollow? p.1 p.2) =
      some [[]] := by
    rfl
  exact main_of_silent (silent_crc16 h0 hx hlt) rfl rfl hhollow

/-- The baseline 2 ^ 53 + 1 is no double; the product rounds to 2 ^ 52. -/
lemma mulFloat_odd : ∃ hr, mulFloat (.int 9007199254740993) degenerationRatio =
    some (.fin 4503599627370496 hr) := by
  have hlog : Int.log 2 |(9007199254740993 : ℚ)| = 53 := by
    have habs : |(9007199254740993 : ℚ)| = ((9007199254740993 : ℕ) : ℚ) := by norm_num
    rw [habs, Int.log_natCast, (Nat.log_eq_iff (m := 53) (by norm_num)).mpr (by norm_num)]
    rfl
  have hulp : Double.ulpExp 9007199254740993 = 1 := by
    rw [Double.ulpExp, hlog]
    rfl
  have hround : Double.roundTo 9007199254740993 = 9007199254740992 := by
    have hfloor : ⌊(9007199254740993 : ℚ) / 2⌋ = 4503599627370496 := by
      rw [Int.floor_eq_iff]
      norm_num
    rw [Double.roundTo, hulp, zpow_one, Double.roundEven, hfloor]
    norm_num
  have hr : Double.Representable 9007199254740992 := ⟨2 ^ 52, 1, by norm_num, by norm_num,
    by norm_num, by norm_num⟩
  have hhalf : Double.Representable 4503599627370496 := ⟨2 ^ 51, 1, by norm_num, by norm_num,
    by norm_num, by norm_num⟩
  have hfloat : floatOfInt 9007199254740993 = some (.fin 9007199254740992 hr) := by
    apply floatOfInt_of_fin
    have hlt := hr.abs_lt
    rw [← hround] at hlt
    rw [Double.ofRat, Int.cast_ofNat, dif_pos hlt]
    simp only [hround]
  refine ⟨hhalf, ?_⟩
  rw [mulFloat, hfloat, Option.map_some, degenerationRatio,
    Double.mul_of_representable hr Double.representable_half hhalf (by norm_num)]

/-- Against 2 ^ 53 + 1 the count 2 ^ 52 passes, though it is below the half. -/
theorem odd_baseline_passes :
    Pipeline.main crc16Host crc16Targets = some crc16Results ∧
    crc16Results.get "veristat_ran" = some (.bool true) ∧
    crc16Results.item "targets" = some (.obj [("crc16".toList, .obj crc16Entry)]) ∧
    (Json.obj crc16Entry).get "verdict" = some (.str "success".toList) ∧
    (Json.obj crc16Entry).get "insns" = some (.int 4503599627370496) ∧
    (∃ report, CheckResults.main crc16Results (some (crc16Baseline 9007199254740993)) false =
      some report ∧ report.status = 0) ∧
    ¬ (9007199254740993 : ℚ) / 2 ≤ (4503599627370496 : ℤ) := by
  obtain ⟨hr, hx⟩ := mulFloat_odd
  have hlt : Double.intLt 4503599627370496 (.fin 4503599627370496 hr) = false := by
    simp [Double.intLt]
  exact ⟨main_crc16, rfl, rfl, get_crc16 "verdict", get_crc16 "insns",
    status_crc16 (by norm_num) hx hlt, by norm_num⟩

/-! A run of two targets in two batches: `crc16` verifies and its object runs, `glob` is a
documented boundary. -/

def csvHead : Text :=
  "file_name,prog_name,verdict,".toList ++ "duration,total_insns,".toList ++
    "total_states,peak_states\n".toList

def boundaryLine : Text := "the sequence of 8193 jumps is too complex.".toList

def pairHost : Host where
  output := "output2".toList
  compileHarness := fun _ => some (true, [])
  veristatIsFile := true
  split := slices 1
  batchOutcome := fun
    | 0 => .exited ("Processing crc16.bpf.o...\n".toList ++ csvHead ++
        "crc16.bpf.o,prog,success,10,64,4,2\n".toList) [] 0
    | _ => .exited (csvHead ++ "glob.bpf.o,prog,failure,12,0,0,0\n".toList) [] 1
  captureVerifierLog := fun _ => "0: R1=ctx()\n".toList ++ boundaryLine ++ ['\n']
  runnerAvailable := true
  runnerProcess := .exited (Runner.runObject "output2/crc16.bpf.o".toList (.loaded "prog".toList)
    (fun _ => ⟨fun _ => none, .ok 0⟩) 2 1 8).1
  collectMeta := .null
  digit := asciiDigit

def pairTargets : List (Text × Json) :=
  [("crc16".toList, .obj [("suite".toList, .str "coverage".toList),
     ("execute".toList, .bool true)]),
   ("glob".toList, .obj [("suite".toList, .str "coverage".toList),
     ("expect_failure".toList, .str boundaryLine)])]

def pairEntries : List (Text × Json) :=
  [("crc16".toList, .obj [("compiled".toList, .bool true), ("suite".toList, .str "coverage".toList),
     ("prog".toList, .str "prog".toList), ("verdict".toList, .str "success".toList),
     ("duration_us".toList, .int 10), ("insns".toList, .int 64), ("states".toList, .int 4),
     ("peak_states".toList, .int 2), ("execution".toList, loadedEntry 2 0 [])]),
   ("glob".toList, .obj [("compiled".toList, .bool true), ("suite".toList, .str "coverage".toList),
     ("prog".toList, .str "prog".toList), ("verdict".toList, .str "failure".toList),
     ("duration_us".toList, .int 12), ("insns".toList, .int 0), ("states".toList, .int 0),
     ("peak_states".toList, .int 0), ("expect_failure".toList, .str boundaryLine),
     ("expect_failure_matched".toList, .bool true), ("failure_line".toList, .str boundaryLine)])]

def pairResults : Json :=
  .obj [("schema".toList, .int 1), ("meta".toList, .null), ("veristat_ran".toList, .bool true),
    ("targets".toList, .obj pairEntries),
    ("veristat_stderr".toList, .str "Processing crc16.bpf.o...\n".toList)]

def pairBaseline : List (Text × Json) :=
  [("crc16".toList, .obj [("insns".toList, .int 100)]), ("glob".toList, .obj [])]

lemma main_pair : Pipeline.main pairHost pairTargets = some pairResults := by
  decide +kernel

lemma silent_pair : Silent pairResults (.obj [("targets".toList, .obj pairBaseline)]) pairEntries
    pairBaseline := by
  constructor
  case resultTargets => rfl
  case baselineTargets => rfl
  case each =>
    intro p hp
    rcases List.mem_pair.mp hp with rfl | rfl <;> rfl
  case messages => exact ⟨_, rfl, rfl⟩
  case compared =>
    intro p hp
    rcases List.mem_pair.mp hp with rfl | rfl
    · obtain ⟨hr, hx⟩ := mulFloat_int (m := 100) (by norm_num)
      refine baselineErrors_of_not_lt rfl rfl rfl rfl rfl (by norm_num) hx ?_
      rw [Double.intLt, decide_eq_false_iff_not]
      norm_num
    · rfl
  case known =>
    rw [newTargets, List.filter_eq_nil_iff]
    intro name hname
    obtain ⟨p, hp, rfl⟩ := List.mem_map.mp hname
    rcases List.mem_pair.mp (mem_sortedItems.mp hp) with rfl | rfl <;> decide

/-- The gate passes the run of the two targets. -/
theorem gate_sound_pair :
    ∃ batches entries baseline,
      pairHost.split ((pairHost.compiledOk pairTargets).map pairHost.objectPath) = some batches ∧
      pairResults.item "targets" = some (.obj entries) ∧
      (Json.obj [("targets".toList, .obj pairBaseline)]).item "targets" = some (.obj baseline) ∧
      Sound pairHost pairTargets batches.length entries baseline := by
  have hhollow : pairEntries.mapM (fun p => hollow? p.1 p.2) = some [[], []] := rfl
  obtain ⟨report, hgate, hstatus⟩ := main_of_silent silent_pair rfl rfl hhollow
  exact gate_sound main_pair rfl hgate hstatus

end BpfVerify.GateSound
