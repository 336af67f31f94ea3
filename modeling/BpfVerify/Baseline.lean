import BpfVerify.GateSound

/-!
# The baseline

What `check_results.py` makes of a verdict that has regressed against the baseline, and what a
baseline that it has written is good for.
-/
namespace BpfVerify.Baseline
open Python Json CheckResults GateSound

/-- `t.get(key)` on the entry of a target. -/
def field (t : Json) (key : String) : Json := (t.get key).getD .null

/-- The target is a program that verifies. -/
@[mk_iff] structure Verified (t : Json) : Prop where
  compiled : (field t "compiled").truthy = true
  expect : (field t "expect_failure").truthy = false
  verdict : (field t "verdict").isStr "success" = true

/-- The target is a documented boundary of the verifier, which has failed as expected. -/
@[mk_iff] structure Boundary (t : Json) : Prop where
  compiled : (field t "compiled").truthy = true
  expect : (field t "expect_failure").truthy = true
  ran : (field t "verdict").isNone = false
  verdict : (field t "verdict").isStr "success" = false
  matched : (field t "expect_failure_matched").truthy = true

/-- No property failed when the target was executed. -/
def Quiet (t : Json) : Prop :=
  ¬ ((field t "execution").truthy = true ∧ (field (field t "execution") "executed").truthy = true ∧
    (field (field t "execution") "failures").truthy = true)

lemma field_obj (members : List (Text × Json)) (key : String) :
    field (.obj members) key = (get? key.toList members).getD .null := by
  rw [field, get_obj, Option.getD_some]

lemma verdictErrors_nil_iff {name : Text} {t : Json} {errors : List GateError}
    (h : verdictErrors true name t = some errors) : errors = [] ↔ Verified t ∨ Boundary t := by
  cases t with
  | obj members =>
    unfold verdictErrors at h
    simp only [get_obj] at h
    simp only [getD_obj, Option.bind_eq_bind, Option.bind_some, ← field_obj] at h
    rw [verified_iff, boundary_iff]
    generalize field (.obj members) "expect_failure" = expect at h ⊢
    generalize field (.obj members) "compiled" = compiled at h ⊢
    generalize field (.obj members) "verdict" = verdict at h ⊢
    generalize field (.obj members) "expect_failure_matched" = matched at h ⊢
    have hnone : verdict.isStr "success" = true → verdict.isNone = false := isNone_of_isStr
    split_ifs at h <;> obtain rfl := Option.some.inj h <;> simp_all
  | _ => simp [verdictErrors, Json.get, Json.getD] at h

lemma executionErrors_nil_iff {name : Text} {t : Json} {errors : List GateError}
    (h : executionErrors name t = some errors) : errors = [] ↔ Quiet t := by
  unfold executionErrors at h
  obtain ⟨ex, hex, h⟩ := Option.bind_eq_some_iff.mp h
  have hfield : field t "execution" = ex := by rw [field, hex, Option.getD_some]
  rw [Quiet, hfield]
  by_cases htrue : ex.truthy = true
  · simp only [htrue, Bool.not_true, Bool.false_eq_true, if_false] at h
    obtain ⟨executed, hexecuted, h⟩ := Option.bind_eq_some_iff.mp h
    have hfield' : field ex "executed" = executed := by rw [field, hexecuted, Option.getD_some]
    rw [hfield']
    by_cases hran : executed.truthy = true
    · simp only [hran, Bool.not_true, Bool.false_eq_true, if_false] at h
      obtain ⟨failures, hfailures, h⟩ := Option.bind_eq_some_iff.mp h
      have hfield'' : field ex "failures" = failures := by
        rw [field, hfailures, Option.getD_some]
      rw [hfield'']
      by_cases hfail : failures.truthy = true
      · simp only [hfail, Bool.not_true, Bool.false_eq_true, if_false] at h
        exact iff_of_false (failingCase_ne_nil h) (not_not.mpr ⟨htrue, hran, hfail⟩)
      · rw [if_pos (by simpa using hfail)] at h
        exact iff_of_true (Option.some.inj h).symm fun hq => hfail hq.2.2
    · rw [if_pos (by simpa using hran)] at h
      exact iff_of_true (Option.some.inj h).symm fun hq => hran hq.2.1
  · rw [if_pos (by simpa using htrue)] at h
    exact iff_of_true (Option.some.inj h).symm fun hq => htrue hq.1

lemma targetErrors_nil_iff {name : Text} {t : Json} {errors : List GateError}
    (h : targetErrors true name t = some errors) :
    errors = [] ↔ (Verified t ∨ Boundary t) ∧ Quiet t := by
  obtain ⟨verdict, hverdict, h⟩ := Option.bind_eq_some_iff.mp h
  obtain ⟨execution, hexecution, h⟩ := Option.bind_eq_some_iff.mp h
  rw [← Option.some.inj h, List.append_eq_nil_iff, verdictErrors_nil_iff hverdict,
    executionErrors_nil_iff hexecution]

/-- The count of a verified target is below the gate's half of the baseline's. -/
def Collapsed (t b : Json) : Prop :=
  (field t "compiled").truthy = true ∧ (field t "verdict").isStr "success" = true ∧
    (field b "insns").truthy = true ∧ (field t "insns").isNone = false ∧
    ∃ x, mulFloat (field b "insns") degenerationRatio = some x ∧
      ltFloat (field t "insns") x = some true

lemma field_of_get {t v : Json} {key : String} (h : t.get key = some v) : field t key = v := by
  rw [field, h, Option.getD_some]

lemma baselineErrors_nil_iff {entries : List (Text × Json)} {name : Text} {b : Json}
    {errors : List GateError} (h : baselineErrors entries name b = some errors) :
    errors = [] ↔ ∃ t, get? name entries = some t ∧ t.isNone = false ∧ ¬ Collapsed t b := by
  unfold baselineErrors at h
  cases ht : get? name entries with
  | none =>
    rw [ht] at h
    rw [← Option.some.inj h]
    exact iff_of_false (List.cons_ne_nil _ _) (by simp)
  | some t =>
    simp only [ht, Option.getD_some] at h
    suffices hkey : errors = [] ↔ t.isNone = false ∧ ¬ Collapsed t b by
      rw [hkey]
      simp
    by_cases hnone : t.isNone = true
    · rw [if_pos hnone] at h
      rw [← Option.some.inj h]
      exact iff_of_false (List.cons_ne_nil _ _) (by simp [hnone])
    · rw [if_neg hnone] at h
      obtain ⟨compiled, hcompiled, h⟩ := Option.bind_eq_some_iff.mp h
      obtain ⟨verdict, hverdict, h⟩ := Option.bind_eq_some_iff.mp h
      rw [Bool.not_eq_true] at hnone
      rw [Collapsed, field_of_get hcompiled, field_of_get hverdict]
      split_ifs at h with hskip
      · rw [← Option.some.inj h]
        simp at hskip
        exact iff_of_true rfl ⟨hnone, fun hc => by simp_all⟩
      · obtain ⟨bInsns, hb, h⟩ := Option.bind_eq_some_iff.mp h
        obtain ⟨tInsns, htInsns, h⟩ := Option.bind_eq_some_iff.mp h
        rw [field_of_get hb, field_of_get htInsns]
        simp at hskip
        split_ifs at h with hboth
        · obtain ⟨x, hx, h⟩ := Option.bind_eq_some_iff.mp h
          obtain ⟨below, hlt, h⟩ := Option.bind_eq_some_iff.mp h
          simp at hboth
          have hcollapse : (∃ y, mulFloat bInsns degenerationRatio = some y ∧
              ltFloat tInsns y = some true) ↔ below = true := by
            rw [hx]
            simp [hlt]
          rw [hcollapse]
          split_ifs at h with hbelow
          · rw [← Option.some.inj h]
            exact iff_of_false (List.cons_ne_nil _ _) fun hr =>
              hr.2 ⟨hskip.1, hskip.2, hboth.1, hboth.2, hbelow⟩
          · rw [← Option.some.inj h]
            exact iff_of_true rfl ⟨hnone, fun hc => hbelow hc.2.2.2.2⟩
        · rw [← Option.some.inj h]
          simp at hboth
          exact iff_of_true rfl ⟨hnone, fun hc => by simp_all⟩

/-! ## What the gate finds -/

/-- No part of a comparison has anything to report. -/
structure Clean (results : Json) (entries baseline : List (Text × Json)) : Prop where
  each : ∀ p ∈ entries, (Verified p.2 ∨ Boundary p.2) ∧ Quiet p.2
  messages : ∀ text, results.getD "veristat_stderr" (.str []) = some (.str text) →
    ∀ line ∈ splitlines text, ¬ "Failed to open".toList <:+: line
  compared : ∀ p ∈ baseline, ∃ t, get? p.1 entries = some t ∧ t.isNone = false ∧ ¬ Collapsed t p.2
  known : ∀ name ∈ entries.map Prod.fst, name ∈ baseline.map Prod.fst

lemma openErrors_nil_iff {stderr : Json} {errors : List GateError}
    (h : openErrors stderr = some errors) : ∃ text, stderr = .str text ∧
      (errors = [] ↔ ∀ line ∈ splitlines text, ¬ "Failed to open".toList <:+: line) := by
  cases stderr with
  | str text =>
    refine ⟨text, rfl, ?_⟩
    rw [openErrors] at h
    rw [← Option.some.inj h, List.map_eq_nil_iff, List.filter_eq_nil_iff]
    simp only [decide_eq_true_eq]
  | _ => simp [openErrors] at h

lemma newTargets_nil_iff {entries baseline : List (Text × Json)} :
    newTargets entries baseline = [] ↔
      ∀ name ∈ entries.map Prod.fst, name ∈ baseline.map Prod.fst := by
  have hmem : ∀ name, name ∈ (sortedItems entries).map Prod.fst ↔ name ∈ entries.map Prod.fst := by
    intro name
    simp only [List.mem_map, mem_sortedItems]
  rw [newTargets, List.filter_eq_nil_iff]
  simp only [hmem, Option.isNone_iff_eq_none, ← Option.not_isSome_iff_eq_none, get?_isSome_iff,
    not_not]

/-- A comparison that comes to an end returns 1 iff something is found. -/
lemma status_eq_one_iff {results baselineFile ran : Json} {report : Report}
    {entries baseline : List (Text × Json)}
    (hran : results.getD "veristat_ran" (.bool false) = some ran) (htrue : ran.truthy = true)
    (hmain : CheckResults.main results (some baselineFile) false = some report)
    (hentries : results.item "targets" = some (.obj entries))
    (hbaseline : baselineFile.item "targets" = some (.obj baseline)) :
    report.status = 1 ↔ ¬ Clean results entries baseline := by
  obtain ⟨entries', baseline', perTarget, stderr, perLine, perBase, -, htargets, hbase, hper,
    hstderr, hline, hcomp, -, herrors, hstatus⟩ := main_compared hran htrue hmain
  obtain rfl := item_obj_unique htargets hentries
  obtain rfl := item_obj_unique hbase hbaseline
  obtain ⟨text, rfl, hlines⟩ := openErrors_nil_iff hline
  have hone : report.status = 1 ↔ ¬ report.errors = [] := by
    rw [hstatus, ← List.length_eq_zero_iff]
    split_ifs with hlen
    · exact iff_of_true rfl hlen
    · simpa using hlen
  rw [hone, herrors, not_iff_not, List.append_eq_nil_iff, List.append_eq_nil_iff,
    List.append_eq_nil_iff, List.map_eq_nil_iff, newTargets_nil_iff, hlines,
    flatten_eq_nil_iff hper, flatten_eq_nil_iff hcomp]
  have heach : (∀ p ∈ sortedItems entries', targetErrors true p.1 p.2 = some []) ↔
      ∀ p ∈ entries', (Verified p.2 ∨ Boundary p.2) ∧ Quiet p.2 := by
    simp only [mem_sortedItems]
    refine forall₂_congr fun p hp => ?_
    obtain ⟨errors, -, herr⟩ := (mapM_eq_some hper).1 p (mem_sortedItems.mpr hp)
    rw [herr, Option.some_inj, targetErrors_nil_iff herr]
  have hcompared : (∀ p ∈ sortedItems baseline', baselineErrors entries' p.1 p.2 = some []) ↔
      ∀ p ∈ baseline', ∃ t, get? p.1 entries' = some t ∧ t.isNone = false ∧ ¬ Collapsed t p.2 := by
    simp only [mem_sortedItems]
    refine forall₂_congr fun p hp => ?_
    obtain ⟨errors, -, herr⟩ := (mapM_eq_some hcomp).1 p (mem_sortedItems.mpr hp)
    rw [herr, Option.some_inj, baselineErrors_nil_iff herr]
  rw [heach, hcompared]
  constructor
  · rintro ⟨⟨h₁, h₂⟩, h₃, h₄⟩
    refine ⟨h₁, ?_, h₃, h₄⟩
    intro text' htext
    obtain rfl : text' = text := by simpa [hstderr] using htext.symm
    exact h₂
  · rintro ⟨h₁, h₂, h₃, h₄⟩
    exact ⟨⟨h₁, h₂ text hstderr⟩, h₃, h₄⟩

/-! ## Verdict regressions -/

/-- The baseline has recorded `success` for the target, and the results another verdict. -/
def Regressed (entries baseline : List (Text × Json)) (p : Text × Json) : Prop :=
  p ∈ entries ∧ (field p.2 "verdict").isStr "success" = false ∧
    ∃ b, (p.1, b) ∈ baseline ∧ (field b "verdict").isStr "success" = true

/-- What else is fatal beside the target `p`. -/
inductive Finding (results : Json) (entries baseline : List (Text × Json)) (p : Text × Json) : Prop
  | target (q : Text × Json) (hq : q ∈ entries) (hne : q ≠ p)
      (h : ¬ ((Verified q.2 ∨ Boundary q.2) ∧ Quiet q.2))
  | message (text line : Text)
      (htext : results.getD "veristat_stderr" (.str []) = some (.str text))
      (hline : line ∈ splitlines text) (h : "Failed to open".toList <:+: line)
  | missing (b : Text × Json) (hb : b ∈ baseline)
      (h : ∀ t, get? b.1 entries = some t → t.isNone = true)
  | collapsed (b : Text × Json) (hb : b ∈ baseline) (t : Json) (ht : get? b.1 entries = some t)
      (h : Collapsed t b.2)
  | new (name : Text) (hname : name ∈ entries.map Prod.fst) (h : name ∉ baseline.map Prod.fst)

/-- A regression is fatal unless the gate takes the target for a boundary that has failed as
expected; it looks at the verdict of the results only, never at the baseline's. -/
theorem regressed_fatal_iff {results baselineFile : Json} {report : Report}
    {entries baseline : List (Text × Json)} {p : Text × Json}
    (hran : results.getD "veristat_ran" (.bool false) = some (.bool true))
    (hentries : results.item "targets" = some (.obj entries))
    (hbaseline : baselineFile.item "targets" = some (.obj baseline))
    (hmain : CheckResults.main results (some baselineFile) false = some report)
    (hreg : Regressed entries baseline p) :
    report.status = 1 ↔ ¬ (Boundary p.2 ∧ Quiet p.2) ∨ Finding results entries baseline p := by
  obtain ⟨hp, hverdict, -⟩ := hreg
  have hnot : ¬ Verified p.2 := by
    intro hv
    rw [hv.verdict] at hverdict
    cases hverdict
  rw [status_eq_one_iff hran rfl hmain hentries hbaseline]
  constructor
  · contrapose!
    rintro ⟨haccepted, hnone⟩
    constructor
    case each =>
      intro q hq
      by_cases hqp : q = p
      · rw [hqp]
        exact ⟨.inr haccepted.1, haccepted.2⟩
      · by_contra h
        exact hnone (.target q hq hqp h)
    case messages => exact fun text htext line hline h => hnone (.message text line htext hline h)
    case compared =>
      intro b hb
      by_contra h
      push Not at h
      by_cases hmiss : ∀ t, get? b.1 entries = some t → t.isNone = true
      · exact hnone (.missing b hb hmiss)
      · push Not at hmiss
        obtain ⟨t, ht, hobj⟩ := hmiss
        exact hnone (.collapsed b hb t ht (h t ht (by simpa using hobj)))
    case known =>
      intro name hname
      by_contra h
      exact hnone (.new name hname h)
  · intro h hclean
    cases h with
    | inl hrejected =>
      obtain ⟨hpass, hquiet⟩ := hclean.each p hp
      exact hrejected ⟨hpass.resolve_left hnot, hquiet⟩
    | inr hfinding =>
      cases hfinding with
      | target q hq hne h => exact h (hclean.each q hq)
      | message text line htext hline h => exact hclean.messages text htext line hline h
      | missing b hb h =>
        obtain ⟨t, ht, hobj, -⟩ := hclean.compared b hb
        rw [h t ht] at hobj
        cases hobj
      | collapsed b hb t ht h =>
        obtain ⟨t', ht', -, hkeep⟩ := hclean.compared b hb
        obtain rfl : t = t' := Option.some.inj (ht.symm.trans ht')
        exact hkeep h
      | new name hname h => exact h (hclean.known name hname)

/-- A boundary that has failed as expected. -/
def boundaryEntry : List (Text × Json) :=
  [("compiled".toList, .bool true), ("expect_failure".toList, .str "R0 invalid".toList),
   ("verdict".toList, .str "failure".toList), ("expect_failure_matched".toList, .bool true)]

def boundaryResults : Json :=
  .obj [("veristat_ran".toList, .bool true),
    ("targets".toList, .obj [("crc16".toList, .obj boundaryEntry)])]

/-- Of a time when the same target still verified. -/
def successEntry : List (Text × Json) := [("verdict".toList, .str "success".toList)]

def successBaseline : Json := .obj [("targets".toList, .obj [("crc16".toList, .obj successEntry)])]

lemma boundary_main : ∃ report,
    CheckResults.main boundaryResults (some successBaseline) false = some report ∧
      report.status = 0 := by
  have hsilent : Silent boundaryResults successBaseline [("crc16".toList, .obj boundaryEntry)]
      [("crc16".toList, .obj successEntry)] := by
    constructor
    case resultTargets => rfl
    case baselineTargets => rfl
    case each =>
      intro p hp
      rw [List.mem_singleton.mp hp]
      rfl
    case messages => exact ⟨.str [], rfl, rfl⟩
    case compared =>
      intro p hp
      rw [List.mem_singleton.mp hp]
      rfl
    case known =>
      rw [newTargets, sortedItems, List.mergeSort_singleton]
      rfl
  have hhollow : [("crc16".toList, Json.obj boundaryEntry)].mapM (fun p => hollow? p.1 p.2) =
      some [[]] := by
    rfl
  exact main_of_silent hsilent rfl rfl hhollow

lemma boundary_regressed : Regressed [("crc16".toList, .obj boundaryEntry)]
    [("crc16".toList, .obj successEntry)] ("crc16".toList, .obj boundaryEntry) :=
  ⟨List.mem_singleton_self _, rfl, _, List.mem_singleton_self _, rfl⟩

/-- The baseline has `success`, the results have `failure`, and the gate returns 0. -/
theorem regressed_passes :
    boundaryResults.getD "veristat_ran" (.bool false) = some (.bool true) ∧
    boundaryResults.item "targets" = some (.obj [("crc16".toList, .obj boundaryEntry)]) ∧
    successBaseline.item "targets" = some (.obj [("crc16".toList, .obj successEntry)]) ∧
    Regressed [("crc16".toList, .obj boundaryEntry)] [("crc16".toList, .obj successEntry)]
      ("crc16".toList, .obj boundaryEntry) ∧
    ∃ report, CheckResults.main boundaryResults (some successBaseline) false = some report ∧
      report.status = 0 :=
  ⟨rfl, rfl, rfl, boundary_regressed, boundary_main⟩

theorem regressed_fatal_iff_crc16 :
    ∃ report, CheckResults.main boundaryResults (some successBaseline) false = some report ∧
      (report.status = 1 ↔ ¬ (Boundary (.obj boundaryEntry) ∧ Quiet (.obj boundaryEntry)) ∨
        Finding boundaryResults [("crc16".toList, .obj boundaryEntry)]
          [("crc16".toList, .obj successEntry)] ("crc16".toList, .obj boundaryEntry)) := by
  obtain ⟨report, hmain, -⟩ := boundary_main
  exact ⟨report, hmain, regressed_fatal_iff rfl rfl rfl hmain boundary_regressed⟩

end BpfVerify.Baseline
