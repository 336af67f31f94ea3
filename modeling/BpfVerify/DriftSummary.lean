import BpfVerify.BaselineUpdate

/-!
# The drift summary

`scripts/summarize_drift.py`, which the tracking job runs over the same results that
`check_results.py` gates, and what the one says of results that the other passes.
-/
namespace BpfVerify.DriftSummary
open Python Json CheckResults Baseline

inductive Line where
  | noResults
  | compileHeader
  | compileFailed (name : Text)
  | verifyHeader
  | verifyFailed (name : Text) (verdict : Json)
  | noDrift

/-- `e.get("verdict") not in (None, "success")` -/
def unsuccessful (verdict : Json) : Bool := !verdict.isNone && !verdict.isStr "success"

def compileFail (targets : List (Text × Json)) : Option (List Text) := do
  let failed ← targets.mapM fun p => do
    if !(← p.2.get "compiled").truthy then return [p.1] else return []
  return failed.flatten

def verifyFail (targets : List (Text × Json)) : Option (List (Text × Json)) := do
  let failed ← targets.mapM fun p => do
    if (← p.2.get "compiled").truthy then
      let verdict ← p.2.get "verdict"
      if unsuccessful verdict then return [(p.1, verdict)] else return []
    else return []
  return failed.flatten

def printed (compileFail : List Text) (verifyFail : List (Text × Json)) : List Line :=
  (if compileFail ≠ [] then .compileHeader :: compileFail.map .compileFailed else []) ++
  (if verifyFail ≠ [] then .verifyHeader :: verifyFail.map (fun p => .verifyFailed p.1 p.2)
    else []) ++
  if compileFail = [] ∧ verifyFail = [] then [.noDrift] else []

/-- What is printed of the parsed file, if there is one; `none` is an uncaught exception. -/
def main (results : Option Json) : Option (List Line) :=
  match results with
  | none => some [.noResults]
  | some results => do
    let targets ← items (← results.getD "targets" (.obj []))
    return printed (← compileFail targets) (← verifyFail targets)

/-! ## The two lists -/

lemma mapM_of_forall {α β : Type} {f : α → Option β} {g : α → β} {l : List α}
    (h : ∀ x ∈ l, f x = some (g x)) : l.mapM f = some (l.map g) := by
  induction l with
  | nil => rfl
  | cons x l ih =>
    rw [List.mapM_cons, h x (List.mem_cons_self ..),
      ih fun y hy => h y (List.mem_cons_of_mem _ hy)]
    rfl

lemma flatten_map_ite {α β : Type} (p : α → Bool) (g : α → β) (l : List α) :
    (l.map fun x => if p x then [g x] else []).flatten = (l.filter p).map g := by
  induction l with
  | nil => rfl
  | cons x l ih =>
    cases hp : p x <;> simp [hp, ih]

/-- Every target has a dictionary, as the pipeline writes it. -/
def Objects (entries : List (Text × Json)) : Prop := ∀ p ∈ entries, ∃ members, p.2 = .obj members

variable {entries : List (Text × Json)}

lemma Objects.get (h : Objects entries) {p : Text × Json} (hp : p ∈ entries) (key : String) :
    p.2.get key = some (field p.2 key) := by
  obtain ⟨members, hobj⟩ := h p hp
  rw [hobj, get_eq_field]

def uncompiled (p : Text × Json) : Bool := !(field p.2 "compiled").truthy

def unverified (p : Text × Json) : Bool :=
  (field p.2 "compiled").truthy && unsuccessful (field p.2 "verdict")

lemma compileFail_eq (h : Objects entries) :
    compileFail entries = some ((entries.filter uncompiled).map Prod.fst) := by
  have hall : ∀ p ∈ entries, (do
      if !(← p.2.get "compiled").truthy then return [p.1] else return [] : Option (List Text)) =
        some (if uncompiled p then [p.1] else []) := by
    intro p hp
    simp only [h.get hp, Option.bind_eq_bind, Option.bind_some, uncompiled]
    split_ifs <;> simp_all
  rw [compileFail, mapM_of_forall hall, Option.bind_eq_bind, Option.bind_some,
    flatten_map_ite]
  rfl

lemma verifyFail_eq (h : Objects entries) :
    verifyFail entries =
      some ((entries.filter unverified).map fun p => (p.1, field p.2 "verdict")) := by
  have hall : ∀ p ∈ entries, (do
      if (← p.2.get "compiled").truthy then
        let verdict ← p.2.get "verdict"
        if unsuccessful verdict then return [(p.1, verdict)] else return []
      else return [] : Option (List (Text × Json))) =
        some (if unverified p then [(p.1, field p.2 "verdict")] else []) := by
    intro p hp
    simp only [h.get hp, Option.bind_eq_bind, Option.bind_some, unverified, Bool.and_eq_true]
    split_ifs <;> simp_all
  rw [verifyFail, mapM_of_forall hall, Option.bind_eq_bind, Option.bind_some, flatten_map_ite]
  rfl

lemma main_eq {results : Json} (hentries : results.item "targets" = some (.obj entries))
    (h : Objects entries) :
    main (some results) = some (printed ((entries.filter uncompiled).map Prod.fst)
      ((entries.filter unverified).map fun p => (p.1, field p.2 "verdict"))) := by
  cases results with
  | obj members =>
    have htargets : (Json.obj members).getD "targets" (.obj []) = some (.obj entries) := by
      rw [getD_obj, ← item_obj, hentries, Option.getD_some]
    rw [main]
    simp only [htargets, items, compileFail_eq h, verifyFail_eq h, Option.bind_eq_bind,
      Option.bind_some]
    rfl
  | _ => cases hentries

/-! ## After the gate -/

lemma Verified.listed {p : Text × Json} (h : Verified p.2) :
    uncompiled p = false ∧ unverified p = false := by
  simp [uncompiled, unverified, unsuccessful, h.compiled, h.verdict]

lemma Boundary.listed {p : Text × Json} (h : Boundary p.2) :
    uncompiled p = false ∧ unverified p = true := by
  simp [uncompiled, unverified, unsuccessful, h.compiled, h.verdict, h.ran]

/-- A gate that returns 0, whatever it has compared or written, has nothing to report of itself. -/
lemma absoluteErrors_of_passed {results ran : Json} {old : Option Json} {update : Bool}
    {report : Report} (hran : results.getD "veristat_ran" (.bool false) = some ran)
    (hmain : CheckResults.main results old update = some report) (hstatus : report.status = 0) :
    ∃ entries, results.item "targets" = some (.obj entries) ∧
      absoluteErrors results entries ran.truthy = some [] := by
  unfold CheckResults.main at hmain
  obtain ⟨targets, htargets, h⟩ := Option.bind_eq_some_iff.mp hmain
  obtain ⟨entries, hentries, h⟩ := Option.bind_eq_some_iff.mp h
  obtain ⟨ran', hran', h⟩ := Option.bind_eq_some_iff.mp h
  obtain rfl : ran = ran' := Option.some.inj (hran.symm.trans hran')
  obtain ⟨errors, herrors, h⟩ := Option.bind_eq_some_iff.mp h
  refine ⟨entries, by rw [htargets, GateSound.items_eq_some hentries], ?_⟩
  rw [herrors]
  congr 1
  cases update with
  | true =>
    rw [if_pos rfl] at h
    by_contra hne
    rw [if_pos fun h0 => hne (List.length_eq_zero_iff.mp h0)] at h
    rw [← Option.some.inj h] at hstatus
    cases hstatus
  | false =>
    rw [if_neg Bool.false_ne_true] at h
    obtain ⟨compared, hreport⟩ : ∃ compared,
        report.status = if (errors ++ compared).length ≠ 0 then 1 else 0 := by
      cases old with
      | none =>
        obtain ⟨⟨compared, warnings⟩, -, h⟩ := Option.bind_eq_some_iff.mp h
        obtain ⟨hollow, -, h⟩ := Option.bind_eq_some_iff.mp h
        exact ⟨compared, by rw [← Option.some.inj h]⟩
      | some file =>
        dsimp only at h
        split_ifs at h
        all_goals
          obtain ⟨⟨compared, warnings⟩, -, h⟩ := Option.bind_eq_some_iff.mp h
          obtain ⟨hollow, -, h⟩ := Option.bind_eq_some_iff.mp h
          exact ⟨compared, by rw [← Option.some.inj h]⟩
    by_contra hne
    rw [hreport, if_pos (by simp [hne])] at hstatus
    cases hstatus

/-- Of results that the gate passes after a run of the verifier, the summary prints as failed in
verification exactly the documented boundaries, and nothing else. -/
theorem summary_of_passed {results ran : Json} {old : Option Json} {update : Bool}
    {report : Report} (hran : results.getD "veristat_ran" (.bool false) = some ran)
    (htrue : ran.truthy = true) (hmain : CheckResults.main results old update = some report)
    (hstatus : report.status = 0) :
    ∃ entries, results.item "targets" = some (.obj entries) ∧
      main (some results) = some (printed []
        ((entries.filter fun p => (field p.2 "expect_failure").truthy).map
          fun p => (p.1, field p.2 "verdict"))) := by
  obtain ⟨entries, hentries, habsolute⟩ := absoluteErrors_of_passed hran hmain hstatus
  rw [htrue] at habsolute
  have heach := (absoluteErrors_eq_nil habsolute).1
  have hobjects : Objects entries := fun p hp => (targetErrors_nil_compiled (heach p hp)).1
  have hkind : ∀ p ∈ entries, Verified p.2 ∨ Boundary p.2 := fun p hp =>
    ((targetErrors_nil_iff (heach p hp)).mp rfl).1
  refine ⟨entries, hentries, ?_⟩
  have hcompiled : entries.filter uncompiled = [] := by
    refine List.filter_eq_nil_iff.mpr fun p hp => ?_
    rcases hkind p hp with h | h
    · simp [(Verified.listed h).1]
    · simp [(Boundary.listed h).1]
  have hverified : entries.filter unverified =
      entries.filter fun p => (field p.2 "expect_failure").truthy := by
    refine List.filter_congr fun p hp => ?_
    rcases hkind p hp with h | h
    · rw [(Verified.listed h).2, h.expect]
    · rw [(Boundary.listed h).2, h.expect]
  rw [main_eq hentries hobjects, hcompiled, hverified]
  rfl

theorem summary_of_passed_boundary :
    ∃ entries, boundaryResults.item "targets" = some (.obj entries) ∧
      main (some boundaryResults) = some (printed []
        ((entries.filter fun p => (field p.2 "expect_failure").truthy).map
          fun p => (p.1, field p.2 "verdict"))) := by
  obtain ⟨report, hmain, hstatus⟩ := boundary_main
  exact summary_of_passed rfl rfl hmain hstatus

/-! ## No drift -/

lemma printed_eq_noDrift {names : List Text} {verdicts : List (Text × Json)} :
    printed names verdicts = [.noDrift] ↔ names = [] ∧ verdicts = [] := by
  constructor
  · intro h
    cases names with
    | cons name names => simp [printed] at h
    | nil =>
      cases verdicts with
      | cons p verdicts => simp [printed] at h
      | nil => exact ⟨rfl, rfl⟩
  · rintro ⟨rfl, rfl⟩
    rfl

/-- What the gate still finds in an entry that the summary passes over. -/
def Overlooked (name : Text) (e : GateError) : Prop :=
  e = .noVerdict name ∨ ∃ expect, e = .boundaryLifted name expect

lemma overlooked_iff (p : Text × Json) (hp : ∃ members, p.2 = .obj members) :
    uncompiled p = false ∧ unverified p = false ↔
      ¬ Boundary p.2 ∧ ∃ errors, verdictErrors true p.1 p.2 = some errors ∧
        ∀ e ∈ errors, Overlooked p.1 e := by
  obtain ⟨name, t⟩ := p
  obtain ⟨members, rfl⟩ := hp
  dsimp only
  rw [boundary_iff, uncompiled, unverified, unsuccessful, verdictErrors]
  simp only [get_eq_field, getD_obj, Option.bind_eq_bind, Option.bind_some]
  generalize field (.obj members) "expect_failure" = expect
  generalize field (.obj members) "compiled" = compiled
  generalize field (.obj members) "verdict" = verdict
  generalize field (.obj members) "expect_failure_matched" = matched
  have hnone : verdict.isStr "success" = true → verdict.isNone = false := isNone_of_isStr
  split_ifs <;> simp_all [Overlooked]

/-- The summary prints that there is no drift exactly when no target is a boundary that has failed
as documented, and the gate finds nothing in the verdicts of a verifier's run but verdicts that are
missing and boundaries that are lifted. -/
theorem noDrift_iff {results : Json} {entries : List (Text × Json)}
    (hentries : results.item "targets" = some (.obj entries)) (h : Objects entries) :
    main (some results) = some [.noDrift] ↔
      ∀ p ∈ entries, ¬ Boundary p.2 ∧ ∃ errors, verdictErrors true p.1 p.2 = some errors ∧
        ∀ e ∈ errors, Overlooked p.1 e := by
  rw [main_eq hentries h, Option.some.injEq, printed_eq_noDrift, List.map_eq_nil_iff,
    List.map_eq_nil_iff, List.filter_eq_nil_iff, List.filter_eq_nil_iff]
  constructor
  · rintro ⟨hcompiled, hverified⟩ p hp
    refine (overlooked_iff p (h p hp)).mp ⟨?_, ?_⟩
    · simpa using hcompiled p hp
    · simpa using hverified p hp
  · intro hall
    constructor
    · intro p hp
      simpa using ((overlooked_iff p (h p hp)).mpr (hall p hp)).1
    · intro p hp
      simpa using ((overlooked_iff p (h p hp)).mpr (hall p hp)).2

theorem noDrift_iff_boundary :
    main (some boundaryResults) = some [.noDrift] ↔
      ∀ p ∈ [("crc16".toList, Json.obj boundaryEntry)], ¬ Boundary p.2 ∧
        ∃ errors, verdictErrors true p.1 p.2 = some errors ∧ ∀ e ∈ errors, Overlooked p.1 e :=
  noDrift_iff rfl fun p hp => ⟨boundaryEntry, by rw [List.mem_singleton.mp hp]⟩

end BpfVerify.DriftSummary
