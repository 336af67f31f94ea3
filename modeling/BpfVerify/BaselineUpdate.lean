import BpfVerify.Baseline

/-!
# Updates of the baseline

`check_results.py --update-baseline` writes the results as the new baseline. What the file is good
for is seen in later runs.
-/
namespace BpfVerify.Baseline
open Python Json CheckResults GateSound

/-! ## The file written -/

/-- The entry that the results' entry `t` leaves in the baseline. -/
def record (t : Json) : Json :=
  .obj (["verdict", "insns", "states"].filterMap fun key =>
    (t.item key).map fun v => (key.toList, v))

def recorded (entries : List (Text × Json)) : List (Text × Json) :=
  (sortedItems entries).map fun p => (p.1, record p.2)

lemma mem_recorded {entries : List (Text × Json)} {q : Text × Json} :
    q ∈ recorded entries ↔ ∃ t, (q.1, t) ∈ entries ∧ record t = q.2 := by
  rw [recorded, List.mem_map]
  constructor
  · rintro ⟨p, hp, rfl⟩
    exact ⟨p.2, mem_sortedItems.mp hp, rfl⟩
  · rintro ⟨t, ht, hq⟩
    exact ⟨(q.1, t), mem_sortedItems.mpr ht, Prod.ext rfl hq⟩

lemma names_recorded (entries : List (Text × Json)) :
    ((recorded entries).map Prod.fst).Perm (entries.map Prod.fst) := by
  rw [recorded, List.map_map]
  exact (List.mergeSort_perm _ _).map _

/-- `{k: t[k] for k in keys if k in t}` keeps what `t` has at the keys. -/
lemma get?_pick (members : List (Text × Json)) {key : String} {keys : List String}
    (hkey : key ∈ keys) :
    get? key.toList (keys.filterMap fun k => (get? k.toList members).map fun v => (k.toList, v)) =
      get? key.toList members := by
  suffices h : ∀ keys : List String, get? key.toList (keys.filterMap fun k =>
      (get? k.toList members).map fun v => (k.toList, v)) =
      if key ∈ keys then get? key.toList members else none by
    rw [h keys, if_pos hkey]
  intro keys
  induction keys with
  | nil => rfl
  | cons k keys ih =>
    rw [List.filterMap_cons]
    cases hk : get? k.toList members with
    | none =>
      simp only [Option.map_none]
      rw [ih]
      by_cases heq : key = k
      · simp [heq, hk]
      · simp [heq]
    | some v =>
      simp only [Option.map_some]
      rw [get?_cons, ih]
      by_cases heq : key = k
      · simp [heq, hk]
      · simp [heq, Ne.symm heq, String.toList_inj]

lemma field_record (t : Json) {key : String} (hkey : key ∈ ["verdict", "insns", "states"]) :
    field (record t) key = field t key := by
  cases t with
  | obj members =>
    rw [record, field_obj, field_obj]
    simp only [item_obj]
    rw [get?_pick members hkey]
  | _ => rfl

lemma newBaseline_eq {results written : Json} {entries : List (Text × Json)}
    (h : newBaseline results entries = some written) :
    written.item "targets" = some (.obj (recorded entries)) := by
  obtain ⟨schema, -, h⟩ := Option.bind_eq_some_iff.mp h
  rw [← Option.some.inj h, item_obj, get?_cons, if_neg (by simp), get?_cons,
    if_pos rfl]
  rfl

/-- What `--update-baseline` has done when it returns. -/
lemma main_update {results : Json} {old : Option Json} {entries : List (Text × Json)} {ran : Json}
    {report : Report} (hentries : results.item "targets" = some (.obj entries))
    (hran : results.getD "veristat_ran" (.bool false) = some ran)
    (hmain : CheckResults.main results old true = some report) :
    ∃ errors, absoluteErrors results entries ran.truthy = some errors ∧
      (errors ≠ [] ∧ report.written = none ∧ report.status = 1 ∨
        errors = [] ∧ report.status = 0 ∧ ∃ written, newBaseline results entries = some written ∧
          report.written = some written) := by
  unfold CheckResults.main at hmain
  simp only [hentries, items, hran, Option.bind_eq_bind, Option.bind_some, if_true] at hmain
  obtain ⟨errors, herrors, h⟩ := Option.bind_eq_some_iff.mp hmain
  refine ⟨errors, herrors, ?_⟩
  split_ifs at h with hlen
  · rw [← Option.some.inj h]
    exact .inl ⟨fun h0 => hlen (by rw [h0]; rfl), rfl, rfl⟩
  · obtain ⟨written, hwritten, h⟩ := Option.bind_eq_some_iff.mp h
    rw [← Option.some.inj h]
    refine .inr ⟨List.length_eq_zero_iff.mp (not_not.mp hlen), rfl, written, hwritten, rfl⟩

/-! ## The results against themselves -/

/-- The count is not below the gate's half of itself. -/
def Keeps (v : Json) : Prop :=
  v.truthy = true → ∃ x, mulFloat v degenerationRatio = some x ∧ ltFloat v x = some false

/-- The count of a coverage target that verifies can be compared with 4. -/
def Countable (t : Json) : Prop :=
  (field t "suite").isStr "coverage" = true → (field t "verdict").isStr "success" = true →
    atMostFour (field t "insns") ≠ none

lemma get_eq_field (members : List (Text × Json)) (key : String) :
    (Json.obj members).get key = some (field (.obj members) key) := by
  rw [field, get_obj, Option.getD_some]

lemma hollow?_isSome_iff (name : Text) (members : List (Text × Json)) :
    (∃ names, hollow? name (.obj members) = some names) ↔ Countable (.obj members) := by
  unfold hollow? Countable
  simp only [get_eq_field, Option.bind_eq_bind, Option.bind_some]
  generalize field (.obj members) "suite" = suite
  generalize field (.obj members) "verdict" = verdict
  generalize atMostFour (field (.obj members) "insns") = small
  cases suite.isStr "coverage" with
  | false => simp
  | true =>
    cases verdict.isStr "success" with
    | false => simp
    | true =>
      cases small with
      | none => simp
      | some small =>
        cases small with
        | true => simp
        | false => simp

/-- A comparison that comes to an end and finds nothing. -/
lemma baselineErrors_eq_nil_iff {entries : List (Text × Json)} {name : Text}
    {members bMembers : List (Text × Json)} (ht : get? name entries = some (.obj members)) :
    baselineErrors entries name (.obj bMembers) = some [] ↔
      ((field (.obj members) "compiled").truthy = true →
        (field (.obj members) "verdict").isStr "success" = true →
        (field (.obj bMembers) "insns").truthy = true →
        (field (.obj members) "insns").isNone = false →
        ∃ x, mulFloat (field (.obj bMembers) "insns") degenerationRatio = some x ∧
          ltFloat (field (.obj members) "insns") x = some false) := by
  have hobj : (Json.obj members).isNone = false := rfl
  unfold baselineErrors
  simp only [ht, Option.getD_some, hobj, get_eq_field, Option.bind_eq_bind, Option.bind_some]
  generalize field (.obj members) "compiled" = compiled
  generalize field (.obj members) "verdict" = verdict
  generalize field (.obj members) "insns" = tInsns
  generalize field (.obj bMembers) "insns" = bInsns
  rw [if_neg Bool.false_ne_true]
  by_cases hrun : compiled.truthy = true ∧ verdict.isStr "success" = true
  · by_cases hcount : bInsns.truthy = true ∧ tInsns.isNone = false
    · simp only [hrun.1, hrun.2, hcount.1, hcount.2, Bool.not_true, Bool.or_self, Bool.not_false,
        Bool.and_self, Bool.false_eq_true, if_false, if_true, true_implies]
      cases mulFloat bInsns degenerationRatio with
      | none => simp
      | some x =>
        cases hlt : ltFloat tInsns x with
        | none => simp [hlt]
        | some below =>
          cases below with
          | true => simp [hlt]
          | false => simp [hlt]
    · have hskip : (bInsns.truthy && !tInsns.isNone) = false := by simpa using hcount
      rw [hskip]
      simp only [Bool.false_eq_true, if_false, ite_self]
      exact iff_of_true rfl fun _ _ hb ht' => absurd ⟨hb, ht'⟩ hcount
  · rw [if_pos (by simpa [imp_iff_not_or] using hrun)]
    exact iff_of_true rfl fun hc hv => absurd ⟨hc, hv⟩ hrun

/-- The absolute gates have nothing to report. -/
lemma absoluteErrors_eq_nil {results : Json} {entries : List (Text × Json)} {ran : Bool}
    (h : absoluteErrors results entries ran = some []) :
    (∀ p ∈ entries, targetErrors ran p.1 p.2 = some []) ∧
      ∃ stderr, results.getD "veristat_stderr" (.str []) = some stderr ∧
        openErrors stderr = some [] := by
  obtain ⟨perTarget, hper, h⟩ := Option.bind_eq_some_iff.mp h
  obtain ⟨stderr, hstderr, h⟩ := Option.bind_eq_some_iff.mp h
  obtain ⟨perLine, hline, h⟩ := Option.bind_eq_some_iff.mp h
  obtain ⟨hflat, hlines⟩ := List.append_eq_nil_iff.mp (Option.some.inj h)
  refine ⟨?_, stderr, hstderr, by rw [hline, hlines]⟩
  exact fun p hp => (flatten_eq_nil_iff hper).mp hflat p (mem_sortedItems.mpr hp)

/-- An entry that passes is an object and compiled, whether or not the verifier ran. -/
lemma targetErrors_nil_compiled {ran : Bool} {name : Text} {t : Json}
    (h : targetErrors ran name t = some []) :
    (∃ members, t = .obj members) ∧ (field t "compiled").truthy = true := by
  obtain ⟨verdict, hverdict, h⟩ := Option.bind_eq_some_iff.mp h
  obtain ⟨execution, -, h⟩ := Option.bind_eq_some_iff.mp h
  obtain ⟨rfl, -⟩ := List.append_eq_nil_iff.mp (Option.some.inj h)
  cases t with
  | obj members =>
    refine ⟨⟨members, rfl⟩, ?_⟩
    by_contra hcompiled
    unfold verdictErrors at hverdict
    simp only [get_eq_field, getD_obj, Option.bind_eq_bind, Option.bind_some] at hverdict
    rw [if_pos (by simpa using hcompiled)] at hverdict
    cases hverdict
  | _ => simp [verdictErrors, Json.get, Json.getD] at hverdict

/-- Where the verifier did not run, nothing is compared. -/
lemma main_unran {results file : Json} {entries : List (Text × Json)} {ran : Json}
    (hentries : results.item "targets" = some (.obj entries))
    (hran : results.getD "veristat_ran" (.bool false) = some ran) (hfalse : ran.truthy = false)
    (habsolute : absoluteErrors results entries false = some []) :
    (∃ report, CheckResults.main results (some file) false = some report ∧ report.status = 0) ↔
      ∃ hollow, entries.mapM (fun p => hollow? p.1 p.2) = some hollow := by
  simp only [CheckResults.main, hentries, items, hran, hfalse, habsolute, Option.bind_eq_bind,
    Option.bind_some, Bool.false_eq_true, if_false, Bool.not_false, if_true]
  cases entries.mapM (fun p => hollow? p.1 p.2) with
  | none => simp
  | some hollow => simp

section Accepted

variable {results written ran : Json} {entries : List (Text × Json)}

/-- The comparison of a target with what it has left in the baseline. -/
lemma self_compared (hkeys : (entries.map Prod.fst).Nodup) {p : Text × Json} (hp : p ∈ entries)
    (hobj : ∃ members, p.2 = .obj members) (hcompiled : (field p.2 "compiled").truthy = true) :
    baselineErrors entries p.1 (record p.2) = some [] ↔
      ((field p.2 "verdict").isStr "success" = true → Keeps (field p.2 "insns")) := by
  obtain ⟨name, t⟩ := p
  obtain ⟨members, rfl⟩ := hobj
  have hget := get?_of_mem hkeys hp
  have hinsns : field (record (.obj members)) "insns" = field (.obj members) "insns" :=
    field_record _ (by simp)
  dsimp only at hcompiled hget ⊢
  rw [record] at hinsns ⊢
  rw [baselineErrors_eq_nil_iff hget, hinsns, Keeps]
  constructor
  · intro h hv htrue
    exact h hcompiled hv htrue (isNone_of_truthy htrue)
  · exact fun h _ hv htrue _ => h hv htrue

variable (hentries : results.item "targets" = some (.obj entries))
  (hkeys : (entries.map Prod.fst).Nodup)
  (hran : results.getD "veristat_ran" (.bool false) = some ran)
  (habsolute : absoluteErrors results entries ran.truthy = some [])
  (hwritten : written.item "targets" = some (.obj (recorded entries)))
include hentries hkeys hran habsolute hwritten

/-- When the gate accepts the results that a baseline was written from. -/
lemma accepts_iff :
    (∃ report, CheckResults.main results (some written) false = some report ∧
      report.status = 0) ↔ (∀ p ∈ entries, Countable p.2) ∧ (ran.truthy = true →
        ∀ p ∈ entries, (field p.2 "verdict").isStr "success" = true →
          Keeps (field p.2 "insns")) := by
  obtain ⟨heach, hmessages⟩ := absoluteErrors_eq_nil habsolute
  have hcount : (∃ hollow, entries.mapM (fun p => hollow? p.1 p.2) = some hollow) ↔
      ∀ p ∈ entries, Countable p.2 := by
    constructor
    · rintro ⟨hollow, h⟩ p hp
      obtain ⟨members, hobj⟩ := (targetErrors_nil_compiled (heach p hp)).1
      obtain ⟨names, -, hnames⟩ := (mapM_eq_some h).1 p hp
      rw [hobj] at hnames ⊢
      exact (hollow?_isSome_iff _ _).mp ⟨names, hnames⟩
    · intro h
      apply exists_mapM
      intro p hp
      obtain ⟨members, hobj⟩ := (targetErrors_nil_compiled (heach p hp)).1
      have hp' := h p hp
      rw [hobj] at hp' ⊢
      exact (hollow?_isSome_iff _ _).mpr hp'
  have hself : ∀ p ∈ entries, baselineErrors entries p.1 (record p.2) = some [] ↔
      ((field p.2 "verdict").isStr "success" = true → Keeps (field p.2 "insns")) := by
    intro p hp
    obtain ⟨hobj, hcompiled⟩ := targetErrors_nil_compiled (heach p hp)
    exact self_compared hkeys hp hobj hcompiled
  by_cases htrue : ran.truthy = true
  · constructor
    · rintro ⟨report, hmain, hstatus⟩
      obtain ⟨entries', baseline, hs⟩ := main_silent hran htrue hmain hstatus
      obtain rfl := item_obj_unique hs.resultTargets hentries
      obtain rfl := item_obj_unique hs.baselineTargets hwritten
      obtain ⟨entries'', _, _, _, _, _, hollow, htargets, -, -, -, -, -, hhollow, -, -⟩ :=
        main_compared hran htrue hmain
      obtain rfl := item_obj_unique htargets hentries
      refine ⟨hcount.mp ⟨hollow, hhollow⟩, ?_⟩
      intro _ p hp
      exact (hself p hp).mp (hs.compared (p.1, record p.2) (mem_recorded.mpr ⟨p.2, hp, rfl⟩))
    · rintro ⟨hcountable, hkeeps⟩
      obtain ⟨hollow, hhollow⟩ := hcount.mpr hcountable
      have hsilent : Silent results written entries (recorded entries) := by
        constructor
        case resultTargets => exact hentries
        case baselineTargets => exact hwritten
        case each =>
          rw [htrue] at heach
          exact heach
        case messages => exact hmessages
        case compared =>
          intro q hq
          obtain ⟨t, ht, hrec⟩ := mem_recorded.mp hq
          rw [← hrec]
          exact (hself (q.1, t) ht).mpr (hkeeps htrue (q.1, t) ht)
        case known =>
          exact newTargets_nil_iff.mpr fun name => (names_recorded entries).mem_iff.mpr
      exact main_of_silent hsilent hran htrue hhollow
  · rw [Bool.not_eq_true] at htrue
    rw [htrue] at habsolute
    rw [main_unran hentries hran htrue habsolute, hcount, htrue]
    simp

end Accepted

/-! ## Half of a count -/

/-- The gate's half of `m` is above every count that is below half of `m`. -/
def Halves (m : ℤ) : Prop :=
  ∀ x, mulFloat (.int m) degenerationRatio = some x → Double.intLt ((m - 1) / 2) x = true

lemma intLt_of_le {n m : ℤ} {x : Double} (h : n ≤ m) (hm : Double.intLt m x = true) :
    Double.intLt n x = true := by
  cases x with
  | nan => exact hm
  | inf negative => exact hm
  | fin q hq =>
    simp only [Double.intLt, decide_eq_true_eq] at hm ⊢
    have : (n : ℚ) ≤ m := by exact_mod_cast h
    linarith

lemma Halves.intLt {m n : ℤ} (h : Halves m) (hn : 2 * n < m) {x : Double}
    (hx : mulFloat (.int m) degenerationRatio = some x) : Double.intLt n x = true :=
  intLt_of_le (by omega) (h x hx)

/-- The counts that a double holds have an exact half. -/
lemma halves_of_le {m : ℤ} (h : |m| ≤ 2 ^ 53) : Halves m := by
  intro x hx
  obtain ⟨hr, hprod⟩ := mulFloat_int h
  rw [← Option.some.inj (hprod.symm.trans hx), Double.intLt, decide_eq_true_eq]
  have hlt : 2 * ((m - 1) / 2) < m := by omega
  have hlt' : 2 * (((m - 1) / 2 : ℤ) : ℚ) < m := by exact_mod_cast hlt
  linarith

/-! ## A later run -/

/-- The entry of a target that verifies with the count `insns`. -/
def passing (insns : Json) : Json :=
  .obj [("compiled".toList, .bool true), ("verdict".toList, .str "success".toList),
    ("insns".toList, insns)]

lemma targetErrors_passing (ran : Bool) (name : Text) (insns : Json) :
    targetErrors ran name (passing insns) = some [] := by
  cases ran with
  | true => rfl
  | false => rfl

/-- The same targets verify later, `name` with the count `n`, the others with none. -/
def laterEntries (entries : List (Text × Json)) (name : Text) (n : ℤ) : List (Text × Json) :=
  entries.map fun q => (q.1, passing (if q.1 = name then .int n else .null))

lemma get?_later {entries : List (Text × Json)} {name name' : Text} {n : ℤ}
    (h : name' ∈ entries.map Prod.fst) : get? name' (laterEntries entries name n) =
      some (passing (if name' = name then .int n else .null)) := by
  induction entries with
  | nil => cases h
  | cons q entries ih =>
    rw [laterEntries, List.map_cons, get?_cons]
    by_cases hq : q.1 = name'
    · rw [if_pos hq, hq]
    · rw [if_neg hq]
      apply ih
      cases List.mem_cons.mp h with
      | inl heq => exact absurd heq.symm hq
      | inr hrest => exact hrest

def laterResults (entries : List (Text × Json)) (name : Text) (n : ℤ) : Json :=
  .obj [("veristat_ran".toList, .bool true),
    ("targets".toList, .obj (laterEntries entries name n))]

/-- The later run passes where the gate does not see the count collapse. -/
lemma later_accepted {entries : List (Text × Json)} {written : Json} {p : Text × Json} {m n : ℤ}
    (hkeys : (entries.map Prod.fst).Nodup) (hp : p ∈ entries) (hinsns : field p.2 "insns" = .int m)
    (hwritten : written.item "targets" = some (.obj (recorded entries)))
    {x : Double} (hx : mulFloat (.int m) degenerationRatio = some x)
    (hlt : Double.intLt n x = false) :
    ∃ report, CheckResults.main (laterResults entries p.1 n) (some written) false = some report ∧
      report.status = 0 := by
  have hnames : (laterEntries entries p.1 n).map Prod.fst = entries.map Prod.fst := by
    rw [laterEntries, List.map_map]
    rfl
  have hsilent : Silent (laterResults entries p.1 n) written (laterEntries entries p.1 n)
      (recorded entries) := by
    constructor
    case resultTargets => rfl
    case baselineTargets => exact hwritten
    case each =>
      intro q hq
      obtain ⟨q', -, rfl⟩ := List.mem_map.mp hq
      exact targetErrors_passing true _ _
    case messages => exact ⟨.str [], rfl, rfl⟩
    case compared =>
      intro q hq
      obtain ⟨t, ht, hrec⟩ := mem_recorded.mp hq
      rw [← hrec, record, baselineErrors_eq_nil_iff (get?_later (List.mem_map_of_mem ht)), ← record]
      intro _ _ _ hcount
      by_cases hname : q.1 = p.1
      · obtain rfl : t = p.2 := by
          have hget := get?_of_mem hkeys ht
          rw [hname, get?_of_mem hkeys hp] at hget
          exact (Option.some.inj hget).symm
        rw [field_record _ (by simp), hinsns]
        refine ⟨x, hx, ?_⟩
        rw [if_pos hname]
        exact congrArg some hlt
      · rw [if_neg hname] at hcount
        cases hcount
    case known =>
      rw [newTargets_nil_iff, hnames]
      exact fun name => (names_recorded entries).mem_iff.mpr
  have hhollow : ∃ hollow, (laterEntries entries p.1 n).mapM (fun q => hollow? q.1 q.2) =
      some hollow := by
    apply exists_mapM
    intro q hq
    obtain ⟨q', -, rfl⟩ := List.mem_map.mp hq
    exact ⟨[], rfl⟩
  obtain ⟨hollow, hhollow⟩ := hhollow
  exact main_of_silent hsilent rfl rfl hhollow

/-! ## What the baseline is good for -/

/-- Only verified results are in the results that have been accepted, and their counts can be
compared. -/
structure Solid (entries : List (Text × Json)) (ran : Bool) : Prop where
  verdicts : ran = true ∨ ∀ p ∈ entries, (field p.2 "verdict").isNone = false ∧
    ((field p.2 "expect_failure").truthy = false → (field p.2 "verdict").isStr "success" = true)
  countable : ∀ p ∈ entries, Countable p.2
  keeps : ran = true → ∀ p ∈ entries, (field p.2 "verdict").isStr "success" = true →
    Keeps (field p.2 "insns")
  halves : ∀ p ∈ entries, (field p.2 "verdict").isStr "success" = true →
    ∀ m : ℤ, field p.2 "insns" = .int m → 0 < m → Halves m

/-- The file `written` is a baseline of verified results. -/
structure Replaces (results : Json) (entries : List (Text × Json)) (written : Json) : Prop where
  targets : ∃ baseline, written.item "targets" = some (.obj baseline) ∧
    (baseline.map Prod.fst).Perm (entries.map Prod.fst) ∧
    ∀ p ∈ entries, ∀ b, (p.1, b) ∈ baseline → (field b "verdict").isNone = false ∧
      ((field p.2 "expect_failure").truthy = false → (field b "verdict").isStr "success" = true)
  accepts : ∃ report, CheckResults.main results (some written) false = some report ∧
    report.status = 0
  collapse : ∀ p ∈ entries, (field p.2 "verdict").isStr "success" = true →
    ∀ m : ℤ, field p.2 "insns" = .int m → ∀ n : ℕ, 2 * n < m →
    ∀ (later ran : Json) (entries' : List (Text × Json)) (t : Json) (report : Report),
      later.getD "veristat_ran" (.bool false) = some ran → ran.truthy = true →
      later.item "targets" = some (.obj entries') → get? p.1 entries' = some t →
      (field t "verdict").isStr "success" = true → field t "insns" = .int n →
      CheckResults.main later (some written) false = some report → report.status = 1

lemma verdicts_of_accepted {results : Json} {entries : List (Text × Json)} {ran : Bool}
    (habsolute : absoluteErrors results entries ran = some [])
    (h : ran = true ∨ ∀ p ∈ entries, (field p.2 "verdict").isNone = false ∧
      ((field p.2 "expect_failure").truthy = false → (field p.2 "verdict").isStr "success" = true))
    {p : Text × Json} (hp : p ∈ entries) : (field p.2 "verdict").isNone = false ∧
      ((field p.2 "expect_failure").truthy = false →
        (field p.2 "verdict").isStr "success" = true) := by
  cases h with
  | inr h => exact h p hp
  | inl hran =>
    subst hran
    obtain ⟨hpass, -⟩ := (targetErrors_nil_iff ((absoluteErrors_eq_nil habsolute).1 p hp)).mp rfl
    cases hpass with
    | inl hverified => exact ⟨isNone_of_isStr hverified.verdict, fun _ => hverified.verdict⟩
    | inr hboundary =>
      refine ⟨hboundary.ran, ?_⟩
      intro hfalse
      rw [hboundary.expect] at hfalse
      cases hfalse

/-- The recorded count makes a later run with fewer than half of it fail. -/
lemma later_fails {entries entries' : List (Text × Json)} {written later ran t : Json}
    {p : Text × Json} {m n : ℤ} {report : Report}
    (hwritten : written.item "targets" = some (.obj (recorded entries))) (hp : p ∈ entries)
    (hm : field p.2 "insns" = .int m) (h0 : m ≠ 0) (hhalves : Halves m) (hn : 2 * n < m)
    (hran : later.getD "veristat_ran" (.bool false) = some ran) (htrue : ran.truthy = true)
    (hlater : later.item "targets" = some (.obj entries')) (ht : get? p.1 entries' = some t)
    (hverdict : (field t "verdict").isStr "success" = true) (hinsns : field t "insns" = .int n)
    (hmain : CheckResults.main later (some written) false = some report) : report.status = 1 := by
  obtain ⟨_, _, _, _, _, _, _, -, -, -, -, -, -, -, -, hstatus⟩ := main_compared hran htrue hmain
  by_contra hne
  have hzero : report.status = 0 := by
    rw [hstatus] at hne ⊢
    split_ifs at hne ⊢ with hlen
    · exact absurd rfl hne
    · rfl
  obtain ⟨entries'', baseline, hs⟩ := main_silent hran htrue hmain hzero
  obtain rfl := item_obj_unique hs.resultTargets hlater
  obtain rfl := item_obj_unique hs.baselineTargets hwritten
  obtain ⟨⟨members, rfl⟩, hcompiled⟩ :=
    targetErrors_nil_compiled (hs.each _ (mem_of_get?_eq_some ht))
  have hcompared := hs.compared (p.1, record p.2) (mem_recorded.mpr ⟨p.2, hp, rfl⟩)
  rw [record, baselineErrors_eq_nil_iff ht, ← record, field_record _ (by simp), hm, hinsns]
    at hcompared
  obtain ⟨x, hx, hlt⟩ := hcompared hcompiled hverdict (by simpa [truthy] using h0) rfl
  rw [ltFloat, hhalves.intLt hn hx] at hlt
  cases hlt

section Replaced

variable {results written ran : Json} {entries : List (Text × Json)}
  (hentries : results.item "targets" = some (.obj entries))
  (hkeys : (entries.map Prod.fst).Nodup)
  (hran : results.getD "veristat_ran" (.bool false) = some ran)
  (habsolute : absoluteErrors results entries ran.truthy = some [])
  (hwritten : written.item "targets" = some (.obj (recorded entries)))
include hentries hkeys hran habsolute hwritten

lemma replaces_of_solid (h : Solid entries ran.truthy) : Replaces results entries written := by
  constructor
  case targets =>
    refine ⟨recorded entries, hwritten, names_recorded entries, ?_⟩
    intro p hp b hb
    obtain ⟨t, ht, rfl⟩ := mem_recorded.mp hb
    obtain rfl : t = p.2 :=
      Option.some.inj ((get?_of_mem hkeys ht).symm.trans (get?_of_mem hkeys hp))
    rw [field_record _ (by simp)]
    exact verdicts_of_accepted habsolute h.verdicts hp
  case accepts =>
    exact (accepts_iff hentries hkeys hran habsolute hwritten).mpr ⟨h.countable, h.keeps⟩
  case collapse =>
    intro p hp hverdict m hm n hn later ran' entries' t report hran' htrue hlater ht hsuccess
      hinsns hmain
    exact later_fails hwritten hp hm (by omega) (h.halves p hp hverdict m hm (by omega)) hn hran'
      htrue hlater ht hsuccess hinsns hmain

lemma solid_of_replaces (h : Replaces results entries written) : Solid entries ran.truthy := by
  obtain ⟨hcountable, hkeeps⟩ :=
    (accepts_iff hentries hkeys hran habsolute hwritten).mp h.accepts
  refine ⟨.inr ?_, hcountable, hkeeps, ?_⟩
  · intro p hp
    obtain ⟨baseline, hbaseline, -, hverdicts⟩ := h.targets
    obtain rfl := item_obj_unique hbaseline hwritten
    have hp' := hverdicts p hp (record p.2) (mem_recorded.mpr ⟨p.2, hp, rfl⟩)
    rwa [field_record _ (by simp)] at hp'
  · intro p hp hverdict m hm h0 x hx
    -- the largest count below half, measured later
    by_contra hlt
    rw [Bool.not_eq_true] at hlt
    obtain ⟨n, hn⟩ := Int.eq_ofNat_of_zero_le (show 0 ≤ (m - 1) / 2 by omega)
    rw [hn] at hlt
    obtain ⟨report, hmain, hstatus⟩ := later_accepted hkeys hp hm hwritten hx hlt
    have hget : get? p.1 (laterEntries entries p.1 n) = some (passing (.int n)) := by
      rw [get?_later (List.mem_map_of_mem hp), if_pos rfl]
    have hone := h.collapse p hp hverdict m hm n (by omega) (laterResults entries p.1 n)
      (.bool true) (laterEntries entries p.1 n) (passing (.int n)) report rfl rfl rfl hget rfl rfl
      hmain
    omega

end Replaced

/-- An update that is refused leaves the file alone; one that is accepted replaces the baseline
by verified results iff the verifier ran, or all its verdicts are there all the same, and the
counts can be compared. -/
theorem update_replaces_iff {results ran : Json} {old : Option Json} {entries : List (Text × Json)}
    {report : Report} (hentries : results.item "targets" = some (.obj entries))
    (hkeys : (entries.map Prod.fst).Nodup)
    (hran : results.getD "veristat_ran" (.bool false) = some ran)
    (hmain : CheckResults.main results old true = some report) :
    (report.status ≠ 0 → report.written = none) ∧
      (report.status = 0 → ∃ written, report.written = some written ∧
        (Replaces results entries written ↔ Solid entries ran.truthy)) := by
  obtain ⟨errors, herrors, hcases⟩ := main_update hentries hran hmain
  cases hcases with
  | inl h =>
    obtain ⟨-, hnone, hone⟩ := h
    refine ⟨fun _ => hnone, ?_⟩
    rw [hone]
    intro h10
    cases h10
  | inr h =>
    obtain ⟨rfl, hzero, written, hnew, hwritten⟩ := h
    refine ⟨fun h => absurd hzero h, fun _ => ⟨written, hwritten, ?_⟩⟩
    have htargets := newBaseline_eq hnew
    exact ⟨solid_of_replaces hentries hkeys hran herrors htargets,
      replaces_of_solid hentries hkeys hran herrors htargets⟩

/-! A run where the verifier is not installed: what it leaves is accepted as a baseline. -/

def offlineHost : Pipeline.Host := { crc16Host with veristatIsFile := false }

def offlineEntry : List (Text × Json) :=
  [("compiled".toList, .bool true), ("suite".toList, .str "coverage".toList),
   ("verdict".toList, .null)]

def offlineResults : Json :=
  .obj [("schema".toList, .int 1), ("meta".toList, .null), ("veristat_ran".toList, .bool false),
    ("targets".toList, .obj [("crc16".toList, .obj offlineEntry)]),
    ("veristat_stderr".toList, .str "(veristat not available - skipped)".toList)]

/-- An update with a single target, which has passed the gates. -/
lemma main_single {results ran schema stderr t : Json} (old : Option Json) {name : Text}
    (hentries : results.item "targets" = some (.obj [(name, t)]))
    (hran : results.getD "veristat_ran" (.bool false) = some ran)
    (hstderr : results.getD "veristat_stderr" (.str []) = some stderr)
    (hopen : openErrors stderr = some []) (hschema : results.item "schema" = some schema)
    (ht : targetErrors ran.truthy name t = some []) :
    ∃ report, CheckResults.main results old true = some report ∧ report.status = 0 ∧
      report.written = some (.obj [("schema".toList, schema),
        ("targets".toList, .obj [(name, record t)])]) := by
  have hsorted : sortedItems [(name, t)] = [(name, t)] := List.mergeSort_singleton _
  have habsolute : absoluteErrors results [(name, t)] ran.truthy = some [] := by
    simp only [absoluteErrors, hsorted, List.mapM_cons, List.mapM_nil, ht, hstderr, hopen,
      Option.bind_eq_bind, Option.bind_some, Option.pure_def]
    rfl
  have hnew : newBaseline results [(name, t)] = some (.obj [("schema".toList, schema),
      ("targets".toList, .obj [(name, record t)])]) := by
    simp only [newBaseline, hsorted, hschema, Option.bind_eq_bind, Option.bind_some]
    rfl
  simp only [CheckResults.main, hentries, items, hran, habsolute, hnew, Option.bind_eq_bind,
    Option.bind_some, if_true]
  exact ⟨_, rfl, rfl, rfl⟩

lemma main_offline : Pipeline.main offlineHost crc16Targets = some offlineResults := by
  decide +kernel

/-- A baseline of 2 ^ 52 instructions is replaced by one without a verdict. -/
theorem update_offline :
    Pipeline.main offlineHost crc16Targets = some offlineResults ∧
    ∃ report written,
      CheckResults.main offlineResults (some (crc16Baseline 4503599627370496)) true = some report ∧
      report.status = 0 ∧ report.written = some written ∧
      written.item "targets" = some (.obj [("crc16".toList, record (.obj offlineEntry))]) ∧
      (field (record (.obj offlineEntry)) "verdict").isNone = true := by
  have hentries : offlineResults.item "targets" =
      some (.obj [("crc16".toList, .obj offlineEntry)]) := rfl
  obtain ⟨report, hmain, hstatus, hwritten⟩ := main_single _ hentries rfl rfl rfl rfl rfl
  exact ⟨main_offline, report, _, hmain, hstatus, hwritten, rfl, rfl⟩

lemma solid_crc16 : Solid [("crc16".toList, .obj crc16Entry)] true := by
  have hinsns : field (.obj crc16Entry) "insns" = .int 4503599627370496 :=
    field_of_get (get_crc16 "insns")
  have hsmall : |(4503599627370496 : ℤ)| ≤ 2 ^ 53 := by norm_num
  refine ⟨.inl rfl, ?_, ?_, ?_⟩
  · intro p hp _ _
    rw [List.mem_singleton.mp hp, hinsns]
    simp [atMostFour, truthy]
  · intro _ p hp _
    rw [List.mem_singleton.mp hp, hinsns]
    obtain ⟨hr, hx⟩ := mulFloat_int hsmall
    refine fun _ => ⟨_, hx, ?_⟩
    rw [ltFloat, Double.intLt, Option.some_inj, decide_eq_false_iff_not]
    norm_num
  · intro p hp _ m hm _
    rw [List.mem_singleton.mp hp, hinsns] at hm
    rw [← Json.int.inj hm]
    exact halves_of_le hsmall

theorem update_replaces_iff_crc16 :
    ∃ report written, CheckResults.main crc16Results none true = some report ∧
      report.written = some written ∧
      Replaces crc16Results [("crc16".toList, .obj crc16Entry)] written := by
  have hentries : crc16Results.item "targets" =
      some (.obj [("crc16".toList, .obj crc16Entry)]) := rfl
  obtain ⟨report, hmain, hstatus, -⟩ := main_single none hentries rfl rfl rfl rfl targetErrors_crc16
  have hkeys : ([("crc16".toList, Json.obj crc16Entry)].map Prod.fst).Nodup :=
    List.nodup_singleton _
  obtain ⟨written, hwritten, hiff⟩ := (update_replaces_iff hentries hkeys rfl hmain).2 hstatus
  exact ⟨report, written, hmain, hwritten, hiff.mpr solid_crc16⟩

end BpfVerify.Baseline
