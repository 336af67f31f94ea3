import BpfVerify.CheckResults
import BpfVerify.RunnerLines

/-!
# Fuzz execution from runner to gate

`run_execution` of `pipeline.py` turns the runner's lines into result entries, and the
execution leg of the gate reads them. A failing iteration survives the way exactly when no
later iteration of the object aborts and no name cuts the object's line.
-/
namespace BpfVerify.Execution
open Python Json Runner RunnerLines CheckResults

def objectName (name : Text) : Text := name ++ ".bpf.o".toList

/-- `by_base`. -/
def byBase (execObjs : List Text) : List (Text × Text) :=
  update [] (execObjs.map fun name => (objectName name, name))

/-- The entry made of one row. -/
def executionEntry (row : Json) : Option Json := do
  if !(← row.get "loaded").truthy then
    return .obj [("executed".toList, .bool false),
      ("error".toList, ← row.getD "error" (.str "load failed".toList))]
  else
    return .obj [("executed".toList, .bool true), ("iters".toList, ← row.get "iters"),
      ("failures".toList, ← row.getD "failures" (.int 0)),
      ("cases".toList, ← row.getD "cases" (.arr []))]

/-- The body of the loop over the lines of `stdout`; a list or a dictionary as the file name
cannot be looked up and ends the pipeline. -/
def executionLine (byBase : List (Text × Text)) (results : List (Text × Json)) (line : Text) :
    Option (List (Text × Json)) :=
  if !"\x7b".toList.isPrefixOf (strip line) then some results
  else
    match loads (strip line) with
    | none => some results
    | some row => do
      match ← row.get "file" with
      | .arr _ => none
      | .obj _ => none
      | .str file =>
        match get? file byBase with
        | none => return results
        | some name => return set name (← executionEntry row) results
      | _ => return results

/-- How the runner's process ends. -/
inductive RunnerProcess where
  | timeout
  | exited (stdout : Text)

def notExecuted (error : String) : Json :=
  .obj [("executed".toList, .bool false), ("error".toList, .str error.toList)]

def runExecution (execObjs : List Text) (available : Bool) (proc : RunnerProcess) :
    Option (List (Text × Json)) :=
  if execObjs = [] ∨ !available then some []
  else
    match proc with
    | .timeout => some (execObjs.map fun name => (name, notExecuted "runner timed out"))
    | .exited stdout => do
      let results ← (splitlines stdout).foldlM (executionLine (byBase execObjs)) []
      return execObjs.foldl (fun results name =>
        if (get? name results).isSome then results
        else set name (notExecuted "no runner output") results) results

lemma objectName_injective : Function.Injective objectName := fun _ _ h =>
  List.append_cancel_right h

lemma get?_update_byBase {name : Text} (execObjs : List Text) (d : List (Text × Text))
    (h : name ∈ execObjs ∨ get? (objectName name) d = some name) :
    get? (objectName name) (update d (execObjs.map fun n => (objectName n, n))) = some name := by
  induction execObjs generalizing d with
  | nil => simpa [update] using h
  | cons n ns ih =>
    apply ih
    rw [get?_set]
    by_cases hn : name = n
    · simp [hn]
    · have hne : objectName name ≠ objectName n := fun he => hn (objectName_injective he)
      simpa [hn, hne] using h

/-- Every object's base name leads back to its target. -/
lemma get?_byBase {execObjs : List Text} {name : Text} (h : name ∈ execObjs) :
    get? (objectName name) (byBase execObjs) = some name :=
  get?_update_byBase execObjs [] (.inl h)

/-- The entry of an object that loaded, from the values its line gives. -/
def loadedEntry (iters : ℤ) (failures : ℕ) (cases : List (Seeds × BitVec 32)) : Json :=
  .obj [("executed".toList, .bool true), ("iters".toList, .int iters),
    ("failures".toList, .int failures), ("cases".toList, .arr (cases.map caseJson))]

lemma executionEntry_completed (base progName : Text) (iters : ℤ)
    (cases : List (Seeds × BitVec 32)) (failures : ℕ) :
    executionEntry (rowJson base progName iters cases (completedTail failures)) =
      some (loadedEntry iters failures cases) := by
  unfold executionEntry rowJson headMembers completedTail
  simp only [List.cons_append, List.nil_append, List.map_cons, List.map_nil, update,
    List.foldl_cons, List.foldl_nil]
  simp only [get_obj, getD_obj, get?_set, get?_nil, String.toList_inj, String.reduceEq, if_true,
    if_false, Option.getD_some, Option.bind_eq_bind, Option.bind_some, truthy, Bool.not_true,
    Bool.false_eq_true]
  rfl

/-- An early return prints no `failures`, so the default stands for them. -/
lemma executionEntry_abort (base progName : Text) (iters : ℤ)
    (cases : List (Seeds × BitVec 32)) (error : Text) :
    executionEntry (rowJson base progName iters cases (abortTail error)) =
      some (loadedEntry iters 0 cases) := by
  unfold executionEntry rowJson headMembers abortTail
  simp only [List.cons_append, List.nil_append, List.map_cons, List.map_nil, update,
    List.foldl_cons, List.foldl_nil]
  simp only [get_obj, getD_obj, get?_set, get?_nil, String.toList_inj, String.reduceEq, if_true,
    if_false, Option.getD_some, Option.getD_none, Option.bind_eq_bind, Option.bind_some, truthy,
    Bool.not_true, Bool.false_eq_true]
  rfl

/-- The row of an object that did not load. -/
lemma executionEntry_unloaded (base error : Text) :
    (Json.obj (update [] ((unloadedMembers base error).map fun p => (p.1, p.2.2)))).get "file" =
      some (.str base) ∧
    executionEntry (.obj (update [] ((unloadedMembers base error).map fun p => (p.1, p.2.2)))) =
      some (.obj [("executed".toList, .bool false), ("error".toList, .str error)]) := by
  unfold executionEntry unloadedMembers
  simp only [List.map_cons, List.map_nil, update, List.foldl_cons, List.foldl_nil]
  simp only [get_obj, getD_obj, get?_set, get?_nil, String.toList_inj, String.reduceEq, if_true,
    if_false, Option.getD_some, Option.bind_eq_bind, Option.bind_some, truthy, Bool.not_false]
  exact ⟨trivial, rfl⟩

/-- A printed object has no spaces around it. -/
lemma strip_objText (ms : List (Text × Text)) : strip (objText ms) = objText ms := by
  have hspace : isSpace '\x7b' = false ∧ isSpace '\x7d' = false := by decide
  have hdrop : (objText ms).dropWhile isSpace = objText ms := by
    simp [objText, hspace]
  rw [strip, hdrop]
  unfold objText
  exact List.rdropWhile_concat_neg _ _ _ (by simp [hspace])

lemma file_rowJson (base progName : Text) (iters : ℤ) (cases : List (Seeds × BitVec 32))
    {tail : List (Text × Text × Json)} (h : ∀ p ∈ tail, p.1 ≠ "file".toList) :
    (rowJson base progName iters cases tail).get "file" = some (.str base) := by
  have htail (d : List (Text × Json)) :
      get? "file".toList (update d (tail.map fun p => (p.1, p.2.2))) = get? "file".toList d := by
    induction tail generalizing d with
    | nil => rfl
    | cons p tail ih =>
      have hp := h p (by simp)
      have hrest := ih (fun q hq => h q (by simp [hq])) (set p.1 p.2.2 d)
      rw [get?_set, if_neg (Ne.symm hp)] at hrest
      exact hrest
  have hsplit :
      update [] ((headMembers base progName iters cases ++ tail).map fun p => (p.1, p.2.2)) =
      update (update [] ((headMembers base progName iters cases).map fun p => (p.1, p.2.2)))
        (tail.map fun p => (p.1, p.2.2)) := by
    rw [update, List.map_append, List.foldl_append]
    rfl
  rw [rowJson, get_obj, hsplit, htail]
  simp only [headMembers, List.map_cons, List.map_nil, update, List.foldl_cons, List.foldl_nil,
    get?_set, String.toList_inj, String.reduceEq, if_true, if_false, Option.getD_some]

/-- The pipeline reads an object with the file of a target into the entry of this target. -/
lemma executionLine_objText {execObjs : List Text} {name : Text} (hexec : name ∈ execObjs)
    (results : List (Text × Json)) {ms : List (Text × Text)} {row : Json}
    (hloads : loads (objText ms) = some row)
    (hfile : row.get "file" = some (.str (objectName name))) :
    executionLine (byBase execObjs) results (objText ms) =
      (executionEntry row).map fun entry => set name entry results := by
  have hbrace : "\x7b".toList.isPrefixOf (objText ms) = true := by
    simp [objText]
  simp only [executionLine, strip_objText, hbrace, hloads, hfile, Bool.not_true,
    Bool.false_eq_true, if_false, Option.bind_eq_bind, Option.bind_some, get?_byBase hexec]
  cases executionEntry row <;> rfl

/-- A line that is no row changes nothing. -/
lemma executionLine_noRow {line : Text} (h : NoRow line) (byBase : List (Text × Text))
    (results : List (Text × Json)) : executionLine byBase results line = some results := by
  unfold executionLine
  by_cases hpre : "\x7b".toList.isPrefixOf (strip line) = true
  case neg => rw [Bool.eq_false_iff.mpr hpre, Bool.not_false, if_pos rfl]
  rw [hpre, Bool.not_true, if_neg Bool.false_ne_true]
  rcases h hpre with hnone | hempty
  · rw [hnone]
  · rw [hempty]
    rfl

/-! ## The lines of one object -/

/-- The loop over the lines of a text. -/
def executionLines (execObjs : List Text) (results : List (Text × Json)) (stdout : Text) :
    Option (List (Text × Json)) :=
  (splitlines stdout).foldlM (executionLine (byBase execObjs)) results

lemma executionLines_append (execObjs : List Text) (results : List (Text × Json)) (s t : Text) :
    executionLines execObjs results (s ++ '\n' :: t) =
      (executionLines execObjs results (s ++ ['\n'])).bind fun results =>
        executionLines execObjs results t := by
  rw [executionLines, splitlines_append, List.foldlM_append]
  rfl

lemma executionLines_noRow {execObjs : List Text} {stdout : Text}
    (h : ∀ l ∈ splitlines stdout, NoRow l) (results : List (Text × Json)) :
    executionLines execObjs results stdout = some results := by
  rw [executionLines]
  generalize splitlines stdout = lines at h
  induction lines with
  | nil => rfl
  | cons l ls ih =>
    obtain ⟨hl, hls⟩ := List.forall_mem_cons.mp h
    rw [List.foldlM_cons, executionLine_noRow hl, Option.bind_eq_bind, Option.bind_some, ih hls]

lemma executionLines_unbroken {line : Text} (h : Unbroken line) (execObjs : List Text)
    (results : List (Text × Json)) : executionLines execObjs results (line ++ ['\n']) =
      executionLine (byBase execObjs) results line := by
  rw [executionLines, splitlines_unbroken h, List.foldlM_cons]
  cases executionLine (byBase execObjs) results line <;> rfl

/-! ## From runner to gate -/

variable {execObjs : List Text} {name progName path : Text} {kernel : ℕ → Iteration} {iters : ℤ}
  {seed : UInt64} {maxReport : ℤ}

/-- No iteration of the loop takes an early return. -/
def Completes (kernel : ℕ → Iteration) (iters : ℤ) : Prop :=
  ∀ i < iters.toNat, (kernel i).retval?.isSome

/-- The entry of an object whose names have no break, from the members that end its line. -/
lemma executionLines_lineText (hname : Plain name) (hprog : Plain progName)
    (hunbroken : Unbroken name ∧ Unbroken progName) (hexec : name ∈ execObjs)
    (results : List (Text × Json)) (iters : ℤ) (cases : List (Seeds × BitVec 32))
    {tail : List (Text × Text × Json)} (htail : ∀ p ∈ tail, Plain p.1 ∧ Reads p.2.1 p.2.2)
    (hbreak : UnbrokenTail tail) (hfile : ∀ p ∈ tail, p.1 ≠ "file".toList) :
    executionLines execObjs results
        (lineText (objectName name) progName iters cases tail ++ ['\n']) =
      (executionEntry (rowJson (objectName name) progName iters cases tail)).map
        fun entry => set name entry results := by
  have hbase : Plain (objectName name) := hname.append (by simp [Plain])
  obtain ⟨rest, hrest, hline⟩ := lineText_eq_loadedLine name progName iters cases hbreak
  have hwhole : Unbroken (lineText (objectName name) progName iters cases tail) := by
    rw [objectName, hline]
    have hmiddle : Unbroken ".bpf.o\",\"prog\":\"".toList := unbroken_string (by decide)
    have hend : Unbroken ('"' :: ',' :: '"' :: 'l' :: rest) :=
      (unbroken_string (s := "\",\"l") (by decide)).append hrest
    exact unbroken_file.append (hunbroken.1.append (hmiddle.append (hunbroken.2.append hend)))
  rw [executionLines_unbroken hwhole]
  exact executionLine_objText hexec results (loads_lineText hbase hprog iters cases htail)
    (file_rowJson _ _ _ _ hfile)

lemma executionLines_completed (hname : Plain name) (hprog : Plain progName)
    (hunbroken : Unbroken name ∧ Unbroken progName) (hexec : name ∈ execObjs)
    (hpath : baseName path = objectName name) (h : Completes kernel iters)
    (results : List (Text × Json)) :
    executionLines execObjs results
        (runObject path (.loaded progName) kernel iters seed maxReport).1 =
      some (set name (loadedEntry iters (failing kernel seed iters.toNat).length
        (reportedCases kernel seed maxReport iters.toNat)) results) := by
  rw [runObject_completed path progName kernel iters seed maxReport h, hpath,
    executionLines_lineText hname hprog hunbroken hexec results iters _ (completedTail_reads _)
      (unbrokenTail_completed _) (by simp [completedTail]), executionEntry_completed]
  rfl

/-- The line of an aborted loop, up to the first iteration that does not complete. -/
lemma runObject_not_completes (path progName : Text) (seed : UInt64) (maxReport : ℤ)
    (h : ¬ Completes kernel iters) : ∃ k error, abortOf (kernel k) = some error ∧
      (runObject path (.loaded progName) kernel iters seed maxReport).1 =
        lineText (baseName path) progName iters (reportedCases kernel seed maxReport k)
          (abortTail error) ++ ['\n'] := by
  have hfirst : ∃ k, k < iters.toNat ∧ abortOf (kernel k) ≠ none := by
    simp only [Completes, not_forall] at h
    obtain ⟨k, hk, hnone⟩ := h
    exact ⟨k, hk, fun he => hnone (abortOf_eq_none.mp he)⟩
  classical
  have hbefore : ∀ i < Nat.find hfirst, (kernel i).retval?.isSome := by
    intro i hi
    have hmin := Nat.find_min hfirst hi
    have hlt := (Nat.find_spec hfirst).1
    by_contra hnone
    exact hmin ⟨by omega, fun he => hnone (abortOf_eq_none.mp he)⟩
  obtain ⟨error, herror⟩ := Option.ne_none_iff_exists'.mp (Nat.find_spec hfirst).2
  exact ⟨Nat.find hfirst, error, herror,
    runObject_abort path progName kernel iters seed maxReport (Nat.find_spec hfirst).1 hbefore
      herror⟩

/-- An aborted loop leaves an entry that says it ran and nothing failed. -/
lemma executionLines_abort (hname : Plain name) (hprog : Plain progName)
    (hunbroken : Unbroken name ∧ Unbroken progName) (hexec : name ∈ execObjs)
    (hpath : baseName path = objectName name) (h : ¬ Completes kernel iters) :
    ∃ cases, ∀ results, executionLines execObjs results
        (runObject path (.loaded progName) kernel iters seed maxReport).1 =
      some (set name (loadedEntry iters 0 cases) results) := by
  obtain ⟨k, error, herror, hline⟩ := runObject_not_completes path progName seed maxReport h
  refine ⟨reportedCases kernel seed maxReport k, fun results => ?_⟩
  rw [hline, hpath, executionLines_lineText hname hprog hunbroken hexec results iters _
    (abortTail_reads (abortOf_plain herror)) (unbrokenTail_abort herror) (by simp [abortTail]),
    executionEntry_abort]
  rfl

/-- A name with a break leaves no entry. -/
lemma executionLines_broken (hname : Plain name) (hprog : Plain progName)
    (hbroken : ¬ (Unbroken name ∧ Unbroken progName)) (hpath : baseName path = objectName name)
    (results : List (Text × Json)) :
    executionLines execObjs results
      (runObject path (.loaded progName) kernel iters seed maxReport).1 = some results := by
  have hline : ∃ cases tail, UnbrokenTail tail ∧
      (runObject path (.loaded progName) kernel iters seed maxReport).1 =
        lineText (objectName name) progName iters cases tail ++ ['\n'] := by
    by_cases h : Completes kernel iters
    · exact ⟨_, _, unbrokenTail_completed _, by
        rw [runObject_completed path progName kernel iters seed maxReport h, hpath]⟩
    · obtain ⟨k, error, herror, hline⟩ := runObject_not_completes path progName seed maxReport h
      exact ⟨_, _, unbrokenTail_abort herror, by rw [hline, hpath]⟩
  obtain ⟨cases, tail, htail, hline⟩ := hline
  obtain ⟨rest, hrest, heq⟩ := lineText_eq_loadedLine name progName iters cases htail
  rw [hline, objectName, heq]
  exact executionLines_noRow (noRow_loadedLine hname hprog hrest hbroken) results

/-- An object that did not load gets an entry, or none if its name has a break. -/
lemma executionLines_unloaded (hname : Plain name) (hexec : name ∈ execObjs) {error : Text}
    (herror : Plain error ∧ Unbroken error) :
    ∃ entry : Option Json, ∀ results,
      executionLines execObjs results (unloadedText (objectName name) error) =
        some (entry.elim results fun e => set name e results) := by
  by_cases hbreak : Unbroken name
  · have hbase : Plain (objectName name) := hname.append (by simp [Plain])
    have hloads := loads_unloadedMembers hbase herror.1
    obtain ⟨rest, hrest, hline⟩ := unloadedText_eq_unloadedLine name herror.2
    have hwhole : Unbroken
        (objText ((unloadedMembers (objectName name) error).map fun p => (p.1, p.2.1))) := by
      rw [unloadedText_eq, ← objectName] at hline
      rw [List.append_cancel_right hline]
      exact unbroken_file.append (hbreak.append ((unbroken_string (s := ".") rfl).append hrest))
    refine ⟨some (.obj [("executed".toList, .bool false), ("error".toList, .str error)]),
      fun results => ?_⟩
    obtain ⟨hfile, hentry⟩ := executionEntry_unloaded (objectName name) error
    rw [unloadedText_eq, executionLines_unbroken hwhole,
      executionLine_objText hexec results hloads hfile, hentry]
    rfl
  · refine ⟨none, fun results => ?_⟩
    obtain ⟨rest, hrest, hline⟩ := unloadedText_eq_unloadedLine name herror.2
    rw [objectName, hline]
    exact executionLines_noRow (noRow_unloadedLine hname hrest hbreak) results

/-- What the entry `r` of target `name` owes to the run it reports. -/
structure Reported (kernel : ℕ → Iteration) (iters : ℤ) (seed : UInt64) (maxReport : ℤ)
    (name : Text) (r : Json) : Prop where
  clean : r.get "executed" = some (.bool true) → r.get "failures" = some (.int 0) →
    ∀ i < iters.toNat, (kernel i).retval? = some 0
  counted : Completes kernel iters →
    r.get "failures" = some (.int (failing kernel seed iters.toNat).length) ∧
    r.get "cases" = some (.arr ((reportedCases kernel seed maxReport iters.toNat).map caseJson))
  gated : ∀ i < iters.toNat, (∀ j < i, (kernel j).retval?.isSome) →
    ∀ retval, (kernel i).retval? = some retval → retval ≠ 0 →
    ∀ t veristatRan, t.get "execution" = some r →
      ∃ errors, targetErrors veristatRan name t = some errors ∧ ∃ e ∈ errors, e.target = some name

lemma get_loadedEntry (iters : ℤ) (failures : ℕ) (cases : List (Seeds × BitVec 32)) :
    (loadedEntry iters failures cases).get "executed" = some (.bool true) ∧
    (loadedEntry iters failures cases).get "failures" = some (.int failures) ∧
    (loadedEntry iters failures cases).get "cases" = some (.arr (cases.map caseJson)) ∧
    (loadedEntry iters failures cases).item "failures" = some (.int failures) ∧
    (loadedEntry iters failures cases).item "iters" = some (.int iters) := by
  simp only [loadedEntry, get_obj, item_obj, get?_cons, String.toList_inj, String.reduceEq, if_true,
    if_false, Option.getD_some, and_self]

lemma verdictErrors_obj (veristatRan : Bool) (name : Text) (members : List (Text × Json)) :
    ∃ errors, verdictErrors veristatRan name (.obj members) = some errors := by
  unfold verdictErrors
  simp only [get_obj]
  simp only [getD_obj, Option.bind_eq_bind, Option.bind_some]
  split_ifs <;> exact ⟨_, rfl⟩

/-- Of a list of reported cases the gate finds the first, or none to show. -/
lemma firstCase_cases (cases : List (Seeds × BitVec 32)) :
    ∃ case, firstCase (.arr (cases.map caseJson)) = some case ∧ (∃ v, case.get "seeds" = some v) ∧
      ∃ v, case.get "retval" = some v := by
  cases cases with
  | nil => exact ⟨.obj [], rfl, ⟨_, rfl⟩, ⟨_, rfl⟩⟩
  | cons c cases => exact ⟨caseJson c, rfl, ⟨_, rfl⟩, ⟨_, rfl⟩⟩

/-- The gate names a target whose entry counts failures. -/
lemma targetErrors_failures {t : Json} {failures : ℕ} {cases : List (Seeds × BitVec 32)}
    (hf : failures ≠ 0) (veristatRan : Bool) (name : Text)
    (ht : t.get "execution" = some (loadedEntry iters failures cases)) :
    ∃ errors, targetErrors veristatRan name t = some errors ∧
      ∃ e ∈ errors, e.target = some name := by
  obtain ⟨hexec, hfail, hcases, hfail', hiters⟩ := get_loadedEntry iters failures cases
  obtain ⟨case, hcase, ⟨vs, hvs⟩, ⟨vr, hvr⟩⟩ := firstCase_cases cases
  have hleg : executionErrors name t =
      some [.propertyFailed name (.int failures) (.int iters) vs vr] := by
    have htruthy : (loadedEntry iters failures cases).truthy = true := rfl
    have hft : (Json.int failures).truthy = true := by simpa [truthy] using hf
    have htrue : (Json.bool true).truthy = true := rfl
    unfold executionErrors
    simp only [ht, hexec, hfail, hcases, hcase, hfail', hiters, hvs, hvr, Option.bind_eq_bind,
      Option.bind_some, htruthy, htrue, hft, Bool.not_true, Bool.false_eq_true, if_false]
    rfl
  cases t with
  | obj members =>
    obtain ⟨errors, herrors⟩ := verdictErrors_obj veristatRan name members
    refine ⟨errors ++ [.propertyFailed name (.int failures) (.int iters) vs vr], ?_, _,
      List.mem_append_right _ (List.mem_singleton_self _), rfl⟩
    simp [targetErrors, herrors, hleg]
  | _ => simp [Json.get, Json.getD] at ht

/-- A target that verified passes the verdict part. -/
lemma verdictErrors_success {t expect compiled verdict : Json} (veristatRan : Bool) (name : Text)
    (hexpect : t.get "expect_failure" = some expect) (hcompiled : t.get "compiled" = some compiled)
    (hverdict : t.get "verdict" = some verdict) (he : expect.truthy = false)
    (hc : compiled.truthy = true) (hv : verdict.isStr "success" = true) :
    verdictErrors veristatRan name t = some [] := by
  have hnone : verdict.isNone = false := isNone_of_isStr hv
  unfold verdictErrors
  rw [hexpect, hcompiled, hverdict]
  simp only [Option.bind_eq_bind, Option.bind_some, he, hc, hv, hnone, Bool.not_true,
    Bool.and_false, Bool.false_eq_true, if_false]
  rfl

/-- An entry that counts no failure passes the execution leg. -/
lemma executionErrors_zero {t : Json} {cases : List (Seeds × BitVec 32)} (name : Text)
    (ht : t.get "execution" = some (loadedEntry iters 0 cases)) :
    executionErrors name t = some [] := by
  obtain ⟨hexec, hfail, -, -, -⟩ := get_loadedEntry iters 0 cases
  have htruthy : (loadedEntry iters 0 cases).truthy = true := rfl
  have hzero : (Json.int ((0 : ℕ) : ℤ)).truthy = false := rfl
  unfold executionErrors
  simp only [ht, hexec, hfail, Option.bind_eq_bind, Option.bind_some, htruthy, hzero, Bool.not_true,
    Bool.not_false, Bool.false_eq_true, if_true, if_false]
  rfl

lemma mem_failing {n i : ℕ} {c : Seeds × BitVec 32} (hi : i < n)
    (h : failure? kernel seed i = some c) : c ∈ failing kernel seed n :=
  List.mem_filterMap.mpr ⟨i, List.mem_range.mpr hi, h⟩

/-- A completed iteration that is not among the failing ones returned zero. -/
lemma retval?_of_failing_eq_nil {n i : ℕ} (hn : failing kernel seed n = []) (hi : i < n)
    (h : (kernel i).retval?.isSome) : (kernel i).retval? = some 0 := by
  obtain ⟨retval, hret⟩ := Option.isSome_iff_exists.mp h
  by_cases h0 : retval = 0
  · rw [hret, h0]
  · have hf : failure? kernel seed i = some (seedsAt seed i, retval) := by
      rw [failure?, hret, Option.bind_some, if_pos h0]
    have hmem := mem_failing hi hf
    simp [hn] at hmem

lemma reported_of_completes (h : Completes kernel iters) :
    Reported kernel iters seed maxReport name
      (loadedEntry iters (failing kernel seed iters.toNat).length
        (reportedCases kernel seed maxReport iters.toNat)) := by
  obtain ⟨-, hfail, hcases, -, -⟩ := get_loadedEntry iters (failing kernel seed iters.toNat).length
    (reportedCases kernel seed maxReport iters.toNat)
  constructor
  case clean =>
    intro _ hzero i hi
    rw [hfail] at hzero
    have hnil : failing kernel seed iters.toNat = [] := by simpa using hzero
    exact retval?_of_failing_eq_nil hnil hi (h i hi)
  case counted => exact fun _ => ⟨hfail, hcases⟩
  case gated =>
    intro i hi _ retval hret h0 t veristatRan ht
    have hf : failure? kernel seed i = some (seedsAt seed i, retval) := by
      rw [failure?, hret, Option.bind_some, if_pos h0]
    have hlen : (failing kernel seed iters.toNat).length ≠ 0 :=
      List.length_pos_iff.mpr (List.ne_nil_of_mem (mem_failing hi hf)) |>.ne'
    exact targetErrors_failures hlen veristatRan name ht

/-- The entry of an aborted run claims that nothing failed. -/
lemma not_reported_of_abort (h : ¬ Completes kernel iters) (cases : List (Seeds × BitVec 32)) :
    ¬ Reported kernel iters seed maxReport name (loadedEntry iters 0 cases) := by
  intro hr
  obtain ⟨hexec, hfail, -, -, -⟩ := get_loadedEntry iters 0 cases
  apply h
  intro i hi
  rw [hr.clean hexec hfail i hi]
  rfl

/-! ## A run of the runner -/

/-- One of the objects that the pipeline hands to the runner, and what the kernel answers for it. -/
structure ExecObject where
  name : Text
  path : Text
  object : BpfObject
  kernel : ℕ → Iteration
  baseName_path : baseName path = objectName name

def ExecObject.line (o : ExecObject) (iters : ℤ) (seed : UInt64) (maxReport : ℤ) : Text :=
  (runObject o.path o.object o.kernel iters seed maxReport).1

/-- The length of the array `paths` of the runner's `main`, which drops what does not fit. -/
def maxPaths : ℕ := 4096

/-- What the runner prints in one boot. -/
def runnerOutput (objs : List ExecObject) (iters : ℤ) (seed : UInt64) (maxReport : ℤ) : Text :=
  (objs.take maxPaths).flatMap fun o => o.line iters seed maxReport

/-- No name has a character that JSON must escape. -/
def ExecObject.PlainNames (o : ExecObject) : Prop :=
  Plain o.name ∧ ∀ progName, o.object = .loaded progName → Plain progName

/-- Every line ends in a newline. -/
lemma ExecObject.exists_line (o : ExecObject) (iters : ℤ) (seed : UInt64) (maxReport : ℤ) :
    ∃ t, o.line iters seed maxReport = t ++ ['\n'] := by
  unfold ExecObject.line
  cases o.object with
  | openFailed errno => exact ⟨_, unloadedText_eq _ _⟩
  | loadFailed errno => exact ⟨_, unloadedText_eq _ _⟩
  | incomplete => exact ⟨_, unloadedText_eq _ _⟩
  | loaded progName =>
    by_cases h : Completes o.kernel iters
    · exact ⟨_, runObject_completed o.path progName o.kernel iters seed maxReport h⟩
    · obtain ⟨k, error, -, hline⟩ := runObject_not_completes o.path progName seed maxReport h
      exact ⟨_, hline⟩

/-- An object gives the entry of its own target, or none. -/
lemma ExecObject.executionLines_line {o : ExecObject} (hplain : o.PlainNames)
    (hexec : o.name ∈ execObjs) (iters : ℤ) (seed : UInt64) (maxReport : ℤ) :
    ∃ entry : Option Json, ∀ results,
      executionLines execObjs results (o.line iters seed maxReport) =
        some (entry.elim results fun e => set o.name e results) := by
  obtain ⟨hname, hprog⟩ := hplain
  have hpath := o.baseName_path
  have hplainError (s : String) (hs : Plain s.toList) (hb : Unbroken s.toList) (errno : ℤ) :
      Plain (s.toList ++ decimal errno) ∧ Unbroken (s.toList ++ decimal errno) :=
    ⟨hs.append (plain_decimal errno), hb.append (unbroken_decimal errno)⟩
  unfold ExecObject.line
  cases hobject : o.object with
  | openFailed errno =>
    rw [runObject, hpath]
    exact executionLines_unloaded hname hexec
      (hplainError _ (by simp [Plain]) (unbroken_string (by decide)) errno)
  | loadFailed errno =>
    rw [runObject, hpath]
    exact executionLines_unloaded hname hexec
      (hplainError _ (by simp [Plain]) (unbroken_string (by decide)) errno)
  | incomplete =>
    rw [runObject, hpath]
    exact executionLines_unloaded hname hexec ⟨by simp [Plain], unbroken_string (by decide)⟩
  | loaded progName =>
    by_cases hunbroken : Unbroken o.name ∧ Unbroken progName
    · by_cases h : Completes o.kernel iters
      · exact ⟨some _, executionLines_completed hname (hprog _ hobject) hunbroken hexec hpath h⟩
      · obtain ⟨cases, hline⟩ :=
          executionLines_abort hname (hprog _ hobject) hunbroken hexec hpath h
        exact ⟨some _, hline⟩
    · exact ⟨none, executionLines_broken hname (hprog _ hobject) hunbroken hpath⟩

/-- The loop over the lines goes object by object. -/
lemma executionLines_flatMap (execObjs : List Text) (objs : List ExecObject) (iters : ℤ)
    (seed : UInt64) (maxReport : ℤ) (results : List (Text × Json)) :
    executionLines execObjs results (objs.flatMap fun o => o.line iters seed maxReport) =
      objs.foldlM (fun results o => executionLines execObjs results (o.line iters seed maxReport))
        results := by
  induction objs generalizing results with
  | nil => rfl
  | cons o objs ih =>
    obtain ⟨t, ht⟩ := o.exists_line iters seed maxReport
    rw [List.flatMap_cons, List.foldlM_cons, ht, List.append_assoc, List.singleton_append,
      executionLines_append]
    exact congrArg _ (funext ih)

/-- The lines of other objects leave the entry of a target alone. -/
lemma foldlM_executionLines {objs : List ExecObject} (hplain : ∀ o ∈ objs, o.PlainNames)
    (hexec : ∀ o ∈ objs, o.name ∈ execObjs) (iters : ℤ) (seed : UInt64) (maxReport : ℤ)
    (results : List (Text × Json)) : ∃ results',
      objs.foldlM (fun results o => executionLines execObjs results (o.line iters seed maxReport))
        results = some results' ∧
      ∀ name, name ∉ objs.map (·.name) → get? name results' = get? name results := by
  induction objs generalizing results with
  | nil => exact ⟨results, rfl, fun _ _ => rfl⟩
  | cons o objs ih =>
    obtain ⟨ho, hobjs⟩ := List.forall_mem_cons.mp hplain
    obtain ⟨hexecO, hexecObjs⟩ := List.forall_mem_cons.mp hexec
    obtain ⟨entry, hentry⟩ := ExecObject.executionLines_line ho hexecO iters seed maxReport
    obtain ⟨results', hrest, hget⟩ :=
      ih hobjs hexecObjs (entry.elim results fun e => set o.name e results)
    refine ⟨results', ?_, fun name hname => ?_⟩
    · rw [List.foldlM_cons, hentry, Option.bind_eq_bind, Option.bind_some, hrest]
    · rw [List.map_cons, List.mem_cons, not_or] at hname
      rw [hget name hname.2]
      cases entry with
      | none => rfl
      | some e => rw [Option.elim_some, get?_set, if_neg hname.1]

/-- In a run over several objects each target gets the entry that its own line gives. -/
lemma executionLines_run {objs : List ExecObject} (hplain : ∀ o ∈ objs, o.PlainNames)
    (hexec : ∀ o ∈ objs, o.name ∈ execObjs) (hnames : (objs.map (·.name)).Nodup) {o : ExecObject}
    (ho : o ∈ objs) {entry : Option Json}
    (hentry : ∀ results, executionLines execObjs results (o.line iters seed maxReport) =
      some (entry.elim results fun e => set o.name e results)) : ∃ results,
      executionLines execObjs [] (objs.flatMap fun o => o.line iters seed maxReport) =
        some results ∧ get? o.name results = entry := by
  obtain ⟨before, after, rfl⟩ := List.append_of_mem ho
  obtain ⟨hplainBefore, hplainAfter⟩ := List.forall_mem_append.mp hplain
  obtain ⟨hexecBefore, hexecAfter⟩ := List.forall_mem_append.mp hexec
  rw [List.map_append, List.map_cons, List.nodup_middle, List.nodup_cons, List.mem_append,
    not_or] at hnames
  obtain ⟨⟨hbefore, hafter⟩, -⟩ := hnames
  obtain ⟨results₁, hrun₁, hget₁⟩ :=
    foldlM_executionLines hplainBefore hexecBefore iters seed maxReport []
  obtain ⟨results₂, hrun₂, hget₂⟩ :=
    foldlM_executionLines (List.forall_mem_of_forall_mem_cons hplainAfter)
      (List.forall_mem_of_forall_mem_cons hexecAfter) iters seed maxReport
      (entry.elim results₁ fun e => set o.name e results₁)
  refine ⟨results₂, ?_, ?_⟩
  · rw [executionLines_flatMap, List.foldlM_append, hrun₁, Option.bind_eq_bind, Option.bind_some,
      List.foldlM_cons, hentry, Option.bind_eq_bind, Option.bind_some, hrun₂]
  · rw [hget₂ _ hafter]
    cases entry with
    | none => exact hget₁ _ hbefore
    | some e => rw [Option.elim_some, get?_set, if_pos rfl]

/-- An object that has no entry after the loop gets one. -/
lemma get?_runExecution {stdout : Text} {results : List (Text × Json)} (hne : execObjs ≠ [])
    (h : executionLines execObjs [] stdout = some results) : ∃ final,
      runExecution execObjs true (.exited stdout) = some final ∧
      ∀ name ∈ execObjs, get? name final =
        some ((get? name results).getD (notExecuted "no runner output")) := by
  have hfill (names : List Text) (results : List (Text × Json)) (name : Text) :
      get? name (names.foldl (fun results name => if (get? name results).isSome then results
        else set name (notExecuted "no runner output") results) results) =
      if name ∈ names then some ((get? name results).getD (notExecuted "no runner output"))
      else get? name results := by
    induction names generalizing results with
    | nil => rfl
    | cons n names ih =>
      rw [List.foldl_cons, ih]
      by_cases hn : name = n
      · subst hn
        cases hget : get? name results <;> simp [hget]
      · by_cases hsome : (get? n results).isSome <;> simp [hsome, hn]
  refine ⟨execObjs.foldl (fun results name => if (get? name results).isSome then results
    else set name (notExecuted "no runner output") results) results, ?_, fun name hname => ?_⟩
  · rw [runExecution, if_neg (by simp [hne])]
    rw [← executionLines, h]
    rfl
  · rw [hfill, if_pos hname]

/-- The entry of a target after a run: that of its own line, or the one for no output. -/
lemma get?_runnerOutput {objs : List ExecObject} (hplain : ∀ o ∈ objs, o.PlainNames)
    (hnames : (objs.map (·.name)).Nodup) {o : ExecObject} (ho : o ∈ objs.take maxPaths)
    (entry : Option Json) (hentry : ∀ results, executionLines (objs.map (·.name)) results
      (o.line iters seed maxReport) = some (entry.elim results fun e => set o.name e results)) :
    ∃ results,
      runExecution (objs.map (·.name)) true (.exited (runnerOutput objs iters seed maxReport)) =
        some results ∧
      get? o.name results = some (entry.getD (notExecuted "no runner output")) := by
  have hexec : ∀ o ∈ objs, o.name ∈ objs.map (·.name) := fun o ho => List.mem_map_of_mem ho
  have hmem : o.name ∈ objs.map (·.name) := hexec o (List.mem_of_mem_take ho)
  have htaken : ((objs.take maxPaths).map (·.name)).Nodup :=
    hnames.sublist ((List.take_sublist _ _).map _)
  obtain ⟨results, hlines, hget⟩ := executionLines_run
    (fun o ho => hplain o (List.mem_of_mem_take ho))
    (fun o ho => hexec o (List.mem_of_mem_take ho)) htaken ho hentry
  obtain ⟨final, hfinal, hgetFinal⟩ := get?_runExecution (List.ne_nil_of_mem hmem) hlines
  exact ⟨final, hfinal, by rw [hgetFinal o.name hmem, hget]⟩

/-! ## What is reported -/

/-- No iteration that the loop reaches returns non-zero. -/
def Clean (kernel : ℕ → Iteration) (iters : ℤ) : Prop :=
  ∀ i < iters.toNat, (∀ j < i, (kernel j).retval?.isSome) →
    ∀ retval, (kernel i).retval? = some retval → retval = 0

/-- The results entry of a target that verified, with its execution entry. -/
def verifiedTarget (r : Json) : Json :=
  .obj [("compiled".toList, .bool true), ("suite".toList, .str "coverage".toList),
    ("verdict".toList, .str "success".toList), ("execution".toList, r)]

lemma get_verifiedTarget (r : Json) (key : String) : (verifiedTarget r).get key =
    some (if "compiled" = key then .bool true else if "suite" = key then .str "coverage".toList
      else if "verdict" = key then .str "success".toList
      else if "execution" = key then r else .null) := by
  simp only [verifiedTarget, get_obj, getD_get?_cons, get?_nil, Option.getD_none, String.toList_inj]

/-- If its execution leg is silent, the gate says nothing about a target that verified. -/
lemma targetErrors_verifiedTarget {r : Json} {name : Text}
    (h : executionErrors name (verifiedTarget r) = some []) :
    targetErrors true name (verifiedTarget r) = some [] := by
  have hkeys := get_verifiedTarget r
  have hverdict := verdictErrors_success true name (hkeys "expect_failure") (hkeys "compiled")
    (hkeys "verdict") rfl rfl rfl
  rw [targetErrors, hverdict, h]
  rfl

/-- A target without runner output passes the execution leg. -/
lemma executionErrors_notExecuted {t : Json} {error : String} (name : Text)
    (ht : t.get "execution" = some (notExecuted error)) : executionErrors name t = some [] := by
  have htruthy : (notExecuted error).truthy = true := rfl
  have hexec : (notExecuted error).get "executed" = some (.bool false) := rfl
  have hfalse : (Json.bool false).truthy = false := rfl
  unfold executionErrors
  simp only [ht, hexec, Option.bind_eq_bind, Option.bind_some, htruthy, hfalse, Bool.not_true,
    Bool.not_false, Bool.false_eq_true, if_true, if_false]
  rfl

/-- An entry without runner output is right about a loop that stopped before any failure. -/
lemma reported_notExecuted_iff {error : String} :
    Reported kernel iters seed maxReport name (notExecuted error) ↔
      ¬ Completes kernel iters ∧ Clean kernel iters := by
  constructor
  · intro hr
    constructor
    · intro hcompletes
      have hfail := (hr.counted hcompletes).1
      exact absurd (Option.some.inj hfail) nofun
    · intro i hi hbefore retval hret
      by_contra h0
      obtain ⟨errors, herrors, e, he, -⟩ := hr.gated i hi hbefore retval hret h0
        (verifiedTarget (notExecuted error)) true (get_verifiedTarget _ "execution")
      have hsilent : targetErrors true name (verifiedTarget (notExecuted error)) = some [] :=
        targetErrors_verifiedTarget
          (executionErrors_notExecuted name (get_verifiedTarget _ "execution"))
      rw [hsilent] at herrors
      rw [← Option.some.inj herrors] at he
      exact absurd he List.not_mem_nil
  · rintro ⟨hcompletes, hclean⟩
    constructor
    case clean => exact fun hexec => absurd (Option.some.inj hexec) nofun
    case counted => exact fun h => absurd h hcompletes
    case gated =>
      intro i hi hbefore retval hret h0
      exact absurd (hclean i hi hbefore retval hret) h0

/-- The entry of a loaded object reports its run faithfully exactly when no name cuts the line and
no map update and no test run fails in any of the iterations, or where a name cuts the line and the
loop stops before any iteration has returned non-zero. -/
theorem reported_iff {objs : List ExecObject} (hplain : ∀ o ∈ objs, o.PlainNames)
    (hnames : (objs.map (·.name)).Nodup) {o : ExecObject} (ho : o ∈ objs.take maxPaths)
    (hload : o.object = .loaded progName) : ∃ results r,
      runExecution (objs.map (·.name)) true (.exited (runnerOutput objs iters seed maxReport)) =
        some results ∧ get? o.name results = some r ∧
      (Reported o.kernel iters seed maxReport o.name r ↔
        (Unbroken o.name ∧ Unbroken progName) ∧ Completes o.kernel iters ∨
        ¬ (Unbroken o.name ∧ Unbroken progName) ∧ ¬ Completes o.kernel iters ∧
          Clean o.kernel iters) := by
  obtain ⟨hname, hprog⟩ := hplain o (List.mem_of_mem_take ho)
  have hexec : o.name ∈ objs.map (·.name) := List.mem_map_of_mem (List.mem_of_mem_take ho)
  have hline : o.line iters seed maxReport =
      (runObject o.path (.loaded progName) o.kernel iters seed maxReport).1 := by
    rw [ExecObject.line, hload]
  by_cases hunbroken : Unbroken o.name ∧ Unbroken progName
  · by_cases h : Completes o.kernel iters
    · obtain ⟨results, hrun, hget⟩ := get?_runnerOutput hplain hnames ho (some _) fun results => by
        rw [hline, executionLines_completed hname (hprog _ hload) hunbroken hexec o.baseName_path h]
        rfl
      exact ⟨results, _, hrun, hget, iff_of_true (reported_of_completes h) (.inl ⟨hunbroken, h⟩)⟩
    · obtain ⟨cases, hlines⟩ :=
        executionLines_abort hname (hprog _ hload) hunbroken hexec o.baseName_path h
      rw [← hline] at hlines
      obtain ⟨results, hrun, hget⟩ := get?_runnerOutput hplain hnames ho (some _) hlines
      refine ⟨results, _, hrun, hget, iff_of_false (not_reported_of_abort h cases) ?_⟩
      rintro (⟨-, hcompletes⟩ | ⟨hbroken, -⟩)
      · exact h hcompletes
      · exact hbroken hunbroken
  · obtain ⟨results, hrun, hget⟩ := get?_runnerOutput hplain hnames ho none fun results => by
      rw [hline, executionLines_broken hname (hprog _ hload) hunbroken o.baseName_path]
      rfl
    refine ⟨results, _, hrun, hget, reported_notExecuted_iff.trans ?_⟩
    rw [and_iff_right hunbroken, or_iff_right fun h => hunbroken h.1]

/-- An object of the target `crc16`. -/
def crc16Object (kernel : ℕ → Iteration) : ExecObject where
  name := "crc16".toList
  path := "output2/crc16.bpf.o".toList
  object := .loaded "prog".toList
  kernel := kernel
  baseName_path := by decide

lemma crc16Object_plainNames (kernel : ℕ → Iteration) : (crc16Object kernel).PlainNames := by
  refine ⟨by simp [crc16Object, Plain], fun progName h => ?_⟩
  rw [← BpfObject.loaded.inj h]
  simp [Plain]

/-- An object whose load fails. -/
def crc32Object : ExecObject where
  name := "crc32".toList
  path := "output2/crc32.bpf.o".toList
  object := .loadFailed 22
  kernel := fun _ => ⟨fun _ => none, .ok 0⟩
  baseName_path := by decide

/-- The second of two iterations returns non-zero. -/
def secondFails : ℕ → Iteration
  | 1 => ⟨fun _ => none, .ok 7⟩
  | _ => ⟨fun _ => none, .ok 0⟩

theorem reported_secondFails : ∃ results r,
    runExecution ["crc32".toList, "crc16".toList] true
      (.exited (runnerOutput [crc32Object, crc16Object secondFails] 2 1 8)) = some results ∧
    get? "crc16".toList results = some r ∧ Reported secondFails 2 1 8 "crc16".toList r := by
  have hplain : ∀ o ∈ [crc32Object, crc16Object secondFails], o.PlainNames :=
    List.forall_mem_cons.mpr ⟨⟨by simp [crc32Object, Plain], nofun⟩,
      List.forall_mem_singleton.mpr (crc16Object_plainNames secondFails)⟩
  have hcompletes : Completes secondFails 2 := by
    intro i _
    unfold secondFails
    split <;> rfl
  have hmem : crc16Object secondFails ∈ [crc32Object, crc16Object secondFails].take maxPaths := by
    simp [maxPaths]
  have h : ∃ results r, runExecution ["crc32".toList, "crc16".toList] true
        (.exited (runnerOutput [crc32Object, crc16Object secondFails] 2 1 8)) = some results ∧
      get? "crc16".toList results = some r ∧
      (Reported secondFails 2 1 8 "crc16".toList r ↔ _) :=
    reported_iff hplain (by decide) hmem rfl
  obtain ⟨results, r, hrun, hget, hr⟩ := h
  exact ⟨results, r, hrun, hget, hr.mpr (.inl ⟨⟨unbroken_string (by decide),
    unbroken_string (by decide)⟩, hcompletes⟩)⟩

/-- The first iteration returns non-zero and a map update of the second fails. -/
def failThenAbort : ℕ → Iteration
  | 0 => ⟨fun _ => none, .ok 1⟩
  | _ => ⟨fun _ => some 12, .ok 0⟩

/-- The entry then reads as a clean run, and the gate is silent about the target. -/
theorem failThenAbort_hidden : (failThenAbort 0).retval? = some 1 ∧ ∃ results r,
    runExecution ["crc16".toList] true
      (.exited (runnerOutput [crc16Object failThenAbort] 2 1 8)) = some results ∧
    get? "crc16".toList results = some r ∧
    r.get "executed" = some (.bool true) ∧ r.get "failures" = some (.int 0) ∧
    targetErrors true "crc16".toList (verifiedTarget r) = some [] ∧
    ¬ Reported failThenAbort 2 1 8 "crc16".toList r := by
  have habort : ¬ Completes failThenAbort 2 := fun h => absurd (h 1 (by decide)) (by decide)
  have hplain : ∀ o ∈ [crc16Object failThenAbort], o.PlainNames :=
    List.forall_mem_singleton.mpr (crc16Object_plainNames failThenAbort)
  have hunbroken : Unbroken "crc16".toList ∧ Unbroken "prog".toList :=
    ⟨unbroken_string (by decide), unbroken_string (by decide)⟩
  have hmem : crc16Object failThenAbort ∈ [crc16Object failThenAbort].take maxPaths := by
    simp [maxPaths]
  obtain ⟨cases, hlines⟩ : ∃ cases, ∀ results, executionLines ["crc16".toList] results
      ((crc16Object failThenAbort).line 2 1 8) =
        some (set "crc16".toList (loadedEntry 2 0 cases) results) :=
    executionLines_abort (by simp [Plain]) (by simp [Plain]) hunbroken (by simp)
      (crc16Object failThenAbort).baseName_path habort
  obtain ⟨results, hrun, hget⟩ := get?_runnerOutput hplain (List.nodup_singleton _) hmem
    (some (loadedEntry 2 0 cases)) hlines
  obtain ⟨hexec, hfail, -, -, -⟩ := get_loadedEntry 2 0 cases
  have hleg := executionErrors_zero "crc16".toList
    (get_verifiedTarget (loadedEntry 2 0 cases) "execution")
  exact ⟨rfl, results, loadedEntry 2 0 cases, hrun, hget, hexec, hfail,
    targetErrors_verifiedTarget hleg, not_reported_of_abort habort cases⟩

end BpfVerify.Execution
