import BpfVerify.Json

/-!
# Fuzz runner

`run_object` of `tools/bpf_runner.c` seeds `input_map`, runs the program, and prints the
failing iterations of one object as one JSON line, a piece at a time. The embedding keeps
the printed text; the results say which JSON text it is on each way out of the loop.
-/
namespace BpfVerify.Runner
open Python Json

/-- The four values of `input_map` in one iteration. -/
abbrev Seeds := Fin 4 → UInt64

/-- What the kernel answers in one iteration: for each key the `errno` of a failed update,
and the `errno` or the `retval` of the test run. -/
structure Iteration where
  mapUpdateElem : Fin 4 → Option ℤ
  progTestRunOpts : Except ℤ (BitVec 32)

/-! ## Seeds -/

/-- The state after the draw, and the value drawn. -/
def nextRand (rngState : UInt64) : UInt64 × UInt64 :=
  let z := rngState + 0x9e3779b97f4a7c15
  let rngState := z
  let z := (z ^^^ (z >>> 30)) * 0xbf58476d1ce4e5b9
  let z := (z ^^^ (z >>> 27)) * 0x94d049bb133111eb
  (rngState, z ^^^ (z >>> 31))

def cornerValues : List UInt64 :=
  [0, 1, 2, ~~~0, ~~~0 - 1,
    0x8000000000000000, 0x7fffffffffffffff,
    0xffffffff, 0x100000000, 0x80000000]

def nCorners : ℕ := cornerValues.length

def corner (i : ℕ) : UInt64 := cornerValues.getD (i % nCorners) 0

def seedCase (rngState : UInt64) (iter : ℕ) : UInt64 × Seeds :=
  if iter < nCorners * nCorners then
    (rngState, ![corner iter, corner (iter / nCorners), corner (iter / nCorners), corner iter])
  else
    let (rngState, a) := nextRand rngState
    let (rngState, b) := nextRand rngState
    let (rngState, c) := nextRand rngState
    let (rngState, d) := nextRand rngState
    (rngState, ![a, b, c, d])

/-! ## The loop -/

structure Run where
  rngState : UInt64
  failures : ℕ
  reported : ℕ
  /-- What has been printed. -/
  out : Text

/-- The first update that fails ends the iteration. -/
def seedInputMap (it : Iteration) : Option ℤ := (List.finRange 4).findSome? it.mapUpdateElem

def caseText (seeds : Seeds) (retval : BitVec 32) : Text :=
  "\x7b\"seeds\":[".toList ++ decimal (seeds 0).toNat ++ ",".toList ++ decimal (seeds 1).toNat ++
    ",".toList ++ decimal (seeds 2).toNat ++ ",".toList ++ decimal (seeds 3).toNat ++
    "],\"retval\":".toList ++ decimal retval.toInt ++ "\x7d".toList

def abortText (error : Text) : Text :=
  "],\"loaded\":true,\"error\":\"".toList ++ error ++ "\"\x7d\n".toList

/-- One pass of the `for` loop; the error is the whole text printed when it returns early. -/
def iterate (it : Iteration) (maxReport : ℤ) (iter : ℕ) (run : Run) : Except Text Run :=
  let (rngState, seeds) := seedCase run.rngState iter
  match seedInputMap it with
  | some errno => .error (run.out ++ abortText ("map update failed: ".toList ++ decimal errno))
  | none =>
    match it.progTestRunOpts with
    | .error errno => .error (run.out ++ abortText ("test_run failed: ".toList ++ decimal errno))
    | .ok retval =>
      if retval ≠ 0 then
        if run.reported < maxReport then
          .ok { rngState := rngState, failures := run.failures + 1, reported := run.reported + 1,
                out := run.out ++ (if run.reported ≠ 0 then ",".toList else []) ++
                  caseText seeds retval }
        else .ok { run with rngState := rngState, failures := run.failures + 1 }
      else .ok { run with rngState := rngState }

def iterations (kernel : ℕ → Iteration) (maxReport : ℤ) : ℕ → ℕ → Run → Except Text Run
  | _, 0, run => .ok run
  | iter, n + 1, run => do
    let run ← iterate (kernel iter) maxReport iter run
    iterations kernel maxReport (iter + 1) n run

/-- How far libbpf gets with an object file. -/
inductive BpfObject where
  | openFailed (errno : ℤ)
  | loadFailed (errno : ℤ)
  | incomplete
  | loaded (progName : Text)

/-- `strrchr(path, '/') + 1`, or the whole path. -/
def baseName (path : Text) : Text := (path.splitOn '/').getLastD []

def unloadedText (base : Text) (error : Text) : Text :=
  "\x7b\"file\":\"".toList ++ base ++ "\",\"loaded\":false,\"error\":\"".toList ++ error ++
    "\"\x7d\n".toList

def headText (base progName : Text) (iters : ℤ) : Text :=
  "\x7b\"file\":\"".toList ++ base ++ "\",\"prog\":\"".toList ++ progName ++
    "\",\"loaded\":true,\"iters\":".toList ++ decimal iters ++ ",\"cases\":[".toList

/-- The printed line and the status. -/
def runObject (path : Text) (obj : BpfObject) (kernel : ℕ → Iteration) (iters : ℤ) (seed : UInt64)
    (maxReport : ℤ) : Text × ℕ :=
  let base := baseName path
  match obj with
  | .openFailed errno => (unloadedText base ("open failed: ".toList ++ decimal errno), 2)
  | .loadFailed errno => (unloadedText base ("load failed: ".toList ++ decimal errno), 2)
  | .incomplete => (unloadedText base "missing prog or input_map".toList, 2)
  | .loaded progName =>
    let start : Run :=
      { rngState := seed, failures := 0, reported := 0, out := headText base progName iters }
    match iterations kernel maxReport 0 iters.toNat start with
    | .error out => (out, 2)
    | .ok run =>
      (run.out ++ "],\"failures\":".toList ++ decimal run.failures ++ "\x7d\n".toList,
        if run.failures ≠ 0 then 1 else 0)

/-! ## What the loop has seen and printed -/

/-- The `retval` of an iteration in which no call failed. -/
def Iteration.retval? (it : Iteration) : Option (BitVec 32) :=
  match seedInputMap it, it.progTestRunOpts with
  | none, .ok retval => some retval
  | _, _ => none

def rngAt (seed : UInt64) : ℕ → UInt64
  | 0 => seed
  | i + 1 => (seedCase (rngAt seed i) i).1

def seedsAt (seed : UInt64) (i : ℕ) : Seeds := (seedCase (rngAt seed i) i).2

/-- The failure of iteration `i`, if it ran and returned non-zero. -/
def failure? (kernel : ℕ → Iteration) (seed : UInt64) (i : ℕ) : Option (Seeds × BitVec 32) :=
  (kernel i).retval?.bind fun retval => if retval ≠ 0 then some (seedsAt seed i, retval) else none

/-- The failing ones among the first `n` iterations, in order. -/
def failing (kernel : ℕ → Iteration) (seed : UInt64) (n : ℕ) : List (Seeds × BitVec 32) :=
  (List.range n).filterMap (failure? kernel seed)

/-- The failing iterations that are printed. -/
def reportedCases (kernel : ℕ → Iteration) (seed : UInt64) (maxReport : ℤ) (n : ℕ) :
    List (Seeds × BitVec 32) :=
  (failing kernel seed n).take maxReport.toNat

/-- The state in which `n` completed iterations leave the loop. -/
def runAfter (kernel : ℕ → Iteration) (seed : UInt64) (maxReport : ℤ) (head : Text) (n : ℕ) : Run where
  rngState := rngAt seed n
  failures := (failing kernel seed n).length
  reported := (reportedCases kernel seed maxReport n).length
  out := head ++ [','].intercalate
    ((reportedCases kernel seed maxReport n).map fun c => caseText c.1 c.2)

lemma failing_succ (kernel : ℕ → Iteration) (seed : UInt64) (n : ℕ) :
    failing kernel seed (n + 1) = failing kernel seed n ++ (failure? kernel seed n).toList := by
  simp only [failing, List.range_succ, List.filterMap_append]
  cases h : failure? kernel seed n <;> simp [h]

lemma intercalate_concat (ts : List Text) (t : Text) :
    [','].intercalate (ts ++ [t]) =
      [','].intercalate ts ++ (if ts.length ≠ 0 then [','] else []) ++ t := by
  induction ts with
  | nil => simp
  | cons u ts ih =>
    cases ts with
    | nil => simp
    | cons v ts =>
      simp only [List.cons_append, List.intercalate_cons_cons] at ih ⊢
      simp [ih]

lemma runAfter_zero (kernel : ℕ → Iteration) (seed : UInt64) (maxReport : ℤ) (head : Text) :
    runAfter kernel seed maxReport head 0 =
      { rngState := seed, failures := 0, reported := 0, out := head } := by
  simp [runAfter, rngAt, failing, reportedCases]

lemma retval?_eq_some {it : Iteration} {retval : BitVec 32} :
    it.retval? = some retval ↔ seedInputMap it = none ∧ it.progTestRunOpts = .ok retval := by
  unfold Iteration.retval?
  split <;> simp_all

/-- A completed iteration moves the loop to its next state. -/
lemma iterate_completed {kernel : ℕ → Iteration} {n : ℕ} {retval : BitVec 32}
    (h : (kernel n).retval? = some retval) (seed : UInt64) (maxReport : ℤ) (head : Text) :
    iterate (kernel n) maxReport n (runAfter kernel seed maxReport head n) =
      .ok (runAfter kernel seed maxReport head (n + 1)) := by
  obtain ⟨hseed, hrun⟩ := retval?_eq_some.mp h
  have hsucc := failing_succ kernel seed n
  by_cases h0 : retval = 0#32
  · -- nothing is counted or printed
    have hnone : failure? kernel seed n = none := by simp [failure?, h, h0]
    rw [hnone, Option.toList_none, List.append_nil] at hsucc
    simp [iterate, hseed, hrun, h0, runAfter, reportedCases, hsucc, rngAt]
  · have hsome : failure? kernel seed n = some (seedsAt seed n, retval) := by
      simp [failure?, h, h0]
    rw [hsome, Option.toList_some] at hsucc
    have hlen : (reportedCases kernel seed maxReport n).length =
        min maxReport.toNat (failing kernel seed n).length := List.length_take ..
    by_cases hrep : ((reportedCases kernel seed maxReport n).length : ℤ) < maxReport
    · -- below the limit everything that failed has been printed
      have hall : reportedCases kernel seed maxReport n = failing kernel seed n :=
        List.take_of_length_le (by omega)
      have hall' : reportedCases kernel seed maxReport (n + 1) =
          reportedCases kernel seed maxReport n ++ [(seedsAt seed n, retval)] := by
        rw [hall, ← hsucc]
        exact List.take_of_length_le (by simp [hsucc]; omega)
      simp [iterate, hseed, hrun, h0, runAfter, hrep, hall', hsucc, intercalate_concat, rngAt,
        seedsAt]
    · have hsame : reportedCases kernel seed maxReport (n + 1) =
          reportedCases kernel seed maxReport n := by
        rw [reportedCases, hsucc, List.take_append_of_le_length (by omega), reportedCases]
      simp [iterate, hseed, hrun, h0, runAfter, hrep, hsame, hsucc, rngAt]

/-- The error of the early return that iteration `it` takes. -/
def abortOf (it : Iteration) : Option Text :=
  match seedInputMap it, it.progTestRunOpts with
  | some errno, _ => some ("map update failed: ".toList ++ decimal errno)
  | none, .error errno => some ("test_run failed: ".toList ++ decimal errno)
  | none, .ok _ => none

lemma abortOf_eq_none {it : Iteration} : abortOf it = none ↔ it.retval?.isSome := by
  unfold abortOf Iteration.retval?
  split <;> simp_all

lemma iterate_abort {it : Iteration} {error : Text} (h : abortOf it = some error) (maxReport : ℤ)
    (iter : ℕ) (run : Run) :
    iterate it maxReport iter run = .error (run.out ++ abortText error) := by
  unfold abortOf at h
  split at h <;> simp_all [iterate]

/-- Iterations that all complete take the loop from one state to the other. -/
lemma iterations_completed {kernel : ℕ → Iteration} (seed : UInt64) (maxReport : ℤ) (head : Text)
    (n iter : ℕ) (h : ∀ i, iter ≤ i → i < iter + n → (kernel i).retval?.isSome) :
    iterations kernel maxReport iter n (runAfter kernel seed maxReport head iter) =
      .ok (runAfter kernel seed maxReport head (iter + n)) := by
  induction n generalizing iter with
  | zero => rfl
  | succ n ih =>
    obtain ⟨retval, hret⟩ := Option.isSome_iff_exists.mp (h iter le_rfl (by omega))
    have hrest := ih (iter + 1) fun i hi hlt => h i (by omega) (by omega)
    rw [iterations, iterate_completed hret, show iter + (n + 1) = iter + 1 + n from by omega, ← hrest]
    rfl

/-- The first iteration that does not complete ends the line where it stands. -/
lemma iterations_abort {kernel : ℕ → Iteration} (seed : UInt64) (maxReport : ℤ) (head : Text)
    (k n iter : ℕ) (hk : k < n) (h : ∀ i, iter ≤ i → i < iter + k → (kernel i).retval?.isSome)
    {error : Text} (habort : abortOf (kernel (iter + k)) = some error) :
    iterations kernel maxReport iter n (runAfter kernel seed maxReport head iter) =
      .error ((runAfter kernel seed maxReport head (iter + k)).out ++ abortText error) := by
  induction k generalizing iter n with
  | zero =>
    cases n with
    | zero => omega
    | succ n =>
      rw [Nat.add_zero] at habort
      rw [iterations, iterate_abort habort]
      rfl
  | succ k ih =>
    cases n with
    | zero => omega
    | succ n =>
      obtain ⟨retval, hret⟩ := Option.isSome_iff_exists.mp (h iter le_rfl (by omega))
      have hadd : iter + (k + 1) = iter + 1 + k := by omega
      rw [hadd] at habort ⊢
      have hrest := ih n (iter + 1) (by omega) (fun i hi hlt => h i (by omega) (by omega)) habort
      rw [iterations, iterate_completed hret, ← hrest]
      rfl

/-! ## The line as JSON -/

def caseJson (c : Seeds × BitVec 32) : Json :=
  .obj [("seeds".toList, .arr [.int (c.1 0).toNat, .int (c.1 1).toNat, .int (c.1 2).toNat,
    .int (c.1 3).toNat]), ("retval".toList, .int c.2.toInt)]

lemma reads_case (c : Seeds × BitVec 32) : Reads (caseText c.1 c.2) (caseJson c) := by
  have hseeds : Reads (arrText ([c.1 0, c.1 1, c.1 2, c.1 3].map fun s => decimal s.toNat))
      (.arr ([c.1 0, c.1 1, c.1 2, c.1 3].map fun s => .int s.toNat)) :=
    reads_arr fun s _ => reads_int _
  have hobj := @reads_obj [("seeds".toList, _, _), ("retval".toList, _, .int c.2.toInt)] (by
    simp only [List.forall_mem_cons]
    exact ⟨⟨by simp [Plain], hseeds⟩, ⟨by simp [Plain], reads_int _⟩, by simp⟩)
  convert hobj using 1
  · unfold caseText objText memberText quote arrText
    simp only [List.map_cons, List.map_nil, List.intercalate_cons_cons, List.intercalate_singleton]
    simp only [List.cons_append, List.append_assoc, List.nil_append, String.reduceToList]
  · simp [caseJson, update, Python.set]

/-- The members every loaded object's line starts with, each with its text and value. -/
def headMembers (base progName : Text) (iters : ℤ) (cases : List (Seeds × BitVec 32)) :
    List (Text × Text × Json) :=
  [("file".toList, quote base, .str base),
    ("prog".toList, quote progName, .str progName),
    ("loaded".toList, "true".toList, .bool true),
    ("iters".toList, decimal iters, .int iters),
    ("cases".toList, arrText (cases.map fun c => caseText c.1 c.2), .arr (cases.map caseJson))]

lemma headMembers_reads {base progName : Text} (hbase : Plain base) (hprog : Plain progName)
    (iters : ℤ) (cases : List (Seeds × BitVec 32)) :
    ∀ p ∈ headMembers base progName iters cases, Plain p.1 ∧ Reads p.2.1 p.2.2 := by
  simp only [headMembers, List.forall_mem_cons]
  exact ⟨⟨by simp [Plain], reads_str hbase⟩, ⟨by simp [Plain], reads_str hprog⟩,
    ⟨by simp [Plain], reads_true⟩, ⟨by simp [Plain], reads_int iters⟩,
    ⟨by simp [Plain], reads_arr fun c _ => reads_case c⟩, by simp⟩

/-- The object that a line with these members is. -/
def rowJson (base progName : Text) (iters : ℤ) (cases : List (Seeds × BitVec 32))
    (tail : List (Text × Text × Json)) : Json :=
  .obj (update [] ((headMembers base progName iters cases ++ tail).map fun p => (p.1, p.2.2)))

lemma intercalate_cons (t : Text) (ts : List Text) :
    [','].intercalate (t :: ts) = t ++ ts.flatMap fun u => ',' :: u := by
  induction ts generalizing t with
  | nil => simp
  | cons u ts ih => simp [ih u]

/-- The text of an object with these members, as `run_object` prints it in pieces. -/
lemma objText_headMembers (base progName : Text) (iters : ℤ) (cases : List (Seeds × BitVec 32))
    (tail : List (Text × Text × Json)) :
    objText ((headMembers base progName iters cases ++ tail).map fun p => (p.1, p.2.1)) =
      headText base progName iters ++
        [','].intercalate (cases.map fun c => caseText c.1 c.2) ++ "]".toList ++
        (tail.flatMap fun p => ',' :: memberText (p.1, p.2.1)) ++ "\x7d".toList := by
  have htail : (tail.map fun p => memberText (p.1, p.2.1)).flatMap (fun u => ',' :: u) =
      tail.flatMap fun p => ',' :: memberText (p.1, p.2.1) := by
    rw [List.flatMap_map]
  simp only [objText, headMembers, List.cons_append, List.nil_append, List.map_cons, List.map_map,
    intercalate_cons, List.flatMap_cons, Function.comp_def, htail]
  unfold memberText quote headText arrText
  simp only [List.cons_append, List.append_assoc, List.nil_append, String.reduceToList]

/-! ## The line on each way out -/

/-- The member that ends the line of an object whose iterations all completed. -/
def completedTail (failures : ℕ) : List (Text × Text × Json) :=
  [("failures".toList, decimal failures, .int failures)]

/-- The members that end the line on an early return. -/
def abortTail (error : Text) : List (Text × Text × Json) :=
  [("loaded".toList, "true".toList, .bool true), ("error".toList, quote error, .str error)]

def lineText (base progName : Text) (iters : ℤ) (cases : List (Seeds × BitVec 32))
    (tail : List (Text × Text × Json)) : Text :=
  objText ((headMembers base progName iters cases ++ tail).map fun p => (p.1, p.2.1))

/-- The line is complete as JSON whatever members end it. -/
lemma loads_lineText {base progName : Text} (hbase : Plain base) (hprog : Plain progName) (iters : ℤ)
    (cases : List (Seeds × BitVec 32)) {tail : List (Text × Text × Json)}
    (htail : ∀ p ∈ tail, Plain p.1 ∧ Reads p.2.1 p.2.2) :
    loads (lineText base progName iters cases tail) =
      some (rowJson base progName iters cases tail) := by
  have hobj := @reads_obj (headMembers base progName iters cases ++ tail) (by
    intro p hp
    cases List.mem_append.mp hp with
    | inl hhead => exact headMembers_reads hbase hprog iters cases p hhead
    | inr hp => exact htail p hp)
  exact hobj.loads

lemma completedTail_reads (failures : ℕ) :
    ∀ p ∈ completedTail failures, Plain p.1 ∧ Reads p.2.1 p.2.2 := by
  simp only [completedTail, List.forall_mem_cons]
  exact ⟨⟨by simp [Plain], reads_int _⟩, by simp⟩

lemma abortTail_reads {error : Text} (h : Plain error) :
    ∀ p ∈ abortTail error, Plain p.1 ∧ Reads p.2.1 p.2.2 := by
  simp only [abortTail, List.forall_mem_cons]
  exact ⟨⟨by simp [Plain], reads_true⟩, ⟨by simp [Plain], reads_str h⟩, by simp⟩

lemma abortOf_plain {it : Iteration} {error : Text} (h : abortOf it = some error) :
    Plain error := by
  unfold abortOf at h
  split at h
  · have herror := Option.some.inj h
    rw [← herror]
    exact .append (by simp [Plain]) (plain_decimal _)
  · have herror := Option.some.inj h
    rw [← herror]
    exact .append (by simp [Plain]) (plain_decimal _)
  · simp at h

lemma abortText_eq (error : Text) :
    abortText error = "]".toList ++ ((abortTail error).flatMap fun p => ',' :: memberText (p.1, p.2.1)) ++
      "\x7d".toList ++ ['\n'] := by
  unfold abortText abortTail memberText quote
  simp only [List.flatMap_cons, List.flatMap_nil, List.cons_append, List.append_assoc,
    List.nil_append, String.reduceToList]

variable (path progName : Text) (kernel : ℕ → Iteration) (iters : ℤ) (seed : UInt64) (maxReport : ℤ)

lemma runObject_completed (h : ∀ i < iters.toNat, (kernel i).retval?.isSome) :
    (runObject path (.loaded progName) kernel iters seed maxReport).1 =
      lineText (baseName path) progName iters (reportedCases kernel seed maxReport iters.toNat)
        (completedTail (failing kernel seed iters.toNat).length) ++ ['\n'] := by
  have hloop := iterations_completed seed maxReport (headText (baseName path) progName iters)
    iters.toNat 0 fun i _ hi => h i (by omega)
  rw [runAfter_zero, Nat.zero_add] at hloop
  simp only [runObject, hloop, runAfter, lineText, objText_headMembers, completedTail]
  simp only [List.flatMap_cons, List.flatMap_nil, memberText, quote]
  simp only [List.cons_append, List.append_assoc, List.nil_append, String.reduceToList]

lemma runObject_abort {k : ℕ} (hk : k < iters.toNat) (h : ∀ i < k, (kernel i).retval?.isSome)
    {error : Text} (habort : abortOf (kernel k) = some error) :
    (runObject path (.loaded progName) kernel iters seed maxReport).1 =
      lineText (baseName path) progName iters (reportedCases kernel seed maxReport k)
        (abortTail error) ++ ['\n'] := by
  have hloop := iterations_abort seed maxReport (headText (baseName path) progName iters)
    k iters.toNat 0 hk (fun i _ hi => h i (by omega)) (by simpa using habort)
  rw [runAfter_zero, Nat.zero_add] at hloop
  simp only [runObject, hloop, runAfter, lineText, objText_headMembers, abortText_eq,
    List.append_assoc]

end BpfVerify.Runner
