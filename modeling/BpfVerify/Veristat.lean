import BpfVerify.Execution

/-!
# Verifier verdicts

`parse_veristat_csv` and `run_veristat` of `pipeline.py`: the verifier's CSV output is read
batch by batch into one table of rows, and everything else it prints is kept as text for the
gate. Both sit on Python's `csv.DictReader`, embedded here for its default dialect.
-/
namespace BpfVerify.Veristat
open Python Json Execution

/-! ## `csv.reader` -/

inductive CsvState where
  | startRecord
  | startField
  | inField
  | inQuotedField
  | quoteInQuotedField
  | eatCrnl
  deriving DecidableEq

structure CsvParser where
  state : CsvState
  field : Text
  fields : List Text

namespace CsvParser

def start : CsvParser where
  state := .startRecord
  field := []
  fields := []

/-- A field longer than `csv.field_size_limit()` is an error. -/
def addChar (p : CsvParser) (c : Char) (state : CsvState) : Option CsvParser :=
  if p.field.length ≥ 131072 then none else some { p with field := p.field ++ [c], state := state }

def saveField (p : CsvParser) (state : CsvState) : CsvParser where
  state := state
  field := []
  fields := p.fields ++ [p.field]

/-- The end of a record, by a line break or by the end of the line (`none`). -/
def endOf (c : Option Char) : CsvState := if c = none then .startRecord else .eatCrnl

def isEnd (c : Option Char) : Bool := c = none ∨ c = some '\n' ∨ c = some '\r'

def startField (p : CsvParser) (c : Option Char) : Option CsvParser :=
  if isEnd c then some (p.saveField (endOf c))
  else match c with
    | some '"' => some { p with state := .inQuotedField }
    | some ',' => some (p.saveField .startField)
    | some c => p.addChar c .inField
    | none => none

/-- `parse_process_char` for the excel dialect; `none` as the character is the end of a line. -/
def processChar (p : CsvParser) (c : Option Char) : Option CsvParser :=
  match p.state with
  | .startRecord =>
    if c = none then some p
    else if isEnd c then some { p with state := .eatCrnl }
    else p.startField c
  | .startField => p.startField c
  | .inField =>
    if isEnd c then some (p.saveField (endOf c))
    else match c with
      | some ',' => some (p.saveField .startField)
      | some c => p.addChar c .inField
      | none => none
  | .inQuotedField =>
    match c with
    | none => some p
    | some '"' => some { p with state := .quoteInQuotedField }
    | some c => p.addChar c .inQuotedField
  | .quoteInQuotedField =>
    if isEnd c then some (p.saveField (endOf c))
    else match c with
      | some '"' => p.addChar '"' .inQuotedField
      | some ',' => some (p.saveField .startField)
      | some c => p.addChar c .inField
      | none => none
  | .eatCrnl =>
    if c = none then some { p with state := .startRecord }
    else if isEnd c then some p
    else none

def processLine (p : CsvParser) (line : Text) : Option CsvParser :=
  (line.map some ++ [none]).foldlM processChar p

end CsvParser

/-- The records of the lines left, from a parser inside a record. A quoted field that the
text does not close ends with it. -/
def csvRecords : CsvParser → List Text → Option (List (List Text))
  | p, [] => some (if p.state = .inQuotedField then [(p.saveField .startRecord).fields] else [])
  | p, line :: lines => do
    let p ← p.processLine line
    if p.state = .startRecord then return p.fields :: (← csvRecords .start lines)
    else csvRecords p lines

/-- The lines of an `io.StringIO`, each with its newline. -/
def ioLines : Text → List Text
  | [] => []
  | c :: t =>
    if c = '\n' then [c] :: ioLines t
    else match ioLines t with
      | [] => [[c]]
      | line :: lines => (c :: line) :: lines

/-! ## `csv.DictReader` -/

/-- A row: the value of each header name, and the fields beyond the header, which stand
under the key `None`. -/
structure DictRow where
  fields : List (Text × Option Text)
  rest : List Text

def DictRow.get (row : DictRow) (key : String) : Option Text := (get? key.toList row.fields).join

def dictRow (header record : List Text) : DictRow where
  fields := update (update [] (header.zip (record.map some)))
    ((header.drop record.length).map fun key => (key, none))
  rest := record.drop header.length

def dictReader (text : Text) : Option (List DictRow) := do
  let records ← csvRecords .start (ioLines text)
  match records with
  | [] => return []
  | header :: records => return (records.filter fun r => r.length ≠ 0).map (dictRow header)

/-! ## `parse_veristat_csv` -/

/-- `int(text)`, with `none` for `ValueError`; `digit` is the value of a Unicode decimal digit. -/
def intOfText (digit : Char → Option ℕ) (text : Text) : Option ℤ := do
  let (sign, body) := signPart (strip text)
  let groups ← (body.splitOn '_').mapM fun group =>
    if group = [] then none else group.mapM digit
  if groups.flatten.length > 4300 then none
  else return sign * (groups.flatten.foldl (fun n d => 10 * n + d) 0 : ℕ)

def toInt (digit : Char → Option ℕ) (value : Option Text) : Json :=
  match value.bind (intOfText digit) with
  | some n => .int n
  | none => .null

def ofOption (value : Option Text) : Json := (value.map Json.str).getD .null

/-- The table row of a CSV row with a verdict. -/
def rowOf (digit : Char → Option ℕ) (row : DictRow) : List (Text × Json) :=
  [("prog".toList, ofOption (row.get "prog_name")),
    ("verdict".toList, ofOption (row.get "verdict")),
    ("duration_us".toList, toInt digit (row.get "duration")),
    ("insns".toList, toInt digit (row.get "total_insns")),
    ("states".toList, toInt digit (row.get "total_states")),
    ("peak_states".toList, toInt digit (row.get "peak_states"))]

abbrev Rows := List (Text × List (Text × Json))

/-- `",".join(v for v in row.values() if v)`: only strings can be joined. -/
def joinValues (row : DictRow) : Option Text :=
  if row.rest ≠ [] then none
  else some ([','].intercalate ((row.fields.filterMap Prod.snd).filter fun v => v ≠ []))

/-- The body of the loop over the CSV rows. -/
def parseRow (digit : Char → Option ℕ) (acc : Rows × List Text) (row : DictRow) :
    Option (Rows × List Text) :=
  match row.get "file_name", row.get "verdict" with
  | some (c :: file), some (_ :: _) =>
    some (set (pathName (c :: file)) (rowOf digit row) acc.1, acc.2)
  | _, _ => (joinValues row).map fun line => (acc.1, acc.2 ++ [line])

/-- The CSV rows in the output of one verifier run. -/
def csvRows (csvText : Text) : Option (List DictRow) :=
  match (splitlines csvText).findIdx? fun l => "file_name,".toList.isPrefixOf l with
  | none => some []
  | some header => dictReader (['\n'].intercalate ((splitlines csvText).drop header))

/-- The lines before the CSV header, all of them where there is none. -/
def headNoise (csvText : Text) : List Text :=
  match (splitlines csvText).findIdx? fun l => "file_name,".toList.isPrefixOf l with
  | none => splitlines csvText
  | some header => (splitlines csvText).take header

/-- The rows by object file, and the noise. -/
def parseVeristatCsv (digit : Char → Option ℕ) (csvText : Text) : Option (Rows × List Text) := do
  (← csvRows csvText).foldlM (parseRow digit) ([], headNoise csvText)

/-! ## `run_veristat` -/

/-- How the verifier's process ends on one batch. -/
inductive BatchOutcome where
  | notFound
  | timeout
  | exited (stdout stderr : Text) (returncode : ℤ)

/-- What `run_veristat` returns, and what it has gathered so far. -/
structure Verification where
  ran : Bool
  rc : ℤ
  rows : Rows
  stderr : Text

/-- `rc or code`. -/
def orCode (rc code : ℤ) : ℤ := if rc ≠ 0 then rc else code

def timeoutText (i : ℕ) (batch : List Text) : Text :=
  "veristat timed out on batch ".toList ++ decimal (i + 1) ++ " (".toList ++
    [',', ' '].intercalate (batch.map pathName) ++ ")\n".toList

def noiseText (noise : List Text) : Text :=
  if noise = [] then [] else ['\n'].intercalate noise ++ ['\n']

/-- The loop over the batches from number `i` on. -/
def runBatches (digit : Char → Option ℕ) (outcome : ℕ → BatchOutcome) :
    ℕ → List (List Text) → Verification → Option Verification
  | _, [], v => some v
  | i, batch :: batches, v =>
    match outcome i with
    | .notFound =>
      some { ran := false, rc := 0, rows := [], stderr := "(veristat not runnable - skipped)".toList }
    | .timeout =>
      runBatches digit outcome (i + 1) batches
        { v with rc := orCode v.rc 1, stderr := v.stderr ++ timeoutText i batch }
    | .exited stdout stderr returncode => do
      let (rows, noise) ← parseVeristatCsv digit stdout
      runBatches digit outcome (i + 1) batches
        { v with rc := orCode v.rc returncode, rows := update v.rows rows,
                 stderr := v.stderr ++ noiseText noise ++ stderr }

/-- `split` cuts the object files into batches; `available` says that the verifier is a file. -/
def runVeristat (digit : Char → Option ℕ) (available : Bool)
    (split : List Text → Option (List (List Text))) (outcome : ℕ → BatchOutcome)
    (objFiles : List Text) : Option Verification :=
  if !available then
    some { ran := false, rc := 0, rows := [], stderr := "(veristat not available - skipped)".toList }
  else do
    runBatches digit outcome 0 (← split objFiles)
      { ran := true, rc := 0, rows := [], stderr := [] }

/-- The split of the pipeline: slices of `BPF_VERISTAT_BATCH` files, where a step of zero is
an error and a negative one leaves no batch. -/
def slices (batchSize : ℤ) (objFiles : List Text) : Option (List (List Text)) :=
  if batchSize = 0 then none
  else if batchSize < 0 then some []
  else some (objFiles.toChunks batchSize.toNat)

/-! ## What the table and the messages hold -/

/-- Some batch printed a CSV row with this verdict for the object of `name`. -/
def HasRow (outcome : ℕ → BatchOutcome) (batches : ℕ) (name : Text) (verdict : String) : Prop :=
  ∃ i < batches, ∃ stdout stderr returncode, outcome i = .exited stdout stderr returncode ∧
    ∃ rows row, csvRows stdout = some rows ∧ row ∈ rows ∧
      (∃ file, row.get "file_name" = some file ∧ pathName file = objectName name) ∧
      row.get "verdict" = some verdict.toList

/-- A table row that a CSV row of some batch stands behind. -/
def Backed (digit : Char → Option ℕ) (rows : List DictRow) (fname : Text) (entry : List (Text × Json)) :
    Prop :=
  ∃ row ∈ rows, entry = rowOf digit row ∧ (∃ file, row.get "file_name" = some file ∧ pathName file = fname)

variable {digit : Char → Option ℕ}

/-- One row adds an entry it stands behind, or a line of noise. -/
lemma parseRow_backed {acc acc' : Rows × List Text} {row : DictRow} {rows : List DictRow}
    (hrow : row ∈ rows) (h : parseRow digit acc row = some acc')
    (hacc : ∀ p ∈ acc.1, Backed digit rows p.1 p.2) :
    ∀ p ∈ acc'.1, Backed digit rows p.1 p.2 := by
  unfold parseRow at h
  split at h
  · next c file _ _ hfile _ =>
    simp only [Option.some.injEq] at h
    rw [← h]
    intro p hp
    cases mem_set hp with
    | inl he =>
      rw [he]
      exact ⟨row, hrow, rfl, c :: file, hfile, rfl⟩
    | inr hp => exact hacc p hp
  · obtain ⟨line, -, hline⟩ := Option.map_eq_some_iff.mp h
    rw [← hline]
    exact hacc

lemma parseVeristatCsv_backed {csvText : Text} {rows : Rows} {noise : List Text}
    (h : parseVeristatCsv digit csvText = some (rows, noise)) :
    ∃ csv, csvRows csvText = some csv ∧ ∀ p ∈ rows, Backed digit csv p.1 p.2 := by
  unfold parseVeristatCsv at h
  obtain ⟨csv, hcsv, hfold⟩ := Option.bind_eq_some_iff.mp h
  refine ⟨csv, hcsv, ?_⟩
  -- the rows still to read are rows of the text
  have hrun (todo : List DictRow) (htodo : ∀ row ∈ todo, row ∈ csv) (acc : Rows × List Text)
      (hacc : ∀ p ∈ acc.1, Backed digit csv p.1 p.2)
      (hf : todo.foldlM (parseRow digit) acc = some (rows, noise)) :
      ∀ p ∈ rows, Backed digit csv p.1 p.2 := by
    induction todo generalizing acc with
    | nil =>
      have hacc' : acc = (rows, noise) := by simpa using hf
      rw [hacc'] at hacc
      exact hacc
    | cons row todo ih =>
      rw [List.foldlM_cons] at hf
      obtain ⟨acc', hrow, hrest⟩ := Option.bind_eq_some_iff.mp hf
      exact ih (fun r hr => htodo r (by simp [hr])) acc'
        (parseRow_backed (htodo row (by simp)) hrow hacc) hrest
  exact hrun csv (fun _ h => h) _ (by simp) hfold

/-- What the loop over the batches adds to what it has gathered. -/
structure Gathers (digit : Char → Option ℕ) (outcome : ℕ → BatchOutcome) (i n : ℕ)
    (v v' : Verification) : Prop where
  /-- Every table row was there or has a CSV row of one of these batches behind it. -/
  rows : ∀ p ∈ v'.rows, p ∈ v.rows ∨ ∃ j, i ≤ j ∧ j < i + n ∧ ∃ stdout stderr returncode,
    outcome j = .exited stdout stderr returncode ∧
      ∃ csv, csvRows stdout = some csv ∧ Backed digit csv p.1 p.2
  /-- The messages are kept. -/
  stderr : v.stderr <+: v'.stderr
  /-- So are the noise and the messages of each of these batches. -/
  messages : ∀ j, i ≤ j → j < i + n → ∀ stdout stderr returncode,
    outcome j = .exited stdout stderr returncode → ∃ rows noise,
      parseVeristatCsv digit stdout = some (rows, noise) ∧
      noiseText noise <:+: v'.stderr ∧ stderr <:+: v'.stderr

/-- The batches after the first gather on top of what the first one added. -/
lemma Gathers.cons {outcome : ℕ → BatchOutcome} {i n : ℕ} {v v₁ v' : Verification}
    (h : Gathers digit outcome (i + 1) n v₁ v') (hstderr : v.stderr <+: v₁.stderr)
    (hrows : ∀ p ∈ v₁.rows, p ∈ v.rows ∨ ∃ stdout stderr returncode,
      outcome i = .exited stdout stderr returncode ∧
        ∃ csv, csvRows stdout = some csv ∧ Backed digit csv p.1 p.2)
    (hmsg : ∀ stdout stderr returncode, outcome i = .exited stdout stderr returncode →
      ∃ rows noise, parseVeristatCsv digit stdout = some (rows, noise) ∧
        noiseText noise <:+: v₁.stderr ∧ stderr <:+: v₁.stderr) :
    Gathers digit outcome i (n + 1) v v' := by
  constructor
  case rows =>
    intro p hp
    cases h.rows p hp with
    | inl h₁ =>
      cases hrows p h₁ with
      | inl hv => exact .inl hv
      | inr hout => exact .inr ⟨i, le_rfl, by omega, hout⟩
    | inr hlater =>
      obtain ⟨j, hij, hjn, hout⟩ := hlater
      exact .inr ⟨j, by omega, by omega, hout⟩
  case stderr => exact hstderr.trans h.stderr
  case messages =>
    intro j hij hjn stdout stderr returncode hout
    by_cases hj : j = i
    · rw [hj] at hout
      obtain ⟨rows, noise, hparse, hnoise, herr⟩ := hmsg stdout stderr returncode hout
      exact ⟨rows, noise, hparse, hnoise.trans h.stderr.isInfix, herr.trans h.stderr.isInfix⟩
    · exact h.messages j (by omega) (by omega) stdout stderr returncode hout

lemma runBatches_gathers {outcome : ℕ → BatchOutcome} {i : ℕ} {batches : List (List Text)}
    {v v' : Verification} (h : runBatches digit outcome i batches v = some v') (hran : v'.ran = true) :
    Gathers digit outcome i batches.length v v' := by
  induction batches generalizing i v with
  | nil =>
    have hv : v = v' := by simpa [runBatches] using h
    subst hv
    exact ⟨fun p hp => .inl hp, List.prefix_rfl, fun j hj hlt => absurd hlt (by simp; omega)⟩
  | cons batch batches ih =>
    unfold runBatches at h
    split at h
    · simp only [Option.some.injEq] at h
      simp [← h] at hran
    · next hout =>
      apply (ih h).cons
      · exact List.prefix_append _ _
      · exact fun p hp => .inl hp
      · intro stdout stderr returncode he
        rw [hout] at he
        cases he
    · next stdout stderr returncode hout =>
      obtain ⟨⟨rows, noise⟩, hparse, hrest⟩ := Option.bind_eq_some_iff.mp h
      apply (ih hrest).cons
      · exact (List.prefix_append _ _).trans (List.prefix_append _ _)
      · intro p hp
        cases mem_update hp with
        | inl hv => exact .inl hv
        | inr hnew =>
          obtain ⟨csv, hcsv, hback⟩ := parseVeristatCsv_backed hparse
          exact .inr ⟨stdout, stderr, returncode, hout, csv, hcsv, hback p hnew⟩
      · intro stdout' stderr' returncode' he
        rw [hout] at he
        cases he
        exact ⟨rows, noise, hparse, ⟨v.stderr, stderr, rfl⟩, (List.suffix_append _ _).isInfix⟩

/-- Where the verifier ran, the table and the messages come from its batches. -/
lemma runVeristat_gathers {available : Bool} {split : List Text → Option (List (List Text))}
    {outcome : ℕ → BatchOutcome} {objFiles : List Text} {v : Verification}
    (h : runVeristat digit available split outcome objFiles = some v) (hran : v.ran = true) :
    ∃ batches, split objFiles = some batches ∧
      Gathers digit outcome 0 batches.length { ran := true, rc := 0, rows := [], stderr := [] } v := by
  unfold runVeristat at h
  split_ifs at h with hav
  · simp only [Option.some.injEq] at h
    simp [← h] at hran
  · obtain ⟨batches, hsplit, hrun⟩ := Option.bind_eq_some_iff.mp h
    exact ⟨batches, hsplit, runBatches_gathers hrun hran⟩

lemma verdict_rowOf (row : DictRow) :
    get? "verdict".toList (rowOf digit row) = some (ofOption (row.get "verdict")) := by
  simp only [rowOf, get?_cons, String.toList_inj, String.reduceEq, if_true, if_false]

/-- A verdict in the table is the verdict of a CSV row. -/
lemma Gathers.hasRow {outcome : ℕ → BatchOutcome} {n : ℕ} {v v' : Verification}
    (h : Gathers digit outcome 0 n v v') (hv : v.rows = []) {name : Text}
    {entry : List (Text × Json)} (hentry : get? (objectName name) v'.rows = some entry)
    {verdict : Json} {s : String} (hverdict : get? "verdict".toList entry = some verdict)
    (hs : verdict.isStr s = true) : HasRow outcome n name s := by
  cases h.rows _ (mem_of_get?_eq_some hentry) with
  | inl hold => simp [hv] at hold
  | inr hnew =>
    obtain ⟨j, -, hj, stdout, stderr, returncode, hout, csv, hcsv, row, hrow, he, hfile⟩ := hnew
    have he' : entry = rowOf digit row := he
    rw [he', verdict_rowOf] at hverdict
    have hval : ofOption (row.get "verdict") = .str s.toList := by
      rw [Option.some.inj hverdict, isStr_iff.mp hs]
    refine ⟨j, by omega, stdout, stderr, returncode, hout, csv, row, hcsv, hrow, hfile, ?_⟩
    cases hrv : row.get "verdict" with
    | none => simp [ofOption, hrv] at hval
    | some t =>
      rw [hrv] at hval
      simpa [ofOption] using hval

lemma infix_intercalate {sep line : Text} {lines : List Text} (h : line ∈ lines) :
    line <:+: sep.intercalate lines := by
  induction lines with
  | nil => simp at h
  | cons l lines ih =>
    cases lines with
    | nil => simp_all
    | cons l' lines =>
      rw [List.intercalate_cons_cons]
      cases List.mem_cons.mp h with
      | inl hl =>
        rw [hl, List.append_assoc]
        exact (List.prefix_append _ _).isInfix
      | inr hl => exact (ih hl).trans (List.suffix_append _ _).isInfix

/-- No line of noise and no message of a batch has `p` if the messages kept do not. -/
lemma Gathers.not_infix {outcome : ℕ → BatchOutcome} {n : ℕ} {v v' : Verification}
    (h : Gathers digit outcome 0 n v v') {p : Text} (hp : ¬ p <:+: v'.stderr) {j : ℕ} (hj : j < n)
    {stdout stderr : Text} {returncode : ℤ} (hout : outcome j = .exited stdout stderr returncode) :
    ¬ p <:+: stderr ∧ ∃ rows noise, parseVeristatCsv digit stdout = some (rows, noise) ∧
      ∀ line ∈ noise, ¬ p <:+: line := by
  obtain ⟨rows, noise, hparse, hnoise, herr⟩ :=
    h.messages j (Nat.zero_le j) (by omega) stdout stderr returncode hout
  refine ⟨fun hps => hp (hps.trans herr), rows, noise, hparse, ?_⟩
  intro line hline hpl
  apply hp
  have hne : noise ≠ [] := List.ne_nil_of_mem hline
  have hin : line <:+: noiseText noise := by
    rw [noiseText, if_neg hne]
    exact (infix_intercalate hline).trans (List.prefix_append _ _).isInfix
  exact (hpl.trans hin).trans hnoise

end BpfVerify.Veristat
