import BpfVerify.Json

/-!
# The gate

`main` of `scripts/check_results.py`: the absolute gates on each target, the scan of the
verifier's messages, and the comparison with the committed baseline. A result is `none`
where the script ends in an uncaught exception.
-/
namespace BpfVerify.CheckResults
open Python Json

/-- The messages of `error`, each with the values it is formatted from. -/
inductive GateError where
  | compileFailed (name : Text) (error : Json)
  | noVerdict (name : Text)
  | boundaryLifted (name : Text) (expect : Json)
  | boundaryChanged (name : Text) (expect failureLine : Json)
  | badVerdict (name : Text) (verdict : Json)
  | propertyFailed (name : Text) (failures iters seeds retval : Json)
  | openFailed (line : Text)
  | missingTarget (name : Text)
  | collapsed (name : Text) (bInsns tInsns : Json)
  | notInBaseline (name : Text)

/-- The target an error is about; the scan of the messages is about none. -/
def GateError.target : GateError → Option Text
  | .compileFailed name _ | .noVerdict name | .boundaryLifted name _ | .boundaryChanged name _ _
  | .badVerdict name _ | .propertyFailed name _ _ _ _ | .missingTarget name | .collapsed name _ _
  | .notInBaseline name => some name
  | .openFailed _ => none

inductive GateWarning where
  | noBaseline
  | veristatDidNotRun
  | hollow (names : List Text)

/-- `DEGENERATION_RATIO`. -/
def degenerationRatio : Double := .fin (1 / 2) Double.representable_half

/-! ## One target -/

/-- The verdict part of the first loop's body. -/
def verdictErrors (veristatRan : Bool) (name : Text) (t : Json) : Option (List GateError) := do
  let expect ← t.get "expect_failure"
  let compiled ← t.get "compiled"
  let verdict ← t.get "verdict"
  if !compiled.truthy then
    return [.compileFailed name (← t.getD "error" (.str "unknown error".toList))]
  else if veristatRan && verdict.isNone then
    return [.noVerdict name]
  else if expect.truthy then
    if verdict.isStr "success" then
      return [.boundaryLifted name expect]
    else if veristatRan && !(← t.get "expect_failure_matched").truthy then
      return [.boundaryChanged name expect (← t.get "failure_line")]
    else
      return []
  else if veristatRan && !verdict.isStr "success" then
    return [.badVerdict name verdict]
  else
    return []

/-- `(cases or [{}])[0]`: a non-empty list has a first element, and no other true value that
JSON has leads to one with `get`. -/
def firstCase (cases : Json) : Option Json :=
  if cases.truthy then
    match cases with
    | .arr (case :: _) => some case
    | _ => none
  else some (.obj [])

/-- The execution leg of the first loop's body. -/
def executionErrors (name : Text) (t : Json) : Option (List GateError) := do
  let ex ← t.get "execution"
  if !ex.truthy then return []
  let executed ← ex.get "executed"
  if !executed.truthy then return []
  let failures ← ex.get "failures"
  if !failures.truthy then return []
  let case ← firstCase (← ex.get "cases")
  return [.propertyFailed name (← ex.item "failures") (← ex.item "iters") (← case.get "seeds")
    (← case.get "retval")]

/-- The body of the first loop. -/
def targetErrors (veristatRan : Bool) (name : Text) (t : Json) : Option (List GateError) := do
  return (← verdictErrors veristatRan name t) ++ (← executionErrors name t)

/-! ## The whole gate -/

/-- `sorted(d.items())`: the keys of a dictionary differ, so they alone decide. -/
def sortedItems (d : List (Text × Json)) : List (Text × Json) :=
  d.mergeSort fun p q => decide (p.1 ≤ q.1)

def items : Json → Option (List (Text × Json))
  | .obj members => some members
  | _ => none

/-- The scan of `veristat_stderr`; only a string has `splitlines`. -/
def openErrors : Json → Option (List GateError)
  | .str text => some (((splitlines text).filter fun line =>
      decide ("Failed to open".toList <:+: line)).map fun line => .openFailed (strip line))
  | _ => none

/-- An `int` as a `float`; `none` is `OverflowError`. -/
def floatOfInt (n : ℤ) : Option Double :=
  match Double.ofRat n with
  | .inf _ => none
  | x => some x

/-- `v * x` for a float `x`. -/
def mulFloat (v : Json) (x : Double) : Option Double :=
  match v with
  | .int n => (floatOfInt n).map fun y => y.mul x
  | .bool b => (floatOfInt b.toNat).map fun y => y.mul x
  | .float y => some (y.mul x)
  | _ => none

/-- `v < x` for a float `x`; an integer is compared exactly. -/
def ltFloat (v : Json) (x : Double) : Option Bool :=
  match v with
  | .int n => some (Double.intLt n x)
  | .bool b => some (Double.intLt b.toNat x)
  | .float y => some (Double.lt y x)
  | _ => none

/-- The body of the loop over the baseline. -/
def baselineErrors (targets : List (Text × Json)) (name : Text) (b : Json) :
    Option (List GateError) := do
  let t := (get? name targets).getD .null
  if t.isNone then return [.missingTarget name]
  if !(← t.get "compiled").truthy || !(← t.get "verdict").isStr "success" then return []
  let bInsns ← b.get "insns"
  let tInsns ← t.get "insns"
  if bInsns.truthy && !tInsns.isNone then
    if (← ltFloat tInsns (← mulFloat bInsns degenerationRatio)) then
      return [.collapsed name bInsns tInsns]
    else return []
  else return []

/-- `set(targets) - set(baseline)`, sorted. -/
def newTargets (targets baseline : List (Text × Json)) : List Text :=
  ((sortedItems targets).map Prod.fst).filter fun name => (get? name baseline).isNone

/-- `(insns or 0) <= 4`. -/
def atMostFour (insns : Json) : Option Bool :=
  if !insns.truthy then some true
  else match insns with
    | .int n => some (n ≤ 4)
    | .bool _ => some true
    | .float x => some (Double.leInt x 4)
    | _ => none

/-- The coverage targets whose harness verifies in at most four instructions. -/
def hollow? (name : Text) (t : Json) : Option (List Text) := do
  if !(← t.get "suite").isStr "coverage" then return []
  if !(← t.get "verdict").isStr "success" then return []
  if (← atMostFour (← t.get "insns")) then return [name] else return []

/-- The baseline that `--update-baseline` writes. -/
def newBaseline (results : Json) (targets : List (Text × Json)) : Option Json := do
  let schema ← results.item "schema"
  let entries := (sortedItems targets).map fun p =>
    (p.1, Json.obj (["verdict", "insns", "states"].filterMap fun key =>
      (p.2.item key).map fun v => (key.toList, v)))
  return .obj [("schema".toList, schema), ("targets".toList, .obj entries)]

structure Report where
  errors : List GateError
  warnings : List GateWarning
  /-- The baseline file written, if any. -/
  written : Option Json
  status : ℕ

/-- The absolute gates: every target, then the verifier's messages. -/
def absoluteErrors (results : Json) (targets : List (Text × Json)) (veristatRan : Bool) :
    Option (List GateError) := do
  let perTarget ← (sortedItems targets).mapM fun p => targetErrors veristatRan p.1 p.2
  let perLine ← openErrors (← results.getD "veristat_stderr" (.str []))
  return perTarget.flatten ++ perLine

/-- The comparison with the baseline of the file `baselineFile`. -/
def comparisonErrors (baselineFile : Json) (targets : List (Text × Json)) :
    Option (List GateError) := do
  let baseline ← items (← baselineFile.item "targets")
  let perTarget ← (sortedItems baseline).mapM fun p => baselineErrors targets p.1 p.2
  return perTarget.flatten ++ (newTargets targets baseline).map .notInBaseline

/-- `results` and `baselineFile` are the parsed files; the baseline may not exist. -/
def main (results : Json) (baselineFile : Option Json) (updateBaseline : Bool) : Option Report := do
  let targets ← items (← results.item "targets")
  let veristatRan := (← results.getD "veristat_ran" (.bool false)).truthy
  let errors ← absoluteErrors results targets veristatRan
  if updateBaseline then
    if errors.length ≠ 0 then
      return { errors := errors, warnings := [], written := none, status := 1 }
    return { errors := errors, warnings := [], written := some (← newBaseline results targets),
             status := 0 }
  let (compared, warnings) ← match baselineFile with
    | none => some ([], [GateWarning.noBaseline])
    | some file =>
      if !veristatRan then some ([], [GateWarning.veristatDidNotRun])
      else (comparisonErrors file targets).map fun compared => (compared, [])
  let hollow ← targets.mapM fun p => hollow? p.1 p.2
  let hollow := hollow.flatten.mergeSort fun a b => decide (a ≤ b)
  let warnings := if hollow = [] then warnings else warnings ++ [.hollow hollow]
  let errors := errors ++ compared
  return { errors := errors, warnings := warnings, written := none,
           status := if errors.length ≠ 0 then 1 else 0 }

end BpfVerify.CheckResults
