import BpfVerify.Marking

/-!
# Live registers

The register analysis in `targets/liveness_live_registers/preamble.h`: passes over the instructions
from the last to the first, until one changes nothing or as many as there are instructions. The
successors of an instruction are those that the kernel gives.
-/
namespace BpfVerify.LiveRegs
open Marking

structure InsnLiveRegs where
  use : BitVec 16
  defs : BitVec 16
  liveIn : BitVec 16
  liveOut : BitVec 16
  deriving DecidableEq

structure Run where
  state : ℕ → InsnLiveRegs
  changed : Bool

variable {succ : ℕ → List ℕ}

def newOut (succ : ℕ → List ℕ) (run : Run) (insnIdx : ℕ) : BitVec 16 :=
  ((succ insnIdx).take 2).foldl (fun out j => out ||| (run.state j).liveIn) 0

def newIn (succ : ℕ → List ℕ) (run : Run) (insnIdx : ℕ) : BitVec 16 :=
  (newOut succ run insnIdx &&& ~~~(run.state insnIdx).defs) ||| (run.state insnIdx).use

/-- `BPF_LIVENESS_STEP`. -/
def livenessStep (succ : ℕ → List ℕ) (run : Run) (insnIdx : ℕ) : Run :=
  let live := run.state insnIdx
  let newOut := newOut succ run insnIdx
  let newIn := newIn succ run insnIdx
  if newOut ≠ live.liveOut ∨ newIn ≠ live.liveIn then
    { state := Function.update run.state insnIdx { live with liveOut := newOut, liveIn := newIn }
      changed := true }
  else run

def pass (succ : ℕ → List ℕ) (n : ℕ) (run : Run) : Run :=
  (List.range n).reverse.foldl (livenessStep succ) { run with changed := false }

/-- The loop, with the number of passes that are left. -/
def loop (succ : ℕ → List ℕ) (n : ℕ) : ℕ → Run → Run
  | 0, run => run
  | left + 1, run => if run.changed then loop succ n left (pass succ n run) else run

def start (use defs : ℕ → BitVec 16) : Run where
  state i := { use := use i, defs := defs i, liveIn := 0, liveOut := 0 }
  changed := true

/-- The analysis of `n` instructions that use and define these registers. -/
def analyze (succ : ℕ → List ℕ) (use defs : ℕ → BitVec 16) (n : ℕ) : Run :=
  loop succ n n (start use defs)

/-! ## The probe -/

/-- `BIT(r)` of a register. -/
def bit (r : ℕ) : BitVec 16 := 1 <<< r

def straightUse (i : ℕ) : BitVec 16 := [0, bit 1, bit 2, bit 0].getD i 0

def straightDefs (i : ℕ) : BitVec 16 := [bit 1, bit 2, bit 0, 0].getD i 0

def branchUse (i : ℕ) : BitVec 16 := [bit 1, bit 3, 0, bit 4, bit 2, bit 0].getD i 0

def branchDefs (i : ℕ) : BitVec 16 := [0, bit 2, 0, bit 2, bit 0, 0].getD i 0

/-- `__bpf_liveness_live_registers_probe`, with the successors of its two programs. -/
def probe (straight branch : ℕ → List ℕ) : ℤ :=
  let run := analyze straight straightUse straightDefs 4
  if (run.state 0).liveIn ≠ 0 then -1
  else if (run.state 1).liveIn ≠ bit 1 then -2
  else if (run.state 2).liveIn ≠ bit 2 then -3
  else if (run.state 3).liveIn ≠ bit 0 then -4
  else
    let run := analyze branch branchUse branchDefs 6
    if (run.state 0).liveIn ≠ bit 1 ||| bit 3 ||| bit 4 then -5
    else if (run.state 1).liveIn ≠ bit 3 then -6
    else if (run.state 2).liveIn ≠ bit 2 then -7
    else if (run.state 3).liveIn ≠ bit 4 then -8
    else if (run.state 4).liveIn ≠ bit 2 then -9
    else if (run.state 5).liveIn ≠ bit 0 then -10
    else if (run.state 0).liveOut ≠ bit 3 ||| bit 4 then -11
    else 31

/-- Straight on to the exit. -/
def straightSucc (i : ℕ) : List ℕ := [[1], [2], [3], []].getD i []

/-- Both ways of the conditional jump, and over the other branch. -/
def branchSucc (i : ℕ) : List ℕ := [[1, 3], [2], [4], [4], [5], []].getD i []

/-! ## Liveness -/

/-- From the instruction on, some way through the program uses the register before defining it. -/
def Live (succ : ℕ → List ℕ) (use defs : ℕ → BitVec 16) (r i : ℕ) : Prop :=
  ∃ (k : ℕ) (way : ℕ → ℕ), way 0 = i ∧ (use (way k)).getLsbD r = true ∧
    ∀ l < k, way (l + 1) ∈ succ (way l) ∧ (defs (way l)).getLsbD r = false

/-- The graph of one register. -/
def graph (succ : ℕ → List ℕ) (use defs : ℕ → BitVec 16) (r : ℕ) : Graph where
  succ i := (succ i).take 2
  source := {i | (use i).getLsbD r = true}
  passes := {i | (defs i).getLsbD r = false}

/-- The instructions where the register is marked live. -/
def marked (run : Run) (r : ℕ) : Set ℕ := {i | (run.state i).liveIn.getLsbD r = true}

/-- What the instructions use and define does not change. -/
def Describes (use defs : ℕ → BitVec 16) (run : Run) : Prop :=
  ∀ i, (run.state i).use = use i ∧ (run.state i).defs = defs i

variable {use defs : ℕ → BitVec 16} {run : Run} {n r : ℕ}

lemma getLsbD_foldl_or (js : List ℕ) (f : ℕ → BitVec 16) (x : BitVec 16) :
    (js.foldl (fun out j => out ||| f j) x).getLsbD r = true ↔
      x.getLsbD r = true ∨ ∃ j ∈ js, (f j).getLsbD r = true := by
  induction js generalizing x with
  | nil => simp
  | cons j js ih =>
    rw [List.foldl_cons, ih, BitVec.getLsbD_or, Bool.or_eq_true, List.exists_mem_cons_iff, or_assoc]

/-- Whether it is stored or not, an instruction has its new sets after the step. -/
lemma state_livenessStep (run : Run) (i : ℕ) :
    (livenessStep succ run i).state = Function.update run.state i
      { run.state i with liveOut := newOut succ run i, liveIn := newIn succ run i } := by
  rw [livenessStep]
  split_ifs with hchanged
  · rfl
  · rw [not_or, not_not, not_not] at hchanged
    rw [hchanged.1, hchanged.2, Function.update_eq_self]

lemma describes_livenessStep (h : Describes use defs run) (i : ℕ) :
    Describes use defs (livenessStep succ run i) := by
  intro k
  rw [state_livenessStep]
  by_cases hki : k = i
  · subst hki
    rw [Function.update_self]
    exact h k
  · rw [Function.update_of_ne hki]
    exact h k

lemma getLsbD_newIn (h : Describes use defs run) {i : ℕ} :
    (newIn succ run i).getLsbD r = true ↔
      (graph succ use defs r).Marks (marked run r) i := by
  obtain ⟨huse, hdefs⟩ := h i
  have hout : (newOut succ run i).getLsbD r = true ↔
      ∃ j ∈ (succ i).take 2, (run.state j).liveIn.getLsbD r = true := by
    rw [newOut, getLsbD_foldl_or, BitVec.ofNat_eq_ofNat, BitVec.getLsbD_zero,
      or_iff_right Bool.false_ne_true]
  rw [newIn, BitVec.getLsbD_or, BitVec.getLsbD_and, BitVec.getLsbD_not, Bool.or_eq_true,
    Bool.and_eq_true, hout, huse, hdefs, or_comm, Graph.Marks]
  refine or_congr_right ?_
  constructor
  · rintro ⟨⟨j, hj, hlive⟩, hnot⟩
    rw [Bool.and_eq_true, Bool.not_eq_true'] at hnot
    exact ⟨hnot.2, j, hj, hlive⟩
  · rintro ⟨hpass, j, hj, hlive⟩
    have hlt : r < 16 := BitVec.lt_of_getLsbD hlive
    have hclear : (defs i).getLsbD r = false := hpass
    exact ⟨⟨j, hj, hlive⟩, by rw [hclear, decide_eq_true hlt]; rfl⟩

/-- A step assigns the mark of each register. -/
lemma marked_livenessStep (h : Describes use defs run) (i : ℕ) :
    marked (livenessStep succ run i) r = (graph succ use defs r).assign (marked run r) i := by
  ext k
  rw [marked, Set.mem_ofPred_eq, state_livenessStep]
  by_cases hki : k = i
  · subst hki
    rw [mem_assign_self, ← getLsbD_newIn h, Function.update_self]
  · rw [mem_assign_of_ne hki, Function.update_of_ne hki]
    rfl

/-- Where no step makes a change, nothing has changed. -/
lemma foldl_eq_of_unchanged {is : List ℕ} (h : (is.foldl (livenessStep succ) run).changed = false) :
    is.foldl (livenessStep succ) run = run := by
  induction is generalizing run with
  | nil => rfl
  | cons i is ih =>
    rw [List.foldl_cons] at h ⊢
    have hrest := ih h
    rw [hrest] at h ⊢
    rw [livenessStep] at h ⊢
    split_ifs at h ⊢
    rfl

lemma describes_foldl (h : Describes use defs run) (is : List ℕ) :
    Describes use defs (is.foldl (livenessStep succ) run) := by
  induction is generalizing run with
  | nil => exact h
  | cons i is ih => exact ih (describes_livenessStep h i)

lemma marked_foldl (h : Describes use defs run) (is : List ℕ) :
    marked (is.foldl (livenessStep succ) run) r =
      (graph succ use defs r).sweep is (marked run r) := by
  induction is generalizing run with
  | nil => rfl
  | cons i is ih =>
    rw [List.foldl_cons, Graph.sweep, List.foldl_cons, ih (describes_livenessStep h i),
      marked_livenessStep h, Graph.sweep]

lemma marked_loop (h : Describes use defs run) (k : ℕ)
    (hrun : run.changed = true ∨ ∀ r, (graph succ use defs r).sweep (List.range n).reverse
      (marked run r) = marked run r) :
    marked (loop succ n k run) r =
      ((graph succ use defs r).sweep (List.range n).reverse)^[k] (marked run r) := by
  induction k generalizing run with
  | zero => rfl
  | succ k ih =>
    by_cases hchanged : run.changed = true
    · have hstart : Describes use defs { run with changed := false } := h
      have hmarked (r : ℕ) : marked ((List.range n).reverse.foldl (livenessStep succ)
          { run with changed := false }) r =
          (graph succ use defs r).sweep (List.range n).reverse (marked run r) :=
        marked_foldl hstart (List.range n).reverse
      have hdescribes : Describes use defs ((List.range n).reverse.foldl (livenessStep succ)
          { run with changed := false }) := describes_foldl hstart (List.range n).reverse
      rw [loop, if_pos hchanged, pass, ih hdescribes, hmarked, Function.iterate_succ_apply]
      refine (Bool.eq_false_or_eq_true _).imp_right fun hsame r => ?_
      have hfixed := hmarked r
      rw [foldl_eq_of_unchanged hsame] at hfixed ⊢
      exact hfixed.symm
    · have hfixed := hrun.resolve_left hchanged
      rw [loop, if_neg hchanged, Function.iterate_fixed (hfixed r)]

/-- A way through the program that reads the register is one to a source. -/
lemma live_iff_reaches {i : ℕ} (hcnt : ∀ i, (succ i).length ≤ 2) :
    Live succ use defs r i ↔ (graph succ use defs r).Reaches i := by
  have hsucc (i : ℕ) : (graph succ use defs r).succ i = succ i := List.take_of_length_le (hcnt i)
  constructor
  · rintro ⟨k, way, rfl, huse, hway⟩
    have hfrom (l : ℕ) (hl : l ≤ k) : (graph succ use defs r).Reaches (way (k - l)) := by
      induction l with
      | zero => exact .source huse
      | succ l ih =>
        obtain ⟨hnext, hpass⟩ := hway (k - (l + 1)) (by omega)
        have heq : k - (l + 1) + 1 = k - l := by omega
        rw [heq, ← hsucc] at hnext
        exact .pass hpass hnext (ih (by omega))
    simpa using hfrom k le_rfl
  · intro hreach
    induction hreach with
    | @source i huse => exact ⟨0, fun _ => i, rfl, huse, fun l hl => absurd hl (Nat.not_lt_zero l)⟩
    | @pass i j hpass hnext _ ih =>
      obtain ⟨k, way, hj, huse, hway⟩ := ih
      refine ⟨k + 1, fun l => Nat.casesOn l i way, rfl, huse, fun l hl => ?_⟩
      cases l with
      | zero => exact ⟨by rwa [hsucc, ← hj] at hnext, hpass⟩
      | succ l => exact hway l (by omega)

/-- The passes that the bound allows are enough: what is marked live before an instruction is what
is live there. -/
theorem analyze_live (succ : ℕ → List ℕ) (use defs : ℕ → BitVec 16) {n : ℕ}
    (hcnt : ∀ i, (succ i).length ≤ 2) (hsucc : ∀ i < n, ∀ j ∈ succ i, j < n) :
    ∀ i < n, ∀ r, (((analyze succ use defs n).state i).liveIn.getLsbD r = true ↔
      Live succ use defs r i) := by
  intro i hi r
  have hclosed : (graph succ use defs r).Closed n := fun i hi j hj =>
    hsucc i hi j (List.mem_of_mem_take hj)
  have hstart : Describes use defs (start use defs) := fun i => ⟨rfl, rfl⟩
  have hempty : marked (start use defs) r = ∅ := by
    ext k
    simp [marked, start]
  have horder (i : ℕ) (hi : i < n) : i ∈ (List.range n).reverse :=
    List.mem_reverse.mpr (List.mem_range.mpr hi)
  rw [live_iff_reaches hcnt, ← mem_sweeps_iff hclosed horder hi, ← hempty,
    ← marked_loop hstart n (.inl rfl)]
  rfl

/-- In the program with a branch, the start needs both registers that the branches read, and not the
one they write. -/
theorem analyze_live_branch : Live branchSucc branchUse branchDefs 3 0 ∧
    Live branchSucc branchUse branchDefs 4 0 ∧ ¬ Live branchSucc branchUse branchDefs 2 0 := by
  have hcnt (i : ℕ) : (branchSucc i).length ≤ 2 := by
    rcases Nat.lt_or_ge i 6 with hlt | hge
    · interval_cases i <;> decide
    · rw [branchSucc, List.getD_eq_default _ _ hge]
      exact Nat.zero_le 2
  have hlive (r : ℕ) := analyze_live branchSucc branchUse branchDefs (n := 6) hcnt (by decide) 0
    (by decide) r
  rw [← hlive 3, ← hlive 4, ← hlive 2]
  decide

example : probe straightSucc branchSucc = 31 := by decide

end BpfVerify.LiveRegs
