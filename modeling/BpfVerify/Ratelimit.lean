import Mathlib

/-!
# The rate limiter

`___ratelimit` of `shims/lib/ratelimit.c` with the time and lock stubs of its target. Over any
sequence of calls it is a fixed-window limiter: a window opens at the first call and at the
first call more than `interval` behind the opening of the last one, and lets `burst` calls pass.
-/
namespace BpfVerify.Ratelimit

variable {M : Type*} [AddMonoidWithOne M]

/-- `struct ratelimit_state` of the kernel, with the two bits of its `flags`; `M` is the type
of its miss counter. -/
structure RatelimitState (M : Type*) where
  interval : ℤ
  burst : ℤ
  rsNLeft : ℤ
  missed : M
  initialized : Bool
  msgOnRelease : Bool
  begin : BitVec 64

/-- Of the kernel's header. -/
def ratelimitStateIncMiss (rs : RatelimitState M) : RatelimitState M :=
  { rs with missed := rs.missed + 1 }

/-- Of the kernel's header; what it returns is only printed. -/
def ratelimitStateResetMiss (rs : RatelimitState M) : RatelimitState M := { rs with missed := 0 }

/-- The stub of `raw_spin_trylock_irqsave`. -/
def bpfRawSpinTrylockIrqsave : Bool := true

def timeIsBeforeJiffies (jiffies a : BitVec 64) : Bool := (a - jiffies).toInt < 0

/-- `atomic_read(&rs->rs_n_left) > 0 && atomic_dec_return(&rs->rs_n_left) >= 0`. -/
def takeOne (rs : RatelimitState M) : Bool × RatelimitState M :=
  if rs.rsNLeft > 0 then
    let left := rs.rsNLeft - 1
    (left ≥ 0, { rs with rsNLeft := left })
  else (false, rs)

/-- From the label `nolock_ret` on. -/
def nolockRet (ret : Bool) (rs : RatelimitState M) : ℤ × RatelimitState M :=
  if !ret then (0, ratelimitStateIncMiss rs) else (1, rs)

/-- `___ratelimit` at the time `jiffies`. -/
def ratelimit (jiffies : BitVec 64) (rs : RatelimitState M) : ℤ × RatelimitState M :=
  if rs.interval ≤ 0 || rs.burst ≤ 0 then
    let ret := rs.interval = 0 || rs.burst > 0
    if !rs.initialized || (rs.interval = 0 && rs.burst = 0) || !bpfRawSpinTrylockIrqsave then
      nolockRet ret rs
    else nolockRet ret { rs with initialized := false }
  else if !bpfRawSpinTrylockIrqsave then
    if rs.initialized then
      let (ret, rs) := takeOne rs
      nolockRet ret rs
    else nolockRet false rs
  else
    let rs := if !rs.initialized then
        { rs with begin := jiffies, initialized := true, rsNLeft := rs.burst }
      else rs
    let rs := if timeIsBeforeJiffies jiffies (rs.begin + BitVec.ofInt 64 rs.interval) then
        let rs := { rs with rsNLeft := rs.burst, begin := jiffies }
        if !rs.msgOnRelease then ratelimitStateResetMiss rs else rs
      else rs
    let (ret, rs) := takeOne rs
    nolockRet ret rs

/-- What a sequence of calls returns; `jiffies` wraps around the time of a call. -/
def callAll (rs : RatelimitState M) : List ℕ → List ℤ × RatelimitState M
  | [] => ([], rs)
  | t :: ts =>
    let (ret, rs) := ratelimit (BitVec.ofNat 64 t) rs
    let (rets, rs) := callAll rs ts
    (ret :: rets, rs)

/-! ## The fixed-window limiter -/

/-- The times of the calls, window by window. -/
def windows (interval : ℕ) : List ℕ → List (List ℕ)
  | [] => []
  | t :: ts => (t :: ts.takeWhile fun u => u ≤ t + interval) ::
      windows interval (ts.dropWhile fun u => u ≤ t + interval)
termination_by ts => ts.length
decreasing_by
  exact Nat.lt_succ_of_le (List.length_dropWhile_le _ ts)

/-- What `len` calls return in a window that has seen `n` calls. -/
def returnsFrom (burst : ℤ) (n len : ℕ) : List ℤ :=
  (List.range len).map fun k => if ((n + k : ℕ) : ℤ) < burst then 1 else 0

/-- A whole window: the first `burst` calls pass. -/
def windowReturns (burst : ℤ) (w : List ℕ) : List ℤ := returnsFrom burst 0 w.length

lemma returnsFrom_succ (burst : ℤ) (n len : ℕ) :
    returnsFrom burst n (len + 1) =
      (if (n : ℤ) < burst then 1 else 0) :: returnsFrom burst (n + 1) len := by
  unfold returnsFrom
  rw [List.range_succ_eq_map, List.map_cons, List.map_map]
  congr 1
  apply List.map_congr_left
  intro k _
  have hshift : n + (k + 1) = n + 1 + k := by omega
  rw [Function.comp_apply, hshift]

lemma count_returnsFrom (burst : ℤ) (len : ℕ) :
    (returnsFrom burst 0 len).count 0 = len - burst.toNat := by
  induction len with
  | zero => simp [returnsFrom]
  | succ len ih =>
    unfold returnsFrom at ih ⊢
    rw [List.range_succ, List.map_append, List.count_append, ih]
    by_cases h : ((0 + len : ℕ) : ℤ) < burst
    · simp only [List.map_cons, List.map_nil, if_pos h]
      simp
      omega
    · simp only [List.map_cons, List.map_nil, if_neg h]
      simp
      omega

/-! ## One call -/

/-- The state inside a window that opened at `start` and has seen `n` calls. -/
structure InWindow (interval burst : ℤ) (rs : RatelimitState M) (start n : ℕ) : Prop where
  interval_eq : rs.interval = interval
  burst_eq : rs.burst = burst
  initialized : rs.initialized = true
  msgOnRelease : rs.msgOnRelease = false
  begin_eq : rs.begin = BitVec.ofNat 64 start
  left_eq : rs.rsNLeft = max (burst - n) 0
  missed_eq : rs.missed = ((n - burst.toNat : ℕ) : M)

/-- The wrapping comparison is that of the times. -/
lemma timeIsBeforeJiffies_iff {start t : ℕ} {interval : ℤ} (hle : start ≤ t)
    (hnear : t - start < 2 ^ 63) (hpos : 0 < interval) (hint : interval < 2 ^ 31) :
    timeIsBeforeJiffies (BitVec.ofNat 64 t) (BitVec.ofNat 64 start + BitVec.ofInt 64 interval) = true ↔
      start + interval < t := by
  have hdiff : BitVec.ofNat 64 start + BitVec.ofInt 64 interval - BitVec.ofNat 64 t =
      BitVec.ofInt 64 (start + interval - t) := by
    rw [sub_eq_iff_eq_add, ← BitVec.ofInt_natCast, ← BitVec.ofInt_natCast, ← BitVec.ofInt_add,
      ← BitVec.ofInt_add, sub_add_cancel]
  rw [timeIsBeforeJiffies, hdiff, BitVec.toInt_ofInt, decide_eq_true_eq,
    Int.bmod_eq_of_le (by omega) (by omega)]
  omega

section Calls

variable {interval burst : ℤ} {rs : RatelimitState M} {start n t : ℕ}

/-- Within a window only the two counters change. -/
lemma InWindow.counters (h : InWindow interval burst rs start n) {left : ℤ} {missed : M} {m : ℕ}
    (hleft : left = max (burst - m) 0) (hmissed : missed = ((m - burst.toNat : ℕ) : M)) :
    InWindow interval burst { rs with rsNLeft := left, missed := missed } start m where
  interval_eq := h.interval_eq
  burst_eq := h.burst_eq
  initialized := h.initialized
  msgOnRelease := h.msgOnRelease
  begin_eq := h.begin_eq
  left_eq := hleft
  missed_eq := hmissed

/-- The end of the function takes one of what is left or counts a miss. -/
lemma takeOne_inWindow (h : InWindow interval burst rs start n) :
    ∃ rs', nolockRet (takeOne rs).1 (takeOne rs).2 = (if (n : ℤ) < burst then 1 else 0, rs') ∧
      InWindow interval burst rs' start (n + 1) := by
  have hleft := h.left_eq
  by_cases hn : (n : ℤ) < burst
  · have hpos : rs.rsNLeft > 0 := by omega
    refine ⟨{ rs with rsNLeft := rs.rsNLeft - 1 }, ?_, ?_⟩
    · rw [if_pos hn, takeOne, if_pos hpos, nolockRet, if_neg]
      simp
      omega
    · refine h.counters ?_ ?_
      · push_cast
        omega
      · rw [h.missed_eq]
        congr 1
        omega
  · have hpos : ¬ rs.rsNLeft > 0 := by omega
    refine ⟨ratelimitStateIncMiss rs, ?_, ?_⟩
    · rw [if_neg hn, takeOne, if_neg hpos]
      rfl
    · refine h.counters ?_ ?_
      · rw [hleft]
        push_cast
        omega
      · have hsucc : n + 1 - burst.toNat = n - burst.toNat + 1 := by omega
        rw [h.missed_eq, hsucc, Nat.cast_add, Nat.cast_one]

/-- The state with which a window opens at `t`. -/
def opened (rs : RatelimitState M) (t : ℕ) : RatelimitState M :=
  { rs with rsNLeft := rs.burst, missed := 0, initialized := true, begin := BitVec.ofNat 64 t }

lemma opened_inWindow (hinterval : rs.interval = interval) (hburst : rs.burst = burst)
    (hmsg : rs.msgOnRelease = false) (hpos : 0 < burst) (t : ℕ) :
    InWindow interval burst (opened rs t) t 0 := by
  constructor
  case interval_eq => exact hinterval
  case burst_eq => exact hburst
  case initialized => rfl
  case msgOnRelease => exact hmsg
  case begin_eq => rfl
  case left_eq =>
    rw [opened, hburst]
    push_cast
    omega
  case missed_eq => simp [opened]

/-- A call on a state without the flag opens the first window. -/
lemma ratelimit_first (hinterval : 0 < rs.interval) (hint : rs.interval < 2 ^ 31)
    (hburst : 0 < rs.burst) (hinit : rs.initialized = false) (hmiss : rs.missed = 0) (t : ℕ) :
    ratelimit (BitVec.ofNat 64 t) rs =
      nolockRet (takeOne (opened rs t)).1 (takeOne (opened rs t)).2 := by
  have hbefore : timeIsBeforeJiffies (BitVec.ofNat 64 t)
      ((opened rs t).begin + BitVec.ofInt 64 (opened rs t).interval) = false := by
    rw [opened, ← Bool.not_eq_true, timeIsBeforeJiffies_iff le_rfl (by omega) hinterval hint]
    omega
  have hopened : { rs with begin := BitVec.ofNat 64 t, initialized := true, rsNLeft := rs.burst } =
      opened rs t := by
    rw [opened, hmiss]
  unfold ratelimit
  rw [if_neg (by simp; omega), if_neg (by simp [bpfRawSpinTrylockIrqsave])]
  simp only [hinit, Bool.not_false, if_true, hopened, hbefore, Bool.false_eq_true, if_false]

/-- A call within the window. -/
lemma ratelimit_within (h : InWindow interval burst rs start n) (hinterval : 0 < interval)
    (hint : interval < 2 ^ 31) (hburst : 0 < burst) (hle : start ≤ t)
    (hin : (t : ℤ) ≤ start + interval) :
    ratelimit (BitVec.ofNat 64 t) rs = nolockRet (takeOne rs).1 (takeOne rs).2 := by
  have hbefore : timeIsBeforeJiffies (BitVec.ofNat 64 t)
      (rs.begin + BitVec.ofInt 64 rs.interval) = false := by
    rw [← Bool.not_eq_true, h.begin_eq, h.interval_eq,
      timeIsBeforeJiffies_iff hle (by omega) hinterval hint]
    omega
  unfold ratelimit
  rw [if_neg (by simp [h.interval_eq, h.burst_eq]; omega), if_neg (by simp [bpfRawSpinTrylockIrqsave])]
  simp only [h.initialized, Bool.not_true, Bool.false_eq_true, if_false, hbefore]

/-- A call behind the window opens the next one. -/
lemma ratelimit_behind (h : InWindow interval burst rs start n) (hinterval : 0 < interval)
    (hint : interval < 2 ^ 31) (hburst : 0 < burst) (hle : start ≤ t) (hnear : t - start < 2 ^ 63)
    (hout : (start : ℤ) + interval < t) :
    ratelimit (BitVec.ofNat 64 t) rs =
      nolockRet (takeOne (opened rs t)).1 (takeOne (opened rs t)).2 := by
  have hbefore : timeIsBeforeJiffies (BitVec.ofNat 64 t)
      (rs.begin + BitVec.ofInt 64 rs.interval) = true := by
    rw [h.begin_eq, h.interval_eq, timeIsBeforeJiffies_iff hle hnear hinterval hint]
    exact hout
  have hopened : ratelimitStateResetMiss { rs with rsNLeft := rs.burst, begin := BitVec.ofNat 64 t } =
      opened rs t := by
    rw [opened, ratelimitStateResetMiss, ← h.initialized]
  unfold ratelimit
  rw [if_neg (by simp [h.interval_eq, h.burst_eq]; omega), if_neg (by simp [bpfRawSpinTrylockIrqsave])]
  simp only [h.initialized, Bool.not_true, Bool.false_eq_true, if_false, hbefore, if_true,
    h.msgOnRelease, Bool.not_false]
  rw [h.initialized, h.msgOnRelease] at hopened
  rw [hopened]

/-! ## Sequences of calls -/

/-- Times do not decrease, and the distance of two calls leaves room for an `int`. -/
def Close (t u : ℕ) : Prop := t ≤ u ∧ u - t < 2 ^ 63 - 2 ^ 31

/-- The number of calls in the last window, where `n` is that of the open one. -/
def lastCount (n : ℕ) (ws : List (List ℕ)) : ℕ := (ws.getLast?.map List.length).getD n

lemma lastCount_cons (n : ℕ) (w : List ℕ) (ws : List (List ℕ)) :
    lastCount n (w :: ws) = lastCount w.length ws := by
  cases ws with
  | nil => rfl
  | cons w' ws =>
    rw [lastCount, lastCount, List.getLast?_cons_cons, List.getLast?_cons]
    rfl

lemma callAll_cons {ret : ℤ} {rs rs' : RatelimitState M} {t : ℕ}
    (h : ratelimit (BitVec.ofNat 64 t) rs = (ret, rs')) (ts : List ℕ) :
    callAll rs (t :: ts) = (ret :: (callAll rs' ts).1, (callAll rs' ts).2) := by
  rw [callAll, h]

/-- From inside a window: its remaining calls, then the windows of the others. -/
lemma callAll_spec (h : InWindow interval burst rs start n) (hinterval : 0 < interval)
    (hint : interval < 2 ^ 31) (hburst : 0 < burst) {p : ℕ} {ts : List ℕ} (hp : start ≤ p)
    (hin : (p : ℤ) ≤ start + interval) (hts : (p :: ts).IsChain Close) :
    ∃ start' n', (callAll rs ts).1 =
        returnsFrom burst n (ts.takeWhile fun u => u ≤ start + interval.toNat).length ++
          (windows interval.toNat (ts.dropWhile fun u => u ≤ start + interval.toNat)).flatMap
            (windowReturns burst) ∧
      InWindow interval burst (callAll rs ts).2 start' n' ∧
      n' = lastCount (n + (ts.takeWhile fun u => u ≤ start + interval.toNat).length)
        (windows interval.toNat (ts.dropWhile fun u => u ≤ start + interval.toNat)) := by
  induction ts generalizing rs start n p with
  | nil =>
    refine ⟨start, n, ?_, h, ?_⟩
    · simp [callAll, returnsFrom, windows]
    · simp [lastCount, windows]
  | cons t ts ih =>
    obtain ⟨hclose, hrest⟩ := List.isChain_cons_cons.mp hts
    obtain ⟨hpt, hdist⟩ := hclose
    by_cases hwithin : t ≤ start + interval.toNat
    · obtain ⟨rs', heq, h'⟩ := takeOne_inWindow h
      rw [← ratelimit_within h hinterval hint hburst (hp.trans hpt) (by omega)] at heq
      obtain ⟨start', n', hrets, hstate, hcount⟩ := ih h' (hp.trans hpt) (by omega) hrest
      have htake : List.takeWhile (fun u => decide (u ≤ start + interval.toNat)) (t :: ts) =
          t :: ts.takeWhile fun u => u ≤ start + interval.toNat :=
        List.takeWhile_cons_of_pos (by simpa using hwithin)
      have hdrop : List.dropWhile (fun u => decide (u ≤ start + interval.toNat)) (t :: ts) =
          ts.dropWhile fun u => u ≤ start + interval.toNat :=
        List.dropWhile_cons_of_pos (by simpa using hwithin)
      refine ⟨start', n', ?_, ?_, ?_⟩
      · rw [callAll_cons heq, htake, hdrop, List.length_cons, returnsFrom_succ, hrets]
        rfl
      · rw [callAll_cons heq]
        exact hstate
      · rw [hcount, htake, hdrop, List.length_cons, Nat.add_right_comm, Nat.add_assoc]
    · have hopen := opened_inWindow h.interval_eq h.burst_eq h.msgOnRelease hburst t
      obtain ⟨rs', heq, h'⟩ := takeOne_inWindow hopen
      rw [← ratelimit_behind h hinterval hint hburst (hp.trans hpt) (by omega) (by omega)] at heq
      obtain ⟨start', n', hrets, hstate, hcount⟩ := ih h' le_rfl (by omega) hrest
      have htake : List.takeWhile (fun u => decide (u ≤ start + interval.toNat)) (t :: ts) = [] :=
        List.takeWhile_cons_of_neg (by simpa using hwithin)
      have hdrop : List.dropWhile (fun u => decide (u ≤ start + interval.toNat)) (t :: ts) = t :: ts :=
        List.dropWhile_cons_of_neg (by simpa using hwithin)
      refine ⟨start', n', ?_, ?_, ?_⟩
      · rw [callAll_cons heq, htake, hdrop, windows, List.flatMap_cons, windowReturns, List.length_cons,
          returnsFrom_succ, hrets]
        rfl
      · rw [callAll_cons heq]
        exact hstate
      · rw [hcount, htake, hdrop, windows, lastCount_cons, List.length_cons, Nat.add_comm]

end Calls

/-- The limiter refines the fixed-window limiter over every sequence of calls. -/
theorem run_fixedWindow {rs : RatelimitState M} (hinterval : 0 < rs.interval)
    (hint : rs.interval < 2 ^ 31) (hburst : 0 < rs.burst) (hinit : rs.initialized = false)
    (hmsg : rs.msgOnRelease = false) (hmiss : rs.missed = 0) {ts : List ℕ} (hts : ts.IsChain Close) :
    (callAll rs ts).1 = (windows rs.interval.toNat ts).flatMap (windowReturns rs.burst) ∧
    (ts ≠ [] → 0 ≤ (callAll rs ts).2.rsNLeft) ∧
    ∀ w, (windows rs.interval.toNat ts).getLast? = some w →
      (callAll rs ts).2.missed = ((windowReturns rs.burst w).count 0 : M) := by
  cases ts with
  | nil =>
    refine ⟨by simp [callAll, windows], fun h => absurd rfl h, ?_⟩
    intro w hw
    simp [windows] at hw
  | cons t ts =>
    have hopen := opened_inWindow rfl rfl hmsg hburst t
    obtain ⟨rs', heq, h'⟩ := takeOne_inWindow hopen
    rw [← ratelimit_first hinterval hint hburst hinit hmiss t] at heq
    obtain ⟨start', n', hrets, hstate, hcount⟩ :=
      callAll_spec h' hinterval hint hburst le_rfl (by omega) hts
    rw [Nat.zero_add, Nat.add_comm, ← List.length_cons (a := t), ← lastCount_cons 0, ← windows] at hcount
    refine ⟨?_, ?_, ?_⟩
    · rw [callAll_cons heq, windows, List.flatMap_cons, windowReturns, List.length_cons,
        returnsFrom_succ, hrets]
      rfl
    · intro _
      rw [callAll_cons heq, hstate.left_eq]
      exact le_max_right _ _
    · intro w hw
      rw [callAll_cons heq, hstate.missed_eq, windowReturns, count_returnsFrom, hcount, lastCount, hw]
      rfl

/-- The limiter of the harness: five calls a second. -/
def harnessState : RatelimitState ℕ where
  interval := 1000
  burst := 5
  rsNLeft := 0
  missed := 0
  initialized := false
  msgOnRelease := false
  begin := 0

/-- The times of two windows: seven calls in the first and six in the second. -/
def twoWindows : List ℕ := List.replicate 7 7 ++ List.replicate 6 2000

/-- In each window the calls behind the burst return 0. -/
theorem run_fixedWindow_harness :
    (callAll harnessState twoWindows).1 = [1, 1, 1, 1, 1, 0, 0, 1, 1, 1, 1, 1, 0] ∧
    (callAll harnessState twoWindows).1 =
      (windows 1000 twoWindows).flatMap (windowReturns 5) ∧
    (twoWindows ≠ [] → 0 ≤ (callAll harnessState twoWindows).2.rsNLeft) ∧
    ∀ w, (windows 1000 twoWindows).getLast? = some w →
      (callAll harnessState twoWindows).2.missed = (windowReturns 5 w).count 0 := by
  have hts : twoWindows.IsChain Close := by simp [twoWindows, Close, List.replicate]
  exact ⟨by decide, @run_fixedWindow ℕ _ harnessState (by decide) (by decide) (by decide) rfl rfl
    rfl _ hts⟩

end BpfVerify.Ratelimit
