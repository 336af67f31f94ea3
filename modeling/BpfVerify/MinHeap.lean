import BpfVerify.BinaryHeap

/-!
# The bounded min-heap

`targets/min_heap/preamble.h`: push and pop on an array of `int`, with sifts that are cut off
after four iterations. A heap of at most 31 slots has five levels, so no sift is cut short.
-/
namespace BpfVerify.MinHeap
open BinaryHeap

/-- `min_heap_char`; `data` is the memory behind the pointer, as `int` slots. -/
structure Heap where
  data : ℕ → ℤ
  nr : ℕ
  size : ℕ

def bpfIntLess (data : ℕ → ℤ) (a b : ℕ) : Bool := data a < data b

def bpfIntSwap (data : ℕ → ℤ) (a b : ℕ) : ℕ → ℤ :=
  let t := data a
  Function.update (Function.update data a (data b)) b t

/-- The loop of `__bpf_heap_sift_up` with its remaining iterations. -/
def siftUpLoop : ℕ → (ℕ → ℤ) → ℕ → ℕ → ℤ
  | 0, data, _ => data
  | i + 1, data, idx =>
    if idx > 0 then
      let par := (idx - 1) / 2
      if !bpfIntLess data idx par then data
      else siftUpLoop i (bpfIntSwap data idx par) par
    else data

def bpfHeapSiftUp (data : ℕ → ℤ) (idx : ℕ) : ℕ → ℤ := siftUpLoop 4 data idx

/-- `smallest` in the body of `__bpf_heap_sift_down`. -/
def smallestOf (data : ℕ → ℤ) (n pos : ℕ) : ℕ :=
  let left := 2 * pos + 1
  let right := 2 * pos + 2
  let smallest := if left < n && bpfIntLess data left pos then left else pos
  if right < n && bpfIntLess data right smallest then right else smallest

/-- The loop of `__bpf_heap_sift_down` with its remaining iterations. -/
def siftDownLoop : ℕ → (ℕ → ℤ) → ℕ → ℕ → ℕ → ℤ
  | 0, data, _, _ => data
  | i + 1, data, n, pos =>
    let smallest := smallestOf data n pos
    if smallest = pos then data
    else siftDownLoop i (bpfIntSwap data pos smallest) n smallest

def bpfHeapSiftDown (data : ℕ → ℤ) (n pos : ℕ) : ℕ → ℤ := siftDownLoop 4 data n pos

def bpfHeapPush (heap : Heap) (val : ℤ) : Bool × Heap :=
  if heap.nr ≥ heap.size then (false, heap)
  else
    let data := Function.update heap.data heap.nr val
    let data := bpfHeapSiftUp data heap.nr
    (true, { heap with data := data, nr := heap.nr + 1 })

def bpfHeapPop (heap : Heap) : Bool × Heap :=
  if heap.nr = 0 then (false, heap)
  else
    let nr := heap.nr - 1
    let data := Function.update heap.data 0 (heap.data nr)
    let data := if nr > 0 then bpfHeapSiftDown data nr 0 else data
    (true, { heap with data := data, nr := nr })

/-! ## The sifts -/

lemma bpfIntSwap_eq (data : ℕ → ℤ) (a b : ℕ) : bpfIntSwap data a b = data ∘ Equiv.swap a b := by
  funext c
  simp only [bpfIntSwap, Function.comp_apply]
  by_cases hb : c = b
  · rw [hb, Function.update_self, Equiv.swap_apply_right]
  · by_cases ha : c = a
    · rw [Function.update_of_ne hb, ha, Function.update_self, Equiv.swap_apply_left]
    · rw [Function.update_of_ne hb, Function.update_of_ne ha, Equiv.swap_apply_of_ne_of_ne ha hb]

/-- The slot at `idx` is less than `i + 1` levels below the root. -/
lemma siftUpLoop_spec (i : ℕ) {data : ℕ → ℤ} {n idx : ℕ} (h : UpReady data n idx) (hidx : idx < n)
    (hlevel : idx + 1 < 2 ^ (i + 1)) :
    Ordered (siftUpLoop i data idx) n ∧ contents (siftUpLoop i data idx) n = contents data n := by
  induction i generalizing data idx with
  | zero =>
    refine ⟨h.finish ?_, rfl⟩
    intro h0
    omega
  | succ i ih =>
    unfold siftUpLoop
    dsimp only
    split_ifs with h0 hless
    · refine ⟨h.finish ?_, rfl⟩
      intro _
      simpa [bpfIntLess, parent] using hless
    · have hlt : data idx < data (parent idx) := by simpa [bpfIntLess, parent] using hless
      have hpar : (idx - 1) / 2 = parent idx := rfl
      have hswap := h.swap hidx h0 hlt
      rw [hpar, bpfIntSwap_eq]
      have hpow : 2 ^ (i + 1 + 1) = 2 * 2 ^ (i + 1) := by ring
      have hup : parent idx < n ∧ parent idx + 1 < 2 ^ (i + 1) := by
        unfold parent
        omega
      obtain ⟨hord, hcont⟩ := ih hswap hup.1 hup.2
      exact ⟨hord, hcont.trans (contents_swap hidx hup.1)⟩
    · refine ⟨h.finish ?_, rfl⟩
      intro hpos
      exact absurd hpos h0

lemma child_cases {j pos : ℕ} (h0 : 0 < j) (h : parent j = pos) : j = 2 * pos + 1 ∨ j = 2 * pos + 2 := by
  unfold parent at h
  omega

/-- No child is smaller, or the smallest child is. -/
lemma smallestOf_cases (data : ℕ → ℤ) (n pos : ℕ) :
    smallestOf data n pos = pos ∧ (∀ j < n, 0 < j → parent j = pos → data pos ≤ data j) ∨
    ∃ c, smallestOf data n pos = c ∧ c < n ∧ 0 < c ∧ parent c = pos ∧ data c < data pos ∧
      ∀ j < n, 0 < j → parent j = pos → data c ≤ data j := by
  have hchildren {v : ℤ} (hl : 2 * pos + 1 < n → v ≤ data (2 * pos + 1))
      (hr : 2 * pos + 2 < n → v ≤ data (2 * pos + 2)) :
      ∀ j < n, 0 < j → parent j = pos → v ≤ data j := by
    intro j hj h0 hpar
    cases child_cases h0 hpar with
    | inl h =>
      subst h
      exact hl hj
    | inr h =>
      subst h
      exact hr hj
  have hleft : parent (2 * pos + 1) = pos := by
    unfold parent
    omega
  have hright : parent (2 * pos + 2) = pos := by
    unfold parent
    omega
  simp only [smallestOf, bpfIntLess, Bool.and_eq_true, decide_eq_true_eq]
  by_cases hl : 2 * pos + 1 < n ∧ data (2 * pos + 1) < data pos
  · rw [if_pos hl]
    by_cases hr : 2 * pos + 2 < n ∧ data (2 * pos + 2) < data (2 * pos + 1)
    · rw [if_pos hr]
      refine .inr ⟨_, rfl, hr.1, by omega, hright, hr.2.trans hl.2, hchildren ?_ ?_⟩
      · exact fun _ => hr.2.le
      · exact fun _ => le_rfl
    · rw [if_neg hr]
      refine .inr ⟨_, rfl, hl.1, by omega, hleft, hl.2, hchildren ?_ ?_⟩
      · exact fun _ => le_rfl
      · exact fun hlt => not_lt.mp fun hc => hr ⟨hlt, hc⟩
  · rw [if_neg hl]
    have hl' : 2 * pos + 1 < n → data pos ≤ data (2 * pos + 1) :=
      fun hlt => not_lt.mp fun hc => hl ⟨hlt, hc⟩
    by_cases hr : 2 * pos + 2 < n ∧ data (2 * pos + 2) < data pos
    · rw [if_pos hr]
      refine .inr ⟨_, rfl, hr.1, by omega, hright, hr.2, hchildren ?_ ?_⟩
      · exact fun hlt => hr.2.le.trans (hl' hlt)
      · exact fun _ => le_rfl
    · rw [if_neg hr]
      refine .inl ⟨rfl, hchildren hl' ?_⟩
      exact fun hlt => not_lt.mp fun hc => hr ⟨hlt, hc⟩

/-- The heap has less than `i + 1` levels below `pos`. -/
lemma siftDownLoop_spec (i : ℕ) {data : ℕ → ℤ} {n pos : ℕ} (h : DownReady data n pos)
    (hpos : pos < n) (hlevel : n < (pos + 1) * 2 ^ (i + 1)) :
    Ordered (siftDownLoop i data n pos) n ∧
      contents (siftDownLoop i data n pos) n = contents data n := by
  induction i generalizing data pos with
  | zero =>
    refine ⟨h.finish ?_, rfl⟩
    intro j hj h0 hpar
    unfold parent at hpar
    omega
  | succ i ih =>
    unfold siftDownLoop
    dsimp only
    cases smallestOf_cases data n pos with
    | inl hstop =>
      rw [if_pos hstop.1]
      exact ⟨h.finish hstop.2, rfl⟩
    | inr hmove =>
      obtain ⟨c, hsmallest, hcn, hc0, hc, hlt, hmin⟩ := hmove
      have hcases := child_cases hc0 hc
      have hne : c ≠ pos := by omega
      rw [hsmallest, if_neg hne, bpfIntSwap_eq]
      have hlevel' : n < (c + 1) * 2 ^ (i + 1) := by
        have hstep : (pos + 1) * 2 ^ (i + 1 + 1) = (2 * pos + 2) * 2 ^ (i + 1) := by ring
        calc n < (2 * pos + 2) * 2 ^ (i + 1) := by rwa [← hstep]
          _ ≤ (c + 1) * 2 ^ (i + 1) := Nat.mul_le_mul_right _ (by omega)
      obtain ⟨hord, hcont⟩ := ih (h.swap hcn hc0 hc hlt hmin) hcn hlevel'
      exact ⟨hord, hcont.trans (contents_swap hpos hcn)⟩

/-! ## Calls -/

structure Inv (heap : Heap) : Prop where
  ordered : Ordered heap.data heap.nr
  nr_le : heap.nr ≤ heap.size
  size_le : heap.size ≤ 31

/-- The values in the heap. -/
def Heap.values (heap : Heap) : Multiset ℤ := contents heap.data heap.nr

lemma bpfHeapPush_full {heap : Heap} (hfull : heap.nr = heap.size) (val : ℤ) :
    bpfHeapPush heap val = (false, heap) := by
  rw [bpfHeapPush, if_pos hfull.ge]

lemma bpfHeapPush_spec {heap : Heap} (h : Inv heap) (hroom : heap.nr ≠ heap.size) (val : ℤ) :
    ∃ heap', bpfHeapPush heap val = (true, heap') ∧ Inv heap' ∧ heap'.nr = heap.nr + 1 ∧
      heap'.size = heap.size ∧ heap'.values = val ::ₘ heap.values := by
  have hnr := h.nr_le
  have hsize := h.size_le
  have hkeep {j : ℕ} (hj : j < heap.nr) : Function.update heap.data heap.nr val j = heap.data j :=
    Function.update_of_ne hj.ne _ _
  have hord : Ordered (Function.update heap.data heap.nr val) heap.nr := by
    intro j hj h0
    have hp : parent j < heap.nr := by
      unfold parent
      omega
    rw [hkeep hj, hkeep hp]
    exact h.ordered j hj h0
  obtain ⟨hsift, hcont⟩ := siftUpLoop_spec 4 (.of_ordered hord) (Nat.lt_succ_self _) (by omega)
  refine ⟨{ heap with data := bpfHeapSiftUp (Function.update heap.data heap.nr val) heap.nr,
                      nr := heap.nr + 1 }, ?_, ⟨hsift, ?_, hsize⟩, rfl, rfl, ?_⟩
  · rw [bpfHeapPush, if_neg (by omega)]
  · exact Nat.lt_of_le_of_ne hnr hroom
  · rw [Heap.values, Heap.values]
    refine hcont.trans ?_
    rw [contents_succ, Function.update_self, contents_congr fun j hj => hkeep hj]

lemma bpfHeapPop_empty {heap : Heap} (hempty : heap.nr = 0) :
    bpfHeapPop heap = (false, heap) := by
  rw [bpfHeapPop, if_pos hempty]

/-- The last value moves to the root, which leaves the values but for the old root. -/
lemma contents_moveLast (data : ℕ → ℤ) (n : ℕ) :
    contents data (n + 1) = data 0 ::ₘ contents (Function.update data 0 (data n)) n := by
  rw [← contents_swap (Nat.succ_pos n) (Nat.lt_succ_self n), contents_succ]
  simp only [Function.comp_apply, Equiv.swap_apply_right]
  congr 1
  apply contents_congr
  intro j hj
  by_cases h0 : j = 0
  · simp [h0]
  · rw [Function.update_of_ne h0, Function.comp_apply, Equiv.swap_apply_of_ne_of_ne h0 hj.ne]

lemma bpfHeapPop_spec {heap : Heap} (h : Inv heap) (hne : heap.nr ≠ 0) :
    ∃ heap', bpfHeapPop heap = (true, heap') ∧ Inv heap' ∧ heap'.nr = heap.nr - 1 ∧
      heap'.size = heap.size ∧ heap.values = heap.data 0 ::ₘ heap'.values := by
  have hnr := h.nr_le
  have hsize := h.size_le
  obtain ⟨n, hn⟩ : ∃ n, heap.nr = n + 1 := ⟨heap.nr - 1, by omega⟩
  obtain ⟨data, hdata⟩ : ∃ data, data = Function.update heap.data 0 (heap.data n) := ⟨_, rfl⟩
  have hmove : heap.values = heap.data 0 ::ₘ contents data n := by
    rw [Heap.values, hn, contents_moveLast, hdata]
  have hready : DownReady data n 0 := by
    apply DownReady.of_ordered
    intro j hj h0 hp0
    rw [hdata, Function.update_of_ne hp0.ne', Function.update_of_ne h0.ne']
    exact h.ordered j (by omega) h0
  have hsift : Ordered (if n > 0 then bpfHeapSiftDown data n 0 else data) n ∧
      contents (if n > 0 then bpfHeapSiftDown data n 0 else data) n = contents data n := by
    split_ifs with hpos
    · exact siftDownLoop_spec 4 hready hpos (by omega)
    · refine ⟨?_, rfl⟩
      intro j hj
      omega
  refine ⟨{ heap with data := if n > 0 then bpfHeapSiftDown data n 0 else data, nr := n }, ?_,
    ⟨hsift.1, ?_, hsize⟩, ?_, rfl, ?_⟩
  · have hn' : heap.nr - 1 = n := by omega
    rw [bpfHeapPop, if_neg hne]
    simp only [hn', ← hdata]
  · change n ≤ heap.size
    omega
  · change n = heap.nr - 1
    omega
  · rw [hmove, Heap.values]
    exact congrArg _ hsift.2.symm

/-! ## Sequences of calls -/

inductive Op where
  | push (val : ℤ)
  | pop

/-- A heap with the values pushed and popped so far; a pop takes the value at the root. -/
structure Trace where
  heap : Heap
  pushed : Multiset ℤ
  popped : Multiset ℤ

def exec (t : Trace) : Op → Trace
  | .push val =>
    match bpfHeapPush t.heap val with
    | (true, heap) => { t with heap := heap, pushed := val ::ₘ t.pushed }
    | (false, heap) => { t with heap := heap }
  | .pop =>
    match bpfHeapPop t.heap with
    | (true, heap) => { t with heap := heap, popped := t.heap.data 0 ::ₘ t.popped }
    | (false, heap) => { t with heap := heap }

/-- From an empty heap of capacity `size`, whatever its memory holds. -/
def execAll (data : ℕ → ℤ) (size : ℕ) (ops : List Op) : Trace :=
  ops.foldl exec { heap := { data := data, nr := 0, size := size }, pushed := 0, popped := 0 }

lemma exec_spec {t : Trace} (h : Inv t.heap) (hlog : t.pushed = t.heap.values + t.popped) (op : Op) :
    Inv (exec t op).heap ∧ (exec t op).heap.size = t.heap.size ∧
      (exec t op).pushed = (exec t op).heap.values + (exec t op).popped := by
  cases op with
  | push val =>
    by_cases hfull : t.heap.nr = t.heap.size
    · rw [exec, bpfHeapPush_full hfull]
      exact ⟨h, rfl, hlog⟩
    · obtain ⟨heap', hpush, hinv, -, hsize, hvalues⟩ := bpfHeapPush_spec h hfull val
      rw [exec, hpush]
      refine ⟨hinv, hsize, ?_⟩
      rw [hvalues, Multiset.cons_add, ← hlog]
  | pop =>
    by_cases hempty : t.heap.nr = 0
    · rw [exec, bpfHeapPop_empty hempty]
      exact ⟨h, rfl, hlog⟩
    · obtain ⟨heap', hpop, hinv, -, hsize, hvalues⟩ := bpfHeapPop_spec h hempty
      rw [exec, hpop]
      refine ⟨hinv, hsize, ?_⟩
      rw [hlog, hvalues, Multiset.cons_add, Multiset.add_cons]

lemma execAll_spec {t : Trace} (h : Inv t.heap) (hlog : t.pushed = t.heap.values + t.popped)
    (ops : List Op) :
    Inv (ops.foldl exec t).heap ∧ (ops.foldl exec t).heap.size = t.heap.size ∧
      (ops.foldl exec t).pushed = (ops.foldl exec t).heap.values + (ops.foldl exec t).popped := by
  induction ops generalizing t with
  | nil => exact ⟨h, rfl, hlog⟩
  | cons op ops ih =>
    obtain ⟨hinv, hsize, hlog'⟩ := exec_spec h hlog op
    obtain ⟨hinv', hsize', hlog''⟩ := ih hinv hlog'
    exact ⟨hinv', hsize'.trans hsize, hlog''⟩

/-- What holds of a heap after any sequence of calls, and of the next call on it. -/
structure PriorityQueue (t : Trace) : Prop where
  left : ∀ i, 2 * i + 1 < t.heap.nr → t.heap.data i ≤ t.heap.data (2 * i + 1)
  right : ∀ i, 2 * i + 2 < t.heap.nr → t.heap.data i ≤ t.heap.data (2 * i + 2)
  values : t.heap.values = t.pushed - t.popped ∧ t.popped ≤ t.pushed
  push_iff : ∀ val, (bpfHeapPush t.heap val).1 = false ↔ t.heap.nr = t.heap.size
  push_full : ∀ val, (bpfHeapPush t.heap val).1 = false → (bpfHeapPush t.heap val).2 = t.heap
  push_values : ∀ val, (bpfHeapPush t.heap val).1 = true →
    (bpfHeapPush t.heap val).2.values = val ::ₘ t.heap.values
  pop_iff : (bpfHeapPop t.heap).1 = false ↔ t.heap.nr = 0
  pop_empty : (bpfHeapPop t.heap).1 = false → (bpfHeapPop t.heap).2 = t.heap
  pop_min : (bpfHeapPop t.heap).1 = true → t.heap.data 0 ∈ t.heap.values ∧
    (∀ v ∈ t.heap.values, t.heap.data 0 ≤ v) ∧
    (bpfHeapPop t.heap).2.values = t.heap.values.erase (t.heap.data 0)

lemma Inv.root_le {heap : Heap} (h : Inv heap) {v : ℤ} (hv : v ∈ heap.values) : heap.data 0 ≤ v := by
  unfold Heap.values contents at hv
  obtain ⟨j, hj, rfl⟩ := Multiset.mem_map.mp hv
  exact h.ordered.root_le (Finset.mem_range.mp hj)

/-- A heap of at most 31 slots is a priority queue over every sequence of calls. -/
theorem run_priorityQueue (data : ℕ → ℤ) {size : ℕ} (hsize : size ≤ 31) (ops : List Op) :
    PriorityQueue (execAll data size ops) := by
  obtain ⟨h, -, hlog⟩ := execAll_spec
    (t := { heap := { data := data, nr := 0, size := size }, pushed := 0, popped := 0 })
    ⟨fun j hj => absurd hj (Nat.not_lt_zero j), Nat.zero_le _, hsize⟩ rfl ops
  change Inv (execAll data size ops).heap at h
  change (execAll data size ops).pushed =
    (execAll data size ops).heap.values + (execAll data size ops).popped at hlog
  generalize execAll data size ops = t at h hlog
  constructor
  case left =>
    intro i hi
    have hpar : parent (2 * i + 1) = i := by
      unfold parent
      omega
    have hedge := h.ordered (2 * i + 1) hi (by omega)
    rwa [hpar] at hedge
  case right =>
    intro i hi
    have hpar : parent (2 * i + 2) = i := by
      unfold parent
      omega
    have hedge := h.ordered (2 * i + 2) hi (by omega)
    rwa [hpar] at hedge
  case values =>
    rw [hlog]
    exact ⟨Multiset.add_sub_cancel_right.symm, Multiset.le_add_left _ _⟩
  case push_iff =>
    intro val
    by_cases hfull : t.heap.nr = t.heap.size
    · simp [bpfHeapPush_full hfull, hfull]
    · obtain ⟨heap', hpush, -⟩ := bpfHeapPush_spec h hfull val
      simp [hpush, hfull]
  case push_full =>
    intro val hfalse
    by_cases hfull : t.heap.nr = t.heap.size
    · rw [bpfHeapPush_full hfull]
    · obtain ⟨heap', hpush, -⟩ := bpfHeapPush_spec h hfull val
      simp [hpush] at hfalse
  case push_values =>
    intro val htrue
    by_cases hfull : t.heap.nr = t.heap.size
    · simp [bpfHeapPush_full hfull] at htrue
    · obtain ⟨heap', hpush, -, -, -, hvalues⟩ := bpfHeapPush_spec h hfull val
      rw [hpush, hvalues]
  case pop_iff =>
    by_cases hempty : t.heap.nr = 0
    · simp [bpfHeapPop_empty hempty, hempty]
    · obtain ⟨heap', hpop, -⟩ := bpfHeapPop_spec h hempty
      simp [hpop, hempty]
  case pop_empty =>
    intro hfalse
    by_cases hempty : t.heap.nr = 0
    · rw [bpfHeapPop_empty hempty]
    · obtain ⟨heap', hpop, -⟩ := bpfHeapPop_spec h hempty
      simp [hpop] at hfalse
  case pop_min =>
    intro htrue
    by_cases hempty : t.heap.nr = 0
    · simp [bpfHeapPop_empty hempty] at htrue
    · obtain ⟨heap', hpop, -, -, -, hvalues⟩ := bpfHeapPop_spec h hempty
      refine ⟨?_, fun v hv => h.root_le hv, ?_⟩
      · rw [hvalues]
        exact Multiset.mem_cons_self _ _
      · rw [hpop, hvalues, Multiset.erase_cons_head]

/-- The heap of the harness: eight slots, three pushes and a pop. -/
theorem run_priorityQueue_harness :
    PriorityQueue (execAll (fun _ => 0) 8 [.push 3, .push 1, .push 2, .pop]) :=
  run_priorityQueue (fun _ => 0) (by decide) _

/-! ## Emptying the heap -/

/-- Pops, at most `k` of them, until one fails: the values at the root, and the heap. -/
def popAll : ℕ → Heap → List ℤ × Heap
  | 0, heap => ([], heap)
  | k + 1, heap =>
    match bpfHeapPop heap with
    | (true, heap') => ((heap.data 0 :: (popAll k heap').1), (popAll k heap').2)
    | (false, heap') => ([], heap')

lemma popAll_spec {heap : Heap} (h : Inv heap) {k : ℕ} (hk : heap.nr ≤ k) :
    ((popAll k heap).1 : Multiset ℤ) = heap.values ∧ (popAll k heap).1.Pairwise (· ≤ ·) ∧
      (popAll k heap).2.nr = 0 := by
  induction k generalizing heap with
  | zero =>
    have hnr : heap.nr = 0 := Nat.le_zero.mp hk
    refine ⟨?_, .nil, hnr⟩
    simp [popAll, Heap.values, contents, hnr]
  | succ k ih =>
    by_cases hempty : heap.nr = 0
    · rw [popAll, bpfHeapPop_empty hempty]
      refine ⟨?_, .nil, hempty⟩
      simp [Heap.values, contents, hempty]
    · obtain ⟨heap', hpop, h', hnr, -, hvalues⟩ := bpfHeapPop_spec h hempty
      obtain ⟨hcont, hsorted, hend⟩ := ih h' (by omega)
      rw [popAll, hpop]
      dsimp only
      refine ⟨?_, List.pairwise_cons.mpr ⟨fun v hv => ?_, hsorted⟩, hend⟩
      · rw [hvalues, ← hcont, Multiset.cons_coe]
      · have hmem : v ∈ heap.values := by
          rw [hvalues, ← hcont]
          exact Multiset.mem_cons_of_mem (Multiset.mem_coe.mpr hv)
        exact h.root_le hmem

/-- After any sequence of calls, popping until the heap is empty gives the values that are left in
ascending order. -/
theorem run_popAll_sorted (data : ℕ → ℤ) {size : ℕ} (hsize : size ≤ 31) (ops : List Op) :
    (popAll size (execAll data size ops).heap).1 =
        ((execAll data size ops).pushed - (execAll data size ops).popped).sort (· ≤ ·) ∧
      (popAll size (execAll data size ops).heap).2.nr = 0 := by
  obtain ⟨h, hsame, hlog⟩ := execAll_spec
    (t := { heap := { data := data, nr := 0, size := size }, pushed := 0, popped := 0 })
    ⟨fun j hj => absurd hj (Nat.not_lt_zero j), Nat.zero_le _, hsize⟩ rfl ops
  change Inv (execAll data size ops).heap at h
  change (execAll data size ops).heap.size = size at hsame
  change (execAll data size ops).pushed =
    (execAll data size ops).heap.values + (execAll data size ops).popped at hlog
  generalize execAll data size ops = t at h hsame hlog
  obtain ⟨hcont, hsorted, hend⟩ := popAll_spec h (hsame ▸ h.nr_le)
  refine ⟨?_, hend⟩
  rw [hlog, Multiset.add_sub_cancel_right, ← hcont]
  have hperm : (popAll size t.heap).1.Perm
      (Multiset.sort ((popAll size t.heap).1 : Multiset ℤ) (· ≤ ·)) :=
    Multiset.coe_eq_coe.mp (Multiset.sort_eq _ _).symm
  exact hperm.eq_of_pairwise' hsorted (Multiset.pairwise_sort _ _)

/-- The heap of the harness gives back the two values that the pop has left. -/
theorem run_popAll_sorted_harness :
    ∃ t, t = execAll (fun _ => 0) 8 [.push 3, .push 1, .push 2, .pop] ∧
      (popAll 8 t.heap).1 = [2, 3] ∧
      (popAll 8 t.heap).1 = (t.pushed - t.popped).sort (· ≤ ·) ∧ (popAll 8 t.heap).2.nr = 0 :=
  ⟨_, rfl, by decide, run_popAll_sorted (fun _ => 0) (by decide)
    [.push 3, .push 1, .push 2, .pop]⟩

end BpfVerify.MinHeap
