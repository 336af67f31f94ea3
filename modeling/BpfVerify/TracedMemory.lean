import Mathlib

/-!
# Memory with its accesses

A memory of cells that records which cells are read and written, and terminated strings in it. A
program that reads a string and writes another is ahead of itself if every cell it reads has at
least as many cells of the string before it as have been written.
-/
namespace TracedMemory

inductive Access where
  | read (a : ℕ)
  | write (a : ℕ)

/-- The trace has the last access first. -/
structure Memory (α : Type) where
  cells : ℕ → α
  trace : List Access

variable {α : Type}

def Memory.load (m : Memory α) (a : ℕ) : α × Memory α :=
  (m.cells a, { m with trace := .read a :: m.trace })

def Memory.store (m : Memory α) (a : ℕ) (x : α) : Memory α where
  cells := Function.update m.cells a x
  trace := .write a :: m.trace

/-- How many writes there were. -/
def writes : List Access → ℕ
  | [] => 0
  | .read _ :: t => writes t
  | .write _ :: t => writes t + 1

/-- All reads are in the `n + 1` cells from `src` on, each with no more writes before it than
there are cells before it. -/
def ReadsAhead (src n : ℕ) : List Access → Prop
  | [] => True
  | .read a :: t => (src + writes t ≤ a ∧ a ≤ src + n) ∧ ReadsAhead src n t
  | .write _ :: t => ReadsAhead src n t

/-! ## Strings -/

/-- The terminated string at an address. -/
def Str [Zero α] (cells : ℕ → α) (a : ℕ) : List α → Prop
  | [] => cells a = 0
  | x :: l => cells a = x ∧ x ≠ 0 ∧ Str cells (a + 1) l

lemma Str.congr [Zero α] {cells cells' : ℕ → α} {a : ℕ} {l : List α} (h : Str cells a l)
    (heq : ∀ i, a ≤ i → i ≤ a + l.length → cells' i = cells i) : Str cells' a l := by
  induction l generalizing a with
  | nil => exact (heq a le_rfl (by simp)).trans h
  | cons x l ih =>
    rw [List.length_cons] at heq
    refine ⟨(heq a le_rfl (by omega)).trans h.1, h.2.1, ih h.2.2 ?_⟩
    intro i hi hlast
    exact heq i (by omega) (by omega)

lemma str_of_getElem [Zero α] {cells : ℕ → α} {a : ℕ} {l : List α}
    (h : ∀ k, (hk : k < l.length) → cells (a + k) = l[k] ∧ l[k] ≠ 0)
    (hlast : cells (a + l.length) = 0) : Str cells a l := by
  induction l generalizing a with
  | nil => exact hlast
  | cons x l ih =>
    have hfirst := h 0 (by simp)
    refine ⟨hfirst.1, hfirst.2, ih ?_ ?_⟩
    · intro k hk
      have hadd : a + 1 + k = a + (k + 1) := by omega
      rw [hadd]
      exact h (k + 1) (by simpa using hk)
    · rwa [List.length_cons, Nat.add_comm l.length 1, ← Nat.add_assoc] at hlast

lemma Str.drop [Zero α] {cells : ℕ → α} {a : ℕ} {l : List α} (h : Str cells a l) {k : ℕ}
    (hk : k ≤ l.length) : Str cells (a + k) (l.drop k) := by
  induction k generalizing a l with
  | zero => exact h
  | succ k ih =>
    cases l with
    | nil => simp at hk
    | cons x l =>
      have hrest := ih h.2.2 (by simpa using hk)
      rwa [Nat.add_assoc, Nat.add_comm 1 k] at hrest

/-- The cells of `l`, stored one after the other from `a` on. -/
def fill (cells : ℕ → α) (a : ℕ) : List α → ℕ → α
  | [] => cells
  | x :: l => fill (Function.update cells a x) (a + 1) l

lemma fill_of_outside (cells : ℕ → α) {a i : ℕ} {l : List α} (h : i < a ∨ a + l.length ≤ i) :
    fill cells a l i = cells i := by
  induction l generalizing cells a with
  | nil => rfl
  | cons x l ih =>
    rw [List.length_cons] at h
    rw [fill, ih _ (by omega)]
    exact Function.update_of_ne (by omega) _ _

lemma fill_apply (cells : ℕ → α) (a : ℕ) {l : List α} {k : ℕ} (hk : k < l.length) :
    fill cells a l (a + k) = l[k] := by
  induction l generalizing cells a k with
  | nil => simp at hk
  | cons x l ih =>
    cases k with
    | zero =>
      rw [fill, fill_of_outside _ (.inl (by omega))]
      exact Function.update_self _ _ _
    | succ k =>
      have hrest := ih (Function.update cells a x) (a + 1) (by simpa using hk)
      rw [Nat.add_assoc, Nat.add_comm 1 k] at hrest
      rw [fill, hrest, List.getElem_cons_succ]

/-! ## Runs of accesses -/

/-- The `n` cells from `a` on. -/
def region (cells : ℕ → α) (a : ℕ) : ℕ → List α
  | 0 => []
  | n + 1 => cells a :: region cells (a + 1) n

@[simp] lemma length_region (cells : ℕ → α) (a n : ℕ) : (region cells a n).length = n := by
  induction n generalizing a with
  | zero => rfl
  | succ n ih => rw [region, List.length_cons, ih]

lemma mem_region {cells : ℕ → α} {a n : ℕ} {x : α} :
    x ∈ region cells a n ↔ ∃ i < n, cells (a + i) = x := by
  induction n generalizing a with
  | zero => simp [region]
  | succ n ih =>
    rw [region, List.mem_cons, ih]
    constructor
    · rintro (rfl | ⟨i, hi, rfl⟩)
      · exact ⟨0, by omega, rfl⟩
      · exact ⟨i + 1, by omega, congrArg cells (by omega)⟩
    · rintro ⟨i, hi, rfl⟩
      cases i with
      | zero => exact .inl rfl
      | succ i => exact .inr ⟨i, by omega, congrArg cells (by omega)⟩

lemma region_fill (cells : ℕ → α) (a : ℕ) (l : List α) :
    region (fill cells a l) a l.length = l := by
  induction l generalizing cells a with
  | nil => rfl
  | cons x l ih =>
    rw [List.length_cons, region, fill, ih, fill_of_outside _ (.inl (by omega)),
      Function.update_self]

lemma region_eq_replicate {cells : ℕ → α} {a n : ℕ} {x : α} (h : ∀ i < n, cells (a + i) = x) :
    region cells a n = List.replicate n x := by
  rw [List.eq_replicate_iff]
  refine ⟨length_region cells a n, fun y hy => ?_⟩
  obtain ⟨i, hi, rfl⟩ := mem_region.mp hy
  exact h i hi

lemma region_add (cells : ℕ → α) (a n k : ℕ) :
    region cells a (n + k) = region cells a n ++ region cells (a + n) k := by
  induction n generalizing a with
  | zero => rw [Nat.zero_add]; rfl
  | succ n ih =>
    rw [Nat.add_right_comm, region, ih, region, List.cons_append, Nat.add_right_comm a 1 n,
      Nat.add_assoc a n 1]

/-- The memory after `n` reads from `a` on. -/
def Memory.loads (m : Memory α) (a n : ℕ) : Memory α :=
  { m with trace := ((List.range' a n).map .read).reverse ++ m.trace }

/-- The memory after writes of `l` from `a` on. -/
def Memory.stores (m : Memory α) (a : ℕ) (l : List α) : Memory α where
  cells := fill m.cells a l
  trace := ((List.range' a l.length).map .write).reverse ++ m.trace

@[simp] lemma Memory.cells_loads (m : Memory α) (a n : ℕ) : (m.loads a n).cells = m.cells := rfl

@[simp] lemma Memory.cells_stores (m : Memory α) (a : ℕ) (l : List α) :
    (m.stores a l).cells = fill m.cells a l := rfl

@[simp] lemma Memory.stores_nil (m : Memory α) (a : ℕ) : m.stores a [] = m := rfl

lemma Memory.load_eq (m : Memory α) (a : ℕ) : m.load a = (m.cells a, m.loads a 1) := rfl

lemma Memory.loads_loads (m : Memory α) (a n k : ℕ) :
    (m.loads a n).loads (a + n) k = m.loads a (n + k) := by
  simp only [loads, ← List.append_assoc, ← List.reverse_append, ← List.map_append,
    List.range'_append_1]

lemma Memory.store_stores (m : Memory α) (a : ℕ) (x : α) (l : List α) :
    (m.store a x).stores (a + 1) l = m.stores a (x :: l) := by
  rw [stores, stores, List.length_cons, List.range'_succ, List.map_cons, List.reverse_cons,
    List.append_assoc]
  rfl

lemma Memory.stores_stores (m : Memory α) (a : ℕ) (l l' : List α) :
    (m.stores a l).stores (a + l.length) l' = m.stores a (l ++ l') := by
  induction l generalizing m a with
  | nil => rfl
  | cons x l ih =>
    rw [List.cons_append, ← store_stores, ← store_stores, ← ih, List.length_cons,
      Nat.add_comm l.length 1, Nat.add_assoc]

lemma Memory.mem_trace_stores {m : Memory α} {a b : ℕ} {l : List α} :
    .write b ∈ (m.stores a l).trace ↔ (a ≤ b ∧ b < a + l.length) ∨ .write b ∈ m.trace := by
  simp [stores]

lemma Memory.mem_trace_loads {m : Memory α} {a n b : ℕ} :
    .read b ∈ (m.loads a n).trace ↔ (a ≤ b ∧ b < a + n) ∨ .read b ∈ m.trace := by
  simp [loads]

/-! ## Reading one string while another is written -/

/-- Cells between `a` and `a + n` were read, and nothing else happened. -/
def Looks (a n : ℕ) (m m' : Memory α) : Prop :=
  m'.cells = m.cells ∧ ∃ reads : List ℕ, (∀ i ∈ reads, a ≤ i ∧ i ≤ a + n) ∧
    m'.trace = reads.map .read ++ m.trace

lemma Looks.refl (a n : ℕ) (m : Memory α) : Looks a n m m :=
  ⟨rfl, [], by simp, rfl⟩

lemma Looks.load (m : Memory α) {a n i : ℕ} (hi : a ≤ i) (hlast : i ≤ a + n) :
    Looks a n m (m.load i).2 := by
  refine ⟨rfl, [i], ?_, rfl⟩
  intro j hj
  rw [List.mem_singleton.mp hj]
  exact ⟨hi, hlast⟩

lemma Looks.trans {a n : ℕ} {m m' m'' : Memory α} (h : Looks a n m m') (h' : Looks a n m' m'') :
    Looks a n m m'' := by
  obtain ⟨hcells, reads, hreads, htrace⟩ := h
  obtain ⟨hcells', reads', hreads', htrace'⟩ := h'
  refine ⟨hcells'.trans hcells, reads' ++ reads, ?_, ?_⟩
  · intro i hi
    exact (List.mem_append.mp hi).elim (hreads' i) (hreads i)
  · rw [htrace', htrace, List.map_append, List.append_assoc]

lemma Looks.mono {a n b k : ℕ} {m m' : Memory α} (h : Looks a n m m') (hb : b ≤ a)
    (hk : a + n ≤ b + k) : Looks b k m m' := by
  obtain ⟨hcells, reads, hreads, htrace⟩ := h
  refine ⟨hcells, reads, ?_, htrace⟩
  intro i hi
  have hbounds := hreads i hi
  omega

lemma writes_reads (reads : List ℕ) (t : List Access) :
    writes (reads.map .read ++ t) = writes t := by
  induction reads with
  | nil => rfl
  | cons i reads ih => exact ih

lemma ReadsAhead.reads {src n : ℕ} {t : List Access} (h : ReadsAhead src n t) {reads : List ℕ}
    (hreads : ∀ i ∈ reads, src + writes t ≤ i ∧ i ≤ src + n) :
    ReadsAhead src n (reads.map .read ++ t) := by
  induction reads with
  | nil => exact h
  | cons i reads ih =>
    have hi := hreads i List.mem_cons_self
    rw [← writes_reads reads] at hi
    exact ⟨hi, ih fun j hj => hreads j (List.mem_cons_of_mem _ hj)⟩

/-- The string `l` is left to read at `p`, the last of the `n` cells from `src` on, and the next
cell to write is `out`, which is not one of them. -/
structure Reading [Zero α] (src n : ℕ) (m : Memory α) (p out : ℕ) (l : List α) : Prop where
  string : Str m.cells p l
  clear : out ≤ p ∨ p + l.length < out
  stop : p + l.length = src + n
  behind : src + writes m.trace ≤ p
  ahead : ReadsAhead src n m.trace

variable [Zero α] {src n : ℕ} {m m' : Memory α} {p out : ℕ} {l : List α}

lemma Reading.looks (h : Reading src n m p out l) (hm : Looks p l.length m m') :
    Reading src n m' p out l := by
  obtain ⟨hcells, reads, hreads, htrace⟩ := hm
  have hstop := h.stop
  have hbehind := h.behind
  constructor
  case string => rw [hcells]; exact h.string
  case clear => exact h.clear
  case stop => exact h.stop
  case behind => rw [htrace, writes_reads]; exact h.behind
  case ahead =>
    rw [htrace]
    apply h.ahead.reads
    intro i hi
    have hbounds := hreads i hi
    omega

/-- One cell is written once at least one more was read. -/
lemma Reading.store (h : Reading src n m p out l) (x : α) {k : ℕ} (hk : 1 ≤ k)
    (hle : k ≤ l.length) : Reading src n (m.store out x) (p + k) (out + 1) (l.drop k) := by
  have hclear := h.clear
  have hstop := h.stop
  have hbehind := h.behind
  have hlen := List.length_drop (i := k) (l := l)
  constructor
  case string =>
    apply (h.string.drop hle).congr
    intro i hi hlast
    exact Function.update_of_ne (by omega) _ _
  case clear => omega
  case stop => omega
  case behind =>
    show src + (writes m.trace + 1) ≤ p + k
    omega
  case ahead => exact h.ahead

/-- From `m` to `m'` the cells `e` are written from `out` on. -/
structure Emits (src n : ℕ) (m : Memory α) (out : ℕ) (e : List α) (m' : Memory α) : Prop where
  cells_eq : m'.cells = fill m.cells out e
  count : writes m'.trace = writes m.trace + e.length
  ahead : ReadsAhead src n m'.trace

lemma Reading.emits_nil (h : Reading src n m p out l) : Emits src n m out [] m :=
  ⟨rfl, rfl, h.ahead⟩

omit [Zero α] in
lemma Emits.looks {m₁ : Memory α} {a k : ℕ} {e : List α} (h : Emits src n m₁ out e m')
    (hm : Looks a k m m₁) : Emits src n m out e m' := by
  obtain ⟨hcells, reads, -, htrace⟩ := hm
  refine ⟨?_, ?_, h.ahead⟩
  · rw [h.cells_eq, hcells]
  · rw [h.count, htrace, writes_reads]

omit [Zero α] in
lemma Emits.store {e : List α} {x : α} (h : Emits src n (m.store out x) (out + 1) e m') :
    Emits src n m out (x :: e) m' := by
  refine ⟨h.cells_eq, ?_, h.ahead⟩
  rw [h.count, List.length_cons]
  show writes m.trace + 1 + e.length = _
  omega

end TracedMemory
