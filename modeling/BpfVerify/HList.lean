import Mathlib

/-!
# Singly headed lists with back pointers

A list hangs from a `first` field. Every node stores its successor and the address of the
field that points at it, so that a node is removed without walking. The memory is arbitrary
outside the nodes of the represented list.
-/
namespace BpfVerify.HList

variable {α : Type*}

/-- The fields a back pointer can address. -/
inductive Link (α : Type*)
  | head
  | next (a : α)
  deriving DecidableEq

structure Mem (α : Type*) where
  first : Option α
  next : α → Option α
  pprev : α → Option (Link α)

namespace Mem

def load (m : Mem α) : Link α → Option α
  | .head => m.first
  | .next a => m.next a

variable [DecidableEq α]

def store (m : Mem α) (l : Link α) (v : Option α) : Mem α :=
  match l with
  | .head => { m with first := v }
  | .next a => { m with next := Function.update m.next a v }

def setPprev (m : Mem α) (a : α) (l : Option (Link α)) : Mem α :=
  { m with pprev := Function.update m.pprev a l }

@[simp] lemma load_store_self (m : Mem α) (l : Link α) (v : Option α) :
    (m.store l v).load l = v := by
  cases l <;> simp [store, load]

lemma load_store_of_ne (m : Mem α) {l k : Link α} (h : k ≠ l) (v : Option α) :
    (m.store l v).load k = m.load k := by
  cases l <;> cases k <;> simp_all [store, load, Function.update]

@[simp] lemma load_setPprev (m : Mem α) (a : α) (v : Option (Link α)) (l : Link α) :
    (m.setPprev a v).load l = m.load l := by
  cases l <;> rfl

@[simp] lemma pprev_store (m : Mem α) (l : Link α) (v : Option α) :
    (m.store l v).pprev = m.pprev := by
  cases l <;> rfl

@[simp] lemma pprev_setPprev_self (m : Mem α) (a : α) (v : Option (Link α)) :
    (m.setPprev a v).pprev a = v := by
  simp [setPprev]

lemma pprev_setPprev_of_ne (m : Mem α) {a b : α} (h : b ≠ a) (v : Option (Link α)) :
    (m.setPprev a v).pprev b = m.pprev b := by
  simp [setPprev, h]

end Mem

/-- The nodes `xs` hang from the field `l`, each pointing back at the field before it. -/
def Seg (m : Mem α) (l : Link α) : List α → Prop
  | [] => m.load l = none
  | x :: xs => m.load l = some x ∧ m.pprev x = some l ∧ Seg m (.next x) xs

/-- The list at the head holds exactly the distinct nodes `xs`, in order. -/
structure IsList (m : Mem α) (xs : List α) : Prop where
  seg : Seg m .head xs
  nodup : xs.Nodup

/-- The field that points at the node after `as`. -/
def lastLink (l : Link α) (as : List α) : Link α :=
  as.foldl (fun _ a => .next a) l

lemma lastLink_cons (l : Link α) (a : α) (as : List α) :
    lastLink l (a :: as) = lastLink (.next a) as := rfl

lemma lastLink_cases (l : Link α) (as : List α) :
    (as = [] ∧ lastLink l as = l) ∨ ∃ a ∈ as, lastLink l as = .next a := by
  induction as generalizing l with
  | nil => exact .inl ⟨rfl, rfl⟩
  | cons a as ih =>
    right
    rw [lastLink_cons]
    rcases ih (.next a) with ⟨rfl, h⟩ | ⟨b, hb, h⟩
    · exact ⟨a, by simp, h⟩
    · exact ⟨b, by simp [hb], h⟩

/-- A segment only depends on its first field and on the fields of its nodes. -/
lemma Seg.congr {m m' : Mem α} {l : Link α} {xs : List α} (h : Seg m l xs)
    (hl : m'.load l = m.load l) (hn : ∀ x ∈ xs, m'.load (.next x) = m.load (.next x))
    (hp : ∀ x ∈ xs, m'.pprev x = m.pprev x) : Seg m' l xs := by
  induction xs generalizing l with
  | nil => exact hl.trans h
  | cons x xs ih =>
    refine ⟨hl.trans h.1, (hp x (by simp)).trans h.2.1, ih h.2.2 (hn x (by simp)) ?_ ?_⟩
    · exact fun y hy => hn y (by simp [hy])
    · exact fun y hy => hp y (by simp [hy])

lemma Seg.append_iff {m : Mem α} {l : Link α} {as bs : List α} :
    Seg m l (as ++ bs) ↔
      (∀ i (h : i < as.length), m.load (lastLink l (as.take i)) = some as[i] ∧
        m.pprev as[i] = some (lastLink l (as.take i))) ∧ Seg m (lastLink l as) bs := by
  induction as generalizing l with
  | nil => simp [lastLink]
  | cons a as ih =>
    simp only [List.cons_append, Seg, ih, lastLink_cons]
    constructor
    · rintro ⟨h1, h2, h3, h4⟩
      refine ⟨fun i hi => ?_, h4⟩
      cases i with
      | zero => exact ⟨h1, h2⟩
      | succ i => exact h3 i (by simpa using hi)
    · rintro ⟨h1, h2⟩
      refine ⟨(h1 0 (by simp)).1, (h1 0 (by simp)).2, fun i hi => ?_, h2⟩
      exact h1 (i + 1) (by simpa using hi)

/-- Both neighbours of a node are read off its own two fields. -/
lemma Seg.mid {m : Mem α} {l : Link α} {as bs : List α} {x : α} (h : Seg m l (as ++ x :: bs)) :
    m.load (lastLink l as) = some x ∧ m.pprev x = some (lastLink l as) ∧
      Seg m (.next x) bs :=
  (Seg.append_iff.mp h).2

lemma Seg.next_eq_head? {m : Mem α} {l : Link α} {xs : List α} (h : Seg m l xs) :
    m.load l = xs.head? := by
  cases xs with
  | nil => exact h
  | cons x xs => exact h.1

/-- The represented nodes are determined by the memory. -/
lemma Seg.unique {m : Mem α} {l : Link α} {xs ys : List α} (hx : Seg m l xs) (hy : Seg m l ys) :
    xs = ys := by
  induction xs generalizing l ys with
  | nil =>
    cases ys with
    | nil => rfl
    | cons y ys => exact absurd (hx.symm.trans hy.1) (by simp)
  | cons x xs ih =>
    cases ys with
    | nil => exact absurd (hx.1.symm.trans hy) (by simp)
    | cons y ys =>
      obtain rfl : x = y := Option.some.inj (hx.1.symm.trans hy.1)
      rw [ih hx.2.2 hy.2.2]

lemma IsList.unique {m : Mem α} {xs ys : List α} (hx : IsList m xs) (hy : IsList m ys) : xs = ys :=
  hx.seg.unique hy.seg

/-! ## Insertion and removal -/

section
variable [DecidableEq α]

/-- Insert `n` before the first node. -/
def pushFront (m : Mem α) (n : α) : Mem α :=
  let first := m.first
  let m := m.store (.next n) first
  let m := match first with
    | some a => m.setPprev a (some (.next n))
    | none => m
  (m.store .head (some n)).setPprev n (some .head)

theorem pushFront_isList {m : Mem α} {xs : List α} {n : α} (h : IsList m xs) (hn : n ∉ xs) :
    IsList (pushFront m n) (n :: xs) := by
  refine ⟨⟨by simp [pushFront], by simp [pushFront], ?_⟩, List.nodup_cons.mpr ⟨hn, h.nodup⟩⟩
  have hf : m.first = xs.head? := h.seg.next_eq_head?
  cases xs with
  | nil =>
    change (pushFront m n).load (.next n) = none
    simp only [List.head?_nil] at hf
    rw [pushFront, Mem.load_setPprev, Mem.load_store_of_ne _ (by simp)]
    simp [hf]
  | cons a as =>
    simp only [List.head?_cons] at hf
    have hna : a ≠ n := fun he => hn (by simp [he])
    refine ⟨?_, ?_, h.seg.2.2.congr ?_ ?_ ?_⟩
    · rw [pushFront, Mem.load_setPprev, Mem.load_store_of_ne _ (by simp)]
      simp [hf]
    · simp [pushFront, hf, Mem.pprev_setPprev_of_ne _ hna]
    · rw [pushFront, Mem.load_setPprev, Mem.load_store_of_ne _ (by simp)]
      simp only [hf, Mem.load_setPprev]
      exact Mem.load_store_of_ne _ (by simpa using hna) _
    · intro x hx
      have hxn : x ≠ n := fun he => hn (by simp [← he, hx])
      rw [pushFront, Mem.load_setPprev, Mem.load_store_of_ne _ (by simp)]
      simp only [hf, Mem.load_setPprev]
      exact Mem.load_store_of_ne _ (by simpa using hxn) _
    · intro x hx
      have hxn : x ≠ n := fun he => hn (by simp [← he, hx])
      have hxa : x ≠ a := fun he => (List.nodup_cons.mp h.nodup).1 (he ▸ hx)
      simp [pushFront, hf, Mem.pprev_setPprev_of_ne _ hxn, Mem.pprev_setPprev_of_ne _ hxa]

/-- Remove `n` through its own two fields; an unlinked node is left alone. -/
def unlink (m : Mem α) (n : α) : Mem α :=
  match m.pprev n with
  | none => m
  | some l =>
    let m := match m.next n with
      | some a => m.setPprev a (some l)
      | none => m
    m.store l (m.next n)

/-- Reset both fields of a node. -/
def initNode (m : Mem α) (n : α) : Mem α := (m.store (.next n) none).setPprev n none

/-- All fields after the removal of a node held by the field `k`. -/
lemma load_remove {m : Mem α} {x : α} {k : Link α} (hk : m.pprev x = some k) (hx : k ≠ .next x)
    (j : Link α) : (initNode (unlink m x) x).load j =
      if j = .next x then none else if j = k then m.next x else m.load j := by
  unfold initNode unlink
  rw [hk, Mem.load_setPprev]
  by_cases hj : j = .next x
  · subst hj
    simp
  · rw [Mem.load_store_of_ne _ hj, if_neg hj]
    by_cases hjk : j = k
    · subst hjk
      cases hn : m.next x <;> simp [Mem.setPprev, hn]
    · rw [Mem.load_store_of_ne _ hjk, if_neg hjk]
      cases m.next x <;> simp

lemma pprev_remove {m : Mem α} {x : α} {k : Link α} (hk : m.pprev x = some k) (b : α) :
    (initNode (unlink m x) x).pprev b =
      if b = x then none else if m.next x = some b then some k else m.pprev b := by
  unfold initNode unlink
  rw [hk]
  by_cases hb : b = x
  · subst hb
    simp
  · rw [Mem.pprev_setPprev_of_ne _ hb, if_neg hb]
    cases hn : m.next x with
    | none => simp
    | some a =>
      by_cases hba : b = a
      · subst hba
        simp
      · have hab : a ≠ b := Ne.symm hba
        simp [Mem.pprev_setPprev_of_ne _ hba, hab]

/-- Removal of the first node below a field that belongs to none of the nodes. -/
lemma Seg.remove_first {m : Mem α} {l : Link α} {xs : List α} {x : α}
    (h : Seg m l (x :: xs)) (hnd : (x :: xs).Nodup) (hl : ∀ a ∈ x :: xs, l ≠ .next a) :
    Seg (initNode (unlink m x) x) l xs := by
  obtain ⟨-, hk, hxs⟩ := h
  obtain ⟨hx, hnd'⟩ := List.nodup_cons.mp hnd
  have hnext : m.next x = xs.head? := hxs.next_eq_head?
  have hlx : l ≠ .next x := hl x (by simp)
  have hfirst : (initNode (unlink m x) x).load l = xs.head? := by
    rw [load_remove hk hlx, if_neg hlx, if_pos rfl, hnext]
  cases xs with
  | nil => exact hfirst
  | cons y ys =>
    have hload : ∀ z ∈ y :: ys,
        (initNode (unlink m x) x).load (.next z) = m.load (.next z) := by
      intro z hz
      have hzx : z ≠ x := fun he => hx (he ▸ hz)
      rw [load_remove hk hlx, if_neg (by simpa using hzx),
        if_neg (Ne.symm (hl z (List.mem_cons_of_mem _ hz)))]
    refine ⟨hfirst, ?_, hxs.2.2.congr (hload y (by simp)) (fun z hz => hload z (by simp [hz])) ?_⟩
    · have hyx : y ≠ x := fun he => hx (by simp [he])
      rw [pprev_remove hk, if_neg hyx, if_pos (by simp [hnext])]
    · intro z hz
      have hzx : z ≠ x := fun he => hx (by simp [← he, hz])
      have hzy : y ≠ z := fun he => (List.nodup_cons.mp hnd').1 (he ▸ hz)
      rw [pprev_remove hk, if_neg hzx, if_neg (by simpa [hnext] using hzy)]

/-- Removal at any depth below a field that belongs to none of the nodes. -/
theorem Seg.remove {m : Mem α} {l : Link α} {as bs : List α} {x : α}
    (h : Seg m l (as ++ x :: bs)) (hnd : (as ++ x :: bs).Nodup)
    (hl : ∀ a ∈ as ++ x :: bs, l ≠ .next a) :
    Seg (initNode (unlink m x) x) l (as ++ bs) := by
  induction as generalizing l with
  | nil => exact h.remove_first hnd hl
  | cons a as ih =>
    obtain ⟨-, hk, hbs⟩ := h.mid
    have hnext : m.next x = bs.head? := hbs.next_eq_head?
    rw [List.cons_append] at h hnd hl
    obtain ⟨ha, hnd'⟩ := List.nodup_cons.mp hnd
    have hax : a ≠ x := fun he => ha (by simp [he])
    -- the field that holds `x` belongs to a node of the list, so it is not `l`
    obtain ⟨b, hb, he⟩ : ∃ b ∈ a :: as, lastLink l (a :: as) = .next b := by
      rcases lastLink_cases l (a :: as) with ⟨he, -⟩ | hb
      · simp at he
      · exact hb
    have hbx : b ≠ x := by
      rintro rfl
      rw [← List.cons_append] at hnd
      exact (List.nodup_append.mp hnd).2.2 b hb b (by simp) rfl
    have hlb : l ≠ .next b := by
      apply hl
      rw [← List.cons_append]
      exact List.mem_append_left _ hb
    rw [he] at hk
    refine ⟨?_, ?_, ih h.2.2 hnd' ?_⟩
    · rw [load_remove hk (by simpa using hbx), if_neg (hl x (by simp)), if_neg hlb]
      exact h.1
    · have hna : ¬ m.next x = some a := by
        rw [hnext]
        intro he
        exact ha (by simp [List.mem_of_head? he])
      rw [pprev_remove hk, if_neg hax, if_neg hna]
      exact h.2.1
    · intro c hc hac
      cases hac
      exact ha hc

theorem remove_isList {m : Mem α} {xs : List α} {x : α} (h : IsList m xs) (hx : x ∈ xs) :
    IsList (initNode (unlink m x) x) (xs.erase x) := by
  obtain ⟨as, bs, rfl⟩ := List.append_of_mem hx
  have hnd := h.nodup
  have hxa : x ∉ as := fun ha => (List.nodup_append.mp hnd).2.2 x ha x (by simp) rfl
  rw [List.erase_append_right _ hxa, List.erase_cons_head]
  refine ⟨h.seg.remove hnd (by simp), ?_⟩
  exact (List.nodup_cons.mp (List.nodup_middle.mp hnd)).2

end

/-- The last node pointed at by the head is the only one. -/
theorem singular_iff {m : Mem α} {xs : List α} {x : α} (h : IsList m xs) (hx : x ∈ xs) :
    (m.next x = none ∧ m.pprev x = some .head) ↔ xs = [x] := by
  obtain ⟨as, bs, rfl⟩ := List.append_of_mem hx
  obtain ⟨-, hk, hbs⟩ := h.seg.mid
  have hnext : m.next x = bs.head? := hbs.next_eq_head?
  rw [hk, hnext]
  constructor
  · rintro ⟨hb, hl⟩
    have hbs' : bs = [] := List.head?_eq_none_iff.mp hb
    rcases lastLink_cases (.head : Link α) as with ⟨rfl, -⟩ | ⟨b, -, he⟩
    · simp [hbs']
    · rw [he] at hl
      cases hl
  · intro he
    have hlen := congrArg List.length he
    simp only [List.length_append, List.length_cons, List.length_nil] at hlen
    obtain rfl : as = [] := List.eq_nil_of_length_eq_zero (by omega)
    obtain rfl : bs = [] := List.eq_nil_of_length_eq_zero (by omega)
    simp [lastLink]

/-! ## Traversal -/

/-- Walk from a node to the first one satisfying `p`; `none` when the fuel runs out. -/
def findFrom (m : Mem α) (p : α → Bool) : ℕ → Option α → Option (Option α)
  | 0, _ => none
  | _ + 1, none => some none
  | fuel + 1, some a => if p a then some (some a) else findFrom m p fuel (m.next a)

theorem Seg.findFrom {m : Mem α} {l : Link α} {xs : List α} (p : α → Bool) (h : Seg m l xs)
    {fuel : ℕ} (hf : xs.length < fuel) : findFrom m p fuel (m.load l) = some (xs.find? p) := by
  induction xs generalizing l fuel with
  | nil =>
    obtain ⟨fuel, rfl⟩ : ∃ n, fuel = n + 1 := ⟨fuel - 1, by omega⟩
    rw [show m.load l = none from h]
    rfl
  | cons x xs ih =>
    obtain ⟨fuel, rfl⟩ : ∃ n, fuel = n + 1 := ⟨fuel - 1, by omega⟩
    rw [h.1, HList.findFrom, List.find?_cons]
    cases hp : p x with
    | true => simp
    | false =>
      simp only [Bool.false_eq_true, if_false]
      exact ih h.2.2 (by simpa using hf)

/-- Any walk that ends gives the same answer, whatever its fuel. -/
theorem Seg.findFrom_unique {m : Mem α} {l : Link α} {xs : List α} {p : α → Bool}
    (h : Seg m l xs) {fuel : ℕ} {r : Option α} (hr : HList.findFrom m p fuel (m.load l) = some r) :
    r = xs.find? p := by
  induction fuel generalizing l xs with
  | zero => simp [HList.findFrom] at hr
  | succ fuel ih =>
    cases xs with
    | nil =>
      rw [show m.load l = none from h, HList.findFrom, Option.some.injEq] at hr
      simp [← hr]
    | cons x xs =>
      rw [h.1, HList.findFrom] at hr
      cases hp : p x with
      | true =>
        rw [if_pos hp, Option.some.injEq] at hr
        simp [← hr, hp]
      | false =>
        rw [if_neg (by simp [hp])] at hr
        rw [List.find?_cons_of_neg (by simp [hp])]
        exact ih h.2.2 hr

end BpfVerify.HList
