import Mathlib

/-!
# Circular doubly linked lists

A ring is a list head followed by distinct nodes, each linked both ways with its neighbours
and the last one with the head again. Several rings share one memory; a node is moved between
them by relinking its neighbours.
-/
namespace BpfVerify.ListRing

variable {α : Type*}

/-- The two link fields of every address; `none` is NULL. -/
structure Links (α : Type*) where
  next : α → Option α
  prev : α → Option α

/-- `b` follows `a`, and both fields say so. -/
def Links.Adj (m : Links α) (a b : α) : Prop := m.next a = some b ∧ m.prev b = some a

/-- The ring of head `h` holds exactly the nodes `xs`, in order. -/
structure IsRing (m : Links α) (h : α) (xs : List α) : Prop where
  chain : List.IsChain m.Adj (h :: (xs ++ [h]))
  nodup : (h :: xs).Nodup

namespace IsRing

variable {m : Links α} {h : α} {xs as bs : List α} {x : α}

lemma mid (hr : IsRing m h (as ++ x :: bs)) :
    List.IsChain m.Adj (h :: as) ∧ List.IsChain m.Adj (bs ++ [h]) ∧
      m.Adj ((h :: as).getLast (by simp)) x ∧ m.Adj x ((bs ++ [h]).head (by simp)) := by
  have hc := hr.chain
  have he : h :: (as ++ x :: bs ++ [h]) = (h :: as) ++ (x :: (bs ++ [h])) := by simp
  rw [he, List.isChain_append] at hc
  obtain ⟨ha, hxb, hlink⟩ := hc
  have hb := List.isChain_cons.mp hxb
  refine ⟨ha, hb.2, ?_, ?_⟩
  · exact hlink _ (List.getLast_mem_getLast? _) x (by simp)
  · exact hb.1 _ (List.head_mem_head? _)

lemma prev_mid (hr : IsRing m h (as ++ x :: bs)) :
    m.prev x = some ((h :: as).getLast (by simp)) :=
  hr.mid.2.2.1.2

lemma next_mid (hr : IsRing m h (as ++ x :: bs)) :
    m.next x = some ((bs ++ [h]).head (by simp)) :=
  hr.mid.2.2.2.1

lemma prev_head (hr : IsRing m h xs) : m.prev h = some ((h :: xs).getLast (by simp)) := by
  have hc := hr.chain
  rw [← List.cons_append, List.isChain_append] at hc
  exact (hc.2.2 _ (List.getLast_mem_getLast? _) h (by simp)).2

lemma next_head (hr : IsRing m h xs) : m.next h = some ((xs ++ [h]).head (by simp)) :=
  ((List.isChain_cons.mp hr.chain).1 _ (List.head_mem_head? _)).1

lemma notMem (hr : IsRing m h xs) : h ∉ xs := (List.nodup_cons.mp hr.nodup).1

lemma nodup_nodes (hr : IsRing m h xs) : xs.Nodup := (List.nodup_cons.mp hr.nodup).2

/-- Read from any of its addresses, the ring comes back to it from the last one. -/
lemma prev_rotated (hr : IsRing m h xs) (hrot : (h :: xs) ~r (x :: bs)) :
    m.prev x = some ((x :: bs).getLast (by simp)) := by
  have hc : Cycle.Chain m.Adj ((h :: xs : List α) : Cycle α) := hr.chain
  rw [Cycle.coe_eq_coe.mpr hrot, Cycle.chain_coe_cons, ← List.cons_append,
    List.isChain_append] at hc
  exact (hc.2.2 _ (List.getLast_mem_getLast? _) x (by simp)).2

lemma next_rotated (hr : IsRing m h xs) (hrot : (h :: xs) ~r (x :: bs)) :
    m.next x = some ((bs ++ [x]).head (by simp)) := by
  have hc : Cycle.Chain m.Adj ((h :: xs : List α) : Cycle α) := hr.chain
  rw [Cycle.coe_eq_coe.mpr hrot, Cycle.chain_coe_cons] at hc
  exact ((List.isChain_cons.mp hc).1 _ (List.head_mem_head? _)).1

end IsRing

/-- A cycle without some of its entries is the same cycle wherever it is read from. -/
lemma isRotated_filter {l l' : List α} (h : l ~r l') (p : α → Bool) :
    l.filter p ~r l'.filter p := by
  obtain ⟨n, hn, rfl⟩ := List.isRotated_iff_mod.mp h
  have hsplit : l.filter p = (l.take n).filter p ++ (l.drop n).filter p := by
    rw [← List.filter_append, List.take_append_drop]
  rw [List.rotate_eq_drop_append_take hn, List.filter_append, hsplit]
  exact List.isRotated_append

lemma nodup_rotate {h : α} {xs : List α} (hn : (h :: xs).Nodup) : (xs ++ [h]).Nodup :=
  List.nodup_middle.mpr (by simpa using hn)

section
variable {τ : Type*}

/-- One ring for every index, with no address in two of them. -/
structure Rings (m : Links α) (head : τ → α) (L : τ → List α) : Prop where
  ring : ∀ t, IsRing m (head t) (L t)
  apart : ∀ s t a, a ∈ head s :: L s → a ∈ head t :: L t → s = t

variable {m : Links α} {head : τ → α} {L : τ → List α}

lemma Rings.notMem_of_ne (h : Rings m head L) {s t : τ} (hst : t ≠ s) {a : α}
    (ha : a ∈ head s :: L s) : a ∉ head t :: L t :=
  fun hm => hst (h.apart t s a hm ha)

/-- Fields of an address in no ring are free. -/
lemma Rings.congr (h : Rings m head L) {m' : Links α}
    (hn : ∀ t, ∀ a ∈ head t :: L t, m'.next a = m.next a ∧ m'.prev a = m.prev a) :
    Rings m' head L := by
  refine ⟨fun t => ⟨?_, (h.ring t).nodup⟩, h.apart⟩
  refine (h.ring t).chain.imp_of_mem_imp fun a b ha hb hab => ?_
  have hmem : ∀ c ∈ head t :: (L t ++ [head t]), c ∈ head t :: L t := by
    intro c hc
    simp only [List.mem_cons, List.mem_append, List.not_mem_nil, or_false] at hc ⊢
    tauto
  exact ⟨(hn t a (hmem a ha)).1.trans hab.1, (hn t b (hmem b hb)).2.trans hab.2⟩

end

/-! ## Relinking -/

section
variable [DecidableEq α]

def Links.setNext (m : Links α) (a : α) (b : Option α) : Links α :=
  { m with next := Function.update m.next a b }

def Links.setPrev (m : Links α) (a : α) (b : Option α) : Links α :=
  { m with prev := Function.update m.prev a b }

/-- Make `b` the neighbour after `a`. -/
def Links.link (m : Links α) (a b : α) : Links α := (m.setNext a (some b)).setPrev b (some a)

lemma Links.link_adj (m : Links α) (a b : α) : (m.link a b).Adj a b := by
  simp [Links.link, Links.Adj, Links.setNext, Links.setPrev]

lemma Links.Adj.link {m : Links α} {a b p n : α} (h : m.Adj a b) (hp : a ≠ p) (hn : b ≠ n) :
    (m.link p n).Adj a b := by
  simpa [Links.link, Links.Adj, Links.setNext, Links.setPrev, hp, hn] using h

/-- A chain keeps its links when `p` does not start one of them and `n` does not end one. -/
lemma isChain_link {m : Links α} {l : List α} {p n : α} (h : List.IsChain m.Adj l)
    (hp : p ∉ l.dropLast) (hn : n ∉ l.tail) : List.IsChain (m.link p n).Adj l := by
  induction l with
  | nil => exact .nil
  | cons a l ih =>
    cases l with
    | nil => exact .singleton a
    | cons b l =>
      simp only [List.dropLast_cons_cons, List.mem_cons, not_or, List.tail_cons] at hp hn
      obtain ⟨hab, hl⟩ := List.isChain_cons_cons.mp h
      refine List.isChain_cons_cons.mpr ⟨hab.link (Ne.symm hp.1) (Ne.symm hn.1), ih hl hp.2 ?_⟩
      simpa using hn.2

lemma IsRing.link_of_notMem {m : Links α} {h p n : α} {xs : List α} (hr : IsRing m h xs)
    (hp : p ∉ h :: xs) (hn : n ∉ h :: xs) : IsRing (m.link p n) h xs := by
  refine ⟨isChain_link hr.chain ?_ ?_, hr.nodup⟩
  · rw [← List.cons_append, List.dropLast_concat]
    exact hp
  · simp only [List.mem_cons, not_or] at hn
    simp [hn.1, hn.2]

/-- Relinking the neighbours of a node takes it out of its ring. -/
theorem IsRing.remove {m : Links α} {h x : α} {as bs : List α} (hr : IsRing m h (as ++ x :: bs)) :
    IsRing (m.link ((h :: as).getLast (by simp)) ((bs ++ [h]).head (by simp))) h (as ++ bs) := by
  obtain ⟨ha, hb, -, -⟩ := hr.mid
  obtain ⟨hh, hnd⟩ := List.nodup_cons.mp hr.nodup
  have hperm := List.nodup_cons.mp (List.nodup_middle.mp hnd)
  have hdisj := List.nodup_append.mp hperm.2
  simp only [List.mem_append, List.mem_cons, not_or] at hh
  have hsplit : h :: (as ++ bs ++ [h]) = (h :: as) ++ (bs ++ [h]) := by simp
  refine ⟨?_, List.nodup_cons.mpr ⟨by simp [hh], hperm.2⟩⟩
  rw [hsplit, List.isChain_append]
  have hlast : (h :: as).getLast (by simp) ∈ h :: as := List.getLast_mem _
  have hhead : (bs ++ [h]).head (by simp) ∈ bs ++ [h] := List.head_mem _
  refine ⟨isChain_link ha ?_ ?_, isChain_link hb ?_ ?_, ?_⟩
  · -- the last element of a duplicate-free list is not an earlier one
    have hnda : (h :: as).Nodup := List.nodup_cons.mpr ⟨hh.1, hdisj.1⟩
    rw [← List.dropLast_append_getLast (by simp : h :: as ≠ []), List.nodup_append] at hnda
    exact fun hm => hnda.2.2 _ hm _ (by simp) rfl
  · intro hm
    rw [List.tail_cons] at hm
    rcases List.mem_append.mp hhead with hb' | hb'
    · exact hdisj.2.2 _ hm _ hb' rfl
    · rw [List.mem_singleton.mp hb'] at hm
      exact hh.1 hm
  · rw [List.dropLast_concat]
    intro hm
    rcases List.mem_cons.mp hlast with he | ha'
    · rw [he] at hm
      exact hh.2.2 hm
    · exact hdisj.2.2 _ ha' _ hm rfl
  · have hndb : (bs ++ [h]).Nodup := nodup_rotate (List.nodup_cons.mpr ⟨hh.2.2, hdisj.2.1⟩)
    rw [← List.cons_head_tail (by simp : bs ++ [h] ≠ []), List.nodup_cons] at hndb
    exact hndb.1
  · intro a ha' b hb'
    rw [List.getLast?_eq_getLast_of_ne_nil (by simp), Option.mem_some_iff] at ha'
    rw [List.head?_eq_some_head (by simp), Option.mem_some_iff] at hb'
    subst a b
    exact m.link_adj _ _

/-- Two relinks put a new node right after the head. -/
theorem IsRing.insert {m : Links α} {h x : α} {xs : List α} (hr : IsRing m h xs)
    (hx : x ∉ h :: xs) :
    IsRing ((m.link x ((xs ++ [h]).head (by simp))).link h x) h (x :: xs) := by
  have hhead : (xs ++ [h]).head (by simp) ∈ xs ++ [h] := List.head_mem _
  have hnd : (xs ++ [h]).Nodup := nodup_rotate hr.nodup
  simp only [List.mem_cons, not_or] at hx
  have hrest : List.IsChain m.Adj (xs ++ [h]) := (List.isChain_cons.mp hr.chain).2
  have htail : (xs ++ [h]).head (by simp) ∉ (xs ++ [h]).tail := by
    rw [← List.cons_head_tail (by simp : xs ++ [h] ≠ []), List.nodup_cons] at hnd
    simpa using hnd.1
  have hfirst : List.IsChain (m.link x ((xs ++ [h]).head (by simp))).Adj (x :: (xs ++ [h])) := by
    refine List.isChain_cons.mpr ⟨fun y hy => ?_, isChain_link hrest ?_ htail⟩
    · rw [List.head?_eq_some_head (by simp), Option.mem_some_iff] at hy
      subst y
      exact m.link_adj _ _
    · rw [List.dropLast_concat]
      exact hx.2
  refine ⟨?_, ?_⟩
  · change List.IsChain _ (h :: x :: (xs ++ [h]))
    refine List.isChain_cons_cons.mpr ⟨Links.link_adj _ _ _, isChain_link hfirst ?_ ?_⟩
    · rw [← List.cons_append, List.dropLast_concat]
      simpa using ⟨Ne.symm hx.1, hr.notMem⟩
    · simp only [List.tail_cons, List.mem_append, List.mem_singleton, not_or]
      exact ⟨hx.2, hx.1⟩
  · rw [List.nodup_cons]
    exact ⟨by simpa using ⟨Ne.symm hx.1, hr.notMem⟩, List.nodup_cons.mpr ⟨hx.2, hr.nodup_nodes⟩⟩

/-! ## Several rings in one memory -/

section
variable {τ : Type*}

variable {m : Links α} {head : τ → α} {L : τ → List α}

/-- Unlinking a node erases it from the one ring that has it. -/
theorem Rings.remove (h : Rings m head L) {s : τ} {x : α} (hx : x ∈ L s) :
    ∃ p n, m.prev x = some p ∧ m.next x = some n ∧
      Rings (m.link p n) head (fun t => (L t).erase x) := by
  obtain ⟨as, bs, he⟩ := List.append_of_mem hx
  have hring := h.ring s
  rw [he] at hring
  refine ⟨_, _, hring.prev_mid, hring.next_mid, ?_, ?_⟩
  · intro t
    have hlast : (head s :: as).getLast (by simp) ∈ head s :: as := List.getLast_mem _
    have hhead : (bs ++ [head s]).head (by simp) ∈ bs ++ [head s] := List.head_mem _
    by_cases hts : t = s
    · subst hts
      have hxa : x ∉ as := fun ha =>
        (List.nodup_append.mp hring.nodup_nodes).2.2 x ha x (by simp) rfl
      rw [he, List.erase_append_right _ hxa, List.erase_cons_head]
      exact hring.remove
    · have hxt : x ∉ L t := fun hm => hts (h.apart t s x (by simp [hm]) (by simp [hx]))
      rw [List.erase_of_not_mem hxt]
      refine (h.ring t).link_of_notMem (h.notMem_of_ne hts ?_) (h.notMem_of_ne hts ?_)
      · rw [he]
        simp only [List.mem_cons, List.mem_append] at hlast ⊢
        tauto
      · rw [he]
        simp only [List.mem_cons, List.mem_append, List.not_mem_nil, or_false] at hhead ⊢
        tauto
  · intro t t' a ha ha'
    have hsub : ∀ u, a ∈ head u :: (L u).erase x → a ∈ head u :: L u := by
      intro u hu
      rcases List.mem_cons.mp hu with hu | hu
      · simp [hu]
      · simp [List.mem_of_mem_erase hu]
    exact h.apart t t' a (hsub t ha) (hsub t' ha')

/-- Linking a node of no ring behind a head adds it to that ring. -/
theorem Rings.insert [DecidableEq τ] (h : Rings m head L) {x : α}
    (hx : ∀ s, x ∉ head s :: L s) (t : τ) :
    ∃ n, m.next (head t) = some n ∧
      Rings ((m.link x n).link (head t) x) head (Function.update L t (x :: L t)) := by
  have hhead : (L t ++ [head t]).head (by simp) ∈ L t ++ [head t] := List.head_mem _
  refine ⟨_, (h.ring t).next_head, ?_, ?_⟩
  · intro s
    by_cases hst : s = t
    · subst hst
      rw [Function.update_self]
      exact (h.ring s).insert (hx s)
    · rw [Function.update_of_ne hst]
      have hfirst : (L t ++ [head t]).head (by simp) ∉ head s :: L s := by
        apply h.notMem_of_ne hst
        rcases List.mem_append.mp hhead with hm | hm
        · exact List.mem_cons_of_mem _ hm
        · exact List.mem_cons.mpr (.inl (List.mem_singleton.mp hm))
      have hself : head t ∉ head s :: L s := h.notMem_of_ne hst (by simp)
      exact ((h.ring s).link_of_notMem (hx s) hfirst).link_of_notMem hself (hx s)
  · intro s s' a ha ha'
    have hsub : ∀ u, a ∈ head u :: Function.update L t (x :: L t) u →
        (a = x ∧ u = t) ∨ a ∈ head u :: L u := by
      intro u hu
      by_cases hut : u = t
      · subst hut
        simp only [Function.update_self, List.mem_cons] at hu ⊢
        tauto
      · rw [Function.update_of_ne hut] at hu
        exact .inr hu
    rcases hsub s ha with ⟨hax, hs⟩ | hs <;> rcases hsub s' ha' with ⟨hax', hs'⟩ | hs'
    · rw [hs, hs']
    · exact absurd (hax ▸ hs') (hx s')
    · exact absurd (hax' ▸ hs) (hx s)
    · exact h.apart s s' a hs hs'

/-- Unlinked and linked in again, a node changes rings. -/
theorem Rings.move [DecidableEq τ] (h : Rings m head L) {s : τ} {x : α} (hx : x ∈ L s) (t : τ) :
    ∃ p n n', m.prev x = some p ∧ m.next x = some n ∧ (m.link p n).next (head t) = some n' ∧
      Rings (((m.link p n).link x n').link (head t) x) head
        (fun k => if k = t then x :: (L k).erase x else (L k).erase x) := by
  obtain ⟨p, n, hp, hn, hr⟩ := h.remove hx
  have hfree : ∀ k, x ∉ head k :: (L k).erase x := by
    intro k hk
    rcases List.mem_cons.mp hk with rfl | hk
    · obtain rfl := h.apart k s (head k) (by simp) (by simp [hx])
      exact (h.ring k).notMem hx
    · exact (h.ring k).nodup_nodes.not_mem_erase hk
  obtain ⟨n', hn', hr'⟩ := hr.insert hfree t
  refine ⟨p, n, n', hp, hn, hn', ?_⟩
  convert hr' using 1
  funext k
  by_cases hk : k = t
  · subst hk
    simp
  · simp [hk]

end

end

end BpfVerify.ListRing
