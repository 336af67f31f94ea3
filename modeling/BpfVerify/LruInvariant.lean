import BpfVerify.LruList

/-!
# What the LRU operations keep

`L t` is the list of nodes on list `t`, in order. Every function of the LRU code takes a state
that represents some lists to a state that represents the lists its comments promise, and its
loops end.
-/
namespace BpfVerify.LruList
open ListRing Word

/-- The nodes on each list, in order. -/
abbrev Lists := ListType → List ℕ

/-- `node` in front of list `t`. -/
def Lists.push (L : Lists) (node : ℕ) (t : ListType) : Lists :=
  Function.update L t (node :: L t)

def Lists.remove (L : Lists) (node : ℕ) : Lists := fun t => (L t).erase node

def Lists.move (L : Lists) (node : ℕ) (t : ListType) : Lists := (L.remove node).push node t

/-- The addresses of the circular list of `t`. -/
def Lists.ring (L : Lists) (t : ListType) : List Addr := .head t :: (L t).map .node

/-- The memory holds the five lists. -/
def Linked (m : Mem) (L : Lists) : Prop := Rings m Addr.head (fun t => (L t).map Addr.node)

lemma node_injective : Function.Injective Addr.node := fun _ _ h => Addr.node.inj h

lemma Lists.map_remove (L : Lists) (node : ℕ) :
    (fun t => (L.remove node t).map Addr.node) =
      fun t => ((L t).map Addr.node).erase (.node node) := by
  funext t
  exact List.map_erase node_injective (L t)

lemma Lists.map_push (L : Lists) (node : ℕ) (t : ListType) :
    (fun s => (L.push node t s).map Addr.node) =
      Function.update (fun s => (L s).map Addr.node) t (.node node :: (L t).map .node) := by
  funext s
  by_cases hs : s = t
  · subst hs
    simp [Lists.push]
  · simp [Lists.push, hs]

@[simp] lemma Lists.move_self (L : Lists) (node : ℕ) (t : ListType) :
    L.move node t t = node :: (L t).erase node := by
  simp [Lists.move, Lists.push, Lists.remove]

lemma Lists.move_of_ne (L : Lists) (node : ℕ) {s t : ListType} (h : s ≠ t) :
    L.move node t s = (L s).erase node := by
  simp [Lists.move, Lists.push, Lists.remove, h]

/-! ## List primitives -/

section
variable {m : Mem} {L : Lists} {node : ℕ}

lemma listDelBetween_linked (h : Linked m L) {s : ListType} (hs : node ∈ L s) :
    ∃ p n, m.prev (.node node) = some p ∧ m.next (.node node) = some n ∧
      Linked (listDelBetween m p n) (L.remove node) := by
  obtain ⟨p, n, hp, hn, hr⟩ := Rings.remove h (s := s) (x := .node node)
    (List.mem_map_of_mem hs)
  refine ⟨p, n, hp, hn, ?_⟩
  rw [Linked, Lists.map_remove]
  exact hr

lemma listAdd_linked (h : Linked m L) (hnode : ∀ s, node ∉ L s) (t : ListType) :
    ∃ m', listAdd m (.node node) (.head t) = some m' ∧ Linked m' (L.push node t) := by
  obtain ⟨n, hn, hr⟩ := Rings.insert h (x := .node node) (by simpa using hnode) t
  refine ⟨_, by rw [listAdd, hn]; rfl, ?_⟩
  rw [Linked, Lists.map_push]
  exact hr

lemma Lists.notMem_remove (h : Linked m L) (s : ListType) : node ∉ L.remove node s := by
  have hnd : (L s).Nodup := List.Nodup.of_map _ (h.ring s).nodup_nodes
  exact hnd.not_mem_erase

theorem listMove_linked (h : Linked m L) {s : ListType} (hs : node ∈ L s) (t : ListType) :
    ∃ m', listMove m (.node node) (.head t) = some m' ∧ Linked m' (L.move node t) := by
  obtain ⟨p, n, hp, hn, hdel⟩ := listDelBetween_linked h hs
  obtain ⟨m', hadd, hm'⟩ := listAdd_linked hdel (Lists.notMem_remove h) t
  exact ⟨m', by rw [listMove, hp, hn]; exact hadd, hm'⟩

theorem listDel_linked (h : Linked m L) {s : ListType} (hs : node ∈ L s) :
    ∃ m', listDel m (.node node) = some m' ∧ Linked m' (L.remove node) := by
  obtain ⟨p, n, hp, hn, hdel⟩ := listDelBetween_linked h hs
  refine ⟨_, by rw [listDel, hp, hn]; rfl, Rings.congr hdel fun t a ha => ?_⟩
  -- the poisoned fields belong to the removed node
  have hne : a ≠ .node node := by
    rintro rfl
    simp only [List.mem_cons, reduceCtorEq, List.mem_map, Addr.node.injEq, exists_eq_right,
      false_or] at ha
    exact Lists.notMem_remove h t ha
  simp [Links.setNext, Links.setPrev, hne]

lemma Linked.listEmpty_iff (h : Linked m L) (t : ListType) :
    listEmpty m (.head t) = true ↔ L t = [] := by
  have hn := (h.ring t).next_head
  cases hL : L t with
  | nil => simp [listEmpty, hn, hL]
  | cons a l => simp [listEmpty, hn, hL]

lemma Linked.listFirst (h : Linked m L) (t : ListType) :
    listFirstEntryOrNull m (.head t) = some (L t).head? := by
  have he := h.listEmpty_iff t
  have hn := (h.ring t).next_head
  cases hL : L t with
  | nil => simp [listFirstEntryOrNull, he.mpr hL]
  | cons a l =>
    have hne : ¬ listEmpty m (.head t) = true := by simp [he, hL]
    simp [listFirstEntryOrNull, hne, hn, hL, listEntry]

end

/-! ## The invariant -/

/-- The lists hold the nodes below `n`, each on the list its type names; the two counters are
lengths, and the cursor is on the inactive list or its head. -/
structure Inv (n : ℕ) (s : State) (L : Lists) : Prop where
  bound : n < 2 ^ 32
  linked : Linked s.links L
  mem : ∀ t i, i ∈ L t ↔ i < n ∧ s.type i = t
  counts : ∀ t, t.toNat < nrListCount → s.counts t = (L t).length
  cursor : ∃ a ∈ L.ring .inactive, s.nextInactiveRotation = some a
  percpu : s.percpu = false

section
variable {n : ℕ} {s : State} {L : Lists}

lemma Inv.mem_own (h : Inv n s L) {i : ℕ} (hi : i < n) : i ∈ L (s.type i) :=
  (h.mem _ _).mpr ⟨hi, rfl⟩

lemma Inv.nodup (h : Inv n s L) (t : ListType) : (L t).Nodup :=
  List.Nodup.of_map _ (h.linked.ring t).nodup_nodes

lemma Inv.length_le (h : Inv n s L) (t : ListType) : (L t).length ≤ n := by
  have hsub : L t ⊆ List.range n := fun i hi => List.mem_range.mpr ((h.mem t i).mp hi).1
  simpa using ((h.nodup t).subperm hsub).length_le

/-- A list without one of the nodes has room for it. -/
lemma Inv.length_lt (h : Inv n s L) {i : ℕ} {t : ListType} (hi : i < n) (ht : s.type i ≠ t) :
    (L t).length < n := by
  have hnd : (i :: L t).Nodup :=
    List.nodup_cons.mpr ⟨fun hm => ht ((h.mem t i).mp hm).2, h.nodup t⟩
  have hsub : i :: L t ⊆ List.range n := by
    intro j hj
    rw [List.mem_range]
    rcases List.mem_cons.mp hj with rfl | hj
    · exact hi
    · exact ((h.mem t j).mp hj).1
  simpa using (hnd.subperm hsub).length_le

lemma Lists.mem_move_iff (h : Inv n s L) {i : ℕ} (hi : i < n) (t t' : ListType) (j : ℕ) :
    j ∈ L.move i t t' ↔ j < n ∧ Function.update s.type i t j = t' := by
  have herase : j ∈ (L t').erase i ↔ j ≠ i ∧ j ∈ L t' := (h.nodup t').mem_erase_iff
  by_cases hj : j = i
  · subst hj
    by_cases ht : t' = t
    · subst ht
      simp [hi]
    · rw [Lists.move_of_ne L j ht, herase]
      simp [Ne.symm ht]
  · have hold := h.mem t' j
    rw [Function.update_of_ne hj, ← hold]
    by_cases ht : t' = t
    · subst ht
      simp [herase, hj]
    · rw [Lists.move_of_ne L i ht, herase]
      simp [hj]

lemma Lists.length_move (h : Inv n s L) {i : ℕ} (hi : i < n) (t t' : ListType) :
    (L.move i t t').length + (if s.type i = t' then 1 else 0) =
      (L t').length + (if t' = t then 1 else 0) := by
  have herase : ((L t').erase i).length + (if s.type i = t' then 1 else 0) = (L t').length := by
    by_cases ht : s.type i = t'
    · have hm : i ∈ L t' := (h.mem t' i).mpr ⟨hi, ht⟩
      have hpos : 0 < (L t').length := List.length_pos_of_mem hm
      rw [List.length_erase_of_mem hm, if_pos ht]
      omega
    · have hm : i ∉ L t' := fun hm => ht ((h.mem t' i).mp hm).2
      rw [List.erase_of_not_mem hm, if_neg ht, Nat.add_zero]
  by_cases ht : t' = t
  · subst ht
    simp only [Lists.move_self, List.length_cons, if_true]
    omega
  · rw [Lists.move_of_ne L i ht, if_neg ht]
    omega

lemma Lists.ring_move_of_remove {i : ℕ} {t t' : ListType} {a : Addr}
    (ha : a ∈ (L.remove i).ring t') : a ∈ (L.move i t).ring t' := by
  by_cases ht : t' = t
  · subst ht
    simp only [Lists.ring, Lists.remove, List.mem_cons, List.mem_map, Lists.move_self,
      List.map_cons] at ha ⊢
    tauto
  · simpa only [Lists.ring, Lists.remove, Lists.move_of_ne L i ht] using ha

/-! ## Moves -/

lemma Linked.prev_node {m : Mem} (h : Linked m L) {i : ℕ} {t : ListType} (hi : i ∈ L t) :
    ∃ a ∈ (L.remove i).ring t, m.prev (.node i) = some a := by
  obtain ⟨as, bs, he⟩ := List.append_of_mem hi
  have hr := h.ring t
  simp only [he, List.map_append, List.map_cons] at hr
  refine ⟨_, ?_, hr.prev_mid⟩
  have hia : i ∉ as := fun ha => by
    have hnd : (as ++ i :: bs).Nodup := he ▸ List.Nodup.of_map _ (h.ring t).nodup_nodes
    exact (List.nodup_append.mp hnd).2.2 i ha i (by simp) rfl
  rw [Lists.ring, Lists.remove, he, List.erase_append_right _ hia, List.erase_cons_head]
  have hlast := List.getLast_mem (show Addr.head t :: as.map Addr.node ≠ [] by simp)
  simp only [List.mem_cons, List.map_append, List.mem_append] at hlast ⊢
  tauto

lemma fixCursor_cursor (h : Inv n s L) {i : ℕ} {s₁ : State} (hl : s₁.links = s.links)
    (hc : s₁.nextInactiveRotation = s.nextInactiveRotation) :
    ∃ a ∈ (L.remove i).ring .inactive, (fixCursor s₁ i).nextInactiveRotation = some a := by
  obtain ⟨a, ha, hcur⟩ := h.cursor
  rw [fixCursor, hc, hcur, hl]
  by_cases hai : a = .node i
  · have hi : i ∈ L .inactive := by
      simpa [Lists.ring, hai] using ha
    simpa [hai] using h.linked.prev_node hi
  · refine ⟨a, ?_, by rw [if_neg (by simpa using hai), hc, hcur]⟩
    simp only [Lists.ring, List.mem_cons, List.mem_map] at ha ⊢
    rcases ha with ha | ⟨j, hj, rfl⟩
    · exact .inl ha
    · have hji : j ≠ i := fun he => hai (by rw [he])
      exact .inr ⟨j, (List.mem_erase_of_ne hji).mpr hj, rfl⟩

@[simp] lemma fixCursor_links (s : State) (i : ℕ) : (fixCursor s i).links = s.links := by
  unfold fixCursor; split <;> rfl

@[simp] lemma fixCursor_type (s : State) (i : ℕ) : (fixCursor s i).type = s.type := by
  unfold fixCursor; split <;> rfl

@[simp] lemma fixCursor_counts (s : State) (i : ℕ) : (fixCursor s i).counts = s.counts := by
  unfold fixCursor; split <;> rfl

/-- A counter update leaves everything but the counters alone. -/
lemma bpfLruListCountInc_eq (s : State) (t : ListType) :
    ∃ c, bpfLruListCountInc s t = { s with counts := c } ∧ ∀ t', c t' =
      if t' = t ∧ t.toNat < nrListCount then u32 (s.counts t' + 1) else s.counts t' := by
  by_cases ht : t.toNat < nrListCount
  · refine ⟨_, by rw [bpfLruListCountInc, if_pos ht], fun t' => ?_⟩
    by_cases he : t' = t
    · subst he
      simp [ht]
    · simp [he]
  · exact ⟨s.counts, by rw [bpfLruListCountInc, if_neg ht], fun t' => by simp [ht]⟩

lemma bpfLruListCountDec_eq (s : State) (t : ListType) :
    ∃ c, bpfLruListCountDec s t = { s with counts := c } ∧ ∀ t', c t' =
      if t' = t ∧ t.toNat < nrListCount then sub32 (s.counts t') 1 else s.counts t' := by
  by_cases ht : t.toNat < nrListCount
  · refine ⟨_, by rw [bpfLruListCountDec, if_pos ht], fun t' => ?_⟩
    by_cases he : t' = t
    · subst he
      simp [ht]
    · simp [he]
  · exact ⟨s.counts, by rw [bpfLruListCountDec, if_neg ht], fun t' => by simp [ht]⟩

/-- A counter that follows a list of `l` nodes tells its new length `l'` after a move from list
`o` to list `t`. -/
lemma counts_moved {o t t' : ListType} {l l' c : ℕ}
    (hlen : l' + (if o = t' then 1 else 0) = l + (if t' = t then 1 else 0))
    (hl : l < 2 ^ 32) (hl' : l' < 2 ^ 32)
    (hc : c = if o = t then l else if t' = t then u32 (l + 1)
      else if t' = o then sub32 l 1 else l) : c = l' := by
  subst hc
  by_cases hot : o = t
  · subst hot
    simp only [eq_comm (a := t')] at hlen
    rw [if_pos rfl]
    omega
  · rw [if_neg hot]
    by_cases he : t' = t
    · subst he
      rw [if_neg hot, if_pos rfl] at hlen
      rw [if_pos rfl, u32_of_lt (by omega)]
      omega
    · rw [if_neg he] at hlen ⊢
      by_cases ho : t' = o
      · subst ho
        rw [if_pos rfl] at hlen
        rw [if_pos rfl, sub32_of_le (by omega) (by omega)]
        omega
      · rw [if_neg (Ne.symm ho)] at hlen
        rw [if_neg ho]
        omega

lemma Inv.counts_move (h : Inv n s L) {i : ℕ} (hi : i < n) (t : ListType) {c : ℕ}
    {t' : ListType} (ht' : t'.toNat < nrListCount)
    (hc : c = if s.type i = t then s.counts t' else if t' = t then u32 (s.counts t' + 1)
      else if t' = s.type i then sub32 (s.counts t') 1 else s.counts t') :
    c = (L.move i t t').length := by
  have hle := h.length_le t'
  have hbound := h.bound
  rw [h.counts t' ht'] at hc
  apply counts_moved (Lists.length_move h hi t t') (by omega) ?_ hc
  have hl := Lists.length_move h hi t t'
  by_cases hty : s.type i = t'
  · rw [if_pos hty] at hl
    split at hl <;> omega
  · have hlt := h.length_lt hi hty
    rw [if_neg hty] at hl
    split at hl <;> omega

/-- The common end of all moves: with the node relinked and type, counters and cursor set for
the target list, the invariant is back. -/
lemma Inv.relink (h : Inv n s L) {i : ℕ} (hi : i < n) (t : ListType) {s₁ : State}
    (hl : Linked s₁.links (L.move i t)) (ht : s₁.type = Function.update s.type i t)
    (hc : ∀ t', t'.toNat < nrListCount → s₁.counts t' = (L.move i t t').length)
    (hcur : ∃ a ∈ (L.remove i).ring .inactive, s₁.nextInactiveRotation = some a)
    (hp : s₁.percpu = s.percpu) : Inv n s₁ (L.move i t) := by
  obtain ⟨a, ha, hcur⟩ := hcur
  exact {
    bound := h.bound
    linked := hl
    mem := fun t' j => by
      rw [ht]
      exact Lists.mem_move_iff h hi t t' j
    counts := hc
    cursor := ⟨a, Lists.ring_move_of_remove ha, hcur⟩
    percpu := hp.trans h.percpu }

lemma Inv.moveLinks (h : Inv n s L) {i : ℕ} (hi : i < n) (t : ListType) {s₁ : State}
    (hl : s₁.links = s.links) (ht : s₁.type = Function.update s.type i t)
    (hc : ∀ t', t'.toNat < nrListCount → s₁.counts t' = (L.move i t t').length)
    (hcur : ∃ a ∈ (L.remove i).ring .inactive, s₁.nextInactiveRotation = some a)
    (hp : s₁.percpu = s.percpu) :
    ∃ s', moveLinks s₁ i (.head t) = some s' ∧ Inv n s' (L.move i t) := by
  obtain ⟨m', hm, hlink⟩ := listMove_linked h.linked (h.mem_own hi) t
  refine ⟨{ s₁ with links := m' }, by rw [LruList.moveLinks, hl, hm]; rfl, ?_⟩
  exact h.relink hi t hlink ht hc hcur hp

/-- Everything `__bpf_lru_node_move` changes. -/
lemma bpfLruNodeMove_eq {s : State} {i : ℕ} {t : ListType} {m' : Mem}
    (hm : listMove s.links (.node i) (.head t) = some m') :
    ∃ c, bpfLruNodeMove s i t = some { s with
        links := m'
        type := Function.update s.type i t
        ref := Function.update s.ref i false
        counts := c
        nextInactiveRotation := (fixCursor s i).nextInactiveRotation } ∧
      ∀ t', t'.toNat < nrListCount → c t' = if s.type i = t then s.counts t'
        else if t' = t then u32 (s.counts t' + 1)
        else if t' = s.type i then sub32 (s.counts t') 1 else s.counts t' := by
  by_cases hty : s.type i = t
  · subst hty
    refine ⟨s.counts, ?_, fun t' _ => by rw [if_pos rfl]⟩
    by_cases hcur : s.nextInactiveRotation = some (.node i)
    · simp [bpfLruNodeMove, warnOnOnce, bpfLruNodeClearRef, fixCursor, hcur,
        LruList.moveLinks, hm]
    · simp [bpfLruNodeMove, warnOnOnce, bpfLruNodeClearRef, fixCursor, hcur,
        LruList.moveLinks, hm]
  · obtain ⟨c, hdec, hc⟩ := bpfLruListCountDec_eq s (s.type i)
    obtain ⟨c', hinc, hc'⟩ := bpfLruListCountInc_eq { s with counts := c } t
    refine ⟨c', ?_, fun t' ht' => ?_⟩
    · simp only [bpfLruNodeMove, warnOnOnce, Bool.or_self, hty, ne_eq, not_false_eq_true,
        if_true, if_false, Bool.false_eq_true, hdec, hinc]
      by_cases hcur : s.nextInactiveRotation = some (.node i)
      · simp [setType, bpfLruNodeClearRef, fixCursor, hcur, LruList.moveLinks, hm]
      · simp [setType, bpfLruNodeClearRef, fixCursor, hcur, LruList.moveLinks, hm]
    · simp only [if_neg hty, hc', hc]
      by_cases he : t' = t
      · subst he
        simp [ht', Ne.symm hty]
      · by_cases ho : t' = s.type i
        · subst ho
          simp [ht', he]
        · simp [he, ho]

theorem bpfLruNodeMove_inv (h : Inv n s L) {i : ℕ} (hi : i < n) (t : ListType) :
    ∃ s', bpfLruNodeMove s i t = some s' ∧ Inv n s' (L.move i t) := by
  obtain ⟨m', hm, hlink⟩ := listMove_linked h.linked (h.mem_own hi) t
  obtain ⟨c, hs', hc⟩ := bpfLruNodeMove_eq hm
  refine ⟨_, hs', h.relink hi t hlink rfl (fun t' ht' => ?_) (fixCursor_cursor h rfl rfl) rfl⟩
  exact h.counts_move hi t ht' (hc t' ht')

/-- A list type without a counter. -/
def uncounted (t : ListType) : Prop := ¬ t.toNat < nrListCount

lemma uncounted_free : uncounted .free := by simp [uncounted, ListType.toNat, nrListCount]

lemma uncounted_localFree : uncounted .localFree := by
  simp [uncounted, ListType.toNat, nrListCount]

lemma uncounted_localPending : uncounted .localPending := by
  simp [uncounted, ListType.toNat, nrListCount]

/-- Everything `__bpf_lru_node_move_to_free` changes. -/
lemma bpfLruNodeMoveToFree_eq {s : State} {i : ℕ} {freeList : Addr} {m' : Mem}
    (hm : listMove s.links (.node i) freeList = some m') (ty : ListType) :
    ∃ c, bpfLruNodeMoveToFree s i freeList ty = some { s with
        links := m'
        type := Function.update s.type i ty
        counts := c
        nextInactiveRotation := (fixCursor s i).nextInactiveRotation } ∧
      ∀ t', t'.toNat < nrListCount →
        c t' = if t' = s.type i then sub32 (s.counts t') 1 else s.counts t' := by
  obtain ⟨c, hdec, hc⟩ := bpfLruListCountDec_eq (fixCursor s i) (s.type i)
  refine ⟨c, ?_, fun t' ht' => ?_⟩
  · simp only [bpfLruNodeMoveToFree, warnOnOnce, if_false, Bool.false_eq_true, fixCursor_type,
      hdec, LruList.moveLinks, setType, fixCursor_links, hm]
    by_cases hcur : s.nextInactiveRotation = some (.node i)
    · simp [fixCursor, hcur]
    · simp [fixCursor, hcur]
  · rw [hc, fixCursor_counts]
    by_cases ho : t' = s.type i
    · subst ho
      simp [ht']
    · simp [ho]

theorem bpfLruNodeMoveToFree_inv (h : Inv n s L) {i : ℕ} (hi : i < n) {t : ListType}
    (ht : uncounted t) :
    ∃ s', bpfLruNodeMoveToFree s i (.head t) t = some s' ∧ Inv n s' (L.move i t) := by
  obtain ⟨m', hm, hlink⟩ := listMove_linked h.linked (h.mem_own hi) t
  obtain ⟨c, hs', hc⟩ := bpfLruNodeMoveToFree_eq hm t
  refine ⟨_, hs', h.relink hi t hlink rfl (fun t' ht' => ?_) (fixCursor_cursor h rfl rfl) rfl⟩
  have hne : t' ≠ t := fun he => ht (he ▸ ht')
  apply h.counts_move hi t ht'
  rw [if_neg hne, ← hc t' ht']
  by_cases hty : s.type i = t
  · simp [hty, hc t' ht', hne]
  · rw [if_neg hty]

/-- The cursor may stay where it is when a node of another list moves. -/
lemma Inv.cursor_remove (h : Inv n s L) {i : ℕ} (hi : i ∉ L .inactive) :
    ∃ a ∈ (L.remove i).ring .inactive, s.nextInactiveRotation = some a := by
  simpa [Lists.ring, Lists.remove, List.erase_of_not_mem hi] using h.cursor

lemma Inv.notMem_inactive (h : Inv n s L) {i : ℕ} (hi : uncounted (s.type i)) :
    i ∉ L .inactive := by
  intro hm
  rw [((h.mem _ _).mp hm).2] at hi
  exact hi (by decide)

theorem bpfLruNodeMoveIn_inv (h : Inv n s L) {i : ℕ} (hi : i < n) (t : ListType)
    (hu : uncounted (s.type i)) (hne : s.type i ≠ t) :
    ∃ s', bpfLruNodeMoveIn s i t = some s' ∧ Inv n s' (L.move i t) := by
  obtain ⟨c, hinc, hc⟩ := bpfLruListCountInc_eq s t
  simp only [bpfLruNodeMoveIn, warnOnOnce, Bool.or_self, if_false, Bool.false_eq_true, hinc]
  apply h.moveLinks hi t
  · simp [setType, bpfLruNodeClearRef]
  · simp [setType, bpfLruNodeClearRef]
  · intro t' ht'
    have ho : t' ≠ s.type i := fun he => hu (he ▸ ht')
    apply h.counts_move hi t ht'
    simp only [setType, bpfLruNodeClearRef, hc, if_neg hne, if_neg ho]
    by_cases he : t' = t
    · subst he
      simp [ht']
    · simp [he]
  · exact h.cursor_remove (h.notMem_inactive hu)
  · simp [setType, bpfLruNodeClearRef]

/-- Moves between lists without counters touch neither counters nor cursor. -/
lemma Inv.relink_uncounted (h : Inv n s L) {i : ℕ} (hi : i < n) {t : ListType} {s₁ : State}
    (hu : uncounted (s.type i)) (ht : uncounted t) (hl : Linked s₁.links (L.move i t))
    (hty : s₁.type = Function.update s.type i t) (hc : s₁.counts = s.counts)
    (hcur : s₁.nextInactiveRotation = s.nextInactiveRotation) (hp : s₁.percpu = s.percpu) :
    Inv n s₁ (L.move i t) := by
  apply h.relink hi t hl hty
  · intro t' ht'
    have hne : t' ≠ t := fun he => ht (he ▸ ht')
    have ho : t' ≠ s.type i := fun he => hu (he ▸ ht')
    exact h.counts_move hi t ht' (by simp [hc, hne, ho])
  · rw [hcur]
    exact h.cursor_remove (h.notMem_inactive hu)
  · exact hp

/-! ## Free nodes -/

/-- A node on the pending list goes to the local free list. -/
theorem bpfLruPushFree_pending (h : Inv n s L) {i : ℕ} (hi : i < n)
    (hp : s.type i = .localPending) :
    ∃ s', bpfLruPushFree s i = some s' ∧ Inv n s' (L.move i .localFree) := by
  obtain ⟨m', hm, hlink⟩ := listMove_linked h.linked (h.mem_own hi) .localFree
  refine ⟨{ bpfLruNodeClearRef (setType s i .localFree) i with links := m' }, ?_, ?_⟩
  · simp [bpfLruPushFree, h.percpu, bpfCommonLruPushFree, warnOnOnce, hp, LruList.moveLinks,
      bpfLruNodeClearRef, setType, hm]
  · exact h.relink_uncounted hi (hp ▸ uncounted_localPending) uncounted_localFree hlink
      rfl rfl rfl rfl

/-- Every other node goes to the global free list, whatever its type: no guard is left. -/
lemma bpfLruPushFree_move (h : Inv n s L) {i : ℕ} (hp : s.type i ≠ .localPending) :
    bpfLruPushFree s i = bpfLruNodeMove s i .free := by
  simp [bpfLruPushFree, h.percpu, bpfCommonLruPushFree, warnOnOnce, hp, bpfLruListPushFree]

theorem bpfLruPushFree_inv (h : Inv n s L) {i : ℕ} (hi : i < n) :
    ∃ s' L', bpfLruPushFree s i = some s' ∧ Inv n s' L' := by
  by_cases hp : s.type i = .localPending
  · obtain ⟨s', hs', h'⟩ := bpfLruPushFree_pending h hi hp
    exact ⟨s', _, hs', h'⟩
  · obtain ⟨s', hs', h'⟩ := bpfLruNodeMove_inv h hi .free
    exact ⟨s', _, by rw [bpfLruPushFree_move h hp, hs'], h'⟩

/-- The first entry of a list is a node of that list's type. -/
lemma Inv.first_type (h : Inv n s L) {t : ListType} {i : ℕ} {l : List ℕ} (hL : L t = i :: l) :
    i < n ∧ s.type i = t :=
  (h.mem t i).mp (by simp [hL])

theorem bpfLruListAlloc_inv (h : Inv n s L) :
    ∃ r s' L', bpfLruListAlloc s = some (r, s') ∧ Inv n s' L' := by
  have he := h.linked.listEmpty_iff .free
  have hn := (h.linked.ring .free).next_head
  cases hL : L .free with
  | nil => exact ⟨none, s, L, by rw [bpfLruListAlloc, if_pos (he.mpr hL)], h⟩
  | cons i l =>
    obtain ⟨hi, hty⟩ := h.first_type hL
    obtain ⟨s', hs', hinv⟩ := bpfLruNodeMoveIn_inv h hi .inactive (hty ▸ uncounted_free)
      (by simp [hty])
    have hne : ¬ listEmpty s.links (.head .free) = true := by simp [he, hL]
    refine ⟨some i, s', _, ?_, hinv⟩
    simp only [bpfLruNodeMoveIn, warnOnOnce, Bool.or_self, if_false, Bool.false_eq_true] at hs'
    simp [bpfLruListAlloc, hne, hn, hL, listEntry, hs']

/-- The nodes that can be handed out, in the order in which they are. -/
def Lists.available (L : Lists) : List ℕ := L .localFree ++ L .free

lemma Lists.move_move (hnd : ∀ t, (L t).Nodup) (i : ℕ) (t t' : ListType) :
    (L.move i t).move i t' = L.move i t' := by
  have herase : ∀ u, (L.move i t u).erase i = (L u).erase i := by
    intro u
    by_cases hu : u = t
    · subst hu
      rw [Lists.move_self, List.erase_cons_head]
    · rw [Lists.move_of_ne L i hu, List.erase_of_not_mem (hnd u).not_mem_erase]
  funext u
  by_cases hu : u = t'
  · subst hu
    rw [Lists.move_self, Lists.move_self, herase]
  · rw [Lists.move_of_ne _ i hu, Lists.move_of_ne L i hu, herase]

lemma bpfLruListPopFreeToLocal_nil (h : Inv n s L) (hL : L .free = []) :
    bpfLruListPopFreeToLocal s = some s := by
  simp [bpfLruListPopFreeToLocal, h.linked.listFirst .free, hL]

lemma bpfLruListPopFreeToLocal_cons (h : Inv n s L) {i : ℕ} {l : List ℕ}
    (hL : L .free = i :: l) :
    ∃ s', bpfLruListPopFreeToLocal s = some s' ∧ Inv n s' (L.move i .localFree) := by
  obtain ⟨hi, -⟩ := h.first_type hL
  obtain ⟨s', hs', h'⟩ := bpfLruNodeMoveToFree_inv h hi uncounted_localFree
  exact ⟨s', by simp [bpfLruListPopFreeToLocal, h.linked.listFirst .free, hL, hs'], h'⟩

lemma localListPopFree_nil (h : Inv n s L) (hL : L .localFree = []) :
    localListPopFree s = some (none, s) := by
  simp [localListPopFree, h.linked.listFirst .localFree, hL]

/-- The first local free node is on no list until it is added to the pending list. -/
lemma localListPopFree_cons (h : Inv n s L) {i : ℕ} {l : List ℕ} (hL : L .localFree = i :: l)
    (cpu hash : ℕ) :
    ∃ s₁ s', localListPopFree s = some (some i, s₁) ∧
      localListAddPending s₁ cpu i hash = some s' ∧ Inv n s' (L.move i .localPending) ∧
      s'.ref i = false ∧ s'.hash i = hash := by
  obtain ⟨hi, hty⟩ := h.first_type hL
  obtain ⟨m', hm, hlink⟩ := listDel_linked h.linked (h.mem_own hi)
  obtain ⟨m'', hadd, hlink'⟩ := listAdd_linked hlink (Lists.notMem_remove h.linked) .localPending
  refine ⟨{ s with links := m' }, { bpfLruNodeClearRef (setType { s with
      hash := Function.update s.hash i hash
      cpu := Function.update s.cpu i cpu } i .localPending) i with links := m'' },
    ?_, ?_, ?_, ?_, ?_⟩
  · simp [localListPopFree, h.linked.listFirst .localFree, hL, hm]
  · simp [localListAddPending, setType, bpfLruNodeClearRef, hadd]
  · exact h.relink_uncounted hi (hty ▸ uncounted_localFree) uncounted_localPending hlink'
      rfl rfl rfl rfl
  · simp [bpfLruNodeClearRef]
  · simp [bpfLruNodeClearRef, setType]

theorem bpfLruPopFree_nil (h : Inv n s L) (hL : L.available = []) (hash : ℕ) :
    bpfLruPopFree s hash = some (none, s) := by
  obtain ⟨hlocal, hfree⟩ := List.append_eq_nil_iff.mp hL
  simp [bpfLruPopFree, h.percpu, bpfCommonLruPopFree, localListPopFree_nil h hlocal,
    bpfLruListPopFreeToLocal_nil h hfree]

/-- The first available node is handed out, and goes to the pending list. -/
theorem bpfLruPopFree_cons (h : Inv n s L) {i : ℕ} {l : List ℕ} (hL : L.available = i :: l)
    (hash : ℕ) :
    ∃ s', bpfLruPopFree s hash = some (some i, s') ∧ Inv n s' (L.move i .localPending) ∧
      s'.ref i = false ∧ s'.hash i = hash := by
  simp only [bpfLruPopFree, h.percpu, bpfCommonLruPopFree, if_false, Bool.false_eq_true]
  cases hlocal : L .localFree with
  | cons j k =>
    obtain rfl : j = i := by
      rw [Lists.available, hlocal, List.cons_append] at hL
      exact (List.cons.inj hL).1
    obtain ⟨s₁, s', hpop, hadd, h'⟩ := localListPopFree_cons h hlocal 0 hash
    exact ⟨s', by simp [hpop, hadd], h'⟩
  | nil =>
    -- the local free list is empty: one node is fetched from the global one
    rw [Lists.available, hlocal, List.nil_append] at hL
    obtain ⟨s₁, hs₁, h₁⟩ := bpfLruListPopFreeToLocal_cons h hL
    have hone : L.move i .localFree .localFree = [i] := by
      rw [Lists.move_self, hlocal, List.erase_nil]
    obtain ⟨s₂, s', hpop, hadd, h', hset⟩ := localListPopFree_cons h₁ hone 0 hash
    rw [Lists.move_move h.nodup] at h'
    exact ⟨s', by simp [localListPopFree_nil h hlocal, hs₁, hpop, hadd], h', hset⟩

theorem bpfLruPopFree_inv (h : Inv n s L) (hash : ℕ) :
    ∃ r s' L', bpfLruPopFree s hash = some (r, s') ∧ Inv n s' L' := by
  cases hL : L.available with
  | nil => exact ⟨none, s, L, bpfLruPopFree_nil h hL hash, h⟩
  | cons i l =>
    obtain ⟨s', hs', h', -⟩ := bpfLruPopFree_cons h hL hash
    exact ⟨some i, s', _, hs', h'⟩

lemma bpfLruNodeSetRef_inv (h : Inv n s L) (i : ℕ) : Inv n (bpfLruNodeSetRef s i) L := by
  unfold bpfLruNodeSetRef
  split
  · exact h
  · exact ⟨h.bound, h.linked, h.mem, h.counts, h.cursor, h.percpu⟩

end

end BpfVerify.LruList
