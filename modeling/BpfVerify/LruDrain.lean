import BpfVerify.LruFree

/-!
# Draining the LRU lists

Every call of `__bpf_lru_list_shrink` frees a node as long as the active or the inactive list has
one, so repeated calls empty both, and every node that is not pending can then be handed out.
-/
namespace BpfVerify.LruList
open ListRing Word

/-- The nodes that a shrink can free. -/
def Lists.evictable (L : Lists) : List ℕ := L .active ++ L .inactive

section
variable {n fuel : ℕ} {s : State} {L : Lists}

lemma Inv.mem_evictable (h : Inv n s L) {i : ℕ} :
    i ∈ L.evictable ↔ i < n ∧ (s.type i = .active ∨ s.type i = .inactive) := by
  rw [Lists.evictable, List.mem_append, h.mem, h.mem]
  tauto

lemma Inv.nodup_evictable (h : Inv n s L) : L.evictable.Nodup := by
  apply (h.nodup .active).append (h.nodup .inactive)
  intro i hi hi'
  have hactive := ((h.mem _ _).mp hi).2
  have hinactive := ((h.mem _ _).mp hi').2
  rw [hactive] at hinactive
  cases hinactive

lemma Inv.length_evictable (h : Inv n s L) :
    L.evictable.length = s.counts .active + s.counts .inactive := by
  rw [Lists.evictable, List.length_append, h.counts .active active_lt,
    h.counts .inactive inactive_lt]

/-! ## One call -/

/-- A call freed `moved` onto list `t`: only evictable nodes changed their types. -/
structure Freed (t : ListType) (s : State) (L : Lists) (moved : List ℕ) (s' : State) : Prop where
  nodup : moved.Nodup
  mem : ∀ i ∈ moved, i ∈ L.evictable
  type_moved : ∀ i ∈ moved, s'.type i = t
  type_kept : ∀ i ∈ L.evictable, i ∉ moved → s'.type i = .active ∨ s'.type i = .inactive
  type_other : ∀ i, i ∉ L.evictable → s'.type i = s.type i

lemma Freed.perm {t : ListType} {moved : List ℕ} {s' : State} {L' : Lists} (h : Inv n s L)
    (h' : Inv n s' L') (ht : uncounted t) (hf : Freed t s L moved s') :
    (moved ++ L'.evictable).Perm L.evictable := by
  have htype : t ≠ .active ∧ t ≠ .inactive :=
    ⟨fun he => ht (he ▸ active_lt), fun he => ht (he ▸ inactive_lt)⟩
  have hdisjoint : ∀ i ∈ moved, i ∉ L'.evictable := by
    intro i hi hi'
    have hty := (h'.mem_evictable.mp hi').2
    rw [hf.type_moved i hi] at hty
    exact hty.elim htype.1 htype.2
  have hnd : (moved ++ L'.evictable).Nodup :=
    hf.nodup.append h'.nodup_evictable fun i hi hi' => hdisjoint i hi hi'
  rw [List.perm_ext_iff_of_nodup hnd h.nodup_evictable]
  intro i
  rw [List.mem_append]
  constructor
  · rintro (hi | hi)
    · exact hf.mem i hi
    · by_contra hnot
      have hmem := h'.mem_evictable.mp hi
      rw [hf.type_other i hnot] at hmem
      exact hnot (h.mem_evictable.mpr hmem)
  · intro hi
    by_cases hm : i ∈ moved
    · exact .inl hm
    · exact .inr (h'.mem_evictable.mpr ⟨(h.mem_evictable.mp hi).1, hf.type_kept i hi hm⟩)

lemma Freed.nil (h : Inv n s L) (t : ListType) : Freed t s L [] s where
  nodup := List.nodup_nil
  mem := by simp
  type_moved := by simp
  type_kept := fun i hi _ => (h.mem_evictable.mp hi).2
  type_other := fun _ _ => rfl

/-- The first phase frees the nodes without a reference, and leaves the others evictable. -/
lemma Freed.of_swept (h : Inv n s L) {t : ListType} {visited : List ℕ} {H : Set Addr}
    {s' : State} {L₀ L' : Heads} (hw : Swept H (shrinkDest (.head t) t) visited s L₀ s' L')
    (hv : ∀ i ∈ visited, i ∈ L .inactive) (hnd : visited.Nodup) :
    Freed t s L (visited.filter fun i => !s.ref i) s' where
  nodup := hnd.filter _
  mem := fun i hi => List.mem_append_right _ (hv i (List.mem_filter.mp hi).1)
  type_moved := by
    intro i hi
    rw [List.mem_filter, Bool.not_eq_true'] at hi
    rw [hw.shrunk_type, if_pos hi]
  type_kept := by
    intro i hi hnot
    have hclear : ¬ (i ∈ visited ∧ s.ref i = false) := by
      simpa only [List.mem_filter, Bool.not_eq_true'] using hnot
    rw [hw.shrunk_type, if_neg hclear]
    split_ifs
    · exact .inl rfl
    · exact (h.mem_evictable.mp hi).2
  type_other := by
    intro i hi
    have hnot : i ∉ visited := fun hm => hi (List.mem_append_right _ (hv i hm))
    rw [hw.shrunk_type, if_neg fun hc => hnot hc.1, if_neg fun hc => hnot hc.1]

/-- A first phase that frees nothing only moves nodes from the inactive to the active list. -/
lemma Swept.mem_evictable {t : ListType} {visited : List ℕ} {H : Set Addr} {E : ℕ → List ℕ}
    {s' : State} {L' : Heads} (hq : Queues H s (L.heads E)) (hf : FreeList H (.head t))
    (hw : Swept H (shrinkDest (.head t) t) visited s (L.heads E) s' L')
    (hv : ∀ i ∈ visited, i ∈ L .inactive)
    (hnone : (visited.filter fun i => !s.ref i) = []) (i : ℕ) :
    i ∈ L'.active ∨ i ∈ L'.inactive ↔ i ∈ L.evictable := by
  have hI : L'.inactive = (L .inactive).filter fun i => i ∉ visited := hw.shrunk_inactive hq hf
  have hA : L'.active = (visited.filter fun i => s.ref i).reverse ++ L .active :=
    hw.to_active hq (hq.heads _ inactive_lt) hv (by simp) (by simpa using hf.active)
  have href : i ∈ visited → s.ref i = true := fun hi => by
    simpa [hi] using List.filter_eq_nil_iff.mp hnone i hi
  have hinactive := hv i
  rw [hI, hA, Lists.evictable, List.mem_append, List.mem_append, List.mem_reverse, List.mem_filter,
    List.mem_filter, decide_eq_true_eq]
  tauto

/-- The forced phase frees a node of one of the lists, if there is one. -/
lemma shrink_forced_mem {H : Set Addr} {L : Heads} {freeList : Addr} (h : Queues H s L)
    (hf : FreeList H freeList) (ty : ListType) {nrScans tgtNshrink : ℕ} (hfuel : 0 < fuel)
    {s₁ : State} {L₁ : Heads}
    (hrun : bpfLruListShrinkInactive nrScans fuel tgtNshrink freeList ty s = some (0, s₁))
    (h₁ : Queues H s₁ L₁) :
    ∃ moved s', bpfLruListShrink nrScans fuel tgtNshrink freeList ty s =
        some (moved.length, s') ∧
      (∀ i ∈ moved, i ∈ L₁.active ∨ i ∈ L₁.inactive) ∧
      (moved = [] → L₁.active = [] ∧ L₁.inactive = []) ∧ moved.length ≤ 1 ∧
      ∀ i, s'.type i = if i ∈ moved then ty else s₁.type i := by
  obtain ⟨moved, s', L', hrun', -, -, hnil, hle, hinactive, hactive, -, -, htype⟩ :=
    shrink_forced h hf ty hfuel hrun h₁
  refine ⟨moved, s', hrun', ?_, hnil.mp, hle, htype⟩
  rcases List.eq_nil_or_concat L₁.inactive with hI | ⟨as, x, hI⟩
  · rcases List.eq_nil_or_concat L₁.active with hA | ⟨as, x, hA⟩
    · rw [hnil.mpr ⟨hA, hI⟩]
      simp
    · rw [List.concat_eq_append] at hA
      rw [(hactive hI as x hA).1, List.forall_mem_singleton, hA]
      exact .inl List.mem_concat_self
  · rw [List.concat_eq_append] at hI
    rw [(hinactive as x hI).1, List.forall_mem_singleton, hI]
    exact .inr List.mem_concat_self

lemma Freed.forced {t : ListType} {moved : List ℕ} {s₁ s' : State} (hf : Freed t s L [] s₁)
    (hmem : ∀ i ∈ moved, i ∈ L.evictable) (hlen : moved.length ≤ 1)
    (htype : ∀ i, s'.type i = if i ∈ moved then t else s₁.type i) : Freed t s L moved s' where
  nodup := by
    match moved, hlen with
    | [], _ => exact List.nodup_nil
    | [x], _ => exact List.nodup_singleton x
  mem := hmem
  type_moved := fun i hi => by rw [htype, if_pos hi]
  type_kept := by
    intro i hi hnot
    rw [htype, if_neg hnot]
    exact hf.type_kept i hi List.not_mem_nil
  type_other := by
    intro i hi
    rw [htype, if_neg fun hm => hi (hmem i hm)]
    exact hf.type_other i hi

/-- A call frees a node if there is one, and no more than its target. -/
theorem bpfLruListShrink_freed (h : Inv n s L) (nrScans tgtNshrink : ℕ) (hfuel : n < fuel)
    {t : ListType} (ht : uncounted t) :
    ∃ moved s' L', bpfLruListShrink nrScans fuel tgtNshrink (.head t) t s =
        some (moved.length, s') ∧
      Inv n s' L' ∧ Freed t s L moved s' ∧ (moved = [] → L.evictable = []) ∧
      (0 < tgtNshrink → moved.length ≤ tgtNshrink) := by
  have hlist := ht.freeList
  have hq := h.queues_own
  obtain ⟨r, s', L', hs', h'⟩ := bpfLruListShrink_inv h nrScans tgtNshrink hfuel ht
  obtain ⟨rest, scanned, visited, s₁, L₁, hL, -, hvis, hrun, -, h₁, hw⟩ :=
    bpfLruListShrinkInactive_queues hq hlist t nrScans tgtNshrink
      (Nat.lt_of_le_of_lt (h.length_le .inactive) hfuel)
  obtain ⟨hv, hnd⟩ := h.visited hL tgtNshrink
  rw [← hvis] at hv hnd
  have hf := Freed.of_swept h hw hv hnd
  by_cases hfreed : visited.filter (fun i => !s.ref i) = []
  · -- the scanned nodes all went to the active list, and one node is forced off
    rw [hfreed, List.length_nil] at hrun
    rw [hfreed] at hf
    obtain ⟨moved, s₂, hrun₂, hmem, hnil, hle, htype⟩ :=
      shrink_forced_mem hq hlist t (by omega) hrun h₁
    rw [hs', Option.some_inj, Prod.mk.injEq] at hrun₂
    obtain ⟨rfl, rfl⟩ := hrun₂
    have hiff := hw.mem_evictable hq hlist hv hfreed
    refine ⟨moved, s', L', hs', h', hf.forced (fun i hi => (hiff i).mp (hmem i hi)) hle htype,
      fun hmoved => ?_, fun htgt => by omega⟩
    obtain ⟨hA, hI⟩ := hnil hmoved
    rw [List.eq_nil_iff_forall_not_mem]
    intro i hi
    simpa [hA, hI] using (hiff i).mpr hi
  · have hpos : (visited.filter fun i => !s.ref i).length ≠ 0 := by
      rwa [Ne, List.length_eq_zero_iff]
    have hrun₂ : bpfLruListShrink nrScans fuel tgtNshrink (.head t) t s =
        some ((visited.filter fun i => !s.ref i).length, s₁) := by
      simp only [bpfLruListShrink, hrun, Option.bind_eq_bind, Option.bind_some, if_pos hpos]
      rfl
    rw [hs', Option.some_inj, Prod.mk.injEq] at hrun₂
    obtain ⟨rfl, rfl⟩ := hrun₂
    refine ⟨_, s', L', hs', h', hf, fun hnil => absurd hnil hfreed, fun htgt => ?_⟩
    rw [hvis]
    exact upToFreed_le s.ref htgt _

/-! ## Repeated calls -/

/-- A sequence of calls with their scan limits and targets: what they return, and the state. -/
def shrinks (fuel : ℕ) (t : ListType) : State → List (ℕ × ℕ) → Option (List ℕ × State)
  | s, [] => some ([], s)
  | s, (nrScans, tgtNshrink) :: calls => do
      let (nshrinked, s) ← bpfLruListShrink nrScans fuel tgtNshrink (.head t) t s
      let (rets, s) ← shrinks fuel t s calls
      return (nshrinked :: rets, s)

lemma Freed.append {t : ListType} {moved moved' : List ℕ} {s₁ s' : State} {L₁ : Lists}
    (h : Inv n s L) (h₁ : Inv n s₁ L₁) (ht : uncounted t) (hf : Freed t s L moved s₁)
    (hf' : Freed t s₁ L₁ moved' s') : Freed t s L (moved ++ moved') s' := by
  have hperm := hf.perm h h₁ ht
  have hnd : (moved ++ L₁.evictable).Nodup := hperm.nodup_iff.mpr h.nodup_evictable
  have hapart : ∀ i ∈ moved, i ∉ L₁.evictable := fun i hi hi' =>
    (List.nodup_append.mp hnd).2.2 i hi i hi' rfl
  constructor
  case nodup => exact hf.nodup.append hf'.nodup fun i hi hi' => hapart i hi (hf'.mem i hi')
  case mem =>
    intro i hi
    rcases List.mem_append.mp hi with hi | hi
    · exact hf.mem i hi
    · exact hperm.subset (List.mem_append_right _ (hf'.mem i hi))
  case type_moved =>
    intro i hi
    rcases List.mem_append.mp hi with hi | hi
    · rw [hf'.type_other i (hapart i hi), hf.type_moved i hi]
    · exact hf'.type_moved i hi
  case type_kept =>
    intro i hi hnot
    rw [List.mem_append, not_or] at hnot
    have hi₁ : i ∈ L₁.evictable := by
      rcases List.mem_append.mp (hperm.symm.subset hi) with hm | hm
      · exact absurd hm hnot.1
      · exact hm
    exact hf'.type_kept i hi₁ hnot.2
  case type_other =>
    intro i hi
    have hi₁ : i ∉ L₁.evictable := fun hm => hi (hperm.subset (List.mem_append_right _ hm))
    rw [hf'.type_other i hi₁, hf.type_other i hi]

/-- The calls free as many nodes as they return, each of them no more than its target if it has
one, and enough calls free all. -/
theorem Inv.shrinks (h : Inv n s L) (hfuel : n < fuel) {t : ListType} (ht : uncounted t)
    (calls : List (ℕ × ℕ)) :
    ∃ moved rets s' L', LruList.shrinks fuel t s calls = some (rets, s') ∧ Inv n s' L' ∧
      Freed t s L moved s' ∧ rets.sum = moved.length ∧
      List.Forall₂ (fun c r => 0 < c.2 → r ≤ c.2) calls rets ∧
      (L.evictable.length ≤ calls.length → L'.evictable = []) := by
  induction calls generalizing s L with
  | nil =>
    refine ⟨[], [], s, L, rfl, h, .nil h t, rfl, .nil, fun hlen => ?_⟩
    exact List.length_eq_zero_iff.mp (Nat.le_zero.mp hlen)
  | cons c calls ih =>
    obtain ⟨nrScans, tgt⟩ := c
    obtain ⟨moved, s₁, L₁, hs₁, h₁, hf, hnil, hle⟩ :=
      bpfLruListShrink_freed h nrScans tgt hfuel ht
    obtain ⟨moved', rets, s', L', hs', h', hf', hsum, hall, hdone⟩ := ih h₁
    have hlen := (hf.perm h h₁ ht).length_eq
    rw [List.length_append] at hlen
    refine ⟨moved ++ moved', moved.length :: rets, s', L', ?_, h', hf.append h h₁ ht hf', ?_, ?_,
      fun hcalls => hdone ?_⟩
    · simp [LruList.shrinks, hs₁, hs']
    · rw [List.sum_cons, hsum, List.length_append]
    · exact .cons hle hall
    · -- each call frees one of the nodes that are left
      rw [List.length_cons] at hcalls
      cases hm : moved with
      | nil =>
        rw [hnil hm, List.length_nil] at hlen
        omega
      | cons i rest =>
        rw [hm, List.length_cons] at hlen
        omega

/-- After every run, repeated calls of `__bpf_lru_list_shrink` return together the number of nodes
that they free. With as many calls as there are nodes on the active and the inactive list, both
get empty, no other node changes its type, and `bpf_lru_pop_free` can hand out every node that was
not pending, each once. -/
theorem run_shrink_drains (nrElems : UInt32) (mem : State) (extra : ℕ)
    (ops : List (Op nrElems.toNat)) :
    ∃ s, run nrElems mem extra ops = some s ∧ ∀ t, t = .free ∨ t = .localFree →
      ∀ calls : List (ℕ × ℕ),
        ∃ rets s', shrinks (2 * nrElems.toNat + 2 + extra) t s calls = some (rets, s') ∧
          List.Forall₂ (fun c r => 0 < c.2 → r ≤ c.2) calls rets ∧
          rets.sum + (s'.counts .active + s'.counts .inactive) =
            s.counts .active + s.counts .inactive ∧
          (s.counts .active + s.counts .inactive ≤ calls.length →
            s'.counts .active = 0 ∧ s'.counts .inactive = 0 ∧
            (∀ i < nrElems.toNat, s'.type i =
              if s.type i = .active ∨ s.type i = .inactive then t else s.type i) ∧
            ∃ nodes : List ℕ, nodes.Nodup ∧ HandsOut s' nodes ∧
              ∀ i, i ∈ nodes ↔ i < nrElems.toNat ∧ s.type i ≠ .localPending) := by
  obtain ⟨s, L, hs, h⟩ := run_inv nrElems mem extra ops
  refine ⟨s, hs, ?_⟩
  intro t hfree calls
  have ht : uncounted t := by
    rcases hfree with rfl | rfl
    · exact uncounted_free
    · exact uncounted_localFree
  obtain ⟨moved, rets, s', L', hs', h', hf, hsum, hall, hdone⟩ :=
    h.shrinks (by omega : _ < 2 * nrElems.toNat + 2 + extra) ht calls
  have hperm := hf.perm h h' ht
  have hlen := hperm.length_eq
  rw [List.length_append, h.length_evictable, h'.length_evictable, ← hsum] at hlen
  refine ⟨rets, s', hs', hall, hlen, fun hcalls => ?_⟩
  have hnil := hdone (h.length_evictable.trans_le hcalls)
  have hzero := h'.length_evictable
  rw [hnil, List.length_nil] at hzero
  have htype : ∀ i < nrElems.toNat, s'.type i =
      if s.type i = .active ∨ s.type i = .inactive then t else s.type i := by
    intro i hi
    by_cases hev : s.type i = .active ∨ s.type i = .inactive
    · have hmem := hperm.symm.subset (h.mem_evictable.mpr ⟨hi, hev⟩)
      rw [hnil, List.append_nil] at hmem
      rw [if_pos hev, hf.type_moved i hmem]
    · rw [if_neg hev, hf.type_other i fun hm => hev (h.mem_evictable.mp hm).2]
  refine ⟨by omega, by omega, htype, L'.available, h'.nodup_available, h'.handsOut, fun i => ?_⟩
  rw [h'.mem_available]
  refine and_congr_right fun hi => ?_
  rw [htype i hi]
  rcases hfree with rfl | rfl <;> cases s.type i <;> simp

end

end BpfVerify.LruList
