import BpfVerify.LruShrink

/-!
# Loops and runs of the LRU list

The loops of rotation and shrinking are sweeps of moves, which keep the invariant one by one, and
flushing drains a list; so every run of operations keeps it.
-/
namespace BpfVerify.LruList
open ListRing Word

section
variable {n : ℕ} {s : State} {L : Lists}

/-! ## Walks from the end of a list -/

lemma Linked.prev_head {m : Mem} (h : Linked m L) (t : ListType) :
    m.prev (.head t) = some ((L.ring t).getLast (by simp [Lists.ring])) :=
  (h.ring t).prev_head

lemma Linked.prev_mid {m : Mem} (h : Linked m L) {t : ListType} {as bs : List ℕ} {x : ℕ}
    (hL : L t = as ++ x :: bs) :
    m.prev (.node x) = some ((Addr.head t :: as.map .node).getLast (by simp)) := by
  have hr := h.ring t
  simp only [hL, List.map_append, List.map_cons] at hr
  exact hr.prev_mid

/-- Where the walk of `list_for_each_entry_safe_reverse` stands while its body takes every node
it visits off the list: at the last node, with that node's predecessor saved. -/
def AtEnd (s : State) (t : ListType) (pos nxt : Addr) : Prop :=
  s.links.prev (.head t) = some pos ∧ s.links.prev pos = some nxt

lemma listForEachEntrySafeReverse_eq {σ : Type} (h : Inv n s L) (t : ListType)
    (body : State → Addr → σ → Option (Bool × State × σ)) (fuel : ℕ) (acc : σ) :
    ∃ pos nxt, AtEnd s t pos nxt ∧
      listForEachEntrySafeReverse (.head t) body fuel s acc =
        forEachSafeReverse (.head t) body fuel s pos nxt acc := by
  have hhead := h.linked.prev_head t
  have hprev : ∃ nxt, s.links.prev ((L.ring t).getLast (by simp [Lists.ring])) = some nxt := by
    rcases List.eq_nil_or_concat (L t) with hL | ⟨as, x, hL⟩
    · simp only [Lists.ring, hL, List.map_nil, List.getLast_singleton] at hhead ⊢
      exact ⟨_, hhead⟩
    · rw [List.concat_eq_append] at hL
      simp only [Lists.ring, hL, List.map_append, List.map_cons, List.map_nil, ← List.cons_append,
        List.getLast_append_singleton]
      exact ⟨_, h.linked.prev_mid hL⟩
  obtain ⟨nxt, hnxt⟩ := hprev
  exact ⟨_, nxt, ⟨hhead, hnxt⟩, by simp [listForEachEntrySafeReverse, hhead, hnxt]⟩

/-- A safe reverse walk whose body takes the visited node off the list ends. -/
theorem forEachSafeReverse_drains {σ : Type} {t : ListType}
    {body : State → Addr → σ → Option (Bool × State × σ)}
    (hbody : ∀ {s L as x} (acc : σ), Inv n s L → L t = as ++ [x] →
      ∃ brk s' acc' L', body s (.node x) acc = some (brk, s', acc') ∧ Inv n s' L' ∧ L' t = as)
    {fuel : ℕ} {pos nxt : Addr} (acc : σ) (h : Inv n s L) (hfuel : (L t).length < fuel)
    (hpos : AtEnd s t pos nxt) :
    ∃ s' acc' L', forEachSafeReverse (.head t) body fuel s pos nxt acc = some (s', acc') ∧
      Inv n s' L' := by
  induction fuel generalizing s L pos nxt acc with
  | zero => omega
  | succ fuel ih =>
    have hhead := h.linked.prev_head t
    rw [hpos.1, Option.some_inj] at hhead
    rcases List.eq_nil_or_concat (L t) with hL | ⟨as, x, hL⟩
    · have hp : pos = .head t := by simpa [Lists.ring, hL] using hhead
      exact ⟨s, acc, L, by simp [forEachSafeReverse, hp], h⟩
    · rw [List.concat_eq_append] at hL
      have hp : pos = .node x := by simpa [Lists.ring, hL] using hhead
      subst hp
      obtain ⟨brk, s', acc', L', hb, hinv, hL'⟩ := hbody acc h hL
      cases brk with
      | true => exact ⟨s', acc', L', by simp [forEachSafeReverse, hb], hinv⟩
      | false =>
        -- the saved predecessor is now the last entry
        have hnxt : s'.links.prev (.head t) = some nxt := by
          rw [hinv.linked.prev_head t, ← hpos.2, h.linked.prev_mid hL]
          simp [Lists.ring, hL']
        obtain ⟨pos', nxt', hend, -⟩ := listForEachEntrySafeReverse_eq hinv t body fuel acc'
        rw [AtEnd, hnxt, Option.some_inj] at hend
        obtain ⟨rfl, hnxt'⟩ := hend
        have hlen : (L' t).length < fuel := by
          rw [hL, List.length_append, List.length_singleton] at hfuel
          rw [hL']
          omega
        obtain ⟨s'', acc'', L'', hrun, hinv''⟩ := ih acc' hinv hlen ⟨hnxt, hnxt'⟩
        exact ⟨s'', acc'', L'', by simp [forEachSafeReverse, hb, hnxt', hrun], hinv''⟩

/-- `forEachSafeReverse_drains` from the start of the loop. -/
lemma listForEachEntrySafeReverse_drains {σ : Type} {t : ListType}
    {body : State → Addr → σ → Option (Bool × State × σ)}
    (hbody : ∀ {s L as x} (acc : σ), Inv n s L → L t = as ++ [x] →
      ∃ brk s' acc' L', body s (.node x) acc = some (brk, s', acc') ∧ Inv n s' L' ∧ L' t = as)
    {fuel : ℕ} (acc : σ) (h : Inv n s L) (hfuel : n < fuel) :
    ∃ s' acc' L', listForEachEntrySafeReverse (.head t) body fuel s acc = some (s', acc') ∧
      Inv n s' L' := by
  obtain ⟨pos, nxt, hend, heq⟩ := listForEachEntrySafeReverse_eq h t body fuel acc
  rw [heq]
  exact forEachSafeReverse_drains hbody acc h (Nat.lt_of_le_of_lt (h.length_le t) hfuel) hend

lemma Lists.move_last {s : State} (h : Inv n s L) {t : ListType} {as : List ℕ} {x : ℕ}
    (hL : L t = as ++ [x]) {t' : ListType} (hne : t ≠ t') : x < n ∧ s.type x = t ∧ L.move x t' t = as := by
  have hx := (h.mem t x).mp (by simp [hL])
  refine ⟨hx.1, hx.2, ?_⟩
  have hnd := h.nodup t
  rw [hL] at hnd
  have hxa : x ∉ as := fun ha => (List.nodup_append.mp hnd).2.2 x ha x (by simp) rfl
  rw [Lists.move_of_ne L x hne, hL, List.erase_append_right _ hxa]
  simp

lemma localListFlushBody_step {as : List ℕ} {x : ℕ} (acc : Unit) (h : Inv n s L)
    (hL : L .localPending = as ++ [x]) :
    ∃ brk s' acc' L', localListFlushBody s (.node x) acc = some (brk, s', acc') ∧
      Inv n s' L' ∧ L' .localPending = as := by
  have hmove : ∀ t : ListType, ListType.localPending ≠ t → ∃ s',
      bpfLruNodeMoveIn s x t = some s' ∧ Inv n s' (L.move x t) ∧ L.move x t .localPending = as := by
    intro t ht
    obtain ⟨hx, hty, hL'⟩ := Lists.move_last h hL ht
    obtain ⟨s', hs', hinv⟩ := bpfLruNodeMoveIn_inv h hx t (hty ▸ uncounted_localPending)
      (hty ▸ ht)
    exact ⟨s', hs', hinv, hL'⟩
  cases hr : s.ref x with
  | true =>
    obtain ⟨s', hs', hinv, hL'⟩ := hmove .active (by simp)
    exact ⟨false, s', (), _, by simp [localListFlushBody, listEntry, hr, hs'], hinv, hL'⟩
  | false =>
    obtain ⟨s', hs', hinv, hL'⟩ := hmove .inactive (by simp)
    exact ⟨false, s', (), _, by simp [localListFlushBody, listEntry, hr, hs'], hinv, hL'⟩

theorem localListFlush_inv (h : Inv n s L) {fuel : ℕ} (hfuel : n < fuel) :
    ∃ s' L', localListFlush fuel s = some s' ∧ Inv n s' L' := by
  obtain ⟨s', _, L', hs', h'⟩ := listForEachEntrySafeReverse_drains
    (fun acc => localListFlushBody_step acc) () h hfuel
  exact ⟨s', L', by simp [localListFlush, hs'], h'⟩

/-! ## Rotation and shrinking -/

/-- A sweep whose visits keep the invariant keeps it. -/
lemma Inv.foldlM {visit : State → ℕ → Option State}
    (hvisit : ∀ {s L i}, Inv n s L → i < n → ∃ s' L', visit s i = some s' ∧ Inv n s' L')
    (h : Inv n s L) {v : List ℕ} (hv : ∀ i ∈ v, i < n) {s' : State}
    (hfold : v.foldlM visit s = some s') : ∃ L', Inv n s' L' := by
  induction v generalizing s L with
  | nil =>
    obtain rfl : s = s' := by simpa using hfold
    exact ⟨L, h⟩
  | cons i v ih =>
    obtain ⟨s₁, L₁, hs₁, h₁⟩ := hvisit h (hv i (by simp))
    rw [List.foldlM_cons, hs₁] at hfold
    exact ih h₁ (fun j hj => hv j (List.mem_cons_of_mem _ hj)) hfold

theorem bpfLruListRotateActive_inv (h : Inv n s L) (nrScans : ℕ) {fuel : ℕ} (hfuel : n < fuel) :
    ∃ s' L', bpfLruListRotateActive nrScans fuel s = some s' ∧ Inv n s' L' := by
  obtain ⟨v, s', -, hv, hrun, hfold⟩ := bpfLruListRotateActive_scan h.queues_own nrScans
    (Nat.lt_of_le_of_lt (h.length_le .active) hfuel)
  have hvisit : ∀ {s L i}, Inv n s L → i < n →
      ∃ s' L', rotateActiveNode s i = some s' ∧ Inv n s' L' := by
    intro s L i h hi
    unfold rotateActiveNode
    split
    · obtain ⟨s', hs', h'⟩ := bpfLruNodeMove_inv h hi .active
      exact ⟨s', _, hs', h'⟩
    · obtain ⟨s', hs', h'⟩ := bpfLruNodeMove_inv h hi .inactive
      exact ⟨s', _, hs', h'⟩
  have hlt : ∀ i ∈ v, i < n := fun i hi =>
    ((h.mem .active i).mp (List.mem_reverse.mp (hv.subset hi))).1
  obtain ⟨L', h'⟩ := h.foldlM hvisit hlt hfold
  exact ⟨s', L', hrun, h'⟩

theorem bpfLruListRotateInactive_inv (h : Inv n s L) (nrScans : ℕ) {fuel : ℕ}
    (hfuel : 2 * n + 1 < fuel) :
    ∃ s' L', bpfLruListRotateInactive nrScans fuel s = some s' ∧ Inv n s' L' := by
  have hq := h.queues_own
  have hle := h.length_le .inactive
  obtain ⟨cur, hmem, hcur⟩ := h.cursor
  obtain ⟨as, bs, hring⟩ := List.append_of_mem hmem
  obtain ⟨-, hv, -⟩ := hq.visited_walk hring
    (show (backWalk as cur bs).take nrScans = (backWalk as cur bs).take nrScans from rfl)
  obtain ⟨s₁, nxt, L₁, hfold, hrun, h₁, hon, hw, -⟩ := rotateInactive_sweep hq nrScans
    (show (L .inactive).length + 1 < fuel by omega) hring hcur rfl
  have hlt : ∀ i ∈ L .inactive, i < n := fun i hi => ((h.mem .inactive i).mp hi).1
  have hvisit : ∀ {s L i}, Inv n s L → i < n →
      ∃ s' L', rotateInactiveNode s i = some s' ∧ Inv n s' L' := by
    intro s L i h hi
    unfold rotateInactiveNode
    split
    · obtain ⟨s', hs', h'⟩ := bpfLruNodeMove_inv h hi .active
      exact ⟨s', _, hs', h'⟩
    · exact ⟨s, L, rfl, h⟩
  obtain ⟨L', h'⟩ := h.foldlM hvisit (fun i hi => hlt i (hv i hi)) hfold
  -- the overwritten cursor is the only field the function's end changes
  have hcursor : nxt ∈ L'.ring .inactive := by
    rcases List.mem_cons.mp hon with rfl | ha
    · simp [Lists.ring]
    · obtain ⟨i, hi, rfl⟩ := List.mem_map.mp ha
      have hin : i ∈ L .inactive := by
        rw [hw.inactive_kept hq] at hi
        exact (List.mem_filter.mp hi).1
      have hty : s₁.type i = .inactive := h₁.typed .inactive inactive_lt i hi
      have hm : i ∈ L' .inactive := (h'.mem .inactive i).mpr ⟨hlt i hin, hty⟩
      simp [Lists.ring, hm]
  exact ⟨_, L', hrun, h'.bound, h'.linked, h'.mem, h'.counts, ⟨nxt, hcursor, rfl⟩, h'.percpu⟩

theorem bpfLruListRotate_inv (h : Inv n s L) (nrScans : ℕ) {fuel : ℕ}
    (hfuel : 2 * n + 1 < fuel) :
    ∃ s' L', bpfLruListRotate nrScans fuel s = some s' ∧ Inv n s' L' := by
  cases hlow : bpfLruListInactiveLow s with
  | true =>
    obtain ⟨s₁, L₁, hs₁, h₁⟩ := bpfLruListRotateActive_inv h nrScans (by omega : n < fuel)
    obtain ⟨s', L', hs', h'⟩ := bpfLruListRotateInactive_inv h₁ nrScans hfuel
    exact ⟨s', L', by simp [bpfLruListRotate, hlow, hs₁, hs'], h'⟩
  | false =>
    obtain ⟨s', L', hs', h'⟩ := bpfLruListRotateInactive_inv h nrScans hfuel
    exact ⟨s', L', by simp [bpfLruListRotate, hlow, hs'], h'⟩

lemma uncounted.freeList {t : ListType} (ht : uncounted t) :
    FreeList (Set.range .head ∪ .external '' ∅) (.head t) where
  mem := .inl ⟨t, rfl⟩
  active := fun he => ht (Addr.head.inj he ▸ active_lt)
  inactive := fun he => ht (Addr.head.inj he ▸ inactive_lt)

/-- The first phase visits inactive nodes, each once. -/
lemma Inv.visited (h : Inv n s L) {rest scanned : List ℕ} (hL : L .inactive = rest ++ scanned)
    (tgt : ℕ) :
    (∀ i ∈ upToFreed s.ref tgt scanned.reverse, i ∈ L .inactive) ∧
      (upToFreed s.ref tgt scanned.reverse).Nodup := by
  have hpre := upToFreed_isPrefix s.ref tgt scanned.reverse
  constructor
  · intro i hi
    rw [hL]
    exact List.mem_append_right _ (List.mem_reverse.mp (hpre.subset hi))
  · have hnd := h.nodup .inactive
    rw [hL] at hnd
    exact hpre.sublist.nodup (List.nodup_reverse.mpr (List.nodup_append.mp hnd).2.1)

theorem bpfLruListShrink_inv (h : Inv n s L) (nrScans tgtNshrink : ℕ) {fuel : ℕ}
    (hfuel : n < fuel) {t : ListType} (ht : uncounted t) :
    ∃ r s' L', bpfLruListShrink nrScans fuel tgtNshrink (.head t) t s = some (r, s') ∧
      Inv n s' L' := by
  have hf := ht.freeList
  obtain ⟨rest, scanned, visited, s₁, L₁, hL, -, hvis, hrun, hfold, h₁, -⟩ :=
    bpfLruListShrinkInactive_queues h.queues_own hf t nrScans tgtNshrink
      (Nat.lt_of_le_of_lt (h.length_le .inactive) hfuel)
  have hvisit : ∀ {s L i}, Inv n s L → i < n →
      ∃ s' L', shrinkNode (.head t) t s i = some s' ∧ Inv n s' L' := by
    intro s L i h hi
    unfold shrinkNode
    split
    · obtain ⟨s', hs', h'⟩ := bpfLruNodeMove_inv h hi .active
      exact ⟨s', _, hs', h'⟩
    · obtain ⟨s', hs', h'⟩ := bpfLruNodeMoveToFree_inv h hi ht
      exact ⟨s', _, hs', h'⟩
  have hlt : ∀ i ∈ visited, i < n := by
    intro i hi
    rw [hvis] at hi
    exact ((h.mem .inactive i).mp ((h.visited hL tgtNshrink).1 i hi)).1
  obtain ⟨L', h'⟩ := h.foldlM hvisit hlt hfold
  by_cases hz : (visited.filter fun i => !s.ref i).length = 0
  · -- nothing was freed: one node is forced off the inactive or the active list
    rw [hz] at hrun
    have hforce : ∀ u : ListType, u.toNat < nrListCount → ∃ s' r L'',
        listForEachEntrySafeReverse (.head u) (forceShrinkBody (.head t) t) fuel s₁ 0 =
          some (s', r) ∧ Inv n s' L'' := by
      intro u hu
      rcases forceShrink_run h'.queues_own hf t hu (Nat.zero_lt_of_lt hfuel) with ⟨-, hloop⟩ |
        ⟨as, x, s', L'', hx, hs', hloop, -⟩
      · exact ⟨s₁, 0, L', hloop, h'⟩
      · have hxn : x < n := ((h'.mem u x).mp (by
          rw [show L' u = as ++ [x] from hx]
          simp)).1
        obtain ⟨s₂, hs₂, h₂⟩ := bpfLruNodeMoveToFree_inv h' hxn ht
        rw [hs', Option.some_inj] at hs₂
        exact ⟨s', 1, _, hloop, hs₂ ▸ h₂⟩
    cases he : listEmpty s₁.links (.head .inactive) with
    | true =>
      obtain ⟨s', r, L'', hs', h''⟩ := hforce .active active_lt
      exact ⟨r, s', L'', by simp [bpfLruListShrink, hrun, he, hs'], h''⟩
    | false =>
      obtain ⟨s', r, L'', hs', h''⟩ := hforce .inactive inactive_lt
      exact ⟨r, s', L'', by simp [bpfLruListShrink, hrun, he, hs'], h''⟩
  · refine ⟨(visited.filter fun i => !s.ref i).length, s₁, L', ?_, h'⟩
    simp only [bpfLruListShrink, hrun, Option.bind_eq_bind, Option.bind_some, if_pos hz]
    rfl

end

/-! ## Initialisation -/

lemma initListHead_linked (m : Mem) (ts : List ListType) (t : ListType) :
    ((ts.foldl (fun m t => initListHead m (.head t)) m).Adj (.head t) (.head t)) ∨
      (t ∉ ts ∧ (ts.foldl (fun m t => initListHead m (.head t)) m).next (.head t) =
          m.next (.head t) ∧
        (ts.foldl (fun m t => initListHead m (.head t)) m).prev (.head t) = m.prev (.head t)) := by
  induction ts generalizing m with
  | nil => exact .inr ⟨by simp, rfl, rfl⟩
  | cons u ts ih =>
    rw [List.foldl_cons]
    rcases ih (initListHead m (.head u)) with hadj | ⟨hmem, hnext, hprev⟩
    · exact .inl hadj
    · by_cases htu : t = u
      · subst htu
        refine .inl ⟨?_, ?_⟩
        · rw [hnext]
          simp [initListHead, Links.setNext, Links.setPrev]
        · rw [hprev]
          simp [initListHead, Links.setNext, Links.setPrev]
      · refine .inr ⟨by simp [htu, hmem], ?_, ?_⟩
        · rw [hnext]
          simp [initListHead, Links.setNext, Links.setPrev, htu]
        · rw [hprev]
          simp [initListHead, Links.setNext, Links.setPrev, htu]

/-- The state the harness starts from: `bpf_lru_list_init` and `bpf_lru_locallist_init` on
memory of any contents, for a map with common lists. -/
def bpfLruInit (mem : State) : State :=
  bpfLruLocallistInit (bpfLruListInit { mem with percpu := false })

lemma bpfLruInit_adj (mem : State) (t : ListType) :
    (bpfLruInit mem).links.Adj (.head t) (.head t) := by
  rcases initListHead_linked (bpfLruListInit { mem with percpu := false }).links
    [.localFree, .localPending] t with hadj | ⟨hmem, hnext, hprev⟩
  · exact hadj
  · rcases initListHead_linked mem.links [.active, .inactive, .free] t with hadj | ⟨hmem', -⟩
    · exact ⟨hnext.trans hadj.1, hprev.trans hadj.2⟩
    · cases t <;> simp at hmem hmem'

lemma bpfLruInit_inv (mem : State) : Inv 0 (bpfLruInit mem) (fun _ => []) where
  bound := by norm_num
  linked := by
    refine ⟨fun t => ⟨?_, by simp⟩, fun t t' a ha ha' => ?_⟩
    · simpa using bpfLruInit_adj mem t
    · simp only [List.map_nil, List.mem_singleton] at ha ha'
      exact Addr.head.inj (ha.symm.trans ha')
  mem := by simp
  counts := fun _ _ => rfl
  cursor := ⟨.head .inactive, by simp [Lists.ring], rfl⟩
  percpu := rfl

lemma populateLoop_inv {i k : ℕ} {s : State} {L : Lists} (h : Inv i s L) (hk : i + k < 2 ^ 32) :
    ∃ s' L', populateLoop i k s = some s' ∧ Inv (i + k) s' L' := by
  induction k generalizing i s L with
  | zero => exact ⟨s, L, rfl, h⟩
  | succ k ih =>
    have hi : ∀ t, i ∉ L t := fun t hm => absurd ((h.mem t i).mp hm).1 (lt_irrefl i)
    obtain ⟨m', hm, hlink⟩ := listAdd_linked h.linked hi .free
    have hnext : Inv (i + 1) { bpfLruNodeClearRef (setType s i .free) i with links := m' }
        (L.push i .free) := {
      bound := by omega
      linked := hlink
      mem := fun t j => by
        have hold := h.mem t j
        simp only [Lists.push, bpfLruNodeClearRef, setType]
        by_cases hj : j = i
        · subst hj
          by_cases ht : t = .free
          · simp [ht]
          · simp [ht, hi, Ne.symm ht]
        · by_cases ht : t = .free
          · subst ht
            simp only [Function.update_self, List.mem_cons, hj, false_or, hold,
              Function.update_of_ne hj]
            exact and_congr_left fun _ => by omega
          · simp only [Function.update_of_ne ht, hold, Function.update_of_ne hj]
            exact and_congr_left fun _ => by omega
      counts := fun t ht => by
        have hne : t ≠ .free := fun he => uncounted_free (he ▸ ht)
        simpa [Lists.push, hne, bpfLruNodeClearRef, setType] using h.counts t ht
      cursor := by simpa [Lists.ring, Lists.push, bpfLruNodeClearRef, setType] using h.cursor
      percpu := h.percpu }
    obtain ⟨s', L', hs', hinv⟩ := ih hnext (by omega)
    refine ⟨s', L', ?_, by rwa [Nat.add_assoc, Nat.add_comm 1 k] at hinv⟩
    rw [← hs', populateLoop]
    simp [bpfLruNodeClearRef, setType, hm]

theorem bpfLruPopulate_inv (mem : State) {n : ℕ} (hn : n < 2 ^ 32) :
    ∃ s L, bpfLruPopulate (bpfLruInit mem) n = some s ∧ Inv n s L := by
  obtain ⟨s, L, hs, h⟩ := populateLoop_inv (k := n) (bpfLruInit_inv mem) (by omega)
  rw [Nat.zero_add] at h
  have hp : (bpfLruInit mem).percpu = false := rfl
  refine ⟨_, L, by simp [bpfLruPopulate, hp, hs]; rfl, ?_⟩
  exact ⟨h.bound, h.linked, h.mem, h.counts, h.cursor, h.percpu⟩

/-! ## Runs -/

/-- The calls on a list of `n` populated nodes. -/
inductive Op (n : ℕ)
  | popFree (hash : ℕ)
  | pushFree (node : Fin n)
  | alloc
  | setRef (node : Fin n)
  | nodeMove (node : Fin n) (tgt : { t : ListType // isLocalListType t = false })
  | rotate (nrScans : ℕ)
  | shrink (nrScans tgtNshrink : ℕ)
  | shrinkLocal (nrScans tgtNshrink : ℕ)
  | flush

def exec {n : ℕ} (fuel : ℕ) (s : State) : Op n → Option State
  | .popFree hash => (bpfLruPopFree s hash).map Prod.snd
  | .pushFree node => bpfLruPushFree s node
  | .alloc => (bpfLruListAlloc s).map Prod.snd
  | .setRef node => some (bpfLruNodeSetRef s node)
  | .nodeMove node tgt => bpfLruNodeMove s node tgt
  | .rotate nrScans => bpfLruListRotate nrScans fuel s
  | .shrink nrScans tgtNshrink =>
      (bpfLruListShrink nrScans fuel tgtNshrink (.head .free) .free s).map Prod.snd
  | .shrinkLocal nrScans tgtNshrink =>
      (bpfLruListShrink nrScans fuel tgtNshrink (.head .localFree) .localFree s).map Prod.snd
  | .flush => localListFlush fuel s

theorem exec_inv {n fuel : ℕ} {s : State} {L : Lists} (h : Inv n s L) (hfuel : 2 * n + 1 < fuel)
    (op : Op n) : ∃ s' L', exec fuel s op = some s' ∧ Inv n s' L' := by
  have hn : n < fuel := by omega
  cases op with
  | popFree hash =>
    obtain ⟨r, s', L', hs', h'⟩ := bpfLruPopFree_inv h hash
    exact ⟨s', L', by simp [exec, hs'], h'⟩
  | pushFree node => exact bpfLruPushFree_inv h node.isLt
  | alloc =>
    obtain ⟨r, s', L', hs', h'⟩ := bpfLruListAlloc_inv h
    exact ⟨s', L', by simp [exec, hs'], h'⟩
  | setRef node => exact ⟨_, L, rfl, bpfLruNodeSetRef_inv h node⟩
  | nodeMove node tgt =>
    obtain ⟨s', hs', h'⟩ := bpfLruNodeMove_inv h node.isLt tgt
    exact ⟨s', _, hs', h'⟩
  | rotate nrScans => exact bpfLruListRotate_inv h nrScans hfuel
  | shrink nrScans tgtNshrink =>
    obtain ⟨r, s', L', hs', h'⟩ := bpfLruListShrink_inv h nrScans tgtNshrink hn uncounted_free
    exact ⟨s', L', by simp [exec, hs'], h'⟩
  | shrinkLocal nrScans tgtNshrink =>
    obtain ⟨r, s', L', hs', h'⟩ :=
      bpfLruListShrink_inv h nrScans tgtNshrink hn uncounted_localFree
    exact ⟨s', L', by simp [exec, hs'], h'⟩
  | flush => exact localListFlush_inv h hn

def execAll {n : ℕ} (fuel : ℕ) : State → List (Op n) → Option State
  | s, [] => some s
  | s, op :: ops => do
      let s ← exec fuel s op
      execAll fuel s ops

theorem execAll_inv {n fuel : ℕ} {s : State} {L : Lists} (h : Inv n s L)
    (hfuel : 2 * n + 1 < fuel) (ops : List (Op n)) :
    ∃ s' L', execAll fuel s ops = some s' ∧ Inv n s' L' := by
  induction ops generalizing s L with
  | nil => exact ⟨s, L, rfl, h⟩
  | cons op ops ih =>
    obtain ⟨s₁, L₁, hs₁, h₁⟩ := exec_inv h hfuel op
    obtain ⟨s', L', hs', h'⟩ := ih h₁
    exact ⟨s', L', by simp [execAll, hs₁, hs'], h'⟩

/-- Initialise, populate `n` nodes and run `ops`; every list fits in the loops' fuel. -/
def run (n : UInt32) (mem : State) (extra : ℕ) (ops : List (Op n.toNat)) : Option State := do
  let s ← bpfLruPopulate (bpfLruInit mem) n.toNat
  execAll (2 * n.toNat + 2 + extra) s ops

lemma run_inv (n : UInt32) (mem : State) (extra : ℕ) (ops : List (Op n.toNat)) :
    ∃ s L, run n mem extra ops = some s ∧ Inv n.toNat s L := by
  obtain ⟨s₀, L₀, hs₀, h₀⟩ := bpfLruPopulate_inv mem n.toNat_lt
  obtain ⟨s, L, hs, h⟩ := execAll_inv h₀ (by omega : _ < 2 * n.toNat + 2 + extra) ops
  exact ⟨s, L, by simp [run, hs₀, hs], h⟩

/-- Every run ends in five circular lists that share the populated nodes among them as their
types say, with the two counters equal to the lengths. -/
theorem run_partition (n : UInt32) (mem : State) (extra : ℕ) (ops : List (Op n.toNat)) :
    ∃ s, run n mem extra ops = some s ∧ ∃ L : ListType → List ℕ,
      (∀ t, IsRing s.links (.head t) ((L t).map .node)) ∧
      (∀ i < n.toNat, ∃! t, i ∈ L t) ∧
      (∀ t, ∀ i ∈ L t, i < n.toNat ∧ s.type i = t) ∧
      s.counts .active = (L .active).length ∧ s.counts .inactive = (L .inactive).length := by
  obtain ⟨s, L, hs, h⟩ := run_inv n mem extra ops
  refine ⟨s, hs, L, h.linked.ring, fun i hi => ?_, fun t i hm => (h.mem t i).mp hm, ?_, ?_⟩
  · exact ⟨s.type i, h.mem_own hi, fun t hm => ((h.mem t i).mp hm).2.symm⟩
  · exact h.counts .active (by decide)
  · exact h.counts .inactive (by decide)

/-- After every run the rotation cursor is the head of the inactive list or linked on it. -/
theorem run_cursor (n : UInt32) (mem : State) (extra : ℕ) (ops : List (Op n.toNat)) :
    ∃ s, run n mem extra ops = some s ∧ ∃ inactive : List ℕ,
      IsRing s.links (.head .inactive) (inactive.map .node) ∧
      (s.nextInactiveRotation = some (.head .inactive) ∨
        ∃ i ∈ inactive, s.nextInactiveRotation = some (.node i)) := by
  obtain ⟨s, L, hs, h⟩ := run_inv n mem extra ops
  refine ⟨s, hs, L .inactive, h.linked.ring .inactive, ?_⟩
  obtain ⟨a, ha, hc⟩ := h.cursor
  simp only [Lists.ring, List.mem_cons, List.mem_map] at ha
  rcases ha with rfl | ⟨i, hi, rfl⟩
  · exact .inl hc
  · exact .inr ⟨i, hi, hc⟩

end BpfVerify.LruList
