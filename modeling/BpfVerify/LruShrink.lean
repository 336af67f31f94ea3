import BpfVerify.LruRotate

/-!
# Shrinking the LRU lists

`__bpf_lru_list_shrink` sweeps the last inactive nodes, freeing the unreferenced ones, and forces
one node off a list when that freed none.
-/
namespace BpfVerify.LruList
open ListRing Word

/-! ## The first phase -/

/-- One node of `__bpf_lru_list_shrink_inactive`. -/
def shrinkNode (freeList : Addr) (tgtFreeType : ListType) (s : State) (node : ℕ) : Option State :=
  if s.ref node then bpfLruNodeMove s node .active
  else bpfLruNodeMoveToFree s node freeList tgtFreeType

/-- Nodes without a reference are freed. -/
abbrev shrinkDest (freeList : Addr) (tgtFreeType : ListType) : Bool → Option (Addr × ListType) :=
  promote (some (freeList, tgtFreeType))

def shrinkCtl (nrScans tgtNshrink : ℕ) (ref : Bool) (_ : ℕ) (acc : ℕ × ℕ) : Bool × ℕ × ℕ :=
  if ref then (u32 (acc.2 + 1) = nrScans, acc.1, u32 (acc.2 + 1))
  else if u32 (acc.1 + 1) = tgtNshrink then (true, u32 (acc.1 + 1), acc.2)
  else (u32 (acc.2 + 1) = nrScans, u32 (acc.1 + 1), u32 (acc.2 + 1))

/-- The nodes of `w` up to the one that is the `tgt`-th without a reference; 0 is no limit. -/
def upToFreed (ref : ℕ → Bool) : ℕ → List ℕ → List ℕ
  | _, [] => []
  | tgt, x :: w =>
      if ref x then x :: upToFreed ref tgt w
      else if tgt = 1 then [x]
      else x :: upToFreed ref (tgt - 1) w

lemma upToFreed_isPrefix (ref : ℕ → Bool) (tgt : ℕ) (w : List ℕ) : upToFreed ref tgt w <+: w := by
  induction w generalizing tgt with
  | nil => simp [upToFreed]
  | cons x w ih =>
    unfold upToFreed
    split_ifs
    · exact (List.prefix_cons_inj x).mpr (ih tgt)
    · exact ⟨w, rfl⟩
    · exact (List.prefix_cons_inj x).mpr (ih (tgt - 1))

/-- The target is never exceeded. -/
lemma upToFreed_le (ref : ℕ → Bool) {tgt : ℕ} (htgt : 0 < tgt) (w : List ℕ) :
    ((upToFreed ref tgt w).filter fun i => !ref i).length ≤ tgt := by
  induction w generalizing tgt with
  | nil => simp [upToFreed]
  | cons x w ih =>
    unfold upToFreed
    split_ifs with hr hone
    · simpa [hr] using ih htgt
    · simp [hr, hone]
    · have hrest := ih (show 0 < tgt - 1 by omega)
      simp only [hr, Bool.not_false, List.filter_cons_of_pos, List.length_cons]
      omega

/-- Only a freed node ends the sweep before the end of the list. -/
lemma upToFreed_eq_self {ref : ℕ → Bool} {tgt : ℕ} {w : List ℕ}
    (hnone : (upToFreed ref tgt w).filter (fun i => !ref i) = []) : upToFreed ref tgt w = w := by
  induction w with
  | nil => rfl
  | cons x w ih =>
    unfold upToFreed at hnone ⊢
    split_ifs at hnone ⊢ with hr hone
    · rw [ih (by simpa [hr] using hnone)]
    · simp [hr] at hnone
    · simp [hr] at hnone

lemma scan_shrinkCtl (nrScans tgtNshrink : ℕ) (ref : ℕ → Bool) {w : List ℕ} {n i : ℕ}
    (hlen : i + w.length < 2 ^ 32) (hle : n ≤ i) (hi : i < nrScans ∨ nrScans = 0)
    (htgt : n < tgtNshrink ∨ tgtNshrink = 0) :
    (scan (shrinkCtl nrScans tgtNshrink) ref w (n, i)).1 =
        upToFreed ref (tgtNshrink - n)
          (w.take (if nrScans = 0 then w.length else nrScans - i)) ∧
      (scan (shrinkCtl nrScans tgtNshrink) ref w (n, i)).2.1 = n +
        ((scan (shrinkCtl nrScans tgtNshrink) ref w (n, i)).1.filter
          fun i => !ref i).length := by
  induction w generalizing n i with
  | nil => simp [scan, upToFreed]
  | cons x w ih =>
    rw [List.length_cons] at hlen
    have hu : u32 (i + 1) = i + 1 := u32_of_lt (by omega)
    have hn : u32 (n + 1) = n + 1 := u32_of_lt (by omega)
    have htake : (x :: w).take (if nrScans = 0 then (x :: w).length else nrScans - i) =
        x :: w.take (if nrScans = 0 then w.length else nrScans - (i + 1)) := by
      have hk : (if nrScans = 0 then (x :: w).length else nrScans - i) =
          (if nrScans = 0 then w.length else nrScans - (i + 1)) + 1 := by
        split
        · rfl
        · omega
      rw [hk, List.take_succ_cons]
    have hdone : i + 1 = nrScans →
        w.take (if nrScans = 0 then w.length else nrScans - (i + 1)) = [] := by
      intro he
      rw [if_neg (by omega), he, Nat.sub_self, List.take_zero]
    rw [htake]
    cases hr : ref x with
    | true =>
      have hc : shrinkCtl nrScans tgtNshrink (ref x) x (n, i) =
          (decide (i + 1 = nrScans), n, i + 1) := by
        simp [shrinkCtl, hr, hu]
      by_cases hstop : i + 1 = nrScans
      · rw [scan_break (by simp [hc, hstop]), hc, hdone hstop]
        simp [upToFreed, hr]
      · obtain ⟨hvisited, hfreed⟩ := ih (i := i + 1) (by omega) (by omega) (by omega) htgt
        rw [scan_continue (by simp [hc, hstop]), hc]
        exact ⟨by simp [upToFreed, hr, hvisited], by simp [hr, hfreed]⟩
    | false =>
      by_cases hfull : n + 1 = tgtNshrink
      · have hc : shrinkCtl nrScans tgtNshrink (ref x) x (n, i) =
            (true, n + 1, i) := by
          rw [shrinkCtl, hr, if_neg (by simp), hn, if_pos hfull]
        have hone : tgtNshrink - n = 1 := by omega
        rw [scan_break (by rw [hc]), hc]
        simp [upToFreed, hr, hone]
      · have hc : shrinkCtl nrScans tgtNshrink (ref x) x (n, i) =
            (decide (i + 1 = nrScans), n + 1, i + 1) := by
          simp [shrinkCtl, hr, hn, hu, hfull]
        have hmore : tgtNshrink - n ≠ 1 := by omega
        by_cases hstop : i + 1 = nrScans
        · rw [scan_break (by simp [hc, hstop]), hc, hdone hstop]
          simp [upToFreed, hr, hmore]
        · obtain ⟨hvisited, hfreed⟩ :=
            ih (n := n + 1) (i := i + 1) (by omega) (by omega) (by omega) (by omega)
          rw [scan_continue (by simp [hc, hstop]), hc]
          refine ⟨?_, ?_⟩
          · simp [upToFreed, hr, hmore, hvisited, Nat.sub_sub]
          · simp only [hfreed, hr, Bool.not_false, List.filter_cons_of_pos, List.length_cons]
            omega

/-- A list that may take freed nodes: one without a counter. -/
structure FreeList (H : Set Addr) (freeList : Addr) : Prop where
  mem : freeList ∈ H
  active : freeList ≠ .head .active
  inactive : freeList ≠ .head .inactive

lemma FreeList.uncounted {H : Set Addr} {freeList : Addr} (hf : FreeList H freeList)
    (t : ListType) (ht : t.toNat < nrListCount) : freeList ≠ .head t := by
  cases t with
  | active => exact hf.active
  | inactive => exact hf.inactive
  | _ => simp [ListType.toNat, nrListCount] at ht

section
variable {H : Set Addr} {s : State} {L : Heads} {freeList : Addr}

lemma shrinkNode_visits (hf : FreeList H freeList) (ty : ListType) :
    Visits H (shrinkDest freeList ty) (.head .inactive) (shrinkNode freeList ty) := by
  apply promote_visits inactive_lt (fun s i hr => if_pos hr)
  intro s L i h hi hr
  obtain ⟨s', hs', h', href, htype⟩ :=
    bpfLruNodeMoveToFree_queues h inactive_lt hi hf.mem hf.uncounted ty
  exact ⟨s', _, by simp [hr, hs'], h',
    .moved h (by simp [hr]) (ref_clear hr href) htype⟩

lemma shrinkInactiveBody_controls (nrScans tgtNshrink : ℕ) (ty : ListType) :
    Controls H (.head .inactive) (shrinkNode freeList ty)
      (shrinkInactiveBody nrScans tgtNshrink freeList ty) (shrinkCtl nrScans tgtNshrink) := by
  intro s s' L x acc _ _ hs'
  cases hr : s.ref x with
  | true =>
    have hmove : bpfLruNodeMove s x .active = some s' := by simpa [shrinkNode, hr] using hs'
    simp [shrinkInactiveBody, shrinkCtl, listEntry, hr, hmove]
  | false =>
    have hmove : bpfLruNodeMoveToFree s x freeList ty = some s' := by
      simpa [shrinkNode, hr] using hs'
    by_cases hfull : u32 (acc.1 + 1) = tgtNshrink
    · simp [shrinkInactiveBody, shrinkCtl, listEntry, bpfLruDeleteNode, hr, hmove, hfull]
    · simp [shrinkInactiveBody, shrinkCtl, listEntry, bpfLruDeleteNode, hr, hmove, hfull]

lemma Swept.shrunk_inactive {ty : ListType} {v : List ℕ} {s' : State} {L' : Heads}
    (h : Queues H s L) (hf : FreeList H freeList)
    (hw : Swept H (shrinkDest freeList ty) v s L s' L') :
    L'.inactive = L.inactive.filter fun i => i ∉ v := by
  have hL' := hw.left_behind (h.heads _ inactive_lt) (by simp) (by simpa using hf.inactive)
  simp only [promote_isSome, and_true] at hL'
  exact hL'

lemma Swept.shrunk_type {ty : ListType} {v : List ℕ} {s' : State} {L' : Heads}
    (hw : Swept H (shrinkDest freeList ty) v s L s' L') (i : ℕ) :
    s'.type i = if i ∈ v ∧ s.ref i = false then ty
      else if i ∈ v ∧ s.ref i = true then .active else s.type i := by
  rw [hw.promote_type]
  by_cases hi : i ∈ v
  · cases s.ref i <;> simp [hi]
  · simp [hi]

/-- The first phase: the nodes it visits, and the lists it leaves. -/
theorem bpfLruListShrinkInactive_queues (h : Queues H s L) (hf : FreeList H freeList)
    (ty : ListType) (nrScans tgtNshrink : ℕ) {fuel : ℕ} (hfuel : L.inactive.length < fuel) :
    ∃ rest scanned visited s' L', L.inactive = rest ++ scanned ∧
      scanned.length = scanLimit nrScans L.inactive.length ∧
      visited = upToFreed s.ref tgtNshrink scanned.reverse ∧
      bpfLruListShrinkInactive nrScans fuel tgtNshrink freeList ty s =
        some ((visited.filter fun i => !s.ref i).length, s') ∧
      visited.foldlM (shrinkNode freeList ty) s = some s' ∧
      Queues H s' L' ∧ Swept H (shrinkDest freeList ty) visited s L s' L' := by
  have hI := h.heads _ inactive_lt
  have hlen : L.inactive.length < 2 ^ 32 := h.length_lt inactive_lt
  have hscan := scan_shrinkCtl nrScans tgtNshrink s.ref (w := L.inactive.reverse) (n := 0) (i := 0)
    (by simpa using hlen) le_rfl (by omega) (by omega)
  rw [Nat.sub_zero, Nat.sub_zero, Nat.zero_add, List.length_reverse, List.take_reverse] at hscan
  have hdest : ∀ b, (shrinkDest freeList ty b).map Prod.fst ≠ some (.head .inactive) := by
    intro b
    rw [Ne, promote_of_ne (by simp)]
    simp [hf.inactive]
  obtain ⟨s', hrun, hfold⟩ := listForEachEntrySafeReverse_scan (shrinkNode_visits hf ty)
    (shrinkInactiveBody_controls nrScans tgtNshrink ty) promote_isSome hI h
    (.inl hdest) hfuel (0, 0)
  rw [show L (.head .inactive) = L.inactive from rfl] at hrun hfold
  have hpre : (scan (shrinkCtl nrScans tgtNshrink) s.ref L.inactive.reverse (0, 0)).1 <+:
      L.inactive.reverse := scan_isPrefix _ _ _
  have hmem : ∀ i ∈ (scan (shrinkCtl nrScans tgtNshrink) s.ref L.inactive.reverse (0, 0)).1,
      i ∈ L.inactive := fun i hi => List.mem_reverse.mp (hpre.subset hi)
  have hnd := hpre.sublist.nodup (List.nodup_reverse.mpr (h.nodup hI))
  obtain ⟨s₁, L', hs₁, h', hw⟩ := Visits.sweep (shrinkNode_visits hf ty) hI h hmem hnd
  rw [hfold, Option.some_inj] at hs₁
  subst hs₁
  refine ⟨_, _, _, s', L', (List.take_append_drop _ _).symm, ?_, hscan.1, ?_, hfold, h', hw⟩
  · rw [List.length_drop, scanLimit]
    split <;> omega
  · simp [bpfLruListShrinkInactive, hrun, hscan.2]

/-! ## The forced phase -/

/-- The forced phase takes the last node of its list, if there is one. -/
lemma forceShrink_run (h : Queues H s L) (hf : FreeList H freeList) (ty : ListType)
    {u : ListType} (hu : u.toNat < nrListCount) {fuel : ℕ} (hfuel : 0 < fuel) :
    (L (.head u) = [] ∧ listForEachEntrySafeReverse (.head u) (forceShrinkBody freeList ty) fuel
        s 0 = some (s, 0)) ∨
      ∃ as x s' L', L (.head u) = as ++ [x] ∧ bpfLruNodeMoveToFree s x freeList ty = some s' ∧
        listForEachEntrySafeReverse (.head u) (forceShrinkBody freeList ty) fuel s 0 =
          some (s', 1) ∧
        Queues H s' L' ∧ L' (.head u) = as ∧ L' freeList = x :: L freeList ∧
        (∀ k ∈ H, k ≠ .head u → k ≠ freeList → L' k = L k) ∧ s'.ref = s.ref ∧
        s'.type = Function.update s.type x ty := by
  obtain ⟨fuel, rfl⟩ : ∃ k, fuel = k + 1 := ⟨fuel - 1, by omega⟩
  have hH := h.heads u hu
  have hpos := (h.ring hH).prev_head
  obtain ⟨nxt, hnxt⟩ := h.prev_some hH (List.getLast_mem (by simp))
  rw [getLast_entries] at hpos hnxt
  rcases List.eq_nil_or_concat (L (.head u)) with hL | ⟨as, x, hL⟩
  · refine .inl ⟨hL, ?_⟩
    rw [hL] at hpos
    simp only [List.getLast?_nil, Option.map_none, Option.getD_none] at hpos
    simp [listForEachEntrySafeReverse, hpos, forEachSafeReverse]
  · rw [List.concat_eq_append] at hL
    rw [hL, List.getLast?_concat, Option.map_some, Option.getD_some] at hpos hnxt
    have hx : x ∈ L (.head u) := by simp [hL]
    have hkeep : ∀ k ∈ H, k ≠ .head u → (L k).erase x = L k := fun k hk hne =>
      List.erase_of_not_mem fun hm => hne (h.apart hk hH hm hx)
    obtain ⟨s', hs', h', href, htype⟩ :=
      bpfLruNodeMoveToFree_queues h hu hx hf.mem hf.uncounted ty
    refine .inr ⟨as, x, s', L.move x freeList, hL, hs', ?_, h', ?_, ?_, fun k hk hku hkf => ?_,
      href, htype⟩
    · simp [listForEachEntrySafeReverse, hpos, hnxt, forEachSafeReverse, forceShrinkBody,
        listEntry, bpfLruDeleteNode, hs']
    · have hnd := h.nodup hH
      rw [hL] at hnd
      have hxa : x ∉ as := fun ha => (List.nodup_append.mp hnd).2.2 x ha x (by simp) rfl
      rw [Heads.move_of_ne L x (hf.uncounted u hu).symm, hL, List.erase_append_right _ hxa]
      simp
    · rw [Heads.move_self, hkeep freeList hf.mem (hf.uncounted u hu)]
    · rw [Heads.move_of_ne L x hkf, hkeep k hk hku]

/-- After a first phase that freed nothing, the forced phase frees one node. -/
lemma shrink_forced (h : Queues H s L) (hf : FreeList H freeList) (ty : ListType)
    {nrScans tgtNshrink fuel : ℕ} (hfuel : 0 < fuel) {s₁ : State} {L₁ : Heads}
    (hrun : bpfLruListShrinkInactive nrScans fuel tgtNshrink freeList ty s = some (0, s₁))
    (h₁ : Queues H s₁ L₁) :
    ∃ moved s' L', bpfLruListShrink nrScans fuel tgtNshrink freeList ty s =
        some (moved.length, s') ∧
      Queues H s' L' ∧ L' freeList = moved ++ L₁ freeList ∧
      (moved = [] ↔ L₁.active = [] ∧ L₁.inactive = []) ∧ moved.length ≤ 1 ∧
      (∀ as x, L₁.inactive = as ++ [x] →
        moved = [x] ∧ L'.inactive = as ∧ L'.active = L₁.active) ∧
      (L₁.inactive = [] → ∀ as x, L₁.active = as ++ [x] →
        moved = [x] ∧ L'.inactive = [] ∧ L'.active = as) ∧
      (∀ k ∈ H, k ≠ .head .active → k ≠ .head .inactive → k ≠ freeList → L' k = L₁ k) ∧
      s'.ref = s₁.ref ∧ ∀ i, s'.type i = if i ∈ moved then ty else s₁.type i := by
  have hA := h.heads _ active_lt
  have hI := h.heads _ inactive_lt
  have hone : ∀ {x : ℕ} {s' : State}, s'.type = Function.update s₁.type x ty →
      ∀ i, s'.type i = if i ∈ [x] then ty else s₁.type i := by
    intro x s' htype i
    by_cases hi : i = x
    · simp [htype, hi]
    · simp [htype, hi]
  rcases forceShrink_run h₁ hf ty inactive_lt hfuel with ⟨hnil, -⟩ |
    ⟨as, x, s', L', hL, -, hloop, h', hlist, hfree, hother, href, htype⟩
  · have he : listEmpty s₁.links (.head .inactive) = true := (h₁.listEmpty_iff hI).mpr hnil
    rcases forceShrink_run h₁ hf ty active_lt hfuel with ⟨hnil', hloop⟩ |
      ⟨as, x, s', L', hL, -, hloop, h', hlist, hfree, hother, href, htype⟩
    · refine ⟨[], s₁, L₁, by simp [bpfLruListShrink, hrun, he, hloop], h₁, rfl, ?_, by simp,
        fun as x hx => ?_, fun _ as x hx => ?_, fun _ _ _ _ _ => rfl, rfl, by simp⟩
      · simp [Heads.active, Heads.inactive, hnil, hnil']
      · simp [Heads.inactive, hnil] at hx
      · simp [Heads.active, hnil'] at hx
    · refine ⟨[x], s', L', by simp [bpfLruListShrink, hrun, he, hloop], h', hfree, ?_, le_rfl,
        fun as' x' hx => ?_, fun _ as' x' hx => ?_, fun k hk hka _ hkf => hother k hk hka hkf, href,
        hone htype⟩
      · simp [Heads.active, hL]
      · simp [Heads.inactive, hnil] at hx
      · obtain ⟨rfl, hxx⟩ := List.append_inj' (hL.symm.trans hx) rfl
        have hi := hother _ hI (by simp) (Ne.symm hf.inactive)
        exact ⟨hxx, hi.trans hnil, hlist⟩
  · have he : listEmpty s₁.links (.head .inactive) = false := by
      rw [← Bool.not_eq_true, h₁.listEmpty_iff hI, hL]
      simp
    refine ⟨[x], s', L', by simp [bpfLruListShrink, hrun, he, hloop], h', hfree, ?_, le_rfl,
      fun as' x' hx => ?_, fun hn => ?_, fun k hk _ hki hkf => hother k hk hki hkf, href,
      hone htype⟩
    · simp [Heads.inactive, hL]
    · obtain ⟨rfl, hxx⟩ := List.append_inj' (hL.symm.trans hx) rfl
      exact ⟨hxx, hlist, hother _ hA (by simp) (Ne.symm hf.active)⟩
    · simp [Heads.inactive, hL] at hn

/-- Shrinking returns the number of nodes it put on the free list. It frees the unreferenced ones
among the last inactive nodes, up to the target, and if there is none, the last node that the
inactive or else the active list then has. -/
theorem shrink_exact (h : Queues H s L) (hf : FreeList H freeList) (ty : ListType)
    (nrScans tgtNshrink : UInt32) {fuel : ℕ} (hfuel : L.inactive.length < fuel) :
    ∃ rest scanned visited moved s' L', L.inactive = rest ++ scanned ∧
      scanned.length = scanLimit nrScans.toNat L.inactive.length ∧
      visited = upToFreed s.ref tgtNshrink.toNat scanned.reverse ∧ visited <+: scanned.reverse ∧
      bpfLruListShrink nrScans.toNat fuel tgtNshrink.toNat freeList ty s =
        some (moved.length, s') ∧
      Queues H s' L' ∧ L' freeList = moved ++ L freeList ∧
      (moved = [] ↔ L.active = [] ∧ L.inactive = []) ∧
      (0 < tgtNshrink.toNat → moved.length ≤ tgtNshrink.toNat) ∧
      (visited.filter (fun i => !s.ref i) ≠ [] →
        moved = (visited.filter fun i => !s.ref i).reverse ∧
        L'.active = (visited.filter fun i => s.ref i).reverse ++ L.active ∧
        L'.inactive = L.inactive.filter fun i => i ∉ visited) ∧
      (visited.filter (fun i => !s.ref i) = [] → visited = scanned.reverse ∧
        (∀ as x, rest = as ++ [x] →
          moved = [x] ∧ L'.inactive = as ∧ L'.active = scanned ++ L.active) ∧
        (rest = [] → ∀ as x, scanned ++ L.active = as ++ [x] →
          moved = [x] ∧ L'.inactive = [] ∧ L'.active = as)) ∧
      (∀ k ∈ H, k ≠ .head .active → k ≠ .head .inactive → k ≠ freeList → L' k = L k) ∧
      (∀ i, s'.ref i = (s.ref i && decide (i ∉ visited))) ∧
      ∀ i, s'.type i = if i ∈ moved then ty
        else if i ∈ visited ∧ s.ref i = true then .active else s.type i := by
  obtain ⟨rest, scanned, visited, s₁, L₁, hL, hlen, hvis, hrun, -, h₁, hw⟩ :=
    bpfLruListShrinkInactive_queues h hf ty nrScans.toNat tgtNshrink.toNat hfuel
  have hpre : visited <+: scanned.reverse := hvis ▸ upToFreed_isPrefix _ _ _
  have hv : ∀ i ∈ visited, i ∈ L.inactive := by
    intro i hi
    rw [hL]
    exact List.mem_append_right _ (List.mem_reverse.mp (hpre.subset hi))
  have hinactive := hw.shrunk_inactive h hf
  have hI := h.heads _ inactive_lt
  have hactive := hw.to_active h hI hv (by simp) (by simpa using hf.active)
  have hfree := hw.to_other h hI hv hf.mem hf.active hf.inactive
  have hother : ∀ k ∈ H, k ≠ .head .active → k ≠ .head .inactive → k ≠ freeList → L₁ k = L k :=
    fun k hk hka hki hkf => hw.elsewhere h hI hv hk hka hki (by simpa using Ne.symm hkf)
  by_cases hfreed : visited.filter (fun i => !s.ref i) = []
  · -- everything scanned was referenced and went to the active list
    have hall : visited = scanned.reverse := by
      rw [hvis] at hfreed ⊢
      exact upToFreed_eq_self hfreed
    have hprom : visited.filter (fun i => s.ref i) = visited :=
      List.filter_eq_self.mpr fun i hi => by
        simpa using List.filter_eq_nil_iff.mp hfreed i hi
    have hnd : (rest ++ scanned).Nodup := hL ▸ h.nodup (h.heads _ inactive_lt)
    have hrest : L₁.inactive = rest := by
      rw [hinactive, hL, List.filter_append, List.filter_eq_self.mpr, List.filter_eq_nil_iff.mpr,
        List.append_nil]
      · simp [hall]
      · intro i hi
        have his : i ∉ scanned := fun his => (List.nodup_append.mp hnd).2.2 i hi i his rfl
        simp [hall, his]
    rw [hprom, hall, List.reverse_reverse] at hactive
    rw [hfreed, List.reverse_nil, List.nil_append] at hfree
    rw [hfreed] at hrun
    obtain ⟨moved, s', L', hrun', h', hfree', hnil, hle, hforceI, hforceA, hother', href, htype⟩ :=
      shrink_forced h hf ty (by omega) hrun h₁
    rw [hfree] at hfree'
    rw [hrest, hactive] at hnil hforceI hforceA
    refine ⟨rest, scanned, visited, moved, s', L', hL, hlen, hvis, hpre, hrun', h', hfree', ?_,
      fun htgt => by omega, fun hn => absurd hfreed hn, fun _ => ⟨hall, hforceI, hforceA⟩,
      fun k hk hka hki hkf => (hother' k hk hka hki hkf).trans (hother k hk hka hki hkf),
      fun i => by rw [href, hw.ref], fun i => ?_⟩
    · rw [hnil, hL, List.append_eq_nil_iff, List.append_eq_nil_iff]
      tauto
    · have hfi : ¬ (i ∈ visited ∧ s.ref i = false) := fun hi => by
        have hm : i ∈ visited.filter (fun i => !s.ref i) := List.mem_filter.mpr (by simpa using hi)
        simp [hfreed] at hm
      rw [htype, hw.shrunk_type, if_neg hfi]
  · have hpos : (visited.filter fun i => !s.ref i).length ≠ 0 := by
      rwa [Ne, List.length_eq_zero_iff]
    refine ⟨rest, scanned, visited, (visited.filter fun i => !s.ref i).reverse, s₁, L₁, hL, hlen,
      hvis, hpre, ?_, h₁, hfree, ?_, ?_, fun _ => ⟨rfl, hactive, hinactive⟩,
      fun hn => absurd hn hfreed, hother, hw.ref, ?_⟩
    · simp only [bpfLruListShrink, hrun, Option.bind_eq_bind, Option.bind_some, if_pos hpos,
        List.length_reverse]
      rfl
    · refine ⟨fun hn => absurd (List.reverse_eq_nil_iff.mp hn) hfreed, fun hn => ?_⟩
      obtain ⟨i, hi⟩ := List.exists_mem_of_ne_nil _ hfreed
      have hin := hv i (List.mem_filter.mp hi).1
      simp [hn.2] at hin
    · intro htgt
      rw [List.length_reverse, hvis]
      exact upToFreed_le s.ref htgt _
    · intro i
      rw [hw.shrunk_type]
      simp

theorem shrink_exact_sample : ∃ s' L', bpfLruListShrink 2 4 1 (.external 0) .localFree sample =
      some (1, s') ∧
    Queues {.head .active, .head .inactive, .external 0} s' L' ∧
    L' (.external 0) = [4] ∧ L'.active = [0, 1] ∧ L'.inactive = [2, 3] := by
  have hf : FreeList {.head .active, .head .inactive, .external 0} (.external 0) :=
    ⟨by simp, by simp, by simp⟩
  obtain ⟨rest, scanned, visited, moved, s', L', hL, hlen, hvis, -, hrun, hq, hfree, -, -, hmoved,
    -⟩ := shrink_exact sample_queues hf .localFree 2 1
      (show sampleLists.inactive.length < 4 by decide)
  obtain ⟨rfl, rfl⟩ := List.append_inj' (show [2] ++ [3, 4] = rest ++ scanned from hL) hlen.symm
  subst hvis
  obtain ⟨rfl, ha, hi⟩ := hmoved (by decide)
  exact ⟨s', L', hrun, hq, hfree, ha, hi⟩

end

end BpfVerify.LruList
