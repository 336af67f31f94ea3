import BpfVerify.LruSweep

/-!
# Rotation of the LRU lists

`__bpf_lru_list_rotate_active` sweeps the last nodes of the active list, and
`__bpf_lru_list_rotate_inactive` those that follow the cursor on a walk back around the inactive
one.
-/
namespace BpfVerify.LruList
open ListRing Word

/-- How many of `len` nodes a scan limit lets through; 0 is no limit. -/
def scanLimit (nrScans len : ℕ) : ℕ := if nrScans = 0 then len else min nrScans len

/-! ## The active list -/

/-- One node of `__bpf_lru_list_rotate_active`. -/
def rotateActiveNode (s : State) (node : ℕ) : Option State :=
  if s.ref node then bpfLruNodeMove s node .active else bpfLruNodeMove s node .inactive

/-- Nodes without a reference go to the inactive list. -/
abbrev rotateActiveDest : Bool → Option (Addr × ListType) :=
  promote (some (.head .inactive, .inactive))

def rotateActiveCtl (nrScans : ℕ) (firstNode : Option Addr) (_ : Bool) (x i : ℕ) : Bool × ℕ :=
  (u32 (i + 1) = nrScans || some (Addr.node x) = firstNode, u32 (i + 1))

section
variable {H : Set Addr} {s : State} {L : Heads}

lemma rotateActiveNode_visits : Visits H rotateActiveDest (.head .active) rotateActiveNode := by
  apply promote_visits active_lt (fun s i hr => if_pos hr)
  intro s L i h hi hr
  obtain ⟨s', hs', h', href, htype⟩ := bpfLruNodeMove_queues h active_lt inactive_lt hi
  exact ⟨s', _, by simp [hr, hs'], h',
    .moved h (by simp [hr]) (ref_cleared href) htype⟩

lemma rotateActiveBody_controls (nrScans : ℕ) (firstNode : Option Addr) :
    Controls H (.head .active) rotateActiveNode (rotateActiveBody nrScans firstNode)
      (rotateActiveCtl nrScans firstNode) := by
  intro s s' L x i _ _ hs'
  unfold rotateActiveNode at hs'
  cases hr : s.ref x with
  | true => simp_all [rotateActiveBody, rotateActiveCtl, listEntry]
  | false => simp_all [rotateActiveBody, rotateActiveCtl, listEntry]

/-- The scan limit and the first node `a` end the walk, whichever comes first. -/
lemma rotateActive_scan (nrScans : ℕ) (ref : ℕ → Bool) {a i : ℕ} {w : List ℕ} (ha : a ∉ w)
    (hlen : i + w.length + 1 < 2 ^ 32) (hi : i < nrScans ∨ nrScans = 0) :
    (scan (rotateActiveCtl nrScans (some (.node a))) ref (w ++ [a]) i).1 =
      (w ++ [a]).take (if nrScans = 0 then w.length + 1 else nrScans - i) := by
  induction w generalizing i with
  | nil =>
    have hk : ([a] : List ℕ).take (if nrScans = 0 then 1 else nrScans - i) = [a] := by
      apply List.take_of_length_le
      rw [List.length_singleton]
      split <;> omega
    simpa [scan, rotateActiveCtl] using hk.symm
  | cons x w ih =>
    rw [List.length_cons] at hlen
    have hu : u32 (i + 1) = i + 1 := u32_of_lt (by omega)
    have hxa : x ≠ a := fun he => ha (by simp [he])
    have hc : rotateActiveCtl nrScans (some (.node a)) (ref x) x i =
        (decide (i + 1 = nrScans), i + 1) := by
      simp [rotateActiveCtl, hu, hxa]
    by_cases hn : i + 1 = nrScans
    · have hk : (if nrScans = 0 then (x :: w).length + 1 else nrScans - i) = 1 := by
        rw [if_neg (by omega)]
        omega
      rw [hk]
      simp [scan, hc, hn]
    · have hk : (if nrScans = 0 then (x :: w).length + 1 else nrScans - i) =
          (if nrScans = 0 then w.length + 1 else nrScans - (i + 1)) + 1 := by
        split
        · rfl
        · omega
      have hrest := ih (i := i + 1) (fun hm => ha (List.mem_cons_of_mem _ hm)) (by omega)
        (by omega)
      rw [hk, List.cons_append, List.take_succ_cons, ← hrest]
      simp [scan, hc, hn]

/-- The nodes that the loop visits are the last ones of the list. -/
lemma rotateActive_scanned (h : Queues H s L) (nrScans : ℕ) :
    ∃ rest scanned : List ℕ, L.active = rest ++ scanned ∧
      scanned.length = scanLimit nrScans L.active.length ∧
      (scan (rotateActiveCtl nrScans (s.links.next (.head .active))) s.ref L.active.reverse 0).1 =
        scanned.reverse := by
  have hlt : L.active.length < 2 ^ 32 := h.length_lt active_lt
  have hnext := h.active_ring.next_head
  have hnd : L.active.Nodup := h.nodup (h.heads _ active_lt)
  cases hA : L.active with
  | nil => exact ⟨[], [], rfl, by simp [scanLimit], by simp [scan]⟩
  | cons a l =>
    rw [hA] at hlt hnd
    rw [List.length_cons] at hlt
    simp only [hA, List.map_cons, List.cons_append, List.head_cons] at hnext
    have hscan := rotateActive_scan nrScans s.ref (a := a) (i := 0) (w := l.reverse)
      (by simpa using (List.nodup_cons.mp hnd).1) (by simpa using hlt) (by omega)
    rw [hnext, List.reverse_cons, hscan, ← List.reverse_cons, List.take_reverse]
    refine ⟨_, _, (List.take_append_drop _ _).symm, ?_, rfl⟩
    rw [List.length_drop, List.length_reverse, List.length_cons, scanLimit]
    split <;> omega

lemma bpfLruListRotateActive_scan (h : Queues H s L) (nrScans : ℕ) {fuel : ℕ}
    (hfuel : L.active.length < fuel) :
    ∃ v s', v = (scan (rotateActiveCtl nrScans (s.links.next (.head .active))) s.ref
        L.active.reverse 0).1 ∧ v <+: L.active.reverse ∧
      bpfLruListRotateActive nrScans fuel s = some s' ∧ v.foldlM rotateActiveNode s = some s' := by
  have hnext := h.active_ring.next_head
  have hstop : ∀ x l, L (.head .active) = x :: l → ∀ b acc, (rotateActiveCtl nrScans
      (s.links.next (.head .active)) b x acc).1 = true := by
    intro x l hxl b acc
    simp [rotateActiveCtl, hnext, Heads.active, hxl]
  obtain ⟨s', hrun, hfold⟩ := listForEachEntrySafeReverse_scan rotateActiveNode_visits
    (rotateActiveBody_controls nrScans (s.links.next (.head .active)))
    promote_isSome (h.heads _ active_lt) h (.inr hstop) hfuel 0
  exact ⟨_, s', rfl, scan_isPrefix _ _ _, by simp [bpfLruListRotateActive, hrun], hfold⟩

/-- Active rotation takes the last nodes of the list, as many as the scan limit lets through,
and each of them once: referenced ones come back to its front, the others go to the front of
the inactive list. -/
theorem rotateActive_exact (h : Queues H s L) (nrScans : UInt32) {fuel : ℕ}
    (hfuel : L.active.length < fuel) :
    ∃ rest scanned s' L', L.active = rest ++ scanned ∧
      scanned.length = scanLimit nrScans.toNat L.active.length ∧
      bpfLruListRotateActive nrScans.toNat fuel s = some s' ∧
      scanned.reverse.foldlM rotateActiveNode s = some s' ∧ Queues H s' L' ∧
      L'.active = scanned.filter (fun i => s.ref i) ++ rest ∧
      L'.inactive = scanned.filter (fun i => !s.ref i) ++ L.inactive ∧
      (∀ k ∈ H, k ≠ .head .active → k ≠ .head .inactive → L' k = L k) ∧
      (∀ i, s'.ref i = (s.ref i && decide (i ∉ scanned))) ∧
      ∀ i, s'.type i = if i ∈ scanned ∧ s.ref i = false then .inactive else s.type i := by
  have hH := h.heads _ active_lt
  obtain ⟨rest, scanned, hL, hlen, hscan⟩ := rotateActive_scanned h nrScans.toNat
  obtain ⟨v, s', hv, -, hrun, hfold⟩ := bpfLruListRotateActive_scan h nrScans.toNat hfuel
  rw [hv, hscan] at hfold
  unfold Heads.active at hL
  have hmem : ∀ i ∈ scanned.reverse, i ∈ L (.head .active) := by
    intro i hi
    rw [hL]
    exact List.mem_append_right _ (List.mem_reverse.mp hi)
  have hnd := h.nodup hH
  rw [hL] at hnd
  obtain ⟨-, hnds, hdisj⟩ := List.nodup_append.mp hnd
  obtain ⟨s₁, L', hs₁, h', hw⟩ := rotateActiveNode_visits.sweep hH h hmem
    (List.nodup_reverse.mpr hnds)
  rw [hfold, Option.some_inj] at hs₁
  subst hs₁
  refine ⟨rest, scanned, s', L', hL, hlen, hrun, hfold, h', ?_,
    ?_, fun k hk hka hki => ?_, fun i => ?_, fun i => ?_⟩
  · have hrest : (rest ++ scanned).filter
        (fun i => ¬ (i ∈ scanned.reverse ∧ (rotateActiveDest (s.ref i)).isSome)) = rest := by
      rw [List.filter_append, List.filter_eq_self.mpr, List.filter_eq_nil_iff.mpr,
        List.append_nil]
      · intro i hi
        simp [hi, promote_isSome]
      · intro i hi
        have hs : i ∉ scanned := fun hs => hdisj i hi i hs rfl
        simp [hs]
    rw [Heads.active, hw.lists _ hH, hL, hrest]
    simp only [promote_active (by simp : (some (Addr.head .inactive, ListType.inactive)).map
      Prod.fst ≠ some (.head .active)), List.filter_reverse, List.reverse_reverse,
      Bool.decide_eq_true]
  · rw [Heads.inactive, hw.to_other h hH hmem (h.heads _ inactive_lt) (by simp) (by simp),
      List.filter_reverse, List.reverse_reverse]
    rfl
  · exact hw.elsewhere h hH hmem hk hka hka (by simpa using Ne.symm hki)
  · simp [hw.ref]
  · simp only [hw.promote_type, List.mem_reverse]
    by_cases hi : i ∈ scanned
    · have hty : s.type i = .active := h.typed _ active_lt i (by simp [hL, hi])
      cases s.ref i <;> simp [hi, hty]
    · simp [hi]

theorem rotateActive_exact_sample : ∃ s' L', bpfLruListRotateActive 1 3 sample = some s' ∧
    Queues {.head .active, .head .inactive, .external 0} s' L' ∧
    L'.active = [0] ∧ L'.inactive = [1, 2, 3, 4] := by
  obtain ⟨rest, scanned, s', L', hL, hlen, hrun, -, hq, ha, hi, -⟩ :=
    rotateActive_exact sample_queues 1 (show sampleLists.active.length < 3 by decide)
  obtain ⟨rfl, rfl⟩ := List.append_inj' (show [0] ++ [1] = rest ++ scanned from hL) hlen.symm
  exact ⟨s', L', hrun, hq, ha, hi⟩

/-! ## The inactive list -/

/-- One node of `__bpf_lru_list_rotate_inactive`. -/
def rotateInactiveNode (s : State) (node : ℕ) : Option State :=
  if s.ref node then bpfLruNodeMove s node .active else some s

/-- Nodes without a reference stay where they are. -/
abbrev rotateInactiveDest : Bool → Option (Addr × ListType) := promote none

lemma rotateInactiveNode_visits :
    Visits H rotateInactiveDest (.head .inactive) rotateInactiveNode := by
  apply promote_visits inactive_lt (fun s i hr => if_pos hr)
  intro s L i h hi hr
  refine ⟨s, L, by simp [hr], h, fun k _ => ?_, ref_clear hr rfl, fun j => ?_⟩
  · have hself : (L k).filter (fun j => ¬ (j ∈ [i] ∧ (rotateInactiveDest (s.ref j)).isSome)) =
        L k := by
      apply List.filter_eq_self.mpr
      intro j _
      by_cases hj : j = i
      · simp [hj, hr]
      · simp [hj]
    rw [hself]
    simp [hr]
  · by_cases hj : j = i
    · simp [hj, hr]
    · simp [hj]

lemma Swept.inactive_kept {v : List ℕ} {s' : State} {L' : Heads} (h : Queues H s L)
    (hw : Swept H rotateInactiveDest v s L s' L') :
    L'.inactive = L.inactive.filter fun i => !(decide (i ∈ v) && s.ref i) := by
  have hL' := hw.left_behind (h.heads _ inactive_lt) (by simp) (by simp)
  apply hL'.trans
  apply List.filter_congr
  intro i _
  cases s.ref i <;> simp

lemma filterMap_head (t : ListType) (w : List Addr) :
    (Addr.head t :: w).filterMap listEntry = w.filterMap listEntry := rfl

lemma filterMap_node (x : ℕ) (w : List Addr) :
    (Addr.node x :: w).filterMap listEntry = x :: w.filterMap listEntry := rfl

lemma listEntry_eq_some {a : Addr} {x : ℕ} (h : listEntry a = some x) : a = .node x := by
  cases a with
  | node i => rw [Option.some_inj.mp h]
  | head t => simp [listEntry] at h
  | external k => simp [listEntry] at h

/-- The addresses of the inactive list. -/
def Heads.inactiveRing (L : Heads) : List Addr := .head .inactive :: L.inactive.map .node

lemma Queues.inactiveRing_nodup (h : Queues H s L) : L.inactiveRing.Nodup :=
  (h.ring (h.heads _ inactive_lt)).nodup

/-- The walk goes on to the entry before it in the ring. -/
lemma Queues.prev_walk (h : Queues H s L) {w done : List Addr} {cur : Addr}
    (hrot : L.inactiveRing ~r ((cur :: w).reverse ++ done)) :
    s.links.prev cur = (cur :: (done ++ w.reverse)).getLast? := by
  rw [List.getLast?_eq_getLast_of_ne_nil (by simp)]
  apply (h.ring (h.heads _ inactive_lt)).prev_rotated
  apply hrot.trans
  rw [List.reverse_cons, List.append_assoc, List.singleton_append, ← List.cons_append]
  exact List.isRotated_append

/-- The rest of the walk stays in place when the walk leaves a node. -/
lemma Swept.ring_walk {s' : State} {L' : Heads} {x : ℕ} {w done : List Addr}
    (h : Queues H s L) (hw : Swept H rotateInactiveDest [x] s L s' L')
    (hrot : L.inactiveRing ~r ((.node x :: w).reverse ++ done)) :
    ∃ done', L'.inactiveRing ~r (w.reverse ++ done') := by
  have hlist := hw.inactive_kept h
  rw [List.reverse_cons, List.append_assoc, List.singleton_append] at hrot
  cases hr : s.ref x with
  | false =>
    have hself : L'.inactive = L.inactive := by
      rw [hlist]
      apply List.filter_eq_self.mpr
      intro i _
      by_cases hi : i = x
      · simp [hi, hr]
      · simp [hi]
    exact ⟨.node x :: done, by rwa [Heads.inactiveRing, hself]⟩
  | true =>
    have hring : L'.inactiveRing = L.inactiveRing.filter fun a => a ≠ .node x := by
      have hne : L'.inactive = L.inactive.filter fun i => i ≠ x := by
        rw [hlist]
        apply List.filter_congr
        intro i _
        by_cases hi : i = x
        · simp [hi, hr]
        · simp [hi]
      simp [Heads.inactiveRing, hne, List.filter_map, Function.comp_def]
    have hnd := hrot.nodup_iff.mp h.inactiveRing_nodup
    have hx : Addr.node x ∉ w.reverse ++ done :=
      (List.nodup_cons.mp (List.nodup_middle.mp hnd)).1
    have hkeep : (w.reverse ++ .node x :: done).filter (fun a => a ≠ .node x) =
        w.reverse ++ done := by
      rw [List.mem_append, not_or] at hx
      rw [List.filter_append, List.filter_cons_of_neg (by simp)]
      congr 1
      · exact List.filter_eq_self.mpr fun a ha => by simpa using ne_of_mem_of_not_mem ha hx.1
      · exact List.filter_eq_self.mpr fun a ha => by simpa using ne_of_mem_of_not_mem ha hx.2
    refine ⟨done, ?_⟩
    rw [hring, ← hkeep]
    exact isRotated_filter hrot _

lemma rotateInactiveLoop_node {nrScans i fuel x : ℕ} {last p nxt : Addr} {s s' : State}
    (hi : i < nrScans) (hprev : s.links.prev (.node x) = some p)
    (hs' : rotateInactiveNode s x = some s') :
    rotateInactiveLoop nrScans last (fuel + 1) s (.node x) nxt i =
      if .node x = last then some (s', p)
      else rotateInactiveLoop nrScans last fuel s' p p (u32 (i + 1)) := by
  cases hr : s.ref x with
  | true =>
    have hmove : bpfLruNodeMove s x .active = some s' := by simpa [rotateInactiveNode, hr] using hs'
    simp [rotateInactiveLoop, hi, listEntry, hprev, hr, hmove]
  | false =>
    have hsame : s = s' := by simpa [rotateInactiveNode, hr] using hs'
    subst hsame
    simp [rotateInactiveLoop, hi, listEntry, hprev, hr]

lemma getLast?_tail {x last : ℕ} {l : List ℕ} (hne : x ≠ last)
    (h : (x :: l).getLast? = some last) : l.getLast? = some last := by
  cases l with
  | nil => exact absurd (by simpa using h) hne
  | cons y l => rwa [List.getLast?_cons_cons] at h

/-- A node that a walk ends with and that has no second place on it is the only one. -/
lemma filterMap_nil_of_last {x : ℕ} {w : List Addr} (hx : Addr.node x ∉ w)
    (hlast : (x :: w.filterMap listEntry).getLast? = some x) : w.filterMap listEntry = [] := by
  cases hf : w.filterMap listEntry with
  | nil => rfl
  | cons y ys =>
    rw [hf, List.getLast?_cons_cons] at hlast
    have hmem := List.mem_of_getLast? hlast
    rw [← hf] at hmem
    obtain ⟨a, ha, he⟩ := List.mem_filterMap.mp hmem
    exact absurd (listEntry_eq_some he ▸ ha) hx

/-- The loop visits the nodes of its walk up to `last`, the last of them, as far as the scan
limit goes; it returns the entry that stood before the last visited node at its visit. -/
lemma rotateInactiveLoop_walk (nrScans : ℕ) {w done : List Addr} {cur : Addr} {last : ℕ}
    (nxt : Addr) (i : ℕ) (h : Queues H s L) (hrot : L.inactiveRing ~r ((cur :: w).reverse ++ done))
    (hlast : ((cur :: w).filterMap listEntry).getLast? = some last)
    (hlen : i + ((cur :: w).filterMap listEntry).length < 2 ^ 32) {fuel : ℕ}
    (hfuel : w.length + 1 < fuel) :
    ∃ s' nxt', rotateInactiveLoop nrScans (.node last) fuel s cur nxt i = some (s', nxt') ∧
      (((cur :: w).filterMap listEntry).take (nrScans - i)).foldlM rotateInactiveNode s =
        some s' ∧
      (((cur :: w).filterMap listEntry).take (nrScans - i) = [] → nxt' = nxt) ∧
      ∀ vs x, ((cur :: w).filterMap listEntry).take (nrScans - i) = vs ++ [x] →
        ∃ s₁, vs.foldlM rotateInactiveNode s = some s₁ ∧ s₁.links.prev (.node x) = some nxt' := by
  induction fuel generalizing s L w done cur nxt i with
  | zero => omega
  | succ fuel ih =>
    by_cases hlt : i < nrScans
    · have hprev := h.prev_walk hrot
      have hmem : cur ∈ L.inactiveRing := hrot.mem_iff.mpr (by simp)
      rcases List.mem_cons.mp hmem with rfl | hmem
      · -- the head is passed without being counted
        cases w with
        | nil => simp [listEntry] at hlast
        | cons p w =>
          have hp : s.links.prev (.head .inactive) = some p := by
            rw [hprev, List.reverse_cons, ← List.append_assoc, ← List.cons_append,
              List.getLast?_concat]
          have hrot' : L.inactiveRing ~r ((p :: w).reverse ++ .head .inactive :: done) := by
            simpa using hrot
          rw [filterMap_head] at hlast hlen ⊢
          obtain ⟨s', nxt', hrun, hrest⟩ := ih nxt i h hrot' hlast hlen (by simpa using hfuel)
          refine ⟨s', nxt', ?_, hrest⟩
          rw [← hrun, rotateInactiveLoop]
          simp [hlt, hp]
      · obtain ⟨x, hx, rfl⟩ := List.mem_map.mp hmem
        obtain ⟨p, hp⟩ : ∃ p, s.links.prev (.node x) = some p := by
          rw [hprev, List.getLast?_eq_getLast_of_ne_nil (by simp)]
          exact ⟨_, rfl⟩
        obtain ⟨s₁, L₁, hs₁, h₁, hw⟩ := rotateInactiveNode_visits h hx
        have hk : nrScans - i = (nrScans - (i + 1)) + 1 := by omega
        rw [filterMap_node] at hlast hlen ⊢
        rw [List.length_cons] at hlen
        have hu : u32 (i + 1) = i + 1 := u32_of_lt (by omega)
        rw [hk, List.take_succ_cons, rotateInactiveLoop_node hlt hp hs₁, hu]
        by_cases hxl : x = last
        · -- `last` occurs only once in the walk, so nothing lies behind it
          have hnd := hrot.nodup_iff.mp h.inactiveRing_nodup
          have hxw := (List.nodup_cons.mp (List.nodup_reverse.mp (List.nodup_append.mp hnd).1)).1
          have hnone : w.filterMap listEntry = [] := filterMap_nil_of_last hxw (hxl ▸ hlast)
          refine ⟨s₁, p, by simp [hxl], by simp [hnone, hs₁], by simp, fun vs y hvs => ?_⟩
          rw [hnone, List.take_nil] at hvs
          cases vs with
          | nil =>
            obtain ⟨rfl, -⟩ := List.cons.inj hvs
            exact ⟨s, rfl, hp⟩
          | cons z vs => simp at hvs
        · cases w with
          | nil => exact absurd (by simpa using hlast) hxl
          | cons q w =>
            have hpq : p = q := by
              rw [hprev, List.reverse_cons, ← List.append_assoc, ← List.cons_append,
                List.getLast?_concat, Option.some_inj] at hp
              exact hp.symm
            subst hpq
            obtain ⟨done', hrot'⟩ := hw.ring_walk h hrot
            obtain ⟨s', nxt', hrun, hfold, hnil, hcons⟩ :=
              ih p (i + 1) h₁ hrot' (getLast?_tail hxl hlast) (by omega) (by simpa using hfuel)
            refine ⟨s', nxt', by simp [hxl, hrun], by simp [hs₁, hfold], by simp, fun vs y hvs => ?_⟩
            cases vs with
            | nil =>
              obtain ⟨rfl, hrest⟩ := List.cons.inj hvs
              exact ⟨s, rfl, by rw [hp, hnil hrest]⟩
            | cons z vs =>
              obtain ⟨rfl, hrest⟩ := List.cons.inj hvs
              obtain ⟨s₂, hs₂, hprev₂⟩ := hcons vs y hrest
              exact ⟨s₂, by simp [hs₁, hs₂], hprev₂⟩
    · have hz : nrScans - i = 0 := by omega
      refine ⟨s, nxt, by simp [rotateInactiveLoop, hlt], by simp [hz], by simp, ?_⟩
      simp [hz]

/-- The nodes on the walk back from `cur` around the ring `as ++ cur :: bs`. -/
def backWalk (as : List Addr) (cur : Addr) (bs : List Addr) : List ℕ :=
  (cur :: (as.reverse ++ bs.reverse)).filterMap listEntry

/-- What precedes node `x` on the inactive list `l`: a node, or the head. -/
def entryBefore (l : List ℕ) (x : ℕ) : Addr :=
  ((l.takeWhile (· ≠ x)).getLast?.map Addr.node).getD (.head .inactive)

lemma filterMap_nodes (l : List ℕ) : (l.map Addr.node).filterMap listEntry = l := by
  induction l with
  | nil => rfl
  | cons x l ih => rw [List.map_cons, filterMap_node, ih]

lemma backWalk_perm {as bs : List Addr} {cur : Addr} (hring : L.inactiveRing = as ++ cur :: bs) :
    (backWalk as cur bs).Perm L.inactive := by
  have hperm : (cur :: (as.reverse ++ bs.reverse)).Perm L.inactiveRing := by
    rw [hring]
    exact ((as.reverse_perm.append bs.reverse_perm).cons cur).trans List.perm_middle.symm
  have hnodes : L.inactiveRing.filterMap listEntry = L.inactive := filterMap_nodes _
  rw [← hnodes]
  exact hperm.filterMap _

lemma Queues.prev_entry (h : Queues H s L) {x : ℕ} (hx : x ∈ L.inactive) :
    s.links.prev (.node x) = some (entryBefore L.inactive x) := by
  obtain ⟨as, bs, he⟩ := List.append_of_mem hx
  have hr := h.inactive_ring
  have hnd : L.inactive.Nodup := h.nodup (h.heads _ inactive_lt)
  rw [he] at hr hnd
  have hxa : ∀ a ∈ as, a ≠ x := fun a ha => (List.nodup_append.mp hnd).2.2 a ha x (by simp)
  have htake : (as ++ x :: bs).takeWhile (· ≠ x) = as := by
    rw [List.takeWhile_append_of_pos (by simpa using hxa)]
    simp
  rw [List.map_append, List.map_cons] at hr
  rw [hr.prev_mid, getLast_entries, entryBefore, he, htake]

/-- The walk ends at the node behind the cursor, or at the first node when the head is there. -/
lemma Queues.last_walk (h : Queues H s L) (hne : L.inactive ≠ []) {as bs : List Addr} {cur : Addr}
    (hring : L.inactiveRing = as ++ cur :: bs) :
    ∃ a last, s.links.next cur = some a ∧
      (if a = .head .inactive then s.links.next a else some a) = some (.node last) ∧
      (backWalk as cur bs).getLast? = some last := by
  have hr := h.inactive_ring
  have hnext : s.links.next cur = some ((bs ++ as ++ [cur]).head (by simp)) := by
    apply hr.next_rotated
    rw [← Heads.inactiveRing, hring]
    exact List.isRotated_append
  obtain ⟨f, fs, hf⟩ := List.exists_cons_of_ne_nil hne
  rw [Heads.inactiveRing, hf, List.map_cons] at hring
  cases bs with
  | nil =>
    -- the head is behind the cursor
    cases as with
    | nil => simp at hring
    | cons a as =>
      obtain ⟨rfl, htl⟩ := List.cons.inj hring
      have hfirst : s.links.next (.head .inactive) = some (.node f) := by
        rw [hr.next_head]
        simp [hf]
      have hwalk : cur :: ((Addr.head .inactive :: as).reverse ++ [].reverse) =
          (Addr.head .inactive :: .node f :: fs.map .node).reverse := by
        rw [htl]
        simp
      refine ⟨.head .inactive, f, hnext, by rw [if_pos rfl, hfirst], ?_⟩
      rw [backWalk, hwalk, ← List.map_cons, List.reverse_cons, List.filterMap_append,
        ← List.map_reverse, filterMap_nodes, filterMap_head, List.filterMap_nil, List.append_nil,
        List.reverse_cons, List.getLast?_concat]
  | cons b bs =>
    have hb : b ∈ (f :: fs).map Addr.node := by
      cases as with
      | nil => simp [(List.cons.inj hring).2]
      | cons a as => simp [(List.cons.inj hring).2]
    obtain ⟨i, -, rfl⟩ := List.mem_map.mp hb
    refine ⟨.node i, i, hnext, by simp, ?_⟩
    rw [backWalk, List.reverse_cons, ← List.append_assoc, ← List.cons_append,
      List.filterMap_append, filterMap_node, List.filterMap_nil, List.getLast?_concat]

/-- The visited nodes are distinct nodes of the list, as many as the scan limit allows. -/
lemma Queues.visited_walk (h : Queues H s L) {as bs : List Addr} {cur : Addr}
    (hring : L.inactiveRing = as ++ cur :: bs) {nrScans : ℕ} {visited : List ℕ}
    (hvis : visited = (backWalk as cur bs).take nrScans) :
    visited.Nodup ∧ (∀ i ∈ visited, i ∈ L.inactive) ∧
      visited.length = min nrScans L.inactive.length := by
  have hperm := backWalk_perm hring
  have hnd := hperm.nodup_iff.mpr (h.nodup (h.heads _ inactive_lt))
  subst hvis
  refine ⟨hnd.sublist (List.take_sublist _ _), fun i hi => ?_, ?_⟩
  · exact hperm.mem_iff.mp (List.mem_of_mem_take hi)
  · rw [List.length_take, hperm.length_eq]

/-- The loop with its start and its end: the lists are swept over the visited nodes, and the
cursor is left at the entry that stood before the last of them. -/
lemma rotateInactive_run (h : Queues H s L) (nrScans : ℕ) {fuel : ℕ}
    (hfuel : L.inactive.length + 1 < fuel) (hne : L.inactive ≠ []) {as bs : List Addr}
    {cur : Addr} (hring : L.inactiveRing = as ++ cur :: bs)
    (hcur : s.nextInactiveRotation = some cur) {visited : List ℕ}
    (hvis : visited = (backWalk as cur bs).take nrScans) :
    ∃ s₁ nxt, visited.foldlM rotateInactiveNode s = some s₁ ∧
      bpfLruListRotateInactive nrScans fuel s =
        some { s₁ with nextInactiveRotation := some nxt } ∧
      (visited = [] → nxt = .head .inactive) ∧
      ∀ vs x, visited = vs ++ [x] →
        nxt = entryBefore (L.inactive.filter fun i => !(decide (i ∈ vs) && s.ref i)) x := by
  obtain ⟨hnd, hv, -⟩ := h.visited_walk hring hvis
  have hempty : ¬ listEmpty s.links (.head .inactive) = true := fun he =>
    hne ((h.listEmpty_iff (h.heads _ inactive_lt)).mp he)
  obtain ⟨a, last, hnext, hlast, hwalk⟩ := h.last_walk hne hring
  have hrot : L.inactiveRing ~r ((cur :: (as.reverse ++ bs.reverse)).reverse ++ []) := by
    have hrev : (cur :: (as.reverse ++ bs.reverse)).reverse ++ [] = bs ++ (as ++ [cur]) := by simp
    rw [hrev, hring, List.append_cons]
    exact List.isRotated_append
  have hlen : 0 + (backWalk as cur bs).length < 2 ^ 32 := by
    rw [(backWalk_perm hring).length_eq, Nat.zero_add]
    exact h.length_lt inactive_lt
  have henough : (as.reverse ++ bs.reverse).length + 1 < fuel := by
    have hl := congrArg List.length hring
    simp only [Heads.inactiveRing, List.length_cons, List.length_map, List.length_append] at hl
    simp only [List.length_append, List.length_reverse]
    omega
  obtain ⟨s₁, nxt, hrun, hfold, hnil, hcons⟩ :=
    rotateInactiveLoop_walk nrScans (.head .inactive) 0 h hrot hwalk hlen henough
  rw [Nat.sub_zero, ← backWalk, ← hvis] at hfold hnil hcons
  refine ⟨s₁, nxt, hfold, ?_, hnil, fun vs x hvs => ?_⟩
  · by_cases ha : a = .head .inactive
    · rw [if_pos ha] at hlast
      rw [ha] at hnext hlast
      simp [bpfLruListRotateInactive, hempty, hcur, hnext, hlast, hrun]
    · rw [if_neg ha, Option.some_inj] at hlast
      rw [hlast] at hnext
      simp [bpfLruListRotateInactive, hempty, hcur, hnext, hrun]
  · -- the sweep has come as far as the last visited node
    obtain ⟨s₂, hs₂, hprev⟩ := hcons vs x hvs
    rw [hvs] at hnd hv
    obtain ⟨s₃, L₂, hs₃, h₂, hw₂⟩ := rotateInactiveNode_visits.sweep (h.heads _ inactive_lt) h
      (fun i hi => hv i (List.mem_append_left _ hi)) (List.nodup_append.mp hnd).1
    rw [hs₂, Option.some_inj] at hs₃
    subst hs₃
    have hx : x ∈ L₂.inactive := by
      apply hw₂.mem_of_notMem (h.heads _ inactive_lt) _ (hv x (by simp))
      exact fun hxv => (List.nodup_append.mp hnd).2.2 x hxv x (by simp) rfl
    rw [h₂.prev_entry hx, Option.some_inj, hw₂.inactive_kept h] at hprev
    exact hprev.symm

/-- The cursor is on the list again after the sweep. -/
lemma entryBefore_mem {v vs : List ℕ} {x : ℕ} (hv : v = vs ++ [x]) :
    entryBefore (L.inactive.filter fun i => !(decide (i ∈ vs) && s.ref i)) x ∈
      Addr.head .inactive ::
        (L.inactive.filter fun i => !(decide (i ∈ v) && s.ref i)).map Addr.node := by
  unfold entryBefore
  cases hlast : ((L.inactive.filter fun i => !(decide (i ∈ vs) && s.ref i)).takeWhile
      (· ≠ x)).getLast? with
  | none => simp
  | some y =>
    have hy := List.mem_of_getLast? hlast
    have hyx : y ≠ x := by simpa using List.mem_takeWhile_imp hy
    obtain ⟨hyl, hyk⟩ := List.mem_filter.mp (List.takeWhile_subset _ hy)
    apply List.mem_cons_of_mem
    apply List.mem_map_of_mem
    exact List.mem_filter.mpr ⟨hyl, by simpa [hv, hyx] using hyk⟩

/-- The function sweeps the visited nodes and sets the cursor, which is on the list again. -/
lemma rotateInactive_sweep (h : Queues H s L) (nrScans : ℕ) {fuel : ℕ}
    (hfuel : L.inactive.length + 1 < fuel) {as bs : List Addr} {cur : Addr}
    (hring : L.inactiveRing = as ++ cur :: bs) (hcur : s.nextInactiveRotation = some cur)
    {visited : List ℕ} (hvis : visited = (backWalk as cur bs).take nrScans) :
    ∃ s₁ nxt L', visited.foldlM rotateInactiveNode s = some s₁ ∧
      bpfLruListRotateInactive nrScans fuel s =
        some { s₁ with nextInactiveRotation := some nxt } ∧
      Queues H { s₁ with nextInactiveRotation := some nxt } L' ∧
      nxt ∈ Addr.head .inactive :: L'.inactive.map .node ∧
      Swept H rotateInactiveDest visited s L s₁ L' ∧
      (L.inactive = [] → s₁ = s ∧ s.nextInactiveRotation = some nxt) ∧
      (L.inactive ≠ [] → visited = [] → nxt = .head .inactive) ∧
      ∀ vs x, visited = vs ++ [x] →
        nxt = entryBefore (L.inactive.filter fun i => !(decide (i ∈ vs) && s.ref i)) x := by
  obtain ⟨hnd, hv, hlen⟩ := h.visited_walk hring hvis
  have hI := h.heads _ inactive_lt
  by_cases hne : L.inactive = []
  · have hnil : visited = [] := List.length_eq_zero_iff.mp (by simp [hlen, hne])
    have hempty : listEmpty s.links (.head .inactive) = true := (h.listEmpty_iff hI).mpr hne
    have hsame : { s with nextInactiveRotation := some cur } = s := by rw [← hcur]
    have hcursor : cur ∈ L.inactiveRing := by
      rw [hring]
      exact List.mem_append_right _ List.mem_cons_self
    refine ⟨s, cur, L, by simp [hnil], ?_, hsame ▸ h, hcursor, hnil ▸ .nil, fun _ => ⟨rfl, hcur⟩,
      fun hn => absurd hne hn, by simp [hnil]⟩
    rw [bpfLruListRotateInactive, if_pos hempty, hsame]
  · obtain ⟨s₁, L', hs₁, h₁, hw⟩ := rotateInactiveNode_visits.sweep hI h hv hnd
    obtain ⟨s₂, nxt, hfold, hrun, hnil, hcons⟩ :=
      rotateInactive_run h nrScans hfuel hne hring hcur hvis
    rw [hs₁, Option.some_inj] at hfold
    subst hfold
    have hcursor : nxt ∈ Addr.head .inactive :: L'.inactive.map .node := by
      rw [hw.inactive_kept h]
      rcases List.eq_nil_or_concat visited with hnone | ⟨vs, x, hvs⟩
      · simp [hnil hnone]
      · rw [List.concat_eq_append] at hvs
        rw [hcons vs x hvs]
        exact entryBefore_mem hvs
    exact ⟨s₁, nxt, L', hs₁, hrun,
      ⟨h₁.heads, h₁.rings, h₁.typed, h₁.counts, h₁.bound⟩, hcursor, hw,
      fun hn => absurd hn hne, fun _ => hnil, hcons⟩

/-- Inactive rotation visits the first nodes of the walk back from the cursor, as many as the
scan limit lets through, moves the referenced ones to the front of the active list and leaves
the cursor before the last visited one. -/
theorem rotateInactive_exact (h : Queues H s L) (hcursor : CursorOn s L) (nrScans : UInt32)
    {fuel : ℕ} (hfuel : L.inactive.length + 1 < fuel) :
    ∃ as cur bs visited s' L', L.inactiveRing = as ++ cur :: bs ∧
      s.nextInactiveRotation = some cur ∧
      visited = (backWalk as cur bs).take nrScans.toNat ∧ visited.Nodup ∧
      (∀ i ∈ visited, i ∈ L.inactive) ∧
      visited.length = min nrScans.toNat L.inactive.length ∧
      bpfLruListRotateInactive nrScans.toNat fuel s = some s' ∧
      (∃ s₁, visited.foldlM rotateInactiveNode s = some s₁ ∧
        s' = { s₁ with nextInactiveRotation := s'.nextInactiveRotation }) ∧
      Queues H s' L' ∧ CursorOn s' L' ∧
      L'.active = (visited.filter fun i => s.ref i).reverse ++ L.active ∧
      L'.inactive = L.inactive.filter (fun i => !(decide (i ∈ visited) && s.ref i)) ∧
      (∀ k ∈ H, k ≠ .head .active → k ≠ .head .inactive → L' k = L k) ∧
      (∀ i, s'.ref i = (s.ref i && decide (i ∉ visited))) ∧
      (∀ i, s'.type i = if i ∈ visited ∧ s.ref i = true then .active else s.type i) ∧
      (L.inactive = [] → s' = s) ∧
      (L.inactive ≠ [] → visited = [] → s'.nextInactiveRotation = some (.head .inactive)) ∧
      ∀ vs x, visited = vs ++ [x] → s'.nextInactiveRotation = some
        (entryBefore (L.inactive.filter fun i => !(decide (i ∈ vs) && s.ref i)) x) := by
  obtain ⟨cur, hmem, hcur⟩ := hcursor
  obtain ⟨as, bs, hring⟩ := List.append_of_mem hmem
  obtain ⟨visited, hvis⟩ : ∃ v, v = (backWalk as cur bs).take nrScans.toNat := ⟨_, rfl⟩
  obtain ⟨hnd, hv, hlen⟩ := h.visited_walk hring hvis
  obtain ⟨s₁, nxt, L', hfold, hrun, h', hon, hw, hempty, hnil, hcons⟩ :=
    rotateInactive_sweep h nrScans.toNat hfuel hring hcur hvis
  refine ⟨as, cur, bs, visited, _, L', hring, hcur, hvis, hnd, hv, hlen, hrun, ⟨s₁, hfold, rfl⟩,
    h', ⟨nxt, hon, rfl⟩, hw.to_active h (h.heads _ inactive_lt) hv (by simp) (by simp),
    hw.inactive_kept h, fun k hk hka hki => ?_, hw.ref, fun i => ?_,
    fun hn => ?_, fun hn hno => congrArg some (hnil hn hno),
    fun vs x hvs => congrArg some (hcons vs x hvs)⟩
  · exact hw.elsewhere h (h.heads _ inactive_lt) hv hk hka hki (by simp)
  · show s₁.type i = _
    rw [hw.promote_type]
    by_cases hi : i ∈ visited
    · cases s.ref i <;> simp [hi]
    · simp [hi]
  · obtain ⟨rfl, hc⟩ := hempty hn
    rw [← hc]

theorem rotateInactive_exact_sample : ∃ s' L', bpfLruListRotateInactive 2 5 sample = some s' ∧
    Queues {.head .active, .head .inactive, .external 0} s' L' ∧ CursorOn s' L' ∧
    L'.active = [3, 0, 1] ∧ L'.inactive = [2, 4] ∧
    s'.nextInactiveRotation = some (.head .inactive) := by
  obtain ⟨as, cur, bs, visited, s', L', hring, hcur, hvis, -, -, -, hrun, -, hq, hon, ha, hi, -, -,
    -, -, -, hend⟩ := rotateInactive_exact sample_queues sample_cursor 2
      (show sampleLists.inactive.length + 1 < 5 by decide)
  obtain rfl := Option.some_inj.mp hcur
  obtain ⟨rfl, -, rfl⟩ := (List.append_cons_inj_of_notMem (by decide) (by decide)).mp
    (show [.head .inactive, .node 2] ++ Addr.node 3 :: [.node 4] = as ++ .node 3 :: bs from hring)
  subst hvis
  exact ⟨s', L', hrun, hq, hon, ha, hi, hend [3] 2 rfl⟩

end

end BpfVerify.LruList
