import BpfVerify.LruInvariant

/-!
# Sweeps over the LRU lists

Rotation and shrinking walk back over one list and move the nodes they visit to the front of
lists that the nodes' reference bits pick. What such a sweep leaves depends on the visited nodes
alone, and the loops are shown to visit the nodes they promise.
-/
namespace BpfVerify.LruList
open ListRing Word

/-- The nodes of the list behind every list head, in order. -/
abbrev Heads := Addr → List ℕ

/-- `node` taken from its list and put in front of the list of `head`. -/
def Heads.move (L : Heads) (node : ℕ) (head : Addr) : Heads :=
  fun k => if k = head then node :: (L k).erase node else (L k).erase node

def Heads.active (L : Heads) : List ℕ := L (.head .active)

def Heads.inactive (L : Heads) : List ℕ := L (.head .inactive)

/-- The memory holds the lists of the heads `H`, the active and the inactive one among them,
whose nodes have these types and whose lengths the counters tell. A `u32` counts the nodes of a
map. -/
structure Queues (H : Set Addr) (s : State) (L : Heads) : Prop where
  heads : ∀ t, t.toNat < nrListCount → Addr.head t ∈ H
  rings : Rings s.links (fun k : H => k.val) (fun k => (L k).map .node)
  typed : ∀ t, t.toNat < nrListCount → ∀ i ∈ L (.head t), s.type i = t
  counts : ∀ t, t.toNat < nrListCount → s.counts t = (L (.head t)).length
  bound : L.active.length + L.inactive.length < 2 ^ 32

/-- The cursor is on the inactive list or its head. -/
def CursorOn (s : State) (L : Heads) : Prop :=
  ∃ a ∈ Addr.head .inactive :: L.inactive.map .node, s.nextInactiveRotation = some a

section
variable {H : Set Addr} {s : State} {L : Heads}

lemma active_lt : ListType.active.toNat < nrListCount := by decide

lemma inactive_lt : ListType.inactive.toNat < nrListCount := by decide

lemma Queues.ring (h : Queues H s L) {k : Addr} (hk : k ∈ H) :
    IsRing s.links k ((L k).map .node) := h.rings.ring ⟨k, hk⟩

lemma Queues.active_ring (h : Queues H s L) :
    IsRing s.links (.head .active) (L.active.map .node) := h.ring (h.heads _ active_lt)

lemma Queues.inactive_ring (h : Queues H s L) :
    IsRing s.links (.head .inactive) (L.inactive.map .node) := h.ring (h.heads _ inactive_lt)

lemma Queues.listEmpty_iff (h : Queues H s L) {k : Addr} (hk : k ∈ H) :
    listEmpty s.links k = true ↔ L k = [] := by
  have hn := (h.ring hk).next_head
  cases hL : L k with
  | nil => simp [listEmpty, hn, hL]
  | cons a l =>
    have hne : Addr.node a ≠ k :=
      ne_of_mem_of_not_mem (List.mem_map_of_mem (by simp [hL])) (h.ring hk).notMem
    simp [listEmpty, hn, hL, hne]

lemma Queues.nodup (h : Queues H s L) {k : Addr} (hk : k ∈ H) : (L k).Nodup :=
  List.Nodup.of_map _ (h.ring hk).nodup_nodes

lemma Queues.apart (h : Queues H s L) {k k' : Addr} (hk : k ∈ H) (hk' : k' ∈ H) {i : ℕ}
    (hi : i ∈ L k) (hi' : i ∈ L k') : k = k' :=
  congrArg Subtype.val (h.rings.apart ⟨k, hk⟩ ⟨k', hk'⟩ (.node i)
    (List.mem_cons_of_mem _ (List.mem_map_of_mem hi))
    (List.mem_cons_of_mem _ (List.mem_map_of_mem hi')))

lemma length_lt_of_bound {t : ListType} (ht : t.toNat < nrListCount)
    (hb : L.active.length + L.inactive.length < 2 ^ 32) : (L (.head t)).length < 2 ^ 32 := by
  unfold Heads.active Heads.inactive at hb
  cases t with
  | active => omega
  | inactive => omega
  | free => simp [ListType.toNat, nrListCount] at ht
  | localFree => simp [ListType.toNat, nrListCount] at ht
  | localPending => simp [ListType.toNat, nrListCount] at ht

lemma Queues.length_lt (h : Queues H s L) {t : ListType} (ht : t.toNat < nrListCount) :
    (L (.head t)).length < 2 ^ 32 := length_lt_of_bound ht h.bound

/-- The lists of an LRU and those of its callers, by their heads. -/
def Lists.heads (L : Lists) (E : ℕ → List ℕ) : Heads
  | .head t => L t
  | .external k => E k
  | .node _ => []

/-- The partition puts the five lists in order, next to any lists of callers that hold other
nodes. -/
theorem Inv.queues {n : ℕ} {s : State} {L : Lists} (h : Inv n s L) {ext : Set ℕ}
    {E : ℕ → List ℕ} (hring : ∀ k ∈ ext, IsRing s.links (.external k) ((E k).map .node))
    (hout : ∀ k ∈ ext, ∀ i ∈ E k, n ≤ i)
    (hapart : ∀ k ∈ ext, ∀ k' ∈ ext, ∀ i ∈ E k, i ∈ E k' → k = k') :
    Queues (Set.range .head ∪ .external '' ext) s (L.heads E) where
  heads := fun t _ => .inl ⟨t, rfl⟩
  rings := by
    refine ⟨fun ⟨k, hk⟩ => ?_, fun ⟨k, hk⟩ ⟨k', hk'⟩ a ha ha' => Subtype.ext ?_⟩
    · rcases hk with ⟨t, rfl⟩ | ⟨k, hk, rfl⟩
      · exact h.linked.ring t
      · exact hring k hk
    · have hnode : ∀ {l : List ℕ} {a : Addr}, a ∈ l.map Addr.node → ∃ i ∈ l, a = .node i := by
        intro l a ha
        obtain ⟨i, hi, he⟩ := List.mem_map.mp ha
        exact ⟨i, hi, he.symm⟩
      rcases hk with ⟨t, rfl⟩ | ⟨k, hk, rfl⟩ <;> rcases hk' with ⟨t', rfl⟩ | ⟨k', hk', rfl⟩
      · exact congrArg Addr.head (h.linked.apart t t' a ha ha')
      · rcases List.mem_cons.mp ha with rfl | ha
        · simp [Lists.heads] at ha'
        · obtain ⟨i, hi, rfl⟩ := hnode ha
          have hi' : i ∈ E k' := by simpa [Lists.heads] using ha'
          exact absurd ((h.mem t i).mp hi).1 (not_lt.mpr (hout k' hk' i hi'))
      · rcases List.mem_cons.mp ha' with rfl | ha'
        · simp [Lists.heads] at ha
        · obtain ⟨i, hi, rfl⟩ := hnode ha'
          have hi' : i ∈ E k := by simpa [Lists.heads] using ha
          exact absurd ((h.mem t' i).mp hi).1 (not_lt.mpr (hout k hk i hi'))
      · rcases List.mem_cons.mp ha with rfl | ha
        · simpa [Lists.heads] using ha'
        · obtain ⟨i, hi, rfl⟩ := hnode ha
          have hi' : i ∈ E k' := by simpa [Lists.heads] using ha'
          exact congrArg Addr.external (hapart k hk k' hk' i hi hi')
  typed := fun t _ i hi => ((h.mem t i).mp hi).2
  counts := h.counts
  bound := by
    have hnd : (L .active ++ L .inactive).Nodup :=
      List.nodup_append.mpr ⟨h.nodup _, h.nodup _, fun i hi j hj he => by
        have ha := ((h.mem _ _).mp hi).2
        have hb := ((h.mem _ _).mp hj).2
        simp [he, hb] at ha⟩
    have hsub : L .active ++ L .inactive ⊆ List.range n := fun i hi => by
      rcases List.mem_append.mp hi with hi | hi
      · exact List.mem_range.mpr ((h.mem _ i).mp hi).1
      · exact List.mem_range.mpr ((h.mem _ i).mp hi).1
    have hle := (hnd.subperm hsub).length_le
    rw [List.length_append, List.length_range] at hle
    exact Nat.lt_of_le_of_lt hle h.bound

/-- Without lists of callers. -/
lemma Inv.queues_own {n : ℕ} {s : State} {L : Lists} (h : Inv n s L) :
    Queues (Set.range .head ∪ .external '' ∅) s (L.heads fun _ => []) :=
  h.queues (by simp) (by simp) (by simp)

/-! ## One move -/

lemma Queues.listMove (h : Queues H s L) {k k' : Addr} (hk : k ∈ H) (hk' : k' ∈ H) {i : ℕ}
    (hi : i ∈ L k) :
    ∃ m', LruList.listMove s.links (.node i) k' = some m' ∧
      Rings m' (fun k : H => k.val) (fun k => (L.move i k' k).map .node) := by
  obtain ⟨p, n, n', hp, hn, hn', hr⟩ :=
    h.rings.move (s := ⟨k, hk⟩) (List.mem_map_of_mem (f := Addr.node) hi) ⟨k', hk'⟩
  have hadd : listAdd (listDelBetween s.links p n) (.node i) k' =
      some (listAddBetween (listDelBetween s.links p n) (.node i) k' n') := by
    rw [listAdd, show (listDelBetween s.links p n).next k' = some n' from hn']
    rfl
  refine ⟨_, by rw [LruList.listMove, hp, hn]; exact hadd, ?_⟩
  have hmap : (fun a : H => (L.move i k' a).map Addr.node) = fun a : H =>
      if a = ⟨k', hk'⟩ then .node i :: ((L a).map .node).erase (.node i)
      else ((L a).map .node).erase (.node i) := by
    funext a
    simp only [Heads.move, Subtype.ext_iff]
    split <;> simp [List.map_erase node_injective]
  rw [hmap]
  exact hr

lemma Heads.move_of_ne (L : Heads) (i : ℕ) {k k' : Addr} (hne : k ≠ k') :
    L.move i k' k = (L k).erase i := if_neg hne

lemma Heads.move_self (L : Heads) (i : ℕ) (k : Addr) : L.move i k k = i :: (L k).erase i :=
  if_pos rfl

/-- Only the list of the node and the one it goes to change in length. -/
lemma Queues.length_move (h : Queues H s L) {u t : ListType} {k : Addr}
    (hu : u.toNat < nrListCount) (ht : t.toNat < nrListCount) {i : ℕ} (hi : i ∈ L (.head u)) :
    (L.move i k (.head t)).length + (if u = t then 1 else 0) =
      (L (.head t)).length + (if .head t = k then 1 else 0) := by
  have herase : ((L (.head t)).erase i).length + (if u = t then 1 else 0) =
      (L (.head t)).length := by
    by_cases hut : u = t
    · subst hut
      have hpos : 0 < (L (.head u)).length := List.length_pos_of_mem hi
      rw [List.length_erase_of_mem hi, if_pos rfl]
      omega
    · have hm : i ∉ L (.head t) := fun hm =>
        hut (Addr.head.inj (h.apart (h.heads u hu) (h.heads t ht) hi hm))
      rw [List.erase_of_not_mem hm, if_neg hut, Nat.add_zero]
  unfold Heads.move
  split
  · rw [List.length_cons]
    omega
  · omega

lemma Queues.bound_move (h : Queues H s L) {u : ListType} (hu : u.toNat < nrListCount) {i : ℕ}
    (hi : i ∈ L (.head u)) (k : Addr) :
    (L.move i k).active.length + (L.move i k).inactive.length < 2 ^ 32 := by
  have ha := h.length_move (k := k) hu active_lt hi
  have hb := h.length_move (k := k) hu inactive_lt hi
  have hbound := h.bound
  have hone : (if u = .active then 1 else 0) + (if u = .inactive then 1 else 0) = 1 := by
    cases u <;> simp_all [ListType.toNat, nrListCount]
  have hle : (if Addr.head .active = k then 1 else 0) +
      (if Addr.head .inactive = k then 1 else 0) ≤ 1 := by
    by_cases hk : Addr.head .active = k
    · simp [← hk]
    · simp only [hk, if_false]
      split <;> omega
  unfold Heads.active Heads.inactive at *
  omega

lemma Queues.counts_move (h : Queues H s L) {u t t' : ListType} (hu : u.toNat < nrListCount)
    (ht' : t'.toNat < nrListCount) {i : ℕ} (hi : i ∈ L (.head u)) {k : Addr} {c : ℕ}
    (hk : Addr.head t' = k ↔ t' = t)
    (hc : c = if u = t then (L (.head t')).length
      else if t' = t then u32 ((L (.head t')).length + 1)
      else if t' = u then sub32 (L (.head t')).length 1 else (L (.head t')).length) :
    c = (L.move i k (.head t')).length := by
  have hlen := h.length_move (k := k) hu ht' hi
  simp only [hk] at hlen
  exact counts_moved hlen (h.length_lt ht') (length_lt_of_bound ht' (h.bound_move hu hi k)) hc

/-- A node of the active or the inactive list changes lists: with links, type and counters set,
the lists are in order again. -/
lemma Queues.relink (h : Queues H s L) {u : ListType} (hu : u.toNat < nrListCount) {i : ℕ}
    (hi : i ∈ L (.head u)) {k : Addr} {ty : ListType}
    (hty : ∀ t, t.toNat < nrListCount → .head t = k → ty = t) {s₁ : State}
    (hl : Rings s₁.links (fun k : H => k.val) (fun a => (L.move i k a).map .node))
    (ht : s₁.type = Function.update s.type i ty)
    (hc : ∀ t, t.toNat < nrListCount → s₁.counts t = (L.move i k (.head t)).length) :
    Queues H s₁ (L.move i k) where
  heads := h.heads
  rings := hl
  typed := fun t htc j hj => by
    rw [ht]
    by_cases hji : j = i
    · subst hji
      rw [Function.update_self]
      unfold Heads.move at hj
      split at hj
      · exact hty t htc ‹_›
      · exact absurd hj (h.nodup (h.heads t htc)).not_mem_erase
    · rw [Function.update_of_ne hji]
      apply h.typed t htc
      unfold Heads.move at hj
      split at hj
      · exact List.mem_of_mem_erase ((List.mem_cons.mp hj).resolve_left hji)
      · exact List.mem_of_mem_erase hj
  counts := hc
  bound := h.bound_move hu hi k

theorem bpfLruNodeMove_queues (h : Queues H s L) {u t : ListType} (hu : u.toNat < nrListCount)
    (ht : t.toNat < nrListCount) {i : ℕ} (hi : i ∈ L (.head u)) :
    ∃ s', bpfLruNodeMove s i t = some s' ∧ Queues H s' (L.move i (.head t)) ∧
      s'.ref = Function.update s.ref i false ∧ s'.type = Function.update s.type i t := by
  obtain ⟨m', hm, hlink⟩ := h.listMove (h.heads u hu) (h.heads t ht) hi
  obtain ⟨c, hs', hc⟩ := bpfLruNodeMove_eq hm
  refine ⟨_, hs', ?_, rfl, rfl⟩
  refine h.relink hu hi (fun t' _ he => (Addr.head.inj he).symm) hlink rfl ?_
  intro t' ht'
  have hc' := hc t' ht'
  rw [h.counts t' ht', h.typed u hu i hi] at hc'
  exact h.counts_move hu ht' hi (by simp) hc'

theorem bpfLruNodeMoveToFree_queues (h : Queues H s L) {u : ListType}
    (hu : u.toNat < nrListCount) {i : ℕ} (hi : i ∈ L (.head u)) {freeList : Addr}
    (hf : freeList ∈ H) (hne : ∀ t, t.toNat < nrListCount → freeList ≠ .head t)
    (ty : ListType) :
    ∃ s', bpfLruNodeMoveToFree s i freeList ty = some s' ∧ Queues H s' (L.move i freeList) ∧
      s'.ref = s.ref ∧ s'.type = Function.update s.type i ty := by
  obtain ⟨m', hm, hlink⟩ := h.listMove (h.heads u hu) hf hi
  obtain ⟨c, hs', hc⟩ := bpfLruNodeMoveToFree_eq hm ty
  refine ⟨_, hs', ?_, rfl, rfl⟩
  refine h.relink hu hi (fun t' ht' he => absurd he.symm (hne t' ht')) hlink rfl ?_
  intro t' ht'
  have hnf : t' ≠ .free := fun he => uncounted_free (he ▸ ht')
  have hnu : u ≠ .free := fun he => uncounted_free (he ▸ hu)
  have hc' := hc t' ht'
  rw [h.counts t' ht', h.typed u hu i hi] at hc'
  have hk : Addr.head t' = freeList ↔ t' = .free := by simp [hnf, Ne.symm (hne t' ht')]
  exact h.counts_move hu ht' hi hk (by rw [if_neg hnu, if_neg hnf]; exact hc')

end

/-! ## Sweeps -/

/-- What a sweep over the nodes `v` leaves: a node with reference bit `b` goes to the list and
takes the type of `dest b`, if there is one, in front of those that went there before; the bits
of the visited nodes are clear. -/
structure Swept (H : Set Addr) (dest : Bool → Option (Addr × ListType)) (v : List ℕ)
    (s : State) (L : Heads) (s' : State) (L' : Heads) : Prop where
  lists : ∀ k ∈ H, L' k = (v.filter fun i => (dest (s.ref i)).map Prod.fst = some k).reverse ++
    (L k).filter fun i => ¬ (i ∈ v ∧ (dest (s.ref i)).isSome)
  ref : ∀ i, s'.ref i = (s.ref i && decide (i ∉ v))
  type : ∀ i, s'.type i =
    if i ∈ v then ((dest (s.ref i)).map Prod.snd).getD (s.type i) else s.type i

/-- `visit` handles a node of the list of `src` as `dest` says. -/
def Visits (H : Set Addr) (dest : Bool → Option (Addr × ListType)) (src : Addr)
    (visit : State → ℕ → Option State) : Prop :=
  ∀ {s : State} {L : Heads} {i : ℕ}, Queues H s L → i ∈ L src →
    ∃ s' L', visit s i = some s' ∧ Queues H s' L' ∧ Swept H dest [i] s L s' L'

section
variable {H : Set Addr} {dest : Bool → Option (Addr × ListType)} {src : Addr}
  {visit : State → ℕ → Option State} {s s₁ s' : State} {L L₁ L' : Heads} {v : List ℕ} {x : ℕ}

lemma Swept.nil : Swept H dest [] s L s L where
  lists := by simp
  ref := by simp
  type := by simp

/-- Nodes that are still to be visited keep their reference bit. -/
lemma Swept.ref_of_notMem (h : Swept H dest v s L s' L') {i : ℕ} (hi : i ∉ v) :
    s'.ref i = s.ref i := by
  simp [h.ref, hi]

lemma Swept.mem_of_notMem (h : Swept H dest v s L s' L') {k : Addr} (hk : k ∈ H) {i : ℕ}
    (hi : i ∉ v) (hm : i ∈ L k) : i ∈ L' k := by
  rw [h.lists k hk]
  exact List.mem_append_right _ (List.mem_filter.mpr ⟨hm, by simp [hi]⟩)

theorem Swept.cons (h₁ : Swept H dest [x] s L s₁ L₁) (h₂ : Swept H dest v s₁ L₁ s' L')
    (hx : x ∉ v) : Swept H dest (x :: v) s L s' L' := by
  have href : ∀ i ∈ v, s₁.ref i = s.ref i := fun i hi =>
    h₁.ref_of_notMem (by simpa using fun he : i = x => hx (he ▸ hi))
  refine ⟨fun k hk => ?_, fun i => ?_, fun i => ?_⟩
  · have hv : v.filter (fun i => (dest (s₁.ref i)).map Prod.fst = some k) =
        v.filter (fun i => (dest (s.ref i)).map Prod.fst = some k) :=
      List.filter_congr fun i hi => by rw [href i hi]
    have hkeep : ∀ l : List ℕ, l.filter (fun i => ¬ (i ∈ v ∧ (dest (s₁.ref i)).isSome)) =
        l.filter (fun i => ¬ (i ∈ v ∧ (dest (s.ref i)).isSome)) := fun l =>
      List.filter_congr fun i _ => by
        by_cases hi : i ∈ v
        · rw [href i hi]
        · simp [hi]
    have hfront : ([x].filter fun i => (dest (s.ref i)).map Prod.fst = some k).reverse.filter
        (fun i => ¬ (i ∈ v ∧ (dest (s.ref i)).isSome)) =
        [x].filter fun i => (dest (s.ref i)).map Prod.fst = some k := by
      by_cases hd : (dest (s.ref x)).map Prod.fst = some k
      · simp [hd, hx]
      · simp [hd]
    rw [h₂.lists k hk, hv, hkeep, h₁.lists k hk, List.filter_append, hfront, List.filter_filter,
      ← List.append_assoc]
    congr 1
    · by_cases hd : (dest (s.ref x)).map Prod.fst = some k
      · simp [hd]
      · simp [hd]
    · apply List.filter_congr
      intro i _
      simp only [List.mem_cons, List.not_mem_nil, or_false]
      grind
  · rw [h₂.ref, h₁.ref]
    simp [Bool.and_assoc]
  · rw [h₂.type]
    by_cases hi : i ∈ v
    · have hix : i ≠ x := fun he => hx (he ▸ hi)
      simp [hi, href i hi, h₁.type, hix]
    · rw [if_neg hi, h₁.type]
      simp [hi]

/-- Visiting distinct nodes of the list one after the other sweeps it. -/
theorem Visits.sweep (hvisit : Visits H dest src visit) (hsrc : src ∈ H) (h : Queues H s L)
    (hv : ∀ i ∈ v, i ∈ L src) (hnd : v.Nodup) :
    ∃ s' L', v.foldlM visit s = some s' ∧ Queues H s' L' ∧ Swept H dest v s L s' L' := by
  induction v generalizing s L with
  | nil => exact ⟨s, L, rfl, h, .nil⟩
  | cons x v ih =>
    obtain ⟨hx, hnd⟩ := List.nodup_cons.mp hnd
    obtain ⟨s₁, L₁, hs₁, h₁, hw₁⟩ := hvisit h (hv x (by simp))
    have hv₁ : ∀ i ∈ v, i ∈ L₁ src := fun i hi =>
      hw₁.mem_of_notMem hsrc (by simpa using fun he : i = x => hx (he ▸ hi))
        (hv i (List.mem_cons_of_mem _ hi))
    obtain ⟨s', L', hs', h', hw'⟩ := ih h₁ hv₁ hnd
    exact ⟨s', L', by simp [List.foldlM_cons, hs₁, hs'], h', hw₁.cons hw' hx⟩

/-- On every other list the swept nodes stand in front of the old ones. -/
lemma Swept.lists_of_ne (hw : Swept H dest v s L s' L') (h : Queues H s L) (hsrc : src ∈ H)
    (hv : ∀ i ∈ v, i ∈ L src) {k : Addr} (hk : k ∈ H) (hne : k ≠ src) :
    L' k = (v.filter fun i => (dest (s.ref i)).map Prod.fst = some k).reverse ++ L k := by
  rw [hw.lists k hk]
  congr 1
  apply List.filter_eq_self.mpr
  intro i hi
  have hiv : i ∉ v := fun hiv => hne (h.apart hk hsrc hi (hv i hiv))
  simp [hiv]

/-- A move to the front of a list visits one node. -/
lemma Swept.moved (h : Queues H s L) {i : ℕ} {k : Addr} {ty : ListType}
    (hdest : dest (s.ref i) = some (k, ty))
    (href : ∀ j, s'.ref j = (s.ref j && decide (j ∉ [i])))
    (htype : s'.type = Function.update s.type i ty) :
    Swept H dest [i] s L s' (L.move i k) where
  lists := fun a ha => by
    have herase : (L a).erase i =
        (L a).filter fun j => ¬ (j ∈ [i] ∧ (dest (s.ref j)).isSome) := by
      rw [(h.nodup ha).erase_eq_filter]
      apply List.filter_congr
      intro j _
      by_cases hj : j = i
      · simp [hj, hdest]
      · simp [hj]
    rw [← herase]
    by_cases hak : a = k
    · simp [hak, Heads.move_self, hdest]
    · simp [Heads.move_of_ne L i hak, hdest, Ne.symm hak]
  ref := href
  type := fun j => by
    by_cases hj : j = i
    · simp [htype, hj, hdest]
    · simp [htype, hj]

lemma ref_cleared {i : ℕ} (href : s'.ref = Function.update s.ref i false) (j : ℕ) :
    s'.ref j = (s.ref j && decide (j ∉ [i])) := by
  by_cases hj : j = i
  · simp [href, hj]
  · simp [href, hj]

lemma ref_clear {i : ℕ} (hi : s.ref i = false) (href : s'.ref = s.ref) (j : ℕ) :
    s'.ref j = (s.ref j && decide (j ∉ [i])) := by
  by_cases hj : j = i
  · simp [href, hj, hi]
  · simp [href, hj]

end

/-! ## Promotion -/

/-- Where rotation and shrinking take a node: to the active list if it is referenced, else as
`other` says. -/
def promote (other : Option (Addr × ListType)) (ref : Bool) : Option (Addr × ListType) :=
  if ref then some (.head .active, .active) else other

section
variable {H : Set Addr} {other : Option (Addr × ListType)} {src : Addr}
  {visit : State → ℕ → Option State} {s s' : State} {L L' : Heads} {v : List ℕ}

@[simp] lemma promote_true : promote other true = some (.head .active, .active) := rfl

@[simp] lemma promote_false : promote other false = other := rfl

lemma promote_isSome {p : Addr × ListType} (b : Bool) : (promote (some p) b).isSome := by
  cases b <;> rfl

lemma promote_active (ho : other.map Prod.fst ≠ some (.head .active)) (b : Bool) :
    (promote other b).map Prod.fst = some (.head .active) ↔ b = true := by
  cases b <;> simp [-Option.map_eq_some_iff, ho]

lemma promote_of_ne {k : Addr} (hk : k ≠ .head .active) (b : Bool) :
    (promote other b).map Prod.fst = some k ↔ b = false ∧ other.map Prod.fst = some k := by
  cases b <;> simp [-Option.map_eq_some_iff, Ne.symm hk]

/-- Such visits differ only in what they do with a node that is not referenced. -/
lemma promote_visits {u : ListType} (hu : u.toNat < nrListCount)
    (hpromote : ∀ s i, s.ref i = true → visit s i = bpfLruNodeMove s i .active)
    (hother : ∀ {s L i}, Queues H s L → i ∈ L (.head u) → s.ref i = false →
      ∃ s' L', visit s i = some s' ∧ Queues H s' L' ∧ Swept H (promote other) [i] s L s' L') :
    Visits H (promote other) (.head u) visit := by
  intro s L i h hi
  cases hr : s.ref i with
  | true =>
    obtain ⟨s', hs', h', href, htype⟩ := bpfLruNodeMove_queues h hu active_lt hi
    exact ⟨s', _, (hpromote s i hr).trans hs', h',
      .moved h (by simp [hr]) (ref_cleared href) htype⟩
  | false => exact hother h hi hr

lemma Swept.to_active (hw : Swept H (promote other) v s L s' L') (h : Queues H s L)
    (hsrc : src ∈ H) (hv : ∀ i ∈ v, i ∈ L src) (hne : src ≠ .head .active)
    (ho : other.map Prod.fst ≠ some (.head .active)) :
    L'.active = (v.filter fun i => s.ref i).reverse ++ L.active := by
  have hL' := hw.lists_of_ne h hsrc hv (h.heads _ active_lt) (Ne.symm hne)
  simp only [promote_active ho, Bool.decide_eq_true] at hL'
  exact hL'

lemma Swept.to_other {k : Addr} {ty : ListType}
    (hw : Swept H (promote (some (k, ty))) v s L s' L') (h : Queues H s L) (hsrc : src ∈ H)
    (hv : ∀ i ∈ v, i ∈ L src) (hk : k ∈ H) (hka : k ≠ .head .active) (hks : k ≠ src) :
    L' k = (v.filter fun i => !s.ref i).reverse ++ L k := by
  rw [hw.lists_of_ne h hsrc hv hk hks]
  simp only [promote_of_ne hka, Option.map_some, and_true, Bool.decide_eq_false]

lemma Swept.elsewhere (hw : Swept H (promote other) v s L s' L') (h : Queues H s L)
    (hsrc : src ∈ H) (hv : ∀ i ∈ v, i ∈ L src) {k : Addr} (hk : k ∈ H) (hka : k ≠ .head .active)
    (hks : k ≠ src) (hko : other.map Prod.fst ≠ some k) : L' k = L k := by
  rw [hw.lists_of_ne h hsrc hv hk hks]
  simp only [promote_of_ne hka, hko, and_false, decide_false, List.filter_false,
    List.reverse_nil, List.nil_append]

/-- What a sweep that does not add to its own list leaves there. -/
lemma Swept.left_behind (hw : Swept H (promote other) v s L s' L') {k : Addr} (hk : k ∈ H)
    (hka : k ≠ .head .active) (hko : other.map Prod.fst ≠ some k) :
    L' k = (L k).filter fun i => ¬ (i ∈ v ∧ (promote other (s.ref i)).isSome) := by
  rw [hw.lists k hk]
  simp only [promote_of_ne hka, hko, and_false, decide_false, List.filter_false,
    List.reverse_nil, List.nil_append]

lemma Swept.promote_type (hw : Swept H (promote other) v s L s' L') (i : ℕ) :
    s'.type i = if i ∈ v then
        if s.ref i = true then .active else (other.map Prod.snd).getD (s.type i)
      else s.type i := by
  rw [hw.type]
  cases s.ref i <;> simp

end

/-! ## Loops that sweep -/

/-- The nodes a loop visits on the walk `w`, and what it has counted at its end: `ctl` tells
from the reference bit of a node whether the loop breaks there. -/
def scan {σ : Type} (ctl : Bool → ℕ → σ → Bool × σ) (ref : ℕ → Bool) : List ℕ → σ → List ℕ × σ
  | [], acc => ([], acc)
  | x :: w, acc =>
      let step := ctl (ref x) x acc
      if step.1 then ([x], step.2)
      else
        let rest := scan ctl ref w step.2
        (x :: rest.1, rest.2)

section
variable {σ : Type} {ctl : Bool → ℕ → σ → Bool × σ}

lemma scan_break {ref : ℕ → Bool} {x : ℕ} {acc : σ} (h : (ctl (ref x) x acc).1 = true)
    (w : List ℕ) : scan ctl ref (x :: w) acc = ([x], (ctl (ref x) x acc).2) := by
  simp [scan, h]

lemma scan_continue {ref : ℕ → Bool} {x : ℕ} {acc : σ} (h : (ctl (ref x) x acc).1 = false)
    (w : List ℕ) : scan ctl ref (x :: w) acc =
      (x :: (scan ctl ref w (ctl (ref x) x acc).2).1,
        (scan ctl ref w (ctl (ref x) x acc).2).2) := by
  simp [scan, h]

lemma scan_isPrefix (ref : ℕ → Bool) (w : List ℕ) (acc : σ) : (scan ctl ref w acc).1 <+: w := by
  induction w generalizing acc with
  | nil => simp [scan]
  | cons x w ih =>
    simp only [scan]
    split
    · exact ⟨w, rfl⟩
    · exact (List.prefix_cons_inj x).mpr (ih _)

lemma scan_congr {ref ref' : ℕ → Bool} {w : List ℕ} (hr : ∀ i ∈ w, ref i = ref' i) (acc : σ) :
    scan ctl ref w acc = scan ctl ref' w acc := by
  induction w generalizing acc with
  | nil => rfl
  | cons x w ih =>
    simp only [scan, hr x (by simp), ih fun i hi => hr i (List.mem_cons_of_mem _ hi)]

/-- The body of a loop visits the node it stands on and counts as `ctl` does. -/
def Controls (H : Set Addr) (src : Addr) (visit : State → ℕ → Option State)
    (body : State → Addr → σ → Option (Bool × State × σ)) (ctl : Bool → ℕ → σ → Bool × σ) :
    Prop :=
  ∀ {s s' : State} {L : Heads} {x : ℕ} (acc : σ), Queues H s L → x ∈ L src →
    visit s x = some s' →
      body s (.node x) acc = some ((ctl (s.ref x) x acc).1, s', (ctl (s.ref x) x acc).2)

variable {H : Set Addr} {dest : Bool → Option (Addr × ListType)} {src : Addr}
  {visit : State → ℕ → Option State} {body : State → Addr → σ → Option (Bool × State × σ)}
  {s : State} {L : Heads}

lemma Queues.prev_some (h : Queues H s L) (hsrc : src ∈ H) {a : Addr}
    (ha : a ∈ src :: (L src).map .node) : ∃ p, s.links.prev a = some p := by
  obtain ⟨as, bs, he⟩ := List.append_of_mem ha
  exact ⟨_, (h.ring hsrc).prev_rotated (he ▸ List.isRotated_append)⟩

lemma getLast_entries (k : Addr) (l : List ℕ) :
    (k :: l.map Addr.node).getLast (by simp) = (l.getLast?.map Addr.node).getD k := by
  rcases List.eq_nil_or_concat l with hl | ⟨as, x, hl⟩
  · simp [hl]
  · rw [List.concat_eq_append] at hl
    subst hl
    simp only [List.map_append, List.map_cons, List.map_nil, ← List.cons_append,
      List.getLast_append_singleton, List.getLast?_append, List.getLast?_singleton]
    rfl

/-- The list of a sweep that moves every node it visits, after the visit of its last node. -/
lemma Swept.split {s' : State} {L' : Heads} {x : ℕ} (hw : Swept H dest [x] s L s' L')
    (hdest : ∀ b, (dest b).isSome) (h : Queues H s L) (hsrc : src ∈ H) {ms w : List ℕ}
    (hL : L src = ms ++ (x :: w).reverse) :
    L' src = ([x].filter fun i => (dest (s.ref i)).map Prod.fst = some src) ++
      (ms ++ w.reverse) := by
  have hnd := h.nodup hsrc
  have hfilter : (L src).filter (fun i => ¬ (i ∈ [x] ∧ (dest (s.ref i)).isSome)) =
      (L src).erase x := by
    rw [hnd.erase_eq_filter]
    apply List.filter_congr
    intro i _
    by_cases hi : i = x
    · simp [hi, hdest]
    · simp [hi]
  rw [List.reverse_cons, ← List.append_assoc] at hL
  rw [hL] at hnd
  have hx : x ∉ ms ++ w.reverse := fun hm =>
    (List.nodup_append.mp hnd).2.2 x hm x (by simp) rfl
  rw [hw.lists src hsrc, hfilter, hL, List.erase_append_right _ hx]
  by_cases hd : (dest (s.ref x)).map Prod.fst = some src
  · simp [hd]
  · simp [hd]

/-- `list_for_each_entry_safe_reverse` with the nodes `w` before it, behind the nodes `ms` that
it has put in front. The loop ends in front of the head, or breaks at the last of `w`. -/
theorem forEachSafeReverse_scan (hvisit : Visits H dest src visit)
    (hbody : Controls H src visit body ctl) (hdest : ∀ b, (dest b).isSome) (hsrc : src ∈ H)
    (h : Queues H s L) {ms w : List ℕ} (hL : L src = ms ++ w.reverse)
    (hend : (ms = [] ∧ (w = [] ∨ ∀ b, (dest b).map Prod.fst ≠ some src)) ∨
      ∃ w' x, w = w' ++ [x] ∧ ∀ b acc, (ctl b x acc).1 = true)
    {pos nxt : Addr} (hpos : pos = (w.head?.map Addr.node).getD src)
    (hnxt : s.links.prev pos = some nxt) {fuel : ℕ} (hfuel : w.length < fuel) (acc : σ) :
    ∃ s', forEachSafeReverse src body fuel s pos nxt acc =
        some (s', (scan ctl s.ref w acc).2) ∧
      (scan ctl s.ref w acc).1.foldlM visit s = some s' := by
  induction w generalizing s L ms pos nxt fuel acc with
  | nil =>
    obtain ⟨fuel, rfl⟩ : ∃ k, fuel = k + 1 := ⟨fuel - 1, by simp at hfuel; omega⟩
    have hp : pos = src := by simpa using hpos
    exact ⟨s, by simp [forEachSafeReverse, hp, scan], rfl⟩
  | cons x w ih =>
    obtain ⟨fuel, rfl⟩ : ∃ k, fuel = k + 1 := ⟨fuel - 1, by simp at hfuel; omega⟩
    have hx : x ∈ L src := by simp [hL]
    have hp : pos = .node x := by simpa using hpos
    subst hp
    have hne : Addr.node x ≠ src :=
      ne_of_mem_of_not_mem (List.mem_map_of_mem hx) (h.ring hsrc).notMem
    obtain ⟨s', L', hs', h', hw⟩ := hvisit h hx
    have hb := hbody acc h hx hs'
    cases hbrk : (ctl (s.ref x) x acc).1 with
    | true =>
      exact ⟨s', by simp [forEachSafeReverse, hne, hb, hbrk, scan], by simp [scan, hbrk, hs']⟩
    | false =>
      have hL' := hw.split hdest h hsrc hL
      rw [← List.append_assoc] at hL'
      have hx' : x ∉ w := by
        have hnd := (List.nodup_append.mp (hL ▸ h.nodup hsrc)).2.1
        exact (List.nodup_cons.mp (List.nodup_reverse.mp hnd)).1
      have hend' : ((([x].filter fun i => (dest (s.ref i)).map Prod.fst = some src) ++ ms) = [] ∧
          (w = [] ∨ ∀ b, (dest b).map Prod.fst ≠ some src)) ∨
          ∃ w' x, w = w' ++ [x] ∧ ∀ b acc, (ctl b x acc).1 = true := by
        rcases hend with ⟨hms, hw⟩ | ⟨w', y, hw, hstop⟩
        · have hd := hw.resolve_left (by simp)
          exact .inl ⟨by simp [hms, hd], .inr hd⟩
        · cases w' with
          | nil =>
            obtain ⟨rfl, -⟩ := List.cons.inj hw
            simp [hstop] at hbrk
          | cons z w' => exact .inr ⟨w', y, (List.cons.inj hw).2, hstop⟩
      -- the saved predecessor is where the walk stands next
      have hstand : nxt = (w.head?.map Addr.node).getD src := by
        have hr := h.ring hsrc
        rw [hL, List.reverse_cons, ← List.append_assoc, List.map_append, List.map_singleton] at hr
        rw [hr.prev_mid, Option.some_inj, getLast_entries] at hnxt
        rw [← hnxt]
        cases w with
        | nil =>
          have hms : ms = [] := by
            rcases hend' with ⟨hms, -⟩ | ⟨w', y, hw, -⟩
            · exact (List.append_eq_nil_iff.mp hms).2
            · simp at hw
          simp [hms]
        | cons y w => simp
      obtain ⟨nxt', hnxt'⟩ : ∃ p, s'.links.prev nxt = some p := by
        apply h'.prev_some hsrc
        cases w with
        | nil => simp [hstand]
        | cons y w => simp [hstand, hL']
      obtain ⟨s'', hrun, hfold⟩ := ih h' hL' hend' hstand hnxt' (by simpa using hfuel)
        (ctl (s.ref x) x acc).2
      have href : ∀ i ∈ w, s'.ref i = s.ref i := fun i hi =>
        hw.ref_of_notMem (by simpa using fun he : i = x => hx' (he ▸ hi))
      rw [scan_congr href] at hrun hfold
      exact ⟨s'', by simp [forEachSafeReverse, hne, hb, hbrk, scan, hnxt', hrun],
        by simp [scan, hbrk, hs', hfold]⟩

/-- The loop sweeps the nodes that `scan` tells from the list before it. -/
theorem listForEachEntrySafeReverse_scan (hvisit : Visits H dest src visit)
    (hbody : Controls H src visit body ctl) (hdest : ∀ b, (dest b).isSome) (hsrc : src ∈ H)
    (h : Queues H s L)
    (hend : (∀ b, (dest b).map Prod.fst ≠ some src) ∨
      ∀ x l, L src = x :: l → ∀ b acc, (ctl b x acc).1 = true)
    {fuel : ℕ} (hfuel : (L src).length < fuel) (acc : σ) :
    ∃ s', listForEachEntrySafeReverse src body fuel s acc =
        some (s', (scan ctl s.ref (L src).reverse acc).2) ∧
      (scan ctl s.ref (L src).reverse acc).1.foldlM visit s = some s' := by
  have hpos := (h.ring hsrc).prev_head
  obtain ⟨nxt, hnxt⟩ := h.prev_some hsrc (List.getLast_mem (by simp))
  rw [getLast_entries, ← List.head?_reverse] at hpos hnxt
  have hstop : (([] : List ℕ) = [] ∧
      ((L src).reverse = [] ∨ ∀ b, (dest b).map Prod.fst ≠ some src)) ∨
      ∃ w' x, (L src).reverse = w' ++ [x] ∧ ∀ b acc, (ctl b x acc).1 = true := by
    rcases hend with hd | hlast
    · exact .inl ⟨rfl, .inr hd⟩
    · cases hL : L src with
      | nil => exact .inl ⟨rfl, .inl rfl⟩
      | cons x l => exact .inr ⟨l.reverse, x, by simp, hlast x l hL⟩
  obtain ⟨s', hrun, hfold⟩ := forEachSafeReverse_scan hvisit hbody hdest hsrc h
    (show L src = [] ++ (L src).reverse.reverse by simp) hstop rfl hnxt (by simpa using hfuel) acc
  refine ⟨s', ?_, hfold⟩
  simp only [listForEachEntrySafeReverse, hpos, hnxt, Option.bind_eq_bind, Option.bind_some,
    hrun]

end

/-! ## A small LRU -/

/-- The lists of `sample`. -/
def sampleLists : Heads
  | .head .active => [0, 1]
  | .head .inactive => [2, 3, 4]
  | _ => []

/-- Two active and three inactive nodes, the cursor on one of them, and an empty list of a
caller; nodes 0 and 3 are referenced. -/
def sample : State where
  links := {
    next := fun
      | .head .active => some (.node 0)
      | .node 0 => some (.node 1)
      | .node 1 => some (.head .active)
      | .head .inactive => some (.node 2)
      | .node 2 => some (.node 3)
      | .node 3 => some (.node 4)
      | .node 4 => some (.head .inactive)
      | a => some a
    prev := fun
      | .head .active => some (.node 1)
      | .node 0 => some (.head .active)
      | .node 1 => some (.node 0)
      | .head .inactive => some (.node 4)
      | .node 2 => some (.head .inactive)
      | .node 3 => some (.node 2)
      | .node 4 => some (.node 3)
      | a => some a }
  type i := if i < 2 then .active else .inactive
  ref i := i = 0 ∨ i = 3
  cpu _ := 0
  hash _ := 0
  counts
    | .active => 2
    | .inactive => 3
    | _ => 0
  nextInactiveRotation := some (.node 3)
  targetFree := 1
  percpu := false

lemma sample_queues :
    Queues {.head .active, .head .inactive, .external 0} sample sampleLists where
  heads := by
    intro t ht
    cases t <;> simp [ListType.toNat, nrListCount] at ht ⊢
  rings := by
    constructor
    · rintro ⟨k, rfl | rfl | rfl⟩
      · exact ⟨by simp [sampleLists, Links.Adj, sample], by decide⟩
      · exact ⟨by simp [sampleLists, Links.Adj, sample], by decide⟩
      · exact ⟨by simp [sampleLists, Links.Adj, sample], by decide⟩
    · rintro ⟨k, rfl | rfl | rfl⟩ ⟨k', rfl | rfl | rfl⟩ a ha ha' <;>
        simp only [sampleLists, List.map_cons, List.map_nil, List.mem_cons, List.not_mem_nil,
          or_false] at ha ha' <;> grind
  typed := by
    intro t ht i hi
    cases t with
    | active =>
      simp only [sampleLists, List.mem_cons, List.not_mem_nil, or_false] at hi
      exact if_pos (by omega)
    | inactive =>
      simp only [sampleLists, List.mem_cons, List.not_mem_nil, or_false] at hi
      exact if_neg (by omega)
    | _ => simp [ListType.toNat, nrListCount] at ht
  counts := by
    intro t ht
    cases t <;> simp_all [ListType.toNat, nrListCount, sampleLists, sample]
  bound := by decide

lemma sample_cursor : CursorOn sample sampleLists := ⟨.node 3, by decide, rfl⟩

end BpfVerify.LruList
