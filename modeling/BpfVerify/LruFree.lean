import BpfVerify.LruRuns

/-!
# Free nodes of the LRU list

`bpf_lru_pop_free` hands out every node of the two free lists once and then none, and what
`bpf_lru_push_free` gives back can be handed out again. The guard of `bpf_lru_push_free` against a
node that is free already is written through a macro that is constantly false.
-/
namespace BpfVerify.LruList
open ListRing Word

section
variable {n : ℕ} {s : State} {L : Lists}

/-! ## Handing out -/

/-- How `bpf_lru_pop_free` leaves the node that it returns. -/
structure Popped (s s' : State) (node hash : ℕ) : Prop where
  pending : ∃ rest, IsRing s.links (.head .localPending) rest ∧
    IsRing s'.links (.head .localPending) (.node node :: rest)
  type_eq : s'.type node = .localPending
  ref_eq : s'.ref node = false
  hash_eq : s'.hash node = hash

/-- Successive calls of `bpf_lru_pop_free`, each with the node it returns and its hash. -/
def Pops : State → List (ℕ × ℕ) → State → Prop
  | s, [], s' => s' = s
  | s, (node, hash) :: rest, s' => ∃ s₁, bpfLruPopFree s hash = some (some node, s₁) ∧
      Popped s s₁ node hash ∧ Pops s₁ rest s'

/-- The calls hand out exactly `nodes`, in this order and under any hashes; the call after them
returns NULL and changes nothing. -/
def HandsOut (s : State) (nodes : List ℕ) : Prop :=
  ∀ hashes : List ℕ, hashes.length = nodes.length → ∃ s', Pops s (nodes.zip hashes) s' ∧
    ∀ hash, bpfLruPopFree s' hash = some (none, s')

lemma Inv.mem_available (h : Inv n s L) {i : ℕ} :
    i ∈ L.available ↔ i < n ∧ (s.type i = .localFree ∨ s.type i = .free) := by
  rw [Lists.available, List.mem_append, h.mem, h.mem]
  tauto

lemma Inv.nodup_available (h : Inv n s L) : L.available.Nodup := by
  apply (h.nodup .localFree).append (h.nodup .free)
  intro i hi hi'
  have hlocal := ((h.mem _ _).mp hi).2
  have hfree := ((h.mem _ _).mp hi').2
  rw [hlocal] at hfree
  cases hfree

/-- A node that is handed out is no longer available. -/
lemma Inv.available_pop (h : Inv n s L) {i : ℕ} {l : List ℕ} (hL : L.available = i :: l) :
    (L.move i .localPending).available = l := by
  have hnd := h.nodup_available
  have herase : (L.move i .localPending).available = L.available.erase i := by
    rw [Lists.available, Lists.move_of_ne L i (by decide), Lists.move_of_ne L i (by decide),
      Lists.available, List.erase_append]
    split_ifs with hi
    · rw [List.erase_of_not_mem (a := i) (l := L .free)]
      intro hi'
      exact (List.nodup_append.mp hnd).2.2 i hi i hi' rfl
    · rw [List.erase_of_not_mem hi]
  rw [herase, hL, List.erase_cons_head]

lemma Inv.popped (h : Inv n s L) {s' : State} {i hash : ℕ} (hi : i ∉ L .localPending)
    (h' : Inv n s' (L.move i .localPending)) (href : s'.ref i = false) (hhash : s'.hash i = hash) :
    Popped s s' i hash := by
  have hpending : L.move i .localPending .localPending = i :: L .localPending := by
    rw [Lists.move_self, List.erase_of_not_mem hi]
  have hring := h'.linked.ring .localPending
  rw [hpending, List.map_cons] at hring
  constructor
  case pending => exact ⟨_, h.linked.ring .localPending, hring⟩
  case type_eq =>
    exact ((h'.mem .localPending i).mp (by rw [hpending]; exact List.mem_cons_self)).2
  case ref_eq => exact href
  case hash_eq => exact hhash

/-- What is available is handed out from the front. -/
theorem Inv.pops (h : Inv n s L) {nodes : List ℕ} (hL : L.available = nodes) {hashes : List ℕ}
    (hlen : hashes.length = nodes.length) :
    ∃ s' L', Pops s (nodes.zip hashes) s' ∧ Inv n s' L' ∧ L'.available = [] ∧
      ∀ i ∈ nodes, i < n ∧ s'.type i = .localPending := by
  suffices hrun : ∃ s' L', Pops s (nodes.zip hashes) s' ∧ Inv n s' L' ∧ L'.available = [] ∧
      ∀ i, i ∈ nodes ∨ i ∈ L .localPending → i < n ∧ s'.type i = .localPending by
    obtain ⟨s', L', hpops, h', hnil, hpending⟩ := hrun
    exact ⟨s', L', hpops, h', hnil, fun i hi => hpending i (.inl hi)⟩
  induction nodes generalizing s L hashes with
  | nil =>
    refine ⟨s, L, rfl, h, hL, ?_⟩
    intro i hi
    exact (h.mem .localPending i).mp (by simpa using hi)
  | cons i l ih =>
    cases hashes with
    | nil => simp at hlen
    | cons hash hashes =>
      have hmem := h.mem_available.mp (by rw [hL]; exact List.mem_cons_self)
      have hi : i ∉ L .localPending := by
        intro hp
        rw [((h.mem _ _).mp hp).2] at hmem
        simp at hmem
      obtain ⟨s₁, hs₁, h₁, href, hhash⟩ := bpfLruPopFree_cons h hL hash
      have hlen' : hashes.length = l.length := by simpa using hlen
      obtain ⟨s', L', hpops, h', hnil, hpending⟩ := ih h₁ (h.available_pop hL) hlen'
      refine ⟨s', L', ⟨s₁, hs₁, h.popped hi h₁ href hhash, hpops⟩, h', hnil, ?_⟩
      intro j hj
      apply hpending j
      rw [Lists.move_self, List.erase_of_not_mem hi]
      simp only [List.mem_cons] at hj ⊢
      tauto

lemma Inv.handsOut (h : Inv n s L) : HandsOut s L.available := by
  intro hashes hlen
  obtain ⟨s', L', hpops, h', hnil, -⟩ := h.pops rfl hlen
  exact ⟨s', hpops, bpfLruPopFree_nil h' hnil⟩

/-! ## Giving back -/

lemma Inv.available_push (h : Inv n s L) {i : ℕ} (hi : s.type i = .localPending) :
    (L.move i .localFree).available = i :: L.available := by
  have hnot : ∀ t, t ≠ ListType.localPending → i ∉ L t := by
    intro t ht hm
    exact ht (((h.mem t i).mp hm).2.symm.trans hi)
  rw [Lists.available, Lists.move_self, Lists.move_of_ne L i (by decide),
    List.erase_of_not_mem (hnot _ (by decide)), List.erase_of_not_mem (hnot _ (by decide))]
  rfl

/-- Distinct pending nodes that are given back are available again, the last one first. -/
theorem Inv.pushes (h : Inv n s L) {back : List ℕ} (hnd : back.Nodup)
    (hback : ∀ i ∈ back, i < n ∧ s.type i = .localPending) :
    ∃ s' L', back.foldlM bpfLruPushFree s = some s' ∧ Inv n s' L' ∧
      L'.available = back.reverse ++ L.available := by
  induction back generalizing s L with
  | nil => exact ⟨s, L, rfl, h, by simp⟩
  | cons i back ih =>
    obtain ⟨hi, hty⟩ := hback i (by simp)
    obtain ⟨hnot, hnd⟩ := List.nodup_cons.mp hnd
    obtain ⟨s₁, hs₁, h₁⟩ := bpfLruPushFree_pending h hi hty
    have hrest : ∀ j ∈ back, j < n ∧ s₁.type j = .localPending := by
      intro j hj
      obtain ⟨hjn, hjt⟩ := hback j (List.mem_cons_of_mem _ hj)
      have hji : j ≠ i := fun he => hnot (he ▸ hj)
      have hm : j ∈ L.move i .localFree .localPending := by
        rw [Lists.move_of_ne L i (by decide), List.mem_erase_of_ne hji]
        exact (h.mem _ _).mpr ⟨hjn, hjt⟩
      exact (h₁.mem _ _).mp hm
    obtain ⟨s', L', hs', h', hL'⟩ := ih h₁ hnd hrest
    refine ⟨s', L', by rw [List.foldlM_cons, hs₁]; exact hs', h', ?_⟩
    rw [hL', h.available_push hty]
    simp

/-- After every run, the calls of `bpf_lru_pop_free` hand out the nodes on the two free lists, each
once, and then none; distinct ones of these that are given back are handed out again, and then
none. -/
theorem run_popFree_exact (nrElems : UInt32) (mem : State) (extra : ℕ)
    (ops : List (Op nrElems.toNat)) :
    ∃ s, run nrElems mem extra ops = some s ∧ ∃ free localFree : List ℕ,
      IsRing s.links (.head .free) (free.map .node) ∧
      IsRing s.links (.head .localFree) (localFree.map .node) ∧
      (localFree ++ free).Nodup ∧ HandsOut s (localFree ++ free) ∧
      ∀ hashes : List ℕ, hashes.length = (localFree ++ free).length →
        ∃ s', Pops s ((localFree ++ free).zip hashes) s' ∧
          ∀ back : List ℕ, back.Nodup → (∀ i ∈ back, i ∈ localFree ++ free) →
            ∃ s'', back.foldlM bpfLruPushFree s' = some s'' ∧ HandsOut s'' back.reverse := by
  obtain ⟨s, L, hs, h⟩ := run_inv nrElems mem extra ops
  refine ⟨s, hs, L .free, L .localFree, h.linked.ring .free, h.linked.ring .localFree,
    h.nodup_available, h.handsOut, ?_⟩
  intro hashes hlen
  obtain ⟨s', L', hpops, h', hnil, hpending⟩ := h.pops rfl hlen
  refine ⟨s', hpops, ?_⟩
  intro back hnd hback
  obtain ⟨s'', L'', hs'', h'', hL''⟩ := h'.pushes hnd fun i hi => hpending i (hback i hi)
  rw [hnil, List.append_nil] at hL''
  exact ⟨s'', hs'', hL'' ▸ h''.handsOut⟩

/-! ## Giving back what is free -/

/-- The five lists with their order, and all that the LRU keeps about its nodes, are as before. -/
structure SameLru (s s' : State) : Prop where
  lists : ∃ L : Lists, ∀ t, IsRing s.links (.head t) ((L t).map .node) ∧
    IsRing s'.links (.head t) ((L t).map .node)
  type_eq : s'.type = s.type
  ref_eq : s'.ref = s.ref
  counts_eq : ∀ t, t.toNat < nrListCount → s'.counts t = s.counts t
  cursor_eq : s'.nextInactiveRotation = s.nextInactiveRotation

lemma SameLru.next_head {s s' : State} (h : SameLru s s') (t : ListType) :
    s'.links.next (.head t) = s.links.next (.head t) := by
  obtain ⟨L, hL⟩ := h.lists
  rw [(hL t).1.next_head, (hL t).2.next_head]

lemma Inv.next_free (h : Inv n s L) {i : ℕ} :
    s.links.next (.head .free) = some (.node i) ↔ ∃ l, L .free = i :: l := by
  rw [(h.linked.ring .free).next_head]
  cases hL : L .free with
  | nil => simp
  | cons j l =>
    simp

/-- A free node that is given back again goes to the front of the global free list with its
reference bit cleared; this is no change for one node at most. -/
theorem Inv.pushFree_again (h : Inv n s L) {i : ℕ} (hi : i < n)
    (hfree : s.type i = .free ∨ s.type i = .localFree) :
    ∃ s', bpfLruPushFree s i = some s' ∧ (SameLru s s' ↔
      s.type i = .free ∧ s.links.next (.head .free) = some (.node i) ∧ s.ref i = false) := by
  have hnot : s.type i ≠ .localPending ∧ s.type i ≠ .inactive := by
    rcases hfree with hty | hty <;> simp [hty]
  obtain ⟨m', hm, hlink⟩ := listMove_linked h.linked (h.mem_own hi) .free
  obtain ⟨c, hs', hc⟩ := bpfLruNodeMove_eq hm
  have hmoved := bpfLruPushFree_move h hnot.1
  rw [hs'] at hmoved
  refine ⟨_, hmoved, ?_, ?_⟩
  · intro hsame
    have hty : s.type i = .free := by
      have htype := congrFun hsame.type_eq i
      simpa using htype.symm
    have hfirst := hsame.next_head .free
    have href := congrFun hsame.ref_eq i
    refine ⟨hty, ?_, by simpa using href.symm⟩
    rw [← hfirst]
    have hring := hlink.ring .free
    simp only [Lists.move_self, List.map_cons] at hring
    exact hring.next_head
  · rintro ⟨hty, hfirst, href⟩
    obtain ⟨l, hL⟩ := h.next_free.mp hfirst
    have hkeep : ∀ t, L.move i .free t = L t := by
      intro t
      by_cases ht : t = .free
      · subst ht
        rw [Lists.move_self, hL, List.erase_cons_head]
      · rw [Lists.move_of_ne L i ht, List.erase_of_not_mem]
        exact fun him => ht (((h.mem t i).mp him).2.symm.trans hty)
    constructor
    case lists =>
      refine ⟨L, fun t => ⟨h.linked.ring t, ?_⟩⟩
      have hring := hlink.ring t
      rwa [hkeep] at hring
    case type_eq => exact Function.update_eq_self_iff.mpr hty.symm
    case ref_eq => exact Function.update_eq_self_iff.mpr href.symm
    case counts_eq =>
      intro t ht
      exact (hc t ht).trans (if_pos hty)
    case cursor_eq =>
      -- the cursor is on the inactive list, where the node is not
      have hcur : s.nextInactiveRotation ≠ some (.node i) := by
        obtain ⟨a, ha, hcur⟩ := h.cursor
        rw [hcur, ne_eq, Option.some_inj]
        rintro rfl
        have him : i ∈ L .inactive := by simpa [Lists.ring] using ha
        exact hnot.2 ((h.mem .inactive i).mp him).2
      rw [fixCursor, if_neg hcur]

end

/-- After every run, `bpf_lru_push_free` of a free node changes nothing exactly when it is the
first node of the global free list and its reference bit is clear. Without common lists the
function does nothing. -/
theorem run_pushFree_again (nrElems : UInt32) (mem : State) (extra : ℕ)
    (ops : List (Op nrElems.toNat)) :
    (∀ (s : State) (node : ℕ), s.percpu = true → bpfLruPushFree s node = some s) ∧
    ∃ s, run nrElems mem extra ops = some s ∧ ∀ node : Fin nrElems.toNat,
      s.type node = .free ∨ s.type node = .localFree →
      ∃ s', bpfLruPushFree s node = some s' ∧ (SameLru s s' ↔ s.type node = .free ∧
        s.links.next (.head .free) = some (.node node) ∧ s.ref node = false) := by
  refine ⟨fun s node hp => by rw [bpfLruPushFree, if_pos hp], ?_⟩
  obtain ⟨s, L, hs, h⟩ := run_inv nrElems mem extra ops
  exact ⟨s, hs, fun node hfree => h.pushFree_again node.isLt hfree⟩

/-- Memory before the list is initialised. -/
def blank : State where
  links := ⟨fun _ => none, fun _ => none⟩
  type := fun _ => .active
  ref := fun _ => false
  cpu := fun _ => 0
  hash := fun _ => 0
  counts := fun _ => 0
  nextInactiveRotation := none
  targetFree := 0
  percpu := false

/-- Two nodes are populated, and the first of them is given back although it is free: it overtakes
the other one. -/
theorem pushFree_again_overtakes :
    ∃ s s', run 2 blank 0 [] = some s ∧ s.type 0 = .free ∧ bpfLruPushFree s 0 = some s' ∧
      ¬ SameLru s s' := by
  obtain ⟨s, L, hs, h⟩ := run_inv 2 blank 0 []
  have hlook : (run 2 blank 0 []).map
      (fun s => (s.type 0, s.links.next (.head .free))) = some (.free, some (.node 1)) := by
    decide +kernel
  rw [hs, Option.map_some, Option.some_inj, Prod.mk.injEq] at hlook
  obtain ⟨hty, hfirst⟩ := hlook
  obtain ⟨s', hs', hsame⟩ := h.pushFree_again (i := 0) (by decide) (.inl hty)
  refine ⟨s, s', hs, hty, hs', ?_⟩
  rw [hsame, hfirst]
  rintro ⟨-, hnode, -⟩
  cases hnode

end BpfVerify.LruList
