import BpfVerify.LpmDelete

/-!
# Runs of the LPM trie

Every sequence of lookups, updates and deletes from `lpm_trie_init` gives the answers of a
prefix map and keeps the tree and the pool marks in order.
-/
namespace BpfVerify.LpmTrie
open Bits Word PrefixTree

inductive Op
  | lookup (key : Key)
  | update (key : Key) (value : Value) (flags : ℕ)
  | delete (key : Key)

/-- What a call returns: a pointer to a value or NULL, or a return code. -/
inductive Ret
  | value (v : Option Value)
  | code (r : ℤ)

def step (fuel : ℕ) (s : State) : Op → Option (Ret × State)
  | .lookup key => (trieLookupElem fuel s key).map fun v => (.value v, s)
  | .update key value flags =>
      (trieUpdateElem fuel s key value flags).map fun r => (.code r.1, r.2)
  | .delete key => (trieDeleteElem fuel s key).map fun r => (.code r.1, r.2)

/-- The same call on the prefix map, with `free` slots left in the pool. -/
def refStep (maxEntries free : ℕ) (M : PrefixMap Value) : Op → Ret × PrefixMap Value
  | .lookup key => (.value (refLookup M key), M)
  | .update key value flags =>
      let r := refUpdate maxEntries free M key value flags
      (.code r.1, r.2)
  | .delete key =>
      let r := refDelete M key
      (.code r.1, r.2)

section
variable {cap fuel : ℕ} {s : State} {t : BitTree Label} {M : PrefixMap Value}

theorem step_refines (hfuel : 16 < fuel) (h : Inv cap s t) (hM : Holds M t) (op : Op) :
    ∃ s' t', step fuel s op = some ((refStep cap (freeSlots s) M op).1, s') ∧ Inv cap s' t' ∧
      Holds (refStep cap (freeSlots s) M op).2 t' := by
  cases op with
  | lookup key => exact ⟨s, t, by simp [step, trieLookupElem_spec hfuel h hM, refStep], h, hM⟩
  | update key value flags =>
    obtain ⟨s', t', hs', hinv, hM'⟩ := trieUpdateElem_spec hfuel h hM key value flags
    exact ⟨s', t', by simp [step, hs', refStep], hinv, hM'⟩
  | delete key =>
    obtain ⟨s', t', hs', hinv, hM'⟩ := trieDeleteElem_spec hfuel h hM key
    exact ⟨s', t', by simp [step, hs', refStep], hinv, hM'⟩

lemma init_inv (mem : State) (maxEntries : ℕ) :
    Inv maxEntries (lpmTrieInit mem maxEntries) .nil where
  root := rfl
  rep := trivial
  nodup := by simp [BitTree.nodes]
  wf := trivial
  len := by simp [BitTree.nodes]
  used := by simp [lpmTrieInit, BitTree.nodes]
  count := rfl
  le_cap := Nat.zero_le _
  maxEntries := rfl
  maxPrefixlen := rfl
  dataSize := rfl

lemma init_holds : Holds ∅ .nil := by
  intro k v
  simp [BitTree.nodes]

/-- Trie and map give the same answers along `ops`, call by call. -/
def Refines (fuel maxEntries : ℕ) : State → PrefixMap Value → List Op → Prop
  | _, _, [] => True
  | s, M, op :: ops =>
      let r := refStep maxEntries (freeSlots s) M op
      ∃ s', step fuel s op = some (r.1, s') ∧ Refines fuel maxEntries s' r.2 ops

lemma Inv.refines (hfuel : 16 < fuel) (h : Inv cap s t) (hM : Holds M t) (ops : List Op) :
    Refines fuel cap s M ops := by
  induction ops generalizing s t M with
  | nil => trivial
  | cons op ops ih =>
    obtain ⟨s', t', hs', h', hM'⟩ := step_refines hfuel h hM op
    exact ⟨s', hs', ih h' hM'⟩

/-- The LPM trie is a prefix map with longest-prefix lookup. -/
theorem run_refines_prefixMap (mem : State) (maxEntries extra : ℕ) (ops : List Op) :
    Refines (17 + extra) maxEntries (lpmTrieInit mem maxEntries) ∅ ops :=
  (init_inv mem maxEntries).refines (by omega) init_holds ops

/-! ## The reachable nodes -/

/-- The nodes that pointers lead to from the root. -/
inductive Reach (s : State) : Slot → Prop
  | root {p : Slot} : s.root = some p → Reach s p
  | child {p q : Slot} {b : Bool} : Reach s p → (s.pool p).child b = some q → Reach s q

lemma reach_of_rep {u : BitTree Label} (h : Rep s.pool u)
    (hu : ∀ p, ptr u = some p → Reach s p) {i : Label} (hi : i ∈ u.nodes) : Reach s i.1 := by
  induction u with
  | nil => simp [BitTree.nodes] at hi
  | node j c ih =>
    have hj : Reach s j.1 := hu j.1 rfl
    rcases BitTree.mem_nodes_node.mp hi with rfl | ⟨b, hi⟩
    · exact hj
    · exact ih b (h.2 b).2 (fun p hp => hj.child ((h.2 b).1.trans hp)) hi

/-- A child pointer of the tree leads to a node that extends its parent by the child's bit. -/
lemma Rep.child_node {base : List Bool} {u : BitTree Label} (h : Rep s.pool u)
    (hwf : WF labelPfx labelIm base u) {i : Label} (hi : i ∈ u.nodes) {b : Bool} {q : Slot}
    (hq : (s.pool i.1).child b = some q) :
    ∃ j ∈ u.nodes, j.1 = q ∧ labelPfx i ++ [b] <+: labelPfx j := by
  induction u generalizing base with
  | nil => simp [BitTree.nodes] at hi
  | node k c ih =>
    rcases BitTree.mem_nodes_node.mp hi with rfl | ⟨b', hi⟩
    · rw [(h.2 b).1] at hq
      cases hc : c b with
      | nil => simp [hc, ptr] at hq
      | node j d =>
        have hj : j ∈ (c b).nodes := by simp [hc, BitTree.nodes]
        refine ⟨j, BitTree.mem_nodes_node.mpr (.inr ⟨b, hj⟩), ?_, hwf.child_isPrefix hj⟩
        simpa [hc, ptr] using hq
    · obtain ⟨j, hj, hjq, hp⟩ := ih b' (h.2 b').2 (hwf.2.2 b') hi
      exact ⟨j, BitTree.mem_nodes_node.mpr (.inr ⟨b', hj⟩), hjq, hp⟩

lemma Inv.reach_iff (h : Inv cap s t) (p : Slot) : Reach s p ↔ p ∈ t.nodes.map Prod.fst := by
  constructor
  · intro hp
    induction hp with
    | root hr =>
      rw [h.root] at hr
      cases t with
      | nil => simp [ptr] at hr
      | node i c =>
        simp only [ptr, Option.some_inj] at hr
        simp [BitTree.nodes, hr]
    | child _ hq ih =>
      obtain ⟨i, hi, rfl⟩ := List.mem_map.mp ih
      obtain ⟨j, hj, rfl, -⟩ := h.rep.child_node h.wf hi hq
      exact List.mem_map_of_mem hj
  · intro hp
    obtain ⟨i, hi, rfl⟩ := List.mem_map.mp hp
    exact reach_of_rep h.rep (fun q hq => .root (h.root.trans hq)) hi

lemma Inv.exists_label (h : Inv cap s t) {p : Slot} (hp : Reach s p) :
    ∃ i ∈ t.nodes, i.1 = p ∧ (s.pool p).toContent = i.2 := by
  obtain ⟨i, hi, rfl⟩ := List.mem_map.mp ((h.reach_iff p).mp hp)
  exact ⟨i, hi, rfl, h.rep.content hi⟩

/-- The representation invariant of the trie. -/
structure Sound (maxEntries : ℕ) (s : State) : Prop where
  tree : ∃ t : BitTree Label, s.root = ptr t ∧ Rep s.pool t ∧ (t.nodes.map Prod.fst).Nodup ∧
    ∀ p, Reach s p ↔ p ∈ t.nodes.map Prod.fst
  len : ∀ p, Reach s p → (s.pool p).prefixlen ≤ 32
  child : ∀ p b q, Reach s p → (s.pool p).child b = some q →
    (s.pool p).prefixlen < (s.pool q).prefixlen ∧
    (dataBits (s.pool q).data.toList).take (s.pool p).prefixlen =
      (dataBits (s.pool p).data.toList).take (s.pool p).prefixlen ∧
    (dataBits (s.pool q).data.toList)[(s.pool p).prefixlen]? = some b
  im : ∀ p, Reach s p → isIm (s.pool p).toContent = true →
    (∀ b, (s.pool p).child b ≠ none) ∧ (s.pool p).prefixlen < 32
  count : s.nEntries = Set.ncard { p | Reach s p ∧ isIm (s.pool p).toContent = false }
  le_max : s.nEntries ≤ maxEntries

lemma Inv.child_bits (h : Inv cap s t) {p q : Slot} {b : Bool} (hp : Reach s p)
    (hq : (s.pool p).child b = some q) :
    (s.pool p).prefixlen < (s.pool q).prefixlen ∧
    (dataBits (s.pool q).data.toList).take (s.pool p).prefixlen =
      (dataBits (s.pool p).data.toList).take (s.pool p).prefixlen ∧
    (dataBits (s.pool q).data.toList)[(s.pool p).prefixlen]? = some b := by
  obtain ⟨i, hi, rfl, hic⟩ := h.exists_label hp
  obtain ⟨j, hj, rfl, hpre⟩ := h.rep.child_node h.wf hi hq
  have hjc := h.rep.content hj
  have hil := Content.length_pfx (h.len i hi)
  have hjl := Content.length_pfx (h.len j hj)
  rw [hic, hjc]
  have hlt := length_lt_of_append_isPrefix hpre
  rw [labelPfx, labelPfx, hil, hjl] at hlt
  -- the parent's prefix and the bit are the first bits of the child's data
  have hdata : labelPfx i ++ [b] <+: dataBits j.2.data.toList :=
    hpre.trans (List.take_prefix _ _)
  have htake := List.prefix_iff_eq_take.mp ((List.prefix_append _ _).trans hdata)
  refine ⟨hlt, ?_, ?_⟩
  · rw [labelPfx, hil] at htake
    exact htake.symm
  · obtain ⟨u, hu⟩ := hdata
    rw [← hu, ← hil]
    simp [labelPfx]

lemma Inv.ncard_real (h : Inv cap s t) :
    s.nEntries = Set.ncard { p | Reach s p ∧ isIm (s.pool p).toContent = false } := by
  have hset : { p | Reach s p ∧ isIm (s.pool p).toContent = false } =
      ↑((t.reals labelIm).map Prod.fst).toFinset := by
    ext p
    simp only [Set.mem_ofPred_eq, Finset.mem_coe, List.mem_toFinset, List.mem_map, BitTree.reals,
      List.mem_filter, Bool.not_eq_true']
    constructor
    · rintro ⟨hp, him⟩
      obtain ⟨i, hi, rfl, hc⟩ := h.exists_label hp
      exact ⟨i, ⟨hi, by rw [labelIm, ← hc]; exact him⟩, rfl⟩
    · rintro ⟨i, ⟨hi, him⟩, rfl⟩
      refine ⟨(h.reach_iff i.1).mpr (List.mem_map_of_mem hi), ?_⟩
      rw [h.rep.content hi]
      exact him
  have hnd : ((t.reals labelIm).map Prod.fst).Nodup :=
    List.Nodup.sublist (List.filter_sublist.map Prod.fst) h.nodup
  rw [hset, Set.ncard_coe_finset, List.toFinset_card_of_nodup hnd, List.length_map, h.count]

lemma Rep.im_children {base : List Bool} {u : BitTree Label} (h : Rep s.pool u)
    (hwf : WF labelPfx labelIm base u) (hlen : ∀ j ∈ u.nodes, j.2.prefixlen ≤ 32) {i : Label}
    (hi : i ∈ u.nodes) (him : labelIm i = true) :
    (∀ b, (s.pool i.1).child b ≠ none) ∧ i.2.prefixlen < 32 := by
  induction u generalizing base with
  | nil => simp [BitTree.nodes] at hi
  | node k c ih =>
    rcases BitTree.mem_nodes_node.mp hi with rfl | ⟨b, hi⟩
    · refine ⟨fun b => ?_, length_lt_of_im hwf hlen him⟩
      rw [(h.2 b).1, ne_eq, ptr_eq_none_iff]
      exact hwf.2.1 him b
    · exact ih b (h.2 b).2 (hwf.2.2 b)
        (fun j hj => hlen j (BitTree.mem_nodes_node.mpr (.inr ⟨b, hj⟩))) hi

theorem Inv.sound (h : Inv cap s t) : Sound cap s where
  tree := ⟨t, h.root, h.rep, h.nodup, h.reach_iff⟩
  len := fun p hp => by
    obtain ⟨i, hi, rfl, hc⟩ := h.exists_label hp
    rw [hc]
    exact h.len i hi
  child := fun p b q hp hq => h.child_bits hp hq
  im := fun p hp him => by
    obtain ⟨i, hi, rfl, hc⟩ := h.exists_label hp
    rw [hc] at him ⊢
    exact h.rep.im_children h.wf h.len hi him
  count := h.ncard_real
  le_max := h.le_cap

/-- The trie after a sequence of calls. -/
def execAll (fuel : ℕ) : State → List Op → Option State
  | s, [] => some s
  | s, op :: ops => do
      let (_, s) ← step fuel s op
      execAll fuel s ops

lemma Inv.execAll (hfuel : 16 < fuel) (h : Inv cap s t) (hM : Holds M t) (ops : List Op) :
    ∃ s' t' M', execAll fuel s ops = some s' ∧ Inv cap s' t' ∧ Holds M' t' := by
  induction ops generalizing s t M with
  | nil => exact ⟨s, t, M, rfl, h, hM⟩
  | cons op ops ih =>
    obtain ⟨s₁, t₁, hs₁, h₁, hM₁⟩ := step_refines hfuel h hM op
    obtain ⟨s', t', M', hs', h', hM'⟩ := ih h₁ hM₁
    exact ⟨s', t', M', by simp [LpmTrie.execAll, hs₁, hs'], h', hM'⟩

/-- Every run ends in a sound trie, on which no call leaves its bounds or runs forever. -/
theorem run_sound (mem : State) (maxEntries extra : ℕ) (ops : List Op) :
    ∃ s, execAll (17 + extra) (lpmTrieInit mem maxEntries) ops = some s ∧ Sound maxEntries s ∧
      ∀ op, (step (17 + extra) s op).isSome = true := by
  have hfuel : 16 < 17 + extra := by omega
  obtain ⟨s, t, M, hs, h, hM⟩ := (init_inv mem maxEntries).execAll hfuel init_holds ops
  refine ⟨s, hs, h.sound, fun op => ?_⟩
  obtain ⟨s', t', hs', -⟩ := step_refines hfuel h hM op
  rw [hs']
  rfl

/-! ## The pool -/

lemma Inv.ncard_used (h : Inv cap s t) : Set.ncard { p | s.used p = true } ≤ 2 * s.nEntries - 1 := by
  have hset : { p | s.used p = true } = ↑(t.nodes.map Prod.fst).toFinset := by
    ext p
    simp [h.used]
  rw [hset, Set.ncard_coe_finset, List.toFinset_card_of_nodup h.nodup, List.length_map, h.count]
  cases t with
  | nil => simp [BitTree.nodes]
  | node i c =>
    have hlt := h.wf.length_nodes_lt (by simp)
    omega

lemma freeSlots_add_used (s : State) : freeSlots s + Set.ncard { p | s.used p = true } = 16 := by
  have hset : { p | s.used p = true } = ↑(Finset.univ.filter fun p => ¬ s.used p = false) := by
    ext p
    simp
  rw [hset, Set.ncard_coe_finset, freeSlots,
    Finset.card_filter_add_card_filter_not]
  simp

lemma bpfMapKmallocNode_free {p : Slot} {s' : State} (h : bpfMapKmallocNode s = (some p, s')) :
    s.used p = false := by
  rw [bpfMapKmallocNode] at h
  cases hf : (List.finRange 16).find? fun i => !s.used i with
  | none => simp [hf] at h
  | some q =>
    simp only [hf, Prod.mk.injEq, Option.some_inj] at h
    rw [← h.1]
    simpa using List.find?_some hf

/-- The marked slots are those of the reachable nodes, and with few entries no update runs out
of them. -/
theorem run_pool_exact (mem : State) (maxEntries extra : ℕ) (ops : List Op) :
    ∃ s, execAll (17 + extra) (lpmTrieInit mem maxEntries) ops = some s ∧
      (∀ p, s.used p = true ↔ Reach s p) ∧
      (∀ p s', bpfMapKmallocNode s = (some p, s') → ¬ Reach s p) ∧
      Set.ncard { p | s.used p = true } ≤ 2 * s.nEntries - 1 ∧
      (s.nEntries ≤ 7 → ∀ key value flags, ∃ ret s',
        trieUpdateElem (17 + extra) s key value flags = some (ret, s') ∧ ret ≠ -enomem) := by
  have hfuel : 16 < 17 + extra := by omega
  obtain ⟨s, t, M, hs, h, hM⟩ := (init_inv mem maxEntries).execAll hfuel init_holds ops
  have hused : ∀ p, s.used p = true ↔ Reach s p := fun p => by rw [h.used, h.reach_iff]
  refine ⟨s, hs, hused, fun p s' hp => ?_, h.ncard_used, fun hle key value flags => ?_⟩
  · rw [← hused, bpfMapKmallocNode_free hp]
    simp
  · obtain ⟨s', t', hs', -⟩ := trieUpdateElem_spec hfuel h hM key value flags
    refine ⟨_, s', hs', ?_⟩
    have hsum := freeSlots_add_used s
    have hcard := h.ncard_used
    have hzero : ¬ freeSlots s = 0 := by omega
    have htwo : ¬ freeSlots s < 2 := by omega
    simp only [refUpdate, hzero, htwo, if_false, and_false]
    split_ifs <;> simp [einval, eexist, enoent, enospc, enomem]

/-! ## Failures -/

/-- Everything but unreachable nodes is as before. -/
structure Unchanged (s s' : State) : Prop where
  root : s'.root = s.root
  reach : ∀ p, Reach s' p ↔ Reach s p
  node : ∀ p, Reach s p → s'.pool p = s.pool p
  nEntries : s'.nEntries = s.nEntries
  used : s'.used = s.used

lemma Unchanged.refl (s : State) : Unchanged s s :=
  ⟨rfl, fun _ => Iff.rfl, fun _ _ => rfl, rfl, rfl⟩

/-- A trie that differs in slots that no pointer leads to. -/
lemma Unchanged.of_pool {s' : State} (hroot : s'.root = s.root) (hn : s'.nEntries = s.nEntries)
    (hused : s'.used = s.used) (hpool : ∀ p, Reach s p → s'.pool p = s.pool p) : Unchanged s s' := by
  refine ⟨hroot, fun p => ⟨fun hp => ?_, fun hp => ?_⟩, hpool, hn, hused⟩
  · induction hp with
    | root hr => exact .root (hroot ▸ hr)
    | child _ hq ih =>
      rw [hpool _ ih] at hq
      exact ih.child hq
  · induction hp with
    | root hr => exact .root (hroot ▸ hr)
    | child hp hq ih =>
      rw [← hpool _ hp] at hq
      exact ih.child hq

lemma checkAdd_fails {flags : ℕ} {cont : State → Option (ℤ × Option Slot × State)} {ret : ℤ}
    {fr : Option Slot} {s' : State} (h : checkAdd s flags cont = some (ret, fr, s')) :
    fr = none ∧ s' = s ∨ cont { s with nEntries := u64 (s.nEntries + 1) } = some (ret, fr, s') := by
  unfold checkAdd trieCheckAddElem at h
  split_ifs at h with hexist hfull
  · simp only [enoent] at h
    left
    simp at h
    exact ⟨h.2.1.symm, h.2.2.symm⟩
  · simp only [enospc] at h
    left
    simp at h
    exact ⟨h.2.1.symm, h.2.2.symm⟩
  · exact .inr (by simpa using h)

/-- At the end of the descent, a failure has changed nothing. -/
lemma updateAt_fails {key : Key} {flags m : ℕ} {new : Slot} {slot : Ref} {node : Option Slot}
    {ret : ℤ} {fr : Option Slot} {s' : State} (hn : s.nEntries ≤ 16)
    (h : updateAt s key flags new slot node m = some (ret, fr, s')) (hret : ret ≠ 0) :
    fr = none ∧ s' = s := by
  unfold updateAt at h
  cases node with
  | none =>
    cases checkAdd_fails h with
    | inl hfail => exact hfail
    | inr hdone => simp [hret.symm] at hdone
  | some node =>
    dsimp only at h
    split_ifs at h with hlen him hflags hm
    · cases checkAdd_fails h with
      | inl hfail => exact hfail
      | inr hdone => simp [hret.symm] at hdone
    · simp at h
      exact ⟨h.2.1.symm, h.2.2.symm⟩
    · simp [hret.symm] at h
    · cases checkAdd_fails h with
      | inl hfail => exact hfail
      | inr hdone =>
        obtain ⟨bit, -, hdone⟩ := Option.bind_eq_some_iff.mp hdone
        simp [hret.symm] at hdone
    · cases checkAdd_fails h with
      | inl hfail => exact hfail
      | inr hdone =>
        -- the counter goes back when there is no intermediate node
        cases lpmTrieNodeAlloc_cases { s with nEntries := u64 (s.nEntries + 1) } none with
        | inl hfull =>
          rw [hfull.2] at hdone
          have hback : sub64 (u64 (s.nEntries + 1)) 1 = s.nEntries := by
            rw [u64_of_lt (by omega), sub64_of_le (by omega) (by omega), Nat.add_sub_cancel]
          simp only [hback, Option.some.injEq, Prod.mk.injEq] at hdone
          exact ⟨hdone.2.1.symm, hdone.2.2.symm⟩
        | inr hsome =>
          obtain ⟨im, -, halloc⟩ := hsome
          rw [halloc] at hdone
          obtain ⟨s₂, -, hdone⟩ := Option.bind_eq_some_iff.mp hdone
          simp [hret.symm] at hdone

/-- An update that fails gives its node back and leaves the rest alone. -/
lemma trieUpdateElem_fails (h : Inv cap s t) {key : Key} {value : Value} {flags : ℕ} {ret : ℤ}
    {s' : State} (hs' : trieUpdateElem fuel s key value flags = some (ret, s')) (hret : ret ≠ 0) :
    Unchanged s s' := by
  unfold trieUpdateElem at hs'
  split_ifs at hs' with hf hk
  · simp only [Option.some.injEq, Prod.mk.injEq] at hs'
    rw [← hs'.2]
    exact .refl s
  · simp only [Option.some.injEq, Prod.mk.injEq] at hs'
    rw [← hs'.2]
    exact .refl s
  · cases lpmTrieNodeAlloc_cases s (some value) with
    | inl hfull =>
      rw [hfull.2] at hs'
      simp only [Option.some.injEq, Prod.mk.injEq] at hs'
      rw [← hs'.2]
      exact .refl s
    | inr hsome =>
      obtain ⟨new, hnew, halloc⟩ := hsome
      simp only [halloc] at hs'
      rw [fillNode_withNode] at hs'
      obtain ⟨⟨slot, node, m⟩, -, hs'⟩ := Option.bind_eq_some_iff.mp hs'
      obtain ⟨⟨ret', fr, s₂⟩, hat, hs'⟩ := Option.bind_eq_some_iff.mp hs'
      simp only [Option.some.injEq, Prod.mk.injEq, pure] at hs'
      obtain ⟨rfl, rfl⟩ := hs'
      have hn : (withNode s new (newNode key value)).nEntries ≤ 16 := h.nEntries_le
      obtain ⟨rfl, rfl⟩ := updateAt_fails hn hat hret
      have hout : updateOut (withNode s new (newNode key value)) ret' new none =
          kfree (withNode s new (newNode key value)) (some new) := by
        simp [updateOut, hret, kfree]
      rw [hout]
      refine Unchanged.of_pool rfl rfl ?_ fun p hp => ?_
      · funext p
        by_cases hp : p = new
        · simp [kfree, withNode, hp, hnew]
        · simp [kfree, withNode, hp]
      · refine withNode_pool_of_ne s _ fun hpn => ?_
        rw [h.reach_iff, ← h.used, hpn, hnew] at hp
        exact absurd hp Bool.false_ne_true

/-- A delete that fails has not written at all. -/
lemma trieDeleteElem_fails {key : Key} {ret : ℤ} {s' : State}
    (hs' : trieDeleteElem fuel s key = some (ret, s')) (hret : ret ≠ 0) : s' = s := by
  unfold trieDeleteElem at hs'
  split_ifs at hs' with hk
  · simp only [Option.some.injEq, Prod.mk.injEq] at hs'
    exact hs'.2.symm
  · obtain ⟨w, -, hs'⟩ := Option.bind_eq_some_iff.mp hs'
    cases hw : w.node with
    | none =>
      simp only [hw, Option.some.injEq, Prod.mk.injEq, pure] at hs'
      exact hs'.2.symm
    | some node =>
      simp only [hw] at hs'
      split_ifs at hs' with hmiss
      · simp only [Option.some.injEq, Prod.mk.injEq, pure] at hs'
        exact hs'.2.symm
      · simp only [Option.some.injEq, Prod.mk.injEq, pure] at hs'
        exact absurd hs'.1.symm hret

/-- In every reachable trie a call that fails leaves the trie unchanged. -/
theorem run_failures_atomic (mem : State) (maxEntries extra : ℕ) (ops : List Op) :
    ∃ s, execAll (17 + extra) (lpmTrieInit mem maxEntries) ops = some s ∧
      (∀ key value flags, ∃ ret s', trieUpdateElem (17 + extra) s key value flags = some (ret, s') ∧
        (ret < 0 → Unchanged s s')) ∧
      (∀ key, ∃ ret s', trieDeleteElem (17 + extra) s key = some (ret, s') ∧
        (ret < 0 → Unchanged s s')) := by
  have hfuel : 16 < 17 + extra := by omega
  obtain ⟨s, t, M, hs, h, hM⟩ := (init_inv mem maxEntries).execAll hfuel init_holds ops
  refine ⟨s, hs, fun key value flags => ?_, fun key => ?_⟩
  · obtain ⟨s', -, hs', -⟩ := trieUpdateElem_spec hfuel h hM key value flags
    exact ⟨_, s', hs', fun hneg => trieUpdateElem_fails h hs' hneg.ne⟩
  · obtain ⟨s', -, hs', -⟩ := trieDeleteElem_spec hfuel h hM key
    refine ⟨_, s', hs', fun hneg => ?_⟩
    rw [trieDeleteElem_fails hs' hneg.ne]
    exact .refl s

end

end BpfVerify.LpmTrie
