import BpfVerify.LpmRuns

/-!
# The shape of the LPM trie

The tree that a trie builds over its entries does not depend on the calls that led to them, so a
key that comes and goes leaves nothing behind.
-/
namespace BpfVerify.LpmTrie
open Bits Word PrefixTree

/-- The tree below a pointer: the prefixes, with the values of the nodes that are entries. -/
def treeBelow (s : State) : ℕ → Option Slot → BitTree (List Bool × Option Value)
  | fuel + 1, some p =>
      .node ((s.pool p).pfx, if isIm (s.pool p).toContent then none else some (s.pool p).value)
        fun b => treeBelow s fuel ((s.pool p).child b)
  | _, _ => .nil

/-- A chain of distinct nodes is no longer than the pool. -/
def tree (s : State) : BitTree (List Bool × Option Value) := treeBelow s 17 s.root

/-- A reachable node that is an entry with the prefix `k` and the value `v`. -/
def Entry (s : State) (k : List Bool) (v : Value) : Prop :=
  ∃ p, Reach s p ∧ isIm (s.pool p).toContent = false ∧ (s.pool p).pfx = k ∧ (s.pool p).value = v

section
variable {cap fuel : ℕ} {s s' : State} {t t' u : BitTree Label} {M : PrefixMap Value}

lemma treeBelow_eq (h : Rep s.pool u) (hfuel : u.nodes.length < fuel) :
    treeBelow s fuel (ptr u) = u.shape labelPfx labelIm labelValue := by
  induction u generalizing fuel with
  | nil => cases fuel <;> rfl
  | node i c ih =>
    cases fuel with
    | zero => exact absurd hfuel (Nat.not_lt_zero _)
    | succ fuel =>
      have hlen : ∀ b, (c b).nodes.length < fuel := by
        simp only [BitTree.nodes, List.length_cons, List.length_append] at hfuel
        intro b
        cases b <;> omega
      have hchild : ∀ b, treeBelow s fuel ((s.pool i.1).child b) =
          (c b).shape labelPfx labelIm labelValue := by
        intro b
        rw [(h.2 b).1]
        exact ih b (h.2 b).2 (hlen b)
      simp only [ptr, treeBelow, BitTree.shape, hchild, h.1, labelPfx, labelIm, labelValue]
      rfl

lemma Inv.tree_eq (h : Inv cap s t) : tree s = t.shape labelPfx labelIm labelValue := by
  have hle := h.length_nodes_le
  rw [tree, h.root]
  exact treeBelow_eq h.rep (by omega)

lemma Inv.entry_iff (h : Inv cap s t) (k : List Bool) (v : Value) :
    Entry s k v ↔ t.HasEntry labelPfx labelIm labelValue k v := by
  constructor
  · rintro ⟨p, hp, him, hk, hv⟩
    obtain ⟨i, hi, rfl, hc⟩ := h.exists_label hp
    rw [hc] at him hk hv
    exact ⟨i, hi, him, hk, hv⟩
  · rintro ⟨i, hi, him, hk, hv⟩
    have hc := h.rep.content hi
    refine ⟨i.1, (h.reach_iff i.1).mpr (List.mem_map_of_mem hi), ?_, ?_, ?_⟩
    · rw [hc]
      exact him
    · rw [hc]
      exact hk
    · rw [hc]
      exact hv

lemma Inv.tree_eq_iff {cap' : ℕ} (h : Inv cap s t) (h' : Inv cap' s' t') :
    tree s = tree s' ↔ ∀ k v, Entry s k v ↔ Entry s' k v := by
  rw [h.tree_eq, h'.tree_eq]
  constructor
  · intro heq k v
    rw [h.entry_iff, h'.entry_iff, hasEntry_iff_shape, hasEntry_iff_shape, heq]
  · intro he
    refine h.wf.shape_eq h'.wf fun k v => ?_
    rw [← h.entry_iff, ← h'.entry_iff, he]

/-- Two runs that end with the same entries end with the same tree, whatever they did before and
whatever the pools held. -/
theorem run_tree_eq_iff (mem mem' : State) (maxEntries maxEntries' extra extra' : ℕ)
    (ops ops' : List Op) :
    ∃ s s', execAll (17 + extra) (lpmTrieInit mem maxEntries) ops = some s ∧
      execAll (17 + extra') (lpmTrieInit mem' maxEntries') ops' = some s' ∧
      (tree s = tree s' ↔ ∀ k v, Entry s k v ↔ Entry s' k v) := by
  obtain ⟨s, t, M, hs, h, -⟩ :=
    (init_inv mem maxEntries).execAll (by omega : 16 < 17 + extra) init_holds ops
  obtain ⟨s', t', M', hs', h', -⟩ :=
    (init_inv mem' maxEntries').execAll (by omega : 16 < 17 + extra') init_holds ops'
  exact ⟨s, s', hs, hs', h.tree_eq_iff h'⟩

/-! ## Keys that come and go -/

lemma Inv.entry_iff_lookup (h : Inv cap s t) (hM : Holds M t) (k : List Bool) (v : Value) :
    Entry s k v ↔ M.lookup k = some v := by
  rw [h.entry_iff, hM k v]
  rfl

lemma length_nodes_shape (t : BitTree Label) :
    (t.shape labelPfx labelIm labelValue).nodes.length = t.nodes.length := by
  induction t with
  | nil => rfl
  | node i c ih =>
    simp only [BitTree.shape, BitTree.nodes, List.length_cons, List.length_append, ih]

/-- The tree tells how many slots of the pool are left. -/
lemma Inv.freeSlots_add (h : Inv cap s t) : freeSlots s + (tree s).nodes.length = 16 := by
  have hset : { p | s.used p = true } = ↑(t.nodes.map Prod.fst).toFinset := by
    ext p
    simp [h.used]
  have hsum := freeSlots_add_used s
  rw [hset, Set.ncard_coe_finset, List.toFinset_card_of_nodup h.nodup, List.length_map] at hsum
  rw [h.tree_eq, length_nodes_shape, hsum]

lemma refUpdate_eq_zero {free : ℕ} {key : Key} {value : Value} {flags : ℕ}
    (h : (refUpdate cap free M key value flags).1 = 0) : key.prefixlen ≤ 32 ∧
      (refUpdate cap free M key value flags).2 = M.insert key.pfx value := by
  unfold refUpdate at h ⊢
  by_cases hvalid : flags > bpfExist ∨ key.prefixlen > 32
  · rw [if_pos hvalid] at h
    exact absurd h (by simp [einval])
  · rw [if_neg hvalid] at h ⊢
    refine ⟨by omega, ?_⟩
    split_ifs at h ⊢ <;> simp [enomem, eexist, enoent, enospc] at h ⊢

/-- In every reachable trie, a key that is added and deleted again leaves the tree, its entries
and the number of free slots as they were. -/
theorem run_update_delete (mem : State) (maxEntries extra : ℕ) (ops : List Op) :
    ∃ s, execAll (17 + extra) (lpmTrieInit mem maxEntries) ops = some s ∧
      ∀ key value flags, (∀ v, ¬ Entry s key.pfx v) →
        ∀ s', trieUpdateElem (17 + extra) s key value flags = some (0, s') →
          ∃ s'', trieDeleteElem (17 + extra) s' key = some (0, s'') ∧ tree s'' = tree s ∧
            (∀ k v, Entry s'' k v ↔ Entry s k v) ∧ freeSlots s'' = freeSlots s := by
  have hfuel : 16 < 17 + extra := by omega
  obtain ⟨s, t, M, hs, h, hM⟩ := (init_inv mem maxEntries).execAll hfuel init_holds ops
  refine ⟨s, hs, fun key value flags habsent s' hupdate => ?_⟩
  obtain ⟨s₁, t₁, hs₁, h₁, hM₁⟩ := trieUpdateElem_spec hfuel h hM key value flags
  rw [hupdate, Option.some.injEq, Prod.mk.injEq] at hs₁
  obtain ⟨hret, rfl⟩ := hs₁
  obtain ⟨hk, hmap⟩ := refUpdate_eq_zero hret.symm
  rw [hmap] at hM₁
  obtain ⟨s'', t'', hdelete, h'', hM''⟩ := trieDeleteElem_spec hfuel h₁ hM₁ key
  have hmem : key.pfx ∈ (M.insert key.pfx value).keys := by
    rw [Finmap.mem_keys, Finmap.mem_insert]
    exact .inl rfl
  rw [refDelete, if_neg (by omega), if_pos hmem] at hdelete hM''
  have hentry : ∀ k v, Entry s'' k v ↔ Entry s k v := by
    intro k v
    rw [h''.entry_iff_lookup hM'', h.entry_iff_lookup hM]
    by_cases hkey : k = key.pfx
    · subst hkey
      rw [Finmap.lookup_erase]
      have hnone := habsent v
      rw [h.entry_iff_lookup hM] at hnone
      exact iff_of_false (by simp) hnone
    · rw [Finmap.lookup_erase_ne hkey, Finmap.lookup_insert_of_ne _ hkey]
  have htree : tree s'' = tree s := (h''.tree_eq_iff h).mpr hentry
  refine ⟨s'', hdelete, htree, hentry, ?_⟩
  have hfree := h.freeSlots_add
  have hfree'' := h''.freeSlots_add
  rw [htree] at hfree''
  omega

end

end BpfVerify.LpmTrie
