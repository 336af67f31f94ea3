import BpfVerify.LpmUpdate

/-!
# Deletes and lookups of the LPM trie

The three ways a node leaves the tree, and the answers of `trie_delete_elem` and
`trie_lookup_elem` against the prefix map.
-/
namespace BpfVerify.LpmTrie
open Bits Word PrefixTree

section
variable {cap : ℕ} {s : State} {key : Key} {fs : Path Label} {t : BitTree Label} {i : Label}
  {c : Bool → BitTree Label} {M : PrefixMap Value}

lemma Inv.sub64_nEntries (h : Inv cap s (plug fs (.node i c))) (hi : labelIm i = false) :
    sub64 s.nEntries 1 + 1 = s.nEntries := by
  have hle := h.nEntries_le
  have hpos : 0 < s.nEntries := by
    rw [h.count]
    apply List.length_pos_of_mem (a := i)
    simp only [BitTree.reals, List.mem_filter, hi, Bool.not_false, and_true]
    exact mem_nodes_plug.mpr (.inr (by simp [BitTree.nodes]))
  have hsub : sub64 s.nEntries 1 = s.nEntries - 1 := sub64_of_le (by omega) (by omega)
  rw [hsub]
  omega

lemma isIm_or (x : Content) : isIm { x with flags := x.flags ||| flagIm } = true := by
  have hone : (x.flags ||| flagIm) &&& flagIm = flagIm := by
    rw [Nat.and_or_distrib_right, Nat.and_self]
    apply Nat.eq_of_testBit_eq
    intro j
    simp only [flagIm, Nat.testBit_or, Nat.testBit_and]
    cases (1 : ℕ).testBit j <;> simp
  simp only [isIm]
  rw [hone]
  simp [flagIm]

/-- A node with two subtrees stays as an intermediate node. -/
theorem delete_keep (h : Inv cap s (plug fs (.node i c))) (hi : labelIm i = false)
    (hc : ∀ b, c b ≠ .nil) {n : ℕ} (hn : n + 1 = s.nEntries) :
    Inv cap (modifyNode { s with nEntries := n } i.1 fun x =>
        { x with flags := x.flags ||| flagIm })
      (plug fs (.node (i.1, { i.2 with flags := i.2.flags ||| flagIm }) c)) := by
  have hwf := (wf_plug_iff.mp h.wf).2.1
  obtain ⟨hpath, hcont, hchild⟩ := h.path
  have hnd := h.nodup_plug
  have hpool : ∀ {j : Label}, j.1 ≠ i.1 →
      (modifyNode { s with nEntries := n } i.1 fun x =>
        { x with flags := x.flags ||| flagIm }).pool j.1 = s.pool j.1 := by
    intro j hj
    simp [modifyNode, hj]
  simp only [BitTree.nodes, List.map_append, List.map_cons, List.nodup_middle, List.nodup_cons,
    List.mem_append] at hnd
  have hpath' : RepPath (modifyNode { s with nEntries := n } i.1 fun x =>
      { x with flags := x.flags ||| flagIm }) fs (some i.1) := by
    refine hpath.congr rfl fun j hj => hpool fun he => hnd.1 (.inl ?_)
    rw [← he]
    exact List.mem_map_of_mem hj
  apply h.edit hpath'
  · refine ⟨?_, fun b => ⟨?_, ?_⟩⟩
    · simp [modifyNode, hcont]
    · simpa [modifyNode] using (hchild b).1
    · refine (hchild b).2.congr fun j hj => hpool fun he => hnd.1 (.inr ?_)
      rw [← he]
      have hm := List.mem_map_of_mem (f := Prod.fst) hj
      cases b with
      | false => exact .inl hm
      | true => exact .inr hm
  · simpa [BitTree.nodes] using h.nodup_plug
  · exact ⟨hwf.1, fun _ => hc, hwf.2.2⟩
  · exact fits_of_ne_nil (by simp)
  · intro j hj
    rcases BitTree.mem_nodes_node.mp hj with rfl | ⟨b, hj⟩
    · exact h.root_len
    · exact h.len j (mem_nodes_plug.mpr (.inr (BitTree.mem_nodes_node.mpr (.inr ⟨b, hj⟩))))
  · intro p
    change s.used p = true ↔ _
    simpa [BitTree.nodes] using h.used_plug p
  · have him : labelIm (i.1, { i.2 with flags := i.2.flags ||| flagIm }) = true := isIm_or i.2
    change n + _ = _
    simp only [BitTree.reals, BitTree.nodes, List.filter_cons, him, hi, Bool.not_true,
      Bool.not_false, if_true, Bool.false_eq_true, if_false, List.length_cons]
    omega
  · have hle := h.le_cap
    change n ≤ cap
    omega
  · rfl
  · rfl
  · rfl

/-- A subtree below the root may take the root's place. -/
lemma wf_child_base {base : List Bool} (h : WF labelPfx labelIm base (.node i c)) (b : Bool) :
    WF labelPfx labelIm base (c b) := by
  cases hb : c b with
  | nil => trivial
  | node j d =>
    have hj : j ∈ (c b).nodes := by simp [hb, BitTree.nodes]
    have hc := h.2.2 b
    rw [hb] at hc
    exact hc.rebase (h.1.trans ((List.prefix_append _ _).trans (h.child_isPrefix hj)))

/-- A node with at most one subtree gives its place to it. -/
theorem delete_unlink (h : Inv cap s (plug fs (.node i c))) (hi : labelIm i = false) {b : Bool}
    (hc : c (!b) = .nil) (hfit : Path.Fits labelIm fs (c b)) {n : ℕ} (hn : n + 1 = s.nEntries) :
    Inv cap (kfree (assignPointer { s with nEntries := n } (refOf fs) (ptr (c b))) (some i.1))
      (plug fs (c b)) := by
  have hwf := (wf_plug_iff.mp h.wf).2.1
  have hnodes : (BitTree.node i c).nodes = i :: (c b).nodes := by
    cases b with
    | false => simp [BitTree.nodes, show c true = .nil from hc]
    | true => simp [BitTree.nodes, show c false = .nil from hc]
  rw [kfree_assignPointer]
  apply h.commit { s with nEntries := n } (c b) _ rfl
  · exact fun _ _ => rfl
  · exact (h.path.2.2 b).2
  · refine h.shrink [i.1] (by simp [hnodes]) fun p => ?_
    by_cases hp : p = i.1 <;> simp [hp]
  · exact wf_child_base hwf b
  · exact hfit
  · exact fun j hj => h.len j (mem_nodes_plug.mpr (.inr (by simp [hnodes, hj])))
  · change n + _ = _
    simp only [BitTree.reals, hnodes, List.filter_cons, hi, Bool.not_false, if_true,
      List.length_cons]
    omega
  · have hle := h.le_cap
    change n ≤ cap
    omega
  · rfl
  · rfl
  · rfl

/-- A leaf below an intermediate node takes that node with it. -/
theorem delete_collapse {f : Frame Label} (h : Inv cap s (plug (f :: fs) (leaf i)))
    (hi : labelIm i = false) (hf : labelIm f.label = true) {n : ℕ} (hn : n + 1 = s.nEntries) :
    Inv cap (kfree (kfree (assignPointer { s with nEntries := n } (refOf fs) (ptr f.sibling))
        (some f.label.1)) (some i.1)) (plug fs f.sibling) := by
  have h' : Inv cap s (plug fs (f.fill (leaf i))) := h
  have hwf := (wf_plug_iff.mp h'.wf).2.1
  obtain ⟨hbase, him, hsib, -⟩ := wf_fill_iff.mp hwf
  obtain ⟨-, -, -, hrep, -⟩ := rep_fill_iff.mp h'.path.2
  have hperm := nodes_fill_perm f (leaf i)
  have hkfree : kfree (kfree (assignPointer { s with nEntries := n } (refOf fs) (ptr f.sibling))
      (some f.label.1)) (some i.1) =
      { assignPointer { s with nEntries := n } (refOf fs) (ptr f.sibling) with
        used := Function.update (Function.update s.used f.label.1 false) i.1 false } := by
    rw [kfree_assignPointer]
    rfl
  rw [hkfree]
  apply h'.commit { s with nEntries := n } f.sibling _ rfl
  · exact fun _ _ => rfl
  · exact hrep
  · refine h'.shrink [f.label.1, i.1] ?_ fun p => ?_
    · refine (hperm.map Prod.fst).trans ?_
      simp only [List.map_cons, List.map_append, nodes_leaf, List.map_nil, List.cons_append]
      exact List.Perm.cons _ List.perm_append_comm
    · by_cases hp : p = i.1
      · simp [hp]
      · rw [Function.update_of_ne hp]
        by_cases hq : p = f.label.1
        · simp [hq]
        · simp [hp, hq]
  · cases hs : f.sibling with
    | nil => trivial
    | node j d =>
      have hj : j ∈ f.sibling.nodes := by simp [hs, BitTree.nodes]
      have hjp := hsib.base_isPrefix hj
      rw [hs] at hsib
      exact hsib.rebase (hbase.trans ((List.prefix_append _ _).trans hjp))
  · exact fits_of_ne_nil (him hf).1
  · intro j hj
    exact h'.len j (mem_nodes_plug.mpr (.inr (hperm.mem_iff.mpr (by simp [hj]))))
  · change n + _ = _
    rw [length_reals_fill]
    simp only [hf, if_true, BitTree.reals, nodes_leaf, List.filter_cons, hi, Bool.not_false,
      List.filter_nil, List.length_singleton]
    omega
  · have hle := h.le_cap
    change n ≤ cap
    omega
  · rfl
  · rfl
  · rfl

/-! ## The answers of a delete -/

def refDelete (M : PrefixMap Value) (key : Key) : ℤ × PrefixMap Value :=
  if key.prefixlen > 32 then (-einval, M)
  else if key.pfx ∈ M.keys then (0, M.erase key.pfx)
  else (-enoent, M)

/-- The local variables of the delete at a position. -/
def deleteAt (fs : Path Label) (t : BitTree Label) (m : ℕ) : DeleteAt :=
  ⟨refOf fs, refOf fs.tail, parentOf fs, ptr t, m⟩

lemma Inv.child_isSome (h : Inv cap s (plug fs (.node i c))) (b : Bool) :
    ((s.pool i.1).child b).isSome = true ↔ c b ≠ .nil := by
  rw [(h.path.2.2 b).1, Option.isSome_iff_ne_none, ne_eq, ptr_eq_none_iff]

/-- The nodes below a key's node hold other keys. -/
lemma Inv.child_pfx_ne (h : Inv cap s (plug fs (.node i c))) {b : Bool} {j : Label}
    (hj : j ∈ (c b).nodes) : labelPfx j ≠ labelPfx i := by
  intro he
  have hlt := length_lt_of_append_isPrefix ((wf_plug_iff.mp h.wf).2.1.child_isPrefix hj)
  simp [he] at hlt

/-- What the delete leaves at the end: the slots to free, the trie and its map. -/
def Deletes (cap : ℕ) (M : PrefixMap Value) (r : Option Slot × Option Slot × State) : Prop :=
  ∃ t', Inv cap (kfree (kfree r.2.2 r.1) r.2.1) t' ∧ Holds M t'

section
variable {n m : ℕ}

lemma deleteNode_keep (h : Inv cap s (plug fs (.node i c))) (hM : Holds M (plug fs (.node i c)))
    (hpos : Position labelPfx (labelPfx i) fs (.node i c)) (hi : labelIm i = false)
    (hn : n + 1 = s.nEntries) (hc : ∀ b, c b ≠ .nil) :
    Deletes cap (M.erase (labelPfx i))
      (deleteNode { s with nEntries := n } (deleteAt fs (.node i c) m) i.1) := by
  have hboth : ((s.pool i.1).child false).isSome = true ∧ ((s.pool i.1).child true).isSome = true :=
    ⟨(h.child_isSome false).mpr (hc false), (h.child_isSome true).mpr (hc true)⟩
  rw [deleteNode, if_pos hboth]
  refine ⟨_, delete_keep h hi hc hn, ?_⟩
  refine hM.erase (wf_plug_iff.mp h.wf).1 hpos.base fun j hj => ?_
  have hj' : j ≠ (i.1, { i.2 with flags := i.2.flags ||| flagIm }) := by
    rintro rfl
    rw [labelIm, isIm_or] at hj
    exact absurd hj (by simp)
  rw [BitTree.mem_nodes_node, BitTree.mem_nodes_node]
  constructor
  · rintro (he | ⟨b, hj⟩)
    · exact absurd he hj'
    · exact ⟨.inr ⟨b, hj⟩, h.child_pfx_ne hj⟩
  · rintro ⟨rfl | hj, hne⟩
    · exact absurd rfl hne
    · exact .inr hj

lemma deleteNode_collapse {f : Frame Label} (h : Inv cap s (plug (f :: fs) (leaf i)))
    (hM : Holds M (plug (f :: fs) (leaf i)))
    (hpos : Position labelPfx (labelPfx i) (f :: fs) (leaf i)) (hi : labelIm i = false)
    (hn : n + 1 = s.nEntries) (hf : labelIm f.label = true) :
    Deletes cap (M.erase (labelPfx i))
      (deleteNode { s with nEntries := n } (deleteAt (f :: fs) (leaf i) m) i.1) := by
  obtain ⟨hp, -, -⟩ := wf_plug_iff.mp h.wf
  obtain ⟨⟨hq, hhole, hsib, -, -⟩, -, hchild⟩ := h.path
  have hroot : ptr (leaf i) = some i.1 := rfl
  rw [hroot] at hhole
  have hnone : ∀ b, (s.pool i.1).child b = none := fun b => (hchild b).1
  -- the sibling is another node
  have hother : (if (s.pool f.label.1).child false = some i.1 then
      (s.pool f.label.1).child true else (s.pool f.label.1).child false) = ptr f.sibling := by
    cases hd : f.dir with
    | false =>
      rw [hd] at hhole hsib
      rw [if_pos hhole]
      exact hsib
    | true =>
      rw [hd] at hhole hsib
      have hne : (s.pool f.label.1).child false ≠ some i.1 := by
        intro he
        have hnd := (List.nodup_append.mp (List.map_append ▸ h.nodup_plug)).2.2
        rw [show (s.pool f.label.1).child false = ptr f.sibling from hsib] at he
        cases hs : f.sibling with
        | nil => simp [hs, ptr] at he
        | node j d =>
          simp only [hs, ptr, Option.some_inj] at he
          have hj : j ∈ Path.nodes (f :: fs) := by simp [Path.nodes, hs, BitTree.nodes]
          exact hnd j.1 (List.mem_map_of_mem hj) i.1 (by simp) he
      rw [if_neg hne]
      exact hsib
  have hpar : imParent { s with nEntries := n } (some f.label.1) i.1 = some f.label.1 := by
    simp only [imParent]
    rw [if_pos ⟨by rw [hq]; exact hf, hnone false, hnone true⟩]
  have hboth : ¬ (((s.pool i.1).child false).isSome = true ∧
      ((s.pool i.1).child true).isSome = true) := by simp [hnone]
  simp only [deleteNode, deleteAt, parentOf, hpar, if_neg hboth, hother]
  refine ⟨_, delete_collapse h hi hf hn, ?_⟩
  have hM' : Holds M (plug fs (f.fill (leaf i))) := hM
  have hbase : labelPfx f.label ++ [f.dir] <+: labelPfx i := hpos.base
  refine hM'.erase hp.2.2.2 (hp.1.trans ((List.prefix_append _ _).trans hbase)) fun j hj => ?_
  rw [(nodes_fill_perm f (leaf i)).mem_iff]
  simp only [List.mem_cons, List.mem_append, nodes_leaf, List.not_mem_nil, or_false]
  constructor
  · intro hs
    refine ⟨.inr (.inl hs), fun he => ?_⟩
    exact not_prefix_of_bit_ne (hp.2.2.1.base_isPrefix hs) (he ▸ hbase)
  · rintro ⟨rfl | hs | rfl, hne⟩
    · simp [hf] at hj
    · exact hs
    · exact absurd rfl hne

lemma deleteNode_unlink (h : Inv cap s (plug fs (.node i c))) (hM : Holds M (plug fs (.node i c)))
    (hpos : Position labelPfx (labelPfx i) fs (.node i c)) (hi : labelIm i = false)
    (hn : n + 1 = s.nEntries) (b : Bool) (hc : c (!b) = .nil)
    (honly : (if ((s.pool i.1).child false).isSome = true then (s.pool i.1).child false
      else (s.pool i.1).child true) = ptr (c b)) (hfit : Path.Fits labelIm fs (c b)) :
    Deletes cap (M.erase (labelPfx i))
      (deleteNode { s with nEntries := n } (deleteAt fs (.node i c) m) i.1) := by
  have hboth : ¬ (((s.pool i.1).child false).isSome = true ∧
      ((s.pool i.1).child true).isSome = true) := by
    rw [h.child_isSome, h.child_isSome]
    cases b with
    | false => exact fun hh => hh.2 hc
    | true => exact fun hh => hh.1 hc
  have hpar : imParent { s with nEntries := n } (parentOf fs) i.1 = none := by
    cases fs with
    | nil => rfl
    | cons f fs =>
      simp only [imParent, parentOf]
      rw [if_neg]
      rintro ⟨him, hf, ht⟩
      rw [h.path.1.1] at him
      have hcb := hfit him
      have hsome := (h.child_isSome b).mpr hcb
      cases b with
      | false => simp [hf] at hsome
      | true => simp [ht] at hsome
  simp only [deleteNode, deleteAt, hpar, if_neg hboth, honly]
  refine ⟨_, delete_unlink h hi hc hfit hn, ?_⟩
  refine hM.erase (wf_plug_iff.mp h.wf).1 hpos.base fun j hj => ?_
  rw [BitTree.mem_nodes_node]
  constructor
  · exact fun hj => ⟨.inr ⟨b, hj⟩, h.child_pfx_ne hj⟩
  · rintro ⟨rfl | ⟨b', hj⟩, hne⟩
    · exact absurd rfl hne
    · by_cases hbb : b' = b
      · exact hbb ▸ hj
      · rw [Bool.eq_not_iff.mpr hbb, hc] at hj
        simp [BitTree.nodes] at hj

theorem deleteNode_spec (h : Inv cap s (plug fs (.node i c))) (hM : Holds M (plug fs (.node i c)))
    (hpos : Position labelPfx (labelPfx i) fs (.node i c)) (hi : labelIm i = false)
    (hn : n + 1 = s.nEntries) :
    Deletes cap (M.erase (labelPfx i))
      (deleteNode { s with nEntries := n } (deleteAt fs (.node i c) m) i.1) := by
  have hfit := (wf_plug_iff.mp h.wf).2.2
  by_cases hf : c false = .nil
  · have honly : (if ((s.pool i.1).child false).isSome = true then (s.pool i.1).child false
        else (s.pool i.1).child true) = ptr (c true) := by
      have hno : ¬ ((s.pool i.1).child false).isSome = true := by simp [h.child_isSome, hf]
      rw [if_neg hno]
      exact (h.path.2.2 true).1
    by_cases ht : c true = .nil
    · obtain rfl : c = fun _ => .nil := by
        funext b
        cases b with
        | false => exact hf
        | true => exact ht
      cases fs with
      | nil => exact deleteNode_unlink h hM hpos hi hn true hf honly trivial
      | cons f fs =>
        cases him : labelIm f.label with
        | true => exact deleteNode_collapse h hM hpos hi hn him
        | false =>
          exact deleteNode_unlink h hM hpos hi hn true hf honly fun hh => absurd hh (by simp [him])
    · exact deleteNode_unlink h hM hpos hi hn true hf honly (fits_of_ne_nil ht)
  · have honly : (if ((s.pool i.1).child false).isSome = true then (s.pool i.1).child false
        else (s.pool i.1).child true) = ptr (c false) := by
      rw [if_pos ((h.child_isSome false).mpr hf)]
      exact (h.path.2.2 false).1
    by_cases ht : c true = .nil
    · exact deleteNode_unlink h hM hpos hi hn false ht honly (fits_of_ne_nil hf)
    · refine deleteNode_keep h hM hpos hi hn fun b => ?_
      cases b with
      | false => exact hf
      | true => exact ht

end

/-- `trie_delete_elem` answers and does what the prefix map does. -/
theorem trieDeleteElem_spec {fuel : ℕ} (hfuel : 16 < fuel) (h : Inv cap s t) (hM : Holds M t)
    (key : Key) :
    ∃ s' t', trieDeleteElem fuel s key = some ((refDelete M key).1, s') ∧ Inv cap s' t' ∧
      Holds (refDelete M key).2 t' := by
  by_cases hk : key.prefixlen > 32
  · rw [refDelete, if_pos hk]
    exact ⟨s, t, by simp [trieDeleteElem, h.maxPrefixlen, hk], h, hM⟩
  have hk' : ¬ key.prefixlen > s.maxPrefixlen := by rw [h.maxPrefixlen]; exact hk
  have hle : key.prefixlen ≤ 32 := Nat.not_lt.mp hk
  have hroot : RepPath s [] (ptr t) := h.root
  have hlen : t.nodes.length < fuel := lt_of_le_of_lt h.length_nodes_le hfuel
  obtain ⟨m, hwalk, hm⟩ := deleteWalk_eq h.dataSize hle hlen hroot h.rep h.len 0
  have hbase : Path.base labelPfx [] <+: key.pfx := List.nil_prefix
  obtain ⟨hplug, hpos⟩ := descend_spec t hbase
  -- the descent ends at the position of the key
  generalize descend labelPfx key.pfx [] t = w at hwalk hm hplug hpos
  obtain ⟨fs, u⟩ := w
  rw [show plug [] t = t from rfl] at hplug
  subst hplug
  have hmem := hM.mem_iff_position h.wf hpos
  have hstart : deleteWalk s key fuel .root .root none 0 = some (deleteAt fs u m) := hwalk
  cases u with
  | nil =>
    have habs : key.pfx ∉ M.keys := by
      rw [Finmap.mem_keys, hmem]
      rintro ⟨i, c, he, -⟩
      exact absurd he (by simp)
    rw [refDelete, if_neg hk, if_neg habs]
    exact ⟨s, _, by simp [trieDeleteElem, hk', hstart, deleteAt, ptr], h, hM⟩
  | node i c =>
    have hcont : (s.pool i.1).toContent = i.2 := h.path.2.1
    have hi : i.2.prefixlen ≤ 32 := h.root_len
    have hmi : m = commonPrefix (labelPfx i) key.pfx := hm i c rfl
    have hhit : ¬ ((s.pool i.1).prefixlen ≠ key.prefixlen ∨ (s.pool i.1).prefixlen ≠ m ∨
        isIm (s.pool i.1).toContent = true) ↔ labelIm i = false ∧ labelPfx i = key.pfx := by
      rw [hcont, labelIm]
      have hpl : (labelPfx i).length = i.2.prefixlen := Content.length_pfx hi
      have hkl := Key.length_pfx hle
      constructor
      · intro hh
        push Not at hh
        obtain ⟨h1, h2, h3⟩ := hh
        refine ⟨by simpa using h3, ?_⟩
        have hpre : labelPfx i <+: key.pfx := by
          rw [← commonPrefix_eq_length_iff, ← hmi, hpl]
          exact h2.symm
        exact hpre.eq_of_length (by omega)
      · rintro ⟨h3, heq⟩
        have hm' : m = i.2.prefixlen := by
          rw [hmi, (commonPrefix_eq_length_iff _ _).mpr (by rw [heq]), hpl]
        have hkp : i.2.prefixlen = key.prefixlen := by rw [← hpl, heq, hkl]
        simp [hm', hkp, h3]
    by_cases hfound : labelIm i = false ∧ labelPfx i = key.pfx
    · have hpres : key.pfx ∈ M.keys := by
        rw [Finmap.mem_keys, hmem]
        exact ⟨i, c, rfl, hfound⟩
      rw [refDelete, if_neg hk, if_pos hpres, ← hfound.2]
      obtain ⟨t', hinv, hM'⟩ := deleteNode_spec (m := m) h hM (hfound.2.symm ▸ hpos) hfound.1
        (h.sub64_nEntries hfound.1)
      refine ⟨_, t', ?_, hinv, hM'⟩
      have hgo := hhit.mpr hfound
      rw [trieDeleteElem, if_neg hk', hstart]
      simp only [Option.bind_eq_bind, Option.bind_some, deleteAt, ptr, if_neg hgo, Option.pure_def]
    · have habs : key.pfx ∉ M.keys := by
        rw [Finmap.mem_keys, hmem]
        rintro ⟨j, d, he, hj⟩
        rw [← (BitTree.node.inj he).1] at hj
        exact hfound hj
      have hmiss := not_not.mp (mt hhit.mp hfound)
      rw [refDelete, if_neg hk, if_neg habs]
      exact ⟨s, _, by simp [trieDeleteElem, hk', hstart, deleteAt, ptr, hmiss], h, hM⟩

/-! ## Lookups -/

/-- An intermediate node is shorter than the data. -/
lemma length_lt_of_im {base : List Bool} (h : WF labelPfx labelIm base (.node i c))
    (hlen : ∀ j ∈ (BitTree.node i c).nodes, j.2.prefixlen ≤ 32) (hi : labelIm i = true) :
    i.2.prefixlen < 32 := by
  cases hc : c false with
  | nil => exact absurd hc (h.2.1 hi false)
  | node j d =>
    have hj : j ∈ (c false).nodes := by simp [hc, BitTree.nodes]
    have hj' : j ∈ (BitTree.node i c).nodes := BitTree.mem_nodes_node.mpr (.inr ⟨false, hj⟩)
    have hlt := length_lt_of_append_isPrefix (h.child_isPrefix hj)
    rw [labelPfx, labelPfx, Content.length_pfx (hlen i (by simp [BitTree.nodes])),
      Content.length_pfx (hlen j hj')] at hlt
    have hle := hlen j hj'
    omega

lemma lookupLoop_best {fuel : ℕ} {base : List Bool} (hs : s.dataSize = 4)
    (hml : s.maxPrefixlen = 32) (hk : key.prefixlen ≤ 32) (hfuel : t.nodes.length < fuel)
    (hrep : Rep s.pool t) (hwf : WF labelPfx labelIm base t)
    (hlen : ∀ j ∈ t.nodes, j.2.prefixlen ≤ 32) (found : Option Label) :
    ∃ r, lookupLoop s key fuel (ptr t) (found.map Prod.fst) = some (r.map Prod.fst) ∧
      Best labelPfx labelIm t key.pfx found r := by
  induction t generalizing fuel base found with
  | nil =>
    obtain ⟨fuel, rfl⟩ : ∃ n, fuel = n + 1 := ⟨fuel - 1, by omega⟩
    exact ⟨found, rfl, .inr ⟨rfl, by simp [BitTree.nodes]⟩⟩
  | node i c ih =>
    obtain ⟨fuel, rfl⟩ : ∃ n, fuel = n + 1 := ⟨fuel - 1, by omega⟩
    obtain ⟨hcont, hchild⟩ := hrep
    have hi := hlen i (by simp [BitTree.nodes])
    have hpl : (labelPfx i).length = i.2.prefixlen := Content.length_pfx hi
    have hkl := Key.length_pfx hk
    have hpi : (s.pool i.1).prefixlen = i.2.prefixlen := by rw [hcont]
    have hmatch : nodeMatch s (s.pool i.1) key = some (commonPrefix (labelPfx i) key.pfx) := by
      rw [nodeMatch_eq hs, hcont]
      rfl
    have hleft := commonPrefix_le_left (labelPfx i) key.pfx
    have hright := commonPrefix_le_right (labelPfx i) key.pfx
    simp only [lookupLoop, ptr, hmatch, Option.bind_eq_bind, Option.bind_some, hml, hcont]
    by_cases hfull : commonPrefix (labelPfx i) key.pfx = 32
    · -- all 32 bits agree: nothing longer can match
      have hpre : labelPfx i <+: key.pfx := (commonPrefix_eq_length_iff _ _).mp (by omega)
      have hreal : labelIm i = false := by
        by_contra him
        have hlt := length_lt_of_im hwf hlen (by simpa using him)
        omega
      rw [if_pos hfull]
      refine ⟨some i, rfl, .inl ⟨i, by simp [BitTree.nodes], rfl, hreal, hpre, ?_⟩⟩
      intro j _ _ hj
      have hjl := hj.length_le
      omega
    · rw [if_neg hfull]
      by_cases hshort : commonPrefix (labelPfx i) key.pfx < i.2.prefixlen
      · rw [if_pos hshort]
        refine ⟨found, rfl, Best.of_not_prefix hwf fun hpre => ?_⟩
        rw [(commonPrefix_eq_length_iff _ _).mpr hpre] at hshort
        omega
      · have hpre : labelPfx i <+: key.pfx := (commonPrefix_eq_length_iff _ _).mp (by omega)
        have hi32 : i.2.prefixlen < 32 := by omega
        have hbit := extractBit_take key.data hi32 le_rfl
        rw [if_neg hshort, hbit, Option.bind_some, (hchild _).1]
        generalize hb : ((dataBits key.data.toList).take 32).getD i.2.prefixlen false = b
        have hnext : (labelPfx i).length < key.pfx.length → b = bitAfter key.pfx (labelPfx i) := by
          intro hl
          have hlt : i.2.prefixlen < key.prefixlen := by omega
          have hsame := (extractBit_take key.data hlt hk).symm.trans hbit
          rw [Option.some_inj, hb] at hsame
          rw [← hsame, bitAfter, hpl]
          rfl
        simp only [BitTree.nodes, List.length_cons, List.length_append] at hfuel
        obtain ⟨r, hrun, hbest⟩ := ih b (by cases b <;> omega : (c b).nodes.length < fuel)
          (hchild b).2 (hwf.2.2 b)
          (fun j hj => hlen j (BitTree.mem_nodes_node.mpr (.inr ⟨b, hj⟩)))
          (if labelIm i then found else some i)
        refine ⟨r, ?_, Best.of_child hwf hpre hnext hbest⟩
        rw [← hrun]
        congr 1
        rw [labelIm]
        cases isIm i.2 <;> rfl

def refLookup (M : PrefixMap Value) (key : Key) : Option Value :=
  if key.prefixlen > 32 then none else longestMatch M key.pfx

/-- `trie_lookup_elem` finds the value of the longest matching prefix. -/
theorem trieLookupElem_spec {fuel : ℕ} (hfuel : 16 < fuel) (h : Inv cap s t) (hM : Holds M t)
    (key : Key) : trieLookupElem fuel s key = some (refLookup M key) := by
  by_cases hk : key.prefixlen > 32
  · simp [trieLookupElem, refLookup, h.maxPrefixlen, hk]
  · have hlen : t.nodes.length < fuel := lt_of_le_of_lt h.length_nodes_le hfuel
    obtain ⟨r, hrun, hbest⟩ := lookupLoop_best h.dataSize h.maxPrefixlen (Nat.not_lt.mp hk) hlen
      h.rep h.wf h.len none
    have hval : (r.map Prod.fst).map (fun p => (s.pool p).value) = r.map labelValue := by
      rcases hbest with ⟨i, hi, rfl, -⟩ | ⟨rfl, -⟩
      · have hcont := h.rep.content hi
        simp only [Option.map_some, labelValue, ← hcont]
      · rfl
    rw [← h.root] at hrun
    rw [refLookup, if_neg hk, hM.longestMatch_eq hbest, ← hval]
    simp only [Option.map_none] at hrun
    simp [trieLookupElem, h.maxPrefixlen, hk, hrun]

end

end BpfVerify.LpmTrie
