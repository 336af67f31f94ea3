import BpfVerify.LpmInvariant

/-!
# Updates of the LPM trie

The four ways a new node enters the tree, and the return values of `trie_update_elem` against
the prefix map.
-/
namespace BpfVerify.LpmTrie
open Bits Word PrefixTree

def newContent (key : Key) (value : Value) : Content :=
  { prefixlen := key.prefixlen, flags := 0, data := key.data, value := value }

/-- The new node before it is linked. -/
def newNode (key : Key) (value : Value) : Node :=
  { newContent key value with child := fun _ => none }

lemma fillNode_withNode (s : State) (key : Key) (value : Value) (p : Slot) :
    fillNode (withNode s p { zeroNode with value := value }) key p =
      withNode s p (newNode key value) := by
  simp [fillNode, modifyNode, withNode, zeroNode, newNode, newContent]

/-- The label of the new node. -/
def newLabel (new : Slot) (key : Key) (value : Value) : Label := (new, newContent key value)

@[simp] lemma labelPfx_newLabel (new : Slot) (key : Key) (value : Value) :
    labelPfx (newLabel new key value) = key.pfx := rfl

@[simp] lemma labelIm_newLabel (new : Slot) (key : Key) (value : Value) :
    labelIm (newLabel new key value) = false := by
  simp [labelIm, newLabel, isIm, newContent]

lemma fits_of_ne_nil {fs : Path Label} {t : BitTree Label} (h : t ≠ .nil) :
    Path.Fits labelIm fs t := by
  cases fs with
  | nil => trivial
  | cons f fs => exact fun _ => h

section
variable {cap : ℕ} {s : State} {key : Key} {value : Value} {new : Slot} {fs : Path Label}
  {t : BitTree Label} {M : PrefixMap Value}

/-- The state with the new node in the pool and counted. -/
def counted (s : State) (new : Slot) (n : Node) : State :=
  { withNode s new n with nEntries := u64 (s.nEntries + 1) }

lemma Inv.counted_nEntries (h : Inv cap s t) (new : Slot) (n : Node) :
    (counted s new n).nEntries = s.nEntries + 1 := by
  have hle := h.nEntries_le
  rw [counted, u64_of_lt (by omega)]

lemma Inv.counted_pool (h : Inv cap s (plug fs t)) (hnew : s.used new = false) (n : Node) {i : Label}
    (hi : i ∈ Path.nodes fs ++ t.nodes) : (counted s new n).pool i.1 = s.pool i.1 :=
  withNode_pool_of_ne s n (h.ne_of_free hnew hi)

/-- The new node does not touch the root of the subtree. -/
lemma Inv.root_content {i : Label} {c : Bool → BitTree Label}
    (h : Inv cap s (plug fs (.node i c))) (hnew : s.used new = false) (n : Node) :
    ((withNode s new n).pool i.1).toContent = i.2 := by
  rw [withNode_pool_of_ne s n (h.ne_of_free hnew (by simp [BitTree.nodes]))]
  exact h.path.2.1

lemma counted_used (s : State) (new : Slot) (n : Node) (p : Slot) :
    (counted s new n).used p = true ↔ p ∈ [new] ∨ s.used p = true := by
  by_cases hp : p = new <;> simp [counted, withNode, hp]

/-- The key's subtree is empty: the new node becomes a leaf. -/
theorem insert_leaf (h : Inv cap s (plug fs .nil)) (hk : key.prefixlen ≤ 32)
    (hbase : Path.base labelPfx fs <+: key.pfx) (hnew : s.used new = false)
    (hlt : s.nEntries < cap) :
    Inv cap (assignPointer (counted s new (newNode key value)) (refOf fs) (some new))
      (plug fs (leaf (newLabel new key value))) := by
  have hn := h.counted_nEntries new (newNode key value)
  rw [← assignPointer_used]
  apply h.commit (counted s new (newNode key value)) (leaf (newLabel new key value)) _ rfl
  · intro i hi
    exact h.counted_pool hnew _ (by simp [hi])
  · refine ⟨?_, fun b => ⟨?_, trivial⟩⟩
    · simp [counted, newLabel, withNode, newNode]
    · simp [counted, newLabel, withNode, newNode, ptr]
  · exact h.grow [new] (by simp) (by simpa using hnew) (by simp [newLabel, BitTree.nodes])
      (counted_used s new _)
  · exact wf_leaf hbase (by simp)
  · exact fits_of_ne_nil (by simp [leaf])
  · simpa [newLabel, newContent] using hk
  · simp [hn, BitTree.reals, BitTree.nodes]
  · rw [hn]
    exact hlt
  · rfl
  · rfl
  · rfl

/-- The key is a proper prefix of the subtree's root: the new node goes above it. -/
theorem insert_above {i : Label} {c : Bool → BitTree Label} (h : Inv cap s (plug fs (.node i c)))
    (hk : key.prefixlen ≤ 32) (hbase : Path.base labelPfx fs <+: key.pfx)
    (hnew : s.used new = false) (hlt : s.nEntries < cap) (hki : key.pfx <+: labelPfx i)
    (hl : key.pfx.length < (labelPfx i).length) :
    Inv cap (assignPointer (assignPointer (counted s new (newNode key value))
        (.child new (bitAfter (labelPfx i) key.pfx)) (some i.1)) (refOf fs) (some new))
      (plug fs ((Frame.mk (newLabel new key value) (bitAfter (labelPfx i) key.pfx) .nil).fill
        (.node i c))) := by
  have hn := h.counted_nEntries new (newNode key value)
  have hsub := (wf_plug_iff.mp h.wf).2.1
  generalize hb : bitAfter (labelPfx i) key.pfx = b
  have hne : ∀ b : Bool, (!b) ≠ b := by decide
  rw [← assignPointer_used]
  apply h.commit (assignPointer (counted s new (newNode key value)) (.child new b) (some i.1))
    ((Frame.mk (newLabel new key value) b .nil).fill (.node i c)) _ rfl
  · intro j hj
    have hjn : j.1 ≠ new := h.ne_of_free hnew (by simp [hj])
    rw [assignPointer_pool (by simp [Ne.symm hjn]), h.counted_pool hnew _ (by simp [hj])]
  · refine rep_fill_iff.mpr ⟨?_, ?_, ?_, trivial, ?_⟩
    · simp [assignPointer, modifyNode, setChild, counted, newLabel, withNode, newNode]
    · simp [assignPointer, modifyNode, setChild, counted, newLabel, withNode, newNode, ptr]
    · simp [assignPointer, modifyNode, setChild, counted, newLabel, withNode, newNode, ptr, hne]
    · refine h.path.2.congr fun j hj => ?_
      have hjn : j.1 ≠ new := h.ne_of_free hnew (by simp [hj])
      rw [assignPointer_pool (by simp [Ne.symm hjn]), h.counted_pool hnew _ (by simp [hj])]
  · refine h.grow [new] (by simp) (by simpa using hnew) ?_ (counted_used s new (newNode key value))
    exact (nodes_fill_perm _ _).map Prod.fst
  · refine wf_fill_iff.mpr ⟨hbase, by simp, trivial, hsub.rebase ?_⟩
    rw [labelPfx_newLabel, ← hb]
    exact append_bitAfter_isPrefix hki hl
  · exact fits_of_ne_nil (by simp [Frame.fill])
  · intro j hj
    rcases List.mem_cons.mp ((nodes_fill_perm _ _).mem_iff.mp hj) with rfl | hj
    · exact hk
    · exact h.len j (mem_nodes_plug.mpr (.inr (by simpa [BitTree.nodes] using hj)))
  · rw [length_reals_fill]
    change (counted s new (newNode key value)).nEntries + _ = _
    simp [hn, BitTree.reals, BitTree.nodes]
    omega
  · change (counted s new (newNode key value)).nEntries ≤ _
    rw [hn]
    exact hlt
  · rfl
  · rfl
  · rfl

lemma kfree_assignPointer (s : State) (r : Ref) (q : Option Slot) (p : Slot) :
    kfree (assignPointer s r q) (some p) =
      { assignPointer s r q with used := Function.update s.used p false } := by
  cases r <;> rfl

/-- The subtree's root has the key's prefix: the new node takes its place and children. -/
theorem insert_replace {i : Label} {c : Bool → BitTree Label} (h : Inv cap s (plug fs (.node i c)))
    (hk : key.prefixlen ≤ 32) (hnew : s.used new = false) (hki : labelPfx i = key.pfx) {n : ℕ}
    (hn : n = s.nEntries + if labelIm i then 1 else 0) (hmax : n ≤ cap) :
    Inv cap (kfree (replaceNode { withNode s new (newNode key value) with nEntries := n } (refOf fs)
        new i.1) (some i.1))
      (plug fs (.node (newLabel new key value) c)) := by
  have hin : i.1 ≠ new := h.ne_of_free hnew (by simp [BitTree.nodes])
  have hsub := (wf_plug_iff.mp h.wf).2.1
  obtain ⟨-, hchild⟩ := h.path.2
  rw [replaceNode, kfree_assignPointer]
  -- the pool with the new node complete
  have hpool : ∀ {j : Label}, j ∈ Path.nodes fs ++ (BitTree.node i c).nodes →
      (modifyNode { withNode s new (newNode key value) with nEntries := n } new fun x =>
        { x with child := ((withNode s new (newNode key value)).pool i.1).child }).pool j.1 =
      s.pool j.1 := by
    intro j hj
    have hjn : j.1 ≠ new := h.ne_of_free hnew hj
    simp [modifyNode, withNode, hjn]
  apply h.commit (modifyNode { withNode s new (newNode key value) with nEntries := n } new fun x =>
    { x with child := ((withNode s new (newNode key value)).pool i.1).child })
    (.node (newLabel new key value) c) _ rfl
  · exact fun j hj => hpool (by simp [hj])
  · refine ⟨?_, fun b => ⟨?_, ?_⟩⟩
    · simp [modifyNode, newLabel, withNode, newNode]
    · simpa [modifyNode, newLabel, withNode, newNode, hin] using (hchild b).1
    · refine (hchild b).2.congr fun j hj => hpool ?_
      exact List.mem_append_right _ (BitTree.mem_nodes_node.mpr (.inr ⟨b, hj⟩))
  · refine h.swap hnew fun p => ?_
    by_cases hp : p = i.1
    · simp [hp]
    · by_cases hpn : p = new
      · simp [modifyNode, withNode, newLabel, hpn, Ne.symm hin]
      · simp [modifyNode, withNode, newLabel, hp, hpn]
  · refine ⟨?_, by simp, fun b => ?_⟩
    · rw [labelPfx_newLabel, ← hki]
      exact hsub.1
    · rw [labelPfx_newLabel, ← hki]
      exact hsub.2.2 b
  · exact fits_of_ne_nil (by simp)
  · intro j hj
    rcases BitTree.mem_nodes_node.mp hj with rfl | ⟨b, hj⟩
    · exact hk
    · exact h.len j (mem_nodes_plug.mpr (.inr (BitTree.mem_nodes_node.mpr (.inr ⟨b, hj⟩))))
  · change n + _ = _
    simp only [BitTree.reals, BitTree.nodes, List.filter_cons, labelIm_newLabel, hn]
    cases labelIm i <;> simp; omega
  · exact hmax
  · rfl
  · rfl
  · rfl

/-- What an intermediate node holds: data copied from the node below it. -/
def imContent (x : Content) (matchlen : ℕ) : Content :=
  { prefixlen := matchlen, flags := 0 ||| flagIm, data := x.data, value := zeroNode.value }

def imNode (x : Content) (matchlen : ℕ) (b : Bool) (new node : Slot) : Node :=
  { imContent x matchlen with child := fun b' => if b' = b then some new else some node }

lemma splitNode_eq {node im : Slot} {slot : Ref} {m : ℕ} {b : Bool} (hne : node ≠ im)
    (hbit : extractBit key.data.toList m = some b) :
    splitNode (withNode s im zeroNode) key slot new node im m =
      some (assignPointer (withNode s im (imNode (s.pool node).toContent m b new node)) slot
        (some im)) := by
  have hchild : ∀ p q : Option Slot, Function.update (Function.update (fun _ : Bool => none)
      false p) true q = fun b' => if b' = true then q else p := by
    intro p q
    funext b'
    cases b' <;> simp
  cases b with
  | true =>
    simp [splitNode, hbit, modifyNode, withNode, hne, assignPointer, setChild, imNode, imContent,
      zeroNode, hchild]
  | false =>
    have hflip : (fun b' => if b' = true then some node else some new) =
        fun b' => if b' = false then some new else some node := by
      funext b'
      cases b' <;> simp
    simp [splitNode, hbit, modifyNode, withNode, hne, assignPointer, setChild, imNode, imContent,
      zeroNode, hchild, hflip]

/-- Key and subtree part below both: an intermediate node takes the new leaf and the subtree. -/
theorem insert_split {i : Label} {c : Bool → BitTree Label} {im : Slot}
    (h : Inv cap s (plug fs (.node i c))) (hk : key.prefixlen ≤ 32)
    (hbase : Path.base labelPfx fs <+: key.pfx) (hnew : s.used new = false)
    (hlt : s.nEntries < cap) (him : s.used im = false) (hne : im ≠ new) {m : ℕ}
    (hm : m = commonPrefix (labelPfx i) key.pfx) (hmi : m < (labelPfx i).length)
    (hmk : m < key.pfx.length) :
    Inv cap (assignPointer (withNode (counted s new (newNode key value)) im
        (imNode i.2 m (bitAfter key.pfx (key.pfx.take m)) new i.1)) (refOf fs) (some im))
      (plug fs ((Frame.mk (im, imContent i.2 m) (bitAfter key.pfx (key.pfx.take m))
        (.node i c)).fill (leaf (newLabel new key value)))) := by
  have hn := h.counted_nEntries new (newNode key value)
  have hsub := (wf_plug_iff.mp h.wf).2.1
  have hi : i.2.prefixlen ≤ 32 := h.root_len
  have hfork := fork_of_commonPrefix (hm ▸ hmi) (hm ▸ hmk)
  rw [← hm] at hfork
  -- the copied data has the common prefix as its first bits
  have hpfx : labelPfx (im, imContent i.2 m) = key.pfx.take m := by
    have htake := take_commonPrefix (labelPfx i) key.pfx
    rw [← hm] at htake
    rw [← htake]
    rw [labelPfx, Content.length_pfx hi] at hmi
    simp [labelPfx, Content.pfx, imContent, List.take_take, hmi.le]
  generalize hb : bitAfter key.pfx (key.pfx.take m) = b at hfork
  have hflip : ∀ b : Bool, (!b) ≠ b := by decide
  have hpool : ∀ {j : Label}, j ∈ Path.nodes fs ++ (BitTree.node i c).nodes →
      (withNode (counted s new (newNode key value)) im (imNode i.2 m b new i.1)).pool j.1 =
        s.pool j.1 := by
    intro j hj
    rw [withNode_pool_of_ne _ _ (h.ne_of_free him hj), h.counted_pool hnew _ hj]
  rw [← assignPointer_used]
  apply h.commit (withNode (counted s new (newNode key value)) im (imNode i.2 m b new i.1))
    ((Frame.mk (im, imContent i.2 m) b (.node i c)).fill (leaf (newLabel new key value))) _ rfl
  · exact fun j hj => hpool (by simp [hj])
  · refine rep_fill_iff.mpr ⟨?_, ?_, ?_, ?_, ?_⟩
    · simp [withNode, imNode]
    · simp [withNode, imNode, leaf, ptr, newLabel]
    · simp [withNode, imNode, ptr, hflip]
    · exact h.path.2.congr fun j hj => hpool (by simp [hj])
    · refine ⟨?_, fun b => ⟨?_, trivial⟩⟩
      · simp [withNode, counted, newLabel, newNode, Ne.symm hne]
      · simp [withNode, counted, newLabel, newNode, Ne.symm hne, ptr]
  · refine h.grow [im, new] (by simpa using hne) (by simp [him, hnew]) ?_ fun p => ?_
    · refine ((nodes_fill_perm _ _).map Prod.fst).trans ?_
      simp only [List.map_cons, List.map_append, nodes_leaf, List.map_nil, List.cons_append]
      exact List.Perm.cons _ List.perm_append_comm
    · by_cases hp : p = im
      · simp [withNode, hp]
      · have hu : (withNode (counted s new (newNode key value)) im
            (imNode i.2 m b new i.1)).used p = (counted s new (newNode key value)).used p := by
          simp [withNode, hp]
        rw [hu, counted_used]
        simp [hp]
  · refine wf_fill_iff.mpr ⟨?_, by simp [leaf], hsub.rebase ?_, wf_leaf ?_ (by simp)⟩
    · rw [hpfx]
      have hle := length_le_commonPrefix (hsub.base_isPrefix (j := i) (by simp [BitTree.nodes]))
        hbase
      exact List.prefix_of_prefix_length_le hbase (List.take_prefix _ _) (by simp; omega)
    · rw [hpfx]
      exact hfork
    · rw [hpfx, labelPfx_newLabel, ← hb]
      exact append_bitAfter_isPrefix (List.take_prefix _ _) (by simp; omega)
  · exact fits_of_ne_nil (by simp [Frame.fill])
  · intro j hj
    have hj' := (nodes_fill_perm _ _).mem_iff.mp hj
    simp only [List.mem_cons, List.mem_append, nodes_leaf, List.mem_nil_iff, or_false] at hj'
    rcases hj' with rfl | hj' | rfl
    · change m ≤ 32
      rw [Key.length_pfx hk] at hmk
      omega
    · exact h.len j (mem_nodes_plug.mpr (.inr hj'))
    · exact hk
  · rw [length_reals_fill]
    change (counted s new (newNode key value)).nEntries + _ = _
    have hime : labelIm (im, imContent i.2 m) = true := by
      simp [labelIm, isIm, imContent, flagIm]
    simp [hn, hime, BitTree.reals, BitTree.nodes]
    omega
  · change (counted s new (newNode key value)).nEntries ≤ _
    rw [hn]
    exact hlt
  · rfl
  · rfl
  · rfl

/-! ## Free slots -/

def freeSlots (s : State) : ℕ := (Finset.univ.filter fun p => s.used p = false).card

lemma freeSlots_eq_zero (h : ∀ p, s.used p = true) : freeSlots s = 0 := by
  simp [freeSlots, h]

lemma freeSlots_update {p : Slot} (hp : s.used p = false) {s' : State}
    (hs' : s'.used = Function.update s.used p true) : freeSlots s = freeSlots s' + 1 := by
  have hset : (Finset.univ.filter fun q => s.used q = false) =
      insert p (Finset.univ.filter fun q => s'.used q = false) := by
    ext q
    by_cases hq : q = p
    · subst hq
      simp [hp]
    · simp [hs', hq]
  have hnot : p ∉ Finset.univ.filter fun q => s'.used q = false := by simp [hs']
  rw [freeSlots, hset, Finset.card_insert_of_notMem hnot, freeSlots]

/-! ## The answers of an update -/

/-- What an update of the prefix map answers and does, with `free` slots left in the pool. -/
def refUpdate (maxEntries free : ℕ) (M : PrefixMap Value) (key : Key) (value : Value)
    (flags : ℕ) : ℤ × PrefixMap Value :=
  if flags > bpfExist ∨ key.prefixlen > 32 then (-einval, M)
  else if free = 0 then (-enomem, M)
  else if flags = bpfNoexist ∧ key.pfx ∈ M.keys then (-eexist, M)
  else if flags = bpfExist ∧ key.pfx ∉ M.keys then (-enoent, M)
  else if key.pfx ∉ M.keys ∧ M.keys.card = maxEntries then (-enospc, M)
  else if NeedsBranch M.keys key.pfx ∧ free < 2 then (-enomem, M)
  else (0, M.insert key.pfx value)

/-- The map behind the labelled tree. -/
abbrev Holds (M : PrefixMap Value) (t : BitTree Label) : Prop :=
  Denotes labelPfx labelIm labelValue M t

/-- An operation that ended with `ret` left the trie `s'` with the map `M'`. -/
def Ends (cap : ℕ) (r : ℤ × PrefixMap Value) (ret : ℤ) (s' : State) : Prop :=
  ret = r.1 ∧ ∃ t', Inv cap s' t' ∧ Holds r.2 t'

/-- Giving the new node back restores the trie. -/
lemma Inv.abort (h : Inv cap s t) (hnew : s.used new = false) (n : Node) :
    Inv cap (kfree (withNode s new n) (some new)) t := by
  refine h.congr rfl (fun p hp => ?_) ?_ rfl rfl rfl rfl
  · refine withNode_pool_of_ne s n ?_
    rintro rfl
    simp [hnew] at hp
  · funext p
    by_cases hp : p = new
    · simp [kfree, withNode, hp, hnew]
    · simp [kfree, withNode, hp]

lemma Ends.abort (h : Inv cap s t) (hM : Holds M t) (hnew : s.used new = false) (n : Node)
    {ret : ℤ} (hret : ret ≠ 0) : Ends cap (ret, M) ret (updateOut (withNode s new n) ret new none) :=
  ⟨rfl, t, by simpa [updateOut, hret, kfree] using h.abort hnew n, hM⟩

section
variable {flags m : ℕ}

/-- The entry that an update adds needs a free place in the map. -/
lemma trieCheckAddElem_cases (s : State) (flags : ℕ) :
    (flags = bpfExist ∧ trieCheckAddElem s flags = (-enoent, s)) ∨
    (flags ≠ bpfExist ∧ s.nEntries = s.maxEntries ∧ trieCheckAddElem s flags = (-enospc, s)) ∨
    (flags ≠ bpfExist ∧ s.nEntries ≠ s.maxEntries ∧
      trieCheckAddElem s flags = (0, { s with nEntries := u64 (s.nEntries + 1) })) := by
  by_cases hf : flags = bpfExist
  · exact .inl ⟨hf, by simp [trieCheckAddElem, hf]⟩
  · by_cases hn : s.nEntries = s.maxEntries
    · exact .inr (.inl ⟨hf, hn, by simp [trieCheckAddElem, hf, hn]⟩)
    · exact .inr (.inr ⟨hf, hn, by simp [trieCheckAddElem, hf, hn]⟩)

/-- The answer for an absent key, by the checks of `trie_check_add_elem`. -/
lemma absent_spec (h : Inv cap s t) (hM : Holds M t) (hk : key.prefixlen ≤ 32)
    (hnew : s.used new = false) (hf : ¬ flags > bpfExist) (hmem : key.pfx ∉ M.keys)
    (cont : State → Option (ℤ × Option Slot × State))
    (hcont : s.nEntries < cap →
      ∃ ret fr s₂, cont (counted s new (newNode key value)) = some (ret, fr, s₂) ∧
        Ends cap (if NeedsBranch M.keys key.pfx ∧ freeSlots s < 2 then (-enomem, M)
          else (0, M.insert key.pfx value)) ret (updateOut s₂ ret new fr)) :
    ∃ ret fr s₂, checkAdd (withNode s new (newNode key value)) flags cont = some (ret, fr, s₂) ∧
      Ends cap (refUpdate cap (freeSlots s) M key value flags) ret (updateOut s₂ ret new fr) := by
  have hcard : M.keys.card = s.nEntries := by rw [hM.card_keys h.wf, h.count]
  have hmax := h.maxEntries
  have hfree : freeSlots s ≠ 0 := by
    have hstep := freeSlots_update hnew (rfl : (withNode s new (newNode key value)).used = _)
    omega
  have hvalid : ¬ (flags > bpfExist ∨ key.prefixlen > 32) := by omega
  rcases trieCheckAddElem_cases (withNode s new (newNode key value)) flags with
    ⟨he, hc⟩ | ⟨he, hn, hc⟩ | ⟨he, hn, hc⟩
  · refine ⟨-enoent, none, withNode s new (newNode key value), by simp [checkAdd, hc, enoent], ?_⟩
    have href : refUpdate cap (freeSlots s) M key value flags = (-enoent, M) := by
      have hex : ¬ (flags = bpfNoexist ∧ key.pfx ∈ M.keys) := fun hh => hmem hh.2
      rw [refUpdate, if_neg hvalid, if_neg hfree, if_neg hex, if_pos ⟨he, hmem⟩]
    rw [href]
    exact Ends.abort h hM hnew _ (by simp [enoent])
  · refine ⟨-enospc, none, withNode s new (newNode key value), by simp [checkAdd, hc, enospc], ?_⟩
    have hfull : M.keys.card = cap := by
      rw [hcard, ← hmax]
      exact hn
    have href : refUpdate cap (freeSlots s) M key value flags = (-enospc, M) := by
      have hex : ¬ (flags = bpfNoexist ∧ key.pfx ∈ M.keys) := fun hh => hmem hh.2
      have hne : ¬ (flags = bpfExist ∧ key.pfx ∉ M.keys) := fun hh => he hh.1
      rw [refUpdate, if_neg hvalid, if_neg hfree, if_neg hex, if_neg hne, if_pos ⟨hmem, hfull⟩]
    rw [href]
    exact Ends.abort h hM hnew _ (by simp [enospc])
  · have hlt : s.nEntries < cap := by
      have hle := h.le_cap
      have hn' : s.nEntries ≠ s.maxEntries := hn
      omega
    have href : refUpdate cap (freeSlots s) M key value flags =
        if NeedsBranch M.keys key.pfx ∧ freeSlots s < 2 then (-enomem, M)
        else (0, M.insert key.pfx value) := by
      have hex : ¬ (flags = bpfNoexist ∧ key.pfx ∈ M.keys) := fun hh => hmem hh.2
      have hne : ¬ (flags = bpfExist ∧ key.pfx ∉ M.keys) := fun hh => he hh.1
      have hroom : ¬ (key.pfx ∉ M.keys ∧ M.keys.card = cap) := fun hh => by omega
      rw [refUpdate, if_neg hvalid, if_neg hfree, if_neg hex, if_neg hne, if_neg hroom]
    rw [href]
    simp only [checkAdd, hc, ne_eq, not_true_eq_false, if_false]
    exact hcont hlt

lemma holds_insert {t' : BitTree Label} (new : Slot) (h : Inv cap s (plug fs t)) (hM : Holds M (plug fs t))
    (hpos : Position labelPfx key.pfx fs t)
    (hnodes : ∀ j, labelIm j = false → (j ∈ t'.nodes ↔
      j = newLabel new key value ∨ j ∈ t.nodes ∧ labelPfx j ≠ key.pfx)) :
    Holds (M.insert key.pfx value) (plug fs t') := by
  have hbase : Path.base labelPfx fs <+: labelPfx (newLabel new key value) := hpos.base
  exact hM.insert (wf_plug_iff.mp h.wf).1 hbase (labelIm_newLabel new key value) hnodes

lemma updateAt_nil (h : Inv cap s (plug fs .nil)) (hM : Holds M (plug fs .nil))
    (hk : key.prefixlen ≤ 32) (hpos : Position labelPfx key.pfx fs .nil)
    (hnew : s.used new = false) (hf : ¬ flags > bpfExist) :
    ∃ ret fr s₂, updateAt (withNode s new (newNode key value)) key flags new (refOf fs) none m =
        some (ret, fr, s₂) ∧
      Ends cap (refUpdate cap (freeSlots s) M key value flags) ret (updateOut s₂ ret new fr) := by
  have hmem : key.pfx ∉ M.keys := by
    rw [Finmap.mem_keys, hM.mem_iff_position h.wf hpos]
    rintro ⟨i, c, he, -⟩
    exact absurd he (by simp)
  have hneeds : ¬ (NeedsBranch M.keys key.pfx ∧ freeSlots s < 2) := by
    rw [hM.needsBranch_iff h.wf hpos]
    rintro ⟨⟨i, c, he, -⟩, -⟩
    exact absurd he (by simp)
  refine absent_spec h hM hk hnew hf hmem
    (fun s => some (0, none, assignPointer s (refOf fs) (some new))) fun hlt => ?_
  rw [if_neg hneeds]
  refine ⟨0, none, _, rfl, rfl, plug fs (leaf (newLabel new key value)), ?_, ?_⟩
  · exact insert_leaf h hk hpos.base hnew hlt
  · exact holds_insert new h hM hpos fun j _ => by simp [BitTree.nodes]

lemma updateAt_replace {i : Label} {c : Bool → BitTree Label} (h : Inv cap s (plug fs (.node i c)))
    (hM : Holds M (plug fs (.node i c))) (hk : key.prefixlen ≤ 32)
    (hpos : Position labelPfx key.pfx fs (.node i c)) (hnew : s.used new = false)
    (hf : ¬ flags > bpfExist) (hki : labelPfx i = key.pfx) (hm : m = i.2.prefixlen) :
    ∃ ret fr s₂, updateAt (withNode s new (newNode key value)) key flags new (refOf fs)
        (some i.1) m = some (ret, fr, s₂) ∧
      Ends cap (refUpdate cap (freeSlots s) M key value flags) ret (updateOut s₂ ret new fr) := by
  have hwf := (wf_plug_iff.mp h.wf).2.1
  have hnode := h.root_content hnew (newNode key value)
  have hneeds : ¬ (NeedsBranch M.keys key.pfx ∧ freeSlots s < 2) := by
    rw [hM.needsBranch_iff h.wf hpos]
    rintro ⟨⟨j, d, he, hj, -⟩, -⟩
    rw [← (BitTree.node.inj he).1, hki] at hj
    exact hj List.prefix_rfl
  have hmem := hM.mem_iff_position h.wf hpos
  have hdone : Holds (M.insert key.pfx value) (plug fs (.node (newLabel new key value) c)) := by
    refine holds_insert new h hM hpos fun j _ => ?_
    rw [BitTree.mem_nodes_node, BitTree.mem_nodes_node, ← hki]
    constructor
    · rintro (rfl | ⟨b, hj⟩)
      · exact .inl rfl
      · have hlt := length_lt_of_append_isPrefix (hwf.child_isPrefix hj)
        exact .inr ⟨.inr ⟨b, hj⟩, fun he => by simp [he] at hlt⟩
    · rintro (rfl | ⟨rfl | hj, hne⟩)
      · exact .inl rfl
      · exact absurd rfl hne
      · exact .inr hj
  subst hm
  simp only [updateAt, if_true, hnode]
  cases him : isIm i.2 with
  | true =>
    have habs : key.pfx ∉ M.keys := by
      rw [Finmap.mem_keys, hmem]
      rintro ⟨j, d, he, hj, -⟩
      rw [← (BitTree.node.inj he).1, labelIm, him] at hj
      exact absurd hj (by simp)
    simp only [if_true]
    refine absent_spec h hM hk hnew hf habs
      (fun s => some (0, some i.1, replaceNode s (refOf fs) new i.1)) fun hlt => ?_
    rw [if_neg hneeds]
    refine ⟨0, some i.1, _, rfl, rfl, plug fs (.node (newLabel new key value) c), ?_, hdone⟩
    have hn : u64 (s.nEntries + 1) = s.nEntries + 1 := h.counted_nEntries new (newNode key value)
    exact insert_replace h hk hnew hki (by rw [labelIm, him]; exact hn) (by rw [hn]; exact hlt)
  | false =>
    have hpres : key.pfx ∈ M.keys := by
      rw [Finmap.mem_keys, hmem]
      exact ⟨i, c, rfl, him, hki⟩
    have hfree : freeSlots s ≠ 0 := by
      have hstep := freeSlots_update hnew (rfl : (withNode s new (newNode key value)).used = _)
      omega
    have hvalid : ¬ (flags > bpfExist ∨ key.prefixlen > 32) := by omega
    simp only [Bool.false_eq_true, if_false]
    by_cases hno : flags = bpfNoexist
    · refine ⟨-eexist, none, withNode s new (newNode key value), by simp [hno], ?_⟩
      rw [refUpdate, if_neg hvalid, if_neg hfree, if_pos ⟨hno, hpres⟩]
      exact Ends.abort h hM hnew _ (by simp [eexist])
    · have href : refUpdate cap (freeSlots s) M key value flags =
          (0, M.insert key.pfx value) := by
        have hex : ¬ (flags = bpfNoexist ∧ key.pfx ∈ M.keys) := fun hh => hno hh.1
        have hne : ¬ (flags = bpfExist ∧ key.pfx ∉ M.keys) := fun hh => hh.2 hpres
        have hroom : ¬ (key.pfx ∉ M.keys ∧ M.keys.card = cap) := fun hh => hh.1 hpres
        rw [refUpdate, if_neg hvalid, if_neg hfree, if_neg hex, if_neg hne, if_neg hroom,
          if_neg hneeds]
      rw [href]
      refine ⟨0, some i.1, _, by rw [if_neg hno], rfl,
        plug fs (.node (newLabel new key value) c), ?_, hdone⟩
      exact insert_replace h hk hnew hki (by simp [labelIm, him]) h.le_cap

lemma updateAt_above {i : Label} {c : Bool → BitTree Label} (h : Inv cap s (plug fs (.node i c)))
    (hM : Holds M (plug fs (.node i c))) (hk : key.prefixlen ≤ 32)
    (hpos : Position labelPfx key.pfx fs (.node i c)) (hnew : s.used new = false)
    (hf : ¬ flags > bpfExist) (hki : key.pfx <+: labelPfx i)
    (hl : key.pfx.length < (labelPfx i).length) (hm : m = key.prefixlen) :
    ∃ ret fr s₂, updateAt (withNode s new (newNode key value)) key flags new (refOf fs)
        (some i.1) m = some (ret, fr, s₂) ∧
      Ends cap (refUpdate cap (freeSlots s) M key value flags) ret (updateOut s₂ ret new fr) := by
  have hwf := (wf_plug_iff.mp h.wf).2.1
  have hi : i.2.prefixlen ≤ 32 := h.root_len
  have hnode := h.root_content hnew (newNode key value)
  have hmi : m < i.2.prefixlen := by
    rw [labelPfx, Key.length_pfx hk, Content.length_pfx hi] at hl
    omega
  have hneeds : ¬ (NeedsBranch M.keys key.pfx ∧ freeSlots s < 2) := by
    rw [hM.needsBranch_iff h.wf hpos]
    rintro ⟨⟨j, d, he, -, hj⟩, -⟩
    rw [← (BitTree.node.inj he).1] at hj
    exact hj hki
  have habs : key.pfx ∉ M.keys := by
    rw [Finmap.mem_keys, hM.mem_iff_position h.wf hpos]
    rintro ⟨j, d, he, -, hj⟩
    rw [← (BitTree.node.inj he).1] at hj
    simp [hj] at hl
  have hbit : extractBit i.2.data.toList m = some (bitAfter (labelPfx i) key.pfx) := by
    rw [extractBit_take _ hmi hi, bitAfter, Key.length_pfx hk, hm]
    rfl
  simp only [updateAt, hnode, if_neg hmi.ne']
  refine absent_spec h hM hk hnew hf habs _ fun hlt => ?_
  have hcont : ((counted s new (newNode key value)).pool i.1).toContent = i.2 := hnode
  simp only [hm, if_true, hcont]
  rw [if_neg hneeds, ← hm, hbit]
  refine ⟨0, none, _, rfl, rfl, _, insert_above h hk hpos.base hnew hlt hki hl, ?_⟩
  refine holds_insert new h hM hpos fun j _ => ?_
  rw [(nodes_fill_perm _ _).mem_iff]
  simp only [BitTree.nodes.eq_1, List.nil_append, List.mem_cons]
  refine or_congr_right (iff_self_and.mpr fun hj he => ?_)
  have hle := (hwf.root_isPrefix hj).length_le
  rw [he] at hle
  omega

lemma updateAt_split {i : Label} {c : Bool → BitTree Label} (h : Inv cap s (plug fs (.node i c)))
    (hM : Holds M (plug fs (.node i c))) (hk : key.prefixlen ≤ 32)
    (hpos : Position labelPfx key.pfx fs (.node i c)) (hnew : s.used new = false)
    (hf : ¬ flags > bpfExist) (hik : ¬ labelPfx i <+: key.pfx) (hki : ¬ key.pfx <+: labelPfx i)
    (hm : m = commonPrefix (labelPfx i) key.pfx) :
    ∃ ret fr s₂, updateAt (withNode s new (newNode key value)) key flags new (refOf fs)
        (some i.1) m = some (ret, fr, s₂) ∧
      Ends cap (refUpdate cap (freeSlots s) M key value flags) ret (updateOut s₂ ret new fr) := by
  have hwf := (wf_plug_iff.mp h.wf).2.1
  have hi : i.2.prefixlen ≤ 32 := h.root_len
  have hnode := h.root_content hnew (newNode key value)
  have hmi : m < (labelPfx i).length := by
    rw [hm]
    exact lt_of_le_of_ne (commonPrefix_le_left _ _) fun he =>
      hik ((commonPrefix_eq_length_iff _ _).mp he)
  have hmk : m < key.pfx.length := by
    rw [hm, commonPrefix_comm]
    exact lt_of_le_of_ne (commonPrefix_le_left _ _) fun he =>
      hki ((commonPrefix_eq_length_iff _ _).mp he)
  have hmi' : i.2.prefixlen ≠ m := by
    rw [labelPfx, Content.length_pfx hi] at hmi
    omega
  have hmk' : m < key.prefixlen := by
    rwa [Key.length_pfx hk] at hmk
  have hneeds : NeedsBranch M.keys key.pfx :=
    (hM.needsBranch_iff h.wf hpos).mpr ⟨i, c, rfl, hik, hki⟩
  have habs : key.pfx ∉ M.keys := by
    rw [Finmap.mem_keys, hM.mem_iff_position h.wf hpos]
    rintro ⟨j, d, he, -, hj⟩
    rw [← (BitTree.node.inj he).1] at hj
    exact hik (by rw [hj])
  have hbit : extractBit key.data.toList m = some (bitAfter key.pfx (key.pfx.take m)) := by
    rw [extractBit_take _ hmk' hk, bitAfter, List.length_take, min_eq_left hmk.le]
    rfl
  simp only [updateAt, hnode, if_neg hmi']
  refine absent_spec h hM hk hnew hf habs _ fun hlt => ?_
  have hstep := freeSlots_update hnew (rfl : (counted s new (newNode key value)).used = _)
  simp only [if_neg hmk'.ne]
  rcases lpmTrieNodeAlloc_cases (counted s new (newNode key value)) none with
    ⟨hfull, halloc⟩ | ⟨im, him, halloc⟩
  · -- the counter goes back to what it was
    have hzero := freeSlots_eq_zero hfull
    have hn := h.counted_nEntries new (newNode key value)
    have hle := h.nEntries_le
    have hback : sub64 (counted s new (newNode key value)).nEntries 1 = s.nEntries := by
      rw [hn, sub64_of_le (by omega) (by omega)]
      rfl
    rw [halloc, if_pos ⟨hneeds, by omega⟩]
    refine ⟨-enomem, none, _, rfl, ?_⟩
    simp only [hback]
    exact Ends.abort h hM hnew _ (by simp [enomem])
  · have hne : im ≠ new := by
      rintro rfl
      simp [counted, withNode] at him
    have himfree : s.used im = false := by
      simpa [counted, withNode, hne] using him
    have htwo : ¬ freeSlots s < 2 := by
      have hstep' := freeSlots_update him
        (rfl : (withNode (counted s new (newNode key value)) im zeroNode).used = _)
      omega
    have hnim : i.1 ≠ im := h.ne_of_free himfree (by simp [BitTree.nodes])
    have hcont : ((counted s new (newNode key value)).pool i.1).toContent = i.2 := hnode
    have hzeroed : ({ zeroNode with value := (none : Option Value).getD zeroNode.value } : Node) =
        zeroNode := rfl
    rw [halloc, hzeroed]
    simp only [splitNode_eq hnim hbit, hcont]
    rw [if_neg fun hh => htwo hh.2]
    refine ⟨0, none, _, rfl, rfl, _,
      insert_split h hk hpos.base hnew hlt himfree hne hm hmi hmk, ?_⟩
    refine holds_insert new h hM hpos fun j hj => ?_
    rw [(nodes_fill_perm _ _).mem_iff]
    simp only [List.mem_cons, List.mem_append, nodes_leaf, List.not_mem_nil, or_false]
    have hne' : j ≠ (im, imContent i.2 m) := by
      rintro rfl
      simp [labelIm, isIm, imContent, flagIm] at hj
    have hsub : j ∈ (BitTree.node i c).nodes → labelPfx j ≠ key.pfx := fun hj he =>
      hik (he ▸ hwf.root_isPrefix hj)
    tauto

lemma updateAt_spec (h : Inv cap s (plug fs t)) (hM : Holds M (plug fs t))
    (hk : key.prefixlen ≤ 32) (hpos : Position labelPfx key.pfx fs t) (hnew : s.used new = false)
    (hf : ¬ flags > bpfExist) (hm : MatchlenAt key t m) (value : Value) :
    ∃ ret fr s₂, updateAt (withNode s new (newNode key value)) key flags new (refOf fs) (ptr t) m =
        some (ret, fr, s₂) ∧
      Ends cap (refUpdate cap (freeSlots s) M key value flags) ret (updateOut s₂ ret new fr) := by
  cases t with
  | nil => exact updateAt_nil h hM hk hpos hnew hf
  | node i c =>
    have hi : i.2.prefixlen ≤ 32 := h.root_len
    have hmi : m = commonPrefix (labelPfx i) key.pfx := hm i c rfl
    by_cases hik : labelPfx i <+: key.pfx
    · have hlen : ¬ (labelPfx i).length < key.pfx.length := fun hl => hpos.stop i c rfl ⟨hik, hl⟩
      have heq : labelPfx i = key.pfx := hik.eq_of_length_le (Nat.not_lt.mp hlen)
      refine updateAt_replace h hM hk hpos hnew hf heq ?_
      rw [hmi, (commonPrefix_eq_length_iff _ _).mpr hik, labelPfx, Content.length_pfx hi]
    · by_cases hki : key.pfx <+: labelPfx i
      · have hl : key.pfx.length < (labelPfx i).length := by
          refine lt_of_le_of_ne hki.length_le fun he => hik ?_
          rw [hki.eq_of_length he]
        refine updateAt_above h hM hk hpos hnew hf hki hl ?_
        rw [hmi, commonPrefix_comm, (commonPrefix_eq_length_iff _ _).mpr hki, Key.length_pfx hk]
      · exact updateAt_split h hM hk hpos hnew hf hik hki hmi

/-- `trie_update_elem` answers and does what the prefix map does. -/
theorem trieUpdateElem_spec {fuel : ℕ} (hfuel : 16 < fuel) (h : Inv cap s t) (hM : Holds M t)
    (key : Key) (value : Value) (flags : ℕ) :
    ∃ s' t', trieUpdateElem fuel s key value flags =
        some ((refUpdate cap (freeSlots s) M key value flags).1, s') ∧ Inv cap s' t' ∧
      Holds (refUpdate cap (freeSlots s) M key value flags).2 t' := by
  by_cases hf : flags > bpfExist
  · rw [refUpdate, if_pos (.inl hf)]
    exact ⟨s, t, by simp [trieUpdateElem, hf], h, hM⟩
  by_cases hk : key.prefixlen > 32
  · rw [refUpdate, if_pos (.inr hk)]
    exact ⟨s, t, by simp [trieUpdateElem, hf, h.maxPrefixlen, hk], h, hM⟩
  have hk' : ¬ key.prefixlen > s.maxPrefixlen := by rw [h.maxPrefixlen]; exact hk
  have hle : key.prefixlen ≤ 32 := Nat.not_lt.mp hk
  have hvalid : ¬ (flags > bpfExist ∨ key.prefixlen > 32) := by omega
  rcases lpmTrieNodeAlloc_cases s (some value) with ⟨hfull, halloc⟩ | ⟨new, hnew, halloc⟩
  · rw [refUpdate, if_neg hvalid, if_pos (freeSlots_eq_zero hfull)]
    exact ⟨s, t, by simp [trieUpdateElem, hf, hk', halloc], h, hM⟩
  · have hroot : RepPath (withNode s new (newNode key value)) [] (ptr t) := h.root
    have hrep : Rep (withNode s new (newNode key value)).pool t := h.rep.congr fun i hi =>
      withNode_pool_of_ne s _ (h.slot_ne hnew hi)
    have hlen : t.nodes.length < fuel := lt_of_le_of_lt h.length_nodes_le hfuel
    have hdata : (withNode s new (newNode key value)).dataSize = 4 := h.dataSize
    obtain ⟨m, hwalk, hm⟩ := updateWalk_eq hdata hle hlen hroot hrep h.len 0
    have hbase : Path.base labelPfx [] <+: key.pfx := List.nil_prefix
    obtain ⟨hplug, hpos⟩ := descend_spec t hbase
    -- the descent ends at the position of the key
    generalize descend labelPfx key.pfx [] t = w at hwalk hm hplug hpos
    obtain ⟨fs, u⟩ := w
    rw [show plug [] t = t from rfl] at hplug
    subst hplug
    obtain ⟨ret, fr, s₂, hat, hret, t', hinv, hM'⟩ :=
      updateAt_spec h hM hle hpos hnew hf hm value
    refine ⟨updateOut s₂ ret new fr, t', ?_, hinv, hM'⟩
    have hfill := fillNode_withNode s key value new
    have hstart : refOf [] = Ref.root := rfl
    rw [hstart] at hwalk
    simp [trieUpdateElem, hf, hk', halloc, hfill, hwalk, hat, ← hret]

end

end

end BpfVerify.LpmTrie
