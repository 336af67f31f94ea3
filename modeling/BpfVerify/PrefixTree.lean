import BpfVerify.Bits

/-!
# Path-compressed binary prefix trees

A node carries a bit string and its two subtrees continue that string with either bit. Some
nodes only mark a branching point. A position in a tree is a path of frames from the hole to the
root, so that an edit at the position leaves the path as it is.
-/
namespace BpfVerify.PrefixTree
open Bits

variable {ι : Type*}

inductive BitTree (ι : Type*)
  | nil
  | node (i : ι) (c : Bool → BitTree ι)

def BitTree.nodes : BitTree ι → List ι
  | nil => []
  | node i c => i :: ((c false).nodes ++ (c true).nodes)

lemma BitTree.mem_nodes_node {i j : ι} {c : Bool → BitTree ι} :
    j ∈ (BitTree.node i c).nodes ↔ j = i ∨ ∃ b, j ∈ (c b).nodes := by
  simp [BitTree.nodes]

/-- A node with the subtree in direction `dir` taken out. -/
structure Frame (ι : Type*) where
  label : ι
  dir : Bool
  sibling : BitTree ι

def Frame.fill (f : Frame ι) (t : BitTree ι) : BitTree ι :=
  .node f.label fun b => if b = f.dir then t else f.sibling

/-- The frames above a position, innermost first. -/
abbrev Path (ι : Type*) := List (Frame ι)

def plug : Path ι → BitTree ι → BitTree ι
  | [], t => t
  | f :: fs, t => plug fs (f.fill t)

def Path.nodes : Path ι → List ι
  | [] => []
  | f :: fs => f.label :: (f.sibling.nodes ++ Path.nodes fs)

lemma nodes_fill_perm (f : Frame ι) (t : BitTree ι) :
    (f.fill t).nodes.Perm (f.label :: (f.sibling.nodes ++ t.nodes)) := by
  cases hd : f.dir with
  | false => simpa [Frame.fill, BitTree.nodes, hd] using List.perm_append_comm
  | true => simp [Frame.fill, BitTree.nodes, hd]

lemma nodes_plug_perm (fs : Path ι) (t : BitTree ι) :
    (plug fs t).nodes.Perm (Path.nodes fs ++ t.nodes) := by
  induction fs generalizing t with
  | nil => simp [plug, Path.nodes]
  | cons f fs ih =>
    have hstep := (ih (f.fill t)).trans (List.Perm.append_left _ (nodes_fill_perm f t))
    refine hstep.trans ?_
    simp only [Path.nodes, List.cons_append, List.append_assoc]
    refine List.perm_middle.trans (List.Perm.cons _ ?_)
    exact List.perm_append_comm_assoc _ _ _

lemma mem_nodes_plug {fs : Path ι} {t : BitTree ι} {j : ι} :
    j ∈ (plug fs t).nodes ↔ j ∈ Path.nodes fs ∨ j ∈ t.nodes := by
  rw [(nodes_plug_perm fs t).mem_iff, List.mem_append]

lemma fill_child (i : ι) (c : Bool → BitTree ι) (b : Bool) :
    (Frame.mk i b (c !b)).fill (c b) = .node i c := by
  simp only [Frame.fill, BitTree.node.injEq, true_and]
  funext b'
  cases b <;> cases b' <;> simp

/-! ## Well-formed trees -/

section
variable (pfx : ι → List Bool) (im : ι → Bool)

/-- Every node extends `base`, its subtrees extend it by their bit, and a branching point has two
subtrees. -/
def WF (base : List Bool) : BitTree ι → Prop
  | .nil => True
  | .node i c => base <+: pfx i ∧ (im i = true → ∀ b, c b ≠ .nil) ∧ ∀ b, WF (pfx i ++ [b]) (c b)

/-- The bits a subtree at the hole has to extend. -/
def Path.base : Path ι → List Bool
  | [] => []
  | f :: _ => pfx f.label ++ [f.dir]

def Path.WF : Path ι → Prop
  | [] => True
  | f :: fs => Path.base pfx fs <+: pfx f.label ∧ (im f.label = true → f.sibling ≠ .nil) ∧
      PrefixTree.WF pfx im (pfx f.label ++ [!f.dir]) f.sibling ∧ Path.WF fs

/-- A branching point keeps its two subtrees with `t` in the hole. -/
def Path.Fits : Path ι → BitTree ι → Prop
  | [], _ => True
  | f :: _, t => im f.label = true → t ≠ .nil

end

section
variable {pfx : ι → List Bool} {im : ι → Bool}

lemma wf_fill_iff {base : List Bool} {f : Frame ι} {t : BitTree ι} :
    WF pfx im base (f.fill t) ↔ base <+: pfx f.label ∧
      (im f.label = true → f.sibling ≠ .nil ∧ t ≠ .nil) ∧
      WF pfx im (pfx f.label ++ [!f.dir]) f.sibling ∧ WF pfx im (pfx f.label ++ [f.dir]) t := by
  cases hd : f.dir with
  | false => simp [Frame.fill, WF, hd, and_comm]
  | true => simp [Frame.fill, WF, hd]

theorem wf_plug_iff {fs : Path ι} {t : BitTree ι} :
    WF pfx im [] (plug fs t) ↔
      Path.WF pfx im fs ∧ WF pfx im (Path.base pfx fs) t ∧ Path.Fits im fs t := by
  induction fs generalizing t with
  | nil => simp [plug, Path.WF, Path.base, Path.Fits]
  | cons f fs ih =>
    have hfit : Path.Fits im fs (f.fill t) := by
      cases fs with
      | nil => trivial
      | cons g fs => exact fun _ => by simp [Frame.fill]
    rw [plug, ih, wf_fill_iff]
    simp only [Path.WF, Path.base, Path.Fits]
    tauto

lemma WF.base_isPrefix {base : List Bool} {t : BitTree ι} (h : WF pfx im base t) {j : ι}
    (hj : j ∈ t.nodes) : base <+: pfx j := by
  induction t generalizing base with
  | nil => simp [BitTree.nodes] at hj
  | node i c ih =>
    obtain ⟨hb, -, hc⟩ := h
    rcases BitTree.mem_nodes_node.mp hj with rfl | ⟨b, hj⟩
    · exact hb
    · exact (hb.trans (List.prefix_append _ _)).trans (ih b (hc b) hj)

/-- A subtree's nodes extend its root by the bit of the subtree. -/
lemma WF.child_isPrefix {base : List Bool} {i : ι} {c : Bool → BitTree ι}
    (h : WF pfx im base (.node i c)) {b : Bool} {j : ι} (hj : j ∈ (c b).nodes) :
    pfx i ++ [b] <+: pfx j :=
  (h.2.2 b).base_isPrefix hj

/-- The nodes of a tree extend its root. -/
lemma WF.root_isPrefix {base : List Bool} {i j : ι} {c : Bool → BitTree ι}
    (h : WF pfx im base (.node i c)) (hj : j ∈ (BitTree.node i c).nodes) : pfx i <+: pfx j := by
  rcases BitTree.mem_nodes_node.mp hj with rfl | ⟨b, hj⟩
  · exact List.prefix_rfl
  · exact (List.prefix_append _ _).trans (h.child_isPrefix hj)

lemma not_prefix_of_bit_ne {p q : List Bool} {b : Bool} (h : p ++ [!b] <+: q) :
    ¬ p ++ [b] <+: q := by
  intro h'
  obtain ⟨u, rfl⟩ := h
  obtain ⟨v, hv⟩ := h'
  simp only [List.append_assoc, List.append_cancel_left_eq, List.cons_append, List.nil_append,
    List.cons.injEq] at hv
  exact absurd hv.1 (by simp)

lemma length_lt_of_append_isPrefix {p q : List Bool} {b : Bool} (h : p ++ [b] <+: q) :
    p.length < q.length := by
  simpa using h.length_le

/-- The nodes off the position do not extend its base. -/
lemma Path.WF.not_base_isPrefix {fs : Path ι} (h : Path.WF pfx im fs) {j : ι}
    (hj : j ∈ Path.nodes fs) : ¬ Path.base pfx fs <+: pfx j := by
  induction fs with
  | nil => simp [Path.nodes] at hj
  | cons f fs ih =>
    obtain ⟨hb, -, hs, hfs⟩ := h
    simp only [Path.nodes, List.mem_cons, List.mem_append] at hj
    rcases hj with rfl | hj | hj
    · exact fun hp => absurd (length_lt_of_append_isPrefix hp) (lt_irrefl _)
    · exact not_prefix_of_bit_ne (hs.base_isPrefix hj)
    · intro hp
      exact ih hfs hj ((hb.trans (List.prefix_append _ _)).trans hp)

/-- A subtree may hang anywhere on the way to its root. -/
lemma WF.rebase {base base' : List Bool} {i : ι} {c : Bool → BitTree ι}
    (h : WF pfx im base (.node i c)) (hb : base' <+: pfx i) : WF pfx im base' (.node i c) :=
  ⟨hb, h.2⟩

/-- A node without subtrees. -/
def leaf (i : ι) : BitTree ι := .node i fun _ => .nil

@[simp] lemma nodes_leaf (i : ι) : (leaf i).nodes = [i] := rfl

lemma wf_leaf {base : List Bool} {i : ι} (hb : base <+: pfx i) (hi : im i = false) :
    WF pfx im base (leaf i) :=
  ⟨hb, by simp [hi], fun _ => trivial⟩

/-- Every subtree has a node that is not a branching point. -/
lemma WF.exists_real {base : List Bool} {t : BitTree ι} (h : WF pfx im base t) (ht : t ≠ .nil) :
    ∃ j ∈ t.nodes, im j = false := by
  induction t generalizing base with
  | nil => exact absurd rfl ht
  | node i c ih =>
    cases hi : im i with
    | false => exact ⟨i, by simp [BitTree.nodes], hi⟩
    | true =>
      obtain ⟨j, hj, hr⟩ := ih false (h.2.2 false) (h.2.1 hi false)
      exact ⟨j, BitTree.mem_nodes_node.mpr (.inr ⟨false, hj⟩), hr⟩

/-- No two nodes carry the same bit string. -/
theorem WF.nodup_prefixes {base : List Bool} {t : BitTree ι} (h : WF pfx im base t) :
    (t.nodes.map pfx).Nodup := by
  induction t generalizing base with
  | nil => simp [BitTree.nodes]
  | node i c ih =>
    simp only [BitTree.nodes, List.map_cons, List.map_append, List.nodup_cons, List.nodup_append]
    refine ⟨?_, ih false (h.2.2 false), ih true (h.2.2 true), ?_⟩
    · have hlt : ∀ b, pfx i ∉ (c b).nodes.map pfx := by
        intro b hm
        obtain ⟨j, hj, he⟩ := List.mem_map.mp hm
        have hl := length_lt_of_append_isPrefix (h.child_isPrefix hj)
        rw [he] at hl
        exact lt_irrefl _ hl
      simp only [List.mem_append, not_or]
      exact ⟨hlt false, hlt true⟩
    · intro p hp q hq hpq
      obtain ⟨j, hj, rfl⟩ := List.mem_map.mp hp
      obtain ⟨k, hk, rfl⟩ := List.mem_map.mp hq
      have hjp : pfx i ++ [!true] <+: pfx j := h.child_isPrefix hj
      exact not_prefix_of_bit_ne hjp (hpq ▸ h.child_isPrefix hk)

/-- The nodes that are not branching points. -/
def BitTree.reals (im : ι → Bool) (t : BitTree ι) : List ι := t.nodes.filter (!im ·)

lemma length_reals_fill (f : Frame ι) (t : BitTree ι) :
    ((f.fill t).reals im).length =
      (if im f.label then 0 else 1) + (f.sibling.reals im).length + (t.reals im).length := by
  have hperm := ((nodes_fill_perm f t).filter (!im ·)).length_eq
  rw [List.filter_cons, List.filter_append] at hperm
  rw [BitTree.reals, hperm]
  cases im f.label with
  | false =>
    simp only [Bool.not_false, if_true, List.length_cons, List.length_append, BitTree.reals,
      Bool.false_eq_true, if_false]
    omega
  | true => simp [BitTree.reals]

/-- A tree has fewer branching points than other nodes. -/
theorem WF.length_nodes_lt {base : List Bool} {t : BitTree ι} (h : WF pfx im base t)
    (ht : t ≠ .nil) : t.nodes.length < 2 * (t.reals im).length := by
  induction t generalizing base with
  | nil => exact absurd rfl ht
  | node i c ih =>
    have hle : ∀ b, (c b).nodes.length ≤ 2 * ((c b).reals im).length := by
      intro b
      cases hb : c b with
      | nil => simp [BitTree.nodes]
      | node j d =>
        have hlt := ih b (h.2.2 b) (by simp [hb])
        rw [hb] at hlt
        exact hlt.le
    have hf := hle false
    have ht := hle true
    simp only [BitTree.reals, BitTree.nodes, List.filter_cons, List.filter_append, List.length_cons,
      List.length_append] at hf ht ⊢
    cases hi : im i with
    | false =>
      simp only [Bool.not_false, if_true, List.length_cons, List.length_append]
      omega
    | true =>
      have hf' := ih false (h.2.2 false) (h.2.1 hi false)
      have ht' := ih true (h.2.2 true) (h.2.1 hi true)
      simp only [BitTree.reals] at hf' ht'
      simp only [Bool.not_true, Bool.false_eq_true, if_false, List.length_append]
      omega

end

/-! ## The position of a key -/

/-- The bit of `k` behind the bits of `p`. -/
def bitAfter (k p : List Bool) : Bool := k.getD p.length false

lemma append_bitAfter_isPrefix {k p : List Bool} (h : p <+: k) (hl : p.length < k.length) :
    p ++ [bitAfter k p] <+: k := by
  obtain ⟨q, rfl⟩ := h
  cases q with
  | nil => simp at hl
  | cons b q => simp [bitAfter]

lemma fork_of_commonPrefix {p k : List Bool} (hp : commonPrefix p k < p.length)
    (hk : commonPrefix p k < k.length) :
    k.take (commonPrefix p k) ++ [!bitAfter k (k.take (commonPrefix p k))] <+: p := by
  have hne := getElem_commonPrefix_ne p k hp hk
  have hbit : (!bitAfter k (k.take (commonPrefix p k))) = p[commonPrefix p k] := by
    have hlen : (k.take (commonPrefix p k)).length = commonPrefix p k := by simp [hk.le]
    rw [bitAfter, hlen, List.getD_eq_getElem _ _ hk]
    cases hb : p[commonPrefix p k] <;> cases hb' : k[commonPrefix p k] <;> simp_all
  rw [hbit, ← take_commonPrefix, List.take_append_getElem hp]
  exact List.take_prefix _ _

/-- Walk down from `fs` while the node is a proper prefix of `k`. -/
def descend (pfx : ι → List Bool) (k : List Bool) : Path ι → BitTree ι → Path ι × BitTree ι
  | fs, .nil => (fs, .nil)
  | fs, .node i c =>
      if pfx i <+: k ∧ (pfx i).length < k.length then
        if bitAfter k (pfx i) then descend pfx k (⟨i, true, c false⟩ :: fs) (c true)
        else descend pfx k (⟨i, false, c true⟩ :: fs) (c false)
      else (fs, .node i c)

lemma descend_node {pfx : ι → List Bool} {k : List Bool} {fs : Path ι} {i : ι}
    {c : Bool → BitTree ι} (h : pfx i <+: k ∧ (pfx i).length < k.length) :
    descend pfx k fs (.node i c) =
      descend pfx k (⟨i, bitAfter k (pfx i), c !bitAfter k (pfx i)⟩ :: fs)
        (c (bitAfter k (pfx i))) := by
  rw [descend, if_pos h]
  cases bitAfter k (pfx i) <;> simp

lemma descend_stop {pfx : ι → List Bool} {k : List Bool} {fs : Path ι} {i : ι}
    {c : Bool → BitTree ι} (h : ¬ (pfx i <+: k ∧ (pfx i).length < k.length)) :
    descend pfx k fs (.node i c) = (fs, .node i c) := by
  rw [descend, if_neg h]

/-- A position for `k`: the path leads towards `k`, and the subtree there does not go on. -/
structure Position (pfx : ι → List Bool) (k : List Bool) (fs : Path ι) (t : BitTree ι) : Prop where
  base : Path.base pfx fs <+: k
  stop : ∀ i c, t = .node i c → ¬ (pfx i <+: k ∧ (pfx i).length < k.length)

theorem descend_spec {pfx : ι → List Bool} {k : List Bool} {fs : Path ι} (t : BitTree ι)
    (h : Path.base pfx fs <+: k) :
    plug (descend pfx k fs t).1 (descend pfx k fs t).2 = plug fs t ∧
      Position pfx k (descend pfx k fs t).1 (descend pfx k fs t).2 := by
  induction t generalizing fs with
  | nil => exact ⟨rfl, h, by simp [descend]⟩
  | node i c ih =>
    by_cases hi : pfx i <+: k ∧ (pfx i).length < k.length
    · rw [descend_node hi]
      have hbase : Path.base pfx (⟨i, bitAfter k (pfx i), c !bitAfter k (pfx i)⟩ :: fs) <+: k :=
        append_bitAfter_isPrefix hi.1 hi.2
      obtain ⟨hplug, hpos⟩ := ih (bitAfter k (pfx i)) hbase
      exact ⟨by rw [hplug, plug, fill_child], hpos⟩
    · rw [descend_stop hi]
      refine ⟨rfl, h, ?_⟩
      rintro j d he
      obtain ⟨rfl, rfl⟩ := BitTree.node.inj he
      exact hi

/-! ## Prefix maps -/

section
variable {ν : Type*}

/-- A finite map from bit strings. -/
abbrev PrefixMap (ν : Type*) := Finmap fun _ : List Bool => ν

/-- The value of the longest prefix of `k` in the map, among those of at most `n` bits. -/
def matchUpTo (M : PrefixMap ν) (k : List Bool) : ℕ → Option ν
  | 0 => M.lookup []
  | n + 1 =>
      match M.lookup (k.take (n + 1)) with
      | some v => some v
      | none => matchUpTo M k n

/-- The value of the longest prefix of `k` in the map. -/
def longestMatch (M : PrefixMap ν) (k : List Bool) : Option ν := matchUpTo M k k.length

/-- A new key `k` splits the tree below a point that is no key and has no branch yet: some key
leaves `k` there and none goes on with `k`. -/
def NeedsBranch (K : Finset (List Bool)) (k : List Bool) : Prop :=
  ∃ m ∈ Finset.range k.length, (∃ e ∈ K, k.take m ++ [!bitAfter k (k.take m)] <+: e) ∧
    (∀ e ∈ K, ¬ k.take (m + 1) <+: e) ∧ k.take m ∉ K

instance (K : Finset (List Bool)) (k : List Bool) : Decidable (NeedsBranch K k) :=
  inferInstanceAs (Decidable (∃ m ∈ Finset.range k.length, _ ∧ _ ∧ _))

variable (pfx : ι → List Bool) (im : ι → Bool) (val : ι → ν)

/-- The tree holds the entries of the map in its nodes that are not branching points. -/
def Denotes (M : PrefixMap ν) (t : BitTree ι) : Prop :=
  ∀ k v, M.lookup k = some v ↔ ∃ j ∈ t.nodes, im j = false ∧ pfx j = k ∧ val j = v

variable {pfx im val} {M : PrefixMap ν} {t t' : BitTree ι} {fs : Path ι} {k : List Bool} {v : ν}

lemma Denotes.mem_iff (h : Denotes pfx im val M t) :
    k ∈ M ↔ ∃ j ∈ t.nodes, im j = false ∧ pfx j = k := by
  rw [Finmap.mem_iff]
  constructor
  · rintro ⟨v, hv⟩
    obtain ⟨j, hj, hr, hk, -⟩ := (h k v).mp hv
    exact ⟨j, hj, hr, hk⟩
  · rintro ⟨j, hj, hr, hk⟩
    exact ⟨val j, (h k (val j)).mpr ⟨j, hj, hr, hk, rfl⟩⟩

theorem Denotes.card_keys {base : List Bool} (h : Denotes pfx im val M t)
    (hwf : WF pfx im base t) : M.keys.card = (t.reals im).length := by
  have hkeys : M.keys = ((t.reals im).map pfx).toFinset := by
    ext k
    rw [Finmap.mem_keys, h.mem_iff, List.mem_toFinset, List.mem_map]
    simp only [BitTree.reals, List.mem_filter, Bool.not_eq_true']
    constructor
    · rintro ⟨j, hj, hr, hk⟩
      exact ⟨j, ⟨hj, hr⟩, hk⟩
    · rintro ⟨j, ⟨hj, hr⟩, hk⟩
      exact ⟨j, hj, hr, hk⟩
  have hnd : ((t.reals im).map pfx).Nodup :=
    List.Nodup.sublist (List.filter_sublist.map pfx) hwf.nodup_prefixes
  rw [hkeys, List.toFinset_card_of_nodup hnd, List.length_map]

/-- Setting the entry of a key at its position changes the map there only. -/
theorem Denotes.insert {new : ι} (h : Denotes pfx im val M (plug fs t))
    (hp : Path.WF pfx im fs) (hk : Path.base pfx fs <+: pfx new) (hreal : im new = false)
    (hnodes : ∀ j, im j = false →
      (j ∈ t'.nodes ↔ j = new ∨ j ∈ t.nodes ∧ pfx j ≠ pfx new)) :
    Denotes pfx im val (M.insert (pfx new) (val new)) (plug fs t') := by
  intro k v
  by_cases hkk : k = pfx new
  · subst hkk
    rw [Finmap.lookup_insert, Option.some_inj]
    constructor
    · rintro rfl
      exact ⟨new, mem_nodes_plug.mpr (.inr ((hnodes new hreal).mpr (.inl rfl))), hreal, rfl, rfl⟩
    · rintro ⟨j, hj, hr, hjk, rfl⟩
      rcases mem_nodes_plug.mp hj with hj | hj
      · exact absurd (hjk.symm ▸ hk) (hp.not_base_isPrefix hj)
      · rcases (hnodes j hr).mp hj with rfl | ⟨-, hne⟩
        · rfl
        · exact absurd hjk hne
  · rw [Finmap.lookup_insert_of_ne _ hkk, h k v]
    constructor
    · rintro ⟨j, hj, hr, rfl, hv⟩
      refine ⟨j, mem_nodes_plug.mpr ?_, hr, rfl, hv⟩
      exact (mem_nodes_plug.mp hj).imp_right fun hj => (hnodes j hr).mpr (.inr ⟨hj, hkk⟩)
    · rintro ⟨j, hj, hr, rfl, hv⟩
      refine ⟨j, mem_nodes_plug.mpr ?_, hr, rfl, hv⟩
      refine (mem_nodes_plug.mp hj).imp_right fun hj => ?_
      rcases (hnodes j hr).mp hj with rfl | ⟨hj, -⟩
      · exact absurd rfl hkk
      · exact hj

theorem Denotes.erase (h : Denotes pfx im val M (plug fs t)) (hp : Path.WF pfx im fs)
    (hk : Path.base pfx fs <+: k)
    (hnodes : ∀ j, im j = false → (j ∈ t'.nodes ↔ j ∈ t.nodes ∧ pfx j ≠ k)) :
    Denotes pfx im val (M.erase k) (plug fs t') := by
  intro k' v
  by_cases hkk : k' = k
  · subst hkk
    rw [Finmap.lookup_erase]
    refine ⟨by simp, ?_⟩
    rintro ⟨j, hj, hr, hjk, -⟩
    rcases mem_nodes_plug.mp hj with hj | hj
    · exact absurd (hjk.symm ▸ hk) (hp.not_base_isPrefix hj)
    · exact absurd hjk ((hnodes j hr).mp hj).2
  · rw [Finmap.lookup_erase_ne hkk, h k' v]
    constructor
    · rintro ⟨j, hj, hr, rfl, hv⟩
      refine ⟨j, mem_nodes_plug.mpr ?_, hr, rfl, hv⟩
      exact (mem_nodes_plug.mp hj).imp_right fun hj => (hnodes j hr).mpr ⟨hj, hkk⟩
    · rintro ⟨j, hj, hr, rfl, hv⟩
      refine ⟨j, mem_nodes_plug.mpr ?_, hr, rfl, hv⟩
      exact (mem_nodes_plug.mp hj).imp_right fun hj => ((hnodes j hr).mp hj).1

/-- A key is in the map iff the subtree at its position starts with it. -/
theorem Denotes.mem_iff_position (h : Denotes pfx im val M (plug fs t))
    (hwf : WF pfx im [] (plug fs t)) (hpos : Position pfx k fs t) :
    k ∈ M ↔ ∃ i c, t = .node i c ∧ im i = false ∧ pfx i = k := by
  obtain ⟨hp, ht, -⟩ := wf_plug_iff.mp hwf
  rw [h.mem_iff]
  constructor
  · rintro ⟨j, hj, hr, rfl⟩
    rcases mem_nodes_plug.mp hj with hj | hj
    · exact absurd hpos.base (hp.not_base_isPrefix hj)
    · cases t with
      | nil => simp [BitTree.nodes] at hj
      | node i c =>
        rcases BitTree.mem_nodes_node.mp hj with rfl | ⟨b, hj⟩
        · exact ⟨j, c, rfl, hr, rfl⟩
        · have hij := ht.child_isPrefix hj
          exact absurd ⟨(List.prefix_append _ _).trans hij, length_lt_of_append_isPrefix hij⟩
            (hpos.stop i c rfl)
  · rintro ⟨i, c, rfl, hr, hk⟩
    exact ⟨i, mem_nodes_plug.mpr (.inr (by simp [BitTree.nodes])), hr, hk⟩

/-- A key that leaves `k` above the position leaves it at a key or at a branch towards `k`. -/
lemma exists_key_of_fork {m : ℕ} {j : ι} (hwf : WF pfx im [] (plug fs t))
    (hbase : Path.base pfx fs <+: k) (hm : m < k.length) (hj : j ∈ Path.nodes fs)
    (hfork : k.take m ++ [!bitAfter k (k.take m)] <+: pfx j) :
    ∃ j' ∈ (plug fs t).nodes, im j' = false ∧
      (pfx j' = k.take m ∨ k.take (m + 1) <+: pfx j') := by
  have hlen : (k.take m).length = m := by simp [hm.le]
  have hk : k.take m ++ [bitAfter k (k.take m)] <+: k :=
    append_bitAfter_isPrefix (List.take_prefix m k) (by omega)
  induction fs generalizing t with
  | nil => simp [Path.nodes] at hj
  | cons f fs ih =>
    obtain ⟨hp, ht, hfit⟩ := wf_plug_iff.mp hwf
    have hpk : pfx f.label ++ [f.dir] <+: k := hbase
    simp only [Path.nodes, List.mem_cons, List.mem_append] at hj
    rcases hj with rfl | hj | hj
    · have hfk := hfork.trans ((List.prefix_append _ _).trans hpk)
      exact absurd hk (not_prefix_of_bit_ne hfk)
    · have hsib := hp.2.2.1.base_isPrefix hj
      have hml : m = (pfx f.label).length := by
        rw [← hlen, ← commonPrefix_of_fork hk hfork, commonPrefix_of_fork hpk hsib]
      have htake : pfx f.label = k.take m := by
        simpa [hml] using List.prefix_iff_eq_take.mp ((List.prefix_append _ _).trans hpk)
      cases hi : im f.label with
      | false =>
        refine ⟨f.label, mem_nodes_plug.mpr (.inl ?_), hi, .inl htake⟩
        simp [Path.nodes]
      | true =>
        obtain ⟨j', hj', hr⟩ := ht.exists_real (hfit hi)
        refine ⟨j', mem_nodes_plug.mpr (.inr hj'), hr, .inr ?_⟩
        have hnext : pfx f.label ++ [f.dir] = k.take (m + 1) := by
          simpa [hml] using List.prefix_iff_eq_take.mp hpk
        rw [← hnext]
        exact ht.base_isPrefix hj'
    · exact ih hwf (hp.1.trans ((List.prefix_append _ _).trans hpk)) hj

lemma Denotes.mem_keys_iff {t : BitTree ι} (h : Denotes pfx im val M t) {e : List Bool} :
    e ∈ M.keys ↔ ∃ j ∈ t.nodes, im j = false ∧ pfx j = e := by
  rw [Finmap.mem_keys, h.mem_iff]

lemma Denotes.parts_of_needsBranch (h : Denotes pfx im val M (plug fs t))
    (hwf : WF pfx im [] (plug fs t)) (hpos : Position pfx k fs t) (hbranch : NeedsBranch M.keys k) :
    ∃ i c, t = .node i c ∧ ¬ pfx i <+: k ∧ ¬ k <+: pfx i := by
  obtain ⟨-, ht, -⟩ := wf_plug_iff.mp hwf
  obtain ⟨m, hm, ⟨e, he, hfork⟩, hnone, hnot⟩ := hbranch
  rw [Finset.mem_range] at hm
  obtain ⟨j, hj, hr, rfl⟩ := h.mem_keys_iff.mp he
  rcases mem_nodes_plug.mp hj with hj | hj
  · obtain ⟨j', hj', hr', hj'' | hj''⟩ := exists_key_of_fork hwf hpos.base hm hj hfork
    · exact absurd (h.mem_keys_iff.mpr ⟨j', hj', hr', hj''⟩) hnot
    · exact absurd hj'' (hnone _ (h.mem_keys_iff.mpr ⟨j', hj', hr', rfl⟩))
  · cases t with
    | nil => simp [BitTree.nodes] at hj
    | node i c =>
      have hki : ¬ k <+: pfx i := fun hk =>
        hnone _ he ((List.take_prefix _ _).trans (hk.trans (ht.root_isPrefix hj)))
      refine ⟨i, c, rfl, fun hik => ?_, hki⟩
      have hle : ¬ (pfx i).length < k.length := fun hl => hpos.stop i c rfl ⟨hik, hl⟩
      exact hki (by rw [hik.eq_of_length_le (Nat.not_lt.mp hle)])

/-- The nodes that extend the base of a position are those of the subtree there. -/
lemma root_isPrefix_of_base {i j : ι} {c : Bool → BitTree ι}
    (hwf : WF pfx im [] (plug fs (.node i c))) (hj : j ∈ (plug fs (.node i c)).nodes)
    (hbase : Path.base pfx fs <+: pfx j) : pfx i <+: pfx j := by
  obtain ⟨hp, ht, -⟩ := wf_plug_iff.mp hwf
  rcases mem_nodes_plug.mp hj with hj | hj
  · exact absurd hbase (hp.not_base_isPrefix hj)
  · exact ht.root_isPrefix hj

lemma Denotes.needsBranch_of_parts {i : ι} {c : Bool → BitTree ι}
    (h : Denotes pfx im val M (plug fs (.node i c))) (hwf : WF pfx im [] (plug fs (.node i c)))
    (hpos : Position pfx k fs (.node i c)) (hik : ¬ pfx i <+: k) (hki : ¬ k <+: pfx i) :
    NeedsBranch M.keys k := by
  obtain ⟨-, ht, -⟩ := wf_plug_iff.mp hwf
  have hml : commonPrefix (pfx i) k < (pfx i).length :=
    lt_of_le_of_ne (commonPrefix_le_left _ _) fun he =>
      hik ((commonPrefix_eq_length_iff _ _).mp he)
  have hmr : commonPrefix (pfx i) k < k.length := by
    refine lt_of_le_of_ne (commonPrefix_le_right _ _) fun he => hki ?_
    rw [commonPrefix_comm] at he
    exact (commonPrefix_eq_length_iff _ _).mp he
  have hfork := fork_of_commonPrefix hml hmr
  have hstart : (Path.base pfx fs).length ≤ commonPrefix (pfx i) k :=
    length_le_commonPrefix (ht.base_isPrefix (by simp [BitTree.nodes])) hpos.base
  generalize commonPrefix (pfx i) k = m at hml hmr hfork hstart
  -- the base of the position lies before the fork
  have hbase : Path.base pfx fs <+: k.take m :=
    List.prefix_of_prefix_length_le hpos.base (List.take_prefix _ _) (by simp; omega)
  have hoff : ∀ {e : List Bool}, e ∈ M.keys → k.take m <+: e → pfx i <+: e := by
    intro e he hke
    obtain ⟨j, hj, -, rfl⟩ := h.mem_keys_iff.mp he
    exact root_isPrefix_of_base hwf hj (hbase.trans hke)
  obtain ⟨j, hj, hr⟩ := ht.exists_real (by simp)
  have hkey : pfx j ∈ M.keys := h.mem_keys_iff.mpr ⟨j, mem_nodes_plug.mpr (.inr hj), hr, rfl⟩
  refine ⟨m, Finset.mem_range.mpr hmr, ⟨pfx j, hkey, hfork.trans (ht.root_isPrefix hj)⟩, ?_, ?_⟩
  · intro e he hke
    have hie := hoff he ((List.take_prefix_take_left (by omega)).trans hke)
    have hnext : k.take m ++ [bitAfter k (k.take m)] <+: e := by
      have happ := append_bitAfter_isPrefix (List.take_prefix m k) (by simp; omega)
      have heq := List.prefix_iff_eq_take.mp happ
      rw [heq]
      simpa [hmr.le] using hke
    exact not_prefix_of_bit_ne (hfork.trans hie) hnext
  · intro he
    have hie := (hoff he List.prefix_rfl).length_le
    simp only [List.length_take] at hie
    omega

/-- A new key needs a branching point iff it and the subtree at its position part. -/
theorem Denotes.needsBranch_iff (h : Denotes pfx im val M (plug fs t))
    (hwf : WF pfx im [] (plug fs t)) (hpos : Position pfx k fs t) :
    NeedsBranch M.keys k ↔ ∃ i c, t = .node i c ∧ ¬ pfx i <+: k ∧ ¬ k <+: pfx i := by
  constructor
  · exact h.parts_of_needsBranch hwf hpos
  · rintro ⟨i, c, rfl, hik, hki⟩
    exact h.needsBranch_of_parts hwf hpos hik hki

/-! ## Longest matches -/

variable (pfx im) in
/-- `r` is the longest entry of `t` that is a prefix of `k`, or `found` when there is none. -/
def Best (t : BitTree ι) (k : List Bool) (found r : Option ι) : Prop :=
  (∃ i ∈ t.nodes, r = some i ∧ im i = false ∧ pfx i <+: k ∧
    ∀ j ∈ t.nodes, im j = false → pfx j <+: k → (pfx j).length ≤ (pfx i).length) ∨
  (r = found ∧ ∀ j ∈ t.nodes, im j = false → ¬ pfx j <+: k)

lemma Best.of_not_prefix {base : List Bool} {i : ι} {c : Bool → BitTree ι} {found : Option ι}
    (h : WF pfx im base (.node i c)) (hi : ¬ pfx i <+: k) :
    Best pfx im (.node i c) k found found := by
  exact .inr ⟨rfl, fun j hj _ hjk => hi ((h.root_isPrefix hj).trans hjk)⟩

/-- A search that goes on with the next bit of `k` misses no entry; at the end of `k` any bit
will do. -/
lemma Best.of_child {base : List Bool} {i : ι} {c : Bool → BitTree ι} {b : Bool}
    {found r : Option ι} (h : WF pfx im base (.node i c)) (hi : pfx i <+: k)
    (hb : (pfx i).length < k.length → b = bitAfter k (pfx i))
    (hr : Best pfx im (c b) k (if im i then found else some i) r) :
    Best pfx im (.node i c) k found r := by
  have hother : ∀ j ∈ (c !b).nodes, ¬ pfx j <+: k := by
    intro j hj hjk
    have hij := h.child_isPrefix hj
    have hl := lt_of_lt_of_le (length_lt_of_append_isPrefix hij) hjk.length_le
    rw [hb hl] at hij
    exact not_prefix_of_bit_ne (hij.trans hjk) (append_bitAfter_isPrefix hi hl)
  have hsub : ∀ j ∈ (BitTree.node i c).nodes, pfx j <+: k → j = i ∨ j ∈ (c b).nodes := by
    intro j hj hjk
    rcases BitTree.mem_nodes_node.mp hj with rfl | ⟨b', hj⟩
    · exact .inl rfl
    · by_cases hbb : b' = b
      · exact .inr (hbb ▸ hj)
      · rw [Bool.eq_not_iff.mpr hbb] at hj
        exact absurd hjk (hother j hj)
  rcases hr with ⟨j, hj, rfl, hreal, hjk, hmax⟩ | ⟨rfl, hnone⟩
  · refine .inl ⟨j, BitTree.mem_nodes_node.mpr (.inr ⟨b, hj⟩), rfl, hreal, hjk, ?_⟩
    intro j' hj' hr' hjk'
    rcases hsub j' hj' hjk' with rfl | hj'
    · exact (length_lt_of_append_isPrefix (h.child_isPrefix hj)).le
    · exact hmax j' hj' hr' hjk'
  · cases hi' : im i with
    | true =>
      refine .inr ⟨by simp, fun j hj hreal hjk => ?_⟩
      rcases hsub j hj hjk with rfl | hj
      · simp [hi'] at hreal
      · exact hnone j hj hreal hjk
    | false =>
      refine .inl ⟨i, by simp [BitTree.nodes], by simp, hi', hi, ?_⟩
      intro j hj hreal hjk
      rcases hsub j hj hjk with rfl | hj
      · exact le_rfl
      · exact absurd hjk (hnone j hj hreal)

lemma matchUpTo_eq_none {n : ℕ} (h : ∀ m ≤ n, M.lookup (k.take m) = none) :
    matchUpTo M k n = none := by
  induction n with
  | zero => simpa [matchUpTo] using h 0 le_rfl
  | succ n ih => simp [matchUpTo, h (n + 1) le_rfl, ih fun m hm => h m (by omega)]

lemma matchUpTo_eq_some {m n : ℕ} (hmn : m ≤ n) (hm : M.lookup (k.take m) = some v)
    (h : ∀ l, m < l → l ≤ n → M.lookup (k.take l) = none) : matchUpTo M k n = some v := by
  induction n with
  | zero =>
    obtain rfl : m = 0 := by omega
    simpa [matchUpTo] using hm
  | succ n ih =>
    by_cases he : m = n + 1
    · subst he
      simp [matchUpTo, hm]
    · simp [matchUpTo, h (n + 1) (by omega) le_rfl,
        ih (by omega) fun l hl hln => h l hl (by omega)]

/-- The best entry of the tree is the longest match of the map. -/
theorem Denotes.longestMatch_eq (h : Denotes pfx im val M t) {r : Option ι}
    (hr : Best pfx im t k none r) : longestMatch M k = r.map val := by
  have hnone : ∀ n, (∀ j ∈ t.nodes, im j = false → pfx j ≠ k.take n) →
      M.lookup (k.take n) = none := by
    intro n hn
    rw [Finmap.lookup_eq_none, h.mem_iff]
    rintro ⟨j, hj, hreal, hk⟩
    exact hn j hj hreal hk
  rcases hr with ⟨i, hi, rfl, hreal, hik, hmax⟩ | ⟨rfl, hno⟩
  · have htake : pfx i = k.take (pfx i).length := List.prefix_iff_eq_take.mp hik
    apply matchUpTo_eq_some hik.length_le
    · rw [← htake]
      exact (h _ _).mpr ⟨i, hi, hreal, rfl, rfl⟩
    · intro l hl hlk
      apply hnone
      intro j hj hjr hjk
      have hle := hmax j hj hjr (hjk ▸ List.take_prefix _ _)
      rw [hjk, List.length_take] at hle
      omega
  · apply matchUpTo_eq_none
    intro m _
    exact hnone m fun j hj hjr hjk => hno j hj hjr (hjk ▸ List.take_prefix _ _)

end

/-! ## The shape of a tree -/

section
variable {ν : Type*} (pfx : ι → List Bool) (im : ι → Bool) (val : ι → ν)

/-- The tree of the bit strings, with the values at the nodes that are not branching points. -/
def BitTree.shape : BitTree ι → BitTree (List Bool × Option ν)
  | .nil => .nil
  | .node i c => .node (pfx i, if im i then none else some (val i)) fun b => (c b).shape

def BitTree.HasEntry (t : BitTree ι) (k : List Bool) (v : ν) : Prop :=
  ∃ j ∈ t.nodes, im j = false ∧ pfx j = k ∧ val j = v

variable {pfx im val} {base : List Bool} {i : ι} {c : Bool → BitTree ι} {t t' : BitTree ι}
  {k : List Bool} {v : ν}

lemma WF.hasEntry_child_iff (h : WF pfx im base (.node i c)) (b : Bool) :
    (c b).HasEntry pfx im val k v ↔
      (BitTree.node i c).HasEntry pfx im val k v ∧ pfx i ++ [b] <+: k := by
  constructor
  · rintro ⟨j, hj, hr, rfl, hv⟩
    exact ⟨⟨j, BitTree.mem_nodes_node.mpr (.inr ⟨b, hj⟩), hr, rfl, hv⟩, h.child_isPrefix hj⟩
  · rintro ⟨⟨j, hj, hr, rfl, hv⟩, hp⟩
    rcases BitTree.mem_nodes_node.mp hj with rfl | ⟨b', hj⟩
    · exact absurd (length_lt_of_append_isPrefix hp) (lt_irrefl _)
    · have hbit : b' = b := by
        by_contra hne
        have hb : b' = !b := by cases b <;> cases b' <;> simp at hne ⊢
        exact not_prefix_of_bit_ne (hb ▸ h.child_isPrefix hj) hp
      exact ⟨j, hbit ▸ hj, hr, rfl, hv⟩

lemma WF.exists_entry (h : WF pfx im base t) (ht : t ≠ .nil) (val : ι → ν) :
    ∃ k v, t.HasEntry pfx im val k v := by
  obtain ⟨j, hj, hr⟩ := h.exists_real ht
  exact ⟨pfx j, val j, j, hj, hr, rfl, rfl⟩

/-- The string of the root is the longest common prefix of the keys. -/
lemma WF.isPrefix_root (h : WF pfx im base (.node i c)) {p : List Bool}
    (hp : ∀ k v, (BitTree.node i c).HasEntry pfx im val k v → p <+: k) : p <+: pfx i := by
  cases hi : im i with
  | false => exact hp (pfx i) (val i) ⟨i, BitTree.mem_nodes_node.mpr (.inl rfl), hi, rfl, rfl⟩
  | true =>
    have hchild : ∀ b, ∃ k, pfx i ++ [b] <+: k ∧ p <+: k := by
      intro b
      obtain ⟨k, v, hk⟩ := (h.2.2 b).exists_entry (h.2.1 hi b) val
      obtain ⟨hk, hbit⟩ := (h.hasEntry_child_iff b).mp hk
      exact ⟨k, hbit, hp k v hk⟩
    obtain ⟨k₀, hk₀, hp₀⟩ := hchild false
    obtain ⟨k₁, hk₁, hp₁⟩ := hchild true
    rcases Nat.lt_or_ge (pfx i).length p.length with hlt | hge
    · -- a longer common prefix would go on with both bits
      have hle : (pfx i ++ [false]).length ≤ p.length := by
        rw [List.length_append, List.length_singleton]
        omega
      have hpi := List.prefix_of_prefix_length_le hk₀ hp₀ hle
      exact absurd (hpi.trans hp₁) (not_prefix_of_bit_ne hk₁)
    · exact List.prefix_of_prefix_length_le hp₀ ((List.prefix_append _ _).trans hk₀) hge

lemma WF.root_hasEntry_iff (h : WF pfx im base (.node i c)) :
    (BitTree.node i c).HasEntry pfx im val (pfx i) v ↔ im i = false ∧ val i = v := by
  constructor
  · rintro ⟨j, hj, hr, hk, hv⟩
    rcases BitTree.mem_nodes_node.mp hj with rfl | ⟨b, hj⟩
    · exact ⟨hr, hv⟩
    · have hlt := length_lt_of_append_isPrefix (h.child_isPrefix hj)
      rw [hk] at hlt
      exact absurd hlt (lt_irrefl _)
  · rintro ⟨hr, hv⟩
    exact ⟨i, BitTree.mem_nodes_node.mpr (.inl rfl), hr, rfl, hv⟩

/-- The shape of a well-formed tree depends on its entries only. -/
theorem WF.shape_eq {base' : List Bool} (h : WF pfx im base t) (h' : WF pfx im base' t')
    (he : ∀ k v, t.HasEntry pfx im val k v ↔ t'.HasEntry pfx im val k v) :
    t.shape pfx im val = t'.shape pfx im val := by
  induction t generalizing t' base base' with
  | nil =>
    cases t' with
    | nil => rfl
    | node j d =>
      obtain ⟨k, v, hk⟩ := h'.exists_entry (by simp) val
      obtain ⟨_, hmem, -⟩ := (he k v).mpr hk
      simp [BitTree.nodes] at hmem
  | node i c ih =>
    cases t' with
    | nil =>
      obtain ⟨k, v, hk⟩ := h.exists_entry (by simp) val
      obtain ⟨_, hmem, -⟩ := (he k v).mp hk
      simp [BitTree.nodes] at hmem
    | node j d =>
      have hbase : ∀ k v, (BitTree.node i c).HasEntry pfx im val k v → pfx i <+: k := by
        rintro k v ⟨l, hl, -, rfl, -⟩
        exact (h.rebase (List.prefix_refl _)).base_isPrefix hl
      have hbase' : ∀ k v, (BitTree.node j d).HasEntry pfx im val k v → pfx j <+: k := by
        rintro k v ⟨l, hl, -, rfl, -⟩
        exact (h'.rebase (List.prefix_refl _)).base_isPrefix hl
      have hle : pfx i <+: pfx j := h'.isPrefix_root fun k v hk => hbase k v ((he k v).mpr hk)
      have hge : pfx j <+: pfx i := h.isPrefix_root fun k v hk => hbase' k v ((he k v).mp hk)
      have hpfx : pfx i = pfx j := hle.eq_of_length_le hge.length_le
      have hroot : ∀ v, im i = false ∧ val i = v ↔ im j = false ∧ val j = v := by
        intro v
        rw [← h.root_hasEntry_iff, ← h'.root_hasEntry_iff, he, hpfx]
      have hchild : ∀ b, (c b).shape pfx im val = (d b).shape pfx im val := by
        refine fun b => ih b (h.2.2 b) (h'.2.2 b) fun k v => ?_
        rw [h.hasEntry_child_iff, h'.hasEntry_child_iff, he, hpfx]
      have hval : (if im i then none else some (val i)) = if im j then none else some (val j) := by
        cases hi : im i with
        | false =>
          obtain ⟨hj, hv⟩ := (hroot (val i)).mp ⟨hi, rfl⟩
          simp [hj, hv]
        | true =>
          cases hj : im j with
          | false =>
            have himi := ((hroot (val j)).mpr ⟨hj, rfl⟩).1
            rw [hi] at himi
            exact absurd himi (by decide)
          | true => rfl
      simp only [BitTree.shape, hpfx, hval, hchild]

/-- The entries of a tree can be read off its shape. -/
lemma hasEntry_iff_shape : t.HasEntry pfx im val k v ↔ (k, some v) ∈ (t.shape pfx im val).nodes := by
  induction t with
  | nil => simp [BitTree.HasEntry, BitTree.nodes, BitTree.shape]
  | node i c ih =>
    have hsplit : (BitTree.node i c).HasEntry pfx im val k v ↔
        (im i = false ∧ pfx i = k ∧ val i = v) ∨ ∃ b, (c b).HasEntry pfx im val k v := by
      simp only [BitTree.HasEntry, BitTree.mem_nodes_node]
      constructor
      · rintro ⟨j, rfl | ⟨b, hj⟩, hr⟩
        · exact .inl hr
        · exact .inr ⟨b, j, hj, hr⟩
      · rintro (hr | ⟨b, j, hj, hr⟩)
        · exact ⟨i, .inl rfl, hr⟩
        · exact ⟨j, .inr ⟨b, hj⟩, hr⟩
    rw [hsplit, BitTree.shape, BitTree.mem_nodes_node]
    simp only [ih, Prod.mk.injEq]
    cases hi : im i with
    | false => simp [eq_comm]
    | true => simp

end
end BpfVerify.PrefixTree
