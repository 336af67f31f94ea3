import BpfVerify.LpmTrie
import BpfVerify.PrefixTree

/-!
# The tree in the node pool

The nodes reachable from the root form a well-formed prefix tree whose labels are pool slots
with their contents; the marked slots are the slots of that tree.
-/
namespace BpfVerify.LpmTrie
open Bits Word PrefixTree

/-- A pool slot with what its node holds. -/
abbrev Label := Slot × Content

def Content.pfx (x : Content) : List Bool := (dataBits x.data.toList).take x.prefixlen

def Key.pfx (k : Key) : List Bool := (dataBits k.data.toList).take k.prefixlen

def labelPfx (i : Label) : List Bool := i.2.pfx

def labelIm (i : Label) : Bool := isIm i.2

def labelValue (i : Label) : Value := i.2.value

lemma Content.length_pfx {x : Content} (h : x.prefixlen ≤ 32) : x.pfx.length = x.prefixlen := by
  simp [Content.pfx, length_dataBits, h]

lemma Key.length_pfx {k : Key} (h : k.prefixlen ≤ 32) : k.pfx.length = k.prefixlen := by
  simp [Key.pfx, length_dataBits, h]

/-! ## Representation -/

def ptr : BitTree Label → Option Slot
  | .nil => none
  | .node i _ => some i.1

lemma ptr_eq_none_iff {t : BitTree Label} : ptr t = none ↔ t = .nil := by
  cases t <;> simp [ptr]

/-- The pool holds the nodes of the tree, linked as the tree is. -/
def Rep (pool : Slot → Node) : BitTree Label → Prop
  | .nil => True
  | .node i c => (pool i.1).toContent = i.2 ∧ ∀ b, (pool i.1).child b = ptr (c b) ∧ Rep pool (c b)

/-- The nodes above a hole, with `hole` in the pointer to it. -/
def RepPath (s : State) : Path Label → Option Slot → Prop
  | [], hole => s.root = hole
  | f :: fs, hole => (s.pool f.label.1).toContent = f.label.2 ∧
      (s.pool f.label.1).child f.dir = hole ∧ (s.pool f.label.1).child (!f.dir) = ptr f.sibling ∧
      Rep s.pool f.sibling ∧ RepPath s fs (some f.label.1)

/-- The pointer to the hole. -/
def refOf : Path Label → Ref
  | [] => .root
  | f :: _ => .child f.label.1 f.dir

lemma deref_refOf {s : State} {fs : Path Label} {hole : Option Slot} (h : RepPath s fs hole) :
    deref s (refOf fs) = hole := by
  cases fs with
  | nil => exact h
  | cons f fs => exact h.2.1

lemma rep_fill_iff {pool : Slot → Node} {f : Frame Label} {t : BitTree Label} :
    Rep pool (f.fill t) ↔ (pool f.label.1).toContent = f.label.2 ∧
      (pool f.label.1).child f.dir = ptr t ∧ (pool f.label.1).child (!f.dir) = ptr f.sibling ∧
      Rep pool f.sibling ∧ Rep pool t := by
  cases hd : f.dir with
  | false =>
    simp only [Frame.fill, Rep, hd, Bool.forall_bool, if_true, Bool.true_eq_false, if_false,
      Bool.not_false]
    tauto
  | true =>
    simp only [Frame.fill, Rep, hd, Bool.forall_bool, if_true, Bool.false_eq_true, if_false,
      Bool.not_true]
    tauto

theorem rep_plug_iff {s : State} {fs : Path Label} {t : BitTree Label} :
    (s.root = ptr (plug fs t) ∧ Rep s.pool (plug fs t)) ↔
      RepPath s fs (ptr t) ∧ Rep s.pool t := by
  induction fs generalizing t with
  | nil => rfl
  | cons f fs ih =>
    have hptr : ptr (f.fill t) = some f.label.1 := rfl
    rw [plug, ih, rep_fill_iff, hptr]
    simp only [RepPath]
    tauto

lemma Rep.content {pool : Slot → Node} {t : BitTree Label} (h : Rep pool t) {i : Label}
    (hi : i ∈ t.nodes) : (pool i.1).toContent = i.2 := by
  induction t with
  | nil => simp [BitTree.nodes] at hi
  | node j c ih =>
    rcases BitTree.mem_nodes_node.mp hi with rfl | ⟨b, hi⟩
    · exact h.1
    · exact ih b (h.2 b).2 hi

lemma Rep.congr {pool pool' : Slot → Node} {t : BitTree Label} (h : Rep pool t)
    (he : ∀ i ∈ t.nodes, pool' i.1 = pool i.1) : Rep pool' t := by
  induction t with
  | nil => trivial
  | node i c ih =>
    have hi := he i (by simp [BitTree.nodes])
    refine ⟨by rw [hi]; exact h.1, fun b => ⟨by rw [hi]; exact (h.2 b).1, ?_⟩⟩
    exact ih b (h.2 b).2 fun j hj => he j (BitTree.mem_nodes_node.mpr (.inr ⟨b, hj⟩))

lemma RepPath.congr {s s' : State} {fs : Path Label} {hole : Option Slot}
    (h : RepPath s fs hole) (hroot : s'.root = s.root)
    (he : ∀ i ∈ Path.nodes fs, s'.pool i.1 = s.pool i.1) : RepPath s' fs hole := by
  induction fs generalizing hole with
  | nil => exact hroot.trans h
  | cons f fs ih =>
    have hf := he f.label (by simp [Path.nodes])
    obtain ⟨hc, hd, hs, hsib, hfs⟩ := h
    refine ⟨by rw [hf]; exact hc, by rw [hf]; exact hd, by rw [hf]; exact hs, ?_, ?_⟩
    · exact hsib.congr fun j hj => he j (by simp [Path.nodes, hj])
    · exact ih hfs fun j hj => he j (by simp [Path.nodes, hj])

lemma assignPointer_pool {s : State} {r : Ref} {q : Option Slot} {p : Slot}
    (h : ∀ b, r ≠ .child p b) : (assignPointer s r q).pool p = s.pool p := by
  cases r with
  | root => rfl
  | child p' b =>
    have hne : p ≠ p' := by
      rintro rfl
      exact h b rfl
    simp [assignPointer, modifyNode, hne]

lemma refOf_ne_child {fs : Path Label} {p : Slot} (h : p ∉ (Path.nodes fs).map Prod.fst)
    (b : Bool) : refOf fs ≠ .child p b := by
  cases fs with
  | nil => simp [refOf]
  | cons f fs =>
    intro he
    rw [refOf, Ref.child.injEq] at he
    exact h (by simp [Path.nodes, he.1])

/-- Writing the pointer to the hole changes the hole only. -/
lemma RepPath.assign {s : State} {fs : Path Label} {hole : Option Slot} (h : RepPath s fs hole)
    (hnd : ((Path.nodes fs).map Prod.fst).Nodup) (q : Option Slot) :
    RepPath (assignPointer s (refOf fs) q) fs q := by
  cases fs with
  | nil => rfl
  | cons f fs =>
    obtain ⟨hc, hd, hs, hsib, hfs⟩ := h
    simp only [Path.nodes, List.map_cons, List.nodup_cons, List.mem_map] at hnd
    have hself : (assignPointer s (refOf (f :: fs)) q).pool f.label.1 =
        setChild (s.pool f.label.1) f.dir q := by
      simp [assignPointer, refOf, modifyNode]
    have hother : ∀ i ∈ f.sibling.nodes ++ Path.nodes fs,
        (assignPointer s (refOf (f :: fs)) q).pool i.1 = s.pool i.1 := by
      intro i hi
      apply assignPointer_pool
      intro b he
      rw [refOf, Ref.child.injEq] at he
      exact hnd.1 ⟨i, hi, he.1.symm⟩
    have hflip : ∀ b : Bool, (!b) ≠ b := by decide
    refine ⟨by rw [hself]; exact hc, by rw [hself]; simp [setChild], ?_, ?_, ?_⟩
    · rw [hself]
      simpa [setChild, hflip] using hs
    · exact hsib.congr fun i hi => hother i (List.mem_append_left _ hi)
    · exact hfs.congr rfl fun i hi => hother i (List.mem_append_right _ hi)

/-! ## The invariant -/

/-- The trie holds the well-formed tree `t`, with the entry counter and the pool marks that
belong to it. -/
structure Inv (cap : ℕ) (s : State) (t : BitTree Label) : Prop where
  root : s.root = ptr t
  rep : Rep s.pool t
  nodup : (t.nodes.map Prod.fst).Nodup
  wf : WF labelPfx labelIm [] t
  len : ∀ i ∈ t.nodes, i.2.prefixlen ≤ 32
  used : ∀ p, s.used p = true ↔ p ∈ t.nodes.map Prod.fst
  count : s.nEntries = (t.reals labelIm).length
  le_cap : s.nEntries ≤ cap
  maxEntries : s.maxEntries = cap
  maxPrefixlen : s.maxPrefixlen = 32
  dataSize : s.dataSize = 4

section
variable {cap : ℕ} {s s' : State} {fs : Path Label} {t t' : BitTree Label}

/-- Slots outside the tree are free to change. -/
lemma Inv.congr (h : Inv cap s t) (hroot : s'.root = s.root)
    (hpool : ∀ p, s.used p = true → s'.pool p = s.pool p) (hused : s'.used = s.used)
    (hn : s'.nEntries = s.nEntries) (hmax : s'.maxEntries = s.maxEntries)
    (hlen : s'.maxPrefixlen = s.maxPrefixlen) (hdata : s'.dataSize = s.dataSize) : Inv cap s' t where
  root := hroot.trans h.root
  rep := h.rep.congr fun i hi => hpool i.1 ((h.used i.1).mpr (List.mem_map_of_mem hi))
  nodup := h.nodup
  wf := h.wf
  len := h.len
  used := by rw [hused]; exact h.used
  count := by rw [hn]; exact h.count
  le_cap := by rw [hn]; exact h.le_cap
  maxEntries := hmax.trans h.maxEntries
  maxPrefixlen := hlen.trans h.maxPrefixlen
  dataSize := hdata.trans h.dataSize

lemma Inv.length_nodes_le (h : Inv cap s t) : t.nodes.length ≤ 16 := by
  have hle := h.nodup.length_le_card
  simpa using hle

lemma Inv.path (h : Inv cap s (plug fs t)) : RepPath s fs (ptr t) ∧ Rep s.pool t :=
  rep_plug_iff.mp ⟨h.root, h.rep⟩

lemma Inv.nodup_plug (h : Inv cap s (plug fs t)) :
    ((Path.nodes fs ++ t.nodes).map Prod.fst).Nodup :=
  ((nodes_plug_perm fs t).map Prod.fst).nodup_iff.mp h.nodup

lemma length_reals_plug : ((plug fs t).reals labelIm).length =
    ((Path.nodes fs).filter (!labelIm ·)).length + (t.reals labelIm).length := by
  have hperm := ((nodes_plug_perm fs t).filter (!labelIm ·)).length_eq
  rw [List.filter_append, List.length_append] at hperm
  exact hperm

/-- Another subtree at a position of the tree. -/
lemma Inv.edit (h : Inv cap s (plug fs t)) (hpath : RepPath s' fs (ptr t')) (hrep : Rep s'.pool t')
    (hnd : ((Path.nodes fs ++ t'.nodes).map Prod.fst).Nodup)
    (hwf : WF labelPfx labelIm (Path.base labelPfx fs) t') (hfit : Path.Fits labelIm fs t')
    (hlen : ∀ i ∈ t'.nodes, i.2.prefixlen ≤ 32)
    (hused : ∀ p, s'.used p = true ↔ p ∈ (Path.nodes fs ++ t'.nodes).map Prod.fst)
    (hcount : s'.nEntries + (t.reals labelIm).length = s.nEntries + (t'.reals labelIm).length)
    (hcap : s'.nEntries ≤ cap) (hmax : s'.maxEntries = s.maxEntries)
    (hml : s'.maxPrefixlen = s.maxPrefixlen) (hds : s'.dataSize = s.dataSize) : Inv cap s' (plug fs t') := by
  have hperm := (nodes_plug_perm fs t').map Prod.fst
  have hplug := rep_plug_iff.mpr ⟨hpath, hrep⟩
  have hold := h.count
  rw [length_reals_plug] at hold
  exact {
    root := hplug.1
    rep := hplug.2
    nodup := hperm.nodup_iff.mpr hnd
    wf := wf_plug_iff.mpr ⟨(wf_plug_iff.mp h.wf).1, hwf, hfit⟩
    len := fun i hi => by
      rcases mem_nodes_plug.mp hi with hi | hi
      · exact h.len i (mem_nodes_plug.mpr (.inl hi))
      · exact hlen i hi
    used := fun p => by rw [hused, hperm.mem_iff]
    count := by
      rw [length_reals_plug]
      omega
    le_cap := hcap
    maxEntries := hmax.trans h.maxEntries
    maxPrefixlen := hml.trans h.maxPrefixlen
    dataSize := hds.trans h.dataSize }

/-! ## Descents -/

lemma nodeMatch_eq {n : Node} {key : Key} (hs : s.dataSize = 4) :
    nodeMatch s n key = some (commonPrefix n.toContent.pfx key.pfx) := by
  rw [nodeMatch, hs, longestPrefixMatch_eq (by norm_num) (by simp) (by simp), Content.pfx, Key.pfx,
    commonPrefix_take]

/-- A bit inside a prefix of the four data bytes. -/
lemma extractBit_take (data : Vector Byte 4) {m n : ℕ} (hm : m < n) (hn : n ≤ 32) :
    extractBit data.toList m = some (((dataBits data.toList).take n).getD m false) := by
  have hlen : (dataBits data.toList).length = 32 := by simp [length_dataBits]
  have hlt : m < (dataBits data.toList).length := by omega
  have hlt' : m < ((dataBits data.toList).take n).length := by
    rw [List.length_take]
    omega
  rw [extractBit_eq, List.getElem?_eq_getElem hlt, List.getD_eq_getElem _ _ hlt',
    List.getElem_take]

/-- A descent goes on exactly below proper prefixes of the key. -/
lemma walk_stops_iff {x : Content} {key : Key} (hx : x.prefixlen ≤ 32) (hk : key.prefixlen ≤ 32) :
    (x.prefixlen ≠ commonPrefix x.pfx key.pfx ∨ x.prefixlen = key.prefixlen) ↔
      ¬ (x.pfx <+: key.pfx ∧ x.pfx.length < key.pfx.length) := by
  rw [← commonPrefix_eq_length_iff, Content.length_pfx hx, Key.length_pfx hk]
  have hle := commonPrefix_le_right x.pfx key.pfx
  rw [Key.length_pfx hk] at hle
  constructor
  · rintro (hne | he) ⟨h, hlt⟩
    · exact hne h.symm
    · omega
  · intro h
    by_cases he : commonPrefix x.pfx key.pfx = x.prefixlen
    · right
      have : ¬ x.prefixlen < key.prefixlen := fun hlt => h ⟨he, hlt⟩
      omega
    · exact .inl (Ne.symm he)

/-- One turn of a descent, at the node `i` below the path `fs`. -/
lemma walk_cases {key : Key} {i : Label} {c : Bool → BitTree Label} (hs : s.dataSize = 4)
    (hk : key.prefixlen ≤ 32) (hpath : RepPath s fs (some i.1)) (hrep : Rep s.pool (.node i c))
    (hi : i.2.prefixlen ≤ 32) :
    nodeMatch s (s.pool i.1) key = some (commonPrefix i.2.pfx key.pfx) ∧
    (((s.pool i.1).prefixlen ≠ commonPrefix i.2.pfx key.pfx ∨
        (s.pool i.1).prefixlen = key.prefixlen) ∧
        descend labelPfx key.pfx fs (.node i c) = (fs, .node i c) ∨
      ¬ ((s.pool i.1).prefixlen ≠ commonPrefix i.2.pfx key.pfx ∨
          (s.pool i.1).prefixlen = key.prefixlen) ∧
        ∃ b, extractBit key.data.toList (s.pool i.1).prefixlen = some b ∧
          descend labelPfx key.pfx fs (.node i c) =
            descend labelPfx key.pfx (⟨i, b, c !b⟩ :: fs) (c b) ∧
          RepPath s (⟨i, b, c !b⟩ :: fs) (ptr (c b)) ∧ Rep s.pool (c b)) := by
  obtain ⟨hcont, hchild⟩ := hrep
  have hpl : (s.pool i.1).prefixlen = i.2.prefixlen := by rw [hcont]
  have hstop := walk_stops_iff hi hk
  rw [hpl]
  refine ⟨by rw [nodeMatch_eq hs, hcont], ?_⟩
  by_cases hgo : labelPfx i <+: key.pfx ∧ (labelPfx i).length < key.pfx.length
  · have hlt : i.2.prefixlen < key.prefixlen := by
      rw [← Content.length_pfx hi, ← Key.length_pfx hk]
      exact hgo.2
    refine .inr ⟨fun h => hstop.mp h hgo, bitAfter key.pfx (labelPfx i), ?_, descend_node hgo,
      ⟨hcont, (hchild _).1, (hchild _).1, (hchild _).2, hpath⟩, (hchild _).2⟩
    rw [extractBit_take _ hlt hk, bitAfter, labelPfx, Content.length_pfx hi]
    rfl
  · exact .inl ⟨hstop.mpr hgo, descend_stop hgo⟩

/-- The match length a descent ends with. -/
def MatchlenAt (key : Key) (t : BitTree Label) (matchlen : ℕ) : Prop :=
  ∀ i c, t = .node i c → matchlen = commonPrefix i.2.pfx key.pfx

lemma MatchlenAt.node {key : Key} (i : Label) (c : Bool → BitTree Label) :
    MatchlenAt key (.node i c) (commonPrefix i.2.pfx key.pfx) := by
  intro j d he
  rw [(BitTree.node.inj he).1]

/-- The pointer and the node one level above the hole. -/
def parentOf : Path Label → Option Slot
  | [] => none
  | f :: _ => some f.label.1

lemma deleteWalk_eq {key : Key} (hs : s.dataSize = 4) (hk : key.prefixlen ≤ 32) {fuel : ℕ}
    (hfuel : t.nodes.length < fuel) (hpath : RepPath s fs (ptr t)) (hrep : Rep s.pool t)
    (hlen : ∀ i ∈ t.nodes, i.2.prefixlen ≤ 32) (matchlen : ℕ) :
    ∃ m, deleteWalk s key fuel (refOf fs) (refOf fs.tail) (parentOf fs) matchlen =
        some ⟨refOf (descend labelPfx key.pfx fs t).1, refOf (descend labelPfx key.pfx fs t).1.tail,
          parentOf (descend labelPfx key.pfx fs t).1, ptr (descend labelPfx key.pfx fs t).2, m⟩ ∧
      MatchlenAt key (descend labelPfx key.pfx fs t).2 m := by
  induction t generalizing fs fuel matchlen with
  | nil =>
    obtain ⟨fuel, rfl⟩ : ∃ n, fuel = n + 1 := ⟨fuel - 1, by omega⟩
    refine ⟨matchlen, ?_, by rintro i c ⟨⟩⟩
    rw [deleteWalk, deref_refOf hpath]
    rfl
  | node i c ih =>
    obtain ⟨fuel, rfl⟩ : ∃ n, fuel = n + 1 := ⟨fuel - 1, by omega⟩
    obtain ⟨hmatch, ⟨hstop, hd⟩ | ⟨hgo, b, hbit, hd, hpath', hrep'⟩⟩ :=
      walk_cases hs hk hpath hrep (hlen i (by simp [BitTree.nodes]))
    · refine ⟨_, ?_, by rw [hd]; exact MatchlenAt.node i c⟩
      rw [hd, deleteWalk, deref_refOf hpath]
      simp only [ptr, hmatch, Option.bind_eq_bind, Option.bind_some, if_pos hstop, Option.pure_def]
    · simp only [BitTree.nodes, List.length_cons, List.length_append] at hfuel
      obtain ⟨m, hwalk, hm⟩ := ih b (by cases b <;> omega : (c b).nodes.length < fuel) hpath' hrep'
        (fun j hj => hlen j (BitTree.mem_nodes_node.mpr (.inr ⟨b, hj⟩)))
        (commonPrefix i.2.pfx key.pfx)
      refine ⟨m, ?_, hd ▸ hm⟩
      rw [hd, ← hwalk, deleteWalk, deref_refOf hpath]
      simp only [ptr, hmatch, Option.bind_eq_bind, Option.bind_some, if_neg hgo, hbit]
      rfl

/-- The descent of an update is the one of a deletion without its second slot and the parent. -/
lemma updateWalk_eq_map (key : Key) (fuel : ℕ) (slot trim2 : Ref) (parent : Option Slot)
    (matchlen : ℕ) :
    updateWalk s key fuel slot matchlen =
      (deleteWalk s key fuel slot trim2 parent matchlen).map
        fun w => (w.trim, w.node, w.matchlen) := by
  induction fuel generalizing slot trim2 parent matchlen with
  | zero => rfl
  | succ fuel ih =>
    rw [updateWalk, deleteWalk]
    cases deref s slot with
    | none => rfl
    | some p =>
      simp only [Option.bind_eq_bind]
      cases nodeMatch s (s.pool p) key with
      | none => rfl
      | some matchlen =>
        simp only [Option.bind_some]
        split_ifs with hstop
        · rfl
        · cases extractBit key.data.toList (s.pool p).prefixlen with
          | none => rfl
          | some nextBit => exact ih ..

lemma updateWalk_eq {key : Key} (hs : s.dataSize = 4) (hk : key.prefixlen ≤ 32) {fuel : ℕ}
    (hfuel : t.nodes.length < fuel) (hpath : RepPath s fs (ptr t)) (hrep : Rep s.pool t)
    (hlen : ∀ i ∈ t.nodes, i.2.prefixlen ≤ 32) (matchlen : ℕ) :
    ∃ m, updateWalk s key fuel (refOf fs) matchlen =
        some (refOf (descend labelPfx key.pfx fs t).1,
          ptr (descend labelPfx key.pfx fs t).2, m) ∧
      MatchlenAt key (descend labelPfx key.pfx fs t).2 m := by
  obtain ⟨m, hwalk, hm⟩ := deleteWalk_eq hs hk hfuel hpath hrep hlen matchlen
  refine ⟨m, ?_, hm⟩
  rw [updateWalk_eq_map key fuel (refOf fs) (refOf fs.tail) (parentOf fs), hwalk, Option.map_some]

/-! ## Allocation and commits -/

/-- The state with a node put into a slot of its own. -/
def withNode (s : State) (p : Slot) (n : Node) : State :=
  { s with used := Function.update s.used p true, pool := Function.update s.pool p n }

lemma withNode_pool_of_ne (s : State) {p q : Slot} (n : Node) (h : q ≠ p) :
    (withNode s p n).pool q = s.pool q := by
  simp [withNode, h]

lemma lpmTrieNodeAlloc_cases (s : State) (value : Option Value) :
    ((∀ p, s.used p = true) ∧ lpmTrieNodeAlloc s value = (none, s)) ∨
    ∃ p, s.used p = false ∧ lpmTrieNodeAlloc s value =
      (some p, withNode s p { zeroNode with value := value.getD zeroNode.value }) := by
  cases hf : (List.finRange 16).find? fun i => !s.used i with
  | none =>
    left
    refine ⟨fun p => ?_, by simp [lpmTrieNodeAlloc, bpfMapKmallocNode, hf]⟩
    simpa using List.find?_eq_none.mp hf p (List.mem_finRange p)
  | some p =>
    right
    have hp := List.find?_some hf
    refine ⟨p, by simpa using hp, ?_⟩
    cases value with
    | none => simp [lpmTrieNodeAlloc, bpfMapKmallocNode, hf, modifyNode, withNode, zeroNode]
    | some v => simp [lpmTrieNodeAlloc, bpfMapKmallocNode, hf, modifyNode, withNode, zeroNode]

lemma Inv.used_plug (h : Inv cap s (plug fs t)) (p : Slot) :
    s.used p = true ↔ p ∈ (Path.nodes fs ++ t.nodes).map Prod.fst := by
  rw [h.used, ((nodes_plug_perm fs t).map Prod.fst).mem_iff]

lemma Inv.slot_ne (h : Inv cap s t) {p : Slot} (hp : s.used p = false) {i : Label}
    (hi : i ∈ t.nodes) : i.1 ≠ p := by
  rintro rfl
  have hu := (h.used i.1).mpr (List.mem_map_of_mem hi)
  rw [hp] at hu
  exact absurd hu (by simp)

lemma Inv.ne_of_free (h : Inv cap s (plug fs t)) {p : Slot} (hp : s.used p = false) {i : Label}
    (hi : i ∈ Path.nodes fs ++ t.nodes) : i.1 ≠ p :=
  h.slot_ne hp ((nodes_plug_perm fs t).mem_iff.mpr hi)

lemma Inv.root_len {i : Label} {c : Bool → BitTree Label} (h : Inv cap s (plug fs (.node i c))) :
    i.2.prefixlen ≤ 32 :=
  h.len i (mem_nodes_plug.mpr (.inr (by simp [BitTree.nodes])))

/-- The last write of an operation: the pointer to the hole goes to the new subtree, which is
already in the pool; the marks may be set afterwards. -/
lemma Inv.commit (h : Inv cap s (plug fs t)) (s' : State) (t' : BitTree Label)
    (used : Slot → Bool) (hroot : s'.root = s.root)
    (hpool : ∀ i ∈ Path.nodes fs, s'.pool i.1 = s.pool i.1) (hrep : Rep s'.pool t')
    (hslots : ((Path.nodes fs ++ t'.nodes).map Prod.fst).Nodup ∧
      ∀ p, used p = true ↔ p ∈ (Path.nodes fs ++ t'.nodes).map Prod.fst)
    (hwf : WF labelPfx labelIm (Path.base labelPfx fs) t') (hfit : Path.Fits labelIm fs t')
    (hlen : ∀ i ∈ t'.nodes, i.2.prefixlen ≤ 32)
    (hcount : s'.nEntries + (t.reals labelIm).length = s.nEntries + (t'.reals labelIm).length)
    (hcap : s'.nEntries ≤ cap) (hmax : s'.maxEntries = s.maxEntries)
    (hml : s'.maxPrefixlen = s.maxPrefixlen) (hds : s'.dataSize = s.dataSize) :
    Inv cap { assignPointer s' (refOf fs) (ptr t') with used := used } (plug fs t') := by
  have hsame : ∀ r q, (assignPointer s' r q).nEntries = s'.nEntries ∧
      (assignPointer s' r q).maxEntries = s'.maxEntries ∧
      (assignPointer s' r q).maxPrefixlen = s'.maxPrefixlen ∧
      (assignPointer s' r q).dataSize = s'.dataSize := by
    intro r q
    cases r <;> exact ⟨rfl, rfl, rfl, rfl⟩
  obtain ⟨hn, hm, hl, hd⟩ := hsame (refOf fs) (ptr t')
  obtain ⟨hnd, hused⟩ := hslots
  have hnd' := List.nodup_append.mp (List.map_append ▸ hnd)
  have hpath : RepPath (assignPointer s' (refOf fs) (ptr t')) fs (ptr t') :=
    (h.path.1.congr hroot hpool).assign hnd'.1 _
  have hrep' : Rep (assignPointer s' (refOf fs) (ptr t')).pool t' := by
    refine hrep.congr fun i hi => assignPointer_pool fun b => refOf_ne_child ?_ b
    exact fun hm => hnd'.2.2 _ hm _ (List.mem_map_of_mem hi) rfl
  have hmarked : RepPath { assignPointer s' (refOf fs) (ptr t') with used := used } fs (ptr t') :=
    hpath.congr rfl fun _ _ => rfl
  apply h.edit hmarked hrep' hnd hwf hfit hlen hused
  · simpa [hn] using hcount
  · simpa [hn] using hcap
  · simpa [hm] using hmax
  · simpa [hl] using hml
  · simpa [hd] using hds

lemma assignPointer_used (s : State) (r : Ref) (q : Option Slot) :
    { assignPointer s r q with used := s.used } = assignPointer s r q := by
  cases r <;> rfl

/-- New slots next to those of the old subtree. -/
lemma Inv.grow (h : Inv cap s (plug fs t)) (ps : List Slot) (hps : ps.Nodup)
    (hfree : ∀ p ∈ ps, s.used p = false)
    (hperm : (t'.nodes.map Prod.fst).Perm (ps ++ t.nodes.map Prod.fst)) {used : Slot → Bool}
    (hu : ∀ p, used p = true ↔ p ∈ ps ∨ s.used p = true) :
    ((Path.nodes fs ++ t'.nodes).map Prod.fst).Nodup ∧
      ∀ p, used p = true ↔ p ∈ (Path.nodes fs ++ t'.nodes).map Prod.fst := by
  have hperm' : ((Path.nodes fs ++ t'.nodes).map Prod.fst).Perm
      (ps ++ (Path.nodes fs ++ t.nodes).map Prod.fst) := by
    rw [List.map_append, List.map_append]
    refine (List.Perm.append_left _ hperm).trans ?_
    exact List.perm_append_comm_assoc _ _ _
  constructor
  · rw [hperm'.nodup_iff, List.nodup_append]
    refine ⟨hps, h.nodup_plug, fun p hp q hq hpq => ?_⟩
    subst hpq
    rw [← h.used_plug, hfree p hp] at hq
    exact absurd hq (by simp)
  · intro p
    rw [hu, hperm'.mem_iff, List.mem_append, h.used_plug]

/-- Slots that leave with part of the old subtree. -/
lemma Inv.shrink (h : Inv cap s (plug fs t)) (ps : List Slot)
    (hperm : (t.nodes.map Prod.fst).Perm (ps ++ t'.nodes.map Prod.fst)) {used : Slot → Bool}
    (hu : ∀ p, used p = true ↔ p ∉ ps ∧ s.used p = true) :
    ((Path.nodes fs ++ t'.nodes).map Prod.fst).Nodup ∧
      ∀ p, used p = true ↔ p ∈ (Path.nodes fs ++ t'.nodes).map Prod.fst := by
  have hperm' : ((Path.nodes fs ++ t.nodes).map Prod.fst).Perm
      (ps ++ (Path.nodes fs ++ t'.nodes).map Prod.fst) := by
    rw [List.map_append, List.map_append]
    refine (List.Perm.append_left _ hperm).trans ?_
    exact List.perm_append_comm_assoc _ _ _
  have hnd := List.nodup_append.mp (hperm'.nodup_iff.mp h.nodup_plug)
  refine ⟨hnd.2.1, fun p => ?_⟩
  rw [hu, h.used_plug, hperm'.mem_iff, List.mem_append]
  constructor
  · rintro ⟨hp, hp' | hp'⟩
    · exact absurd hp' hp
    · exact hp'
  · exact fun hp => ⟨fun hp' => hnd.2.2 p hp' p hp rfl, .inr hp⟩

/-- A new slot in the place of the root's slot of the old subtree. -/
lemma Inv.swap {i j : Label} {c : Bool → BitTree Label} (h : Inv cap s (plug fs (.node i c)))
    (hfree : s.used j.1 = false) {used : Slot → Bool}
    (hu : ∀ p, used p = true ↔ p ≠ i.1 ∧ (p = j.1 ∨ s.used p = true)) :
    ((Path.nodes fs ++ (BitTree.node j c).nodes).map Prod.fst).Nodup ∧
      ∀ p, used p = true ↔ p ∈ (Path.nodes fs ++ (BitTree.node j c).nodes).map Prod.fst := by
  have hnd := h.nodup_plug
  have hmem := h.used_plug
  simp only [BitTree.nodes, List.map_append, List.map_cons, List.nodup_middle, List.nodup_cons,
    List.mem_append, List.mem_cons] at hnd hmem ⊢
  have hij : i.1 ≠ j.1 := by
    intro he
    have hi := (hmem i.1).mpr (.inr (.inl rfl))
    rw [he, hfree] at hi
    exact absurd hi (by simp)
  have hj : ¬ s.used j.1 = true := by simp [hfree]
  rw [hmem] at hj
  refine ⟨⟨by tauto, hnd.2⟩, fun p => ?_⟩
  rw [hu, hmem]
  by_cases hp : p = i.1
  · subst hp
    tauto
  · tauto

lemma Inv.nEntries_le (h : Inv cap s t) : s.nEntries ≤ 16 := by
  rw [h.count]
  exact (List.length_filter_le _ _).trans h.length_nodes_le

end

end BpfVerify.LpmTrie
