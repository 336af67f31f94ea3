import BpfVerify.RankedForest
import BpfVerify.Word

/-!
# The bounded union-find

`shims/include/linux/union_find.h`: `__bpf_uf_find` halves the path for at most four
iterations. Union by rank keeps the ranks of 511 nodes at most 8, so four iterations, of two
links each, always end at the root.
-/
namespace BpfVerify.UnionFind
open Word RankedForest

variable {α : Type*} [DecidableEq α]

/-- `struct uf_node` of the kernel, its parent by name. -/
structure UfNode (α : Type*) where
  parent : α
  rank : ℕ

abbrev Nodes (α : Type*) := α → UfNode α

/-- `uf_node_init` on every node. -/
def ufNodeInit : Nodes α := fun x => { parent := x, rank := 0 }

def setParent (s : Nodes α) (x p : α) : Nodes α := Function.update s x { s x with parent := p }

/-- `node->rank++` on an `unsigned int`. -/
def incRank (s : Nodes α) (x : α) : Nodes α :=
  Function.update s x { s x with rank := u32 ((s x).rank + 1) }

/-- `__BPF_UF_FIND_MAX_NODES`. -/
def bpfUfFindMaxNodes : ℕ := 4

/-- The loop of `__bpf_uf_find` with its remaining iterations. -/
def findLoop : ℕ → Nodes α → α → α × Nodes α
  | 0, s, node => (node, s)
  | i + 1, s, node =>
    if (s node).parent = node then (node, s)
    else
      let s := setParent s node (s (s node).parent).parent
      findLoop i s (s node).parent

def bpfUfFind (s : Nodes α) (node : α) : α × Nodes α := findLoop bpfUfFindMaxNodes s node

def bpfUfUnion (s : Nodes α) (node1 node2 : α) : Nodes α :=
  let (root1, s) := bpfUfFind s node1
  let (root2, s) := bpfUfFind s node2
  if root1 = root2 then s
  else if (s root1).rank < (s root2).rank then setParent s root1 root2
  else if (s root1).rank > (s root2).rank then setParent s root2 root1
  else incRank (setParent s root2 root1) root1

inductive Op (α : Type*) where
  | union (node1 node2 : α)
  | find (node : α)

def exec (s : Nodes α) : Op α → Nodes α
  | .union node1 node2 => bpfUfUnion s node1 node2
  | .find node => (bpfUfFind s node).2

def execAll (s : Nodes α) (ops : List (Op α)) : Nodes α := ops.foldl exec s

/-! ## The forest -/

def parentOf (s : Nodes α) (x : α) : α := (s x).parent

def rankOf (s : Nodes α) (x : α) : ℕ := (s x).rank

lemma parentOf_setParent (s : Nodes α) (x p : α) :
    parentOf (setParent s x p) = Function.update (parentOf s) x p := by
  funext y
  by_cases hy : y = x
  · simp [parentOf, setParent, hy]
  · simp [parentOf, setParent, hy]

lemma rankOf_setParent (s : Nodes α) (x p : α) : rankOf (setParent s x p) = rankOf s := by
  funext y
  by_cases hy : y = x
  · simp [rankOf, setParent, hy]
  · simp [rankOf, setParent, hy]

lemma parentOf_incRank (s : Nodes α) (x : α) : parentOf (incRank s x) = parentOf s := by
  funext y
  by_cases hy : y = x
  · simp [parentOf, incRank, hy]
  · simp [parentOf, incRank, hy]

lemma rankOf_incRank (s : Nodes α) (x : α) :
    rankOf (incRank s x) = Function.update (rankOf s) x (u32 (rankOf s x + 1)) := by
  funext y
  by_cases hy : y = x
  · simp [rankOf, incRank, hy]
  · simp [rankOf, incRank, hy]

lemma findLoop_root (i : ℕ) {s : Nodes α} {x : α} (h : parentOf s x = x) :
    findLoop i s x = (x, s) := by
  cases i with
  | zero => rfl
  | succ i =>
    unfold parentOf at h
    rw [findLoop, if_pos h]

lemma findLoop_succ (i : ℕ) {s : Nodes α} {x : α} (h : parentOf s x ≠ x) :
    findLoop (i + 1) s x = findLoop i (setParent s x (parentOf s (parentOf s x)))
      (parentOf s (parentOf s x)) := by
  have hparent (g : α) : (setParent s x g x).parent = g := by simp [setParent]
  unfold parentOf at h ⊢
  rw [findLoop, if_neg h]
  exact congrArg _ (hparent _)

/-- With two links an iteration, `i` iterations close a gap of `2 * i` in rank. -/
lemma findLoop_spec {rep : α → α} (i : ℕ) {s : Nodes α} {x : α}
    (h : Ranked (parentOf s) (rankOf s) rep) (hgap : rankOf s (rep x) ≤ rankOf s x + 2 * i) :
    ∃ s', findLoop i s x = (rep x, s') ∧ Ranked (parentOf s') (rankOf s') rep ∧
      rankOf s' = rankOf s := by
  induction i generalizing s x with
  | zero =>
    have hroot := h.parent_eq_self (by simpa using hgap)
    exact ⟨s, by rw [findLoop_root 0 hroot, h.rep_root x hroot], h, rfl⟩
  | succ i ih =>
    by_cases hroot : parentOf s x = x
    · refine ⟨s, ?_, h, rfl⟩
      rw [findLoop_root (i + 1) hroot, h.rep_root x hroot]
    · -- the grandparent `g` is the root, or two ranks up
      obtain ⟨g, hg⟩ : ∃ g, g = parentOf s (parentOf s x) := ⟨_, rfl⟩
      have hrep : rep g = rep x := by rw [hg, h.rep_parent, h.rep_parent]
      have hhalf : Ranked (parentOf (setParent s x g)) (rankOf (setParent s x g)) rep := by
        rw [parentOf_setParent, rankOf_setParent, hg]
        exact h.halve hroot
      have hgap' : rankOf (setParent s x g) (rep g) ≤ rankOf (setParent s x g) g + 2 * i := by
        rw [rankOf_setParent, hrep]
        by_cases htop : parentOf s (parentOf s x) = parentOf s x
        · have htop_rep : rep x = g := by rw [← h.rep_parent, h.rep_root _ htop, hg, htop]
          rw [htop_rep]
          omega
        · have hlt := h.rank_lt x hroot
          have hlt' := h.rank_lt _ htop
          rw [← hg] at hlt'
          omega
      obtain ⟨s', hs', hranked, hrank⟩ := ih hhalf hgap'
      refine ⟨s', ?_, hranked, by rw [hrank, rankOf_setParent]⟩
      rw [findLoop_succ i hroot, ← hg, hs', hrep]

/-! ## Calls -/

variable [Fintype α]

/-- The nodes form a forest whose classes are those generated by the pairs `R`. -/
structure Inv (s : Nodes α) (rep : α → α) (R : α → α → Prop) : Prop where
  ranked : Ranked (parentOf s) (rankOf s) rep
  heavy : Heavy (rankOf s) rep
  connected : ∀ x y, rep x = rep y ↔ Relation.EqvGen R x y

lemma Inv.rank_lt {s : Nodes α} {rep : α → α} {R : α → α → Prop} (h : Inv s rep R)
    (hcard : Fintype.card α ≤ 511) (x : α) : rankOf s (rep x) < 9 :=
  h.heavy.rank_lt (by omega) x

lemma bpfUfFind_spec {s : Nodes α} {rep : α → α} {R : α → α → Prop} (h : Inv s rep R)
    (hcard : Fintype.card α ≤ 511) (x : α) :
    ∃ s', bpfUfFind s x = (rep x, s') ∧ Inv s' rep R := by
  have hrank := h.rank_lt hcard x
  obtain ⟨s', hs', hranked, hsame⟩ := findLoop_spec bpfUfFindMaxNodes h.ranked
    (show rankOf s (rep x) ≤ rankOf s x + 2 * bpfUfFindMaxNodes by
      rw [bpfUfFindMaxNodes]
      omega)
  refine ⟨s', hs', hranked, ?_, h.connected⟩
  rw [hsame]
  exact h.heavy

/-- Putting the root `t` below the root `r` joins the classes of `x` and `y`. -/
lemma Inv.link {s s' : Nodes α} {rep : α → α} {R : α → α → Prop} (h : Inv s rep R) {x y r t : α}
    {k : ℕ} (hxy : rep x = r ∧ rep y = t ∨ rep x = t ∧ rep y = r) (hne : r ≠ t)
    (hk : k = rankOf s r ∨ k = rankOf s r + 1 ∧ rankOf s t = rankOf s r) (htk : rankOf s t < k)
    (hparent : parentOf s' = Function.update (parentOf s) t r)
    (hrank : rankOf s' = Function.update (rankOf s) r k) :
    Inv s' (Ranked.merge rep r t) fun a b => R a b ∨ a = x ∧ b = y := by
  have hroot_x := h.ranked.root x
  have hroot_y := h.ranked.root y
  have hroots : parentOf s r = r ∧ parentOf s t = t := by
    cases hxy with
    | inl hxy =>
      rw [hxy.1] at hroot_x
      rw [hxy.2] at hroot_y
      exact ⟨hroot_x, hroot_y⟩
    | inr hxy =>
      rw [hxy.1] at hroot_x
      rw [hxy.2] at hroot_y
      exact ⟨hroot_y, hroot_x⟩
  constructor
  · rw [hparent, hrank]
    exact h.ranked.link hroots.1 hroots.2 hne (by omega) htk
  · rw [hrank]
    exact h.heavy.link h.ranked hroots.1 hroots.2 hne hk
  · exact merge_eq_iff h.connected hxy

lemma bpfUfUnion_spec {s : Nodes α} {rep : α → α} {R : α → α → Prop} (h : Inv s rep R)
    (hcard : Fintype.card α ≤ 511) (x y : α) :
    ∃ rep', Inv (bpfUfUnion s x y) rep' fun a b => R a b ∨ a = x ∧ b = y := by
  obtain ⟨s₁, hs₁, h₁⟩ := bpfUfFind_spec h hcard x
  obtain ⟨s₂, hs₂, h₂⟩ := bpfUfFind_spec h₁ hcard y
  have hrank := h₂.rank_lt hcard x
  unfold bpfUfUnion
  rw [hs₁]
  simp only [hs₂]
  split_ifs with hroots hlt hgt
  · -- the pair was connected already
    have hmerge : Ranked.merge rep (rep x) (rep x) = rep := by
      funext z
      rw [Ranked.merge]
      split_ifs with hz
      · exact hz.symm
      · rfl
    have hpair := merge_eq_iff h₂.connected (.inl ⟨rfl, hroots.symm⟩) (r := rep x) (x := x) (y := y)
    rw [hmerge] at hpair
    exact ⟨rep, h₂.ranked, h₂.heavy, hpair⟩
  · refine ⟨_, h₂.link (.inr ⟨rfl, rfl⟩) (Ne.symm hroots) (.inl rfl) hlt ?_ ?_⟩
    · rw [parentOf_setParent]
    · rw [rankOf_setParent, Function.update_eq_self]
  · refine ⟨_, h₂.link (.inl ⟨rfl, rfl⟩) hroots (.inl rfl) hgt ?_ ?_⟩
    · rw [parentOf_setParent]
    · rw [rankOf_setParent, Function.update_eq_self]
  · have heq : rankOf s₂ (rep y) = rankOf s₂ (rep x) :=
      le_antisymm (not_lt.mp hlt) (not_lt.mp hgt)
    refine ⟨_, h₂.link (.inl ⟨rfl, rfl⟩) hroots (.inr ⟨rfl, heq⟩) (by omega) ?_ ?_⟩
    · rw [parentOf_incRank, parentOf_setParent]
    · rw [rankOf_incRank, rankOf_setParent, u32_of_lt (by omega)]

lemma exec_spec {s : Nodes α} {rep : α → α} {R : α → α → Prop} (h : Inv s rep R)
    (hcard : Fintype.card α ≤ 511) (op : Op α) :
    ∃ rep', Inv (exec s op) rep' fun a b => R a b ∨ Op.union a b = op := by
  cases op with
  | union x y =>
    obtain ⟨rep', h'⟩ := bpfUfUnion_spec h hcard x y
    refine ⟨rep', ?_⟩
    simp only [Op.union.injEq]
    exact h'
  | find x =>
    obtain ⟨s', hs', h'⟩ := bpfUfFind_spec h hcard x
    refine ⟨rep, ?_⟩
    rw [exec, hs']
    simp only [reduceCtorEq, or_false]
    exact h'

lemma execAll_spec {s : Nodes α} {rep : α → α} {R : α → α → Prop} (h : Inv s rep R)
    (hcard : Fintype.card α ≤ 511) (ops : List (Op α)) :
    ∃ rep', Inv (execAll s ops) rep' fun a b => R a b ∨ Op.union a b ∈ ops := by
  induction ops generalizing s rep R with
  | nil =>
    refine ⟨rep, ?_⟩
    simp only [List.not_mem_nil, or_false]
    exact h
  | cons op ops ih =>
    obtain ⟨rep₁, h₁⟩ := exec_spec h hcard op
    obtain ⟨rep₂, h₂⟩ := ih h₁
    refine ⟨rep₂, ?_⟩
    simp only [or_assoc] at h₂
    simp only [List.mem_cons]
    exact h₂

omit [DecidableEq α] [Fintype α] in
lemma eqvGen_false (x y : α) : x = y ↔ Relation.EqvGen (fun _ _ => False) x y := by
  constructor
  · intro hxy
    rw [hxy]
    exact .refl y
  · intro hxy
    induction hxy with
    | rel _ _ h => exact h.elim
    | refl => rfl
    | symm _ _ _ ih => exact ih.symm
    | trans _ _ _ _ _ ih ih' => exact ih.trans ih'

lemma inv_init : Inv (ufNodeInit : Nodes α) id fun _ _ => False := by
  constructor
  case ranked =>
    constructor
    case root => exact fun x => rfl
    case rep_parent => exact fun x => rfl
    case rep_root => exact fun x _ => rfl
    case rank_lt => exact fun x hx => absurd rfl hx
    case rank_le => exact fun x => le_rfl
  case heavy =>
    intro x
    exact Finset.card_pos.mpr ⟨x, mem_members.mpr rfl⟩
  case connected => exact eqvGen_false

/-- What holds of the nodes after the calls `ops`. -/
structure Exact (s : Nodes α) (ops : List (Op α)) : Prop where
  find_root : ∀ x, parentOf s (bpfUfFind s x).1 = (bpfUfFind s x).1 ∧
    Relation.ReflTransGen (Link (parentOf s)) x (bpfUfFind s x).1
  acyclic : ∀ x, ¬ Relation.TransGen (Link (parentOf s)) x x
  rank_lt : ∀ x, parentOf s x ≠ x → rankOf s x < rankOf s (parentOf s x)
  connected : ∀ x y, (bpfUfFind s x).1 = (bpfUfFind (bpfUfFind s x).2 y).1 ↔
    Relation.EqvGen (fun a b => Op.union a b ∈ ops) x y

/-- Up to 511 nodes the bounded loops are exact over every sequence of calls. -/
theorem run_exact (hcard : Fintype.card α ≤ 511) (ops : List (Op α)) :
    Exact (execAll ufNodeInit ops) ops := by
  obtain ⟨rep, h⟩ := execAll_spec inv_init hcard ops
  simp only [false_or] at h
  constructor
  case find_root =>
    intro x
    obtain ⟨s', hs', -⟩ := bpfUfFind_spec h hcard x
    rw [hs']
    exact ⟨h.ranked.root x, h.ranked.reaches x⟩
  case acyclic => exact h.ranked.acyclic
  case rank_lt => exact h.ranked.rank_lt
  case connected =>
    intro x y
    obtain ⟨s', hs', h'⟩ := bpfUfFind_spec h hcard x
    obtain ⟨s'', hs'', -⟩ := bpfUfFind_spec h' hcard y
    rw [hs', hs'']
    exact h.connected x y

/-- The four nodes of the harness. -/
theorem run_exact_harness :
    Exact (execAll ufNodeInit [.union (0 : Fin 4) 1, .find 0, .find 1])
      [.union (0 : Fin 4) 1, .find 0, .find 1] :=
  run_exact (by decide) _

end BpfVerify.UnionFind
