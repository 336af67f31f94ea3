import Mathlib

/-!
# Forests of parent pointers with ranks

Elements point to a parent, roots to themselves. A map `rep` gives the root above an element;
ranks grow along the links, so a path to a root is no longer than the gap in rank, and a root
of rank `k` that stands for at least `2 ^ k` elements bounds the rank by the number of elements.
-/
namespace RankedForest

variable {α : Type*} {parent : α → α} {rank : α → ℕ} {rep : α → α}

/-- A parent link that is not the loop of a root. -/
def Link (parent : α → α) (x y : α) : Prop := parent x = y ∧ x ≠ y

structure Ranked (parent : α → α) (rank : α → ℕ) (rep : α → α) : Prop where
  root : ∀ x, parent (rep x) = rep x
  rep_parent : ∀ x, rep (parent x) = rep x
  rep_root : ∀ x, parent x = x → rep x = x
  rank_lt : ∀ x, parent x ≠ x → rank x < rank (parent x)
  rank_le : ∀ x, rank x ≤ rank (rep x)

namespace Ranked

/-- Below a root of the same rank there is nothing. -/
lemma parent_eq_self (h : Ranked parent rank rep) {x : α} (hx : rank (rep x) ≤ rank x) :
    parent x = x := by
  by_contra hne
  have hlt := h.rank_lt x hne
  have hle := h.rank_le (parent x)
  rw [h.rep_parent] at hle
  omega

lemma rank_lt_of_transGen (h : Ranked parent rank rep) {x y : α}
    (hxy : Relation.TransGen (Link parent) x y) : rank x < rank y := by
  induction hxy with
  | single hlink =>
    obtain ⟨rfl, hne⟩ := hlink
    exact h.rank_lt x (Ne.symm hne)
  | tail _ hlink ih =>
    obtain ⟨rfl, hne⟩ := hlink
    exact ih.trans (h.rank_lt _ (Ne.symm hne))

lemma acyclic (h : Ranked parent rank rep) (x : α) : ¬ Relation.TransGen (Link parent) x x :=
  fun hx => lt_irrefl _ (h.rank_lt_of_transGen hx)

/-- The links lead from an element to its representative. -/
lemma reaches (h : Ranked parent rank rep) (x : α) :
    Relation.ReflTransGen (Link parent) x (rep x) := by
  -- the gap in rank goes down along a link
  induction hgap : rank (rep x) - rank x using Nat.strong_induction_on generalizing x with
  | _ n ih =>
    by_cases hroot : parent x = x
    · rw [h.rep_root x hroot]
    · have hlt := h.rank_lt x hroot
      have hle := h.rank_le (parent x)
      rw [h.rep_parent] at hle
      have htail := ih (rank (rep x) - rank (parent x)) (by omega) (parent x) (by rw [h.rep_parent])
      rw [h.rep_parent] at htail
      exact .head ⟨rfl, Ne.symm hroot⟩ htail

variable [DecidableEq α]

/-- Path halving: an element that is no root may be moved below its grandparent. -/
lemma halve (h : Ranked parent rank rep) {x : α} (hx : parent x ≠ x) :
    Ranked (Function.update parent x (parent (parent x))) rank rep := by
  have hgrand : rank x < rank (parent (parent x)) := by
    have hlt := h.rank_lt x hx
    by_cases hp : parent (parent x) = parent x
    · rwa [hp]
    · exact hlt.trans (h.rank_lt _ hp)
  constructor
  case root =>
    intro y
    have hne : rep y ≠ x := fun he => hx (by rw [← he, h.root])
    rw [Function.update_of_ne hne, h.root]
  case rep_parent =>
    intro y
    by_cases hy : y = x
    · rw [hy, Function.update_self, h.rep_parent, h.rep_parent]
    · rw [Function.update_of_ne hy, h.rep_parent]
  case rep_root =>
    intro y hroot
    by_cases hy : y = x
    · rw [hy, Function.update_self] at hroot
      rw [hroot] at hgrand
      exact absurd hgrand (lt_irrefl _)
    · rw [Function.update_of_ne hy] at hroot
      exact h.rep_root y hroot
  case rank_lt =>
    intro y hroot
    by_cases hy : y = x
    · rw [hy, Function.update_self]
      exact hgrand
    · rw [Function.update_of_ne hy] at hroot ⊢
      exact h.rank_lt y hroot
  case rank_le => exact h.rank_le

/-- The representatives once the root `t` has been put below the root `r`. -/
def merge (rep : α → α) (r t x : α) : α := if rep x = t then r else rep x

/-- A root `t` goes below a root `r` whose rank is raised above that of `t` if need be. -/
lemma link (h : Ranked parent rank rep) {r t : α} {k : ℕ} (hr : parent r = r) (ht : parent t = t)
    (hne : r ≠ t) (hk : rank r ≤ k) (htk : rank t < k) :
    Ranked (Function.update parent t r) (Function.update rank r k) (merge rep r t) := by
  have hrep_r := h.rep_root r hr
  have hrep_t := h.rep_root t ht
  have hmerge_r : merge rep r t r = r := by rw [merge, hrep_r, if_neg hne]
  have hrank_t : Function.update rank r k t = rank t := Function.update_of_ne hne.symm _ _
  have hmono (y : α) : rank y ≤ Function.update rank r k y := by
    by_cases hy : y = r
    · rw [hy, Function.update_self]
      exact hk
    · rw [Function.update_of_ne hy]
  constructor
  case root =>
    intro x
    unfold merge
    split_ifs with hx
    · rw [Function.update_of_ne hne, hr]
    · rw [Function.update_of_ne hx, h.root]
  case rep_parent =>
    intro x
    by_cases hx : x = t
    · rw [hx, Function.update_self, hmerge_r, merge, hrep_t, if_pos rfl]
    · rw [Function.update_of_ne hx, merge, merge, h.rep_parent]
  case rep_root =>
    intro x hroot
    by_cases hx : x = t
    · rw [hx, Function.update_self] at hroot
      exact absurd hroot hne
    · rw [Function.update_of_ne hx] at hroot
      rw [merge, h.rep_root x hroot, if_neg hx]
  case rank_lt =>
    intro x hroot
    by_cases hx : x = t
    · rw [hx, Function.update_self, Function.update_self, hrank_t]
      exact htk
    · rw [Function.update_of_ne hx] at hroot ⊢
      have hxr : x ≠ r := fun he => hroot (by rw [he, hr])
      rw [Function.update_of_ne hxr]
      exact (h.rank_lt x hroot).trans_le (hmono _)
  case rank_le =>
    intro x
    by_cases hxr : x = r
    · rw [hxr, hmerge_r]
    · rw [Function.update_of_ne hxr]
      unfold merge
      split_ifs with hx
      · have hle := h.rank_le x
        rw [hx] at hle
        rw [Function.update_self]
        omega
      · exact (h.rank_le x).trans (hmono _)

end Ranked

/-! ## Sizes -/

section Heavy

variable [Fintype α] [DecidableEq α]

/-- The elements that `rep` sends to `r`. -/
def members (rep : α → α) (r : α) : Finset α := Finset.univ.filter fun x => rep x = r

omit [Fintype α] in
lemma merge_eq_self_iff {r t x : α} : Ranked.merge rep r t x = r ↔ rep x = r ∨ rep x = t := by
  unfold Ranked.merge
  split_ifs with hx
  · simp [hx]
  · simp [hx]

lemma mem_members {r x : α} : x ∈ members rep r ↔ rep x = r := by
  simp [members]

/-- A root of rank `k` stands for at least `2 ^ k` elements. -/
def Heavy (rank : α → ℕ) (rep : α → α) : Prop := ∀ x, 2 ^ rank (rep x) ≤ (members rep (rep x)).card

lemma Heavy.rank_lt (hheavy : Heavy rank rep) {m : ℕ} (hcard : Fintype.card α < 2 ^ m) (x : α) :
    rank (rep x) < m := by
  have hle : 2 ^ rank (rep x) ≤ Fintype.card α := (hheavy x).trans (Finset.card_le_univ _)
  exact (Nat.pow_lt_pow_iff_right one_lt_two).mp (hle.trans_lt hcard)

lemma members_merge_self (r t : α) :
    members (Ranked.merge rep r t) r = members rep r ∪ members rep t := by
  ext x
  rw [mem_members, merge_eq_self_iff, Finset.mem_union, mem_members, mem_members]

lemma members_merge_of_ne {r t s : α} (hr : s ≠ r) (ht : s ≠ t) :
    members (Ranked.merge rep r t) s = members rep s := by
  ext x
  rw [mem_members, mem_members]
  unfold Ranked.merge
  split_ifs with hx
  · simp [hx, hr.symm, ht.symm]
  · rfl

/-- A merge keeps the bound where the rank stays, or grows by one over two roots of one rank. -/
lemma Heavy.link (hheavy : Heavy rank rep) (h : Ranked parent rank rep) {r t : α} {k : ℕ}
    (hr : parent r = r) (ht : parent t = t) (hne : r ≠ t)
    (hk : k = rank r ∨ k = rank r + 1 ∧ rank t = rank r) :
    Heavy (Function.update rank r k) (Ranked.merge rep r t) := by
  have hrep_r := h.rep_root r hr
  have hrep_t := h.rep_root t ht
  have hsize_r := hheavy r
  have hsize_t := hheavy t
  rw [hrep_r] at hsize_r
  rw [hrep_t] at hsize_t
  have hdisj : Disjoint (members rep r) (members rep t) := by
    rw [Finset.disjoint_left]
    intro x hx hx'
    exact hne ((mem_members.mp hx).symm.trans (mem_members.mp hx'))
  have hroot : 2 ^ k ≤ (members (Ranked.merge rep r t) r).card := by
    rw [members_merge_self r t, Finset.card_union_of_disjoint hdisj]
    cases hk with
    | inl hk =>
      rw [hk]
      omega
    | inr hk =>
      rw [hk.2] at hsize_t
      rw [hk.1, pow_succ]
      omega
  intro x
  by_cases hx : Ranked.merge rep r t x = r
  · rw [hx, Function.update_self]
    exact hroot
  · have hxt : rep x ≠ t := fun he => hx (by rw [Ranked.merge, if_pos he])
    have hxm : Ranked.merge rep r t x = rep x := by rw [Ranked.merge, if_neg hxt]
    rw [hxm] at hx ⊢
    rw [Function.update_of_ne hx, members_merge_of_ne hx hxt]
    exact hheavy x

end Heavy

/-! ## Connection -/

/-- Merging the classes of `x` and `y` adds one pair to what generates them. -/
lemma merge_eq_iff [DecidableEq α] {R : α → α → Prop} {x y r t : α}
    (hrep : ∀ a b, rep a = rep b ↔ Relation.EqvGen R a b)
    (hxy : rep x = r ∧ rep y = t ∨ rep x = t ∧ rep y = r) (a b : α) :
    Ranked.merge rep r t a = Ranked.merge rep r t b ↔
      Relation.EqvGen (fun c d => R c d ∨ c = x ∧ d = y) a b := by
  have hmono {c d : α} (hcd : rep c = rep d) :
      Relation.EqvGen (fun c d => R c d ∨ c = x ∧ d = y) c d :=
    Relation.EqvGen.mono (fun _ _ h => Or.inl h) c d ((hrep c d).mp hcd)
  have hpair : Relation.EqvGen (fun c d => R c d ∨ c = x ∧ d = y) x y := .rel _ _ (.inr ⟨rfl, rfl⟩)
  have hjoin {c d : α} (hc : rep c = t) (hd : rep d = r) :
      Relation.EqvGen (fun c d => R c d ∨ c = x ∧ d = y) c d := by
    cases hxy with
    | inl h =>
      have hcy := hmono (hc.trans h.2.symm)
      have hxd := hmono (h.1.trans hd.symm)
      exact .trans _ _ _ hcy (.trans _ _ _ (.symm _ _ hpair) hxd)
    | inr h =>
      have hcx := hmono (hc.trans h.1.symm)
      have hyd := hmono (h.2.trans hd.symm)
      exact .trans _ _ _ hcx (.trans _ _ _ hpair hyd)
  constructor
  · intro hab
    unfold Ranked.merge at hab
    split_ifs at hab with ha hb hb
    · exact hmono (ha.trans hb.symm)
    · exact hjoin ha hab.symm
    · exact .symm _ _ (hjoin hb hab)
    · exact hmono hab
  · intro hab
    induction hab with
    | rel c d hcd =>
      cases hcd with
      | inl hR => rw [Ranked.merge, Ranked.merge, (hrep c d).mpr (.rel _ _ hR)]
      | inr hpair =>
        obtain ⟨rfl, rfl⟩ := hpair
        have hc : Ranked.merge rep r t c = r := by
          rw [merge_eq_self_iff]
          cases hxy with
          | inl h => exact .inl h.1
          | inr h => exact .inr h.1
        have hd : Ranked.merge rep r t d = r := by
          rw [merge_eq_self_iff]
          cases hxy with
          | inl h => exact .inr h.2
          | inr h => exact .inl h.2
        rw [hc, hd]
    | refl => rfl
    | symm _ _ _ ih => exact ih.symm
    | trans _ _ _ _ _ ih ih' => exact ih.trans ih'

end RankedForest
