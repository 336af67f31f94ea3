import Mathlib

/-!
# Matching brackets

Balanced sequences over one pair of brackets, and the scan that counts the open ones until the
first group closes.
-/
namespace Brackets

variable {α : Type*}

inductive Balanced (op cl : α) : List α → Prop where
  | nil : Balanced op cl []
  | other {c : α} {s : List α} (hop : c ≠ op) (hcl : c ≠ cl) (hs : Balanced op cl s) :
      Balanced op cl (c :: s)
  | group {s t : List α} (hs : Balanced op cl s) (ht : Balanced op cl t) :
      Balanced op cl (op :: (s ++ cl :: t))

/-- One group with its brackets. -/
def Group (op cl : α) (g : List α) : Prop := ∃ s, Balanced op cl s ∧ g = op :: (s ++ [cl])

/-- What stands before the bracket that closes `depth + 1` open groups. -/
def Nest (op cl : α) : ℕ → List α → Prop
  | 0, p => Balanced op cl p
  | depth + 1, p => ∃ s t, Balanced op cl s ∧ Nest op cl depth t ∧ p = s ++ cl :: t

variable {op cl : α}

lemma Nest.other {depth : ℕ} {p : List α} (h : Nest op cl depth p) {c : α} (hop : c ≠ op)
    (hcl : c ≠ cl) : Nest op cl depth (c :: p) := by
  cases depth with
  | zero => exact Balanced.other hop hcl h
  | succ depth =>
    obtain ⟨s, t, hs, ht, rfl⟩ := h
    exact ⟨c :: s, t, .other hop hcl hs, ht, rfl⟩

/-- A group that is opened and closed leaves the depth. -/
lemma Nest.group {depth : ℕ} {s p : List α} (hs : Balanced op cl s) (h : Nest op cl depth p) :
    Nest op cl depth (op :: (s ++ cl :: p)) := by
  cases depth with
  | zero => exact Balanced.group hs h
  | succ depth =>
    obtain ⟨u, t, hu, ht, rfl⟩ := h
    refine ⟨op :: (s ++ cl :: u), t, .group hs hu, ht, ?_⟩
    rw [List.cons_append, List.append_assoc, List.cons_append]

/-! ## The scan -/

variable [DecidableEq α]

/-- The number of elements before the one that takes the depth to zero, or of all of them. -/
def closing (op cl : α) : ℤ → List α → ℕ
  | _, [] => 0
  | depth, c :: s =>
    if c = op then closing op cl (depth + 1) s + 1
    else if c = cl then
      if depth - 1 = 0 then 0 else closing op cl (depth - 1) s + 1
    else closing op cl depth s + 1

lemma closing_cl (hne : op ≠ cl) (s : List α) : closing op cl 1 (cl :: s) = 0 := by
  rw [closing, if_neg hne.symm, if_pos rfl, if_pos (by omega)]

lemma closing_cl_succ (hne : op ≠ cl) (depth : ℕ) (s : List α) :
    closing op cl (depth + 1 + 1) (cl :: s) = closing op cl (depth + 1) s + 1 := by
  rw [closing, if_neg hne.symm, if_pos rfl, if_neg (by omega), add_sub_cancel_right]

lemma Balanced.closing (hne : op ≠ cl) {s : List α} (hs : Balanced op cl s) (depth : ℕ)
    (t : List α) : closing op cl (depth + 1) (s ++ t) = s.length + closing op cl (depth + 1) t := by
  induction hs generalizing depth t with
  | nil => rw [List.nil_append, List.length_nil, Nat.zero_add]
  | other hop hcl _ ih =>
    rw [List.cons_append, Brackets.closing, if_neg hop, if_neg hcl, ih, List.length_cons]
    omega
  | @group s u _ _ ihs ihu =>
    have hinner := ihs (depth + 1) (cl :: (u ++ t))
    push_cast at hinner
    rw [closing_cl_succ hne, ihu] at hinner
    rw [List.cons_append, List.append_assoc, List.cons_append, Brackets.closing, if_pos rfl, hinner]
    simp only [List.length_cons, List.length_append]
    omega

lemma closing_nest {depth : ℕ} {s : List α} (h : closing op cl (depth + 1) s < s.length) :
    ∃ p r, s = p ++ cl :: r ∧ p.length = closing op cl (depth + 1) s ∧ Nest op cl depth p := by
  induction s generalizing depth with
  | nil => exact absurd h (Nat.not_lt_zero _)
  | cons c s ih =>
    rw [closing] at h ⊢
    rw [List.length_cons] at h
    split_ifs at h ⊢ with hop hcl hdepth
    · obtain ⟨p, r, rfl, hp, b, t, hb, ht, rfl⟩ := @ih (depth + 1) (by push_cast; omega)
      push_cast at hp
      refine ⟨op :: (b ++ cl :: t), r, by rw [hop]; rfl, ?_, Nest.group hb ht⟩
      rw [List.length_cons, hp]
    · have hzero : depth = 0 := by omega
      subst hcl hzero
      exact ⟨[], s, rfl, rfl, .nil⟩
    · obtain ⟨n, rfl⟩ : ∃ n, depth = n + 1 := Nat.exists_eq_succ_of_ne_zero (by omega)
      rw [Nat.cast_succ, add_sub_cancel_right] at h ⊢
      obtain ⟨p, r, rfl, hp, hnest⟩ := @ih n (by omega)
      refine ⟨c :: p, r, rfl, by rw [List.length_cons, hp], [], p, .nil, hnest, by rw [hcl]; rfl⟩
    · obtain ⟨p, r, rfl, hp, hnest⟩ := @ih depth (by omega)
      exact ⟨c :: p, r, rfl, by rw [List.length_cons, hp], hnest.other hop hcl⟩

/-- On a group the scan stops at its last element. -/
theorem Group.closing (hne : op ≠ cl) {g : List α} (h : Group op cl g) (r : List α) :
    closing op cl 0 (g ++ r) + 1 = g.length := by
  obtain ⟨s, hs, rfl⟩ := h
  have hbody := hs.closing hne 0 (cl :: r)
  rw [Nat.cast_zero, zero_add, closing_cl hne] at hbody
  rw [List.cons_append, List.append_assoc, List.singleton_append, Brackets.closing, if_pos rfl,
    zero_add, hbody]
  simp

/-- A scan that stops has read a group. -/
theorem exists_group {s : List α} (h : closing op cl 0 (op :: s) < (op :: s).length) :
    ∃ g r, op :: s = g ++ r ∧ Group op cl g ∧ closing op cl 0 (op :: s) + 1 = g.length := by
  rw [closing, if_pos rfl] at h ⊢
  have hlt : closing op cl ((0 : ℕ) + 1) s < s.length := by
    rw [List.length_cons] at h
    exact Nat.lt_of_succ_lt_succ h
  obtain ⟨p, r, rfl, hp, hnest⟩ := closing_nest hlt
  rw [Nat.cast_zero] at hp
  refine ⟨op :: (p ++ [cl]), r, by simp, ⟨p, hnest, rfl⟩, ?_⟩
  rw [List.length_cons, List.length_append, hp]
  rfl

end Brackets
