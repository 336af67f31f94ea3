import BpfVerify.Word

/-!
# The sort of the cfg shim

`sort` of `shims/cfg/include/linux/sort.h`: an exchange sort of `u32` items with two `u32`
indices. The sizes of the items and the swap function are ignored.
-/
namespace BpfVerify.ExchangeSort
open Word

/-- The memory behind `base`. -/
abbrev Items := ℕ → BitVec 32

section
variable (cmp : BitVec 32 → BitVec 32 → ℤ) (num : ℕ)

def exchange (i j : ℕ) (items : Items) : Items :=
  if cmp (items i) (items j) > 0 then
    let tmp := items i
    let items := Function.update items i (items j)
    Function.update items j tmp
  else items

/-- The loop over `j`. -/
def sortInner (i : ℕ) : ℕ → ℕ → Items → Option Items
  | 0, _, _ => none
  | fuel + 1, j, items =>
      if j < num then sortInner i fuel (u32 (j + 1)) (exchange cmp i j items) else some items

/-- The loop over `i`. -/
def sortOuter (innerFuel : ℕ) : ℕ → ℕ → Items → Option Items
  | 0, _, _ => none
  | fuel + 1, i, items =>
      if i < num then do
        let items ← sortInner cmp num i innerFuel (u32 (i + 1)) items
        sortOuter innerFuel fuel (u32 (i + 1)) items
      else some items

def sort (fuel : ℕ) (items : Items) : Option Items := sortOuter cmp num fuel fuel 0 items

end

/-- `cmp` compares by a total preorder. -/
structure TotalPreorder (cmp : BitVec 32 → BitVec 32 → ℤ) : Prop where
  total : ∀ a b, cmp a b ≤ 0 ∨ cmp b a ≤ 0
  trans : ∀ a b c, cmp a b ≤ 0 → cmp b c ≤ 0 → cmp a c ≤ 0

/-- The items from `lo` up to `num` are rearranged. -/
def Rearranged (lo num : ℕ) (items items' : Items) : Prop :=
  ∃ σ : Equiv.Perm ℕ, items' = items ∘ σ ∧ ∀ k, k < lo ∨ num ≤ k → σ k = k

section
variable {cmp : BitVec 32 → BitVec 32 → ℤ} {num i j lo : ℕ} {items items' items'' : Items}

lemma Rearranged.refl (lo num : ℕ) (items : Items) : Rearranged lo num items items :=
  ⟨Equiv.refl ℕ, rfl, fun _ _ => rfl⟩

lemma Rearranged.trans (h : Rearranged lo num items items')
    (h' : Rearranged lo num items' items'') : Rearranged lo num items items'' := by
  obtain ⟨σ, rfl, hσ⟩ := h
  obtain ⟨τ, rfl, hτ⟩ := h'
  refine ⟨τ.trans σ, rfl, fun k hk => ?_⟩
  rw [Equiv.trans_apply, hτ k hk, hσ k hk]

lemma Rearranged.mono {lo' : ℕ} (h : Rearranged lo num items items') (hle : lo' ≤ lo) :
    Rearranged lo' num items items' := by
  obtain ⟨σ, rfl, hσ⟩ := h
  exact ⟨σ, rfl, fun k hk => hσ k (by omega)⟩

/-- An item in the range comes from the range. -/
lemma Rearranged.source (h : Rearranged lo num items items') {k : ℕ} (hlo : lo ≤ k) (hk : k < num) :
    ∃ l, lo ≤ l ∧ l < num ∧ items' k = items l := by
  obtain ⟨σ, rfl, hσ⟩ := h
  refine ⟨σ k, ?_, ?_, rfl⟩
  · by_contra hlt
    have hfix := hσ (σ k) (.inl (by omega))
    rw [σ.injective hfix] at hlt
    exact hlt hlo
  · by_contra hge
    have hfix := hσ (σ k) (.inr (by omega))
    rw [σ.injective hfix] at hge
    exact hge hk

lemma Rearranged.below (h : Rearranged lo num items items') {k : ℕ} (hk : k < lo) :
    items' k = items k := by
  obtain ⟨σ, rfl, hσ⟩ := h
  rw [Function.comp_apply, hσ k (.inl hk)]

lemma exchange_rearranged (hi : lo ≤ i) (hij : i < j) (hj : j < num) :
    Rearranged lo num items (exchange cmp i j items) := by
  rw [exchange]
  split_ifs
  · refine ⟨Equiv.swap j i, (Equiv.comp_swap_eq_update j i items).symm, fun k hk => ?_⟩
    exact Equiv.swap_apply_of_ne_of_ne (by omega) (by omega)
  · exact .refl lo num items

/-- After the exchange the item at `i` is no greater than those from `i` up to `j`. -/
lemma exchange_least (h : TotalPreorder cmp) (hij : i < j)
    (hleast : ∀ k, i < k → k < j → cmp (items i) (items k) ≤ 0) :
    ∀ k, i < k → k < j + 1 → cmp (exchange cmp i j items i) (exchange cmp i j items k) ≤ 0 := by
  intro k hik hkj
  rw [exchange]
  split_ifs with hgt
  · have hle : cmp (items j) (items i) ≤ 0 := (h.total (items i) (items j)).resolve_left (by omega)
    dsimp only
    rw [Function.update_of_ne hij.ne, Function.update_self]
    by_cases hk : k = j
    · rw [hk, Function.update_self]
      exact hle
    · rw [Function.update_of_ne hk, Function.update_of_ne (by omega)]
      exact h.trans _ _ _ hle (hleast k hik (by omega))
  · by_cases hk : k = j
    · rw [hk]
      omega
    · exact hleast k hik (by omega)

lemma sortInner_spec (hnum : num < 2 ^ 32) {fuel : ℕ} (hij : i < j) (hj : j ≤ num)
    (hfuel : num - j < fuel) :
    ∃ items', sortInner cmp num i fuel j items = some items' ∧ Rearranged i num items items' ∧
      (TotalPreorder cmp → (∀ k, i < k → k < j → cmp (items i) (items k) ≤ 0) →
        ∀ k, i < k → k < num → cmp (items' i) (items' k) ≤ 0) := by
  induction fuel generalizing j items with
  | zero => exact absurd hfuel (Nat.not_lt_zero _)
  | succ fuel ih =>
    rw [sortInner]
    by_cases hlt : j < num
    · rw [if_pos hlt, u32_of_lt (by omega)]
      have hij' : i < j + 1 := Nat.lt_succ_of_lt hij
      obtain ⟨items', hrun, hperm, hleast⟩ := ih hij' hlt (by omega)
      exact ⟨items', hrun, (exchange_rearranged le_rfl hij hlt).trans hperm,
        fun h hbelow => hleast h (exchange_least h hij hbelow)⟩
    · rw [if_neg hlt]
      exact ⟨items, rfl, .refl i num items, fun _ hbelow k hik hk => hbelow k hik (by omega)⟩

/-- The items before `i` are sorted and no greater than any item behind them. -/
def Settled (cmp : BitVec 32 → BitVec 32 → ℤ) (num i : ℕ) (items : Items) : Prop :=
  ∀ a b, a < i → a < b → b < num → cmp (items a) (items b) ≤ 0

lemma Settled.step (h : Settled cmp num i items) (hperm : Rearranged i num items items')
    (hleast : ∀ k, i < k → k < num → cmp (items' i) (items' k) ≤ 0) :
    Settled cmp num (i + 1) items' := by
  intro a b ha hab hb
  rcases Nat.lt_succ_iff_lt_or_eq.mp ha with ha | rfl
  · rw [hperm.below ha]
    rcases Nat.lt_or_ge b i with hbi | hbi
    · rw [hperm.below hbi]
      exact h a b ha hab hb
    · obtain ⟨l, hl, hln, heq⟩ := hperm.source hbi hb
      rw [heq]
      exact h a l ha (by omega) hln
  · exact hleast b hab hb

lemma sortOuter_spec (hnum : num < 2 ^ 32) {innerFuel fuel : ℕ} (hinner : num < innerFuel)
    (hi : i ≤ num) (hfuel : num - i < fuel) :
    ∃ items', sortOuter cmp num innerFuel fuel i items = some items' ∧
      Rearranged i num items items' ∧
      (TotalPreorder cmp → Settled cmp num i items → Settled cmp num num items') := by
  induction fuel generalizing i items with
  | zero => exact absurd hfuel (Nat.not_lt_zero _)
  | succ fuel ih =>
    rw [sortOuter]
    by_cases hlt : i < num
    · rw [if_pos hlt, u32_of_lt (by omega)]
      obtain ⟨items₁, hrun₁, hperm₁, hleast⟩ := sortInner_spec hnum
        (Nat.lt_succ_self i) hlt (by omega : num - (i + 1) < innerFuel)
      obtain ⟨items', hrun, hperm, hsettled⟩ := ih hlt (by omega)
      rw [hrun₁, Option.bind_eq_bind, Option.bind_some]
      refine ⟨items', hrun, hperm₁.trans (hperm.mono (Nat.le_succ i)), fun h hs => ?_⟩
      refine hsettled h (hs.step hperm₁ (hleast h fun k hik hk => ?_))
      omega
    · rw [if_neg hlt]
      have heq : i = num := by omega
      exact ⟨items, rfl, .refl i num items, fun _ hs => heq ▸ hs⟩

/-- Indices of 32 bits never reach a larger number of items. -/
lemma sortInner_diverges (hnum : 2 ^ 32 ≤ num) (fuel : ℕ) (hj : j < 2 ^ 32) :
    sortInner cmp num i fuel j items = none := by
  induction fuel generalizing j items with
  | zero => rfl
  | succ fuel ih =>
    rw [sortInner, if_pos (by omega)]
    exact ih (Nat.mod_lt _ (by norm_num))

/-- With fewer than `2 ^ 32` items `sort` ends and rearranges them, in ascending order if `cmp` is a
total preorder; with more it does not end. -/
theorem sort_exact (cmp : BitVec 32 → BitVec 32 → ℤ) (num : ℕ) (items : Items) :
    (num < 2 ^ 32 → ∀ fuel, num < fuel → ∃ items', sort cmp num fuel items = some items' ∧
      Rearranged 0 num items items' ∧
      (TotalPreorder cmp → ∀ a b, a < b → b < num → cmp (items' a) (items' b) ≤ 0)) ∧
    (2 ^ 32 ≤ num → ∀ fuel, sort cmp num fuel items = none) := by
  constructor
  · intro hnum fuel hfuel
    obtain ⟨items', hrun, hperm, hsettled⟩ := sortOuter_spec hnum
      hfuel (Nat.zero_le num) (by omega : num - 0 < fuel)
    refine ⟨items', hrun, hperm, fun h a b hab hb => ?_⟩
    exact hsettled h (fun a b ha => absurd ha (Nat.not_lt_zero a)) a b (by omega) hab hb
  · intro hnum fuel
    cases fuel with
    | zero => rfl
    | succ fuel =>
      have hone : u32 (0 + 1) < 2 ^ 32 := Nat.mod_lt _ (by norm_num)
      rw [sort, sortOuter, if_pos (by omega), sortInner_diverges hnum _ hone]
      rfl

/-- The comparison of unsigned words. -/
def cmpWords (a b : BitVec 32) : ℤ := a.toNat - b.toNat

lemma totalPreorder_cmpWords : TotalPreorder cmpWords := by
  constructor
  case total =>
    intro a b
    unfold cmpWords
    omega
  case trans =>
    intro a b c hab hbc
    unfold cmpWords at *
    omega

/-- Three words, the greatest first, are sorted. -/
theorem sort_exact_words :
    ∃ items', sort cmpWords 3 4 (fun k => 9 - BitVec.ofNat 32 k) = some items' ∧
      Rearranged 0 3 (fun k => 9 - BitVec.ofNat 32 k) items' ∧
      (∀ a b, a < b → b < 3 → cmpWords (items' a) (items' b) ≤ 0) ∧
      items' 0 = 7 ∧ items' 1 = 8 ∧ items' 2 = 9 := by
  obtain ⟨items', hrun, hperm, hsorted⟩ :=
    (sort_exact cmpWords 3 fun k => 9 - BitVec.ofNat 32 k).1 (by norm_num) 4 (by norm_num)
  refine ⟨items', hrun, hperm, hsorted totalPreorder_cmpWords, ?_⟩
  have hvalues := Option.some.inj hrun
  rw [← hvalues]
  decide

end

end BpfVerify.ExchangeSort
