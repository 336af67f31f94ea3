import BpfVerify.LocalStorage

/-! Cache coherence and memory charge of one storage along every run of link, unlink and
lookup. A run stops where the code would fault. -/
namespace BpfVerify.LocalStorage
open Word HList

inductive Op
  | link (selem : Selem) (smap : SmapId)
  | unlink (selem : Selem)
  | lookup (smap : SmapId) (cacheitLockit : Bool)

section
variable (maps : SmapId → Smap)

/-- A fresh element enters with its `sdata.smap` set. -/
def freshSelem (s : State) (selem : Selem) (smap : SmapId) : State :=
  { s with smap := Function.update s.smap selem smap }

def exec (fuel : ℕ) (s : State) : Op → Option State
  | .link selem smap => some (bpfSelemLinkStorageNolock maps (freshSelem s selem smap) selem)
  | .unlink selem => (bpfSelemUnlinkStorageNolock maps s selem).map Prod.snd
  | .lookup smap cacheitLockit =>
      (bpfLocalStorageLookup maps fuel s smap cacheitLockit).map Prod.snd

/-! ## Cache coherence -/

/-- The callers' obligations: a linked element is fresh and the first of its map, an unlinked
one hangs in this storage. -/
def Enabled (s : State) : Op → Prop
  | .link selem smap => ∃ xs, IsList s.list xs ∧ selem ∉ xs ∧ ∀ x ∈ xs, s.smap x ≠ smap
  | .unlink selem => ∃ xs, IsList s.list xs ∧ selem ∈ xs
  | .lookup _ _ => True

inductive Reachable : State → Prop
  | init {s} (cache : ∀ i, s.cache i = none) (list : s.list.first = none) : Reachable s
  | step {s s' op fuel} (prior : Reachable s) (enabled : Enabled s op)
      (run : exec maps fuel s op = some s') : Reachable s'

/-- The storage holds `xs`, one element a map, and every cached element is one of them, in the
slot of its map. -/
structure Coherent (s : State) (xs : List Selem) : Prop where
  list : IsList s.list xs
  distinct : ∀ x ∈ xs, ∀ y ∈ xs, s.smap x = s.smap y → x = y
  cached : ∀ i x, s.cache i = some x → x ∈ xs ∧ (maps (s.smap x)).cacheIdx.toNat = i

variable {maps}

lemma Coherent.find? {s : State} {xs : List Selem} (h : Coherent maps s xs) {x : Selem}
    (hx : x ∈ xs) : xs.find? (fun y => s.smap y = s.smap x) = some x := by
  cases hf : xs.find? (fun y => s.smap y = s.smap x) with
  | none => exact absurd (List.find?_eq_none.mp hf x hx) (by simp)
  | some y =>
    have hy := List.mem_of_find?_eq_some hf
    have he := List.find?_some hf
    rw [h.distinct y hy x hx (by simpa using he)]

/-- What a lookup that ends returns and leaves behind. -/
theorem lookup_cases {s s' : State} {xs : List Selem} (h : Coherent maps s xs) {fuel : ℕ}
    {smap : SmapId} {cacheit : Bool} {r : Option Selem}
    (hidx : (maps smap).cacheIdx.toNat < cacheSize)
    (hr : bpfLocalStorageLookup maps fuel s smap cacheit = some (r, s')) :
    r = xs.find? (fun x => s.smap x = smap) ∧
      (s' = s ∨ ∃ x ∈ xs, s.smap x = smap ∧ s' =
        { s with cache := Function.update s.cache (maps smap).cacheIdx.toNat (some x) }) := by
  have hslow : bpfLocalStorageLookup.slowPath maps fuel s smap cacheit = some (r, s') →
      r = xs.find? (fun x => s.smap x = smap) ∧
        (s' = s ∨ ∃ x ∈ xs, s.smap x = smap ∧ s' =
          { s with cache := Function.update s.cache (maps smap).cacheIdx.toNat (some x) }) := by
    intro hs
    simp only [bpfLocalStorageLookup.slowPath, Option.bind_eq_bind, Option.bind_eq_some_iff] at hs
    obtain ⟨w, hw, hs⟩ := hs
    have hwalk : w = xs.find? (fun x => s.smap x = smap) := h.list.seg.findFrom_unique hw
    cases w with
    | none =>
      simp only [Option.pure_def, Option.some.injEq, Prod.mk.injEq] at hs
      exact ⟨hs.1 ▸ hwalk, .inl hs.2.symm⟩
    | some x =>
      have hx : x ∈ xs := List.mem_of_find?_eq_some hwalk.symm
      have hm : s.smap x = smap := by simpa using List.find?_some hwalk.symm
      have hlinked := hlistUnhashed_of_mem h.list hx
      cases cacheit with
      | false =>
        simp only [Option.pure_def, Bool.false_eq_true, if_false, Option.some.injEq,
          Prod.mk.injEq] at hs
        exact ⟨hs.1 ▸ hwalk, .inl hs.2.symm⟩
      | true =>
        simp only [Option.pure_def, if_true, Option.some.injEq, Prod.mk.injEq, insertCache,
          if_neg (not_le.mpr hidx), hlinked] at hs
        exact ⟨hs.1 ▸ hwalk, .inr ⟨x, hx, hm, hs.2.symm⟩⟩
  simp only [bpfLocalStorageLookup, if_neg (not_le.mpr hidx)] at hr
  cases hc : s.cache (maps smap).cacheIdx.toNat with
  | none => exact hslow (by simpa [hc] using hr)
  | some sdata =>
    rw [hc] at hr
    simp only at hr
    split_ifs at hr with hm
    · simp only [Option.some.injEq, Prod.mk.injEq] at hr
      have hmem := (h.cached _ _ hc).1
      have hfind := h.find? hmem
      rw [hm] at hfind
      exact ⟨hr.1 ▸ hfind.symm, .inl hr.2.symm⟩
    · exact hslow hr

theorem lookup_terminates {s : State} {xs : List Selem} (h : Coherent maps s xs) {fuel : ℕ}
    (hf : xs.length < fuel) (smap : SmapId) (cacheit : Bool) :
    ∃ r s', bpfLocalStorageLookup maps fuel s smap cacheit = some (r, s') := by
  have hw : listWalk fuel s smap = some (xs.find? (fun x => s.smap x = smap)) :=
    h.list.seg.findFrom _ hf
  have hslow : ∃ r s', bpfLocalStorageLookup.slowPath maps fuel s smap cacheit = some (r, s') := by
    simp only [bpfLocalStorageLookup.slowPath, hw, Option.bind_eq_bind, Option.bind_some]
    cases xs.find? (fun x => s.smap x = smap) with
    | none => exact ⟨_, _, rfl⟩
    | some x => cases cacheit <;> exact ⟨_, _, rfl⟩
  simp only [bpfLocalStorageLookup]
  split_ifs with hidx
  · exact ⟨_, _, rfl⟩
  · cases s.cache (maps smap).cacheIdx.toNat with
    | none => exact hslow
    | some sdata =>
      simp only
      split_ifs
      · exact ⟨_, _, rfl⟩
      · exact hslow

lemma Coherent.lookup {s s' : State} {xs : List Selem} (h : Coherent maps s xs) {fuel : ℕ}
    {smap : SmapId} {cacheit : Bool} {r : Option Selem}
    (hidx : (maps smap).cacheIdx.toNat < cacheSize)
    (hr : bpfLocalStorageLookup maps fuel s smap cacheit = some (r, s')) :
    Coherent maps s' xs := by
  obtain ⟨-, rfl | ⟨x, hx, hm, rfl⟩⟩ := lookup_cases h hidx hr
  · exact h
  · refine ⟨h.list, h.distinct, fun i y hy => ?_⟩
    by_cases hi : i = (maps smap).cacheIdx.toNat
    · subst hi
      simp only [Function.update_self, Option.some.injEq] at hy
      subst y
      exact ⟨hx, by rw [hm]⟩
    · simp only [Function.update_of_ne hi] at hy
      exact h.cached i y hy

variable (maps) in
/-- A linked element stands in front of the list. -/
lemma isList_link {s : State} {xs : List Selem} (h : IsList s.list xs) {selem : Selem}
    (hn : selem ∉ xs) (smap : SmapId) :
    IsList (bpfSelemLinkStorageNolock maps (freshSelem s selem smap) selem).list (selem :: xs) := by
  change IsList (hlistAddHeadRcu s.list selem) (selem :: xs)
  rw [hlistAddHeadRcu_eq]
  exact pushFront_isList h hn

lemma Coherent.link {s : State} {xs : List Selem} (h : Coherent maps s xs) {selem : Selem}
    {smap : SmapId} (hn : selem ∉ xs) (hm : ∀ x ∈ xs, s.smap x ≠ smap) :
    Coherent maps (bpfSelemLinkStorageNolock maps (freshSelem s selem smap) selem)
      (selem :: xs) := by
  have hold : ∀ x ∈ xs, Function.update s.smap selem smap x = s.smap x := by
    intro x hx
    have hne : x ≠ selem := fun he => hn (he ▸ hx)
    exact Function.update_of_ne hne _ _
  refine ⟨isList_link maps h.list hn smap, ?_, ?_⟩
  · intro x hx y hy he
    change Function.update s.smap selem smap x = Function.update s.smap selem smap y at he
    rcases List.mem_cons.mp hx with hxs | hx <;> rcases List.mem_cons.mp hy with hys | hy
    · rw [hxs, hys]
    · rw [hxs, Function.update_self, hold y hy] at he
      exact absurd he.symm (hm y hy)
    · rw [hys, Function.update_self, hold x hx] at he
      exact absurd he (hm x hx)
    · rw [hold x hx, hold y hy] at he
      exact h.distinct x hx y hy he
  · intro i x hc
    obtain ⟨hx, hi⟩ := h.cached i x hc
    refine ⟨List.mem_cons_of_mem _ hx, ?_⟩
    change (maps (Function.update s.smap selem smap x)).cacheIdx.toNat = i
    rw [hold x hx, hi]

/-- The slot of the removed element is the only one that could hold it. -/
lemma Coherent.unlinked (hidx : ∀ m, (maps m).cacheIdx.toNat < cacheSize) {s : State}
    {xs : List Selem} (h : Coherent maps s xs) {selem : Selem} (hx : selem ∈ xs)
    {s' : State} (hlist : s'.list = hlistDelInitRcu s.list selem) (hsmap : s'.smap = s.smap)
    (hcache : s'.cache = (dropCache maps s (s.smap selem) selem).cache) :
    Coherent maps s' (xs.erase selem) := by
  refine ⟨?_, ?_, ?_⟩
  · rw [hlist, hlistDelInitRcu_eq]
    exact remove_isList h.list hx
  · intro x hx y hy he
    rw [hsmap] at he
    exact h.distinct x (List.mem_of_mem_erase hx) y (List.mem_of_mem_erase hy) he
  · intro i x hc
    rw [hcache, dropCache_apply] at hc
    split_ifs at hc with hdrop
    obtain ⟨hxm, hi⟩ := h.cached i x hc
    rw [hsmap]
    refine ⟨(List.mem_erase_of_ne ?_).mpr hxm, hi⟩
    rintro rfl
    exact hdrop ⟨hi.symm, hi ▸ hidx _, hc⟩

lemma Coherent.unlink (hidx : ∀ m, (maps m).cacheIdx.toNat < cacheSize) {s s' : State}
    {xs : List Selem} (h : Coherent maps s xs) {selem : Selem} (hx : selem ∈ xs) {b : Bool}
    (hr : bpfSelemUnlinkStorageNolock maps s selem = some (b, s')) :
    Coherent maps s' (xs.erase selem) := by
  have hsmap : (dropCache maps s (s.smap selem) selem).smap = s.smap := by
    obtain ⟨c, hc⟩ := dropCache_frame maps s (s.smap selem) selem
    rw [hc]
  cases hs : hlistIsSingularNode s.list selem with
  | false =>
    rw [unlink_of_not_singular maps hs, Option.some.injEq, Prod.mk.injEq] at hr
    rw [← hr.2]
    exact h.unlinked hidx hx rfl hsmap rfl
  | true =>
    cases ho : s.owner with
    | none => simp [unlink_of_singular_ownerless maps hs ho] at hr
    | some slot =>
      rw [unlink_of_singular maps hs ho, Option.some.injEq, Prod.mk.injEq] at hr
      rw [← hr.2]
      exact h.unlinked hidx hx rfl hsmap rfl

theorem Reachable.coherent (hidx : ∀ m, (maps m).cacheIdx.toNat < cacheSize) {s : State}
    (h : Reachable maps s) : ∃ xs, Coherent maps s xs := by
  induction h with
  | init cache list =>
    refine ⟨[], ⟨list, List.nodup_nil⟩, by simp, fun i x hx => ?_⟩
    rw [cache i] at hx
    cases hx
  | @step s s' op fuel _ enabled run ih =>
    obtain ⟨xs, h⟩ := ih
    cases op with
    | link selem smap =>
      obtain ⟨ys, hy, hn, hm⟩ := enabled
      obtain rfl := hy.unique h.list
      simp only [exec, Option.some.injEq] at run
      exact ⟨_, run ▸ h.link hn hm⟩
    | unlink selem =>
      obtain ⟨ys, hy, hx⟩ := enabled
      obtain rfl := hy.unique h.list
      simp only [exec, Option.map_eq_some_iff] at run
      obtain ⟨⟨b, t⟩, hr, rfl⟩ := run
      exact ⟨_, h.unlink hidx hx hr⟩
    | lookup smap cacheit =>
      simp only [exec, Option.map_eq_some_iff] at run
      obtain ⟨⟨r, t⟩, hr, rfl⟩ := run
      exact ⟨xs, h.lookup (hidx smap) hr⟩

/-- The store through a NULL owner, for the last element, is the only fault of an unlink. -/
lemma Coherent.unlink_eq_none_iff {s : State} {xs : List Selem} (h : Coherent maps s xs)
    {selem : Selem} (hx : selem ∈ xs) :
    bpfSelemUnlinkStorageNolock maps s selem = none ↔ xs = [selem] ∧ s.owner = none := by
  rw [← hlistIsSingularNode_iff h.list hx]
  cases hs : hlistIsSingularNode s.list selem with
  | false => simp [unlink_of_not_singular maps hs]
  | true =>
    cases ho : s.owner with
    | none => simp [unlink_of_singular_ownerless maps hs ho]
    | some slot => simp [unlink_of_singular maps hs ho]

variable (maps) in
/-- In every reachable state each cached element hangs in the list, in the slot of its map, so
every lookup ends and answers as the plain list walk does: the linked element of that map, or
NULL. An unlink takes its element out of the list, and stops only where the last element goes and
there is no owner to store through. -/
theorem lookup_eq_listWalk (hidx : ∀ m, (maps m).cacheIdx.toNat < cacheSize) {s : State}
    (h : Reachable maps s) :
    ∃ xs, IsList s.list xs ∧
      (∀ i x, s.cache i = some x → x ∈ xs ∧ (maps (s.smap x)).cacheIdx.toNat = i) ∧
      (∀ smap cacheit fuel, xs.length < fuel → ∃ r s',
        bpfLocalStorageLookup maps fuel s smap cacheit = some (r, s') ∧
        listWalk fuel s smap = some r ∧
        (∀ x, r = some x ↔ x ∈ xs ∧ s.smap x = smap) ∧
        (r = none ↔ ∀ x ∈ xs, s.smap x ≠ smap)) ∧
      ∀ selem ∈ xs,
        (bpfSelemUnlinkStorageNolock maps s selem = none ↔ xs = [selem] ∧ s.owner = none) ∧
        ∀ last s', bpfSelemUnlinkStorageNolock maps s selem = some (last, s') →
          IsList s'.list (xs.erase selem) := by
  obtain ⟨xs, hc⟩ := h.coherent hidx
  refine ⟨xs, hc.list, hc.cached, fun smap cacheit fuel hf => ?_, fun selem hx =>
    ⟨hc.unlink_eq_none_iff hx, fun last s' hr => (hc.unlink hidx hx hr).list⟩⟩
  obtain ⟨r, s', hr⟩ := lookup_terminates hc hf smap cacheit
  have hfind := (lookup_cases hc (hidx smap) hr).1
  refine ⟨r, s', hr, ?_, fun x => ?_, ?_⟩
  · rw [hfind]
    exact hc.list.seg.findFrom _ hf
  · rw [hfind]
    constructor
    · intro hx
      exact ⟨List.mem_of_find?_eq_some hx, by simpa using List.find?_some hx⟩
    · rintro ⟨hx, rfl⟩
      exact hc.find? hx
  · rw [hfind, List.find?_eq_none]
    simp

/-! ## Memory charge -/

variable (maps) in
/-- States before an unlink empties the list. Elements are linked fresh and while the charge
fits in 64 bits; every unlink so far returned false. -/
inductive Live (slot : ℕ) : State → Prop
  | init {s} (charge : s.memCharge = sizeofLocalStorage) (list : s.list.first = none)
      (owner : s.owner = some slot) (points : s.ownerSlot slot = true)
      (free : ∃ ys, IsList s.freeSelemList ys) : Live slot s
  | link {s selem smap xs ys} (prior : Live slot s) (list : IsList s.list xs)
      (free : IsList s.freeSelemList ys) (fresh : selem ∉ xs ∧ selem ∉ ys)
      (fits : s.memCharge + (maps smap).elemSize.toNat < 2 ^ 64) :
      Live slot (bpfSelemLinkStorageNolock maps (freshSelem s selem smap) selem)
  | unlink {s s' selem xs} (prior : Live slot s) (list : IsList s.list xs) (linked : selem ∈ xs)
      (run : bpfSelemUnlinkStorageNolock maps s selem = some (false, s')) : Live slot s'

variable (maps) in
/-- The charge of the linked elements. -/
def charge (s : State) (xs : List Selem) : ℕ :=
  (xs.map fun x => (maps (s.smap x)).elemSize.toNat).sum

lemma charge_erase {s : State} {xs : List Selem} {x : Selem} (hx : x ∈ xs) :
    charge maps s xs = (maps (s.smap x)).elemSize.toNat + charge maps s (xs.erase x) := by
  unfold charge
  rw [((List.perm_cons_erase hx).map _).sum_eq, List.map_cons, List.sum_cons]

lemma charge_link {s : State} {xs : List Selem} {x : Selem} (hx : x ∉ xs) (smap : SmapId) :
    charge maps (freshSelem s x smap) (x :: xs) =
      (maps smap).elemSize.toNat + charge maps s xs := by
  have hold : xs.map (fun y => (maps (Function.update s.smap x smap y)).elemSize.toNat) =
      xs.map (fun y => (maps (s.smap y)).elemSize.toNat) := by
    apply List.map_congr_left
    intro y hy
    have hne : y ≠ x := fun he => hx (he ▸ hy)
    rw [Function.update_of_ne hne]
  simp [charge, freshSelem, hold]

variable (maps) in
/-- The list `xs` is charged, the owner slot points at the storage, and the free list `ys` has
none of its elements. -/
structure Charged (slot : ℕ) (s : State) (xs ys : List Selem) : Prop where
  list : IsList s.list xs
  free : IsList s.freeSelemList ys
  disjoint : ∀ x ∈ xs, x ∉ ys
  charge : s.memCharge = sizeofLocalStorage + charge maps s xs
  fits : s.memCharge < 2 ^ 64
  owner : s.owner = some slot
  points : s.ownerSlot slot = true

lemma Charged.link {slot : ℕ} {s : State} {xs ys : List Selem} (h : Charged maps slot s xs ys)
    {selem : Selem} {smap : SmapId} (hx : selem ∉ xs) (hy : selem ∉ ys)
    (hfits : s.memCharge + (maps smap).elemSize.toNat < 2 ^ 64) :
    Charged maps slot (bpfSelemLinkStorageNolock maps (freshSelem s selem smap) selem)
      (selem :: xs) ys := by
  have hcharge : (bpfSelemLinkStorageNolock maps (freshSelem s selem smap) selem).memCharge =
      s.memCharge + (maps smap).elemSize.toNat := by
    simp only [bpfSelemLinkStorageNolock, freshSelem, Function.update_self]
    exact u64_of_lt hfits
  refine ⟨isList_link maps h.list hx smap, h.free, ?_, ?_, hcharge ▸ hfits, h.owner, h.points⟩
  · intro x hm
    rcases List.mem_cons.mp hm with rfl | hm
    · exact hy
    · exact h.disjoint x hm
  · change _ = sizeofLocalStorage + LocalStorage.charge maps (freshSelem s selem smap) (selem :: xs)
    rw [hcharge, h.charge, charge_link hx]
    omega

/-- One unlink from a charged state: when it is the last one, what it frees, and the charge it
leaves. -/
theorem Charged.unlink {slot : ℕ} {s : State} {xs ys : List Selem}
    (h : Charged maps slot s xs ys) {selem : Selem} (hx : selem ∈ xs) :
    ∃ b s', bpfSelemUnlinkStorageNolock maps s selem = some (b, s') ∧
      (b = true ↔ xs = [selem]) ∧ IsList s'.list (xs.erase selem) ∧
      IsList s'.freeSelemList (selem :: ys) ∧
      (b = true → s'.memCharge = 0 ∧ s'.owner = none ∧ s'.ownerSlot slot = false) ∧
      (b = false → s'.owner = s.owner ∧ s'.ownerSlot = s.ownerSlot ∧
        Charged maps slot s' (xs.erase selem) (selem :: ys)) := by
  have hsingle := hlistIsSingularNode_iff h.list hx
  have hdel : IsList (hlistDelInitRcu s.list selem) (xs.erase selem) := by
    rw [hlistDelInitRcu_eq]
    exact remove_isList h.list hx
  have hfree : IsList (hlistAddHeadRcu s.freeSelemList selem) (selem :: ys) := by
    rw [hlistAddHeadRcu_eq]
    exact pushFront_isList h.free (h.disjoint selem hx)
  have hcharge := h.charge
  rw [charge_erase hx] at hcharge
  obtain ⟨c, hc⟩ := dropCache_frame maps s (s.smap selem) selem
  cases hs : hlistIsSingularNode s.list selem with
  | true =>
    have hxs : xs = [selem] := hsingle.mp hs
    refine ⟨true, _, unlink_of_singular maps hs h.owner, by simp [hxs], hdel, hfree, ?_, by simp⟩
    intro _
    refine ⟨?_, rfl, by simp⟩
    change sub64 s.memCharge _ = 0
    simp only [hxs, List.erase_cons_head, LocalStorage.charge, List.map_nil, List.sum_nil] at hcharge
    rw [sub64_of_le h.fits (by omega)]
    omega
  | false =>
    have hxs : xs ≠ [selem] := fun he => by simp [hsingle.mpr he] at hs
    have hleft : sub64 s.memCharge (maps (s.smap selem)).elemSize.toNat =
        sizeofLocalStorage + LocalStorage.charge maps s (xs.erase selem) := by
      rw [sub64_of_le h.fits (by omega)]
      omega
    refine ⟨false, _, unlink_of_not_singular maps hs, by simp [hxs], hdel, hfree, by simp, ?_⟩
    intro _
    refine ⟨by simp [unlinked, hc], by simp [unlinked, hc], hdel, hfree, ?_, ?_, ?_, ?_, ?_⟩
    · intro x hm
      rw [List.mem_cons]
      rintro (rfl | hy)
      · exact (List.Nodup.mem_erase_iff h.list.nodup).mp hm |>.1 rfl
      · exact h.disjoint x (List.mem_of_mem_erase hm) hy
    · simp only [unlinked, hc, LocalStorage.charge] at hleft ⊢
      exact hleft
    · have := h.fits
      simp only [unlinked, hleft]
      omega
    · simp [unlinked, hc, h.owner]
    · simp [unlinked, hc, h.points]

theorem Live.charged {slot : ℕ} {s : State} (h : Live maps slot s) :
    ∃ xs ys, Charged maps slot s xs ys := by
  induction h with
  | init charge list owner points free =>
    obtain ⟨ys, hy⟩ := free
    refine ⟨[], ys, ⟨list, List.nodup_nil⟩, hy, by simp, ?_, ?_, owner, points⟩
    · simpa [LocalStorage.charge] using charge
    · rw [charge]
      norm_num [sizeofLocalStorage]
  | link _ list free fresh fits ih =>
    obtain ⟨xs, ys, h⟩ := ih
    obtain rfl := list.unique h.list
    obtain rfl := free.unique h.free
    exact ⟨_, _, h.link fresh.1 fresh.2 fits⟩
  | unlink _ list linked run ih =>
    obtain ⟨xs, ys, h⟩ := ih
    obtain rfl := list.unique h.list
    obtain ⟨b, t, hr, -, -, -, -, hf⟩ := h.unlink linked
    rw [run, Option.some.injEq, Prod.mk.injEq] at hr
    obtain ⟨rfl, rfl⟩ := hr
    exact ⟨_, _, (hf rfl).2.2⟩

variable (maps) in
/-- Before the list is emptied the charge is that of the storage and its linked elements. An
unlink is the last one exactly when it removes the only element; it keeps the others in order
and puts the removed one in front of the free list. -/
theorem unlink_accounts {slot : ℕ} {s : State} (h : Live maps slot s) :
    ∃ xs ys, IsList s.list xs ∧ IsList s.freeSelemList ys ∧
      s.memCharge = sizeofLocalStorage + charge maps s xs ∧
      ∀ selem ∈ xs, ∃ last s', bpfSelemUnlinkStorageNolock maps s selem = some (last, s') ∧
        (last = true ↔ xs = [selem]) ∧ IsList s'.list (xs.erase selem) ∧
        IsList s'.freeSelemList (selem :: ys) ∧
        (last = true → s'.memCharge = 0 ∧ s'.owner = none ∧ s'.ownerSlot slot = false) ∧
        (last = false → s'.owner = s.owner ∧ s'.ownerSlot = s.ownerSlot ∧
          s'.memCharge = sizeofLocalStorage + charge maps s' (xs.erase selem)) := by
  obtain ⟨xs, ys, hc⟩ := h.charged
  refine ⟨xs, ys, hc.list, hc.free, hc.charge, fun selem hx => ?_⟩
  obtain ⟨last, s', hr, hlast, hlist, hfree, ht, hf⟩ := hc.unlink hx
  refine ⟨last, s', hr, hlast, hlist, hfree, ht, fun he => ?_⟩
  obtain ⟨ho, hslot, hc'⟩ := hf he
  exact ⟨ho, hslot, hc'.charge⟩

end

/-! ## The harness storage -/

/-- The map of the harness: 32 bytes an element, cache slot 3. -/
def harnessMaps (_ : SmapId) : Smap := ⟨32, 3⟩

def harnessStorage : State where
  cache _ := none
  list := ⟨none, fun _ => none, fun _ => none⟩
  owner := some 0
  memCharge := sizeofLocalStorage
  ownerRefcnt := 0
  smap _ := 0
  localStorage _ := false
  freeSelemList := ⟨none, fun _ => none, fun _ => none⟩
  ownerSlot _ := true

lemma harness_isList : IsList harnessStorage.list [] := ⟨rfl, List.nodup_nil⟩

/-- Elements of two maps with one cache slot: a lookup of the second drives the first out of the
slot, and the unlink of the first leaves the second there. -/
theorem lookup_eq_listWalk_harness :
    ∃ s, Reachable harnessMaps s ∧ s.cache 3 = some 8 ∧ hlistUnhashed s.list 7 = true ∧
      ∃ xs, IsList s.list xs ∧
        (∀ i x, s.cache i = some x → x ∈ xs ∧ (harnessMaps (s.smap x)).cacheIdx.toNat = i) ∧
        (∀ smap cacheit fuel, xs.length < fuel → ∃ r s',
          bpfLocalStorageLookup harnessMaps fuel s smap cacheit = some (r, s') ∧
          listWalk fuel s smap = some r ∧
          (∀ x, r = some x ↔ x ∈ xs ∧ s.smap x = smap) ∧
          (r = none ↔ ∀ x ∈ xs, s.smap x ≠ smap)) ∧
        ∀ selem ∈ xs,
          (bpfSelemUnlinkStorageNolock harnessMaps s selem = none ↔
            xs = [selem] ∧ s.owner = none) ∧
          ∀ last s', bpfSelemUnlinkStorageNolock harnessMaps s selem = some (last, s') →
            IsList s'.list (xs.erase selem) := by
  have hidx : ∀ m, (harnessMaps m).cacheIdx.toNat < cacheSize :=
    fun _ => show (3 : UInt16).toNat < cacheSize by decide
  have hlist7 := isList_link harnessMaps harness_isList (show 7 ∉ [] by decide) 0
  have hlist8 := isList_link harnessMaps hlist7 (show 8 ∉ [7] by decide) 1
  have h0 : Reachable harnessMaps harnessStorage := .init (fun _ => rfl) rfl
  have h1 := @Reachable.step harnessMaps _ _ (.link 7 0) 0 h0
    ⟨[], harness_isList, by simp, by simp⟩ rfl
  have h2 := @Reachable.step harnessMaps _ _ (.link 8 1) 0 h1
    ⟨[7], hlist7, by decide, by simp [bpfSelemLinkStorageNolock, freshSelem]⟩ rfl
  have h3 := @Reachable.step harnessMaps _ _ (.lookup 0 true) 3 h2 trivial rfl
  have h4 := @Reachable.step harnessMaps _ _ (.lookup 1 true) 3 h3 trivial rfl
  have h5 := @Reachable.step harnessMaps _ _ (.unlink 7) 0 h4 ⟨[8, 7], hlist8, by decide⟩ rfl
  exact ⟨_, h5, rfl, rfl, lookup_eq_listWalk harnessMaps hidx h5⟩

/-- The harness storage with three elements linked and the one in the middle unlinked. -/
theorem unlink_accounts_harness :
    ∃ s, Live harnessMaps 0 s ∧ s.memCharge = sizeofLocalStorage + 64 ∧
      s.list.first = some 9 ∧ s.freeSelemList.first = some 8 ∧
      ∃ xs ys, IsList s.list xs ∧ IsList s.freeSelemList ys ∧
        s.memCharge = sizeofLocalStorage + charge harnessMaps s xs ∧
        ∀ selem ∈ xs, ∃ last s',
          bpfSelemUnlinkStorageNolock harnessMaps s selem = some (last, s') ∧
          (last = true ↔ xs = [selem]) ∧ IsList s'.list (xs.erase selem) ∧
          IsList s'.freeSelemList (selem :: ys) ∧
          (last = true → s'.memCharge = 0 ∧ s'.owner = none ∧ s'.ownerSlot 0 = false) ∧
          (last = false → s'.owner = s.owner ∧ s'.ownerSlot = s.ownerSlot ∧
            s'.memCharge = sizeofLocalStorage + charge harnessMaps s' (xs.erase selem)) := by
  have hfree : IsList harnessStorage.freeSelemList [] := ⟨rfl, List.nodup_nil⟩
  have hlist7 := isList_link harnessMaps harness_isList (show 7 ∉ [] by decide) 0
  have hlist8 := isList_link harnessMaps hlist7 (show 8 ∉ [7] by decide) 0
  have hlist9 := isList_link harnessMaps hlist8 (show 9 ∉ [8, 7] by decide) 0
  have h0 : Live harnessMaps 0 harnessStorage := .init rfl rfl rfl rfl ⟨[], hfree⟩
  have h1 := @Live.link harnessMaps 0 _ 7 0 _ _ h0 harness_isList hfree (by simp) (by decide)
  have h2 := @Live.link harnessMaps 0 _ 8 0 _ _ h1 hlist7 hfree (by decide) (by decide)
  have h3 := @Live.link harnessMaps 0 _ 9 0 _ _ h2 hlist8 hfree (by decide) (by decide)
  have h4 := @Live.unlink harnessMaps 0 _ _ 8 _ h3 hlist9 (by decide) rfl
  exact ⟨_, h4, rfl, rfl, rfl, unlink_accounts harnessMaps h4⟩

end BpfVerify.LocalStorage
