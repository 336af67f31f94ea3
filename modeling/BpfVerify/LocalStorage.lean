import BpfVerify.HList
import BpfVerify.Word

/-!
# Local storage of one owner

`shims/kernel/bpf/bpf_local_storage.c`: elements of several maps hang in the `list` of one
storage, with a small cache of the last elements looked up. Elements and maps are named by
numbers, so pointer equality is equality of names. Locks always succeed in the shim and are
left out.
-/
namespace BpfVerify.LocalStorage
open Word

abbrev Selem := ℕ

abbrev SmapId := ℕ

/-- `BPF_LOCAL_STORAGE_CACHE_SIZE`. -/
def cacheSize : ℕ := 16

/-- `sizeof(struct bpf_local_storage)`: sixteen cache pointers, list, owner, `rcu_head`, padded
lock, charge, padded reference count. -/
def sizeofLocalStorage : ℕ := 16 * 8 + 8 + 8 + 16 + 8 + 8 + 8

/-- The fields of `struct bpf_local_storage_map` that the list operations read. -/
structure Smap where
  elemSize : UInt16
  cacheIdx : UInt16

/-- One storage with the memory its operations touch: `list` and the `snode` fields, the
free list and the `free_node` fields, `SDATA(selem)->smap`, `selem->local_storage` (set or
not), and the pointer cells that owners are. -/
structure State where
  cache : ℕ → Option Selem
  list : HList.Mem Selem
  owner : Option ℕ
  memCharge : ℕ
  ownerRefcnt : ℤ
  smap : Selem → SmapId
  localStorage : Selem → Bool
  freeSelemList : HList.Mem Selem
  ownerSlot : ℕ → Bool

/-! ## The hlist primitives of the shim -/

def hlistUnhashed (m : HList.Mem Selem) (n : Selem) : Bool := (m.pprev n).isNone

def hlistAddHeadRcu (m : HList.Mem Selem) (n : Selem) : HList.Mem Selem :=
  let first := m.first
  let m := m.store (.next n) first
  let m := match first with
    | some a => m.setPprev a (some (.next n))
    | none => m
  let m := m.store .head (some n)
  m.setPprev n (some .head)

def hlistDelInitRcu (m : HList.Mem Selem) (n : Selem) : HList.Mem Selem :=
  let m := match m.pprev n with
    | none => m
    | some l =>
      let m := match m.next n with
        | some a => m.setPprev a (some l)
        | none => m
      m.store l (m.next n)
  (m.store (.next n) none).setPprev n none

def hlistIsSingularNode (m : HList.Mem Selem) (n : Selem) : Bool :=
  (m.next n).isNone && m.pprev n = some .head

lemma hlistAddHeadRcu_eq (m : HList.Mem Selem) (n : Selem) :
    hlistAddHeadRcu m n = HList.pushFront m n := by
  unfold hlistAddHeadRcu HList.pushFront
  cases m.first <;> rfl

lemma hlistDelInitRcu_eq (m : HList.Mem Selem) (n : Selem) :
    hlistDelInitRcu m n = HList.initNode (HList.unlink m n) n := by
  unfold hlistDelInitRcu HList.initNode HList.unlink
  cases m.pprev n with
  | none => rfl
  | some l => cases m.next n <;> rfl

lemma hlistIsSingularNode_iff {m : HList.Mem Selem} {xs : List Selem} {n : Selem}
    (h : HList.IsList m xs) (hn : n ∈ xs) : hlistIsSingularNode m n = true ↔ xs = [n] := by
  rw [← HList.singular_iff h hn]
  simp [hlistIsSingularNode]

lemma hlistUnhashed_of_mem {m : HList.Mem Selem} {xs : List Selem} {n : Selem}
    (h : HList.IsList m xs) (hn : n ∈ xs) : hlistUnhashed m n = false := by
  obtain ⟨as, bs, rfl⟩ := List.append_of_mem hn
  simp [hlistUnhashed, h.seg.mid.2.1]

/-! ## Operations -/

section
variable (maps : SmapId → Smap)

/-- `__bpf_local_storage_insert_cache`. -/
def insertCache (s : State) (smap : SmapId) (selem : Selem) : State :=
  let cacheIdx := (maps smap).cacheIdx.toNat
  if cacheIdx ≥ cacheSize then s
  else if hlistUnhashed s.list selem = false then
    { s with cache := Function.update s.cache cacheIdx (some selem) }
  else s

/-- The slow path of the lookup: the list walk without a cache. -/
def listWalk (fuel : ℕ) (s : State) (smap : SmapId) : Option (Option Selem) :=
  HList.findFrom s.list (fun selem => s.smap selem = smap) fuel s.list.first

/-- `bpf_local_storage_lookup`; the element stands for its `sdata`. `none` when the walk does
not end within the fuel. -/
def bpfLocalStorageLookup (fuel : ℕ) (s : State) (smap : SmapId) (cacheitLockit : Bool) :
    Option (Option Selem × State) :=
  let cacheIdx := (maps smap).cacheIdx.toNat
  if cacheIdx ≥ cacheSize then some (none, s)
  else
    match s.cache cacheIdx with
    | some sdata => if s.smap sdata = smap then some (some sdata, s) else slowPath
    | none => slowPath
where
  slowPath : Option (Option Selem × State) := do
    match ← listWalk fuel s smap with
    | none => return (none, s)
    | some selem =>
      if cacheitLockit then return (some selem, insertCache maps s smap selem)
      else return (some selem, s)

/-- `bpf_selem_link_storage_nolock`. -/
def bpfSelemLinkStorageNolock (s : State) (selem : Selem) : State :=
  { s with
    memCharge := u64 (s.memCharge + (maps (s.smap selem)).elemSize.toNat)
    localStorage := Function.update s.localStorage selem true
    list := hlistAddHeadRcu s.list selem }

/-- `refcount_inc_not_zero`. -/
def refcountIncNotZero (refs : ℤ) : Bool × ℤ :=
  if refs ≤ 0 then (false, refs) else (true, refs + 1)

/-- The cache slot of an unlinked element is cleared on an exact match only. -/
def dropCache (s : State) (smap : SmapId) (selem : Selem) : State :=
  if (maps smap).cacheIdx.toNat < cacheSize ∧
      s.cache (maps smap).cacheIdx.toNat = some selem then
    { s with cache := Function.update s.cache (maps smap).cacheIdx.toNat none }
  else s

/-- `bpf_selem_unlink_storage_nolock_misc`; `none` where the code would store through a NULL
owner. `uncharge` is a `u32`, `memCharge` a `u64`. -/
def bpfSelemUnlinkStorageNolockMisc (s : State) (selem : Selem) (smap : SmapId)
    (freeLocalStorage pinOwner : Bool) : Option State :=
  let owner := s.owner
  let uncharge := (maps smap).elemSize.toNat
  let s := dropCache maps s smap selem
  let (pinned, refs) := if pinOwner then refcountIncNotZero s.ownerRefcnt
    else (true, s.ownerRefcnt)
  if !pinned then some s
  else do
    let uncharge := u32 (uncharge + if freeLocalStorage then sizeofLocalStorage else 0)
    let s := { s with
      ownerRefcnt := refs
      memCharge := sub64 s.memCharge uncharge }
    let s ← if freeLocalStorage then
        owner.map fun slot =>
          { s with owner := none, ownerSlot := Function.update s.ownerSlot slot false }
      else some s
    return if pinOwner then { s with ownerRefcnt := s.ownerRefcnt - 1 } else s

/-- `bpf_selem_unlink_storage_nolock`. -/
def bpfSelemUnlinkStorageNolock (s : State) (selem : Selem) : Option (Bool × State) := do
  let smap := s.smap selem
  let freeLocalStorage := hlistIsSingularNode s.list selem
  let s ← bpfSelemUnlinkStorageNolockMisc maps s selem smap freeLocalStorage false
  let s := { s with list := hlistDelInitRcu s.list selem }
  let s := { s with freeSelemList := hlistAddHeadRcu s.freeSelemList selem }
  return (freeLocalStorage, s)

/-! ## What the operations do -/

lemma dropCache_apply (s : State) (smap : SmapId) (selem : Selem) (i : ℕ) :
    (dropCache maps s smap selem).cache i =
      if i = (maps smap).cacheIdx.toNat ∧ i < cacheSize ∧ s.cache i = some selem then none
      else s.cache i := by
  unfold dropCache
  by_cases hi : i = (maps smap).cacheIdx.toNat
  · subst hi
    simp only [true_and]
    split_ifs
    · simp
    · rfl
  · have hn : ¬ (i = (maps smap).cacheIdx.toNat ∧ i < cacheSize ∧ s.cache i = some selem) :=
      fun h => hi h.1
    rw [if_neg hn]
    split_ifs
    · exact Function.update_of_ne hi _ _
    · rfl

/-- The state after the unlink of an element that is not the last one. -/
def unlinked (s : State) (selem : Selem) (uncharge : ℕ) : State :=
  { dropCache maps s (s.smap selem) selem with
    memCharge := sub64 s.memCharge uncharge
    list := hlistDelInitRcu s.list selem
    freeSelemList := hlistAddHeadRcu s.freeSelemList selem }

lemma dropCache_frame (s : State) (smap : SmapId) (selem : Selem) :
    ∃ c, dropCache maps s smap selem = { s with cache := c } := by
  unfold dropCache
  split_ifs
  · exact ⟨_, rfl⟩
  · exact ⟨s.cache, rfl⟩

theorem unlink_of_not_singular {s : State} {selem : Selem}
    (h : hlistIsSingularNode s.list selem = false) :
    bpfSelemUnlinkStorageNolock maps s selem =
      some (false, unlinked maps s selem (maps (s.smap selem)).elemSize.toNat) := by
  have hsize : u32 (maps (s.smap selem)).elemSize.toNat =
      (maps (s.smap selem)).elemSize.toNat :=
    u32_of_lt ((maps (s.smap selem)).elemSize.toNat_lt.trans (by norm_num))
  obtain ⟨c, hc⟩ := dropCache_frame maps s (s.smap selem) selem
  simp [bpfSelemUnlinkStorageNolock, bpfSelemUnlinkStorageNolockMisc, unlinked, h, hc, hsize]

theorem unlink_of_singular {s : State} {selem : Selem} {slot : ℕ}
    (h : hlistIsSingularNode s.list selem = true) (ho : s.owner = some slot) :
    bpfSelemUnlinkStorageNolock maps s selem =
      some (true, { unlinked maps s selem
          ((maps (s.smap selem)).elemSize.toNat + sizeofLocalStorage) with
        owner := none
        ownerSlot := Function.update s.ownerSlot slot false }) := by
  have hsize : u32 ((maps (s.smap selem)).elemSize.toNat + sizeofLocalStorage) =
      (maps (s.smap selem)).elemSize.toNat + sizeofLocalStorage := by
    have := (maps (s.smap selem)).elemSize.toNat_lt
    apply u32_of_lt
    simp only [sizeofLocalStorage]
    omega
  obtain ⟨c, hc⟩ := dropCache_frame maps s (s.smap selem) selem
  simp [bpfSelemUnlinkStorageNolock, bpfSelemUnlinkStorageNolockMisc, unlinked, h, hc, hsize, ho]

/-- Without an owner the last element cannot be unlinked: the code stores through NULL. -/
theorem unlink_of_singular_ownerless {s : State} {selem : Selem}
    (h : hlistIsSingularNode s.list selem = true) (ho : s.owner = none) :
    bpfSelemUnlinkStorageNolock maps s selem = none := by
  obtain ⟨c, hc⟩ := dropCache_frame maps s (s.smap selem) selem
  simp [bpfSelemUnlinkStorageNolock, bpfSelemUnlinkStorageNolockMisc, h, hc, ho]

end

end BpfVerify.LocalStorage
