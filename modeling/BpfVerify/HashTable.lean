import BpfVerify.HList

/-!
# A table of lists

The hash table of `shims/liveness/include/linux/hashtable.h`: nodes in lists that hang from the
buckets, and the three loops over them. `hash_add` and `hash_for_each_possible` take eight bits of
the key, whatever the size of the table.
-/
namespace BpfVerify.HashTable
open HList

variable {α : Type*}

/-- What a pointer of the table addresses: a bucket, or the list node in an object. -/
abbrev Cell (α : Type*) := ℕ ⊕ α

/-- The `next` field of a bucket is its `first`. -/
abbrev Memory (α : Type*) := HList.Mem (Cell α)

/-- `&hashtable[bkt].first` -/
def head (bkt : ℕ) : Link (Cell α) := .next (.inl bkt)

/-- `&n->next` -/
def next (n : α) : Link (Cell α) := .next (.inr n)

section
variable [DecidableEq α]

def hlistAddHead (m : Memory α) (n : α) (h : Link (Cell α)) : Memory α :=
  let first := m.load h
  let m := m.store (next n) first
  let m := match first with
    | some f => m.setPprev f (some (next n))
    | none => m
  (m.store h (some (.inr n))).setPprev (.inr n) (some h)

def hlistDel (m : Memory α) (n : α) : Memory α :=
  let m := match m.load (next n) with
    | some s => m.setPprev s (m.pprev (.inr n))
    | none => m
  let m := match m.pprev (.inr n) with
    | some l => m.store l (m.load (next n))
    | none => m
  (m.store (next n) none).setPprev (.inr n) none

def hashInit (m : Memory α) (size : ℕ) : Memory α :=
  (List.range size).foldl (fun m bkt => m.store (head bkt) none) m

/-- `hash_min(key, 8)` -/
def hashMin (key : BitVec 64) : ℕ := (key &&& 0xff).toNat

def hashAdd (m : Memory α) (n : α) (key : BitVec 64) : Memory α :=
  hlistAddHead m n (head (hashMin key))

end

/-- The objects that a loop visits from `obj` on; `none` when the fuel runs out. -/
def walk (m : Memory α) : ℕ → Option (Cell α) → Option (List α)
  | _, none => some []
  | fuel + 1, some (.inr obj) => (walk m fuel (m.load (next obj))).map (obj :: ·)
  | _, some _ => none

def hashForEachPossible (m : Memory α) (fuel : ℕ) (key : BitVec 64) : Option (List α) :=
  walk m fuel (m.load (head (hashMin key)))

/-- `hash_for_each` over the first buckets. -/
def hashForEach (m : Memory α) (fuel : ℕ) : ℕ → Option (List α)
  | 0 => some []
  | bkt + 1 => do
    let visited ← hashForEach m fuel bkt
    let more ← walk m fuel (m.load (head bkt))
    some (visited ++ more)

/-- The inner loop of `hash_for_each_safe`, where `tmp` is read before the body runs. -/
def walkSafe (body : Memory α → α → Memory α) : ℕ → Memory α → Option (Cell α) →
    Option (Cell α) → Option (Memory α × List α)
  | _, m, none, _ => some (m, [])
  | fuel + 1, m, some (.inr obj), tmp =>
    let m := body m obj
    (walkSafe body fuel m tmp (tmp.bind fun c => m.load (.next c))).map fun r => (r.1, obj :: r.2)
  | _, _, some _, _ => none

def hashForEachSafe (body : Memory α → α → Memory α) (fuel : ℕ) (m : Memory α) :
    ℕ → Option (Memory α × List α)
  | 0 => some (m, [])
  | bkt + 1 => do
    let r ← hashForEachSafe body fuel m bkt
    let obj := r.1.load (head bkt)
    let more ← walkSafe body fuel r.1 obj (obj.bind fun c => r.1.load (.next c))
    some (more.1, r.2 ++ more.2)

/-! ## What the table holds -/

/-- The objects with their keys, the newest first. -/
abbrev Entries (α : Type*) := List (α × BitVec 64)

def bucket (es : Entries α) (bkt : ℕ) : List α :=
  (es.filter fun e => hashMin e.2 = bkt).map Prod.fst

structure Holds (m : Memory α) (size : ℕ) (es : Entries α) : Prop where
  seg : ∀ bkt < size, Seg m (head bkt) ((bucket es bkt).map .inr)
  nodup : (es.map Prod.fst).Nodup

lemma mem_bucket {es : Entries α} {bkt : ℕ} {a : α} :
    a ∈ bucket es bkt ↔ ∃ key, (a, key) ∈ es ∧ hashMin key = bkt := by
  simp [bucket]

lemma nodup_bucket {es : Entries α} (h : (es.map Prod.fst).Nodup) (bkt : ℕ) :
    (bucket es bkt).Nodup :=
  h.sublist (List.filter_sublist.map _)

/-- An object is in one bucket. -/
lemma bucket_unique {es : Entries α} (h : (es.map Prod.fst).Nodup) {a : α} {i j : ℕ}
    (hi : a ∈ bucket es i) (hj : a ∈ bucket es j) : i = j := by
  obtain ⟨k, hk, rfl⟩ := mem_bucket.1 hi
  obtain ⟨k', hk', rfl⟩ := mem_bucket.1 hj
  have hkey : (a, k) = (a, k') := List.inj_on_of_nodup_map h hk hk' rfl
  exact congrArg (fun e : α × BitVec 64 => hashMin e.2) hkey

lemma bucket_cons (n : α) (key : BitVec 64) (es : Entries α) (bkt : ℕ) :
    bucket ((n, key) :: es) bkt =
      if hashMin key = bkt then n :: bucket es bkt else bucket es bkt := by
  by_cases h : hashMin key = bkt <;> simp [bucket, h]

lemma bucket_filter (es : Entries α) (p : α → Bool) (bkt : ℕ) :
    bucket (es.filter fun e => p e.1) bkt = (bucket es bkt).filter p := by
  rw [bucket, bucket, List.filter_map, List.filter_filter, List.filter_filter]
  simp only [Function.comp_apply, Bool.and_comm]

lemma hashMin_lt (key : BitVec 64) : hashMin key < 256 := by
  rw [hashMin, BitVec.toNat_and]
  exact lt_of_le_of_lt Nat.and_le_right (by decide)

lemma head_ne_next (bkt : ℕ) (n : α) : (head bkt : Link (Cell α)) ≠ next n := by
  simp [head, next]

/-- The field that holds a node of a bucket: the bucket, or a node of the same list. -/
lemma pprev_cases {m : Memory α} {bkt : ℕ} {xs : List α} {n : α}
    (h : Seg m (head bkt) (xs.map .inr)) (hnd : xs.Nodup) (hn : n ∈ xs) :
    ∃ k, m.pprev (.inr n) = some k ∧ (k = head bkt ∨ ∃ b ∈ xs, b ≠ n ∧ k = next b) := by
  obtain ⟨as, bs, rfl⟩ := List.append_of_mem hn
  rw [List.map_append, List.map_cons] at h
  refine ⟨_, h.mid.2.1, ?_⟩
  rcases lastLink_cases (head bkt) (as.map Sum.inr) with ⟨-, he⟩ | ⟨c, hc, he⟩
  · exact .inl he
  · obtain ⟨b, hb, rfl⟩ := List.mem_map.1 hc
    have hbn : b ≠ n := fun heq => (List.nodup_append.1 hnd).2.2 b hb n (by simp) heq
    exact .inr ⟨b, by simp [hb], hbn, he⟩

/-! ## The loops that only read -/

variable {m : Memory α} {size : ℕ} {es : Entries α}

lemma walk_seg {l : Link (Cell α)} {xs : List α} (h : Seg m l (xs.map .inr)) {fuel : ℕ}
    (hf : xs.length ≤ fuel) : walk m fuel (m.load l) = some xs := by
  induction xs generalizing l fuel with
  | nil =>
    rw [show m.load l = none from h]
    cases fuel <;> rfl
  | cons x xs ih =>
    obtain ⟨fuel, rfl⟩ : ∃ k, fuel = k + 1 := ⟨fuel - 1, by simp at hf; omega⟩
    obtain ⟨hfirst, -, hrest⟩ := h
    rw [hfirst, walk, show m.load (next x) = m.load (.next (.inr x)) from rfl,
      ih hrest (by simpa using hf)]
    rfl

lemma length_bucket_le (es : Entries α) (bkt : ℕ) : (bucket es bkt).length ≤ es.length := by
  rw [bucket, List.length_map]
  exact List.length_filter_le _ _

lemma Holds.forEach (h : Holds m size es) {fuel : ℕ} (hf : es.length ≤ fuel) {bkt : ℕ}
    (hb : bkt ≤ size) :
    hashForEach m fuel bkt = some ((List.range bkt).flatMap (bucket es)) := by
  induction bkt with
  | zero => rfl
  | succ bkt ih =>
    have hwalk := walk_seg (h.seg bkt (by omega)) ((length_bucket_le es bkt).trans hf)
    rw [hashForEach, ih (by omega), hwalk, List.range_succ, List.flatMap_append]
    simp

/-- Every object is in one of the buckets, and there once. -/
lemma flatMap_bucket_perm (h : (es.map Prod.fst).Nodup) (hsize : 256 ≤ size) :
    ((List.range size).flatMap (bucket es)).Perm (es.map Prod.fst) := by
  rw [List.perm_ext_iff_of_nodup ?_ h]
  · intro a
    simp only [List.mem_flatMap, List.mem_range, mem_bucket, List.mem_map]
    constructor
    · rintro ⟨bkt, -, key, hmem, -⟩
      exact ⟨(a, key), hmem, rfl⟩
    · rintro ⟨⟨_, key⟩, hmem, rfl⟩
      exact ⟨hashMin key, lt_of_lt_of_le (hashMin_lt key) hsize, key, hmem, rfl⟩
  · refine List.nodup_flatMap.2 ⟨fun bkt _ => nodup_bucket h bkt, ?_⟩
    refine List.nodup_range.imp fun hne => ?_
    exact fun a ha hb => hne (bucket_unique h ha hb)

/-- The entries that are left when the first buckets are done. -/
def withoutBelow (es : Entries α) (p : α → Bool) (bkt : ℕ) : Entries α :=
  es.filter fun e => ¬ (hashMin e.2 < bkt ∧ p e.1)

lemma bucket_withoutBelow (es : Entries α) (p : α → Bool) (bkt : ℕ) :
    bucket (withoutBelow es p bkt) bkt = bucket es bkt := by
  rw [bucket, withoutBelow, List.filter_filter, bucket]
  congr 1
  refine List.filter_congr fun e _ => ?_
  by_cases he : hashMin e.2 = bkt <;> simp [he]

lemma withoutBelow_all (hsize : 256 ≤ size) (es : Entries α) (p : α → Bool) :
    withoutBelow es p size = es.filter fun e => ¬ p e.1 := by
  refine List.filter_congr fun e _ => ?_
  have hlt := lt_of_lt_of_le (hashMin_lt e.2) hsize
  simp [hlt]

/-! ## One step -/

variable [DecidableEq α]

lemma load_add (m : Memory α) (n : α) {h : Link (Cell α)} (j : Link (Cell α)) :
    (hlistAddHead m n h).load j =
      if j = h then some (.inr n) else if j = next n then m.load h else m.load j := by
  unfold hlistAddHead
  rw [Mem.load_setPprev]
  by_cases hj : j = h
  · rw [hj, Mem.load_store_self, if_pos rfl]
  · rw [Mem.load_store_of_ne _ hj, if_neg hj]
    by_cases hn : j = next n
    · rw [hn, if_pos rfl]
      cases m.load h <;> simp
    · rw [if_neg hn]
      cases m.load h <;> simp [Mem.load_store_of_ne _ hn]

lemma pprev_add (m : Memory α) (n : α) (h : Link (Cell α)) (c : Cell α) :
    (hlistAddHead m n h).pprev c =
      if c = .inr n then some h else if m.load h = some c then some (next n) else m.pprev c := by
  unfold hlistAddHead
  by_cases hc : c = .inr n
  · rw [hc, Mem.pprev_setPprev_self, if_pos rfl]
  · rw [Mem.pprev_setPprev_of_ne _ hc, Mem.pprev_store, if_neg hc]
    cases hf : m.load h with
    | none => simp
    | some f =>
      by_cases hcf : c = f
      · simp [hcf]
      · have hfc : f ≠ c := Ne.symm hcf
        simp [Mem.pprev_setPprev_of_ne _ hcf, hfc]

/-- The list gets the node in front of its first one. -/
lemma seg_add {m : Memory α} {bkt : ℕ} {n : α} {xs : List α}
    (h : Seg m (head bkt) (xs.map .inr)) (hnd : xs.Nodup) (hn : n ∉ xs) :
    Seg (hlistAddHead m n (head bkt)) (head bkt) ((n :: xs).map .inr) := by
  refine ⟨by rw [load_add, if_pos rfl], by rw [pprev_add, if_pos rfl], ?_⟩
  have hnext : (hlistAddHead m n (head bkt)).load (next n) = m.load (head bkt) := by
    rw [load_add, if_neg (head_ne_next bkt n).symm, if_pos rfl]
  cases xs with
  | nil => exact hnext.trans h
  | cons a xs =>
    obtain ⟨hfirst, -, hrest⟩ := h
    have hna : a ≠ n := fun he => hn (by simp [he])
    refine ⟨hnext.trans hfirst, ?_, hrest.congr ?_ ?_ ?_⟩
    · rw [pprev_add, if_neg (by simpa using hna), if_pos hfirst]
      rfl
    · rw [load_add, if_neg (by simp [head]), if_neg (by simpa [next] using hna)]
    · intro c hc
      obtain ⟨x, hx, rfl⟩ := List.mem_map.1 hc
      have hxn : x ≠ n := fun he => hn (by simp [← he, hx])
      rw [load_add, if_neg (by simp [head]), if_neg (by simpa [next] using hxn)]
    · intro c hc
      obtain ⟨x, hx, rfl⟩ := List.mem_map.1 hc
      have hxn : x ≠ n := fun he => hn (by simp [← he, hx])
      have hxa : a ≠ x := fun he => (List.nodup_cons.1 hnd).1 (he ▸ hx)
      rw [pprev_add, if_neg (by simpa using hxn), if_neg (by simpa [hfirst] using hxa)]

/-- The lists of the other buckets stay. -/
lemma seg_add_of_ne {m : Memory α} {bkt other : ℕ} {n : α} {xs ys : List α}
    (h : Seg m (head bkt) (xs.map .inr)) (hy : Seg m (head other) (ys.map .inr))
    (hne : other ≠ bkt) (hn : n ∉ ys) (hxy : ∀ a ∈ xs, a ∉ ys) :
    Seg (hlistAddHead m n (head bkt)) (head other) (ys.map .inr) := by
  refine hy.congr ?_ ?_ ?_
  · rw [load_add, if_neg (by simpa [head] using hne), if_neg (head_ne_next other n)]
  · intro c hc
    obtain ⟨x, hx, rfl⟩ := List.mem_map.1 hc
    have hxn : x ≠ n := fun he => hn (he ▸ hx)
    rw [load_add, if_neg (by simp [head]), if_neg (by simpa [next] using hxn)]
  · intro c hc
    obtain ⟨x, hx, rfl⟩ := List.mem_map.1 hc
    have hxn : x ≠ n := fun he => hn (he ▸ hx)
    have hfirst : m.load (head bkt) ≠ some (.inr x) := by
      rw [h.next_eq_head?]
      intro he
      obtain ⟨a, ha, hax⟩ := List.mem_map.1 (List.mem_of_head? he)
      obtain rfl := Sum.inr_injective hax
      exact hxy _ ha hx
    rw [pprev_add, if_neg (by simpa using hxn), if_neg hfirst]

lemma hlistDel_eq {m : Memory α} {n : α} {k : Link (Cell α)} (hk : m.pprev (.inr n) = some k) :
    hlistDel m n = initNode (unlink m (.inr n)) (.inr n) := by
  unfold hlistDel unlink initNode next
  rw [hk]
  cases hs : m.next (.inr n) with
  | none => simp [Mem.load, hs, hk]
  | some s =>
    have hpprev : (m.setPprev s (some k)).pprev (.inr n) = some k := by
      by_cases hsn : s = .inr n
      · rw [hsn, Mem.pprev_setPprev_self]
      · rw [Mem.pprev_setPprev_of_ne _ (Ne.symm hsn), hk]
    have hload : (m.setPprev s (some k)).next (.inr n) = some s := hs
    simp only [Mem.load, hs, hpprev, hload]

lemma seg_del {m : Memory α} {bkt : ℕ} {n : α} {xs : List α}
    (h : Seg m (head bkt) (xs.map .inr)) (hnd : xs.Nodup) (hn : n ∈ xs) :
    Seg (hlistDel m n) (head bkt) ((xs.erase n).map .inr) := by
  obtain ⟨k, hk, -⟩ := pprev_cases h hnd hn
  obtain ⟨as, bs, rfl⟩ := List.append_of_mem hn
  have hna : n ∉ as := fun ha => (List.nodup_append.1 hnd).2.2 n ha n (by simp) rfl
  rw [hlistDel_eq hk, List.erase_append_right _ hna, List.erase_cons_head, List.map_append]
  rw [List.map_append, List.map_cons] at h
  refine h.remove ?_ ?_
  · rw [← List.map_cons, ← List.map_append]
    exact hnd.map Sum.inr_injective
  · intro c hc he
    rw [← List.map_cons, ← List.map_append] at hc
    obtain ⟨x, -, rfl⟩ := List.mem_map.1 hc
    exact head_ne_next bkt x he

lemma seg_del_of_ne {m : Memory α} {bkt other : ℕ} {n : α} {xs ys : List α}
    (h : Seg m (head bkt) (xs.map .inr)) (hnd : xs.Nodup) (hn : n ∈ xs)
    (hy : Seg m (head other) (ys.map .inr)) (hne : other ≠ bkt) (hxy : ∀ a ∈ xs, a ∉ ys) :
    Seg (hlistDel m n) (head other) (ys.map .inr) := by
  obtain ⟨k, hk, hkind⟩ := pprev_cases h hnd hn
  have hkn : k ≠ .next (.inr n) := by
    rcases hkind with rfl | ⟨b, -, hbn, rfl⟩
    · exact head_ne_next bkt n
    · simpa [next] using hbn
  rw [hlistDel_eq hk]
  refine hy.congr ?_ ?_ ?_
  · have hhead : head other ≠ k := by
      rcases hkind with rfl | ⟨b, -, -, rfl⟩
      · simpa [head] using hne
      · exact head_ne_next other b
    rw [load_remove hk hkn, if_neg (show head other ≠ .next (.inr n) from head_ne_next other n),
      if_neg hhead]
  · intro c hc
    obtain ⟨x, hx, rfl⟩ := List.mem_map.1 hc
    have hxn : x ≠ n := fun he => hxy n hn (he ▸ hx)
    have hxk : .next (.inr x) ≠ k := by
      rcases hkind with rfl | ⟨b, hb, -, rfl⟩
      · simp [head]
      · simp only [next, ne_eq, Link.next.injEq, Sum.inr.injEq]
        rintro rfl
        exact hxy x hb hx
    rw [load_remove hk hkn, if_neg (by simpa using hxn), if_neg hxk]
  · intro c hc
    obtain ⟨x, hx, rfl⟩ := List.mem_map.1 hc
    have hxn : x ≠ n := fun he => hxy n hn (he ▸ hx)
    have hnext : m.next (.inr n) ≠ some (.inr x) := by
      intro he
      obtain ⟨as, bs, rfl⟩ := List.append_of_mem hn
      rw [List.map_append, List.map_cons] at h
      have hhead := h.mid.2.2.next_eq_head?
      rw [Mem.load, he] at hhead
      obtain ⟨b, hb, hbx⟩ := List.mem_map.1 (List.mem_of_head? hhead.symm)
      obtain rfl := Sum.inr_injective hbx
      exact hxy _ (by simp [hb]) hx
    rw [pprev_remove hk, if_neg (by simpa using hxn), if_neg hnext]

/-! ## Steps of the table -/

lemma bucket_erase {es : Entries α} (h : (es.map Prod.fst).Nodup) (n : α) (bkt : ℕ) :
    bucket (es.filter fun e => e.1 ≠ n) bkt = (bucket es bkt).erase n := by
  rw [bucket_filter es (fun a => a ≠ n), (nodup_bucket h bkt).erase_eq_filter]
  refine List.filter_congr fun a _ => ?_
  rw [Bool.eq_iff_iff]
  simp

lemma Holds.add (h : Holds m size es) (hsize : 256 ≤ size) {n : α} (hn : n ∉ es.map Prod.fst)
    (key : BitVec 64) : Holds (hashAdd m n key) size ((n, key) :: es) := by
  have hmem : ∀ bkt, n ∉ bucket es bkt := by
    intro bkt hin
    obtain ⟨k, hk, -⟩ := mem_bucket.1 hin
    exact hn (List.mem_map_of_mem hk)
  refine ⟨?_, by simpa using ⟨by simpa using hn, h.nodup⟩⟩
  intro bkt hbkt
  have hown := h.seg _ (lt_of_lt_of_le (hashMin_lt key) hsize)
  rw [bucket_cons]
  split_ifs with heq
  · subst heq
    exact seg_add hown (nodup_bucket h.nodup _) (hmem _)
  · refine seg_add_of_ne hown (h.seg bkt hbkt) (Ne.symm heq) (hmem bkt) ?_
    exact fun a ha hb => heq (bucket_unique h.nodup ha hb)

lemma Holds.del (h : Holds m size es) (hsize : 256 ≤ size) {n : α} (hn : n ∈ es.map Prod.fst) :
    Holds (hlistDel m n) size (es.filter fun e => e.1 ≠ n) := by
  obtain ⟨⟨_, key⟩, hmem, rfl⟩ := List.mem_map.1 hn
  refine ⟨?_, h.nodup.sublist (List.filter_sublist.map _)⟩
  intro bkt hbkt
  have hown := h.seg _ (lt_of_lt_of_le (hashMin_lt key) hsize)
  have hin := mem_bucket.2 ⟨key, hmem, rfl⟩
  rw [bucket_erase h.nodup]
  by_cases heq : bkt = hashMin key
  · subst heq
    exact seg_del hown (nodup_bucket h.nodup _) hin
  · rw [List.erase_of_not_mem fun hb => heq (bucket_unique h.nodup hb hin)]
    refine seg_del_of_ne hown (nodup_bucket h.nodup _) hin (h.seg bkt hbkt) heq ?_
    exact fun a ha hb => heq (bucket_unique h.nodup hb ha)

/-- What becomes of a node that is freed. -/
def scribble (m : Memory α) (n : α) (junk : Option (Cell α) × Option (Link (Cell α))) : Memory α :=
  (m.store (next n) junk.1).setPprev (.inr n) junk.2

lemma Holds.scribble (h : Holds m size es) {n : α} (hn : n ∉ es.map Prod.fst)
    (junk : Option (Cell α) × Option (Link (Cell α))) : Holds (scribble m n junk) size es := by
  refine ⟨fun bkt hbkt => (h.seg bkt hbkt).congr ?_ ?_ ?_, h.nodup⟩
  · rw [HashTable.scribble, Mem.load_setPprev, Mem.load_store_of_ne _ (head_ne_next bkt n)]
  · intro c hc
    obtain ⟨x, hx, rfl⟩ := List.mem_map.1 hc
    obtain ⟨key, hkey, -⟩ := mem_bucket.1 hx
    have hxn : x ≠ n := fun he => hn (he ▸ List.mem_map_of_mem hkey)
    rw [HashTable.scribble, Mem.load_setPprev, Mem.load_store_of_ne _ (by simpa [next] using hxn)]
  · intro c hc
    obtain ⟨x, hx, rfl⟩ := List.mem_map.1 hc
    obtain ⟨key, hkey, -⟩ := mem_bucket.1 hx
    have hxn : x ≠ n := fun he => hn (he ▸ List.mem_map_of_mem hkey)
    rw [HashTable.scribble, Mem.pprev_setPprev_of_ne _ (by simpa using hxn), Mem.pprev_store]

lemma holds_init (m : Memory α) (size : ℕ) : Holds (hashInit m size) size [] := by
  refine ⟨?_, List.nodup_nil⟩
  change ∀ bkt < size, (hashInit m size).load (head bkt) = none
  induction size with
  | zero => exact fun bkt h => absurd h (Nat.not_lt_zero bkt)
  | succ size ih =>
    intro bkt hbkt
    rw [hashInit, List.range_succ, List.foldl_append, ← hashInit]
    change ((hashInit m size).store (head size) none).load (head bkt) = none
    by_cases heq : bkt = size
    · rw [heq, Mem.load_store_self]
    · have hhead : (head bkt : Link (Cell α)) ≠ head size := by simpa [head] using heq
      rw [Mem.load_store_of_ne _ hhead, ih bkt (by omega)]

/-! ## The loop that removes what it visits -/

/-- A body that takes some of the objects off their list and frees them. -/
def deleteIf (p : α → Bool) (junk : α → Option (Cell α) × Option (Link (Cell α)))
    (m : Memory α) (obj : α) : Memory α :=
  if p obj then scribble (hlistDel m obj) obj (junk obj) else m

/-- The entries without those objects of a list that the body removes. -/
def without (es : Entries α) (p : α → Bool) (xs : List α) : Entries α :=
  es.filter fun e => ¬ (e.1 ∈ xs ∧ p e.1)

variable {p : α → Bool} {junk : α → Option (Cell α) × Option (Link (Cell α))}

lemma without_cons (es : Entries α) (x : α) (xs : List α) :
    without es p (x :: xs) = without (if p x then es.filter fun e => e.1 ≠ x else es) p xs := by
  unfold without
  split_ifs with hx
  · rw [List.filter_filter]
    refine List.filter_congr fun e _ => ?_
    by_cases he : e.1 = x <;> simp [he, hx]
  · refine List.filter_congr fun e _ => ?_
    by_cases he : e.1 = x <;> simp [he, hx]

/-- One round of the inner loop. -/
lemma Holds.deleteIf (h : Holds m size es) (hsize : 256 ≤ size) {x : α}
    (hx : x ∈ es.map Prod.fst) :
    Holds (deleteIf p junk m x) size (if p x then es.filter fun e => e.1 ≠ x else es) := by
  unfold HashTable.deleteIf
  split_ifs
  · refine (h.del hsize hx).scribble ?_ _
    simp
  · exact h

/-- The inner loop, from the point where `as` is what is left of the objects visited before. -/
lemma walkSafe_seg (hsize : 256 ≤ size) {bkt : ℕ} (hbkt : bkt < size) (xs : List α) {as : List α}
    (h : Holds m size es) (hxs : bucket es bkt = as ++ xs) {fuel : ℕ} (hf : xs.length ≤ fuel) :
    ∃ m', walkSafe (deleteIf p junk) fuel m (xs.map Sum.inr).head? (xs.map Sum.inr).tail.head? =
      some (m', xs) ∧ Holds m' size (without es p xs) := by
  induction xs generalizing m es as fuel with
  | nil =>
    have hall : without es p [] = es := by simp [without]
    exact ⟨m, by cases fuel <;> rfl, by rwa [hall]⟩
  | cons x xs ih =>
    obtain ⟨fuel, rfl⟩ : ∃ k, fuel = k + 1 := ⟨fuel - 1, by simp at hf; omega⟩
    have hnd := nodup_bucket h.nodup bkt
    have hx : x ∈ es.map Prod.fst := by
      have hin : x ∈ bucket es bkt := by simp [hxs]
      obtain ⟨key, hkey, -⟩ := mem_bucket.1 hin
      exact List.mem_map_of_mem hkey
    set es' := if p x then es.filter fun e => e.1 ≠ x else es with hes
    have hstep : Holds (deleteIf p junk m x) size es' := h.deleteIf hsize hx
    obtain ⟨as', has⟩ : ∃ as', bucket es' bkt = as' ++ xs := by
      rw [hes]
      split_ifs
      · have hxa : x ∉ as := by
          rw [hxs] at hnd
          exact fun ha => (List.nodup_append.1 hnd).2.2 x ha x (by simp) rfl
        refine ⟨as, ?_⟩
        rw [bucket_erase h.nodup, hxs, List.erase_append_right _ hxa, List.erase_cons_head]
      · exact ⟨as ++ [x], by simp [hxs]⟩
    -- what `tmp` points at was not touched, so the next one is read off its own field
    have htmp : ((xs.map Sum.inr).head?.bind fun c => (deleteIf p junk m x).load (.next c)) =
        (xs.map Sum.inr).tail.head? := by
      cases xs with
      | nil => rfl
      | cons y ys =>
        have hseg := hstep.seg bkt hbkt
        rw [has, List.map_append, List.map_cons] at hseg
        exact hseg.mid.2.2.next_eq_head?
    obtain ⟨m', hwalk, hm'⟩ := ih hstep has (by simpa using hf)
    refine ⟨m', ?_, by rwa [without_cons, ← hes]⟩
    rw [List.map_cons, List.head?_cons, List.tail_cons, walkSafe, htmp, hwalk]
    rfl

lemma withoutBelow_succ (h : (es.map Prod.fst).Nodup) (p : α → Bool) (bkt : ℕ) :
    without (withoutBelow es p bkt) p (bucket es bkt) = withoutBelow es p (bkt + 1) := by
  rw [without, withoutBelow, List.filter_filter, withoutBelow]
  refine List.filter_congr fun e he => ?_
  have hmem : e.1 ∈ bucket es bkt ↔ hashMin e.2 = bkt :=
    ⟨fun hin => bucket_unique h (mem_bucket.2 ⟨e.2, he, rfl⟩) hin,
      fun heq => mem_bucket.2 ⟨e.2, he, heq⟩⟩
  rw [Bool.eq_iff_iff]
  simp only [hmem, Bool.and_eq_true, decide_eq_true_eq, Nat.lt_succ_iff_lt_or_eq]
  tauto

lemma Holds.forEachSafe (h : Holds m size es) (hsize : 256 ≤ size) {fuel : ℕ}
    (hf : es.length ≤ fuel) {bkt : ℕ} (hb : bkt ≤ size) :
    ∃ m', hashForEachSafe (HashTable.deleteIf p junk) fuel m bkt =
      some (m', (List.range bkt).flatMap (bucket es)) ∧ Holds m' size (withoutBelow es p bkt) := by
  induction bkt with
  | zero =>
    have hall : withoutBelow es p 0 = es := by simp [withoutBelow]
    exact ⟨m, rfl, by rwa [hall]⟩
  | succ bkt ih =>
    obtain ⟨m', hloop, hm'⟩ := ih (by omega)
    have hseg := hm'.seg bkt (by omega)
    have hown := bucket_withoutBelow es p bkt
    rw [hown] at hseg
    have hstart : bucket (withoutBelow es p bkt) bkt = [] ++ bucket es bkt := hown
    obtain ⟨m'', hwalk, hm''⟩ := walkSafe_seg hsize (by omega) (bucket es bkt) hm' hstart
      ((length_bucket_le es bkt).trans hf)
    rw [withoutBelow_succ h.nodup] at hm''
    refine ⟨m'', ?_, hm''⟩
    have hfirst := hseg.next_eq_head?
    have htmp : ((m'.load (head bkt)).bind fun c => m'.load (.next c)) =
        ((bucket es bkt).map Sum.inr).tail.head? := by
      rw [hfirst]
      cases hbucket : bucket es bkt with
      | nil => rfl
      | cons x xs =>
        rw [hbucket] at hseg
        exact hseg.2.2.next_eq_head?
    rw [hashForEachSafe, hloop, List.range_succ, List.flatMap_append]
    simp only [Option.bind_eq_bind, Option.bind_some, htmp]
    rw [hfirst, hwalk]
    simp

/-! ## Runs -/

inductive Op (α : Type*)
  | add (n : α) (key : BitVec 64)
  | del (n : α)
  | sweep (p : α → Bool) (junk : α → Option (Cell α) × Option (Link (Cell α)))

def exec (size fuel : ℕ) (m : Memory α) : Op α → Option (Memory α)
  | .add n key => some (hashAdd m n key)
  | .del n => some (hlistDel m n)
  | .sweep p junk => (hashForEachSafe (deleteIf p junk) fuel m size).map Prod.fst

def run (size fuel : ℕ) (m : Memory α) : List (Op α) → Option (Memory α)
  | [] => some m
  | op :: ops => (exec size fuel m op).bind fun m => run size fuel m ops

def track (es : Entries α) : Op α → Entries α
  | .add n key => (n, key) :: es
  | .del n => es.filter fun e => e.1 ≠ n
  | .sweep p _ => es.filter fun e => ¬ p e.1

/-- A node is added where it is in no list, and removed where it is in one. -/
def Allowed (es : Entries α) : Op α → Prop
  | .add n _ => n ∉ es.map Prod.fst
  | .del n => n ∈ es.map Prod.fst
  | .sweep _ _ => True

def AllAllowed : Entries α → List (Op α) → Prop
  | _, [] => True
  | es, op :: ops => Allowed es op ∧ AllAllowed (track es op) ops

lemma length_track_le (es : Entries α) (op : Op α) : (track es op).length ≤ es.length + 1 := by
  cases op with
  | add n key => exact le_rfl
  | del n => exact (List.length_filter_le _ _).trans (Nat.le_succ _)
  | sweep p junk => exact (List.length_filter_le _ _).trans (Nat.le_succ _)

lemma Holds.exec (h : Holds m size es) (hsize : 256 ≤ size) {fuel : ℕ} (hf : es.length ≤ fuel)
    {op : Op α} (hop : Allowed es op) :
    ∃ m', exec size fuel m op = some m' ∧ Holds m' size (track es op) := by
  cases op with
  | add n key => exact ⟨_, rfl, h.add hsize hop key⟩
  | del n => exact ⟨_, rfl, h.del hsize hop⟩
  | sweep p junk =>
    obtain ⟨m', hloop, hm'⟩ : ∃ m', hashForEachSafe (HashTable.deleteIf p junk) fuel m size =
        some (m', (List.range size).flatMap (bucket es)) ∧ Holds m' size (withoutBelow es p size) :=
      h.forEachSafe hsize hf le_rfl
    rw [withoutBelow_all hsize] at hm'
    exact ⟨m', by rw [HashTable.exec, hloop]; rfl, hm'⟩

lemma Holds.run (ops : List (Op α)) (h : Holds m size es) (hsize : 256 ≤ size) {fuel : ℕ}
    (hf : es.length + ops.length ≤ fuel) (hops : AllAllowed es ops) :
    ∃ m', run size fuel m ops = some m' ∧ Holds m' size (ops.foldl track es) := by
  induction ops generalizing m es with
  | nil => exact ⟨m, rfl, h⟩
  | cons op ops ih =>
    rw [List.length_cons] at hf
    obtain ⟨m', hexec, hm'⟩ := h.exec hsize (show es.length ≤ fuel by omega) hops.1
    have hlen := length_track_le es op
    obtain ⟨m'', hrun, hm''⟩ := ih hm' (by omega) hops.2
    exact ⟨m'', by rw [HashTable.run, hexec, Option.bind_some, hrun], hm''⟩

lemma length_foldl_track_le (es : Entries α) (ops : List (Op α)) :
    (ops.foldl track es).length ≤ es.length + ops.length := by
  induction ops generalizing es with
  | nil => exact le_rfl
  | cons op ops ih =>
    have hlen := length_track_le es op
    have htail := ih (track es op)
    rw [List.foldl_cons, List.length_cons]
    omega

/-- After every run of additions, removals and sweeps from an initialised table, the loop over a key
visits the objects of its bucket, the newest first, and the loop over the table visits every object
that is in it exactly once; a sweep does so too while it takes objects off and frees them. -/
theorem run_loops (m : Memory α) {size : ℕ} (hsize : 256 ≤ size) (ops : List (Op α))
    (hops : AllAllowed [] ops) {fuel : ℕ} (hf : ops.length ≤ fuel) :
    ∃ m', run size fuel (hashInit m size) ops = some m' ∧
      (∀ key, hashForEachPossible m' fuel key =
        some (bucket (ops.foldl track []) (hashMin key))) ∧
      ∃ visited, visited.Perm ((ops.foldl track []).map Prod.fst) ∧
        hashForEach m' fuel size = some visited ∧
        ∀ p junk, (hashForEachSafe (deleteIf p junk) fuel m' size).map Prod.snd = some visited := by
  obtain ⟨m', hrun, hm'⟩ := (holds_init m size).run ops hsize (by simpa using hf) hops
  have hlen : (ops.foldl track []).length ≤ fuel := by
    refine (length_foldl_track_le [] ops).trans ?_
    simpa using hf
  refine ⟨m', hrun, ?_, _, flatMap_bucket_perm hm'.nodup hsize, hm'.forEach hlen le_rfl, ?_⟩
  · intro key
    exact walk_seg (hm'.seg _ (lt_of_lt_of_le (hashMin_lt key) hsize))
      ((length_bucket_le _ _).trans hlen)
  · intro p junk
    obtain ⟨m'', hloop, -⟩ : ∃ m'', hashForEachSafe (deleteIf p junk) fuel m' size =
        some (m'', (List.range size).flatMap (bucket (ops.foldl track []))) ∧
          Holds m'' size (withoutBelow (ops.foldl track []) p size) :=
      hm'.forEachSafe hsize hlen le_rfl
    rw [hloop]
    rfl

/-- A memory of null pointers. -/
def zeroed : Memory ℕ := ⟨none, fun _ => none, fun _ => none⟩

/-- Four objects of one bucket; the third is taken off, and a sweep frees the second. -/
def fourObjects : List (Op ℕ) :=
  [.add 7 1, .add 9 257, .add 8 1, .add 6 1, .del 8, .sweep (· == 9) fun _ => (none, none)]

theorem run_loops_four :
    fourObjects.foldl track [] = [(6, 1), (7, 1)] ∧
    ∃ m', run 256 6 (hashInit zeroed 256) fourObjects = some m' ∧
      (∀ key, hashForEachPossible m' 6 key =
        some (bucket (fourObjects.foldl track []) (hashMin key))) ∧
      ∃ visited, visited.Perm ((fourObjects.foldl track []).map Prod.fst) ∧
        hashForEach m' 6 256 = some visited ∧
        ∀ p junk, (hashForEachSafe (deleteIf p junk) 6 m' 256).map Prod.snd = some visited := by
  have hallowed : AllAllowed [] fourObjects := by
    simp [fourObjects, AllAllowed, Allowed, track]
  exact ⟨by decide, run_loops zeroed le_rfl fourObjects hallowed le_rfl⟩

end BpfVerify.HashTable
