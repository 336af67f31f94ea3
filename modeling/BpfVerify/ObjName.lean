import BpfVerify.Unescape

/-!
# Object names

`bpf_obj_name_cpy` of `syscall.c`, which copies the name of a map or of a program from one buffer
to another.
-/
namespace BpfVerify.ObjName
open TracedMemory Unescape

def einval : ℤ := 22

/-- A `char` is signed. -/
def syscallIsalnum (c : Byte) : Bool :=
  ((ch '0').sle c && c.sle (ch '9')) || ((ch 'A').sle c && c.sle (ch 'Z')) ||
    ((ch 'a').sle c && c.sle (ch 'z'))

/-- `for (i = 0; i < size; i++) dst[i] = 0`. -/
def clear : ℕ → Memory Byte → ℕ → Memory Byte
  | 0, dst, _ => dst
  | n + 1, dst, d => clear n (dst.store d 0) (d + 1)

/-- The copying loop: the position at which it ends, or `none` where it returns. -/
def copyLoop (fin : ℕ) (dst : Memory Byte) (d : ℕ) (src : Memory Byte) (s : ℕ) :
    Option ℕ × Memory Byte × Memory Byte :=
  if s < fin then
    let r := src.load s
    if r.1 = 0 then (some s, dst, r.2)
    else if ¬ syscallIsalnum r.1 ∧ r.1 ≠ ch '_' ∧ r.1 ≠ ch '.' then (none, dst, r.2)
    else copyLoop fin (dst.store d r.1) (d + 1) r.2 (s + 1)
  else (some s, dst, src)
termination_by fin - s

/-- The return value, which is an `int`, and the two buffers. -/
structure Copied where
  ret : ℤ
  dst : Memory Byte
  src : Memory Byte

def bpfObjNameCpy (dst : Memory Byte) (d : ℕ) (src : Memory Byte) (s : ℕ) (size : BitVec 32) :
    Copied :=
  let fin := s + size.toNat
  let (stop, dst, src) := copyLoop fin (clear size.toNat dst d) d src s
  match stop with
  | none => ⟨-einval, dst, src⟩
  | some p => ⟨if p = fin then -einval else (BitVec.ofNat 32 (p - s)).toInt, dst, src⟩

/-! ## Names -/

/-- The characters of a name. -/
def Valid (c : Byte) : Prop := syscallIsalnum c = true ∨ c = ch '_' ∨ c = ch '.'

instance (c : Byte) : Decidable (Valid c) := inferInstanceAs (Decidable (_ ∨ _))

lemma not_valid_zero : ¬ Valid 0 := by decide

/-- The first `k` characters are those of a name. -/
def ValidTo (cells : ℕ → Byte) (s k : ℕ) : Prop := ∀ i < k, Valid (cells (s + i))

/-- A terminated name of length `n` that fits in `size` bytes. -/
structure IsName (cells : ℕ → Byte) (s size n : ℕ) : Prop where
  fits : n < size
  valid : ValidTo cells s n
  last : cells (s + n) = 0

/-! ## The loops -/

lemma clear_eq (n : ℕ) (dst : Memory Byte) (d : ℕ) :
    clear n dst d = dst.stores d (List.replicate n 0) := by
  induction n generalizing dst d with
  | zero => rfl
  | succ n ih => rw [clear, ih, Memory.store_stores, List.replicate_succ]

lemma copyLoop_valid {fin s : ℕ} (hs : s < fin) {src : Memory Byte} (h : Valid (src.cells s))
    (dst : Memory Byte) (d : ℕ) : copyLoop fin dst d src s =
      copyLoop fin (dst.store d (src.cells s)) (d + 1) (src.loads s 1) (s + 1) := by
  have hzero : src.cells s ≠ 0 := by
    intro h0
    rw [h0] at h
    exact not_valid_zero h
  have hgo : ¬ (¬ syscallIsalnum (src.cells s) = true ∧ src.cells s ≠ ch '_' ∧
      src.cells s ≠ ch '.') := by
    rintro ⟨halnum, hline, hdot⟩
    exact h.elim halnum fun h => h.elim hline hdot
  rw [copyLoop, if_pos hs, Memory.load_eq]
  dsimp only
  rw [if_neg hzero, if_neg hgo]

/-- The valid characters are copied. -/
lemma copyLoop_prefix {k n : ℕ} {src : Memory Byte} {s : ℕ} (h : ValidTo src.cells s k)
    (dst : Memory Byte) (d : ℕ) : copyLoop (s + (k + n)) dst d src s =
      copyLoop (s + (k + n)) (dst.stores d (region src.cells s k)) (d + k) (src.loads s k)
        (s + k) := by
  induction k generalizing src s dst d with
  | zero => rfl
  | succ k ih =>
    have hfirst : Valid (src.cells s) := h 0 (by omega)
    have hrest : ValidTo (src.loads s 1).cells (s + 1) k := by
      intro i hi
      rw [Memory.cells_loads, Nat.add_assoc, Nat.add_comm 1 i]
      exact h (i + 1) (by omega)
    rw [copyLoop_valid (by omega) hfirst, show s + (k + 1 + n) = s + 1 + (k + n) by omega,
      ih hrest, Memory.store_stores, Memory.loads_loads, Memory.cells_loads, region,
      show d + 1 + k = d + (k + 1) by omega, show s + 1 + k = s + (k + 1) by omega,
      Nat.add_comm 1 k]

lemma copyLoop_end (fin : ℕ) (dst : Memory Byte) (d : ℕ) (src : Memory Byte) :
    copyLoop fin dst d src fin = (some fin, dst, src) := by
  rw [copyLoop, if_neg (lt_irrefl fin)]

lemma copyLoop_zero {fin s : ℕ} (hs : s < fin) {src : Memory Byte} (h : src.cells s = 0)
    (dst : Memory Byte) (d : ℕ) : copyLoop fin dst d src s = (some s, dst, src.loads s 1) := by
  rw [copyLoop, if_pos hs, Memory.load_eq]
  exact if_pos h

lemma copyLoop_bad {fin s : ℕ} (hs : s < fin) {src : Memory Byte} (h0 : src.cells s ≠ 0)
    (h : ¬ Valid (src.cells s)) (dst : Memory Byte) (d : ℕ) :
    copyLoop fin dst d src s = (none, dst, src.loads s 1) := by
  have hbad : ¬ syscallIsalnum (src.cells s) = true ∧ src.cells s ≠ ch '_' ∧
      src.cells s ≠ ch '.' := by
    rw [Valid, not_or, not_or] at h
    exact h
  rw [copyLoop, if_pos hs, Memory.load_eq]
  dsimp only
  rw [if_neg h0, if_pos hbad]

/-! ## The copy -/

lemma exists_prefix (cells : ℕ → Byte) (s n : ℕ) :
    ∃ k ≤ n, ValidTo cells s k ∧ (k < n → ¬ Valid (cells (s + k))) := by
  induction n with
  | zero => exact ⟨0, le_rfl, fun i hi => absurd hi (Nat.not_lt_zero i), fun h => absurd h (by omega)⟩
  | succ n ih =>
    obtain ⟨k, hk, hvalid, hstop⟩ := ih
    by_cases hkn : k < n
    · exact ⟨k, by omega, hvalid, fun _ => hstop hkn⟩
    · obtain rfl : k = n := by omega
      by_cases hlast : Valid (cells (s + k))
      · refine ⟨k + 1, le_rfl, fun i hi => ?_, fun h => absurd h (lt_irrefl _)⟩
        by_cases hik : i < k
        · exact hvalid i hik
        · rwa [show i = k by omega]
      · exact ⟨k, by omega, hvalid, fun _ => hlast⟩

variable {src : Memory Byte} {s k : ℕ}

/-- What is left is where the longest valid prefix ends: at the end of the buffer, at the terminator
or at another character. -/
lemma bpfObjNameCpy_eq (dst : Memory Byte) (d : ℕ) (size : BitVec 32) (hk : k ≤ size.toNat)
    (hvalid : ValidTo src.cells s k) (hstop : k < size.toNat → ¬ Valid (src.cells (s + k))) :
    bpfObjNameCpy dst d src s size =
      ⟨if k < size.toNat ∧ src.cells (s + k) = 0 then (BitVec.ofNat 32 k).toInt else -einval,
        (dst.stores d (List.replicate size.toNat 0)).stores d (region src.cells s k),
        src.loads s (min (k + 1) size.toNat)⟩ := by
  obtain ⟨n, hn⟩ : ∃ n, size.toNat = k + n := ⟨size.toNat - k, by omega⟩
  have hloop := copyLoop_prefix (n := n) hvalid (clear size.toNat dst d) d
  rw [clear_eq, ← hn] at hloop
  rw [bpfObjNameCpy, clear_eq, hloop]
  by_cases hlt : k < size.toNat
  · have hs : s + k < s + size.toNat := by omega
    have hreads : min (k + 1) size.toNat = k + 1 := by omega
    by_cases hzero : src.cells (s + k) = 0
    · rw [copyLoop_zero hs (by exact hzero), Memory.loads_loads, if_pos ⟨hlt, hzero⟩, hreads]
      dsimp only
      rw [if_neg (by omega), Nat.add_sub_cancel_left]
    · rw [copyLoop_bad hs (by exact hzero) (by exact hstop hlt), Memory.loads_loads,
        if_neg fun h => hzero h.2, hreads]
  · obtain rfl : n = 0 := by omega
    have hreads : min (k + 1) size.toNat = k := by omega
    rw [show s + size.toNat = s + k by omega, copyLoop_end, if_neg fun h => hlt h.1, hreads]
    dsimp only
    rw [if_pos rfl]

/-- The bytes of the longest valid prefix, and zeros behind it. -/
lemma cells_copied (cells : ℕ → Byte) (d : ℕ) {name : List Byte} {n : ℕ} (h : name.length ≤ n) :
    region (fill (fill cells d (List.replicate n 0)) d name) d n =
      name ++ List.replicate (n - name.length) 0 := by
  have hrest : region (fill (fill cells d (List.replicate n 0)) d name) (d + name.length)
      (n - name.length) = List.replicate (n - name.length) 0 := by
    apply region_eq_replicate
    intro i hi
    have hlen : name.length + i < (List.replicate n (0 : Byte)).length := by
      rw [List.length_replicate]
      omega
    rw [fill_of_outside _ (.inr (by omega)), Nat.add_assoc, fill_apply _ _ hlen,
      List.getElem_replicate]
  have hsplit := region_add (fill (fill cells d (List.replicate n 0)) d name) d name.length
    (n - name.length)
  rwa [Nat.add_sub_cancel' h, region_fill, hrest] at hsplit

lemma toInt_length {n : ℕ} (h : n < 2 ^ 31) : (BitVec.ofNat 32 n).toInt = n := by
  have hnat : (BitVec.ofNat 32 n).toNat = n := by
    rw [BitVec.toNat_ofNat]
    omega
  rw [BitVec.toInt_eq_toNat_of_lt (by omega), hnat]

/-- A longer name has a negative length. -/
lemma toInt_length_neg {n : ℕ} (h : 2 ^ 31 ≤ n) (hlt : n < 2 ^ 32) :
    (BitVec.ofNat 32 n).toInt < 0 := by
  have hnat : (BitVec.ofNat 32 n).toNat = n := by
    rw [BitVec.toNat_ofNat]
    omega
  rw [BitVec.toInt_eq_toNat_cond, hnat, if_neg (by omega)]
  omega

lemma IsName.stop {size n : ℕ} (h : IsName src.cells s size n) (_ : n < size) :
    ¬ Valid (src.cells (s + n)) := by
  rw [h.last]
  exact not_valid_zero

theorem ret_of_isName (dst : Memory Byte) (d : ℕ) {size : BitVec 32} {n : ℕ}
    (h : IsName src.cells s size.toNat n) :
    (bpfObjNameCpy dst d src s size).ret = (BitVec.ofNat 32 n).toInt := by
  rw [bpfObjNameCpy_eq dst d size h.fits.le h.valid h.stop]
  exact if_pos ⟨h.fits, h.last⟩

theorem ret_of_not_isName (dst : Memory Byte) (d : ℕ) {size : BitVec 32}
    (h : ¬ ∃ n, IsName src.cells s size.toNat n) :
    (bpfObjNameCpy dst d src s size).ret = -einval := by
  obtain ⟨k, hk, hvalid, hstop⟩ := exists_prefix src.cells s size.toNat
  rw [bpfObjNameCpy_eq dst d size hk hvalid hstop]
  exact if_neg fun hlast => h ⟨k, hlast.1, hvalid, hlast.2⟩

theorem region_dst (dst : Memory Byte) (d : ℕ) {size : BitVec 32} (hk : k ≤ size.toNat)
    (hvalid : ValidTo src.cells s k) (hstop : k < size.toNat → ¬ Valid (src.cells (s + k))) :
    region (bpfObjNameCpy dst d src s size).dst.cells d size.toNat =
      region src.cells s k ++ List.replicate (size.toNat - k) 0 := by
  have hlen : (region src.cells s k).length = k := length_region src.cells s k
  rw [bpfObjNameCpy_eq dst d size hk hvalid hstop, Memory.cells_stores, Memory.cells_stores,
    cells_copied _ _ (by rwa [hlen]), hlen]

/-- The length comes back where the `int` can hold it. -/
theorem ret_eq_iff (dst : Memory Byte) (d : ℕ) {size : BitVec 32} {n : ℕ} (hn : n < 2 ^ 31) :
    (bpfObjNameCpy dst d src s size).ret = n ↔ IsName src.cells s size.toNat n := by
  constructor
  · intro hret
    by_cases hex : ∃ m, IsName src.cells s size.toNat m
    · obtain ⟨m, hm⟩ := hex
      have hm32 : m < 2 ^ 32 := hm.fits.trans size.isLt
      rw [ret_of_isName dst d hm] at hret
      by_cases hm31 : m < 2 ^ 31
      · rw [toInt_length hm31] at hret
        exact (Int.natCast_inj.mp hret) ▸ hm
      · have hneg := toInt_length_neg (by omega) hm32
        omega
    · rw [ret_of_not_isName dst d hex, einval] at hret
      omega
  · intro h
    rw [ret_of_isName dst d h, toInt_length hn]

/-- A name is copied and its length returned as an `int`; anything else is rejected. The buffer
holds the valid characters and zeros behind them, and nothing else is read or written. -/
theorem bpfObjNameCpy_exact (dst : Memory Byte) (d : ℕ) (src : Memory Byte) (s : ℕ)
    (size : BitVec 32) :
    (∀ n, IsName src.cells s size.toNat n →
      (bpfObjNameCpy dst d src s size).ret = (BitVec.ofNat 32 n).toInt ∧
      region (bpfObjNameCpy dst d src s size).dst.cells d size.toNat =
        region src.cells s n ++ List.replicate (size.toNat - n) 0) ∧
    (∀ n : ℕ, n < 2 ^ 31 → ((bpfObjNameCpy dst d src s size).ret = n ↔
      IsName src.cells s size.toNat n)) ∧
    ((¬ ∃ n, IsName src.cells s size.toNat n) →
      (bpfObjNameCpy dst d src s size).ret = -einval) ∧
    (∃ k ≤ size.toNat, ValidTo src.cells s k ∧ (k < size.toNat → ¬ Valid (src.cells (s + k))) ∧
      region (bpfObjNameCpy dst d src s size).dst.cells d size.toNat =
        region src.cells s k ++ List.replicate (size.toNat - k) 0) ∧
    (∀ a, .read a ∈ (bpfObjNameCpy dst d src s size).src.trace →
      .read a ∈ src.trace ∨ s ≤ a ∧ a < s + size.toNat) ∧
    (∀ a, .write a ∈ (bpfObjNameCpy dst d src s size).dst.trace →
      .write a ∈ dst.trace ∨ d ≤ a ∧ a < d + size.toNat) ∧
    ∀ a, a < d ∨ d + size.toNat ≤ a →
      (bpfObjNameCpy dst d src s size).dst.cells a = dst.cells a := by
  obtain ⟨k, hk, hvalid, hstop⟩ := exists_prefix src.cells s size.toNat
  have heq := bpfObjNameCpy_eq dst d size hk hvalid hstop
  have hlen : (region src.cells s k).length = k := length_region src.cells s k
  refine ⟨fun n h => ⟨ret_of_isName dst d h, region_dst dst d h.fits.le h.valid h.stop⟩,
    fun n hn => ret_eq_iff dst d hn, ret_of_not_isName dst d,
    ⟨k, hk, hvalid, hstop, region_dst dst d hk hvalid hstop⟩, fun a ha => ?_, fun a ha => ?_,
    fun a ha => ?_⟩
  · rw [heq] at ha
    exact (Memory.mem_trace_loads.mp ha).elim (fun h => .inr (by omega)) .inl
  · rw [heq] at ha
    rcases Memory.mem_trace_stores.mp ha with h | h
    · exact .inr (by omega)
    · refine (Memory.mem_trace_stores.mp h).elim (fun h => .inr ?_) .inl
      rwa [List.length_replicate] at h
  · rw [heq, Memory.cells_stores, Memory.cells_stores, fill_of_outside _ (by omega)]
    exact fill_of_outside _ (by rwa [List.length_replicate])

/-- `2 ^ 31` letters and a terminator. -/
def longName : Memory Byte := ⟨fun a => if a < 2 ^ 31 then ch 'a' else 0, []⟩

/-- The name is copied, and its length is negative as an `int`. -/
theorem bpfObjNameCpy_long :
    ¬ (0 ≤ (bpfObjNameCpy ⟨fun _ => 0, []⟩ 0 longName 0 (BitVec.ofNat 32 (2 ^ 31 + 1))).ret ↔
      ∃ n, IsName longName.cells 0 (BitVec.ofNat 32 (2 ^ 31 + 1)).toNat n) := by
  have hsize : (BitVec.ofNat 32 (2 ^ 31 + 1)).toNat = 2 ^ 31 + 1 := by decide
  have hvalid : ValidTo longName.cells 0 (2 ^ 31) := by
    intro i hi
    have hchar : longName.cells (0 + i) = ch 'a' := if_pos (by omega)
    rw [hchar]
    decide
  have hlast : longName.cells (0 + 2 ^ 31) = 0 := by
    show (if 0 + 2 ^ 31 < 2 ^ 31 then ch 'a' else 0) = 0
    exact if_neg (by omega)
  have hname : IsName longName.cells 0 (BitVec.ofNat 32 (2 ^ 31 + 1)).toNat (2 ^ 31) :=
    ⟨by rw [hsize]; omega, hvalid, hlast⟩
  rw [ret_of_isName _ _ hname]
  intro h
  have hneg := toInt_length_neg (n := 2 ^ 31) le_rfl (by omega)
  have hnonneg := h.mpr ⟨2 ^ 31, hname⟩
  omega

/-- The name `a.b` in a buffer of 16 bytes. -/
theorem bpfObjNameCpy_exact_short : (bpfObjNameCpy ⟨fun _ => 0xff, []⟩ 0
    ⟨fun a => ("a.b".toList.map ch).getD a 0, []⟩ 0 16).ret = 3 := by
  have hvalid : ValidTo (fun a => ("a.b".toList.map ch).getD a 0) 0 3 := by
    intro i hi
    interval_cases i <;> decide
  exact ((bpfObjNameCpy_exact _ 0 _ 0 16).2.1 3 (by omega)).mpr ⟨by decide, hvalid, by decide⟩

end BpfVerify.ObjName
