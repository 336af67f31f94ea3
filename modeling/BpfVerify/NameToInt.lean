import BpfVerify.TracedMemory

/-!
# Decimal names

`name_to_int` of `fs/proc/util.c`, which reads the name of a process directory, against the decimal
value of the name.
-/
namespace BpfVerify.NameToInt
open TracedMemory

abbrev Byte := BitVec 8

/-- One round of the loop; `none` where it leaves for `out`. A `char` is signed. -/
def nameStep (n : BitVec 32) (ch : Byte) : Option (BitVec 32) :=
  let c := ch.signExtend 32 - 0x30
  if c > 9 then none
  else if n ≥ (~~~0 - 9) / 10 then none
  else some (n * 10 + c)

def nameLoop (m : Memory Byte) (name : ℕ) (len : ℤ) (n : BitVec 32) : BitVec 32 × Memory Byte :=
  let r := m.load name
  match nameStep n r.1 with
  | none => (~~~0, r.2)
  | some n =>
    let len := len - 1
    if len > 0 then nameLoop r.2 (name + 1) len n else (n, r.2)
termination_by len.toNat
decreasing_by omega

def nameToInt (m : Memory Byte) (name : ℕ) (qstrLen : BitVec 32) : BitVec 32 × Memory Byte :=
  let len := qstrLen.toInt
  if len > 1 then
    let r := m.load name
    if r.1 = 0x30 then (~~~0, r.2) else nameLoop r.2 name len 0
  else nameLoop m name len 0

/-! ## Decimal values -/

def IsDigit (ch : Byte) : Prop := 0x30 ≤ ch.toNat ∧ ch.toNat ≤ 0x39

instance (ch : Byte) : Decidable (IsDigit ch) := inferInstanceAs (Decidable (_ ∧ _))

/-- The value of a text behind digits of value `v`. -/
def valueFrom (v : ℕ) (text : List Byte) : ℕ :=
  text.foldl (fun v ch => 10 * v + (ch.toNat - 0x30)) v

def decimal (text : List Byte) : ℕ := valueFrom 0 text

/-- Digits without a leading zero, of a value below the cut-off. -/
structure Canonical (text : List Byte) : Prop where
  digits : ∀ ch ∈ text, IsDigit ch
  noLeadingZero : 1 < text.length → text.head? ≠ some 0x30
  bound : decimal text ≤ 4294967279

lemma digit_eq : ∀ ch : Byte, if IsDigit ch then
      (ch.signExtend 32 - 0x30).toNat = ch.toNat - 0x30 ∧ ¬ ch.signExtend 32 - 0x30 > 9
    else ch.signExtend 32 - 0x30 > 9 := by
  decide +kernel

lemma le_valueFrom (v : ℕ) (text : List Byte) : v ≤ valueFrom v text := by
  induction text generalizing v with
  | nil => exact le_rfl
  | cons ch text ih => exact le_trans (by omega) (ih (10 * v + (ch.toNat - 0x30)))

/-- A round multiplies without wrapping, or gives up. -/
lemma nameStep_spec (n : BitVec 32) (ch : Byte) :
    if IsDigit ch ∧ 10 * n.toNat + (ch.toNat - 0x30) ≤ 4294967279 then
      ∃ n', nameStep n ch = some n' ∧ n'.toNat = 10 * n.toNat + (ch.toNat - 0x30)
    else nameStep n ch = none := by
  have hdigit := digit_eq ch
  have hcut : ((~~~0 - 9) / 10 : BitVec 32).toNat = 429496728 := by decide
  by_cases hd : IsDigit ch
  · rw [if_pos hd] at hdigit
    obtain ⟨hc, hle⟩ := hdigit
    have hd9 : ch.toNat - 0x30 ≤ 9 := by
      have := hd.2
      omega
    rw [nameStep, if_neg hle]
    by_cases hn : n ≥ (~~~0 - 9) / 10
    · have hn' : 429496728 ≤ n.toNat := hcut ▸ BitVec.le_def.mp hn
      rw [if_pos hn, if_neg (by omega)]
    · have hn' : n.toNat < 429496728 := hcut ▸ BitVec.lt_def.mp (BitVec.not_le.mp hn)
      rw [if_neg hn, if_pos ⟨hd, by omega⟩]
      refine ⟨_, rfl, ?_⟩
      rw [BitVec.toNat_add, BitVec.toNat_mul, hc, show (10 : BitVec 32).toNat = 10 from rfl]
      omega
  · rw [if_neg hd] at hdigit
    rw [if_neg fun h => hd h.1, nameStep]
    exact if_pos hdigit

/-! ## The scan -/

/-- The accumulator behind a text, or `none` where the loop is left within it. -/
def scan (n : BitVec 32) (text : List Byte) : Option (BitVec 32) := text.foldlM nameStep n

lemma scan_cons (n : BitVec 32) (ch : Byte) (text : List Byte) :
    scan n (ch :: text) = (nameStep n ch).bind fun n' => scan n' text := List.foldlM_cons

/-- The accumulator is the decimal value itself, so that it has not wrapped. -/
lemma toNat_scan {n n' : BitVec 32} {text : List Byte} (h : scan n text = some n') :
    n'.toNat = valueFrom n.toNat text := by
  induction text generalizing n with
  | nil =>
    cases h
    rfl
  | cons ch text ih =>
    have hstep := nameStep_spec n ch
    rw [scan_cons] at h
    split_ifs at hstep with hgo
    · obtain ⟨n₁, hn₁, hval⟩ := hstep
      rw [hn₁, Option.bind_some] at h
      rw [ih h, hval]
      rfl
    · rw [hstep] at h
      cases h

/-- A text of digits is scanned to its end where its value stays below the cut-off. -/
lemma isSome_scan {n : BitVec 32} {text : List Byte} (hne : text ≠ []) :
    (scan n text).isSome = true ↔
      (∀ ch ∈ text, IsDigit ch) ∧ valueFrom n.toNat text ≤ 4294967279 := by
  induction text generalizing n with
  | nil => exact absurd rfl hne
  | cons ch text ih =>
    have hstep := nameStep_spec n ch
    have hval : valueFrom n.toNat (ch :: text) =
        valueFrom (10 * n.toNat + (ch.toNat - 0x30)) text := rfl
    have hle := le_valueFrom (10 * n.toNat + (ch.toNat - 0x30)) text
    rw [scan_cons, List.forall_mem_cons, hval]
    split_ifs at hstep with hgo
    · obtain ⟨n₁, hn₁, hnat⟩ := hstep
      rw [hn₁, Option.bind_some, ← hnat]
      cases text with
      | nil =>
        refine iff_of_true rfl ⟨⟨hgo.1, by simp⟩, ?_⟩
        rw [hnat]
        exact hgo.2
      | cons ch' text =>
        rw [ih (List.cons_ne_nil ch' text), and_iff_right hgo.1]
    · rw [hstep]
      refine iff_of_false Bool.false_ne_true fun h => hgo ⟨h.1.1, hle.trans h.2⟩

/-! ## The loop -/

lemma nameLoop_out {m : Memory Byte} {name : ℕ} {n : BitVec 32}
    (h : nameStep n (m.cells name) = none) (len : ℤ) :
    nameLoop m name len n = (~~~0, m.loads name 1) := by
  rw [nameLoop, Memory.load_eq, h]

lemma nameLoop_some {m : Memory Byte} {name : ℕ} {n n' : BitVec 32}
    (h : nameStep n (m.cells name) = some n') (len : ℤ) : nameLoop m name len n =
      if len - 1 > 0 then nameLoop (m.loads name 1) (name + 1) (len - 1) n'
      else (n', m.loads name 1) := by
  rw [nameLoop, Memory.load_eq, h]

/-- The loop scans the characters of the name, of which there is at least one, up to some. -/
lemma nameLoop_eq (m : Memory Byte) (name k : ℕ) (n : BitVec 32) :
    ∃ j ≤ k + 1, nameLoop m name ((k + 1 : ℕ) : ℤ) n =
      ((scan n (region m.cells name (k + 1))).getD (~~~0), m.loads name j) := by
  induction k generalizing m name n with
  | zero =>
    rw [region, scan_cons]
    cases hstep : nameStep n (m.cells name) with
    | none => exact ⟨1, le_rfl, nameLoop_out hstep _⟩
    | some n' =>
      refine ⟨1, le_rfl, ?_⟩
      rw [nameLoop_some hstep, if_neg (by simp)]
      rfl
  | succ k ih =>
    rw [region, scan_cons]
    cases hstep : nameStep n (m.cells name) with
    | none => exact ⟨1, by omega, nameLoop_out hstep _⟩
    | some n' =>
      obtain ⟨j, hj, heq⟩ := ih (m.loads name 1) (name + 1) n'
      refine ⟨1 + j, by omega, ?_⟩
      have hlen : ((k + 1 + 1 : ℕ) : ℤ) - 1 = ((k + 1 : ℕ) : ℤ) := by
        push_cast
        ring
      rw [nameLoop_some hstep, hlen, if_pos (by positivity), heq, Memory.loads_loads]
      rfl

/-! ## The whole name -/

section Name
variable {m : Memory Byte} {name : ℕ} {len : BitVec 32}

lemma toInt_len (h1 : 1 ≤ len.toNat) (h2 : len.toNat < 2 ^ 31) :
    len.toInt = ((len.toNat - 1 + 1 : ℕ) : ℤ) := by
  rw [Nat.sub_add_cancel h1, BitVec.toInt_eq_toNat_of_lt (by omega)]

lemma head_region (cells : ℕ → Byte) (a : ℕ) {n : ℕ} (h : 1 ≤ n) :
    (region cells a n).head? = some (cells a) := by
  obtain ⟨k, rfl⟩ : ∃ k, n = k + 1 := ⟨n - 1, by omega⟩
  rfl

/-- A name is scanned, but for one with a leading zero, and no character behind it is read. -/
lemma nameToInt_eq (m : Memory Byte) (name : ℕ) (h1 : 1 ≤ len.toNat) (h2 : len.toNat < 2 ^ 31) :
    (nameToInt m name len).1 = (if 1 < len.toNat ∧ m.cells name = 0x30 then ~~~0
      else (scan 0 (region m.cells name len.toNat)).getD (~~~0)) ∧
    ∀ a, .read a ∈ (nameToInt m name len).2.trace →
      .read a ∈ m.trace ∨ name ≤ a ∧ a < name + len.toNat := by
  have hint := toInt_len h1 h2
  have hreads (m : Memory Byte) {j : ℕ} (hj : j ≤ len.toNat) (a : ℕ)
      (ha : .read a ∈ (m.loads name j).trace) : .read a ∈ m.trace ∨ name ≤ a ∧ a < name + len.toNat :=
    (Memory.mem_trace_loads.mp ha).elim (fun h => .inr (by omega)) .inl
  obtain ⟨j, hj, hloop⟩ := nameLoop_eq m name (len.toNat - 1) 0
  obtain ⟨j', hj', hloop'⟩ := nameLoop_eq (m.loads name 1) name (len.toNat - 1) 0
  rw [← hint, Nat.sub_add_cancel h1] at hloop hloop'
  rw [Nat.sub_add_cancel h1] at hj hj' hint
  rw [nameToInt, Memory.load_eq]
  by_cases hlen : 1 < len.toNat
  · rw [if_pos (show len.toInt > 1 by omega)]
    by_cases hzero : m.cells name = 0x30
    · rw [if_pos hzero, if_pos ⟨hlen, hzero⟩]
      exact ⟨rfl, hreads m h1⟩
    · rw [if_neg hzero, if_neg fun h => hzero h.2, hloop']
      exact ⟨rfl, fun a ha => (hreads _ hj' a ha).elim (hreads m h1 a) .inr⟩
  · rw [if_neg (show ¬ len.toInt > 1 by omega), if_neg fun h => hlen h.1, hloop]
    exact ⟨rfl, hreads m hj⟩

lemma canonical_iff (h1 : 1 ≤ len.toNat) : Canonical (region m.cells name len.toNat) ↔
    ¬ (1 < len.toNat ∧ m.cells name = 0x30) ∧
      (scan 0 (region m.cells name len.toNat)).isSome = true := by
  have hne : region m.cells name len.toNat ≠ [] := by
    intro h
    have hlen := length_region m.cells name len.toNat
    rw [h, List.length_nil] at hlen
    omega
  rw [isSome_scan hne]
  constructor
  · rintro ⟨hdigits, hzero, hbound⟩
    refine ⟨fun ⟨hlen, h0⟩ => hzero (by rwa [length_region]) ?_, hdigits, hbound⟩
    rw [head_region _ _ h1, h0]
  · rintro ⟨hzero, hdigits, hbound⟩
    refine ⟨hdigits, fun hlen h0 => hzero ⟨by rwa [length_region] at hlen, ?_⟩, hbound⟩
    rw [head_region _ _ h1] at h0
    exact Option.some.inj h0

theorem nameToInt_canonical (h1 : 1 ≤ len.toNat) (h2 : len.toNat < 2 ^ 31)
    (h : Canonical (region m.cells name len.toNat)) :
    (nameToInt m name len).1.toNat = decimal (region m.cells name len.toNat) := by
  obtain ⟨hzero, hscan⟩ := (canonical_iff h1).mp h
  obtain ⟨n', hn'⟩ := Option.isSome_iff_exists.mp hscan
  rw [(nameToInt_eq m name h1 h2).1, if_neg hzero, hn', Option.getD_some, toNat_scan hn']
  rfl

theorem nameToInt_other (h1 : 1 ≤ len.toNat) (h2 : len.toNat < 2 ^ 31)
    (h : ¬ Canonical (region m.cells name len.toNat)) : (nameToInt m name len).1 = ~~~0 := by
  rw [canonical_iff h1, not_and] at h
  rw [(nameToInt_eq m name h1 h2).1]
  by_cases hzero : 1 < len.toNat ∧ m.cells name = 0x30
  · rw [if_pos hzero]
  · rw [if_neg hzero, Option.not_isSome_iff_eq_none.mp (h hzero), Option.getD_none]

end Name

/-! ## Canonical names have different values -/

def digit (ch : Byte) : ℕ := ch.toNat - 0x30

lemma valueFrom_eq (v : ℕ) (text : List Byte) :
    valueFrom v text = 10 ^ text.length * v + Nat.ofDigits 10 (text.map digit).reverse := by
  induction text generalizing v with
  | nil => simp [valueFrom]
  | cons ch text ih =>
    have hcons : valueFrom v (ch :: text) = valueFrom (10 * v + digit ch) text := rfl
    rw [hcons, ih, List.map_cons, List.reverse_cons, Nat.ofDigits_append, Nat.ofDigits_singleton,
      List.length_cons, List.length_reverse, List.length_map]
    ring

/-- The decimal digits of the value are those of the text, but for the text `0`. -/
lemma digits_decimal {text : List Byte} (h : Canonical text) (h0 : text ≠ [0x30]) :
    Nat.digits 10 (decimal text) = (text.map digit).reverse := by
  rw [decimal, valueFrom_eq, Nat.mul_zero, Nat.zero_add]
  apply Nat.digits_ofDigits 10 (by decide)
  · intro d hd
    obtain ⟨ch, hch, rfl⟩ := List.mem_map.mp (List.mem_reverse.mp hd)
    have hdigit := h.digits ch hch
    rw [digit]
    have := hdigit.2
    omega
  · intro hne hlast
    cases text with
    | nil => exact hne rfl
    | cons ch text =>
      have hzero : ch.toNat - 0x30 = 0 := by
        simpa [digit] using hlast
      have hch : ch = 0x30 := by
        apply BitVec.eq_of_toNat_eq
        have hdigit := (h.digits ch List.mem_cons_self).1
        show ch.toNat = 0x30
        omega
      cases text with
      | nil => exact h0 (by rw [hch])
      | cons ch' text => exact h.noLeadingZero (by simp) (by rw [hch]; rfl)

lemma digit_inj {ch ch' : Byte} (h : IsDigit ch) (h' : IsDigit ch') (heq : digit ch = digit ch') :
    ch = ch' := by
  apply BitVec.eq_of_toNat_eq
  have hlow := h.1
  have hlow' := h'.1
  rw [digit, digit] at heq
  omega

lemma map_digit_inj {text text' : List Byte} (h : ∀ ch ∈ text, IsDigit ch)
    (h' : ∀ ch ∈ text', IsDigit ch) (heq : text.map digit = text'.map digit) : text = text' := by
  induction text generalizing text' with
  | nil => exact (List.map_eq_nil_iff.mp heq.symm).symm
  | cons ch text ih =>
    cases text' with
    | nil => simp at heq
    | cons ch' text' =>
      rw [List.map_cons, List.map_cons, List.cons.injEq] at heq
      rw [List.forall_mem_cons] at h h'
      rw [digit_inj h.1 h'.1 heq.1, ih h.2 h'.2 heq.2]

theorem decimal_inj {text text' : List Byte} (h : Canonical text) (h' : Canonical text')
    (hne : text ≠ []) (hne' : text' ≠ []) (heq : decimal text = decimal text') : text = text' := by
  have hzero {l : List Byte} (hl : Canonical l) (hlne : l ≠ []) (hval : decimal l = 0) :
      l = [0x30] := by
    by_contra hl0
    have hdigits := digits_decimal hl hl0
    rw [hval, Nat.digits_zero, eq_comm, List.reverse_eq_nil_iff, List.map_eq_nil_iff] at hdigits
    exact hlne hdigits
  by_cases h0 : text = [0x30]
  · rw [h0] at heq
    rw [h0, hzero h' hne' heq.symm]
  · by_cases h0' : text' = [0x30]
    · rw [h0'] at heq
      rw [h0', hzero h hne heq]
    · have hdigits := digits_decimal h h0
      rw [heq, digits_decimal h' h0', List.reverse_inj] at hdigits
      exact map_digit_inj h.digits h'.digits hdigits.symm

/-- The canonical decimals up to the cut-off are accepted, with different values, and nothing else;
the accumulator does not wrap, and nothing behind the name is read. -/
theorem nameToInt_exact (m : Memory Byte) (name : ℕ) (len : BitVec 32) (h1 : 1 ≤ len.toNat)
    (h2 : len.toNat < 2 ^ 31) :
    (Canonical (region m.cells name len.toNat) →
      (nameToInt m name len).1.toNat = decimal (region m.cells name len.toNat) ∧
      (nameToInt m name len).1 ≠ ~~~0) ∧
    (¬ Canonical (region m.cells name len.toNat) → (nameToInt m name len).1 = ~~~0) ∧
    (∀ k n', scan 0 (region m.cells name k) = some n' →
      n'.toNat = decimal (region m.cells name k)) ∧
    (∀ a, .read a ∈ (nameToInt m name len).2.trace →
      .read a ∈ m.trace ∨ name ≤ a ∧ a < name + len.toNat) ∧
    ∀ (m' : Memory Byte) (name' : ℕ) (len' : BitVec 32), 1 ≤ len'.toNat → len'.toNat < 2 ^ 31 →
      (nameToInt m name len).1 ≠ ~~~0 → (nameToInt m' name' len').1 = (nameToInt m name len).1 →
      region m'.cells name' len'.toNat = region m.cells name len.toNat := by
  have hne {m : Memory Byte} {name : ℕ} {len : BitVec 32} (h1 : 1 ≤ len.toNat) :
      region m.cells name len.toNat ≠ [] := by
    intro h
    have hlen := length_region m.cells name len.toNat
    rw [h, List.length_nil] at hlen
    omega
  refine ⟨fun h => ?_, nameToInt_other h1 h2, fun k n' => toNat_scan,
    (nameToInt_eq m name h1 h2).2, ?_⟩
  · have hval := nameToInt_canonical h1 h2 h
    refine ⟨hval, fun heq => ?_⟩
    have hbound := h.bound
    rw [heq, show (~~~0 : BitVec 32).toNat = 4294967295 from rfl] at hval
    omega
  · intro m' name' len' h1' h2' hok heq
    have hcan : Canonical (region m.cells name len.toNat) := by
      by_contra hnot
      exact hok (nameToInt_other h1 h2 hnot)
    have hcan' : Canonical (region m'.cells name' len'.toNat) := by
      by_contra hnot
      exact hok (heq ▸ nameToInt_other h1' h2' hnot)
    apply decimal_inj hcan' hcan (hne h1') (hne h1)
    rw [← nameToInt_canonical h1 h2 hcan, ← nameToInt_canonical h1' h2' hcan', heq]

/-- The text `4294967279`. -/
def greatest : Memory Byte :=
  ⟨fun a => [0x34, 0x32, 0x39, 0x34, 0x39, 0x36, 0x37, 0x32, 0x37, 0x39].getD a 0, []⟩

theorem nameToInt_exact_greatest : (nameToInt greatest 0 10).1.toNat = 4294967279 := by
  have hcan : Canonical (region greatest.cells 0 10) := ⟨by decide, by decide, by decide⟩
  exact ((nameToInt_exact greatest 0 10 (by decide) (by decide)).1 hcan).1

end BpfVerify.NameToInt
