import BpfVerify.DiffSeed

/-!
# The differential comparator

`main` of `tools/diff_compare.py` on the bytes of the two output files. The runner writes one
word of eight bytes an iteration; what the comparator makes of a file that is cut short follows
from the words that are left.
-/
namespace BpfVerify.DiffCompare
open DiffSeed

/-- One `Q` of `struct.unpack`. -/
def unpackWord (data : List UInt8) : ℕ := Nat.ofDigits 256 (data.map UInt8.toNat)

/-- `load` on the content of a file; the length is rounded down to whole words. -/
def load (data : List UInt8) : List ℕ :=
  let n := data.length / 8
  let data := data.take (n * 8)
  (List.range n).map fun i => unpackWord ((data.drop (8 * i)).take 8)

/-- What `main` prints and returns: the two lengths it warns about, the divergences it shows, the
number of mismatches, and the exit status. -/
structure Output where
  lengthMismatch : Option (ℕ × ℕ)
  divergences : List Divergence
  mismatches : ℕ
  status : ℕ

def main (base : ℕ) (maxReport : ℤ) (native bpf : List UInt8) : Output :=
  let nat := load native
  let bpf := load bpf
  let n := min nat.length bpf.length
  let out := (List.range n).foldl (compareStep base maxReport nat bpf) ([], 0)
  { lengthMismatch := if nat.length ≠ bpf.length then some (nat.length, bpf.length) else none
    divergences := out.1
    mismatches := out.2
    status := if out.2 ≠ 0 then 1 else 0 }

/-! ## Agreement -/

section
variable (base : ℕ) (maxReport : ℤ)

/-- The loop counts the indices at which the words differ. -/
lemma mismatches_foldl (nat bpf : List ℕ) (is : List ℕ) (acc : List Divergence × ℕ) :
    (is.foldl (compareStep base maxReport nat bpf) acc).2 =
      acc.2 + is.countP fun i => nat.getD i 0 ≠ bpf.getD i 0 := by
  induction is generalizing acc with
  | nil => rfl
  | cons i is ih =>
    rw [List.foldl_cons, ih, List.countP_cons]
    by_cases hi : nat.getD i 0 = bpf.getD i 0
    · simp only [compareStep, ne_eq, hi, not_true_eq_false, if_false, decide_false,
        Bool.false_eq_true]
      rfl
    · simp only [compareStep, ne_eq, hi, not_false_eq_true, if_true, decide_true]
      omega

/-- Words at equal indices are equal up to `n`, an index both lists have. -/
lemma take_eq_iff {xs ys : List ℕ} {n : ℕ} (hx : n ≤ xs.length) (hy : n ≤ ys.length) :
    xs.take n = ys.take n ↔ ∀ i < n, xs.getD i 0 = ys.getD i 0 := by
  have hget : ∀ (zs : List ℕ), n ≤ zs.length → ∀ i < n,
      (zs.take n)[i]? = some (zs.getD i 0) := by
    intro zs hz i hi
    have hlt : i < zs.length := lt_of_lt_of_le hi hz
    rw [List.getElem?_take_of_lt hi, List.getElem?_eq_getElem hlt,
      List.getD_eq_getElem?_getD, List.getElem?_eq_getElem hlt, Option.getD_some]
  constructor
  · intro heq i hi
    have hxi := hget xs hx i hi
    rw [heq, hget ys hy i hi, Option.some_inj] at hxi
    exact hxi.symm
  · intro heq
    apply List.ext_getElem?
    intro i
    by_cases hi : i < n
    · rw [hget xs hx i hi, hget ys hy i hi, heq i hi]
    · rw [List.getElem?_eq_none (by rw [List.length_take]; omega),
        List.getElem?_eq_none (by rw [List.length_take]; omega)]

variable {base maxReport}

lemma status_eq_zero_iff {native bpf : List UInt8} {n : ℕ}
    (hn : n = min (load native).length (load bpf).length) :
    (main base maxReport native bpf).status = 0 ↔ (load native).take n = (load bpf).take n := by
  have hcount := mismatches_foldl base maxReport (load native) (load bpf) (List.range n) ([], 0)
  have hstatus : (main base maxReport native bpf).status = 0 ↔ (List.range n).countP
      (fun i => (load native).getD i 0 ≠ (load bpf).getD i 0) = 0 := by
    simp only [main, ← hn, hcount, Nat.zero_add, ite_eq_right_iff, one_ne_zero, imp_false,
      not_not]
  rw [hstatus, List.countP_eq_zero, take_eq_iff (by omega) (by omega)]
  simp only [List.mem_range, ne_eq, decide_not, Bool.not_eq_true', decide_eq_false_iff_not,
    not_not]

/-- The comparator returns 0 iff the files hold the same words as far as the shorter one goes,
and 1 otherwise. It warns iff one is shorter. -/
theorem main_compares (base : ℕ) (maxReport : ℤ) (native bpf : List UInt8) :
    ((main base maxReport native bpf).status = 0 ↔
      (load native).take (min (load native).length (load bpf).length) =
        (load bpf).take (min (load native).length (load bpf).length)) ∧
    ((main base maxReport native bpf).status = 0 ∨
      (main base maxReport native bpf).status = 1) ∧
    ((main base maxReport native bpf).lengthMismatch =
      if (load native).length = (load bpf).length then none
      else some ((load native).length, (load bpf).length)) ∧
    ((load native).length = (load bpf).length →
      ((main base maxReport native bpf).status = 0 ↔ load native = load bpf)) := by
  refine ⟨status_eq_zero_iff rfl, ?_, ?_, ?_⟩
  · unfold main
    dsimp only
    split_ifs
    · exact .inr rfl
    · exact .inl rfl
  · by_cases hlen : (load native).length = (load bpf).length
    · simp [main, hlen]
    · simp [main, hlen]
  · intro hlen
    rw [status_eq_zero_iff rfl, ← hlen, Nat.min_self, List.take_length, hlen, List.take_length]

end

/-! ## Files that the runner writes -/

/-- The eight bytes of a `fwrite` of a word, on a little-endian machine. -/
def wordBytes (w : UInt64) : List UInt8 :=
  (List.range 8).map fun j => UInt8.ofNat (w.toNat / 256 ^ j)

/-- The content of a file with these outputs. -/
def dump (outs : List UInt64) : List UInt8 := outs.flatMap wordBytes

lemma length_dump (outs : List UInt64) : (dump outs).length = 8 * outs.length := by
  induction outs with
  | nil => rfl
  | cons w outs ih =>
    rw [dump, List.flatMap_cons, List.length_append, ← dump, ih, List.length_cons, wordBytes,
      List.length_map, List.length_range]
    omega

lemma unpackWord_wordBytes (w : UInt64) : unpackWord (wordBytes w) = w.toNat := by
  have hlt : w.toNat < 2 ^ 64 := w.toNat_lt
  have hbyte : ∀ n : ℕ, (UInt8.ofNat n).toNat = n % 256 := fun n => UInt8.toNat_ofNat'
  simp only [unpackWord, wordBytes, List.range_succ, List.range_zero, List.nil_append,
    List.map_cons, List.map_nil, hbyte, List.cons_append, Nat.ofDigits_cons,
    Nat.ofDigits_nil, Nat.reducePow]
  omega

lemma load_nil_of_short {data : List UInt8} (h : data.length < 8) : load data = [] := by
  have hn : data.length / 8 = 0 := by omega
  simp [load, hn]

/-- A whole word is the first word of the file. -/
lemma load_append {word : List UInt8} (hw : word.length = 8) (data : List UInt8) :
    load (word ++ data) = unpackWord word :: load data := by
  have hn : (word ++ data).length / 8 = data.length / 8 + 1 := by
    rw [List.length_append, hw]
    omega
  have htake : (word ++ data).take ((data.length / 8 + 1) * 8) =
      word ++ data.take (data.length / 8 * 8) := by
    rw [List.take_append, hw, List.take_of_length_le (by omega)]
    congr 2
    omega
  simp only [load, hn, htake, List.range_succ_eq_map, List.map_cons, List.map_map]
  congr 1
  · rw [Nat.mul_zero, List.drop_zero, ← hw, List.take_left]
  · apply List.map_congr_left
    intro i _
    have hi : 8 * (i + 1) = word.length + 8 * i := by omega
    simp only [Function.comp_apply, Nat.succ_eq_add_one, hi, List.drop_length_add_append]

/-- A file that was cut after `k` bytes holds the words written whole. -/
theorem load_dump_take (outs : List UInt64) (k : ℕ) :
    load ((dump outs).take k) = (outs.take (k / 8)).map UInt64.toNat := by
  induction outs generalizing k with
  | nil =>
    rw [dump, List.flatMap_nil, List.take_nil, List.take_nil, List.map_nil]
    exact load_nil_of_short (by decide)
  | cons w outs ih =>
    have hw : (wordBytes w).length = 8 := by rw [wordBytes, List.length_map, List.length_range]
    have hdump : dump (w :: outs) = wordBytes w ++ dump outs := List.flatMap_cons
    by_cases hk : k < 8
    · rw [load_nil_of_short (by rw [List.length_take]; omega), Nat.div_eq_of_lt hk,
        List.take_zero, List.map_nil]
    · have hk8 : k / 8 = (k - 8) / 8 + 1 := by omega
      rw [hdump, List.take_append, hw, List.take_of_length_le (by omega), load_append hw,
        unpackWord_wordBytes, ih, hk8, List.take_succ_cons, List.map_cons]

/-- What was written is read back. -/
theorem load_dump (outs : List UInt64) : load (dump outs) = outs.map UInt64.toNat := by
  have hall := load_dump_take outs (dump outs).length
  rwa [List.take_length, length_dump, Nat.mul_div_cancel_left _ (by decide),
    List.take_length] at hall

/-- A run that stopped early, at any byte, agrees with the run it was a part of. -/
theorem stopped_agrees (base : ℕ) (maxReport : ℤ) (outs : List UInt64) (k : ℕ) :
    (main base maxReport (dump outs) ((dump outs).take k)).status = 0 := by
  rw [status_eq_zero_iff rfl, load_dump, load_dump_take, ← List.map_take, ← List.map_take]
  congr 1
  rw [List.take_take]
  congr 1
  simp only [List.length_map, List.length_take]
  omega

/-- An empty file agrees with a file of one word. -/
theorem empty_agrees :
    load [0, 0, 0, 0, 0, 0, 0, 0] ≠ load [] ∧
      (main 0x1234567 10 [0, 0, 0, 0, 0, 0, 0, 0] []).status = 0 := by
  decide

end BpfVerify.DiffCompare
