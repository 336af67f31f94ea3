import BpfVerify.TracedMemory
import BpfVerify.Word

/-!
# Escape sequences

`string_unescape` of `lib/string_helpers.c`, with its four helpers and `hex_to_bin` of
`lib/hexdump.c`. Pointers are addresses of one memory, so that a string may be decoded in place.
-/
namespace BpfVerify.Unescape
open TracedMemory Word

abbrev Byte := BitVec 8

def ch (c : Char) : Byte := BitVec.ofNat 8 c.toNat

def unescapeSpaceFlag : BitVec 32 := 1

def unescapeOctalFlag : BitVec 32 := 2

def unescapeHexFlag : BitVec 32 := 4

def unescapeSpecialFlag : BitVec 32 := 8

/-- A `char` is signed. -/
def isodigit (c : Byte) : Bool := (ch '0').sle c && c.sle (ch '7')

/-- An `int` that is computed as `unsigned`. -/
def hexToBin (c : Byte) : ℤ :=
  let c32 : BitVec 32 := c.setWidth 32
  let cu : BitVec 32 := (c &&& 0xdf).setWidth 32
  let char (x : Char) : BitVec 32 := BitVec.ofNat 32 x.toNat
  (-1 + ((c32 - char '0' + 1) &&& (((c32 - char '9' - 1) &&& (char '0' - 1 - c32)) >>> 8)) +
    ((cu - char 'A' + 11) &&& (((cu - char 'F' - 1) &&& (char 'A' - 1 - cu)) >>> 8))).toInt

/-- A helper that does not match returns `false` and leaves both pointers; otherwise they are
behind what was read and written. -/
abbrev Helper := Memory Byte → ℕ → ℕ → Option (ℕ × ℕ) × Memory Byte

/-- The helpers for one letter, which stands for another byte. -/
def unescapeLetter (letters : List (Byte × Byte)) : Helper := fun m src dst =>
  let (c, m) := m.load src
  match letters.lookup c with
  | some b => (some (src + 1, dst + 1), m.store dst b)
  | none => (none, m)

def spaceLetters : List (Byte × Byte) :=
  [(ch 'n', 0x0a), (ch 'r', 0x0d), (ch 't', 0x09), (ch 'v', 0x0b), (ch 'f', 0x0c)]

def specialLetters : List (Byte × Byte) :=
  [(ch '"', ch '"'), (ch '\\', ch '\\'), (ch 'a', 0x07), (ch 'e', 0x1b)]

def unescapeSpace : Helper := unescapeLetter spaceLetters

def unescapeSpecial : Helper := unescapeLetter specialLetters

/-- `while (num < 32 && isodigit(*q) && (q - *src < 3))`. -/
def octalLoop (m : Memory Byte) (src q : ℕ) (num : Byte) : Byte × ℕ × Memory Byte :=
  if num < 32 then
    let r := m.load q
    if isodigit r.1 = true ∧ q - src < 3 then
      octalLoop r.2 src (q + 1) ((num <<< 3) + (r.1 &&& 7))
    else (num, q, r.2)
  else (num, q, m)
termination_by src + 3 - q

def unescapeOctal : Helper := fun m src dst =>
  let (c, m) := m.load src
  if isodigit c = true then
    let (num, q, m) := octalLoop m src (src + 1) (c &&& 7)
    (some (q, dst + 1), m.store dst num)
  else (none, m)

def unescapeHex : Helper := fun m src dst =>
  let (c, m) := m.load src
  if c ≠ ch 'x' then (none, m)
  else
    let (c, m) := m.load (src + 1)
    let digit := hexToBin c
    if digit < 0 then (none, m)
    else
      let num := BitVec.ofInt 8 digit
      let (c, m) := m.load (src + 2)
      let digit := hexToBin c
      if 0 ≤ digit then (some (src + 3, dst + 1), m.store dst ((num <<< 4) ||| BitVec.ofInt 8 digit))
      else (some (src + 2, dst + 1), m.store dst num)

/-- `if (enabled && helper(&src, &out)) continue`. -/
def tryHelper (enabled : Bool) (helper next : Helper) : Helper := fun m src dst =>
  if enabled then
    match helper m src dst with
    | (some r, m) => (some r, m)
    | (none, m) => next m src dst
  else next m src dst

/-- The helpers in the order of the source. -/
def unescapeAny (flags : BitVec 32) : Helper :=
  tryHelper (flags &&& unescapeSpaceFlag != 0) unescapeSpace
    (tryHelper (flags &&& unescapeOctalFlag != 0) unescapeOctal
      (tryHelper (flags &&& unescapeHexFlag != 0) unescapeHex
        (tryHelper (flags &&& unescapeSpecialFlag != 0) unescapeSpecial fun m _ _ => (none, m))))

/-- `while (*src && --size)`, with `fuel` for the number of tests. It returns `out`. -/
def unescapeLoop (flags : BitVec 32) : ℕ → Memory Byte → ℕ → ℕ → ℕ → Option (ℕ × Memory Byte)
  | 0, _, _, _, _ => none
  | fuel + 1, m, src, out, size =>
    let (c, m) := m.load src
    if c = 0 then some (out, m)
    else
      let size := sub64 size 1
      if size = 0 then some (out, m)
      else
        let (c, m) := m.load src
        -- `src[1]` is only read behind a backslash
        let (next, m) := if c = ch '\\' then m.load (src + 1) else (0, m)
        if c = ch '\\' ∧ next ≠ 0 ∧ 1 < size then
          let size := sub64 size 1
          match unescapeAny flags m (src + 1) out with
          | (some (src, out), m) => unescapeLoop flags fuel m src out size
          | (none, m) =>
            let m := m.store out (ch '\\')
            let (c, m) := m.load (src + 1)
            unescapeLoop flags fuel (m.store (out + 1) c) (src + 2) (out + 2) size
        else
          let (c, m) := m.load src
          unescapeLoop flags fuel (m.store out c) (src + 1) (out + 1) size

/-- `SIZE_MAX` stands for no limit, and `out - dst` is returned as an `int`. -/
def stringUnescape (flags : BitVec 32) (fuel : ℕ) (m : Memory Byte) (src dst size : ℕ) :
    Option (ℤ × Memory Byte) :=
  let size := if size = 0 then 2 ^ 64 - 1 else size
  (unescapeLoop flags fuel m src dst size).map fun (out, m) =>
    ((BitVec.ofNat 32 (out - dst)).toInt, m.store out 0)

/-! ## What is to be decoded -/

/-- What a helper is for: the byte that stands for the first character and some behind it, with
the number of these. -/
abbrev Escape := List Byte → Option (Byte × ℕ)

def letter (letters : List (Byte × Byte)) : Escape
  | [] => none
  | c :: _ => (letters.lookup c).map fun b => (b, 0)

def octalValue (c : Byte) : Option ℕ :=
  if 0x30 ≤ c.toNat ∧ c.toNat ≤ 0x37 then some (c.toNat - 0x30) else none

def hexValue (c : Byte) : Option ℕ :=
  if 0x30 ≤ c.toNat ∧ c.toNat ≤ 0x39 then some (c.toNat - 0x30)
  else if 0x41 ≤ c.toNat ∧ c.toNat ≤ 0x46 then some (c.toNat - 0x41 + 10)
  else if 0x61 ≤ c.toNat ∧ c.toNat ≤ 0x66 then some (c.toNat - 0x61 + 10)
  else none

/-- The value and the number of at most `k` more digits after the value `v`, which must stay a
byte. -/
def octalDigits : ℕ → ℕ → List Byte → ℕ × ℕ
  | 0, v, _ => (v, 0)
  | _ + 1, v, [] => (v, 0)
  | k + 1, v, c :: l =>
    match octalValue c with
    | some d =>
      if 8 * v + d ≤ 255 then
        let (v', n) := octalDigits k (8 * v + d) l
        (v', n + 1)
      else (v, 0)
    | none => (v, 0)

def octal : Escape
  | [] => none
  | c :: l => (octalValue c).map fun v =>
    let (v', n) := octalDigits 2 v l
    (BitVec.ofNat 8 v', n)

def hex : Escape
  | c :: d :: l =>
    if c = ch 'x' then
      match hexValue d, l.head?.bind hexValue with
      | none, _ => none
      | some v, none => some (BitVec.ofNat 8 v, 1)
      | some v, some w => some (BitVec.ofNat 8 (16 * v + w), 2)
    else none
  | _ => none

/-- The first enabled match. -/
def escape (flags : BitVec 32) : Escape := fun l =>
  (if flags &&& unescapeSpaceFlag ≠ 0 then letter spaceLetters l else none) <|>
  (if flags &&& unescapeOctalFlag ≠ 0 then octal l else none) <|>
  (if flags &&& unescapeHexFlag ≠ 0 then hex l else none) <|>
  (if flags &&& unescapeSpecialFlag ≠ 0 then letter specialLetters l else none)

/-- The left-to-right decoding. -/
def decode (flags : BitVec 32) : List Byte → List Byte
  | [] => []
  | [c] => [c]
  | c :: d :: l =>
    if c = ch '\\' then
      match escape flags (d :: l) with
      | some (b, k) => b :: decode flags (l.drop k)
      | none => c :: d :: decode flags l
    else c :: decode flags (d :: l)
termination_by s => s.length
decreasing_by all_goals simp +arith

/-- The decoding as far as it fits: an escape is only decoded where two characters fit, and it
counts as two. -/
def emitted (flags : BitVec 32) : ℕ → List Byte → List Byte
  | _, [] => []
  | size, [c] => if size - 1 = 0 then [] else [c]
  | size, c :: d :: l =>
    if size - 1 = 0 then []
    else if c = ch '\\' ∧ 1 < size - 1 then
      match escape flags (d :: l) with
      | some (b, k) => b :: emitted flags (size - 2) (l.drop k)
      | none => c :: d :: emitted flags (size - 2) l
    else c :: emitted flags (size - 1) (d :: l)
termination_by _ s => s.length
decreasing_by all_goals simp +arith

/-! ## The helpers -/

/-- The helpers on every byte. -/
lemma helpers_byte : ∀ c : Byte,
    octalValue c = (if isodigit c = true then some (c &&& 7).toNat else none) ∧
    (hexToBin c = match hexValue c with
      | some d => (d : ℤ)
      | none => -1) ∧
    ∀ d ∈ hexValue c, d < 16 := by
  decide +kernel

lemma octalValue_eq (c : Byte) :
    octalValue c = if isodigit c = true then some (c &&& 7).toNat else none := (helpers_byte c).1

lemma hexToBin_eq (c : Byte) : hexToBin c = match hexValue c with
    | some d => (d : ℤ)
    | none => -1 := (helpers_byte c).2.1

lemma hexValue_lt (c : Byte) : ∀ d ∈ hexValue c, d < 16 := (helpers_byte c).2.2

/-- The helper reads a string, and finds what is to be decoded at its start. -/
def Decodes (f : Helper) (g : Escape) : Prop :=
  ∀ m src dst l, Str m.cells src l → ∃ m', Looks src l.length m m' ∧
    match g l with
    | none => f m src dst = (none, m')
    | some (b, k) => k + 1 ≤ l.length ∧
      f m src dst = (some (src + k + 1, dst + 1), m'.store dst b)

lemma load_eq {m : Memory Byte} {a : ℕ} {c : Byte} (h : m.cells a = c) :
    m.load a = (c, (m.load a).2) := by
  rw [Memory.load, h]

lemma unescapeLetter_decodes {letters : List (Byte × Byte)} (h0 : letters.lookup 0 = none) :
    Decodes (unescapeLetter letters) (letter letters) := by
  intro m src dst l hstr
  refine ⟨(m.load src).2, Looks.load m le_rfl (by omega), ?_⟩
  cases l with
  | nil =>
    have hload := load_eq (show m.cells src = 0 from hstr)
    simp only [letter, unescapeLetter]
    rw [hload]
    simp only [h0]
  | cons c l =>
    have hload := load_eq hstr.1
    simp only [letter, unescapeLetter]
    rw [hload]
    cases hc : letters.lookup c with
    | none => simp
    | some b => simp

lemma low_octal_le (c : Byte) : (c &&& 7).toNat ≤ 7 := by
  rw [BitVec.toNat_and]
  exact Nat.and_le_right

lemma shift_octal {num : Byte} (hnum : num.toNat < 32) (c : Byte) :
    ((num <<< 3) + (c &&& 7)).toNat = 8 * num.toNat + (c &&& 7).toNat := by
  have hlow := low_octal_le c
  rw [BitVec.toNat_add, BitVec.toNat_shiftLeft, Nat.shiftLeft_eq]
  omega

lemma octalDigits_cons (k : ℕ) {v : ℕ} {c : Byte} (l : List Byte) (hc : isodigit c = true)
    (hv : v < 32) : octalDigits (k + 1) v (c :: l) =
      ((octalDigits k (8 * v + (c &&& 7).toNat) l).1,
        (octalDigits k (8 * v + (c &&& 7).toNat) l).2 + 1) := by
  have hlow := low_octal_le c
  rw [octalDigits, octalValue_eq, if_pos hc]
  exact if_pos (by omega)

lemma octalDigits_stop (k : ℕ) {v : ℕ} {c : Byte} (l : List Byte)
    (h : ¬ (isodigit c = true ∧ v < 32)) : octalDigits (k + 1) v (c :: l) = (v, 0) := by
  rw [octalDigits, octalValue_eq]
  by_cases hc : isodigit c = true
  · have hv : ¬ v < 32 := fun hv => h ⟨hc, hv⟩
    rw [if_pos hc]
    exact if_neg (by omega)
  · rw [if_neg hc]

lemma octalLoop_stop {m : Memory Byte} (src : ℕ) {q : ℕ} (num : Byte) (n : ℕ)
    (h : num < 32 → ¬ (isodigit (m.cells q) = true ∧ q - src < 3)) :
    ∃ m', Looks q n m m' ∧ octalLoop m src q num = (num, q, m') := by
  rw [octalLoop]
  by_cases hnum : num < 32
  · refine ⟨(m.load q).2, Looks.load m le_rfl (by omega), ?_⟩
    rw [if_pos hnum]
    exact if_neg (h hnum)
  · exact ⟨m, Looks.refl q n m, if_neg hnum⟩

/-- The loop reads the digits that are left, up to three. -/
lemma octalLoop_spec (src k : ℕ) {m : Memory Byte} {q : ℕ} (num : Byte) {l : List Byte}
    (hq : q + k = src + 3) (hstr : Str m.cells q l) :
    ∃ m', Looks q l.length m m' ∧ (octalDigits k num.toNat l).2 ≤ l.length ∧
      octalLoop m src q num = (BitVec.ofNat 8 (octalDigits k num.toNat l).1,
        q + (octalDigits k num.toNat l).2, m') := by
  have hsame : ∀ num : Byte, BitVec.ofNat 8 num.toNat = num := by simp
  induction k generalizing m q num l with
  | zero =>
    obtain ⟨m', hlooks, hloop⟩ := octalLoop_stop src num l.length
      (show num < 32 → ¬ (isodigit (m.cells q) = true ∧ q - src < 3) by omega)
    exact ⟨m', hlooks, Nat.zero_le _, by rw [hloop, octalDigits, hsame]; rfl⟩
  | succ k ih =>
    cases l with
    | nil =>
      have hcell : m.cells q = 0 := hstr
      obtain ⟨m', hlooks, hloop⟩ := octalLoop_stop src num 0
        (show num < 32 → _ by rw [hcell]; exact fun _ h => absurd h.1 (by decide))
      exact ⟨m', hlooks, Nat.zero_le _, by rw [hloop, octalDigits, hsame]; rfl⟩
    | cons c l =>
      have hcell : m.cells q = c := hstr.1
      by_cases hdigit : isodigit c = true ∧ num < 32
      · -- one more digit
        obtain ⟨hdigit, hnum⟩ := hdigit
        obtain ⟨m', hlooks, hle, hloop⟩ :=
          ih (m := (m.load q).2) (q := q + 1) ((num <<< 3) + (c &&& 7)) (l := l) (by omega)
            hstr.2.2
        have hgo : isodigit c = true ∧ q - src < 3 := ⟨hdigit, by omega⟩
        have hfirst : Looks q (c :: l).length m (m.load q).2 := Looks.load m le_rfl (by omega)
        have hrest : Looks q (c :: l).length (m.load q).2 m' :=
          hlooks.mono (by omega) (by rw [List.length_cons]; omega)
        rw [shift_octal hnum] at hle hloop
        rw [octalDigits_cons k l hdigit hnum, octalLoop, if_pos hnum, load_eq hcell]
        dsimp only
        rw [if_pos hgo, hloop, Nat.add_assoc, Nat.add_comm 1]
        exact ⟨m', hfirst.trans hrest, Nat.succ_le_succ hle, rfl⟩
      · obtain ⟨m', hlooks, hloop⟩ := octalLoop_stop src num (c :: l).length
          (show num < 32 → ¬ (isodigit (m.cells q) = true ∧ q - src < 3) by
            rw [hcell]
            exact fun hnum h => hdigit ⟨h.1, hnum⟩)
        rw [octalDigits_stop k l hdigit]
        exact ⟨m', hlooks, Nat.zero_le _, by rw [hloop, hsame]; rfl⟩

lemma unescapeOctal_decodes : Decodes unescapeOctal octal := by
  intro m src dst l hstr
  cases l with
  | nil =>
    refine ⟨(m.load src).2, Looks.load m le_rfl (by omega), ?_⟩
    show unescapeOctal m src dst = _
    rw [unescapeOctal, load_eq (show m.cells src = 0 from hstr)]
    rfl
  | cons c l =>
    have hfirst : Looks src (c :: l).length m (m.load src).2 := Looks.load m le_rfl (by omega)
    by_cases hc : isodigit c = true
    · obtain ⟨m', hlooks, hle, hloop⟩ :=
        octalLoop_spec src 2 (m := (m.load src).2) (q := src + 1) (c &&& 7) (by omega)
          hstr.2.2
      refine ⟨m', hfirst.trans (hlooks.mono (by omega) (by rw [List.length_cons]; omega)), ?_⟩
      have hoctal : octal (c :: l) = some (BitVec.ofNat 8 (octalDigits 2 (c &&& 7).toNat l).1,
          (octalDigits 2 (c &&& 7).toNat l).2) := by
        rw [octal, octalValue_eq, if_pos hc]
        rfl
      rw [hoctal]
      refine ⟨Nat.succ_le_succ hle, ?_⟩
      rw [unescapeOctal, load_eq hstr.1]
      dsimp only
      rw [if_pos hc, hloop, Nat.add_right_comm]
    · refine ⟨(m.load src).2, hfirst, ?_⟩
      rw [octal, octalValue_eq, if_neg hc]
      show unescapeOctal m src dst = _
      rw [unescapeOctal, load_eq hstr.1]
      exact if_neg hc

lemma hex_or : ∀ v < (16 : ℕ), ∀ w < (16 : ℕ),
    (BitVec.ofInt 8 (v : ℤ) <<< 4) ||| BitVec.ofInt 8 (w : ℤ) = BitVec.ofNat 8 (16 * v + w) := by
  decide +kernel

lemma hexToBin_some {c : Byte} {v : ℕ} (h : hexValue c = some v) : hexToBin c = v ∧ v < 16 :=
  ⟨by rw [hexToBin_eq, h], hexValue_lt c v h⟩

lemma hexToBin_none {c : Byte} (h : hexValue c = none) : hexToBin c = -1 := by
  rw [hexToBin_eq, h]

/-- What is behind an `x`. -/
lemma unescapeHex_x {m : Memory Byte} {src : ℕ} (dst : ℕ) {d e : Byte}
    (hx : m.cells src = ch 'x') (hd : m.cells (src + 1) = d) (he : m.cells (src + 2) = e) :
    let m₁ := (m.load src).2
    let m₂ := (m₁.load (src + 1)).2
    let m₃ := (m₂.load (src + 2)).2
    unescapeHex m src dst =
      match hexValue d, hexValue e with
      | none, _ => (none, m₂)
      | some v, none => (some (src + 2, dst + 1), m₃.store dst (BitVec.ofNat 8 v))
      | some v, some w => (some (src + 3, dst + 1), m₃.store dst (BitVec.ofNat 8 (16 * v + w))) := by
  intro m₁ m₂ m₃
  have hd₁ : m₁.load (src + 1) = (d, m₂) := load_eq hd
  have he₂ : m₂.load (src + 2) = (e, m₃) := load_eq he
  rw [unescapeHex, load_eq hx]
  dsimp only
  rw [if_neg (not_not.mpr rfl), hd₁]
  dsimp only
  rw [he₂]
  cases hv : hexValue d with
  | none =>
    rw [hexToBin_none hv]
    rfl
  | some v =>
    obtain ⟨hbin, hlt⟩ := hexToBin_some hv
    rw [hbin, if_neg (by omega)]
    cases hw : hexValue e with
    | none =>
      rw [hexToBin_none hw]
      rfl
    | some w =>
      obtain ⟨hbin', hlt'⟩ := hexToBin_some hw
      dsimp only
      rw [hbin', if_pos (by omega), hex_or v hlt w hlt']

lemma unescapeHex_decodes : Decodes unescapeHex hex := by
  intro m src dst l hstr
  have hfirst : Looks src l.length m (m.load src).2 := Looks.load m le_rfl (by omega)
  cases l with
  | nil =>
    refine ⟨(m.load src).2, hfirst, ?_⟩
    show unescapeHex m src dst = _
    rw [unescapeHex, load_eq (show m.cells src = 0 from hstr)]
    rfl
  | cons c l =>
    obtain ⟨hc, -, hrest⟩ := hstr
    by_cases hx : c = ch 'x'
    · subst hx
      have hsecond : Looks src (ch 'x' :: l).length m ((m.load src).2.load (src + 1)).2 :=
        hfirst.trans (Looks.load _ (by omega) (by rw [List.length_cons]; omega))
      cases l with
      | nil =>
        refine ⟨_, hsecond, ?_⟩
        show unescapeHex m src dst = _
        rw [unescapeHex_x dst hc hrest rfl]
        rfl
      | cons d l =>
        have he : m.cells (src + 2) = l.headD 0 := by
          cases l with
          | nil => exact hrest.2.2
          | cons e l => exact hrest.2.2.1
        have hhead : hexValue (l.headD 0) = l.head?.bind hexValue := by
          cases l with
          | nil => rfl
          | cons e l => rfl
        have hcode := unescapeHex_x dst hc hrest.1 he
        have hspec : hex (ch 'x' :: d :: l) = match hexValue d, l.head?.bind hexValue with
          | none, _ => none
          | some v, none => some (BitVec.ofNat 8 v, 1)
          | some v, some w => some (BitVec.ofNat 8 (16 * v + w), 2) := rfl
        rw [hhead] at hcode
        rw [hspec, hcode]
        have hlen : (ch 'x' :: d :: l).length = l.length + 2 := rfl
        have hthird := hsecond.trans (Looks.load _ (show src ≤ src + 2 by omega)
          (show src + 2 ≤ src + (ch 'x' :: d :: l).length by omega))
        cases hexValue d with
        | none => exact ⟨_, hsecond, rfl⟩
        | some v =>
          cases hw : l.head?.bind hexValue with
          | none => exact ⟨_, hthird, by omega, rfl⟩
          | some w =>
            have hne : l ≠ [] := by
              rintro rfl
              cases hw
            have hpos := List.length_pos_iff.mpr hne
            exact ⟨_, hthird, by omega, rfl⟩
    · refine ⟨(m.load src).2, hfirst, ?_⟩
      have hnone : hex (c :: l) = none := by
        cases l with
        | nil => rfl
        | cons d l => exact if_neg hx
      rw [hnone, unescapeHex, load_eq hc]
      exact if_pos hx

lemma tryHelper_decodes {f next : Helper} {g rest : Escape} (enabled : Bool) (hf : Decodes f g)
    (hnext : Decodes next rest) :
    Decodes (tryHelper enabled f next) fun l =>
      (if enabled = true then g l else none) <|> rest l := by
  intro m src dst l hstr
  cases enabled with
  | false => exact hnext m src dst l hstr
  | true =>
    obtain ⟨m', hlooks, hmatch⟩ := hf m src dst l hstr
    simp only [if_true, tryHelper]
    cases hg : g l with
    | none =>
      rw [hg] at hmatch
      have hstr' : Str m'.cells src l := by rw [hlooks.1]; exact hstr
      obtain ⟨m'', hlooks', hmatch'⟩ := hnext m' src dst l hstr'
      rw [hmatch]
      exact ⟨m'', hlooks.trans hlooks', hmatch'⟩
    | some r =>
      rw [hg] at hmatch
      obtain ⟨hle, heq⟩ := hmatch
      rw [heq]
      exact ⟨m', hlooks, hle, rfl⟩

lemma none_decodes : Decodes (fun m _ _ => (none, m)) fun _ => none := by
  intro m src dst l _
  exact ⟨m, Looks.refl src l.length m, rfl⟩

lemma unescapeAny_decodes (flags : BitVec 32) : Decodes (unescapeAny flags) (escape flags) := by
  have hspace : Decodes unescapeSpace (letter spaceLetters) := unescapeLetter_decodes (by decide)
  have hspecial : Decodes unescapeSpecial (letter specialLetters) :=
    unescapeLetter_decodes (by decide)
  have hall := tryHelper_decodes (flags &&& unescapeSpaceFlag != 0) hspace
    (tryHelper_decodes (flags &&& unescapeOctalFlag != 0) unescapeOctal_decodes
      (tryHelper_decodes (flags &&& unescapeHexFlag != 0) unescapeHex_decodes
        (tryHelper_decodes (flags &&& unescapeSpecialFlag != 0) hspecial none_decodes)))
  have hlast : ∀ o : Option (Byte × ℕ), (o <|> none) = o := by
    intro o
    cases o with
    | none => rfl
    | some r => rfl
  simp only [bne_iff_ne, hlast] at hall
  exact hall

/-! ## The loop -/

/-- With room for all of it, a string is decoded to its end. -/
lemma emitted_eq_decode (flags : BitVec 32) {size : ℕ} {s : List Byte} (h : s.length < size) :
    emitted flags size s = decode flags s := by
  induction size, s using emitted.induct flags with
  | case1 size => rw [emitted, decode]
  | case2 size c hsize => simp at h; omega
  | case3 size c hsize => rw [emitted, decode, if_neg hsize]
  | case4 size c d l hsize => simp at h; omega
  | case5 size c d l hsize hc b k hescape ih =>
    rw [List.length_cons, List.length_cons] at h
    rw [emitted, decode, if_neg hsize, if_pos hc, if_pos hc.1, hescape]
    dsimp only
    rw [ih (by rw [List.length_drop]; omega)]
  | case6 size c d l hsize hc hescape ih =>
    rw [List.length_cons, List.length_cons] at h
    rw [emitted, decode, if_neg hsize, if_pos hc, if_pos hc.1, hescape]
    dsimp only
    rw [ih (by omega)]
  | case7 size c d l hsize hc ih =>
    rw [List.length_cons, List.length_cons] at h
    have hplain : c ≠ ch '\\' := fun h' => hc ⟨h', by omega⟩
    rw [emitted, decode, if_neg hsize, if_neg hc, if_neg hplain]
    rw [ih (by rw [List.length_cons]; omega)]

/-- What is emitted leaves room for the terminator. -/
lemma length_emitted (flags : BitVec 32) {size : ℕ} (s : List Byte) (h : 1 ≤ size) :
    (emitted flags size s).length < size := by
  induction size, s using emitted.induct flags with
  | case1 size => rwa [emitted]
  | case2 size c hsize => rwa [emitted, if_pos hsize]
  | case3 size c hsize =>
    rw [emitted, if_neg hsize, List.length_singleton]
    omega
  | case4 size c d l hsize => rwa [emitted, if_pos hsize]
  | case5 size c d l hsize hc b k hescape ih =>
    have hrest := ih (by omega)
    rw [emitted, if_neg hsize, if_pos hc, hescape]
    rw [List.length_cons]
    omega
  | case6 size c d l hsize hc hescape ih =>
    have hrest := ih (by omega)
    rw [emitted, if_neg hsize, if_pos hc, hescape]
    rw [List.length_cons, List.length_cons]
    omega
  | case7 size c d l hsize hc ih =>
    have hrest := ih (by omega)
    rw [emitted, if_neg hsize, if_neg hc, List.length_cons]
    omega

/-- A test of the loop on a character other than the terminator. -/
lemma unescapeLoop_cons (flags : BitVec 32) (fuel : ℕ) {m : Memory Byte} {p : ℕ} (out : ℕ)
    {size n : ℕ} {c : Byte} (hc : m.cells p = c) (hne : c ≠ 0) (hn : 1 ≤ n) (hlt : size < 2 ^ 64)
    (hsize : ¬ size - 1 = 0) :
    ∃ m', Looks p n m m' ∧ unescapeLoop flags (fuel + 1) m p out size =
      if c = ch '\\' ∧ m.cells (p + 1) ≠ 0 ∧ 1 < size - 1 then
        match unescapeAny flags m' (p + 1) out with
        | (some (p', out'), m'') => unescapeLoop flags fuel m'' p' out' (size - 2)
        | (none, m'') =>
          let r := (m''.store out (ch '\\')).load (p + 1)
          unescapeLoop flags fuel (r.2.store (out + 1) r.1) (p + 2) (out + 2) (size - 2)
      else
        let r := m'.load p
        unescapeLoop flags fuel (r.2.store out r.1) (p + 1) (out + 1) (size - 1) := by
  have hsub : sub64 size 1 = size - 1 := sub64_of_le hlt (by omega)
  have hsub' : sub64 (size - 1) 1 = size - 2 := sub64_of_le (by omega) (by omega)
  have hfirst : Looks p n m ((m.load p).2.load p).2 :=
    (Looks.load m le_rfl (by omega)).trans (Looks.load _ le_rfl (by omega))
  have hagain : (m.load p).2.load p = (c, ((m.load p).2.load p).2) := load_eq hc
  rw [unescapeLoop, load_eq hc]
  dsimp only
  rw [if_neg hne, hsub, if_neg hsize, hagain]
  dsimp only
  by_cases hslash : c = ch '\\'
  · refine ⟨_, hfirst.trans (Looks.load _ (by omega) (show p + 1 ≤ p + n by omega)), ?_⟩
    rw [if_pos hslash, hsub']
    rfl
  · have hcond : ∀ next : Byte, ¬ (c = ch '\\' ∧ next ≠ 0 ∧ 1 < size - 1) :=
      fun next h => hslash h.1
    refine ⟨_, hfirst, ?_⟩
    rw [if_neg hslash, if_neg (hcond _), if_neg (hcond _)]

/-- The rest of a run emits `e` and ends behind it. -/
def Finishes (src n : ℕ) (m : Memory Byte) (out : ℕ) (e : List Byte)
    (r : Option (ℕ × Memory Byte)) : Prop :=
  ∃ m', r = some (out + e.length, m') ∧ Emits src n m out e m'

lemma Finishes.looks {src n a k out : ℕ} {m m₁ : Memory Byte} {e : List Byte}
    {r : Option (ℕ × Memory Byte)} (h : Finishes src n m₁ out e r) (hm : Looks a k m m₁) :
    Finishes src n m out e r := by
  obtain ⟨m', heq, hemits⟩ := h
  exact ⟨m', heq, hemits.looks hm⟩

lemma Finishes.store {src n out : ℕ} {m : Memory Byte} {b : Byte} {e : List Byte}
    {r : Option (ℕ × Memory Byte)} (h : Finishes src n (m.store out b) (out + 1) e r) :
    Finishes src n m out (b :: e) r := by
  obtain ⟨m', heq, hemits⟩ := h
  refine ⟨m', ?_, hemits.store⟩
  rw [heq, List.length_cons, Nat.add_assoc, Nat.add_comm 1]

/-- The loop emits what fits of a text that leaves it `fuel` tests. -/
def LoopEmits (flags : BitVec 32) (src n fuel : ℕ) : Prop :=
  ∀ {size p out : ℕ} {m : Memory Byte} {l : List Byte}, l.length < fuel → 1 ≤ size →
    size < 2 ^ 64 → Reading src n m p out l →
    Finishes src n m out (emitted flags size l) (unescapeLoop flags fuel m p out size)

section Step

variable {flags : BitVec 32} {src n fuel size p out : ℕ} {m : Memory Byte} {c d : Byte}
  {l : List Byte}

/-- A character that is copied. -/
lemma LoopEmits.copy (ih : LoopEmits flags src n fuel) (hfuel : l.length < fuel)
    (hpos : 1 ≤ size) (hlt : size < 2 ^ 64) (h : Reading src n m p out (c :: l)) :
    Finishes src n m out (c :: emitted flags size l)
      (unescapeLoop flags fuel ((m.load p).2.store out (m.load p).1) (p + 1) (out + 1) size) := by
  have hload : Looks p (c :: l).length m (m.load p).2 := Looks.load m le_rfl (by omega)
  have hnext := (h.looks hload).store c (k := 1) le_rfl (by simp)
  have hrun := ih hfuel hpos hlt hnext
  rw [load_eq h.string.1]
  exact hrun.store.looks hload

/-- A backslash and the character behind it, which is escaped or copied with it. -/
lemma LoopEmits.pair (ih : LoopEmits flags src n fuel) (hfuel : l.length < fuel)
    (hpos : 1 ≤ size) (hlt : size < 2 ^ 64) (h : Reading src n m p out (c :: d :: l))
    (hc : c = ch '\\') :
    Finishes src n m out
      (match escape flags (d :: l) with
        | some (b, k) => b :: emitted flags size (l.drop k)
        | none => c :: d :: emitted flags size l)
      (match unescapeAny flags m (p + 1) out with
        | (some (p', out'), m') => unescapeLoop flags fuel m' p' out' size
        | (none, m') =>
          let r := (m'.store out (ch '\\')).load (p + 1)
          unescapeLoop flags fuel (r.2.store (out + 1) r.1) (p + 2) (out + 2) size) := by
  obtain ⟨m', hlooks, hmatch⟩ := unescapeAny_decodes flags m (p + 1) out (d :: l) h.string.2.2
  have hbehind : Looks p (c :: d :: l).length m m' :=
    hlooks.mono (by omega) (by rw [Nat.add_right_comm]; rfl)
  have h' := h.looks hbehind
  cases hescape : escape flags (d :: l) with
  | none =>
    rw [hescape] at hmatch
    have hslash := h'.store (ch '\\') (k := 1) le_rfl (by simp)
    have hload : Looks (p + 1) (d :: l).length (m'.store out (ch '\\'))
        ((m'.store out (ch '\\')).load (p + 1)).2 := Looks.load _ le_rfl (by omega)
    have hnext := (hslash.looks hload).store d (k := 1) le_rfl (by simp)
    have hrun := ih (l := l) hfuel hpos hlt hnext
    rw [hmatch]
    dsimp only
    rw [load_eq hslash.string.1, hc]
    exact ((hrun.store.looks hload).store).looks hbehind
  | some r =>
    obtain ⟨b, k⟩ := r
    rw [hescape] at hmatch
    obtain ⟨hle, heq⟩ := hmatch
    have hnext := h'.store b (k := k + 2) (by omega) (Nat.succ_le_succ hle)
    have hlen : (l.drop k).length = l.length - k := List.length_drop
    have hrun := ih (l := l.drop k) (by omega) hpos hlt hnext
    have hp : p + 1 + k + 1 = p + (k + 2) := by omega
    rw [heq, hp]
    exact hrun.store.looks hbehind

end Step

/-- The loop emits what fits, in at most one test more than there are characters. -/
lemma unescapeLoop_spec (flags : BitVec 32) (src n fuel : ℕ) : LoopEmits flags src n fuel := by
  induction fuel with
  | zero =>
    intro size p out m l hfuel
    omega
  | succ fuel ih =>
    intro size p out m l hfuel hpos hlt h
    have hload : Looks p l.length m (m.load p).2 := Looks.load m le_rfl (by omega)
    have hstop : Finishes src n m out [] (some (out, (m.load p).2)) :=
      ⟨_, rfl, (h.looks hload).emits_nil.looks hload⟩
    cases l with
    | nil =>
      rw [emitted, unescapeLoop, load_eq (show m.cells p = 0 from h.string)]
      exact hstop
    | cons c l =>
      obtain ⟨hc, hne, hrest⟩ := h.string
      rw [List.length_cons] at hfuel
      by_cases hsize : size - 1 = 0
      · -- no room
        have hnone : emitted flags size (c :: l) = [] := by
          cases l with
          | nil => rw [emitted, if_pos hsize]
          | cons d l => rw [emitted, if_pos hsize]
        have hone : sub64 size 1 = 0 := by rw [sub64_of_le hlt hpos, hsize]
        rw [hnone, unescapeLoop, load_eq hc]
        dsimp only
        rw [if_neg hne, if_pos hone]
        exact hstop
      · obtain ⟨m', hlooks, hcode⟩ := unescapeLoop_cons flags fuel out (n := (c :: l).length) hc hne
          (by simp) hlt hsize
        have h' := h.looks hlooks
        have hcopy := ih.copy (by omega) (show 1 ≤ size - 1 by omega) (by omega) h'
        rw [hcode]
        cases l with
        | nil =>
          have hnext : m.cells (p + 1) = 0 := hrest
          rw [if_neg (fun hcond => hcond.2.1 hnext), emitted, if_neg hsize]
          rw [emitted] at hcopy
          exact hcopy.looks hlooks
        | cons d l =>
          have hnext : m.cells (p + 1) ≠ 0 := by
            rw [hrest.1]
            exact hrest.2.1
          by_cases hslash : c = ch '\\' ∧ 1 < size - 1
          · rw [List.length_cons] at hfuel
            have hpair := ih.pair (by omega) (show 1 ≤ size - 2 by omega) (by omega) h' hslash.1
            rw [if_pos ⟨hslash.1, hnext, hslash.2⟩, emitted, if_neg hsize, if_pos hslash]
            exact hpair.looks hlooks
          · rw [if_neg (fun hcond => hslash ⟨hcond.1, hcond.2.2⟩), emitted, if_neg hsize,
              if_neg hslash]
            exact hcopy.looks hlooks

/-! ## A call -/

/-- What a call leaves in memory that emits `e` from `dst` on. -/
structure Wrote (src n dst : ℕ) (e : List Byte) (m m' : Memory Byte) : Prop where
  output : ∀ k, (hk : k < e.length) → m'.cells (dst + k) = e[k]
  nul : m'.cells (dst + e.length) = 0
  frame : ∀ a, a < dst ∨ dst + e.length < a → m'.cells a = m.cells a
  /-- The terminator is the last cell read, and no cell comes after as many writes. -/
  reads : ReadsAhead src n m'.trace
  count : writes m'.trace = e.length + 1

/-- The terminator goes behind what the loop emits. -/
lemma stringUnescape_wrote (flags : BitVec 32) {size room : ℕ}
    (hroom : (if size = 0 then 2 ^ 64 - 1 else size) = room) (hpos : 1 ≤ room)
    (hlt : room < 2 ^ 64) {s : List Byte} {cells : ℕ → Byte} {src dst fuel : ℕ}
    (hstr : Str cells src s) (hclear : dst ≤ src ∨ src + s.length < dst)
    (hfuel : s.length < fuel) :
    ∃ m', stringUnescape flags fuel ⟨cells, []⟩ src dst size =
        some ((BitVec.ofNat 32 (emitted flags room s).length).toInt, m') ∧
      Wrote src s.length dst (emitted flags room s) ⟨cells, []⟩ m' := by
  have hread : Reading src s.length ⟨cells, []⟩ src dst s := ⟨hstr, hclear, rfl, le_rfl, trivial⟩
  obtain ⟨m', hrun, hemits⟩ := unescapeLoop_spec flags src s.length fuel hfuel hpos hlt hread
  refine ⟨m'.store (dst + (emitted flags room s).length) 0, ?_, ?_⟩
  · rw [stringUnescape, hroom, hrun, Option.map_some]
    dsimp only
    rw [Nat.add_sub_cancel_left]
  · constructor
    case output =>
      intro k hk
      have hne : dst + k ≠ dst + (emitted flags room s).length := by omega
      show Function.update _ _ _ _ = _
      rw [Function.update_of_ne hne, hemits.cells_eq, fill_apply _ _ hk]
    case nul => exact Function.update_self _ _ _
    case frame =>
      intro a ha
      have hne : a ≠ dst + (emitted flags room s).length := by omega
      show Function.update _ _ _ _ = _
      rw [Function.update_of_ne hne, hemits.cells_eq, fill_of_outside _ (by omega)]
    case reads => exact hemits.ahead
    case count =>
      show writes m'.trace + 1 = _
      rw [hemits.count]
      exact congrArg (· + 1) (Nat.zero_add _)

/-- A call terminates and emits the same, in place and to a buffer apart. It fits in `size`, and
with room for the whole string it is the decoding of that. -/
theorem stringUnescape_spec (flags : BitVec 32) {size : ℕ} (hsize : size < 2 ^ 64) {s : List Byte}
    (hs : s.length < 2 ^ 63) :
    ∃ e : List Byte, (0 < size → e.length + 1 ≤ size) ∧
      (size = 0 ∨ s.length < size → e = decode flags s) ∧
      ∀ (cells : ℕ → Byte) (src dst fuel : ℕ), Str cells src s →
        dst ≤ src ∨ src + s.length < dst → s.length < fuel →
        ∃ m', stringUnescape flags fuel ⟨cells, []⟩ src dst size =
            some ((BitVec.ofNat 32 e.length).toInt, m') ∧
          Wrote src s.length dst e ⟨cells, []⟩ m' := by
  obtain ⟨room, hroom⟩ : ∃ room, (if size = 0 then 2 ^ 64 - 1 else size) = room := ⟨_, rfl⟩
  have hbounds : 1 ≤ room ∧ room < 2 ^ 64 ∧ (0 < size → room = size) ∧
      (size = 0 ∨ s.length < size → s.length < room) := by
    rw [← hroom]
    split_ifs with h0
    · omega
    · omega
  obtain ⟨hpos, hlt, hsame, hwhole⟩ := hbounds
  have hlength := length_emitted flags s hpos
  refine ⟨emitted flags room s, ?_, ?_, ?_⟩
  · intro h
    rw [hsame h] at hlength ⊢
    exact hlength
  · exact fun h => emitted_eq_decode flags (hwhole h)
  · intro cells src dst fuel hstr hclear hfuel
    exact stringUnescape_wrote flags hroom hpos hlt hstr hclear hfuel

/-- An escaped `A` and a `b`, decoded in place. -/
theorem stringUnescape_spec_hex :
    let s := [ch '\\', ch 'x', ch '4', ch '1', ch 'b']
    ∃ m', stringUnescape 4 6 ⟨fun a => s.getD a 0, []⟩ 0 0 0 = some (2, m') ∧
      Wrote 0 5 0 [ch 'A', ch 'b'] ⟨fun a => s.getD a 0, []⟩ m' := by
  intro s
  have hdecode : decode 4 s = [ch 'A', ch 'b'] := by
    have hescape : escape 4 [ch 'x', ch '4', ch '1', ch 'b'] = some (ch 'A', 2) := by
      decide +kernel
    rw [decode, if_pos rfl, hescape]
    dsimp only [List.drop]
    rw [decode]
  have hstr : Str (fun a => s.getD a 0) 0 s := by
    refine ⟨rfl, by decide, rfl, by decide, rfl, by decide, rfl, by decide, rfl, by decide, rfl⟩
  obtain ⟨e, -, he, hcall⟩ := stringUnescape_spec 4 (show 0 < 2 ^ 64 by decide)
    (show s.length < 2 ^ 63 by decide)
  obtain ⟨m', hrun, hwrote⟩ := hcall _ 0 0 6 hstr (.inl le_rfl) (by decide)
  rw [he (.inl rfl), hdecode] at hrun hwrote
  exact ⟨m', hrun, hwrote⟩

lemma decode_plain (flags : BitVec 32) {s : List Byte} (h : ∀ c ∈ s, c ≠ ch '\\') :
    decode flags s = s := by
  induction s with
  | nil => rw [decode]
  | cons c s ih =>
    have hrest := ih fun d hd => h d (List.mem_cons_of_mem _ hd)
    cases s with
    | nil => rw [decode]
    | cons d s => rw [decode, if_neg (h c List.mem_cons_self), hrest]

/-- A string of `n` letters is copied behind itself. -/
lemma stringUnescape_letters {n : ℕ} (hn : n < 2 ^ 63) :
    ∃ m', stringUnescape 0 (n + 1) ⟨fun a => if a < n then ch 'a' else 0, []⟩ 0 (n + 1) 0 =
        some ((BitVec.ofNat 32 n).toInt, m') ∧
      (∀ k < n, m'.cells (n + 1 + k) = ch 'a') ∧ m'.cells (n + 1 + n) = 0 := by
  have hlen : (List.replicate n (ch 'a')).length = n := List.length_replicate
  have hstr : Str (fun a => if a < n then ch 'a' else 0) 0 (List.replicate n (ch 'a')) := by
    apply str_of_getElem
    · intro k hk
      rw [hlen] at hk
      rw [List.getElem_replicate, Nat.zero_add, if_pos hk]
      exact ⟨rfl, by decide⟩
    · rw [hlen, Nat.zero_add]
      exact if_neg (lt_irrefl n)
  have hcopy : emitted 0 (2 ^ 64 - 1) (List.replicate n (ch 'a')) = List.replicate n (ch 'a') := by
    rw [emitted_eq_decode 0 (by omega), decode_plain]
    intro c hc
    rw [List.eq_of_mem_replicate hc]
    decide
  obtain ⟨m', hrun, hwrote⟩ := stringUnescape_wrote 0 (if_pos rfl) (by norm_num) (by norm_num) hstr
    (.inr (show 0 + _ < n + 1 by omega)) (show _ < n + 1 by omega)
  rw [hcopy, hlen] at hrun
  rw [hcopy] at hwrote
  refine ⟨m', hrun, ?_, ?_⟩
  · intro k hk
    rw [hwrote.output k (by omega), List.getElem_replicate]
  · have hnul := hwrote.nul
    rwa [hlen] at hnul

/-- From 2 ^ 31 bytes on, what is returned is not the number of bytes before the terminator. -/
theorem stringUnescape_wraps :
    ∃ m', stringUnescape 0 (2 ^ 31 + 1) ⟨fun a => if a < 2 ^ 31 then ch 'a' else 0, []⟩ 0
        (2 ^ 31 + 1) 0 = some (-2 ^ 31, m') ∧
      (∀ k < 2 ^ 31, m'.cells (2 ^ 31 + 1 + k) = ch 'a') ∧
      m'.cells (2 ^ 31 + 1 + 2 ^ 31) = 0 :=
  stringUnescape_letters (n := 2 ^ 31) (by norm_num)

end BpfVerify.Unescape
