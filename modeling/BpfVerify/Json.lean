import BpfVerify.Double
import BpfVerify.Python

/-! JSON values as Python holds them, `json.loads`, and a rule for each kind of
compact text that says what `json.loads` makes of it. -/
open Python

/-- What `json.loads` returns; an object is a dictionary in insertion order. -/
inductive Json where
  | null
  | bool (b : Bool)
  | int (n : ℤ)
  | float (x : Double)
  | str (s : Text)
  | arr (xs : List Json)
  | obj (members : List (Text × Json))

namespace Json

mutual

def decEq : (a b : Json) → Decidable (a = b)
  | .null, b => match b with
    | .null => isTrue rfl
    | .bool _ | .int _ | .float _ | .str _ | .arr _ | .obj _ => isFalse nofun
  | .bool a, b => match b with
    | .bool b => decidable_of_iff (a = b) (by simp)
    | .null | .int _ | .float _ | .str _ | .arr _ | .obj _ => isFalse nofun
  | .int a, b => match b with
    | .int b => decidable_of_iff (a = b) (by simp)
    | .null | .bool _ | .float _ | .str _ | .arr _ | .obj _ => isFalse nofun
  | .float a, b => match b with
    | .float b => decidable_of_iff (a = b) (by simp)
    | .null | .bool _ | .int _ | .str _ | .arr _ | .obj _ => isFalse nofun
  | .str a, b => match b with
    | .str b => decidable_of_iff (a = b) (by simp)
    | .null | .bool _ | .int _ | .float _ | .arr _ | .obj _ => isFalse nofun
  | .arr a, b => match b with
    | .arr b => @decidable_of_iff _ (a = b) (by simp) (decEqList a b)
    | .null | .bool _ | .int _ | .float _ | .str _ | .obj _ => isFalse nofun
  | .obj a, b => match b with
    | .obj b => @decidable_of_iff _ (a = b) (by simp) (decEqMembers a b)
    | .null | .bool _ | .int _ | .float _ | .str _ | .arr _ => isFalse nofun

def decEqList : (as bs : List Json) → Decidable (as = bs)
  | [], [] => isTrue rfl
  | [], _ :: _ => isFalse nofun
  | _ :: _, [] => isFalse nofun
  | a :: as, b :: bs =>
    @decidable_of_iff _ (a = b ∧ as = bs) (by simp)
      (@instDecidableAnd _ _ (decEq a b) (decEqList as bs))

def decEqMembers : (as bs : List (Text × Json)) → Decidable (as = bs)
  | [], [] => isTrue rfl
  | [], _ :: _ => isFalse nofun
  | _ :: _, [] => isFalse nofun
  | (k, a) :: as, (k', b) :: bs =>
    @decidable_of_iff _ (k = k' ∧ a = b ∧ as = bs) (by simp [and_assoc])
      (@instDecidableAnd _ _ _ (@instDecidableAnd _ _ (decEq a b) (decEqMembers as bs)))

end

instance : DecidableEq Json := decEq

/-- Python's truth test. -/
def truthy : Json → Bool
  | .null => false
  | .bool b => b
  | .int n => n ≠ 0
  | .float (.fin q _) => q ≠ 0
  | .float _ => true
  | .str s => s ≠ []
  | .arr xs => xs.length ≠ 0
  | .obj members => members.length ≠ 0

/-- `v.get(key, default)`; only a dictionary has `get`. -/
def getD (v : Json) (key : String) (default : Json) : Option Json :=
  match v with
  | .obj members => some ((get? key.toList members).getD default)
  | _ => none

/-- `v.get(key)`, with `None` for a missing key. -/
def get (v : Json) (key : String) : Option Json := v.getD key .null

/-- `v[key]` on a dictionary. -/
def item (v : Json) (key : String) : Option Json :=
  match v with
  | .obj members => get? key.toList members
  | _ => none

/-- `v == s` for a string `s`. -/
def isStr (v : Json) (s : String) : Bool :=
  match v with
  | .str t => t = s.toList
  | _ => false

lemma getD_obj (members : List (Text × Json)) (key : String) (default : Json) :
    (Json.obj members).getD key default = some ((get? key.toList members).getD default) := by
  rw [getD]

lemma get_obj (members : List (Text × Json)) (key : String) :
    (Json.obj members).get key = some ((get? key.toList members).getD .null) := by
  rw [get, getD]

lemma item_obj (members : List (Text × Json)) (key : String) :
    (Json.obj members).item key = get? key.toList members := by
  rw [item]

lemma item_obj_unique {v : Json} {key : String} {members members' : List (Text × Json)}
    (h : v.item key = some (.obj members)) (h' : v.item key = some (.obj members')) :
    members = members' :=
  obj.inj (Option.some.inj (h.symm.trans h'))

lemma isStr_iff {v : Json} {s : String} : v.isStr s = true ↔ v = .str s.toList := by
  cases v <;> simp [isStr]

def isNone : Json → Bool
  | .null => true
  | _ => false

lemma isNone_of_truthy {v : Json} (h : v.truthy = true) : v.isNone = false := by
  cases v with
  | null => cases h
  | _ => rfl

lemma isNone_of_isStr {v : Json} {s : String} (h : v.isStr s = true) : v.isNone = false := by
  rw [isStr_iff.mp h]
  rfl

def isWs (c : Char) : Bool := c ∈ [' ', '\t', '\n', '\r']

def skipWs (t : Text) : Text := t.dropWhile isWs

def hexDigit (c : Char) : Option ℕ :=
  if c.isDigit then some (c.toNat - '0'.toNat)
  else if 'a' ≤ c ∧ c ≤ 'f' then some (c.toNat - 'a'.toNat + 10)
  else if 'A' ≤ c ∧ c ≤ 'F' then some (c.toNat - 'A'.toNat + 10)
  else none

def hex4 (a b c d : Char) : Option ℕ := do
  let a ← hexDigit a
  let b ← hexDigit b
  let c ← hexDigit c
  let d ← hexDigit d
  some (((a * 16 + b) * 16 + c) * 16 + d)

/-- The character of a `\u` escape. A surrogate without its partner is no
character here; U+FFFD stands for it. -/
def codePoint (n : ℕ) : Char := if n.isValidChar then Char.ofNat n else '\uFFFD'

def simpleEscape : Char → Option Char
  | '"' => some '"'
  | '\\' => some '\\'
  | '/' => some '/'
  | 'b' => some '\x08'
  | 'f' => some '\x0c'
  | 'n' => some '\n'
  | 'r' => some '\r'
  | 't' => some '\t'
  | _ => none

/-- `scanstring` after the opening quote, with `strict=True`. -/
def scanString : Text → Option (Text × Text)
  | '"' :: t => some ([], t)
  | '\\' :: 'u' :: a :: b :: c :: d :: '\\' :: 'u' :: a' :: b' :: c' :: d' :: t => do
    let hi ← hex4 a b c d
    match hex4 a' b' c' d' with
    | some lo =>
      if 0xd800 ≤ hi ∧ hi ≤ 0xdbff ∧ 0xdc00 ≤ lo ∧ lo ≤ 0xdfff then do
        let (s, t) ← scanString t
        some (codePoint (0x10000 + (hi - 0xd800) * 0x400 + (lo - 0xdc00)) :: s, t)
      else do
        let (s, t) ← scanString ('\\' :: 'u' :: a' :: b' :: c' :: d' :: t)
        some (codePoint hi :: s, t)
    | none => none
  | '\\' :: 'u' :: a :: b :: c :: d :: t => do
    let n ← hex4 a b c d
    let (s, t) ← scanString t
    some (codePoint n :: s, t)
  | '\\' :: c :: t => do
    let e ← simpleEscape c
    let (s, t) ← scanString t
    some (e :: s, t)
  | c :: t =>
    if c = '\\' ∨ c.toNat < 0x20 then none
    else (scanString t).map fun p => (c :: p.1, p.2)
  | [] => none

/-- `0` or a digit string that does not start with it. -/
def intPart : Text → Option (Text × Text)
  | '0' :: t => some (['0'], t)
  | t => if t.takeWhile Char.isDigit = [] then none
    else some (t.takeWhile Char.isDigit, t.dropWhile Char.isDigit)

/-- The digits after a point, none if the point has none after it. -/
def fracPart : Text → Text × Text
  | '.' :: t => if t.takeWhile Char.isDigit = [] then ([], '.' :: t)
    else (t.takeWhile Char.isDigit, t.dropWhile Char.isDigit)
  | t => ([], t)

def signPart : Text → ℤ × Text
  | '-' :: t => (-1, t)
  | '+' :: t => (1, t)
  | t => (1, t)

def expPart : Text → Option ℤ × Text
  | c :: t =>
    if (c = 'e' ∨ c = 'E') ∧ (signPart t).2.takeWhile Char.isDigit ≠ [] then
      (some ((signPart t).1 * Nat.ofDigitChars 10 ((signPart t).2.takeWhile Char.isDigit) 0),
        (signPart t).2.dropWhile Char.isDigit)
    else (none, c :: t)
  | [] => (none, [])

def unsigned (sign : ℤ) (t : Text) : Option (Json × Text) := do
  let (digits, t) ← intPart t
  let (frac, t) := fracPart t
  let (exp, t) := expPart t
  if frac = [] ∧ exp = none then some (.int (sign * Nat.ofDigitChars 10 digits 0), t)
  else some (.float (Double.ofRat (sign * Nat.ofDigitChars 10 (digits ++ frac) 0 *
    (10 : ℚ) ^ (exp.getD 0 - frac.length))), t)

/-- `NUMBER_RE` and the conversion of what it matched. -/
def matchNumber : Text → Option (Json × Text)
  | '-' :: t => unsigned (-1) t
  | t => unsigned 1 t

def literals : List (Text × Json) :=
  [("null".toList, .null), ("true".toList, .bool true), ("false".toList, .bool false),
    ("NaN".toList, .float .nan), ("Infinity".toList, .float (.inf false)),
    ("-Infinity".toList, .float (.inf true))]

def scanLiteral (t : Text) : Option (Json × Text) :=
  literals.findSome? fun p => if p.1.isPrefixOf t then some (p.2, t.drop p.1.length) else none

mutual

/-- `scan_once`. Each bracket it enters costs two steps of fuel and two characters. -/
def scanOnce : ℕ → Text → Option (Json × Text)
  | 0, _ => none
  | n + 1, t =>
    match t with
    | '"' :: t => (scanString t).map fun p => (.str p.1, p.2)
    | '{' :: t =>
      match skipWs t with
      | '}' :: t => some (.obj [], t)
      | t => (jsonObject n [] t).map fun p => (.obj p.1, p.2)
    | '[' :: t =>
      match skipWs t with
      | ']' :: t => some (.arr [], t)
      | t => (jsonArray n t).map fun p => (.arr p.1, p.2)
    | t => (scanLiteral t).or (matchNumber t)

/-- The members of an object from the next key on; a repeated key keeps the last value. -/
def jsonObject : ℕ → List (Text × Json) → Text → Option (List (Text × Json) × Text)
  | n + 1, d, '"' :: t => do
    let (key, t) ← scanString t
    match skipWs t with
    | ':' :: t => do
      let (value, t) ← scanOnce n (skipWs t)
      match skipWs t with
      | '}' :: t => some (set key value d, t)
      | ',' :: t => jsonObject n (set key value d) (skipWs t)
      | _ => none
    | _ => none
  | _, _, _ => none

def jsonArray : ℕ → Text → Option (List Json × Text)
  | 0, _ => none
  | n + 1, t => do
    let (value, t) ← scanOnce n t
    match skipWs t with
    | ']' :: t => some ([value], t)
    | ',' :: t => (jsonArray n (skipWs t)).map fun p => (value :: p.1, p.2)
    | _ => none

end

/-- `json.loads`, with `none` for a `JSONDecodeError`. -/
def loads (t : Text) : Option Json := do
  let (value, rest) ← scanOnce (2 * t.length + 2) (skipWs t)
  if skipWs rest = [] then some value else none

/-! ### Compact texts -/

/-- A text that stands in a JSON string as it is. -/
def Plain (s : Text) : Prop := ∀ c ∈ s, c ≠ '"' ∧ c ≠ '\\' ∧ 0x20 ≤ c.toNat

def quote (s : Text) : Text := '"' :: s ++ ['"']

/-- The decimal text that `%ld`, `%llu` and `%d` print. -/
def decimal (n : ℤ) : Text :=
  if n < 0 then '-' :: Nat.toDigits 10 n.natAbs else Nat.toDigits 10 n.natAbs

def arrText (ts : List Text) : Text := '[' :: [','].intercalate ts ++ [']']

def memberText (m : Text × Text) : Text := quote m.1 ++ ':' :: m.2

def objText (ms : List (Text × Text)) : Text := '{' :: [','].intercalate (ms.map memberText) ++ ['}']

lemma Plain.append {s t : Text} (hs : Plain s) (ht : Plain t) : Plain (s ++ t) := by
  intro c hc
  cases List.mem_append.mp hc with
  | inl h => exact hs c h
  | inr h => exact ht c h

lemma plain_decimal (n : ℤ) : Plain (decimal n) := by
  have hdigits : Plain (Nat.toDigits 10 n.natAbs) := by
    intro c hc
    have hd := Nat.isDigit_of_mem_toDigits (by norm_num) (by norm_num) hc
    refine ⟨?_, ?_, ?_⟩
    · rintro rfl
      simp at hd
    · rintro rfl
      simp at hd
    · simp only [Char.isDigit, Bool.and_eq_true, decide_eq_true_eq] at hd
      have : ('0' : Char).toNat ≤ c.toNat := hd.1
      exact le_trans (by decide) this
  unfold decimal
  split_ifs
  · exact .append (s := ['-']) (by simp [Plain]) hdigits
  · exact hdigits

/-- What may follow a value in a compact text. -/
def Ends (rest : Text) : Prop := ∀ c ∈ rest.head?, c = ',' ∨ c = ']' ∨ c = '}'

/-- Scanning `t` gives `v` and leaves what follows, once there is fuel for each character. -/
def Reads (t : Text) (v : Json) : Prop :=
  ∀ fuel rest, t.length ≤ fuel → Ends rest → scanOnce fuel (t ++ rest) = some (v, rest)

lemma scanString_plain {s : Text} (hs : Plain s) (rest : Text) :
    scanString (s ++ '"' :: rest) = some (s, rest) := by
  induction s with
  | nil => simp [scanString]
  | cons c s ih =>
    have hc := hs c (by simp)
    have hn : ¬ (c = '\\' ∨ c.toNat < 0x20) := by
      intro h
      cases h with
      | inl h => exact hc.2.1 h
      | inr h => omega
    have ih := ih fun d hd => hs d (by simp [hd])
    rw [List.cons_append, scanString.eq_def]
    split <;> simp_all

lemma reads_str {s : Text} (hs : Plain s) : Reads (quote s) (.str s) := by
  intro fuel rest hf _
  cases fuel with
  | zero => simp [quote] at hf
  | succ n =>
    rw [quote, List.append_assoc]
    simp [scanOnce, scanString_plain hs]

lemma reads_true : Reads "true".toList (.bool true) := by
  intro fuel rest hf _
  cases fuel with
  | zero => simp at hf
  | succ n => simp [scanOnce, scanLiteral, literals]

lemma reads_false : Reads "false".toList (.bool false) := by
  intro fuel rest hf _
  cases fuel with
  | zero => simp at hf
  | succ n => simp [scanOnce, scanLiteral, literals]

/-- Decimal texts start with a digit, with `0` only for zero. -/
lemma exists_toDigits (n : ℕ) :
    ∃ c ds, Nat.toDigits 10 n = c :: ds ∧ c.isDigit = true ∧ (n ≠ 0 → c ≠ '0') := by
  induction n using Nat.strong_induction_on with
  | _ n ih =>
    rw [Nat.toDigits_eq_if (by norm_num)]
    split_ifs with hlt
    · refine ⟨_, _, rfl, ?_⟩
      interval_cases n <;> simp [Nat.digitChar]
    · obtain ⟨c, ds, he, hc, h0⟩ := ih (n / 10) (by omega)
      exact ⟨c, ds ++ [Nat.digitChar (n % 10)], by simp [he], hc, fun _ => h0 (by omega)⟩

lemma Ends.span {rest : Text} (h : Ends rest) :
    rest.takeWhile Char.isDigit = [] ∧ rest.dropWhile Char.isDigit = rest := by
  cases rest with
  | nil => simp
  | cons c rest =>
    have hc : c.isDigit = false := by
      rcases h c rfl with rfl | rfl | rfl <;> decide
    simp [hc]

lemma intPart_toDigits (n : ℕ) {rest : Text} (h : Ends rest) :
    intPart (Nat.toDigits 10 n ++ rest) = some (Nat.toDigits 10 n, rest) := by
  by_cases hn : n = 0
  · simp [hn, intPart]
  · have hdigits : ∀ c ∈ Nat.toDigits 10 n, c.isDigit = true := fun c hc =>
      Nat.isDigit_of_mem_toDigits (by norm_num) (by norm_num) hc
    have htake : (Nat.toDigits 10 n ++ rest).takeWhile Char.isDigit = Nat.toDigits 10 n := by
      rw [List.takeWhile_append_of_pos hdigits, h.span.1, List.append_nil]
    have hdrop : (Nat.toDigits 10 n ++ rest).dropWhile Char.isDigit = rest := by
      rw [List.dropWhile_append_of_pos hdigits, h.span.2]
    obtain ⟨c, ds, he, -, h0⟩ := exists_toDigits n
    rw [intPart.eq_def]
    split
    · next t ht =>
      rw [he, List.cons_append, List.cons.injEq] at ht
      exact absurd ht.1 (h0 hn)
    · simp [htake, hdrop]

lemma Ends.fracPart {rest : Text} (h : Ends rest) : fracPart rest = ([], rest) := by
  rw [Json.fracPart.eq_def]
  split
  · next t => simp [Ends] at h
  · rfl

lemma Ends.expPart {rest : Text} (h : Ends rest) : expPart rest = (none, rest) := by
  cases rest with
  | nil => rfl
  | cons c rest =>
    have hc : ¬ (c = 'e' ∨ c = 'E') := by
      rcases h c rfl with rfl | rfl | rfl <;> decide
    simp [Json.expPart, hc]

lemma unsigned_toDigits (sign : ℤ) (n : ℕ) {rest : Text} (h : Ends rest) :
    unsigned sign (Nat.toDigits 10 n ++ rest) = some (.int (sign * n), rest) := by
  have hval : Nat.ofDigitChars 10 (Nat.toDigits 10 n) 0 = n :=
    Nat.ofDigitChars_toDigits (by norm_num) (by norm_num)
  simp [unsigned, intPart_toDigits n h, h.fracPart, h.expPart, hval]

lemma matchNumber_decimal (n : ℤ) {rest : Text} (h : Ends rest) :
    matchNumber (decimal n ++ rest) = some (.int n, rest) := by
  unfold decimal
  split_ifs with hneg
  · rw [List.cons_append, matchNumber, unsigned_toDigits _ _ h]
    rw [show -1 * (n.natAbs : ℤ) = n from by omega]
  · obtain ⟨c, ds, he, hc, -⟩ := exists_toDigits n.natAbs
    rw [matchNumber.eq_def]
    split
    · next t ht =>
      rw [he, List.cons_append, List.cons.injEq] at ht
      simp [ht.1] at hc
    · rw [unsigned_toDigits _ _ h, show 1 * (n.natAbs : ℤ) = n from by omega]

lemma ne_of_isDigit {c d : Char} (hc : c.isDigit = true) (hd : d.isDigit = false) : d ≠ c := by
  intro he
  simp [he, hc] at hd

lemma scanLiteral_digit {c : Char} (hc : c.isDigit = true) (t : Text) :
    scanLiteral (c :: t) = none := by
  have h := fun d => ne_of_isDigit (d := d) hc
  simp [scanLiteral, literals, h 'n' rfl, h 't' rfl, h 'f' rfl, h 'N' rfl, h 'I' rfl, h '-' rfl]

lemma scanLiteral_minus_digit {c : Char} (hc : c.isDigit = true) (t : Text) :
    scanLiteral ('-' :: c :: t) = none := by
  have h := fun d => ne_of_isDigit (d := d) hc
  simp [scanLiteral, literals, h 'I' rfl]

lemma scanOnce_word (fuel : ℕ) {c : Char} (t : Text) (hq : c ≠ '"') (ho : c ≠ '{') (ha : c ≠ '[') :
    scanOnce (fuel + 1) (c :: t) = (scanLiteral (c :: t)).or (matchNumber (c :: t)) := by
  rw [scanOnce.eq_def]
  dsimp only
  split
  all_goals simp_all

/-- A decimal text starts as no string, bracket or word does. -/
lemma scanOnce_decimal (fuel : ℕ) (n : ℤ) (rest : Text) :
    scanOnce (fuel + 1) (decimal n ++ rest) = matchNumber (decimal n ++ rest) := by
  obtain ⟨c, ds, he, hc, -⟩ := exists_toDigits n.natAbs
  unfold decimal
  split_ifs with hneg
  · rw [he, List.cons_append, List.cons_append, scanOnce_word _ _ (by decide) (by decide) (by decide),
      scanLiteral_minus_digit hc, Option.none_or]
  · have h := fun d hd => (ne_of_isDigit (d := d) hc hd).symm
    rw [he, List.cons_append, scanOnce_word _ _ (h _ rfl) (h _ rfl) (h _ rfl), scanLiteral_digit hc,
      Option.none_or]

lemma reads_int (n : ℤ) : Reads (decimal n) (.int n) := by
  intro fuel rest hf hrest
  cases fuel with
  | zero =>
    obtain ⟨c, ds, he, -, -⟩ := exists_toDigits n.natAbs
    simp only [decimal, he] at hf
    split_ifs at hf <;> simp at hf
  | succ fuel => rw [scanOnce_decimal, matchNumber_decimal n hrest]

/-- A text that reads as a value starts with neither a space nor a closing bracket. -/
lemma Reads.head {t : Text} {v : Json} (h : Reads t v) :
    ∃ c s, t = c :: s ∧ isWs c = false ∧ c ≠ ']' := by
  cases t with
  | nil =>
    have := h 0 [] (by simp) (by simp [Ends])
    simp [scanOnce] at this
  | cons c s =>
    refine ⟨c, s, rfl, ?_⟩
    have hscan := h (s.length + 1) [] (by simp) (by simp [Ends])
    have hnone (d : Char) (hd : isWs d = true ∨ d = ']') : scanOnce (s.length + 1) (d :: s) = none := by
      have hmem : d ∈ [' ', '\t', '\n', '\r', ']'] := by simpa [isWs, or_assoc] using hd
      fin_cases hmem <;>
        rw [scanOnce_word _ _ (by decide) (by decide) (by decide)] <;>
        simp [scanLiteral, literals, matchNumber, unsigned, intPart]
    constructor
    · by_contra hws
      rw [List.append_nil, hnone c (.inl (by simpa using hws))] at hscan
      simp at hscan
    · intro hc
      rw [List.append_nil, hnone c (.inr hc)] at hscan
      simp at hscan

lemma skipWs_cons {c : Char} (t : Text) (h : isWs c = false) : skipWs (c :: t) = c :: t := by
  simp [skipWs, h]

lemma Reads.skipWs {t : Text} {v : Json} (h : Reads t v) (rest : Text) :
    skipWs (t ++ rest) = t ++ rest := by
  obtain ⟨c, s, rfl, hc, -⟩ := h.head
  exact skipWs_cons _ hc

lemma intercalate_cons_append (t : Text) (ts : List Text) (rest : Text) :
    ∃ r, [','].intercalate (t :: ts) ++ rest = t ++ r := by
  cases ts with
  | nil => exact ⟨rest, by simp⟩
  | cons u ts => exact ⟨',' :: ([','].intercalate (u :: ts) ++ rest), by simp⟩

/-- The elements of an array: each value and the comma after it are read in turn. -/
lemma jsonArray_reads {α : Type*} {text : α → Text} {value : α → Json} (p : α) (ps : List α)
    (h : ∀ q ∈ p :: ps, Reads (text q) (value q)) (fuel : ℕ) (rest : Text)
    (hf : ([','].intercalate ((p :: ps).map text)).length + 1 ≤ fuel) :
    jsonArray fuel ([','].intercalate ((p :: ps).map text) ++ ']' :: rest) =
      some ((p :: ps).map value, rest) := by
  induction ps generalizing p fuel with
  | nil =>
    cases fuel with
    | zero => simp at hf
    | succ n =>
      have hp := h p (by simp) n (']' :: rest) (by simpa using hf) (by simp [Ends])
      simp [jsonArray, hp, Json.skipWs_cons, isWs]
  | cons q ps ih =>
    cases fuel with
    | zero => simp at hf
    | succ n =>
      simp only [List.map_cons, List.intercalate_cons_cons, List.append_assoc, List.length_append,
        List.length_cons, List.singleton_append] at hf ih ⊢
      have hp := h p (by simp) n
        (',' :: ([','].intercalate (text q :: ps.map text) ++ ']' :: rest)) (by omega)
        (by simp [Ends])
      have hq := ih q (fun r hr => h r (by simp [hr])) n (by omega)
      obtain ⟨r, hr⟩ := intercalate_cons_append (text q) (ps.map text) (']' :: rest)
      have hws := (h q (by simp)).skipWs r
      rw [← hr] at hws
      simp [jsonArray, hp, Json.skipWs_cons, isWs, hws, hq]

theorem reads_arr {α : Type*} {text : α → Text} {value : α → Json} {ps : List α}
    (h : ∀ p ∈ ps, Reads (text p) (value p)) :
    Reads (arrText (ps.map text)) (.arr (ps.map value)) := by
  intro fuel rest hf hrest
  cases fuel with
  | zero => simp [arrText] at hf
  | succ n =>
    cases ps with
    | nil => simp [arrText, scanOnce, Json.skipWs_cons, isWs]
    | cons p ps =>
      have helems := jsonArray_reads p ps h n rest (by simpa [arrText] using hf)
      obtain ⟨r, hr⟩ := intercalate_cons_append (text p) (ps.map text) (']' :: rest)
      obtain ⟨c, s, hc, hcw, hcb⟩ := (h p (by simp)).head
      have hws := (h p (by simp)).skipWs r
      simp only [List.map_cons] at helems
      simp only [arrText, List.map_cons, List.cons_append, List.append_assoc, List.nil_append,
        scanOnce, hr] at helems ⊢
      rw [hws]
      simp only [hc, List.cons_append] at helems ⊢
      split
      · simp_all
      · simp [helems]

lemma jsonObject_member {key t : Text} {v : Json} (hk : Plain key) (ht : Reads t v) (n : ℕ)
    (d : List (Text × Json)) {rest : Text} (hn : t.length ≤ n) (hrest : Ends rest) :
    jsonObject (n + 1) d (memberText (key, t) ++ rest) =
      match Json.skipWs rest with
      | '}' :: t => some (set key v d, t)
      | ',' :: t => jsonObject n (set key v d) (Json.skipWs t)
      | _ => none := by
  have htext : memberText (key, t) ++ rest = '"' :: (key ++ '"' :: (':' :: (t ++ rest))) := by
    simp [memberText, quote]
  simp only [htext, jsonObject, scanString_plain hk, Option.bind_eq_bind, Option.bind_some,
    Json.skipWs_cons _ (show isWs ':' = false from rfl), ht.skipWs, ht n rest hn hrest]

lemma length_memberText (m : Text × Text) :
    (memberText m).length = m.1.length + 3 + m.2.length := by
  simp [memberText, quote]
  omega

/-- The members of an object, read in turn into the dictionary so far. -/
lemma jsonObject_reads (m : Text × Text × Json) (ms : List (Text × Text × Json))
    (h : ∀ p ∈ m :: ms, Plain p.1 ∧ Reads p.2.1 p.2.2) (d : List (Text × Json)) (fuel : ℕ)
    (rest : Text)
    (hf : ([','].intercalate ((m :: ms).map fun p => memberText (p.1, p.2.1))).length + 1 ≤ fuel) :
    jsonObject fuel d ([','].intercalate ((m :: ms).map fun p => memberText (p.1, p.2.1)) ++
        '}' :: rest) =
      some (update d ((m :: ms).map fun p => (p.1, p.2.2)), rest) := by
  induction ms generalizing m d fuel with
  | nil =>
    cases fuel with
    | zero => simp at hf
    | succ n =>
      have hm := h m (by simp)
      simp only [List.map_cons, List.map_nil, List.intercalate_singleton, length_memberText] at hf ⊢
      rw [jsonObject_member hm.1 hm.2 n d (by omega) (by simp [Ends])]
      simp [Json.skipWs_cons, isWs, update]
  | cons m' ms ih =>
    cases fuel with
    | zero => simp at hf
    | succ n =>
      have hm := h m (by simp)
      have hih := ih m' (fun p hp => h p (by simp [hp])) (set m.1 m.2.2 d) n
      simp only [List.map_cons, List.intercalate_cons_cons, List.append_assoc, List.length_append,
        List.length_cons, List.singleton_append, length_memberText] at hf hih ⊢
      rw [jsonObject_member hm.1 hm.2 n d (by omega) (by simp [Ends])]
      obtain ⟨r, hr⟩ := intercalate_cons_append (memberText (m'.1, m'.2.1))
        (ms.map fun p => memberText (p.1, p.2.1)) ('}' :: rest)
      have hws : Json.skipWs (memberText (m'.1, m'.2.1) ++ r) = memberText (m'.1, m'.2.1) ++ r :=
        Json.skipWs_cons _ rfl
      simp only [List.cons_append, Json.skipWs_cons _ (show isWs ',' = false from rfl), hr, hws]
      rw [← hr, hih (by omega)]
      simp [update]

theorem reads_obj {ms : List (Text × Text × Json)} (h : ∀ p ∈ ms, Plain p.1 ∧ Reads p.2.1 p.2.2) :
    Reads (objText (ms.map fun p => (p.1, p.2.1))) (.obj (update [] (ms.map fun p => (p.1, p.2.2)))) := by
  intro fuel rest hf hrest
  cases fuel with
  | zero => simp [objText] at hf
  | succ n =>
    cases ms with
    | nil => simp [objText, scanOnce, Json.skipWs_cons, isWs, update]
    | cons m ms =>
      have hmembers := jsonObject_reads m ms h [] n rest
        (by simpa [objText, Function.comp_def] using hf)
      obtain ⟨r, hr⟩ := intercalate_cons_append (memberText (m.1, m.2.1))
        (ms.map fun p => memberText (p.1, p.2.1)) ('}' :: rest)
      simp only [List.map_cons] at hmembers
      rw [hr] at hmembers
      simp only [objText, List.map_cons, List.map_map, Function.comp_def, List.cons_append,
        List.append_assoc, List.nil_append, scanOnce, hr]
      have hws : Json.skipWs (memberText (m.1, m.2.1) ++ r) = memberText (m.1, m.2.1) ++ r :=
        Json.skipWs_cons _ rfl
      rw [hws]
      split
      · next t ht => simp [memberText, quote] at ht
      · simp [hmembers]

/-- A whole compact text is its value. -/
theorem Reads.loads {t : Text} {v : Json} (h : Reads t v) : loads t = some v := by
  have hscan := h (2 * t.length + 2) [] (by omega) (by simp [Ends])
  rw [List.append_nil] at hscan
  have hws := h.skipWs []
  rw [List.append_nil] at hws
  have hnil : Json.skipWs [] = [] := rfl
  simp [Json.loads, hws, hscan, hnil]

/-! ### Texts that are cut -/

/-- A string that the text ends before its quote. -/
lemma scanString_open {s : Text} (hs : Plain s) : scanString s = none := by
  induction s with
  | nil => rfl
  | cons c s ih =>
    obtain ⟨⟨hquote, hslash, hctrl⟩, hrest⟩ := List.forall_mem_cons.mp hs
    have hn : ¬ (c = '\\' ∨ c.toNat < 0x20) := by
      rintro (h | h)
      · exact hslash h
      · omega
    have hnone := ih hrest
    rw [scanString.eq_def]
    split <;> simp_all

lemma jsonObject_of_head {t : Text} (h : t.head? ≠ some '"') (n : ℕ) (d : List (Text × Json)) :
    jsonObject n d t = none := by
  rw [jsonObject.eq_def]
  split
  · exact absurd rfl h
  · rfl

lemma jsonObject_open_key {s : Text} (hs : Plain s) (n : ℕ) (d : List (Text × Json)) :
    jsonObject n d ('"' :: s) = none := by
  cases n with
  | zero => rw [jsonObject.eq_def]
  | succ n => rw [jsonObject, scanString_open hs]; rfl

lemma jsonObject_no_colon {key t : Text} (hk : Plain key) (ht : (Json.skipWs t).head? ≠ some ':')
    (n : ℕ) (d : List (Text × Json)) : jsonObject n d ('"' :: (key ++ '"' :: t)) = none := by
  cases n with
  | zero => rw [jsonObject.eq_def]
  | succ n =>
    rw [jsonObject, scanString_plain hk, Option.bind_eq_bind, Option.bind_some]
    dsimp only
    split
    · next heq => rw [heq] at ht; exact absurd rfl ht
    · rfl

lemma jsonObject_open_value {key s : Text} (hk : Plain key) (hs : Plain s) (n : ℕ)
    (d : List (Text × Json)) : jsonObject n d ('"' :: (key ++ '"' :: ':' :: '"' :: s)) = none := by
  cases n with
  | zero => rw [jsonObject.eq_def]
  | succ n =>
    have hvalue : scanOnce n ('"' :: s) = none := by
      cases n with
      | zero => rw [scanOnce.eq_def]
      | succ n => rw [scanOnce, scanString_open hs]; rfl
    rw [jsonObject, scanString_plain hk, Option.bind_eq_bind, Option.bind_some]
    simp [Json.skipWs_cons, isWs, hvalue]

/-- A member that is read does not help one behind it that is not. -/
lemma jsonObject_next {key v t : Text} (hk : Plain key) (hv : Plain v)
    (ht : ∀ n d, jsonObject n d (Json.skipWs t) = none) (n : ℕ) (d : List (Text × Json)) :
    jsonObject n d ('"' :: (key ++ '"' :: ':' :: '"' :: (v ++ '"' :: ',' :: t))) = none := by
  cases n with
  | zero => rw [jsonObject.eq_def]
  | succ n =>
    rw [jsonObject, scanString_plain hk, Option.bind_eq_bind, Option.bind_some]
    cases n with
    | zero => simp [Json.skipWs_cons, isWs, scanOnce]
    | succ n => simp [Json.skipWs_cons, isWs, scanOnce, scanString_plain hv, ht]

/-- A text that starts an object and has no member is the empty object or no JSON. -/
lemma loads_of_head {t : Text} (h : (Json.skipWs t).head? ≠ some '"') :
    loads ('\x7b' :: t) = none ∨ loads ('\x7b' :: t) = some (.obj []) := by
  rw [loads, Json.skipWs_cons _ (show isWs '\x7b' = false from rfl), scanOnce]
  split
  · next u heq =>
    rw [Option.bind_eq_bind, Option.bind_some]
    dsimp only
    split_ifs
    · exact .inr rfl
    · exact .inl rfl
  · rw [jsonObject_of_head h]
    exact .inl rfl

lemma loads_of_jsonObject {t : Text} (hhead : (Json.skipWs t).head? = some '"')
    (h : ∀ n d, jsonObject n d (Json.skipWs t) = none) : loads ('\x7b' :: t) = none := by
  rw [loads, Json.skipWs_cons _ (show isWs '\x7b' = false from rfl), scanOnce]
  split
  · next u heq =>
    rw [heq] at hhead
    exact absurd (Option.some.inj hhead) (by decide)
  · rw [h]
    rfl

end Json
