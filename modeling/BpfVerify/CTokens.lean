import BpfVerify.Regex

/-!
# Tokens of C

The lexical elements of C as text: continued lines are spliced, comments are deleted, and what is
left is cut into identifiers, preprocessing numbers and punctuators, each as long as possible. A
text has no string and no character literals.
-/
namespace CTokens
open Regex

/-- The characters of identifiers; beyond the ASCII ones they depend on the implementation. -/
structure Letters where
  word : Char → Bool
  ascii : ∀ c, c.toNat < 128 → word c = (c.isAlphanum || c = '_')

/-! ## Cutting a text into tokens -/

def splice : List Char → List Char
  | '\\' :: '\n' :: s => splice s
  | c :: s => c :: splice s
  | [] => []

/-- A block comment or one to the end of the line. -/
def comment : Pattern Char :=
  .alt (.seq (lit ['/', '*']) (.seq (.lazyStar fun _ => true) (lit ['*', '/'])))
    (.seq (lit ['/', '/']) (.star fun c => c ≠ '\n'))

def deleteComments (s : List Char) : List Char := sub comment.matchLen (fun _ => [' ']) s

def white (c : Char) : Bool := c ∈ [' ', '\t', '\n', '\x0b', '\x0c']

/-- The punctuators of more than one character, the longer ones first. -/
def punctuators : List (List Char) :=
  ["%:%:", "...", "<<=", ">>=", "->", "++", "--", "<<", ">>", "<=", ">=", "==", "!=", "&&", "||",
    "*=", "/=", "%=", "+=", "-=", "&=", "^=", "|=", "##", "<:", ":>", "<%", "%>", "%:"].map
    String.toList

def punctuation (s : List Char) : ℕ :=
  ((punctuators.find? fun p => p.isPrefixOf s).map List.length).getD 1

def startsNumber : List Char → Bool
  | [] => false
  | c :: s => c.isDigit || (c = '.' && s.head?.any Char.isDigit)

/-- A number goes on with `c` behind `prev`; a sign belongs to it after an exponent letter. -/
def inNumber (L : Letters) (prev c : Char) : Bool :=
  L.word c || c = '.' || (c ∈ ['+', '-'] && prev ∈ ['e', 'E', 'p', 'P'])

def numberTail (L : Letters) (prev : Char) : List Char → ℕ
  | [] => 0
  | c :: s => if inNumber L prev c then numberTail L c s + 1 else 0

/-- The length of the token at the start of a text, zero at white space. -/
def munch (L : Letters) (_ : Option Char) : List Char → ℕ
  | [] => 0
  | c :: s =>
    if white c then 0
    else if startsNumber (c :: s) then numberTail L c s + 1
    else if L.word c then (s.takeWhile L.word).length + 1
    else punctuation (c :: s)

def lex (L : Letters) (s : List Char) : List (List Char) := findall (munch L) s

/-! ## Characters -/

variable {L : Letters}

lemma word_of_isDigit {c : Char} (h : c.isDigit = true) : L.word c = true := by
  have hrange : c.toNat < 128 := by
    have hle : c ≤ '9' := by
      rw [Char.isDigit, Bool.and_eq_true, decide_eq_true_eq, decide_eq_true_eq] at h
      exact h.2
    have hnat : c.toNat ≤ '9'.toNat := hle
    exact lt_of_le_of_lt hnat (by decide)
  rw [L.ascii c hrange, Char.isAlphanum, h, Bool.or_true, Bool.true_or]

/-- Decided character by character, a list of ASCII characters is one of letters or of others. -/
lemma word_of_all {cs : List Char} {b : Bool}
    (h : cs.all (fun d => d.toNat < 128 && (d.isAlphanum || d = '_') == b) = true) {c : Char}
    (hc : c ∈ cs) : L.word c = b := by
  have hd := List.all_eq_true.mp h c hc
  rw [Bool.and_eq_true, decide_eq_true_eq, beq_iff_eq] at hd
  rw [L.ascii c hd.1, hd.2]

lemma word_of_white {c : Char} (h : white c = true) : L.word c = false :=
  word_of_all (by rfl) (of_decide_eq_true h)

lemma word_of_punctuator {p : List Char} (hp : p ∈ punctuators) {c : Char} (hc : c ∈ p) :
    L.word c = false :=
  have hall : punctuators.flatten.all
      (fun d => d.toNat < 128 && (d.isAlphanum || d = '_') == false) = true := rfl
  word_of_all hall (List.mem_flatten.mpr ⟨p, hp, hc⟩)

lemma punctuator_ne_nil {p : List Char} (hp : p ∈ punctuators) : p ≠ [] := by
  have hall : punctuators.all (fun q => q ≠ []) = true := rfl
  exact of_decide_eq_true (List.all_eq_true.mp hall p hp)

/-! ## Lengths -/

lemma punctuation_cases (s : List Char) :
    punctuation s = 1 ∧ (∀ p ∈ punctuators, ¬ p <+: s) ∨
      ∃ p ∈ punctuators, p <+: s ∧ punctuation s = p.length := by
  rw [punctuation]
  cases h : punctuators.find? fun p => p.isPrefixOf s with
  | none =>
    refine .inl ⟨rfl, fun p hp hps => ?_⟩
    exact absurd (List.isPrefixOf_iff_prefix.mpr hps) (by simpa using List.find?_eq_none.mp h p hp)
  | some p =>
    have hps := List.find?_some h
    exact .inr ⟨p, List.mem_of_find?_eq_some h, List.isPrefixOf_iff_prefix.mp hps, rfl⟩

lemma punctuation_congr {s t : List Char} (h : ∀ p ∈ punctuators, p <+: s ↔ p <+: t) :
    punctuation s = punctuation t := by
  have hfind : punctuators.find? (fun p => p.isPrefixOf s) =
      punctuators.find? fun p => p.isPrefixOf t := by
    apply List.find?_congr
    intro p hp
    rw [Bool.eq_iff_iff, List.isPrefixOf_iff_prefix, List.isPrefixOf_iff_prefix]
    exact h p hp
  rw [punctuation, punctuation, hfind]

lemma punctuation_pos (s : List Char) : 0 < punctuation s := by
  rcases punctuation_cases s with ⟨h, -⟩ | ⟨p, hp, -, h⟩
  · omega
  · rw [h]
    exact List.length_pos_of_ne_nil (punctuator_ne_nil hp)

lemma numberTail_le (prev : Char) (s : List Char) : numberTail L prev s ≤ s.length := by
  induction s generalizing prev with
  | nil => exact le_rfl
  | cons c s ih =>
    rw [numberTail]
    split_ifs
    · exact Nat.succ_le_succ (ih c)
    · exact Nat.zero_le _

lemma munch_white {prev : Option Char} {c : Char} {s : List Char} (h : white c = true) :
    munch L prev (c :: s) = 0 := if_pos h

lemma munch_pos {prev : Option Char} {c : Char} {s : List Char} (h : white c = false) :
    0 < munch L prev (c :: s) := by
  rw [munch, if_neg (Bool.eq_false_iff.mp h)]
  split_ifs
  · exact Nat.succ_pos _
  · exact Nat.succ_pos _
  · exact punctuation_pos _

lemma munch_le (prev : Option Char) (s : List Char) : munch L prev s ≤ s.length := by
  cases s with
  | nil => exact le_rfl
  | cons c s =>
    rw [munch]
    split_ifs
    · exact Nat.zero_le _
    · exact Nat.succ_le_succ (numberTail_le c s)
    · exact Nat.succ_le_succ (List.takeWhile_sublist _).length_le
    · rcases punctuation_cases (c :: s) with ⟨h, -⟩ | ⟨p, -, hps, h⟩
      · rw [h, List.length_cons]
        omega
      · rw [h]
        exact hps.length_le

/-! ## One token after the other -/

lemma pieces_prev (prev prev' : Option Char) (skip : ℕ) (s : List Char) :
    pieces (munch L) prev skip s = pieces (munch L) prev' skip s := by
  cases s with
  | nil => rfl
  | cons c s => cases skip with
    | zero => rfl
    | succ skip => rfl

lemma lex_white {c : Char} (h : white c = true) (s : List Char) : lex L (c :: s) = lex L s := by
  rw [lex, findall, pieces_char (munch_white h), hits, pieces_prev _ none]
  rfl

lemma lex_token {t s : List Char} (ht : t ≠ []) (h : munch L none (t ++ s) = t.length) :
    lex L (t ++ s) = t :: lex L s := by
  rw [lex, findall, pieces_hit ht h, hits, pieces_prev _ none]
  rfl

/-- A text is empty, goes on with white space, or with a token. -/
theorem lex_induction (L : Letters) {motive : List Char → Prop} (nil : motive [])
    (white : ∀ c s, white c = true → motive s → motive (c :: s))
    (token : ∀ t s, t ≠ [] → munch L none (t ++ s) = t.length → motive s → motive (t ++ s))
    (s : List Char) : motive s := by
  refine @scan_induction _ (munch L) munch_le (fun _ s => motive s) ?_ ?_ ?_ none s
  · exact fun _ => nil
  · intro prev c s hc ih
    by_cases hw : CTokens.white c = true
    · exact white c s hw ih
    · exact absurd hc (munch_pos (Bool.eq_false_iff.mpr hw)).ne'
  · exact fun prev t s ht h ih => token t s ht h ih

/-! ## Characters that end a token -/

/-- No token goes on with this character. -/
def Stop (L : Letters) (c : Char) : Prop :=
  L.word c = false ∧ c ∉ ['.', '+', '-'] ∧ ∀ p ∈ punctuators, c ∉ p

lemma stop_of_white {c : Char} (h : white c = true) : Stop L c := by
  have hall : [' ', '\t', '\n', '\x0b', '\x0c'].all (fun c =>
      c ∉ ['.', '+', '-'] && punctuators.all fun p => c ∉ p) = true := rfl
  have hc := List.all_eq_true.mp hall c (of_decide_eq_true h)
  rw [Bool.and_eq_true, decide_eq_true_eq] at hc
  exact ⟨word_of_white h, hc.1, fun p hp => of_decide_eq_true (List.all_eq_true.mp hc.2 p hp)⟩

def bracket (c : Char) : Bool := c ∈ ['(', ')', '\x7b', '\x7d', ';']

lemma stop_of_bracket {c : Char} (h : bracket c = true) : Stop L c := by
  have hall : ['(', ')', '\x7b', '\x7d', ';'].all (fun c =>
      c ∉ ['.', '+', '-'] && punctuators.all fun p => c ∉ p) = true := rfl
  have hc := List.all_eq_true.mp hall c (of_decide_eq_true h)
  rw [Bool.and_eq_true, decide_eq_true_eq] at hc
  exact ⟨word_of_all (by rfl) (of_decide_eq_true h), hc.1,
    fun p hp => of_decide_eq_true (List.all_eq_true.mp hc.2 p hp)⟩

lemma isDigit_of_stop {c : Char} (h : Stop L c) : c.isDigit = false := by
  by_contra hd
  have hword := @word_of_isDigit L c (Bool.eq_true_of_not_eq_false hd)
  rw [h.1] at hword
  exact Bool.false_ne_true hword

lemma numberTail_stop (prev : Char) {c : Char} (h : Stop L c) (s t : List Char) :
    numberTail L prev (s ++ c :: t) = numberTail L prev s := by
  induction s generalizing prev with
  | nil =>
    have hc := h.2.1
    simp only [List.mem_cons, List.not_mem_nil, or_false, not_or] at hc
    simp [numberTail, inNumber, h.1, hc]
  | cons d s ih => rw [List.cons_append, numberTail, numberTail, ih]

lemma takeWhile_stop {c : Char} (h : Stop L c) (s t : List Char) :
    (s ++ c :: t).takeWhile L.word = s.takeWhile L.word := by
  induction s with
  | nil => rw [List.nil_append, List.takeWhile_cons_of_neg (Bool.eq_false_iff.mp h.1),
      List.takeWhile_nil]
  | cons d s ih => rw [List.cons_append, List.takeWhile_cons, List.takeWhile_cons, ih]

lemma prefix_stop {p s t : List Char} {c : Char} (h : c ∉ p) :
    p <+: s ++ c :: t ↔ p <+: s := by
  induction s generalizing p with
  | nil =>
    cases p with
    | nil => exact ⟨fun _ => List.nil_prefix, fun _ => List.nil_prefix⟩
    | cons d p =>
      rw [List.nil_append, List.cons_prefix_cons, List.prefix_nil]
      constructor
      · exact fun hd => absurd (hd.1 ▸ List.mem_cons_self) h
      · exact fun hd => absurd hd (List.cons_ne_nil d p)
  | cons e s ih =>
    cases p with
    | nil => exact ⟨fun _ => List.nil_prefix, fun _ => List.nil_prefix⟩
    | cons d p =>
      rw [List.cons_append, List.cons_prefix_cons, List.cons_prefix_cons,
        ih fun hp => h (List.mem_cons_of_mem d hp)]

lemma startsNumber_stop {c : Char} (h : Stop L c) {s : List Char} (hs : s ≠ []) (t : List Char) :
    startsNumber (s ++ c :: t) = startsNumber s := by
  obtain ⟨d, s, rfl⟩ := List.exists_cons_of_ne_nil hs
  cases s with
  | nil => simp [startsNumber, isDigit_of_stop h]
  | cons e s => rfl

/-- A token is not longer for what follows such a character. -/
lemma munch_stop {c : Char} (h : Stop L c) {s : List Char} (hs : s ≠ []) (t : List Char) :
    munch L none (s ++ c :: t) = munch L none s := by
  have hnumber := startsNumber_stop h hs t
  have hpunct := @punctuation_congr (s ++ c :: t) s fun p hp => prefix_stop (h.2.2 p hp)
  obtain ⟨d, s, rfl⟩ := List.exists_cons_of_ne_nil hs
  rw [List.cons_append] at hnumber hpunct ⊢
  rw [munch, munch, hnumber, numberTail_stop d h, takeWhile_stop h, hpunct]

lemma lex_stop {c : Char} (h : Stop L c) (s t : List Char) :
    lex L (s ++ c :: t) = lex L s ++ lex L (c :: t) := by
  induction s using lex_induction L with
  | nil => rfl
  | white d s hd ih => rw [List.cons_append, lex_white hd, lex_white hd, ih]
  | token u s hu hmunch ih =>
    have hus : u ++ s ≠ [] := List.append_ne_nil_of_left_ne_nil hu s
    rw [lex_token hu hmunch, List.append_assoc, lex_token hu, ih, List.cons_append]
    rw [← List.append_assoc, munch_stop h hus, hmunch]

/-- White space between two texts separates their tokens. -/
theorem lex_append_white {c : Char} (h : white c = true) (s t : List Char) :
    lex L (s ++ c :: t) = lex L s ++ lex L t := by
  rw [lex_stop (stop_of_white h), lex_white h]

/-- A bracket or a semicolon is a token wherever it stands. -/
theorem lex_append_bracket {c : Char} (h : bracket c = true) (s t : List Char) :
    lex L (s ++ c :: t) = lex L s ++ [c] :: lex L t := by
  have hstop : Stop L c := stop_of_bracket h
  have hwhite : white c = false := by
    have hall : ['(', ')', '\x7b', '\x7d', ';'].all (fun c => !white c) = true := rfl
    simpa using List.all_eq_true.mp hall c (of_decide_eq_true h)
  have hnumber : startsNumber (c :: t) = false := by
    have hdot : c ≠ '.' := fun heq => hstop.2.1 (heq ▸ List.mem_cons_self)
    rw [startsNumber, isDigit_of_stop hstop, decide_eq_false hdot]
    rfl
  have hpunct : punctuation (c :: t) = 1 := by
    rcases punctuation_cases (c :: t) with ⟨h1, -⟩ | ⟨p, hp, hpre, -⟩
    · exact h1
    · obtain ⟨d, q, rfl⟩ := List.exists_cons_of_ne_nil (punctuator_ne_nil hp)
      rw [List.cons_prefix_cons] at hpre
      exact absurd (hpre.1 ▸ List.mem_cons_self) (hstop.2.2 _ hp)
  rw [lex_stop hstop, ← List.singleton_append, lex_token (List.cons_ne_nil c [])]
  rw [List.singleton_append, munch, hwhite, hnumber, hstop.1, hpunct]
  rfl

/-! ## Names -/

def Name (L : Letters) (w : List Char) : Prop :=
  w ≠ [] ∧ (∀ c ∈ w, L.word c = true) ∧ w.head?.any Char.isDigit = false

lemma Name.head {w : List Char} (hw : Name L w) (s : List Char) :
    (w ++ s).head?.any L.word = true := by
  obtain ⟨c, v, rfl⟩ := List.exists_cons_of_ne_nil hw.1
  exact hw.2.1 c List.mem_cons_self

lemma white_of_word {c : Char} (h : L.word c = true) : white c = false := by
  by_contra hw
  rw [word_of_white (Bool.eq_true_of_not_eq_false hw)] at h
  exact Bool.false_ne_true h

lemma word_dot (L : Letters) : L.word '.' = false := L.ascii '.' (by decide)

lemma startsNumber_name {c : Char} {s : List Char} (hword : L.word c = true)
    (hdigit : c.isDigit = false) : startsNumber (c :: s) = false := by
  have hdot : c ≠ '.' := by
    rintro rfl
    rw [word_dot] at hword
    exact Bool.false_ne_true hword
  rw [startsNumber, hdigit, decide_eq_false hdot]
  rfl

lemma takeWhile_name {w s : List Char} (hw : ∀ c ∈ w, L.word c = true)
    (hs : s.head?.any L.word = false) : (w ++ s).takeWhile L.word = w := by
  rw [List.takeWhile_append_of_pos hw]
  cases s with
  | nil => rw [List.takeWhile_nil, List.append_nil]
  | cons c s => rw [List.takeWhile_cons_of_neg (by simpa using hs), List.append_nil]

/-- A name is a token before anything that does not go on with it. -/
lemma munch_name {w s : List Char} (hw : Name L w) (hs : s.head?.any L.word = false) :
    munch L none (w ++ s) = w.length := by
  obtain ⟨hne, hall, hdigit⟩ := hw
  obtain ⟨c, w, rfl⟩ := List.exists_cons_of_ne_nil hne
  have hc := hall c List.mem_cons_self
  have htail : ∀ d ∈ w, L.word d = true := fun d hd => hall d (List.mem_cons_of_mem c hd)
  rw [List.cons_append, munch, white_of_word hc, startsNumber_name hc hdigit, hc,
    takeWhile_name htail hs]
  rfl

lemma lex_name {w : List Char} (hw : Name L w) : lex L w = [w] := by
  have hmunch := munch_name hw (s := []) rfl
  have hlex := lex_token hw.1 hmunch
  rwa [List.append_nil] at hlex

/-! ## Kinds of tokens -/

/-- A token before `s`: behind a name or a number no letter and no digit follows. -/
inductive Kind (L : Letters) (t s : List Char) : Prop where
  | number (hnumber : startsNumber t = true) (hs : s.head?.any L.word = false)
      (htail : ∀ s', s'.head? = s.head? → munch L none (t ++ s') = t.length)
  | name (hname : Name L t) (hs : s.head?.any L.word = false)
  | punctuator (hchars : ∀ c ∈ t, L.word c = false) (hnumber : startsNumber (t ++ s) = false)
      (hlen : punctuation (t ++ s) = t.length)

lemma numberTail_nil {prev : Char} {s : List Char} (h : numberTail L prev s = 0) :
    s.head?.any L.word = false ∧ ∀ s', s'.head? = s.head? → numberTail L prev s' = 0 := by
  cases s with
  | nil =>
    refine ⟨rfl, fun s' hs' => ?_⟩
    rw [List.head?_eq_none_iff.mp hs']
    rfl
  | cons c s =>
    rw [numberTail] at h
    by_cases hc : inNumber L prev c = true
    · rw [if_pos hc] at h
      exact absurd h (Nat.succ_ne_zero _)
    · refine ⟨?_, fun s' hs' => ?_⟩
      · rw [inNumber, Bool.or_eq_true, Bool.or_eq_true, not_or, not_or] at hc
        exact Bool.eq_false_iff.mpr hc.1.1
      · obtain ⟨s'', rfl⟩ := List.head?_eq_some_iff.mp hs'
        rw [numberTail, if_neg hc]

lemma numberTail_append {prev : Char} {t s : List Char}
    (h : numberTail L prev (t ++ s) = t.length) :
    s.head?.any L.word = false ∧
      ∀ s', s'.head? = s.head? → numberTail L prev (t ++ s') = t.length := by
  induction t generalizing prev with
  | nil => exact numberTail_nil h
  | cons d t ih =>
    rw [List.cons_append, numberTail] at h
    by_cases hd : inNumber L prev d = true
    · rw [if_pos hd] at h
      obtain ⟨hs, htail⟩ := ih (Nat.succ.inj h)
      refine ⟨hs, fun s' hs' => ?_⟩
      rw [List.cons_append, numberTail, if_pos hd, htail s' hs', List.length_cons]
    · rw [if_neg hd] at h
      exact absurd h.symm (Nat.succ_ne_zero _)

lemma startsNumber_append {c : Char} {t s s' : List Char} (hs : s'.head? = s.head?) :
    startsNumber (c :: (t ++ s')) = startsNumber (c :: (t ++ s)) := by
  rw [startsNumber, startsNumber, List.head?_append, List.head?_append, hs]

lemma kind_number {c : Char} {t s : List Char} (hwhite : white c = false)
    (hnumber : startsNumber (c :: (t ++ s)) = true)
    (h : numberTail L c (t ++ s) = t.length) : Kind L (c :: t) s := by
  obtain ⟨hs, htail⟩ := numberTail_append h
  refine .number ?_ hs fun s' hs' => ?_
  · cases t with
    | nil =>
      -- no digit follows, so the point alone is no number
      have hdigit : s.head?.any Char.isDigit = false := by
        cases s with
        | nil => rfl
        | cons d s =>
          by_contra hd
          have hword := @word_of_isDigit L d (Bool.eq_true_of_not_eq_false hd)
          rw [List.head?_cons, Option.any_some, hword] at hs
          exact Bool.false_ne_true hs.symm
      rw [List.nil_append, startsNumber, hdigit] at hnumber
      rw [startsNumber]
      exact hnumber
    | cons d t => exact hnumber
  · rw [List.cons_append, munch, hwhite, startsNumber_append hs', hnumber, htail s' hs']
    rfl

lemma kind_name {c : Char} {t s : List Char} (hnumber : startsNumber (c :: (t ++ s)) = false)
    (hword : L.word c = true) (h : ((t ++ s).takeWhile L.word).length = t.length) :
    Kind L (c :: t) s := by
  have htake : (t ++ s).takeWhile L.word = t := by
    have hprefix := List.takeWhile_prefix L.word (l := t ++ s)
    exact (List.prefix_of_prefix_length_le hprefix (List.prefix_append t s) h.le).eq_of_length h
  have hall : ∀ d ∈ t, L.word d = true := by
    rw [← htake]
    exact fun d => List.mem_takeWhile_imp
  rw [startsNumber, Bool.or_eq_false_iff] at hnumber
  refine .name ⟨List.cons_ne_nil c t, List.forall_mem_cons.mpr ⟨hword, hall⟩, hnumber.1⟩ ?_
  rw [List.takeWhile_append_of_pos hall, List.append_right_eq_self] at htake
  cases s with
  | nil => rfl
  | cons d s =>
    by_contra hd
    rw [List.takeWhile_cons_of_pos (by simpa using hd)] at htake
    exact absurd htake (List.cons_ne_nil _ _)

lemma kind_punctuator {c : Char} {t s : List Char}
    (hnumber : startsNumber (c :: (t ++ s)) = false) (hword : L.word c = false)
    (h : punctuation (c :: (t ++ s)) = (c :: t).length) : Kind L (c :: t) s := by
  refine .punctuator ?_ hnumber h
  rcases punctuation_cases (c :: (t ++ s)) with ⟨h1, -⟩ | ⟨p, hp, hpre, hlen⟩
  · rw [h1, List.length_cons] at h
    rw [List.length_eq_zero_iff.mp (Nat.succ.inj h).symm]
    exact List.forall_mem_singleton.mpr hword
  · have hpt : p = c :: t := by
      have hct := List.prefix_of_prefix_length_le hpre (List.prefix_append (c :: t) s) (by omega)
      exact hct.eq_of_length (by omega)
    exact fun d hd => word_of_punctuator hp (hpt ▸ hd)

/-- What stands at the start of a text in the length of its first token. -/
theorem kind_of_munch {t s : List Char} (ht : t ≠ []) (h : munch L none (t ++ s) = t.length) :
    Kind L t s := by
  obtain ⟨c, t, rfl⟩ := List.exists_cons_of_ne_nil ht
  rw [List.cons_append, munch] at h
  cases hwhite : white c with
  | true =>
    rw [if_pos hwhite] at h
    exact absurd h.symm (Nat.succ_ne_zero _)
  | false =>
    rw [if_neg (Bool.eq_false_iff.mp hwhite)] at h
    cases hnumber : startsNumber (c :: (t ++ s)) with
    | true =>
      rw [if_pos hnumber] at h
      exact kind_number hwhite hnumber (Nat.succ.inj h)
    | false =>
      rw [if_neg (Bool.eq_false_iff.mp hnumber)] at h
      cases hword : L.word c with
      | true =>
        rw [if_pos hword] at h
        exact kind_name hnumber hword (Nat.succ.inj h)
      | false =>
        rw [if_neg (Bool.eq_false_iff.mp hword)] at h
        exact kind_punctuator hnumber hword h

/-! ## Replacing a name -/

section Rename

variable {w new : List Char}

/-- The text with the whole word `w` replaced by `new`. -/
def rename (L : Letters) (w new : List Char) (s : List Char) : List Char :=
  sub (wholeWord L.word w).matchLen (fun _ => new) s

def renameFrom (L : Letters) (w new : List Char) (prev : Option Char) (s : List Char) :
    List Char :=
  subFrom (wholeWord L.word w).matchLen (fun _ => new) prev s

def renameToken (w new t : List Char) : List Char := if t = w then new else t

/-- Two texts agree up to their first letters, and these are both digits or both none. -/
def Alike (L : Letters) : List Char → List Char → Prop
  | [], [] => True
  | c :: s, d :: t =>
    L.word c = true ∧ L.word d = true ∧ c.isDigit = d.isDigit ∨
      L.word c = false ∧ c = d ∧ Alike L s t
  | _, _ => False

lemma Alike.symm {s t : List Char} (h : Alike L s t) : Alike L t s := by
  induction s generalizing t with
  | nil =>
    cases t with
    | nil => exact h
    | cons d t => exact h
  | cons c s ih =>
    cases t with
    | nil => exact h
    | cons d t =>
      rcases h with ⟨hc, hd, hdigit⟩ | ⟨hc, rfl, hst⟩
      · exact .inl ⟨hd, hc, hdigit.symm⟩
      · exact .inr ⟨hc, rfl, ih hst⟩

lemma Alike.append {s t : List Char} (h : Alike L s t) (p : List Char) :
    Alike L (p ++ s) (p ++ t) := by
  induction p with
  | nil => exact h
  | cons c p ih =>
    cases hc : L.word c with
    | true => exact .inl ⟨hc, hc, rfl⟩
    | false => exact .inr ⟨hc, rfl, ih⟩

lemma Alike.starts {s t p : List Char} (h : Alike L s t) (hp : ∀ c ∈ p, L.word c = false)
    (hs : p <+: s) : p <+: t := by
  induction p generalizing s t with
  | nil => exact List.nil_prefix
  | cons e p ih =>
    obtain ⟨s', rfl⟩ := hs
    have he := hp e List.mem_cons_self
    cases t with
    | nil => exact absurd h id
    | cons d t =>
      rcases h with ⟨hc, -⟩ | ⟨-, rfl, hst⟩
      · rw [he] at hc
        exact absurd hc Bool.false_ne_true
      · exact List.cons_prefix_cons.mpr
          ⟨rfl, ih hst (fun c hc => hp c (List.mem_cons_of_mem e hc)) (List.prefix_append p s')⟩

lemma Alike.punctuation {s t : List Char} (h : Alike L s t) : punctuation s = punctuation t :=
  punctuation_congr fun _ hp =>
    ⟨h.starts fun _ => word_of_punctuator hp, h.symm.starts fun _ => word_of_punctuator hp⟩

lemma Alike.startsNumber {c : Char} {s t : List Char} (h : Alike L s t) :
    startsNumber (c :: s) = startsNumber (c :: t) := by
  cases s with
  | nil =>
    cases t with
    | nil => rfl
    | cons d t => exact absurd h id
  | cons d s =>
    cases t with
    | nil => exact absurd h id
    | cons e t =>
      have hdigit : d.isDigit = e.isDigit := by
        rcases h with ⟨-, -, h⟩ | ⟨-, rfl, -⟩
        · exact h
        · rfl
      rw [CTokens.startsNumber, CTokens.startsNumber, List.head?_cons, List.head?_cons,
        Option.any_some, Option.any_some, hdigit]

lemma Alike.head {s t : List Char} (h : Alike L s t) (hs : s.head?.any L.word = false) :
    t.head? = s.head? := by
  cases s with
  | nil =>
    cases t with
    | nil => rfl
    | cons d t => exact absurd h id
  | cons c s =>
    cases t with
    | nil => exact absurd h id
    | cons d t =>
      rcases h with ⟨hc, -⟩ | ⟨-, rfl, -⟩
      · rw [List.head?_cons, Option.any_some, hc] at hs
        exact absurd hs.symm Bool.false_ne_true
      · rfl

/-- No whole word starts in the middle of another one. -/
def Start (L : Letters) (prev : Option Char) (s : List Char) : Prop :=
  prev.any L.word = false ∨ s.head?.any L.word = false

lemma matchLen_of_not_word (hw : Name L w) {prev : Option Char} {s : List Char}
    (hs : s.head?.any L.word = false) : (wholeWord L.word w).matchLen prev s = 0 := by
  by_contra hne
  obtain ⟨-, y, rfl, -⟩ := matchLen_wholeWord_ne_zero hw.1 hw.2.1 hne
  rw [hw.head] at hs
  exact Bool.false_ne_true hs.symm

lemma alike_renameFrom (hw : Name L w) (hnew : Name L new) (prev : Option Char) (s : List Char) :
    Alike L s (renameFrom L w new prev s) := by
  induction s generalizing prev with
  | nil => exact trivial
  | cons c s ih =>
    by_cases h : (wholeWord L.word w).matchLen prev (c :: s) = 0
    · rw [renameFrom, subFrom_char h]
      cases hc : L.word c with
      | true => exact .inl ⟨hc, hc, rfl⟩
      | false => exact .inr ⟨hc, rfl, ih (some c)⟩
    · obtain ⟨hprev, y, hy, hword⟩ := matchLen_wholeWord_ne_zero hw.1 hw.2.1 h
      have hlen := matchLen_wholeWord hw.1 hw.2.1 hprev hword
      rw [renameFrom, hy, subFrom_hit hw.1 hlen]
      obtain ⟨d, v, rfl⟩ := List.exists_cons_of_ne_nil hw.1
      obtain ⟨e, n, rfl⟩ := List.exists_cons_of_ne_nil hnew.1
      exact .inl ⟨hw.2.1 d List.mem_cons_self, hnew.2.1 e List.mem_cons_self,
        hw.2.2.trans hnew.2.2.symm⟩

/-- In a number the word is looked for within the number alone. -/
lemma no_match_number (hw : Name L w) {t s : List Char} (hs : s.head?.any L.word = false)
    (hfind : findall (wholeWord L.word w).matchLen t = []) {prev : Option Char} {p q : List Char}
    (ht : t = p ++ q) (hq : q ≠ []) :
    (wholeWord L.word w).matchLen (p.getLast?.or prev) (q ++ s) = 0 := by
  by_contra hne
  obtain ⟨hprev, y, hy, hword⟩ := matchLen_wholeWord_ne_zero hw.1 hw.2.1 hne
  have hzero := findall_eq_nil hfind ht hq
  cases cut_cases hy with
  | inr hin =>
    obtain ⟨u, rfl, rfl⟩ := hin
    have hu : u.head?.any L.word = false := by
      cases u with
      | nil => rfl
      | cons d u => exact hword
    have hlast : (p.getLast?.or none).any L.word = false := by
      cases hp : p.getLast? with
      | none => rfl
      | some d =>
        rw [hp] at hprev
        exact hprev
    rw [matchLen_wholeWord hw.1 hw.2.1 hlast hu] at hzero
    exact hw.1 (List.length_eq_zero_iff.mp hzero)
  | inl hout =>
    obtain ⟨u, hu, rfl, rfl⟩ := hout
    obtain ⟨d, v, rfl⟩ := List.exists_cons_of_ne_nil hu
    have hd := hw.2.1 d (List.mem_append_right q List.mem_cons_self)
    rw [List.cons_append, List.head?_cons, Option.any_some, hd] at hs
    exact Bool.false_ne_true hs.symm

lemma no_match (hw : Name L w) {t s : List Char} (hkind : Kind L t s) (hne : t ≠ w)
    (hnumber : startsNumber t = true → findall (wholeWord L.word w).matchLen t = [])
    {prev : Option Char} {p q : List Char} (ht : t = p ++ q) (hq : q ≠ []) :
    (wholeWord L.word w).matchLen (p.getLast?.or prev) (q ++ s) = 0 := by
  cases hkind with
  | number hstarts hs htail => exact no_match_number hw hs (hnumber hstarts) ht hq
  | name hname hs =>
    by_contra hmatch
    obtain ⟨hprev, y, hy, hword⟩ := matchLen_wholeWord_ne_zero hw.1 hw.2.1 hmatch
    by_cases hp : p = []
    · rw [hp, List.nil_append] at ht
      rw [← ht] at hy
      have htake := congrArg (List.takeWhile L.word) hy
      rw [takeWhile_name hname.2.1 hs, takeWhile_name hw.2.1 hword] at htake
      exact hne htake
    · have hlast := hname.2.1 (p.getLast hp) (ht ▸ List.mem_append_left q (List.getLast_mem hp))
      rw [List.getLast?_eq_getLast_of_ne_nil hp, Option.some_or, Option.any_some, hlast] at hprev
      exact Bool.false_ne_true hprev.symm
  | punctuator hchars =>
    refine matchLen_of_not_word hw ?_
    obtain ⟨d, q, rfl⟩ := List.exists_cons_of_ne_nil hq
    exact hchars d (ht ▸ List.mem_append_right p List.mem_cons_self)

lemma munch_alike {c : Char} {s t : List Char} (hc : L.word c = false)
    (hnumber : startsNumber (c :: s) = false) (h : Alike L s t) :
    munch L none (c :: t) = munch L none (c :: s) := by
  have hcs : Alike L (c :: s) (c :: t) := .inr ⟨hc, rfl, h⟩
  rw [munch, munch, ← h.startsNumber, hcs.punctuation, hc, hnumber]
  rfl

lemma Kind.next {t s : List Char} (h : Kind L t s) (ht : Name L t) :
    s.head?.any L.word = false := by
  cases h with
  | number hnumber hs => exact hs
  | name hname hs => exact hs
  | punctuator hchars =>
    obtain ⟨c, t, rfl⟩ := List.exists_cons_of_ne_nil ht.1
    have hc := hchars c List.mem_cons_self
    rw [ht.2.1 c List.mem_cons_self] at hc
    exact absurd hc.symm Bool.false_ne_true

lemma Start.prev {prev : Option Char} {s : List Char} (h : Start L prev (w ++ s))
    (hw : Name L w) : prev.any L.word = false := by
  cases h with
  | inl hprev => exact hprev
  | inr hhead =>
    rw [hw.head] at hhead
    exact absurd hhead.symm Bool.false_ne_true

/-- Replacing a name changes the tokens that are the name, when no number contains it as a word. -/
theorem lex_renameFrom (hw : Name L w) (hnew : Name L new) {prev : Option Char} {s : List Char}
    (hstart : Start L prev s) (hnumbers : ∀ t ∈ lex L s, startsNumber t = true →
      findall (wholeWord L.word w).matchLen t = []) :
    lex L (renameFrom L w new prev s) = (lex L s).map (renameToken w new) := by
  induction s using lex_induction L generalizing prev with
  | nil => rfl
  | white c s hc ih =>
    rw [lex_white hc] at hnumbers ⊢
    have hword : L.word c = false := word_of_white hc
    rw [renameFrom, subFrom_char (matchLen_of_not_word hw hword), lex_white hc]
    exact ih (.inl hword) hnumbers
  | token t s ht hmunch ih =>
    have hkind := kind_of_munch ht hmunch
    rw [lex_token ht hmunch] at hnumbers ⊢
    have halike := alike_renameFrom hw hnew t.getLast? s
    have hnext : Start L t.getLast? s := by
      cases hkind with
      | number hstarts hs htail => exact .inr hs
      | name hname hs => exact .inr hs
      | punctuator hchars =>
        rw [Start, List.getLast?_eq_getLast_of_ne_nil ht]
        exact .inl (hchars _ (List.getLast_mem ht))
    have hrest := ih hnext fun u hu => hnumbers u (List.mem_cons_of_mem t hu)
    rw [List.map_cons, ← hrest]
    by_cases htw : t = w
    · subst htw
      have hword := hkind.next hw
      have hprev := hstart.prev hw
      rw [renameFrom, subFrom_hit ht (matchLen_wholeWord hw.1 hw.2.1 hprev hword), renameToken,
        if_pos rfl]
      exact lex_token hnew.1 (munch_name hnew (halike.head hword ▸ hword))
    · have hkeep := @subFrom_append _ _ (fun _ => new) prev t s fun p q hpq hq =>
        no_match hw hkind htw (hnumbers t List.mem_cons_self) hpq hq
      have hlast : t.getLast?.or prev = t.getLast? := by
        rw [List.getLast?_eq_getLast_of_ne_nil ht, Option.some_or]
      rw [renameFrom, hkeep, hlast, renameToken, if_neg htw]
      refine lex_token ht ?_
      cases hkind with
      | number hstarts hs htail => exact htail _ (halike.head hs)
      | name hname hs => exact munch_name hname (halike.head hs ▸ hs)
      | punctuator hchars hnumber =>
        obtain ⟨c, t, rfl⟩ := List.exists_cons_of_ne_nil ht
        have hc := hchars c List.mem_cons_self
        exact (munch_alike hc hnumber (halike.append t)).trans hmunch

theorem lex_rename (hw : Name L w) (hnew : Name L new) {s : List Char}
    (hnumbers : ∀ t ∈ lex L s, startsNumber t = true →
      findall (wholeWord L.word w).matchLen t = []) :
    lex L (rename L w new s) = (lex L s).map (renameToken w new) :=
  lex_renameFrom hw hnew (.inl rfl) hnumbers

end Rename

end CTokens
