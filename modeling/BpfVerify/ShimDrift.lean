import BpfVerify.Brackets
import BpfVerify.Python
import BpfVerify.Regex

/-!
# Shim drift

`scripts/check_shim_drift.py`: `strip_comments`, `extract_function`, `normalize`, and the loop of
`main` on one pair of functions. A definition is the first whole word `name` before an argument list
and a body whose brackets match.
-/
namespace BpfVerify.ShimDrift
open Brackets Python Regex

/-- Which characters Python calls alphanumeric: the ASCII letters and digits, and no white space. -/
structure Alphabet where
  isalnum : Char → Bool
  ascii : ∀ c, c.toNat < 128 → isalnum c = c.isAlphanum
  space : ∀ c, isalnum c = true → isSpace c = false

/-- `\w`. -/
def Alphabet.word (u : Alphabet) (c : Char) : Bool := u.isalnum c || c = '_'

def asciiAlphabet : Alphabet where
  isalnum c := c.isAlphanum
  ascii _ _ := rfl
  space c h := by
    by_contra hs
    have hspace : isSpace c = true := Bool.eq_true_of_not_eq_false hs
    simp only [isSpace, decide_eq_true_eq] at hspace
    fin_cases hspace <;> exact Bool.false_ne_true h

/-! ## The script -/

/-- The block comments, over lines too. -/
def blockComment : Pattern Char :=
  .seq (lit ['/', '*']) (.seq (.lazyStar fun _ => true) (lit ['*', '/']))

/-- `//[^\n]*`. -/
def lineComment : Pattern Char := .seq (lit ['/', '/']) (.star fun c => c ≠ '\n')

def stripComments (text : Text) : Text :=
  let text := sub blockComment.matchLen (fun _ => [' ']) text
  sub lineComment.matchLen (fun _ => [' ']) text

/-- `\bname\s*\(`. -/
def callPattern (u : Alphabet) (name : Text) : Pattern Char :=
  .seq (.boundary u.word) (.seq (lit name) (.seq (.star isSpace) (.one fun c => c = '(')))

/-- A member of `" \t\n"`. -/
def isBlank (c : Char) : Bool := c ∈ [' ', '\t', '\n']

/-- One turn of the loop of `extract_function`, where `t` is `clean[m.end() - 1:]` and the indices
count from its start. -/
def definition (t : Text) : Option Text :=
  let i := closing '(' ')' 0 t
  let j := i + 1
  let j := j + ((t.drop j).takeWhile isBlank).length
  if t[j]? = some '{' then
    let k := j + closing '{' '}' 0 (t.drop j)
    if k < t.length then some (t.take (k + 1)) else none
  else none

/-- The loop of `extract_function`. -/
def findDefinition (u : Alphabet) (clean name : Text) : Option Text :=
  (finditer (callPattern u name).matchLen clean).findSome? fun m =>
    (definition (clean.drop (m.before.length + m.text.length - 1))).map (name ++ ·)

def extractFunction (u : Alphabet) (text name : Text) : Option Text :=
  findDefinition u (stripComments text) name

/-- `FN_ATTRS`. -/
def fnAttrs (u : Alphabet) : Pattern Char :=
  .alt (lit "__attribute__((always_inline))".toList) (.alt (lit "__always_inline".toList)
    (.alt (wholeWord u.word "noinline".toList) (.alt (wholeWord u.word "static".toList)
      (wholeWord u.word "inline".toList))))

/-- `\s+`. -/
def spaces : Pattern Char := .seq (.one isSpace) (.star isSpace)

/-- `([;{}])\s*`, whose group is its first character. -/
def statementEnd : Pattern Char :=
  .seq (.one fun c => c ∈ [';', '\x7b', '\x7d']) (.star isSpace)

def renameIn (u : Alphabet) (rename : Option (Text × Text)) (body : Text) : Text :=
  match rename with
  | some (old, new) => sub (wholeWord u.word old).matchLen (fun _ => new) body
  | none => body

/-- `normalize`; a name has no escapes, so it replaces as it is. -/
def normalize (u : Alphabet) (body : Text) (rename : Option (Text × Text)) : Text :=
  let body := renameIn u rename body
  let body := sub (fnAttrs u).matchLen (fun _ => [' ']) body
  let body := strip (sub spaces.matchLen (fun _ => [' ']) body)
  sub statementEnd.matchLen (fun m => m.take 1 ++ ['\n']) body

inductive Mode where
  | exact
  | report

structure Counts where
  errors : ℕ
  drift : ℕ

/-- The inner loop of `main` on one pair of functions, without what it prints. -/
def checkPair (u : Alphabet) (shimText kernelText shimFn kernelFn : Text) (mode : Mode)
    (n : Counts) : Counts :=
  match extractFunction u shimText shimFn, extractFunction u kernelText kernelFn with
  | none, _ => { n with errors := n.errors + 1 }
  | some _, none => { n with errors := n.errors + 1 }
  | some shimBody, some kernelBody =>
    if normalize u shimBody (some (shimFn, kernelFn)) = normalize u kernelBody none then n
    else
      match mode with
      | .exact => { n with errors := n.errors + 1 }
      | .report => { n with drift := n.drift + 1 }

/-! ## Definitions in a text -/

def Identifier (u : Alphabet) (name : Text) : Prop := name ≠ [] ∧ ∀ c ∈ name, u.word c = true

/-- An argument list, blanks and a body. -/
def Shape (s : Text) : Prop :=
  ∃ args blanks body, s = args ++ (blanks ++ body) ∧ Group '(' ')' args ∧
    (∀ c ∈ blanks, isBlank c = true) ∧ Group '{' '}' body

/-- The whole word `name` stands behind `before`, and what it defines is `s`. -/
def DefinedAt (u : Alphabet) (clean name before s : Text) : Prop :=
  before.getLast?.any u.word = false ∧ Shape s ∧
    ∃ gap after, (∀ c ∈ gap, isSpace c = true) ∧ clean = before ++ (name ++ (gap ++ (s ++ after)))

/-- The turn behind an argument list and blanks: a body that closes. -/
lemma definition_append {args blanks b : Text} (hargs : Group '(' ')' args)
    (hblanks : (blanks ++ b).takeWhile isBlank = blanks) :
    definition (args ++ (blanks ++ b)) =
      if b.head? = some '{' then
        if closing '{' '}' 0 b < b.length then
          some (args ++ (blanks ++ b.take (closing '{' '}' 0 b + 1)))
        else none
      else none := by
  have hargslen : closing '(' ')' 0 (args ++ (blanks ++ b)) + 1 = args.length :=
    hargs.closing (by decide) _
  have hdrop : (args ++ (blanks ++ b)).drop (args.length + blanks.length) = b := by
    rw [List.drop_length_add_append, List.drop_left]
  have hget : (args ++ (blanks ++ b))[args.length + blanks.length]? = b.head? := by
    rw [← List.head?_drop, hdrop]
  have hin : args.length + blanks.length + closing '{' '}' 0 b < (args ++ (blanks ++ b)).length ↔
      closing '{' '}' 0 b < b.length := by
    rw [List.length_append, List.length_append]
    omega
  have htake : (args ++ (blanks ++ b)).take (args.length + blanks.length + closing '{' '}' 0 b + 1) =
      args ++ (blanks ++ b.take (closing '{' '}' 0 b + 1)) := by
    rw [Nat.add_assoc, Nat.add_assoc, List.take_length_add_append, List.take_length_add_append]
  rw [definition]
  simp only [hargslen, List.drop_left, hblanks, hdrop, hget, hin, htake]

/-- One turn of the loop returns what has the shape of a definition, and only that. -/
lemma definition_eq_some_iff {t s : Text} (ht : t.head? = some '(') :
    definition t = some s ↔ Shape s ∧ ∃ after, t = s ++ after := by
  constructor
  · intro h
    have hclosed : closing '(' ')' 0 t < t.length := by
      by_contra hlarge
      have hnone : t[closing '(' ')' 0 t + 1 +
          ((t.drop (closing '(' ')' 0 t + 1)).takeWhile isBlank).length]? = none :=
        List.getElem?_eq_none (by omega)
      rw [definition, if_neg (by rw [hnone]; exact Option.some_ne_none _ |>.symm)] at h
      exact Option.some_ne_none s h.symm
    obtain ⟨t', rfl⟩ : ∃ t', t = '(' :: t' := List.head?_eq_some_iff.mp ht
    obtain ⟨args, r, heq, hargs, -⟩ := exists_group hclosed
    have hr : r.takeWhile isBlank ++ r.dropWhile isBlank = r := List.takeWhile_append_dropWhile
    have hblanks : (r.takeWhile isBlank ++ r.dropWhile isBlank).takeWhile isBlank =
        r.takeWhile isBlank := by rw [hr]
    rw [heq, ← hr, definition_append hargs hblanks] at h
    split_ifs at h with hbrace hbody
    obtain ⟨b, hb⟩ := List.head?_eq_some_iff.mp hbrace
    rw [hb] at h hbody
    obtain ⟨body, after, hcut, hgroup, hlen⟩ := exists_group hbody
    rw [hlen, hcut, List.take_left, Option.some.injEq] at h
    refine ⟨⟨args, r.takeWhile isBlank, body, h.symm, hargs, fun c => List.mem_takeWhile_imp,
      hgroup⟩, after, ?_⟩
    rw [heq, ← h, List.append_assoc, List.append_assoc, ← hcut, ← hb, hr]
  · rintro ⟨⟨args, blanks, body, rfl, hargs, hblanks, hbody⟩, after, rfl⟩
    have hclose : closing '{' '}' 0 (body ++ after) + 1 = body.length :=
      hbody.closing (by decide) after
    have hhead : (body ++ after).head? = some '{' := by
      obtain ⟨b, -, rfl⟩ := hbody
      rfl
    obtain ⟨b, hb⟩ := List.head?_eq_some_iff.mp hhead
    have htake : (blanks ++ (body ++ after)).takeWhile isBlank = blanks := by
      rw [List.takeWhile_append_of_pos hblanks, hb, List.takeWhile_cons_of_neg (by decide),
        List.append_nil]
    have hlt : closing '{' '}' 0 (body ++ after) < (body ++ after).length := by
      rw [List.length_append]
      omega
    rw [List.append_assoc, List.append_assoc, definition_append hargs htake, if_pos hhead,
      if_pos hlt, hclose, List.take_left]

/-! ## Occurrences of a name -/

variable {u : Alphabet} {name : Text}

lemma word_paren (u : Alphabet) : u.word '(' = false := by
  rw [Alphabet.word, u.ascii '(' (by decide)]
  rfl

lemma word_of_isSpace {c : Char} (h : isSpace c = true) : u.word c = false := by
  rw [Alphabet.word, Bool.or_eq_false_iff]
  constructor
  · by_contra hc
    rw [u.space c (Bool.eq_true_of_not_eq_false hc)] at h
    exact Bool.false_ne_true h
  · by_contra hc
    rw [of_decide_eq_true (Bool.eq_true_of_not_eq_false hc)] at h
    exact absurd h (by decide)

lemma mem_run_call (hname : Identifier u name) {prev : Option Char} {s x y : Text} :
    (x, y) ∈ (callPattern u name).run prev s ↔ prev.any u.word = false ∧
      ∃ gap, (∀ c ∈ gap, isSpace c = true) ∧ x = name ++ (gap ++ ['(']) ∧ s = x ++ y := by
  obtain ⟨n, ns, hn⟩ := List.exists_cons_of_ne_nil hname.1
  have hword : u.word n = true := hname.2 n (by rw [hn]; exact List.mem_cons_self)
  constructor
  · intro h
    obtain ⟨_, _, _, rfl, hbound, hrest⟩ := mem_run_seq.mp h
    obtain ⟨rfl, rfl, hne⟩ := mem_run_boundary.mp hbound
    obtain ⟨_, _, _, rfl, hlit, hcall⟩ := mem_run_seq.mp hrest
    obtain ⟨rfl, rfl⟩ := mem_run_lit.mp hlit
    obtain ⟨gap, _, _, rfl, hstar, hparen⟩ := mem_run_seq.mp hcall
    obtain ⟨rfl, hgap⟩ := mem_run_star.mp hstar
    obtain ⟨c, hc, rfl, rfl⟩ := mem_run_one.mp hparen
    rw [hn, List.cons_append, List.head?_cons, Option.any_some, hword] at hne
    refine ⟨Bool.eq_false_iff.mpr hne, gap, hgap, by rw [of_decide_eq_true hc]; rfl, ?_⟩
    simp
  · rintro ⟨hprev, gap, hgap, rfl, rfl⟩
    refine mem_run_seq.mpr ⟨[], _, _, rfl, mem_run_boundary.mpr ⟨rfl, rfl, ?_⟩, ?_⟩
    · rw [hprev, hn]
      simp [hword]
    · refine mem_run_seq.mpr ⟨name, _, gap ++ '(' :: y, rfl, mem_run_lit.mpr ⟨rfl, by simp⟩, ?_⟩
      refine mem_run_seq.mpr ⟨gap, _, '(' :: y, rfl, mem_run_star.mpr ⟨rfl, hgap⟩, ?_⟩
      exact mem_run_one.mpr ⟨'(', rfl, rfl, rfl⟩

lemma matchLen_call_ne_zero (hname : Identifier u name) {prev : Option Char} {s : Text} :
    (callPattern u name).matchLen prev s ≠ 0 ↔ prev.any u.word = false ∧
      ∃ gap y, (∀ c ∈ gap, isSpace c = true) ∧ s = name ++ (gap ++ '(' :: y) := by
  constructor
  · intro h
    rcases matchLen_cases (callPattern u name) prev s with ⟨-, hzero⟩ | ⟨⟨x, y⟩, hm, -⟩
    · exact absurd hzero h
    · obtain ⟨hprev, gap, hgap, rfl, rfl⟩ := (mem_run_call hname).mp hm
      exact ⟨hprev, gap, y, hgap, by simp⟩
  · rintro ⟨hprev, gap, y, hgap, rfl⟩ hzero
    have hmem : (name ++ (gap ++ ['(']), y) ∈
        (callPattern u name).run prev (name ++ (gap ++ '(' :: y)) :=
      (mem_run_call hname).mpr ⟨hprev, gap, hgap, rfl, by simp⟩
    rcases matchLen_cases (callPattern u name) prev (name ++ (gap ++ '(' :: y)) with
      ⟨hnil, -⟩ | ⟨⟨x, z⟩, hm, -, hlen⟩
    · rw [hnil] at hmem
      exact absurd hmem List.not_mem_nil
    · obtain ⟨-, gap', -, rfl, -⟩ := (mem_run_call hname).mp hm
      rw [hzero] at hlen
      simp at hlen

/-- A whole word does not start inside an occurrence of another one. -/
lemma call_apart (hname : Identifier u name) : Apart (callPattern u name).matchLen := by
  intro prev p q s hp hq h
  by_contra hmatch
  obtain ⟨hlast, gap', y, -, hs⟩ := (matchLen_call_ne_zero hname).mp hmatch
  rw [← List.append_assoc] at h
  obtain ⟨-, gap, hgap, htext, -⟩ := (mem_run_call hname).mp
    (mem_run_of_matchLen (List.append_ne_nil_of_left_ne_nil hp q) h)
  obtain ⟨n, ns, hn⟩ := List.exists_cons_of_ne_nil hname.1
  cases List.append_eq_append_iff.mp htext with
  | inl hin =>
    -- `p` ends in a character of the name
    obtain ⟨v, hv, -⟩ := hin
    have hmem : p.getLast hp ∈ name := by
      rw [hv]
      exact List.mem_append_left v (List.getLast_mem hp)
    rw [List.getLast?_eq_getLast_of_ne_nil hp, Option.any_some, hname.2 _ hmem] at hlast
    exact Bool.false_ne_true hlast.symm
  | inr hout =>
    -- `q` starts with a space or the parenthesis
    obtain ⟨v, -, hv⟩ := hout
    obtain ⟨c, q, rfl⟩ := List.exists_cons_of_ne_nil hq
    have hc : c ∈ gap ++ ['('] := by
      rw [hv]
      exact List.mem_append_right v List.mem_cons_self
    rw [hn, List.cons_append, List.cons_append] at hs
    have hword : u.word c = true := by
      rw [(List.cons.inj hs).1]
      exact hname.2 n (by rw [hn]; exact List.mem_cons_self)
    cases List.mem_append.mp hc with
    | inl hspace => exact absurd hword (Bool.eq_false_iff.mp (word_of_isSpace (hgap c hspace)))
    | inr hparen =>
      rw [List.mem_singleton.mp hparen, word_paren] at hword
      exact Bool.false_ne_true hword

/-! ## The first definition -/

/-- Every turn of the loop is at a whole word and starts at the parenthesis behind it. -/
lemma mem_finditer_call (hname : Identifier u name) {clean : Text} {m : Match Char}
    (h : m ∈ finditer (callPattern u name).matchLen clean) :
    m.before.getLast?.any u.word = false ∧
      clean.drop (m.before.length + m.text.length - 1) = '(' :: m.after ∧
      ∃ gap, (∀ c ∈ gap, isSpace c = true) ∧
        clean = m.before ++ (name ++ (gap ++ '(' :: m.after)) := by
  obtain ⟨hcut, hne, hlen, -⟩ := mem_matchesFrom (matchLen_le _) rfl h
  obtain ⟨hprev, gap, hgap, htext, -⟩ := (mem_run_call hname).mp (mem_run_of_matchLen hne hlen)
  have hclean : clean = (m.before ++ (name ++ gap)) ++ '(' :: m.after := by
    rw [List.nil_append] at hcut
    rw [← hcut, htext]
    simp
  have hstart : m.before.length + m.text.length - 1 = (m.before ++ (name ++ gap)).length := by
    rw [htext]
    simp
    omega
  refine ⟨hprev, ?_, gap, hgap, ?_⟩
  · rw [hstart, hclean, List.drop_left]
  · rw [hclean, List.append_assoc, List.append_assoc]

lemma Shape.head {s : Text} (h : Shape s) : ∃ t, s = '(' :: t := by
  obtain ⟨args, blanks, body, rfl, ⟨a, -, rfl⟩, -⟩ := h
  exact ⟨_, rfl⟩

/-- White space before a parenthesis is determined by the text. -/
lemma gap_unique {gap gap' t t' : Text} (h : ∀ c ∈ gap, isSpace c = true)
    (h' : ∀ c ∈ gap', isSpace c = true) (heq : gap ++ '(' :: t = gap' ++ '(' :: t') : t = t' := by
  have htake := congrArg (List.dropWhile isSpace) heq
  rw [List.dropWhile_append_of_pos h, List.dropWhile_append_of_pos h',
    List.dropWhile_cons_of_neg (by decide), List.dropWhile_cons_of_neg (by decide)] at htake
  exact (List.cons.inj htake).2

lemma turn_eq_some_iff (hname : Identifier u name) {clean : Text} {m : Match Char}
    (h : m ∈ finditer (callPattern u name).matchLen clean) (out : Text) :
    (definition (clean.drop (m.before.length + m.text.length - 1))).map (name ++ ·) = some out ↔
      ∃ s, DefinedAt u clean name m.before s ∧ out = name ++ s := by
  obtain ⟨hprev, hdrop, gap, hgap, hclean⟩ := mem_finditer_call hname h
  rw [hdrop, Option.map_eq_some_iff]
  constructor
  · rintro ⟨s, hs, rfl⟩
    obtain ⟨hshape, after, hafter⟩ := (definition_eq_some_iff rfl).mp hs
    exact ⟨s, ⟨hprev, hshape, gap, after, hgap, by rw [hclean, hafter]⟩, rfl⟩
  · rintro ⟨s, ⟨-, hshape, gap', after, hgap', hclean'⟩, rfl⟩
    obtain ⟨t, rfl⟩ := hshape.head
    rw [hclean] at hclean'
    have hgaps := List.append_cancel_left (List.append_cancel_left hclean')
    rw [List.cons_append] at hgaps
    refine ⟨_, (definition_eq_some_iff rfl).mpr ⟨hshape, after, ?_⟩, rfl⟩
    rw [gap_unique hgap hgap' hgaps, List.cons_append]

lemma exists_turn (hname : Identifier u name) {clean before s : Text}
    (h : DefinedAt u clean name before s) :
    ∃ m ∈ finditer (callPattern u name).matchLen clean, m.before = before := by
  obtain ⟨hprev, hshape, gap, after, hgap, rfl⟩ := h
  obtain ⟨t, rfl⟩ := hshape.head
  exact exists_matchesFrom (matchLen_le _) (call_apart hname) rfl
    ((matchLen_call_ne_zero hname).mpr ⟨hprev, gap, t ++ after, hgap, rfl⟩)

/-- `extract_function` returns the first definition of the name in the text without comments, and
nothing exactly when there is none. -/
theorem extractFunction_first (u : Alphabet) (text : Text) {name : Text}
    (hname : Identifier u name) :
    (∀ out, extractFunction u text name = some out ↔
      ∃ before s, DefinedAt u (stripComments text) name before s ∧
        (∀ before' s', DefinedAt u (stripComments text) name before' s' →
          before.length ≤ before'.length) ∧ out = name ++ s) ∧
    (extractFunction u text name = none ↔
      ∀ before s, ¬ DefinedAt u (stripComments text) name before s) := by
  have hsome : ∀ out, extractFunction u text name = some out ↔
      ∃ before s, DefinedAt u (stripComments text) name before s ∧
        (∀ before' s', DefinedAt u (stripComments text) name before' s' →
          before.length ≤ before'.length) ∧ out = name ++ s := by
    intro out
    rw [extractFunction, findDefinition, findSome?_finditer (matchLen_le _)]
    constructor
    · rintro ⟨m, hm, hout, hfirst⟩
      obtain ⟨s, hs, rfl⟩ := (turn_eq_some_iff hname hm out).mp hout
      refine ⟨m.before, s, hs, fun before' s' h' => ?_, rfl⟩
      obtain ⟨n, hn, rfl⟩ := exists_turn hname h'
      refine hfirst n hn ?_
      rw [(turn_eq_some_iff hname hn (name ++ s')).mpr ⟨s', h', rfl⟩]
      exact Option.some_ne_none _
    · rintro ⟨before, s, hs, hfirst, rfl⟩
      obtain ⟨m, hm, rfl⟩ := exists_turn hname hs
      refine ⟨m, hm, (turn_eq_some_iff hname hm _).mpr ⟨s, hs, rfl⟩, fun n hn hne => ?_⟩
      obtain ⟨out, hout⟩ := Option.ne_none_iff_exists'.mp hne
      obtain ⟨s', hs', -⟩ := (turn_eq_some_iff hname hn out).mp hout
      exact hfirst n.before s' hs'
  refine ⟨hsome, ⟨fun hnone before s hs => ?_, fun h => ?_⟩⟩
  · rw [extractFunction, findDefinition, List.findSome?_eq_none_iff] at hnone
    obtain ⟨m, hm, rfl⟩ := exists_turn hname hs
    have hturn := (turn_eq_some_iff hname hm (name ++ s)).mpr ⟨s, hs, rfl⟩
    rw [hnone m hm] at hturn
    exact Option.some_ne_none _ hturn.symm
  · by_contra hne
    obtain ⟨out, hout⟩ := Option.ne_none_iff_exists'.mp hne
    obtain ⟨before, s, hs, -⟩ := (hsome out).mp hout
    exact h before s hs

/-- A prototype, a commented definition, a call in a body, and a definition. -/
def sampleText : Text :=
  "f(); /* f() \x7b\x7d */ g() \x7b f ((1)); \x7d f\n(h(x))\n\x7b \x7b\x7d \x7d".toList

theorem extractFunction_first_sample :
    ∃ before s, DefinedAt asciiAlphabet (stripComments sampleText) ['f'] before s ∧
      (∀ before' s', DefinedAt asciiAlphabet (stripComments sampleText) ['f'] before' s' →
        before.length ≤ before'.length) ∧
      "f(h(x))\n\x7b \x7b\x7d \x7d".toList = ['f'] ++ s := by
  have hname : Identifier asciiAlphabet ['f'] :=
    ⟨List.cons_ne_nil _ _, List.forall_mem_singleton.mpr rfl⟩
  have hextract : extractFunction asciiAlphabet sampleText ['f'] =
      some "f(h(x))\n\x7b \x7b\x7d \x7d".toList := rfl
  exact ((extractFunction_first asciiAlphabet sampleText hname).1 _).mp hextract

end BpfVerify.ShimDrift
