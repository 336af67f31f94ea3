import BpfVerify.CTokens
import BpfVerify.ShimDrift

/-!
# Code of a shim and its kernel function

What an exact pass of `scripts/check_shim_drift.py` says about two definitions as C code: as token
sequences without comments and inlining annotations, the shim's function renamed.
-/
namespace BpfVerify.ShimDrift
open CTokens Python Regex

/-! ## The code of a definition -/

def Alphabet.letters (u : Alphabet) : Letters where
  word := u.word
  ascii c hc := by rw [Alphabet.word, u.ascii c hc]

/-- `__attribute__((always_inline))`. -/
def alwaysInline : List Text :=
  ["__attribute__", "(", "(", "always_inline", ")", ")"].map String.toList

def keywords : List Text := ["inline", "__always_inline", "noinline"].map String.toList

def storageClass : Text := "static".toList

/-- A token in front of a list without annotations. -/
def dropStep (t : Text) (ts : List Text) : List Text :=
  if t ∈ keywords then ts
  else if alwaysInline.isPrefixOf (t :: ts) then (t :: ts).drop alwaysInline.length
  else t :: ts

/-- The tokens without inlining annotations, until there is none. -/
def dropInlining (ts : List Text) : List Text := ts.foldr dropStep []

def renameCode (rename : Option (Text × Text)) (ts : List Text) : List Text :=
  match rename with
  | some (old, new) => ts.map (renameToken old new)
  | none => ts

def codeOf (u : Alphabet) (rename : Option (Text × Text)) (body : Text) : List Text :=
  dropInlining (renameCode rename (lex u.letters body))

/-- The first definition of a name in a C file, after its lines are spliced and its comments
deleted. -/
def cDefinition (u : Alphabet) (text name : Text) : Option Text :=
  findDefinition u (deleteComments (splice text)) name

def code (u : Alphabet) (text name : Text) (rename : Option (Text × Text)) : Option (List Text) :=
  (cDefinition u text name).map (codeOf u rename)

/-! ## Inlining annotations -/

lemma dropInlining_cons (t : Text) (ts : List Text) :
    dropInlining (t :: ts) = dropStep t (dropInlining ts) := rfl

lemma dropInlining_append_congr {ts vs : List Text} (h : dropInlining ts = dropInlining vs)
    (us : List Text) : dropInlining (us ++ ts) = dropInlining (us ++ vs) := by
  rw [dropInlining, dropInlining, List.foldr_append, List.foldr_append]
  exact congrArg (us.foldr dropStep) h

lemma dropStep_keyword {t : Text} (h : t ∈ keywords) (ts : List Text) : dropStep t ts = ts :=
  if_pos h

lemma dropStep_of_not {t : Text} {ts : List Text} (ht : t ∉ keywords)
    (h : ¬ alwaysInline <+: t :: ts) : dropStep t ts = t :: ts := by
  rw [dropStep, if_neg ht, if_neg fun hp => h (List.isPrefixOf_iff_prefix.mp hp)]

lemma dropStep_alwaysInline {t : Text} {ts us : List Text} (h : t :: ts = alwaysInline ++ us) :
    dropStep t ts = us := by
  have ht : t ∉ keywords := by
    rw [alwaysInline, List.map_cons, List.cons_append] at h
    rw [(List.cons.inj h).1]
    decide
  rw [dropStep, if_neg ht, h, if_pos (List.isPrefixOf_iff_prefix.mpr (List.prefix_append _ _)),
    List.drop_left]

lemma dropInlining_plain {ps : List Text} (h : ∀ t ∈ ps, ∀ ts, dropStep t ts = t :: ts)
    (us : List Text) : dropInlining (ps ++ us) = ps ++ dropInlining us := by
  induction ps with
  | nil => rfl
  | cons t ps ih =>
    rw [List.cons_append, dropInlining_cons, ih fun v hv => h v (List.mem_cons_of_mem t hv),
      h t List.mem_cons_self, List.cons_append]

lemma dropInlining_alwaysInline (us : List Text) :
    dropInlining (alwaysInline ++ us) = dropInlining us := by
  have hplain : ∀ t ∈ alwaysInline.tail, ∀ ts, dropStep t ts = t :: ts := by
    intro t ht ts
    have hall : alwaysInline.tail.all
        (fun t => t ∉ keywords && t ≠ "__attribute__".toList) = true := rfl
    have htt := List.all_eq_true.mp hall t ht
    rw [Bool.and_eq_true, decide_eq_true_eq, decide_eq_true_eq] at htt
    refine dropStep_of_not htt.1 fun hpre => ?_
    rw [alwaysInline, List.map_cons, List.cons_prefix_cons] at hpre
    exact htt.2 hpre.1.symm
  show dropInlining ("__attribute__".toList :: (alwaysInline.tail ++ us)) = dropInlining us
  rw [dropInlining_cons, dropInlining_plain hplain]
  exact dropStep_alwaysInline rfl

lemma mem_dropInlining {ts : List Text} {t : Text} (h : t ∈ dropInlining ts) : t ∉ keywords := by
  induction ts with
  | nil => exact absurd h List.not_mem_nil
  | cons v ts ih =>
    rw [dropInlining_cons, dropStep] at h
    split_ifs at h with hv hattr
    · exact ih h
    · cases List.mem_cons.mp (List.mem_of_mem_drop h) with
      | inl heq => exact heq ▸ hv
      | inr hmem => exact ih hmem
    · cases List.mem_cons.mp h with
      | inl heq => exact heq ▸ hv
      | inr hmem => exact ih hmem

lemma dropInlining_eq_self {ts : List Text} (hkeys : ∀ t ∈ ts, t ∉ keywords)
    (hattr : ¬ alwaysInline <:+: ts) : dropInlining ts = ts := by
  induction ts with
  | nil => rfl
  | cons t ts ih =>
    have hrest := ih (fun v hv => hkeys v (List.mem_cons_of_mem t hv))
      fun h => hattr (List.infix_cons h)
    rw [dropInlining_cons, hrest, dropStep_of_not (hkeys t List.mem_cons_self)]
    exact fun h => hattr h.isInfix

/-- The tokens of a definition that are not `static`. -/
def others (ts : List Text) : List Text := ts.filter fun t => t ≠ storageClass

lemma others_append (ts us : List Text) : others (ts ++ us) = others ts ++ others us :=
  List.filter_append ts us

lemma others_cons {t : Text} (ht : t ≠ storageClass) (ts : List Text) :
    others (t :: ts) = t :: others ts := List.filter_cons_of_pos (by simpa using ht)

lemma others_static {t : Text} (ht : t = storageClass) (ts : List Text) :
    others (t :: ts) = others ts := List.filter_cons_of_neg (by simpa using ht)

/-- Annotations that are left out first make no difference to what is left out in the end. -/
lemma dropInlining_others (ts : List Text) :
    dropInlining (others (dropInlining ts)) = dropInlining (others ts) := by
  induction ts with
  | nil => rfl
  | cons t ts ih =>
    rw [dropInlining_cons]
    by_cases hkey : t ∈ keywords
    · have ht : t ≠ storageClass := by
        rintro rfl
        exact absurd hkey (by decide)
      rw [dropStep_keyword hkey, others_cons ht, dropInlining_cons, dropStep_keyword hkey, ih]
    · by_cases hattr : alwaysInline <+: t :: dropInlining ts
      · obtain ⟨us, hus⟩ := hattr
        have ht : t ≠ storageClass := by
          rw [alwaysInline, List.map_cons, List.cons_append] at hus
          rw [← (List.cons.inj hus).1]
          decide
        have hothers : others (alwaysInline ++ us) = alwaysInline ++ others us := by
          rw [others_append]
          rfl
        rw [dropStep_alwaysInline hus.symm, others_cons ht, dropInlining_cons, ← ih,
          ← dropInlining_cons, ← others_cons ht, ← hus, hothers, dropInlining_alwaysInline]
      · rw [dropStep_of_not hkey hattr]
        by_cases ht : t = storageClass
        · rw [others_static ht, others_static ht, ih]
        · rw [others_cons ht, others_cons ht, dropInlining_cons, dropInlining_cons, ih]

/-! ## Continued lines -/

def backslash : Text := ['\\']

/-- For each backslash of a text, whether a newline follows, so that it continues the line. -/
def continued : Text → List Bool
  | [] => []
  | c :: s => if c = '\\' then (s.head? == some '\n') :: continued s else continued s

/-- The tokens without the backslashes that are marked as continuing a line. -/
def joinLines : List Bool → List Text → List Text
  | _, [] => []
  | marks, t :: ts =>
    if t = backslash then
      if marks.head? = some true then joinLines marks.tail ts else t :: joinLines marks.tail ts
    else t :: joinLines marks ts

lemma joinLines_backslash {t : Text} (ht : t = backslash) (marks : List Bool) (ts : List Text) :
    joinLines marks (t :: ts) =
      if marks.head? = some true then joinLines marks.tail ts
      else t :: joinLines marks.tail ts := by
  rw [joinLines, if_pos ht]

lemma joinLines_of_ne {t : Text} (ht : t ≠ backslash) (marks : List Bool) (ts : List Text) :
    joinLines marks (t :: ts) = t :: joinLines marks ts := by
  rw [joinLines, if_neg ht]

lemma joinLines_append {ps : List Text} (h : ∀ t ∈ ps, t ≠ backslash) (marks : List Bool)
    (ts : List Text) : joinLines marks (ps ++ ts) = ps ++ joinLines marks ts := by
  induction ps with
  | nil => rfl
  | cons t ps ih =>
    obtain ⟨ht, hps⟩ := List.forall_mem_cons.mp h
    rw [List.cons_append, joinLines_of_ne ht, ih hps, List.cons_append]

lemma joinLines_others (marks : List Bool) (ts : List Text) :
    joinLines marks (others ts) = others (joinLines marks ts) := by
  induction ts generalizing marks with
  | nil => rfl
  | cons t ts ih =>
    by_cases ht : t = backslash
    · have hstatic : t ≠ storageClass := by
        rw [ht]
        decide
      rw [others_cons hstatic, joinLines_backslash ht, joinLines_backslash ht, ih]
      split_ifs
      · rfl
      · rw [others_cons hstatic]
    · rw [joinLines_of_ne ht]
      by_cases hstatic : t = storageClass
      · rw [others_static hstatic, others_static hstatic, ih]
      · rw [others_cons hstatic, others_cons hstatic, joinLines_of_ne ht, ih]

lemma joinLines_map {old new : Text} (hold : old ≠ backslash) (hnew : new ≠ backslash)
    (marks : List Bool) (ts : List Text) : joinLines marks (ts.map (renameToken old new)) =
      (joinLines marks ts).map (renameToken old new) := by
  have hiff (t : Text) : renameToken old new t = backslash ↔ t = backslash := by
    rw [renameToken]
    split_ifs with h
    · exact iff_of_false hnew (h ▸ hold)
    · exact Iff.rfl
  induction ts generalizing marks with
  | nil => rfl
  | cons t ts ih =>
    rw [List.map_cons]
    by_cases ht : t = backslash
    · rw [joinLines_backslash ((hiff t).mpr ht), joinLines_backslash ht, ih]
      split_ifs
      · rfl
      · rfl
    · rw [joinLines_of_ne ((hiff t).not.mpr ht), joinLines_of_ne ht, ih, List.map_cons]

/-- Annotations that are left out before the lines are joined make no difference in the end. -/
lemma dropInlining_joinLines (marks : List Bool) (ts : List Text) :
    dropInlining (joinLines marks (dropInlining ts)) = dropInlining (joinLines marks ts) := by
  induction ts generalizing marks with
  | nil => rfl
  | cons t ts ih =>
    rw [dropInlining_cons]
    by_cases hkey : t ∈ keywords
    · have ht : t ≠ backslash := by
        rintro rfl
        exact absurd hkey (by decide)
      rw [dropStep_keyword hkey, joinLines_of_ne ht, dropInlining_cons, dropStep_keyword hkey, ih]
    · by_cases hattr : alwaysInline <+: t :: dropInlining ts
      · obtain ⟨us, hus⟩ := hattr
        have hplain : ∀ v ∈ alwaysInline, v ≠ backslash := by decide
        have ht : t ≠ backslash := by
          rw [alwaysInline, List.map_cons, List.cons_append] at hus
          rw [← (List.cons.inj hus).1]
          decide
        rw [dropStep_alwaysInline hus.symm, joinLines_of_ne ht, dropInlining_cons, ← ih,
          ← dropInlining_cons, ← joinLines_of_ne ht, ← hus, joinLines_append hplain,
          dropInlining_alwaysInline]
      · rw [dropStep_of_not hkey hattr]
        by_cases ht : t = backslash
        · rw [joinLines_backslash ht, joinLines_backslash ht]
          split_ifs
          · exact ih marks.tail
          · rw [dropInlining_cons, dropInlining_cons, ih]
        · rw [joinLines_of_ne ht, joinLines_of_ne ht, dropInlining_cons, dropInlining_cons, ih]

/-! ## Storage classes -/

/-- Two sequences that differ in `static` alone are equal when it stands at the same places. -/
lemma eq_of_others {ts us : List Text} (h : others ts = others us)
    (hplaces : ∀ i : ℕ, ts[i]? = some storageClass ↔ us[i]? = some storageClass) : ts = us := by
  induction ts generalizing us with
  | nil =>
    cases us with
    | nil => rfl
    | cons u us =>
      have hu : u ≠ storageClass := fun heq =>
        Option.some_ne_none _ ((hplaces 0).mpr (congrArg some heq)).symm
      rw [others_cons hu] at h
      exact absurd h.symm (List.cons_ne_nil _ _)
  | cons t ts ih =>
    cases us with
    | nil =>
      have ht : t ≠ storageClass := fun heq =>
        Option.some_ne_none _ ((hplaces 0).mp (congrArg some heq)).symm
      rw [others_cons ht] at h
      exact absurd h (List.cons_ne_nil _ _)
    | cons u us =>
      have hrest : ∀ i : ℕ, ts[i]? = some storageClass ↔ us[i]? = some storageClass :=
        fun i => hplaces (i + 1)
      have hhead : t = storageClass ↔ u = storageClass := by
        have h0 := hplaces 0
        rwa [List.getElem?_cons_zero, List.getElem?_cons_zero, Option.some.injEq,
          Option.some.injEq] at h0
      by_cases ht : t = storageClass
      · rw [others_static ht, others_static (hhead.mp ht)] at h
        rw [ih h hrest, ht, hhead.mp ht]
      · rw [others_cons ht, others_cons fun hu => ht (hhead.mpr hu)] at h
        obtain ⟨rfl, htail⟩ := List.cons.inj h
        rw [ih htail hrest]

/-! ## White space -/

variable {u : Alphabet}

/-- The white space of Python in a text is white space of C. -/
def Plain (s : Text) : Prop := ∀ c ∈ s, isSpace c = true → white c = true

lemma lex_append_spaces {m : Text} (hne : m ≠ []) (hm : ∀ c ∈ m, white c = true)
    (s t : Text) : lex u.letters (s ++ (m ++ t)) = lex u.letters s ++ lex u.letters t := by
  induction m generalizing s with
  | nil => exact absurd rfl hne
  | cons c m ih =>
    have hc := hm c List.mem_cons_self
    rw [List.cons_append, lex_append_white hc]
    by_cases hnil : m = []
    · rw [hnil, List.nil_append]
    · have htail := ih hnil (fun d hd => hm d (List.mem_cons_of_mem c hd)) []
      rw [List.nil_append] at htail
      rw [htail]
      rfl

lemma mem_run_spaces {prev : Option Char} {s x y : Text} (h : (x, y) ∈ spaces.run prev s) :
    ∀ c ∈ x, isSpace c = true := by
  obtain ⟨_, _, _, rfl, hone, hstar⟩ := mem_run_seq.mp h
  obtain ⟨c, hc, rfl, rfl⟩ := mem_run_one.mp hone
  exact List.forall_mem_cons.mpr ⟨hc, (mem_run_star.mp hstar).2⟩

lemma mem_run_statementEnd {prev : Option Char} {s x y : Text}
    (h : (x, y) ∈ statementEnd.run prev s) :
    ∃ c blanks, bracket c = true ∧ x = c :: blanks ∧ ∀ d ∈ blanks, isSpace d = true := by
  obtain ⟨_, blanks, _, rfl, hone, hstar⟩ := mem_run_seq.mp h
  obtain ⟨c, hc, rfl, rfl⟩ := mem_run_one.mp hone
  refine ⟨c, blanks, ?_, rfl, (mem_run_star.mp hstar).2⟩
  have hmem := of_decide_eq_true hc
  rw [bracket, decide_eq_true_eq]
  simp only [List.mem_cons, List.not_mem_nil, or_false] at hmem ⊢
  tauto

lemma lex_collapse {s : Text} (hs : Plain s) :
    lex u.letters (sub spaces.matchLen (fun _ => [' ']) s) = lex u.letters s := by
  refine subFrom_invariant (matchLen_le _) (lex u.letters)
    (fun c => isSpace c = true → white c = true) ?_ none s [] hs
  intro prev before m t hm hlen hwhite
  have hspace := mem_run_spaces (mem_run_of_matchLen hm hlen)
  rw [lex_append_spaces hm fun c hc => hwhite c hc (hspace c hc)]
  exact lex_append_white rfl before t

lemma lex_resplit {s : Text} (hs : Plain s) :
    lex u.letters (sub statementEnd.matchLen (fun m => m.take 1 ++ ['\n']) s) =
      lex u.letters s := by
  refine subFrom_invariant (matchLen_le _) (lex u.letters)
    (fun c => isSpace c = true → white c = true) ?_ none s [] hs
  intro prev before m t hm hlen hwhite
  obtain ⟨c, blanks, hc, rfl, hblanks⟩ := mem_run_statementEnd (mem_run_of_matchLen hm hlen)
  have hrest : lex u.letters (blanks ++ t) = lex u.letters t := by
    by_cases hnil : blanks = []
    · rw [hnil, List.nil_append]
    · exact lex_append_spaces hnil (fun d hd =>
        hwhite d (List.mem_cons_of_mem c hd) (hblanks d hd)) [] t
  show lex u.letters (before ++ c :: '\n' :: t) = lex u.letters (before ++ c :: (blanks ++ t))
  rw [lex_append_bracket hc, lex_append_bracket hc, hrest, lex_white rfl]

lemma lex_dropWhile {s : Text} (hs : Plain s) :
    lex u.letters (s.dropWhile isSpace) = lex u.letters s := by
  induction s with
  | nil => rfl
  | cons c s ih =>
    by_cases hc : isSpace c = true
    · rw [List.dropWhile_cons_of_pos hc, ih fun d hd => hs d (List.mem_cons_of_mem c hd),
        lex_white (hs c List.mem_cons_self hc)]
    · rw [List.dropWhile_cons_of_neg hc]

lemma lex_rdropWhile {s : Text} (hs : Plain s) :
    lex u.letters (s.rdropWhile isSpace) = lex u.letters s := by
  induction s using List.reverseRecOn with
  | nil => rfl
  | append_singleton s c ih =>
    by_cases hc : isSpace c = true
    · have hwhite := hs c (List.mem_append_right s List.mem_cons_self) hc
      rw [List.rdropWhile_concat_pos _ _ _ hc, ih fun d hd => hs d (List.mem_append_left _ hd),
        lex_append_white hwhite]
      exact (List.append_nil _).symm
    · rw [List.rdropWhile_concat_neg _ _ _ hc]

lemma lex_strip {s : Text} (hs : Plain s) : lex u.letters (strip s) = lex u.letters s := by
  rw [strip, lex_rdropWhile fun c hc => hs c ((List.dropWhile_sublist _).subset hc),
    lex_dropWhile hs]

lemma Plain.strip {s : Text} (hs : Plain s) : Plain (strip s) := fun c hc =>
  hs c ((List.dropWhile_sublist _).subset ((List.rdropWhile_prefix _ _).subset hc))

/-- A substitution puts no other white space into a text than it has itself. -/
lemma Plain.sub {s new : Text} (hs : Plain s) (hnew : Plain new) (r : Pattern Char) :
    Plain (sub r.matchLen (fun _ => new) s) := by
  intro c hc
  cases mem_subFrom (matchLen_le r) hc with
  | inl h => exact hs c h
  | inr h => exact hnew c h.choose_spec

lemma plain_blank : Plain [' '] := List.forall_mem_singleton.mpr fun _ => rfl

/-- White space and line breaks of the normal form are no part of the tokens. -/
theorem lex_normalize (body : Text) (r : Option (Text × Text)) (h : Plain (renameIn u r body)) :
    lex u.letters (normalize u body r) =
      lex u.letters (sub (fnAttrs u).matchLen (fun _ => [' ']) (renameIn u r body)) := by
  have hattrs := h.sub plain_blank (fnAttrs u)
  have hcollapse := hattrs.sub plain_blank spaces
  rw [normalize, lex_resplit hcollapse.strip, lex_strip hcollapse, lex_collapse hattrs]

/-! ## Annotations in the text -/

/-- The tokens of the text with each annotation replaced by a blank. -/
lemma lex_blanked (s : Text) (ms : List (Text × Text)) :
    lex u.letters (s ++ ms.flatMap fun m => [' '] ++ m.2) =
      lex u.letters s ++ ms.flatMap fun m => lex u.letters m.2 := by
  induction ms generalizing s with
  | nil => rw [List.flatMap_nil, List.flatMap_nil, List.append_nil, List.append_nil]
  | cons m ms ih =>
    rw [List.flatMap_cons, List.flatMap_cons, List.append_assoc, List.singleton_append,
      lex_append_white rfl, ih]

lemma name_of_all {w : Text} (hne : w ≠ [])
    (hall : w.all (fun d => d.toNat < 128 && (d.isAlphanum || d = '_') == true) = true)
    (hdigit : w.head?.any Char.isDigit = false) : CTokens.Name u.letters w :=
  ⟨hne, fun _ hc => word_of_all hall hc, hdigit⟩

lemma lex_alwaysInline :
    lex u.letters "__attribute__((always_inline))".toList = alwaysInline := by
  have hattr : lex u.letters "__attribute__".toList = ["__attribute__".toList] :=
    lex_name (name_of_all (by decide) rfl rfl)
  have hinline : lex u.letters "always_inline".toList = ["always_inline".toList] :=
    lex_name (name_of_all (by decide) rfl rfl)
  have hsplit : "__attribute__((always_inline))".toList =
      "__attribute__".toList ++ '(' :: ([] ++ '(' :: ("always_inline".toList ++
        ')' :: ([] ++ ')' :: []))) := rfl
  rw [hsplit, lex_append_bracket rfl, lex_append_bracket rfl, lex_append_bracket rfl,
    lex_append_bracket rfl, hattr, hinline]
  rfl

lemma mem_run_wholeName {w : Text} (hw : CTokens.Name u.letters w) {prev : Option Char}
    {s x y : Text} (h : (x, y) ∈ (wholeWord u.word w).run prev s) : x = w :=
  ((mem_run_wholeWord hw.1 hw.2.1).mp h).2.2.1

lemma name_keyword {w : Text} (h : w ∈ storageClass :: keywords) :
    CTokens.Name u.letters w := by
  have hall : (storageClass :: keywords).all (fun w => w ≠ [] &&
      w.all (fun d => d.toNat < 128 && (d.isAlphanum || d = '_') == true) &&
      !w.head?.any Char.isDigit) = true := rfl
  have hw := List.all_eq_true.mp hall w h
  rw [Bool.and_eq_true, Bool.and_eq_true, decide_eq_true_eq] at hw
  exact name_of_all hw.1.1 hw.1.2 (by simpa using hw.2)

lemma mem_run_fnAttrs {prev : Option Char} {s x y : Text} (h : (x, y) ∈ (fnAttrs u).run prev s) :
    x = "__attribute__((always_inline))".toList ∨ x ∈ storageClass :: keywords := by
  rcases mem_run_alt.mp h with h | h
  · exact .inl (mem_run_lit.mp h).1
  rcases mem_run_alt.mp h with h | h
  · rw [(mem_run_lit.mp h).1]
    exact .inr (by decide)
  rcases mem_run_alt.mp h with h | h
  · rw [mem_run_wholeName (name_keyword (by decide)) h]
    exact .inr (by decide)
  rcases mem_run_alt.mp h with h | h
  · rw [mem_run_wholeName (name_keyword (by decide)) h]
    exact .inr (by decide)
  · rw [mem_run_wholeName (name_keyword (by decide)) h]
    exact .inr (by decide)

/-- What is left of a match of `FN_ATTRS` without `static` is dropped. -/
lemma dropInlining_match {m : Text}
    (h : m = "__attribute__((always_inline))".toList ∨ m ∈ storageClass :: keywords)
    (ts : List Text) : dropInlining (others (lex u.letters m) ++ ts) = dropInlining ts := by
  rcases h with rfl | hm
  · rw [lex_alwaysInline]
    exact dropInlining_alwaysInline ts
  · rw [lex_name (name_keyword hm)]
    rcases List.mem_cons.mp hm with rfl | hkey
    · rw [others_static rfl]
      rfl
    · have hne : m ≠ storageClass := by
        rintro rfl
        exact absurd hkey (by decide)
      rw [others_cons hne]
      exact dropStep_keyword hkey _

lemma dropInlining_matches (s : List Text) (ms : List (Text × Text))
    (h : ∀ m ∈ ms, m.1 = "__attribute__((always_inline))".toList ∨
      m.1 ∈ storageClass :: keywords) :
    dropInlining (others (s ++ ms.flatMap fun m => lex u.letters m.1 ++ lex u.letters m.2)) =
      dropInlining (others (s ++ ms.flatMap fun m => lex u.letters m.2)) := by
  rw [others_append, others_append]
  apply dropInlining_append_congr
  induction ms with
  | nil => rfl
  | cons m ms ih =>
    rw [List.flatMap_cons, List.flatMap_cons, List.append_assoc, others_append,
      dropInlining_match (h m List.mem_cons_self), others_append, others_append]
    exact dropInlining_append_congr (ih fun n hn => h n (List.mem_cons_of_mem m hn)) _

/-! ## An exact pass -/

/-- What C and the script read alike in a text, where the script has the definition `body` of `name`
and C the definition `c`: they differ in comments and in continued lines only, which end no token;
white space, the renamed word, and `FN_ATTRS`, which deletes whole tokens and leaves no annotation
behind where it deletes `static`. -/
structure Legible (u : Alphabet) (text name : Text) (rename : Option (Text × Text))
    (body c : Text) : Prop where
  found : extractFunction u text name = some body
  foundC : cDefinition u text name = some c
  same : lex u.letters c = joinLines (continued body) (lex u.letters body)
  plain : Plain body
  numbers : ∀ old new, rename = some (old, new) → old ≠ new → ∀ t ∈ lex u.letters body,
    startsNumber t = true → findall (wholeWord u.word old).matchLen t = []
  whole : lex u.letters (renameIn u rename body) =
    lex u.letters (cut (fnAttrs u).matchLen (renameIn u rename body)).1 ++
      (cut (fnAttrs u).matchLen (renameIn u rename body)).2.flatMap fun m =>
        lex u.letters m.1 ++ lex u.letters m.2
  apart : ¬ alwaysInline <:+: others (codeOf u rename c)

/-- The names of a rename are C names. -/
def Named (u : Alphabet) (rename : Option (Text × Text)) : Prop :=
  ∀ old new, rename = some (old, new) →
    CTokens.Name u.letters old ∧ CTokens.Name u.letters new

section Pass

variable {text name body c : Text} {r : Option (Text × Text)}

lemma isSpace_of_name {w : Text} (hw : CTokens.Name u.letters w) : Plain w := by
  intro c hc hspace
  have hword := hw.2.1 c hc
  rw [show u.letters.word c = u.word c from rfl, word_of_isSpace hspace] at hword
  exact absurd hword Bool.false_ne_true

lemma ne_backslash_of_name {w : Text} (hw : CTokens.Name u.letters w) : w ≠ backslash := by
  rintro rfl
  have hword := hw.2.1 '\\' (List.mem_singleton_self _)
  rw [u.letters.ascii '\\' (by decide)] at hword
  exact absurd hword (by decide)

/-- A name that is replaced by itself. -/
lemma renameIn_self {w : Text} (hw : CTokens.Name u.letters w) (s : Text) :
    renameIn u (some (w, w)) s = s := by
  refine subFrom_invariant (matchLen_le _) id (fun _ => True) ?_ none s [] fun _ _ => trivial
  intro prev before m t hm hlen _
  rw [mem_run_wholeName hw (mem_run_of_matchLen hm hlen)]

lemma map_renameToken_self (w : Text) (ts : List Text) : ts.map (renameToken w w) = ts := by
  refine (List.map_congr_left fun t _ => ?_).trans (List.map_id ts)
  rw [renameToken]
  split_ifs with h
  · exact h.symm
  · rfl

lemma Legible.renamed (h : Legible u text name r body c) (hr : Named u r) :
    lex u.letters (renameIn u r body) = renameCode r (lex u.letters body) ∧
      Plain (renameIn u r body) := by
  cases r with
  | none => exact ⟨rfl, h.plain⟩
  | some names =>
    obtain ⟨old, new⟩ := names
    obtain ⟨hold, hnew⟩ := hr old new rfl
    refine ⟨?_, h.plain.sub (isSpace_of_name hnew) _⟩
    by_cases heq : old = new
    · rw [heq, renameIn_self hnew, renameCode, map_renameToken_self]
    · exact lex_rename hold hnew (h.numbers old new rfl heq)

lemma joinLines_renameCode (hr : Named u r) (marks : List Bool) (ts : List Text) :
    joinLines marks (renameCode r ts) = renameCode r (joinLines marks ts) := by
  cases r with
  | none => rfl
  | some names =>
    obtain ⟨hold, hnew⟩ := hr names.1 names.2 rfl
    exact joinLines_map (ne_backslash_of_name hold) (ne_backslash_of_name hnew) marks ts

/-- Without `static` and the annotations, the tokens that the script has of a definition are those
of its normal form. -/
lemma Legible.others_body (h : Legible u text name r body c) (hr : Named u r) :
    dropInlining (others (renameCode r (lex u.letters body))) =
      dropInlining (others (lex u.letters (normalize u body r))) := by
  obtain ⟨hlex, hplain⟩ := h.renamed hr
  have hmatches : ∀ m ∈ (cut (fnAttrs u).matchLen (renameIn u r body)).2,
      m.1 = "__attribute__((always_inline))".toList ∨ m.1 ∈ storageClass :: keywords := by
    intro m hm
    obtain ⟨hne, prev, s, hlen⟩ := mem_cutPieces (matchLen_le _) hm
    exact mem_run_fnAttrs (mem_run_of_matchLen hne hlen)
  rw [lex_normalize body r hplain, sub_eq_cut, lex_blanked, ← dropInlining_matches _ _ hmatches,
    ← h.whole, hlex]

/-- Without `static` the code of a definition is read off its normal form and the continued
lines. -/
theorem Legible.others_code (h : Legible u text name r body c) (hr : Named u r) :
    others (codeOf u r c) = dropInlining (joinLines (continued body)
      (others (lex u.letters (normalize u body r)))) := by
  have hself : dropInlining (others (codeOf u r c)) = others (codeOf u r c) := by
    refine dropInlining_eq_self (fun t ht => ?_) h.apart
    exact mem_dropInlining (List.mem_of_mem_filter ht)
  calc others (codeOf u r c)
      = dropInlining (others (renameCode r (lex u.letters c))) := by
        rw [← hself, codeOf, dropInlining_others]
    _ = dropInlining (joinLines (continued body)
          (others (renameCode r (lex u.letters body)))) := by
        rw [h.same, ← joinLines_renameCode hr, joinLines_others]
    _ = dropInlining (joinLines (continued body)
          (others (lex u.letters (normalize u body r)))) := by
        rw [← dropInlining_joinLines, h.others_body hr, dropInlining_joinLines]

end Pass

lemma checkPair_exact {shim kernel shimFn kernelFn : Text} {n : Counts}
    (h : checkPair u shim kernel shimFn kernelFn .exact n = n) :
    ∃ a b, extractFunction u shim shimFn = some a ∧ extractFunction u kernel kernelFn = some b ∧
      normalize u a (some (shimFn, kernelFn)) = normalize u b none := by
  have hne : ({ n with errors := n.errors + 1 } : Counts) ≠ n := fun heq =>
    Nat.succ_ne_self _ (congrArg Counts.errors heq)
  rw [checkPair] at h
  split at h
  · exact absurd h hne
  · exact absurd h hne
  · next a b ha hb =>
    by_cases hnorm : normalize u a (some (shimFn, kernelFn)) = normalize u b none
    · exact ⟨a, b, ha, hb, hnorm⟩
    · rw [if_neg hnorm] at h
      exact absurd h hne

/-- After an exact pass two legible definitions, whose lines are continued at the same backslashes,
have the same code exactly when `static` stands at the same places in both: the normal form says
nothing about it. -/
theorem exactPass_code {shim kernel shimFn kernelFn a b c d : Text} {n : Counts}
    (hshim : CTokens.Name u.letters shimFn) (hkernel : CTokens.Name u.letters kernelFn)
    (hpass : checkPair u shim kernel shimFn kernelFn .exact n = n)
    (ha : Legible u shim shimFn (some (shimFn, kernelFn)) a c)
    (hb : Legible u kernel kernelFn none b d) (hlines : continued a = continued b) :
    ∃ ca cb, code u shim shimFn (some (shimFn, kernelFn)) = some ca ∧
      code u kernel kernelFn none = some cb ∧
      (ca = cb ↔ ∀ i : ℕ, ca[i]? = some storageClass ↔ cb[i]? = some storageClass) := by
  obtain ⟨a', b', ha', hb', hnorm⟩ := checkPair_exact hpass
  rw [ha.found, Option.some.injEq] at ha'
  rw [hb.found, Option.some.injEq] at hb'
  subst ha' hb'
  refine ⟨_, _, by rw [code, ha.foundC]; rfl, by rw [code, hb.foundC]; rfl, ?_⟩
  constructor
  · intro heq i
    rw [heq]
  · refine eq_of_others ?_
    have hnames : Named u (some (shimFn, kernelFn)) := by
      rintro old new h
      obtain ⟨rfl, rfl⟩ := Prod.mk.inj (Option.some.inj h)
      exact ⟨hshim, hkernel⟩
    have hnone : Named u none := fun old new h => absurd h.symm (Option.some_ne_none _)
    rw [ha.others_code hnames, hb.others_code hnone, hnorm, hlines]

def shimSample : Text :=
  "inline f(x)\n\x7b //\n\tstatic y; \\\n f(1.5); \x7d".toList

def kernelSample : Text :=
  "g(x) \x7b static y; \\\nnoinline g(1.5); /**/ \x7d".toList

/-- A number that has the name of the function as its suffix. -/
def suffixSample : Text := "f() \x7b 1.f; \x7d".toList

/-- Two copies with one `static` and one continued line each, and a text beside itself. -/
theorem exactPass_code_sample :
    (∃ ca cb, code asciiAlphabet shimSample ['f'] (some (['f'], ['g'])) = some ca ∧
      code asciiAlphabet kernelSample ['g'] none = some cb ∧
      (ca = cb ↔ ∀ i : ℕ, ca[i]? = some storageClass ↔ cb[i]? = some storageClass)) ∧
    ∃ ca cb, code asciiAlphabet suffixSample ['f'] (some (['f'], ['f'])) = some ca ∧
      code asciiAlphabet suffixSample ['f'] none = some cb ∧
      (ca = cb ↔ ∀ i : ℕ, ca[i]? = some storageClass ↔ cb[i]? = some storageClass) := by
  have hplain : ∀ s : Text, s.all (fun c => !isSpace c || white c) = true → Plain s := by
    intro s hs c hc hspace
    have hboth := List.all_eq_true.mp hs c hc
    rwa [hspace] at hboth
  have hf : CTokens.Name asciiAlphabet.letters ['f'] := name_of_all (by decide) rfl rfl
  have hg : CTokens.Name asciiAlphabet.letters ['g'] := name_of_all (by decide) rfl rfl
  have hnone (t : Text) : ∀ old new, (none : Option (Text × Text)) = some (old, new) → old ≠ new →
      ∀ v ∈ lex asciiAlphabet.letters t, startsNumber v = true →
        findall (wholeWord asciiAlphabet.word old).matchLen v = [] :=
    fun old new h => absurd h.symm (Option.some_ne_none _)
  constructor
  · have hpass : checkPair asciiAlphabet shimSample kernelSample ['f'] ['g'] .exact ⟨0, 0⟩ =
        ⟨0, 0⟩ := rfl
    refine exactPass_code hf hg hpass
      (a := "f(x)\n\x7b  \n\tstatic y; \\\n f(1.5); \x7d".toList)
      (b := "g(x) \x7b static y; \\\nnoinline g(1.5);   \x7d".toList)
      (c := "f(x)\n\x7b  \n\tstatic y;  f(1.5); \x7d".toList)
      (d := "g(x) \x7b static y; noinline g(1.5);   \x7d".toList) ?_ ?_ (by decide)
    · refine ⟨by decide +kernel, by decide +kernel, by decide +kernel, hplain _ rfl, ?_,
        by decide +kernel, by decide⟩
      rintro old new h -
      obtain ⟨rfl, rfl⟩ := Prod.mk.inj (Option.some.inj h)
      decide
    · exact ⟨by decide +kernel, by decide +kernel, by decide +kernel, hplain _ rfl, hnone _,
        by decide +kernel, by decide⟩
  · have hpass : checkPair asciiAlphabet suffixSample suffixSample ['f'] ['f'] .exact ⟨0, 0⟩ =
        ⟨0, 0⟩ := rfl
    refine exactPass_code hf hf hpass (a := suffixSample) (b := suffixSample) (c := suffixSample)
      (d := suffixSample) ?_ ?_ rfl
    · refine ⟨by decide +kernel, by decide +kernel, by decide +kernel, hplain _ rfl, ?_,
        by decide +kernel, by decide⟩
      rintro old new h hne
      obtain ⟨rfl, rfl⟩ := Prod.mk.inj (Option.some.inj h)
      exact absurd rfl hne
    · exact ⟨by decide +kernel, by decide +kernel, by decide +kernel, hplain _ rfl, hnone _,
        by decide +kernel, by decide⟩

/-- The pass alone says less: `static` in a body is deleted like the annotations. -/
theorem exactPass_static :
    ¬ ∀ shim kernel shimFn kernelFn : Text,
      (∀ c ∈ shim ++ kernel, c ≠ '\x22' ∧ c ≠ '\x27') →
      CTokens.Name asciiAlphabet.letters shimFn → CTokens.Name asciiAlphabet.letters kernelFn →
      checkPair asciiAlphabet shim kernel shimFn kernelFn .exact ⟨0, 0⟩ = ⟨0, 0⟩ →
      code asciiAlphabet shim shimFn (some (shimFn, kernelFn)) =
        code asciiAlphabet kernel kernelFn none := by
  intro h
  have hname : CTokens.Name asciiAlphabet.letters ['f'] := name_of_all (by decide) rfl rfl
  have hquotes : ("f() \x7b static int x; \x7d".toList ++ "f() \x7b int x; \x7d".toList).all
      (fun c => c ≠ '\x22' ∧ c ≠ '\x27') = true := rfl
  have hcode := h "f() \x7b static int x; \x7d".toList "f() \x7b int x; \x7d".toList ['f'] ['f']
    (fun c hc => of_decide_eq_true (List.all_eq_true.mp hquotes c hc)) hname hname rfl
  have hshim : code asciiAlphabet "f() \x7b static int x; \x7d".toList ['f'] (some (['f'], ['f'])) =
      some (["f", "(", ")", "\x7b", "static", "int", "x", ";", "\x7d"].map String.toList) := rfl
  have hkernel : code asciiAlphabet "f() \x7b int x; \x7d".toList ['f'] none =
      some (["f", "(", ")", "\x7b", "int", "x", ";", "\x7d"].map String.toList) := rfl
  rw [hshim, hkernel] at hcode
  exact absurd hcode (by decide)

/- The passes of texts that are not legible: an opening mark in a line comment, a continued line that
ends no token, a renamed suffix of a number, an annotation in a name; and of two texts whose lines
are not continued at the same backslashes. -/
example : ∀ p ∈ [("f() \x7b // /*\n a; /* */\n \x7d", "f() \x7b \x7d", "f", "f"),
      ("f() \x7b a\\\nb; \x7d", "f() \x7b a\\\n b; \x7d", "f", "f"),
      ("f() \x7b 1.f; \x7d", "l() \x7b 1.l; \x7d", "f", "l"),
      ("f() \x7b a \\\nb; \x7d", "f() \x7b a \\ b; \x7d", "f", "f"),
      ("f() \x7b a__always_inline; \x7d", "f() \x7b a ; \x7d", "f", "f")],
    (checkPair asciiAlphabet p.1.toList p.2.1.toList p.2.2.1.toList p.2.2.2.toList .exact
      ⟨0, 0⟩).errors = 0 ∧
      code asciiAlphabet p.1.toList p.2.2.1.toList (some (p.2.2.1.toList, p.2.2.2.toList)) ≠
        code asciiAlphabet p.2.1.toList p.2.2.2.toList none := by
  decide +kernel

end BpfVerify.ShimDrift
