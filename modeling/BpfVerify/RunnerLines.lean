import BpfVerify.Runner

/-!
# The lines that the pipeline cuts the runner's output into

`str.splitlines` also ends a line at three characters that JSON does not escape. A name with one of
them cuts the object that `run_object` prints into pieces, and no piece is a row.
-/
namespace BpfVerify.RunnerLines
open Python Json Runner

/-! ## Breaks in the printed texts -/

lemma unbroken_string {s : String} (h : s.toList.all (fun c => !isBreak c) = true) :
    Unbroken s.toList := by
  intro c hc
  simpa using List.all_eq_true.mp h c hc

lemma unbroken_decimal (n : ℤ) : Unbroken (decimal n) := by
  have hdigits : Unbroken (Nat.toDigits 10 n.natAbs) := by
    intro c hc
    have hdigit := Nat.isDigit_of_mem_toDigits (by norm_num) (by norm_num) hc
    by_contra hbreak
    rw [Bool.not_eq_false, isBreak, decide_eq_true_eq] at hbreak
    fin_cases hbreak <;> exact absurd hdigit (by decide)
  unfold decimal
  split_ifs
  · exact .append (unbroken_string (s := "-") rfl) hdigits
  · exact hdigits

lemma unbroken_caseText (c : Seeds × BitVec 32) : Unbroken (caseText c.1 c.2) := by
  have hseed (i : Fin 4) : Unbroken (decimal (c.1 i).toNat) := unbroken_decimal _
  have hcomma : Unbroken ",".toList := unbroken_string rfl
  unfold caseText
  exact .append (.append (.append (.append (.append (.append (.append (.append (.append (.append
    (unbroken_string rfl) (hseed 0)) hcomma) (hseed 1)) hcomma) (hseed 2)) hcomma) (hseed 3))
    (unbroken_string rfl)) (unbroken_decimal _)) (unbroken_string rfl)

lemma unbroken_intercalate {ts : List Text} (h : ∀ t ∈ ts, Unbroken t) :
    Unbroken ([','].intercalate ts) := by
  cases ts with
  | nil => exact List.forall_mem_nil _
  | cons t ts =>
    rw [intercalate_cons]
    refine (h t List.mem_cons_self).append fun c hc => ?_
    obtain ⟨u, hu, hc⟩ := List.mem_flatMap.mp hc
    rcases List.mem_cons.mp hc with rfl | hc
    · rfl
    · exact h u (List.mem_cons_of_mem _ hu) c hc

/-- What the line of a loaded object is around its names. -/
def loadedLine (name progName rest : Text) : Text :=
  "\x7b\"file\":\"".toList ++ (name ++ (".bpf.o\",\"prog\":\"".toList ++
    (progName ++ '"' :: ',' :: '"' :: 'l' :: rest)))

def UnbrokenTail (tail : List (Text × Text × Json)) : Prop :=
  ∀ p ∈ tail, Unbroken p.1 ∧ Unbroken p.2.1

lemma unbrokenTail_completed (failures : ℕ) : UnbrokenTail (completedTail failures) :=
  List.forall_mem_singleton.mpr ⟨unbroken_string rfl, unbroken_decimal failures⟩

lemma unbroken_quote {t : Text} (h : Unbroken t) : Unbroken (quote t) := by
  have hquote : Unbroken ['"'] := unbroken_string (s := "\"") rfl
  rw [quote, List.cons_append]
  exact .append hquote (h.append hquote)

lemma unbrokenTail_abort {it : Iteration} {error : Text} (h : abortOf it = some error) :
    UnbrokenTail (abortTail error) := by
  have herror : Unbroken error := by
    unfold abortOf at h
    split at h
    · rw [← Option.some.inj h]
      exact .append (unbroken_string rfl) (unbroken_decimal _)
    · rw [← Option.some.inj h]
      exact .append (unbroken_string rfl) (unbroken_decimal _)
    · exact nomatch h
  exact List.forall_mem_cons.mpr ⟨⟨unbroken_string rfl, unbroken_string rfl⟩,
    List.forall_mem_singleton.mpr ⟨unbroken_string rfl, unbroken_quote herror⟩⟩

/-- Only the names can break the line of a loaded object. -/
lemma lineText_eq_loadedLine (name progName : Text) (iters : ℤ) (cases : List (Seeds × BitVec 32))
    {tail : List (Text × Text × Json)} (h : UnbrokenTail tail) : ∃ rest, Unbroken rest ∧
      lineText (name ++ ".bpf.o".toList) progName iters cases tail =
        loadedLine name progName rest := by
  refine ⟨"oaded\":true,\"iters\":".toList ++ (decimal iters ++ (",\"cases\":[".toList ++
    ([','].intercalate (cases.map fun c => caseText c.1 c.2) ++ ("]".toList ++
    ((tail.flatMap fun p => ',' :: memberText (p.1, p.2.1)) ++ "\x7d".toList))))), ?_, ?_⟩
  · have hcases : Unbroken ([','].intercalate (cases.map fun c => caseText c.1 c.2)) := by
      refine unbroken_intercalate fun t ht => ?_
      obtain ⟨c, -, rfl⟩ := List.mem_map.mp ht
      exact unbroken_caseText c
    have hmembers : Unbroken (tail.flatMap fun p => ',' :: memberText (p.1, p.2.1)) := by
      intro c hc
      obtain ⟨p, hp, hc⟩ := List.mem_flatMap.mp hc
      have hmember : Unbroken (',' :: memberText (p.1, p.2.1)) :=
        List.forall_mem_cons.mpr ⟨rfl, (unbroken_quote (h p hp).1).append
          (List.forall_mem_cons.mpr ⟨rfl, (h p hp).2⟩)⟩
      exact hmember c hc
    have hiters : Unbroken "oaded\":true,\"iters\":".toList := unbroken_string (by decide)
    have hopen : Unbroken ",\"cases\":[".toList := unbroken_string (by decide)
    have hclose : Unbroken "]".toList := unbroken_string (by decide)
    have hend : Unbroken "\x7d".toList := unbroken_string (by decide)
    exact hiters.append ((unbroken_decimal iters).append (hopen.append (hcases.append
      (hclose.append (hmembers.append hend)))))
  · rw [lineText, objText_headMembers]
    unfold loadedLine headText
    simp only [String.reduceToList]
    simp only [List.append_assoc, List.cons_append, List.nil_append]

/-- The line of an object that did not load. -/
def unloadedLine (name rest : Text) : Text :=
  "\x7b\"file\":\"".toList ++ (name ++ '.' :: rest)

/-- The members of that line. -/
def unloadedMembers (base error : Text) : List (Text × Text × Json) :=
  [("file".toList, quote base, .str base), ("loaded".toList, "false".toList, .bool false),
    ("error".toList, quote error, .str error)]

lemma unloadedText_eq (base error : Text) : unloadedText base error =
    objText ((unloadedMembers base error).map fun p => (p.1, p.2.1)) ++ ['\n'] := by
  unfold unloadedText objText unloadedMembers memberText quote
  simp only [List.map_cons, List.map_nil, List.intercalate_cons_cons, List.intercalate_singleton]
  simp only [String.reduceToList]
  simp only [List.append_assoc, List.cons_append, List.nil_append]

lemma loads_unloadedMembers {base error : Text} (hbase : Plain base) (herror : Plain error) :
    loads (objText ((unloadedMembers base error).map fun p => (p.1, p.2.1))) =
      some (.obj (update [] ((unloadedMembers base error).map fun p => (p.1, p.2.2)))) := by
  refine (reads_obj ?_).loads
  simp only [unloadedMembers, List.forall_mem_cons]
  exact ⟨⟨by simp [Plain], reads_str hbase⟩, ⟨by simp [Plain], reads_false⟩,
    ⟨by simp [Plain], reads_str herror⟩, by simp⟩

lemma unloadedText_eq_unloadedLine (name : Text) {error : Text} (h : Unbroken error) :
    ∃ rest, Unbroken rest ∧
      unloadedText (name ++ ".bpf.o".toList) error = unloadedLine name rest ++ ['\n'] := by
  have hmiddle : Unbroken "bpf.o\",\"loaded\":false,\"error\":\"".toList :=
    unbroken_string (by decide)
  have hend : Unbroken "\"\x7d".toList := unbroken_string (by decide)
  refine ⟨"bpf.o\",\"loaded\":false,\"error\":\"".toList ++ (error ++ "\"\x7d".toList),
    hmiddle.append (h.append hend), ?_⟩
  unfold unloadedText unloadedLine
  simp only [String.reduceToList]
  simp only [List.append_assoc, List.cons_append, List.nil_append]

/-! ## Pieces -/

/-- The pipeline makes no entry of the line. -/
def NoRow (line : Text) : Prop :=
  "\x7b".toList.isPrefixOf (strip line) = true →
    loads (strip line) = none ∨ loads (strip line) = some (.obj [])

lemma isSpace_of_isWs {c : Char} (h : isWs c = true) : isSpace c = true := by
  rw [isWs, decide_eq_true_eq] at h
  fin_cases h <;> rfl

/-- What is left of `","loaded"` once its first quote has opened a key. -/
lemma jsonObject_comma {t r u : Text} (h : t ++ r = ',' :: '"' :: 'l' :: u) (n : ℕ)
    (d : List (Text × Json)) : jsonObject n d ('"' :: t) = none := by
  have hcomma : Plain [','] := by simp [Plain]
  cases t with
  | nil => exact jsonObject_open_key (List.forall_mem_nil _) n d
  | cons c t =>
    obtain ⟨hc, htail⟩ := List.cons.inj h
    rw [hc]
    cases t with
    | nil => exact jsonObject_open_key hcomma n d
    | cons c' t =>
      obtain ⟨hc', hrest⟩ := List.cons.inj htail
      rw [hc']
      refine @jsonObject_no_colon [','] _ hcomma ?_ n d
      cases t with
      | nil => exact (Option.some_ne_none _).symm
      | cons e t =>
        rw [(List.cons.inj hrest).1, skipWs_cons _ rfl]
        exact fun hcolon => absurd (Option.some.inj hcolon) (by decide)

/-- A piece that starts behind a break in a name: the object has a first key only if the name ends
in a brace, and then the key is a comma and no colon follows. -/
lemma noRow_of_append {s l r rest : Text} {d : Char} (hs : '"' ∉ s) (h : l ++ r = s ++ d :: rest)
    (hspace : isSpace d = false) (hbrace : d ≠ '\x7b')
    (hquote : d = '"' → ∃ u, rest = ',' :: '"' :: 'l' :: u) : NoRow l := by
  intro hpre
  obtain ⟨t, ht⟩ : ∃ t, strip l = '\x7b' :: t := by
    obtain ⟨t, ht⟩ := List.isPrefixOf_iff_prefix.mp hpre
    exact ⟨t, ht.symm⟩
  obtain ⟨u, v, hl, hu, -⟩ := exists_strip l
  have hmem {w x : Text} (hw : ∀ c ∈ w, isSpace c = true) (hcons : w ++ '\x7b' :: x = d :: rest) :
      False := by
    cases w with
    | nil => exact hbrace (List.cons.inj hcons).1.symm
    | cons c w =>
      have hc := hw c List.mem_cons_self
      rw [(List.cons.inj hcons).1, hspace] at hc
      exact nomatch hc
  have hbegin : u ++ '\x7b' :: (t ++ (v ++ r)) = s ++ d :: rest := by
    rw [← h, hl, ht]
    simp
  -- the brace is one of the name
  obtain ⟨s', rfl, hs'⟩ : ∃ s', s = u ++ '\x7b' :: s' ∧ t ++ (v ++ r) = s' ++ d :: rest := by
    rcases append_cons_eq_append hbegin with hin | ⟨w, rfl, hw⟩
    · exact hin
    · exact (hmem (fun c hc => hu c (List.mem_append_right _ hc)) hw).elim
  rw [ht]
  by_cases hhead : (skipWs t).head? = some '"'
  case neg => exact loads_of_head hhead
  obtain ⟨t', ht'⟩ : ∃ t', skipWs t = '"' :: t' := by
    cases hskip : skipWs t with
    | nil => rw [hskip] at hhead; exact nomatch hhead
    | cons c t' => rw [hskip] at hhead; exact ⟨t', by rw [Option.some.inj hhead]⟩
  have hkey : t.takeWhile isWs ++ '"' :: (t' ++ (v ++ r)) = s' ++ d :: rest := by
    rw [← hs', ← List.cons_append, ← ht', ← List.append_assoc, skipWs,
      List.takeWhile_append_dropWhile]
  rcases append_cons_eq_append hkey with ⟨z, hz, -⟩ | ⟨w, hw, hrest⟩
  · exact absurd (by rw [hz]; simp) hs
  cases w with
  | nil =>
    obtain ⟨hd, hkey'⟩ := List.cons.inj hrest
    obtain ⟨u', hu'⟩ := hquote hd.symm
    refine .inl (loads_of_jsonObject hhead fun n d => ?_)
    rw [ht']
    exact jsonObject_comma (hkey'.trans hu') n d
  | cons c w =>
    have hc : c ∈ t.takeWhile isWs := by
      rw [hw]
      simp
    have hws := isSpace_of_isWs (List.mem_takeWhile_imp hc)
    rw [(List.cons.inj hrest).1, hspace] at hws
    exact nomatch hws

/-- Behind an open quote `strip` leaves the start of a text alone. -/
lemma strip_open (s p : Text) : ∃ z v, p = z ++ v ∧
    strip ('\x7b' :: (s ++ '"' :: p)) = '\x7b' :: (s ++ '"' :: z) := by
  obtain ⟨u, v, hl, hu, hv⟩ := exists_strip ('\x7b' :: (s ++ '"' :: p))
  cases u with
  | cons c u =>
    have hc := hu c List.mem_cons_self
    rw [← (List.cons.inj hl).1] at hc
    exact absurd hc (by decide)
  | nil =>
    rw [List.nil_append, ← List.cons_append] at hl
    rcases append_cons_eq_append hl with ⟨z, hz, hp⟩ | ⟨w, -, hw⟩
    · exact ⟨z, v, hp, hz⟩
    · have hquote := hv '"' (by rw [← hw]; simp)
      exact absurd hquote (by decide)

/-- A first piece breaks off in the string of a member. -/
lemma noRow_of_open {s p : Text} (hp : Plain p)
    (h : ∀ z, Plain z → ∀ n d, jsonObject n d ('"' :: (s ++ '"' :: z)) = none) :
    NoRow ('\x7b' :: ('"' :: s ++ '"' :: p)) := by
  intro _
  obtain ⟨z, v, rfl, hz⟩ := strip_open ('"' :: s) p
  have hplain : Plain z := fun c hc => hp c (List.mem_append_left _ hc)
  have hskip : skipWs ('"' :: s ++ '"' :: z) = '"' :: (s ++ '"' :: z) := skipWs_cons _ rfl
  rw [hz]
  refine .inl (loads_of_jsonObject (by rw [hskip]; rfl) fun n d => ?_)
  rw [hskip]
  exact h z hplain n d

lemma noRow_nil : NoRow [] := fun h => nomatch h

variable {name progName rest : Text}

/-- The piece in front of a break in the name. -/
lemma noRow_name (h : Plain name) : NoRow ("\x7b\"file\":\"".toList ++ name) := by
  have hkey : Plain "file".toList := by simp [Plain]
  exact noRow_of_open (s := "file\":".toList) h fun z hz n d => jsonObject_open_value hkey hz n d

/-- The piece in front of a break in the program's name. -/
lemma noRow_progName (h : Plain name) (hprog : Plain progName) :
    NoRow ("\x7b\"file\":\"".toList ++ (name ++ (".bpf.o\",\"prog\":\"".toList ++ progName))) := by
  have hkey : Plain "file".toList := by simp [Plain]
  have hprogKey : Plain "prog".toList := by simp [Plain]
  have hbase : Plain (name ++ ".bpf.o".toList) := h.append (by simp [Plain])
  have htext (z : Text) : '"' :: ("file\":\"".toList ++ (name ++ ".bpf.o\",\"prog\":".toList) ++
      '"' :: z) = '"' :: ("file".toList ++ '"' :: ':' :: '"' :: (name ++ ".bpf.o".toList ++
        '"' :: ',' :: '"' :: ("prog".toList ++ '"' :: ':' :: '"' :: z))) := by
    simp only [String.reduceToList, List.append_assoc, List.cons_append, List.nil_append]
  have hopen : NoRow ('\x7b' :: ('"' :: ("file\":\"".toList ++
      (name ++ ".bpf.o\",\"prog\":".toList)) ++ '"' :: progName)) := by
    refine noRow_of_open hprog fun z hz n d => ?_
    rw [htext]
    refine jsonObject_next hkey hbase (fun n d => ?_) n d
    rw [skipWs_cons _ rfl]
    exact jsonObject_open_value hprogKey hz n d
  rw [List.cons_append, htext] at hopen
  simpa only [String.reduceToList, List.append_assoc, List.cons_append, List.nil_append] using hopen

/-! ## All lines of one object -/

/-- The lines of a text that is broken in two names only: the line up to a break in a name, and
what starts behind one. -/
lemma mem_splitlines_names {x m z l : Text} (hx : Unbroken x) (hm : Unbroken m) (hz : Unbroken z)
    (hbroken : ¬ (Unbroken name ∧ Unbroken progName))
    (hl : l ∈ splitlines (x ++ (name ++ (m ++ (progName ++ z))) ++ ['\n'])) :
    (∃ a c b, name = a ++ c :: b ∧ l = x ++ a) ∨
    (∃ a c b, progName = a ++ c :: b ∧ l = x ++ (name ++ (m ++ a))) ∨
    (∃ a c b r, name = a ++ c :: b ∧ l ++ r = b ++ (m ++ (progName ++ (z ++ ['\n'])))) ∨
    (∃ a c b r, progName = a ++ c :: b ∧ l ++ r = b ++ (z ++ ['\n'])) ∨ l = [] := by
  have htext : x ++ (name ++ (m ++ (progName ++ z))) ++ ['\n'] =
      x ++ (name ++ (m ++ (progName ++ (z ++ ['\n'])))) := by
    simp only [List.append_assoc]
  obtain ⟨hunbroken, ⟨c, r, heq, hc⟩ | ⟨s, c, r, heq, hc⟩⟩ := mem_splitlines hl
  · rw [htext] at heq
    obtain ⟨s₁, rfl, h₁⟩ := hx.of_append_cons hc heq.symm
    rcases append_cons_eq_append h₁ with ⟨b, hname, -⟩ | ⟨s₂, rfl, h₂⟩
    · exact .inl ⟨s₁, c, b, hname, rfl⟩
    obtain ⟨s₃, rfl, h₃⟩ := hm.of_append_cons hc h₂
    rcases append_cons_eq_append h₃ with ⟨b, hprog, -⟩ | ⟨s₄, rfl, -⟩
    · exact .inr (.inl ⟨s₃, c, b, hprog, rfl⟩)
    -- the line has both names
    exact absurd ⟨fun c hc => hunbroken c (by simp [hc]), fun c hc => hunbroken c (by simp [hc])⟩
      hbroken
  · rw [htext] at heq
    obtain ⟨s₁, rfl, h₁⟩ := hx.of_append_cons hc heq.symm
    rcases append_cons_eq_append h₁ with ⟨b, hname, hr⟩ | ⟨s₂, rfl, h₂⟩
    · exact .inr (.inr (.inl ⟨s₁, c, b, r, hname, hr⟩))
    obtain ⟨s₃, rfl, h₃⟩ := hm.of_append_cons hc h₂
    rcases append_cons_eq_append h₃ with ⟨b, hprog, hr⟩ | ⟨s₄, rfl, h₄⟩
    · exact .inr (.inr (.inr (.inl ⟨s₃, c, b, r, hprog, hr⟩)))
    -- the break is the newline
    obtain ⟨s₅, rfl, h₅⟩ := hz.of_append_cons hc h₄
    have hlen := congrArg List.length h₅
    simp only [List.length_append, List.length_cons, List.length_nil] at hlen
    exact .inr (.inr (.inr (.inr (List.length_eq_zero_iff.mp (by omega)))))

lemma unbroken_file : Unbroken "\x7b\"file\":\"".toList := unbroken_string (by decide)

/-- No line of a loaded object is a row if a name has a break. -/
lemma noRow_loadedLine (hname : Plain name) (hprog : Plain progName) (hrest : Unbroken rest)
    (hbroken : ¬ (Unbroken name ∧ Unbroken progName)) :
    ∀ l ∈ splitlines (loadedLine name progName rest ++ ['\n']), NoRow l := by
  intro l hl
  have hmiddle : Unbroken ".bpf.o\",\"prog\":\"".toList := unbroken_string (by decide)
  have hend : Unbroken ('"' :: ',' :: '"' :: 'l' :: rest) :=
    (unbroken_string (s := "\",\"l") (by decide)).append hrest
  rcases mem_splitlines_names unbroken_file hmiddle hend hbroken hl with ⟨a, c, b, rfl, rfl⟩ |
    ⟨a, c, b, rfl, rfl⟩ | ⟨a, c, b, r, rfl, hr⟩ | ⟨a, c, b, r, rfl, hr⟩ | rfl
  · exact noRow_name fun c hc => hname c (List.mem_append_left _ hc)
  · exact noRow_progName hname fun c hc => hprog c (List.mem_append_left _ hc)
  · refine noRow_of_append (d := '.') (fun hmem => ?_) hr rfl (by decide) fun h =>
      absurd h (by decide)
    exact (hname '"' (by simp [hmem])).1 rfl
  · refine noRow_of_append (fun hmem => ?_) hr rfl (by decide) fun _ => ⟨_, rfl⟩
    exact (hprog '"' (by simp [hmem])).1 rfl
  · exact noRow_nil

/-- No line of an object that did not load is a row if the name has a break. -/
lemma noRow_unloadedLine (hname : Plain name) (hrest : Unbroken rest) (hbroken : ¬ Unbroken name) :
    ∀ l ∈ splitlines (unloadedLine name rest ++ ['\n']), NoRow l := by
  intro l hl
  have hend : Unbroken ('.' :: rest) := (unbroken_string (s := ".") rfl).append hrest
  have hnil : Unbroken [] := List.forall_mem_nil _
  have hempty (x : Text) : x ++ (name ++ '.' :: rest) =
      x ++ (name ++ ('.' :: rest ++ ([] ++ []))) := by
    rw [List.append_nil, List.append_nil]
  have htext : unloadedLine name rest = _ := hempty _
  rw [htext] at hl
  rcases mem_splitlines_names unbroken_file hend hnil (fun h => hbroken h.1) hl with
    ⟨a, c, b, rfl, rfl⟩ | ⟨a, c, b, h, -⟩ | ⟨a, c, b, r, rfl, hr⟩ | ⟨a, c, b, r, h, -⟩ | rfl
  · exact noRow_name fun c hc => hname c (List.mem_append_left _ hc)
  · exact absurd h (by simp)
  · refine noRow_of_append (d := '.') (fun hmem => ?_) hr rfl (by decide) fun h =>
      absurd h (by decide)
    exact (hname '"' (by simp [hmem])).1 rfl
  · exact absurd h (by simp)
  · exact noRow_nil

end BpfVerify.RunnerLines
