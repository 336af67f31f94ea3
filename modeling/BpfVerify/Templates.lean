import BpfVerify.Regex

/-!
# Templates

A template is a text with tokens for its fields, each between two delimiters. Filling in one field
after the other, by replacing its token everywhere, gives the text with all values in place, when
neither a value nor the text between two tokens can complete a token.
-/
namespace BpfVerify.Templates
open Regex

variable {α κ : Type*}

/-- Text, and then the fields, each with the text up to the next one. -/
structure Template (κ α : Type*) where
  head : List α
  body : List (κ × List α)

def renderBody (f : κ → List α) (body : List (κ × List α)) : List α :=
  body.flatMap fun p => f p.1 ++ p.2

/-- The text of the template with a text for each field. -/
def Template.render (t : Template κ α) (f : κ → List α) : List α := t.head ++ renderBody f t.body

def token (d : α) (name : κ → List α) (k : κ) : List α := d :: (name k ++ [d])

/-- The length of a word where it begins a text. -/
def wordLen [DecidableEq α] (word : List α) : Option α → List α → ℕ :=
  fun _ s => if word <+: s then word.length else 0

/-- `str.replace` of a word that is not empty. -/
def replaceAll [DecidableEq α] (word new s : List α) : List α := sub (wordLen word) (fun _ => new) s

/-- The fields of a list filled in, one after the other. -/
def fillAll [DecidableEq α] (tok value : κ → List α) (ks : List κ) (s : List α) : List α :=
  ks.foldl (fun s k => replaceAll (tok k) (value k) s) s

/-- The delimiter is in the tokens only, and after a token comes a character of no name. -/
structure Template.Clean (t : Template κ α) (d : α) (name : κ → List α) : Prop where
  names : ∀ k, d ∉ name k
  distinct : Function.Injective name
  head : d ∉ t.head
  between : ∀ p ∈ t.body, d ∉ p.2 ∧ ∃ c ∈ p.2, ∀ k, c ∉ name k

variable {d : α} {name : κ → List α}

/-- A word up to a delimiter goes on at least as long as there is none in the text. -/
lemma prefix_of_notMem {word y rest : List α} (hy : d ∉ y) (h : word ++ [d] <+: y ++ rest) :
    y <+: word := by
  rcases List.prefix_or_prefix_of_prefix h (List.prefix_append y rest) with hw | hw
  · exact absurd (hw.subset (List.mem_append_right word List.mem_cons_self)) hy
  · rcases List.prefix_concat_iff.mp hw with heq | hpre
    · exact absurd (heq ▸ List.mem_append_right word List.mem_cons_self) hy
    · exact hpre

lemma eq_of_delimited {word y rest : List α} (hw : d ∉ word) (hy : d ∉ y)
    (h : word ++ [d] <+: y ++ d :: rest) : word = y := by
  obtain ⟨tail, rfl⟩ := prefix_of_notMem hy h
  cases tail with
  | nil => exact List.append_nil y
  | cons c tail =>
    rw [List.append_assoc, List.prefix_append_right_inj, List.cons_append,
      List.cons_prefix_cons] at h
    exact absurd (h.1 ▸ List.mem_append_right y List.mem_cons_self) hw

/-- No word with a delimiter at its start begins in a text without one. -/
lemma not_prefix_of_notMem {word q rest : List α} (hne : q ≠ []) (hq : d ∉ q) :
    ¬ d :: word <+: q ++ rest := by
  cases q with
  | nil => exact absurd rfl hne
  | cons c q =>
    rw [List.cons_append, List.cons_prefix_cons]
    exact fun h => hq (h.1 ▸ List.mem_cons_self)

/-- Inside the token of one field and the text after it no token of another field begins. -/
lemma not_prefix_token {k k₀ : κ} {after rest p q : List α} (hnames : ∀ k, d ∉ name k)
    (hdistinct : Function.Injective name) (hk : k ≠ k₀) (hafter : d ∉ after)
    (hsep : ∃ c ∈ after, ∀ k, c ∉ name k) (hsplit : token d name k ++ after = p ++ q)
    (hq : q ≠ []) : ¬ token d name k₀ <+: q ++ rest := by
  intro h
  obtain ⟨c, hc, hcname⟩ := hsep
  have htoken : token d name k ++ after = d :: (name k ++ d :: after) := by
    rw [token, List.cons_append, List.append_assoc, List.singleton_append]
  rw [htoken] at hsplit
  cases p with
  | nil =>
    rw [← List.nil_append q, ← hsplit, List.cons_append, List.append_assoc, List.cons_append, token,
      List.cons_prefix_cons] at h
    exact hk (hdistinct (eq_of_delimited (hnames k₀) (hnames k) h.2)).symm
  | cons e p =>
    -- only the delimiter at the end of the token can begin a token
    have htail : p ++ q = name k ++ d :: after := (List.cons.inj hsplit).2.symm
    rcases cut_cases htail with ⟨u, hu, hname, hrest⟩ | ⟨u, -, hrest⟩
    · rw [hrest, List.append_assoc] at h
      exact not_prefix_of_notMem hu (fun hd => hnames k (hname ▸ List.mem_append_right p hd)) h
    · cases u with
      | nil =>
        rw [← List.nil_append q, ← hrest, List.cons_append, token, List.cons_prefix_cons] at h
        exact hcname k₀ ((prefix_of_notMem hafter h.2).subset hc)
      | cons e' u =>
        have hafter' : after = u ++ q := (List.cons.inj hrest).2
        exact not_prefix_of_notMem hq (fun hd => hafter (hafter' ▸ List.mem_append_right u hd)) h

variable [DecidableEq α]

lemma wordLen_append (word rest : List α) (prev : Option α) :
    wordLen word prev (word ++ rest) = word.length := if_pos (List.prefix_append word rest)

lemma wordLen_eq_zero {word s : List α} (prev : Option α) (h : ¬ word <+: s) :
    wordLen word prev s = 0 := if_neg h

/-- A text without delimiters is kept. -/
lemma subFrom_of_notMem {k₀ : κ} {new t s : List α} (ht : d ∉ t) (prev : Option α) :
    subFrom (wordLen (token d name k₀)) (fun _ => new) prev (t ++ s) =
      t ++ subFrom (wordLen (token d name k₀)) (fun _ => new) (t.getLast?.or prev) s := by
  refine subFrom_append fun p q hsplit hq => wordLen_eq_zero _ ?_
  exact not_prefix_of_notMem hq fun hd => ht (hsplit ▸ List.mem_append_right p hd)

variable [DecidableEq κ] {t : Template κ α} {f : κ → List α} {k₀ : κ} {new : List α}

lemma subFrom_renderBody (ht : t.Clean d name) (hf : ∀ k, f k = token d name k ∨ d ∉ f k)
    (hk₀ : f k₀ = token d name k₀) {body : List (κ × List α)} (hbody : ∀ p ∈ body, p ∈ t.body)
    (prev : Option α) :
    subFrom (wordLen (token d name k₀)) (fun _ => new) prev (renderBody f body) =
      renderBody (Function.update f k₀ new) body := by
  induction body generalizing prev with
  | nil => rfl
  | cons p body ih =>
    have hrest := ih fun q hq => hbody q (List.mem_cons_of_mem p hq)
    obtain ⟨hafter, hsep⟩ := ht.between p (hbody p List.mem_cons_self)
    have hcons (g : κ → List α) : renderBody g (p :: body) = g p.1 ++ (p.2 ++ renderBody g body) := by
      rw [renderBody, List.flatMap_cons, List.append_assoc, renderBody]
    rw [hcons, hcons]
    by_cases hp : p.1 = k₀
    · have htok : token d name k₀ ≠ [] := List.cons_ne_nil d _
      rw [hp, hk₀, subFrom_hit htok (wordLen_append _ _ prev), subFrom_of_notMem hafter, hrest,
        Function.update_self]
    · rw [Function.update_of_ne hp]
      rcases hf p.1 with heq | hfree
      · rw [heq, ← List.append_assoc, subFrom_append, hrest, List.append_assoc]
        intro q r hsplit hr
        exact wordLen_eq_zero _
          (not_prefix_token ht.names ht.distinct hp hafter hsep hsplit hr)
      · rw [subFrom_of_notMem hfree, subFrom_of_notMem hafter, hrest]

/-- Replacing the token of a field fills in the field and changes nothing else. -/
lemma replaceAll_render (ht : t.Clean d name) (hf : ∀ k, f k = token d name k ∨ d ∉ f k)
    (hk₀ : f k₀ = token d name k₀) :
    replaceAll (token d name k₀) new (t.render f) = t.render (Function.update f k₀ new) := by
  rw [replaceAll, sub, Template.render, subFrom_of_notMem ht.head,
    subFrom_renderBody ht hf hk₀ fun _ h => h, Template.render]

/-- Filling in the fields one after the other is filling them in at once. -/
theorem fillAll_render (ht : t.Clean d name) {value : κ → List α} {ks : List κ} (hks : ks.Nodup)
    (hvalue : ∀ k ∈ ks, d ∉ value k) :
    fillAll (token d name) value ks (t.render (token d name)) =
      t.render fun k => if k ∈ ks then value k else token d name k := by
  have hrun (done todo : List κ) (hnodup : (done ++ todo).Nodup)
      (hfree : ∀ k ∈ done ++ todo, d ∉ value k) :
      fillAll (token d name) value todo
          (t.render fun k => if k ∈ done then value k else token d name k) =
        t.render fun k => if k ∈ done ++ todo then value k else token d name k := by
    induction todo generalizing done with
    | nil => rw [List.append_nil, fillAll, List.foldl_nil]
    | cons k todo ih =>
      have hnew : k ∉ done := fun hk =>
        (List.nodup_append.mp hnodup).2.2 k hk k List.mem_cons_self rfl
      have hstep : (Function.update (fun k => if k ∈ done then value k else token d name k) k
          (value k)) = fun j => if j ∈ done ++ [k] then value j else token d name j := by
        funext j
        by_cases hj : j = k
        · subst hj
          rw [Function.update_self, if_pos (List.mem_append_right done List.mem_cons_self)]
        · rw [Function.update_of_ne hj]
          simp only [List.mem_append, List.mem_singleton, hj, or_false]
      have hstate (j : κ) : (if j ∈ done then value j else token d name j) = token d name j ∨
          d ∉ (if j ∈ done then value j else token d name j) := by
        split_ifs with hj
        · exact .inr (hfree j (List.mem_append_left _ hj))
        · exact .inl rfl
      have hsplit : done ++ k :: todo = (done ++ [k]) ++ todo := List.append_cons done k todo
      rw [fillAll, List.foldl_cons, replaceAll_render ht hstate (if_neg hnew), hstep, hsplit]
      exact ih (done ++ [k]) (hsplit ▸ hnodup) (hsplit ▸ hfree)
  simpa only [List.nil_append, List.not_mem_nil, if_false] using hrun [] ks hks hvalue

end BpfVerify.Templates
