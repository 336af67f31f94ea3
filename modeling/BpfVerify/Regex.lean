import Mathlib

/-!
# Regular expressions of a backtracking matcher

Patterns of single characters, sequences, alternatives, greedy and lazy repetitions of one character
class and word boundaries, matched in the order in which a backtracking matcher tries. A scanner
cuts a text from the left into the matches it finds and the characters between them; it takes any
function for the length of a match, zero where there is none.
-/
namespace Regex

variable {α : Type*}

/-! ## Scanning -/

inductive Piece (α : Type*) where
  | char (c : α)
  | hit (m : List α)
  deriving DecidableEq

def Piece.text : Piece α → List α
  | .char c => [c]
  | .hit m => m

/-- `prev` is the character before the text, and `skip` counts what is left of the last match. -/
def pieces (len : Option α → List α → ℕ) : Option α → ℕ → List α → List (Piece α)
  | _, _, [] => []
  | _, skip + 1, c :: s => pieces len (some c) skip s
  | prev, 0, c :: s =>
    match len prev (c :: s) with
    | 0 => .char c :: pieces len (some c) 0 s
    | n + 1 => .hit ((c :: s).take (n + 1)) :: pieces len (some c) n s

variable {len : Option α → List α → ℕ}

/-- The element before a place behind `c` does not depend on what stands before `c`. -/
lemma getLast?_cons_or (c : α) (p : List α) (prev : Option α) :
    (c :: p).getLast?.or prev = p.getLast?.or (some c) := by
  rw [List.getLast?_cons]
  cases p.getLast? with
  | none => rfl
  | some d => rfl

lemma pieces_skip (prev : Option α) (m s : List α) :
    pieces len prev m.length (m ++ s) = pieces len (m.getLast?.or prev) 0 s := by
  induction m generalizing prev with
  | nil => rfl
  | cons c m ih =>
    rw [List.length_cons, List.cons_append, pieces, ih, getLast?_cons_or]

lemma pieces_char {prev : Option α} {c : α} {s : List α} (h : len prev (c :: s) = 0) :
    pieces len prev 0 (c :: s) = .char c :: pieces len (some c) 0 s := by
  rw [pieces, h]

lemma pieces_hit {prev : Option α} {m s : List α} (hm : m ≠ [])
    (h : len prev (m ++ s) = m.length) :
    pieces len prev 0 (m ++ s) = .hit m :: pieces len m.getLast? 0 s := by
  obtain ⟨c, m, rfl⟩ := List.exists_cons_of_ne_nil hm
  rw [List.cons_append] at h ⊢
  have htake : (c :: (m ++ s)).take (m.length + 1) = c :: m := by
    rw [List.take_succ_cons, List.take_left]
  rw [pieces, h, List.length_cons]
  dsimp only
  rw [htake, pieces_skip, ← getLast?_cons_or c m none, Option.or_none]

/-- A text is empty, goes on with a character at which nothing matches, or with a match. -/
theorem scan_induction (hlen : ∀ prev s, len prev s ≤ s.length)
    {motive : Option α → List α → Prop} (nil : ∀ prev, motive prev [])
    (char : ∀ prev c s, len prev (c :: s) = 0 → motive (some c) s → motive prev (c :: s))
    (hit : ∀ prev m s, m ≠ [] → len prev (m ++ s) = m.length → motive m.getLast? s →
      motive prev (m ++ s))
    (prev : Option α) (s : List α) : motive prev s := by
  induction hn : s.length using Nat.strong_induction_on generalizing prev s with
  | _ n ih =>
    cases s with
    | nil => exact nil prev
    | cons c s =>
      by_cases h : len prev (c :: s) = 0
      · refine char prev c s h (ih s.length ?_ _ s rfl)
        rw [← hn, List.length_cons]
        omega
      · have hle := hlen prev (c :: s)
        have hsplit := List.take_append_drop (len prev (c :: s)) (c :: s)
        have htake : ((c :: s).take (len prev (c :: s))).length = len prev (c :: s) :=
          List.length_take_of_le hle
        rw [← hsplit]
        refine hit prev _ _ ?_ ?_ (ih _ ?_ _ _ rfl)
        · intro hnil
          rw [hnil] at htake
          exact h htake.symm
        · rw [hsplit, htake]
        · rw [List.length_drop, hn]
          omega

lemma text_pieces (hlen : ∀ prev s, len prev s ≤ s.length) (prev : Option α) (s : List α) :
    (pieces len prev 0 s).flatMap Piece.text = s := by
  induction prev, s using scan_induction hlen with
  | nil prev => rfl
  | char prev c s h ih =>
    rw [pieces_char h, List.flatMap_cons, ih, Piece.text, List.singleton_append]
  | hit prev m s hm h ih => rw [pieces_hit hm h, List.flatMap_cons, ih, Piece.text]

/-! ## Substitution -/

def Piece.replace (f : List α → List α) : Piece α → List α
  | .char c => [c]
  | .hit m => f m

def subFrom (len : Option α → List α → ℕ) (f : List α → List α) (prev : Option α) (s : List α) :
    List α :=
  (pieces len prev 0 s).flatMap (Piece.replace f)

/-- The text with each match replaced. -/
def sub (len : Option α → List α → ℕ) (f : List α → List α) (s : List α) : List α :=
  subFrom len f none s

variable {f : List α → List α}

lemma subFrom_char {prev : Option α} {c : α} {s : List α} (h : len prev (c :: s) = 0) :
    subFrom len f prev (c :: s) = c :: subFrom len f (some c) s := by
  rw [subFrom, pieces_char h, List.flatMap_cons, Piece.replace, List.singleton_append, subFrom]

lemma subFrom_hit {prev : Option α} {m s : List α} (hm : m ≠ [])
    (h : len prev (m ++ s) = m.length) :
    subFrom len f prev (m ++ s) = f m ++ subFrom len f m.getLast? s := by
  rw [subFrom, pieces_hit hm h, List.flatMap_cons, Piece.replace, subFrom]

/-- Where nothing matches nothing is replaced. -/
lemma subFrom_append {prev : Option α} {t s : List α}
    (h : ∀ p q, t = p ++ q → q ≠ [] → len (p.getLast?.or prev) (q ++ s) = 0) :
    subFrom len f prev (t ++ s) = t ++ subFrom len f (t.getLast?.or prev) s := by
  induction t generalizing prev with
  | nil => rfl
  | cons c t ih =>
    have hc : len prev (c :: (t ++ s)) = 0 := h [] (c :: t) rfl (List.cons_ne_nil c t)
    have ht := @ih (some c) fun p q hpq hq => by
      have hlate := h (c :: p) q (by rw [hpq, List.cons_append]) hq
      rwa [getLast?_cons_or] at hlate
    rw [List.cons_append, subFrom_char hc, ht, List.cons_append, getLast?_cons_or]

lemma mem_subFrom (hlen : ∀ prev s, len prev s ≤ s.length) {prev : Option α} {s : List α} {c : α}
    (h : c ∈ subFrom len f prev s) : c ∈ s ∨ ∃ m, c ∈ f m := by
  induction prev, s using scan_induction hlen with
  | nil prev => exact absurd h List.not_mem_nil
  | char prev d s hd ih =>
    rw [subFrom_char hd] at h
    cases List.mem_cons.mp h with
    | inl heq => exact .inl (heq ▸ List.mem_cons_self)
    | inr hs => exact (ih hs).imp_left (List.mem_cons_of_mem d)
  | hit prev m s hm hlen' ih =>
    rw [subFrom_hit hm hlen'] at h
    cases List.mem_append.mp h with
    | inl hf => exact .inr ⟨m, hf⟩
    | inr hs => exact (ih hs).imp_left (List.mem_append_right m)

/-- What no replacement changes, after whatever text, the substitution does not change. -/
theorem subFrom_invariant {β : Type*} (hlen : ∀ prev s, len prev s ≤ s.length) (g : List α → β)
    (P : α → Prop)
    (h : ∀ prev before m s, m ≠ [] → len prev (m ++ s) = m.length → (∀ c ∈ m, P c) →
      g (before ++ (f m ++ s)) = g (before ++ (m ++ s)))
    (prev : Option α) (s before : List α) (hs : ∀ c ∈ s, P c) :
    g (before ++ subFrom len f prev s) = g (before ++ s) := by
  induction prev, s using scan_induction hlen generalizing before with
  | nil prev => rfl
  | char prev c s hc ih =>
    rw [subFrom_char hc, List.append_cons, List.append_cons before c s]
    exact ih (before ++ [c]) fun d hd => hs d (List.mem_cons_of_mem c hd)
  | hit prev m s hm hlen' ih =>
    have hms : ∀ c ∈ m, P c := fun c hc => hs c (List.mem_append_left s hc)
    have hss : ∀ c ∈ s, P c := fun c hc => hs c (List.mem_append_right m hc)
    rw [subFrom_hit hm hlen', ← h prev before m s hm hlen' hms, ← List.append_assoc,
      ← List.append_assoc before (f m) s]
    exact ih (before ++ f m) hss

/-! ## Matches and the text between them -/

/-- The texts of the matches. -/
def hits : List (Piece α) → List (List α)
  | [] => []
  | .char _ :: ps => hits ps
  | .hit m :: ps => m :: hits ps

def findall (len : Option α → List α → ℕ) (s : List α) : List (List α) :=
  hits (pieces len none 0 s)

lemma findall_eq_nil {prev : Option α} {s : List α} (h : hits (pieces len prev 0 s) = [])
    {p q : List α} (hs : s = p ++ q) (hq : q ≠ []) : len (p.getLast?.or prev) q = 0 := by
  induction s generalizing prev p with
  | nil => exact absurd (List.append_eq_nil_iff.mp hs.symm).2 hq
  | cons c s ih =>
    have hc : len prev (c :: s) = 0 := by
      by_contra hne
      obtain ⟨n, hn⟩ := Nat.exists_eq_succ_of_ne_zero hne
      rw [pieces, hn] at h
      exact absurd h (List.cons_ne_nil _ _)
    rw [pieces_char hc, hits] at h
    cases p with
    | nil =>
      rw [List.nil_append] at hs
      rw [← hs]
      exact hc
    | cons d p =>
      rw [List.cons_append] at hs
      obtain ⟨rfl, hs'⟩ := List.cons.inj hs
      rw [getLast?_cons_or]
      exact ih h hs'

structure Match (α : Type*) where
  before : List α
  text : List α
  after : List α

def matchesFrom (before : List α) : List (Piece α) → List (Match α)
  | [] => []
  | .char c :: ps => matchesFrom (before ++ [c]) ps
  | .hit m :: ps => ⟨before, m, ps.flatMap Piece.text⟩ :: matchesFrom (before ++ m) ps

/-- The matches from left to right. -/
def finditer (len : Option α → List α → ℕ) (s : List α) : List (Match α) :=
  matchesFrom [] (pieces len none 0 s)

lemma mem_matchesFrom (hlen : ∀ prev s, len prev s ≤ s.length) {before s : List α} {m : Match α}
    {prev : Option α} (hprev : prev = before.getLast?)
    (h : m ∈ matchesFrom before (pieces len prev 0 s)) :
    m.before ++ (m.text ++ m.after) = before ++ s ∧ m.text ≠ [] ∧
      len m.before.getLast? (m.text ++ m.after) = m.text.length ∧
      before.length ≤ m.before.length := by
  induction prev, s using scan_induction hlen generalizing before with
  | nil prev => exact absurd h List.not_mem_nil
  | char prev c s hc ih =>
    rw [pieces_char hc, matchesFrom] at h
    obtain ⟨htext, hne, hm, hle⟩ := ih List.getLast?_concat.symm h
    rw [List.length_append] at hle
    exact ⟨by rw [htext, List.append_assoc, List.singleton_append], hne, hm, by omega⟩
  | hit prev t s ht hlen' ih =>
    rw [pieces_hit ht hlen', matchesFrom] at h
    cases List.mem_cons.mp h with
    | inl heq =>
      rw [text_pieces hlen] at heq
      subst heq hprev
      exact ⟨rfl, ht, hlen', le_rfl⟩
    | inr hm =>
      obtain ⟨htext, hne, hm, hle⟩ := ih (List.getLast?_append_of_ne_nil before ht).symm hm
      rw [List.length_append] at hle
      exact ⟨by rw [htext, List.append_assoc], hne, hm, by omega⟩

lemma matchesFrom_pairwise (hlen : ∀ prev s, len prev s ≤ s.length) {before s : List α}
    {prev : Option α} (hprev : prev = before.getLast?) :
    (matchesFrom before (pieces len prev 0 s)).Pairwise
      fun m n => m.before.length < n.before.length := by
  induction prev, s using scan_induction hlen generalizing before with
  | nil prev => exact .nil
  | char prev c s hc ih =>
    rw [pieces_char hc, matchesFrom]
    exact ih List.getLast?_concat.symm
  | hit prev t s ht hlen' ih =>
    have hlast := (List.getLast?_append_of_ne_nil before ht).symm
    rw [pieces_hit ht hlen', matchesFrom]
    refine .cons (fun m hm => ?_) (ih hlast)
    have hle := (mem_matchesFrom hlen hlast hm).2.2.2
    have hpos := List.length_pos_of_ne_nil ht
    rw [List.length_append] at hle
    dsimp only
    omega

/-- Nothing matches inside a match. -/
def Apart (len : Option α → List α → ℕ) : Prop :=
  ∀ prev p q s, p ≠ [] → q ≠ [] → len prev (p ++ (q ++ s)) = (p ++ q).length →
    len p.getLast? (q ++ s) = 0

/-- A place in a text is before the end of a first part or not. -/
lemma cut_cases {p q t s : List α} (h : p ++ q = t ++ s) :
    (∃ u, u ≠ [] ∧ t = p ++ u ∧ q = u ++ s) ∨ ∃ u, p = t ++ u ∧ s = u ++ q := by
  cases List.append_eq_append_iff.mp h with
  | inl hin =>
    obtain ⟨u, ht, hq⟩ := hin
    by_cases hu : u = []
    · subst hu
      exact .inr ⟨[], by rw [ht, List.append_nil, List.append_nil], hq.symm⟩
    · exact .inl ⟨u, hu, ht, hq⟩
  | inr hout => exact .inr hout

lemma exists_matchesFrom (hlen : ∀ prev s, len prev s ≤ s.length) (hapart : Apart len)
    {before p q : List α} {prev : Option α} (hprev : prev = before.getLast?)
    (h : len (before ++ p).getLast? q ≠ 0) :
    ∃ m ∈ matchesFrom before (pieces len prev 0 (p ++ q)), m.before = before ++ p := by
  generalize hs : p ++ q = s
  induction prev, s using scan_induction hlen generalizing before p with
  | nil prev =>
    have hq := hlen (before ++ p).getLast? q
    rw [(List.append_eq_nil_iff.mp hs).2] at hq h
    exact absurd (Nat.le_zero.mp hq) h
  | char prev c s hc ih =>
    rw [pieces_char hc, matchesFrom]
    cases p with
    | nil =>
      rw [List.nil_append] at hs
      rw [List.append_nil, ← hprev, hs] at h
      exact absurd hc h
    | cons d p =>
      rw [List.cons_append] at hs
      obtain ⟨rfl, htail⟩ := List.cons.inj hs
      rw [List.append_cons before d p] at h ⊢
      exact ih List.getLast?_concat.symm h htail
  | hit prev t s ht hlen' ih =>
    rw [pieces_hit ht hlen', matchesFrom]
    by_cases hp : p = []
    · rw [hp, List.append_nil]
      exact ⟨_, List.mem_cons_self, rfl⟩
    · cases cut_cases hs with
      | inl hin =>
        obtain ⟨u, hu, rfl, rfl⟩ := hin
        rw [List.append_assoc] at hlen'
        rw [List.getLast?_append_of_ne_nil before hp] at h
        exact absurd (hapart prev p u s hp hu hlen') h
      | inr hout =>
        obtain ⟨u, rfl, rfl⟩ := hout
        rw [← List.append_assoc] at h ⊢
        obtain ⟨m, hm, hbefore⟩ := ih (List.getLast?_append_of_ne_nil before ht).symm h rfl
        exact ⟨m, List.mem_cons_of_mem _ hm, hbefore⟩

/-- What a search over the matches returns comes from the first of them that has a result. -/
theorem findSome?_finditer {β : Type*} (hlen : ∀ prev s, len prev s ≤ s.length)
    {F : Match α → Option β} {s : List α} {b : β} :
    (finditer len s).findSome? F = some b ↔
      ∃ m ∈ finditer len s, F m = some b ∧
        ∀ n ∈ finditer len s, F n ≠ none → m.before.length ≤ n.before.length := by
  have hsorted : (finditer len s).Pairwise fun m n => m.before.length < n.before.length :=
    matchesFrom_pairwise hlen rfl
  rw [List.findSome?_eq_some_iff]
  constructor
  · rintro ⟨l₁, m, l₂, hl, hm, hnone⟩
    refine ⟨m, by simp [hl], hm, fun n hn hsome => ?_⟩
    rw [hl, List.pairwise_append, List.pairwise_cons] at hsorted
    rw [hl, List.mem_append, List.mem_cons] at hn
    rcases hn with hn | rfl | hn
    · exact absurd (hnone n hn) hsome
    · exact le_rfl
    · exact (hsorted.2.1.1 n hn).le
  · rintro ⟨m, hm, hsome, hfirst⟩
    obtain ⟨l₁, l₂, hl⟩ := List.append_of_mem hm
    refine ⟨l₁, m, l₂, hl, hsome, fun n hn => ?_⟩
    by_contra hne
    have hle := hfirst n (by rw [hl]; exact List.mem_append_left _ hn) hne
    rw [hl, List.pairwise_append] at hsorted
    have hlt := hsorted.2.2 n hn m List.mem_cons_self
    omega

/-- The text before the first match, and each match with the text behind it. -/
def cutPieces : List (Piece α) → List α × List (List α × List α)
  | [] => ([], [])
  | .char c :: ps => (c :: (cutPieces ps).1, (cutPieces ps).2)
  | .hit m :: ps => ([], (m, (cutPieces ps).1) :: (cutPieces ps).2)

def cut (len : Option α → List α → ℕ) (s : List α) : List α × List (List α × List α) :=
  cutPieces (pieces len none 0 s)

lemma replace_cutPieces (f : List α → List α) (ps : List (Piece α)) :
    ps.flatMap (Piece.replace f) =
      (cutPieces ps).1 ++ (cutPieces ps).2.flatMap fun m => f m.1 ++ m.2 := by
  induction ps with
  | nil => rfl
  | cons p ps ih =>
    cases p with
    | char c =>
      rw [List.flatMap_cons, ih, Piece.replace, cutPieces, List.singleton_append, List.cons_append]
    | hit m =>
      rw [List.flatMap_cons, ih, Piece.replace, cutPieces, List.nil_append, List.flatMap_cons,
        List.append_assoc]

lemma sub_eq_cut (s : List α) :
    sub len f s = (cut len s).1 ++ (cut len s).2.flatMap fun m => f m.1 ++ m.2 :=
  replace_cutPieces f _

/-- What is cut out has matched somewhere. -/
lemma mem_cutPieces (hlen : ∀ prev s, len prev s ≤ s.length) {prev : Option α} {s : List α}
    {m : List α × List α} (h : m ∈ (cutPieces (pieces len prev 0 s)).2) :
    m.1 ≠ [] ∧ ∃ prev' s', len prev' (m.1 ++ s') = m.1.length := by
  induction prev, s using scan_induction hlen with
  | nil prev => exact absurd h List.not_mem_nil
  | char prev c s hc ih =>
    rw [pieces_char hc, cutPieces] at h
    exact ih h
  | hit prev t s ht hlen' ih =>
    rw [pieces_hit ht hlen', cutPieces] at h
    cases List.mem_cons.mp h with
    | inl heq =>
      rw [heq]
      exact ⟨ht, prev, s, hlen'⟩
    | inr hm => exact ih hm

/-! ## Patterns -/

/-- The repetitions are of one character class, the greedy `star` and the lazy one. -/
inductive Pattern (α : Type*) where
  | empty
  | one (p : α → Bool)
  | seq (r t : Pattern α)
  | alt (r t : Pattern α)
  | star (p : α → Bool)
  | lazyStar (p : α → Bool)
  | boundary (word : α → Bool)

def starRun (p : α → Bool) : List α → List (List α × List α)
  | [] => [([], [])]
  | c :: s =>
    if p c then (starRun p s).map (fun m => (c :: m.1, m.2)) ++ [([], c :: s)] else [([], c :: s)]

def lazyRun (p : α → Bool) : List α → List (List α × List α)
  | [] => [([], [])]
  | c :: s =>
    if p c then ([], c :: s) :: (lazyRun p s).map (fun m => (c :: m.1, m.2)) else [([], c :: s)]

/-- The matches at the start of a text in the order of the attempts, each with the text behind
it. -/
def Pattern.run : Pattern α → Option α → List α → List (List α × List α)
  | .empty, _, s => [([], s)]
  | .one _, _, [] => []
  | .one p, _, c :: s => if p c then [([c], s)] else []
  | .seq r t, prev, s => (r.run prev s).flatMap fun m =>
      (t.run (m.1.getLast?.or prev) m.2).map fun n => (m.1 ++ n.1, n.2)
  | .alt r t, prev, s => r.run prev s ++ t.run prev s
  | .star p, _, s => starRun p s
  | .lazyStar p, _, s => lazyRun p s
  | .boundary word, prev, s => if prev.any word != s.head?.any word then [([], s)] else []

section
variable {p : α → Bool} {prev : Option α} {c : α} {s : List α}

lemma starRun_cons : starRun p (c :: s) =
    if p c then (starRun p s).map (fun m => (c :: m.1, m.2)) ++ [([], c :: s)]
    else [([], c :: s)] := rfl

lemma lazyRun_cons : lazyRun p (c :: s) =
    if p c then ([], c :: s) :: (lazyRun p s).map (fun m => (c :: m.1, m.2))
    else [([], c :: s)] := rfl

lemma run_one_cons : (Pattern.one p).run prev (c :: s) = if p c then [([c], s)] else [] := rfl

lemma run_seq (r t : Pattern α) : (Pattern.seq r t).run prev s =
    (r.run prev s).flatMap fun m =>
      (t.run (m.1.getLast?.or prev) m.2).map fun n => (m.1 ++ n.1, n.2) := rfl

lemma run_boundary (word : α → Bool) : (Pattern.boundary word).run prev s =
    if prev.any word != s.head?.any word then [([], s)] else [] := rfl

end

/-- The length of the first match. -/
def Pattern.matchLen (r : Pattern α) (prev : Option α) (s : List α) : ℕ :=
  ((r.run prev s).head?.map fun m => m.1.length).getD 0

def lit [DecidableEq α] (w : List α) : Pattern α :=
  w.foldr (fun c r => .seq (.one (fun d => d = c)) r) .empty

lemma starRun_append {p : α → Bool} {s : List α} : ∀ m ∈ starRun p s, m.1 ++ m.2 = s := by
  induction s with
  | nil => exact fun m hm => by rw [List.mem_singleton.mp hm, List.append_nil]
  | cons c s ih =>
    intro m hm
    rw [starRun_cons] at hm
    split_ifs at hm with hc
    · cases List.mem_append.mp hm with
      | inl h =>
        obtain ⟨n, hn, rfl⟩ := List.mem_map.mp h
        rw [List.cons_append, ih n hn]
      | inr h => rw [List.mem_singleton.mp h, List.nil_append]
    · rw [List.mem_singleton.mp hm, List.nil_append]

lemma lazyRun_append {p : α → Bool} {s : List α} : ∀ m ∈ lazyRun p s, m.1 ++ m.2 = s := by
  induction s with
  | nil => exact fun m hm => by rw [List.mem_singleton.mp hm, List.append_nil]
  | cons c s ih =>
    intro m hm
    rw [lazyRun_cons] at hm
    split_ifs at hm with hc
    · cases List.mem_cons.mp hm with
      | inl h => rw [h, List.nil_append]
      | inr h =>
        obtain ⟨n, hn, rfl⟩ := List.mem_map.mp h
        rw [List.cons_append, ih n hn]
    · rw [List.mem_singleton.mp hm, List.nil_append]

lemma run_append (r : Pattern α) (prev : Option α) (s : List α) :
    ∀ m ∈ r.run prev s, m.1 ++ m.2 = s := by
  induction r generalizing prev s with
  | empty =>
    intro m hm
    rw [List.mem_singleton.mp hm, List.nil_append]
  | one p =>
    cases s with
    | nil => exact fun m hm => absurd hm List.not_mem_nil
    | cons c s =>
      intro m hm
      rw [run_one_cons] at hm
      split_ifs at hm with hc
      · rw [List.mem_singleton.mp hm, List.singleton_append]
      · exact absurd hm List.not_mem_nil
  | seq r t ihr iht =>
    intro m hm
    obtain ⟨a, ha, hb⟩ := List.mem_flatMap.mp hm
    obtain ⟨b, hmem, rfl⟩ := List.mem_map.mp hb
    rw [List.append_assoc, iht _ _ b hmem, ihr prev s a ha]
  | alt r t ihr iht =>
    intro m hm
    cases List.mem_append.mp hm with
    | inl h => exact ihr prev s m h
    | inr h => exact iht prev s m h
  | star p => exact starRun_append
  | lazyStar p => exact lazyRun_append
  | boundary word =>
    intro m hm
    rw [run_boundary] at hm
    split_ifs at hm with h
    · rw [List.mem_singleton.mp hm, List.nil_append]
    · exact absurd hm List.not_mem_nil

lemma matchLen_cases (r : Pattern α) (prev : Option α) (s : List α) :
    r.run prev s = [] ∧ r.matchLen prev s = 0 ∨
      ∃ m ∈ r.run prev s, (r.run prev s).head? = some m ∧ r.matchLen prev s = m.1.length := by
  rw [Pattern.matchLen]
  cases h : r.run prev s with
  | nil => exact .inl ⟨rfl, rfl⟩
  | cons m ms => exact .inr ⟨m, List.mem_cons_self, rfl, rfl⟩

lemma matchLen_le (r : Pattern α) (prev : Option α) (s : List α) : r.matchLen prev s ≤ s.length := by
  rcases matchLen_cases r prev s with ⟨-, h⟩ | ⟨m, hm, -, h⟩
  · omega
  · have happ := congrArg List.length (run_append r prev s m hm)
    rw [List.length_append] at happ
    omega

/-- A text at whose start the pattern matches in its length is the text of that match. -/
lemma mem_run_of_matchLen {r : Pattern α} {prev : Option α} {m s : List α} (hm : m ≠ [])
    (h : r.matchLen prev (m ++ s) = m.length) : (m, s) ∈ r.run prev (m ++ s) := by
  rcases matchLen_cases r prev (m ++ s) with ⟨-, hzero⟩ | ⟨n, hn, -, hlen⟩
  · rw [hzero] at h
    exact absurd (List.length_eq_zero_iff.mp h.symm) hm
  · obtain ⟨h₁, h₂⟩ := List.append_inj (run_append r prev (m ++ s) n hn) (by omega)
    have hpair : n = (m, s) := Prod.ext h₁ h₂
    rwa [hpair] at hn

/-! ## What a pattern matches -/

lemma mem_run_empty {prev : Option α} {s x y : List α} :
    (x, y) ∈ (Pattern.empty : Pattern α).run prev s ↔ x = [] ∧ y = s := by
  show (x, y) ∈ [([], s)] ↔ _
  rw [List.mem_singleton, Prod.mk.injEq]

lemma mem_run_one {p : α → Bool} {prev : Option α} {s x y : List α} :
    (x, y) ∈ (Pattern.one p).run prev s ↔ ∃ c, p c = true ∧ x = [c] ∧ s = c :: y := by
  cases s with
  | nil =>
    constructor
    · exact fun h => absurd h List.not_mem_nil
    · rintro ⟨c, -, -, heq⟩
      exact absurd heq (List.cons_ne_nil c y).symm
  | cons d s =>
    rw [run_one_cons]
    split_ifs with hd
    · rw [List.mem_singleton, Prod.mk.injEq]
      constructor
      · rintro ⟨rfl, rfl⟩
        exact ⟨d, hd, rfl, rfl⟩
      · rintro ⟨c, -, rfl, heq⟩
        obtain ⟨rfl, rfl⟩ := List.cons.inj heq
        exact ⟨rfl, rfl⟩
    · constructor
      · exact fun h => absurd h List.not_mem_nil
      · rintro ⟨c, hc, -, heq⟩
        exact absurd ((List.cons.inj heq).1 ▸ hc) hd

lemma mem_run_seq {r t : Pattern α} {prev : Option α} {s x y : List α} :
    (x, y) ∈ (Pattern.seq r t).run prev s ↔ ∃ a b z, x = a ++ b ∧ (a, z) ∈ r.run prev s ∧
      (b, y) ∈ t.run (a.getLast?.or prev) z := by
  rw [run_seq, List.mem_flatMap]
  constructor
  · rintro ⟨⟨a, z⟩, ha, hmap⟩
    obtain ⟨⟨b, y'⟩, hb, heq⟩ := List.mem_map.mp hmap
    obtain ⟨rfl, rfl⟩ := Prod.mk.inj heq
    exact ⟨a, b, z, rfl, ha, hb⟩
  · rintro ⟨a, b, z, rfl, ha, hb⟩
    exact ⟨(a, z), ha, List.mem_map.mpr ⟨(b, y), hb, rfl⟩⟩

lemma mem_run_alt {r t : Pattern α} {prev : Option α} {s : List α} {n : List α × List α} :
    n ∈ (Pattern.alt r t).run prev s ↔ n ∈ r.run prev s ∨ n ∈ t.run prev s :=
  List.mem_append

lemma mem_run_star {p : α → Bool} {prev : Option α} {s x y : List α} :
    (x, y) ∈ (Pattern.star p).run prev s ↔ s = x ++ y ∧ ∀ c ∈ x, p c = true := by
  show (x, y) ∈ starRun p s ↔ _
  induction s generalizing x with
  | nil =>
    show (x, y) ∈ [([], [])] ↔ _
    rw [List.mem_singleton, Prod.mk.injEq, List.nil_eq_append_iff]
    constructor
    · rintro ⟨rfl, rfl⟩
      exact ⟨⟨rfl, rfl⟩, fun c hc => absurd hc List.not_mem_nil⟩
    · exact fun h => h.1
  | cons d s ih =>
    rw [starRun_cons]
    split_ifs with hd
    · rw [List.mem_append, List.mem_map, List.mem_singleton, Prod.mk.injEq]
      constructor
      · rintro (⟨⟨a, z⟩, ha, heq⟩ | ⟨rfl, rfl⟩)
        · obtain ⟨rfl, rfl⟩ := Prod.mk.inj heq
          obtain ⟨rfl, hall⟩ := ih.mp ha
          exact ⟨rfl, List.forall_mem_cons.mpr ⟨hd, hall⟩⟩
        · exact ⟨rfl, fun c hc => absurd hc List.not_mem_nil⟩
      · rintro ⟨hs, hall⟩
        cases x with
        | nil => exact .inr ⟨rfl, hs.symm⟩
        | cons c x =>
          obtain ⟨rfl, htail⟩ := List.cons.inj hs
          exact .inl ⟨(x, y), ih.mpr ⟨htail, fun e he => hall e (List.mem_cons_of_mem _ he)⟩, rfl⟩
    · rw [List.mem_singleton, Prod.mk.injEq]
      constructor
      · rintro ⟨rfl, rfl⟩
        exact ⟨rfl, fun c hc => absurd hc List.not_mem_nil⟩
      · rintro ⟨hs, hall⟩
        cases x with
        | nil => exact ⟨rfl, hs.symm⟩
        | cons c x => exact absurd ((List.cons.inj hs).1 ▸ hall c List.mem_cons_self) hd

lemma mem_run_boundary {word : α → Bool} {prev : Option α} {s x y : List α} :
    (x, y) ∈ (Pattern.boundary word).run prev s ↔
      x = [] ∧ y = s ∧ prev.any word ≠ s.head?.any word := by
  rw [run_boundary]
  split_ifs with h
  · simp only [List.mem_singleton, Prod.mk.injEq]
    simp at h
    tauto
  · simp at h
    simp [h]

lemma mem_run_lit [DecidableEq α] {w : List α} {prev : Option α} {s x y : List α} :
    (x, y) ∈ (lit w).run prev s ↔ x = w ∧ s = w ++ y := by
  induction w generalizing prev s x with
  | nil =>
    show (x, y) ∈ (Pattern.empty : Pattern α).run prev s ↔ _
    rw [mem_run_empty, List.nil_append, @eq_comm _ y]
  | cons a w ih =>
    show (x, y) ∈ (Pattern.seq (.one (fun d => d = a)) (lit w)).run prev s ↔ _
    rw [mem_run_seq]
    constructor
    · rintro ⟨b, u, z, rfl, hone, hw⟩
      obtain ⟨c, hc, rfl, rfl⟩ := mem_run_one.mp hone
      obtain ⟨rfl, rfl⟩ := ih.mp hw
      rw [of_decide_eq_true hc]
      exact ⟨rfl, rfl⟩
    · rintro ⟨rfl, rfl⟩
      exact ⟨[a], w, w ++ y, rfl, mem_run_one.mpr ⟨a, decide_eq_true rfl, rfl, rfl⟩,
        ih.mpr ⟨rfl, rfl⟩⟩

/-- The length of a match is that of the only one there is. -/
lemma matchLen_of_unique {r : Pattern α} {prev : Option α} {m s : List α}
    (hmem : (m, s) ∈ r.run prev (m ++ s)) (huniq : ∀ n ∈ r.run prev (m ++ s), n.1 = m) :
    r.matchLen prev (m ++ s) = m.length := by
  rcases matchLen_cases r prev (m ++ s) with ⟨hnil, -⟩ | ⟨n, hn, -, hlen⟩
  · rw [hnil] at hmem
    exact absurd hmem List.not_mem_nil
  · rw [hlen, huniq n hn]

/-- `\bw\b`. -/
def wholeWord [DecidableEq α] (word : α → Bool) (w : List α) : Pattern α :=
  .seq (.boundary word) (.seq (lit w) (.boundary word))

section WholeWord

variable [DecidableEq α] {word : α → Bool} {w : List α}

lemma mem_run_wholeWord (hne : w ≠ []) (hw : ∀ c ∈ w, word c = true) {prev : Option α}
    {s x y : List α} :
    (x, y) ∈ (wholeWord word w).run prev s ↔ prev.any word = false ∧ y.head?.any word = false ∧
      x = w ∧ s = w ++ y := by
  have hhead : (w ++ y).head?.any word = true := by
    obtain ⟨c, v, rfl⟩ := List.exists_cons_of_ne_nil hne
    exact hw c List.mem_cons_self
  have hlast : ∀ q : Option α, (w.getLast?.or q).any word = true := by
    intro q
    rw [List.getLast?_eq_getLast_of_ne_nil hne]
    exact hw _ (List.getLast_mem hne)
  constructor
  · intro h
    obtain ⟨_, _, _, rfl, hstart, hrest⟩ := mem_run_seq.mp h
    obtain ⟨rfl, rfl, hprev⟩ := mem_run_boundary.mp hstart
    obtain ⟨_, _, _, rfl, hlit, hend⟩ := mem_run_seq.mp hrest
    obtain ⟨rfl, rfl⟩ := mem_run_lit.mp hlit
    obtain ⟨rfl, rfl, hnext⟩ := mem_run_boundary.mp hend
    rw [hhead] at hprev
    rw [hlast] at hnext
    exact ⟨Bool.eq_false_iff.mpr hprev, Bool.eq_false_iff.mpr hnext.symm, by simp, rfl⟩
  · rintro ⟨hprev, hnext, rfl, rfl⟩
    refine mem_run_seq.mpr ⟨[], x, x ++ y, rfl, mem_run_boundary.mpr ⟨rfl, rfl, ?_⟩, ?_⟩
    · rw [hprev, hhead]
      exact Bool.false_ne_true
    · refine mem_run_seq.mpr ⟨x, [], y, (List.append_nil x).symm, mem_run_lit.mpr ⟨rfl, rfl⟩,
        mem_run_boundary.mpr ⟨rfl, rfl, ?_⟩⟩
      rw [hlast, hnext]
      exact Bool.false_ne_true.symm

lemma matchLen_wholeWord (hne : w ≠ []) (hw : ∀ c ∈ w, word c = true) {prev : Option α}
    {y : List α} (hprev : prev.any word = false) (hy : y.head?.any word = false) :
    (wholeWord word w).matchLen prev (w ++ y) = w.length := by
  refine matchLen_of_unique ((mem_run_wholeWord hne hw).mpr ⟨hprev, hy, rfl, rfl⟩) fun n hn => ?_
  exact ((mem_run_wholeWord hne hw).mp hn).2.2.1

lemma matchLen_wholeWord_ne_zero (hne : w ≠ []) (hw : ∀ c ∈ w, word c = true) {prev : Option α}
    {s : List α} (h : (wholeWord word w).matchLen prev s ≠ 0) :
    prev.any word = false ∧ ∃ y, s = w ++ y ∧ y.head?.any word = false := by
  rcases matchLen_cases (wholeWord word w) prev s with ⟨-, hzero⟩ | ⟨⟨x, y⟩, hm, -⟩
  · exact absurd hzero h
  · obtain ⟨hprev, hy, -, hs⟩ := (mem_run_wholeWord hne hw).mp hm
    exact ⟨hprev, y, hs, hy⟩

end WholeWord

end Regex
