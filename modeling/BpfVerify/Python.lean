import Mathlib

/-! The parts of Python's `str` and `dict` that the pipeline and its gate use:
texts are lists of characters, dictionaries are key/value lists in insertion order. -/
namespace Python

abbrev Text := List Char

/-- `str.splitlines` ends a line at each of these. -/
def isBreak (c : Char) : Bool :=
  c ∈ ['\n', '\r', '\x0b', '\x0c', '\x1c', '\x1d', '\x1e', '\u0085', '\u2028', '\u2029']

/-- `str.isspace`, for `str.strip`. -/
def isSpace (c : Char) : Bool :=
  c ∈ ['\t', '\n', '\x0b', '\x0c', '\r', '\x1c', '\x1d', '\x1e', '\x1f', ' ', '\u0085', '\u00a0',
    '\u1680', '\u2000', '\u2001', '\u2002', '\u2003', '\u2004', '\u2005', '\u2006', '\u2007',
    '\u2008', '\u2009', '\u200a', '\u2028', '\u2029', '\u202f', '\u205f', '\u3000']

/-- The rest of `splitlines`, with `line` the text since the last break. -/
def splitlinesFrom (line : Text) : Text → List Text
  | [] => if line = [] then [] else [line]
  | '\r' :: '\n' :: t => line :: splitlinesFrom [] t
  | c :: t => if isBreak c then line :: splitlinesFrom [] t else splitlinesFrom (line ++ [c]) t

def splitlines (t : Text) : List Text := splitlinesFrom [] t

def strip (t : Text) : Text := (t.dropWhile isSpace).rdropWhile isSpace

/-- The last component of a POSIX path, as `pathlib.Path(t).name` gives it. -/
def pathName (t : Text) : Text :=
  ((t.splitOn '/').filter fun part => part ≠ [] ∧ part ≠ ['.']).getLastD []

lemma infix_of_append_cons {α : Type*} {p a b : List α} {c : α} (hc : c ∉ p)
    (h : p <:+: a ++ c :: b) : p <:+: a ∨ p <:+: b := by
  cases List.infix_append_iff.mp h with
  | inl ha => exact .inl ha
  | inr h =>
    cases h with
    | inl hcb =>
      cases List.infix_cons_iff.mp hcb with
      | inl hpre =>
        cases p with
        | nil => exact .inr (List.nil_infix)
        | cons d p =>
          rw [List.cons_prefix_cons] at hpre
          exact absurd hpre.1 (fun he => hc (by simp [he]))
      | inr hb => exact .inr hb
    | inr h =>
      obtain ⟨p₁, p₂, rfl, h₁, h₂⟩ := h
      cases p₂ with
      | nil => exact .inl (by simpa using h₁.isInfix)
      | cons d p₂ =>
        rw [List.cons_prefix_cons] at h₂
        exact absurd h₂.1 (fun he => hc (by simp [he]))

/-- A text that has no break inside is found in a text exactly where a line has it. -/
lemma infix_splitlinesFrom {p : Text} (hp : p ≠ []) (hb : ∀ c ∈ p, isBreak c = false)
    (line t : Text) (h : p <:+: line ++ t) : ∃ l ∈ splitlinesFrom line t, p <:+: l := by
  have hcut {a b : Text} {c : Char} (hc : isBreak c = true) (h : p <:+: a ++ c :: b) :
      p <:+: a ∨ p <:+: b :=
    infix_of_append_cons (fun hmem => by simp [hb c hmem] at hc) h
  fun_induction splitlinesFrom line t with
  | case1 => simp [hp] at h
  | case2 line hline => exact ⟨line, by simp, by simpa using h⟩
  | case3 line t ih =>
    cases hcut rfl h with
    | inl hl => exact ⟨line, by simp, hl⟩
    | inr ht =>
      cases hcut (a := []) rfl ht with
      | inl hnil => simp [hp] at hnil
      | inr ht =>
        obtain ⟨l, hl, hpl⟩ := ih ht
        exact ⟨l, by simp [hl], hpl⟩
  | case4 line c t _ hc ih =>
    cases hcut hc h with
    | inl hl => exact ⟨line, by simp, hl⟩
    | inr ht =>
      obtain ⟨l, hl, hpl⟩ := ih ht
      exact ⟨l, by simp [hl], hpl⟩
  | case5 line c t _ hc ih => exact ih (by simpa using h)

lemma infix_splitlines {p t : Text} (hp : p ≠ []) (hb : ∀ c ∈ p, isBreak c = false)
    (h : p <:+: t) : ∃ l ∈ splitlines t, p <:+: l :=
  infix_splitlinesFrom hp hb [] t h

/-- `str.splitlines` does not cut the text. -/
def Unbroken (t : Text) : Prop := ∀ c ∈ t, isBreak c = false

lemma Unbroken.append {s t : Text} (hs : Unbroken s) (ht : Unbroken t) : Unbroken (s ++ t) :=
  List.forall_mem_append.mpr ⟨hs, ht⟩

lemma splitlinesFrom_cons (line : Text) {c : Char} {t : Text}
    (h : c = '\r' → t.head? ≠ some '\n') : splitlinesFrom line (c :: t) =
      if isBreak c then line :: splitlines t else splitlinesFrom (line ++ [c]) t := by
  rw [splitlinesFrom.eq_def]
  split
  · next heq => exact absurd heq (by simp)
  · next u heq =>
    obtain ⟨hc, rfl⟩ := List.cons.inj heq
    exact absurd rfl (h hc)
  · next heq =>
    obtain ⟨rfl, rfl⟩ := List.cons.inj heq
    rfl

/-- The lines of two texts that meet at a newline. -/
lemma splitlinesFrom_append (line s t : Text) : splitlinesFrom line (s ++ '\n' :: t) =
    splitlinesFrom line (s ++ ['\n']) ++ splitlines t := by
  have hnewline (line t : Text) : splitlinesFrom line ('\n' :: t) = line :: splitlines t := by
    rw [splitlinesFrom_cons line fun h => absurd h (by decide), if_pos (by decide)]
  fun_induction splitlinesFrom line s with
  | case1 => rw [List.nil_append, List.nil_append, hnewline, hnewline]; rfl
  | case2 line hline => rw [List.nil_append, List.nil_append, hnewline, hnewline]; rfl
  | case3 line s ih => simp [splitlinesFrom, ih]
  | case4 line c s hcr hc ih =>
    cases s with
    | nil =>
      by_cases hr : c = '\r'
      · subst hr
        simp [splitlinesFrom, splitlines]
      · rw [List.cons_append, List.cons_append, splitlinesFrom_cons line fun h => absurd h hr,
          splitlinesFrom_cons line fun h => absurd h hr, if_pos hc, if_pos hc]
        exact congrArg _ ih
    | cons d s =>
      have hhead (u : Text) : c = '\r' → (d :: s ++ u).head? ≠ some '\n' := fun h hd =>
        hcr s h (by rw [Option.some.inj hd])
      have hcut (u : Text) : splitlinesFrom line (c :: (d :: s ++ u)) =
          line :: splitlines (d :: s ++ u) := by
        rw [splitlinesFrom_cons line (hhead u), if_pos hc]
      calc splitlinesFrom line (c :: (d :: s ++ '\n' :: t))
          = line :: splitlines (d :: s ++ '\n' :: t) := hcut _
        _ = line :: (splitlines (d :: s ++ ['\n']) ++ splitlines t) := congrArg _ ih
        _ = splitlinesFrom line (c :: (d :: s ++ ['\n'])) ++ splitlines t := by rw [hcut]; rfl
  | case5 line c s hcr hc ih =>
    have hr : c ≠ '\r' := fun h => hc (by rw [h]; rfl)
    rw [List.cons_append, List.cons_append, splitlinesFrom_cons line fun h => absurd h hr,
      splitlinesFrom_cons line fun h => absurd h hr, if_neg hc, if_neg hc, ih]

lemma splitlines_append (s t : Text) :
    splitlines (s ++ '\n' :: t) = splitlines (s ++ ['\n']) ++ splitlines t :=
  splitlinesFrom_append [] s t

lemma splitlines_unbroken {s : Text} (h : Unbroken s) : splitlines (s ++ ['\n']) = [s] := by
  have hfrom (line : Text) : splitlinesFrom line (s ++ ['\n']) = [line ++ s] := by
    induction s generalizing line with
    | nil => rw [List.nil_append, List.append_nil]; rfl
    | cons c s ih =>
      obtain ⟨hc, hs⟩ := List.forall_mem_cons.mp h
      have hr : c ≠ '\r' := fun hr => by rw [hr] at hc; exact absurd hc (by decide)
      rw [List.cons_append, splitlinesFrom_cons line fun h => absurd h hr, hc,
        if_neg Bool.false_ne_true, ih hs, List.append_assoc]
      rfl
  exact hfrom []

/-- A line has no break inside, and it starts with the text or behind a break. -/
lemma mem_splitlinesFrom {line t l : Text} (hline : Unbroken line) (h : l ∈ splitlinesFrom line t) :
    Unbroken l ∧ ((∃ r, line ++ t = l ++ r ∧ ∀ c ∈ r.head?, isBreak c = true) ∨
      ∃ s c r, t = s ++ c :: (l ++ r) ∧ isBreak c = true) := by
  fun_induction splitlinesFrom line t with
  | case1 => exact absurd h List.not_mem_nil
  | case2 line =>
    rw [List.mem_singleton.mp h]
    exact ⟨hline, .inl ⟨[], rfl, nofun⟩⟩
  | case3 line t ih =>
    rcases List.mem_cons.mp h with rfl | hl
    · exact ⟨hline, .inl ⟨_, rfl, fun c hc => by rw [← Option.some.inj hc]; rfl⟩⟩
    · obtain ⟨hub, ⟨r, rfl, -⟩ | ⟨s, c, r, rfl, hc⟩⟩ := ih (List.forall_mem_nil _) hl
      · exact ⟨hub, .inr ⟨['\r'], '\n', r, rfl, rfl⟩⟩
      · exact ⟨hub, .inr ⟨'\r' :: '\n' :: s, c, r, rfl, hc⟩⟩
  | case4 line c t _ hc ih =>
    rcases List.mem_cons.mp h with rfl | hl
    · exact ⟨hline, .inl ⟨_, rfl, fun d hd => by rw [← Option.some.inj hd]; exact hc⟩⟩
    · obtain ⟨hub, ⟨r, rfl, -⟩ | ⟨s, d, r, rfl, hd⟩⟩ := ih (List.forall_mem_nil _) hl
      · exact ⟨hub, .inr ⟨[], c, r, rfl, hc⟩⟩
      · exact ⟨hub, .inr ⟨c :: s, d, r, rfl, hd⟩⟩
  | case5 line c t _ hc ih =>
    have hsnoc : Unbroken (line ++ [c]) :=
      hline.append (List.forall_mem_singleton.mpr (Bool.eq_false_iff.mpr hc))
    obtain ⟨hl, ⟨r, hr, hhead⟩ | ⟨s, d, r, rfl, hd⟩⟩ := ih hsnoc h
    · exact ⟨hl, .inl ⟨r, by rw [← hr, List.append_assoc]; rfl, hhead⟩⟩
    · exact ⟨hl, .inr ⟨c :: s, d, r, rfl, hd⟩⟩

/-- The two ways in which a line lies in a text that a newline ends. -/
lemma mem_splitlines {t l : Text} (h : l ∈ splitlines (t ++ ['\n'])) : Unbroken l ∧
    ((∃ c r, t ++ ['\n'] = l ++ c :: r ∧ isBreak c = true) ∨
      ∃ s c r, t ++ ['\n'] = s ++ c :: (l ++ r) ∧ isBreak c = true) := by
  obtain ⟨hl, ⟨r, hr, hhead⟩ | hrest⟩ := mem_splitlinesFrom (List.forall_mem_nil _) h
  · refine ⟨hl, .inl ?_⟩
    cases r with
    | nil =>
      rw [List.nil_append, List.append_nil] at hr
      have hnewline : '\n' ∈ l := by simp [← hr]
      exact absurd (hl _ hnewline) (by decide)
    | cons c r => exact ⟨c, r, hr, hhead c rfl⟩
  · exact ⟨hl, .inr hrest⟩

/-- The spaces that `strip` takes away. -/
lemma exists_strip (t : Text) : ∃ u v, t = u ++ (strip t ++ v) ∧ (∀ c ∈ u, isSpace c = true) ∧
    ∀ c ∈ v, isSpace c = true := by
  refine ⟨t.takeWhile isSpace, (t.dropWhile isSpace).rtakeWhile isSpace, ?_,
    fun c hc => List.mem_takeWhile_imp hc, fun c hc => List.mem_rtakeWhile_imp hc⟩
  rw [strip, List.rdropWhile_append_rtakeWhile, List.takeWhile_append_dropWhile]

/-- Where a character stands in two texts that meet. -/
lemma append_cons_eq_append {s r x y : Text} {c : Char} (h : s ++ c :: r = x ++ y) :
    (∃ z, x = s ++ c :: z ∧ r = z ++ y) ∨ ∃ s', s = x ++ s' ∧ s' ++ c :: r = y := by
  rcases List.append_eq_append_iff.mp h with ⟨z, rfl, hz⟩ | ⟨s', rfl, hs⟩
  · cases z with
    | nil => exact .inr ⟨[], by simp, hz⟩
    | cons d z =>
      obtain ⟨rfl, rfl⟩ := List.cons.inj hz
      exact .inl ⟨z, rfl, rfl⟩
  · exact .inr ⟨s', rfl, hs.symm⟩

/-- A break stands behind a text without one. -/
lemma Unbroken.of_append_cons {s r x y : Text} {c : Char} (hx : Unbroken x)
    (hc : isBreak c = true) (h : s ++ c :: r = x ++ y) : ∃ s', s = x ++ s' ∧ s' ++ c :: r = y := by
  rcases append_cons_eq_append h with ⟨z, rfl, -⟩ | hs
  · have hfalse := hx c (by simp)
    rw [hc] at hfalse
    exact nomatch hfalse
  · exact hs

/-- A blank text has no character that is not a space. -/
lemma isSpace_of_strip_eq_nil {t : Text} (h : strip t = []) : ∀ c ∈ t, isSpace c = true := by
  unfold strip at h
  rw [List.rdropWhile_eq_nil_iff] at h
  intro c hc
  by_contra hcs
  have hne : t.dropWhile isSpace ≠ [] := by
    intro he
    exact hcs (List.dropWhile_eq_nil_iff.mp he c hc)
  have hhead := List.head_dropWhile_not isSpace hne
  simp [h _ (List.head_mem hne)] at hhead

/-- A comprehension whose body may raise, seen from both sides. -/
lemma mapM_eq_some {α β : Type*} {f : α → Option β} {l : List α} {ys : List β}
    (h : l.mapM f = some ys) :
    (∀ x ∈ l, ∃ y ∈ ys, f x = some y) ∧ ∀ y ∈ ys, ∃ x ∈ l, f x = some y := by
  induction l generalizing ys with
  | nil => simp_all
  | cons a l ih =>
    rw [List.mapM_cons] at h
    obtain ⟨b, hb, h⟩ := Option.bind_eq_some_iff.mp h
    obtain ⟨bs, hbs, h⟩ := Option.bind_eq_some_iff.mp h
    have hys : ys = b :: bs := (Option.some.inj h).symm
    obtain ⟨hl, hr⟩ := ih hbs
    subst hys
    constructor
    · intro x hx
      cases List.mem_cons.mp hx with
      | inl he => exact ⟨b, by simp, he ▸ hb⟩
      | inr hx =>
        obtain ⟨y, hy, hfy⟩ := hl x hx
        exact ⟨y, by simp [hy], hfy⟩
    · intro y hy
      cases List.mem_cons.mp hy with
      | inl he => exact ⟨a, by simp, he ▸ hb⟩
      | inr hy =>
        obtain ⟨x, hx, hfx⟩ := hr y hy
        exact ⟨x, by simp [hx], hfx⟩

lemma exists_mapM {α β : Type*} {f : α → Option β} {l : List α} (h : ∀ x ∈ l, ∃ y, f x = some y) :
    ∃ ys, l.mapM f = some ys := by
  induction l with
  | nil => exact ⟨[], by simp⟩
  | cons x l ih =>
    obtain ⟨y, hy⟩ := h x List.mem_cons_self
    obtain ⟨ys, hys⟩ := ih fun x' hx' => h x' (List.mem_cons_of_mem _ hx')
    refine ⟨y :: ys, ?_⟩
    rw [List.mapM_cons, hy, hys]
    rfl

lemma flatten_eq_nil_iff {α β : Type*} {f : α → Option (List β)} {l : List α} {ys : List (List β)}
    (h : l.mapM f = some ys) : ys.flatten = [] ↔ ∀ x ∈ l, f x = some [] := by
  rw [List.flatten_eq_nil_iff]
  constructor
  · intro hys x hx
    obtain ⟨y, hy, hfx⟩ := (mapM_eq_some h).1 x hx
    rw [hfx, hys y hy]
  · intro hnil y hy
    obtain ⟨x, hx, hfx⟩ := (mapM_eq_some h).2 y hy
    exact (Option.some.inj ((hnil x hx).symm.trans hfx)).symm

lemma mapM_of_nil {α β : Type*} {f : α → Option (List β)} {l : List α}
    (h : ∀ x ∈ l, f x = some []) : ∃ ys, l.mapM f = some ys ∧ ys.flatten = [] := by
  obtain ⟨ys, hys⟩ := exists_mapM fun x hx => ⟨[], h x hx⟩
  exact ⟨ys, hys, (flatten_eq_nil_iff hys).mpr h⟩

section Dict

variable {κ α : Type*} [DecidableEq κ]

/-- `dict.get(key)`, with `none` for an absent key. -/
def get? (key : κ) : List (κ × α) → Option α
  | [] => none
  | (k, v) :: d => if k = key then some v else get? key d

@[simp] lemma get?_nil (key : κ) : get? key ([] : List (κ × α)) = none := rfl

lemma get?_cons (key k : κ) (v : α) (d : List (κ × α)) :
    get? key ((k, v) :: d) = if k = key then some v else get? key d := by
  rw [get?]

lemma getD_get?_cons (key k : κ) (v x : α) (d : List (κ × α)) :
    (get? key ((k, v) :: d)).getD x = if k = key then v else (get? key d).getD x := by
  rw [get?_cons]
  split_ifs
  · rw [Option.getD_some]
  · rfl

/-- `dict[key] = value`: an existing key keeps its place. -/
def set (key : κ) (value : α) : List (κ × α) → List (κ × α)
  | [] => [(key, value)]
  | (k, v) :: d => if k = key then (key, value) :: d else (k, v) :: set key value d

/-- `dict.update`, also the dictionary a sequence of pairs makes. -/
def update (d e : List (κ × α)) : List (κ × α) := e.foldl (fun d p => set p.1 p.2 d) d

@[simp] lemma get?_set (key key' : κ) (value : α) (d : List (κ × α)) :
    get? key' (set key value d) = if key' = key then some value else get? key' d := by
  induction d with
  | nil => simp [set, get?, eq_comm]
  | cons p d ih =>
    obtain ⟨k, v⟩ := p
    by_cases hk : k = key
    · subst hk
      simp only [set, if_true, get?, eq_comm (a := k)]
      split_ifs <;> rfl
    · simp only [set, if_neg hk, get?, ih]
      split_ifs with hk' hkey
      · exact absurd (hk'.trans hkey) hk
      · rfl
      · rfl
      · rfl

lemma mem_of_get?_eq_some {key : κ} {value : α} {d : List (κ × α)} (h : get? key d = some value) :
    (key, value) ∈ d := by
  induction d with
  | nil => simp [get?] at h
  | cons p d ih =>
    simp only [get?] at h
    split_ifs at h with hp
    · simp_all [Prod.ext_iff]
    · exact List.mem_cons_of_mem _ (ih h)

/-- The keys of a dictionary differ. -/
lemma get?_of_mem {key : κ} {value : α} {d : List (κ × α)} (hd : (d.map Prod.fst).Nodup)
    (h : (key, value) ∈ d) : get? key d = some value := by
  induction d with
  | nil => cases h
  | cons q d ih =>
    rw [List.map_cons, List.nodup_cons] at hd
    rw [get?_cons]
    cases List.mem_cons.mp h with
    | inl heq => rw [← heq, if_pos rfl]
    | inr hrest =>
      have hne : q.1 ≠ key := by
        intro heq
        apply hd.1
        rw [heq]
        exact List.mem_map_of_mem hrest
      rw [if_neg hne, ih hd.2 hrest]

lemma mem_set {key : κ} {value : α} {d : List (κ × α)} {p : κ × α} (h : p ∈ set key value d) :
    p = (key, value) ∨ p ∈ d := by
  induction d with
  | nil => exact .inl (List.mem_singleton.mp h)
  | cons q d ih =>
    unfold set at h
    split_ifs at h with hq
    · cases List.mem_cons.mp h with
      | inl hp => exact .inl hp
      | inr hd => exact .inr (List.mem_cons_of_mem _ hd)
    · cases List.mem_cons.mp h with
      | inl hp => exact .inr (by simp [hp])
      | inr hd =>
        cases ih hd with
        | inl hp => exact .inl hp
        | inr hd => exact .inr (List.mem_cons_of_mem _ hd)

/-- What a dictionary holds after `update` it held before or the update brings. -/
lemma mem_update {d e : List (κ × α)} {p : κ × α} (h : p ∈ update d e) : p ∈ d ∨ p ∈ e := by
  induction e generalizing d with
  | nil => exact .inl h
  | cons q e ih =>
    cases ih h with
    | inr he => exact .inr (List.mem_cons_of_mem _ he)
    | inl hd =>
      cases mem_set hd with
      | inl hp => exact .inr (by simp [hp])
      | inr hd => exact .inl hd

lemma get?_isSome_iff {key : κ} {d : List (κ × α)} :
    (get? key d).isSome ↔ key ∈ d.map Prod.fst := by
  induction d with
  | nil => simp [get?]
  | cons p d ih =>
    simp only [get?]
    split_ifs with hp
    · simp [hp]
    · simp [ih, Ne.symm hp]

lemma keys_set {key name : κ} {value : α} {d : List (κ × α)} :
    name ∈ (set key value d).map Prod.fst ↔ name = key ∨ name ∈ d.map Prod.fst := by
  rw [← get?_isSome_iff, ← get?_isSome_iff, get?_set]
  by_cases hname : name = key
  · rw [if_pos hname]
    exact iff_of_true rfl (.inl hname)
  · rw [if_neg hname, or_iff_right hname]

lemma keys_update {name : κ} {d e : List (κ × α)} :
    name ∈ (update d e).map Prod.fst ↔ name ∈ d.map Prod.fst ∨ name ∈ e.map Prod.fst := by
  induction e generalizing d with
  | nil => rw [update, List.foldl_nil, List.map_nil, or_iff_left List.not_mem_nil]
  | cons p e ih =>
    have hrest := ih (d := set p.1 p.2 d)
    rw [update] at hrest
    rw [update, List.foldl_cons, hrest, keys_set, List.map_cons, List.mem_cons]
    tauto

end Dict

/-- A filter whose test may raise. -/
lemma filterM_eq_some {α : Type} {f : α → Option Bool} {l ys : List α}
    (h : l.filterM f = some ys) :
    ys = l.filter (fun x => f x = some true) ∧ ∀ x ∈ l, f x ≠ none := by
  have haux (l acc ys : List α) (h : l.filterAuxM f acc = some ys) :
      ys = (l.filter fun x => f x = some true).reverse ++ acc ∧ ∀ x ∈ l, f x ≠ none := by
    induction l generalizing acc with
    | nil => exact ⟨(Option.some.inj h).symm, fun _ hx => absurd hx List.not_mem_nil⟩
    | cons a l ih =>
      rw [List.filterAuxM] at h
      obtain ⟨b, hb, h⟩ := Option.bind_eq_some_iff.mp h
      obtain ⟨hys, hall⟩ := ih _ h
      refine ⟨?_, List.forall_mem_cons.mpr ⟨by simp [hb], hall⟩⟩
      cases b <;> simp [hys, hb]
  rw [List.filterM] at h
  obtain ⟨zs, hzs, h⟩ := Option.bind_eq_some_iff.mp h
  obtain ⟨hzs, hall⟩ := haux l [] zs hzs
  refine ⟨?_, hall⟩
  rw [← Option.some.inj h, hzs, List.append_nil, List.reverse_reverse]

end Python
