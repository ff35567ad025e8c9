import MyLinuxEnv.Text.Basic

namespace Text

-- Backtracking regular expressions over an alphabet `α`. Only single elements are ever repeated.
inductive Regex (α : Type)
  | cls   (p : α → Bool)
  | star  (p : α → Bool)
  | eol   (newline : α → Bool)
  | group (r : Regex α)
  | seq   (r₁ r₂ : Regex α)
  | alt   (r₁ r₂ : Regex α)

structure Match (α : Type) where
  text   : List α
  groups : List (List α)
  rest   : List α
  deriving DecidableEq, Repr

namespace Regex

variable {α : Type}

-- A fixed, nonempty text.
def word [DecidableEq α] (c : α) : List α → Regex α
  | []     => cls (· = c)
  | d :: s => (cls (· = c)).seq (word d s)

def starResults (p : α → Bool) : List α → List (Match α)
  | []     => [⟨[], [], []⟩]
  | c :: s =>
    if p c
    then (starResults p s).map (fun m => { m with text := c :: m.text }) ++ [⟨[], [], c :: s⟩]
    else [⟨[], [], c :: s⟩]

-- All ways in which an expression matches at the beginning of a text, in the order in which a
-- backtracking matcher tries them: the first alternative and the longest repetition come first.
def results : Regex α → List α → List (Match α)
  | cls _, []          => []
  | cls p, c :: s      => if p c then [⟨[c], [], s⟩] else []
  | star p, s          => starResults p s
  | eol _, []          => [⟨[], [], []⟩]
  | eol newline, [c]   => if newline c then [⟨[], [], [c]⟩] else []
  | eol _, _ :: _ :: _ => []
  | group r, s         => (r.results s).map fun m => { m with groups := m.text :: m.groups }
  | seq r₁ r₂, s       => (r₁.results s).flatMap fun m =>
    (r₂.results m.rest).map fun m' => ⟨m.text ++ m'.text, m.groups ++ m'.groups, m'.rest⟩
  | alt r₁ r₂, s       => r₁.results s ++ r₂.results s

def match? (r : Regex α) (s : List α) : Option (Match α) :=
  (r.results s).head?

-- Cuts a text at the matches of `r`, from left to right. The first argument counts the elements
-- that still belong to a match.
def splitFrom (r : Regex α) : Nat → List α → List (List α)
  | _, []         => [[]]
  | k + 1, _ :: s => splitFrom r k s
  | 0, c :: s     =>
    match (r.match? (c :: s)).map (·.text.length) with
    | some (k + 1) => [] :: splitFrom r k s
    | _            => (splitFrom r 0 s).modifyHead (c :: ·)

def split (r : Regex α) (s : List α) : List (List α) :=
  r.splitFrom 0 s

-- Replaces the matches of `r` by `new`, from left to right.
def subFrom (r : Regex α) (new : List α) : Nat → List α → List α
  | _, []         => []
  | k + 1, _ :: s => subFrom r new k s
  | 0, c :: s     =>
    match (r.match? (c :: s)).map (·.text.length) with
    | some (k + 1) => new ++ subFrom r new k s
    | _            => c :: subFrom r new 0 s

def sub (r : Regex α) (new : List α) (s : List α) : List α :=
  r.subFrom new 0 s

-- The leftmost match, together with the text in front of it.
def search (r : Regex α) : List α → Option (List α × Match α)
  | []     => (r.match? []).map ([], ·)
  | c :: s =>
    match r.match? (c :: s) with
    | some m => some ([], m)
    | none   => (search r s).map fun (a, m) => (c :: a, m)

-- An expression which matches exactly the single elements that satisfy `p`.
structure IsClass (r : Regex α) (p : α → Bool) : Prop where
  nil  : r.results [] = []
  cons : ∀ c s, p c = (r.match? (c :: s)).isSome
  one  : ∀ c s m, m ∈ r.results (c :: s) → m = ⟨[c], [], s⟩

theorem IsClass.cls (p : α → Bool) : IsClass (cls p) p where
  nil        := rfl
  cons c s   := by cases h : p c <;> simp [match?, results, h]
  one c s m  := by simp only [results]; split <;> simp

theorem IsClass.alt {r₁ r₂ : Regex α} {p₁ p₂ : α → Bool} (h₁ : IsClass r₁ p₁) (h₂ : IsClass r₂ p₂) :
    IsClass (r₁.alt r₂) (fun c => p₁ c || p₂ c) where
  nil       := by simp [results, h₁.nil, h₂.nil]
  cons c s  := by
    have h := h₁.cons c s
    have h' := h₂.cons c s
    simp only [match?, results, List.head?_append, Option.isSome_or] at h h' ⊢
    rw [h, h']
  one c s m := by
    simp only [results, List.mem_append]
    exact (Or.elim · (h₁.one c s m) (h₂.one c s m))

theorem IsClass.match?_cons {r : Regex α} {p : α → Bool} (h : IsClass r p) (c : α) (s : List α) :
    r.match? (c :: s) = if p c then some ⟨[c], [], s⟩ else none := by
  have hc := h.cons c s
  cases hm : r.match? (c :: s)
  case none => simp [hc, hm]
  case some m =>
    rw [← h.one c s m <| List.mem_of_mem_head? hm]
    simp [hc, hm]

theorem IsClass.split_eq {r : Regex α} {p : α → Bool} (h : IsClass r p) (s : List α) :
    r.split s = s.splitOnP p := by
  induction s
  case nil => rfl
  case cons c s hi =>
    rw [split] at hi
    rw [split, splitFrom, h.match?_cons]
    cases hp : p c <;> simp [List.splitOnP_cons_eq_if_modifyHead, hp, hi]

-- The piece in front of the first delimiter.
theorem IsClass.split_append_cons {r : Regex α} {p : α → Bool} (h : IsClass r p) {d : α}
    (hd : p d) {a : List α} (ha : ∀ c ∈ a, p c = false) (b : List α) :
    r.split (a ++ d :: b) = a :: r.split b := by
  rw [h.split_eq, h.split_eq, List.splitOnP_append_cons_of_forall_mem ha d hd]

theorem match?_cls (p : α → Bool) (c : α) (s : List α) :
    (cls p).match? (c :: s) = if p c then some ⟨[c], [], s⟩ else none := by
  cases hp : p c <;> simp [match?, results, hp]

-- A search succeeds if the expression matches somewhere.
theorem isSome_search_iff {r : Regex α} {s : List α} :
    (r.search s).isSome ↔ ∃ t, t <:+ s ∧ (r.match? t).isSome := by
  induction s
  case nil => simp [search]
  case cons c s hi =>
    simp only [search, List.suffix_cons_iff, or_and_right, exists_or, exists_eq_left, ← hi]
    cases r.match? (c :: s) <;> simp

theorem match?_alt (r₁ r₂ : Regex α) (s : List α) :
    (r₁.alt r₂).match? s = (r₁.match? s).or (r₂.match? s) := by
  simp [match?, results, List.head?_append]

theorem match?_word_pair [DecidableEq α] (c d a b : α) (s : List α) :
    (word c [d]).match? (a :: b :: s) = if a = c ∧ b = d then some ⟨[c, d], [], s⟩ else none := by
  by_cases ha : a = c <;> by_cases hb : b = d <;> simp [match?, results, word, ha, hb]

theorem match?_word_pair_singleton [DecidableEq α] (c d a : α) :
    (word c [d]).match? [a] = none := by
  by_cases ha : a = c <;> simp [match?, results, word, ha]

theorem subFrom_eq_drop {r : Regex α} {new s : List α} {k : Nat} :
    r.subFrom new k s = r.sub new (s.drop k) := by
  induction s generalizing k
  case nil => simp [sub, subFrom]
  case cons hi =>
    cases k
    case zero => rfl
    case succ => simp [subFrom, hi]

theorem sub_cons_of_match?_none {r : Regex α} {new s : List α} {c : α}
    (h : r.match? (c :: s) = none) : r.sub new (c :: s) = c :: r.sub new s := by
  simp [sub, subFrom, h]

theorem sub_cons_of_match?_some {r : Regex α} {new s : List α} {c : α} {m : Match α} {k : Nat}
    (h : r.match? (c :: s) = some m) (hk : m.text.length = k + 1) :
    r.sub new (c :: s) = new ++ r.sub new (s.drop k) := by
  rw [sub, subFrom, h, Option.map_some, hk]
  exact congrArg _ subFrom_eq_drop

theorem match?_cls_seq_of_not {r : Regex α} {p : α → Bool} {c : α} {s : List α}
    (h : p c = false) : ((cls p).seq r).match? (c :: s) = none := by
  simp [match?, results, h]

theorem match?_cls_seq {r : Regex α} {p : α → Bool} {c : α} {s : List α} (h : p c) :
    ((cls p).seq r).match? (c :: s) =
      (r.match? s).map fun m => ⟨c :: m.text, m.groups, m.rest⟩ := by
  simp [match?, results, h]

theorem isSome_match?_cls_seq {r : Regex α} {p : α → Bool} {c : α} {s : List α} :
    (((cls p).seq r).match? (c :: s)).isSome ↔ p c ∧ (r.match? s).isSome := by
  cases hp : p c
  case false => simp [match?_cls_seq_of_not hp]
  case true  => simp [match?_cls_seq hp]

-- No backtracking is necessary when what follows a repetition is not in the repeated class.
theorem match?_star_seq_cls {p q : α → Bool} (h : ∀ c, p c → q c = false) (s : List α) :
    ((star p).seq (cls q)).match? s =
      match s.dropWhile p with
      | []     => none
      | c :: t => if q c then some ⟨s.takeWhile p ++ [c], [], t⟩ else none := by
  induction s
  case nil => simp [match?, results, starResults]
  case cons c s hi =>
    cases hp : p c
    case false => cases hq : q c <;> simp [match?, results, starResults, hp, hq]
    case true =>
      have hq := h c hp
      simp only [match?, results] at hi
      simp only [match?, results, starResults, hp, if_true, List.flatMap_append, List.flatMap_map,
        List.flatMap_singleton, hq, Bool.false_eq_true, if_false, List.map_nil, List.append_nil,
        List.takeWhile_cons, List.dropWhile_cons]
      have hm := congrArg (Option.map fun m : Match α => { m with text := c :: m.text }) hi
      rw [← List.head?_map, List.map_flatMap] at hm
      simp only [List.map_map] at hm
      refine Eq.trans (by simp [Function.comp_def]) (hm.trans ?_)
      cases s.dropWhile p
      case nil       => rfl
      case cons d t  => cases hd : q d <;> simp

section StarSeq

variable {r : Regex α} {p : α → Bool} {s t q : List α}

theorem starResults_rest_suffix {m : Match α} (h : m ∈ starResults p s) : m.rest <:+ s := by
  induction s generalizing m
  case nil => simp [List.mem_singleton.mp h]
  case cons c s hi =>
    simp only [starResults] at h
    split at h
    case isFalse => simp [List.mem_singleton.mp h]
    case isTrue =>
      cases List.mem_append.mp h
      case inr h => simp [List.mem_singleton.mp h]
      case inl h =>
        have ⟨m', hm, he⟩ := List.mem_map.mp h
        exact he ▸ (hi hm).trans (List.suffix_cons ..)

-- A repetition is of no use if what follows it matches nowhere.
theorem results_star_seq_eq_nil (h : ∀ t, t <:+ s → r.results t = []) :
    ((group (star p)).seq r).results s = [] := by
  simp only [results, List.flatMap_map, List.flatMap_eq_nil_iff, List.map_eq_nil_iff]
  exact fun m hm => h _ <| starResults_rest_suffix hm

theorem results_star_seq_cons {c : α} (hc : p c) :
    ((group (star p)).seq r).results (c :: s) =
      (((group (star p)).seq r).results s).map
          (fun m => ⟨c :: m.text, m.groups.modifyHead (c :: ·), m.rest⟩) ++
        (r.results (c :: s)).map fun m => { m with groups := [] :: m.groups } := by
  simp [results, starResults, hc, List.flatMap_map, List.map_flatMap, Function.comp_def]

-- A repetition stops where the rest of the expression matches for the last time.
theorem match?_star_seq {m : Match α} (hs : ∀ c ∈ q ++ t, p c) (hm : r.match? t = some m)
    (h : ∀ u, u <:+ t → u ≠ t → r.results u = []) :
    ((group (star p)).seq r).match? (q ++ t) =
      some { text := q ++ m.text, groups := q :: m.groups, rest := m.rest } := by
  rw [match?] at hm ⊢
  induction q
  case nil =>
    cases t
    case nil => simp [results, starResults, hm]
    case cons c t =>
      have hn : ((group (star p)).seq r).results t = [] := results_star_seq_eq_nil fun u hu => by
        refine h u (hu.trans <| List.suffix_cons ..) fun he => ?_
        have hl := hu.length_le
        rw [he] at hl
        exact Nat.not_succ_le_self _ hl
      simp [results_star_seq_cons (hs c <| by simp), hn, hm]
  case cons c q hi =>
    have ⟨hc, hs⟩ := List.forall_mem_cons.mp hs
    simp [results_star_seq_cons hc, hi hs]

end StarSeq

end Regex
end Text
