import Mathlib.Data.List.DropRight

namespace Text

abbrev Str := List Char

-- The exceptions of the scripting language.
inductive Exn
  | indexError
  | keyError
  | typeError
  | valueError
  deriving DecidableEq, Repr

-- A property of the characters of a text is decided by going through the text, not through the
-- whole character set.
instance (priority := high) {p : Char → Prop} [DecidablePred p] (s : Str) :
    Decidable (∀ c ∈ s, p c) :=
  List.decidableBAll p s

variable {α : Type} [DecidableEq α]

-- The offset of the first occurrence of `sub`, the `find` of scripting languages.
def find? (sub : List α) : List α → Option Nat
  | []     => if sub = [] then some 0 else none
  | c :: s => if sub <+: c :: s then some 0 else (find? sub s).map (· + 1)

-- The offset of the last occurrence of `sub`.
def rfind? (sub : List α) : List α → Option Nat
  | []     => if sub = [] then some 0 else none
  | c :: s =>
    match rfind? sub s with
    | some k => some (k + 1)
    | none   => if sub <+: c :: s then some 0 else none

-- Replaces the occurrences of a nonempty `old` from left to right. The first argument counts the
-- elements that still belong to an occurrence that has already been replaced.
def replaceFrom (old new : List α) : Nat → List α → List α
  | _, []         => []
  | k + 1, _ :: s => replaceFrom old new k s
  | 0, c :: s     =>
    if old <+: c :: s
    then new ++ replaceFrom old new (old.length - 1) s
    else c :: replaceFrom old new 0 s

-- An empty `old` occurs once in front of every element and once at the end.
def replace (old new : List α) (s : List α) : List α :=
  if old = [] then new ++ s.flatMap (· :: new) else replaceFrom old new 0 s

-- The lines of a text, each with its own line feed. Only the last one may lack it.
def lines : Str → List Str
  | []     => []
  | c :: s =>
    if c = '\n' then [c] :: lines s else
      match lines s with
      | []      => [[c]]
      | l :: ls => (c :: l) :: ls

def rstrip (chars : Str) (s : Str) : Str :=
  s.rdropWhile (· ∈ chars)

def upper (s : Str) : Str :=
  s.map Char.toUpper

def lower (s : Str) : Str :=
  s.map Char.toLower

-- The value of an unsigned decimal.
def int (s : Str) : Except Exn Nat :=
  if s ≠ [] ∧ s.all Char.isDigit then .ok (Nat.ofDigitChars 10 s 0) else .error .valueError

section Exn

variable {β γ : Type}

-- A computation in two steps succeeds if both steps do.
theorem bind_eq_ok_iff {ε : Type} {x : Except ε β} {f : β → Except ε γ} {r : γ} :
    x >>= f = .ok r ↔ ∃ a, x = .ok a ∧ f a = .ok r := by
  cases x
  case error => exact iff_of_false nofun nofun
  case ok a  => exact ⟨fun h => ⟨a, rfl, h⟩, fun ⟨_, ha, h⟩ => by cases ha; exact h⟩

-- All that a loop over a list collects comes from one of the elements.
theorem exists_of_mem_mapM {ε : Type} {f : β → Except ε γ} {l : List β} {r : List γ}
    (h : l.mapM f = .ok r) {y : γ} (hy : y ∈ r) : ∃ x ∈ l, f x = .ok y := by
  induction l generalizing r
  case nil =>
    cases h
    contradiction
  case cons x l hi =>
    rw [List.mapM_cons] at h
    obtain ⟨z, hz, h⟩ := bind_eq_ok_iff.mp h
    obtain ⟨r, hr, h⟩ := bind_eq_ok_iff.mp h
    cases h
    cases List.mem_cons.mp hy
    case inl he => exact ⟨x, List.mem_cons_self, he ▸ hz⟩
    case inr hm =>
      have ⟨x', hx, hf⟩ := hi hr hm
      exact ⟨x', List.mem_cons_of_mem _ hx, hf⟩

-- Whether a loop succeeds only depends on its steps, if these do so from all states or from none.
theorem foldlM_ok_iff {f : β → γ → Except Exn β} {p : γ → Prop}
    (hf : ∀ a x, (∃ b, f a x = .ok b) ↔ p x) (a : β) (l : List γ) :
    (∃ b, l.foldlM f a = .ok b) ↔ ∀ x ∈ l, p x := by
  induction l generalizing a
  case nil => exact iff_of_true ⟨a, rfl⟩ (by simp)
  case cons x l hi =>
    simp only [List.foldlM_cons, bind_eq_ok_iff, List.forall_mem_cons, ← hf a x]
    constructor
    case mp =>
      intro ⟨b, c, hc, hb⟩
      exact ⟨⟨c, hc⟩, (hi c).mp ⟨b, hb⟩⟩
    case mpr =>
      intro ⟨⟨c, hc⟩, hl⟩
      have ⟨b, hb⟩ := (hi c).mpr hl
      exact ⟨b, c, hc, hb⟩

end Exn

theorem find?_congr {β : Type} {p q : β → Bool} {l : List β} (h : ∀ x ∈ l, p x = q x) :
    l.find? p = l.find? q := by
  induction l
  case nil => rfl
  case cons x l hi =>
    have ⟨hx, hl⟩ := List.forall_mem_cons.mp h
    rw [List.find?_cons, List.find?_cons, hx, hi hl]

section Find

variable {sub s : List α} {c : α} {k : Nat}

theorem find?_eq_zero_of_prefix (h : sub <+: s) : find? sub s = some 0 := by
  cases s
  case nil  => simp [find?, List.prefix_nil.mp h]
  case cons => simp [find?, h]

theorem find?_some_prefix (h : find? sub s = some k) : sub <+: s.drop k := by
  induction s generalizing k
  case nil =>
    simp only [find?] at h
    split at h
    case isTrue hs => simp [hs]
    case isFalse   => contradiction
  case cons hi =>
    simp only [find?] at h
    split at h
    case isTrue hp =>
      cases h
      exact hp
    case isFalse =>
      have ⟨j, hj, hk⟩ := Option.map_eq_some_iff.mp h
      subst hk
      exact hi hj

-- A text is found in another one exactly if it is a part of it.
theorem isSome_find?_iff : (find? sub s).isSome ↔ sub <:+: s := by
  constructor
  case mp =>
    intro h
    have ⟨k, hk⟩ := Option.isSome_iff_exists.mp h
    have hp := find?_some_prefix hk
    exact hp.isInfix.trans (List.drop_suffix k s).isInfix
  case mpr =>
    induction s
    case nil =>
      intro h
      simp [find?, List.infix_nil.mp h]
    case cons c s hi =>
      intro h
      rw [find?]
      split
      case isTrue => rfl
      case isFalse hp =>
        rw [Option.isSome_map]
        exact hi <| (List.infix_cons_iff.mp h).resolve_left hp

theorem find?_singleton_append (a b : List α) (h : c ∉ a) :
    find? [c] (a ++ c :: b) = some a.length := by
  induction a
  case nil => simp [find?]
  case cons d a hi =>
    have ⟨hd, ha⟩ : c ≠ d ∧ c ∉ a := by simpa using h
    simp [find?, hi ha, List.cons_prefix_cons, hd]

theorem rfind?_singleton_of_not_mem (h : c ∉ s) : rfind? [c] s = none := by
  induction s
  case nil => simp [rfind?]
  case cons d s hi =>
    have ⟨hd, hs⟩ : c ≠ d ∧ c ∉ s := by simpa using h
    simp [rfind?, hi hs, List.cons_prefix_cons, hd]

theorem rfind?_singleton_append (a b : List α) (h : c ∉ b) :
    rfind? [c] (a ++ c :: b) = some a.length := by
  induction a
  case nil       => simp [rfind?, rfind?_singleton_of_not_mem h]
  case cons a hi => simp [rfind?, hi]

end Find

section Replace

variable {old new s : List α} {sep : α} {k : Nat}

theorem replaceFrom_eq_drop : replaceFrom old new k s = replaceFrom old new 0 (s.drop k) := by
  induction s generalizing k
  case nil        => simp [replaceFrom]
  case cons hd tl hi =>
    cases k
    case zero => rfl
    case succ => simp [replaceFrom, hi]

theorem replace_of_find?_none (ho : old ≠ []) (h : find? old s = none) : replace old new s = s := by
  simp only [replace, ho, if_false]
  induction s
  case nil => rfl
  case cons hi =>
    simp only [find?] at h
    split at h
    case isTrue => contradiction
    case isFalse hp =>
      simp only [replaceFrom, hp, if_false]
      exact congrArg _ (hi <| Option.map_eq_none_iff.mp h)

theorem replace_of_find?_some (ho : old ≠ []) (h : find? old s = some k) :
    replace old new s = s.take k ++ new ++ replace old new (s.drop (k + old.length)) := by
  simp only [replace, ho, if_false]
  induction s generalizing k
  case nil => simp [find?, ho] at h
  case cons hi =>
    simp only [find?] at h
    split at h
    case isTrue hp =>
      cases h
      have ⟨n, hn⟩ := Nat.exists_eq_succ_of_ne_zero (mt List.length_eq_zero_iff.mp ho)
      simp [replaceFrom, hp, hn, replaceFrom_eq_drop (k := n)]
    case isFalse hp =>
      have ⟨j, hj, hk⟩ := Option.map_eq_some_iff.mp h
      subst hk
      simp [replaceFrom, hp, hi hj, Nat.add_right_comm]

omit [DecidableEq α] in
theorem prefix_append_sep_iff (h : sep ∉ old) (a b : List α) :
    old <+: a ++ sep :: b ↔ old <+: a := by
  refine ⟨fun hp => ?_, (·.trans <| List.prefix_append ..)⟩
  by_cases hl : old.length ≤ a.length
  case pos => exact List.prefix_of_prefix_length_le hp (List.prefix_append ..) hl
  case neg =>
    have ha : a ++ [sep] <+: old :=
      List.prefix_of_prefix_length_le (by simp) hp (by simp; omega)
    exact absurd (ha.subset <| by simp) h

-- An occurrence of `old` never crosses a separator that `old` does not contain.
theorem replace_append_sep (ho : old ≠ []) (h : sep ∉ old) (a b : List α) :
    replace old new (a ++ sep :: b) = replace old new a ++ sep :: replace old new b := by
  simp only [replace, ho, if_false]
  suffices hk : ∀ k ≤ a.length, replaceFrom old new k (a ++ sep :: b) =
      replaceFrom old new k a ++ sep :: replaceFrom old new 0 b from hk 0 (Nat.zero_le _)
  induction a
  case nil =>
    intro k hk
    have hn : ¬ old <+: sep :: b := by
      have := prefix_append_sep_iff h [] b
      simpa [ho] using this
    simp [Nat.le_zero.mp hk, replaceFrom, hn]
  case cons c a hi =>
    intro k hk
    cases k
    case succ k => simpa [replaceFrom] using hi k (Nat.le_of_succ_le_succ hk)
    case zero =>
      have hp := prefix_append_sep_iff h (c :: a) b
      rw [List.cons_append] at hp
      simp only [List.cons_append, replaceFrom, hp]
      split
      case isTrue hc => simp [hi (old.length - 1) (by have := hc.length_le; simp at this; omega)]
      case isFalse   => simp [hi 0 (Nat.zero_le _)]

theorem replace_singleton_nil (c : α) : replace [c] [] s = s.filter (· ≠ c) := by
  simp only [replace, List.cons_ne_nil, if_false]
  induction s
  case nil => rfl
  case cons d s hi =>
    by_cases hd : c = d
    case pos => simpa [replaceFrom, List.cons_prefix_cons, hd] using hi
    case neg => simpa [replaceFrom, List.cons_prefix_cons, hd, Ne.symm hd] using hi

theorem filter_ne_eq_self {c : α} (h : c ∉ s) : s.filter (· ≠ c) = s :=
  List.filter_eq_self.mpr fun d hd => by simpa using fun he : d = c => h (he ▸ hd)

end Replace

section Infix

omit [DecidableEq α]

variable {sub a b : List α} {c : α}

theorem infix_of_infix_append (h : c ∉ a) (hi : c :: sub <:+: a ++ b) : c :: sub <:+: b := by
  induction a
  case nil => exact hi
  case cons d a ha =>
    have ⟨hd, h⟩ : c ≠ d ∧ c ∉ a := by simpa using h
    refine ha h <| (List.infix_cons_iff.mp hi).resolve_left fun hp => ?_
    exact hd (List.cons_prefix_cons.mp hp).left

-- A part of a text which does not contain a separator lies on one side of it.
theorem infix_append_sep (h : c ∉ sub) (hi : sub <:+: a ++ c :: b) : sub <:+: a ∨ sub <:+: b := by
  induction a
  case nil =>
    cases List.infix_cons_iff.mp hi
    case inr hb => exact .inr hb
    case inl hp => exact .inl ((prefix_append_sep_iff h [] b).mp hp).isInfix
  case cons d a ha =>
    cases List.infix_cons_iff.mp hi
    case inl hp => exact .inl ((prefix_append_sep_iff h (d :: a) b).mp hp).isInfix
    case inr hs => exact (ha hs).imp_left fun hs => List.infix_cons_iff.mpr (.inr hs)

end Infix

section Segments

variable {sep : α} {s : List α} {segs : List (List α)}

-- The text whose first segment is followed by further ones, each behind a separator.
def unsplit (sep : α) (s : List α) (segs : List (List α)) : List α :=
  s ++ segs.flatMap (sep :: ·)

omit [DecidableEq α] in
theorem unsplit_nil (sep : α) (s : List α) : unsplit sep s [] = s := by
  simp [unsplit]

omit [DecidableEq α] in
theorem unsplit_cons (sep : α) (s t : List α) (segs : List (List α)) :
    unsplit sep s (t :: segs) = s ++ sep :: unsplit sep t segs := by
  simp [unsplit]

omit [DecidableEq α] in
theorem unsplit_append (sep : α) (s t : List α) (segs : List (List α)) :
    unsplit sep (s ++ t) segs = s ++ unsplit sep t segs := by
  simp [unsplit]

theorem splitOn_unsplit (hs : sep ∉ s) (hsegs : ∀ t ∈ segs, sep ∉ t) :
    (unsplit sep s segs).splitOn sep = s :: segs := by
  induction segs generalizing s
  case nil => simp [unsplit_nil, List.splitOn_eq_singleton hs]
  case cons t segs hi =>
    have ⟨ht, hsegs⟩ := List.forall_mem_cons.mp hsegs
    rw [unsplit_cons, List.splitOn_append_cons_self_of_not_mem hs, hi ht hsegs]

theorem exists_unsplit (sep : α) (t : List α) :
    ∃ s segs, t = unsplit sep s segs ∧ sep ∉ s ∧ ∀ seg ∈ segs, sep ∉ seg := by
  induction t
  case nil => exact ⟨[], [], rfl, by simp, by simp⟩
  case cons c t hi =>
    have ⟨s, segs, ht, hs, hsegs⟩ := hi
    subst ht
    by_cases hc : c = sep
    case pos => exact ⟨[], s :: segs, by simp [unsplit, hc], by simp, by simp_all⟩
    case neg => exact ⟨c :: s, segs, by simp [unsplit], by simp [Ne.symm hc, hs], hsegs⟩

-- Parts of a text, the first of which is its beginning.
structure Cuts (segs : List (List α)) (s : List α) : Prop where
  head  : ∀ t ∈ segs.head?, t <+: s
  parts : ∀ t ∈ segs, t <:+: s

omit [DecidableEq α] in
theorem Cuts.cons_nil (h : Cuts segs s) (c : α) : Cuts ([] :: segs) (c :: s) where
  head _ ht := Option.some.inj ht ▸ List.nil_prefix
  parts     := List.forall_mem_cons.mpr
    ⟨List.nil_infix, fun t ht => (h.parts t ht).trans (List.suffix_cons c s).isInfix⟩

omit [DecidableEq α] in
theorem Cuts.modifyHead (h : Cuts segs s) (c : α) :
    Cuts (segs.modifyHead (c :: ·)) (c :: s) := by
  cases segs
  case nil => exact ⟨by simp, by simp⟩
  case cons t segs =>
    have hp : c :: t <+: c :: s := List.cons_prefix_cons.mpr ⟨rfl, h.head t rfl⟩
    refine ⟨fun _ ht => Option.some.inj ht ▸ hp, List.forall_mem_cons.mpr ⟨hp.isInfix, ?_⟩⟩
    intro t' ht
    exact (h.parts t' <| List.mem_cons_of_mem t ht).trans (List.suffix_cons c s).isInfix

omit [DecidableEq α] in
theorem cuts_splitOnP (p : α → Bool) (s : List α) : Cuts (s.splitOnP p) s := by
  induction s
  case nil => exact ⟨by simp [List.splitOnP_nil], by simp [List.splitOnP_nil]⟩
  case cons c s hi =>
    rw [List.splitOnP_cons_eq_if_modifyHead]
    split
    case isTrue  => exact hi.cons_nil c
    case isFalse => exact hi.modifyHead c

omit [DecidableEq α] in
theorem length_splitOnP (p : α → Bool) (s : List α) :
    (s.splitOnP p).length = s.countP p + 1 := by
  induction s
  case nil => rfl
  case cons c s hi =>
    rw [List.splitOnP_cons_eq_if_modifyHead]
    split
    case isTrue h  => simp [hi, h]
    case isFalse h => simp [hi, h]

-- The pieces of a text contain none of the separators.
omit [DecidableEq α] in
theorem eq_false_of_mem_splitOnP {p : α → Bool} {seg : List α} (h : seg ∈ s.splitOnP p) :
    ∀ c ∈ seg, p c = false := by
  induction s generalizing seg
  case nil => simp_all [List.splitOnP_nil]
  case cons d s hi =>
    rw [List.splitOnP_cons_eq_if_modifyHead] at h
    split at h
    case isTrue =>
      cases List.mem_cons.mp h
      case inl h => simp [h]
      case inr h => exact hi h
    case isFalse hd =>
      cases he : s.splitOnP p
      case nil => exact absurd he <| List.splitOnP_ne_nil p s
      case cons t segs =>
        simp only [he, List.modifyHead_cons, List.mem_cons] at h hi
        cases h
        case inl h =>
          subst h
          simpa [hd] using hi (.inl rfl)
        case inr h => exact hi (.inr h)

end Segments

section Lines

variable {s : Str}

theorem lines_append_newline (a b : Str) (h : '\n' ∉ a) :
    lines (a ++ '\n' :: b) = (a ++ ['\n']) :: lines b := by
  induction a
  case nil => simp [lines]
  case cons c a hi =>
    have ⟨hc, ha⟩ : '\n' ≠ c ∧ '\n' ∉ a := by simpa using h
    simp [lines, hi ha, hc.symm]

-- The lines of a text: each of them ends with its only line feed, which the last one may lack.
inductive AreLines : List Str → Prop
  | nil  : AreLines []
  | last : l ≠ [] → '\n' ∉ l → AreLines [l]
  | cons : '\n' ∉ l → AreLines ls → AreLines ((l ++ ['\n']) :: ls)

theorem areLines_lines (s : Str) : AreLines (lines s) := by
  induction s
  case nil => exact .nil
  case cons c s hi =>
    by_cases hc : c = '\n'
    case pos =>
      subst hc
      exact .cons (l := []) (by simp) hi
    case neg =>
      have hn {l : Str} (hl : '\n' ∉ l) : '\n' ∉ c :: l := by simp [Ne.symm hc, hl]
      simp only [lines, hc, if_false]
      generalize lines s = ls at hi ⊢
      cases hi
      case nil         => exact .last (by simp) (hn <| by simp)
      case last hl     => exact .last (by simp) (hn hl)
      case cons hl hls => exact .cons (hn hl) hls

theorem AreLines.filter {ls : List Str} (h : AreLines ls) (p : Str → Bool) :
    AreLines (ls.filter p) := by
  induction h
  case nil => exact .nil
  case last l hn hl =>
    cases hp : p l
    case true  => simpa [hp] using .last hn hl
    case false => simpa [hp] using .nil
  case cons l ls hl _ hi =>
    cases hp : p (l ++ ['\n'])
    case true  => simpa [hp] using .cons hl hi
    case false => simpa [hp] using hi

theorem AreLines.lines_flatten {ls : List Str} (h : AreLines ls) : lines ls.flatten = ls := by
  induction h
  case nil => rfl
  case last l hn hl =>
    rw [List.flatten_singleton]
    induction l
    case nil => contradiction
    case cons c l hi =>
      have ⟨hc, hl⟩ : '\n' ≠ c ∧ '\n' ∉ l := by simpa using hl
      cases l
      case nil    => simp [lines, hc.symm]
      case cons d l => simp [lines.eq_def (c :: _), hc.symm, hi (by simp) hl]
  case cons l ls hl _ hi =>
    simp only [List.flatten_cons, List.append_assoc, List.singleton_append]
    rw [lines_append_newline _ _ hl, hi]

end Lines

end Text
