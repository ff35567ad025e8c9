import MyLinuxEnv.Reo.Basic

open Text Posix

namespace Reo

variable {h : Host} {line tpath rpath t s : Str}

-- The tokens of a dependency line.
def tokens (line : Str) : List Str :=
  line.splitOnP (· ∈ " ()\\\n".toList)

-- Tokens with the extension of a source file.
def isSource (t : Str) : Bool :=
  ["c", "cpp", "h", "hpp", "S"].any fun e => '.' :: e.toList <:+ t

-- The first source file on a line.
def intended (line : Str) : Option Str :=
  (tokens line).find? isSource

-- Cuts a line at blanks, closing parentheses and line feeds, and at a bar with an opening
-- parenthesis behind it.
def pieces : Str → List Str
  | []              => [[]]
  | '|' :: '(' :: s => [] :: pieces s
  | c :: s          =>
    if c ∈ " )\n".toList then [] :: pieces s else (pieces s).modifyHead (c :: ·)

-- Pieces which end with a dot and one of the characters between the brackets of `extention`.
def isListed (t : Str) : Bool :=
  "chpS|".toList.any fun c => ['.', c] <:+ t

def picked (line : Str) : Option Str :=
  (pieces line).find? isListed

-- What a source file is turned into. Without a source file, the path is empty.
def pathOf (h : Host) (tpath rpath : Str) (file : Option Str) : Str :=
  file.elim [] (refinePath h · tpath rpath)

theorem match?_delimiter {c : Char} (hb : ∀ s', c = '|' → s = '(' :: s' → False) :
    delimiter.match? (c :: s) = if c ∈ " )\n".toList then some ⟨[c], [], s⟩ else none := by
  have hw : (Regex.word '|' ['(']).match? (c :: s) = none := by
    cases s
    case nil => exact Regex.match?_word_pair_singleton ..
    case cons d s =>
      rw [Regex.match?_word_pair, if_neg]
      exact fun ⟨hc, hd⟩ => hb s hc (hd ▸ rfl)
  simp only [delimiter, Regex.match?_alt, Regex.match?_cls, hw, decide_eq_true_eq]
  by_cases hs : c = ' '
  case pos => simp [hs]
  case neg =>
    by_cases hp : c = ')'
    case pos => simp [hp]
    case neg => simp [hs, hp]

theorem split_delimiter (s : Str) : delimiter.split s = pieces s := by
  rw [Regex.split]
  fun_induction pieces s
  case case1 => rfl
  case case2 s hi =>
    have hm : delimiter.match? ('|' :: '(' :: s) = some ⟨['|', '('], [], s⟩ := by
      simp [delimiter, Regex.match?_alt, Regex.match?_cls, Regex.match?_word_pair]
    rw [Regex.splitFrom, hm]
    exact congrArg _ hi
  case case3 c s hb hc hi =>
    rw [Regex.splitFrom, match?_delimiter hb, if_pos hc]
    exact congrArg _ hi
  case case4 c s hb hc hi =>
    rw [Regex.splitFrom, match?_delimiter hb, if_neg hc]
    exact congrArg (List.modifyHead _) hi

theorem cuts_pieces (s : Str) : Cuts (pieces s) s := by
  fun_induction pieces s
  case case1 => exact ⟨by simp, by simp⟩
  case case2 s hi =>
    refine ⟨by simp, List.forall_mem_cons.mpr ⟨List.nil_infix, fun t ht => ?_⟩⟩
    exact (hi.parts t ht).trans (List.suffix_append ['|', '('] s).isInfix
  case case3 c _ _ _ hi => exact hi.cons_nil c
  case case4 c _ _ _ hi => exact hi.modifyHead c

theorem newline_not_mem_pieces (s : Str) : ∀ t ∈ pieces s, '\n' ∉ t := by
  fun_induction pieces s
  case case1            => simp
  case case2 hi         => simpa using hi
  case case3 hi         => simpa using hi
  case case4 c s _ hc hi =>
    have hn : '\n' ≠ c := fun he => hc (he ▸ by decide)
    cases hp : pieces s
    case nil       => simp
    case cons t ts => simp_all

theorem isSome_match?_extention (c d : Char) (s : Str) :
    (extention.match? (c :: d :: s)).isSome ↔
      c = '.' ∧ d ∈ "chpS|".toList ∧ (s = [] ∨ s = ['\n']) := by
  have hd : d ∈ "c|cpp|h|hpp|S".toList ↔ d ∈ "chpS|".toList := by simp; grind
  have hs : ((Regex.eol (· = '\n')).match? s).isSome ↔ s = [] ∨ s = ['\n'] := by
    obtain _ | ⟨e, _ | ⟨f, s⟩⟩ := s
    · simp [Regex.match?, Regex.results]
    · by_cases he : e = '\n' <;> simp [Regex.match?, Regex.results, he]
    · simp [Regex.match?, Regex.results]
  rw [extention, Regex.isSome_match?_cls_seq, Regex.isSome_match?_cls_seq, hs, ← hd,
    decide_eq_true_eq, decide_eq_true_eq]

theorem isSome_search_extention (hn : '\n' ∉ t) : (extention.search t).isSome = isListed t := by
  rw [Bool.eq_iff_iff, Regex.isSome_search_iff]
  simp only [isListed, List.any_eq_true, decide_eq_true_eq]
  constructor
  case mp =>
    rintro ⟨s, hs, hm⟩
    obtain _ | ⟨c, _ | ⟨d, s⟩⟩ := s
    · simp [extention, Regex.match?, Regex.results] at hm
    · by_cases hc : c = '.' <;> simp [extention, Regex.match?, Regex.results, hc] at hm
    · obtain ⟨hc, hd, he⟩ := (isSome_match?_extention c d s).mp hm
      cases he
      case inl he => exact ⟨d, hd, hc ▸ he ▸ hs⟩
      case inr he => exact absurd (hs.subset <| by simp [he]) hn
  case mpr =>
    rintro ⟨c, hc, hs⟩
    exact ⟨_, hs, (isSome_match?_extention '.' c []).mpr ⟨rfl, hc, .inl rfl⟩⟩

theorem extractLoop_eq (tmp : List Str) :
    extractLoop [] tmp = (tmp.find? fun t => (extention.search t).isSome).getD [] := by
  induction tmp
  case nil => rfl
  case cons t tmp hi =>
    rw [extractLoop, List.find?_cons]
    cases extention.search t
    case none => simpa using hi
    case some => simp

theorem extractPath_eq (h : Host) (line tpath rpath : Str) :
    extractPath h line tpath rpath = pathOf h tpath rpath (picked line) := by
  have hf : (pieces line).find? (fun t => (extention.search t).isSome) = picked line :=
    find?_congr fun t ht => isSome_search_extention <| newline_not_mem_pieces line t ht
  simp only [extractPath, extractLoop_eq, split_delimiter, hf]
  cases hp : picked line
  case none => rfl
  case some t =>
    have hl := List.find?_some hp
    have hn : t ≠ [] := by
      rintro rfl
      simp [isListed] at hl
    simp [hn, pathOf]

section Words

-- The words between the separators that both the tokens and the pieces have in common.
def words (line : Str) : List Str :=
  line.splitOnP (· ∈ " )\n".toList)

-- Words in which a source file is found, rightly or wrongly.
def isHit (w : Str) : Bool :=
  (pieces w).any isListed || (tokens w).any isSource

-- The first word in which a source file is found, if any, is a source file as a whole.
def PlainHit (line : Str) : Prop :=
  ∀ w ∈ (words line).find? isHit, '(' ∉ w ∧ '\\' ∉ w ∧ ∃ e ∈ ['c', 'h', 'S'], ['.', e] <:+ w

theorem pieces_cons {c : Char} (hb : ∀ s', c = '|' → s = '(' :: s' → False) :
    pieces (c :: s) =
      if c ∈ " )\n".toList then [] :: pieces s else (pieces s).modifyHead (c :: ·) := by
  rw [pieces]
  exact hb

theorem pieces_ne_nil (s : Str) : pieces s ≠ [] := by
  fun_induction pieces s
  case case4 hi => simpa using hi
  all_goals simp

theorem pieces_append_cons {c : Char} (hc : c ∈ " )\n".toList) (s t : Str) :
    pieces (s ++ c :: t) = pieces s ++ pieces t := by
  have ho : c ≠ '(' := fun he => absurd (he ▸ hc) (by decide)
  have hn {d : Char} {s : Str} (hd : ∀ s', d = '|' → s = '(' :: s' → False) :
      ∀ s', d = '|' → s ++ c :: t = '(' :: s' → False := by
    intro s' he hs
    cases s
    case nil  => exact ho (List.cons.inj hs).left
    case cons => exact hd _ he (by rw [(List.cons.inj hs).left])
  fun_induction pieces s
  case case1 =>
    rw [List.nil_append, pieces_cons, if_pos hc]
    · rfl
    · exact fun _ he _ => absurd (he ▸ hc) (by decide)
  case case2 s hi => simpa [pieces] using hi
  case case3 d s hd hm hi => rw [List.cons_append, pieces_cons (hn hd), if_pos hm, hi]; rfl
  case case4 d s hd hm hi =>
    rw [List.cons_append, pieces_cons (hn hd), if_neg hm, hi]
    cases hp : pieces s
    case nil  => exact absurd hp (pieces_ne_nil s)
    case cons => rfl

-- What goes through a line from one separator to the next does so word by word.
theorem flatMap_words {f : Str → List Str}
    (hf : ∀ c ∈ " )\n".toList, ∀ s t, f (s ++ c :: t) = f s ++ f t) (line : Str) :
    f line = (words line).flatMap f := by
  suffices hs : ∀ t s, (∀ c ∈ s, c ∉ " )\n".toList) → f (s ++ t) = (words (s ++ t)).flatMap f from
    hs line [] (by simp)
  intro t
  induction t
  case nil =>
    intro s hs
    rw [List.append_nil, words, List.splitOnP_eq_singleton fun c hc => decide_eq_false (hs c hc)]
    simp
  case cons c t hi =>
    intro s hs
    by_cases hc : c ∈ " )\n".toList
    case pos =>
      have ht : f t = (words t).flatMap f := hi [] (by simp)
      rw [hf c hc, words, List.splitOnP_append_cons_of_forall_mem
        (fun d hd => decide_eq_false (hs d hd)) c (decide_eq_true hc), List.flatMap_cons, ht]
      rfl
    case neg =>
      rw [List.append_cons]
      exact hi (s ++ [c]) <| List.forall_mem_append.mpr ⟨hs, by simpa using hc⟩

theorem not_mem_of_mem_words {w : Str} (hw : w ∈ words line) : ∀ c ∈ w, c ∉ " )\n".toList := by
  simpa using eq_false_of_mem_splitOnP hw

theorem pieces_of_plain {w : Str} (hs : ∀ c ∈ w, c ∉ " )\n".toList) (ho : '(' ∉ w) :
    pieces w = [w] := by
  induction w
  case nil => rfl
  case cons c w hi =>
    have ⟨hc, hs⟩ := List.forall_mem_cons.mp hs
    have ⟨_, ho⟩ : '(' ≠ c ∧ '(' ∉ w := by simpa using ho
    rw [pieces, if_neg hc, hi hs ho]
    · rfl
    · exact fun s' _ he => ho (he ▸ List.mem_cons_self)

theorem tokens_of_plain {w : Str} (hs : ∀ c ∈ w, c ∉ " )\n".toList) (ho : '(' ∉ w)
    (hb : '\\' ∉ w) : tokens w = [w] := by
  refine List.splitOnP_eq_singleton fun c hc => decide_eq_false fun hm => ?_
  have hn := hs c hc
  simp at hm hn
  grind

-- Two searches agree if they do so in the first word in which one of them succeeds.
theorem findSome?_eq_of_first {f g : Str → Option Str} {ws : List Str}
    (hw : ∀ w ∈ ws.find? fun w => (f w).isSome || (g w).isSome, f w = g w) :
    ws.findSome? f = ws.findSome? g := by
  induction ws
  case nil => rfl
  case cons w ws hi =>
    rw [List.find?_cons] at hw
    rw [List.findSome?_cons, List.findSome?_cons]
    split at hw
    case _ hs =>
      have he : f w = g w := hw w rfl
      cases hg : g w
      case none => simp [he, hg] at hs
      case some => rw [he, hg]
    case _ hs =>
      have ⟨hf, hg⟩ : f w = none ∧ g w = none := by simpa using hs
      rw [hf, hg]
      exact hi hw

theorem picked_eq_intended (hp : PlainHit line) : picked line = intended line := by
  have ht {c : Char} (hc : c ∈ " )\n".toList) (s t : Str) :
      tokens (s ++ c :: t) = tokens s ++ tokens t := by
    refine List.splitOnP_append_cons s t <| decide_eq_true ?_
    simp at hc ⊢
    grind
  rw [picked, intended, flatMap_words (fun _ => pieces_append_cons) line,
    flatMap_words (fun _ => ht) line, List.find?_flatMap, List.find?_flatMap]
  refine findSome?_eq_of_first fun w hw => ?_
  have hh : (words line).find? isHit = some w := by
    simp only [List.isSome_find?] at hw
    exact hw
  have hs := not_mem_of_mem_words <| List.mem_of_find?_eq_some hh
  have ⟨ho, hb, e, he, hx⟩ := hp w hh
  have ⟨hl, hr⟩ : isListed w ∧ isSource w := by
    simp only [isListed, isSource, List.any_eq_true, decide_eq_true_eq]
    simp only [List.mem_cons, List.not_mem_nil, or_false] at he
    obtain rfl | rfl | rfl := he
    · exact ⟨⟨'c', by decide, hx⟩, "c", by decide, hx⟩
    · exact ⟨⟨'h', by decide, hx⟩, "h", by decide, hx⟩
    · exact ⟨⟨'S', by decide, hx⟩, "S", by decide, hx⟩
  rw [pieces_of_plain hs ho, tokens_of_plain hs ho hb]
  simp [hl, hr]

end Words

end Reo
