import MyLinuxEnv.Logtrans.Basic

open Text Posix

namespace Logtrans

-- The fields of a message of the expanded kernel log contain no delimiters.
def Plain (s : Str) : Prop :=
  ∀ c ∈ s, c ∉ "|[]<>".toList

instance (s : Str) : Decidable (Plain s) :=
  inferInstanceAs <| Decidable (∀ c ∈ s, c ∉ "|[]<>".toList)

-- The layout of a message of the expanded kernel log.
def expanded (ts f n l m : Str) : Str :=
  '[' :: ts ++ ']' :: ' ' :: f ++ '|' :: n ++ '|' :: ' ' :: '<' :: l ++ '>' :: m

theorem delimiter_isClass : delimiter.IsClass (· ∈ "|[]<>".toList) := by
  have h : delimiter.IsClass _ := .alt (.cls (· = '|')) <| .alt (.cls (· = '[')) <|
    .alt (.cls (· = ']')) <| .alt (.cls (· = '<')) (.cls (· = '>'))
  simpa [← Bool.decide_or] using h

theorem Plain.split_append {s : Str} (h : Plain s) {d : Char} (hd : d ∈ "|[]<>".toList) (t : Str) :
    delimiter.split (s ++ d :: t) = s :: delimiter.split t :=
  delimiter_isClass.split_append_cons (by simpa using hd) (by simpa [Plain] using h) t

theorem Plain.append {s t : Str} (hs : Plain s) (ht : Plain t) : Plain (s ++ t) := by
  intro c hc
  exact (List.mem_append.mp hc).elim (hs c) (ht c)

variable {ts f n l m : Str}

-- No matter what follows it, the head of a message determines the first pieces.
theorem split_expanded (hts : Plain ts) (hf : Plain f) (hn : Plain n) (hl : Plain l) (m : Str) :
    delimiter.split (expanded ts f n l m) =
      [] :: ts :: (' ' :: f) :: n :: [' '] :: l :: delimiter.split m := by
  have hs : Plain [' '] := by decide
  have hn' : Plain [] := by decide
  have he : expanded ts f n l m = [] ++ '[' :: (ts ++ ']' :: (([' '] ++ f) ++ '|' ::
      (n ++ '|' :: ([' '] ++ '<' :: (l ++ '>' :: m))))) := by simp [expanded]
  rw [he, hn'.split_append (by decide), hts.split_append (by decide),
    (hs.append hf).split_append (by decide), hn.split_append (by decide),
    hs.split_append (by decide), hl.split_append (by decide)]
  rfl

-- The first `>` is the one which closes the level.
theorem drop_find?_expanded (hts : Plain ts) (hf : Plain f) (hn : Plain n) (hl : Plain l)
    (m : Str) :
    (expanded ts f n l m).drop ((find? ['>'] (expanded ts f n l m)).elim 0 (· + 1)) = m := by
  let a := '[' :: ts ++ ']' :: ' ' :: f ++ '|' :: n ++ '|' :: ' ' :: '<' :: l
  have he : expanded ts f n l m = a ++ '>' :: m := by simp [expanded, a]
  have ha : '>' ∉ a := by
    have hp : ∀ {s}, Plain s → '>' ∉ s := fun hs hm => hs _ hm (by decide)
    simp [a, hp hts, hp hf, hp hn, hp hl]
  rw [he, find?_singleton_append a m ha, Option.elim_some, List.drop_append]
  simp

theorem LogMessage.parse_expanded (h : Host) (hts : Plain ts) (hf : Plain f) (hs : ' ' ∉ f)
    (hi : h.islink f = false) (hn : Plain n) (hl : Plain l) (m : Str) :
    parse h (expanded ts f n l m) = .ok {
      timestamp := ts.filter (· ≠ ' '), filename := f, linenum := n, level := l, message := m
    } := by
  have hh : (expanded ts f n l m).head? = some '[' := by simp [expanded]
  have hb : replace [' '] [] (' ' :: f) = f := by
    rw [replace_singleton_nil, List.filter_cons_of_neg (by simp), filter_ne_eq_self hs]
  simp only [parse, hh, ne_eq, not_true_eq_false, false_and, if_false,
    split_expanded hts hf hn hl, drop_find?_expanded hts hf hn hl, hb, hi, replace_singleton_nil]
  simp

-- The prefix that the console puts in front of a message is cut off unread.
theorem LogMessage.parse_prefix (h : Host) (c d : Char) {msg : Str} (hm : msg.head? = some '[') :
    parse h ('<' :: c :: d :: msg) = parse h msg := by
  simp [parse, hm]

-- The decoder undoes the layout of the expanded kernel log, whatever the message contains.
theorem parse_of_expanded (h : Host) (hts : Plain ts) (hf : Plain f) (hs : ' ' ∉ f)
    (hi : h.islink f = false) (hn : Plain n) (hl : Plain l) (m : Str) :
    let msg : LogMessage := {
      timestamp := ts.filter (· ≠ ' '), filename := f, linenum := n, level := l, message := m }
    LogMessage.parse h (expanded ts f n l m) = .ok msg ∧
      ∀ c, LogMessage.parse h ('<' :: c :: '>' :: expanded ts f n l m) = .ok msg := by
  have hp := LogMessage.parse_expanded h hts hf hs hi hn hl m
  exact ⟨hp, fun c => (LogMessage.parse_prefix h c '>' <| by simp [expanded]).trans hp⟩

theorem parse_of_expanded_with_delimiters :
    let line := "[ 0.5] a.c|7| <6>x|y> [z]".toList
    let msg : LogMessage := ⟨"0.5".toList, "6".toList, "x|y> [z]".toList, "a.c".toList, "7".toList⟩
    LogMessage.parse Paths.exampleHost line = .ok msg ∧
      ∀ c, LogMessage.parse Paths.exampleHost ('<' :: c :: '>' :: line) = .ok msg :=
  @parse_of_expanded " 0.5".toList "a.c".toList "7".toList "6".toList Paths.exampleHost (by decide)
    (by decide) (by decide) (by decide) (by decide) (by decide) "x|y> [z]".toList

end Logtrans
