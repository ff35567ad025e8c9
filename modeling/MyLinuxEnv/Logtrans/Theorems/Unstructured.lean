import MyLinuxEnv.Logtrans.Theorems.Parse

open Text Posix

namespace Logtrans

variable {h : Host} {line msg : Str}

-- The lines of the expanded kernel log, as they appear on a console or without its prefix.
def Expanded (line : Str) : Prop :=
  ∃ ts f n l m, Plain ts ∧ Plain f ∧ Plain l ∧ n ≠ [] ∧ (∀ c ∈ n, c.isDigit) ∧
    (line = expanded ts f n l m ∨ ∃ c, line = '<' :: c :: '>' :: expanded ts f n l m)

-- The line without the prefix that the console puts in front of a message.
def withoutPrefix : Str → Str
  | '<' :: _ :: '>' :: msg => msg
  | line                   => line

-- The part of a line that is looked at once it begins like a structured one.
def cut (line : Str) : Str :=
  if line.head? = some '<' then line.drop 3 else line

def isDelimiter (c : Char) : Bool :=
  c ∈ "|[]<>".toList

-- The lines which are not taken for structured ones, and of which only a prefix is cut off.
def PassesThrough (line : Str) : Prop :=
  (line.head? ≠ some '[' ∧ line.head? ≠ some '<') ∨
    (line.head? = some '[' ∨ withoutPrefix line ≠ line) ∧
      (withoutPrefix line).countP isDelimiter ≤ 4

theorem plain_of_mem_split {s : Str} (hs : s ∈ delimiter.split msg) : Plain s := by
  rw [delimiter_isClass.split_eq] at hs
  simpa [Plain] using eq_false_of_mem_splitOnP hs

theorem length_split (msg : Str) : (delimiter.split msg).length = msg.countP isDelimiter + 1 := by
  rw [delimiter_isClass.split_eq, length_splitOnP]
  rfl

theorem Plain.ne_notFound {s : Str} (hs : Plain s) : s ≠ notFound := by
  intro he
  exact hs '<' (he ▸ by decide) (by decide)

theorem exists_of_six_le_length {l : List Str} (h : 6 ≤ l.length) :
    ∃ a b c d e f t, l = a :: b :: c :: d :: e :: f :: t := by
  obtain _ | ⟨a, _ | ⟨b, _ | ⟨c, _ | ⟨d, _ | ⟨e, _ | ⟨f, t⟩⟩⟩⟩⟩⟩ := l
  all_goals first | exact ⟨_, _, _, _, _, _, _, rfl⟩ | simp at h

theorem cut_eq {c : Char} (s : Str) (hh : c = '[' ∨ c = '<') :
    (if c ≠ '[' ∧ c = '<' then (c :: s).drop 3 else c :: s) = cut (c :: s) := by
  cases hh <;> simp_all [cut]

namespace LogMessage

theorem parse_of_head (hn : line ≠ []) (ho : line.head? ≠ some '[') (ha : line.head? ≠ some '<') :
    parse h line = .ok (unstructured line) := by
  cases line
  case nil       => contradiction
  case cons c s => simp_all [parse]

theorem parse_of_few (hh : line.head? = some '[' ∨ line.head? = some '<')
    (hc : (cut line).countP isDelimiter ≤ 4) : parse h line = .ok (unstructured (cut line)) := by
  have hl : (delimiter.split (cut line)).length ≤ 5 := by
    rw [length_split]
    omega
  cases line
  case nil => simp at hh
  case cons c s =>
    have hh : c = '[' ∨ c = '<' := by simpa using hh
    have hn : ¬(c ≠ '[' ∧ c ≠ '<') := by grind
    simp only [parse, List.head?_cons, cut_eq s hh, if_neg hn]
    split
    case _ hp =>
      rw [hp] at hl
      simp only [List.length_cons] at hl
      omega
    case _    => rfl

-- With five delimiters, the pieces between them become fields, whatever the line looks like.
theorem parse_of_many (hh : line.head? = some '[' ∨ line.head? = some '<')
    (hc : 4 < (cut line).countP isDelimiter) :
    ∃ ts f n l, Plain ts ∧ Plain f ∧ Plain n ∧ Plain l ∧ parse h line = .ok {
      timestamp := replace [' '] [] ts
      level     := l
      message   := (cut line).drop ((find? ['>'] (cut line)).elim 0 (· + 1))
      filename  :=
        if h.islink (replace [' '] [] f) then h.realpath (replace [' '] [] f)
        else replace [' '] [] f
      linenum   := n
    } := by
  have hl : 6 ≤ (delimiter.split (cut line)).length := by
    rw [length_split]
    omega
  obtain ⟨_, ts, f, n, _, l, _, hs⟩ := exists_of_six_le_length hl
  have hp := fun {s} => @plain_of_mem_split (cut line) s
  refine ⟨ts, f, n, l, hp (by simp [hs]), hp (by simp [hs]), hp (by simp [hs]),
    hp (by simp [hs]), ?_⟩
  cases line
  case nil => simp at hh
  case cons c s =>
    have hh : c = '[' ∨ c = '<' := by simpa using hh
    have hn : ¬(c ≠ '[' ∧ c ≠ '<') := by grind
    simp only [parse, List.head?_cons, cut_eq s hh, if_neg hn, hs]

end LogMessage

theorem withoutPrefix_eq_self (hh : line.head? ≠ some '<') : withoutPrefix line = line := by
  unfold withoutPrefix
  split
  case _ => simp at hh
  case _ => rfl

theorem withoutPrefix_eq_cut (hw : withoutPrefix line ≠ line) : withoutPrefix line = cut line := by
  unfold withoutPrefix at hw ⊢
  split at hw
  case _ => simp [cut]
  case _ => contradiction

theorem cut_eq_withoutPrefix_iff (hh : line.head? = some '[' ∨ line.head? = some '<') :
    cut line = withoutPrefix line ↔ line.head? = some '[' ∨ withoutPrefix line ≠ line := by
  by_cases hw : withoutPrefix line = line
  case neg => exact iff_of_true (withoutPrefix_eq_cut hw).symm (.inr hw)
  case pos =>
    rw [hw]
    refine ⟨fun hc => .inl <| hh.resolve_right fun ha => ?_, fun ho => ?_⟩
    case refine_1 =>
      -- Without a prefix, three characters of the message itself would be missing.
      have hl := congrArg List.length hc
      simp only [cut, ha, if_true, List.length_drop] at hl
      cases line
      case nil  => simp at ha
      case cons =>
        simp only [List.length_cons] at hl
        omega
    case refine_2 => simp [cut, ho.resolve_right (not_not_intro rfl)]

-- A line keeps its message exactly if it is not taken for a structured one by its delimiters, and
-- if nothing but a prefix is cut off.
theorem parse_eq_unstructured_iff (h : Host) (hn : line ≠ []) :
    LogMessage.parse h line = .ok (.unstructured <| withoutPrefix line) ↔ PassesThrough line := by
  by_cases hh : line.head? = some '[' ∨ line.head? = some '<'
  case neg =>
    have ⟨ho, ha⟩ := not_or.mp hh
    rw [LogMessage.parse_of_head hn ho ha, withoutPrefix_eq_self ha]
    exact iff_of_true rfl (.inl ⟨ho, ha⟩)
  case pos =>
    have hp : PassesThrough line ↔
        cut line = withoutPrefix line ∧ (withoutPrefix line).countP isDelimiter ≤ 4 := by
      rw [cut_eq_withoutPrefix_iff hh]
      exact or_iff_right fun ⟨ho, ha⟩ => hh.elim ho ha
    rw [hp]
    by_cases hc : (cut line).countP isDelimiter ≤ 4
    case pos =>
      rw [LogMessage.parse_of_few hh hc]
      refine ⟨fun he => ?_, fun ⟨he, _⟩ => by rw [he]⟩
      have he : cut line = withoutPrefix line :=
        congrArg LogMessage.message <| Except.ok.inj he
      exact ⟨he, he ▸ hc⟩
    case neg =>
      -- A line number without delimiters is not the text that stands for a missing one.
      obtain ⟨_, _, n, _, _, _, hn, _, he⟩ := LogMessage.parse_of_many (h := h) hh (by omega)
      refine iff_of_false (fun hu => ?_) fun ⟨he, hw⟩ => hc <| he ▸ hw
      rw [he] at hu
      exact hn.ne_notFound <| congrArg LogMessage.linenum <| Except.ok.inj hu

theorem parse_eq_unstructured_iff_of_prefix :
    LogMessage.parse Paths.exampleHost "<6>[drm] ready".toList = .ok (.unstructured <|
      withoutPrefix "<6>[drm] ready".toList) ↔ PassesThrough "<6>[drm] ready".toList :=
  parse_eq_unstructured_iff Paths.exampleHost (by decide)

-- An ordinary message with six delimiters is torn into fields.
theorem parse_ne_unstructured :
    ¬∀ (h : Host) (line : Str), line ≠ [] → ¬Expanded line →
      LogMessage.parse h line = .ok (.unstructured <| withoutPrefix line) := by
  intro hp
  have he : ¬Expanded "[drm] <a> [b] up".toList := by
    rintro ⟨ts, f, n, l, m, _, _, _, _, _, hl⟩
    have hb : '|' ∉ "[drm] <a> [b] up".toList := by decide
    cases hl
    case inl hl => exact hb <| hl ▸ by simp [expanded]
    case inr hl =>
      obtain ⟨_, hl⟩ := hl
      exact hb <| hl ▸ by simp [expanded]
  exact absurd (hp Paths.exampleHost _ (by decide) he) (by decide)

end Logtrans
