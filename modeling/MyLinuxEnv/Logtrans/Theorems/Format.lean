import MyLinuxEnv.Logtrans.Theorems.MainLoop
import MyLinuxEnv.Logtrans.Theorems.Unstructured

open Text Posix

namespace Logtrans

inductive Field
  | timestamp
  | level
  | message
  | filename
  | linenum
  deriving DecidableEq, Repr

namespace Field

-- The letter which stands twice in a template for the field.
def letter : Field → Char
  | timestamp => 'T'
  | level     => 'L'
  | message   => 'M'
  | filename  => 'F'
  | linenum   => 'N'

def formatter (f : Field) : Str :=
  [f.letter, f.letter]

def ofLetter (c : Char) : Option Field :=
  [timestamp, level, message, filename, linenum].find? (·.letter = c)

def get (msg : LogMessage) : Field → Str
  | timestamp => msg.timestamp
  | level     => msg.level
  | message   => msg.message
  | filename  => msg.filename
  | linenum   => msg.linenum

theorem ofLetter_letter (f : Field) : ofLetter f.letter = some f := by
  cases f <;> rfl

theorem letter_of_ofLetter {c : Char} {f : Field} (h : ofLetter c = some f) : f.letter = c := by
  simpa using List.find?_some h

end Field

-- A template is read once from left to right as characters and fields.
def scan : Str → List (Char ⊕ Field)
  | []          => []
  | [c]         => [.inl c]
  | c :: d :: s =>
    match Field.ofLetter c with
    | none   => .inl c :: scan (d :: s)
    | some f => if c = d then .inr f :: scan s else .inl c :: scan (d :: s)

-- The template with the values of its fields. A value is not scanned again.
def substitute (value : Field → Str) (fmt : Str) : Str :=
  (scan fmt).flatMap <| Sum.elim ([·]) value

section Search

variable {self : LogMessage} {c d : Char} {s fmt a ret : Str} {m : Match Char} {fuel : Nat}

theorem match?_outfmtDelimiter (c d : Char) (s : Str) :
    outfmtDelimiter.match? (c :: d :: s) =
      if c = d then (Field.ofLetter c).map fun f => ⟨f.formatter, [], s⟩ else none := by
  simp only [outfmtDelimiter, Regex.match?_alt, Regex.match?_word_pair]
  by_cases hd : c = d
  case neg => grind
  case pos =>
    subst hd
    cases hf : Field.ofLetter c
    case none =>
      have hn (f : Field) : c ≠ f.letter := fun he => by
        rw [he, Field.ofLetter_letter] at hf
        contradiction
      have ⟨ht, hl, hm, hf, hn⟩ : c ≠ 'T' ∧ c ≠ 'L' ∧ c ≠ 'M' ∧ c ≠ 'F' ∧ c ≠ 'N' :=
        ⟨hn .timestamp, hn .level, hn .message, hn .filename, hn .linenum⟩
      simp [ht, hl, hm, hf, hn]
    case some f =>
      have hl := Field.letter_of_ofLetter hf
      subst hl
      cases f <;> rfl

theorem scan_cons_of_match?_none (h : outfmtDelimiter.match? (c :: s) = none) :
    scan (c :: s) = .inl c :: scan s := by
  cases s
  case nil => rfl
  case cons d s =>
    rw [match?_outfmtDelimiter] at h
    simp only [scan]
    split
    case _ => rfl
    case _ hf =>
      split at h
      case isTrue     => simp [hf] at h
      case isFalse hd => rw [if_neg hd]

theorem scan_cons_of_match?_some (h : outfmtDelimiter.match? (c :: s) = some m) :
    ∃ f : Field, m.text = f.formatter ∧ scan (c :: s) = .inr f :: scan m.rest ∧
      m.rest.length < s.length := by
  cases s
  case nil => simp [outfmtDelimiter, Regex.match?_alt, Regex.match?_word_pair_singleton] at h
  case cons d s =>
    rw [match?_outfmtDelimiter] at h
    split at h
    case isFalse => contradiction
    case isTrue hd =>
      subst hd
      have ⟨f, hf, hm⟩ := Option.map_eq_some_iff.mp h
      subst hm
      exact ⟨f, rfl, by simp [scan, hf], by simp⟩

theorem scan_of_search_none (h : outfmtDelimiter.search fmt = none) : scan fmt = fmt.map .inl := by
  induction fmt
  case nil => rfl
  case cons c fmt hi =>
    simp only [Regex.search] at h
    split at h
    case _ => contradiction
    case _ hm => rw [scan_cons_of_match?_none hm, hi (Option.map_eq_none_iff.mp h), List.map_cons]

theorem scan_of_search_some (h : outfmtDelimiter.search fmt = some (a, m)) :
    ∃ f : Field, m.text = f.formatter ∧ scan fmt = a.map .inl ++ .inr f :: scan m.rest ∧
      m.rest.length < fmt.length := by
  induction fmt generalizing a
  case nil => simp [Regex.search, outfmtDelimiter, Regex.match?, Regex.results, Regex.word] at h
  case cons c fmt hi =>
    simp only [Regex.search] at h
    split at h
    case _ hm =>
      cases h
      obtain ⟨f, ht, hs, hl⟩ := scan_cons_of_match?_some hm
      exact ⟨f, ht, hs, Nat.lt_succ_of_lt hl⟩
    case _ hm =>
      obtain ⟨⟨a', m'⟩, hr, he⟩ := Option.map_eq_some_iff.mp h
      cases he
      obtain ⟨f, ht, hs, hl⟩ := hi hr
      exact ⟨f, ht, by rw [scan_cons_of_match?_none hm, hs]; rfl, Nat.lt_succ_of_lt hl⟩

theorem flatMap_map_inl (value : Field → Str) (s : Str) :
    (s.map Sum.inl).flatMap (Sum.elim ([·]) value) = s := by
  simp [List.flatMap_map]

-- Every round of the loop reads one more field of the template.
theorem formatLoop_eq (hl : fmt.length < fuel) :
    self.formatLoop fuel ret fmt = ret ++ substitute (self.addtoken ·.formatter) fmt := by
  induction fuel generalizing fmt ret
  case zero => contradiction
  case succ fuel hi =>
    simp only [LogMessage.formatLoop, substitute]
    split
    case _ h => rw [scan_of_search_none h, flatMap_map_inl]
    case _ a m h =>
      have ⟨f, ht, hs, hm⟩ := scan_of_search_some h
      rw [hi (by omega), ht, hs, List.flatMap_append, flatMap_map_inl, List.flatMap_cons,
        Sum.elim_inr, substitute]
      simp only [List.append_assoc]

end Search

theorem format_eq (self : LogMessage) (fmt : Str) :
    self.format fmt = substitute (self.addtoken ·.formatter) fmt :=
  formatLoop_eq <| Nat.lt_succ_self _

theorem addtoken_formatter (self : LogMessage) (f : Field) :
    self.addtoken f.formatter = if f.get self = notFound then [] else f.get self := by
  by_cases h : f.get self = notFound <;> cases f <;>
    simp_all [LogMessage.addtoken, Field.formatter, Field.letter, Field.get]

section Parse

variable {h : Host} {line fmt ts f n l m : Str} {msg : LogMessage} {field : Field}

-- The lines which `parse` takes apart.
def Structured (line : Str) : Prop :=
  (line.head? = some '[' ∨ line.head? = some '<') ∧ 4 < (cut line).countP isDelimiter

instance : Decidable (Structured line) :=
  instDecidableAnd

-- What `parse` has found in the line for a field. A message is found in every line.
def found (line : Str) (msg : LogMessage) (field : Field) : Str :=
  if field = .message ∨ Structured line then field.get msg else []

theorem filter_ne_notFound {s : Str} (hs : Plain s) : replace [' '] [] s ≠ notFound := by
  rw [replace_singleton_nil]
  exact Plain.ne_notFound fun c hc => hs c (List.mem_filter.mp hc).left

theorem realpath_ne_notFound (h : Host) (path : Str) : h.realpath path ≠ notFound := by
  intro he
  have hh : some '/' = notFound.head? := congrArg List.head? he
  exact absurd hh (by decide)

-- Apart from the message, the fields of a line are either all found or all missing.
theorem get_eq_notFound_iff (hp : LogMessage.parse h line = .ok msg) (hf : field ≠ .message) :
    field.get msg = notFound ↔ ¬Structured line := by
  by_cases hh : line.head? = some '[' ∨ line.head? = some '<'
  case neg =>
    have ⟨ho, ha⟩ := not_or.mp hh
    have hn : line ≠ [] := fun hn => by simp [hn, LogMessage.parse] at hp
    cases (LogMessage.parse_of_head hn ho ha).symm.trans hp
    cases field <;> simp_all [Structured, Field.get, LogMessage.unstructured]
  case pos =>
    by_cases hc : 4 < (cut line).countP isDelimiter
    case neg =>
      cases (LogMessage.parse_of_few hh (Nat.le_of_not_lt hc)).symm.trans hp
      cases field <;> simp_all [Structured, Field.get, LogMessage.unstructured]
    case pos =>
      obtain ⟨ts, f, n, l, hts, hf', hn, hl, he⟩ := LogMessage.parse_of_many (h := h) hh hc
      cases he.symm.trans hp
      refine iff_of_false ?_ (not_not_intro ⟨hh, hc⟩)
      cases field
      case timestamp => exact filter_ne_notFound hts
      case level     => exact hl.ne_notFound
      case message   => contradiction
      case linenum   => exact hn.ne_notFound
      case filename  =>
        simp only [Field.get]
        split
        case isTrue  => exact realpath_ne_notFound h _
        case isFalse => exact filter_ne_notFound hf'

theorem addtoken_eq_found (hp : LogMessage.parse h line = .ok msg)
    (hm : field = .message → msg.message ≠ notFound) :
    msg.addtoken field.formatter = found line msg field := by
  rw [addtoken_formatter, found]
  by_cases hf : field = .message
  case pos =>
    subst hf
    simp [Field.get, hm rfl]
  case neg => simp [get_eq_notFound_iff hp hf, hf]

theorem substitute_congr {v w : Field → Str}
    (hv : ∀ field, .inr field ∈ scan fmt → v field = w field) :
    substitute v fmt = substitute w fmt := by
  refine List.flatMap_congr fun x hx => ?_
  cases x
  case inl => rfl
  case inr => exact hv _ hx

theorem format_eq_substitute_found (hp : LogMessage.parse h line = .ok msg)
    (hm : msg.message ≠ notFound ∨ .inr .message ∉ scan fmt) :
    msg.format fmt = substitute (found line msg) fmt := by
  rw [format_eq]
  refine substitute_congr fun field hf => addtoken_eq_found hp fun he => ?_
  exact hm.resolve_right fun hn => hn <| he ▸ hf

def layout : Str :=
  "[TT] FF|NN| <LL>MM".toList

theorem substitute_layout (v : Field → Str) :
    substitute v layout =
      expanded (v .timestamp) (v .filename) (v .linenum) (v .level) (v .message) := by
  have hs : scan layout = [.inl '[', .inr .timestamp, .inl ']', .inl ' ', .inr .filename, .inl '|',
      .inr .linenum, .inl '|', .inl ' ', .inl '<', .inr .level, .inl '>', .inr .message] := by
    decide
  simp [substitute, hs, expanded]

theorem structured_expanded (hts : Plain ts) (hf : Plain f) (hn : Plain n) (hl : Plain l)
    (m : Str) :
    Structured (expanded ts f n l m) := by
  have hh : (expanded ts f n l m).head? = some '[' := by simp [expanded]
  have hc := length_split (expanded ts f n l m)
  rw [split_expanded hts hf hn hl] at hc
  refine ⟨.inl hh, ?_⟩
  simp only [cut, hh]
  simp at hc ⊢
  omega

theorem format_parse_expanded (hts : Plain ts) (htb : ' ' ∉ ts) (hf : Plain f) (hfb : ' ' ∉ f)
    (hi : h.islink f = false) (hn : Plain n) (hl : Plain l) (hm : m ≠ notFound) :
    (LogMessage.parse h (expanded ts f n l m)).map (·.format layout) =
      .ok (expanded ts f n l m) := by
  have hp := LogMessage.parse_expanded h hts hf hfb hi hn hl m
  rw [filter_ne_eq_self htb] at hp
  rw [hp, Except.map, format_eq_substitute_found hp (.inl hm), substitute_layout]
  simp [found, structured_expanded hts hf hn hl, Field.get]

-- A template is filled in with the fields of a line in a single pass, and a template in the layout
-- of the expanded kernel log gives the line back.
theorem format_parse (h : Host) :
    (∀ line, line ≠ [] → ∃ msg, LogMessage.parse h line = .ok msg ∧
      ∀ fmt, msg.message ≠ notFound ∨ .inr .message ∉ scan fmt →
        msg.format fmt = substitute (found line msg) fmt) ∧
    ∀ ts f n l m, Plain ts → ' ' ∉ ts → Plain f → ' ' ∉ f → h.islink f = false → Plain n →
      Plain l → m ≠ notFound →
        (LogMessage.parse h (expanded ts f n l m)).map (·.format layout) =
          .ok (expanded ts f n l m) := by
  refine ⟨fun line hn => ?_, fun ts f n l m hts htb hf hfb hi hn hl hm => ?_⟩
  case refine_1 =>
    have ⟨msg, hp⟩ := LogMessage.parse_ok (h := h) hn
    exact ⟨msg, hp, fun fmt => format_eq_substitute_found hp⟩
  case refine_2 => exact format_parse_expanded hts htb hf hfb hi hn hl hm

theorem format_parse_in_workdir :
    let line := "[0.5] a.c|7| <6>x|y> [z]".toList
    (∃ msg, LogMessage.parse Paths.exampleHost line = .ok msg ∧
      msg.format "TTT;FF".toList = substitute (found line msg) "TTT;FF".toList) ∧
    (LogMessage.parse Paths.exampleHost line).map (·.format layout) = .ok line := by
  have ⟨hs, hl⟩ := format_parse Paths.exampleHost
  have ⟨msg, hp, hf⟩ := hs "[0.5] a.c|7| <6>x|y> [z]".toList (by decide)
  have ht : scan "TTT;FF".toList = [.inr .timestamp, .inl 'T', .inl ';', .inr .filename] := by
    decide
  refine ⟨⟨msg, hp, hf _ <| .inr <| by rw [ht]; simp⟩, ?_⟩
  exact hl "0.5".toList "a.c".toList "7".toList "6".toList "x|y> [z]".toList (by decide)
    (by decide) (by decide) (by decide) (by decide) (by decide) (by decide) (by decide)

-- A file that is a link is recorded as what it leads to.
theorem not_format_parse :
    ¬∀ (h : Host) (ts f n l m : Str), Plain ts → ' ' ∉ ts → Plain f → Plain n → Plain l →
      (LogMessage.parse h (expanded ts f n l m)).map (·.format layout) =
        .ok (expanded ts f n l m) := by
  intro hc
  have hl := hc Paths.exampleHost "1".toList "link.c".toList "7".toList "6".toList "m".toList
    (by decide) (by decide) (by decide) (by decide) (by decide)
  exact absurd hl (by decide +kernel)

end Parse

end Logtrans
