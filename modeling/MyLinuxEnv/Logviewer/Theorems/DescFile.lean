import Mathlib.Data.Fintype.Basic
import Mathlib.Tactic.FinCases
import MyLinuxEnv.Logviewer.Syntax

open Text

namespace Logviewer

-- The characters which have a meaning of their own behind the pattern.
def special : Str :=
  ['=', ',', ' ', '"', '\n']

section Values

theorem not_mem_of_not_mem_upper {c : Char} {s : Str} (hc : c.toUpper = c) (h : c ∉ upper s) :
    c ∉ s :=
  fun hm => h <| List.mem_map.mpr ⟨c, hm, hc⟩

variable {c : Char}

theorem ColorText.special_not_mem (v : ColorText) (h : c ∈ special) : c ∉ v.text := by
  cases v
  case digit n => revert c; decide +revert
  case name n s hs =>
    refine not_mem_of_not_mem_upper ?_ (hs ▸ ?_)
    case refine_1 => clear hs; revert c; decide
    case refine_2 => clear hs; revert c; decide +revert

theorem FlagText.special_not_mem (v : FlagText) (h : c ∈ special) : c ∉ v.text := by
  cases v
  case digit b => revert c; decide +revert
  case word b s hs =>
    refine not_mem_of_not_mem_upper ?_ (hs ▸ ?_)
    case refine_1 => clear hs; revert c; decide
    case refine_2 => clear hs; revert c; decide +revert

theorem ColorText.text_ne_nil (v : ColorText) : v.text ≠ [] := by
  cases v
  case digit => simp [text]
  case name n s h =>
    rintro rfl
    revert h
    decide +revert

theorem color_text (old : Option Nat) (v : ColorText) :
    color old v.text = if v.isName then .ok (some v.value) else .error .valueError := by
  cases v
  case digit n => fin_cases n <;> rfl
  case name n s h =>
    simp only [color, ColorText.text, h]
    fin_cases n <;> rfl

theorem color_newline (old : Option Nat) (s : Str) : color old (s ++ ['\n']) = .ok old := by
  have hn : ∀ l : List Str, (∀ t ∈ l, '\n' ∉ t) → upper (s ++ ['\n']) ∉ l := by
    intro l hl hm
    exact hl _ hm <| by simp [upper]
  simp only [color, hn colorString (by decide), hn colorValue (by decide), if_false]
  rfl

theorem flag_text (v : FlagText) : flag v.text = .ok v.value := by
  cases v
  case digit b     => cases b <;> rfl
  case word b s h => simp only [flag, FlagText.text, h]; cases b <;> rfl

-- The line feed stays with the last value, so that it is not recognized as a word.
theorem flag_text_newline (v : FlagText) :
    flag (v.text ++ ['\n']) = .ok (v.value && !v.isTrueWord) := by
  cases v
  case digit b => cases b <;> rfl
  case word b s h =>
    have hn : ∀ t : Str, '\n' ∉ t → upper (s ++ ['\n']) ≠ t := by
      rintro t ht rfl
      exact ht <| by simp [upper]
    have hs : '1' ∉ s := not_mem_of_not_mem_upper (by decide) <| by rw [h]; cases b <;> decide
    simp only [flag, FlagText.text, hn "TRUE".toList (by decide), hn "FALSE".toList (by decide)]
    cases s
    case nil       => cases b <;> rfl
    case cons d s =>
      have hd : d ≠ '1' := fun hd => hs (by simp [hd])
      cases b <;> simp [FlagText.value, FlagText.isTrueWord, hd] <;> rfl

theorem exists_flag_eq_ok {s : Str} (h : s ≠ []) : ∃ b, flag s = .ok b := by
  cases s
  case nil => contradiction
  case cons c s =>
    simp only [flag]
    split <;> exact ⟨_, rfl⟩

end Values

section Attributes

namespace ColorKey

def get (a : Attributes) : ColorKey → Option Nat
  | fg => a.fg
  | bg => a.bg

def set (a : Attributes) (value : Option Nat) : ColorKey → Attributes
  | fg => { a with fg := value }
  | bg => { a with bg := value }

theorem get_set (a : Attributes) (value : Option Nat) (k : ColorKey) :
    k.get (k.set a value) = value := by
  cases k <;> rfl

theorem set_get (a : Attributes) (k : ColorKey) : k.set a (k.get a) = a := by
  cases k <;> rfl

end ColorKey

namespace FlagKey

def get (a : Attributes) : FlagKey → Bool
  | br => a.br
  | bo => a.bo
  | un => a.un
  | re => a.re

def set (a : Attributes) (value : Bool) : FlagKey → Attributes
  | br => { a with br := value }
  | bo => { a with bo := value }
  | un => { a with un := value }
  | re => { a with re := value }

theorem get_set (a : Attributes) (value : Bool) (k : FlagKey) :
    k.get (k.set a value) = value := by
  cases k <;> rfl

end FlagKey

variable {attrs : List Attr} {x : Attr} {a : Attributes} {c : Char}

theorem Attr.special_not_mem (x : Attr) (h : c ∈ special) : c ∉ x.valueText := by
  cases x
  case color v => exact v.special_not_mem h
  case flag v  => exact v.special_not_mem h

theorem Attr.special_not_mem_keyText (x : Attr) (h : c ∈ special) : c ∉ x.keyText := by
  cases x
  case color k _ => rw [keyText]; revert c; cases k <;> decide
  case flag k _  => rw [keyText]; revert c; cases k <;> decide

theorem Attr.special_not_mem_text (x : Attr) (h : c ∈ special) (he : c ≠ '=') : c ∉ x.text := by
  simp [text, he, x.special_not_mem h, x.special_not_mem_keyText h]

theorem parseAttribute_color (a : Attributes) (k : ColorKey) {s : Str} (h : '=' ∉ s) (hn : s ≠ []) :
    parseAttribute a (k.text ++ '=' :: s) = (k.set a ·) <$> color (k.get a) s := by
  have ⟨_, hf⟩ := exists_flag_eq_ok hn
  have hk : '=' ∉ k.text := by cases k <;> decide
  rw [parseAttribute, List.splitOn_append_cons_self_of_not_mem hk, List.splitOn_eq_singleton h]
  cases k
  case fg => cases hc : color a.fg s <;> simp [ColorKey.text, ColorKey.get, hc, hf] <;> rfl
  case bg => cases hc : color a.bg s <;> simp [ColorKey.text, ColorKey.get, hc] <;> rfl

theorem parseAttribute_flag (a : Attributes) (k : FlagKey) {s : Str} (h : '=' ∉ s) :
    parseAttribute a (k.text ++ '=' :: s) = (k.set a ·) <$> flag s := by
  have hk : '=' ∉ k.text := by cases k <;> decide
  rw [parseAttribute, List.splitOn_append_cons_self_of_not_mem hk, List.splitOn_eq_singleton h]
  cases hf : flag s <;> cases k <;> simp [FlagKey.text, hf] <;> rfl

def Attr.set (a : Attributes) : Attr → Attributes
  | color k v => k.set a <| some v.value
  | flag k v  => k.set a v.value

-- The attribute as it is read at the end of a line.
def Attr.setLast (a : Attributes) : Attr → Attributes
  | color _ _ => a
  | flag k v  => k.set a <| v.value && !v.isTrueWord

def Attr.isDigitColor : Attr → Bool
  | color _ v => !v.isName
  | flag _ _  => false

theorem parseAttribute_text (a : Attributes) (x : Attr) :
    parseAttribute a x.text = if x.isDigitColor then .error .valueError else .ok (x.set a) := by
  have he := x.special_not_mem (c := '=') (by decide)
  cases x
  case color k v =>
    rw [Attr.text, Attr.keyText, parseAttribute_color a k he v.text_ne_nil, Attr.valueText,
      color_text]
    cases v <;> rfl
  case flag k v =>
    rw [Attr.text, Attr.keyText, parseAttribute_flag a k he, Attr.valueText, flag_text]
    rfl

theorem parseAttribute_text_newline (a : Attributes) (x : Attr) :
    parseAttribute a (x.text ++ ['\n']) = .ok (x.setLast a) := by
  have he : '=' ∉ x.valueText ++ ['\n'] := by simp [x.special_not_mem (c := '=') (by decide)]
  cases x
  case color k v =>
    rw [Attr.text, Attr.keyText, List.append_assoc, List.cons_append,
      parseAttribute_color a k he (by simp), Attr.valueText, color_newline]
    exact congrArg _ <| k.set_get a
  case flag k v =>
    rw [Attr.text, Attr.keyText, List.append_assoc, List.cons_append, parseAttribute_flag a k he,
      Attr.valueText, flag_text_newline]
    rfl

@[simp]
theorem Attr.color?_color (k k' : ColorKey) (v : ColorText) :
    (color k v).color? k' = if k = k' then some v.value else none :=
  rfl

@[simp]
theorem Attr.color?_flag (k : FlagKey) (k' : ColorKey) (v : FlagText) :
    (flag k v).color? k' = none :=
  rfl

@[simp]
theorem Attr.flag?_color (k : ColorKey) (k' : FlagKey) (v : ColorText) :
    (color k v).flag? k' = none :=
  rfl

@[simp]
theorem Attr.flag?_flag (k k' : FlagKey) (v : FlagText) :
    (flag k v).flag? k' = if k = k' then some v.value else none :=
  rfl

theorem findSome?_color?_eq_none {k : ColorKey} (h : .inl k ∉ attrs.map (·.key)) :
    attrs.findSome? (·.color? k) = none := by
  refine List.findSome?_eq_none_iff.mpr fun x hx => ?_
  cases x
  case color k' v =>
    have hk : k' ≠ k := fun hk => h <| List.mem_map.mpr ⟨_, hx, by simp [Attr.key, hk]⟩
    simp [hk]
  case flag => rfl

theorem findSome?_flag?_eq_none {k : FlagKey} (h : .inr k ∉ attrs.map (·.key)) :
    attrs.findSome? (·.flag? k) = none := by
  refine List.findSome?_eq_none_iff.mpr fun x hx => ?_
  cases x
  case color => rfl
  case flag k' v =>
    have hk : k' ≠ k := fun hk => h <| List.mem_map.mpr ⟨_, hx, by simp [Attr.key, hk]⟩
    simp [hk]

theorem get_written_color {k : ColorKey} (h : .inl k ∉ attrs.map (·.key)) :
    k.get (written attrs) = none := by
  cases k <;> exact findSome?_color?_eq_none h

-- An attribute whose key has not been used before is added to the ones in front of it.
theorem written_append_singleton (h : x.key ∉ attrs.map (·.key)) :
    written (attrs ++ [x]) = x.set (written attrs) := by
  cases x
  case color k v =>
    have hn := findSome?_color?_eq_none h
    cases k <;> simp [written, hn, Attr.set, ColorKey.set]
  case flag k v =>
    have hn := findSome?_flag?_eq_none h
    cases k <;> simp [written, hn, Attr.set, FlagKey.set]

theorem foldlM_parseAttribute (h : (attrs.map (·.key)).Nodup) :
    (attrs.map (·.text)).foldlM parseAttribute {} =
      if attrs.any (·.isDigitColor) then .error .valueError else .ok (written attrs) := by
  induction attrs using List.reverseRecOn
  case nil => rfl
  case append_singleton attrs x hi =>
    simp only [List.map_append, List.nodup_append] at h
    have hx : x.key ∉ attrs.map (·.key) := fun hm => h.right.right _ hm x.key (by simp) rfl
    rw [List.map_append, List.foldlM_append, hi h.left, written_append_singleton hx]
    cases ha : attrs.any (·.isDigitColor)
    case true  => simp [ha]; rfl
    case false => simp [ha, parseAttribute_text]; rfl

def Attr.isFlagToTheEnd : Attr → Bool
  | color _ _ => false
  | flag _ v  => !v.isTrueWord

theorem Attr.not_isDigitColor_of_isFlagToTheEnd (x : Attr) (h : x.isFlagToTheEnd) :
    ¬x.isDigitColor := by
  cases x
  case color => contradiction
  case flag  => exact Bool.false_ne_true

theorem setLast_eq_set_iff (h : x.key ∉ attrs.map (·.key)) :
    x.setLast (written attrs) = x.set (written attrs) ↔ x.isFlagToTheEnd := by
  cases x
  case color k v =>
    refine iff_of_false (fun he => ?_) (by simp [Attr.isFlagToTheEnd])
    have hg := congrArg (ColorKey.get · k) he
    simp [Attr.set, Attr.setLast, ColorKey.get_set, get_written_color h] at hg
  case flag k v =>
    refine ⟨fun he => ?_, fun he => ?_⟩
    case refine_1 =>
      have hg := congrArg (FlagKey.get · k) he
      simp only [Attr.set, Attr.setLast, FlagKey.get_set] at hg
      cases v <;> simp_all [Attr.isFlagToTheEnd, FlagText.value, FlagText.isTrueWord]
    case refine_2 => simp_all [Attr.isFlagToTheEnd, Attr.set, Attr.setLast]

end Attributes

namespace DescLine

variable {l : DescLine} {ls : List DescLine}

-- What the syntax allows, but the parser does not: empty patterns and equals signs in patterns,
-- lines without attributes, digits for colors, and color names or `true` at the end of a line.
def Readable (l : DescLine) : Prop :=
  l.pattern ≠ [] ∧ '=' ∉ l.pattern ∧ (∀ x ∈ l.attrs, ¬x.isDigitColor) ∧
    ∃ x ∈ l.attrs.getLast?, x.isFlagToTheEnd

instance : Decidable l.Readable :=
  inferInstanceAs <| Decidable <| _ ∧ _ ∧ _ ∧ ∃ x ∈ l.attrs.getLast?, x.isFlagToTheEnd

def head (l : DescLine) : Str :=
  keyword ++ blanks l.pre ++ '=' :: blanks l.mid ++ '"' :: l.pattern

theorem text_eq (l : DescLine) : l.text = l.head ++ '"' :: l.tail := by
  simp [text, head]

theorem not_mem_blanks {c : Char} (h : c ≠ ' ') (n : Nat) : c ∉ blanks n := by
  simp [blanks, h]

theorem special_not_mem_item (i : Item) {c : Char} (h : c ∈ special) (he : c ≠ '=') (hb : c ≠ ' ') :
    c ∉ i.text := by
  simp [Item.text, not_mem_blanks hb, he, i.attr.special_not_mem h,
    i.attr.special_not_mem_keyText h]

theorem special_not_mem_items (l : DescLine) {c : Char} (h : c ∈ special) (he : c ≠ '=')
    (hb : c ≠ ' ') (hc : c ≠ ',') : c ∉ l.items.flatMap (',' :: ·.text) := by
  simp only [List.mem_flatMap, List.mem_cons, hc, false_or, not_exists, not_and]
  exact fun i _ => special_not_mem_item i h he hb

theorem quote_not_mem_tail (l : DescLine) : '"' ∉ l.tail := by
  have h := l.special_not_mem_items (c := '"') (by decide) (by decide) (by decide) (by decide)
  simp only [tail, List.mem_append, h, not_mem_blanks (c := '"') (by decide)]
  decide

theorem lines_text_append (l : DescLine) (s : Str) : lines (l.text ++ s) = l.text :: lines s := by
  have h := l.special_not_mem_items (c := '\n') (by decide) (by decide) (by decide) (by decide)
  have hb := not_mem_blanks (c := '\n') (by decide)
  let a := l.head ++ '"' :: (blanks l.post ++ l.items.flatMap (',' :: ·.text))
  have ht : l.text = a ++ ['\n'] := by simp [text_eq, tail, a]
  have ha : '\n' ∉ a := by
    simp only [a, head, List.mem_append, List.mem_cons, not_or]
    exact ⟨⟨⟨⟨by decide, hb _⟩, by decide, hb _⟩, by decide, l.newline_not_mem⟩, by decide, hb _, h⟩
  rw [ht, List.append_assoc]
  exact lines_append_newline a s ha

theorem filter_blanks (n : Nat) : (blanks n).filter (· ≠ ' ') = [] := by
  simp [blanks]

theorem filter_item (i : Item) : i.text.filter (· ≠ ' ') = i.attr.text := by
  have hk := filter_ne_eq_self <| i.attr.special_not_mem_keyText (c := ' ') (by decide)
  have hv := filter_ne_eq_self <| i.attr.special_not_mem (c := ' ') (by decide)
  simp only [Item.text, List.filter_append, filter_blanks, List.nil_append, hk, List.append_nil,
    List.filter_cons_of_pos (a := '=') (p := (· ≠ ' ')) (by decide), hv, Attr.text,
    List.append_assoc, List.cons_append]

-- The tail of a line without its blanks.
theorem filter_tail (l : DescLine) :
    l.tail.filter (· ≠ ' ') = unsplit ',' [] (l.attrs.map (·.text)) ++ ['\n'] := by
  have hi : ∀ i : Item, (',' :: i.text).filter (· ≠ ' ') = ',' :: i.attr.text := fun i => by
    rw [List.filter_cons_of_pos (by decide), filter_item]
  simp only [tail, List.filter_append, filter_blanks, List.filter_flatMap, hi, unsplit, attrs,
    List.flatMap_map]
  rfl

theorem splitOn_head (h : '=' ∉ l.pattern) :
    l.head.splitOn '=' = [keyword ++ blanks l.pre, blanks l.mid ++ '"' :: l.pattern] := by
  have hb := not_mem_blanks (c := '=') (by decide)
  have hs : '=' ∉ keyword ++ blanks l.pre := by simp [hb, keyword]
  have ht : '=' ∉ blanks l.mid ++ '"' :: l.pattern := by simp [hb, h]
  rw [head, List.append_assoc, List.cons_append, List.splitOn_append_cons_self_of_not_mem hs,
    List.splitOn_eq_singleton ht]

theorem splitOn_head_of_mem (h : '=' ∈ l.pattern) :
    ∃ a b c ds, l.head.splitOn '=' = a :: b :: c :: ds := by
  have hb := not_mem_blanks (c := '=') (by decide)
  have hs : '=' ∉ keyword ++ blanks l.pre := by simp [hb, keyword]
  obtain ⟨s, segs, he, hs', hsegs⟩ := exists_unsplit '=' (blanks l.mid ++ '"' :: l.pattern)
  rw [head, List.append_assoc, List.cons_append, List.splitOn_append_cons_self_of_not_mem hs, he,
    splitOn_unsplit hs' hsegs]
  cases segs
  case nil =>
    rw [unsplit_nil] at he
    exact absurd (he ▸ by simp [h]) hs'
  case cons => exact ⟨_, _, _, _, rfl⟩

theorem rfind?_text (l : DescLine) : rfind? ['"'] l.text = some l.head.length := by
  rw [text_eq, rfind?_singleton_append _ _ l.quote_not_mem_tail]

theorem take_text (l : DescLine) : l.text.take l.head.length = l.head := by
  simp [text_eq]

theorem drop_text (l : DescLine) : l.text.drop (l.head.length + 1) = l.tail := by
  simp [text_eq, List.drop_append]

theorem text_not_skipped (l : DescLine) : ¬(l.text = ['\n'] ∨ l.text.head? = some '#') := by
  simp [text, keyword]

theorem parsePatternDescLine_text_of_mem (h : '=' ∈ l.pattern) :
    parsePatternDescLine l.text = .error .valueError := by
  have ⟨a, b, c, ds, hs⟩ := splitOn_head_of_mem h
  simp only [parsePatternDescLine, if_neg l.text_not_skipped, rfind?_text, take_text, hs]

-- The pieces in which the parser looks for the attributes.
def sublines (attrs : List Attr) : List Str :=
  (unsplit ',' [] (attrs.map (·.text)) ++ ['\n']).splitOn ','

-- What the parser makes of a line whose pattern contains no equals signs.
theorem parsePatternDescLine_text (h : '=' ∉ l.pattern) :
    parsePatternDescLine l.text = (do
      let a ← (sublines l.attrs).foldlM parseAttribute {}
      return if l.pattern = [] then none else some { a with pattern := .str l.pattern }) := by
  have hq : find? ['"'] (blanks l.mid ++ '"' :: l.pattern) = some (blanks l.mid).length :=
    find?_singleton_append _ _ <| not_mem_blanks (by decide) _
  have hd : (blanks l.mid ++ '"' :: l.pattern).drop ((blanks l.mid).length + 1) = l.pattern := by
    simp [List.drop_append]
  have hk : lower ((keyword ++ blanks l.pre).take 7) = "pattern".toList := rfl
  simp only [parsePatternDescLine, if_neg l.text_not_skipped, rfind?_text, take_text, drop_text,
    splitOn_head h, hk, ne_eq, not_true, if_false, hq, Option.elim_some, hd,
    replace_singleton_nil, filter_tail, sublines]
  by_cases hp : l.pattern = [] <;> simp [hp]

theorem nodup_attrs (l : DescLine) : (l.attrs.map (·.key)).Nodup := by
  simpa [attrs, Function.comp_def] using l.nodup

-- Without attributes, the parser takes the line feed for one.
theorem foldlM_sublines_nil : (sublines []).foldlM parseAttribute {} = .error .valueError :=
  rfl

theorem foldlM_sublines_append {attrs : List Attr} {x : Attr}
    (h : ((attrs ++ [x]).map (·.key)).Nodup) :
    (sublines (attrs ++ [x])).foldlM parseAttribute {} =
      if attrs.any (·.isDigitColor) then .error .valueError
      else .ok (x.setLast <| written attrs) := by
  have hn : ∀ x : Attr, ',' ∉ x.text := fun x => x.special_not_mem_text (by decide) (by decide)
  have hu : unsplit ',' [] ((attrs ++ [x]).map (·.text)) ++ ['\n'] =
      unsplit ',' [] (attrs.map (·.text) ++ [x.text ++ ['\n']]) := by
    simp [unsplit]
  have hs : ∀ t ∈ attrs.map (·.text) ++ [x.text ++ ['\n']], ',' ∉ t := by
    simp only [List.mem_append, List.mem_map, List.mem_singleton]
    rintro t (⟨y, _, rfl⟩ | rfl)
    · exact hn y
    · simp [hn x]
  rw [List.map_append, List.nodup_append] at h
  rw [sublines, hu, splitOn_unsplit (by simp) hs, List.foldlM_cons]
  change List.foldlM parseAttribute {} _ = _
  rw [List.foldlM_append, foldlM_parseAttribute h.left]
  cases attrs.any (·.isDigitColor)
  case true  => rfl
  case false => exact bind_pure _ |>.trans <| parseAttribute_text_newline _ x

theorem parsePatternDescLine_eq_call_iff (l : DescLine) :
    parsePatternDescLine l.text = .ok (some l.call) ↔ l.Readable := by
  by_cases he : '=' ∈ l.pattern
  case pos =>
    rw [parsePatternDescLine_text_of_mem he]
    exact iff_of_false nofun fun h => h.right.left he
  case neg =>
    have hn := l.nodup_attrs
    rw [parsePatternDescLine_text he, Readable, call]
    generalize l.attrs = attrs at hn ⊢
    cases attrs using List.reverseRecOn
    case nil =>
      rw [foldlM_sublines_nil]
      exact iff_of_false nofun (by simp)
    case append_singleton attrs x _ =>
      have hx : x.key ∉ attrs.map (·.key) := by
        rw [List.map_append, List.nodup_append] at hn
        exact fun hm => hn.right.right _ hm x.key (by simp) rfl
      rw [foldlM_sublines_append hn, written_append_singleton hx]
      have hl : (∃ y ∈ (attrs ++ [x]).getLast?, y.isFlagToTheEnd) ↔ x.isFlagToTheEnd := by simp
      rw [hl, List.forall_mem_append, List.forall_mem_singleton]
      cases ha : attrs.any (·.isDigitColor)
      case true =>
        have ⟨y, hm, hy⟩ := List.any_eq_true.mp ha
        exact iff_of_false nofun fun h => h.right.right.left.left y hm hy
      case false =>
        have ha : ∀ y ∈ attrs, ¬y.isDigitColor := by simpa using ha
        have hi := and_iff_right_of_imp (b := x.isFlagToTheEnd) x.not_isDigitColor_of_isFlagToTheEnd
        rw [and_iff_right he, and_iff_right ha, hi, ← setLast_eq_set_iff hx]
        change Except.ok (if l.pattern = [] then none else some _) = _ ↔ _
        by_cases hp : l.pattern = [] <;> simp [hp]

end DescLine

theorem parsePatternDescLines_length_le (ls : List Str) :
    (parsePatternDescLines ls).1.length ≤ ls.length := by
  induction ls
  case nil => exact Nat.le_refl _
  case cons l ls hi =>
    simp only [parsePatternDescLines]
    split
    case _ => exact Nat.zero_le _
    case _ call _ =>
      cases call
      case none => exact Nat.le_succ_of_le hi
      case some => exact Nat.succ_le_succ hi

theorem parsePatternDescLines_eq_iff (ls : List DescLine) :
    parsePatternDescLines (ls.map DescLine.text) = (ls.map DescLine.call, none) ↔
      ∀ l ∈ ls, l.Readable := by
  induction ls
  case nil => simp [parsePatternDescLines]
  case cons l ls hi =>
    rw [List.forall_mem_cons, ← hi, ← l.parsePatternDescLine_eq_call_iff, List.map_cons,
      parsePatternDescLines]
    cases parsePatternDescLine l.text
    case error => simp
    case ok call =>
      cases call
      case some call => simp [Prod.ext_iff, and_assoc]
      case none =>
        -- A line without a call can't be made up for by the ones behind it.
        have hl := parsePatternDescLines_length_le <| ls.map DescLine.text
        refine iff_of_false (fun h => ?_) (by simp)
        have h := congrArg (·.1.length) h
        simp at h hl
        omega

theorem lines_flatMap_text (ls : List DescLine) :
    lines (ls.flatMap DescLine.text) = ls.map DescLine.text := by
  induction ls
  case nil          => rfl
  case cons l ls hi => rw [List.flatMap_cons, l.lines_text_append, hi, List.map_cons]

-- The parser recovers what was written if and only if it is able to read every line.
theorem parsePatternDescFile_eq_iff (ls : List DescLine) :
    parsePatternDescFile (ls.flatMap DescLine.text) = (ls.map DescLine.call, none) ↔
      ∀ l ∈ ls, l.Readable := by
  rw [parsePatternDescFile, lines_flatMap_text, parsePatternDescLines_eq_iff]

def exampleLine : DescLine where
  pattern := "error:".toList
  items   := [
    ⟨.color .fg <| .name ⟨3, by decide⟩ "YELLOW".toList rfl, 0, 0, 0, 0⟩,
    ⟨.color .bg <| .name ⟨1, by decide⟩ "RED".toList rfl, 0, 0, 0, 0⟩,
    ⟨.flag .bo <| .word true "true".toList rfl, 0, 0, 0, 0⟩
  ]
  pre  := 0
  mid  := 0
  post := 0
  newline_not_mem := by decide
  nodup := by decide

-- The parser does not recognize the last value of this line, which is one of the sample file.
theorem parsePatternDescFile_ne :
    [exampleLine].flatMap DescLine.text =
        "pattern=\"error:\",fg=YELLOW,bg=RED,bo=true\n".toList ∧
      ¬parsePatternDescFile ([exampleLine].flatMap DescLine.text) =
        ([exampleLine].map DescLine.call, none) := by
  decide

end Logviewer
