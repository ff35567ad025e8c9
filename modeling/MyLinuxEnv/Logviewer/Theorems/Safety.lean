import Mathlib.Data.List.ReduceOption
import MyLinuxEnv.Logviewer.Theorems.ColorTest
import MyLinuxEnv.Logviewer.Theorems.Malformed
import MyLinuxEnv.Logviewer.Theorems.PatternTable

open Text

namespace Logviewer

section Summary

variable {c : Call} {e : Entry} {table : List Entry} {calls : List Call}

-- There is a name for each of the colors.
structure Attributes.InRange (a : Attributes) : Prop where
  fg : ∀ n, a.fg = some n → n ≤ 7
  bg : ∀ n, a.bg = some n → n ≤ 7

-- The place in a table that a call takes, which is behind all entries if none of them competes.
def slot (table : List Entry) (c : Call) : Nat :=
  table.findIdx (compete ·.pattern c.pattern)

-- The calls together with the places they take.
def placedFrom (table : List Entry) : List Call → List (Nat × Call)
  | []      => []
  | c :: cs => (slot table c, c) :: placedFrom (insertPatternIntoTable c table) cs

def placed (calls : List Call) : List (Nat × Call) :=
  placedFrom [] calls

-- A call which is made for an argument.
def Given (args : List Str) (c : Call) : Prop :=
  ∃ arg ∈ args, parsePatternArguement (some arg) = .ok (some c)

-- If the colors of an argument are out of range, then its place is taken again later on.
def Covered (args : List Str) (calls : List Call) : Prop :=
  ∀ pre x post, placed calls = pre ++ x :: post → Given args x.2 → ¬x.2.InRange →
    ∃ y ∈ post, y.1 = x.1

theorem getElem?_insert (i : Nat) : (insertPatternIntoTable c table)[i]? =
    if i = slot table c then some c.entry else table[i]? := by
  induction table generalizing i
  case nil => cases i <;> simp [insertPatternIntoTable, slot]
  case cons e es hi =>
    by_cases h : compete e.pattern c.pattern
    case pos =>
      have hs : slot (e :: es) c = 0 := by simp [slot, List.findIdx_cons, h]
      cases i <;> simp [insertPatternIntoTable, hs, h]
    case neg =>
      have hs : slot (e :: es) c = slot es c + 1 := by simp [slot, List.findIdx_cons, h]
      cases i
      case zero   => simp [insertPatternIntoTable, hs, h]
      case succ i => simpa [insertPatternIntoTable, hs, h] using hi i

theorem placed_concat (calls : List Call) (c : Call) :
    placed (calls ++ [c]) = placed calls ++ [(slot (patternTable calls) c, c)] := by
  have hp (table : List Entry) : placedFrom table (calls ++ [c]) = placedFrom table calls ++
      [(slot (calls.foldl (fun table c => insertPatternIntoTable c table) table) c, c)] := by
    induction calls generalizing table
    case nil => rfl
    case cons c' calls hi => simp [placedFrom, hi]
  exact hp []

-- An entry is due to the last call that took its place.
theorem getElem?_patternTable (calls : List Call) (i : Nat) :
    (patternTable calls)[i]? = ((placed calls).filter (·.1 = i)).getLast?.map (·.2.entry) := by
  induction calls using List.reverseRecOn
  case nil => rfl
  case append_singleton calls c hi =>
    rw [patternTable_concat, getElem?_insert, hi, placed_concat, List.filter_append]
    split
    case isTrue h  => simp [h]
    case isFalse h => simp [Ne.symm h]

theorem mem_of_mem_placed {x : Nat × Call} (h : x ∈ placed calls) : x.2 ∈ calls := by
  induction calls using List.reverseRecOn
  case nil => contradiction
  case append_singleton calls c hi =>
    rw [placed_concat] at h
    cases List.mem_append.mp h
    case inl h => exact List.mem_append_left _ <| hi h
    case inr h =>
      cases List.mem_singleton.mp h
      exact List.mem_append_right _ <| List.mem_singleton_self c

theorem forall_inRange_iff {args : List Str} (hc : ∀ c ∈ calls, c.InRange ∨ Given args c) :
    (∀ e ∈ patternTable calls, e.InRange) ↔ Covered args calls := by
  constructor
  case mp =>
    intro h pre x post hs _ hx
    by_contra hn
    have hf : (placed calls).filter (·.1 = x.1) = pre.filter (·.1 = x.1) ++ [x] := by
      have hp : post.filter (·.1 = x.1) = [] :=
        List.filter_eq_nil_iff.mpr fun y hy he => hn ⟨y, hy, of_decide_eq_true he⟩
      rw [hs, List.filter_append, List.filter_cons_of_pos (by simp), hp]
    have hm := getElem?_patternTable calls x.1
    rw [hf, List.getLast?_concat] at hm
    exact hx <| h _ <| List.mem_of_getElem? hm
  case mpr =>
    intro h e he
    obtain ⟨i, hi⟩ := List.getElem?_of_mem he
    rw [getElem?_patternTable, Option.map_eq_some_iff] at hi
    obtain ⟨x, hx, rfl⟩ := hi
    obtain ⟨ys, hf⟩ := List.getLast?_eq_some_iff.mp hx
    obtain ⟨pre, rest, hs, _, hf⟩ := List.filter_eq_append_iff.mp hf
    obtain ⟨mid, post, rfl, _, hi, hf⟩ := List.filter_eq_cons_iff.mp hf
    have hm : x.2 ∈ calls := mem_of_mem_placed <| by simp [hs]
    by_contra hr
    obtain ⟨y, hy, he⟩ := h (pre ++ mid) x post (by simp [hs]) ((hc _ hm).resolve_left hr) hr
    exact List.filter_eq_nil_iff.mp hf y hy <| by simpa [he] using hi

theorem summaryLine_ok_iff : (∃ r, summaryLine e = .ok r) ↔ e.InRange := by
  have hn {color : Option Nat} : (∃ s, color.elim (.ok "None".toList) colorName = .ok s) ↔
      ∀ n, color = some n → n ≤ 7 := by
    cases color
    case none   => exact iff_of_true ⟨_, rfl⟩ nofun
    case some n => simp [colorName_ok_iff]
  simp only [summaryLine, bind_eq_ok_iff]
  constructor
  case mp =>
    intro ⟨_, s, hs, s', hs', _⟩
    exact ⟨hn.mp ⟨s, hs⟩, hn.mp ⟨s', hs'⟩⟩
  case mpr =>
    intro ⟨hf, hb⟩
    have ⟨s, hs⟩ := hn.mpr hf
    have ⟨s', hs'⟩ := hn.mpr hb
    exact ⟨(s, s'), s, hs, s', hs', rfl⟩

theorem summary_ok_iff : (∃ r, summary table = .ok r) ↔ ∀ e ∈ table, e.InRange := by
  induction table
  case nil => exact iff_of_true ⟨[], rfl⟩ (by simp)
  case cons e table hi =>
    rw [List.forall_mem_cons, ← hi, ← summaryLine_ok_iff]
    simp only [summary, List.mapM_cons, bind_eq_ok_iff]
    constructor
    case mp  => exact fun ⟨_, l, hl, ls, hls, _⟩ => ⟨⟨l, hl⟩, ls, hls⟩
    case mpr => exact fun ⟨⟨l, hl⟩, ls, hls⟩ => ⟨l :: ls, l, hl, ls, hls, rfl⟩

end Summary

section Files

variable {a a' : Attributes} {old new : Option Nat} {value s line : Str} {c : Call}

theorem color_le (hold : ∀ n, old = some n → n ≤ 7) (h : color old value = .ok new) :
    ∀ n, new = some n → n ≤ 7 := by
  have hv : upper value ∉ colorValue := color_ok_iff.mp ⟨new, h⟩
  have hl : ∀ u ∈ colorString, ∃ n ≤ 7, ∃ v,
      mapColorFromString.lookup u = some v ∧ int v = .ok n := by
    simp only [colorString, List.forall_mem_cons]
    exact ⟨⟨0, by decide, _, rfl, rfl⟩, ⟨1, by decide, _, rfl, rfl⟩, ⟨2, by decide, _, rfl, rfl⟩,
      ⟨3, by decide, _, rfl, rfl⟩, ⟨4, by decide, _, rfl, rfl⟩, ⟨5, by decide, _, rfl, rfl⟩,
      ⟨6, by decide, _, rfl, rfl⟩, ⟨7, by decide, _, rfl, rfl⟩, List.forall_mem_nil _⟩
  simp only [color, hv, if_false] at h
  split at h
  case isFalse =>
    cases h
    exact hold
  case isTrue hs =>
    obtain ⟨n, hn, v, hlv, hi⟩ := hl _ hs
    simp only [hlv, hi] at h
    cases h
    rintro _ ⟨⟩
    exact hn

theorem parseAttribute_inRange (ha : a.InRange) (h : parseAttribute a s = .ok a') : a'.InRange := by
  simp only [parseAttribute] at h
  split at h
  case isTrue =>
    cases h
    exact ha
  case isFalse =>
    split at h
    case h_2 => contradiction
    case h_1 =>
      -- The foreground is looked up or kept, and so is the background.
      split at h
      all_goals
        obtain ⟨fg, hf, h⟩ := bind_eq_ok_iff.mp h
        have hf : ∀ n, fg = some n → n ≤ 7 := by
          first
          | exact color_le ha.fg hf
          | exact Except.ok.inj hf ▸ ha.fg
        split at h
        case isTrue =>
          obtain ⟨bg, hb, h⟩ := bind_eq_ok_iff.mp h
          cases h
          exact ⟨hf, color_le ha.bg hb⟩
        case isFalse =>
          obtain ⟨b, _, h⟩ := bind_eq_ok_iff.mp h
          cases h
          repeat' split
          all_goals exact ⟨hf, ha.bg⟩

theorem foldlM_parseAttribute_inRange {l : List Str} (ha : a.InRange)
    (h : l.foldlM parseAttribute a = .ok a') : a'.InRange := by
  induction l generalizing a
  case nil => cases h; exact ha
  case cons s l hi =>
    have ⟨_, hs, h⟩ := bind_eq_ok_iff.mp h
    exact hi (parseAttribute_inRange ha hs) h

theorem parsePatternDescLine_inRange (h : parsePatternDescLine line = .ok (some c)) :
    c.InRange := by
  by_cases hs : Skipped line
  case pos =>
    rw [parsePatternDescLine_of_skipped hs] at h
    cases h
  case neg =>
    have ⟨head, tail, he, ht⟩ := exists_quote <| by_contra fun hq => hs (.inr <| .inr hq)
    subst he
    rw [parsePatternDescLine_of_quote ht hs] at h
    split at h
    case h_2 => contradiction
    case h_1 =>
      split at h
      case isTrue => cases h
      case isFalse =>
        have ⟨a, ha, h⟩ := bind_eq_ok_iff.mp h
        have ha : a.InRange := foldlM_parseAttribute_inRange ⟨by simp, by simp⟩ ha
        split at h
        case isTrue  => cases h
        case isFalse => cases h; exact ⟨ha.fg, ha.bg⟩

theorem parsePatternDescFile_inRange {file : Str} (h : c ∈ (parsePatternDescFile file).1) :
    c.InRange := by
  rw [parsePatternDescFile] at h
  generalize lines file = ls at h
  induction ls
  case nil => simp [parsePatternDescLines] at h
  case cons line ls hi =>
    simp only [parsePatternDescLines] at h
    split at h
    case h_1 => contradiction
    case h_2 call hc =>
      cases List.mem_append.mp h
      case inr h => exact hi h
      case inl h => exact parsePatternDescLine_inRange <| Option.mem_toList.mp h ▸ hc

end Files

section Main

variable {files : Str → Option Str} {o : Options} {cs : List Call} {c : Call}

-- No lookup of a color fails, and neither does the conversion of an answer.
def Outcome.Safe : Outcome → Prop
  | exits     => True
  | raises _  => True
  | test r    => ∃ t, r = .ok t
  | summary r => ∃ lines, r = .ok lines

-- The answers and the arguments from which nothing fails.
def Benign (files : Str → Option Str) (answers : List Answer) (argv : List Str) : Prop :=
  match parseArgs {} none argv with
  | .test      => ∀ x ∈ asked .item answers, Acceptable x
  | .options o => ∀ cs, calls files o = .ok cs → Covered o.patterns cs
  | _          => True

theorem mapError_eq_ok_iff {α β γ : Type} {x : Except α γ} {f : α → β} {r : γ} :
    x.mapError f = .ok r ↔ x = .ok r := by
  cases x
  case error => exact iff_of_false nofun nofun
  case ok    => exact ⟨fun h => by cases h; rfl, fun h => by cases h; rfl⟩

-- Only arguments may have colors which are out of range.
theorem inRange_or_given (h : calls files o = .ok cs) :
    ∀ c ∈ cs, c.InRange ∨ Given o.patterns c := by
  have hrest {first : List Call} (hf : ∀ c ∈ first, c.InRange)
      (h : (do return first ++ (← o.patterns.mapM (parsePatternArguement <| some ·)
        |>.mapError some).reduceOption) = .ok cs) :
      ∀ c ∈ cs, c.InRange ∨ Given o.patterns c := by
    obtain ⟨rest, hm, h⟩ := bind_eq_ok_iff.mp h
    cases h
    intro c hc
    cases List.mem_append.mp hc
    case inl hc => exact .inl <| hf c hc
    case inr hc =>
      exact .inr <| exists_of_mem_mapM (mapError_eq_ok_iff.mp hm) <| List.reduceOption_mem_iff.mp hc
  simp only [calls] at h
  split at h
  case h_1 =>
    obtain ⟨first, hf, h⟩ := bind_eq_ok_iff.mp h
    have hd : ∃ c, parsePatternArguement (some defaultPattern) = .ok (some c) ∧ c.InRange :=
      ⟨⟨⟨some 1, some 3, true, true, false, false⟩, .str "error:".toList⟩, by decide +kernel,
        by simp, by simp⟩
    obtain ⟨c, hd, hr⟩ := hd
    rw [hd] at hf
    cases hf
    exact hrest (fun _ hc => List.mem_singleton.mp hc ▸ hr) h
  case h_2 =>
    split at h
    case h_1 => contradiction
    case h_2 file _ =>
      split at h
      case h_2 => contradiction
      case h_1 cs' hp =>
        refine hrest (fun c hc => ?_) h
        have hc : c ∈ (parsePatternDescFile file).1 := by simpa [hp] using hc
        exact parsePatternDescFile_inRange hc

theorem main_safe_iff (files : Str → Option Str) (answers : List Answer) (argv : List Str) :
    (main files answers argv).Safe ↔ Benign files answers argv := by
  by_cases ha : argv = []
  case pos =>
    refine iff_of_true (by simp [main, ha, Outcome.Safe]) ?_
    simp only [Benign, ha, parseArgs]
    exact fun _ _ _ _ _ _ ⟨_, hm, _⟩ => nomatch hm
  case neg =>
    simp only [main, Benign, if_neg ha]
    cases parseArgs {} none argv
    case exits    => exact Iff.rfl
    case raises e => exact Iff.rfl
    case test =>
      have hd : ColorTest.InRange {} := ⟨by decide, by decide⟩
      have ht : doColorTest answers = ColorTest.answers {} answers := by
        simp only [doColorTest, display_of_inRange hd]
        rfl
      simpa [Outcome.Safe, ht] using answers_ok_iff hd
    case options o =>
      dsimp only
      cases hc : calls files o
      case error e =>
        cases e
        case none   => exact iff_of_true trivial nofun
        case some e => exact iff_of_true trivial nofun
      case ok cs =>
        simp [Outcome.Safe, summary_ok_iff, forall_inRange_iff (inRange_or_given hc)]

-- The digits 8 and 9 are read as colors, and whatever begins with a digit is converted.
theorem not_main_safe :
    ¬(main (fun _ => none) [] ["a:8".toList]).Safe ∧
    ¬(main (fun _ => none) [.line ['1'], .line ['8']] ["-t".toList]).Safe ∧
    ¬(main (fun _ => none) [.line ['1'], .line ['1', 'x']] ["-t".toList]).Safe := by
  have ha : main (fun _ => none) [] ["a:8".toList] = .summary (.error .indexError) := by
    rfl
  have ht : main (fun _ => none) [.line ['1'], .line ['8']] ["-t".toList] =
      .test (.error .indexError) := by
    rfl
  have hx : main (fun _ => none) [.line ['1'], .line ['1', 'x']] ["-t".toList] =
      .test (.error .valueError) := by
    rfl
  rw [ha, ht, hx]
  exact ⟨nofun, nofun, nofun⟩

end Main

end Logviewer
