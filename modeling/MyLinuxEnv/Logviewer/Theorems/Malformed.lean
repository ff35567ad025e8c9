import MyLinuxEnv.Logviewer.Syntax

open Text

namespace Logviewer

-- The lines which have the documented form. The last line of a file may lack its line feed.
def Documented (line : Str) : Prop :=
  ∃ l : DescLine, line = l.text ∨ line ++ ['\n'] = l.text

open Classical in
-- The file without the lines that do not have the documented form.
noncomputable def documentedPart (file : Str) : Str :=
  (lines file).filter Documented |>.flatten

-- The lines which are skipped unread.
def Skipped (line : Str) : Prop :=
  line = ['\n'] ∨ line.head? = some '#' ∨ '"' ∉ line

-- An attribute that can be read: a key and a value, which is not a digit in the case of a color,
-- and not empty unless it is the background color.
def ReadableAttribute (s : Str) : Prop :=
  ∃ key value, s.splitOn '=' = [key, value] ∧
    (lower (key.take 2) = "fg".toList ∨ lower (key.take 2) = "bg".toList →
      upper value ∉ colorValue) ∧
    (lower (key.take 2) ≠ "bg".toList → value ≠ [])

-- What is written after the first quote.
def unquoted (s : Str) : Str :=
  s.drop <| (find? ['"'] s).elim 0 (· + 1)

-- The lines that are either read or skipped, where only documented ones contain a pattern.
def Harmless (line : Str) : Prop :=
  Skipped line ∨
    ∃ head tail key value, line = head ++ '"' :: tail ∧ '"' ∉ tail ∧
      head.splitOn '=' = [key, value] ∧
      (lower (key.take 7) = "pattern".toList →
        (∀ s ∈ (replace [' '] [] tail).splitOn ',', s ≠ [] → ReadableAttribute s) ∧
        (unquoted value = [] ∨ Documented line))

section Attributes

variable {a : Attributes} {s key value : Str} {old : Option Nat}

theorem color_ok_iff : (∃ new, color old value = .ok new) ↔ upper value ∉ colorValue := by
  have hne {x : Except Exn (Option Nat)} (h : x = .error .valueError) : ¬∃ new, x = .ok new :=
    fun ⟨_, ho⟩ => nomatch h.symm.trans ho
  simp only [color]
  generalize upper value = u
  by_cases hv : u ∈ colorValue
  case pos =>
    -- The map of the digits leads to names, which are no numbers.
    refine iff_of_false ?_ (not_not_intro hv)
    revert u
    simp only [colorValue, List.forall_mem_cons]
    exact ⟨hne rfl, hne rfl, hne rfl, hne rfl, hne rfl, hne rfl, hne rfl, hne rfl, nofun⟩
  case neg =>
    refine iff_of_true ?_ hv
    by_cases hs : u ∈ colorString
    case neg => simpa [hs, hv] using ⟨old, rfl⟩
    case pos =>
      clear hv
      revert u
      simp only [colorString, List.forall_mem_cons]
      exact ⟨⟨_, rfl⟩, ⟨_, rfl⟩, ⟨_, rfl⟩, ⟨_, rfl⟩, ⟨_, rfl⟩, ⟨_, rfl⟩, ⟨_, rfl⟩, ⟨_, rfl⟩, nofun⟩

theorem flag_ok_iff : (∃ b, flag value = .ok b) ↔ value ≠ [] := by
  cases value
  case nil => exact iff_of_false (fun ⟨_, h⟩ => nomatch h) (by simp)
  case cons c s =>
    simp only [flag]
    split
    case isTrue  => exact iff_of_true ⟨_, rfl⟩ (by simp)
    case isFalse => exact iff_of_true ⟨_, rfl⟩ (by simp)

theorem parseAttribute_pair_ok_iff (hn : s ≠ []) (hs : s.splitOn '=' = [key, value]) :
    (∃ a', parseAttribute a s = .ok a') ↔
      (lower (key.take 2) = "fg".toList ∨ lower (key.take 2) = "bg".toList →
        upper value ∉ colorValue) ∧ (lower (key.take 2) ≠ "bg".toList → value ≠ []) := by
  -- What becomes of the values does not matter.
  have hbind {β : Type} {x : Except Exn β} {f : β → Attributes} :
      (∃ a', (do return f (← x)) = .ok a') ↔ ∃ b, x = .ok b :=
    ⟨fun ⟨_, h⟩ => have ⟨b, h, _⟩ := bind_eq_ok_iff.mp h; ⟨b, h⟩,
      fun ⟨b, h⟩ => ⟨f b, bind_eq_ok_iff.mpr ⟨b, h, rfl⟩⟩⟩
  simp only [parseAttribute, if_neg hn, hs]
  by_cases hb : lower (key.take 2) = "bg".toList
  case pos =>
    have hf : lower (key.take 2) ≠ "fg".toList := hb ▸ by decide
    simp only [if_neg hf, if_pos hb, pure_bind, hbind, color_ok_iff]
    exact ⟨fun h => ⟨fun _ => h, (absurd hb ·)⟩, fun ⟨h, _⟩ => h (.inr hb)⟩
  case neg =>
    by_cases hf : lower (key.take 2) = "fg".toList
    case pos =>
      simp only [if_pos hf, if_neg hb]
      refine ⟨fun ⟨a', h⟩ => ?_, fun ⟨hc, hv⟩ => ?_⟩
      case refine_1 =>
        have ⟨fg, hc, h⟩ := bind_eq_ok_iff.mp h
        exact ⟨fun _ => color_ok_iff.mp ⟨fg, hc⟩, fun _ => flag_ok_iff.mp <| hbind.mp ⟨a', h⟩⟩
      case refine_2 =>
        have ⟨fg, hc⟩ : ∃ fg, color a.fg value = .ok fg := color_ok_iff.mpr <| hc <| .inl hf
        have ⟨b, hv⟩ := flag_ok_iff.mpr <| hv hb
        exact ⟨_, bind_eq_ok_iff.mpr ⟨fg, hc, bind_eq_ok_iff.mpr ⟨b, hv, rfl⟩⟩⟩
    case neg =>
      simp only [if_neg hf, if_neg hb, pure_bind, hbind, flag_ok_iff]
      exact ⟨fun h => ⟨fun hk => (hk.elim hf hb).elim, fun _ => h⟩, fun ⟨_, h⟩ => h hb⟩

theorem parseAttribute_ok_iff (hn : s ≠ []) :
    (∃ a', parseAttribute a s = .ok a') ↔ ReadableAttribute s := by
  constructor
  case mp =>
    intro h
    have h' := h
    obtain ⟨a', h⟩ := h
    simp only [parseAttribute, hn, if_false] at h
    split at h
    case _ key value hs => exact ⟨key, value, hs, (parseAttribute_pair_ok_iff hn hs).mp h'⟩
    case _ => contradiction
  case mpr =>
    intro ⟨key, value, hs, h⟩
    exact (parseAttribute_pair_ok_iff hn hs).mpr h

theorem foldlM_parseAttribute_ok_iff (a : Attributes) (l : List Str) :
    (∃ a', l.foldlM parseAttribute a = .ok a') ↔ ∀ s ∈ l, s ≠ [] → ReadableAttribute s := by
  refine foldlM_ok_iff (fun a s => ?_) a l
  by_cases hn : s = []
  case pos => exact iff_of_true ⟨a, by simp [parseAttribute, hn]; rfl⟩ (absurd hn ·)
  case neg => rw [parseAttribute_ok_iff hn, forall_prop_of_true hn]

end Attributes

section Line

variable {line head tail key value : Str}

theorem parsePatternDescLine_of_skipped (h : Skipped line) :
    parsePatternDescLine line = .ok none := by
  simp only [parsePatternDescLine]
  split
  case isTrue => rfl
  case isFalse hn =>
    have hq : '"' ∉ line := by
      rcases h with h | h | h
      · exact absurd (.inl h) hn
      · exact absurd (.inr h) hn
      · exact h
    rw [rfind?_singleton_of_not_mem hq]
    rfl

-- The text in front of the last quote and the text behind it.
theorem exists_quote (hq : '"' ∈ line) : ∃ head tail, line = head ++ '"' :: tail ∧ '"' ∉ tail := by
  obtain ⟨tail, head, hl, ht⟩ := List.eq_append_cons_of_mem <| List.mem_reverse.mpr hq
  refine ⟨head.reverse, tail.reverse, ?_, mt List.mem_reverse.mp ht⟩
  rw [← List.reverse_reverse line, hl]
  simp

theorem parsePatternDescLine_of_quote (ht : '"' ∉ tail) (hs : ¬Skipped (head ++ '"' :: tail)) :
    parsePatternDescLine (head ++ '"' :: tail) =
      match head.splitOn '=' with
      | [key, value] =>
        if lower (key.take 7) ≠ "pattern".toList then pure none else do
          let a ← ((replace [' '] [] tail).splitOn ',').foldlM parseAttribute {}
          return (if unquoted value = [] then none else some (.str <| unquoted value)).map
            fun pattern => { a with pattern }
      | _ => .error .valueError := by
  have hn : ¬(head ++ '"' :: tail = ['\n'] ∨ (head ++ '"' :: tail).head? = some '#') :=
    fun h => hs <| h.imp_right .inl
  have hd : (head ++ '"' :: tail).drop (head.length + 1) = tail := by simp [List.drop_append]
  rw [parsePatternDescLine, if_neg hn, rfind?_singleton_append head tail ht]
  simp only [List.take_left, hd]
  rfl

-- A line is harmless if it raises nothing, and if it has the documented form in case it inserts a
-- pattern.
theorem harmless_iff : Harmless line ↔
    ∃ call, parsePatternDescLine line = .ok call ∧ (call = none ∨ Documented line) := by
  by_cases hs : Skipped line
  case pos => exact iff_of_true (.inl hs) ⟨none, parsePatternDescLine_of_skipped hs, .inl rfl⟩
  case neg =>
    constructor
    case mp =>
      intro h
      obtain ⟨head, tail, key, value, hl, ht, hk, h⟩ := h.resolve_left hs
      subst hl
      simp only [parsePatternDescLine_of_quote ht hs, hk]
      by_cases hp : lower (key.take 7) = "pattern".toList
      case neg => exact ⟨none, if_pos hp, .inl rfl⟩
      case pos =>
        have ⟨ha, hd⟩ := h hp
        have ⟨a, ha⟩ := (foldlM_parseAttribute_ok_iff {} _).mpr ha
        refine ⟨_, (if_neg <| not_not_intro hp).trans <| bind_eq_ok_iff.mpr ⟨a, ha, rfl⟩, ?_⟩
        exact hd.imp_left fun hu => by rw [if_pos hu, Option.map_none]
    case mpr =>
      intro ⟨call, hc, hd⟩
      have hq : '"' ∈ line := not_not.mp fun hq => hs <| .inr <| .inr hq
      obtain ⟨head, tail, hl, ht⟩ := exists_quote hq
      subst hl
      rw [parsePatternDescLine_of_quote ht hs] at hc
      split at hc
      case _ key value hk =>
        refine .inr ⟨head, tail, key, value, rfl, ht, hk, fun hp => ?_⟩
        rw [if_neg <| not_not_intro hp] at hc
        obtain ⟨a, ha, hc⟩ := bind_eq_ok_iff.mp hc
        refine ⟨(foldlM_parseAttribute_ok_iff {} _).mp ⟨a, ha⟩, hd.imp_left fun hn => ?_⟩
        cases hc
        by_contra hu
        simp [hu] at hn
      case _ => contradiction

end Line

section File

variable {ls : List Str} {file : Str}

-- The call that a line leads to, if any.
def lineCalls (line : Str) : List Call :=
  match parsePatternDescLine line with
  | .ok call => call.toList
  | .error _ => []

theorem parsePatternDescLines_raises_iff :
    (parsePatternDescLines ls).2 = none ↔
      ∀ line ∈ ls, ∃ call, parsePatternDescLine line = .ok call := by
  induction ls
  case nil => simp [parsePatternDescLines]
  case cons line ls hi =>
    simp only [parsePatternDescLines, List.forall_mem_cons, ← hi]
    split
    case _ h => simp [h]
    case _ h => simp [h]

theorem parsePatternDescLines_calls (h : (parsePatternDescLines ls).2 = none) :
    (parsePatternDescLines ls).1 = ls.flatMap lineCalls := by
  induction ls
  case nil => rfl
  case cons line ls hi =>
    simp only [parsePatternDescLines] at h ⊢
    split at h
    case _ => contradiction
    case _ call hc => simp [lineCalls, hc, hi h]

-- Nothing is lost with the elements that contribute nothing, and something with all others.
theorem flatMap_filter_eq_iff {α β : Type} (p : α → Bool) (f : α → List β) (l : List α) :
    l.flatMap f = (l.filter p).flatMap f ↔ ∀ x ∈ l, f x = [] ∨ p x := by
  have hle (l : List α) : ((l.filter p).flatMap f).length ≤ (l.flatMap f).length := by
    induction l
    case nil => exact Nat.le_refl _
    case cons x l hi => cases hp : p x <;> simp [hp] <;> simp at hi <;> omega
  induction l
  case nil => simp
  case cons x l hi =>
    refine Iff.trans ?_ <| List.forall_mem_cons.trans (and_congr_right fun _ => hi.symm) |>.symm
    cases hp : p x
    case true => simp [hp]
    case false =>
      simp only [List.filter_cons_of_neg (Bool.eq_false_iff.mp hp), List.flatMap_cons, or_false,
        Bool.false_eq_true]
      refine ⟨fun h => ?_, fun ⟨hx, h⟩ => by rw [hx, List.nil_append, h]⟩
      have hx : f x = [] := by
        have h := congrArg List.length h
        have hl := hle l
        rw [List.length_append] at h
        exact List.length_eq_zero_iff.mp <| by omega
      exact ⟨hx, by simpa [hx] using h⟩

theorem lineCalls_eq_nil_iff {line : Str} {call : Option Call}
    (h : parsePatternDescLine line = .ok call) : lineCalls line = [] ↔ call = none := by
  simp [lineCalls, h]

-- The calls are those of the documented lines, and there is no exception, exactly if all lines are
-- harmless.
theorem parsePatternDescFile_iff (file : Str) :
    (parsePatternDescFile file).2 = none ∧
        (parsePatternDescFile file).1 = (parsePatternDescFile <| documentedPart file).1 ↔
      ∀ line ∈ lines file, Harmless line := by
  classical
  have hd : parsePatternDescFile (documentedPart file) =
      parsePatternDescLines ((lines file).filter Documented) := by
    rw [parsePatternDescFile, documentedPart, ((areLines_lines file).filter _).lines_flatten]
  rw [hd, parsePatternDescFile]
  generalize lines file = ls
  by_cases hr : (parsePatternDescLines ls).2 = none
  case neg =>
    refine iff_of_false (fun h => hr h.left) fun h => hr <| parsePatternDescLines_raises_iff.mpr ?_
    exact fun line hl => have ⟨call, hc, _⟩ := harmless_iff.mp <| h line hl; ⟨call, hc⟩
  case pos =>
    have hall := parsePatternDescLines_raises_iff.mp hr
    have hf : (parsePatternDescLines (ls.filter Documented)).2 = none :=
      parsePatternDescLines_raises_iff.mpr fun line hl => hall line <| List.mem_of_mem_filter hl
    rw [and_iff_right hr, parsePatternDescLines_calls hr, parsePatternDescLines_calls hf,
      flatMap_filter_eq_iff]
    refine forall₂_congr fun line hl => ?_
    have ⟨call, hc⟩ := hall line hl
    rw [harmless_iff, lineCalls_eq_nil_iff hc, decide_eq_true_eq]
    exact ⟨fun h => ⟨call, hc, h⟩, fun ⟨_, hc', h⟩ => by cases hc.symm.trans hc'; exact h⟩

-- A malformed attribute ends the loop, so that the documented line behind it is lost.
theorem parsePatternDescFile_raises :
    ¬∀ file : Str, (parsePatternDescFile file).2 = none ∧
      (parsePatternDescFile file).1 = (parsePatternDescFile <| documentedPart file).1 := by
  intro h
  have hn := h "pattern=\"a\",bold\npattern=\"b\",bo=1\n".toList |>.left
  exact absurd hn (by decide)

end File

end Logviewer
