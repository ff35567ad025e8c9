import MyLinuxEnv.Logviewer.Main

open Text

namespace Logviewer

section Decimal

-- The texts of the numbers from 0 to 7, and of all numbers, with blanks behind them.
def IsColor (c : Str) : Prop :=
  ∃ k s, ∃ n : Fin 8, c = List.replicate k '0' ++ Nat.digitChar n :: s ∧ ∀ x ∈ s, isSpace x

def IsDecimal (v : Str) : Prop :=
  ∃ ds s, v = ds ++ s ∧ ds ≠ [] ∧ (∀ d ∈ ds, d.isDigit) ∧ ∀ x ∈ s, isSpace x

variable {c s ds : Str} {d : Char} {n : Nat}

theorem isDigit_iff : d.isDigit ↔ 48 ≤ d.toNat ∧ d.toNat ≤ 57 := by
  simp only [Char.isDigit, ge_iff_le, Bool.and_eq_true, decide_eq_true_eq, UInt32.le_iff_toNat_le]
  exact Iff.rfl

theorem not_isSpace_of_isDigit (h : d.isDigit) : ¬isSpace d := by
  have h := isDigit_iff.mp h
  simp only [isSpace, Bool.or_eq_true, Bool.and_eq_true, decide_eq_true_eq]
  rintro (rfl | hs)
  case inl => exact absurd h.1 (by decide)
  case inr => omega

-- What is in the dictionary between two digits begins with a digit.
theorem exists_digit {b : Char} (hb : b.isDigit) (h : le ['0'] c) (h' : le c [b]) :
    ∃ d t, c = d :: t ∧ d.isDigit := by
  cases c
  case nil => contradiction
  case cons d t =>
    simp only [le, Bool.or_eq_true, Bool.and_eq_true, decide_eq_true_eq] at h h'
    have h₀ : 48 ≤ d.toNat := h.elim Nat.le_of_lt fun h => h.1 ▸ Nat.le_refl _
    have h₉ : d.toNat ≤ b.toNat := h'.elim Nat.le_of_lt fun h => h.1 ▸ Nat.le_refl _
    exact ⟨d, t, rfl, isDigit_iff.mpr ⟨h₀, Nat.le_trans h₉ (isDigit_iff.mp hb).2⟩⟩

theorem rdropWhile_append {p : Char → Bool} (hs : ∀ x ∈ s, p x) (hd : ∀ x ∈ ds, ¬p x) :
    (ds ++ s).rdropWhile p = ds := by
  rw [List.rdropWhile, List.reverse_append, List.dropWhile_append_of_pos (by simpa using hs)]
  cases hr : ds.reverse
  case nil => simpa using hr
  case cons d rs =>
    have hm : d ∈ ds := List.mem_reverse.mp <| hr ▸ List.mem_cons_self
    rw [List.dropWhile_cons_of_neg (hd d hm), ← hr, List.reverse_reverse]

theorem decimal_eq_ok_iff (h : ∃ d t, c = d :: t ∧ d.isDigit) : decimal c = .ok n ↔
    ∃ ds s, c = ds ++ s ∧ ds ≠ [] ∧ (∀ d ∈ ds, d.isDigit) ∧ (∀ x ∈ s, isSpace x) ∧
      n = Nat.ofDigitChars 10 ds 0 := by
  have hc : c.dropWhile isSpace = c := by
    obtain ⟨d, t, rfl, hd⟩ := h
    exact List.dropWhile_cons_of_neg <| not_isSpace_of_isDigit hd
  have hi {ds : Str} : int ds = .ok n ↔
      ds ≠ [] ∧ (∀ d ∈ ds, d.isDigit) ∧ n = Nat.ofDigitChars 10 ds 0 := by
    simp only [int]
    split
    case isTrue hd =>
      have hds : ∀ d ∈ ds, d.isDigit := List.all_eq_true.mp hd.2
      rw [Except.ok.injEq, eq_comm]
      exact ⟨fun h => ⟨hd.1, hds, h⟩, fun h => h.2.2⟩
    case isFalse hd =>
      exact ⟨nofun, fun h => absurd ⟨h.1, List.all_eq_true.mpr h.2.1⟩ hd⟩
  rw [decimal, hc, hi]
  constructor
  case mp =>
    intro hd
    exact ⟨c.rdropWhile isSpace, c.rtakeWhile isSpace, (List.rdropWhile_append_rtakeWhile ..).symm,
      hd.1, hd.2.1, fun x hx => List.mem_rtakeWhile_imp hx, hd.2.2⟩
  case mpr =>
    rintro ⟨ds, s, rfl, hn, hds, hs, rfl⟩
    rw [rdropWhile_append hs fun x hx => not_isSpace_of_isDigit (hds x hx)]
    exact ⟨hn, hds, rfl⟩

theorem ofDigitChars_concat (ds : Str) (d : Char) :
    Nat.ofDigitChars 10 (ds ++ [d]) 0 = 10 * Nat.ofDigitChars 10 ds 0 + (d.toNat - 48) := by
  rw [Nat.ofDigitChars_append, Nat.ofDigitChars_cons, Nat.ofDigitChars_nil]
  rfl

theorem eq_digitChar (hd : d.isDigit) (hn : d.toNat - 48 = n) : d = Nat.digitChar n := by
  have h := isDigit_iff.mp hd
  apply Char.toNat_inj.mp
  rw [Nat.toNat_digitChar_of_lt_ten (by omega)]
  omega

theorem ofDigitChars_eq_zero (hd : ∀ d ∈ ds, d.isDigit) (h : Nat.ofDigitChars 10 ds 0 = 0) :
    ds = List.replicate ds.length '0' := by
  refine List.eq_replicate_iff.mpr ⟨rfl, ?_⟩
  induction ds using List.reverseRecOn
  case nil => simp
  case append_singleton ds d hi =>
    have ⟨hds, hd⟩ := List.forall_mem_append.mp hd
    rw [ofDigitChars_concat] at h
    have h₀ : d = '0' := eq_digitChar (n := 0) (hd d <| List.mem_singleton_self d) (by omega)
    exact List.forall_mem_append.mpr ⟨hi hds (by omega), by simp [h₀]⟩

-- The value of some digits is that of a color, if all digits but the last one are zero.
theorem ofDigitChars_le_iff (hd : ∀ d ∈ ds, d.isDigit) (hn : ds ≠ []) :
    Nat.ofDigitChars 10 ds 0 ≤ 7 ↔
      ∃ k, ∃ n : Fin 8, ds = List.replicate k '0' ++ [Nat.digitChar n] := by
  obtain rfl | ⟨ds, d, rfl⟩ := List.eq_nil_or_concat' ds
  case inl => contradiction
  case inr =>
    have ⟨hds, hd⟩ := List.forall_mem_append.mp hd
    rw [ofDigitChars_concat]
    constructor
    case mp =>
      intro h
      have hz := ofDigitChars_eq_zero hds (by omega)
      refine ⟨ds.length, ⟨d.toNat - 48, by omega⟩, ?_⟩
      rw [← hz, ← eq_digitChar (hd d <| List.mem_singleton_self d) rfl]
    case mpr =>
      rintro ⟨k, n, h⟩
      have ⟨he, hn⟩ := List.append_inj' h rfl
      have hv : ∀ n : Fin 8, (Nat.digitChar n).toNat - 48 ≤ 7 := by decide
      rw [he, Nat.ofDigitChars_replicate_zero, List.singleton_inj.mp hn]
      simpa using hv n

theorem isDecimal_iff (h : ∃ d t, c = d :: t ∧ d.isDigit) :
    IsDecimal c ↔ ∃ n, decimal c = .ok n := by
  simp only [decimal_eq_ok_iff h]
  constructor
  case mp  => exact fun ⟨ds, s, he, hn, hds, hs⟩ => ⟨_, ds, s, he, hn, hds, hs, rfl⟩
  case mpr => exact fun ⟨_, ds, s, he, hn, hds, hs, _⟩ => ⟨ds, s, he, hn, hds, hs⟩

theorem isColor_iff (h : ∃ d t, c = d :: t ∧ d.isDigit) :
    IsColor c ↔ ∃ n, decimal c = .ok n ∧ n ≤ 7 := by
  simp only [decimal_eq_ok_iff h]
  constructor
  case mp =>
    rintro ⟨k, s, n, rfl, hs⟩
    have hdigit : ∀ n : Fin 8, (Nat.digitChar n).isDigit := by decide
    have hds : ∀ d ∈ List.replicate k '0' ++ [Nat.digitChar n], d.isDigit := by
      intro d hd
      cases List.mem_append.mp hd
      case inl hd => exact List.eq_of_mem_replicate hd ▸ rfl
      case inr hd => exact List.mem_singleton.mp hd ▸ hdigit n
    have hn : List.replicate k '0' ++ [Nat.digitChar n] ≠ [] := by simp
    refine ⟨_, ⟨_, s, by simp, hn, hds, hs, rfl⟩, ?_⟩
    exact (ofDigitChars_le_iff hds hn).mpr ⟨k, n, rfl⟩
  case mpr =>
    rintro ⟨_, ⟨ds, s, rfl, hn, hds, hs, rfl⟩, hle⟩
    have ⟨k, n, he⟩ := (ofDigitChars_le_iff hds hn).mp hle
    exact ⟨k, s, n, by simp [he], hs⟩

end Decimal

section ColorTest

theorem colorName_ok_iff {n : Nat} : (∃ s, colorName n = .ok s) ↔ n ≤ 7 := by
  have hl : n ≤ 7 ↔ n < colorString.length := Nat.lt_succ_iff.symm
  rw [hl]
  by_cases hn : n < colorString.length
  case pos => simp [colorName, hn]
  case neg => simp [colorName, hn]

-- What is asked for after an answer, unless that ends the test.
def Prompt.follow : Prompt → Answer → Option Prompt
  | .item, .interrupt => none
  | .item, .line s =>
    if s = ['1'] then some .fg
    else if s = ['2'] then some .bg
    else if s = ['3'] then some .br
    else if s = ['4'] then some .bo
    else if s = ['5'] then some .un
    else if s = ['6'] then some .re
    else some .item
  | _, _              => some .item

-- The answers together with the prompts at which they are given.
def asked (p : Prompt) : List Answer → List (Prompt × Answer)
  | []      => []
  | a :: as => (p, a) :: (p.follow a).elim [] (asked · as)

-- An answer that is taken for a color or a value has to be one.
def Acceptable : Prompt × Answer → Prop
  | (.fg, .line c) | (.bg, .line c)                                     =>
    le ['0'] c ∧ le c ['9'] → IsColor c
  | (.br, .line v) | (.bo, .line v) | (.un, .line v) | (.re, .line v) =>
    le ['0'] v ∧ le v ['1'] → IsDecimal v
  | _                                                                  => True

-- The colors can be displayed.
structure ColorTest.InRange (t : ColorTest) : Prop where
  fg : t.fg ≤ 7
  bg : t.bg ≤ 7

variable {t : ColorTest} {a : Answer} {color : Nat} {value : Bool}

theorem changeColor_ok_iff (h : color ≤ 7) : (∃ n, changeColor color a = .ok n ∧ n ≤ 7) ↔
    ∀ c, a = .line c → le ['0'] c ∧ le c ['9'] → IsColor c := by
  cases a
  case interrupt => simpa [changeColor] using h
  case line c =>
    simp only [changeColor, Answer.line.injEq, forall_eq']
    split
    case isFalse hc => simp [h, hc]
    case isTrue hc =>
      have hd := exists_digit (by decide) hc.1 hc.2
      rw [forall_prop_of_true hc, isColor_iff hd]

theorem changeValue_ok_iff : (∃ b, changeValue value a = .ok b) ↔
    ∀ v, a = .line v → le ['0'] v ∧ le v ['1'] → IsDecimal v := by
  cases a
  case interrupt => simp [changeValue]
  case line v =>
    simp only [changeValue, Answer.line.injEq, forall_eq']
    split
    case isFalse hv => simp [hv]
    case isTrue hv =>
      have hd := exists_digit (by decide) hv.1 hv.2
      rw [forall_prop_of_true hv, isDecimal_iff hd]
      cases decimal v
      case error => exact iff_of_false nofun nofun
      case ok n  => exact iff_of_true ⟨_, rfl⟩ ⟨n, rfl⟩

theorem display_of_inRange (h : t.InRange) : t.display = .ok { t with prompt := .item } := by
  have ⟨_, hf⟩ := colorName_ok_iff.mpr h.fg
  have ⟨_, hb⟩ := colorName_ok_iff.mpr h.bg
  simp only [ColorTest.display, hf, hb]
  rfl

theorem display_ok_iff : (∃ t', t.display = .ok t') ↔ t.InRange := by
  constructor
  case mpr => exact fun h => ⟨_, display_of_inRange h⟩
  case mp  =>
    intro ⟨_, h⟩
    have ⟨s, hf, h⟩ := bind_eq_ok_iff.mp h
    have ⟨s', hb, _⟩ := bind_eq_ok_iff.mp h
    exact ⟨colorName_ok_iff.mp ⟨s, hf⟩, colorName_ok_iff.mp ⟨s', hb⟩⟩

-- An answer leads to the next prompt, or it raises an exception because it is not acceptable.
def Handled (p : Prompt) (a : Answer) (r : Except Exn (Option ColorTest)) : Prop :=
  (Acceptable (p, a) ∧ ∃ t?, r = .ok t? ∧ t?.map (·.prompt) = p.follow a ∧ ∀ t ∈ t?, t.InRange) ∨
  (¬Acceptable (p, a) ∧ ∃ e, r = .error e)

theorem Handled.of_display {β : Type} {p : Prompt} {x : Except Exn β} {f : β → ColorTest}
    (hp : p.follow a = some .item) (h : (∃ b, x = .ok b ∧ (f b).InRange) ↔ Acceptable (p, a)) :
    Handled p a (return (← (f (← x)).display)) := by
  by_cases ha : Acceptable (p, a)
  case pos =>
    have ⟨b, hx, ht⟩ := h.mpr ha
    refine .inl ⟨ha, some { f b with prompt := .item }, ?_, hp.symm, ?_⟩
    case refine_1 => simp only [hx, display_of_inRange ht, bind, Except.bind]; rfl
    case refine_2 =>
      rintro _ ⟨⟩
      exact ⟨ht.fg, ht.bg⟩
  case neg =>
    refine .inr ⟨ha, ?_⟩
    cases hx : x
    case error e => exact ⟨e, rfl⟩
    case ok b =>
      cases hd : (f b).display
      case error e => exact ⟨e, by simp only [bind, Except.bind, hd]⟩
      case ok => exact absurd (h.mp ⟨b, hx, display_ok_iff.mp ⟨_, hd⟩⟩) ha

theorem Handled.of_color {p : Prompt} {f : Nat → ColorTest} (hp : p = .fg ∨ p = .bg)
    (hc : color ≤ 7) (hf : ∀ n, (f n).InRange ↔ n ≤ 7) :
    Handled p a (return (← (f (← changeColor color a)).display)) := by
  have ha : Acceptable (p, a) ↔ ∀ c, a = .line c → le ['0'] c ∧ le c ['9'] → IsColor c := by
    rcases hp with rfl | rfl <;> cases a <;> simp [Acceptable]
  apply Handled.of_display
  case hp => rcases hp with rfl | rfl <;> rfl
  case h  => simp only [ha, hf, changeColor_ok_iff hc]

theorem Handled.of_value {p : Prompt} {f : Bool → ColorTest}
    (hp : p = .br ∨ p = .bo ∨ p = .un ∨ p = .re) (hf : ∀ b, (f b).InRange) :
    Handled p a (return (← (f (← changeValue value a)).display)) := by
  have ha : Acceptable (p, a) ↔ ∀ v, a = .line v → le ['0'] v ∧ le v ['1'] → IsDecimal v := by
    rcases hp with rfl | rfl | rfl | rfl <;> cases a <;> simp [Acceptable]
  apply Handled.of_display
  case hp => rcases hp with rfl | rfl | rfl | rfl <;> rfl
  case h  => simp only [ha, hf, and_true, changeValue_ok_iff]

theorem select_of_inRange (h : t.InRange) (item : Str) : ∃ t', t.select item = .ok t' ∧
    t'.InRange ∧ some t'.prompt = Prompt.item.follow (.line item) := by
  have hdefault : ColorTest.InRange {} := ⟨by decide, by decide⟩
  have ⟨_, hf⟩ := colorName_ok_iff.mpr h.fg
  have ⟨_, hb⟩ := colorName_ok_iff.mpr h.bg
  simp only [ColorTest.select, display_of_inRange h, display_of_inRange hdefault, hf, hb,
    Prompt.follow]
  by_cases h₀ : item = ['0']
  case pos => exact ⟨{}, by simp [h₀], hdefault, by simp [h₀]⟩
  case neg =>
    simp only [h₀, if_false]
    repeat' split
    all_goals exact ⟨_, rfl, ⟨h.fg, h.bg⟩, rfl⟩

theorem answer_handled (h : t.InRange) : Handled t.prompt a (t.answer a) := by
  simp only [ColorTest.answer]
  cases hp : t.prompt
  case item =>
    cases a
    case interrupt => exact .inl ⟨trivial, none, rfl, rfl, nofun⟩
    case line item =>
      have ⟨t', ht, hr, hf⟩ := select_of_inRange h item
      refine .inl ⟨trivial, some t', by simp only [ht]; rfl, hf, ?_⟩
      rintro _ ⟨⟩
      exact hr
  case fg => exact .of_color (by simp) h.fg fun n => ⟨(·.fg), (⟨·, h.bg⟩)⟩
  case bg => exact .of_color (by simp) h.bg fun n => ⟨(·.bg), (⟨h.fg, ·⟩)⟩
  case br => exact .of_value (by simp) fun _ => ⟨h.fg, h.bg⟩
  case bo => exact .of_value (by simp) fun _ => ⟨h.fg, h.bg⟩
  case un => exact .of_value (by simp) fun _ => ⟨h.fg, h.bg⟩
  case re => exact .of_value (by simp) fun _ => ⟨h.fg, h.bg⟩

theorem answers_ok_iff {as : List Answer} (h : t.InRange) :
    (∃ r, t.answers as = .ok r) ↔ ∀ x ∈ asked t.prompt as, Acceptable x := by
  induction as generalizing t
  case nil => exact iff_of_true ⟨_, rfl⟩ (by simp [asked])
  case cons a as hi =>
    simp only [asked, List.forall_mem_cons]
    cases answer_handled (a := a) h
    case inr hn =>
      obtain ⟨ha, e, he⟩ := hn
      simp [ColorTest.answers, he, ha, bind, Except.bind]
    case inl hs =>
      obtain ⟨ha, t?, hr, hp, hrange⟩ := hs
      cases t?
      case none   => simp [ColorTest.answers, hr, ha, ← hp, bind, Except.bind, pure, Except.pure]
      case some t' =>
        have hi := hi (hrange t' rfl)
        simpa [ColorTest.answers, hr, ha, ← hp, bind, Except.bind] using hi

end ColorTest

end Logviewer
