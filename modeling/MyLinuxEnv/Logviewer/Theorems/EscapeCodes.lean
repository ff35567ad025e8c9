import MyLinuxEnv.Logviewer.Table

open Text

namespace Logviewer

section Codes

theorem le_toNat_of_isAlpha {c : Char} (h : c.isAlpha) : 'A'.toNat ≤ c.toNat := by
  cases (Bool.or_eq_true _ _).mp h
  case inl h =>
    have ⟨hl, _⟩ : c.val ≥ 'A'.val ∧ c.val ≤ 'Z'.val := of_decide_eq_true h
    exact UInt32.le_iff_toNat_le.mp hl
  case inr h =>
    have ⟨hl, _⟩ := (Bool.and_eq_true _ _).mp h
    have hl : c.val ≥ 'a'.val := of_decide_eq_true hl
    exact Nat.le_trans (by decide) <| UInt32.le_iff_toNat_le.mp hl

theorem not_isAlpha_of_isCode (c : Char) (h : isCode c) : c.isAlpha = false := by
  rw [Bool.eq_false_iff]
  intro ha
  have ha := le_toNat_of_isAlpha ha
  simp only [isCode, Bool.or_eq_true, decide_eq_true_eq] at h
  cases h
  case inl h =>
    have ⟨_, h⟩ := Char.isDigit_iff_toNat.mp h
    exact absurd (Nat.le_trans ha h) (by decide)
  case inr h => exact absurd ha (by subst h; decide)

-- What follows the escape character in an escape sequence.
structure IsBody (b : Str) : Prop where
  intro ::
  eq : ∃ ds c, b = '[' :: (ds ++ [c]) ∧ (∀ d ∈ ds, isCode d) ∧ c.isAlpha

theorem IsBody.esc_not_mem {b : Str} (h : IsBody b) : ESC ∉ b := by
  obtain ⟨ds, c, rfl, hds, hc⟩ := h.eq
  have hd : ESC ∉ ds := fun hm => absurd (hds _ hm) (by decide)
  have hc : ESC ≠ c := fun he => absurd (he ▸ hc) (by decide)
  simpa [hd, hc] using by decide

theorem IsBody.match? {b : Str} (h : IsBody b) (r : Str) :
    codeBody.match? (b ++ r) = some ⟨b, [], r⟩ := by
  obtain ⟨ds, c, rfl, hds, hc⟩ := h.eq
  have hn : isCode c = false := by
    by_contra hn
    simp [not_isAlpha_of_isCode c (by simpa using hn)] at hc
  rw [codeBody, List.cons_append, Regex.match?_cls_seq (by simp),
    Regex.match?_star_seq_cls not_isAlpha_of_isCode, List.append_assoc,
    List.dropWhile_append_of_pos hds, List.takeWhile_append_of_pos hds]
  simp [hn, hc]

theorem exists_isBody_of_match? {s : Str} {m : Match Char} (h : codeBody.match? s = some m) :
    ∃ b r, IsBody b ∧ s = b ++ r := by
  cases s
  case nil => simp [codeBody, Regex.match?, Regex.results] at h
  case cons c s =>
    by_cases hc : c = '['
    case neg => simp [codeBody, Regex.match?_cls_seq_of_not, hc] at h
    case pos =>
      subst hc
      obtain ⟨m', hm, _⟩ :=
        Option.map_eq_some_iff.mp <| (Regex.match?_cls_seq (by simp)).symm.trans h
      rw [Regex.match?_star_seq_cls not_isAlpha_of_isCode] at hm
      split at hm
      case _ => contradiction
      case _ d r hd =>
        split at hm
        case isFalse => contradiction
        case isTrue ha =>
          have hs := List.takeWhile_append_dropWhile (p := isCode) (l := s)
          refine ⟨'[' :: (s.takeWhile isCode ++ [d]), r, ⟨_, _, rfl, ?_, ha⟩, by simp [← hd, hs]⟩
          exact fun _ hm => List.mem_takeWhile_imp hm

-- A segment behind an escape character which begins with the rest of an escape sequence.
def closed (s : Str) : Bool :=
  (codeBody.match? s).isSome

-- What is left of a segment behind an escape character when the escape sequences are removed.
def visible (s : Str) : Str :=
  (codeBody.match? s).elim (ESC :: s) (·.rest)

theorem closed_iff {s : Str} : closed s ↔ ∃ b, IsBody b ∧ b <+: s := by
  constructor
  case mp =>
    intro h
    have ⟨m, hm⟩ := Option.isSome_iff_exists.mp h
    have ⟨b, r, hb, hs⟩ := exists_isBody_of_match? hm
    exact ⟨b, hb, r, hs.symm⟩
  case mpr =>
    rintro ⟨b, hb, r, rfl⟩
    simp [closed, hb.match? r]

theorem closed_of_isPrefix {s t : Str} (h : s <+: t) (hc : closed s) : closed t :=
  have ⟨b, hb, hp⟩ := closed_iff.mp hc
  closed_iff.mpr ⟨b, hb, hp.trans h⟩

theorem closed_append_esc {s t : Str} : closed (s ++ ESC :: t) ↔ closed s := by
  refine ⟨fun hc => ?_, closed_of_isPrefix <| List.prefix_append ..⟩
  have ⟨b, hb, hp⟩ := closed_iff.mp hc
  exact closed_iff.mpr ⟨b, hb, prefix_append_sep_iff hb.esc_not_mem _ _ |>.mp hp⟩

theorem closed_unsplit {s : Str} {segs : List Str} : closed (unsplit ESC s segs) ↔ closed s := by
  cases segs
  case nil  => rw [unsplit_nil]
  case cons => rw [unsplit_cons, closed_append_esc]

theorem not_closed_esc (s : Str) : ¬closed (ESC :: s) := by
  rw [closed, codeBody, Regex.match?_cls_seq_of_not (by decide)]
  simp

theorem visible_body {b : Str} (h : IsBody b) (r : Str) : visible (b ++ r) = r := by
  simp [visible, h.match? r]

theorem visible_append {s : Str} (hc : closed s) (t : Str) : visible (s ++ t) = visible s ++ t := by
  obtain ⟨b, hb, r, rfl⟩ := closed_iff.mp hc
  rw [List.append_assoc, visible_body hb, visible_body hb]

theorem visible_of_not_closed {s : Str} (hc : ¬closed s) : visible s = ESC :: s := by
  simp only [closed, Option.isSome_iff_ne_none, ne_eq, not_not] at hc
  simp [visible, hc]

theorem nocosmetic_append {s : Str} (h : ESC ∉ s) (t : Str) :
    nocosmetic (s ++ t) = s ++ nocosmetic t := by
  induction s
  case nil => rfl
  case cons c s hi =>
    have ⟨hc, hs⟩ : ESC ≠ c ∧ ESC ∉ s := by simpa using h
    rw [List.cons_append, nocosmetic,
      Regex.sub_cons_of_match?_none (Regex.match?_cls_seq_of_not (by simp [hc.symm]))]
    exact congrArg _ (hi hs)

theorem nocosmetic_body {b : Str} (h : IsBody b) (t : Str) :
    nocosmetic (ESC :: (b ++ t)) = nocosmetic t := by
  have hm : (Regex.seq (.cls (· = ESC)) codeBody).match? (ESC :: (b ++ t)) =
      some ⟨ESC :: b, [], t⟩ := by
    rw [Regex.match?_cls_seq (by simp), h.match?, Option.map_some]
  rw [nocosmetic, Regex.sub_cons_of_match?_some hm (List.length_cons ..), List.drop_left]
  rfl

theorem nocosmetic_of_not_closed {t : Str} (h : ¬closed t) :
    nocosmetic (ESC :: t) = ESC :: nocosmetic t := by
  simp only [closed, Option.isSome_iff_ne_none, ne_eq, not_not] at h
  rw [nocosmetic, Regex.sub_cons_of_match?_none]
  · rfl
  · rw [Regex.match?_cls_seq (by simp), h, Option.map_none]

theorem nocosmetic_unsplit {s : Str} {segs : List Str} (hs : ESC ∉ s)
    (hsegs : ∀ t ∈ segs, ESC ∉ t) :
    nocosmetic (unsplit ESC s segs) = s ++ segs.flatMap visible := by
  induction segs generalizing s
  case nil =>
    have hn := nocosmetic_append hs []
    rw [List.append_nil] at hn
    exact (congrArg _ (unsplit_nil ESC s)).trans hn
  case cons t segs hi =>
    have ⟨ht, hr⟩ := List.forall_mem_cons.mp hsegs
    rw [unsplit_cons, nocosmetic_append hs, List.flatMap_cons]
    by_cases hc : closed t
    case pos =>
      obtain ⟨b, hb, r, rfl⟩ := closed_iff.mp hc
      have hm : ESC ∉ r := fun hm => ht <| List.mem_append_right _ hm
      rw [unsplit_append, nocosmetic_body hb, hi hm hr, visible_body hb]
    case neg =>
      rw [nocosmetic_of_not_closed (mt closed_unsplit.mp hc), hi ht hr, visible_of_not_closed hc,
        List.cons_append]

end Codes

section Format

theorem forall_mem_intercalate {α : Type} {P : α → Prop} {sep : List α} {ls : List (List α)}
    (hs : ∀ c ∈ sep, P c) (hl : ∀ l ∈ ls, ∀ c ∈ l, P c) : ∀ c ∈ sep.intercalate ls, P c := by
  induction ls
  case nil => simp [List.intercalate]
  case cons l ls hi =>
    have ⟨hc, hls⟩ := List.forall_mem_cons.mp hl
    cases ls
    case nil => simpa [List.intercalate] using hc
    case cons l' ls =>
      have he : sep.intercalate (l :: l' :: ls) = l ++ sep ++ sep.intercalate (l' :: ls) := by
        simp [List.intercalate]
      rw [he]
      simp only [List.mem_append]
      rintro c ((h | h) | h)
      · exact hc c h
      · exact hs c h
      · exact hi hls c h

theorem isCode_of_mem_toDigits {n : Nat} {c : Char} (h : c ∈ Nat.toDigits 10 n) : isCode c := by
  simp [isCode, Nat.isDigit_of_mem_toDigits (by decide) (by decide) h]

theorem isCode_of_mem_codes {fg bg : Option Nat} {bright bold underline reverse reset : Bool}
    {code : Str} (h : code ∈ codes fg bg bright bold underline reverse reset) :
    ∀ c ∈ code, isCode c := by
  have hd : ∀ n, ∀ c ∈ Nat.toDigits 10 n, isCode c := fun _ _ => isCode_of_mem_toDigits
  have hc : ∀ {n : Nat} {s : Str}, (∀ c ∈ s, isCode c) → ∀ c ∈ s ++ Nat.toDigits 10 n, isCode c :=
    fun hs c hm => (List.mem_append.mp hm).elim (hs c) (hd _ c)
  simp only [codes] at h
  split at h
  case isTrue => simp only [List.mem_singleton] at h; subst h; decide
  case isFalse =>
    simp only [List.mem_append] at h
    rcases h with ((h | h) | h) | h
    case inl.inl.inl =>
      split at h
      case isTrue =>
        simp only [List.mem_cons, List.not_mem_nil, or_false] at h
        rcases h with h | h
        case inl => cases fg <;> subst h <;> [decide; exact hc (s := ['9']) (by decide)]
        case inr => cases bg <;> subst h <;> [decide; exact hc (s := ['1', '0']) (by decide)]
      case isFalse =>
        rcases List.mem_append.mp h with h | h
        case inl => cases fg <;> simp at h; subst h; exact hc (s := ['3']) (by decide)
        case inr => cases bg <;> simp at h; subst h; exact hc (s := ['4']) (by decide)
    all_goals
      split at h
      case isTrue  => simp only [List.mem_singleton] at h; subst h; decide
      case isFalse => contradiction

-- All renderings are escape sequences which `nocosmetic` recognizes.
theorem format_eq_body (fg bg : Option Nat) (bright bold underline reverse reset : Bool) :
    ∃ b, IsBody b ∧ format fg bg bright bold underline reverse reset = ESC :: b := by
  refine ⟨_, ⟨_, 'm', rfl, forall_mem_intercalate (by decide) ?_, by decide⟩, rfl⟩
  intro code hcode
  split at hcode
  case isTrue  => simp only [List.mem_singleton] at hcode; subst hcode; decide
  case isFalse => exact isCode_of_mem_codes hcode

end Format

end Logviewer
