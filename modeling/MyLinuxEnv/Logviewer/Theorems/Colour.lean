import MyLinuxEnv.Logviewer.Theorems.EscapeCodes
import MyLinuxEnv.Logviewer.Theorems.PatternTable

open Text

namespace Logviewer

-- A text from which `nocosmetic` recovers `v`, since every escape character in it begins a
-- complete escape sequence.
def Sound (v t : Str) : Prop :=
  ∃ s segs, t = unsplit ESC s segs ∧ ESC ∉ s ∧ (∀ seg ∈ segs, ESC ∉ seg ∧ closed seg) ∧
    s ++ segs.flatMap visible = v

-- A text with an escape character that is not followed by the rest of an escape sequence.
def Broken (t : Str) : Prop :=
  ∃ a b, t = a ++ ESC :: b ∧ ¬closed b

theorem Sound.plain {s : Str} (h : ESC ∉ s) : Sound s s :=
  ⟨s, [], unsplit_nil ESC s |>.symm, h, by simp, by simp⟩

theorem Sound.nocosmetic_eq {v t : Str} : Sound v t → nocosmetic t = v
  | ⟨_, _, ht, hs, hsegs, hv⟩ => by
    rw [ht, nocosmetic_unsplit hs fun seg h => hsegs seg h |>.left, hv]

theorem Broken.esc_mem {t : Str} : Broken t → ESC ∈ nocosmetic t
  | ⟨a, b, ht, hb⟩ => by
    obtain ⟨s, segs, rfl, hs, hsegs⟩ := exists_unsplit ESC a
    obtain ⟨s', segs', rfl, hs', hsegs'⟩ := exists_unsplit ESC b
    have hc : ¬closed s' := mt (closed_of_isPrefix ⟨_, rfl⟩) hb
    have he : t = unsplit ESC s (segs ++ s' :: segs') := by simp [ht, unsplit]
    have hm : ∀ seg ∈ segs ++ s' :: segs', ESC ∉ seg := by
      simp only [List.mem_append, List.mem_cons]
      rintro seg (h | rfl | h)
      · exact hsegs seg h
      · exact hs'
      · exact hsegs' seg h
    simp [he, nocosmetic_unsplit hs hm, visible_of_not_closed hc]

-- No occurrence of a pattern that is about to be replaced begins within an escape sequence.
def Intact (p t : Str) : Prop :=
  ∀ seg ∈ (t.splitOn ESC).tail, ∀ k ∈ find? p seg, closed (seg.take k)

instance {p t : Str} : Decidable (Intact p t) :=
  inferInstanceAs <|
    Decidable (∀ seg ∈ (t.splitOn ESC).tail, ∀ k ∈ find? p seg, closed (seg.take k))

-- What `replace` leaves in front of the first occurrence.
def front (p s : Str) : Str :=
  s.take <| (find? p s).getD s.length

theorem intact_iff {p s : Str} {segs : List Str} (hs : ESC ∉ s)
    (h : ∀ seg ∈ segs, ESC ∉ seg ∧ closed seg) :
    Intact p (unsplit ESC s segs) ↔ ∀ seg ∈ segs, closed (front p seg) := by
  rw [Intact, splitOn_unsplit hs fun seg hm => h seg hm |>.left, List.tail_cons]
  refine forall₂_congr fun seg hm => ?_
  cases hf : find? p seg
  case none => simpa [front, hf] using h seg hm |>.right
  case some => simp [front, hf]

-- A rendered pattern.
structure Rendering (p x : Str) : Prop where
  intro ::
  eq : ∃ b₁ b₂, IsBody b₁ ∧ IsBody b₂ ∧ x = ESC :: b₁ ++ p ++ ESC :: b₂

theorem Call.entry_rendering {c : Call} {p : Str} (h : c.pattern = .str p) :
    Rendering p c.entry.text := by
  have ⟨b₁, h₁, e₁⟩ := format_eq_body c.fg c.bg c.br c.bo c.un c.re false
  have ⟨b₂, h₂, e₂⟩ := format_eq_body none none false false false false true
  exact ⟨b₁, b₂, h₁, h₂, by simp [Call.entry, h, Pattern.toStr, e₁, e₂]⟩

section Replace

variable {p x s t v : Str} {segs : List Str}

theorem front_isPrefix (p s : Str) : front p s <+: s :=
  List.take_prefix _ _

theorem replace_segment (hp : p ≠ []) (he : ESC ∉ p) (hx : Rendering p x) (hs : ESC ∉ s) :
    ∃ segs, replace p x s = unsplit ESC (front p s) segs ∧ (∀ seg ∈ segs, ESC ∉ seg ∧ closed seg) ∧
      front p s ++ segs.flatMap visible = s := by
  induction hn : s.length using Nat.strong_induction_on generalizing s
  case h n hi =>
    cases hf : find? p s
    case none =>
      exact ⟨[], by simp [replace_of_find?_none hp hf, front, hf, unsplit], by simp,
        by simp [front, hf]⟩
    case some k =>
      obtain ⟨b₁, b₂, h₁, h₂, rfl⟩ := hx.eq
      obtain ⟨r, hr⟩ := find?_some_prefix hf
      have hd : s.drop (k + p.length) = r := by
        rw [← List.drop_drop, ← hr, List.drop_left]
      have hsr : s = s.take k ++ (p ++ r) := by rw [hr, List.take_append_drop]
      have hlt : r.length < n := by
        have := List.length_pos_iff.mpr hp
        have := congrArg List.length hr
        simp at this
        omega
      have hrm : ESC ∉ r := fun hm => hs (hsr ▸ by simp [hm])
      obtain ⟨segs, hreplace, hsegs, hv⟩ := hi r.length hlt hrm rfl
      have hfr : ESC ∉ front p r := fun hm => hrm <| (front_isPrefix p r).subset hm
      refine ⟨(b₁ ++ p) :: (b₂ ++ front p r) :: segs, ?_, ?_, ?_⟩
      case refine_1 =>
        rw [replace_of_find?_some hp hf, hd, hreplace]
        simp [front, hf, unsplit]
      case refine_2 =>
        simp only [List.mem_cons]
        rintro seg (rfl | rfl | hm)
        · exact ⟨by simp [h₁.esc_not_mem, he], closed_iff.mpr ⟨b₁, h₁, List.prefix_append ..⟩⟩
        · exact ⟨by simp [h₂.esc_not_mem, hfr], closed_iff.mpr ⟨b₂, h₂, List.prefix_append ..⟩⟩
        · exact hsegs seg hm
      case refine_3 =>
        rw [List.flatMap_cons, List.flatMap_cons, visible_body h₁, visible_body h₂, hv]
        simp only [front, hf, Option.getD_some, hsr.symm]

theorem replace_unsplit (hp : p ≠ []) (he : ESC ∉ p) (s : Str) (segs : List Str) :
    replace p x (unsplit ESC s segs) = unsplit ESC (replace p x s) (segs.map (replace p x)) := by
  induction segs generalizing s
  case nil => simp [unsplit_nil]
  case cons seg segs hi =>
    rw [unsplit_cons, replace_append_sep hp he, hi, List.map_cons, unsplit_cons]

theorem replace_segments (hp : p ≠ []) (he : ESC ∉ p) (hx : Rendering p x)
    (hsegs : ∀ seg ∈ segs, ESC ∉ seg) (hc : ∀ seg ∈ segs, closed (front p seg)) :
    ∃ segs' : List Str, (segs.map (replace p x)).flatMap (ESC :: ·) = segs'.flatMap (ESC :: ·) ∧
      (∀ seg ∈ segs', ESC ∉ seg ∧ closed seg) ∧
      segs'.flatMap visible = segs.flatMap visible := by
  induction segs
  case nil => exact ⟨[], by simp⟩
  case cons seg segs hi =>
    have ⟨hseg, hsegs⟩ := List.forall_mem_cons.mp hsegs
    have ⟨hclosed, hc⟩ := List.forall_mem_cons.mp hc
    have ⟨segs', hr, hs', hv⟩ := hi hsegs hc
    have ⟨tl, ht, htl, hvt⟩ := replace_segment hp he hx hseg
    refine ⟨front p seg :: tl ++ segs', by simp [ht, hr, unsplit], ?_, ?_⟩
    case refine_1 =>
      simp only [List.cons_append, List.mem_cons, List.mem_append]
      rintro s (rfl | h | h)
      · exact ⟨fun hm => hseg <| (front_isPrefix p seg).subset hm, hclosed⟩
      · exact htl s h
      · exact hs' s h
    case refine_2 =>
      have hvis := visible_append hclosed (tl.flatMap visible)
      rw [hvt] at hvis
      simp [hv, hvis]

theorem Sound.cons {c : Char} (hc : ESC ≠ c) : Sound v t → Sound (c :: v) (c :: t)
  | ⟨s, segs, ht, hs, hsegs, hv⟩ =>
    ⟨c :: s, segs, by simp [ht, unsplit], by simp [hc, hs], hsegs, by simp [hv]⟩

theorem Sound.body {b : Str} (hb : IsBody b) : Sound v t → Sound v (ESC :: b ++ t)
  | ⟨s, segs, ht, hs, hsegs, hv⟩ => by
    refine ⟨[], (b ++ s) :: segs, by simp [ht, unsplit], by simp, ?_, by simp [visible_body hb, hv]⟩
    simp only [List.mem_cons, forall_eq_or_imp]
    exact ⟨⟨by simp [hb.esc_not_mem, hs], closed_iff.mpr ⟨b, hb, List.prefix_append ..⟩⟩, hsegs⟩

theorem Sound.replace_nil (hx : Rendering [] x) (hs : ESC ∉ s) : Sound s (replace [] x s) := by
  obtain ⟨b₁, b₂, h₁, h₂, rfl⟩ := hx.eq
  have hb {v t} (h : Sound v t) : Sound v (ESC :: b₁ ++ [] ++ ESC :: b₂ ++ t) := by
    simpa using (h.body h₂).body h₁
  simp only [Text.replace, if_true]
  induction s
  case nil => exact hb <| .plain (by simp)
  case cons c s hi =>
    obtain ⟨hc, hs⟩ : ESC ≠ c ∧ ESC ∉ s := by simpa using hs
    simpa using hb <| (hi hs).cons hc

theorem Sound.replace (he : ESC ∉ p) (hx : Rendering p x) (h : Sound v t) (hi : Intact p t) :
    Sound v (replace p x t) := by
  obtain ⟨s, segs, rfl, hs, hsegs, rfl⟩ := h
  obtain hc := intact_iff hs hsegs |>.mp hi
  by_cases hp : p = []
  case pos =>
    subst hp
    cases segs
    case nil => simpa [unsplit_nil] using Sound.replace_nil hx hs
    case cons seg segs =>
      have hc : closed (front [] seg) := hc seg <| List.mem_cons_self ..
      rw [front, find?_eq_zero_of_prefix List.nil_prefix] at hc
      contradiction
  case neg =>
    have ⟨segs₁, h₁, hc₁, hv₁⟩ := replace_segment hp he hx hs
    have ⟨segs₂, h₂, hc₂, hv₂⟩ := replace_segments hp he hx (fun seg hm => hsegs seg hm |>.left) hc
    refine ⟨front p s, segs₁ ++ segs₂, ?_, fun hm => hs <| (front_isPrefix p s).subset hm, ?_, ?_⟩
    case refine_1 =>
      rw [replace_unsplit hp he, h₁]
      simp only [unsplit, h₂, List.flatMap_append, List.append_assoc]
    case refine_2 =>
      exact fun seg hm => (List.mem_append.mp hm).elim (hc₁ seg) (hc₂ seg)
    case refine_3 => rw [List.flatMap_append, hv₂, ← List.append_assoc, hv₁]

theorem closed_replace_unsplit (hp : p ≠ []) (he : ESC ∉ p) (hx : Rendering p x) (hs : ESC ∉ s) :
    closed (replace p x (unsplit ESC s segs)) ↔ closed (front p s) := by
  have ⟨tl, ht, _⟩ := replace_segment hp he hx hs
  rw [replace_unsplit hp he, ht, closed_unsplit, closed_unsplit]

theorem broken_replace_nil (hx : Rendering [] x) (h : ESC ∈ t) : Broken (replace [] x t) := by
  obtain ⟨b₁, b₂, h₁, h₂, rfl⟩ := hx.eq
  obtain ⟨u, w, rfl⟩ := List.append_of_mem h
  let f (c : Char) := c :: (ESC :: b₁ ++ [] ++ ESC :: b₂)
  refine ⟨ESC :: b₁ ++ [] ++ ESC :: b₂ ++ u.flatMap f, _, ?_,
    not_closed_esc <| b₁ ++ ESC :: b₂ ++ w.flatMap f⟩
  simp [Text.replace, f]

theorem Broken.replace (he : ESC ∉ p) (hx : Rendering p x) (h : Broken t) :
    Broken (replace p x t) := by
  obtain ⟨a, b, rfl, hb⟩ := h
  by_cases hp : p = []
  case pos => exact hp ▸ broken_replace_nil (hp ▸ hx) (by simp)
  case neg =>
    obtain ⟨s, segs, rfl, hs, _⟩ := exists_unsplit ESC b
    refine ⟨_, _, replace_append_sep hp he _ _, fun hc => hb ?_⟩
    have hc := closed_replace_unsplit hp he hx hs |>.mp hc
    exact closed_unsplit.mpr <| closed_of_isPrefix (front_isPrefix p s) hc

theorem Sound.broken_replace (he : ESC ∉ p) (hx : Rendering p x) (h : Sound v t)
    (hi : ¬Intact p t) : Broken (Text.replace p x t) := by
  obtain ⟨s, segs, rfl, hs, hsegs, _⟩ := h
  have ⟨seg, hm, hc⟩ : ∃ seg ∈ segs, ¬closed (front p seg) := by
    simpa using mt (intact_iff hs hsegs).mpr hi
  obtain ⟨l, r, rfl⟩ := List.append_of_mem hm
  have hseg := hsegs seg hm |>.left
  have ht : unsplit ESC s (l ++ seg :: r) = unsplit ESC s l ++ ESC :: unsplit ESC seg r := by
    simp [unsplit]
  by_cases hp : p = []
  case pos => exact hp ▸ broken_replace_nil (hp ▸ hx) (by simp [ht])
  case neg =>
    rw [ht, replace_append_sep hp he]
    exact ⟨_, _, rfl, mt (closed_replace_unsplit hp he hx hseg).mp hc⟩

end Replace

section Table

variable {calls : List Call}

-- Every entry of the table is the one of a call.
theorem exists_call_of_mem_patternTable {e : Entry} (h : e ∈ patternTable calls) :
    ∃ c ∈ calls, e = c.entry := by
  induction calls using List.reverseRecOn
  case nil => simp [patternTable] at h
  case append_singleton calls c hi =>
    simp only [patternTable, List.foldl_append, List.foldl_cons, List.foldl_nil] at h hi
    cases mem_insertPatternIntoTable h
    case inl h => exact ⟨c, by simp, h⟩
    case inr h =>
      obtain ⟨c', hm, he⟩ := hi h
      exact ⟨c', by simp [hm], he⟩

end Table

-- At no entry does the pattern occur within an escape sequence that has been inserted before.
def Undisturbed : List Entry → Str → Prop
  | [], _      => True
  | e :: es, t => (∀ p, e.pattern = .str p → Intact p t) ∧ Undisturbed es (recolor t e)

-- Patterns which are strings without escape characters.
def Printable (c : Call) : Prop :=
  ∃ p, c.pattern = .str p ∧ ESC ∉ p

theorem recolor_entry {c : Call} {p t : Str} (h : c.pattern = .str p) :
    recolor t c.entry = replace p c.entry.text t := by
  have hp : c.entry.pattern = .str p := h
  simp [recolor, hp]

theorem Broken.colored {table : List Entry} (h : ∀ e ∈ table, ∃ c : Call, e = c.entry ∧ Printable c)
    {t : Str} (ht : Broken t) : Broken (colored table t) := by
  induction table generalizing t
  case nil => exact ht
  case cons e es hi =>
    have ⟨⟨c, he, p, hp, hesc⟩, hes⟩ := List.forall_mem_cons.mp h
    refine hi hes ?_
    rw [he, recolor_entry hp]
    exact ht.replace hesc <| Call.entry_rendering hp

theorem Sound.nocosmetic_colored_eq_iff {table : List Entry}
    (h : ∀ e ∈ table, ∃ c : Call, e = c.entry ∧ Printable c) {v t : Str} (hv : ESC ∉ v)
    (ht : Sound v t) : nocosmetic (colored table t) = v ↔ Undisturbed table t := by
  induction table generalizing t
  case nil => simpa [Undisturbed, Logviewer.colored] using ht.nocosmetic_eq
  case cons e es hi =>
    have ⟨⟨c, he, p, hp, hesc⟩, hes⟩ := List.forall_mem_cons.mp h
    have hx := Call.entry_rendering hp
    have hr := recolor_entry (t := t) hp
    have hcol : Logviewer.colored (e :: es) t = Logviewer.colored es (recolor t e) := rfl
    have hpat : ∀ q, e.pattern = .str q ↔ p = q := by simp [he, Call.entry, hp]
    simp only [Undisturbed, hpat, forall_eq']
    by_cases hn : Intact p t
    case pos =>
      have hs : Sound v (recolor t e) := by
        rw [he, hr]
        exact ht.replace hesc hx hn
      rw [hcol, hi hes hs, and_iff_right hn]
    case neg =>
      have hb : Broken (recolor t e) := by
        rw [he, hr]
        exact ht.broken_replace hesc hx hn
      simp only [hn, false_and, iff_false]
      exact fun hc => hv <| hc ▸ hcol ▸ (hb.colored hes).esc_mem

-- Removing the colours restores the line exactly if no pattern is found in an escape sequence.
theorem nocosmetic_colored_iff {calls : List Call} (h : ∀ c ∈ calls, Printable c) {line : Str}
    (hl : ESC ∉ line) :
    nocosmetic (colored (patternTable calls) line) = line ↔
      Undisturbed (patternTable calls) line := by
  refine Sound.nocosmetic_colored_eq_iff (fun e he => ?_) hl (.plain hl)
  have ⟨c, hc, he⟩ := exists_call_of_mem_patternTable he
  exact ⟨c, he, h c hc⟩

def exampleCalls : List Call :=
  [⟨⟨some 1, some 3, true, true, false, false⟩, .str "error".toList⟩,
    ⟨⟨some 2, none, false, false, true, false⟩, .str "10".toList⟩]

theorem nocosmetic_colored_iff_of_exampleCalls :
    nocosmetic (colored (patternTable exampleCalls) "line 10: 10 warnings\n".toList) =
        "line 10: 10 warnings\n".toList ↔
      Undisturbed (patternTable exampleCalls) "line 10: 10 warnings\n".toList := by
  refine nocosmetic_colored_iff ?_ (by decide)
  simp only [exampleCalls, List.forall_mem_cons, List.not_mem_nil, false_implies, implies_true,
    and_true]
  exact ⟨⟨_, rfl, by decide⟩, ⟨_, rfl, by decide⟩⟩

-- The second pattern occurs in the background code which belongs to the first.
theorem nocosmetic_colored_ne :
    ¬nocosmetic (colored (patternTable exampleCalls) "error\n".toList) = "error\n".toList := by
  decide

end Logviewer
