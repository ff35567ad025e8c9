import MyLinuxEnv.Logviewer.Table

open Text

namespace Logviewer

variable {c : Call} {e : Entry} {es table : List Entry} {calls : List Call}

def Pattern.IsStr (p : Pattern) : Prop :=
  ∃ s, p = .str s

-- Two entries are rivals if the pattern of one of them is a prefix of the other one's.
def Rival (e f : Entry) : Prop :=
  ∃ p q, e.pattern = .str p ∧ f.pattern = .str q ∧ (p <+: q ∨ q <+: p)

-- What a table should be like after a call.
structure Settled (table : List Entry) (c : Call) : Prop where
  once : table.filter (·.pattern = c.pattern) = [c.entry]
  free : table.Pairwise fun e f => ¬Rival e f

-- The entries which compete with the pattern of a call.
def rivals (table : List Entry) (c : Call) : List Entry :=
  table.filter (compete ·.pattern c.pattern)

theorem compete_str_iff {p q : Str} : compete (.str p) (.str q) ↔ p <+: q ∨ q <+: p := by
  simp only [compete, Pattern.length, Pattern.take, decide_eq_true_eq, Pattern.str.injEq]
  have hp {s t : Str} (hl : s.length ≤ t.length) : s = t.take s.length ↔ s <+: t ∨ t <+: s :=
    List.prefix_iff_eq_take.symm.trans <| (or_iff_left_of_imp fun h =>
      h.eq_of_length_le hl ▸ List.prefix_refl _).symm
  cases Nat.le_total p.length q.length
  case inl hl => rw [Nat.min_eq_left hl, List.take_length, hp hl]
  case inr hl => rw [Nat.min_eq_right hl, List.take_length, eq_comm, hp hl, or_comm]

theorem rival_iff {e f : Entry} (he : e.pattern.IsStr) (hf : f.pattern.IsStr) :
    Rival e f ↔ compete e.pattern f.pattern := by
  have ⟨p, hp⟩ := he
  have ⟨q, hq⟩ := hf
  simp [Rival, hp, hq, compete_str_iff]

theorem Rival.symm {e f : Entry} (h : Rival e f) : Rival f e := by
  have ⟨p, q, he, hf, hp⟩ := h
  exact ⟨q, p, hf, he, hp.symm⟩

theorem compete_self (p : Pattern) : compete p p := by
  simp [compete]

theorem rivals_append (a b : List Entry) (c : Call) :
    rivals (a ++ b) c = rivals a c ++ rivals b c :=
  List.filter_append ..

theorem not_compete_of_rivals_eq_nil (h : rivals table c = []) (he : e ∈ table) :
    ¬compete e.pattern c.pattern :=
  List.filter_eq_nil_iff.mp h e he

section Insert

theorem insert_of_rivals_eq_nil (h : rivals table c = []) :
    insertPatternIntoTable c table = table ++ [c.entry] := by
  induction table
  case nil => rfl
  case cons e es hi =>
    simp only [rivals, List.filter_eq_nil_iff, List.forall_mem_cons] at h hi
    simp [insertPatternIntoTable, h.left, hi h.right]

-- The first rival gives way to the new entry. The other entries stay where they are.
theorem insert_of_rivals_eq_cons (h : rivals table c = e :: es) :
    ∃ a b, table = a ++ e :: b ∧ rivals a c = [] ∧ rivals b c = es ∧
      insertPatternIntoTable c table = a ++ c.entry :: b := by
  induction table
  case nil => contradiction
  case cons f table hi =>
    by_cases hf : compete f.pattern c.pattern
    case pos =>
      simp only [rivals, List.filter_cons, hf, if_true, List.cons.injEq] at h
      obtain ⟨he, hs⟩ := h
      subst he
      exact ⟨[], table, rfl, rfl, hs, by simp [insertPatternIntoTable, hf]⟩
    case neg =>
      have h : rivals table c = e :: es := by simpa [rivals, hf] using h
      obtain ⟨a, b, ht, ha, hb, hs⟩ := hi h
      exact ⟨f :: a, b, by simp [ht], by simpa [rivals, hf] using ha, hb,
        by simp [insertPatternIntoTable, hf, hs]⟩

theorem mem_insertPatternIntoTable (h : e ∈ insertPatternIntoTable c table) :
    e = c.entry ∨ e ∈ table := by
  cases hr : rivals table c
  case nil =>
    rw [insert_of_rivals_eq_nil hr] at h
    exact (List.mem_append.mp h).symm.imp_left List.mem_singleton.mp
  case cons =>
    obtain ⟨a, b, ht, _, _, hs⟩ := insert_of_rivals_eq_cons hr
    grind

end Insert

theorem patternTable_concat (calls : List Call) (c : Call) :
    patternTable (calls ++ [c]) = insertPatternIntoTable c (patternTable calls) := by
  simp [patternTable]

theorem isStr_of_mem_patternTable (h : ∀ c ∈ calls, c.pattern.IsStr) :
    ∀ e ∈ patternTable calls, e.pattern.IsStr := by
  induction calls using List.reverseRecOn
  case nil => simp [patternTable]
  case append_singleton calls c hi =>
    have ⟨hs, hc⟩ := List.forall_mem_append.mp h
    rw [patternTable_concat]
    intro e he
    cases mem_insertPatternIntoTable he
    case inl he => exact he ▸ hc c (List.mem_singleton_self c)
    case inr he => exact hi hs e he

section Step

variable {a b : List Entry}

-- A new entry settles between entries none of which competes with it.
theorem settled_of_rivals_eq_nil (hs : ∀ e ∈ a ++ b, e.pattern.IsStr) (hc : c.pattern.IsStr)
    (hr : rivals (a ++ b) c = []) (hf : (a ++ b).Pairwise fun e f => ¬Rival e f) :
    Settled (a ++ c.entry :: b) c where
  once := by
    have hn {l : List Entry} (hl : l ⊆ a ++ b) : l.filter (·.pattern = c.pattern) = [] := by
      refine List.filter_eq_nil_iff.mpr fun e he hp => ?_
      have hp : e.pattern = c.pattern := by simpa using hp
      exact not_compete_of_rivals_eq_nil hr (hl he) <| hp ▸ compete_self _
    have hself : c.entry.pattern = c.pattern := rfl
    rw [List.filter_append, List.filter_cons_of_pos (by simpa using hself),
      hn (List.subset_append_left a b), hn (List.subset_append_right a b)]
    rfl
  free := by
    have hn {e : Entry} (he : e ∈ a ++ b) : ¬Rival e c.entry := fun hr' =>
      not_compete_of_rivals_eq_nil hr he <| (rival_iff (hs e he) hc).mp hr'
    obtain ⟨ha, hb, hab⟩ := List.pairwise_append.mp hf
    refine List.pairwise_append.mpr ⟨ha, List.pairwise_cons.mpr ⟨fun e he => ?_, hb⟩, ?_⟩
    case refine_1 => exact fun hr' => hn (List.mem_append_right a he) hr'.symm
    case refine_2 =>
      intro e he f hf
      cases List.mem_cons.mp hf
      case inl hf => exact hf ▸ hn (List.mem_append_left b he)
      case inr hf => exact hab e he f hf

theorem settled_insert_iff (hs : ∀ e ∈ table, e.pattern.IsStr) (hc : c.pattern.IsStr)
    (hf : table.Pairwise fun e f => ¬Rival e f) :
    Settled (insertPatternIntoTable c table) c ↔ (rivals table c).length ≤ 1 := by
  cases hr : rivals table c
  case nil =>
    refine iff_of_true ?_ (Nat.zero_le _)
    rw [insert_of_rivals_eq_nil hr]
    rw [← List.append_nil table] at hs hr hf
    exact settled_of_rivals_eq_nil hs hc hr hf
  case cons e es =>
    obtain ⟨a, b, ht, ha, hb, hi⟩ := insert_of_rivals_eq_cons hr
    subst ht
    rw [hi]
    cases es
    case nil =>
      have hsub : (a ++ b).Sublist (a ++ e :: b) :=
        List.Sublist.append_left (List.sublist_cons_self e b) a
      refine iff_of_true ?_ (Nat.le_refl _)
      exact settled_of_rivals_eq_nil (fun f hf => hs f <| hsub.subset hf) hc
        (by rw [rivals_append, ha, hb, List.append_nil]) (hf.sublist hsub)
    case cons f es =>
      -- The second rival stays in the table behind the new entry.
      refine iff_of_false (fun hn => ?_) (by simp)
      have hm : f ∈ rivals b c := hb ▸ List.mem_cons_self
      have ⟨hm, hp⟩ := List.mem_filter.mp hm
      have hfs := hs f <| List.mem_append_right a <| List.mem_cons_of_mem e hm
      have hp := List.pairwise_append.mp hn.free |>.right.left
      exact (List.pairwise_cons.mp hp).left f hm <|
        Rival.symm <| (rival_iff hfs hc).mpr ‹compete f.pattern c.pattern›

end Step

-- The calls of a run never have more than one rival in the table.
def FewRivals (calls : List Call) : Prop :=
  ∀ pre c post, calls = pre ++ c :: post → (rivals (patternTable pre) c).length ≤ 1

theorem FewRivals.of_append {pre post : List Call} (h : FewRivals (pre ++ post)) :
    FewRivals pre := by
  intro p c q he
  exact h p c (q ++ post) <| by simp [he]

theorem FewRivals.free (h : FewRivals calls) (hs : ∀ c ∈ calls, c.pattern.IsStr) :
    (patternTable calls).Pairwise fun e f => ¬Rival e f := by
  induction calls using List.reverseRecOn
  case nil => simp [patternTable]
  case append_singleton calls c hi =>
    have ⟨hs', hc⟩ := List.forall_mem_append.mp hs
    have hf := settled_insert_iff (isStr_of_mem_patternTable hs')
      (hc c <| List.mem_singleton_self c)
      (hi h.of_append hs')
    rw [patternTable_concat]
    exact hf.mpr (h calls c [] rfl) |>.free

-- After each call, its pattern is in the table once and no pattern is a prefix of another one,
-- exactly if none of the calls finds several rivals in the table.
theorem forall_settled_iff (hs : ∀ c ∈ calls, c.pattern.IsStr) :
    (∀ pre c post, calls = pre ++ c :: post → Settled (patternTable (pre ++ [c])) c) ↔
      ∀ pre c post, calls = pre ++ c :: post → (rivals (patternTable pre) c).length ≤ 1 := by
  have hstep {pre post : List Call} {c : Call} (he : calls = pre ++ c :: post)
      (hf : (patternTable pre).Pairwise fun e f => ¬Rival e f) :
      Settled (patternTable (pre ++ [c])) c ↔ (rivals (patternTable pre) c).length ≤ 1 := by
    subst he
    have ⟨hp, hc⟩ := List.forall_mem_append.mp hs
    rw [patternTable_concat]
    exact settled_insert_iff (isStr_of_mem_patternTable hp) (hc c List.mem_cons_self) hf
  refine ⟨fun h pre c post he => (hstep he ?_).mp (h pre c post he), fun h pre c post he =>
    (hstep he ?_).mpr (h pre c post he)⟩
  case refine_1 =>
    -- The table in front of a call is empty, or the result of the call before.
    induction pre using List.reverseRecOn
    case nil => simp [patternTable]
    case append_singleton pre d _ => exact h pre d (c :: post) (by simp [he]) |>.free
  case refine_2 =>
    subst he
    exact FewRivals.of_append h |>.free <| List.forall_mem_append.mp hs |>.left

def exampleCall (p : String) : Call where
  pattern := .str p.toList

theorem forall_settled_iff_of_exampleCall :
    let calls := [exampleCall "error", exampleCall "warning", exampleCall "error:"]
    (∀ pre c post, calls = pre ++ c :: post → Settled (patternTable (pre ++ [c])) c) ↔
      ∀ pre c post, calls = pre ++ c :: post → (rivals (patternTable pre) c).length ≤ 1 :=
  forall_settled_iff <| by simp [exampleCall, Pattern.IsStr]

-- A pattern that competes with two others replaces only one of them.
theorem not_forall_settled :
    ¬∀ calls : List Call, (∀ c ∈ calls, c.pattern.IsStr) →
      ∀ pre c post, calls = pre ++ c :: post → Settled (patternTable (pre ++ [c])) c := by
  intro h
  have hs := h [exampleCall "ab", exampleCall "ac", exampleCall "a"]
    (by simp [exampleCall, Pattern.IsStr]) [exampleCall "ab", exampleCall "ac"]
    (exampleCall "a") [] rfl
  have ht : patternTable [exampleCall "ab", exampleCall "ac", exampleCall "a"] =
      [(exampleCall "a").entry, (exampleCall "ac").entry] := by
    decide
  have hp := List.pairwise_cons.mp (ht ▸ hs.free) |>.left
  exact hp _ (List.mem_singleton_self _) ⟨['a'], ['a', 'c'], rfl, rfl, .inl (by decide)⟩

end Logviewer
