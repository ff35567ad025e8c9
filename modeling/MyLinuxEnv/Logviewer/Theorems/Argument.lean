import Mathlib.Data.Fintype.Basic
import Mathlib.Tactic.FinCases
import Mathlib.Tactic.IntervalCases
import MyLinuxEnv.Logviewer.Parse

open Text

namespace Logviewer

-- The values of all fields that can follow a pattern.
structure Fields where
  fg : Fin 8
  bg : Fin 8
  br : Bool
  bo : Bool
  un : Bool
  re : Bool

def bit (b : Bool) : Char :=
  if b then '1' else '0'

namespace Fields

def chars (f : Fields) : List Char :=
  [Nat.digitChar f.fg, Nat.digitChar f.bg, bit f.br, bit f.bo, bit f.un, bit f.re]

-- The first `k` fields.
def attributes (k : Nat) (f : Fields) : Attributes where
  fg := if 0 < k then some f.fg else none
  bg := if 1 < k then some f.bg else none
  br := 2 < k && f.br
  bo := 3 < k && f.bo
  un := 4 < k && f.un
  re := 5 < k && f.re

end Fields

def fieldsText (cs : List Char) : Str :=
  cs.flatMap fun c => [':', c]

def argument (p : Str) (k : Nat) (f : Fields) : Str :=
  p ++ fieldsText (f.chars.take k)

section Exp

variable {p : Str} {fields : List (Char → Bool)} {cs : List Char}

-- The part of an expression that follows the greedy group.
def expFields (fields : List (Char → Bool)) : Regex Char :=
  fields.foldr (fun p r => .seq (.cls (· = ':')) <| .seq (.group <| .cls p) r) <| .eol (· = '\n')

theorem results_expFields (h : List.Forall₂ (· ·) fields cs) :
    (expFields fields).results (fieldsText cs) = [⟨fieldsText cs, cs.map ([·]), []⟩] := by
  induction h
  case nil          => rfl
  case cons hp _ hi =>
    rw [expFields] at hi
    simp [expFields, fieldsText, Regex.results, hp] at hi ⊢
    simp [hi]

theorem exists_fields_of_results (hn : '\n' ∉ p) (h : (expFields fields).results p ≠ []) :
    ∃ cs, p = fieldsText cs ∧ List.Forall₂ (· ·) fields cs := by
  induction fields generalizing p
  case nil =>
    obtain _ | ⟨c, _ | ⟨d, p⟩⟩ := p
    · exact ⟨[], rfl, .nil⟩
    · simp_all [expFields, Regex.results]
    · contradiction
  case cons q fields hi =>
    obtain _ | ⟨c, _ | ⟨d, p⟩⟩ := p
    · simp [expFields, Regex.results] at h
    · simp [expFields, Regex.results] at h
    · by_cases hc : c = ':'
      case neg => simp [expFields, Regex.results, hc] at h
      case pos =>
        cases hd : q d
        case false => simp [expFields, Regex.results, hc, hd] at h
        case true =>
          have hr : (expFields fields).results p ≠ [] := by
            simpa [expFields, Regex.results, hc, hd] using h
          obtain ⟨cs, hp, hcs⟩ := hi (by simp at hn; exact hn.right.right) hr
          exact ⟨d :: cs, by simp [hc, hp, fieldsText], .cons hd hcs⟩

theorem fieldsText_length (cs : List Char) : (fieldsText cs).length = 2 * cs.length := by
  induction cs
  case nil => rfl
  case cons hi => simp [fieldsText] at hi ⊢; omega

theorem fieldsText_append (cs ds : List Char) :
    fieldsText (cs ++ ds) = fieldsText cs ++ fieldsText ds :=
  List.flatMap_append

theorem match?_exp (hp : '\n' ∉ p ++ fieldsText cs) (h : List.Forall₂ (· ·) fields cs) :
    (exp fields).match? (p ++ fieldsText cs) =
      some ⟨p ++ fieldsText cs, p :: cs.map ([·]), []⟩ := by
  have hm : (expFields fields).match? (fieldsText cs) =
      some ⟨fieldsText cs, cs.map ([·]), []⟩ := by
    rw [Regex.match?, results_expFields h, List.head?_cons]
  refine Regex.match?_star_seq (fun c hc => ?_) hm fun u hu hne => ?_
  case refine_1 => simpa using fun he : c = '\n' => hp (he ▸ hc)
  case refine_2 =>
    by_contra hr
    have hn : '\n' ∉ u := fun hm => hp <| List.mem_append_right _ <| hu.subset hm
    obtain ⟨ds, he, hds⟩ := exists_fields_of_results hn hr
    refine hne <| hu.eq_of_length ?_
    rw [he, fieldsText_length, fieldsText_length, ← h.length_eq, hds.length_eq]

theorem isDigit_of_forall₂ (hf : ∀ q ∈ fields, ∀ c, q c → c.isDigit)
    (h : List.Forall₂ (· ·) fields cs) : ∀ c ∈ cs, c.isDigit := by
  induction h
  case nil          => simp
  case cons hq _ hi =>
    have ⟨hd, hf⟩ := List.forall_mem_cons.mp hf
    exact List.forall_mem_cons.mpr ⟨hd _ hq, hi hf⟩

-- An expression with more fields than there are would have to find some in the pattern.
theorem match?_exp_eq_none (hp : '\n' ∉ p ++ fieldsText cs) (hl : cs.length < fields.length)
    (hf : ∀ q ∈ fields, ∀ c, q c → c.isDigit) (hd : ¬∃ q d, p = q ++ [':', d] ∧ d.isDigit) :
    (exp fields).match? (p ++ fieldsText cs) = none := by
  refine List.head?_eq_none_iff.mpr <| Regex.results_star_seq_eq_nil fun t ht => ?_
  by_contra hr
  have ⟨ds, he, hds⟩ := exists_fields_of_results (fun hm => hp <| ht.subset hm) hr
  obtain ⟨w, hw⟩ := ht
  have hlen : cs.length < ds.length := hds.length_eq ▸ hl
  -- Aligns the fields which the expression finds with the actual ones.
  obtain ⟨es, d, es', rfl, hes⟩ : ∃ es d es', ds = es ++ [d] ++ es' ∧ es'.length = cs.length := by
    have hn : ds.take (ds.length - cs.length) ≠ [] := by
      refine List.length_pos_iff.mp ?_
      simp only [List.length_take]
      omega
    let n := ds.length - cs.length
    refine ⟨(ds.take n).dropLast, (ds.take n).getLast hn, ds.drop n, ?_, by simp [n]; omega⟩
    rw [List.dropLast_append_getLast hn, List.take_append_drop]
  rw [he, fieldsText_append, fieldsText_append, ← List.append_assoc, ← List.append_assoc] at hw
  have ⟨hp, _⟩ := List.append_inj' hw (by simp [fieldsText_length, hes])
  exact hd ⟨w ++ fieldsText es, d, hp.symm, isDigit_of_forall₂ hf hds d <| by simp⟩

end Exp

theorem int_digit (n : Fin 8) : int [Nat.digitChar n] = pure n.val := by
  fin_cases n <;> rfl

theorem int_bit (b : Bool) : int [bit b] = pure b.toNat := by
  cases b <;> rfl

namespace Fields

variable {p : Str} {f : Fields} {k : Nat}

def classes : List (Char → Bool) :=
  [Char.isDigit, Char.isDigit, isBit, isBit, isBit, isBit]

theorem isDigit_of_isBit {c : Char} (h : isBit c) : c.isDigit := by
  simp only [isBit, Bool.or_eq_true, decide_eq_true_eq] at h
  rcases h with rfl | rfl <;> rfl

theorem isDigit_of_mem_classes : ∀ q ∈ classes, ∀ c, q c → c.isDigit := by
  simp only [classes, List.forall_mem_cons, List.not_mem_nil, false_implies, implies_true, and_true]
  exact ⟨fun _ => id, fun _ => id, fun _ => isDigit_of_isBit, fun _ => isDigit_of_isBit,
    fun _ => isDigit_of_isBit, fun _ => isDigit_of_isBit⟩

theorem chars_fit (f : Fields) : List.Forall₂ (· ·) classes f.chars := by
  have hd : ∀ n : Fin 8, (Nat.digitChar n).isDigit := by decide
  have hb : ∀ b, isBit (bit b) := by decide
  simp [classes, chars, hd, hb]

theorem newline_not_mem_argument (h : '\n' ∉ p) (f : Fields) (k : Nat) :
    '\n' ∉ argument p k f := by
  have hc := isDigit_of_forall₂ isDigit_of_mem_classes f.chars_fit
  simp only [argument, fieldsText, List.mem_append, h, List.mem_flatMap, false_or, not_exists,
    not_and]
  rintro c hm hn
  have hd := hc c <| List.mem_of_mem_take hm
  have he : c = '\n' := by simpa [eq_comm] using hn
  exact absurd (he ▸ hd) (by decide)

-- Exactly one of the expressions matches as many fields as there are.
theorem findSome?_exps (h : '\n' ∉ p) (hd : ¬∃ q d, p = q ++ [':', d] ∧ d.isDigit) (f : Fields)
    (hk : k ≤ 6) :
    (exps.findSome? fun exp => (exp.match? <| argument p k f).map (·.groups)) =
      some (p :: (f.chars.take k).map ([·])) := by
  have hn := newline_not_mem_argument h f k
  have hs : (exp (classes.take k)).match? (argument p k f) =
      some ⟨_, p :: (f.chars.take k).map ([·]), []⟩ :=
    match?_exp hn <| List.forall₂_take k f.chars_fit
  have hl : ∀ j, k < j → j ≤ 6 → (exp (classes.take j)).match? (argument p k f) = none := by
    intro j hj hj'
    have hf : ∀ q ∈ classes.take j, ∀ c, q c → c.isDigit := fun q hq =>
      isDigit_of_mem_classes q <| List.mem_of_mem_take hq
    refine match?_exp_eq_none hn ?_ hf hd
    simp only [List.length_take, chars, classes, List.length_cons, List.length_nil]
    omega
  have he : exps = [6, 5, 4, 3, 2, 1, 0].map fun j => exp (classes.take j) := rfl
  rw [he]
  interval_cases k
  case «0»  => rw [List.take_zero] at hs; simp [hl, hs]
  all_goals simp [hl, hs]

end Fields

-- The arguments from which the pattern is recovered are those with at least one field.
theorem parsePatternArguement_eq_iff {p : Str} (h : '\n' ∉ p)
    (hd : ¬∃ q d, p = q ++ [':', d] ∧ d.isDigit) (f : Fields) {k : Nat} (hk : k ≤ 6) :
    parsePatternArguement (argument p k f) =
        .ok (some { f.attributes k with pattern := .str p }) ↔ 1 ≤ k := by
  rw [parsePatternArguement, Option.bind_some, Fields.findSome?_exps h hd f hk]
  interval_cases k
  case «0» =>
    simp only [Fields.chars, groupsPattern]
    exact iff_of_false nofun (by decide)
  all_goals
    simp [Fields.chars, Fields.attributes, int_digit, int_bit, groupsPattern]
    rfl

def exampleFields : Fields :=
  ⟨3, 1, true, true, false, false⟩

theorem parsePatternArguement_eq_iff_of_exampleFields :
    parsePatternArguement (some "error:2::3:1:1".toList) = .ok
        (some { exampleFields.attributes 3 with pattern := .str "error:2:".toList }) ↔ 1 ≤ 3 := by
  refine parsePatternArguement_eq_iff (p := "error:2:".toList) (k := 3) (by decide) ?_
    exampleFields (by decide)
  rintro ⟨q, d, h, hd⟩
  have hl : "error:2:".toList.getLast? = some ':' := rfl
  rw [h, List.append_cons, List.getLast?_concat] at hl
  cases hl
  contradiction

-- Without any fields, the pattern is a tuple.
theorem parsePatternArguement_ne :
    ¬parsePatternArguement (argument "error".toList 0 exampleFields) =
      .ok (some { exampleFields.attributes 0 with pattern := .str "error".toList }) := by
  decide

end Logviewer
