import Mathlib.Data.List.Basic

namespace Text

variable {α : Type} [BEq α] [LawfulBEq α] {a : α} {l acc : List α}

-- Appends an element that has not been there before.
def addNew (acc : List α) (a : α) : List α :=
  if a ∈ acc then acc else acc ++ [a]

theorem filter_not_mem_concat (a : α) (l acc : List α) :
    l.filter (· ∉ acc ++ [a]) = (l.filter (· ∉ acc)).filter fun b => !b == a := by
  rw [List.filter_filter]
  exact List.filter_congr fun b _ => by by_cases hb : b = a <;> simp [hb]

-- The elements are added in the order in which they appear for the first time.
theorem foldl_addNew (l acc : List α) :
    l.foldl addNew acc = acc ++ (l.filter (· ∉ acc)).eraseDups := by
  induction l generalizing acc
  case nil => simp
  case cons a l hi =>
    by_cases ha : a ∈ acc
    case pos => simpa [addNew, ha] using hi acc
    case neg =>
      rw [List.foldl_cons, addNew, if_neg ha, hi, List.filter_cons_of_pos (by simpa using ha),
        List.eraseDups_cons, filter_not_mem_concat, List.append_assoc]
      rfl

omit [LawfulBEq α] in
theorem head?_eraseDups (l : List α) : l.eraseDups.head? = l.head? := by
  cases l
  case nil  => rfl
  case cons => rw [List.eraseDups_cons]; rfl

-- An element in front makes no difference exactly if it would be the first one anyway.
theorem eraseDups_cons_eq_iff : (a :: l).eraseDups = l.eraseDups ↔ l.head? = some a := by
  constructor
  case mp =>
    intro h
    rw [← head?_eraseDups l, ← h, head?_eraseDups]
    rfl
  case mpr =>
    intro h
    obtain ⟨l', hl⟩ : ∃ l', l = a :: l' := by cases l <;> simp_all
    simp [hl, List.eraseDups_cons]

theorem nodup_eraseDups (l : List α) : l.eraseDups.Nodup := by
  induction hn : l.length using Nat.strongRecOn generalizing l
  case ind n ih =>
    cases l
    case nil => exact List.nodup_nil
    case cons a l =>
      rw [List.eraseDups_cons]
      refine List.nodup_cons.mpr ⟨fun hm => ?_, ih _ ?_ _ rfl⟩
      case refine_1 => simpa using (List.mem_filter.mp <| List.mem_eraseDups.mp hm).right
      case refine_2 => exact hn ▸ Nat.lt_succ_of_le (List.length_filter_le ..)

-- The order of the elements has no influence on which of them are there.
theorem perm_eraseDups {l l' : List α} (h : l.Perm l') : l.eraseDups.Perm l'.eraseDups := by
  refine (List.perm_ext_iff_of_nodup (nodup_eraseDups l) (nodup_eraseDups l')).mpr fun a => ?_
  rw [List.mem_eraseDups, List.mem_eraseDups, h.mem_iff]

end Text
