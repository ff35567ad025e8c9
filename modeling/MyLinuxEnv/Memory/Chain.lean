import Mathlib.Data.List.Nodup
import Mathlib.Logic.Function.Basic

namespace Memory

variable {α : Type}

-- The cells of a singly linked list which are reached from `head` by way of `next`, in order.
inductive Chain (next : α → Option α) : Option α → List α → Prop
  | nil  : Chain next none []
  | cons : Chain next (next a) l → Chain next (some a) (a :: l)

-- Follows the links of a list for at most the given number of steps.
def walk (next : α → Option α) : Nat → Option α → List α
  | 0, _          => []
  | _, none       => []
  | n + 1, some a => a :: walk next n (next a)

namespace Chain

variable {next : α → Option α} {head : Option α} {a p : α} {l xs ys : List α}

theorem eq_nil (h : Chain next none l) : l = [] := by
  cases h
  rfl

theorem exists_cons (h : Chain next (some a) l) : ∃ l', l = a :: l' ∧ Chain next (next a) l' := by
  cases h
  case cons l h => exact ⟨l, rfl, h⟩

theorem head_eq (h : Chain next head (a :: l)) : head = some a := by
  cases h
  rfl

theorem tail (h : Chain next head (a :: l)) : Chain next (next a) l := by
  cases h
  assumption

theorem head?_eq (h : Chain next head l) : head = l.head? := by
  cases h <;> rfl

-- The links determine the cells.
theorem unique {l' : List α} (h : Chain next head l) (h' : Chain next head l') : l = l' := by
  induction h generalizing l'
  case nil => exact h'.eq_nil.symm
  case cons hi =>
    have ⟨_, he, h'⟩ := h'.exists_cons
    rw [he, hi h']

theorem suffix (h : Chain next head (xs ++ a :: ys)) : Chain next (some a) (a :: ys) := by
  induction xs generalizing head
  case nil =>
    cases h.head_eq
    exact h
  case cons hi => exact hi h.tail

-- A list which ends never visits a cell twice.
theorem nodup (h : Chain next head l) : l.Nodup := by
  induction h
  case nil => exact List.nodup_nil
  case cons a l h hi =>
    refine List.nodup_cons.mpr ⟨fun hm => ?_, hi⟩
    obtain ⟨xs, ys, rfl⟩ := List.append_of_mem hm
    have hu := congrArg List.length <| h.suffix.unique <| .cons h
    simp at hu
    omega

theorem congr {next' : α → Option α} (h : Chain next head l) (hn : ∀ a ∈ l, next' a = next a) :
    Chain next' head l := by
  induction h
  case nil => exact .nil
  case cons hi =>
    have ⟨ha, hn⟩ := List.forall_mem_cons.mp hn
    exact .cons <| ha ▸ hi hn

theorem walk_eq (h : Chain next head l) {n : Nat} (hn : l.length ≤ n) : walk next n head = l := by
  induction h generalizing n
  case nil => cases n <;> rfl
  case cons hi =>
    cases n
    case zero   => contradiction
    case succ n => exact congrArg _ <| hi <| Nat.le_of_succ_le_succ hn

variable [DecidableEq α]

theorem filter_ne (h : Chain next head (xs ++ a :: ys)) :
    (xs ++ a :: ys).filter (· ≠ a) = xs ++ ys := by
  have hn := List.nodup_middle.mp h.nodup |> List.nodup_cons.mp |>.left
  rw [List.filter_append, List.filter_cons_of_neg (by simp), ← List.filter_append]
  refine List.filter_eq_self.mpr fun b hb => ?_
  simpa using ne_of_mem_of_not_mem hb hn

theorem push (h : Chain next head l) (ha : a ∉ l) :
    Chain (Function.update next a head) (some a) (a :: l) := by
  refine .cons ?_
  rw [Function.update_self]
  exact h.congr fun b hb => Function.update_of_ne (ne_of_mem_of_not_mem hb ha) ..

-- Makes the predecessor of a cell skip it.
theorem unlink (h : Chain next head (xs ++ p :: a :: ys)) :
    Chain (Function.update next p (next a)) head (xs ++ p :: ys) := by
  induction xs generalizing head
  case nil =>
    have hp := List.nodup_cons.mp h.nodup |>.left
    cases h.head_eq
    refine .cons ?_
    rw [Function.update_self]
    exact h.tail.tail.congr fun b hb =>
      Function.update_of_ne (ne_of_mem_of_not_mem hb <| mt (List.mem_cons_of_mem _) hp) ..
  case cons x xs hi =>
    have hx := List.nodup_cons.mp h.nodup |>.left
    cases h.head_eq
    refine .cons ?_
    rw [Function.update_of_ne <| Ne.symm <| ne_of_mem_of_not_mem (by simp) hx]
    exact hi h.tail

end Chain

end Memory
