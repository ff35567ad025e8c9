import Mathlib.Data.List.Basic

namespace Text

variable {α : Type}

-- The lists occur one after another, each of them as a whole.
inductive InOrder : List (List α) → List α → Prop
  | nil  : InOrder [] w
  | cons : InOrder ps w → InOrder (p :: ps) (x ++ p ++ w)

namespace InOrder

variable {ps : List (List α)} {p w x y : List α}

theorem concat (h : InOrder ps x) : InOrder (ps ++ [p]) (x ++ p ++ y) := by
  induction h
  case nil w => exact .cons .nil
  case cons ps w q z h hi =>
    rw [List.append_assoc (z ++ q), List.append_assoc (z ++ q)]
    exact .cons hi

theorem of_concat (h : InOrder (ps ++ [p]) w) : ∃ x y, w = x ++ p ++ y ∧ InOrder ps x := by
  induction ps generalizing w
  case nil =>
    cases h
    case cons w x _ => exact ⟨x, w, rfl, .nil⟩
  case cons q ps hi =>
    cases h
    case cons z v h =>
      have ⟨x, y, hw, hx⟩ := hi h
      exact ⟨v ++ q ++ x, y, by simp [hw], .cons hx⟩

end InOrder

end Text
