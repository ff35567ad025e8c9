import Mathlib.Data.Nat.Notation

namespace Memory

section Cells

variable {write : σ → ω → σ} {hits : ω → Bool} {value : ω → ν}

-- A cell holds what the last write that hits it has put there.
theorem foldl_eq_last_hit (cell : σ → ν)
    (hit : ∀ s w, hits w → cell (write s w) = value w)
    (miss : ∀ s w, ¬hits w → cell (write s w) = cell s) (ws : List ω) (s : σ) :
    cell (ws.foldl write s) = ((ws.filter hits).getLast?.map value).getD (cell s) := by
  induction ws generalizing s
  case nil => rfl
  case cons w ws hi =>
    simp only [List.foldl_cons, hi]
    cases h : hits w
    case false => simp [h, miss s w (by simp [h])]
    case true =>
      simp only [List.filter_cons, h, if_true, List.getLast?_cons, Option.map_some]
      cases (ws.filter hits).getLast? <;> simp [hit s w h]

end Cells

section Buffers

-- New contents are put at the front of a buffer, which keeps what lies behind them.
def overlay (buf new : List α) : List α :=
  new ++ buf.drop new.length

def overlays (buf : List α) (news : List (List α)) : List α :=
  news.foldl overlay buf

@[simp]
theorem overlay_nil (buf : List α) : overlay buf [] = buf := rfl

theorem overlays_concat (buf : List α) (news : List (List α)) (new : List α) :
    overlays buf (news ++ [new]) = overlay (overlays buf news) new := by
  simp [overlays]

theorem overlay_concat {buf new : List α} (h : new.length < buf.length) (c : α) :
    overlay buf (new ++ [c]) = (overlay buf new).set new.length c := by
  rw [overlay, overlay, List.set_append_right _ _ (Nat.le_refl _), Nat.sub_self,
    List.append_assoc, List.length_append, List.drop_eq_getElem_cons h]
  rfl

theorem length_overlay {buf new : List α} (h : new.length ≤ buf.length) :
    (overlay buf new).length = buf.length := by
  simp [overlay]
  omega

theorem length_overlays {buf : List α} {news : List (List α)}
    (h : ∀ new ∈ news, new.length ≤ buf.length) : (overlays buf news).length = buf.length := by
  induction news generalizing buf
  case nil => rfl
  case cons new news hi =>
    have hl : (overlay buf new).length = buf.length := length_overlay <| h new List.mem_cons_self
    have ho : (overlays (overlay buf new) news).length = (overlay buf new).length :=
      hi fun m hm => hl ▸ h m (List.mem_cons_of_mem _ hm)
    exact ho.trans hl

-- Nothing is left of contents that were not longer.
theorem drop_overlays_of_le {n : Nat} {news : List (List α)} (h : ∀ new ∈ news, new.length ≤ n)
    (buf : List α) : (overlays buf news).drop n = buf.drop n := by
  induction news generalizing buf
  case nil => rfl
  case cons new news hi =>
    simp only [List.forall_mem_cons] at h
    refine (hi h.2 (overlay buf new)).trans ?_
    rw [overlay, List.drop_append, List.drop_of_length_le h.1, List.nil_append, List.drop_drop]
    congr 1
    omega

end Buffers

end Memory
