import MyLinuxEnv.Proxy.Telnet

namespace Proxy

variable {ctrlC : Bool} {k : Nat} {c : Byte} {o o' : Output} {e : Effect}

namespace Output

theorem append_apply : o.append (o'.apply e) = (o.append o').apply e := by
  cases e <;> simp [append, apply]

theorem append_nil : o.append {} = o := by
  simp [append]

theorem append_assoc {o'' : Output} : (o.append o').append o'' = o.append (o'.append o'') := by
  simp [append, Function.comp_def, Nat.add_assoc]

theorem length_append : (o.append o').bytes.length = o.bytes.length + o'.bytes.length :=
  List.length_append ..

end Output

namespace Iac

variable {r t : List Byte} {i : Nat} {s : Iac}

theorem run_succ {n : Nat} : run ctrlC (n + 1) i s = (run ctrlC n i s).step ctrlC (i + n) := by
  induction n generalizing i s
  case zero => rfl
  case succ n hi =>
    rw [run, hi, run, Nat.add_right_comm, Nat.add_assoc]

-- The loop over the read `r`, after `i` steps.
structure Runs (r : List Byte) (i : Nat) (s : Iac) : Prop where
  le : s.j ≤ i
  length : s.buf.length = r.length
  buf : ∀ y, s.j ≤ y → s.buf.getD y 0 = r.getD y 0

theorem Runs.init : Runs r 0 { buf := r, inIAC := k } :=
  ⟨Nat.le_refl 0, rfl, fun _ _ => rfl⟩

theorem Runs.length_output (h : Runs r i s) (hi : i ≤ r.length) :
    s.output.bytes.length = s.j := by
  have hj := h.le
  have hl := h.length
  simp only [output, List.length_take]
  omega

theorem eq_of_effect_keep {d : Byte} {special : Bool} (h : effect k c special = .keep d) :
    d = c := by
  simp only [effect] at h
  repeat' split at h
  all_goals cases h
  rfl

theorem step_eq : s.step ctrlC i =
    let c := s.buf.getD i 0
    match effect s.inIAC c <| ctrlC && s.buf.getD s.j 0 = 3 with
    | .keep c => { s with
        buf := if s.j ≠ i then s.buf.set s.j c else s.buf, j := s.j + 1, inIAC := next s.inIAC c }
    | .brk    => { s with breaks := s.breaks ++ [s.j], inIAC := next s.inIAC c }
    | .drop   => { s with inIAC := next s.inIAC c } := by
  have hf : (0xf3 : Byte) ≠ IAC := by decide
  generalize hc : s.buf.getD i 0 = c
  generalize ht : s.buf.getD s.j 0 = d
  simp only [step, hc, ht]
  by_cases hk : 0 < s.inIAC
  case neg =>
    have hk : s.inIAC = 0 := by omega
    by_cases hI : c = IAC
    case pos => simp [effect, next, hk, hI]
    case neg => by_cases hd : d = 3 <;> cases ctrlC <;> simp [effect, next, hk, hI, hd]
  case pos =>
    by_cases hb : c = 0xf3
    case pos => simp [effect, next, hk, hb, hf]
    case neg =>
      by_cases hI : c = IAC ∧ s.inIAC = 1
      case pos =>
        have hk : ¬3 ≤ s.inIAC := by omega
        simp only [effect, next, hI, hf.symm, and_self, if_true, if_false, Nat.one_pos]
        rw [← hI.right, if_neg hk]
      case neg =>
        by_cases hn : 3 ≤ s.inIAC + 1
        all_goals simp [effect, next, hk, hb, hI, hn]

-- A byte is kept by moving it to the end of what has been kept before.
theorem Runs.keep (h : Runs r i s) (hi : i < r.length) :
    Runs r (i + 1)
      { s with buf := if s.j ≠ i then s.buf.set s.j c else s.buf, j := s.j + 1, inIAC := k } := by
  have hj := h.le
  have hlt : s.j < s.buf.length := by rw [h.length]; omega
  refine ⟨by dsimp only; omega, ?_, fun y hy => ?_⟩
  · split
    · rw [List.length_set, h.length]
    · exact h.length
  · have hy : s.j + 1 ≤ y := hy
    rw [← h.buf y (by omega)]
    split
    · rw [List.getD_eq_getElem?_getD, List.getElem?_set_ne (by omega), ← List.getD_eq_getElem?_getD]
    · rfl

theorem Runs.output_keep (h : Runs r i s) (hi : i < r.length) (hc : s.buf.getD i 0 = c) :
    output { s with
      buf := if s.j ≠ i then s.buf.set s.j c else s.buf, j := s.j + 1, inIAC := k } =
        s.output.apply (.keep c) := by
  have hj := h.le
  have hlt : s.j < s.buf.length := by rw [h.length]; omega
  have hb : (if s.j ≠ i then s.buf.set s.j c else s.buf) = s.buf.set s.j c := by
    split
    case isTrue => rfl
    case isFalse hji =>
      rw [← not_not.mp hji, List.getD_eq_getElem?_getD, List.getElem?_eq_getElem hlt] at hc
      rw [← hc]
      exact (List.set_getElem_self hlt).symm
  simp only [output, Output.apply, hb, Output.mk.injEq, and_true]
  rw [List.take_add_one, List.take_set_of_le (Nat.le_refl _), List.getElem?_set_self hlt]
  rfl

-- A step of the loop changes the buffer only where it has been read already.
variable (ctrlC) in
theorem Runs.step (h : Runs r i s) (hi : i < r.length) :
    Runs r (i + 1) (s.step ctrlC i) ∧ (s.step ctrlC i).inIAC = next s.inIAC (r.getD i 0) ∧
      (s.step ctrlC i).output = s.output.apply
        (effect s.inIAC (r.getD i 0) <| ctrlC && r.getD s.output.bytes.length 0 = 3) := by
  have hlen : s.output.bytes.length = s.j := h.length_output <| Nat.le_of_lt hi
  have hsame {s' : Iac} (hb : s'.buf = s.buf) (hj : s'.j = s.j) : Runs r (i + 1) s' :=
    ⟨hj ▸ Nat.le_succ_of_le h.le, hb ▸ h.length, hb ▸ hj ▸ h.buf⟩
  rw [hlen, ← h.buf i h.le, ← h.buf s.j (Nat.le_refl _), step_eq]
  cases he : effect s.inIAC (s.buf.getD i 0) <| ctrlC && s.buf.getD s.j 0 = 3
  case keep c =>
    have hc := eq_of_effect_keep he
    subst hc
    simp only [he, true_and]
    exact ⟨h.keep hi, h.output_keep hi rfl⟩
  case brk =>
    simp only [he, true_and]
    refine ⟨hsame rfl rfl, ?_⟩
    simp only [output, Output.apply, Output.mk.injEq, true_and]
    exact congrArg (s.breaks ++ [·]) hlen.symm
  case drop =>
    simp only [he, true_and]
    exact ⟨hsame rfl rfl, rfl⟩

theorem run_spec (hi : i ≤ r.length) :
    let s := run ctrlC i 0 { buf := r, inIAC := k }
    Runs r i s ∧ (s.inIAC, s.output) = scan ctrlC k r i := by
  induction i
  case zero => exact ⟨.init, by simp [run, scan, output]⟩
  case succ i ih =>
    have ⟨h, hs⟩ := ih <| Nat.le_of_succ_le hi
    have ⟨h', hk, ho⟩ := h.step ctrlC hi
    simp only [run_succ, Nat.zero_add, scan, ← hs]
    exact ⟨h', by rw [hk, ho]⟩

theorem length_scan : (scan ctrlC k r i).2.bytes.length ≤ i := by
  induction i
  case zero => exact Nat.le_refl 0
  case succ i hi =>
    simp only [scan]
    generalize effect _ _ _ = e
    cases e
    case keep => simpa [Output.apply] using hi
    all_goals exact Nat.le_succ_of_le hi

-- What lies in the buffer behind the bytes that have been read does not matter.
theorem scan_append (hi : i ≤ r.length) : scan ctrlC k (r ++ t) i = scan ctrlC k r i := by
  have hget {y : Nat} (hy : y < r.length) : (r ++ t).getD y 0 = r.getD y 0 := by
    rw [List.getD_eq_getElem?_getD, List.getElem?_append_left hy, ← List.getD_eq_getElem?_getD]
  induction i
  case zero => rfl
  case succ i ih =>
    have hl : (scan ctrlC k r i).2.bytes.length ≤ i := length_scan
    simp only [scan, ih <| Nat.le_of_succ_le hi]
    rw [hget hi, hget <| Nat.lt_of_le_of_lt hl hi]

end Iac

section Receive

open Iac

variable {s : Nat × Output} {r t v w : List Byte}

theorem processIACoptions_eq_scan :
    let s := processIACoptions ctrlC k (r ++ t) r.length
    (s.inIAC, s.output) = scan ctrlC k r r.length := by
  rw [← scan_append (t := t) (Nat.le_refl _)]
  exact (run_spec <| by simp).right

theorem receive_eq : receive ctrlC s r =
    ((scan ctrlC s.1 r r.length).1, s.2.append (scan ctrlC s.1 r r.length).2) := by
  rw [← processIACoptions_eq_scan (t := []), List.append_nil]
  rfl

theorem receiveByte_eq : receiveByte ctrlC s c =
    (next s.1 c, s.2.apply <| effect s.1 c <| ctrlC && c = 3) := by
  simp [receiveByte, receive_eq, scan, Output.append_apply, Output.append_nil]

-- The state in which the byte at an index is read.
theorem scan_fst {i : Nat} (hi : i ≤ r.length) :
    (scan ctrlC k r i).1 = (r.take i).foldl next k := by
  induction i
  case zero => rfl
  case succ i ih =>
    have hget : r.getD i 0 = r[i] := by
      rw [List.getD_eq_getElem?_getD, List.getElem?_eq_getElem hi, Option.getD_some]
    rw [List.take_add_one, List.getElem?_eq_getElem hi, Option.toList_some, List.foldl_append,
      ← ih <| Nat.le_of_succ_le hi, List.foldl_cons, List.foldl_nil, ← hget]
    rfl

-- If the right bytes are tested for the control character, then the read may as well be cut.
theorem receive_eq_foldl (h : ∀ i < r.length,
    let t := scan ctrlC s.1 r i
    effect t.1 (r.getD i 0) (ctrlC && r.getD t.2.bytes.length 0 = 3) =
      effect t.1 (r.getD i 0) (ctrlC && r.getD i 0 = 3)) :
    receive ctrlC s r = r.foldl (receiveByte ctrlC) s := by
  suffices hs : ∀ i ≤ r.length, ((scan ctrlC s.1 r i).1, s.2.append (scan ctrlC s.1 r i).2) =
      (r.take i).foldl (receiveByte ctrlC) s by
    rw [receive_eq, hs r.length (Nat.le_refl _), List.take_length]
  intro i hi
  induction i
  case zero => simp [scan, Output.append_nil]
  case succ i ih =>
    have hget : r[i]? = some (r.getD i 0) := by
      rw [List.getD_eq_getElem?_getD, List.getElem?_eq_getElem hi, Option.getD_some]
    rw [List.take_add_one, hget, Option.toList_some, List.foldl_append,
      ← ih <| Nat.le_of_succ_le hi,
      List.foldl_cons, List.foldl_nil, receiveByte_eq, ← h i hi, ← Output.append_apply]
    rfl

theorem foldl_receiveByte : w.foldl (receiveByte ctrlC) (k, o) =
    ((w.foldl (receiveByte ctrlC) (k, {})).1,
      o.append (w.foldl (receiveByte ctrlC) (k, {})).2) := by
  induction w generalizing k o
  case nil => simp [Output.append_nil]
  case cons c w hi =>
    simp only [List.foldl_cons, receiveByte_eq]
    rw [hi, hi (o := Output.apply {} _), ← Output.append_assoc, Output.append_apply,
      Output.append_nil]

end Receive

end Proxy
