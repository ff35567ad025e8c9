import MyLinuxEnv.Proxy.Theorems.Telnet

namespace Proxy

open Iac

variable {w r : List Byte} {p q i k : Nat} {c : Byte}

theorem getD_drop : (w.drop p).getD i 0 = w.getD (p + i) 0 := by
  simp [List.getD_eq_getElem?_getD]

theorem stateAt_add : stateAt w (p + i) = ((w.drop p).take i).foldl next (stateAt w p) := by
  rw [stateAt, stateAt, List.take_add, List.foldl_append]

section Kept

-- The number of bytes which a read that begins at a position keeps of its first `i` bytes.
def kept (w : List Byte) (p i : Nat) : Nat :=
  (scan true (stateAt w p) (w.drop p) i).2.bytes.length

theorem effect_of_data {special : Bool} (hk : k = 0) (hc : c ≠ IAC) :
    effect k c special = if special then .brk else .keep c := by
  simp [effect, hk, hc]

theorem effect_of_command {special : Bool} (h : ¬(k = 0 ∧ c ≠ IAC)) :
    effect k c special = if c = 0xf3 then .brk else .drop := by
  have hf : IAC ≠ 0xf3 := by decide
  simp only [effect]
  grind

theorem scan_stateAt (hp : p + i ≤ w.length) :
    (scan true (stateAt w p) (w.drop p) i).1 = stateAt w (p + i) := by
  rw [stateAt_add, scan_fst <| by rw [List.length_drop]; omega]

theorem kept_of_data (h : IsData w (p + i)) : kept w p (i + 1) =
    if w.getD (p + kept w p i) 0 = 3 then kept w p i else kept w p i + 1 := by
  have ⟨hl, hs, hc⟩ := h
  simp only [kept, scan, getD_drop]
  rw [effect_of_data ((scan_stateAt <| Nat.le_of_lt hl).trans hs) hc]
  split <;> simp_all [Output.apply]

theorem kept_of_command (hl : p + i < w.length) (h : ¬IsData w (p + i)) :
    kept w p (i + 1) = kept w p i := by
  simp only [kept, scan, getD_drop]
  rw [effect_of_command]
  · split <;> rfl
  · rintro ⟨hs, hc⟩
    exact h ⟨hl, (scan_stateAt <| Nat.le_of_lt hl).symm.trans hs, hc⟩

theorem kept_zero : kept w p 0 = 0 :=
  rfl

theorem kept_le : kept w p i ≤ i :=
  length_scan

theorem kept_succ (hl : p + i < w.length) : kept w p i ≤ kept w p (i + 1) ∧
    kept w p (i + 1) ≤ kept w p i + 1 := by
  by_cases h : IsData w (p + i)
  case pos => rw [kept_of_data h]; split <;> omega
  case neg => rw [kept_of_command hl h]; omega

-- Commands do not contribute to what is kept.
theorem kept_of_commands {j : Nat} (hij : i ≤ j) (hl : p + j ≤ w.length)
    (h : ∀ x, i ≤ x → x < j → ¬IsData w (p + x)) : kept w p j = kept w p i := by
  induction hij
  case refl => rfl
  case step j hij hi =>
    rw [kept_of_command (by omega) <| h j hij (Nat.lt_succ_self j)]
    exact hi (by omega) fun x hx hxj => h x hx (Nat.lt_succ_of_lt hxj)

theorem kept_le_of_command (h : ¬IsData w p) (hl : p + i < w.length) : kept w p (i + 1) ≤ i := by
  induction i
  case zero => exact Nat.le_of_eq <| kept_of_command hl h
  case succ i hi =>
    have := hi (by omega)
    have := (kept_succ (p := p) (i := i + 1) hl).right
    omega

-- If not everything is kept, then some byte in front of the one which is tested has been removed.
theorem exists_removed (hl : p + i ≤ w.length) (h : kept w p i < i) :
    ∃ m ≤ kept w p i, w.getD (p + m) 0 = 3 ∨ ¬IsData w (p + m) := by
  induction i
  case zero => contradiction
  case succ i hi =>
    have ⟨hle, hsucc⟩ := kept_succ (p := p) (i := i) hl
    by_cases hlt : kept w p i < i
    case pos =>
      have ⟨m, hm, hr⟩ := hi (by omega) hlt
      exact ⟨m, Nat.le_trans hm hle, hr⟩
    case neg =>
      have heq : kept w p i = i := Nat.le_antisymm kept_le (by omega)
      refine ⟨i, by omega, ?_⟩
      by_cases hd : IsData w (p + i)
      case neg => exact .inr hd
      case pos =>
        have hk := kept_of_data hd
        rw [heq] at hk
        split at hk
        case isTrue h3 => exact .inl h3
        case isFalse   => omega

end Kept

section Agreement

-- The byte which is tested for the control character tells if the one which is read is it.
def Agrees (w : List Byte) (p i : Nat) : Prop :=
  IsData w (p + i) → (w.getD (p + kept w p i) 0 = 3 ↔ w.getD (p + i) 0 = 3)

theorem agrees_of_uniform (h : Uniform w) (hi : i < IO_BUFSIZE) : Agrees w p i := by
  intro hd
  have hl := hd.left
  by_cases hlt : kept w p i < i
  case neg => rw [Nat.le_antisymm kept_le (Nat.not_lt.mp hlt)]
  case pos =>
    have ⟨m, hm, hr⟩ := exists_removed (Nat.le_of_lt hl) hlt
    constructor
    case mp => exact h.control _ _ (by omega) (by omega) hd
    case mpr =>
      intro hq
      by_contra ht
      have hm3 : w.getD (p + m) 0 = 3 := by
        by_contra hm3
        exact h.command (p + m) (p + i) (by omega) (by omega) hd (hr.resolve_left hm3) hm3 hq
      have hmk : m ≠ kept w p i := by
        rintro rfl
        exact ht hm3
      by_cases htd : IsData w (p + kept w p i)
      case pos => exact ht <| h.control (p + m) _ (by omega) (by omega) htd hm3
      case neg => exact h.command _ (p + i) (by omega) (by omega) hd htd ht hq

-- What a uniform stream promises about two of its bytes.
def Alike (w : List Byte) (p q : Nat) : Prop :=
  (w.getD p 0 = 3 → w.getD q 0 = 3) ∧ (¬IsData w p → w.getD p 0 ≠ 3 → w.getD q 0 ≠ 3)

-- Either there are data in between, or the byte which is tested is the first one.
theorem control_of_agrees (h : Agrees w p i) (hi : 0 < i) (hq : IsData w (p + i))
    (hclose : ∀ {x y}, x < y → y - x < i → IsData w y → Alike w x y) (hp : w.getD p 0 = 3) :
    w.getD (p + i) 0 = 3 := by
  have hl := hq.left
  by_cases hx : ∃ x, p < x ∧ x < p + i ∧ IsData w x
  case pos =>
    have ⟨x, hpx, hxq, hdx⟩ := hx
    have hx3 := (hclose hpx (by omega) hdx).left hp
    exact (hclose hxq (by omega) hq).left hx3
  case neg =>
    have hone : kept w p 1 = 0 := by
      by_cases hdp : IsData w p
      case pos => rw [kept_of_data hdp, kept_zero, Nat.add_zero, if_pos hp]
      case neg => exact kept_of_command (i := 0) (by omega) hdp
    have hkept : kept w p i = 0 := by
      rw [← hone]
      refine kept_of_commands hi (Nat.le_of_lt hl) fun y hy hyd hdy => hx ⟨p + y, ?_, ?_, hdy⟩
      all_goals omega
    have ha := h hq
    rw [hkept, Nat.add_zero] at ha
    exact ha.mp hp

-- Otherwise the byte which is tested would belong to a command, with no data behind it, so that
-- fewer bytes would have been kept.
theorem command_of_agrees (h : Agrees w p i) (hi : 0 < i) (hq : IsData w (p + i))
    (hclose : ∀ {x y}, x < y → y - x < i → IsData w y → Alike w x y) (hdp : ¬IsData w p)
    (hp : w.getD p 0 ≠ 3) : w.getD (p + i) 0 ≠ 3 := by
  intro hq3
  have hl := hq.left
  have ht := (h hq).mpr hq3
  obtain ⟨d, rfl⟩ := Nat.exists_eq_succ_of_ne_zero <| Nat.ne_of_gt hi
  have hkd := kept_le_of_command hdp (i := d) (by omega)
  have hk0 : kept w p (d + 1) ≠ 0 := by
    intro hk
    rw [hk, Nat.add_zero] at ht
    exact hp ht
  obtain ⟨m, hm⟩ := Nat.exists_eq_succ_of_ne_zero hk0
  rw [hm] at ht
  have hnot {y : Nat} (hy : m + 1 ≤ y) (hyd : y < d + 1) (hy3 : w.getD (p + y) 0 = 3) :
      ¬IsData w (p + y) :=
    fun hdy => (hclose (by omega) (by omega) hdy).right hdp hp hy3
  have hno : ∀ y, m + 1 ≤ y → y < d + 1 → ¬IsData w (p + y) := by
    intro y hy hyd hdy
    by_cases hym : y = m + 1
    case pos => exact hnot hy hyd (hym ▸ ht) hdy
    case neg =>
      have hy3 := (hclose (x := p + (m + 1)) (by omega) (by omega) hdy).left ht
      exact hnot hy hyd hy3 hdy
  have hsame := kept_of_commands (p := p) (i := m + 1) (j := d + 1) (by omega) (by omega) hno
  have hle := kept_le_of_command hdp (i := m) (by omega)
  omega

-- By induction on the distance of the two bytes.
theorem alike_of_agrees (h : ∀ p i, i < IO_BUFSIZE → Agrees w p i) (hi : 0 < i)
    (hb : i < IO_BUFSIZE) (hq : IsData w (p + i)) : Alike w p (p + i) := by
  induction i using Nat.strongRecOn generalizing p
  case ind i ih =>
    have hclose {x y : Nat} (hxy : x < y) (hyx : y - x < i) (hy : IsData w y) : Alike w x y := by
      have he : x + (y - x) = y := by omega
      exact he ▸ ih (y - x) hyx (by omega) (by omega) (he.symm ▸ hy)
    constructor
    case left  => exact control_of_agrees (h p i hb) hi hq hclose
    case right => exact command_of_agrees (h p i hb) hi hq hclose

theorem uniform_of_agrees (h : ∀ p i, i < IO_BUFSIZE → Agrees w p i) : Uniform w := by
  have halike {p q : Nat} (hpq : p < q) (hq : q < p + IO_BUFSIZE) (hd : IsData w q) :
      Alike w p q := by
    have ⟨d, hd'⟩ := Nat.exists_eq_add_of_lt hpq
    subst hd'
    exact alike_of_agrees h (i := d + 1) (by omega) (by omega) hd
  constructor
  case control => exact fun p q hpq hq hd => (halike hpq hq hd).left
  case command => exact fun p q hpq hq hd => (halike hpq hq hd).right

end Agreement

section Reads

variable {reads : List (List Byte)} {s : Nat × Output} {o : Output}

theorem getD_append_left {t : List Byte} (hi : i < r.length) :
    (r ++ t).getD i 0 = r.getD i 0 := by
  rw [List.getD_eq_getElem?_getD, List.getElem?_append_left hi, ← List.getD_eq_getElem?_getD]

-- The end of what has been read does not matter for what is kept at its beginning.
theorem kept_eq {t : List Byte} (hw : w.drop p = r ++ t) (hi : i ≤ r.length) :
    kept w p i = (scan true (stateAt w p) r i).2.bytes.length := by
  rw [kept, hw, scan_append hi]

theorem receive_of_agrees {t : List Byte} (h : ∀ i < r.length, Agrees w p i)
    (hw : w.drop p = r ++ t) (hs : s.1 = stateAt w p) (hp : p ≤ w.length) :
    receive true s r = r.foldl (receiveByte true) s := by
  have hlen : p + (r.length + t.length) = w.length := by
    have hl := congrArg List.length hw
    rw [List.length_drop, List.length_append] at hl
    omega
  have hget {i : Nat} (hi : i < r.length) : w.getD (p + i) 0 = r.getD i 0 := by
    rw [← getD_drop, hw, getD_append_left hi]
  refine receive_eq_foldl fun i hi => ?_
  have hk := kept_eq hw <| Nat.le_of_lt hi
  have hst : (scan true (stateAt w p) r i).1 = stateAt w (p + i) := by
    rw [← scan_append (t := t) (Nat.le_of_lt hi), ← hw, scan_stateAt (by omega)]
  rw [hs]
  dsimp only
  rw [hst, ← hk, ← hget hi, ← hget (Nat.lt_of_le_of_lt kept_le hi)]
  by_cases hd : IsData w (p + i)
  case pos => simp only [h i hi hd]
  case neg =>
    have hc : ¬(stateAt w (p + i) = 0 ∧ w.getD (p + i) 0 ≠ IAC) := fun hc =>
      hd ⟨by omega, hc.left, hc.right⟩
    rw [effect_of_command hc, effect_of_command hc]

theorem stateAt_foldl : (w.foldl (receiveByte true) s).1 = w.foldl next s.1 := by
  induction w generalizing s
  case nil => rfl
  case cons hi => rw [List.foldl_cons, hi, receiveByte_eq, List.foldl_cons]

-- Uniform streams are filtered byte by byte, however they are cut.
theorem receive_of_uniform {v : List Byte} (h : Uniform w) (hw : w = v ++ reads.flatten)
    (hr : ∀ r ∈ reads, r.length ≤ IO_BUFSIZE) (hs : s.1 = stateAt w v.length) :
    reads.foldl (receive true) s = reads.flatten.foldl (receiveByte true) s := by
  induction reads generalizing v s
  case nil => rfl
  case cons r reads ih =>
    have ⟨hrl, hr⟩ := List.forall_mem_cons.mp hr
    rw [List.flatten_cons] at hw
    have hdrop : w.drop v.length = r ++ reads.flatten := by rw [hw, List.drop_left]
    have hv : v.length ≤ w.length := by rw [hw, List.length_append]; omega
    have hread : receive true s r = r.foldl (receiveByte true) s :=
      receive_of_agrees (fun i hi => agrees_of_uniform h <| Nat.lt_of_lt_of_le hi hrl) hdrop hs hv
    rw [List.foldl_cons, List.flatten_cons, List.foldl_append, hread]
    refine ih (v := v ++ r) (by rw [hw, List.append_assoc]) hr ?_
    rw [stateAt_foldl, hs, List.length_append, stateAt_add, hdrop, List.take_left]

-- The reads which cut a part of a stream out of it, and take the remainder byte by byte.
def around (w : List Byte) (p n : Nat) (reads : List (List Byte)) : List (List Byte) :=
  (w.take p).map ([·]) ++ reads ++ (w.drop (p + n)).map ([·])

theorem isCut_around {n : Nat} (hf : reads.flatten = (w.drop p).take n)
    (hr : ∀ r ∈ reads, r ≠ [] ∧ r.length ≤ IO_BUFSIZE) : IsCut w (around w p n reads) where
  flatten := by
    have hs (v : List Byte) : (v.map ([·])).flatten = v := by
      rw [← List.flatMap_def, List.flatMap_singleton']
    rw [around, List.flatten_append, List.flatten_append, hs, hs, hf, List.append_assoc,
      ← List.drop_drop, List.take_append_drop, List.take_append_drop]
  read r hm := by
    simp only [around, List.mem_append, List.mem_map] at hm
    rcases hm with (⟨c, _, rfl⟩ | hm) | ⟨c, _, rfl⟩
    case inl.inr => exact hr r hm
    all_goals
      refine ⟨List.cons_ne_nil c [], ?_⟩
      rw [List.length_singleton]
      decide

theorem receiveAll_around {n : Nat} : receiveAll true (around w p n reads) =
    (w.drop (p + n)).foldl (receiveByte true)
      (reads.foldl (receive true) <| (w.take p).foldl (receiveByte true) (0, {})) := by
  simp only [receiveAll, around, List.foldl_append, List.foldl_map]
  rfl

-- A byte may be read together with what is in front of it, or on its own.
theorem receive_concat : receive true s (r ++ [c]) =
    let t := scan true s.1 r r.length
    (next t.1 c, (s.2.append t.2).apply <| effect t.1 c <|
      decide ((r ++ [c]).getD t.2.bytes.length 0 = 3)) := by
  have hc : (r ++ [c]).getD r.length 0 = c := by simp [List.getD_eq_getElem?_getD]
  rw [receive_eq, List.length_append, List.length_singleton, scan,
    scan_append (Nat.le_refl _)]
  simp only [hc, Bool.true_and, Output.append_apply]

theorem receiveByte_receive : receiveByte true (receive true s r) c =
    let t := scan true s.1 r r.length
    (next t.1 c, (s.2.append t.2).apply <| effect t.1 c <| decide (c = 3)) := by
  rw [receiveByte_eq, receive_eq]
  rfl

-- The number of bytes which are kept tells a break from data.
theorem eq_of_length_apply {a b : Bool}
    (h : (o.apply (if a then .brk else .keep c)).bytes.length =
      (o.apply (if b then .brk else .keep c)).bytes.length) : a = b := by
  cases a <;> cases b <;> simp [Output.apply] at h ⊢

theorem agrees_of_cuts (h : ∀ reads reads', IsCut w reads → IsCut w reads' →
    (receiveAll true reads).2 = (receiveAll true reads').2) (hi : i < IO_BUFSIZE) :
    Agrees w p i := by
  intro hd
  have ⟨hl, hst, hc⟩ := hd
  by_cases hi0 : i = 0
  case pos => rw [hi0, kept_zero]
  case neg =>
    have ⟨r, hr⟩ : ∃ r, r = (w.drop p).take i := ⟨_, rfl⟩
    have ⟨c, hc'⟩ : ∃ c, c = w.getD (p + i) 0 := ⟨_, rfl⟩
    have hlen : r.length = i := by
      rw [hr, List.length_take, List.length_drop]
      omega
    have htake : r ++ [c] = (w.drop p).take (i + 1) := by
      rw [List.take_add_one, ← hr, List.getElem?_drop, List.getElem?_eq_getElem hl, hc',
        List.getD_eq_getElem?_getD, List.getElem?_eq_getElem hl]
      rfl
    have hdrop : w.drop p = (r ++ [c]) ++ (w.drop p).drop (i + 1) := by
      rw [htake, List.take_append_drop]
    have hne : r ≠ [] := by
      rintro rfl
      exact hi0 hlen.symm
    have h₁ : IsCut w (around w p (i + 1) [r ++ [c]]) := by
      refine isCut_around (by simp [htake]) <| List.forall_mem_singleton.mpr ⟨by simp, ?_⟩
      rw [List.length_append, List.length_singleton, hlen]
      exact hi
    have h₂ : IsCut w (around w p (i + 1) [r, [c]]) := by
      refine isCut_around (by simp [← htake]) <| List.forall_mem_cons.mpr ⟨⟨hne, by omega⟩, ?_⟩
      exact List.forall_mem_singleton.mpr ⟨by simp, by rw [List.length_singleton]; decide⟩
    have hout := h _ _ h₁ h₂
    rw [receiveAll_around, receiveAll_around, List.foldl_cons, List.foldl_nil, List.foldl_cons,
      List.foldl_cons, List.foldl_nil, ← receiveByte, receive_concat, receiveByte_receive] at hout
    have hs : ((w.take p).foldl (receiveByte true) (0, {})).1 = stateAt w p := stateAt_foldl
    have hk : kept w p i = (scan true (stateAt w p) r r.length).2.bytes.length := by
      rw [kept_eq hdrop (by rw [List.length_append]; omega), scan_append (by omega), hlen]
    have ht : (scan true (stateAt w p) r r.length).1 = stateAt w (p + i) := by
      rw [scan_fst (Nat.le_refl _), List.take_length, stateAt_add, ← hr]
    have hget : (r ++ [c]).getD (kept w p i) 0 = w.getD (p + kept w p i) 0 := by
      rw [← getD_drop, hdrop]
      refine (getD_append_left ?_).symm
      rw [List.length_append, List.length_singleton, hlen]
      exact Nat.lt_succ_of_le kept_le
    rw [← hc'] at hc
    dsimp only at hout
    rw [hs, ht, ← hk, hget, effect_of_data hst hc, effect_of_data hst hc, foldl_receiveByte,
      foldl_receiveByte (o := Output.apply _ (if decide (c = 3) then _ else _))] at hout
    have hlength := congrArg (·.bytes.length) hout
    simp only [Output.length_append, Nat.add_right_cancel_iff] at hlength
    rw [← hc']
    exact decide_eq_decide.mp <| eq_of_length_apply hlength

-- The output does not depend on how a stream is cut, if and only if the stream is uniform.
theorem receiveAll_eq_iff : (∀ reads reads', IsCut w reads → IsCut w reads' →
    (receiveAll true reads).2 = (receiveAll true reads').2) ↔ Uniform w := by
  constructor
  case mp => exact fun h => uniform_of_agrees fun p i hi => agrees_of_cuts h hi
  case mpr =>
    intro h reads reads' hr hr'
    have hrun {reads : List (List Byte)} (hr : IsCut w reads) :
        receiveAll true reads = w.foldl (receiveByte true) (0, {}) := by
      have he := receive_of_uniform (v := []) (s := (0, {})) h hr.flatten.symm
        (fun r hm => (hr.read r hm).right) rfl
      rwa [hr.flatten] at he
    rw [hrun hr, hrun hr']

-- The byte behind a control character is taken for another one.
theorem receiveAll_ne_of_control : ∃ reads reads', IsCut [3, 97] reads ∧ IsCut [3, 97] reads' ∧
    (receiveAll true reads).2 ≠ (receiveAll true reads').2 := by
  refine ⟨[[3, 97]], [[3], [97]], ⟨rfl, ?_⟩, ⟨rfl, ?_⟩, by decide⟩
  all_goals decide

end Reads

end Proxy
