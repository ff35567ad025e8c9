import MyLinuxEnv.Proxy.Theorems.Telnet

namespace Proxy

open Iac

variable {c : Byte} {o : Output} {items : List Item} {reads : List (List Byte)} {w : List Byte}

-- Where the control character is not special, reads can be cut anywhere.
theorem receiveAll_eq_foldl :
    receiveAll false reads = reads.flatten.foldl (receiveByte false) (0, {}) := by
  rw [receiveAll, List.foldl_flatten]
  congr
  funext s r
  exact receive_eq_foldl fun _ _ => rfl

-- The escape itself is never kept.
theorem not_mem_foldl {s : Nat × Output} (h : IAC ∉ s.2.bytes) :
    IAC ∉ (w.foldl (receiveByte false) s).2.bytes := by
  induction w generalizing s
  case nil => exact h
  case cons c w hi =>
    refine hi ?_
    rw [receiveByte_eq]
    cases he : effect s.1 c (false && c = 3)
    case keep d =>
      have hI : IAC ≠ d := by
        rintro rfl
        have hc := eq_of_effect_keep he
        simp only [effect, ← hc, if_true] at he
        repeat' split at he
        all_goals contradiction
      simpa [Output.apply] using ⟨h, hI⟩
    all_goals simpa [Output.apply] using h

section Items

-- The data which is sent without an escape.
def Item.isPlain : Item → Prop
  | .data c => c ≠ IAC
  | _       => True

-- The options which the filter takes for a break.
def Item.isBreakOption : Item → Bool
  | .option _ c _ => c = 0xf3
  | _             => false

theorem Verb.byte_ne (verb : Verb) : verb.byte ≠ IAC ∧ verb.byte ≠ 0xf3 := by
  cases verb <;> decide

theorem receiveByte_escape : receiveByte false (0, o) IAC = (1, o) := by
  simp [receiveByte_eq, next, effect, Output.apply]

theorem receiveByte_verb (verb : Verb) : receiveByte false (1, o) verb.byte = (2, o) := by
  have ⟨hI, hb⟩ := verb.byte_ne
  simp [receiveByte_eq, next, effect, Output.apply, hI, hb]

theorem receiveByte_opt : receiveByte false (2, o) c =
    (0, if c = 0xf3 then o.apply .brk else o) := by
  by_cases hc : c = 0xf3
  all_goals simp [receiveByte_eq, next, effect, Output.apply, hc]

theorem receiveByte_brk : receiveByte false (1, o) 0xf3 = (0, o.apply .brk) := by
  have hf : (0xf3 : Byte) ≠ IAC := by decide
  simp [receiveByte_eq, next, effect, hf]

theorem receiveByte_data (h : c ≠ IAC) : receiveByte false (0, o) c = (0, o.apply (.keep c)) := by
  simp [receiveByte_eq, next, effect, h]

theorem foldl_encode_item {item : Item} (h : item.isPlain) :
    ∃ o', item.encode.foldl (receiveByte false) (0, o) = (0, o') ∧
      o'.bytes = o.bytes ++ item.data?.toList ∧ o'.breaks.length = o.breaks.length +
        (if item = .brk then 1 else 0) + if item.isBreakOption then 1 else 0 := by
  cases item
  case data c =>
    have hc : c ≠ IAC := h
    refine ⟨o.apply (.keep c), ?_, ?_, ?_⟩
    · simp [Item.encode, hc, receiveByte_data]
    all_goals simp [Item.data?, Item.isBreakOption, Output.apply]
  case option verb c hc =>
    refine ⟨if c = 0xf3 then o.apply .brk else o, ?_, ?_, ?_⟩
    · simp [Item.encode, receiveByte_escape, receiveByte_verb, receiveByte_opt]
    all_goals by_cases hf : c = 0xf3 <;> simp [Item.data?, Item.isBreakOption, Output.apply, hf]
  case brk =>
    refine ⟨o.apply .brk, ?_, ?_, ?_⟩
    · simp [Item.encode, receiveByte_escape, receiveByte_brk]
    all_goals simp [Item.data?, Item.isBreakOption, Output.apply]

-- What the filter makes of a stream whose data does not contain the escape.
theorem foldl_encode (h : ∀ item ∈ items, item.isPlain) :
    ∃ o', (encode items).foldl (receiveByte false) (0, o) = (0, o') ∧
      o'.bytes = o.bytes ++ items.filterMap Item.data? ∧ o'.breaks.length = o.breaks.length +
        items.count .brk + items.countP Item.isBreakOption := by
  induction items generalizing o
  case nil => exact ⟨o, rfl, by simp, rfl⟩
  case cons item items hi =>
    have ⟨hitem, hitems⟩ := List.forall_mem_cons.mp h
    have ⟨o₁, ho₁, hb₁, hk₁⟩ := foldl_encode_item (o := o) hitem
    have ⟨o₂, ho₂, hb₂, hk₂⟩ := hi (o := o₁) hitems
    refine ⟨o₂, ?_, ?_, ?_⟩
    · rw [encode, List.flatMap_cons, List.foldl_append, ho₁]
      exact ho₂
    · rw [hb₂, hb₁, List.append_assoc]
      cases hd : item.data? <;> simp [hd]
    · rw [hk₂, hk₁, List.countP_cons, List.count_cons]
      simp only [beq_iff_eq]
      omega

-- The filter undoes the encoding, if and only if the data does not contain the escape and no
-- option is taken for a break.
theorem decodes_iff (hr : reads.flatten = encode items) :
    Decodes items (receiveAll false reads) ↔ (∀ c, .data c ∈ items → c ≠ IAC) ∧
      ∀ verb c h, .option verb c h ∈ items → c ≠ 0xf3 := by
  have hplain (h : ∀ c, Item.data c ∈ items → c ≠ IAC) : ∀ item ∈ items, item.isPlain := by
    intro item hm
    cases item
    case data c => exact h c hm
    all_goals trivial
  rw [receiveAll_eq_foldl, hr]
  constructor
  case mp =>
    intro h
    have hdata : ∀ c, Item.data c ∈ items → c ≠ IAC := by
      rintro _ hm rfl
      refine not_mem_foldl (w := encode items) (s := (0, {})) List.not_mem_nil ?_
      rw [h.data]
      exact List.mem_filterMap.mpr ⟨_, hm, rfl⟩
    have ⟨o', ho', _, hk⟩ := foldl_encode (o := {}) (hplain hdata)
    have hcount : items.countP Item.isBreakOption = 0 := by
      have hb := h.breaks
      rw [ho', hk] at hb
      simpa using hb
    refine ⟨hdata, fun verb c _ hm hc => ?_⟩
    have hn := List.countP_eq_zero.mp hcount _ hm
    simp [Item.isBreakOption, hc] at hn
  case mpr =>
    rintro ⟨hdata, hopt⟩
    have ⟨o', ho', hb, hk⟩ := foldl_encode (o := {}) (hplain hdata)
    have hcount : items.countP Item.isBreakOption = 0 := by
      refine List.countP_eq_zero.mpr fun item hm => ?_
      cases item
      case option verb c h => simpa [Item.isBreakOption] using hopt verb c h hm
      all_goals simp [Item.isBreakOption]
    rw [ho']
    exact ⟨by simpa using hb, by simpa [hcount] using hk, rfl⟩

theorem decodes_iff_of_negotiation :
    Decodes [.option .will 1 (by decide), .data 97, .brk, .data 0xf3]
      (receiveAll false [[0xff, 0xfb], [1, 97, 0xff], [0xf3, 0xf3]]) ↔
    (∀ c, .data c ∈ [.option .will 1 (by decide), .data 97, .brk, Item.data 0xf3] → c ≠ IAC) ∧
      ∀ verb c h, .option verb c h ∈
        [.option .will 1 (by decide), .data 97, .brk, Item.data 0xf3] → c ≠ 0xf3 :=
  decodes_iff <| by decide

-- A byte of data which is sent as two escapes is lost.
theorem not_decodes_of_escape :
    [[0xff, 0xff]].flatten = encode [.data 0xff] ∧
      ¬Decodes [.data 0xff] (receiveAll false [[0xff, 0xff]]) := by
  refine ⟨by decide, fun h => ?_⟩
  have hd : (receiveAll false [[0xff, 0xff]]).2.bytes = [] := by decide
  exact absurd (hd.symm.trans h.data) <| by decide

end Items

end Proxy
