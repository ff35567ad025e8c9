import MyLinuxEnv.Proxy.Packets

open Text

namespace Proxy

namespace Gdb

variable {d : Nat} {c : Byte} {g : Gdb} {v w : List Byte}

section Step

theorem step_of_room (h : g.arr.length < MAX_GDB_BUF) : g.step c =
    ({ arr := g.arr ++ kept g.gotDollar c, gotDollar := next g.gotDollar c },
      ends g.gotDollar c) := by
  have h₀ : ¬MAX_GDB_BUF ≤ g.arr.length := Nat.not_le.mpr h
  have h₁ : ¬MAX_GDB_BUF ≤ ([] : List Byte).length := by decide
  simp only [kept, next, ends, step, h₀, h₁, if_false]
  repeat' split
  all_goals simp

theorem max_ne_zero : MAX_GDB_BUF ≠ 0 := by
  decide

theorem kept_dollar : kept d '$'.toUInt8 = ['$'.toUInt8] ∧ next d '$'.toUInt8 = 1 := by
  have hp : '$'.toUInt8 ≠ '+'.toUInt8 := by decide
  have hm : '$'.toUInt8 ≠ '-'.toUInt8 := by decide
  simp [kept, next, step, max_ne_zero, hp, hm]

theorem kept_body (h : c ≠ '$'.toUInt8 ∧ c ≠ '#'.toUInt8) :
    kept 1 c = [c] ∧ next 1 c = 1 ∧ ends 1 c = false := by
  by_cases hs : c = '+'.toUInt8 ∨ c = '-'.toUInt8
  all_goals simp [kept, next, ends, step, max_ne_zero, h, hs]

theorem kept_hash : kept 1 '#'.toUInt8 = ['#'.toUInt8] ∧ next 1 '#'.toUInt8 = 2 := by
  decide

theorem of_hexDigit (h : (hexDigit? c).isSome) :
    ¬(c = '+'.toUInt8 ∨ c = '-'.toUInt8) ∧ c ≠ '$'.toUInt8 := by
  refine ⟨?_, ?_⟩
  · rintro (rfl | rfl) <;> revert h <;> decide
  · rintro rfl
    revert h
    decide

theorem kept_digit (h : (hexDigit? c).isSome) (hd : d = 2 ∨ d = 3) :
    kept d c = [c] ∧ next d c = if d = 2 then 3 else 0 := by
  have ⟨hs, hn⟩ := of_hexDigit h
  rcases hd with rfl | rfl
  all_goals simp [kept, next, step, max_ne_zero, hs, hn]

theorem ends_digit (h : (hexDigit? c).isSome) : ends 3 c := by
  have ⟨hs, hn⟩ := of_hexDigit h
  simp [ends, step, max_ne_zero, hs, hn]

-- A byte which asks for a transmission is itself kept.
theorem kept_of_ends (h : ends d c) : kept d c ≠ [] := by
  revert h
  simp only [ends, kept, step, List.length_nil, Nat.le_zero, max_ne_zero, if_false]
  repeat' split
  all_goals simp

end Step

section Stream

theorem keep_append : keep d (v ++ w) = keep d v ++ keep (final d v) w := by
  induction v generalizing d
  case nil     => rfl
  case cons hi => simp [keep, hi, final]

theorem final_append : final d (v ++ w) = final (final d v) w :=
  List.foldl_append ..

theorem xmits_append : xmits d (v ++ w) = (xmits d v || xmits (final d v) w) := by
  induction v generalizing d
  case nil     => rfl
  case cons hi => simp [xmits, hi, final, Bool.or_assoc]

theorem keep_of_xmits (h : xmits d w) : keep d w ≠ [] := by
  induction w generalizing d
  case nil => contradiction
  case cons c w hi =>
    rw [keep, Ne, List.append_eq_nil_iff, not_and_or]
    cases Bool.or_eq_true .. |>.mp h
    case inl h => exact .inl <| kept_of_ends h
    case inr h => exact .inr <| hi h

theorem keep_body (h : ∀ c ∈ w, c ≠ '$'.toUInt8 ∧ c ≠ '#'.toUInt8) :
    keep 1 w = w ∧ final 1 w = 1 ∧ xmits 1 w = false := by
  induction w
  case nil => exact ⟨rfl, rfl, rfl⟩
  case cons c w hi =>
    have ⟨hc, hw⟩ := List.forall_mem_cons.mp h
    have ⟨hk, hn, he⟩ := kept_body hc
    simpa [keep, final, xmits, hk, hn, he] using hi hw

-- A packet is kept as a whole, and its last byte asks for the transmission.
theorem keep_packet (h : IsPacket w) : keep d w = w ∧ final d w = 0 ∧
    ∃ v c, w = v ++ [c] ∧ ends (final d v) c := by
  cases h
  case intro body c₁ c₂ hb h₁ h₂ _ =>
    have ⟨hk, hn⟩ := kept_dollar (d := d)
    have ⟨hkb, hfb, _⟩ := keep_body hb
    have ⟨hkh, hnh⟩ := kept_hash
    have ⟨hk₁, hn₁⟩ := kept_digit h₁ (.inl rfl)
    have ⟨hk₂, hn₂⟩ := kept_digit h₂ (.inr rfl)
    simp only [final] at hfb
    refine ⟨?_, ?_, '$'.toUInt8 :: body ++ ['#'.toUInt8, c₁], c₂, by simp, ?_⟩
    · simp [keep, keep_append, final, hk, hn, hkb, hfb, hkh, hnh, hk₁, hn₁, hk₂]
    · simp [final, hn, hfb, hnh, hn₁, hn₂]
    · simp [final, hn, hfb, hnh, hn₁, ends_digit h₂]

theorem inOrder_keep {ps : List (List Byte)} (hp : ∀ p ∈ ps, IsPacket p) (h : InOrder ps w) :
    InOrder ps (keep d w) := by
  induction h generalizing d
  case nil => exact .nil
  case cons p w x _ hi =>
    have ⟨hp, hps⟩ := List.forall_mem_cons.mp hp
    rw [keep_append, keep_append, (keep_packet hp).left]
    exact .cons <| hi hps

-- A read without a transmission does not complete any packet.
theorem inOrder_of_not_xmits {ps : List (List Byte)} (hp : ∀ p ∈ ps, IsPacket p)
    (hx : ¬xmits (final d v) w) (h : InOrder ps (v ++ w)) : InOrder ps v := by
  rcases ps.eq_nil_or_concat with rfl | ⟨ps, p, rfl⟩
  case inl => exact .nil
  case inr =>
    rw [List.concat_eq_append] at h hp ⊢
    have hp : IsPacket p := hp p <| by simp
    have ⟨x, y, he, hx'⟩ := h.of_concat
    have hin {z : List Byte} (hv : v = x ++ p ++ z) : InOrder (ps ++ [p]) v := hv ▸ hx'.concat
    rcases List.append_eq_append_iff.mp he with ⟨a, ha, rfl⟩ | ⟨z, hv, _⟩
    case inr => exact hin hv
    case inl =>
      rcases a.eq_nil_or_concat with rfl | ⟨a, c, rfl⟩
      case inl => exact hin (z := []) <| by simpa using ha.symm
      case inr =>
        -- The last byte of the packet belongs to the read.
        have ⟨_, _, q, c', he, hends⟩ := keep_packet (d := final d x) hp
        rw [he, List.concat_eq_append, ← List.append_assoc, ← List.append_assoc] at ha
        have ⟨hv, hc⟩ := List.append_inj' ha rfl
        cases hc
        rw [← final_append, hv, final_append] at hends
        refine absurd ?_ hx
        simp [xmits_append, xmits, hends]

end Stream

section Reads

theorem scan_of_fits (h : g.Fits w) : g.scan w =
    ({ arr := g.arr ++ keep g.gotDollar w, gotDollar := final g.gotDollar w },
      xmits g.gotDollar w) := by
  induction w generalizing g
  case nil => simp [scan, keep, final, xmits]
  case cons c w hi =>
    have ⟨hr, hw⟩ := h
    have hs := step_of_room (c := c) hr
    rw [hs] at hw
    simp [scan, hs, hi hw, keep, final, xmits]

theorem length_step : (g.step c).1.arr.length ≤ g.arr.length + 1 := by
  simp only [step]
  repeat' split
  all_goals simp

-- A read whose bytes all find room even if none of them is dropped.
theorem fits_of_length (h : g.arr.length + w.length ≤ MAX_GDB_BUF) : g.Fits w := by
  induction w generalizing g
  case nil => trivial
  case cons c w hi =>
    rw [List.length_cons] at h
    exact ⟨by omega, hi <| by have := g.length_step (c := c); omega⟩

-- What is known about the splitter after the stream `w`, of which it has handed out `s`.
structure Splits (g : Gdb) (w s : List Byte) : Prop where
  bytes : s ++ g.arr = keep 0 w
  gotDollar : g.gotDollar = final 0 w
  packets : ∀ ps, (∀ p ∈ ps, IsPacket p) → InOrder ps w → InOrder ps s

theorem Splits.init : Splits {} [] [] where
  bytes       := rfl
  gotDollar   := rfl
  packets _ _ := id

theorem Splits.read {s buf : List Byte} (h : Splits g w s) (hf : g.Fits buf) :
    Splits (g.read buf).1 (w ++ buf) (s ++ (g.read buf).2.toList.flatten) ∧
      ∀ b ∈ (g.read buf).2, b ≠ [] := by
  have hs := scan_of_fits hf
  have hb : s ++ (g.arr ++ keep g.gotDollar buf) = keep 0 (w ++ buf) := by
    rw [keep_append, ← List.append_assoc, h.bytes, h.gotDollar]
  have hd : final g.gotDollar buf = final 0 (w ++ buf) := by rw [final_append, h.gotDollar]
  cases hx : xmits g.gotDollar buf
  all_goals simp only [Gdb.read, hs, hx]
  case true =>
    refine ⟨⟨by simpa using hb, hd, fun ps hp hi => ?_⟩, ?_⟩
    · simpa [hb] using inOrder_keep hp hi
    · simp [keep_of_xmits hx]
  case false =>
    refine ⟨⟨by simpa using hb, hd, fun ps hp hi => ?_⟩, nofun⟩
    have hx : ¬xmits (final 0 w) buf := by simp [← h.gotDollar, hx]
    simpa using h.packets ps hp <| inOrder_of_not_xmits hp hx hi

theorem Splits.sent {s : List Byte} {bufs : List (List Byte)} (h : Splits g w s)
    (hf : g.FitsAll bufs) : (∀ ps, (∀ p ∈ ps, IsPacket p) → InOrder ps (w ++ bufs.flatten) →
      InOrder ps (s ++ (g.sent bufs).flatten)) ∧ [] ∉ g.sent bufs := by
  induction bufs generalizing g w s
  case nil => simpa [Gdb.sent] using h.packets
  case cons buf bufs hi =>
    have ⟨h', hne⟩ := h.read hf.left
    have ⟨hp, hn⟩ := hi h' hf.right
    refine ⟨fun ps hps hio => ?_, ?_⟩
    · simpa [Gdb.sent] using hp ps hps <| by simpa using hio
    · simp only [Gdb.sent, List.mem_append, Option.mem_toList, not_or]
      exact ⟨fun hm => hne _ hm rfl, hn⟩

end Reads

end Gdb

end Proxy
