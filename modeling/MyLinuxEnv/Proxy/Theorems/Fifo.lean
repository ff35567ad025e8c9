import Mathlib.Data.List.Induction
import Mathlib.Tactic.Ring
import MyLinuxEnv.Memory.Overlay
import MyLinuxEnv.Proxy.Links
import MyLinuxEnv.Proxy.Theorems.StepFrame

open Memory

namespace Proxy

section Lines

def newline : Byte := '\n'.toUInt8
def carriageReturn : Byte := '\r'.toUInt8

-- A byte that has been read from the fifo: a line is dealt with before it is stored.
def putFifo (c : Byte) (fifo : List Byte × Nat) : List Byte × Nat :=
  storeFifo c <| if c = newline then (fifo.1, 0) else fifo

def putAll (fifo : List Byte × Nat) (bytes : List Byte) : List Byte × Nat :=
  bytes.foldl (fun fifo c => putFifo c fifo) fifo

def digits (line : List Byte) : List Byte :=
  line.filter isDigit

-- The request for a port, in front of the end of the line.
structure IsRequest (line : List Byte) : Prop where
  bytes : ∀ c ∈ line, isDigit c ∨ c = carriageReturn
  pos : 0 < (digits line).length
  lt : (digits line).length < MAX_FIFO_BUF

variable {buf line : List Byte} {fifo : List Byte × Nat} {earlier : List (List Byte)} {c : Byte}

theorem isDigit_ne (h : isDigit c) : c ≠ newline ∧ c ≠ carriageReturn ∧ isSpace c = false ∧
    c ≠ '-'.toUInt8 ∧ c ≠ '+'.toUInt8 := by
  have hne {d : Byte} (hd : isDigit d = false) : c ≠ d := by
    rintro rfl
    simp [hd] at h
  refine ⟨hne (by decide), hne (by decide), ?_, hne (by decide), hne (by decide)⟩
  have hle : '0'.toUInt8 ≤ c := by
    simp only [isDigit, Bool.and_eq_true, decide_eq_true_eq] at h
    exact h.1
  have hlt : ¬c ≤ 13 := by
    intro hc
    exact absurd (UInt8.le_trans hle hc) (by decide)
  have hsp : c ≠ 32 := hne (by decide)
  simp [isSpace, hsp, hlt]

@[simp]
theorem putAll_append (fifo : List Byte × Nat) (bs cs : List Byte) :
    putAll fifo (bs ++ cs) = putAll (putAll fifo bs) cs :=
  List.foldl_append

theorem putFifo_newline (fifo : List Byte × Nat) : putFifo newline fifo = (fifo.1, 0) := by
  simp [putFifo, storeFifo, newline, MAX_FIFO_BUF]

theorem putFifo_carriageReturn {i : Nat} (h : i < MAX_FIFO_BUF) :
    putFifo carriageReturn (buf, i) = (buf, i) := by
  have hn : carriageReturn ≠ newline := by decide
  have hr : ¬(carriageReturn ≠ '\r'.toUInt8 ∧ carriageReturn ≠ '\n'.toUInt8) := by decide
  rw [putFifo, if_neg hn, storeFifo, if_neg hr, if_neg (Nat.not_le_of_lt h)]

-- The digits of a line overwrite the beginning of the buffer, and nothing else.
theorem putAll_line (hb : ∀ c ∈ line, isDigit c ∨ c = carriageReturn)
    (hl : (digits line).length < MAX_FIFO_BUF) (hbuf : buf.length = MAX_FIFO_BUF) :
    putAll (buf, 0) line = (overlay buf (digits line), (digits line).length) := by
  induction line using List.reverseRecOn
  case nil => simp [putAll, digits, overlay]
  case append_singleton line c hi =>
    simp only [List.forall_mem_append, List.forall_mem_singleton] at hb
    cases hb.2
    case inl hc =>
      have hd : digits (line ++ [c]) = digits line ++ [c] := by simp [digits, hc]
      obtain ⟨hn, hr, _⟩ := isDigit_ne hc
      rw [hd, List.length_append, List.length_singleton] at hl
      rw [putAll_append, hi hb.1 (by omega), hd, overlay_concat (by omega), List.length_append]
      have hm : ¬MAX_FIFO_BUF ≤ (digits line).length + 1 := by omega
      simp [putAll, putFifo, storeFifo, hn, show c ≠ '\n'.toUInt8 from hn,
        show c ≠ '\r'.toUInt8 from hr, hm]
    case inr hc =>
      have hd : digits (line ++ [c]) = digits line := by simp [digits, hc]; decide
      rw [hd] at hl
      rw [putAll_append, hi hb.1 hl, hd, hc]
      exact putFifo_carriageReturn hl

theorem length_overlays_digits (he : ∀ line ∈ earlier, IsRequest line)
    (hbuf : buf.length = MAX_FIFO_BUF) :
    (overlays buf (earlier.map digits)).length = MAX_FIFO_BUF := by
  rw [← hbuf]
  apply length_overlays
  intro ds hd
  have ⟨line, hm, hd⟩ := List.mem_map.mp hd
  exact hd ▸ hbuf ▸ Nat.le_of_lt (he line hm).lt

theorem putAll_lines (he : ∀ line ∈ earlier, IsRequest line) (hbuf : buf.length = MAX_FIFO_BUF) :
    putAll (buf, 0) (earlier.flatMap (· ++ [newline])) =
      (overlays buf (earlier.map digits), 0) := by
  induction earlier using List.reverseRecOn
  case nil => rfl
  case append_singleton earlier line hi =>
    simp only [List.forall_mem_append, List.forall_mem_singleton] at he
    have hlen := length_overlays_digits he.1 hbuf
    rw [List.flatMap_append, putAll_append, hi he.1, List.flatMap_singleton, putAll_append,
      putAll_line he.2.bytes he.2.lt hlen, List.map_append, List.map_singleton, overlays_concat]
    exact putFifo_newline _

end Lines

section Number

variable {s line rest : List Byte}

theorem number_append (s t : List Byte) :
    number (s ++ t) = number s * 10 ^ t.length + number t := by
  induction t using List.reverseRecOn
  case nil => simp [number]
  case append_singleton t c hi =>
    have hc (s : List Byte) : number (s ++ [c]) = 10 * number s + (c.toNat - '0'.toNat) := by
      simp [number]
    rw [← List.append_assoc, hc, hc, hi, List.length_append, List.length_singleton, Nat.pow_succ]
    ring

-- What is left behind the digits of a line is read as well.
theorem atoi_append (hd : ∀ c ∈ s, isDigit c) (hs : s ≠ []) (rest : List Byte) :
    atoi (s ++ rest) = Int.bmod (min (number (s ++ rest.takeWhile isDigit)) LONG_MAX) (2 ^ 32) := by
  have ht : (s ++ rest).takeWhile isDigit = s ++ rest.takeWhile isDigit :=
    List.takeWhile_append_of_pos hd
  obtain ⟨c, s, rfl⟩ := List.exists_cons_of_ne_nil hs
  have ⟨_, _, hsp, hm, hp⟩ := isDigit_ne (hd c List.mem_cons_self)
  simp only [List.cons_append] at ht
  simp [atoi, hsp, hm, hp, ht]

end Number

section Runs

variable {env : Env} {cfg : Config} {σ₀ σ σ' : State} {steps : List (State × Event)} {a : Addr}
  {ev : Event}

def State.fifo (σ : State) : List Byte × Nat :=
  (σ.fifoBuf, σ.fifoIdx)

-- The byte that a step reads from the fifo.
def fifoByte (env : Env) : State × Event → Option Byte
  | (σ, .ready a) =>
    if σ.handler a = some .remotePortFifoCon then
      match env.read σ.time a with
      | .ok (c :: _) => some c
      | _            => none
    else none
  | _ => none

def fifoBytes (env : Env) (steps : List (State × Event)) : List Byte :=
  steps.filterMap (fifoByte env)

def KeepsFifo (σ σ' : State) : Prop :=
  σ'.fifo = σ.fifo

theorem KeepsFifo.stepFrame : StepFrame KeepsFifo where
  trans h h' := h'.trans h
  idle h     := by rw [KeepsFifo, State.fifo, h.fifoBuf, h.fifoIdx, State.fifo]
  modify _   := rfl
  free       := rfl
  close      := rfl
  log        := rfl
  gdb        := rfl
  malloc _ _ := rfl
  telnet _ _ := rfl

theorem fifo_of_fifoConRead (h : remotePortFifoConRead env σ a = some σ')
    (hm : σ.handler a = some .remotePortFifoCon) :
    σ'.fifo = putAll σ.fifo (fifoByte env (σ, .ready a)).toList := by
  simp only [fifoByte, hm, if_true]
  rcases KeepsFifo.stepFrame.remotePortFifoConRead h with ⟨c, cs, σ₁, hr, h₁, he⟩ | ⟨hr, h⟩
  case inl =>
    have h₁ : σ₁.fifo = if c = newline then (σ.fifoBuf, 0) else σ.fifo := by
      refine h₁.trans ?_
      split
      case isTrue hc  => exact (if_pos hc).symm
      case isFalse hc => exact (if_neg hc).symm
    rw [hr, he]
    exact congrArg (storeFifo c) h₁
  case inr =>
    refine h.trans ?_
    split
    case h_1 c cs hc => exact absurd hc (hr c cs)
    case h_2         => rfl

theorem fifo_of_step (h : step env σ ev = some σ') :
    σ'.fifo = putAll σ.fifo (fifoByte env (σ, ev)).toList := by
  by_cases hf : ∃ a, ev = .ready a ∧ σ.handler a = some .remotePortFifoCon
  case pos =>
    obtain ⟨a, rfl, hm⟩ := hf
    exact fifo_of_fifoConRead (remotePortFifoConRead_of_step hm h) hm
  case neg =>
    simp only [not_exists, not_and] at hf
    have hn : fifoByte env (σ, ev) = none := by
      cases ev
      case ready a => exact if_neg (hf a rfl)
      case oob     => rfl
      case poll    => rfl
    rw [hn]
    exact KeepsFifo.stepFrame.step (fun _ => rfl) hf h

-- What is in the buffer only depends on what has been read from the fifo.
theorem fifo_of_run (h : start env cfg = some σ₀) (hr : Run env σ₀ steps σ) :
    σ.fifo = putAll (List.replicate MAX_FIFO_BUF 0, 0) (fifoBytes env steps) := by
  induction hr
  case refl => exact KeepsFifo.stepFrame.start (fun _ => rfl) h
  case step τ ev τ' steps hs hi =>
    rw [fifo_of_step hs, hi, fifoBytes, fifoBytes, List.filterMap_append, putAll_append]
    cases hb : fifoByte env (τ, ev) <;> simp [hb]

end Runs

section Ports

variable {env : Env} {cfg : Config} {σ₀ σ σ' : State} {steps : List (State × Event)} {a : Addr}
  {earlier : List (List Byte)} {line : List Byte} {cs : List Byte}

theorem trace_of_fdSet {fd : Int} (h : σ.fdSet fd = some σ') : σ'.trace = σ.trace := by
  simp only [State.fdSet] at h
  split at h
  case isFalse => contradiction
  case isTrue  => cases h; rfl

theorem trace_of_fifoConnect (h : fifoConnect env σ a = some σ') (hs : 0 ≤ env.socket σ.time) :
    σ'.trace = σ.trace ++ [.connect (atoi σ.fifoBuf % 2 ^ 16)] := by
  have ⟨p, _, h⟩ := Option.bind_eq_some_iff.mp h
  dsimp only at h
  rw [if_neg (Int.not_lt.mpr hs)] at h
  split at h
  case isTrue  => cases h; rfl
  case isFalse =>
    split at h
    case isFalse => cases h; rfl
    case isTrue  =>
      have ⟨σ₁, h₁, h⟩ := Option.bind_eq_some_iff.mp h
      have ⟨σ₂, h₂, h⟩ := Option.bind_eq_some_iff.mp h
      have ⟨_, _, h₂⟩ := Option.bind_eq_some_iff.mp h₂
      cases h₂
      cases h
      exact trace_of_fdSet h₁

-- The end of a line lets the proxy connect to the port in the buffer.
theorem trace_of_newline (hm : σ.handler a = some .remotePortFifoCon)
    (hc : env.read σ.time a = .ok (newline :: cs)) (hs : 0 ≤ env.socket (σ.time + 1))
    (h : step env σ (.ready a) = some σ') :
    σ'.trace = σ.trace ++ [.connect (atoi σ.fifoBuf % 2 ^ 16)] := by
  have h := remotePortFifoConRead_of_step hm h
  obtain ⟨_, _, h⟩ := Option.bind_eq_some_iff.mp h
  simp only [hc] at h
  obtain ⟨σ₁, h₁, h⟩ := ite_bind_eq_some_iff.mp h
  rw [if_pos (show newline = '\n'.toUInt8 from rfl)] at h₁
  have ht := trace_of_fifoConnect h₁ hs
  cases h
  rw [← ht]
  split <;> split <;> rfl

-- The digits that earlier, longer lines have left behind the current one.
def leftover (earlier : List (List Byte)) (line : List Byte) : List Byte :=
  ((overlays (List.replicate MAX_FIFO_BUF 0) (earlier.map digits)).drop
    (digits line).length).takeWhile isDigit

-- The port on a line, together with the digits behind it, as far as it fits into a `long`.
def mixedPort (earlier : List (List Byte)) (line : List Byte) : Int :=
  min (number (digits line) * 10 ^ (leftover earlier line).length +
    number (leftover earlier line) : Nat) LONG_MAX

-- The number of a port does not depend on the upper half of the word.
theorem bmod_emod_of_port (n : Int) : n.bmod (2 ^ 32) % 2 ^ 16 = n % 2 ^ 16 := by
  simp only [Int.bmod]
  split <;> omega

theorem atoi_mod_eq (he : ∀ l ∈ earlier, IsRequest l) (hl : IsRequest line)
    (hf : σ.fifo = putAll (List.replicate MAX_FIFO_BUF 0, 0)
      (earlier.flatMap (· ++ [newline]) ++ line)) :
    atoi σ.fifoBuf % 2 ^ 16 = mixedPort earlier line % 2 ^ 16 := by
  have hbuf : (List.replicate MAX_FIFO_BUF (0 : Byte)).length = MAX_FIFO_BUF := by simp
  rw [putAll_append, putAll_lines he hbuf,
    putAll_line hl.bytes hl.lt (length_overlays_digits he hbuf)] at hf
  have hb : σ.fifoBuf = overlay _ (digits line) := congrArg Prod.fst hf
  have hd : ∀ c ∈ digits line, isDigit c := fun c hc => (List.mem_filter.mp hc).2
  rw [hb, overlay, atoi_append hd (List.ne_nil_of_length_pos hl.pos), number_append]
  exact bmod_emod_of_port _

theorem leftover_of_no_longer (h : ∀ l ∈ earlier, (digits l).length ≤ (digits line).length) :
    leftover earlier line = [] := by
  have hl : ∀ ds ∈ earlier.map digits, ds.length ≤ (digits line).length := by simpa using h
  rw [leftover, drop_overlays_of_le hl, List.drop_replicate]
  cases MAX_FIFO_BUF - (digits line).length
  case zero   => rfl
  case succ n => rw [List.replicate_succ, List.takeWhile_cons, if_neg (by decide)]

-- Ports on lines that get longer are read as they are.
theorem mixedPort_of_no_longer (h : ∀ l ∈ earlier, (digits l).length ≤ (digits line).length)
    (hn : number (digits line) < 2 ^ 16) :
    mixedPort earlier line % 2 ^ 16 = number (digits line) := by
  rw [mixedPort, leftover_of_no_longer h]
  simp only [number, List.length_nil, Nat.pow_zero, Nat.mul_one, List.foldl_nil, Nat.add_zero,
    LONG_MAX] at hn ⊢
  omega

-- The proxy connects to the port on the line, if and only if the digits behind it do not change
-- that number as the number of a port.
theorem connects_iff (h : start env cfg = some σ₀) (hr : Run env σ₀ steps σ)
    (hm : σ.handler a = some .remotePortFifoCon)
    (hb : fifoBytes env steps = earlier.flatMap (· ++ [newline]) ++ line)
    (he : ∀ l ∈ earlier, IsRequest l) (hl : IsRequest line)
    (hc : env.read σ.time a = .ok (newline :: cs)) (hs : 0 ≤ env.socket (σ.time + 1))
    (hstep : step env σ (.ready a) = some σ') :
    σ'.trace = σ.trace ++ [.connect (number (digits line))] ↔
      mixedPort earlier line % 2 ^ 16 = number (digits line) := by
  rw [trace_of_newline hm hc hs hstep, atoi_mod_eq he hl (hb ▸ fifo_of_run h hr)]
  simp

-- Two lines, from the first read on, where the connection to the first port is refused.
def fifoStream : List Byte :=
  [0, 0, 49, 50, 51, 52, 53, newline, 0, 0, 56, 48, newline]

def fifoEnv : Env where
  read time _     := .ok [fifoStream.getD time 0]
  write _ _ bytes := bytes.length
  accept time     := time + 5
  socket time     := time + 5
  connect _       := -1
  openFifo time   := time + 5

def fifoConfig : Config where
  lPort      := .tcp
  scriptPort := none
  remote     := some .fifoCon

theorem isRequest_five : IsRequest [49, 50, 51, 52, 53] :=
  ⟨fun _ hc => .inl <| List.all_eq_true.mp (by decide) _ hc, by decide, by decide⟩

theorem isRequest_two : IsRequest [56, 48] :=
  ⟨fun _ hc => .inl <| List.all_eq_true.mp (by decide) _ hc, by decide, by decide⟩

-- In front of the end of the second line.
theorem exists_fifoRun : ∃ σ₀ steps σ σ', start fifoEnv fifoConfig = some σ₀ ∧
    Run fifoEnv σ₀ steps σ ∧ σ.handler 1 = some .remotePortFifoCon ∧
    fifoBytes fifoEnv steps = [[49, 50, 51, 52, 53]].flatMap (· ++ [newline]) ++ [56, 48] ∧
    fifoEnv.read σ.time 1 = .ok [newline] ∧ step fifoEnv σ (.ready 1) = some σ' := by
  have h : ((start fifoEnv fifoConfig).bind fun σ =>
      (trail fifoEnv (List.replicate 8 (.ready 1)) [] σ).map fun r =>
        (r.2.handler 1, fifoBytes fifoEnv r.1, r.2.time, (step fifoEnv r.2 (.ready 1)).isSome)) =
      some (some .remotePortFifoCon, [49, 50, 51, 52, 53, newline, 56, 48], 12, true) := by
    decide +kernel
  obtain ⟨σ₀, h₀, h⟩ := Option.bind_eq_some_iff.mp h
  obtain ⟨⟨steps, σ⟩, ht, h⟩ := Option.map_eq_some_iff.mp h
  simp only [Prod.mk.injEq] at h
  obtain ⟨hm, hb, htime, hs⟩ := h
  obtain ⟨σ', hs⟩ := Option.isSome_iff_exists.mp hs
  exact ⟨σ₀, steps, σ, σ', h₀, .of_trail .refl ht, hm, hb, by rw [htime]; rfl, hs⟩

theorem connects_iff_of_two : ∃ σ₀ steps σ σ', start fifoEnv fifoConfig = some σ₀ ∧
    Run fifoEnv σ₀ steps σ ∧ step fifoEnv σ (.ready 1) = some σ' ∧
    (σ'.trace = σ.trace ++ [.connect (number (digits [56, 48]))] ↔
      mixedPort [[49, 50, 51, 52, 53]] [56, 48] % 2 ^ 16 = number (digits [56, 48])) := by
  have ⟨σ₀, steps, σ, σ', h, hr, hm, hb, hc, hs⟩ := exists_fifoRun
  refine ⟨σ₀, steps, σ, σ', h, hr, hs, ?_⟩
  refine connects_iff h hr hm hb ?earlier isRequest_two hc ?socket hs
  case earlier => exact fun l hl => List.mem_singleton.mp hl ▸ isRequest_five
  case socket  => exact Int.add_nonneg (Int.natCast_nonneg _) (by decide)

-- Instead of port 80, the proxy tries the one whose number is 80345, as far as it goes.
theorem not_connects : ∃ σ₀ steps σ σ', start fifoEnv fifoConfig = some σ₀ ∧
    Run fifoEnv σ₀ steps σ ∧ σ.handler 1 = some .remotePortFifoCon ∧
    fifoBytes fifoEnv steps = [[49, 50, 51, 52, 53]].flatMap (· ++ [newline]) ++ [56, 48] ∧
    IsRequest [49, 50, 51, 52, 53] ∧ IsRequest [56, 48] ∧
    fifoEnv.read σ.time 1 = .ok [newline] ∧ step fifoEnv σ (.ready 1) = some σ' ∧
    σ'.trace ≠ σ.trace ++ [.connect (number (digits [56, 48]))] := by
  have ⟨σ₀, steps, σ, σ', h, hr, hm, hb, hc, hs⟩ := exists_fifoRun
  refine ⟨σ₀, steps, σ, σ', h, hr, hm, hb, isRequest_five, isRequest_two, hc, hs, ?_⟩
  have he : ∀ l ∈ [[49, 50, 51, 52, 53]], IsRequest l :=
    fun l hl => List.mem_singleton.mp hl ▸ isRequest_five
  have hsock : 0 ≤ fifoEnv.socket (σ.time + 1) :=
    Int.add_nonneg (Int.natCast_nonneg _) (by decide)
  rw [trace_of_newline hm hc hsock hs, atoi_mod_eq he isRequest_two (hb ▸ fifo_of_run h hr)]
  simp only [ne_eq, List.append_cancel_left_eq, List.cons.injEq, Io.connect.injEq, and_true]
  decide

end Ports

end Proxy
