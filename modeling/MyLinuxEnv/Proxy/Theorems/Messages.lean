import MyLinuxEnv.Memory.Overlay
import MyLinuxEnv.Proxy.Theorems.Clients
import MyLinuxEnv.Proxy.Theorems.Reachable
import MyLinuxEnv.Proxy.Theorems.StepFrame

open Memory

namespace Proxy

section Strings

-- The packet that the driver of the target swallows, and the memory that it takes for it.
def swallowed : List Byte :=
  "$c#63".toList.map Char.toUInt8

def terminated : List Byte :=
  swallowed ++ [0]

variable {mem mem' w : List Byte} {n : Nat}

theorem ne_zero_of_mem_swallowed {c : Byte} (h : c ∈ swallowed) : c ≠ 0 := by
  rintro rfl
  exact absurd h (by decide)

-- A string is equal to another one if it has the same bytes in front of its end.
theorem takeWhile_eq_iff_isPrefix (hw : ∀ c ∈ w, c ≠ 0) (hl : w.length < mem.length) :
    mem.takeWhile (· ≠ 0) = w ↔ w ++ [0] <+: mem := by
  constructor
  case mp =>
    intro h
    have hs := List.takeWhile_append_dropWhile (p := (· ≠ 0)) (l := mem)
    cases hd : mem.dropWhile (· ≠ 0)
    case nil =>
      rw [hd, h, List.append_nil] at hs
      exact absurd hl (hs ▸ Nat.lt_irrefl _)
    case cons c rest =>
      have hc : c = 0 := by
        have hne : mem.dropWhile (· ≠ 0) ≠ [] := hd ▸ List.cons_ne_nil c rest
        have hh := List.head_dropWhile_not _ hne
        simp only [hd, List.head_cons] at hh
        simpa using hh
      exact ⟨rest, by rw [← hs, h, hd, hc, List.append_assoc]; rfl⟩
  case mpr =>
    rintro ⟨rest, rfl⟩
    rw [List.append_assoc, List.takeWhile_append_of_pos (by simpa using hw)]
    simp

-- A string that goes beyond the first bytes is there, if these are its beginning and the rest
-- follows.
theorem prefix_iff_split {s : List Byte} (h : n ≤ s.length) (hm : n ≤ mem.length) :
    s <+: mem ↔ mem.take n <+: s ∧ s.drop n <+: mem.drop n := by
  have hl : (s.take n).length = (mem.take n).length := by simp [h, hm]
  have hp : mem.take n <+: s ↔ s.take n = mem.take n := by
    rw [List.prefix_iff_eq_take, List.length_take_of_le hm, eq_comm]
  rw [hp, ← List.prefix_append_inj_of_length_eq hl, List.take_append_drop, List.take_append_drop]

end Strings

section Buffers

-- All buffers are empty, and there is no serial port.
structure Blank (σ : State) : Prop where
  buf : ∀ c p, σ.port c = some p → p.buf = List.replicate IO_BUFSIZE 0
  type : ∀ c p, σ.port c = some p → p.type ≠ some .rs232
  telnet : σ.telnetNegotiation = false

-- The ports keep their classes and, except for one of them, their buffers. New buffers are empty.
-- Telnet is not negotiated without a serial port.
structure Keeps (e : Option Addr) (σ σ' : State) : Prop where
  fresh : σ.fresh ≤ σ'.fresh
  old : ∀ {c p'}, c < σ.fresh → σ'.port c = some p' →
    ∃ p, σ.port c = some p ∧ p'.cls = p.cls ∧ (e ≠ some c → p'.buf = p.buf)
  new : ∀ {c p'}, σ.fresh ≤ c → c < σ'.fresh → e ≠ some c → σ'.port c = some p' →
    p'.buf = List.replicate IO_BUFSIZE 0
  type : (∀ c p, σ.port c = some p → p.type ≠ some .rs232) →
    ∀ c p, σ'.port c = some p → p.type ≠ some .rs232
  telnet : (∀ c p, σ.port c = some p → p.type ≠ some .rs232) →
    σ'.telnetNegotiation = σ.telnetNegotiation

variable {e : Option Addr} {σ σ' σ'' : State} {a : Addr}

theorem Keeps.trans (h : Keeps e σ σ') (h' : Keeps e σ' σ'') : Keeps e σ σ'' where
  fresh := Nat.le_trans h.fresh h'.fresh
  old {c p''} hc hp := by
    have ⟨p', hp, hcls', hbuf'⟩ := h'.old (Nat.lt_of_lt_of_le hc h.fresh) hp
    have ⟨p, hp, hcls, hbuf⟩ := h.old hc hp
    exact ⟨p, hp, hcls'.trans hcls, fun he => (hbuf' he).trans (hbuf he)⟩
  new {c _} hc hc' he hp := by
    by_cases hl : c < σ'.fresh
    case neg => exact h'.new (Nat.not_lt.mp hl) hc' he hp
    case pos =>
      have ⟨p', hp, _, hbuf⟩ := h'.old hl hp
      exact (hbuf he).trans <| h.new hc hl he hp
  type ht   := h'.type (h.type ht)
  telnet ht := (h'.telnet (h.type ht)).trans (h.telnet ht)

theorem Keeps.of_port_eq (hp : σ'.port = σ.port) (hf : σ'.fresh = σ.fresh)
    (ht : σ'.telnetNegotiation = σ.telnetNegotiation) : Keeps e σ σ' where
  fresh := Nat.le_of_eq hf.symm
  old _ h    := ⟨_, hp ▸ h, rfl, fun _ => rfl⟩
  new hc hc' := absurd (hf ▸ hc') (Nat.not_lt_of_le hc)
  type h     := hp ▸ h
  telnet _   := ht

theorem port_of_modify {f : Port → Port} {c : Addr} {p' : Port}
    (h : (σ.modify a f).port c = some p') :
    ∃ p, σ.port c = some p ∧ (p' = p ∨ c = a ∧ p' = f p) := by
  by_cases hc : c = a
  case neg => exact ⟨p', (State.modify_port_of_ne hc).symm.trans h, .inl rfl⟩
  case pos =>
    subst hc
    have ⟨p, hp, he⟩ := Option.map_eq_some_iff.mp <| State.modify_port_self.symm.trans h
    exact ⟨p, hp, .inr ⟨rfl, he.symm⟩⟩

theorem port_of_free {c : Addr} {p : Port} (h : (σ.free a).port c = some p) :
    σ.port c = some p := by
  have hc : c ≠ a := by
    rintro rfl
    simp at h
  exact (State.free_port_of_ne hc).symm.trans h

theorem port_of_malloc {c : Addr} {p q : Port} (h : (σ.malloc q).port c = some p) :
    c = σ.fresh ∧ p = q ∨ σ.port c = some p := by
  by_cases hc : c = σ.fresh
  case neg => exact .inr <| (State.malloc_port_of_ne hc).symm.trans h
  case pos =>
    subst hc
    exact .inl ⟨rfl, Option.some.inj <| h.symm.trans State.malloc_port_self⟩

theorem Keeps.modify {f : Port → Port} (hf : ∀ p, (f p).cls = p.cls ∧ (f p).type = p.type)
    (hb : e ≠ some a → ∀ p, (f p).buf = p.buf) : Keeps e σ (σ.modify a f) where
  fresh := Nat.le_refl _
  old _ h := by
    obtain ⟨p, hp, rfl | ⟨rfl, rfl⟩⟩ := port_of_modify h
    case inl => exact ⟨_, hp, rfl, fun _ => rfl⟩
    case inr => exact ⟨p, hp, (hf p).1, fun he => hb he p⟩
  new hc hc' := absurd hc' (Nat.not_lt_of_le hc)
  type ht c p' h := by
    obtain ⟨p, hp, rfl | ⟨rfl, rfl⟩⟩ := port_of_modify h
    case inl => exact ht c _ hp
    case inr => exact (hf p).2 ▸ ht c p hp
  telnet _ := rfl

theorem Keeps.malloc {q : Port} (hb : q.buf = List.replicate IO_BUFSIZE 0)
    (ht : q.type ≠ some .rs232) : Keeps e σ (σ.malloc q) where
  fresh := Nat.le_succ _
  old {c p'} hc h :=
    ⟨p', (State.malloc_port_of_ne (Nat.ne_of_lt hc)).symm.trans h, rfl, fun _ => rfl⟩
  new hc hc' _ h := by
    have he := Nat.le_antisymm (Nat.le_of_lt_succ hc') hc
    subst he
    cases State.malloc_port_self.symm.trans h
    exact hb
  type h c p hp := by
    obtain ⟨rfl, rfl⟩ | hp := port_of_malloc hp
    case inl => exact ht
    case inr => exact h c p hp
  telnet _ := rfl

theorem Keeps.free : Keeps e σ (σ.free a) where
  fresh := Nat.le_refl _
  old _ h := ⟨_, port_of_free h, rfl, fun _ => rfl⟩
  new hc hc' := absurd hc' (Nat.not_lt_of_le hc)
  type ht c p h := ht c p (port_of_free h)
  telnet _ := rfl

theorem Keeps.stepFrame (e : Option Addr) : StepFrame (Keeps e) where
  trans        := .trans
  idle h       := .of_port_eq h.port h.fresh h.telnet
  modify h     := .modify (fun p => ⟨(h p).cls, (h p).type⟩) fun _ p => (h p).buf
  free         := .free
  close        := .of_port_eq rfl rfl rfl
  log          := .of_port_eq rfl rfl rfl
  gdb          := .of_port_eq rfl rfl rfl
  malloc       := .malloc
  telnet hp ht :=
    { Keeps.of_port_eq rfl rfl rfl with telnet := fun h => absurd ht (h _ _ hp) }

theorem Keeps.owns (a : Addr) : Owns (Keeps (some a)) a :=
  fun h => .modify h fun he => absurd rfl he

-- What is set up is blank, if the remote is no serial port.
theorem Blank.modify {f : Port → Port} (h : Blank σ)
    (hf : ∀ p, (f p).buf = p.buf ∧ ((f p).type = some .rs232 → p.type = some .rs232)) :
    Blank (σ.modify a f) where
  buf c p' hm := by
    obtain ⟨p, hp, rfl | ⟨rfl, rfl⟩⟩ := port_of_modify hm
    case inl => exact h.buf c _ hp
    case inr => exact (hf p).1.trans (h.buf c p hp)
  type c p' hm := by
    obtain ⟨p, hp, rfl | ⟨rfl, rfl⟩⟩ := port_of_modify hm
    case inl => exact h.type c _ hp
    case inr => exact fun ht => h.type c p hp ((hf p).2 ht)
  telnet := h.telnet

theorem Blank.stepFrame : StepFrame fun σ σ' => Blank σ → Blank σ' where
  trans h h' hb := h' (h hb)
  idle h hb     := ⟨h.port ▸ hb.buf, h.port ▸ hb.type, h.telnet.trans hb.telnet⟩
  modify h hb   := hb.modify fun p => ⟨(h p).buf, fun ht => (h p).type ▸ ht⟩
  free hb :=
    ⟨fun c p hp => hb.buf c p (port_of_free hp), fun c p hp => hb.type c p (port_of_free hp),
      hb.telnet⟩
  close hb      := ⟨hb.buf, hb.type, hb.telnet⟩
  log hb        := ⟨hb.buf, hb.type, hb.telnet⟩
  gdb hb        := ⟨hb.buf, hb.type, hb.telnet⟩
  malloc hbuf ht hb := by
    refine ⟨fun c p hp => ?_, fun c p hp => ?_, hb.telnet⟩
    all_goals obtain ⟨rfl, rfl⟩ | hp := port_of_malloc hp
    · exact hbuf
    · exact hb.buf c p hp
    · exact ht
    · exact hb.type c p hp
  telnet hp ht hb := absurd ht (hb.type _ _ hp)

-- Without a serial port, nothing has been read when the proxy starts.
theorem blank_of_start {env : Env} {cfg : Config} (hc : cfg.remote ≠ some .rs232)
    (h : start env cfg = some σ) : Blank σ := by
  have h₀ : Blank {} := by
    constructor
    case buf    => intro c p hp; contradiction
    case type   => intro c p hp; contradiction
    case telnet => rfl
  refine Blank.stepFrame.start ?_ h h₀
  intro τ a f hf hb
  exact hb.modify fun p => ⟨(hf p).1, fun ht => ((hf p).2 ht).resolve_right hc⟩

end Buffers

section Runs

variable {env : Env} {cfg : Config} {σ₀ σ σ' : State} {steps : List (State × Event)} {a : Addr}
  {ev : Event}

theorem Keeps.step (h : step env σ ev = some σ') : Keeps (some (ev.addr σ)) σ σ' := by
  by_cases hf : ∃ a, ev = .ready a ∧ σ.handler a = some .remotePortFifoCon
  case neg =>
    simp only [not_exists, not_and] at hf
    exact (Keeps.stepFrame _).step (Keeps.owns _) hf h
  case pos =>
    obtain ⟨a, rfl, hm⟩ := hf
    have h := remotePortFifoConRead_of_step hm h
    rcases (Keeps.stepFrame _).remotePortFifoConRead h with ⟨c, cs, σ₁, _, h₁, he⟩ | ⟨_, h⟩
    case inr => exact h
    case inl =>
      subst he
      have h₀ : Keeps (some a) σ (if c = '\n'.toUInt8 then { σ with fifoIdx := 0 } else σ) := by
        split <;> exact .of_port_eq rfl rfl rfl
      exact h₀.trans <| h₁.trans <| .of_port_eq rfl rfl rfl

-- What a connection has read in a step.
def received (env : Env) (a : Addr) : State × Event → Option (List Byte)
  | (σ, .ready b) =>
    if b = a then (env.read σ.time a).toOption.map (·.take IO_BUFSIZE) else none
  | (σ, .oob b)   => if b = a then (env.read σ.time a).toOption.map (·.take 1) else none
  | (_, .poll)    => none

def history (env : Env) (a : Addr) (steps : List (State × Event)) : List (List Byte) :=
  steps.filterMap (received env a)

def emptyBuffer : List Byte :=
  List.replicate IO_BUFSIZE 0

theorem overlays_history (env : Env) (a : Addr) (steps : List (State × Event))
    (s : State × Event) :
    overlays emptyBuffer (history env a (steps ++ [s])) =
      overlay (overlays emptyBuffer (history env a steps)) ((received env a s).getD []) := by
  rw [history, List.filterMap_append, history]
  cases h : received env a s
  case none      => simp [h]
  case some data => simp [h, overlays_concat]

-- A read puts the data in front of the buffer.
theorem portread_buf {size : Nat} {got : Int} (h : portread env σ a size = some (got, σ')) :
    ∃ p data, σ.port a = some p ∧ ((env.read σ.time a).toOption.map (·.take size)).getD [] = data ∧
      σ'.port a = some { p with buf := overlay p.buf data } ∧ σ'.fresh = σ.fresh ∧
      σ'.telnetNegotiation = σ.telnetNegotiation ∧ (0 < got → got = data.length) := by
  have ⟨p, hp, h⟩ := Option.bind_eq_some_iff.mp h
  have ⟨_, _, h⟩ := Option.bind_eq_some_iff.mp h
  refine ⟨p, _, hp, rfl, ?_⟩
  dsimp only at h
  simp only [Nat.add_sub_cancel] at h
  split at h
  case h_1 k hr =>
    cases h
    refine ⟨by simp [hr, hp, Except.toOption], rfl, rfl, ?_⟩
    omega
  case h_2 data hr =>
    cases h
    exact ⟨by simp [hr, hp, Except.toOption, overlay], rfl, rfl, by simp [hr, Except.toOption]⟩

theorem lt_fresh_of_port {p : Port} (h : σ.Consistent) (hp : σ.port a = some p) :
    a < σ.fresh := by
  have ⟨n, h, hi, _⟩ := h
  exact h.fresh ▸ hi.lt_fresh a (Net.live_iff.mpr ⟨_, h.node_eq hp⟩)

theorem exists_port_addr (h : σ.Consistent) (hs : step env σ ev = some σ') :
    ∃ p, σ.port (ev.addr σ) = some p := by
  have ⟨n, h, hi, _⟩ := h
  cases ev
  case poll =>
    have ⟨r, hr, _⟩ := Option.bind_eq_some_iff.mp hs
    exact ⟨r, hr⟩
  all_goals
    simp only [step] at hs
    split at hs
    case isFalse => contradiction
    case isTrue hm => exact h.exists_port_of_mem hi (h.ports_eq hi ▸ hm)

theorem received_of_ne (h : ev.addr σ ≠ a) : received env a (σ, ev) = none := by
  cases ev
  case poll => rfl
  all_goals exact if_neg h

-- The buffers of connections are made of what they have read.
structure Buffered (env : Env) (steps : List (State × Event)) (σ : State) : Prop where
  buf : ∀ a p, σ.port a = some p → p.cls = none → p.buf = overlays emptyBuffer (history env a steps)
  unused : ∀ a, σ.fresh ≤ a → history env a steps = []
  type : ∀ c p, σ.port c = some p → p.type ≠ some .rs232
  telnet : σ.telnetNegotiation = false

-- Connections are read like the remote port.
theorem Net.Role.readMessage_eq {n : Net} {x : Node} (h : n.Role a x) (hc : x.cls = none) :
    x.readMessage = some .remotePort := by
  cases h
  case conn hr _ _ => exact hr
  all_goals cases hc.symm.trans ‹x.cls = some _›

-- What is read into a buffer stays there until the end of the step.
theorem buf_of_portread {size : Nat} {got : Int} {σ₁ : State} {p p' : Port}
    (hr : portread env σ a size = some (got, σ₁)) (hk : Keeps none σ₁ σ') (ha : a < σ.fresh)
    (hp : σ.port a = some p) (hp' : σ'.port a = some p') :
    p'.buf = overlay p.buf (((env.read σ.time a).toOption.map (·.take size)).getD []) := by
  have ⟨q, _, hq, rfl, hq', hf, _⟩ := portread_buf hr
  cases hp.symm.trans hq
  have ⟨q', hq'', _, hbuf⟩ := hk.old (hf ▸ ha) hp'
  cases hq'.symm.trans hq''
  exact hbuf nofun

-- A step puts what it reads in front of the buffer.
theorem buf_of_step {p p' : Port} (hc : σ.Consistent) (h : step env σ ev = some σ')
    (ht : σ.telnetNegotiation = false) (hp : σ.port a = some p) (hcls : p.cls = none)
    (hp' : σ'.port a = some p') : p'.buf = overlay p.buf ((received env a (σ, ev)).getD []) := by
  have ha := lt_fresh_of_port hc hp
  by_cases he : ev.addr σ = a
  case neg =>
    obtain ⟨q, hq, _, hbuf⟩ := (Keeps.step h).old ha hp'
    cases hp.symm.trans hq
    rw [received_of_ne he]
    exact hbuf fun h => he <| Option.some.inj h
  case pos =>
    obtain ⟨n, href, hi, _⟩ := hc
    have hrole := hi.role <| href.node_eq hp
    cases ev
    case poll =>
      have hc := hi.cls_rPorts <| (href.rPorts.symm.trans he) ▸ href.node_eq hp
      cases hcls.symm.trans hc
    case oob b =>
      have he : b = a := he
      subst he
      obtain ⟨_, _, h⟩ := outOfBand_of_step h
      obtain ⟨_, _, hr, hk⟩ := (Keeps.stepFrame none).outOfBand h
      rw [received, if_pos rfl]
      exact buf_of_portread hr hk ha hp hp'
    case ready b =>
      have he : b = a := he
      subst he
      have hm : p.readMessage = some .remotePort := hrole.readMessage_eq hcls
      obtain ⟨q, _, hq, hh, h⟩ := handled_of_step h
      cases hp.symm.trans hq
      cases hm.symm.trans hh
      cases h
      case remotePort hread =>
        obtain ⟨_, _, hr, hk⟩ :=
          (Keeps.stepFrame none).remotePortReadMessage (fun hact => by simp [ht] at hact) hread
        rw [received, if_pos rfl]
        exact buf_of_portread hr hk ha hp hp'

theorem Buffered.step (hb : Buffered env steps σ) (hc : σ.Consistent)
    (h : step env σ ev = some σ') : Buffered env (steps ++ [(σ, ev)]) σ' := by
  have hk := Keeps.step h
  have ⟨q, hq⟩ := exists_port_addr hc h
  have hlt := lt_fresh_of_port hc hq
  -- An address which has not been in use before has not received anything.
  have hnew {a : Addr} (ha : σ.fresh ≤ a) :
      received env a (σ, ev) = none ∧ history env a (steps ++ [(σ, ev)]) = [] := by
    have hr : received env a (σ, ev) = none :=
      received_of_ne <| Nat.ne_of_lt <| Nat.lt_of_lt_of_le hlt ha
    exact ⟨hr, by rw [history, List.filterMap_append, ← history, hb.unused a ha]; simp [hr]⟩
  constructor
  case type   => exact hk.type hb.type
  case telnet => exact (hk.telnet hb.type).trans hb.telnet
  case unused => exact fun a ha => (hnew <| Nat.le_trans hk.fresh ha).2
  case buf =>
    intro a p' hp' hcls
    by_cases ha : a < σ.fresh
    case pos =>
      have ⟨p, hp, hcls', _⟩ := hk.old ha hp'
      have hcls := hcls'.symm.trans hcls
      rw [overlays_history, ← hb.buf a p hp hcls]
      exact buf_of_step hc h hb.telnet hp hcls hp'
    case neg =>
      have ha := Nat.not_lt.mp ha
      have he : some (ev.addr σ) ≠ some a := fun he =>
        Nat.not_lt_of_le ha <| Option.some.inj he ▸ hlt
      rw [(hnew ha).2]
      exact hk.new ha (lt_fresh_of_port (consistent_step hc h) hp') he hp'

theorem buffered_of_run (hu : cfg.remote = some .usb) (h : start env cfg = some σ₀)
    (hr : Run env σ₀ steps σ) : Buffered env steps σ := by
  induction hr
  case refl =>
    have hb := blank_of_start (by simp [hu]) h
    exact ⟨fun a p hp _ => hb.buf a p hp, fun _ _ => rfl, hb.type, hb.telnet⟩
  case step hr hs hi => exact hi.step (consistent_run h hr) hs

end Runs

section Swallowing

variable {env : Env} {cfg : Config} {σ₀ σ σ' : State} {steps : List (State × Event)} {a b : Addr}
  {p q : Port} {mem m old : List Byte} {size : Int} {n : Nat}

-- The driver takes the memory for the packet if the string that begins there is the packet.
theorem portwrite_of_isPrefix (hq : σ.port b = some q) (hw : q.portwrite = some .usb)
    (hl : mem.length = IO_BUFSIZE) (h : terminated <+: mem) :
    portwrite env σ b mem size = some (size, σ) := by
  have hs : mem.takeWhile (· ≠ 0) = swallowed :=
    (takeWhile_eq_iff_isPrefix (fun _ => ne_zero_of_mem_swallowed) (hl ▸ by decide)).mpr h
  simp only [portwrite, hq, hw, Option.bind_eq_bind, Option.bind_some]
  exact if_pos ⟨trivial, hs⟩

theorem portwrite_of_not_isPrefix (hq : σ.port b = some q) (hw : q.portwrite = some .usb)
    (hl : mem.length = IO_BUFSIZE) (h : ¬terminated <+: mem) :
    portwrite env σ b mem size = some (env.write σ.time b (mem.take size.toNat),
      σ.log <| .write b <| mem.take size.toNat) := by
  have hs : mem.takeWhile (· ≠ 0) ≠ swallowed := fun hs =>
    h <| (takeWhile_eq_iff_isPrefix (fun _ => ne_zero_of_mem_swallowed) (hl ▸ by decide)).mp hs
  simp only [portwrite, hq, hw, Option.bind_eq_bind, Option.bind_some]
  exact if_neg fun hc => hs hc.2

theorem log_ne (σ : State) (io : Io) : σ.log io ≠ σ :=
  fun h => Nat.succ_ne_self σ.time <| congrArg State.time h

theorem swallows_iff (hq : σ.port b = some q) (hw : q.portwrite = some .usb)
    (hl : mem.length = IO_BUFSIZE) :
    portwrite env σ b mem size = some (size, σ) ↔ terminated <+: mem := by
  constructor
  case mpr => exact portwrite_of_isPrefix hq hw hl
  case mp  =>
    intro h
    by_contra hp
    rw [portwrite_of_not_isPrefix hq hw hl hp, Option.some_inj, Prod.mk.injEq] at h
    exact log_ne _ _ h.2

-- Two buffers are told apart if only one of them looks like the packet.
theorem portwrite_eq_iff {mem' : List Byte} (hq : σ.port b = some q)
    (hw : q.portwrite = some .usb) (hl : mem.length = IO_BUFSIZE) (hl' : mem'.length = IO_BUFSIZE)
    (ht : mem.take size.toNat = mem'.take size.toNat) :
    portwrite env σ b mem size = portwrite env σ b mem' size ↔
      (terminated <+: mem ↔ terminated <+: mem') := by
  by_cases h : terminated <+: mem
  case pos =>
    rw [portwrite_of_isPrefix hq hw hl h, eq_comm, swallows_iff hq hw hl']
    simp [h]
  case neg =>
    by_cases h' : terminated <+: mem'
    case pos =>
      rw [portwrite_of_isPrefix hq hw hl' h', swallows_iff hq hw hl]
      simp [h']
    case neg =>
      rw [portwrite_of_not_isPrefix hq hw hl h, portwrite_of_not_isPrefix hq hw hl' h', ht]
      simp [h, h']

-- What is behind the bytes of two buffers that agree on them makes no difference if these go
-- beyond the packet, or are not its beginning.
theorem prefix_iff_of_take_eq {mem' : List Byte} (hl : mem.length = IO_BUFSIZE)
    (hl' : mem'.length = IO_BUFSIZE) (ht : mem.take n = mem'.take n) :
    (terminated <+: mem ↔ terminated <+: mem') ↔ 6 ≤ n ∨ ¬mem.take n <+: terminated ∨
      (terminated.drop n <+: mem.drop n ↔ terminated.drop n <+: mem'.drop n) := by
  by_cases hn' : 6 ≤ n
  case pos =>
    have hs (mem : List Byte) : terminated <+: mem ↔ terminated <+: mem.take n :=
      ⟨fun h => List.prefix_take_iff.mpr ⟨h, hn'⟩, fun h => (List.prefix_take_iff.mp h).1⟩
    rw [hs mem, hs mem', ht]
    simp [hn']
  case neg =>
    have hn : n ≤ terminated.length := Nat.le_of_not_le hn'
    have hle {mem : List Byte} (h : mem.length = IO_BUFSIZE) : n ≤ mem.length :=
      Nat.le_trans hn <| h ▸ by decide
    rw [prefix_iff_split hn (hle hl), prefix_iff_split hn (hle hl'), ← ht]
    simp only [hn', false_or]
    tauto

-- A message is not mistaken because of what earlier ones have left behind it: if it is the packet,
-- a zero follows it, and if it is the beginning of the packet, the rest does not follow it. Neither
-- is it the packet followed by a zero of its own.
def Unmixed (history : List (List Byte)) (m : List Byte) : Prop :=
  let behind := (overlays emptyBuffer history).drop m.length
  if m = swallowed then behind.head? = some 0
  else ¬terminated <+: m ∧ (m <+: swallowed → ¬terminated.drop m.length <+: behind)

theorem prefix_overlay_iff (h : m.length ≤ terminated.length) :
    terminated <+: overlay old m ↔
      m <+: terminated ∧ terminated.drop m.length <+: old.drop m.length := by
  have hl : m.length ≤ (overlay old m).length := by simp [overlay]
  rw [prefix_iff_split h hl, overlay, List.take_left, List.drop_left]

-- A message is taken for the packet if it begins with the packet and its end, or if
-- they are completed by what is behind the message.
theorem prefix_overlay_iff_or : terminated <+: overlay old m ↔
    terminated <+: m ∨ (m <+: swallowed ∧ terminated.drop m.length <+: old.drop m.length) := by
  by_cases hl : m.length < terminated.length
  case pos =>
    have hn : ¬terminated <+: m := fun h => Nat.not_le_of_lt hl h.length_le
    have hs : m <+: terminated ↔ m <+: swallowed := by
      rw [terminated, List.prefix_concat_iff]
      exact or_iff_right fun h => Nat.ne_of_lt hl <| congrArg List.length h
    rw [prefix_overlay_iff (Nat.le_of_lt hl), hs]
    simp [hn]
  case neg =>
    have hl := Nat.not_lt.mp hl
    have hs : ¬m <+: swallowed := fun h => absurd (Nat.le_trans hl h.length_le) (by decide)
    have hp : terminated <+: overlay old m ↔ terminated <+: m :=
      ⟨fun h => List.prefix_of_prefix_length_le h (List.prefix_append ..) hl,
        fun h => h.trans <| List.prefix_append ..⟩
    rw [hp]
    simp [hs]

theorem unmixed_iff {history : List (List Byte)} :
    (terminated <+: overlay (overlays emptyBuffer history) m ↔ m = swallowed) ↔
      Unmixed history m := by
  simp only [Unmixed]
  split
  case isTrue h =>
    subst h
    rw [prefix_overlay_iff (by decide)]
    cases hd : (overlays emptyBuffer history).drop swallowed.length
    case nil       => simp [terminated]
    case cons c cs => simp [terminated, eq_comm]
  case isFalse h =>
    rw [prefix_overlay_iff_or]
    simp only [h, iff_false, not_or, not_and]

section Messages

-- Without telnet, a message is what has just been read.
theorem message_of_receives {k : Nat} {σ₁ : State} (ht : σ.telnetNegotiation = false)
    (h : Receives env σ a k σ₁) (hp : σ₁.port a = some p) :
    ∃ p₀, σ.port a = some p₀ ∧ p.cls = p₀.cls ∧ p.buf = overlay p₀.buf (p.buf.take k) ∧
      (p.buf.take k).length ≤ IO_BUFSIZE := by
  obtain ⟨_, hr, hg, hf, _⟩ := h
  have ⟨p₀, data, hp₀, hdata, hp', _, ht', hd⟩ := portread_buf hr
  rw [ht', ht] at hf
  cases hf
  cases hp.symm.trans hp'
  have hk : (overlay p₀.buf data).take data.length = data := List.take_left
  simp only [hd hg, Int.toNat_natCast, hk]
  refine ⟨p₀, hp₀, rfl, rfl, ?_⟩
  rw [← hdata]
  cases env.read σ.time a
  case error => exact Nat.zero_le _
  case ok    => exact List.length_take_le _ _

theorem length_history (h : m ∈ history env a steps) : m.length ≤ IO_BUFSIZE := by
  have ⟨⟨σ, ev⟩, _, h⟩ := List.mem_filterMap.mp h
  have hs : (1 : Nat) ≤ IO_BUFSIZE := by decide
  cases ev
  case poll => contradiction
  all_goals
    simp only [received] at h
    split at h
    case isFalse => contradiction
    case isTrue  =>
      obtain ⟨data, _, rfl⟩ := Option.map_eq_some_iff.mp h
      rw [List.length_take]
      omega

-- In front of what earlier messages have left in it.
theorem buffer_of_receives {k : Nat} {σ₁ : State} (hu : cfg.remote = some .usb)
    (h : start env cfg = some σ₀) (hr : Run env σ₀ steps σ) (hrec : Receives env σ a k σ₁)
    (hp : σ₁.port a = some p) (hcls : p.cls = none) :
    p.buf = overlay (overlays emptyBuffer (history env a steps)) (p.buf.take k) ∧
      p.buf.length = IO_BUFSIZE := by
  have hb := buffered_of_run hu h hr
  have ⟨p₀, hp₀, hc, he, hk⟩ := message_of_receives hb.telnet hrec hp
  have hl : (overlays emptyBuffer (history env a steps)).length = IO_BUFSIZE := by
    rw [length_overlays fun m hm => Nat.le_trans (length_history hm) (by simp [emptyBuffer])]
    exact List.length_replicate
  rw [hb.buf a p₀ hp₀ (hc ▸ hcls)] at he
  exact ⟨he, by rw [he, length_overlay (hl ▸ hk), hl]⟩

-- What happens to a message depends on the memory behind it exactly if the message is a beginning
-- of the packet and its end, without being both, and only one of the buffers goes on with the rest.
-- A message is swallowed exactly if it is the packet, unless it is mixed up with what earlier ones
-- have left in the buffer.
theorem swallows_iff_unmixed (env : Env) :
    (∀ {σ : State} {b : Addr} {q : Port} {buf buf' : List Byte} {size : Int},
      σ.port b = some q → q.portwrite = some .usb → buf.length = IO_BUFSIZE →
      buf'.length = IO_BUFSIZE → buf.take size.toNat = buf'.take size.toNat →
      (portwrite env σ b buf size = portwrite env σ b buf' size ↔
        6 ≤ size.toNat ∨ ¬buf.take size.toNat <+: terminated ∨
          (terminated.drop size.toNat <+: buf.drop size.toNat ↔
            terminated.drop size.toNat <+: buf'.drop size.toNat))) ∧
    ∀ {cfg : Config} {σ₀ σ σ₁ : State} {steps : List (State × Event)} {a b : Addr}
      {k : Nat} {p q : Port},
      cfg.remote = some .usb → start env cfg = some σ₀ → Run env σ₀ steps σ →
      Receives env σ a k σ₁ → σ₁.port a = some p → p.cls = none → p.peer = some b →
      σ₁.port b = some q → q.portwrite = some .usb →
      ((portwrite env σ₁ b p.buf k = some (↑k, σ₁) ↔ p.buf.take k = swallowed) ↔
        Unmixed (history env a steps) (p.buf.take k)) := by
  refine ⟨?agree, ?history⟩
  case agree =>
    intro σ b q buf buf' size hq hw hl hl' ht
    exact (portwrite_eq_iff hq hw hl hl' ht).trans <| prefix_iff_of_take_eq hl hl' ht
  case history =>
    intro cfg σ₀ σ σ₁ steps a b k p q hu h hr hrec hp hcls _ hq hw
    have ⟨he, hl⟩ := buffer_of_receives hu h hr hrec hp hcls
    rw [swallows_iff hq hw hl, ← unmixed_iff, ← he]

-- A short packet of the debugger comes after a longer one.
def swallowEnv : Env where
  read time _     := .ok <| if time = 2 then "$m0,4#fd".toList.map Char.toUInt8 else swallowed
  write _ _ bytes := bytes.length
  accept time     := time + 5
  socket time     := time + 5
  connect _       := -1
  openFifo time   := time + 5

def swallowConfig : Config where
  lPort      := .tcp
  scriptPort := none
  remote     := some .usb

-- The second packet has arrived.
theorem exists_swallowRun : ∃ σ₀ steps σ σ₁ p q, start swallowEnv swallowConfig = some σ₀ ∧
    Run swallowEnv σ₀ steps σ ∧ Receives swallowEnv σ 2 5 σ₁ ∧ σ₁.port 2 = some p ∧ p.cls = none ∧
    p.peer = some 1 ∧ σ₁.port 1 = some q ∧ q.portwrite = some .usb ∧
    p.buf.take 8 = "$c#63#fd".toList.map Char.toUInt8 := by
  have h : ((start swallowEnv swallowConfig).bind fun σ =>
      (trail swallowEnv [.ready 0, .ready 2] [] σ).bind fun r =>
        (portread swallowEnv r.2 2 IO_BUFSIZE).bind fun m =>
          (m.2.port 2).bind fun p => (m.2.port 1).map fun q =>
            decide <|
            r.2.handler 2 = some .remotePort ∧ m.1 = 5 ∧ m.2.telnetNegotiation = false ∧
            p.cls = none ∧ p.peer = some 1 ∧ q.portwrite = some .usb ∧
            p.buf.take 8 = "$c#63#fd".toList.map Char.toUInt8) = some true := by
    decide +kernel
  obtain ⟨σ₀, h₀, h⟩ := Option.bind_eq_some_iff.mp h
  obtain ⟨⟨steps, σ⟩, ht, h⟩ := Option.bind_eq_some_iff.mp h
  obtain ⟨⟨got, σ₁⟩, hr, h⟩ := Option.bind_eq_some_iff.mp h
  obtain ⟨p, hp, h⟩ := Option.bind_eq_some_iff.mp h
  obtain ⟨q, hq, h⟩ := Option.map_eq_some_iff.mp h
  obtain ⟨hm, rfl, hn, hc, hb, hw, hbuf⟩ := of_decide_eq_true h
  refine ⟨σ₀, steps, σ, σ₁, p, q, h₀, .of_trail .refl ht, ?_, hp, hc, hb, hq, hw, hbuf⟩
  exact .intro hm hr (by decide) (by rw [hn]; rfl) (by decide)

theorem swallows_iff_unmixed_of_swallowRun : ∃ σ₀ steps σ σ₁ p,
    start swallowEnv swallowConfig = some σ₀ ∧ Run swallowEnv σ₀ steps σ ∧
    Receives swallowEnv σ 2 5 σ₁ ∧ σ₁.port 2 = some p ∧
    (portwrite swallowEnv σ₁ 1 emptyBuffer 1 =
        portwrite swallowEnv σ₁ 1 (overlay emptyBuffer [0, 1]) 1 ↔
      6 ≤ 1 ∨ ¬emptyBuffer.take 1 <+: terminated ∨
        (terminated.drop 1 <+: emptyBuffer.drop 1 ↔
          terminated.drop 1 <+: (overlay emptyBuffer [0, 1]).drop 1)) ∧
    ((portwrite swallowEnv σ₁ 1 p.buf 5 = some (5, σ₁) ↔ p.buf.take 5 = swallowed) ↔
      Unmixed (history swallowEnv 2 steps) (p.buf.take 5)) := by
  have ⟨σ₀, steps, σ, σ₁, p, q, h, hr, hrec, hp, hc, hb, hq, hw, _⟩ := exists_swallowRun
  refine ⟨σ₀, steps, σ, σ₁, p, h, hr, hrec, hp, ?agree, ?history⟩
  case agree =>
    refine (swallows_iff_unmixed swallowEnv).left hq hw List.length_replicate ?_ rfl
    have hl : [0, 1].length ≤ emptyBuffer.length := by
      rw [emptyBuffer, List.length_replicate]
      decide
    exact (length_overlay hl).trans List.length_replicate
  case history => exact (swallows_iff_unmixed swallowEnv).right rfl h hr hrec hp hc hb hq hw

-- The target is sent the packet, because of what is left of the longer one. On the other hand, a
-- single dollar is swallowed in front of the rest of the packet.
theorem not_swallows : ∃ σ₀ steps σ σ₁ p q, start swallowEnv swallowConfig = some σ₀ ∧
    Run swallowEnv σ₀ steps σ ∧ Receives swallowEnv σ 2 5 σ₁ ∧ σ₁.port 2 = some p ∧ p.cls = none ∧
    p.peer = some 1 ∧ σ₁.port 1 = some q ∧ q.portwrite = some .usb ∧ p.buf.take 5 = swallowed ∧
    portwrite swallowEnv σ₁ 1 p.buf 5 ≠ some (5, σ₁) ∧
    ∃ buf buf', buf.length = IO_BUFSIZE ∧ buf'.length = IO_BUFSIZE ∧ buf.take 1 = buf'.take 1 ∧
      portwrite swallowEnv σ₁ 1 buf 1 ≠ portwrite swallowEnv σ₁ 1 buf' 1 := by
  have ⟨σ₀, steps, σ, σ₁, p, q, h, hr, hrec, hp, hc, hb, hq, hw, hbuf⟩ := exists_swallowRun
  have hl {m : List Byte} (hm : m.length ≤ IO_BUFSIZE) :
      (overlay emptyBuffer m).length = IO_BUFSIZE := by
    rw [length_overlay (by simpa [emptyBuffer] using hm)]
    exact List.length_replicate
  have hs : (overlay emptyBuffer swallowed).length = IO_BUFSIZE := hl (by decide)
  have hd : (overlay emptyBuffer ['$'.toUInt8]).length = IO_BUFSIZE := hl (by decide)
  have ht : (overlay emptyBuffer swallowed).take 1 =
      (overlay emptyBuffer ['$'.toUInt8]).take 1 := by
    rw [overlay, overlay, List.take_append_of_le_length (by decide),
      List.take_append_of_le_length (by decide)]
    decide
  refine ⟨σ₀, steps, σ, σ₁, p, q, h, hr, hrec, hp, hc, hb, hq, hw, ?_, ?_, _, _, hs, hd, ht, ?_⟩
  case refine_1 =>
    have he : (p.buf.take 8).take 5 = p.buf.take 5 := List.take_take ..
    rw [← he, hbuf]
    decide
  case refine_2 =>
    rw [ne_eq, swallows_iff hq hw (buffer_of_receives rfl h hr hrec hp hc).2]
    intro hpre
    have hpre := List.prefix_take_iff.mpr ⟨hpre, (by decide : terminated.length ≤ 8)⟩
    exact absurd (hbuf ▸ hpre) (by decide)
  case refine_3 =>
    have he : portwrite swallowEnv σ₁ 1 _ 1 = portwrite swallowEnv σ₁ 1 _ 1 ↔ _ :=
      portwrite_eq_iff hq hw hs hd ht
    rw [ne_eq, he]
    have hyes : terminated <+: overlay emptyBuffer swallowed := by decide +kernel
    have hno : ¬terminated <+: overlay emptyBuffer ['$'.toUInt8] := by decide +kernel
    simp [hyes, hno]

end Messages

end Swallowing

end Proxy
