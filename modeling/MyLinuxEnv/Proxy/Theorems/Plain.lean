import MyLinuxEnv.Proxy.Setup
import MyLinuxEnv.Proxy.Theorems.Effects
import MyLinuxEnv.Proxy.Theorems.Messages

namespace Proxy

-- A port that has been set up at most: nothing has been read yet, and only the remote port `r` may
-- be a side of the script connection that can be written to.
structure Port.Plain (r : Option Addr) (a : Addr) (p : Port) : Prop where
  buf : p.buf = List.replicate IO_BUFSIZE 0
  lmode : p.lmode = 0
  mode : p.mode = 0 ∨ some a = r
  rscript : ∀ b, p.rscript = some b → some b = r
  peer : p.peer = none
  kind : p.cls.isSome ∨ p.type = none

-- The state up to the main loop.
structure State.Plain (σ : State) (r : Option Addr) : Prop where
  lPorts : σ.lPorts = 0
  rPorts : ∀ b, r = some b → σ.rPorts = b
  port : ∀ a p, σ.port a = some p → p.Plain r a
  listenFd : σ.listenFd = -1
  fifoConFd : σ.fifoConFd = -1
  gdb : σ.gdb = {}
  telnet : σ.telnetNegotiation = false
  fifoBuf : σ.fifoBuf = List.replicate MAX_FIFO_BUF 0
  fifoIdx : σ.fifoIdx = 0
  trace : σ.trace = []

variable {env : Env} {σ σ' : State} {r : Option Addr} {a : Addr} {fd : Int}

namespace State.Plain

theorem still (h : σ.Plain r) (hs : Still σ σ') : σ'.Plain r where
  lPorts      := hs.lPorts.trans h.lPorts
  rPorts b hb := hs.rPorts.trans <| h.rPorts b hb
  port a p hp := h.port a p (hs.port ▸ hp)
  listenFd    := hs.listenFd.trans h.listenFd
  fifoConFd   := hs.fifoConFd.trans h.fifoConFd
  gdb         := hs.gdb.trans h.gdb
  telnet      := hs.telnet.trans h.telnet
  fifoBuf     := hs.fifoBuf.trans h.fifoBuf
  fifoIdx     := hs.fifoIdx.trans h.fifoIdx
  trace       := hs.trace.trans h.trace

theorem tick (h : σ.Plain r) (t : Nat) : ({ σ with time := t } : State).Plain r :=
  ⟨h.lPorts, h.rPorts, h.port, h.listenFd, h.fifoConFd, h.gdb, h.telnet, h.fifoBuf, h.fifoIdx,
    h.trace⟩

theorem push (h : σ.Plain r) (a : Addr) : (σ.push a).Plain r :=
  ⟨h.lPorts, h.rPorts, h.port, h.listenFd, h.fifoConFd, h.gdb, h.telnet, h.fifoBuf, h.fifoIdx,
    h.trace⟩

theorem fdSet (h : σ.Plain r) (hs : σ.fdSet fd = some σ') : σ'.Plain r := by
  rw [(fdSet_eq hs).right]
  exact ⟨h.lPorts, h.rPorts, h.port, h.listenFd, h.fifoConFd, h.gdb, h.telnet, h.fifoBuf, h.fifoIdx,
    h.trace⟩

theorem modify {f : Port → Port} (h : σ.Plain r)
    (hf : ∀ p, p.Plain r a → (f p).Plain r a) : (σ.modify a f).Plain r := by
  refine ⟨h.lPorts, h.rPorts, fun b p hp => ?_, h.listenFd, h.fifoConFd, h.gdb, h.telnet, h.fifoBuf,
    h.fifoIdx, h.trace⟩
  by_cases hb : b = a
  case neg => exact h.port b p <| State.modify_port_of_ne hb ▸ hp
  case pos =>
    subst hb
    rw [State.modify_port_self] at hp
    have ⟨q, hq, he⟩ := Option.map_eq_some_iff.mp hp
    exact he ▸ hf q (h.port b q hq)

-- Changes of fields that do not matter.
theorem edit {f : Port → Port} (h : σ.Plain r)
    (hf : ∀ p, f p = { f p with
      buf := p.buf, lmode := p.lmode, mode := p.mode, rscript := p.rscript, peer := p.peer })
    (hk : ∀ p, p.Plain r a → (f p).cls.isSome ∨ (f p).type = none) : (σ.modify a f).Plain r := by
  refine h.modify fun p hp => ?_
  have hk := hk p hp
  rw [hf p] at hk ⊢
  exact ⟨hp.buf, hp.lmode, hp.mode, hp.rscript, hp.peer, hk⟩

theorem malloc (h : σ.Plain r) : (σ.malloc {}).Plain r := by
  refine ⟨h.lPorts, h.rPorts, fun b p hp => ?_, h.listenFd, h.fifoConFd, h.gdb, h.telnet, h.fifoBuf,
    h.fifoIdx, h.trace⟩
  by_cases hb : b = σ.fresh
  case neg => exact h.port b p <| State.malloc_port_of_ne hb ▸ hp
  case pos =>
    rw [hb, State.malloc_port_self] at hp
    cases hp
    exact ⟨rfl, rfl, .inl rfl, fun _ => nofun, rfl, .inr rfl⟩

theorem openSocket (h : σ.Plain r) (ho : openSocket env σ = some (fd, σ')) : σ'.Plain r := by
  simp only [Proxy.openSocket] at ho
  split at ho
  case isTrue  => contradiction
  case isFalse => cases ho; exact h.tick _

theorem manage (h : σ.Plain r) (hm : manage σ a = some σ') : σ'.Plain r := by
  have ⟨_, _, hm⟩ := Option.bind_eq_some_iff.mp hm
  exact (h.push a).fdSet hm

theorem setupLocalPort {kind : LocalKind} {attach : Bool} (h : σ.Plain r)
    (hs : setupLocalPort env σ a kind attach = some σ') : σ'.Plain r := by
  have ⟨⟨sock, σ₁⟩, ho, hs⟩ := ite_bind_eq_some_iff.mp hs
  have h₁ : σ₁.Plain r := by
    split at ho
    case isTrue  => cases ho; exact h
    case isFalse => exact h.openSocket ho
  cases hs
  exact State.Plain.push (h₁.edit (fun _ => rfl) fun _ _ => .inl rfl) a

theorem parseLocalPort {cfg : Config} (h : σ.Plain r)
    (hp : parseLocalPort env σ a cfg = some σ') : σ'.Plain r := by
  have ⟨σ₁, h₁, hp⟩ := Option.bind_eq_some_iff.mp hp
  have h₁ := h.setupLocalPort h₁
  split at hp
  case h_1 =>
    have ⟨_, hs, hp⟩ := Option.bind_eq_some_iff.mp hp
    cases hs
    have ⟨_, _, hp⟩ := Option.bind_eq_some_iff.mp hp
    exact h₁.fdSet hp
  case h_2 kind breakPort _ =>
    have ⟨σ₂, h₂, hp⟩ := Option.bind_eq_some_iff.mp hp
    have ⟨sp, _, hp⟩ := Option.bind_eq_some_iff.mp hp
    have ⟨σ₃, h₃, hp⟩ := Option.bind_eq_some_iff.mp hp
    have ⟨_, hs, hp⟩ := Option.bind_eq_some_iff.mp hp
    cases hs
    have ⟨_, _, hp⟩ := Option.bind_eq_some_iff.mp hp
    have h₂ : σ₂.Plain r := h₁.malloc.setupLocalPort h₂
    have h₃ : σ₃.Plain r := by
      refine State.Plain.fdSet ?_ h₃
      split
      case isTrue  => exact h₂
      case isFalse => exact h₂.edit (fun _ => rfl) fun _ hp => hp.kind
    have h₄ : (σ₃.modify a ({ · with scriptRef := some σ₁.fresh })).Plain r :=
      h₃.edit (fun _ => rfl) fun _ hp => hp.kind
    refine State.Plain.fdSet (h₄.modify ?_) hp
    exact fun p hp => ⟨hp.buf, rfl, hp.mode, hp.rscript, hp.peer, hp.kind⟩

theorem setupRemotePort {type : Option PortType} (h : σ.Plain r)
    (hs : setupRemotePort env σ a type = some σ') : σ'.Plain r := by
  have h₁ : (σ.modify a ({ · with
      cls := some .remotePort, sock := -1, readMessage := some .remotePort, type })).Plain r :=
    h.edit (fun _ => rfl) fun _ _ => .inl rfl
  have hd {τ : State} {portio portclose : Driver} {sock : Int} (hτ : τ.Plain r) :
      (τ.modify a ({ · with
        portread := some portio, portwrite := some portio, portclose := some portclose,
        sock })).Plain r :=
    hτ.edit (fun _ => rfl) fun _ hp => hp.kind
  simp only [Proxy.setupRemotePort] at hs
  split at hs
  case h_1 =>
    obtain ⟨⟨sock, σ₁⟩, ho, hs⟩ := Option.bind_eq_some_iff.mp hs
    exact (hd <| h₁.openSocket ho).manage hs
  case h_2 =>
    obtain ⟨⟨sock, σ₁⟩, ho, hs⟩ := Option.bind_eq_some_iff.mp hs
    have h₂ : (σ₁.modify a ({ · with readMessage := some .remotePortAccept })).Plain r :=
      (h₁.openSocket ho).edit (fun _ => rfl) fun _ hp => hp.kind
    exact (hd h₂).manage hs
  case h_3 =>
    split at hs
    case isTrue  => contradiction
    case isFalse =>
      have h₂ {t : Nat} {τ : State} (hτ : τ.Plain r) : (({ τ with time := t } : State).modify a
          ({ · with readMessage := some .remotePortFifoCon })).Plain r :=
        (hτ.tick t).edit (fun _ => rfl) fun _ hp => hp.kind
      exact (hd <| h₂ h₁).manage hs
  case h_4 =>
    split at hs
    case isTrue  => contradiction
    case isFalse => exact (hd <| h₁.tick _).manage hs
  case h_5 => cases hs; exact (hd h₁).push a
  case h_6 => cases hs; exact h₁

end State.Plain

theorem start_plain {cfg : Config} (h : start env cfg = some σ) : σ.Plain (some σ.rPorts) := by
  have ⟨σ₁, h₁, h⟩ := Option.bind_eq_some_iff.mp h
  have ⟨σ₂, h₂, h⟩ := Option.bind_eq_some_iff.mp h
  have ⟨l, _, h⟩ := Option.bind_eq_some_iff.mp h
  have ⟨q, _, h⟩ := Option.bind_eq_some_iff.mp h
  have h₀ : ({ lPorts := 0 } : State).Plain none := by
    refine ⟨rfl, fun _ => nofun, fun a p hp => ?_, rfl, rfl, rfl, rfl, rfl, rfl, rfl⟩
    cases (show none = some p from hp)
  have h₁ : σ₁.Plain none := h₀.malloc.parseLocalPort h₁
  have h₁ : ({ σ₁ with rPorts := σ₁.fresh } : State).Plain (some σ₁.fresh) := by
    refine ⟨h₁.lPorts, fun b hb => Option.some.inj hb, fun a p hp => ?_, h₁.listenFd,
      h₁.fifoConFd, h₁.gdb, h₁.telnet, h₁.fifoBuf, h₁.fifoIdx, h₁.trace⟩
    have hp := h₁.port a p hp
    exact ⟨hp.buf, hp.lmode, .inl <| hp.mode.resolve_right nofun,
      fun b hb => (nomatch hp.rscript b hb), hp.peer, hp.kind⟩
  have h₂ : σ₂.Plain (some σ₁.fresh) := h₁.malloc.setupRemotePort h₂
  have h₃ : (σ₂.modify 0 ({ · with remote := some σ₁.fresh })).Plain (some σ₁.fresh) :=
    h₂.edit (fun _ => rfl) fun _ hp => hp.kind
  have hσ : σ.Plain (some σ₁.fresh) := by
    refine State.Plain.still ?_ (.refresh h)
    split
    case h_1 => exact h₃
    case h_2 s _ =>
      split
      case isFalse => exact h₃
      case isTrue  =>
        refine State.Plain.modify (State.Plain.modify h₃ fun p hp => ?_) fun p hp => ?_
        case refine_1 =>
          exact ⟨hp.buf, hp.lmode, hp.mode, fun b hb => hb ▸ rfl, hp.peer, hp.kind⟩
        case refine_2 => exact ⟨hp.buf, hp.lmode, .inr rfl, hp.rscript, hp.peer, hp.kind⟩
  rwa [hσ.rPorts _ rfl]

-- The script port is only linked to a remote port that can be written to.
theorem hasDriver_of_start {cfg : Config} {b : Addr} {p q : Port} (h : start env cfg = some σ)
    (hp : σ.port a = some p) (hb : p.rscript = some b) (hq : σ.port b = some q) :
    q.type.any (·.hasDriver) := by
  have ⟨σ₁, h₁, h⟩ := Option.bind_eq_some_iff.mp h
  have ⟨σ₂, h₂, h⟩ := Option.bind_eq_some_iff.mp h
  have ⟨l, _, h⟩ := Option.bind_eq_some_iff.mp h
  have ⟨r, hr, h⟩ := Option.bind_eq_some_iff.mp h
  have h₀ : ({ lPorts := 0 } : State).Plain none := by
    refine ⟨rfl, fun _ => nofun, fun a p hp => ?_, rfl, rfl, rfl, rfl, rfl, rfl, rfl⟩
    cases (show none = some p from hp)
  have h₁ : σ₁.Plain none := h₀.malloc.parseLocalPort h₁
  have h₁ : ({ σ₁ with rPorts := σ₁.fresh } : State).Plain none :=
    ⟨h₁.lPorts, fun _ => nofun, h₁.port, h₁.listenFd, h₁.fifoConFd, h₁.gdb, h₁.telnet, h₁.fifoBuf,
      h₁.fifoIdx, h₁.trace⟩
  have h₂ : σ₂.Plain none := h₁.malloc.setupRemotePort h₂
  -- Nothing has been linked before.
  have h₃ : (σ₂.modify 0 ({ · with remote := some σ₁.fresh })).Plain none :=
    h₂.edit (fun _ => rfl) fun _ hp => hp.kind
  rw [(Still.refresh h).port] at hp hq
  revert hq hp
  split
  case h_1 => exact fun _ hp => nomatch (h₃.port a p hp).rscript b hb
  case h_2 s _ =>
    split
    case isFalse => exact fun _ hp => nomatch (h₃.port a p hp).rscript b hb
    case isTrue ht =>
      intro hq hp
      have ⟨p₁, hp₁, hc₁⟩ := port_of_modify hp
      have ⟨p₂, hp₂, hc₂⟩ := port_of_modify hp₁
      have hb₁ : p₁.rscript = some b := by
        rcases hc₁ with he | ⟨_, he⟩ <;> exact (congrArg Port.rscript he).symm.trans hb
      rcases hc₂ with he | ⟨_, he⟩
      case inl => cases (h₃.port a p₂ hp₂).rscript b <| he ▸ hb₁
      case inr =>
        have hb₂ : some σ₁.fresh = some b := (congrArg Port.rscript he).symm.trans hb₁
        cases hb₂
        have ⟨q₁, hq₁, hd₁⟩ := port_of_modify hq
        have ⟨q₂, hq₂, hd₂⟩ := port_of_modify hq₁
        cases hr.symm.trans hq₂
        have ht₁ : q₁.type = r.type := by rcases hd₂ with he | ⟨_, he⟩ <;> rw [he]
        have ht₂ : q.type = q₁.type := by rcases hd₁ with he | ⟨_, he⟩ <;> rw [he]
        rw [ht₂, ht₁]
        rcases ht with ht | ht | ht
        all_goals rw [ht]; rfl

end Proxy
