import MyLinuxEnv.Proxy.Theorems.Accept
import MyLinuxEnv.Proxy.Theorems.Closing
import MyLinuxEnv.Proxy.Theorems.Removal
import MyLinuxEnv.Proxy.Theorems.Start

namespace Proxy

variable {env : Env} {σ σ' : State} {n : Net} {a : Addr} {ev : Event}

theorem Net.Role.script_of_handler {x : Node} (h : n.Role a x)
    (hm : x.readMessage = some .scriptPort) : n.script = some a := by
  cases h <;> simp_all

-- What a step does to the links: it adds some, it lets clients go, or it fails in the end.
theorem step_cases {K : Addr → Prop} (h : Refines σ n) (hi : n.Inv)
    (hstep : step env σ ev = some σ') :
    Represents σ' n.Opening ∨ Represents σ' (n.Closing K) ∨ Fails env σ ev σ' := by
  cases ev
  case oob a =>
    have ⟨_, _, ho⟩ := outOfBand_of_step hstep
    exact .inr <| (outOfBand_cases ho).imp_left fun hq => hq.refines h |>.represents hi
  case poll =>
    have ⟨r, _, hstep⟩ := Option.bind_eq_some_iff.mp hstep
    split at hstep
    · exact .inr <| .inl <| remoteUSBPortReadMessage_closing h hi hstep
    · contradiction
  case ready a =>
    have ⟨p, handler, hp, hm, hd⟩ := handled_of_step hstep
    have hx := h.node_eq hp
    have hrole := hi.role hx
    have hh : σ.handler a = some handler := by rw [State.handler, hp, Option.bind_some, hm]
    cases hd
    case localPort hr => exact .inl <| localPortReadMessage_opening h hi hx hm hr
    case scriptPort hr =>
      exact .inl <| scriptPortReadMessage_opening h hi (hrole.script_of_handler hm) hr
    case scriptClientPort hr => exact .inr <| scriptClientPortReadMessage_cases h hi hh hr
    case remotePort hr       => exact .inr <| remotePortReadMessage_cases h hi hh hr
    case remotePortAccept hr =>
      have hc := hrole.cls_of_handler (.inl hm)
      exact .inl <| remotePortAccept_opening h hi hx hc hr
    case remotePortFifoCon hr =>
      have hc := hrole.cls_of_handler (.inr hm)
      exact .inl <| remotePortFifoConRead_opening h hi hx hc hr

-- The network of a state is consistent, even if some links lead to ports that are gone.
def State.Consistent (σ : State) : Prop :=
  Represents σ fun _ => True

theorem Refines.consistent (h : Refines σ n) (hi : n.Inv) : σ.Consistent :=
  ⟨n, h, hi, trivial⟩

theorem Represents.consistent {P : Net → Prop} (h : Represents σ P) : σ.Consistent :=
  h.mono fun _ => trivial

-- Whatever a step severs, the network stays consistent.
theorem consistent_step (h : σ.Consistent) (hstep : step env σ ev = some σ') :
    σ'.Consistent := by
  have ⟨n, h, hi, _⟩ := h
  rcases step_cases (K := fun _ => False) h hi hstep with ho | hc | ⟨b, τ, _, hq, hk⟩
  · exact ho.consistent
  · exact hc.consistent
  · have ⟨_, hk, h'⟩ := killport_refines (hq.refines h) hi hk
    exact h'.consistent <| hi.of_killed hk

theorem consistent_run {cfg : Config} {σ₀ : State} {steps : List (State × Event)}
    (h : start env cfg = some σ₀) (hr : Run env σ₀ steps σ) : σ.Consistent := by
  induction hr
  case refl          => exact Represents.consistent (P := Net.Valid) <| start_represents h
  case step hstep ih => exact consistent_step ih hstep

-- Events at which the program does not get stuck are those of a run.
theorem exists_run (env : Env) (cfg : Config) (evs : List Event) (P : State → Prop)
    [DecidablePred P] (h : ((start env cfg).bind (trail env evs [])).any (P ·.2) = true) :
    ∃ σ₀ steps σ, steps.map Prod.snd = evs ∧ start env cfg = some σ₀ ∧
      Run env σ₀ steps σ ∧ P σ := by
  have ⟨⟨steps, σ⟩, h, hP⟩ := (Option.any_eq_true ..).mp h
  have ⟨σ₀, h₀, h⟩ := Option.bind_eq_some_iff.mp h
  exact ⟨σ₀, steps, σ, events_of_trail h, h₀, .of_trail .refl h, of_decide_eq_true hP⟩

-- Connections which always have something to say.
def chatEnv : Env where
  read _ _        := .ok ['a'.toUInt8]
  write _ _ bytes := bytes.length
  accept time     := time + 5
  socket time     := time + 5
  connect _       := 0
  openFifo time   := time + 5

-- A receiver whose script port has the address 1, and 3 is that of its first client.
def chatConfig : Config where
  lPort      := .tcp
  scriptPort := some (.tcp, false)
  remote     := some .udp

end Proxy
