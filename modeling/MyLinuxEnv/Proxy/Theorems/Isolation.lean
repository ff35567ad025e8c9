import MyLinuxEnv.Proxy.Theorems.Messages
import MyLinuxEnv.Proxy.Theorems.Plain
import MyLinuxEnv.Proxy.Theorems.StepEffects

namespace Proxy

-- The port that some output goes to.
def Io.target : Io → Option Addr
  | write b _     => some b
  | serialBreak b => some b
  | close _       => none
  | connect _     => none

-- All that has been sent to a port so far.
def State.sentTo (σ : State) (b : Addr) : List Io :=
  σ.trace.filter (·.target = some b)

-- Script clients can only write to the remote side, and are nobody's peer.
structure Port.Guarded (σ : State) (a : Addr) (p : Port) : Prop where
  lmode : p.lmode = 0
  mode : p.mode = 0 ∨ p.IsOpened ∨ a = σ.rPorts
  rscript : ∀ b, p.rscript = some b → σ.Peerable b ∧ σ.Remote b
  peer : ∀ b, p.peer = some b → σ.Peerable b
  driver : p.IsLocal → p.portwrite = some .tcp

structure State.Guarded (σ : State) : Prop where
  rPorts : σ.rPorts < σ.fresh
  rPort : ∀ q, σ.port σ.rPorts = some q → q.cls = some .remotePort
  port : ∀ a p, σ.port a = some p → p.Guarded σ a

variable {env : Env} {K : Cause → Prop} {σ σ' : State} {a b : Addr} {p q : Port}

theorem Port.Guarded.mono (h : p.Guarded σ a) (hk : Kept σ σ') : p.Guarded σ' a where
  lmode       := h.lmode
  mode        := hk.rPorts ▸ h.mode
  rscript b hb :=
    have ⟨hp, hr⟩ := h.rscript b hb
    ⟨hk.peerable hp, hk.remote hp.left hr⟩
  peer b hb   := hk.peerable <| h.peer b hb
  driver      := h.driver

namespace State.Guarded

-- Nothing but ports has to be looked at, and only those that have changed.
theorem of_kept (h : σ.Guarded) (hk : Kept σ σ')
    (hp : ∀ a p, σ'.port a = some p → σ.port a = some p ∨ p.Guarded σ' a) : σ'.Guarded where
  rPorts   := hk.rPorts ▸ Nat.lt_of_lt_of_le h.rPorts hk.fresh
  rPort q hq := by
    rw [hk.rPorts] at hq
    have ⟨p, hp, hkp⟩ := hk.kind h.rPorts hq
    exact hkp.cls.trans <| h.rPort p hp
  port a p hp' := (hp a p hp').elim (fun hp => (h.port a p hp).mono hk) id

theorem of_port_eq (h : σ.Guarded) (hk : Kept σ σ') (hp : σ'.port = σ.port) : σ'.Guarded :=
  h.of_kept hk fun _ _ hq => .inl <| hp ▸ hq

-- A port is changed, besides anything but the ports.
theorem of_modify {τ : State} {f : Port → Port} (h : σ.Guarded) (hk : Kept σ (τ.modify a f))
    (hp : τ.port = σ.port) (hf : ∀ p, σ.port a = some p → p.Guarded σ a → (f p).Guarded σ a) :
    (τ.modify a f).Guarded := by
  refine h.of_kept hk fun b p' hp' => ?_
  have ⟨p, hq, hc⟩ := port_of_modify hp'
  rw [hp] at hq
  rcases hc with he | ⟨hb, he⟩
  · exact .inl <| he ▸ hq
  · subst hb
    exact .inr <| he ▸ (hf p hq (h.port b p hq)).mono hk

theorem of_effect (h : Primitive env K σ σ') (hσ : σ.Guarded) : σ'.Guarded := by
  have hk := Kept.of_effect h
  cases h
  case still h        => exact hσ.of_port_eq hk h.port
  case write          => exact hσ.of_port_eq hk rfl
  case serialBreak    => exact hσ.of_port_eq hk rfl
  case connect        => exact hσ.of_port_eq hk rfl
  case scan           => exact hσ.of_port_eq hk rfl
  case flush          => exact hσ.of_port_eq hk rfl
  case fifo           => exact hσ.of_port_eq hk rfl
  case negotiate      => exact hσ.of_port_eq hk rfl
  case select h       => exact hσ.of_port_eq hk <| by rw [(fdSet_eq h).right]
  case free           => exact hσ.of_kept hk fun _ _ hp => .inl <| port_of_free hp
  case fill h =>
    refine hσ.of_modify hk rfl fun p hp hg => ?_
    rw [(h p hp).eq]
    exact ⟨hg.lmode, hg.mode, hg.rscript, hg.peer, hg.driver⟩
  case relink h hb =>
    refine hσ.of_modify hk rfl fun p _ hg => ?_
    have hpeer (b : Addr) (hf : (_ : Port).peer = some b) : σ.Peerable b :=
      (hb p b hf).elim (hg.peer b) id
    rw [h p] at hpeer ⊢
    exact ⟨hg.lmode, hg.mode, hg.rscript, hpeer, hg.driver⟩
  case attachLocal hs =>
    refine hσ.of_modify hk rfl fun p _ hg => ?_
    exact ⟨hg.lmode, .inl (hσ.port _ _ hs).lmode, hg.rscript, hg.peer, hg.driver⟩
  case attachRemote hb =>
    refine hσ.of_modify hk rfl fun p hp hg => ?_
    exact ⟨hg.lmode, .inr <| hb p hp, hg.rscript, hg.peer, hg.driver⟩
  case bind hb hp =>
    refine hσ.of_modify hk rfl fun p _ hg => ?_
    refine ⟨hg.lmode, hg.mode, fun b hr => ?_, hg.peer, hg.driver⟩
    cases hr
    exact ⟨hp, hb⟩
  case chain => exact hσ.of_port_eq hk rfl
  case create hn =>
    refine hσ.of_kept hk fun a p hp => ?_
    rcases port_of_malloc hp with ⟨_, he⟩ | hp
    · subst he
      refine .inr ⟨hn.lmode, .inl hn.mode, fun b hb => ?_, fun b hb => ?_, fun _ => hn.driver.right⟩
      · cases hn.rscript.symm.trans hb
      · cases hn.peer.symm.trans hb
    · exact .inl hp
  case close h =>
    have ⟨p, _, hc⟩ := portclose_eq h
    rcases hc with ⟨_, he⟩ | ⟨_, _, _, _, he⟩
    · exact he ▸ hσ
    · subst he
      exact hσ.of_modify hk rfl fun _ _ hg => ⟨hg.lmode, hg.mode, hg.rscript, hg.peer, hg.driver⟩
  all_goals
    exact hσ.of_modify hk rfl fun _ _ hg => ⟨hg.lmode, hg.mode, hg.rscript, hg.peer, hg.driver⟩

theorem of_start {cfg : Config} (h : start env cfg = some σ) : σ.Guarded := by
  have ⟨n, hσ, hi, _⟩ := start_represents h
  have hs := start_plain h
  have hr := hσ.rooted hi
  refine ⟨hr.left, hr.right, fun a p hp => ?_⟩
  have hpl := hs.port a p hp
  refine ⟨hpl.lmode, ?_, fun b hb => ?_, fun b hb => ?_, fun hl => ?_⟩
  case refine_1 => exact hpl.mode.imp_right fun he => .inr <| Option.some.inj he
  case refine_2 =>
    cases hpl.rscript b hb
    refine ⟨⟨hr.left, fun q hq => ⟨?_, fun _ => ?_⟩⟩, fun _ _ => .inr rfl⟩
    · simp [hr.right q hq]
    · exact hasDriver_of_start h hp hb hq
  case refine_3 => cases hpl.peer.symm.trans hb
  case refine_4 => simpa [hl.left, hl.right] using hpl.kind

end State.Guarded

theorem guarded_of_run {cfg : Config} {σ₀ : State} {steps : List (State × Event)}
    (h : start env cfg = some σ₀) (hr : Run env σ₀ steps σ) : σ.Guarded :=
  hr.invariant h (.of_start h) .of_effect

-- The only writes that get to the local side are those to peers, and those that start to negotiate
-- telnet.
theorem Route.remote_of_guarded (h : Route K σ b) (hσ : σ.Guarded) (hq : σ.port b = some q)
    (hp : ¬K .peer) (hc : ∀ c, ¬K (.client c)) (hs : ¬K .startup) : q.IsOpened ∨ b = σ.rPorts := by
  cases h
  case peer hk _ _            => contradiction
  case client hk _ _          => exact absurd hk (hc b)
  case startup hk _           => contradiction
  case remote hr              => exact hr q hq
  case rscript hsp hb         => exact ((hσ.port _ _ hsp).rscript b hb).right q hq
  case lscript hq' hm         =>
    cases hq.symm.trans hq'
    refine (hσ.port b q hq).mode.resolve_left fun h₀ => hm ?_
    rw [h₀, Nat.zero_and]

-- What an effect outputs, which is sent to a port that exists.
theorem trace_of_effect (h : Primitive env K σ σ') :
    σ'.trace = σ.trace ∨ ∃ io, σ'.trace = σ.trace ++ [io] ∧
      ∀ b, io.target = some b → (σ.port b).isSome ∧ Route K σ b := by
  have hsame {τ : State} {p : Int} : (σ.log <| .connect p).trace = σ.trace ++ [.connect p] := rfl
  cases h
  case still h   => exact .inl h.trace
  case select h  => exact .inl <| by rw [(fdSet_eq h).right]
  case connect p => exact .inr ⟨.connect p, rfl, fun _ => nofun⟩
  case write b bytes hb h =>
    exact .inr ⟨.write b bytes, rfl, fun _ he => Option.some.inj he ▸ ⟨hb, h⟩⟩
  case serialBreak b hb h =>
    exact .inr ⟨.serialBreak b, rfl, fun _ he => Option.some.inj he ▸ ⟨hb, h⟩⟩
  case close a _ _ _ h =>
    have ⟨p, _, hc⟩ := portclose_eq h
    rcases hc with ⟨_, he⟩ | ⟨_, _, _, _, he⟩
    · exact .inl <| he ▸ rfl
    · exact .inr ⟨.close a, he ▸ rfl, fun _ => nofun⟩
  all_goals exact .inl rfl

-- Some output to ports of the remote side, among those that exist.
def State.Outputs (σ : State) (ios : List Io) : Prop :=
  ∀ io ∈ ios, ∀ b, io.target = some b → σ.Remote b

theorem Effects.outputs (h : Effects env K σ σ') (hσ : σ.Guarded)
    (hlt : ∀ a p, σ.port a = some p → a < σ.fresh) (hp : ¬K .peer) (hc : ∀ c, ¬K (.client c))
    (hs : ¬K .startup) : ∃ ios, σ'.trace = σ.trace ++ ios ∧ σ.Outputs ios := by
  -- What is remote in the end has been so from the beginning.
  let P (τ : State) : Prop :=
    τ.Guarded ∧ Kept σ τ ∧ ∃ ios, τ.trace = σ.trace ++ ios ∧ σ.Outputs ios
  have hP : P σ := by
    refine ⟨hσ, .refl σ, [], by simp, fun _ h => ?_⟩
    contradiction
  refine (h.induct (P := P) hP fun {τ τ'} he ⟨hτ, hk, ios, ht, ho⟩ => ?_).right.right
  refine ⟨.of_effect he hτ, hk.trans <| .of_effect he, ?_⟩
  rcases trace_of_effect he with ht' | ⟨io, ht', hb⟩
  · exact ⟨ios, ht'.trans ht, ho⟩
  · refine ⟨ios ++ [io], by rw [ht', ht, List.append_assoc], fun i hi b hbt q hq => ?_⟩
    rcases List.mem_append.mp hi with hi | hi
    · exact ho i hi b hbt q hq
    · cases List.mem_singleton.mp hi
      have ⟨hl, hroute⟩ := hb b hbt
      have ⟨q', hq'⟩ := Option.isSome_iff_exists.mp hl
      have ⟨p, hp', hkp⟩ := hk.kind (hlt b q hq) hq'
      cases hq.symm.trans hp'
      refine (hroute.remote_of_guarded hτ hq' hp hc hs).imp (fun hopen => ?_) (·.trans hk.rPorts)
      exact ⟨hkp.cls.symm.trans hopen.left, hkp.type.symm.trans hopen.right⟩

theorem Net.Role.client_of_cls {n : Net} {x : Node} (h : n.Role a x)
    (hc : x.cls = some .scriptClient) : x.readMessage = some .scriptClientPort ∧ x.peer = none := by
  cases h <;> simp_all

-- Out-of-band data from a client has nowhere to go.
theorem Effects.outOfBand_of_client {n : Net} {failed : Bool} (hσ : Refines σ n) (hi : n.Inv)
    (hp : σ.port a = some p) (hc : p.cls = some .scriptClient)
    (h : Proxy.outOfBand env σ a = some (failed, σ')) : Effects env K σ σ' := by
  have ⟨⟨got, σ₁⟩, hr, h⟩ := Option.bind_eq_some_iff.mp h
  refine (portread (by decide) hr).trans ?_
  dsimp only at h
  split at h
  case isTrue =>
    have ⟨_, hk, h⟩ := Option.bind_eq_some_iff.mp h
    cases h
    exact killport hk
  case isFalse =>
    have ⟨p₁, hp₁, h⟩ := Option.bind_eq_some_iff.mp h
    have ⟨b, hb, _⟩ := Option.bind_eq_some_iff.mp h
    have ⟨q, hq, he, _⟩ := (quiet_of_portread hr).symm.exists_port hp₁
    cases hp.symm.trans hq
    have hpeer : p.peer = some b := (congrArg Node.peer he).trans hb
    have hn : p.peer = none := ((hi.role <| hσ.node_eq hp).client_of_cls hc).right
    cases hpeer.symm.trans hn

-- Whatever a script client sends, it gets to the remote side only: nothing is ever written to a
-- connection that the local port has accepted, to the local port or to another client.
theorem outputs_of_scriptClient {cfg : Config} {σ₀ : State} {steps : List (State × Event)}
    {ev : Event} (h : start env cfg = some σ₀) (hr : Run env σ₀ steps σ)
    (hp : σ.port (ev.addr σ) = some p) (hc : p.cls = some .scriptClient)
    (hs : step env σ ev = some σ') : ∃ ios, σ'.trace = σ.trace ++ ios ∧ σ.Outputs ios := by
  have hσ := guarded_of_run h hr
  obtain ⟨n, hn, hi, _⟩ := consistent_run h hr
  have he : Effects env (fun c => c = .script ∨ c = .roster) σ σ' := by
    cases ev
    case poll => cases hc.symm.trans <| hσ.rPort p hp
    case oob a =>
      obtain ⟨_, _, hs⟩ := outOfBand_of_step hs
      exact Effects.outOfBand_of_client hn hi hp hc hs
    case ready a =>
      obtain ⟨q, handler, hq, hm, hs⟩ := handled_of_step hs
      cases hp.symm.trans hq
      have hrm : p.readMessage = some .scriptClientPort :=
        ((hi.role <| hn.node_eq hp).client_of_cls hc).left
      cases hm.symm.trans hrm
      have hh : σ.handler a = some .scriptClientPort := by
        rw [State.handler, hq, Option.bind_some, hrm]
      cases hs
      case scriptClientPort hs =>
        exact Effects.scriptClientPortReadMessage ⟨.inl rfl, .inr rfl⟩ hh hs
  exact he.outputs hσ (fun a p hp => hn.lt_fresh hi hp) (by decide) (by simp) (by decide)

-- What the client has sent gets to the receiver.
theorem outputs_of_chat : ∃ σ₀ steps σ σ' ios, steps.map Prod.snd = [Event.ready 1] ∧
    start chatEnv chatConfig = some σ₀ ∧ Run chatEnv σ₀ steps σ ∧
    step chatEnv σ (.ready 3) = some σ' ∧ σ'.trace = σ.trace ++ ios ∧ ios ≠ [] ∧
    σ.Outputs ios := by
  have ⟨σ₀, steps, σ, he, h, hr, hP⟩ := exists_run chatEnv chatConfig [.ready 1] (fun σ =>
    (σ.port 3).any (·.cls = some .scriptClient) ∧
      (step chatEnv σ (.ready 3)).any (·.trace ≠ σ.trace)) (by decide)
  have ⟨p, hp, hc⟩ := (Option.any_eq_true ..).mp hP.left
  have ⟨σ', hs, ht⟩ := (Option.any_eq_true ..).mp hP.right
  have hp : σ.port ((Event.ready 3).addr σ) = some p := hp
  have ⟨ios, he', ho⟩ := outputs_of_scriptClient h hr hp (of_decide_eq_true hc) hs
  refine ⟨σ₀, steps, σ, σ', ios, he, h, hr, hs, he', fun hn => of_decide_eq_true ht ?_, ho⟩
  rw [he', hn, List.append_nil]

end Proxy
