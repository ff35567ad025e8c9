import MyLinuxEnv.Proxy.Theorems.Reachable

namespace Proxy

variable {env : Env} {σ σ' : State} {n : Net} {a b : Addr} {ev : Event}

section Net

theorem Refines.net_node (h : Refines σ n) : σ.net.node = n.node :=
  funext h.node

theorem Refines.net_loose (h : Refines σ n) (hb : n.Loose b) : σ.net.Loose b :=
  hb.congr h.net_node h.lPorts h.rPorts

-- A port which is live has not been destroyed.
theorem Refines.designates (h : Refines σ n) (hi : n.Inv) (hb : n.Live b) : σ.Designates b := by
  have hp := h.ports_eq hi
  constructor
  · have ⟨x, hx⟩ := Net.live_iff.mp hb
    have ⟨p, hp, _⟩ := h.exists_port hx
    exact Option.isSome_iff_exists.mpr ⟨p, hp⟩
  · rw [h.lPorts, h.rPorts, h.script_eq, hp]
    rcases hi.permanent_or_mem hb with (hb | hb | hb) | hb
    · exact .inl hb
    · exact .inr <| .inl hb
    · exact .inr <| .inr <| .inl hb
    · exact .inr <| .inr <| .inr hb

-- The peers which are not loose are kept valid by `killport`.
theorem Net.Valid.live_peer {x : Node} (hv : n.Valid) (hi : n.Inv) (hx : n.node a = some x)
    (hb : x.peer = some b) : n.Live b := by
  by_cases hk : x.isKept
  case pos =>
    have ⟨y, hy, _⟩ := hi.peer hx hk hb
    exact Net.live_iff.mpr ⟨y, hy⟩
  case neg =>
    refine (hv.loose ?_).live
    simp only [Node.isKept, Bool.not_eq_true, Bool.or_eq_false_iff, Bool.not_eq_false',
      Bool.and_eq_false_iff, decide_eq_false_iff_not] at hk
    have hroot := hi.isRoot hx hk.left
    have hr := hi.role hx
    cases hr
    case localPort ha _ _ _ _ _    => exact .lPeer (ha ▸ hx) hb
    case remotePort ha hc _ _ _ _  => exact .rPeer (ha ▸ hx) (by simpa [hc] using hk.right) hb
    case scriptPort hp             => cases hp.symm.trans hb
    all_goals simp_all [Node.isPermanent]

theorem Represents.linksValid (h : Represents σ Net.Valid) : σ.LinksValid := by
  have ⟨n, h, hi, hv⟩ := h
  constructor
  · intro a _ p hp b hb
    exact h.designates hi <| hv.live_peer hi (h.node_eq hp) hb
  · intro s sp hs hp b hb
    exact h.designates hi (hv.loose <| .lscript (h.script_eq ▸ hs) (h.node_eq hp) hb).live
  · intro s sp hs hp b hb
    exact h.designates hi (hv.loose <| .rscript (h.script_eq ▸ hs) (h.node_eq hp) hb).live
  · intro s hs c hc
    have hs := h.script_eq ▸ hs
    have ⟨x, hx, _⟩ := hi.sPort s hs
    have ⟨sp, hsp, _⟩ := h.exists_port hx
    exact h.designates hi <| hv.clients <| h.clients_eq hi hs hsp ▸ hc

-- A loose link to a port which is gone is one that a reader of the state can find.
theorem Refines.not_linksValid_of_loose (h : Refines σ n) (hi : n.Inv) (hb : n.Loose b)
    (hl : ¬n.Live b) : ¬σ.LinksValid := by
  intro hv
  have hnot : ¬σ.Designates b := by
    rintro ⟨hs, _⟩
    have ⟨p, hp⟩ := Option.isSome_iff_exists.mp hs
    exact hl <| Net.live_iff.mpr ⟨_, h.node_eq hp⟩
  have hports := h.ports_eq hi
  cases hb
  case lPeer x hx hb =>
    have ⟨p, hp, he⟩ := h.exists_port hx
    subst he
    refine hnot <| hv.peer n.lPorts (hports ▸ ?_) p hp b hb
    have ⟨y, hy, hc⟩ := hi.lPort
    cases hx.symm.trans hy
    have hr := hi.role hx
    cases hr
    case localPort hm => exact hm
    all_goals simp_all
  case rPeer x hx _ hb =>
    have ⟨p, hp, he⟩ := h.exists_port hx
    subst he
    refine hnot <| hv.peer n.rPorts (hports ▸ ?_) p hp b hb
    have hc := hi.cls_rPorts hx
    have hr := hi.role hx
    cases hr
    case remotePort hm hatt => exact hm <| hatt <| hb ▸ Option.some_ne_none b
    all_goals simp_all
  case lscript s x hs hx hb =>
    have ⟨p, hp, he⟩ := h.exists_port hx
    subst he
    exact hnot <| hv.lscript s p (h.script_eq.trans hs) hp b hb
  case rscript s x hs hx hb =>
    have ⟨p, hp, he⟩ := h.exists_port hx
    subst he
    exact hnot <| hv.rscript s p (h.script_eq.trans hs) hp b hb

theorem Refines.not_linksValid_of_client {s : Addr} (h : Refines σ n) (hi : n.Inv)
    (hs : n.script = some s) (ha : a ∈ n.clients) (hl : ¬n.Live a) : ¬σ.LinksValid := by
  intro hv
  have ⟨x, hx, _⟩ := hi.sPort s hs
  have ⟨sp, hsp, _⟩ := h.exists_port hx
  have hd := hv.clients s (h.script_eq.trans hs) a <| h.clients_eq hi hs hsp ▸ ha
  have ⟨p, hp⟩ := Option.isSome_iff_exists.mp hd.left
  exact hl <| Net.live_iff.mpr ⟨_, h.node_eq hp⟩

end Net

section Step

theorem Represents.valid_of_opening (h : Represents σ' n.Opening) (hv : n.Valid) :
    Represents σ' Net.Valid :=
  h.mono hv.of_opening

theorem Represents.valid_of_closing (h : Refines σ n) (hv : n.Valid)
    (hc : Represents σ' (n.Closing (Destroyed env n σ ev))) (hs : ¬Severs env σ ev) :
    Represents σ' Net.Valid := by
  refine hc.mono fun hc => hv.of_closing hc fun hl hd => ?_
  have ⟨a, hk, hd⟩ := hd
  exact hs <| .link hk (hd.congr h.net_node) (h.net_loose hl)

-- What a single step preserves.
theorem valid_step (h : Represents σ Net.Valid) (hstep : step env σ ev = some σ')
    (hs : ¬Severs env σ ev) : Represents σ' Net.Valid := by
  have ⟨n, h, hi, hv⟩ := h
  rcases step_cases h hi hstep with ho | hc | hf
  · exact ho.valid_of_opening hv
  · exact .valid_of_closing h hv hc hs
  · exact .valid_of_closing h hv (hf.destroyed h hi hs) hs

-- Nothing happens in a step after a port has been killed.
theorem Kills.killport (hk : Kills env σ ev a) (hstep : step env σ ev = some σ') :
    ∃ τ, Quiet σ τ ∧ killport τ a = some σ' := by
  have hready {c : Addr} {handler : Handler} (hm : σ.handler c = some handler)
      (hstep : step env σ (.ready c) = some σ') :
      Handled env σ c σ' handler := by
    have ⟨p, _, hp, hh, hstep⟩ := handled_of_step hstep
    rw [State.handler, hp, Option.bind_some, hh, Option.some_inj] at hm
    exact hm ▸ hstep
  have hreturn {α : Type} {x : Option State} {c d : α}
      (h : (x.bind fun τ => pure (c, τ)) = some (d, σ')) : x = some σ' := by
    cases x
    case none => contradiction
    case some => cases h; rfl
  rcases hk with ⟨hm, hr, hg⟩ | ⟨⟨hm, hr, hg, hf, hk⟩, hw⟩ |
    ⟨⟨hm, hr, hg, hp, hs, hf, hk, hsp, hu⟩, hb, ⟨hq, hmode, hpa, hw, hle⟩⟩ |
    ⟨⟨hm, hr, hg, hp, hs, hf, hk, hsp, hu⟩, hws, hb, ⟨hq, hmode, hpa, hw, hle⟩⟩ |
    ⟨hr, hg⟩ | ⟨hr, hg, hp, hb, hw, hk⟩
  case read =>
    cases hready hm hstep
    case remotePort hstep =>
      simp only [remotePortReadMessage, hr, hg, Option.bind_eq_bind, Option.bind_some,
        if_true] at hstep
      exact ⟨_, quiet_of_portread hr, hreturn hstep⟩
  case write =>
    cases hready hm hstep
    case remotePort hstep =>
      simp only [remotePortReadMessage, hr, Int.not_le.mpr hg, hf, hk, hw, Option.bind_eq_bind,
        Option.bind_some, if_false, Bool.not_false, if_true] at hstep
      refine ⟨_, ?_, hreturn hstep⟩
      exact (quiet_of_portread hr).trans <| (quiet_of_negotiate hf).trans <| quiet_of_writePeer hw
  case oobRead =>
    obtain ⟨_, _, hstep⟩ := outOfBand_of_step hstep
    simp only [outOfBand, hr, hg, Option.bind_eq_bind, Option.bind_some, if_true] at hstep
    exact ⟨_, quiet_of_portread hr, hreturn hstep⟩
  case oobWrite =>
    obtain ⟨_, _, hstep⟩ := outOfBand_of_step hstep
    simp only [outOfBand, hr, Int.not_le.mpr hg, hp, hb, hw, hk, Option.bind_eq_bind,
      Option.bind_some, if_false, if_true] at hstep
    exact ⟨_, (quiet_of_portread hr).trans <| quiet_of_portwrite hw, hreturn hstep⟩
  case rscript =>
    cases hready hm hstep
    case scriptClientPort hstep =>
      simp only [scriptClientPortReadMessage, writeScript, hr, hp, hs, hf, hk, hsp, hu, hb, hq,
        hmode, hpa, hw, hle, Int.not_le.mpr hg, Option.bind_eq_bind, Option.bind_some, if_false,
        if_true, Bool.not_true, Bool.false_eq_true] at hstep
      obtain ⟨_, hbind, hstep⟩ := Option.bind_eq_some_iff.mp hstep
      obtain ⟨_, hkill, he⟩ := Option.bind_eq_some_iff.mp hbind
      cases he
      cases hstep
      refine ⟨_, ?_, hkill⟩
      exact (quiet_of_portread hr).trans <| (quiet_of_negotiate hf).trans <| quiet_of_portwrite hw
  case lscript =>
    rcases writeScript_cases hws with ⟨_, _, hq₁⟩ | ⟨_, _, he, _⟩
    case inr => contradiction
    obtain ⟨sp', hsp', hn, _⟩ := hq₁.exists_port hsp
    have hb := (congrArg Node.lscript hn).trans hb
    change sp'.lscript = some _ at hb
    cases hready hm hstep
    case scriptClientPort hstep =>
      simp only [scriptClientPortReadMessage, hr, hp, hs, hf, hk, hsp, hu, hws, hsp', hb,
        Int.not_le.mpr hg, Option.bind_eq_bind, Option.bind_some, if_false, Bool.not_true,
        Bool.false_eq_true] at hstep
      simp only [writeScript, hq, hmode, hpa, hw, hle, Option.bind_eq_bind, Option.bind_some,
        if_false, if_true] at hstep
      obtain ⟨_, hbind, hstep⟩ := Option.bind_eq_some_iff.mp hstep
      cases hstep
      refine ⟨_, ?_, hreturn hbind⟩
      exact (quiet_of_portread hr).trans <| (quiet_of_negotiate hf).trans <|
        hq₁.trans <| quiet_of_portwrite hw

theorem not_linksValid_of_severs (h : Represents σ Net.Valid) (hstep : step env σ ev = some σ')
    (hs : Severs env σ ev) : ¬σ'.LinksValid := by
  have ⟨n, h, hi, hv⟩ := h
  cases hs
  case link a b hk hd hl =>
    have ⟨τ, hq, hkill⟩ := hk.killport hstep
    have hd : n.Doomed a b := hd.congr h.net_node.symm
    have hl : n.Loose b    := hl.congr h.net_node.symm h.lPorts.symm h.rPorts.symm
    have ⟨n', hk', h'⟩ := killport_refines (hq.refines h) hi hkill
    have ⟨hgone, _, hloose⟩ := hk'.loose_of_doomed hi hd
    exact h'.not_linksValid_of_loose (hi.of_killed hk') (hloose hl) hgone
  case client a s hk hsc hm =>
    have ⟨τ, hq, hkill⟩ := hk.killport hstep
    have ⟨n', hk', h'⟩ := killport_refines (hq.refines h) hi hkill
    have hsn := h.script_eq.symm.trans hsc
    have hm : a ∈ n.clients := by
      have ⟨x, hx, _⟩ := hi.sPort s hsn
      have ⟨sp, hsp, _⟩ := h.exists_port hx
      exact h.clients_eq hi hsn hsp ▸ hm
    have hd : n.Doomed a a := by
      have ⟨x, hx⟩ := Net.live_iff.mp <| hv.clients hm
      have hc := (hi.clients a hm).right x hx
      exact .self ⟨x, hx, by simp [Node.isPermanent, hc]⟩
    have ⟨hgone, hcl, _⟩ := hk'.loose_of_doomed hi hd
    apply h'.not_linksValid_of_client (hi.of_killed hk') ((hk'.script_eq hi).trans hsn) ?_ hgone
    exact hcl ▸ hm

end Step

section Run

variable {cfg : Config} {σ₀ : State} {steps : List (State × Event)}

theorem valid_run (h : start env cfg = some σ₀) (hr : Run env σ₀ steps σ)
    (hs : ∀ s ∈ steps, ¬Severs env s.1 s.2) : Represents σ Net.Valid := by
  induction hr
  case refl => exact start_represents h
  case step hstep ih =>
    apply valid_step (ih fun s hm => hs s <| List.mem_append_left _ hm) hstep
    exact hs (_, _) <| List.mem_append_right _ <| List.mem_singleton_self _

-- The links are valid in all states of a run, if and only if no step of it severs one.
theorem linksValid_run_iff (h : start env cfg = some σ₀) (hr : Run env σ₀ steps σ) :
    (∀ τ ∈ states steps σ, τ.LinksValid) ↔ ∀ s ∈ steps, ¬Severs env s.1 s.2 := by
  induction hr
  case refl =>
    have hv : σ₀.LinksValid := Represents.linksValid <| start_represents h
    simpa [states] using hv
  case step steps τ ev τ' hr hstep ih =>
    have hstates : states (steps ++ [(τ, ev)]) τ' = states steps τ ++ [τ'] := by simp [states]
    simp only [hstates, List.forall_mem_append, List.forall_mem_singleton, ih]
    refine and_congr_right fun hs => ?_
    have hv := valid_run h hr hs
    constructor
    case mp  => exact fun hl hsev => not_linksValid_of_severs hv hstep hsev hl
    case mpr => exact fun hsev => valid_step hv hstep hsev |>.linksValid

-- Connections which end as soon as they are there.
def exampleEnv : Env where
  read _ _        := .ok []
  write _ _ bytes := bytes.length
  accept time     := time + 5
  socket time     := time + 5
  connect _       := 0
  openFifo time   := time + 5

def serialConfig : Config where
  lPort      := .tcp
  scriptPort := none
  remote     := some .rs232

theorem linksValid_run_iff_of_accept :
    ∃ σ₀ steps σ, steps.map Prod.snd = [Event.ready 0] ∧
      start exampleEnv serialConfig = some σ₀ ∧ Run exampleEnv σ₀ steps σ ∧
      ((∀ τ ∈ states steps σ, τ.LinksValid) ↔ ∀ s ∈ steps, ¬Severs exampleEnv s.1 s.2) := by
  have h : ((start exampleEnv serialConfig).bind (step exampleEnv · (.ready 0))).isSome := by decide
  have ⟨σ, h⟩ := Option.isSome_iff_exists.mp h
  have ⟨σ₀, h₀, h⟩ := Option.bind_eq_some_iff.mp h
  have hr : Run exampleEnv σ₀ [(σ₀, .ready 0)] σ := .step .refl h
  exact ⟨σ₀, _, σ, rfl, h₀, hr, linksValid_run_iff h₀ hr⟩

-- The serial port keeps its link to a connection which has been destroyed.
theorem not_linksValid_of_close :
    ∃ σ₀ steps σ, steps.map Prod.snd = [Event.ready 0, Event.ready 2] ∧
      start exampleEnv serialConfig = some σ₀ ∧ Run exampleEnv σ₀ steps σ ∧ ¬σ.LinksValid := by
  have h : ((((start exampleEnv serialConfig).bind (step exampleEnv · (.ready 0))).bind
      (step exampleEnv · (.ready 2))).map
      fun σ => ((σ.port 1).bind (·.peer), σ.ports, σ.port 2 |>.isSome)) =
        some (some 2, [1, 0], false) := by decide
  have ⟨σ, h, hσ⟩ := Option.map_eq_some_iff.mp h
  have ⟨σ₁, h, h₂⟩ := Option.bind_eq_some_iff.mp h
  have ⟨σ₀, h₀, h₁⟩ := Option.bind_eq_some_iff.mp h
  simp only [Prod.mk.injEq] at hσ
  have ⟨hpeer, hports, hgone⟩ := hσ
  refine ⟨σ₀, _, σ, rfl, h₀, .step (.step .refl h₁) h₂, fun hv => ?_⟩
  have ⟨p, hp, hb⟩ := Option.bind_eq_some_iff.mp hpeer
  have ⟨hs, _⟩ := hv.peer 1 (by simp [hports]) p hp 2 hb
  simp [hgone] at hs

end Run

end Proxy
