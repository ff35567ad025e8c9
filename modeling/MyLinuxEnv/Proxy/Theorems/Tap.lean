import MyLinuxEnv.Proxy.Theorems.Relay

namespace Proxy

-- A client of the script port, as long as it is on its list.
def State.Taps (σ : State) (c : Addr) : Prop :=
  ∃ s, σ.script = some s ∧ c ∈ σ.clients s

variable {env : Env} {K : Cause → Prop} {σ σ' : State} {n : Net} {a c : Addr} {q : Port}

theorem Refines.mem_clients_of_taps (h : Refines σ n) (hi : n.Inv) (hc : σ.Taps c) :
    c ∈ n.clients := by
  have ⟨s, hs, hc⟩ := hc
  have hs := h.script_eq ▸ hs
  have ⟨x, hx, _⟩ := hi.sPort s hs
  have ⟨sp, hsp, _⟩ := h.exists_port hx
  exact h.clients_eq hi hs hsp ▸ hc

section Frame

-- Clients are written to as such, or not at all.
theorem Route.not_scriptClient (h : Route K σ c) (hσ : σ.Guarded) (hK : ¬K (.client c))
    (hq : σ.port c = some q) : q.cls ≠ some .scriptClient := by
  intro hc
  have hremote : ¬(q.IsOpened ∨ c = σ.rPorts) := by
    rintro (ho | rfl)
    · cases hc.symm.trans ho.left
    · cases hc.symm.trans <| hσ.rPort q hq
  cases h
  case peer hp hb      => exact ((hσ.port _ _ hp).peer c hb).right q hq |>.left hc
  case remote hr       => exact hremote <| hr q hq
  case client hk _ _   => contradiction
  case rscript hsp hb  => exact hremote <| ((hσ.port _ _ hsp).rscript c hb).right q hq
  case startup hl      => cases hc.symm.trans (hl q hq).left
  case lscript hq' hm  =>
    cases hq.symm.trans hq'
    refine hremote <| (hσ.port c q hq).mode.resolve_left fun h₀ => hm ?_
    rw [h₀, Nat.zero_and]

theorem sentTo_of_scriptClient (he : Effects env K σ σ') (hσ : σ.Guarded) (hK : ¬K (.client c))
    (hlt : c < σ.fresh) (hc : ∀ q, σ.port c = some q → q.cls = some .scriptClient) :
    σ'.sentTo c = σ.sentTo c := by
  let P (τ : State) : Prop := Effects env K σ τ ∧ τ.sentTo c = σ.sentTo c
  refine he.induct (P := P) ⟨.refl σ, rfl⟩ ?_ |>.right
  intro τ τ' he ⟨hτ, hs⟩
  refine ⟨hτ.trans <| .of he, ?_⟩
  refine (sentTo_of_effect he fun q hq hr => ?_).trans hs
  have ⟨p, hp, hk⟩ := (Kept.of_effects hτ).kind hlt hq
  exact hr.not_scriptClient (hτ.induct hσ .of_effect) hK hq <| hk.cls.trans <| hc p hp

theorem written_of_sentTo_eq (h : σ'.sentTo c = σ.sentTo c) : σ'.written c = σ.written c := by
  have hw (σ : State) : σ.written c = State.written { trace := σ.sentTo c } c := by
    rw [State.written, State.written, State.sentTo, List.filterMap_filter]
    congr
    funext io
    cases io <;> simp [Io.target]
  rw [hw σ', h, ← hw σ]

end Frame

section Broadcast

-- What is offered to all clients gets to each of them once.
theorem written_of_writes {bufs : List (List Byte)} (hd : n.clients.Nodup) (hc : c ∈ n.clients)
    (h : σ'.writes = σ.writes ++ bufs.flatMap fun buf => n.clients.map (·, buf)) :
    σ'.written c = σ.written c ++ bufs := by
  rw [written_eq_filterMap, written_eq_filterMap, h, List.filterMap_append]
  refine congrArg (_ ++ ·) ?_
  clear h
  induction bufs
  case nil              => rfl
  case cons buf bufs ih =>
    rw [List.flatMap_cons, List.filterMap_append, filterMap_of_mem hd hc, ih, List.singleton_append]

-- What the ports on the remote side read goes to all clients, or to none.
theorem exists_written_of_reads (hσ : Refines σ n) (hi : n.Inv) (hg : σ.Guarded)
    (hm : σ.handler a ≠ some .scriptClientPort) (h : Reads env σ a σ') :
    ∃ bufs, ∀ c ∈ n.clients, σ'.written c = σ.written c ++ bufs := by
  have hquiet {τ : State} (he : Effects env (· = .peer) σ τ) :
      ∀ c ∈ n.clients, τ.written c = σ.written c ++ [] := by
    intro c hc
    have ⟨hlt, hcls⟩ := hi.clients c hc
    rw [List.append_nil]
    refine written_of_sentTo_eq <| sentTo_of_scriptClient he hg nofun (hσ.fresh ▸ hlt) ?_
    exact fun q hq => hcls _ <| hσ.node_eq hq
  cases h
  case nothing hr _ h =>
    refine ⟨[], hquiet <| (Effects.portread (Nat.le_refl _) hr).trans ?_⟩
    exact h.elim (fun he => he ▸ .refl _) .killport
  case options hr _ hn =>
    exact ⟨[], hquiet <| (Effects.portread (Nat.le_refl _) hr).trans <|
      .negotiate_of_handler rfl hm hr hn⟩
  case data hr _ hn _ hw hc =>
    have h₃ := (Effects.portread (Nat.le_refl _) hr).trans <|
      (Effects.negotiate_of_handler (K := (· = .peer)) rfl hm hr hn).trans <| .writePeer rfl hw
    have hσ₃ := Effects.refines_of_writePeer hr hn hw hσ
    have ⟨_, bufs, hws⟩ :=
      Effects.concludes (K := fun _ => True) hc (fun _ => trivial) trivial hσ₃ hi
    refine ⟨bufs, fun c hc => ?_⟩
    rw [written_of_writes hi.clients_nodup hc hws, hquiet h₃ c hc, List.append_nil]

theorem exists_written_of_step {ev : Event} (hσ : σ.Consistent) (hg : σ.Guarded)
    (hs : step env σ ev = some σ') :
    ∃ bufs, ∀ c, σ.Taps c → σ'.written c = σ.written c ++ bufs := by
  have hr := Effects.reacts hσ hs
  have ⟨n, hn, hi, _⟩ := hσ
  -- What is not relayed does not get to any client.
  have hquiet {K : Cause → Prop} (hK : ∀ c < σ.fresh, ¬K (.client c)) (he : Effects env K σ σ') :
      ∃ bufs, ∀ c ∈ n.clients, σ'.written c = σ.written c ++ bufs := by
    refine ⟨[], fun c hc => ?_⟩
    have ⟨hlt, hcls⟩ := hi.clients c hc
    have hlt := hn.fresh ▸ hlt
    rw [List.append_nil]
    refine written_of_sentTo_eq <| sentTo_of_scriptClient he hg (hK c hlt) hlt ?_
    exact fun q hq => hcls _ <| hn.node_eq hq
  suffices h : ∃ bufs, ∀ c ∈ n.clients, σ'.written c = σ.written c ++ bufs from
    h.imp fun _ hw c hc => hw c <| hn.mem_clients_of_taps hi hc
  clear hs
  cases hr
  case aside h    => exact hquiet (fun _ hlt => Nat.not_le.mpr hlt) h
  case oob h      => exact hquiet (K := (· = .peer)) (fun _ _ => nofun) <| .outOfBand rfl h
  case poll hm h  => exact exists_written_of_reads hn hi hg hm h
  case relay hm h => exact exists_written_of_reads hn hi hg (by simp [hm]) h

-- All script clients see the same: whatever happens while they are connected, the same buffers are
-- written to each of them, in the same order.
theorem exists_written_of_run {cfg : Config} {σ₀ : State} {steps₀ steps : List (State × Event)}
    (h : start env cfg = some σ₀) (hr₀ : Run env σ₀ steps₀ σ) (hr : Run env σ steps σ') :
    ∃ bufs, ∀ c, (∀ τ ∈ states steps σ', τ.Taps c) → σ'.written c = σ.written c ++ bufs := by
  induction hr
  case refl => exact ⟨[], fun _ _ => (List.append_nil _).symm⟩
  case step steps τ ev τ' hr hs ih =>
    have ⟨bufs, ih⟩ := ih
    have hr := hr₀.trans hr
    have ⟨bufs', hw⟩ := exists_written_of_step (consistent_run h hr) (guarded_of_run h hr) hs
    refine ⟨bufs ++ bufs', fun c hc => ?_⟩
    have hc' : ∀ τ₁ ∈ states steps τ, τ₁.Taps c := fun τ₁ h₁ => hc τ₁ <| by
      rw [states, List.map_append]
      exact List.mem_append_left _ h₁
    rw [hw c <| hc' τ <| List.mem_append_right _ <| List.mem_singleton_self τ, ih c hc',
      List.append_assoc]

theorem exists_written_of_chat : ∃ σ₀ steps₀ σ steps σ', steps₀.map Prod.snd = [Event.ready 1] ∧
    start chatEnv chatConfig = some σ₀ ∧ Run chatEnv σ₀ steps₀ σ ∧ Run chatEnv σ steps σ' ∧
    steps.map Prod.snd = [Event.ready 2] ∧
    (∃ bufs, ∀ c, (∀ τ ∈ states steps σ', τ.Taps c) → σ'.written c = σ.written c ++ bufs) := by
  have ⟨σ₀, steps₀, σ, he, h, hr₀, hP⟩ := exists_run chatEnv chatConfig [.ready 1] (fun σ =>
    (step chatEnv σ (.ready 2)).isSome) (by decide)
  have ⟨σ', hs⟩ := Option.isSome_iff_exists.mp hP
  have hr : Run chatEnv σ [(σ, .ready 2)] σ' := .step .refl hs
  exact ⟨σ₀, steps₀, σ, _, σ', he, h, hr₀, hr, rfl, exists_written_of_run h hr₀ hr⟩

end Broadcast

end Proxy
