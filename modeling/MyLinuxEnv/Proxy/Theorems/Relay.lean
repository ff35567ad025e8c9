import MyLinuxEnv.Proxy.Theorems.Isolation

namespace Proxy

-- The socket of a port has not been closed.
def State.isOpen (σ : State) (b : Addr) : Bool :=
  (σ.port b).any (0 ≤ ·.sock)

-- The number of bytes that an event asks for.
def Event.size : Event → Nat
  | .oob _ => 1
  | _      => IO_BUFSIZE

-- Whether the port that reacts to an event relays what it reads to its peer `b`.
def State.relays (σ : State) (b : Addr) (ev : Event) : Prop :=
  (σ.port <| ev.addr σ).bind (·.peer) = some b ∧
    match ev with
    | .ready a => σ.handler a = some .remotePort ∧ σ.isOpen b
    | .oob _   => True
    | .poll    => σ.isOpen b

instance (σ : State) (b : Addr) : (ev : Event) → Decidable (σ.relays b ev)
  | .ready _ => inferInstanceAs (Decidable (_ ∧ _))
  | .oob _   => inferInstanceAs (Decidable (_ ∧ True))
  | .poll    => inferInstanceAs (Decidable (_ ∧ _))

-- What a step relays to `b`: all that has been read, at once.
def relayed (env : Env) (b : Addr) : State × Event → List Io
  | (σ, ev) =>
    match env.read σ.time (ev.addr σ) with
    | .error _ => []
    | .ok data =>
      if data.take ev.size ≠ [] ∧ σ.relays b ev then [.write b <| data.take ev.size] else []

-- A connection that has been accepted, in a state in which telnet is not negotiated.
structure Accepted (b : Addr) (σ : State) : Prop where
  guarded : σ.Guarded
  serial : ∀ a p, σ.port a = some p → p.type ≠ some .rs232
  telnet : σ.telnetNegotiation = false
  lt : b < σ.fresh
  isLocal : ∃ q, σ.port b = some q ∧ q.IsLocal

variable {env : Env} {K : Cause → Prop} {σ σ' : State} {a b : Addr} {p q : Port} {got : Int}

theorem Accepted.of_effects (h : Accepted b σ) (he : Effects env K σ σ')
    (hq : σ'.port b = some q) : Accepted b σ' := by
  have hk := Kept.of_effects he
  have ⟨p, hp, hkp⟩ := hk.kind h.lt hq
  have ⟨p', hp', hl⟩ := h.isLocal
  cases hp.symm.trans hp'
  exact ⟨he.induct h.guarded .of_effect, hk.serial h.serial, (hk.telnet h.serial).trans h.telnet,
    Nat.lt_of_lt_of_le h.lt hk.fresh, q, hq, hkp.cls.trans hl.left, hkp.type.trans hl.right⟩

section Frame

-- What is not sent to a peer does not get to an accepted connection.
theorem Route.not_isLocal (h : Route K σ b) (hσ : σ.Guarded) (ht : σ.telnetNegotiation = false)
    (hp : ¬K .peer) (hq : σ.port b = some q) : ¬q.IsLocal := by
  have hremote (hr : q.IsOpened ∨ b = σ.rPorts) : ¬q.IsLocal := by
    intro hl
    rcases hr with ho | hb
    · cases ho.right.symm.trans hl.right
    · subst hb
      cases (hσ.rPort q hq).symm.trans hl.left
  cases h
  case peer hk _ _     => contradiction
  case remote hr       => exact hremote <| hr q hq
  case rscript hsp hb  => exact hremote <| ((hσ.port _ _ hsp).rscript b hb).right q hq
  case startup ht' _   => cases ht.symm.trans ht'
  case client hq' hc   =>
    cases hq.symm.trans hq'
    exact fun hl => nomatch hc.symm.trans hl.left
  case lscript hq' hm =>
    cases hq.symm.trans hq'
    refine hremote <| (hσ.port b q hq).mode.resolve_left fun h₀ => hm ?_
    rw [h₀, Nat.zero_and]

theorem sentTo_append (ios : List Io) (h : σ'.trace = σ.trace ++ ios) :
    σ'.sentTo b = σ.sentTo b ++ ios.filter (·.target = some b) := by
  rw [State.sentTo, h, List.filter_append, State.sentTo]

theorem sentTo_of_trace_eq (h : σ'.trace = σ.trace) : σ'.sentTo b = σ.sentTo b := by
  rw [State.sentTo, h, State.sentTo]

-- Killing ports does not send anything.
theorem killFrame_sentTo (b : Addr) : KillFrame fun σ σ' => σ'.sentTo b = σ.sentTo b where
  trans h h'  := h'.trans h
  idle h      := sentTo_of_trace_eq h.trace
  modify _    := rfl
  free        := rfl
  close {_ a} := (sentTo_append [.close a] rfl).trans <| List.append_nil _

theorem sentTo_of_effect (h : Primitive env K σ σ')
    (hb : ∀ q, σ.port b = some q → ¬Route K σ b) : σ'.sentTo b = σ.sentTo b := by
  rcases trace_of_effect h with ht | ⟨io, ht, hio⟩
  · exact sentTo_of_trace_eq ht
  · rw [sentTo_append _ ht]
    by_cases he : io.target = some b
    case neg => simp [he]
    case pos =>
      have ⟨hlive, hroute⟩ := hio b he
      have ⟨q, hq⟩ := Option.isSome_iff_exists.mp hlive
      exact absurd hroute <| hb q hq

theorem Accepted.sentTo_eq (h : Accepted b σ) (he : Effects env K σ σ') (hp : ¬K .peer) :
    σ'.sentTo b = σ.sentTo b := by
  let P (τ : State) : Prop := Effects env K σ τ ∧ τ.sentTo b = σ.sentTo b
  refine he.induct (P := P) ⟨.refl σ, rfl⟩ ?_ |>.right
  intro τ τ' he ⟨hτ, hs⟩
  refine ⟨hτ.trans <| .of he, ?_⟩
  have hk := Kept.of_effects hτ
  have ⟨q, hq, hl⟩ := h.isLocal
  have hl : σ.Local b := fun p hp => Option.some.inj (hq.symm.trans hp) ▸ hl
  have ht := (hk.telnet h.serial).trans h.telnet
  refine (sentTo_of_effect he fun q hq hr => ?_).trans hs
  exact hr.not_isLocal (hτ.induct h.guarded .of_effect) ht hp hq <| hk.local h.lt hl q hq

-- The same holds for a connection that is there in the end, even if it is new.
theorem sentTo_eq_of_isLocal (he : Effects env K σ σ') (hp : ¬K .peer) (hσ : σ.Guarded)
    (hs : ∀ a p, σ.port a = some p → p.type ≠ some .rs232) (ht : σ.telnetNegotiation = false)
    (hlt : ∀ a p, σ.port a = some p → a < σ.fresh) (hq : σ'.port b = some q) (hl : q.IsLocal) :
    σ'.sentTo b = σ.sentTo b := by
  induction he using Relation.ReflTransGen.head_induction_on
  case refl => rfl
  case head τ τ₁ he hes ih =>
    have hk := Kept.of_effect he
    have hb : τ.Local b := fun p hp => by
      have ⟨p', hp', hkp⟩ := (hk.trans <| .of_effects hes).kind (hlt b p hp) hq
      cases hp.symm.trans hp'
      exact ⟨hkp.cls.symm.trans hl.left, hkp.type.symm.trans hl.right⟩
    have ih := ih (.of_effect he hσ) (hk.serial hs) ((hk.telnet hs).trans ht) (hk.lt_fresh hlt)
    exact ih.trans <| sentTo_of_effect he fun q hq hr => hr.not_isLocal hσ ht hp hq <| hb q hq

end Frame

section Read

-- A read yields an error, or it puts the data in front of the buffer.
theorem portread_cases {size : Nat} (h : portread env σ a size = some (got, σ')) :
    σ'.trace = σ.trace ∧ ((∃ n, env.read σ.time a = .error n ∧ got < 0 ∧ σ'.port = σ.port) ∨
      ∃ data, env.read σ.time a = .ok data ∧ got = (data.take size).length ∧
        ∃ p, σ.port a = some p ∧
          σ'.port a = some { p with buf := data.take size ++ p.buf.drop (data.take size).length } ∧
          ∀ c ≠ a, σ'.port c = σ.port c) := by
  have ⟨p, hp, h⟩ := Option.bind_eq_some_iff.mp h
  have ⟨_, _, h⟩ := Option.bind_eq_some_iff.mp h
  dsimp only at h
  simp only [Nat.add_sub_cancel] at h
  split at h
  case h_1 k hr    =>
    cases h
    exact ⟨rfl, .inl ⟨k, hr, by omega, rfl⟩⟩
  case h_2 data hr =>
    cases h
    refine ⟨rfl, .inr ⟨data, hr, rfl, p, hp, ?_, fun c hc => State.modify_port_of_ne hc⟩⟩
    simp [hp]

-- A read changes nothing but a buffer.
theorem port_of_portread {size : Nat} (h : portread env σ a size = some (got, σ')) (c : Addr) :
    ∃ buf : Port → List Byte, σ'.port c = (σ.port c).map fun p => { p with buf := buf p } := by
  have hid : (σ.port c).map (fun p => { p with buf := p.buf }) = σ.port c := by
    cases σ.port c <;> rfl
  rcases (portread_cases h).right with ⟨_, _, _, he⟩ | ⟨data, _, _, p, hp, hp', hne⟩
  · exact ⟨(·.buf), he ▸ hid.symm⟩
  · by_cases hc : c = a
    case neg => exact ⟨(·.buf), (hne c hc).trans hid.symm⟩
    case pos => exact ⟨fun _ => _, by rw [hc, hp', hp, Option.map_some]⟩

theorem peer_of_portread {size : Nat} (h : portread env σ a size = some (got, σ')) (c : Addr) :
    (σ'.port c).bind (·.peer) = (σ.port c).bind (·.peer) := by
  have ⟨_, he⟩ := port_of_portread h c
  rw [he, Option.bind_map]
  rfl

theorem isOpen_of_portread {size : Nat} (h : portread env σ a size = some (got, σ')) (c : Addr) :
    σ'.isOpen c = σ.isOpen c := by
  have ⟨_, he⟩ := port_of_portread h c
  rw [State.isOpen, he, Option.any_map]
  rfl

theorem Accepted.of_portread {size : Nat} (hb : Accepted b σ) (hs : size ≤ IO_BUFSIZE)
    (h : portread env σ a size = some (got, σ')) : Accepted b σ' ∧ σ'.sentTo b = σ.sentTo b := by
  have ⟨q, hq, _⟩ := hb.isLocal
  have ⟨_, hq', _⟩ := (quiet_of_portread h).exists_port hq
  have he : Effects env (fun _ => True) _ _ := .portread hs h
  exact ⟨hb.of_effects he hq', sentTo_of_trace_eq (portread_cases h).left⟩

end Read

section Write

variable {c : Addr} {mem : List Byte} {size : Int}

theorem sentTo_of_portwrite_ne (hc : c ≠ b)
    (h : portwrite env σ c mem size = some (got, σ')) : σ'.sentTo b = σ.sentTo b := by
  have ⟨_, _, h⟩ := Option.bind_eq_some_iff.mp h
  have ⟨_, _, h⟩ := Option.bind_eq_some_iff.mp h
  split at h
  case isTrue  => cases h; rfl
  case isFalse =>
    cases h
    refine (sentTo_append [.write c <| mem.take size.toNat] rfl).trans ?_
    simp [Io.target, hc]

theorem Accepted.sentTo_of_portwrite (hb : Accepted b σ)
    (h : portwrite env σ b mem size = some (got, σ')) :
    σ'.sentTo b = σ.sentTo b ++ [.write b <| mem.take size.toNat] := by
  have ⟨q, hq, hl⟩ := hb.isLocal
  rw [portwrite_of_tcp hq <| (hb.guarded.port b q hq).driver hl] at h
  cases h
  exact (sentTo_append _ rfl).trans <| by simp [Io.target]

-- What has been read is written to the peer, if that is open.
theorem Accepted.sentTo_of_writePeer {k : Nat} {ok : Bool} (hb : Accepted b σ)
    (hp : σ.port a = some p) (h : writePeer env σ a k = some (ok, σ')) :
    σ'.sentTo b = σ.sentTo b ++
      if p.peer = some b ∧ σ.isOpen b then [.write b <| p.buf.take k] else [] := by
  have ⟨p', hp', h⟩ := Option.bind_eq_some_iff.mp h
  cases hp.symm.trans hp'
  split at h
  case h_1 hn   => cases h; simp [hn]
  case h_2 c hc =>
    have ⟨q, hq, h⟩ := Option.bind_eq_some_iff.mp h
    have ho : σ.isOpen c = decide (0 ≤ q.sock) := by simp [State.isOpen, hq]
    split at h
    case isTrue hs =>
      cases h
      rw [if_neg, List.append_nil]
      intro ⟨he, hb⟩
      cases hc.symm.trans he
      exact absurd (of_decide_eq_true <| ho ▸ hb) (by omega)
    case isFalse hs =>
      have ⟨⟨got, σ₁⟩, hw, h⟩ := Option.bind_eq_some_iff.mp h
      cases h
      by_cases he : c = b
      case neg =>
        rw [sentTo_of_portwrite_ne he hw, if_neg, List.append_nil]
        exact fun hb => he <| Option.some.inj <| hc.symm.trans hb.left
      case pos =>
        subst he
        rw [hb.sentTo_of_portwrite hw, if_pos ⟨hc, by simp [ho]; omega⟩]
        rfl

end Write

section Step

-- What is relayed, in terms of the state after the read.
theorem relayed_eq {ev : Event} {σ₁ : State}
    (hr : portread env σ (ev.addr σ) ev.size = some (got, σ₁))
    (hp : σ₁.port (ev.addr σ) = some p) :
    relayed env b (σ, ev) =
      if 0 < got ∧ σ.relays b ev then [.write b <| p.buf.take got.toNat] else [] := by
  rcases (portread_cases hr).right with ⟨n, he, hg, _⟩ | ⟨data, he, hg, p₀, _, hp', _⟩
  case inl => simp [relayed, he, Int.not_lt.mpr (Int.le_of_lt hg)]
  case inr =>
    cases hp.symm.trans hp'
    subst hg
    simp only [relayed, he, Int.toNat_natCast, List.take_left, Int.natCast_pos,
      List.length_pos_iff]

theorem exists_port_of_portread {size : Nat} (h : portread env σ a size = some (got, σ')) :
    ∃ p, σ'.port a = some p := by
  have ⟨p, hp, _⟩ := Option.bind_eq_some_iff.mp h
  have ⟨p', hp', _⟩ := (quiet_of_portread h).exists_port hp
  exact ⟨p', hp'⟩

-- What the ports on the remote side and their peers have in common: what they read goes to their
-- peer, if that is open.
theorem Accepted.relays_of_writePeer {k : Nat} {ok : Bool} {ev : Event} {σ₁ σ₂ σ₃ : State}
    (hb : Accepted b σ) (he : ev.size = IO_BUFSIZE)
    (hrel : σ.relays b ev ↔ (σ.port <| ev.addr σ).bind (·.peer) = some b ∧ σ.isOpen b)
    (hr : portread env σ (ev.addr σ) IO_BUFSIZE = some (got, σ₁)) (hg : 0 < got)
    (hn : negotiate env σ₁.telnetNegotiation σ₁ (ev.addr σ) got.toNat = some (k, σ₂))
    (hw : writePeer env σ₂ (ev.addr σ) k = some (ok, σ₃)) :
    Accepted b σ₃ ∧ σ₃.sentTo b = σ.sentTo b ++ relayed env b (σ, ev) := by
  have ⟨hb₁, hs₁⟩ := hb.of_portread (Nat.le_refl _) hr
  rw [hb₁.telnet] at hn
  cases hn
  have ⟨p, hp⟩ := exists_port_of_portread hr
  have ⟨q, hq, _⟩ := hb₁.isLocal
  have ⟨q', hq', _⟩ := (quiet_of_writePeer hw).exists_port hq
  have hpeer : p.peer = (σ.port <| ev.addr σ).bind (·.peer) := by
    rw [← peer_of_portread hr, hp, Option.bind_some]
  refine ⟨hb₁.of_effects (K := fun _ => True) (.writePeer trivial hw) hq', ?_⟩
  rw [hb₁.sentTo_of_writePeer hp hw, hs₁, relayed_eq (he ▸ hr) hp, hpeer, isOpen_of_portread hr]
  simp only [hrel, hg, true_and]

theorem relayed_of_got_nonpos {ev : Event} {σ₁ : State}
    (hr : portread env σ (ev.addr σ) ev.size = some (got, σ₁)) (hg : got ≤ 0) :
    relayed env b (σ, ev) = [] := by
  have ⟨p, hp⟩ := exists_port_of_portread hr
  rw [relayed_eq hr hp, if_neg fun h => absurd h.left <| Int.not_lt.mpr hg]

theorem relayed_of_not_relays {ev : Event} (h : ¬σ.relays b ev) : relayed env b (σ, ev) = [] := by
  simp only [relayed, h, and_false, if_false]
  split <;> rfl

-- What a connection reads is relayed as a whole, whatever happens in the end.
theorem Accepted.sentTo_of_reads {n : Net} {ev : Event} (hb : Accepted b σ) (hσ : Refines σ n)
    (hi : n.Inv) (hs : ev.size = IO_BUFSIZE)
    (hrel : σ.relays b ev ↔ (σ.port <| ev.addr σ).bind (·.peer) = some b ∧ σ.isOpen b)
    (h : Reads env σ (ev.addr σ) σ') : σ'.sentTo b = σ.sentTo b ++ relayed env b (σ, ev) := by
  cases h
  case nothing hr hg h =>
    rw [relayed_of_got_nonpos (hs ▸ hr) hg, List.append_nil,
      ← (hb.of_portread (Nat.le_refl _) hr).right]
    rcases h with he | hk
    · rw [he]
    · exact (killFrame_sentTo b).killport hk
  case options hr hg hn =>
    rw [(hb.of_portread (Nat.le_refl _) hr).left.telnet] at hn
    have ⟨hg', _⟩ := Prod.mk.inj <| Option.some.inj hn
    omega
  case data hr hg hn _ hw hc =>
    have ⟨hb₃, hs₃⟩ := hb.relays_of_writePeer hs hrel hr hg hn hw
    have hσ₃ := Effects.refines_of_writePeer hr hn hw hσ
    have ⟨he, _⟩ := Effects.concludes (K := (· ≠ .peer)) hc (fun _ => nofun) nofun hσ₃ hi
    exact (hb₃.sentTo_eq he (· rfl)).trans hs₃

theorem Accepted.sentTo_of_oob {failed : Bool} (hb : Accepted b σ)
    (h : outOfBand env σ a = some (failed, σ')) :
    σ'.sentTo b = σ.sentTo b ++ relayed env b (σ, .oob a) := by
  have ⟨⟨got, σ₁⟩, hr, h⟩ := Option.bind_eq_some_iff.mp h
  have ⟨hb₁, hs₁⟩ := hb.of_portread (by decide) hr
  dsimp only at h
  split at h
  case isTrue hg =>
    have ⟨_, hk, h⟩ := Option.bind_eq_some_iff.mp h
    cases h
    rw [(killFrame_sentTo b).killport hk, hs₁,
      relayed_of_got_nonpos hr hg, List.append_nil]
  case isFalse hg =>
    have ⟨p, hp, h⟩ := Option.bind_eq_some_iff.mp h
    have ⟨c, hc, h⟩ := Option.bind_eq_some_iff.mp h
    have ⟨⟨k, σ₂⟩, hw, h⟩ := Option.bind_eq_some_iff.mp h
    have hrel : σ.relays b (.oob a) ↔ c = b := by
      have hpeer : (σ.port a).bind (·.peer) = some c := by
        rw [← peer_of_portread hr, hp, Option.bind_some, hc]
      simp [State.relays, Event.addr, hpeer]
    have hs₂ : σ₂.sentTo b = σ.sentTo b ++ relayed env b (σ, .oob a) := by
      rw [relayed_eq hr hp, ← hs₁]
      by_cases he : c = b
      case neg =>
        rw [if_neg fun h => he <| hrel.mp h.right, List.append_nil]
        exact sentTo_of_portwrite_ne he hw
      case pos =>
        rw [if_pos ⟨Int.not_le.mp hg, hrel.mpr he⟩]
        subst he
        exact hb₁.sentTo_of_portwrite hw
    dsimp only at h
    split at h
    case isFalse => cases h; exact hs₂
    case isTrue  =>
      have ⟨_, hk, h⟩ := Option.bind_eq_some_iff.mp h
      cases h
      exact ((killFrame_sentTo b).killport hk).trans hs₂

theorem Accepted.sentTo_step {ev : Event} (hb : Accepted b σ) (hσ : σ.Consistent)
    (h : step env σ ev = some σ') : σ'.sentTo b = σ.sentTo b ++ relayed env b (σ, ev) := by
  have hr := Effects.reacts hσ h
  have ⟨n, hn, hi, _⟩ := hσ
  clear h
  cases hr
  case oob h      => exact hb.sentTo_of_oob h
  case poll h     => exact hb.sentTo_of_reads hn hi rfl .rfl h
  case relay hm h => exact hb.sentTo_of_reads hn hi rfl (by simp [State.relays, hm]) h
  case aside hm h =>
    have hr : ¬σ.relays b (.ready _) := fun hr => hm hr.right.left
    rw [relayed_of_not_relays hr, List.append_nil]
    exact hb.sentTo_eq h id

end Step

section Run

variable {cfg : Config} {σ₀ : State} {steps : List (State × Event)}

-- Nothing is sent to a port before it exists.
structure State.Aimed (σ : State) : Prop where
  port : ∀ a p, σ.port a = some p → a < σ.fresh
  target : ∀ io ∈ σ.trace, ∀ b, io.target = some b → b < σ.fresh

theorem State.Aimed.of_effect (h : Primitive env K σ σ') (hσ : σ.Aimed) : σ'.Aimed := by
  have hk := Kept.of_effect h
  have hold : ∀ io ∈ σ.trace, ∀ b, io.target = some b → b < σ'.fresh :=
    fun io hio b hb => Nat.lt_of_lt_of_le (hσ.target io hio b hb) hk.fresh
  refine ⟨hk.lt_fresh hσ.port, ?_⟩
  rcases trace_of_effect h with ht | ⟨io, ht, hb⟩
  · exact ht ▸ hold
  · rw [ht]
    intro i hi b hbt
    rcases List.mem_append.mp hi with hi | hi
    · exact hold i hi b hbt
    · cases List.mem_singleton.mp hi
      have ⟨q, hq⟩ := Option.isSome_iff_exists.mp (hb b hbt).left
      exact Nat.lt_of_lt_of_le (hσ.port b q hq) hk.fresh

theorem aimed_of_run (h : start env cfg = some σ₀) (hr : Run env σ₀ steps σ) : σ.Aimed := by
  refine hr.invariant h ?_ .of_effect
  have ⟨n, hσ, hi, _⟩ := start_represents h
  refine ⟨fun _ _ => hσ.lt_fresh hi, fun io hio => ?_⟩
  rw [(start_plain h).trace] at hio
  contradiction

theorem State.Aimed.sentTo_of_le (h : σ.Aimed) (hb : σ.fresh ≤ b) : σ.sentTo b = [] := by
  refine List.filter_eq_nil_iff.mpr fun io hio ht => ?_
  exact absurd hb <| Nat.not_le.mpr <| h.target io hio b <| of_decide_eq_true ht

theorem relayed_of_le {ev : Event} (h : σ.Guarded) (hb : σ.fresh ≤ b) :
    relayed env b (σ, ev) = [] := by
  refine relayed_of_not_relays fun hr => ?_
  have ⟨p, hp, hpeer⟩ := Option.bind_eq_some_iff.mp hr.left
  exact absurd hb <| Nat.not_le.mpr ((h.port _ p hp).peer b hpeer).left

theorem flatMap_relayed_concat {s : State × Event} :
    (steps ++ [s]).flatMap (relayed env b) = steps.flatMap (relayed env b) ++ relayed env b s := by
  rw [List.flatMap_append, List.flatMap_singleton]

theorem relayed_of_fresh (h : start env cfg = some σ₀) (hr : Run env σ₀ steps σ)
    (hb : σ.fresh ≤ b) : steps.flatMap (relayed env b) = [] := by
  induction hr
  case refl          => rfl
  case step hr hs ih =>
    have hf := (Kept.of_effects <| Effects.step (consistent_run h hr) hs).fresh
    have hb := Nat.le_trans hf hb
    rw [flatMap_relayed_concat, ih hb, relayed_of_le (guarded_of_run h hr) hb, List.append_nil]

-- Without a serial port, telnet is never negotiated.
theorem no_serial_of_run (hc : cfg.remote ≠ some .rs232) (h : start env cfg = some σ₀)
    (hr : Run env σ₀ steps σ) :
    (∀ a p, σ.port a = some p → p.type ≠ some .rs232) ∧ σ.telnetNegotiation = false := by
  let P (τ : State) : Prop :=
    (∀ a p, τ.port a = some p → p.type ≠ some .rs232) ∧ τ.telnetNegotiation = false
  have hb := blank_of_start hc h
  refine hr.invariant (P := P) h ⟨hb.type, hb.telnet⟩ fun he ⟨hs, ht⟩ => ?_
  have hk := Kept.of_effect he
  exact ⟨hk.serial hs, (hk.telnet hs).trans ht⟩

-- Without a serial port, an accepted connection receives exactly what the connections whose peer it
-- is have read, in the order in which they have read it. In particular, it receives nothing else.
theorem sentTo_eq_relayed (hc : cfg.remote ≠ some .rs232) (h : start env cfg = some σ₀)
    (hr : Run env σ₀ steps σ) (hq : σ.port b = some q) (hl : q.IsLocal) :
    σ.sentTo b = steps.flatMap (relayed env b) := by
  induction hr generalizing q
  case refl => rw [State.sentTo, (start_plain h).trace]; rfl
  case step steps τ ev σ hr hs ih =>
    rw [flatMap_relayed_concat]
    have hτ := consistent_run h hr
    have hg := guarded_of_run h hr
    have ⟨hs₁, ht₁⟩ := no_serial_of_run hc h hr
    have hk := Kept.of_effects <| Effects.step hτ hs
    rcases hk.port hq with ⟨p, hp, hcls, htype⟩ | ⟨hlt, hlt', _⟩
    case inl =>
      have hlp : p.IsLocal := ⟨hcls.symm.trans hl.left, htype.symm.trans hl.right⟩
      have hb : Accepted b τ := ⟨hg, hs₁, ht₁, (aimed_of_run h hr).port b p hp, p, hp, hlp⟩
      rw [hb.sentTo_step hτ hs, ih hp hlp]
    case inr =>
      -- The connection is new, so that the step creates ports.
      rw [relayed_of_fresh h hr hlt, relayed_of_le hg hlt]
      rcases Effects.step_cases hτ hs with he | he
      case inl =>
        have ht := aimed_of_run h hr
        exact (sentTo_eq_of_isLocal he id hg hs₁ ht₁ ht.port hq hl).trans <| ht.sentTo_of_le hlt
      case inr =>
        have hf := he.induct (P := fun σ => σ.fresh = τ.fresh) rfl fun he hτ =>
          (fresh_of_effect he (· rfl)).trans hτ
        exact absurd hlt <| Nat.not_le.mpr <| hf ▸ hlt'

theorem sentTo_eq_relayed_of_chat : ∃ σ₀ steps σ,
    steps.map Prod.snd = [Event.ready 0, .ready 2] ∧ start chatEnv chatConfig = some σ₀ ∧
    Run chatEnv σ₀ steps σ ∧ σ.sentTo 3 = steps.flatMap (relayed chatEnv 3) ∧ σ.sentTo 3 ≠ [] := by
  have ⟨σ₀, steps, σ, he, h, hr, hP⟩ := exists_run chatEnv chatConfig [.ready 0, .ready 2] (fun σ =>
    (σ.port 3).any (fun q => q.cls = none ∧ q.type = some .tcp) ∧ σ.sentTo 3 ≠ []) (by decide)
  have ⟨q, hq, hl⟩ := (Option.any_eq_true ..).mp hP.left
  have hl : q.cls = none ∧ q.type = some .tcp := of_decide_eq_true hl
  have hs := sentTo_eq_relayed (by decide) h hr hq hl
  exact ⟨σ₀, steps, σ, he, h, hr, hs, hP.right⟩

end Run

end Proxy
