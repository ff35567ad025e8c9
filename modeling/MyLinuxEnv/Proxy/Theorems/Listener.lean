import MyLinuxEnv.Proxy.Theorems.Equipped
import MyLinuxEnv.Proxy.Theorems.Plain
import MyLinuxEnv.Proxy.Theorems.StepEffects

namespace Proxy

-- The remote ports whose handle is put aside while a connection takes its place.
inductive Listener
  | listen | fifoCon
  deriving DecidableEq, Repr

namespace Listener

def type : Listener → PortType
  | listen  => .listen
  | fifoCon => .fifoCon

-- How the port reacts while it waits for a connection.
def handler : Listener → Handler
  | listen  => .remotePortAccept
  | fifoCon => .remotePortFifoCon

-- The handle that has been put aside.
def saved (σ : State) : Listener → Int
  | listen  => σ.listenFd
  | fifoCon => σ.fifoConFd

end Listener

-- The remote port waits on a handle with some property.
structure State.Waits (σ : State) (k : Listener) (P : Int → Prop) (r : Port) : Prop where
  handler : r.readMessage = some k.handler
  handle : P r.sock
  nonneg : 0 ≤ r.sock
  saved : k.saved σ < 0

-- The remote port is a connection, and such a handle has been put aside.
structure State.Talks (σ : State) (k : Listener) (P : Int → Prop) (r : Port) : Prop where
  handler : r.readMessage = some .remotePort
  handle : P <| k.saved σ
  nonneg : 0 ≤ k.saved σ

-- A port that waits for connections of this kind, or might come to do so.
def Port.IsListener (p : Port) (k : Listener) : Prop :=
  p.isPermanent ∧ p.type = some k.type ∨ p.readMessage = some k.handler

-- The handle is never lost, and no port but the remote one waits for connections of any kind.
structure State.Listens (σ : State) (k : Listener) (P : Int → Prop) : Prop where
  lt : σ.rPorts < σ.fresh
  only : ∀ a p l, σ.port a = some p → p.IsListener l → a = σ.rPorts
  port : ∃ r, σ.port σ.rPorts = some r ∧ r.isPermanent ∧ r.type = some k.type ∧
    (σ.Waits k P r ∨ σ.Talks k P r)

-- The part of a port that matters here.
def Port.station (p : Port) : Option Cls × Option PortType × Option Handler × Int :=
  (p.cls, p.type, p.readMessage, p.sock)

variable {env : Env} {K : Cause → Prop} {σ σ' : State} {k : Listener} {P Q : Int → Prop} {a : Addr}
  {p r : Port}

theorem Port.IsListener.congr {p p' : Port} (h : p'.IsListener k) (hc : p'.cls = p.cls)
    (ht : p'.type = p.type) (hm : p'.readMessage = p.readMessage) : p.IsListener k := by
  rwa [Port.IsListener, Port.isPermanent, hc, ht, hm] at h

theorem Port.station_eq {p p' : Port} (h : p'.station = p.station) :
    p'.cls = p.cls ∧ p'.type = p.type ∧ p'.readMessage = p.readMessage ∧ p'.sock = p.sock := by
  simpa only [Port.station, Prod.mk.injEq] using h

theorem port_of_swap {old fd : Int} {handler : Handler} {b : Addr}
    (h : (σ.swap a old fd handler).port b = some p) :
    ∃ q, σ.port b = some q ∧
      (p = q ∧ b ≠ a ∨ b = a ∧ p = { q with sock := fd, readMessage := some handler }) := by
  by_cases hb : b = a
  case neg => exact ⟨p, (State.modify_port_of_ne hb).symm.trans h, .inl ⟨rfl, hb⟩⟩
  case pos =>
    subst hb
    have ⟨q, hq, he⟩ := Option.map_eq_some_iff.mp <| State.modify_port_self.symm.trans h
    exact ⟨q, hq, .inr ⟨rfl, he.symm⟩⟩

-- The handle on which the remote side waits after some steps, if it was `fd` before. A fifo may
-- have been opened again in the meantime.
def Listener.next (env : Env) (k : Listener) (fd : Int) (s : State × Event) : Int :=
  match k with
  | listen  => fd
  | fifoCon => (reopened env s.1 s.2).getD fd

def Listener.latest (env : Env) (k : Listener) (fd : Int) (steps : List (State × Event)) : Int :=
  steps.foldl (k.next env) fd

namespace State.Listens

-- Nothing has happened to the remote port, and no other port has become like it.
theorem of_port (h : σ.Listens k P) (hk : Kept σ σ') (hs : k.saved σ' = k.saved σ)
    (hr : (σ'.port σ.rPorts).map Port.station = (σ.port σ.rPorts).map Port.station)
    (ho : ∀ a ≠ σ.rPorts, ∀ p' l, σ'.port a = some p' → p'.IsListener l →
      ∃ p, σ.port a = some p ∧ p.IsListener l) : σ'.Listens k P := by
  refine ⟨hk.rPorts ▸ Nat.lt_of_lt_of_le h.lt hk.fresh, fun a p' l hp' hc => ?_, ?_⟩
  case refine_1 =>
    rw [hk.rPorts]
    by_contra hne
    have ⟨p, hp, hc⟩ := ho a hne p' l hp' hc
    exact hne <| h.only a p l hp hc
  case refine_2 =>
    have ⟨r, hr₀, hp, ht, hw⟩ := h.port
    rw [hr₀, Option.map_some] at hr
    have ⟨r', hr', he⟩ := Option.map_eq_some_iff.mp hr
    have ⟨hcls, htype, hm, hsock⟩ := Port.station_eq he
    refine ⟨r', hk.rPorts ▸ hr', ?_, htype.trans ht, ?_⟩
    case refine_1 => rwa [Port.isPermanent, hcls]
    case refine_2 =>
      refine hw.imp (fun hw => ?_) fun hw => ?_
      · exact ⟨hm.trans hw.handler, hsock ▸ hw.handle, hsock ▸ hw.nonneg, hs ▸ hw.saved⟩
      · exact ⟨hm.trans hw.handler, hs ▸ hw.handle, hs ▸ hw.nonneg⟩

theorem of_eq (h : σ.Listens k P) (hk : Kept σ σ') (hp : σ'.port = σ.port)
    (hl : σ'.listenFd = σ.listenFd) (hf : σ'.fifoConFd = σ.fifoConFd) : σ'.Listens k P := by
  refine h.of_port hk ?_ (by rw [hp]) fun a _ p' _ hp' hc => ⟨p', hp ▸ hp', hc⟩
  cases k
  · exact hl
  · exact hf

-- A port is changed in what does not matter.
theorem of_modify {f : Port → Port} (h : σ.Listens k P) (hk : Kept σ (σ.modify a f))
    (hf : ∀ p, σ.port a = some p → (f p).station = p.station) : (σ.modify a f).Listens k P := by
  refine h.of_port hk (by cases k <;> rfl) ?_ fun b _ p' l hp' hc => ?_
  · by_cases hb : σ.rPorts = a
    case neg => rw [State.modify_port_of_ne hb]
    case pos =>
      rw [hb, State.modify_port_self, Option.map_map]
      cases hp : σ.port a
      case none   => rfl
      case some p => exact congrArg some <| hf p hp
  · by_cases hb : b = a
    case neg => exact ⟨p', State.modify_port_of_ne hb ▸ hp', hc⟩
    case pos =>
      subst hb
      rw [State.modify_port_self] at hp'
      have ⟨p, hp, he⟩ := Option.map_eq_some_iff.mp hp'
      have ⟨hcls, htype, hm, _⟩ := Port.station_eq <| he ▸ hf p hp
      exact ⟨p, hp, hc.congr hcls htype hm⟩

-- The handle of the remote port itself is replaced.
theorem of_swap_self {τ : State} {old fd : Int} {handler : Handler} (h : σ.Listens k P)
    (hk : Kept σ (τ.swap σ.rPorts old fd handler)) (hτ : τ.port = σ.port)
    (hw : ∀ r : Port, r.readMessage = some handler → r.sock = fd →
      (τ.swap σ.rPorts old fd handler).Waits k Q r ∨
      (τ.swap σ.rPorts old fd handler).Talks k Q r) :
    (τ.swap σ.rPorts old fd handler).Listens k Q := by
  refine ⟨by rw [hk.rPorts]; exact Nat.lt_of_lt_of_le h.lt hk.fresh, fun a p' l hp' hc => ?_, ?_⟩
  case refine_1 =>
    rw [hk.rPorts]
    have ⟨q, hq, he⟩ := port_of_swap hp'
    rcases he with ⟨he, _⟩ | ⟨ha, _⟩
    · exact h.only a q l (hτ ▸ hq) (he ▸ hc)
    · exact ha
  case refine_2 =>
    have ⟨r, hr, hp, ht, _⟩ := h.port
    refine ⟨{ r with sock := fd, readMessage := some handler }, ?_, hp, ht, hw _ rfl rfl⟩
    rw [hk.rPorts, State.swap, State.modify_port_self]
    simp [hτ, hr]

theorem of_malloc (h : σ.Listens k P) (hk : Kept σ (σ.malloc p)) (hn : p.IsNew) :
    (σ.malloc p).Listens k P := by
  refine h.of_port hk (by cases k <;> rfl) ?_ fun b _ p' l hp' hc => ?_
  case refine_1 => rw [State.malloc_port_of_ne <| Nat.ne_of_lt h.lt]
  case refine_2 =>
    by_cases hf : b = σ.fresh
    case neg => exact ⟨p', State.malloc_port_of_ne hf ▸ hp', hc⟩
    case pos =>
      rw [hf, State.malloc_port_self] at hp'
      cases hp'
      exfalso
      rcases hc with ⟨hc, _⟩ | hm
      · rcases hn.kind with hc' | hc' | hc' <;>
          simp_all [Port.isPermanent, Port.IsLocal, Port.IsOpened]
      · rcases hn.handler with hm' | hm' <;> cases l <;> cases hm.symm.trans hm'

theorem of_free (h : σ.Listens k P) (hk : Kept σ (σ.free a)) (ha : a ≠ σ.rPorts) :
    (σ.free a).Listens k P := by
  refine h.of_port hk (by cases k <;> rfl) ?_ fun b _ p' l hp' hc => ?_
  · rw [State.free_port_of_ne ha.symm]
  · have hba : b ≠ a := by
      rintro rfl
      simp at hp'
    exact ⟨p', State.free_port_of_ne hba ▸ hp', hc⟩

theorem of_portclose (h : σ.Listens k P) (hk : Kept σ σ') (hcl : portclose σ a = some σ')
    (ha : a ≠ σ.rPorts) : σ'.Listens k P := by
  have ⟨q, hq, hcl⟩ := portclose_eq hcl
  rcases hcl with ⟨_, he⟩ | ⟨_, _, _, _, he⟩
  · exact he ▸ h
  · subst he
    refine h.of_port hk (by cases k <;> rfl) ?_ fun b _ p' l hp' hc => ?_
    · rw [State.modify_port_of_ne ha.symm]
      rfl
    · by_cases hb : b = a
      case neg => exact ⟨p', (State.modify_port_of_ne hb).symm.trans hp', hc⟩
      case pos =>
        subst hb
        have ⟨x, hx, he⟩ := Option.map_eq_some_iff.mp <| State.modify_port_self.symm.trans hp'
        exact ⟨x, hx, hc.congr (he ▸ rfl) (he ▸ rfl) (he ▸ rfl)⟩

-- A connection takes the place of the handle, which is put aside.
theorem of_take {τ : State} {old fd : Int} (h : σ.Listens k P)
    (hk : Kept σ (τ.swap a old fd .remotePort)) (hp : σ.port a = some p)
    (hm : p.readMessage = some k.handler) (hτ : τ.port = σ.port) (hs : k.saved τ = p.sock) :
    (τ.swap a old fd .remotePort).Listens k P := by
  have ha := h.only a p k hp (.inr hm)
  subst ha
  have ⟨r, hr, _, _, hw⟩ := h.port
  cases hp.symm.trans hr
  have hne : k.handler ≠ .remotePort := by cases k <;> exact nofun
  have hw := hw.resolve_right fun ht => hne <| Option.some.inj <| hm.symm.trans ht.handler
  refine h.of_swap_self hk hτ fun q hq _ => .inr ⟨hq, ?_, ?_⟩
  · have hs : k.saved (τ.swap σ.rPorts old fd .remotePort) = p.sock := by cases k <;> exact hs
    exact hs ▸ hw.handle
  · have hs : k.saved (τ.swap σ.rPorts old fd .remotePort) = p.sock := by cases k <;> exact hs
    exact hs ▸ hw.nonneg

-- The handle takes its place back.
theorem of_return {τ : State} {old : Int} (h : σ.Listens k P)
    (hk : Kept σ (τ.swap a old (k.saved σ) k.handler)) (hp : σ.port a = some p)
    (hc : p.isPermanent) (ht : p.type = some k.type) (hτ : τ.port = σ.port) (hl : 0 ≤ k.saved σ)
    (hs : k.saved τ < 0) : (τ.swap a old (k.saved σ) k.handler).Listens k P := by
  have ha := h.only a p k hp (.inl ⟨hc, ht⟩)
  subst ha
  have ⟨r, hr, _, _, hw⟩ := h.port
  have hw := hw.resolve_left fun hw => absurd hl <| Int.not_le.mpr hw.saved
  refine h.of_swap_self hk hτ fun q hq hfd => .inl ⟨hq, hfd ▸ hw.handle, hfd ▸ hl, ?_⟩
  cases k <;> exact hs

-- The fifo gets another handle.
theorem of_reopen {fd : Int} (h : σ.Listens .fifoCon P)
    (hk : Kept σ (σ.swap a p.sock fd .remotePortFifoCon)) (hp : σ.port a = some p)
    (hm : p.readMessage = some .remotePortFifoCon) (hf : 0 ≤ fd) (hQ : Q fd) :
    (σ.swap a p.sock fd .remotePortFifoCon).Listens .fifoCon Q := by
  have ha := h.only a p .fifoCon hp (.inr hm)
  subst ha
  have ⟨r, hr, _, _, hw⟩ := h.port
  cases hp.symm.trans hr
  have hw := hw.resolve_right fun ht => nomatch hm.symm.trans ht.handler
  exact h.of_swap_self hk rfl fun q hq hfd => .inl ⟨hq, hfd ▸ hQ, hfd ▸ hf, hw.saved⟩

theorem of_effect (h : Primitive env K σ σ') (hσ : σ.Listens k P)
    (hP : K .reopen → k = .fifoCon → ∀ t, P (env.openFifo t)) : σ'.Listens k P := by
  have hk := Kept.of_effect h
  have ⟨r, hr, hperm, htype, hw⟩ := hσ.port
  -- A port that is not permanent is another one.
  have hne {a : Addr} (hp : ∀ p, σ.port a = some p → ¬p.isPermanent) : a ≠ σ.rPorts := by
    rintro rfl
    exact hp r hr hperm
  have honly {a : Addr} {p : Port} (l : Listener) (hp : σ.port a = some p)
      (hl : p.IsListener l) : a = σ.rPorts := hσ.only a p l hp hl
  -- The remote port has no other handler, and no other type.
  have hhandler {a : Addr} {p : Port} {m : Handler} (hp : σ.port a = some p)
      (hm : p.readMessage = some m) (hk : m ≠ k.handler) (hm' : m ≠ .remotePort) :
      a ≠ σ.rPorts := by
    rintro rfl
    cases hp.symm.trans hr
    rcases hw with hw | hw
    · exact hk <| Option.some.inj <| hm.symm.trans hw.handler
    · exact hm' <| Option.some.inj <| hm.symm.trans hw.handler
  have htype' {a : Addr} {p : Port} {t : PortType} (hp : σ.port a = some p)
      (ht : p.type = some t) (hk : t ≠ k.type) : a ≠ σ.rPorts := by
    rintro rfl
    cases hp.symm.trans hr
    exact hk <| Option.some.inj <| ht.symm.trans htype
  cases h
  case still h        => exact hσ.of_eq hk h.port h.listenFd h.fifoConFd
  case write          => exact hσ.of_eq hk rfl rfl rfl
  case serialBreak    => exact hσ.of_eq hk rfl rfl rfl
  case connect        => exact hσ.of_eq hk rfl rfl rfl
  case scan           => exact hσ.of_eq hk rfl rfl rfl
  case flush          => exact hσ.of_eq hk rfl rfl rfl
  case fifo           => exact hσ.of_eq hk rfl rfl rfl
  case negotiate      => exact hσ.of_eq hk rfl rfl rfl
  case select h       =>
    have he := (fdSet_eq h).right
    exact hσ.of_eq hk (he ▸ rfl) (he ▸ rfl) (he ▸ rfl)
  case fill h         => exact hσ.of_modify hk fun p hp => by rw [(h p hp).eq]; rfl
  case relink h _     => exact hσ.of_modify hk fun p _ => by rw [h p]; rfl
  case attachLocal    => exact hσ.of_modify hk fun _ _ => rfl
  case attachRemote   => exact hσ.of_modify hk fun _ _ => rfl
  case bind           => exact hσ.of_modify hk fun _ _ => rfl
  case chain          => exact hσ.of_eq hk rfl rfl rfl
  case head           => exact hσ.of_modify hk fun _ _ => rfl
  case create hn      => exact hσ.of_malloc hk hn
  case free hp        => exact hσ.of_free hk <| hne hp
  case close hp hc h  =>
    exact hσ.of_portclose hk h <| hne fun q hq => Option.some.inj (hp.symm.trans hq) ▸ hc
  case accept a p fd hp hm _ _ _ =>
    cases k
    case listen  => exact hσ.of_take hk hp hm rfl rfl
    case fifoCon => exact absurd (honly .listen hp (.inr hm)) (hhandler hp hm nofun nofun)
  case call a p fd hp hm _ _ _ =>
    cases k
    case listen  => exact absurd (honly .fifoCon hp (.inr hm)) (hhandler hp hm nofun nofun)
    case fifoCon => exact hσ.of_take hk hp hm rfl rfl
  case reopen a p t hK hp hm hf _ =>
    cases k
    case listen  => exact absurd (honly .fifoCon hp (.inr hm)) (hhandler hp hm nofun nofun)
    case fifoCon => exact hσ.of_reopen hk hp hm hf <| hP hK rfl t
  case listen a p hp hc ht hl =>
    cases k
    case listen  => exact hσ.of_return hk hp hc ht rfl hl (show (-1 : Int) < 0 by decide)
    case fifoCon => exact absurd (honly .listen hp (.inl ⟨hc, ht⟩)) (htype' hp ht nofun)
  case await a p hp hc ht hl =>
    cases k
    case listen  => exact absurd (honly .fifoCon hp (.inl ⟨hc, ht⟩)) (htype' hp ht nofun)
    case fifoCon => exact hσ.of_return hk hp hc ht rfl hl (show (-1 : Int) < 0 by decide)

-- A step changes the handle only if it opens the fifo again.
theorem step {fd : Int} {ev : Event} (hc : σ.Consistent) (h : σ.Listens k (· = fd))
    (hs : step env σ ev = some σ') : σ'.Listens k (· = k.next env fd (σ, ev)) := by
  cases k
  case listen =>
    have he := Effects.step hc hs
    exact he.induct (P := fun σ => σ.Listens .listen (· = fd)) h fun he hσ => .of_effect he hσ nofun
  case fifoCon =>
    cases hr : reopened env σ ev
    case none =>
      have he := Effects.step_of_not_reopened hc hs hr
      have hσ := he.induct (P := fun σ => σ.Listens .fifoCon (· = fd)) h fun he hσ =>
        .of_effect he hσ fun hn => absurd rfl hn
      simp only [Listener.next, hr, Option.getD_none]
      exact hσ
    case some fd' =>
      obtain ⟨a, rfl, hm⟩ : ∃ a, ev = .ready a ∧ σ.handler a = some .remotePortFifoCon := by
        simp only [reopened] at hr
        split at hr
        case h_1 a => exact ⟨a, rfl, by_contra fun hm => by simp [hm] at hr⟩
        case h_2   => contradiction
      obtain ⟨p, hp, hm', he, hf, hst⟩ := Effects.swap_of_reopened hr <|
        remotePortFifoConRead_of_step hm hs
      subst he
      have hk : Kept σ (σ.swap a p.sock (env.openFifo (σ.time + 1)) .remotePortFifoCon) :=
        .of_effect (K := fun _ => True) <| .reopen trivial hp hm' hf.left hf.right
      have hσ := h.of_reopen (Q := (· = env.openFifo (σ.time + 1))) hk hp hm' hf.left rfl
      simp only [Listener.next, hr, Option.getD_some]
      exact hσ.of_eq (.of_port_eq hst.port hst.fresh hst.lPorts hst.rPorts hst.telnet) hst.port
        hst.listenFd hst.fifoConFd

-- If the remote port is killed, it waits again, or it still does.
theorem saved_of_resetport (hp : σ.port a = some p) (ht : p.type = some k.type)
    (h : resetport σ a = some σ') : k.saved σ' < 0 := by
  have ⟨q, hq, h⟩ := Option.bind_eq_some_iff.mp h
  cases hp.symm.trans hq
  have ⟨σ₂, h₁, h₂⟩ := ite_bind_eq_some_iff.mp h
  dsimp only at h₁ h₂
  generalize (if p.cls = some .remotePort ∧ p.isMaster then
    σ.modify a ({ · with peer := none }) else σ) = σ₁ at h₁
  have hneg : (-1 : Int) < 0 := by decide
  cases k
  case listen =>
    have hne : ¬(p.type = some .fifoCon ∧ 0 ≤ σ₂.fifoConFd) := fun h => nomatch ht.symm.trans h.left
    rw [if_neg hne] at h₂
    cases h₂
    split at h₁
    case isTrue =>
      have ⟨_, _, he⟩ := Option.map_eq_some_iff.mp h₁
      exact he ▸ hneg
    case isFalse hl =>
      cases h₁
      exact Int.not_le.mp fun h => hl ⟨ht, h⟩
  case fifoCon =>
    split at h₂
    case isTrue =>
      have ⟨_, _, he⟩ := Option.map_eq_some_iff.mp h₂
      exact he ▸ hneg
    case isFalse hl =>
      cases h₂
      exact Int.not_le.mp fun h => hl ⟨ht, h⟩

theorem waits_of_killport (h : σ.Listens k P) (h' : σ'.Listens k P)
    (hk : killport σ σ.rPorts = some σ') :
    ∃ r, σ'.port σ'.rPorts = some r ∧ σ'.Waits k P r := by
  have ⟨r, hr, hp, ht, _⟩ := h.port
  have ⟨r', hr', _, _, hw'⟩ := h'.port
  refine ⟨r', hr', hw'.resolve_right fun hw => ?_⟩
  have ⟨q, hq, hk⟩ := Option.bind_eq_some_iff.mp hk
  cases hr.symm.trans hq
  rw [if_pos hp] at hk
  exact absurd hw.nonneg <| Int.not_le.mpr <| saved_of_resetport hr ht hk

end State.Listens

section Watched

-- No other port has a handle with the property, and while no handle is put aside, the one of the
-- remote port is watched.
structure State.Watched (σ : State) (k : Listener) (P : Int → Prop) : Prop where
  other : ∀ a p, a ≠ σ.rPorts → σ.port a = some p → 0 ≤ p.sock → ¬P p.sock
  remote : k.saved σ < 0 → ∀ r, σ.port σ.rPorts = some r → r.sock ∈ σ.masterRds

namespace State.Watched

-- Nothing has happened to the remote port, and no other port has got such a handle.
theorem of_port (h : σ.Watched k P) (hr : σ'.rPorts = σ.rPorts) (hs : k.saved σ' = k.saved σ)
    (hp : (σ'.port σ.rPorts).map Port.sock = (σ.port σ.rPorts).map Port.sock)
    (ho : ∀ a ≠ σ.rPorts, ∀ p', σ'.port a = some p' →
      (∃ p, σ.port a = some p ∧ p.sock = p'.sock) ∨ (0 ≤ p'.sock → ¬P p'.sock))
    (hm : k.saved σ < 0 → ∀ r, σ.port σ.rPorts = some r → r.sock ∈ σ.masterRds →
      r.sock ∈ σ'.masterRds) : σ'.Watched k P where
  other a p' ha hp' := by
    rw [hr] at ha
    rcases ho a ha p' hp' with ⟨p, hp, he⟩ | hn
    · exact he ▸ h.other a p ha hp
    · exact hn
  remote hsaved r' hr' := by
    rw [hs] at hsaved
    rw [hr] at hr'
    rw [hr', Option.map_some] at hp
    have ⟨r, hr, he⟩ := Option.map_eq_some_iff.mp hp.symm
    exact he ▸ hm hsaved r hr (h.remote hsaved r hr)

theorem of_eq (h : σ.Watched k P) (hp : σ'.port = σ.port) (hr : σ'.rPorts = σ.rPorts)
    (hl : σ'.listenFd = σ.listenFd) (hf : σ'.fifoConFd = σ.fifoConFd)
    (hm : ∀ fd ∈ σ.masterRds, fd ∈ σ'.masterRds) : σ'.Watched k P := by
  refine h.of_port hr ?_ (by rw [hp]) (fun a _ p' hp' => .inl ⟨p', hp ▸ hp', rfl⟩)
    fun _ r _ => hm r.sock
  cases k
  · exact hl
  · exact hf

theorem of_modify {f : Port → Port} (h : σ.Watched k P)
    (hf : ∀ p, σ.port a = some p → (f p).sock = p.sock) : (σ.modify a f).Watched k P := by
  have hport {b : Addr} {p' : Port} (hp' : (σ.modify a f).port b = some p') :
      ∃ p, σ.port b = some p ∧ p.sock = p'.sock := by
    obtain ⟨p, hp, hc⟩ := port_of_modify hp'
    rcases hc with he | ⟨hb, he⟩
    · exact ⟨p, hp, by rw [he]⟩
    · subst hb
      exact ⟨p, hp, by rw [he, hf p hp]⟩
  refine h.of_port rfl (by cases k <;> rfl) ?_ (fun b _ p' hp' => .inl <| hport hp')
    fun _ _ _ => id
  cases hr : σ.port σ.rPorts
  case none =>
    by_cases ha : σ.rPorts = a
    · rw [ha, State.modify_port_self, ← ha, hr]
      rfl
    · rw [State.modify_port_of_ne ha, hr]
  case some r =>
    have ⟨r', hr'⟩ : ∃ r', (σ.modify a f).port σ.rPorts = some r' :=
      Option.isSome_iff_exists.mp <| by rw [isSome_modify, hr]; rfl
    have ⟨q, hq, he⟩ := hport hr'
    cases hr.symm.trans hq
    rw [hr', Option.map_some, Option.map_some, he]

-- A handle that the remote port has just got is watched.
theorem of_swap {τ : State} {old fd : Int} {handler : Handler} (h : σ.Watched k P)
    (ha : a = σ.rPorts) (hp : τ.port = σ.port) (hr : τ.rPorts = σ.rPorts) :
    (τ.swap a old fd handler).Watched k P where
  other b p' hb hp' := by
    have hb : b ≠ σ.rPorts := hr ▸ hb
    have ⟨q, hq, hc⟩ := port_of_swap hp'
    rcases hc with ⟨he, _⟩ | ⟨hba, _⟩
    · exact he ▸ h.other b q hb (hp ▸ hq)
    · exact absurd (hba.trans ha) hb
  remote _ r' hr' := by
    have he : (τ.swap a old fd handler).rPorts = a := hr.trans ha.symm
    rw [he] at hr'
    have ⟨_, _, hc⟩ := port_of_swap hr'
    rcases hc with ⟨_, hne⟩ | ⟨_, he⟩
    · exact absurd rfl hne
    · subst he
      exact List.mem_insert_self

theorem of_effect (h : Primitive env K σ σ') (hl : σ.Listens k P) (hσ : σ.Watched k P)
    (hA : ∀ t, 0 ≤ env.accept t → ¬P (env.accept t)) : σ'.Watched k P := by
  have ⟨r, hr, hperm, htype, hw⟩ := hl.port
  have hne {a : Addr} (hp : ∀ p, σ.port a = some p → ¬p.isPermanent) : a ≠ σ.rPorts := by
    rintro rfl
    exact hp r hr hperm
  cases h
  case still h        =>
    exact hσ.of_eq h.port h.rPorts h.listenFd h.fifoConFd fun _ hm => h.masterRds ▸ hm
  case write          => exact hσ.of_eq rfl rfl rfl rfl fun _ => id
  case serialBreak    => exact hσ.of_eq rfl rfl rfl rfl fun _ => id
  case connect        => exact hσ.of_eq rfl rfl rfl rfl fun _ => id
  case scan           => exact hσ.of_eq rfl rfl rfl rfl fun _ => id
  case flush          => exact hσ.of_eq rfl rfl rfl rfl fun _ => id
  case fifo           => exact hσ.of_eq rfl rfl rfl rfl fun _ => id
  case negotiate      => exact hσ.of_eq rfl rfl rfl rfl fun _ => id
  case chain          => exact hσ.of_eq rfl rfl rfl rfl fun _ => id
  case select h       =>
    rw [(fdSet_eq h).right]
    exact hσ.of_eq rfl rfl rfl rfl fun _ => List.mem_insert_of_mem
  case fill h         => exact hσ.of_modify fun p hp => by rw [(h p hp).eq]
  case relink h _     => exact hσ.of_modify fun p _ => by rw [h p]
  case attachLocal    => exact hσ.of_modify fun _ _ => rfl
  case attachRemote   => exact hσ.of_modify fun _ _ => rfl
  case bind           => exact hσ.of_modify fun _ _ => rfl
  case head           => exact hσ.of_modify fun _ _ => rfl
  case create hs _    =>
    refine hσ.of_port rfl (by cases k <;> rfl) ?_ (fun b _ p' hp' => ?_) fun _ _ _ => id
    case refine_1 => rw [State.malloc_port_of_ne <| Nat.ne_of_lt hl.lt]
    case refine_2 =>
      rcases port_of_malloc hp' with ⟨_, he⟩ | hp
      case inr => exact .inl ⟨p', hp, rfl⟩
      case inl =>
        subst he
        refine .inr ?_
        rcases hs with hs | hs
        · exact hs ▸ hA _
        · rw [hr, Option.bind_some, htype] at hs
          cases k <;> cases hs
  case free a hp      =>
    refine hσ.of_port rfl (by cases k <;> rfl) ?_ (fun b _ p' hp' => ?_) fun _ _ _ => id
    case refine_1 => rw [State.free_port_of_ne (hne hp).symm]
    case refine_2 => exact .inl ⟨p', port_of_free hp', rfl⟩
  case close a p hp hc h =>
    have ha : a ≠ σ.rPorts := hne fun q hq => Option.some.inj (hp.symm.trans hq) ▸ hc
    obtain ⟨q, hq, h⟩ := portclose_eq h
    cases hp.symm.trans hq
    rcases h with ⟨_, he⟩ | ⟨d, rds, _, hrds, he⟩
    · exact he ▸ hσ
    · subst he
      refine hσ.of_port rfl (by cases k <;> rfl) ?_ (fun b _ p' hp' => ?_) fun hs r' hr' hm => ?_
      case refine_1 =>
        rw [State.modify_port_of_ne ha.symm]
        rfl
      case refine_2 =>
        obtain ⟨q, hq, hc⟩ := port_of_modify hp'
        rcases hc with he | ⟨_, he⟩
        · exact .inl ⟨q, hq, by rw [he]⟩
        · have hneg : ¬(0 : Int) ≤ -1 := by decide
          subst he
          exact .inr fun hn => absurd hn hneg
      case refine_3 =>
        -- The handle which is no longer selected is another one.
        cases hr.symm.trans hr'
        have hw := hw.resolve_right fun ht => absurd ht.nonneg <| Int.not_le.mpr hs
        have hsock : r.sock ≠ p.sock := fun he =>
          hσ.other a p ha hp (he ▸ hw.nonneg) (he ▸ hw.handle)
        have hm : r.sock ∈ rds := by
          rw [hrds]
          split
          · exact hm
          · exact (List.mem_erase_of_ne hsock).mpr hm
        exact hm
  case accept hp hm _ _ _ => exact hσ.of_swap (hl.only _ _ .listen hp <| .inr hm) rfl rfl
  case call hp hm _ _ _   => exact hσ.of_swap (hl.only _ _ .fifoCon hp <| .inr hm) rfl rfl
  case reopen hp hm _ _   => exact hσ.of_swap (hl.only _ _ .fifoCon hp <| .inr hm) rfl rfl
  case listen hp hc ht _  => exact hσ.of_swap (hl.only _ _ .listen hp <| .inl ⟨hc, ht⟩) rfl rfl
  case await hp hc ht _   => exact hσ.of_swap (hl.only _ _ .fifoCon hp <| .inl ⟨hc, ht⟩) rfl rfl

end State.Watched

end Watched

section Start

variable {cfg : Config}

-- What the setup makes of a remote port that waits for connections.
structure Port.IsSetUp (env : Env) (k : Listener) (p : Port) : Prop where
  cls : p.cls = some .remotePort
  type : p.type = some k.type
  handler : p.readMessage = some k.handler
  nonneg : 0 ≤ p.sock
  fifo : k = .fifoCon → ∃ t, p.sock = env.openFifo t

theorem Port.IsSetUp.of_station {p p' : Port} (h : p.IsSetUp env k) (hs : p'.station = p.station) :
    p'.IsSetUp env k := by
  have ⟨hc, ht, hm, hsock⟩ := Port.station_eq hs
  exact ⟨hc.trans h.cls, ht.trans h.type, hm.trans h.handler, hsock ▸ h.nonneg, hsock ▸ h.fifo⟩

theorem isSetUp_of_setupRemotePort (hp : σ.port a = some p)
    (h : setupRemotePort env σ a (some k.type) = some σ') :
    σ'.rPorts = σ.rPorts ∧ ∃ r, σ'.port a = some r ∧ r.IsSetUp env k ∧ r.sock ∈ σ'.masterRds := by
  -- What has been set up is not touched any more.
  have hmanage {τ : State} {q : Port} (hm : manage τ a = some σ') (hr : τ.rPorts = σ.rPorts)
      (hq : τ.port a = some q) (hs : q.IsSetUp env k) :
      σ'.rPorts = σ.rPorts ∧
        ∃ r, σ'.port a = some r ∧ r.IsSetUp env k ∧ r.sock ∈ σ'.masterRds := by
    obtain ⟨_, hq', hm⟩ := Option.bind_eq_some_iff.mp hm
    cases hq.symm.trans hq'
    rw [(fdSet_eq hm).right]
    exact ⟨hr, q, hq, hs, List.mem_insert_self⟩
  cases k
  case listen =>
    obtain ⟨⟨sock, σ₁⟩, ho, h⟩ := Option.bind_eq_some_iff.mp h
    have hsock := (openSocket_eq ho).left
    simp only [openSocket] at ho
    split at ho
    case isTrue  => contradiction
    case isFalse =>
      cases ho
      exact hmanage h rfl (by simp [hp]; rfl) ⟨rfl, rfl, rfl, hsock, (Listener.noConfusion ·)⟩
  case fifoCon =>
    have h : setupRemotePort env σ a (some .fifoCon) = some σ' := h
    obtain ⟨hsock, h⟩ := Option.ite_none_left_eq_some.mp h
    exact hmanage h rfl (by simp [hp]; rfl)
      ⟨rfl, rfl, rfl, Int.not_lt.mp hsock, fun _ => ⟨_, rfl⟩⟩

theorem station_of_modify {f : Port → Port} {b : Addr} {r : Port} (hr : σ.port a = some r)
    (hf : ∀ p, (f p).station = p.station) :
    ∃ r', (σ.modify b f).port a = some r' ∧ r'.station = r.station := by
  by_cases ha : a = b
  case neg => exact ⟨r, (State.modify_port_of_ne ha).trans hr, rfl⟩
  case pos => exact ⟨f r, by rw [← ha, State.modify_port_self, hr, Option.map_some], hf r⟩

-- Whatever the script port does to it, the remote port waits when the main loop begins.
theorem isSetUp_of_start (hc : cfg.remote = some k.type) (h : start env cfg = some σ) :
    ∃ r, σ.port σ.rPorts = some r ∧ r.IsSetUp env k ∧ r.sock ∈ σ.masterRds := by
  have ⟨σ₁, h₁, h⟩ := Option.bind_eq_some_iff.mp h
  have ⟨σ₂, h₂, h⟩ := Option.bind_eq_some_iff.mp h
  have ⟨l, hl, h⟩ := Option.bind_eq_some_iff.mp h
  have ⟨q, hq, h⟩ := Option.bind_eq_some_iff.mp h
  rw [hc] at h₂
  have ⟨hrp, r, hr₂, hs, hw⟩ := isSetUp_of_setupRemotePort State.malloc_port_self h₂
  have ⟨r₃, hr₃, hs₃⟩ := station_of_modify (b := 0)
    (f := ({ · with remote := some σ₁.fresh })) hr₂ fun _ => rfl
  have ⟨r', hr', hs'⟩ : ∃ r', σ.port σ₁.fresh = some r' ∧ r'.station = r.station := by
    rw [(Still.refresh h).port]
    split
    case h_1 => exact ⟨r₃, hr₃, hs₃⟩
    case h_2 s _ =>
      split
      case isFalse => exact ⟨r₃, hr₃, hs₃⟩
      case isTrue  =>
        have ⟨r₄, hr₄, hs₄⟩ := station_of_modify (b := s)
          (f := ({ · with scriptInUse := true, rscript := some σ₁.fresh })) hr₃ fun _ => rfl
        have ⟨r₅, hr₅, hs₅⟩ := station_of_modify (b := σ₁.fresh)
          (f := ({ · with mode := SCRIPT_READ + SCRIPT_WRITE, scriptRef := some s })) hr₄
          fun _ => rfl
        exact ⟨r₅, hr₅, hs₅.trans <| hs₄.trans hs₃⟩
  have hrp : σ.rPorts = σ₁.fresh := by
    refine (Still.refresh h).rPorts.trans <| Eq.trans ?_ hrp
    split
    case h_1 => rfl
    case h_2 => split <;> rfl
  have hrds : σ.masterRds = σ₂.masterRds := by
    refine (Still.refresh h).masterRds.trans ?_
    split
    case h_1 => rfl
    case h_2 => split <;> rfl
  have ⟨_, _, _, hsock⟩ := Port.station_eq hs'
  exact ⟨r', hrp ▸ hr', hs.of_station hs', hrds ▸ hsock ▸ hw⟩

-- Only the remote port can wait for connections.
theorem Net.Role.eq_rPorts {n : Net} (h : n.Role a p.node) (hc : p.IsListener k) :
    a = n.rPorts := by
  have hne : k.type = .listen ∨ k.type = .fifoCon := by cases k <;> simp [Listener.type]
  have hm : k.handler ≠ .localPort ∧ k.handler ≠ .scriptPort ∧ k.handler ≠ .remotePort ∧
      k.handler ≠ .scriptClientPort := by cases k <;> simp [Listener.handler]
  cases h
  case remotePort ha _ _ _ _ _ => exact ha
  all_goals
    rcases hc with ⟨hp, ht⟩ | hc
    all_goals simp_all [Port.isPermanent, Port.node]

theorem listens_of_start (hc : cfg.remote = some k.type) (h : start env cfg = some σ) :
    ∃ r, σ.port σ.rPorts = some r ∧ r.IsSetUp env k ∧ r.sock ∈ σ.masterRds ∧
      ∀ P, P r.sock → σ.Listens k P := by
  have ⟨r, hr, hs, hw⟩ := isSetUp_of_start hc h
  have ⟨n, hσ, hi, _⟩ := start_represents h
  have hpl := start_plain h
  have hperm : r.isPermanent := by simp [Port.isPermanent, hs.cls]
  refine ⟨r, hr, hs, hw, fun P hP => ⟨hσ.lt_fresh hi hr, fun a p l hp hc => ?_, r, hr, hperm,
    hs.type, .inl ⟨hs.handler, hP, hs.nonneg, ?_⟩⟩⟩
  case refine_1 =>
    rw [hσ.rPorts]
    exact (hi.role <| hσ.node_eq hp).eq_rPorts hc
  case refine_2 =>
    cases k
    case listen  => rw [Listener.saved, hpl.listenFd]; decide
    case fifoCon => rw [Listener.saved, hpl.fifoConFd]; decide

end Start

section Run

variable {cfg : Config} {σ₀ : State} {steps : List (State × Event)}

-- The handles that the remote port may wait on: the one that it has been set up with, or one for
-- the fifo.
def Listener.IsHandle (env : Env) (σ₀ : State) (k : Listener) (fd : Int) : Prop :=
  match k with
  | listen  => ∃ r, σ₀.port σ₀.rPorts = some r ∧ r.sock = fd
  | fifoCon => ∃ t, env.openFifo t = fd

theorem listens_run {fd : Int} (hr : Run env σ₀ steps σ) (h : start env cfg = some σ₀)
    (hl : σ₀.Listens k (· = fd)) : σ.Listens k (· = k.latest env fd steps) := by
  induction hr
  case refl          => exact hl
  case step hr hs ih =>
    rw [Listener.latest, List.foldl_append]
    exact ih.step (consistent_run h hr) hs

-- The numbers of these handles are not given to other ports, be it at the start or later.
structure Listener.Exclusive (env : Env) (σ₀ : State) (k : Listener) : Prop where
  accept : ∀ t, 0 ≤ env.accept t → ¬k.IsHandle env σ₀ (env.accept t)
  port : ∀ a p, a ≠ σ₀.rPorts → σ₀.port a = some p → 0 ≤ p.sock → ¬k.IsHandle env σ₀ p.sock

theorem Listener.IsHandle.next {fd : Int} (h : k.IsHandle env σ₀ fd) (s : State × Event) :
    k.IsHandle env σ₀ (k.next env fd s) := by
  cases k
  case listen  => exact h
  case fifoCon =>
    rw [Listener.next]
    cases hr : reopened env s.1 s.2
    case none    => exact h
    case some fd => exact Effects.exists_of_reopened hr

theorem Listener.IsHandle.latest {fd : Int} (h : k.IsHandle env σ₀ fd)
    (steps : List (State × Event)) : k.IsHandle env σ₀ (k.latest env fd steps) := by
  induction steps generalizing fd
  case nil            => exact h
  case cons s _ hi => exact hi <| h.next s

theorem isHandle_of_isSetUp {r : Port} (hr : σ₀.port σ₀.rPorts = some r) (hs : r.IsSetUp env k) :
    k.IsHandle env σ₀ r.sock := by
  cases k
  case listen  => exact ⟨r, hr, rfl⟩
  case fifoCon => exact (hs.fifo rfl).imp fun _ => Eq.symm

theorem watched_of_effect {τ : State} (hx : k.Exclusive env σ₀) (he : Primitive env K σ τ)
    (h : σ.Listens k (k.IsHandle env σ₀) ∧ σ.Watched k (k.IsHandle env σ₀)) :
    τ.Listens k (k.IsHandle env σ₀) ∧ τ.Watched k (k.IsHandle env σ₀) :=
  ⟨h.left.of_effect he fun _ hk t => hk ▸ ⟨t, rfl⟩, h.right.of_effect he h.left hx.accept⟩

-- The handle on which the remote side waits for connections is never lost: either the remote port
-- waits on it, or it is put aside for a connection. As soon as that connection is killed, the
-- remote port waits on it again. Unless other ports get its number, it is watched all the while
-- that it is not put aside.
theorem listens_of_run (hc : cfg.remote = some k.type) (h : start env cfg = some σ₀)
    (hr : Run env σ₀ steps σ) : ∃ r₀ σ', σ₀.port σ₀.rPorts = some r₀ ∧
      killport σ σ.rPorts = some σ' ∧
      let fd := k.latest env r₀.sock steps
      k.IsHandle env σ₀ fd ∧ σ.Listens k (· = fd) ∧
      (∃ r, σ'.port σ'.rPorts = some r ∧ σ'.Waits k (· = fd) r) ∧
      (k.Exclusive env σ₀ → (k.saved σ < 0 → fd ∈ σ.masterRds) ∧ fd ∈ σ'.masterRds) := by
  have ⟨r₀, hr₀, hs, hw, hl⟩ := listens_of_start hc h
  have hh := isHandle_of_isSetUp hr₀ hs
  have hσ := listens_run hr h <| hl _ rfl
  have ⟨r, hr', _⟩ := hσ.port
  have ⟨n, hn, hi, _⟩ := consistent_run h hr
  have ⟨σ', hk⟩ := (equipped_of_run h hr).exists_killport hn hi hr'
  -- Killing the port opens no fifo.
  have he : Effects env (· ≠ .reopen) σ σ' := .killport hk
  have hσ' := he.induct (P := fun σ => σ.Listens k (· = k.latest env r₀.sock steps)) hσ
    fun he hσ => hσ.of_effect he fun hn => absurd rfl hn
  have hwaits := hσ.waits_of_killport hσ' hk
  refine ⟨r₀, σ', hr₀, hk, hh.latest steps, hσ, hwaits, fun hx => ?_⟩
  have h₀ : σ₀.Watched k (k.IsHandle env σ₀) := by
    refine ⟨hx.port, fun _ r hr => ?_⟩
    cases hr₀.symm.trans hr
    exact hw
  have hd := hr.invariant h ⟨hl _ hh, h₀⟩ <| watched_of_effect hx
  have hd' := he.induct hd <| watched_of_effect hx
  refine ⟨fun hs => ?_, ?_⟩
  case refine_1 =>
    have ⟨r, hr, _, _, hw⟩ := hσ.port
    have hw := hw.resolve_right fun ht => absurd ht.nonneg <| Int.not_le.mpr hs
    exact hw.handle ▸ hd.right.remote hs r hr
  case refine_2 =>
    have ⟨r, hr, hw⟩ := hwaits
    exact hw.handle ▸ hd'.right.remote hw.saved r hr

-- A remote port that waits for connections.
def listenConfig : Config where
  lPort      := .tcp
  scriptPort := none
  remote     := some .listen

-- Connections get numbers of their own.
def listenEnv : Env :=
  { chatEnv with accept := (· + 100) }

theorem exclusive_of_start (h : start listenEnv listenConfig = some σ₀) :
    Listener.listen.Exclusive listenEnv σ₀ := by
  have ⟨n, hn, hi, _⟩ := start_represents h
  have he : (start listenEnv listenConfig).map (fun σ =>
      (σ.rPorts, σ.fresh, (σ.port 0).map Port.sock, (σ.port 1).map Port.sock)) =
      some (1, 2, some 5, some 6) := by decide
  rw [h, Option.map_some] at he
  obtain ⟨hr, hf, h₀, h₁⟩ : σ₀.rPorts = 1 ∧ σ₀.fresh = 2 ∧ (σ₀.port 0).map Port.sock = some 5 ∧
    (σ₀.port 1).map Port.sock = some 6 := by simpa using he
  have hh {fd : Int} (h : Listener.listen.IsHandle listenEnv σ₀ fd) : fd = 6 := by
    have ⟨r, hr', he⟩ := h
    rw [← hr, hr', Option.map_some] at h₁
    exact he.symm.trans <| Option.some.inj h₁
  refine ⟨fun t _ h => ?_, fun a p ha hp _ h => ?_⟩
  case refine_1 =>
    have he : (t : Int) + 100 = 6 := hh h
    omega
  case refine_2 =>
    have hlt := hn.lt_fresh hi hp
    rw [hf] at hlt
    rw [hr] at ha
    cases Nat.lt_one_iff.mp <| Nat.lt_of_le_of_ne (Nat.le_of_lt_succ hlt) ha
    rw [hp, Option.map_some, hh h] at h₀
    exact absurd h₀ (by decide)

theorem listens_of_accept : ∃ σ₀ steps σ, steps.map Prod.snd = [Event.ready 1] ∧
    start listenEnv listenConfig = some σ₀ ∧ Run listenEnv σ₀ steps σ ∧
    σ.handler 1 = some .remotePort ∧ ∃ r₀ σ', σ₀.port σ₀.rPorts = some r₀ ∧
      killport σ σ.rPorts = some σ' ∧
      let fd := Listener.listen.latest listenEnv r₀.sock steps
      σ.Listens .listen (· = fd) ∧
      (∃ r, σ'.port σ'.rPorts = some r ∧ σ'.Waits .listen (· = fd) r) ∧ fd ∈ σ'.masterRds := by
  have ⟨σ₀, steps, σ, he, h, hr, hP⟩ := exists_run listenEnv listenConfig [.ready 1] (fun σ =>
    σ.handler 1 = some .remotePort) (by decide)
  have ⟨r₀, σ', hr₀, hk, _, hσ, hw, hm⟩ := listens_of_run (k := .listen) rfl h hr
  exact ⟨σ₀, steps, σ, he, h, hr, hP, r₀, σ', hr₀, hk, hσ, hw, (hm <| exclusive_of_start h).right⟩

end Run

end Proxy
