import MyLinuxEnv.Proxy.Theorems.Plain
import MyLinuxEnv.Proxy.Theorems.StepEffects

namespace Proxy

-- All handles fit into the set, as far as they are handles at all.
structure Env.Fits (env : Env) : Prop where
  accept : ∀ t, env.accept t < 1024
  socket : ∀ t, env.socket t < 1024
  openFifo : ∀ t, env.openFifo t < 1024

namespace Port

-- The port waits for a connection.
def Waits (p : Port) : Prop :=
  p.readMessage = some .remotePortAccept ∨ p.readMessage = some .remotePortFifoCon

-- The port can be read from and written to.
def Driven (p : Port) : Prop :=
  p.portread.isSome ∧ p.portwrite.isSome

-- A port with all that the program relies on when it follows its pointers. The two sides of a
-- script connection are each other's peers, unless the local one is the local port.
structure Equipped (σ : State) (p : Port) : Prop where
  handle : p.Waits → p.sock < 1024
  driver : (p.cls = some .remotePort → p.type.any (·.hasDriver)) → p.Driven
  lscript : ∀ a, p.lscript = some a → a = σ.lPorts ∨ a < σ.fresh ∧ σ.Local a ∧
    ∃ b, p.rscript = some b ∧ ∀ q, σ.port a = some q → q.peer = some b

end Port

-- The handles that have been put aside fit into the set as well.
structure State.Equipped (σ : State) : Prop where
  fits : σ.Fits
  port : ∀ a p, σ.port a = some p → p.Equipped σ

variable {env : Env} {K : Cause → Prop} {σ σ' : State} {a : Addr} {p : Port}

theorem Port.Equipped.mono (h : p.Equipped σ) (hk : Kept σ σ') : p.Equipped σ' where
  handle       := h.handle
  driver       := h.driver
  lscript a ha := by
    rw [hk.lPorts]
    exact (h.lscript a ha).imp_right fun ⟨hlt, hl, b, hr, hb⟩ =>
      ⟨Nat.lt_of_lt_of_le hlt hk.fresh, hk.local hlt hl, b, hr, hk.peer hlt hl hb⟩

namespace State.Equipped

-- Nothing but ports has to be looked at, and only those that have changed.
theorem of_kept (h : σ.Equipped) (hk : Kept σ σ') (hl : σ'.listenFd < 1024)
    (hf : σ'.fifoConFd < 1024)
    (hp : ∀ a p, σ'.port a = some p → σ.port a = some p ∨ p.Equipped σ') : σ'.Equipped where
  fits         := ⟨hl, hf⟩
  port a p hp' := (hp a p hp').elim (fun hp => (h.port a p hp).mono hk) id

theorem of_port_eq (h : σ.Equipped) (hk : Kept σ σ') (hp : σ'.port = σ.port)
    (hl : σ'.listenFd = σ.listenFd) (hf : σ'.fifoConFd = σ.fifoConFd) : σ'.Equipped :=
  h.of_kept hk (hl ▸ h.fits.listenFd) (hf ▸ h.fits.fifoConFd) fun _ _ hq => .inl <| hp ▸ hq

-- A port is changed, besides anything but the ports.
theorem of_modify {τ : State} {f : Port → Port} (h : σ.Equipped) (hk : Kept σ (τ.modify a f))
    (hp : τ.port = σ.port) (hl : τ.listenFd < 1024) (hc : τ.fifoConFd < 1024)
    (hf : ∀ p, σ.port a = some p → p.Equipped σ → (f p).Equipped σ) :
    (τ.modify a f).Equipped := by
  refine h.of_kept hk hl hc fun b p' hp' => ?_
  have ⟨p, hq, hc⟩ := port_of_modify hp'
  rw [hp] at hq
  rcases hc with he | ⟨hb, he⟩
  · exact .inl <| he ▸ hq
  · subst hb
    exact .inr <| he ▸ (hf p hq (h.port b p hq)).mono hk

-- A change of a port that leaves all of this alone.
theorem edit {f : Port → Port} (h : σ.Equipped) (hk : Kept σ (σ.modify a f))
    (hf : ∀ p, σ.port a = some p → p.Equipped σ → (f p).Equipped σ) : (σ.modify a f).Equipped :=
  h.of_modify hk rfl h.fits.listenFd h.fits.fifoConFd hf

theorem swap {τ : State} {old fd : Int} {handler : Handler} (h : σ.Equipped)
    (hk : Kept σ (τ.swap a old fd handler)) (hp : τ.port = σ.port) (hl : τ.listenFd < 1024)
    (hc : τ.fifoConFd < 1024) (hfd : fd < 1024) : (τ.swap a old fd handler).Equipped :=
  h.of_modify hk hp hl hc fun _ _ he => ⟨fun _ => hfd, he.driver, he.lscript⟩

theorem of_effect (h : Primitive env K σ σ') (hσ : σ.Equipped) : σ'.Equipped := by
  have hk := Kept.of_effect h
  have hl := hσ.fits.listenFd
  have hf := hσ.fits.fifoConFd
  have hneg : (-1 : Int) < 1024 := by decide
  cases h
  case still h        => exact hσ.of_port_eq hk h.port h.listenFd h.fifoConFd
  case select h       =>
    rw [(fdSet_eq h).right] at hk ⊢
    exact hσ.of_port_eq hk rfl rfl rfl
  case fill h         =>
    refine hσ.edit hk fun p hp he => ?_
    rw [(h p hp).eq]
    exact ⟨he.handle, he.driver, he.lscript⟩
  case relink h _     =>
    refine hσ.edit hk fun p _ he => ?_
    rw [h p]
    exact ⟨he.handle, he.driver, he.lscript⟩
  case bind hab ha hlt _ _ =>
    refine hσ.edit hk fun p _ he => ⟨he.handle, he.driver, fun c hc => ?_⟩
    cases hc
    exact .inr ⟨hlt, ha, _, rfl, hab⟩
  case attachLocal    => exact hσ.edit hk fun _ _ he => ⟨he.handle, he.driver, he.lscript⟩
  case attachRemote   => exact hσ.edit hk fun _ _ he => ⟨he.handle, he.driver, he.lscript⟩
  case head           => exact hσ.edit hk fun _ _ he => ⟨he.handle, he.driver, he.lscript⟩
  case create hn      =>
    refine hσ.of_kept hk hl hf fun a p hp => ?_
    rcases port_of_malloc hp with ⟨_, he⟩ | hp
    case inr => exact .inl hp
    case inl =>
      subst he
      refine .inr ⟨fun hw => ?_, fun _ => ?_, fun b hb => ?_⟩
      · rcases hn.handler with hm | hm <;> simp [Port.Waits, hm] at hw
      · simp [Port.Driven, hn.driver]
      · cases hn.lscript.symm.trans hb
  case close h        =>
    have ⟨p, _, hc⟩ := portclose_eq h
    rcases hc with ⟨_, he⟩ | ⟨_, _, _, _, he⟩
    · exact he ▸ hσ
    · subst he
      exact hσ.of_modify hk rfl hl hf fun _ _ he => ⟨fun _ => hneg, he.driver, he.lscript⟩
  case free           => exact hσ.of_kept hk hl hf fun _ _ hp => .inl <| port_of_free hp
  case accept hp hm _ _ hs =>
    exact hσ.swap hk rfl ((hσ.port _ _ hp).handle <| .inl hm) hf hs
  case call hp hm _ _ hs   =>
    exact hσ.swap hk rfl hl ((hσ.port _ _ hp).handle <| .inr hm) hs
  case reopen hs      => exact hσ.swap hk rfl hl hf hs
  case listen         => exact hσ.swap hk rfl hneg hf hl
  case await          => exact hσ.swap hk rfl hl hneg hf
  all_goals exact hσ.of_port_eq hk rfl rfl rfl

end State.Equipped

section Start

-- A port while the proxy is set up: it has got its handle and its drivers, if it is `ready`.
structure Port.Fitted (ready : Prop) (p : Port) : Prop where
  handle : ready → p.Waits → p.sock < 1024
  driver : ready → (p.cls = some .remotePort → p.type.any (·.hasDriver)) → p.Driven
  lscript : ∀ a, p.lscript = some a → a = 0

-- All ports but `x` are ready.
def State.Fitted (σ : State) (x : Option Addr) : Prop :=
  ∀ a p, σ.port a = some p → p.Fitted (some a ≠ x)

variable {x y : Option Addr} {fd : Int}

namespace State.Fitted

theorem of_port_eq (h : σ.Fitted x) (hp : σ'.port = σ.port) : σ'.Fitted x :=
  fun a p hp' => h a p (hp ▸ hp')

theorem modify {f : Port → Port} (h : σ.Fitted x)
    (hf : ∀ p, σ.port a = some p → p.Fitted (some a ≠ x) → (f p).Fitted (some a ≠ y))
    (hxy : ∀ b, b ≠ a → some b ≠ y → some b ≠ x) : (σ.modify a f).Fitted y := by
  intro b p' hp'
  by_cases hb : b = a
  case neg =>
    have hp := h b p' <| State.modify_port_of_ne hb ▸ hp'
    exact ⟨fun hy => hp.handle <| hxy b hb hy, fun hy => hp.driver <| hxy b hb hy, hp.lscript⟩
  case pos =>
    subst hb
    rw [State.modify_port_self] at hp'
    have ⟨p, hp, he⟩ := Option.map_eq_some_iff.mp hp'
    exact he ▸ hf p hp (h b p hp)

-- The port `a` is set up.
theorem ready {f : Port → Port} (h : σ.Fitted (some a))
    (hf : ∀ p, σ.port a = some p → p.Fitted False → (f p).Fitted True) :
    (σ.modify a f).Fitted none := by
  refine h.modify (fun p hσ hp => ?_) fun b hb _ he => hb <| Option.some.inj he
  have hp := hf p hσ ⟨nofun, nofun, hp.lscript⟩
  exact ⟨fun _ => hp.handle trivial, fun _ => hp.driver trivial, hp.lscript⟩

-- Changes of fields that do not matter.
theorem edit {f : Port → Port} (h : σ.Fitted x)
    (hf : ∀ p, p.Fitted (some a ≠ x) → (f p).Fitted (some a ≠ x)) : (σ.modify a f).Fitted x :=
  h.modify (fun p _ => hf p) fun _ _ hx => hx

theorem malloc (h : σ.Fitted none) : (σ.malloc {}).Fitted (some σ.fresh) := by
  intro a p hp
  rcases port_of_malloc hp with ⟨ha, he⟩ | hp
  case inl =>
    subst ha he
    exact ⟨fun hn => absurd rfl hn, fun hn => absurd rfl hn, nofun⟩
  case inr =>
    have hp := h a p hp
    exact ⟨fun _ => hp.handle nofun, fun _ => hp.driver nofun, hp.lscript⟩

theorem openSocket (h : σ.Fitted x) (ho : openSocket env σ = some (fd, σ')) : σ'.Fitted x := by
  simp only [Proxy.openSocket] at ho
  split at ho
  case isTrue  => contradiction
  case isFalse => cases ho; exact h.of_port_eq rfl

theorem fdSet (h : σ.Fitted x) (hs : σ.fdSet fd = some σ') : σ'.Fitted x :=
  h.of_port_eq <| by rw [(fdSet_eq hs).right]

-- A port can't be managed unless its handle fits into the set.
theorem manage {f : Port → Port} (h : σ.Fitted (some a))
    (hf : ∀ p, (f p).sock < 1024 → p.Fitted False → (f p).Fitted True)
    (hm : manage (σ.modify a f) a = some σ') : σ'.Fitted none := by
  have ⟨p', hp', hm⟩ := Option.bind_eq_some_iff.mp hm
  have hs := (fdSet_eq hm).left.right
  have hr : (σ.modify a f).Fitted none := by
    refine h.ready fun p hp hq => ?_
    rw [State.modify_port_self, hp] at hp'
    cases hp'
    exact hf p hs hq
  have hp : ((σ.modify a f).push a).Fitted none := hr
  exact hp.fdSet hm

theorem setupLocalPort {kind : LocalKind} {attach : Bool} (h : σ.Fitted (some a))
    (hs : setupLocalPort env σ a kind attach = some σ') : σ'.Fitted none := by
  obtain ⟨⟨sock, σ₁⟩, ho, hs⟩ := ite_bind_eq_some_iff.mp hs
  have h₁ : σ₁.Fitted (some a) := by
    split at ho
    case isTrue  => cases ho; exact h
    case isFalse => exact h.openSocket ho
  cases hs
  refine h₁.ready fun p _ hp => ⟨fun _ hw => ?_, fun _ _ => ⟨rfl, rfl⟩, hp.lscript⟩
  cases attach <;> simp [Port.Waits] at hw

theorem parseLocalPort {cfg : Config} (h : σ.Fitted (some 0))
    (hp : parseLocalPort env σ 0 cfg = some σ') : σ'.Fitted none := by
  have ⟨σ₁, h₁, hp⟩ := Option.bind_eq_some_iff.mp hp
  have h₁ := h.setupLocalPort h₁
  split at hp
  case h_1 =>
    have ⟨_, hs, hp⟩ := Option.bind_eq_some_iff.mp hp
    cases hs
    have ⟨_, _, hp⟩ := Option.bind_eq_some_iff.mp hp
    exact h₁.fdSet hp
  case h_2 kind breakPort _ =>
    have ⟨σ₂, h₂, hp⟩ := Option.bind_eq_some_iff.mp hp
    have ⟨sp, _, hp⟩ := Option.bind_eq_some_iff.mp hp
    have ⟨σ₃, h₃, hp⟩ := Option.bind_eq_some_iff.mp hp
    have ⟨_, hs, hp⟩ := Option.bind_eq_some_iff.mp hp
    cases hs
    have ⟨_, _, hp⟩ := Option.bind_eq_some_iff.mp hp
    have h₂ : σ₂.Fitted none := h₁.malloc.setupLocalPort h₂
    have h₃ : σ₃.Fitted none := by
      refine State.Fitted.fdSet ?_ h₃
      split
      case isTrue  => exact h₂
      case isFalse =>
        exact h₂.edit fun _ hp => ⟨hp.handle, hp.driver, fun _ ha => (Option.some.inj ha).symm⟩
    refine State.Fitted.fdSet (.edit (h₃.edit ?_) ?_) hp
    all_goals exact fun _ hp => ⟨hp.handle, hp.driver, hp.lscript⟩

theorem setupRemotePort {type : Option PortType} (h : σ.Fitted (some a))
    (hs : setupRemotePort env σ a type = some σ') : σ'.Fitted none := by
  have h₁ : (σ.modify a ({ · with
      cls := some .remotePort, sock := -1, readMessage := some .remotePort, type })).Fitted
      (some a) :=
    h.edit fun _ hp => ⟨fun hn => absurd rfl hn, fun hn => absurd rfl hn, hp.lscript⟩
  have hd {τ : State} {portio portclose : Driver} {sock : Int} (hτ : τ.Fitted (some a))
      (hs : Proxy.manage (τ.modify a ({ · with
        portread := some portio, portwrite := some portio, portclose := some portclose,
        sock })) a = some σ') : σ'.Fitted none := by
    refine hτ.manage ?_ hs
    exact fun _ hfd hp => ⟨fun _ _ => hfd, fun _ _ => ⟨rfl, rfl⟩, hp.lscript⟩
  have hm {τ : State} {m : Handler} (hτ : τ.Fitted (some a)) :
      (τ.modify a ({ · with readMessage := some m })).Fitted (some a) :=
    hτ.edit fun _ hp => ⟨fun hn => absurd rfl hn, fun hn => absurd rfl hn, hp.lscript⟩
  have ht {τ : State} {t : Nat} (hτ : τ.Fitted (some a)) :
      ({ τ with time := t } : State).Fitted (some a) := hτ
  simp only [Proxy.setupRemotePort] at hs
  split at hs
  case h_1 =>
    obtain ⟨⟨sock, σ₁⟩, ho, hs⟩ := Option.bind_eq_some_iff.mp hs
    exact hd (h₁.openSocket ho) hs
  case h_2 =>
    obtain ⟨⟨sock, σ₁⟩, ho, hs⟩ := Option.bind_eq_some_iff.mp hs
    exact hd (hm <| h₁.openSocket ho) hs
  case h_3 =>
    split at hs
    case isTrue  => contradiction
    case isFalse => exact hd (hm <| ht h₁) hs
  case h_4 =>
    split at hs
    case isTrue  => contradiction
    case isFalse => exact hd (ht h₁) hs
  case h_5 =>
    cases hs
    refine h₁.ready fun _ _ hp => ⟨fun _ _ => ?_, fun _ _ => ⟨rfl, rfl⟩, hp.lscript⟩
    exact show (0 : Int) < 1024 by decide
  case h_6 hu hl hf hr hb =>
    cases hs
    refine h.ready fun p _ hp => ⟨fun _ hw => ?_, fun _ hn => ?_, hp.lscript⟩
    case refine_1 => simp [Port.Waits] at hw
    case refine_2 =>
      cases type
      case none   => cases hn rfl
      case some t => cases t <;> simp_all [PortType.hasDriver]

end State.Fitted

theorem State.Equipped.of_start {cfg : Config} (h : start env cfg = some σ) : σ.Equipped := by
  have hpl := start_plain h
  have ⟨σ₁, h₁, h⟩ := Option.bind_eq_some_iff.mp h
  have ⟨σ₂, h₂, h⟩ := Option.bind_eq_some_iff.mp h
  have ⟨l, _, h⟩ := Option.bind_eq_some_iff.mp h
  have ⟨r, _, h⟩ := Option.bind_eq_some_iff.mp h
  have h₀ : (({ lPorts := 0 } : State).malloc {}).Fitted (some 0) :=
    State.Fitted.malloc fun _ _ hp => nomatch hp
  have h₁ : σ₁.Fitted none := h₀.parseLocalPort h₁
  have h₁ : ({ σ₁ with rPorts := σ₁.fresh } : State).Fitted none := h₁
  have h₂ : σ₂.Fitted none := h₁.malloc.setupRemotePort h₂
  have hf : σ.Fitted none := by
    refine State.Fitted.of_port_eq ?_ (Still.refresh h).port
    have h₃ : (σ₂.modify 0 ({ · with remote := some σ₁.fresh })).Fitted none :=
      h₂.edit fun _ hp => ⟨hp.handle, hp.driver, hp.lscript⟩
    split
    case h_1 => exact h₃
    case h_2 s _ =>
      split
      case isFalse => exact h₃
      case isTrue  =>
        refine State.Fitted.edit (h₃.edit ?_) ?_
        all_goals exact fun _ hp => ⟨hp.handle, hp.driver, hp.lscript⟩
  have hneg : (-1 : Int) < 1024 := by decide
  refine ⟨⟨hpl.listenFd ▸ hneg, hpl.fifoConFd ▸ hneg⟩, fun a p hp => ?_⟩
  have hp := hf a p hp
  have hl (b : Addr) (hb : p.lscript = some b) := (hp.lscript b hb).trans hpl.lPorts.symm
  exact ⟨hp.handle nofun, hp.driver nofun, fun b hb => .inl <| hl b hb⟩

end Start

section Kill

variable {cfg : Config} {σ₀ : State} {steps : List (State × Event)} {n : Net}

theorem equipped_of_run (h : start env cfg = some σ₀) (hr : Run env σ₀ steps σ) : σ.Equipped :=
  hr.invariant h (.of_start h) .of_effect

namespace State.Equipped

-- A connection that takes part in a script connection has a remote side there, which is its peer.
theorem releasable (h : σ.Equipped) (hσ : Refines σ n) (hi : n.Inv) (hp : σ.port a = some p)
    (hn : ¬p.isPermanent) : σ.Releasable a p := by
  intro s hs
  obtain ⟨y, hy, _⟩ := hi.sPort s <| hσ.script_of_scriptRef hi hp hs
  obtain ⟨sp, hsp, _⟩ := hσ.exists_port hy
  refine ⟨sp, hsp, fun hl => ?_⟩
  rcases (h.port s sp hsp).lscript a hl with rfl | ⟨_, _, b, hr, hb⟩
  case inl =>
    have hx := hσ.lPorts ▸ hσ.node_eq hp
    exact absurd (hi.isPermanent_lPorts hx) hn
  case inr =>
    have hk : p.node.isKept := by simp [Node.isKept, show ¬p.node.isPermanent from hn]
    obtain ⟨z, hz, _⟩ := hi.peer (hσ.node_eq hp) hk (hb p hp)
    obtain ⟨q, hq, _⟩ := hσ.exists_port hz
    exact ⟨b, hr, Option.isSome_iff_exists.mpr ⟨q, hq⟩⟩

theorem paired (h : σ.Equipped) (hσ : Refines σ n) (hi : n.Inv) : Paired σ n.ports :=
  hσ.paired hi (fun _ _ _ hp hn => h.releasable hσ hi hp hn) h.fits

-- Killing a port ends, whatever has become of the links that lead to others.
theorem exists_killport (h : σ.Equipped) (hσ : Refines σ n) (hi : n.Inv)
    (hp : σ.port a = some p) : ∃ σ', killport σ a = some σ' := by
  by_cases hn : p.isPermanent
  case pos =>
    have ⟨σ', hr, _⟩ := (hσ.listed hi).exists_resetport h.fits hp
    exact ⟨σ', by simp [killport, killportFrom, hp, hn, hr]⟩
  case neg =>
    have hr := (hi.role <| hσ.node_eq hp).isPermanent_or
    have ha := (hr.resolve_left fun hr => hn hr.left).right.left
    exact ((h.paired hσ hi).exists_killport ha hp hn).imp fun _ => And.left

end State.Equipped

-- In every state of a run, the connections on the list can be killed.
theorem paired_of_run (h : start env cfg = some σ₀) (hr : Run env σ₀ steps σ) :
    Paired σ σ.ports := by
  have ⟨n, hσ, hi, _⟩ := consistent_run h hr
  rw [hσ.ports_eq hi]
  exact (equipped_of_run h hr).paired hσ hi

end Kill

end Proxy
