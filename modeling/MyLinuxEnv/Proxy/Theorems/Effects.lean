import MyLinuxEnv.Proxy.Effects
import MyLinuxEnv.Proxy.Theorems.Broadcast

open Memory

namespace Proxy

variable {env : Env} {K K' : Cause → Prop} {σ σ' σ'' : State} {a b s : Addr} {fd : Int}

section Routes

variable {b : Addr}

theorem Route.mono (h : Route K σ b) (hK : ∀ {c}, K c → K' c) : Route K' σ b := by
  cases h
  case peer hk hp hb          => exact .peer (hK hk) hp hb
  case remote hk hr           => exact .remote (hK hk) hr
  case client hk hq hc        => exact .client (hK hk) hq hc
  case rscript hk hs hb       => exact .rscript (hK hk) hs hb
  case lscript hk hs hb hq hm => exact .lscript (hK hk) hs hb hq hm
  case startup hk ht hb       => exact .startup (hK hk) ht hb

theorem Route.of_peer (hk : K .peer) (h : (σ.port a).bind (·.peer) = some b) : Route K σ b := by
  have ⟨_, hp, hb⟩ := Option.bind_eq_some_iff.mp h
  exact .peer hk hp hb

-- A route only depends on the ports and on whether telnet is negotiated.
theorem Route.congr (h : Route K σ b) (hp : σ'.port = σ.port) (hr : σ'.rPorts = σ.rPorts)
    (ht : σ'.telnetNegotiation = σ.telnetNegotiation) : Route K σ' b := by
  cases h
  case peer hk ha hb          => exact .peer hk (hp ▸ ha) hb
  case remote hk hrem         => exact .remote hk fun q hq => hr ▸ hrem q (hp ▸ hq)
  case client hk hq hc        => exact .client hk (hp ▸ hq) hc
  case rscript hk hs hb       => exact .rscript hk (hp ▸ hs) hb
  case lscript hk hs hb hq hm => exact .lscript hk (hp ▸ hs) hb (hp ▸ hq) hm
  case startup hk hact hl     => exact .startup hk (ht ▸ hact) fun q hq => hl q (hp ▸ hq)

theorem Primitive.mono (h : Primitive env K σ σ') (hK : ∀ {c}, K c → K' c) :
    Primitive env K' σ σ' := by
  cases h
  case still h               => exact .still h
  case write hb h            => exact .write hb <| h.mono hK
  case serialBreak hb h      => exact .serialBreak hb <| h.mono hK
  case connect               => exact .connect
  case fill h                => exact .fill h
  case relink hk h hb        => exact .relink hk h hb
  case attachLocal hs        => exact .attachLocal hs
  case attachRemote hb       => exact .attachRemote hb
  case bind hk ha hlt hb hp  => exact .bind hk ha hlt hb hp
  case chain hk              => exact .chain (hK hk)
  case head hk               => exact .head (hK hk)
  case scan                  => exact .scan
  case flush                 => exact .flush
  case fifo hb hi            => exact .fifo hb hi
  case negotiate hp ht       => exact .negotiate hp ht
  case create hk hs h        => exact .create (hK hk) hs h
  case select h              => exact .select h
  case close hp hc h         => exact .close hp hc h
  case free h                => exact .free h
  case accept hp hm hl hf hs => exact .accept hp hm hl hf hs
  case call hp hm hl hf hs   => exact .call hp hm hl hf hs
  case reopen hk hp hm hf hs => exact .reopen (hK hk) hp hm hf hs
  case listen hp hc ht hl    => exact .listen hp hc ht hl
  case await hp hc ht hl     => exact .await hp hc ht hl

end Routes

namespace Still

theorem refl (σ : State) : Still σ σ :=
  ⟨rfl, rfl, rfl, rfl, rfl, rfl, rfl, rfl, rfl, rfl, rfl, rfl, rfl⟩

theorem trans (h : Still σ σ') (h' : Still σ' σ'') : Still σ σ'' :=
  ⟨h'.port.trans h.port, h'.clientNext.trans h.clientNext, h'.fresh.trans h.fresh,
    h'.lPorts.trans h.lPorts, h'.rPorts.trans h.rPorts, h'.listenFd.trans h.listenFd,
    h'.fifoConFd.trans h.fifoConFd, h'.masterRds.trans h.masterRds, h'.gdb.trans h.gdb,
    h'.telnet.trans h.telnet, h'.fifoBuf.trans h.fifoBuf, h'.fifoIdx.trans h.fifoIdx,
    h'.trace.trans h.trace⟩

theorem refresh (h : refreshNsockhandle σ = some σ') : Still σ σ' := by
  have ⟨_, _, h⟩ := Option.bind_eq_some_iff.mp h
  cases h
  exact ⟨rfl, rfl, rfl, rfl, rfl, rfl, rfl, rfl, rfl, rfl, rfl, rfl, rfl⟩

theorem modify {f : Port → Port} (h : Still σ σ') : Still (σ.modify a f) (σ'.modify a f) :=
  ⟨by rw [State.modify, State.modify, h.port], h.clientNext, h.fresh, h.lPorts, h.rPorts,
    h.listenFd, h.fifoConFd, h.masterRds, h.gdb, h.telnet, h.fifoBuf, h.fifoIdx, h.trace⟩

end Still

theorem fdSet_eq (h : σ.fdSet fd = some σ') :
    (0 ≤ fd ∧ fd < 1024) ∧ σ' = { σ with masterRds := σ.masterRds.insert fd } := by
  simp only [State.fdSet] at h
  split at h
  case isFalse    => contradiction
  case isTrue hfd => exact ⟨hfd, (Option.some.inj h).symm⟩

-- Closing a port leaves it without a handle, which is no longer selected.
theorem portclose_eq (h : portclose σ a = some σ') : ∃ p, σ.port a = some p ∧
    (p.portclose = none ∧ σ' = σ ∨ ∃ d rds, p.portclose = some d ∧
      rds = (if d = .usb then σ.masterRds else σ.masterRds.erase p.sock) ∧
      σ' = (({ σ with masterRds := rds } : State).log <| .close a).modify a
        ({ · with sock := -1 })) := by
  have ⟨p, hp, h⟩ := Option.bind_eq_some_iff.mp h
  refine ⟨p, hp, ?_⟩
  split at h
  case h_1 hd   => exact .inl ⟨hd, (Option.some.inj h).symm⟩
  case h_2 d hd =>
    refine .inr ⟨d, _, hd, rfl, ?_⟩
    rw [← Option.some.inj h]
    split <;> rfl

namespace Port.Keeps

variable {p p' p'' : Port}

theorem refl (p : Port) : p.Keeps p :=
  ⟨rfl, rfl, fun _ _ => id⟩

theorem isPermanent_eq (h : p.Keeps p') : p'.isPermanent = p.isPermanent := by
  simp [Port.isPermanent, h.cls]

theorem trans (h : p.Keeps p') (h' : p'.Keeps p'') : p.Keeps p'' where
  cls           := h'.cls.trans h.cls
  type          := h'.type.trans h.type
  peer b hc hb  := h'.peer b (h.isPermanent_eq ▸ hc) <| h.peer b hc hb

end Port.Keeps

-- No port has become another one: a port that is there has kept its kind, unless it is new. New
-- ports are no serial ports, without which telnet is not negotiated.
structure Kept (σ σ' : State) : Prop where
  fresh : σ.fresh ≤ σ'.fresh
  lPorts : σ'.lPorts = σ.lPorts
  rPorts : σ'.rPorts = σ.rPorts
  port : ∀ {a p'}, σ'.port a = some p' →
    (∃ p, σ.port a = some p ∧ p.Keeps p') ∨ σ.fresh ≤ a ∧ a < σ'.fresh ∧ p'.type ≠ some .rs232
  telnet : (∀ a p, σ.port a = some p → p.type ≠ some .rs232) →
    σ'.telnetNegotiation = σ.telnetNegotiation

namespace Kept

theorem kind {p' : Port} (h : Kept σ σ') (ha : a < σ.fresh) (hp : σ'.port a = some p') :
    ∃ p, σ.port a = some p ∧ p.Keeps p' :=
  (h.port hp).resolve_right fun hn => absurd ha <| Nat.not_lt.mpr hn.left

theorem serial (h : Kept σ σ') (hs : ∀ a p, σ.port a = some p → p.type ≠ some .rs232) (a : Addr)
    (p' : Port) (hp : σ'.port a = some p') : p'.type ≠ some .rs232 := by
  rcases h.port hp with ⟨p, hp, hk⟩ | ⟨_, _, ht⟩
  · exact hk.type ▸ hs a p hp
  · exact ht

theorem lt_fresh (h : Kept σ σ') (hl : ∀ a p, σ.port a = some p → a < σ.fresh) (a : Addr)
    (p' : Port) (hp : σ'.port a = some p') : a < σ'.fresh := by
  rcases h.port hp with ⟨p, hp, _⟩ | ⟨_, hlt, _⟩
  · exact Nat.lt_of_lt_of_le (hl a p hp) h.fresh
  · exact hlt

theorem of_port_eq (hp : σ'.port = σ.port) (hf : σ'.fresh = σ.fresh) (hl : σ'.lPorts = σ.lPorts)
    (hr : σ'.rPorts = σ.rPorts) (ht : σ'.telnetNegotiation = σ.telnetNegotiation) : Kept σ σ' where
  fresh         := Nat.le_of_eq hf.symm
  lPorts        := hl
  rPorts        := hr
  port {_ p'} h := .inl ⟨p', hp ▸ h, .refl p'⟩
  telnet _      := ht

theorem refl (σ : State) : Kept σ σ :=
  .of_port_eq rfl rfl rfl rfl rfl

theorem trans (h : Kept σ σ') (h' : Kept σ' σ'') : Kept σ σ'' where
  fresh     := Nat.le_trans h.fresh h'.fresh
  lPorts    := h'.lPorts.trans h.lPorts
  rPorts    := h'.rPorts.trans h.rPorts
  telnet hs := (h'.telnet <| h.serial hs).trans <| h.telnet hs
  port hp := by
    rcases h'.port hp with ⟨p', hp', hk'⟩ | ⟨hl, hlt, ht⟩
    case inr => exact .inr ⟨Nat.le_trans h.fresh hl, hlt, ht⟩
    case inl =>
      rcases h.port hp' with ⟨p, hp, hk⟩ | ⟨hl, hlt, ht⟩
      · exact .inl ⟨p, hp, hk.trans hk'⟩
      · exact .inr ⟨hl, Nat.lt_of_lt_of_le hlt h'.fresh, hk'.type ▸ ht⟩

theorem modify {f : Port → Port} (hf : ∀ p, σ.port a = some p → p.Keeps (f p)) :
    Kept σ (σ.modify a f) := by
  refine ⟨Nat.le_refl _, rfl, rfl, fun {b p'} hp => .inl ?_, fun _ => rfl⟩
  by_cases hb : b = a
  case neg => exact ⟨p', State.modify_port_of_ne hb ▸ hp, .refl p'⟩
  case pos =>
    rw [hb, State.modify_port_self] at hp
    have ⟨p, hp, he⟩ := Option.map_eq_some_iff.mp hp
    exact ⟨p, hb ▸ hp, he ▸ hf p hp⟩

-- Changes of a port, besides those of anything but the ports.
theorem of_modify {τ : State} {f : Port → Port} (hp : τ.port = σ.port) (hf : τ.fresh = σ.fresh)
    (hl : τ.lPorts = σ.lPorts) (hr : τ.rPorts = σ.rPorts)
    (ht : τ.telnetNegotiation = σ.telnetNegotiation)
    (hk : ∀ p : Port, p.Keeps (f p)) : Kept σ (τ.modify a f) :=
  (of_port_eq hp hf hl hr ht).trans <| modify fun p _ => hk p

theorem of_effect (h : Primitive env K σ σ') : Kept σ σ' := by
  cases h
  case still h        => exact .of_port_eq h.port h.fresh h.lPorts h.rPorts h.telnet
  case write          => exact .of_port_eq rfl rfl rfl rfl rfl
  case serialBreak    => exact .of_port_eq rfl rfl rfl rfl rfl
  case connect        => exact .of_port_eq rfl rfl rfl rfl rfl
  case fill h         =>
    exact .modify fun p hp => by rw [(h p hp).eq]; exact ⟨rfl, rfl, fun _ _ => id⟩
  case relink hk _ _  => exact .modify hk
  case attachLocal    => exact .modify fun _ _ => ⟨rfl, rfl, fun _ _ => id⟩
  case attachRemote   => exact .modify fun _ _ => ⟨rfl, rfl, fun _ _ => id⟩
  case bind           => exact .modify fun _ _ => ⟨rfl, rfl, fun _ _ => id⟩
  case chain          => exact .of_port_eq rfl rfl rfl rfl rfl
  case head           => exact .modify fun _ _ => ⟨rfl, rfl, fun _ _ => id⟩
  case scan           => exact .of_port_eq rfl rfl rfl rfl rfl
  case flush          => exact .of_port_eq rfl rfl rfl rfl rfl
  case fifo           => exact .of_port_eq rfl rfl rfl rfl rfl
  case negotiate r p hp ht =>
    exact { refl σ with telnet := fun hs => absurd ht <| hs r p hp }
  case create hn =>
    refine ⟨Nat.le_succ _, rfl, rfl, fun {a p'} hp => ?_, fun _ => rfl⟩
    by_cases ha : a = σ.fresh
    case neg => exact .inl ⟨p', State.malloc_port_of_ne ha ▸ hp, .refl p'⟩
    case pos =>
      rw [ha, State.malloc_port_self] at hp
      cases hp
      exact .inr ⟨Nat.le_of_eq ha.symm, ha ▸ Nat.lt_succ_self _, hn.type⟩
  case select h       => rw [(fdSet_eq h).right]; exact .of_port_eq rfl rfl rfl rfl rfl
  case close h =>
    have ⟨p, _, hc⟩ := portclose_eq h
    rcases hc with ⟨_, he⟩ | ⟨_, _, _, _, he⟩
    · exact he ▸ .refl _
    · exact he ▸ .of_modify rfl rfl rfl rfl rfl fun _ => ⟨rfl, rfl, fun _ _ => id⟩
  case free a h =>
    refine ⟨Nat.le_refl _, rfl, rfl, fun {b p'} hp => ?_, fun _ => rfl⟩
    by_cases hb : b = a
    case neg => exact .inl ⟨p', State.free_port_of_ne hb ▸ hp, .refl p'⟩
    case pos => simp [hb] at hp
  case accept => exact .of_modify rfl rfl rfl rfl rfl fun _ => ⟨rfl, rfl, fun _ _ => id⟩
  case call   => exact .of_modify rfl rfl rfl rfl rfl fun _ => ⟨rfl, rfl, fun _ _ => id⟩
  case reopen => exact .of_modify rfl rfl rfl rfl rfl fun _ => ⟨rfl, rfl, fun _ _ => id⟩
  case listen => exact .of_modify rfl rfl rfl rfl rfl fun _ => ⟨rfl, rfl, fun _ _ => id⟩
  case await  => exact .of_modify rfl rfl rfl rfl rfl fun _ => ⟨rfl, rfl, fun _ _ => id⟩

theorem of_effects (h : Effects env K σ σ') : Kept σ σ' := by
  induction h
  case refl         => exact .refl σ
  case tail _ h ih => exact ih.trans <| of_effect h

end Kept

-- The ports that are left have kept their class.
def Akin (σ σ' : State) : Prop :=
  ∀ a p', σ'.port a = some p' → ∃ p, σ.port a = some p ∧ p'.cls = p.cls

namespace Akin

theorem refl (σ : State) : Akin σ σ :=
  fun _ p' hp' => ⟨p', hp', rfl⟩

theorem killFrame : KillFrame Akin where
  trans h h' a p'' hp := by
    have ⟨p', hp', hc'⟩ := h' a p'' hp
    have ⟨p, hp, hc⟩ := h a p' hp'
    exact ⟨p, hp, hc'.trans hc⟩
  idle h a p' hp := ⟨p', h.port ▸ hp, rfl⟩
  modify {f σ a} hf b p' hp := by
    by_cases hb : b = a
    case neg => exact ⟨p', State.modify_port_of_ne hb ▸ hp, rfl⟩
    case pos =>
      rw [hb, State.modify_port_self] at hp
      have ⟨p, hp, he⟩ := Option.map_eq_some_iff.mp hp
      exact ⟨p, hb ▸ hp, he ▸ (hf p).cls⟩
  free {σ a} b p' hp := by
    by_cases hb : b = a
    case neg => exact ⟨p', State.free_port_of_ne hb ▸ hp, rfl⟩
    case pos => simp [hb] at hp
  close _ p' hp := ⟨p', hp, rfl⟩

theorem not_isPermanent (h : Akin σ σ') (hc : ∀ p, σ.port a = some p → ¬p.isPermanent) :
    ∀ p, σ'.port a = some p → ¬p.isPermanent := by
  intro p' hp'
  have ⟨p, hp, hcls⟩ := h a p' hp'
  simpa [Port.isPermanent, hcls] using hc p hp

end Akin

-- Without a reason, there is no new port.
theorem fresh_of_effect (h : Primitive env K σ σ') (hK : ¬K .setup) : σ'.fresh = σ.fresh := by
  cases h
  case create hk _ _ => contradiction
  case still h     => exact h.fresh
  case select h    => rw [(fdSet_eq h).right]
  case close h     =>
    have ⟨p, _, hc⟩ := portclose_eq h
    rcases hc with ⟨_, he⟩ | ⟨_, _, _, _, he⟩ <;> rw [he]
    rfl
  all_goals rfl

namespace Effects

theorem refl (σ : State) : Effects env K σ σ :=
  Relation.ReflTransGen.refl

theorem trans (h : Effects env K σ σ') (h' : Effects env K σ' σ'') : Effects env K σ σ'' :=
  Relation.ReflTransGen.trans h h'

theorem of (h : Primitive env K σ σ') : Effects env K σ σ' :=
  .single h

theorem still (h : Still σ σ') : Effects env K σ σ' :=
  .of <| .still h

theorem mono (h : Effects env K σ σ') (hK : ∀ {c}, K c → K' c) : Effects env K' σ σ' :=
  Relation.ReflTransGen.mono (fun _ _ he => Primitive.mono he hK) _ _ h

-- A property of states holds after some effects if it held before, and none of them affects it.
theorem induct {P : State → Prop} (h : Effects env K σ σ') (hσ : P σ)
    (hP : ∀ {τ τ'}, Primitive env K τ τ' → P τ → P τ') : P σ' := by
  induction h
  case refl          => exact hσ
  case tail _ h' ih => exact hP h' ih

theorem tick (σ : State) (t : Nat) : Effects env K σ { σ with time := t } :=
  .still ⟨rfl, rfl, rfl, rfl, rfl, rfl, rfl, rfl, rfl, rfl, rfl, rfl, rfl⟩

theorem push (σ : State) (a : Addr) : Effects env K σ (σ.push a) :=
  .still ⟨rfl, rfl, rfl, rfl, rfl, rfl, rfl, rfl, rfl, rfl, rfl, rfl, rfl⟩

theorem setNext (σ : State) (a : Addr) (b : Option Addr) : Effects env K σ (σ.setNext a b) :=
  .still ⟨rfl, rfl, rfl, rfl, rfl, rfl, rfl, rfl, rfl, rfl, rfl, rfl, rfl⟩

theorem setClientNext (hK : K .roster) (σ : State) (a : Addr) (b : Option Addr) :
    Effects env K σ (σ.setClientNext a b) :=
  .of <| .chain hK

theorem refresh (h : refreshNsockhandle σ = some σ') : Effects env K σ σ' :=
  .still <| .refresh h

theorem fdSet (h : σ.fdSet fd = some σ') : Effects env K σ σ' :=
  .of <| .select h

theorem relink {f : Port → Port} (hk : ∀ p, σ.port a = some p → p.Keeps (f p))
    (h : ∀ p : Port, p.Relinks (f p))
    (hb : ∀ p b, (f p).peer = some b → p.peer = some b ∨ σ.Peerable b) :
    Effects env K σ (σ.modify a f) :=
  .of <| .relink hk h hb

section Kill

theorem swapBack_eq {handler : Handler} (h : swapBack σ a fd handler = some σ') :
    ∃ p, σ.port a = some p ∧ Still (σ.swap a p.sock fd handler) σ' := by
  have ⟨p, hp, h⟩ := Option.bind_eq_some_iff.mp h
  have ⟨σ₁, h₁, h⟩ := Option.bind_eq_some_iff.mp h
  have ⟨σ₂, h₂, he⟩ := Option.bind_eq_some_iff.mp h
  cases he
  exact ⟨p, hp, ((fdSet_eq h₁).right ▸ Still.refresh h₂ : Still _ σ₂).modify⟩

theorem swapBack_or {c : Prop} [Decidable c] {p : Port} {handler : Handler} {f : State → State}
    (hp : σ.port a = some p)
    (he : c → Primitive env K σ (f (σ.swap a p.sock fd handler)))
    (hf : ∀ {τ τ'}, Still τ τ' → Still (f τ) (f τ'))
    (h : (if c then (swapBack σ a fd handler).map f else some σ) = some σ') :
    Effects env K σ σ' := by
  split at h
  case isFalse => cases h; exact .refl σ
  case isTrue hc =>
    have ⟨τ, hs, h⟩ := Option.map_eq_some_iff.mp h
    have ⟨q, hq, hτ⟩ := swapBack_eq hs
    cases hp.symm.trans hq
    exact h ▸ (Effects.of <| he hc).trans (.still <| hf hτ)

theorem resetport {p : Port} (hp : σ.port a = some p) (hc : p.isPermanent)
    (h : resetport σ a = some σ') : Effects env K σ σ' := by
  have ⟨q, hq, h⟩ := Option.bind_eq_some_iff.mp h
  cases hp.symm.trans hq
  have ⟨σ₂, h₂, h₃⟩ := ite_bind_eq_some_iff.mp h
  dsimp only at h₂ h₃
  generalize hσ₁ : (if p.cls = some .remotePort ∧ p.isMaster then
    σ.modify a ({ · with peer := none }) else σ) = σ₁ at h₂
  -- The port is the same in all that matters, whether it has lost its peer or not.
  have ⟨h₁, p₁, hp₁, hc₁, ht₁, hs₁⟩ : Effects env K σ σ₁ ∧ ∃ p₁, σ₁.port a = some p₁ ∧
      p₁.isPermanent ∧ p₁.type = p.type ∧ p₁.sock = p.sock := by
    subst hσ₁
    split
    case isTrue  =>
      refine ⟨.relink (fun q hq => ?_) (fun _ => rfl) fun _ _ => nofun, { p with peer := none },
        by simp [hp], hc, rfl, rfl⟩
      cases hp.symm.trans hq
      exact ⟨rfl, rfl, fun _ hn => absurd hc hn⟩
    case isFalse => exact ⟨.refl σ, p, hp, hc, rfl, rfl⟩
  refine h₁.trans ?_
  have h₂' : Effects env K σ₁ σ₂ := by
    refine swapBack_or hp₁ (fun ht => ?_) (fun hs => ?_) h₂
    case refine_1 => exact .listen hp₁ hc₁ (ht₁.trans ht.left) ht.right
    case refine_2 =>
      exact ⟨hs.port, hs.clientNext, hs.fresh, hs.lPorts, hs.rPorts, rfl, hs.fifoConFd,
        hs.masterRds, hs.gdb, hs.telnet, hs.fifoBuf, hs.fifoIdx, hs.trace⟩
  refine h₂'.trans ?_
  have ⟨p₂, hp₂, hc₂, ht₂⟩ : ∃ p₂, σ₂.port a = some p₂ ∧ p₂.isPermanent ∧ p₂.type = p.type := by
    split at h₂
    case isFalse => cases h₂; exact ⟨p₁, hp₁, hc₁, ht₁⟩
    case isTrue  =>
      have ⟨τ, hs, he⟩ := Option.map_eq_some_iff.mp h₂
      have ⟨q, hq, hτ⟩ := swapBack_eq hs
      cases hp₁.symm.trans hq
      refine ⟨{ p₁ with sock := σ₁.listenFd, readMessage := some .remotePortAccept }, ?_, hc₁, ht₁⟩
      rw [← he]
      exact (congrFun hτ.port a).trans <| by simp [State.swap, hp₁]
  refine swapBack_or hp₂ (fun ht => ?_) (fun hs => ?_) h₃
  case refine_1 => exact .await hp₂ hc₂ (ht₂.trans ht.left) ht.right
  case refine_2 =>
    exact ⟨hs.port, hs.clientNext, hs.fresh, hs.lPorts, hs.rPorts, hs.listenFd, rfl, hs.masterRds,
      hs.gdb, hs.telnet, hs.fifoBuf, hs.fifoIdx, hs.trace⟩

theorem releaseScript (h : releaseScript σ a = some σ') : Effects env K σ σ' := by
  have ⟨p, _, h⟩ := Option.bind_eq_some_iff.mp h
  split at h
  case h_1 => cases h; exact .refl σ
  case h_2 =>
    have ⟨sp, _, h⟩ := Option.bind_eq_some_iff.mp h
    split at h
    case isFalse => cases h; exact .refl σ
    case isTrue  =>
      have ⟨_, _, h⟩ := Option.bind_eq_some_iff.mp h
      have ⟨r, _, h⟩ := Option.bind_eq_some_iff.mp h
      cases h
      split
      case isTrue  => exact .refl σ
      case isFalse =>
        exact .relink (fun _ _ => ⟨rfl, rfl, fun _ _ => id⟩) (fun _ => rfl) fun _ _ => .inl

theorem closeport {kill : State → Addr → Option State}
    (hk : ∀ {τ τ' b}, kill τ b = some τ' → Effects env K τ τ' ∧ Akin τ τ')
    (hc : ∀ p, σ.port a = some p → ¬p.isPermanent) (h : closeport kill σ a = some σ') :
    Effects env K σ σ' := by
  have ⟨σ₁, h₁, h⟩ := Option.bind_eq_some_iff.mp h
  have ⟨p₁, hp₁, h⟩ := Option.bind_eq_some_iff.mp h
  have ⟨p, hp, _⟩ := Option.bind_eq_some_iff.mp h₁
  refine (Effects.of <| .close hp (hc p hp) h₁).trans ?_
  have hc₁ := (Akin.killFrame.portclose h₁).not_isPermanent hc
  split at h
  case h_1   => cases h; exact .of <| .free hc₁
  case h_2 b =>
    have ⟨q, _, h⟩ := Option.bind_eq_some_iff.mp h
    have ⟨σ₂, h₂, h⟩ := ite_bind_eq_some_iff.mp h
    have ⟨hm, ha⟩ : Effects env K σ₁ σ₂ ∧ Akin σ₁ σ₂ := by
      split at h₂
      case isTrue  => cases h₂; exact ⟨.refl σ₁, .refl σ₁⟩
      case isFalse => exact hk h₂
    cases h
    exact hm.trans <| .of <| .free <| ha.not_isPermanent hc₁

theorem unlinkport {kill : State → Addr → Option State}
    (hk : ∀ {τ τ' b}, kill τ b = some τ' → Effects env K τ τ' ∧ Akin τ τ')
    (hc : ∀ p, σ.port a = some p → ¬p.isPermanent) (h : unlinkport kill σ a = some σ') :
    Effects env K σ σ' := by
  simp only [Proxy.unlinkport] at h
  split at h
  case h_1       => cases h; exact .refl σ
  case h_2 first =>
    split at h
    case isTrue =>
      have hi : Effects env K σ { σ with rports := σ.next a } :=
        .still ⟨rfl, rfl, rfl, rfl, rfl, rfl, rfl, rfl, rfl, rfl, rfl, rfl, rfl⟩
      exact hi.trans <| closeport hk hc h
    case isFalse =>
      obtain ⟨q, _, h⟩ := Option.bind_eq_some_iff.mp h
      split at h
      case h_1 => cases h; exact .refl σ
      case h_2 prev _ =>
        obtain ⟨σ₁, h₁, h⟩ := Option.bind_eq_some_iff.mp h
        have hs : Effects env K (σ.setNext prev (σ.next a)) σ₁ := closeport hk hc h₁
        exact (setNext σ prev _).trans <| hs.trans <| refresh h

theorem killportFrom {fuel : Nat} (h : killportFrom fuel σ a = some σ') : Effects env K σ σ' := by
  induction fuel generalizing σ σ' a
  case zero => contradiction
  case succ fuel hi =>
    have ⟨p, hp, h⟩ := Option.bind_eq_some_iff.mp h
    split at h
    case isTrue hc  => exact resetport hp hc h
    case isFalse hc =>
      have ⟨σ₁, h₁, h⟩ := Option.bind_eq_some_iff.mp h
      have hc₁ := (Akin.killFrame.releaseScript h₁).not_isPermanent (a := a) fun q hq => by
        cases hp.symm.trans hq
        exact hc
      exact (releaseScript h₁).trans <|
        unlinkport (fun h => ⟨hi h, Akin.killFrame.killportFrom h⟩) hc₁ h

theorem killport (h : killport σ a = some σ') : Effects env K σ σ' :=
  killportFrom h

theorem killScriptClient {next : Option Addr} (hK : K .roster)
    (h : killScriptClient σ s a = some (next, σ')) : Effects env K σ σ' := by
  have ⟨sp, _, h⟩ := Option.bind_eq_some_iff.mp h
  have ⟨prev, _, h⟩ := Option.bind_eq_some_iff.mp h
  have ⟨p, _, h⟩ := Option.bind_eq_some_iff.mp h
  have ⟨σ₁, h₁, h⟩ := ite_bind_eq_some_iff.mp h
  have ⟨σ₂, hk, h⟩ := Option.bind_eq_some_iff.mp h
  have hm : Effects env K σ σ₁ := by
    split at h₁
    case isTrue  => cases h₁; exact .of <| .head hK
    case isFalse =>
      have ⟨b, _, h₁⟩ := Option.map_eq_some_iff.mp h₁
      exact h₁ ▸ setClientNext hK σ b _
  cases h
  exact hm.trans <| killport hk

end Kill

section Ports

variable {got : Int}

theorem portread {size : Nat} (hs : size ≤ IO_BUFSIZE)
    (h : portread env σ a size = some (got, σ')) : Effects env K σ σ' := by
  have ⟨p, _, h⟩ := Option.bind_eq_some_iff.mp h
  have ⟨d, _, h⟩ := Option.bind_eq_some_iff.mp h
  dsimp only at h
  split at h
  case h_1 => cases h; exact .tick σ _
  case h_2 data _ =>
    cases h
    refine (tick σ _).trans <| .of <| .fill fun p _ => ⟨rfl, fun hp => ?_⟩
    simp only [List.length_append, List.length_drop, List.length_take, hp]
    omega

theorem portwrite {mem : List Byte} {size : Int} (ha : Route K σ a)
    (h : portwrite env σ a mem size = some (got, σ')) : Effects env K σ σ' := by
  have ⟨p, hp, h⟩ := Option.bind_eq_some_iff.mp h
  have ⟨d, _, h⟩ := Option.bind_eq_some_iff.mp h
  split at h
  case isTrue  => cases h; exact .refl σ
  case isFalse => cases h; exact .of <| .write (by simp [hp]) ha

end Ports

section Telnet

-- Removing the options does not change the length of a buffer.
theorem length_run (ctrlC : Bool) (count i : Nat) (s : Iac) :
    (Iac.run ctrlC count i s).buf.length = s.buf.length := by
  induction count generalizing i s
  case zero => rfl
  case succ hi =>
    refine (hi ..).trans ?_
    simp only [Iac.step]
    repeat' split
    all_goals simp

-- Effects that leave the ports alone, and with them all routes.
structure Sends (env : Env) (K : Cause → Prop) (σ σ' : State) : Prop where
  effects : Effects env K σ σ'
  port : σ'.port = σ.port
  rPorts : σ'.rPorts = σ.rPorts
  telnet : σ'.telnetNegotiation = σ.telnetNegotiation

theorem Sends.trans (h : Sends env K σ σ') (h' : Sends env K σ' σ'') : Sends env K σ σ'' :=
  ⟨h.effects.trans h'.effects, h'.port.trans h.port, h'.rPorts.trans h.rPorts,
    h'.telnet.trans h.telnet⟩

theorem Sends.refl (σ : State) : Sends env K σ σ :=
  ⟨.refl σ, rfl, rfl, rfl⟩

theorem Sends.route (h : Sends env K σ σ') (hb : Route K σ b) : Route K σ' b :=
  hb.congr h.port h.rPorts h.telnet

theorem Sends.portwrite {mem : List Byte} {size got : Int} (ha : Route K σ a)
    (h : Proxy.portwrite env σ a mem size = some (got, σ')) : Sends env K σ σ' := by
  refine ⟨Effects.portwrite ha h, ?_, ?_, ?_⟩
  all_goals
    have ⟨p, _, h⟩ := Option.bind_eq_some_iff.mp h
    have ⟨d, _, h⟩ := Option.bind_eq_some_iff.mp h
    split at h <;> cases h <;> rfl

theorem Sends.sendSpecialBreak {str : List Byte} (ha : Route K σ a)
    (h : sendSpecialBreak env str σ a = some σ') : Sends env K σ σ' := by
  fun_induction Proxy.sendSpecialBreak env str σ a
  case case1 => cases h; exact .refl _
  case case2 =>
    obtain ⟨⟨_, _⟩, hw, h⟩ := Option.bind_eq_some_iff.mp h
    cases h
    exact .portwrite ha hw
  case case3 σ _ hi₁ hi₂ =>
    obtain ⟨p, hp, h⟩ := Option.bind_eq_some_iff.mp h
    split at h
    case isTrue  =>
      have hb : Sends env K σ (σ.log _) := ⟨.of <| .serialBreak (by simp [hp]) ha, rfl, rfl, rfl⟩
      exact hb.trans <| hi₁ (hb.route ha) h
    case isFalse =>
      obtain ⟨⟨got, σ₁⟩, hw, h⟩ := Option.bind_eq_some_iff.mp h
      have hw := Sends.portwrite ha hw
      dsimp only at h
      split at h
      case isTrue  => cases h; exact hw
      case isFalse => exact hw.trans <| hi₂ _ (hw.route ha) h

-- A loop whose iterations leave the ports alone.
theorem Sends.foldlM {α : Type} {f : State → α → Option State} {l : List α} {τ : State}
    (hf : ∀ {τ τ' x}, Sends env K σ τ → f τ x = some τ' → Sends env K τ τ')
    (hτ : Sends env K σ τ) (h : l.foldlM f τ = some σ') : Sends env K σ σ' := by
  induction l generalizing τ
  case nil => cases h; exact hτ
  case cons hi =>
    have ⟨τ₁, h₁, h⟩ := Option.bind_eq_some_iff.mp h
    exact hi (hτ.trans <| hf hτ h₁) h

theorem Sends.iacStartup (ha : Route K σ a) (h : iacStartup env σ a = some σ') :
    Sends env K σ σ' := by
  refine Sends.foldlM (fun hτ h => ?_) (.refl σ) h
  have ⟨⟨_, _⟩, hw, h⟩ := Option.bind_eq_some_iff.mp h
  cases h
  exact .portwrite (hτ.route ha) hw

-- The options in what a client has sent request breaks on the remote side of the script connection,
-- and those of any other connection breaks on its peer.
theorem negotiate {active : Bool} {got k : Nat} {p : Port} (hp : σ.port a = some p)
    (hK : active → if p.readMessage = some .scriptClientPort then K .script else K .peer)
    (h : negotiate env active σ a got = some (k, σ')) : Effects env K σ σ' := by
  simp only [Proxy.negotiate] at h
  split at h
  case isFalse => cases h; exact .refl σ
  case isTrue hact =>
    have hK := hK hact
    obtain ⟨q, hq, h⟩ := Option.bind_eq_some_iff.mp h
    cases hp.symm.trans hq
    obtain ⟨c, _, h⟩ := Option.bind_eq_some_iff.mp h
    obtain ⟨σ₁, hb, h⟩ := Option.bind_eq_some_iff.mp h
    cases h
    refine Effects.trans (.of <| .fill fun q hq => ⟨rfl, fun hl => ?_⟩) <|
      (Sends.foldlM (fun hτ h => ?_) (.refl _) hb).effects
    case refine_1 =>
      cases hp.symm.trans hq
      exact (length_run ..).trans hl
    case refine_2 =>
      obtain ⟨⟨b, str⟩, ht, h⟩ := Option.bind_eq_some_iff.mp h
      refine .sendSpecialBreak ?_ h
      simp only [breakTarget] at ht
      split at ht
      case isTrue hm =>
        rw [if_pos hm] at hK
        obtain ⟨s, _, ht⟩ := Option.bind_eq_some_iff.mp ht
        obtain ⟨sp, hsp, ht⟩ := Option.bind_eq_some_iff.mp ht
        obtain ⟨r, hr, ht⟩ := Option.bind_eq_some_iff.mp ht
        cases ht
        exact .rscript hK hsp hr
      case isFalse hm =>
        rw [if_neg hm] at hK
        obtain ⟨r, hr, ht⟩ := Option.bind_eq_some_iff.mp ht
        cases ht
        refine .of_peer (a := a) hK ?_
        rw [hτ.port, State.modify_port_self, hp]
        exact hr

end Telnet

section Script

variable {n : Net} {xs ys : List Addr} {mem : List Byte} {bytes : Nat}

-- Killing ports does not write anything.
theorem killFrame_writes : KillFrame fun σ σ' => σ'.writes = σ.writes where
  trans h h' := h'.trans h
  idle h     := by rw [State.writes, State.writes, h.trace]
  modify _   := rfl
  free       := rfl
  close      := writes_of_close rfl

theorem clients_of_killed {n' : Net} (h : n.Killed a n') : n'.clients = n.clients := by
  cases h <;> rfl

-- Where the loop over the clients goes on after one of them has been killed.
theorem disowned {next : Option Addr} (h : Refines σ n) (hi : n.Inv) (hs : n.script = some s)
    (hl : n.clients = xs ++ a :: ys) (hk : Proxy.killScriptClient σ s a = some (next, σ')) :
    next = ys.head? ∧
      ∃ n', Refines σ' n' ∧ n'.Inv ∧ n'.script = some s ∧ n'.clients = xs ++ ys := by
  have ⟨sp, hp, hk⟩ := Option.bind_eq_some_iff.mp hk
  have ⟨prev, hprev, hk⟩ := Option.bind_eq_some_iff.mp hk
  have ⟨p, hpa, hk⟩ := Option.bind_eq_some_iff.mp hk
  have ⟨σ₁, h₁, hk⟩ := ite_bind_eq_some_iff.mp hk
  have ⟨σ₂, hk, he⟩ := Option.bind_eq_some_iff.mp hk
  cases he
  have hc := h.clients hs hp
  refine ⟨(hl ▸ hc).suffix.tail.head?_eq, ?_⟩
  have h₁ : Refines σ₁ (n.disown a) := by
    split at h₁
    case isTrue hsc  => cases h₁; exact h.disown_head hs hp hsc
    case isFalse hsc =>
      have ⟨q, hq, h₁⟩ := Option.map_eq_some_iff.mp h₁
      rcases mem_of_prevClient hc hprev with ⟨_, hsc'⟩ | ⟨b, xs, ys, hb, hl⟩
      · contradiction
      · cases hq.symm.trans hb
        exact h₁ ▸ h.disown_next hs hp hl
  have ⟨n', hk, h'⟩ := killport_refines h₁ hi.disown hk
  refine ⟨n', h', hi.disown.of_killed hk, (hk.script_eq hi.disown).trans hs, ?_⟩
  rw [clients_of_killed hk, Net.disown, hl]
  exact (hl ▸ hc).filter_ne

-- Every client is written to once, whatever becomes of it.
theorem writeClients {fuel : Nat} (hK : ∀ b, K (.client b)) (hR : K .roster) (h : Refines σ n)
    (hi : n.Inv) (hs : n.script = some s) (hl : n.clients = xs ++ ys)
    (hw : writeClients env s mem bytes fuel σ ys.head? = some σ') :
    Effects env K σ σ' ∧ σ'.writes = σ.writes ++ ys.map (·, mem.take bytes) := by
  induction fuel generalizing σ n xs ys
  case zero => contradiction
  case succ fuel hf =>
    cases ys
    case nil => cases hw; exact ⟨.refl _, by simp⟩
    case cons i ys =>
      have ⟨⟨got, σ₁⟩, hw₁, hw⟩ := Option.bind_eq_some_iff.mp hw
      have ⟨q, hq, _⟩ := Option.bind_eq_some_iff.mp hw₁
      have hx := h.node_eq hq
      have hc := (hi.clients i <| by simp [hl]).right _ hx
      have hd := (hi.role hx).portwrite_of_client hc
      have he : Effects env K σ σ₁ := portwrite (.client (hK i) hq hc) hw₁
      have hwr : σ₁.writes = σ.writes ++ [(i, mem.take bytes)] := by
        rw [portwrite_of_tcp hq hd] at hw₁
        cases hw₁
        exact writes_of_write rfl
      have h₁ := quiet_of_portwrite hw₁ |>.refines h
      dsimp only at hw
      split at hw
      case isTrue =>
        have ⟨⟨next, σ₂⟩, hk, hw⟩ := Option.bind_eq_some_iff.mp hw
        have ⟨hn, n', h₂, hi₂, hs₂, hl₂⟩ := disowned h₁ hi hs hl hk
        have ⟨he', hws⟩ := hf h₂ hi₂ hs₂ hl₂ <| hn ▸ hw
        refine ⟨he.trans <| (killScriptClient hR hk).trans he', ?_⟩
        rw [hws, killFrame_writes.killScriptClient hk, hwr]
        simp
      case isFalse =>
        have ⟨q', hq', hw⟩ := Option.bind_eq_some_iff.mp hw
        have ⟨sp, hsp, _⟩ : ∃ sp, σ₁.port s = some sp ∧ sp.cls = some .scriptPort := by
          have ⟨y, hy, hcls⟩ := hi.sPort s hs
          have ⟨sp, hsp, hnode⟩ := h₁.exists_port hy
          exact ⟨sp, hsp, (congrArg Node.cls hnode).trans hcls⟩
        have hn : σ₁.clientNext i = ys.head? := (hl ▸ h₁.clients hs hsp).suffix.tail.head?_eq
        have ⟨he', hws⟩ := hf h₁ hi hs (hl.trans <| List.append_cons ..) <| hn ▸ hw
        exact ⟨he.trans he', by rw [hws, hwr]; simp⟩

theorem deliver (hK : ∀ b, K (.client b)) (hR : K .roster) (h : Refines σ n) (hi : n.Inv)
    (hs : n.script = some s) (hd : deliver env σ s mem bytes = some σ') :
    Effects env K σ σ' ∧ σ'.writes = σ.writes ++ n.clients.map (·, mem.take bytes) := by
  have ⟨sp, hsp, hd⟩ := Option.bind_eq_some_iff.mp hd
  have ⟨σ₁, hw, hd⟩ := Option.bind_eq_some_iff.mp hd
  have ⟨_, _, hd⟩ := Option.bind_eq_some_iff.mp hd
  have hc := (h.clients hs hsp).head?_eq
  have hl : n.clients = [] ++ n.clients := rfl
  have ⟨he, hws⟩ := writeClients hK hR h hi hs hl (hc ▸ hw)
  cases hd
  split
  case isTrue  => exact ⟨he.trans <| .of .flush, hws⟩
  case isFalse => exact ⟨he, hws⟩

-- All clients are offered the same buffer, or none.
theorem writeScriptClients (hK : ∀ b, K (.client b)) (hR : K .roster) (h : Refines σ n) (hi : n.Inv)
    (hs : n.script = some s) (hw : writeScriptClients env σ s mem bytes = some σ') :
    Effects env K σ σ' ∧ ∃ bufs : List (List Byte),
      σ'.writes = σ.writes ++ bufs.flatMap fun buf => n.clients.map (·, buf) := by
  obtain ⟨sp, hsp, hw⟩ := Option.bind_eq_some_iff.mp hw
  split at hw
  case isFalse =>
    obtain ⟨he, hws⟩ := deliver hK hR h hi hs hw
    exact ⟨he, [mem.take bytes], hws.trans <| by simp⟩
  case isTrue  =>
    have h₁ := (Quiet.gdb σ (σ.gdb.scan <| mem.take bytes).1).refines h
    dsimp only at hw
    split at hw
    case isFalse => cases hw; exact ⟨.of .scan, [], by simp [State.writes]⟩
    case isTrue  =>
      obtain ⟨he, hws⟩ := deliver hK hR h₁ hi hs hw
      refine ⟨(of .scan).trans he, [(σ.gdb.scan <| mem.take bytes).1.arr], hws.trans ?_⟩
      simp [State.writes]

theorem writeUSBScriptClients (hK : ∀ b, K (.client b)) (hR : K .roster) (h : Refines σ n)
    (hi : n.Inv) (hs : n.script = some s) (hw : writeUSBScriptClients env σ s mem bytes = some σ') :
    Effects env K σ σ' ∧ ∃ bufs : List (List Byte),
      σ'.writes = σ.writes ++ bufs.flatMap fun buf => n.clients.map (·, buf) := by
  simp only [Proxy.writeUSBScriptClients] at hw
  split at hw
  case h_1 => cases hw; exact ⟨.refl σ, [], by simp⟩
  case h_2 =>
    obtain ⟨he, hws⟩ := deliver hK hR h hi hs hw
    exact ⟨he, [_], hws.trans <| by rw [List.flatMap_singleton]⟩

end Script

end Effects

end Proxy
