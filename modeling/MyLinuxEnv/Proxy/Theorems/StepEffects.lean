import MyLinuxEnv.Proxy.Theorems.Effects
import MyLinuxEnv.Proxy.Theorems.Reachable

open Memory

namespace Proxy

variable {env : Env} {K : Cause → Prop} {σ σ' : State} {n : Net} {a b s : Addr} {p : Port}

theorem Kept.remote (h : Kept σ σ') (hb : b < σ.fresh) (hr : σ.Remote b) : σ'.Remote b := by
  intro q' hq'
  have ⟨q, hq, hk⟩ := h.kind hb hq'
  refine (hr q hq).imp (fun ho => ?_) (·.trans h.rPorts.symm)
  exact ⟨hk.cls.trans ho.left, hk.type.trans ho.right⟩

theorem Kept.local (h : Kept σ σ') (ha : a < σ.fresh) (hl : σ.Local a) : σ'.Local a := by
  intro q' hq'
  have ⟨q, hq, hk⟩ := h.kind ha hq'
  exact ⟨hk.cls.trans (hl q hq).left, hk.type.trans (hl q hq).right⟩

theorem Net.Role.cls_of_client_handler {x : Node} (h : n.Role a x)
    (hm : x.readMessage = some .scriptClientPort) : x.cls = some .scriptClient := by
  cases h <;> simp_all

theorem Net.Role.cls_of_local_handler {x : Node} (h : n.Role a x)
    (hm : x.readMessage = some .localPort) : x.cls = some .localPort := by
  cases h <;> simp_all

theorem Refines.lt_fresh (h : Refines σ n) (hi : n.Inv) (hp : σ.port a = some p) : a < σ.fresh :=
  h.fresh ▸ hi.lt_fresh a (Net.live_iff.mpr ⟨p.node, h.node_eq hp⟩)

theorem Refines.peerable (h : Refines σ n) (hi : n.Inv) (hp : σ.port a = some p)
    (hc : p.cls = some .localPort) : σ.Peerable a := by
  refine ⟨h.lt_fresh hi hp, fun q hq => ?_⟩
  cases hp.symm.trans hq
  simp [hc]

-- The remote port.
def State.Rooted (σ : State) : Prop :=
  σ.rPorts < σ.fresh ∧ ∀ q, σ.port σ.rPorts = some q → q.cls = some .remotePort

theorem Refines.rooted (h : Refines σ n) (hi : n.Inv) : σ.Rooted := by
  have ⟨x, hx, hc⟩ := hi.rPort
  have ⟨r, hr, he⟩ := h.exists_port hx
  rw [← h.rPorts] at hr
  refine ⟨h.lt_fresh hi hr, fun q hq => ?_⟩
  cases hr.symm.trans hq
  exact (congrArg Node.cls he).trans hc

theorem Kept.rooted (h : Kept σ σ') (hr : σ.Rooted) : σ'.Rooted := by
  rw [State.Rooted, h.rPorts]
  refine ⟨Nat.lt_of_lt_of_le hr.left h.fresh, fun q' hq' => ?_⟩
  have ⟨q, hq, hk⟩ := h.kind hr.left hq'
  exact hk.cls.trans <| hr.right q hq

theorem Net.Role.remote_of_handler {x : Node} (h : n.Role a x)
    (hm : x.readMessage = some .localPort) : x.remote = some n.rPorts := by
  cases h <;> simp_all

theorem Kept.peerable (h : Kept σ σ') (hb : σ.Peerable b) : σ'.Peerable b := by
  refine ⟨Nat.lt_of_lt_of_le hb.left h.fresh, fun q' hq' => ?_⟩
  have ⟨q, hq, hk⟩ := h.kind hb.left hq'
  exact hk.cls ▸ hk.type ▸ hb.right q hq

-- A connection that has got a peer is linked to it from then on.
theorem Kept.peer (h : Kept σ σ') (ha : a < σ.fresh) (hl : σ.Local a)
    (hb : ∀ p, σ.port a = some p → p.peer = some b) :
    ∀ p', σ'.port a = some p' → p'.peer = some b := by
  intro p' hp'
  have ⟨p, hp, hk⟩ := h.kind ha hp'
  exact hk.peer b (by simp [Port.isPermanent, (hl p hp).left]) (hb p hp)

theorem State.Rooted.isPermanent {r : Port} (h : σ.Rooted) (hr : σ.port σ.rPorts = some r) :
    r.isPermanent := by
  simp [Port.isPermanent, h.right r hr]

-- A request to connect changes no port but the remote one.
theorem openRemotePort_port_of_ne {r : Option Addr} {c : Addr} (hp : σ.port a = some p)
    (hm : p.remote = some σ.rPorts) (hc : c < σ.fresh) (hr : c ≠ σ.rPorts)
    (h : openRemotePort env σ a = some (r, σ')) : σ'.port c = σ.port c := by
  have ⟨q, hq, h⟩ := Option.bind_eq_some_iff.mp h
  cases hp.symm.trans hq
  have ⟨remote, hrem, h⟩ := Option.bind_eq_some_iff.mp h
  cases hrem.symm.trans hm
  have ⟨x, _, h⟩ := Option.bind_eq_some_iff.mp h
  have hcf : c ≠ σ.fresh := Nat.ne_of_lt hc
  have hatt {res : Option Addr}
      (h : some (res, σ.modify σ.rPorts ({ · with peer := some a })) = some (r, σ')) :
      σ'.port c = σ.port c := by
    cases h
    exact State.modify_port_of_ne hr
  split at h
  case h_2 => exact hatt h
  case h_3 => exact hatt h
  case h_4 => exact hatt h
  case h_5 => cases h; rfl
  case h_1 =>
    dsimp only at h
    split at h
    case isTrue  =>
      cases h
      exact (State.free_port_of_ne hcf).trans <| State.malloc_port_of_ne hcf
    case isFalse =>
      split at h
      case isTrue  =>
        cases h
        exact (State.free_port_of_ne hcf).trans <| State.malloc_port_of_ne hcf
      case isFalse =>
        have ⟨σ₂, h₂, h⟩ := Option.bind_eq_some_iff.mp h
        have ⟨σ₃, h₃, h⟩ := Option.bind_eq_some_iff.mp h
        cases h
        have hp₃ : σ'.port = σ₂.port := by rw [(fdSet_eq h₃).right]
        rw [hp₃, (Still.refresh h₂).port]
        exact (State.modify_port_of_ne hcf).trans <| State.malloc_port_of_ne hcf

namespace Effects

section Local

-- What a request to connect to the remote side yields.
theorem openRemotePort {r : Option Addr} (hK : K .setup) (ha : σ.Peerable a)
    (hp : σ.port a = some p)
    (hm : p.remote = some σ.rPorts) (hr : σ.Rooted)
    (h : openRemotePort env σ a = some (r, σ')) :
    Effects env K σ σ' ∧ ∀ b, r = some b → σ'.Remote b ∧ σ'.Peerable b := by
  obtain ⟨q, hq, h⟩ := Option.bind_eq_some_iff.mp h
  cases hp.symm.trans hq
  obtain ⟨remote, hrem, h⟩ := Option.bind_eq_some_iff.mp h
  cases hrem.symm.trans hm
  obtain ⟨x, hx, h⟩ := Option.bind_eq_some_iff.mp h
  -- A remote port that is attached to is the peer itself.
  have hatt (ht : x.type.any (·.hasDriver))
      (h : some (some σ.rPorts, σ.modify σ.rPorts ({ · with peer := some a })) = some (r, σ')) :
      Effects env K σ σ' ∧ ∀ b, r = some b → σ'.Remote b ∧ σ'.Peerable b := by
    cases h
    have he : Effects env K σ (σ.modify σ.rPorts ({ · with peer := some a })) :=
      relink (fun _ hq => ⟨rfl, rfl, fun _ hn => absurd (hr.isPermanent hq) hn⟩) (fun _ => rfl)
        fun _ b hb => .inr <| Option.some.inj hb ▸ ha
    have hpeer : σ.Peerable σ.rPorts := by
      refine ⟨hr.left, fun q hq => ?_⟩
      cases hx.symm.trans hq
      simp [hr.right x hx, ht]
    refine ⟨he, fun b hb => ?_⟩
    cases hb
    exact ⟨fun _ _ => .inr rfl, (Kept.of_effects he).peerable hpeer⟩
  split at h
  case h_2 ht => exact hatt (by simp [ht, PortType.hasDriver]) h
  case h_3 ht => exact hatt (by simp [ht, PortType.hasDriver]) h
  case h_4 ht => exact hatt (by simp [ht, PortType.hasDriver]) h
  case h_5 => cases h; exact ⟨.refl σ, by simp⟩
  case h_1 ht =>
    let p : Port := {
      readMessage := some .remotePort, portclose := some .tcp, portread := some .tcp,
      portwrite := some .tcp, sock := env.socket σ.time }
    let σ₁ := { σ with time := σ.time + 1 }.malloc p
    have hp : p.IsNew :=
      ⟨.inr <| .inl ⟨rfl, rfl⟩, .inl rfl, rfl, rfl, rfl, rfl, rfl, rfl, by simp [p], rfl, rfl⟩
    have h₁ : Effects env K σ σ₁ :=
      (tick σ _).trans <| .of <| .create (t := 0) hK (.inr <| by simp [hx, ht]) hp
    have hnew {q : Port} (hq : σ₁.port σ.fresh = some q) : q = p :=
      (Option.some.inj <| State.malloc_port_self.symm.trans hq).symm
    have hfree : Effects env K σ₁ (σ₁.free σ.fresh) :=
      .of <| .free fun q hq => by simp [hnew hq, Port.isPermanent, p]
    dsimp only at h
    split at h
    case isTrue  => cases h; exact ⟨h₁.trans hfree, by simp⟩
    case isFalse =>
      split at h
      case isTrue  => cases h; exact ⟨h₁.trans <| hfree.trans <| tick _ _, by simp⟩
      case isFalse =>
        obtain ⟨σ₂, h₂, h⟩ := Option.bind_eq_some_iff.mp h
        obtain ⟨σ₃, h₃, h⟩ := Option.bind_eq_some_iff.mp h
        cases h
        have h₄ : Effects env K σ₁ σ' := by
          refine (tick _ _).trans <| (relink ?_ ?_ ?_).trans <| (push _ _).trans <|
            (refresh h₂).trans <| fdSet h₃
          case refine_1 => exact fun q hq => hnew hq ▸ ⟨rfl, rfl, by simp [p]⟩
          case refine_2 => exact fun _ => rfl
          case refine_3 =>
            intro _ b hb
            exact .inr <| Option.some.inj hb ▸ (Kept.of_effects (K := K) h₁).peerable ha
        have hlt : σ.fresh < σ₁.fresh := Nat.lt_succ_self _
        have hk := Kept.of_effects h₄
        refine ⟨h₁.trans h₄, fun b hb => ?_⟩
        cases hb
        refine ⟨hk.remote hlt fun q hq => ?_, hk.peerable ⟨hlt, fun q hq => ?_⟩⟩
        case refine_1 => exact hnew hq ▸ .inl ⟨rfl, rfl⟩
        case refine_2 => simp [hnew hq, p]

theorem bindScript {l : Addr} (hab : ∀ p, σ.port a = some p → p.peer = some b) (ha : σ.Local a)
    (hal : a < σ.fresh) (hb : σ.Remote b) (hbp : σ.Peerable b)
    (h : bindScript σ l a b = some σ') : Effects env K σ σ' := by
  have ⟨p, _, h⟩ := Option.bind_eq_some_iff.mp h
  split at h
  case h_1   => cases h; exact .refl σ
  case h_2 s _ =>
    have ⟨sp, hsp, h⟩ := Option.bind_eq_some_iff.mp h
    split at h
    case isTrue  => cases h; exact .refl σ
    case isFalse =>
      cases h
      let σ₁ := σ.modify a ({ · with scriptRef := some s, mode := sp.lmode })
      let σ₂ := σ₁.modify b ({ · with scriptRef := some s, mode := sp.rmode })
      have h₁ : Primitive env K σ σ₁ := .attachLocal hsp
      have h₂ : Primitive env K σ₁ σ₂ := .attachRemote <| (Kept.of_effect h₁).remote hbp.left hb
      have hk := (Kept.of_effect h₁).trans (.of_effect h₂)
      exact (of h₁).trans <| (of h₂).trans <| .of <|
        .bind (hk.peer hal ha hab) (hk.local hal ha) (Nat.lt_of_lt_of_le hal hk.fresh)
          (hk.remote hbp.left hb) (hk.peerable hbp)

theorem localPortAccept (hK : K .startup ∧ K .setup) (hp : σ.port a = some p)
    (hm : p.remote = some σ.rPorts) (hr : σ.Rooted)
    (h : localPortAccept env σ a = some σ') : Effects env K σ σ' := by
  obtain ⟨l, hl, h⟩ := Option.bind_eq_some_iff.mp h
  cases hp.symm.trans hl
  obtain ⟨⟨res, σ₁⟩, ho, h⟩ := Option.bind_eq_some_iff.mp h
  let q : Port := {
    readMessage := some .remotePort, portclose := some .tcp, portread := some .tcp,
    portwrite := some .tcp, sock := env.accept σ.time, type := some .tcp, remote := p.remote }
  have hq : q.IsNew :=
    ⟨.inl ⟨rfl, rfl⟩, .inl rfl, rfl, rfl, rfl, rfl, rfl, rfl, by simp [q], rfl, rfl⟩
  let σ₀ := { σ with time := σ.time + 1 }.malloc q
  have h₀ : Effects env K σ σ₀ := (tick σ _).trans <| .of <| .create hK.right (.inl rfl) hq
  have hlt : σ.fresh < σ₀.fresh := Nat.lt_succ_self _
  have hnew {x : Port} (hx : σ₀.port σ.fresh = some x) : x = q :=
    (Option.some.inj <| State.malloc_port_self.symm.trans hx).symm
  have hl₀ : σ₀.Local σ.fresh := fun x hx => hnew hx ▸ ⟨rfl, rfl⟩
  have hp₀ : σ₀.Peerable σ.fresh := ⟨hlt, fun x hx => by simp [hnew hx, q]⟩
  obtain ⟨h₁, hres⟩ : Effects env K σ₀ σ₁ ∧ ∀ b, res = some b → σ₁.Remote b ∧ σ₁.Peerable b :=
    openRemotePort hK.right hp₀ State.malloc_port_self hm ((Kept.of_effects h₀).rooted hr) ho
  have hk₁ := Kept.of_effects h₁
  have hl₁ := hk₁.local hlt hl₀
  have hlt₁ := Nat.lt_of_lt_of_le hlt hk₁.fresh
  -- The new connection has no peer yet.
  have hq₀ : σ₀.port σ.fresh = some q := State.malloc_port_self
  have hq₁ : σ₁.port σ.fresh = some q :=
    (openRemotePort_port_of_ne hq₀ hm hlt (Nat.ne_of_gt hr.left) ho).trans hq₀
  refine h₀.trans <| h₁.trans ?_
  cases res
  case none =>
    cases h
    refine .of <| .free fun x hx => ?_
    simp [Port.isPermanent, (hl₁ x hx).left]
  case some peer =>
    obtain ⟨hrem, hpeer⟩ := hres peer rfl
    obtain ⟨σ₂, h₂, h⟩ := Option.bind_eq_some_iff.mp h
    obtain ⟨σ₃, h₃, h⟩ := Option.bind_eq_some_iff.mp h
    obtain ⟨l', _, h⟩ := Option.bind_eq_some_iff.mp h
    obtain ⟨remote, _, h⟩ := Option.bind_eq_some_iff.mp h
    obtain ⟨r, hr, h⟩ := Option.bind_eq_some_iff.mp h
    obtain ⟨σ₄, h₄, h⟩ := ite_bind_eq_some_iff.mp h
    have hkeep (x : Port) (hx : σ₁.port σ.fresh = some x) :
        x.Keeps { x with peer := some peer } := by
      cases hq₁.symm.trans hx
      exact ⟨rfl, rfl, by simp [q]⟩
    have hm₁ : Effects env K σ₁ (σ₁.modify σ.fresh ({ · with peer := some peer })) :=
      relink hkeep (fun _ => rfl) fun _ b hb => .inr <| Option.some.inj hb ▸ hpeer
    have h₂₃ : Effects env K (σ₁.modify σ.fresh ({ · with peer := some peer })) σ₃ :=
      (push _ _).trans <| (refresh h₂).trans <| fdSet h₃
    have h₁₃ := hm₁.trans h₂₃
    have h₃₄ : Effects env K σ₃ σ₄ := by
      split at h₄
      case isTrue ht =>
        refine (of <| .negotiate hr ht).trans <| (Sends.iacStartup ?_ h₄).effects
        exact .startup hK.left rfl <| (Kept.of_effects h₁₃).local hlt₁ hl₁
      case isFalse => cases h₄; exact .refl σ₃
    have hk := Kept.of_effects <| h₁₃.trans h₃₄
    have hpeer₄ := (Kept.of_effects <| h₂₃.trans h₃₄).peer hlt₁
      ((Kept.of_effects hm₁).local hlt₁ hl₁) fun x hx => by
        rw [State.modify_port_self, hq₁] at hx
        cases hx
        rfl
    exact h₁₃.trans <| h₃₄.trans <| bindScript hpeer₄ (hk.local hlt₁ hl₁)
      (Nat.lt_of_lt_of_le hlt₁ hk.fresh) (hk.remote hpeer.left hrem) (hk.peerable hpeer) h

theorem localPortForward (hK : K .remote ∧ K .setup) (ha : σ.Peerable a) (hp : σ.port a = some p)
    (hc : p.isPermanent) (hm : p.remote = some σ.rPorts) (hr : σ.Rooted)
    (h : localPortForward env σ a = some σ') : Effects env K σ σ' := by
  have ⟨⟨res, σ₁⟩, ho, h⟩ := Option.bind_eq_some_iff.mp h
  have ⟨h₀, hres⟩ := openRemotePort hK.right ha hp hm hr ho
  refine h₀.trans ?_
  cases res
  case none =>
    have ⟨⟨_, _⟩, hr, h⟩ := Option.bind_eq_some_iff.mp h
    cases h
    exact portread (Nat.le_refl _) hr
  case some peer =>
    have ⟨⟨got, σ₂⟩, hr, h⟩ := Option.bind_eq_some_iff.mp h
    have ⟨hrem, hpeer⟩ := hres peer rfl
    have hkeep (x : Port) (hx : σ₁.port a = some x) : x.Keeps { x with peer := some peer } := by
      have ⟨_, hp', hk⟩ := (Kept.of_effects h₀).kind ha.left hx
      cases hp.symm.trans hp'
      exact ⟨rfl, rfl, fun _ hn => absurd (hk.isPermanent_eq ▸ hc) hn⟩
    have h₁ : Effects env K σ₁ (σ₁.modify a ({ · with peer := some peer })) :=
      relink hkeep (fun _ => rfl) fun _ b hb => .inr <| Option.some.inj hb ▸ hpeer
    have h₂ := h₁.trans <| portread (Nat.le_refl _) hr
    refine h₂.trans ?_
    have ⟨l, hl, h⟩ := Option.bind_eq_some_iff.mp h
    split at h
    case isTrue  => contradiction
    case isFalse =>
      have ⟨b, hb, h⟩ := Option.bind_eq_some_iff.mp h
      have ⟨⟨_, _⟩, hw, h⟩ := Option.bind_eq_some_iff.mp h
      cases h
      -- The peer is the one that has just been set.
      have ⟨l', hl', he, _⟩ := (quiet_of_portread hr).symm.exists_port hl
      rw [State.modify_port_self] at hl'
      have ⟨_, _, hpl⟩ := Option.map_eq_some_iff.mp hl'
      have hlb : l.peer = some peer := (congrArg Node.peer he).symm.trans <| hpl ▸ rfl
      cases hb.symm.trans hlb
      exact portwrite (.remote hK.left <| (Kept.of_effects h₂).remote hpeer.left hrem) hw

theorem localPortReadMessage (hK : K .startup ∧ K .remote ∧ K .setup) (ha : σ.Peerable a)
    (hp : σ.port a = some p) (hc : p.isPermanent) (hm : p.remote = some σ.rPorts) (hr : σ.Rooted)
    (h : localPortReadMessage env σ a = some σ') : Effects env K σ σ' := by
  have ⟨l, _, h⟩ := Option.bind_eq_some_iff.mp h
  split at h
  case h_1 => exact localPortAccept ⟨hK.left, hK.right.right⟩ hp hm hr h
  case h_2 => exact localPortForward hK.right ha hp hc hm hr h
  case h_3 => exact localPortForward hK.right ha hp hc hm hr h
  case h_4 => cases h; exact .refl σ

end Local

section ScriptPort

theorem scriptPortReadMessage (hK : K (.client σ.fresh) ∧ K .script ∧ K .setup ∧ K .roster)
    (hs : s < σ.fresh)
    (h : scriptPortReadMessage env σ s = some σ') : Effects env K σ σ' := by
  have ⟨sp, hsp, h⟩ := Option.bind_eq_some_iff.mp h
  split at h
  case isTrue  => cases h; exact .refl σ
  case isFalse =>
    have ⟨σ₂, h₂, h⟩ := Option.bind_eq_some_iff.mp h
    have ⟨σ₃, h₃, h⟩ := Option.bind_eq_some_iff.mp h
    have ⟨σ₄, h₄, h⟩ := ite_bind_eq_some_iff.mp h
    let q : Port := {
      readMessage := some .scriptClientPort, portclose := some .tcp, portread := some .tcp,
      portwrite := some .tcp, sock := env.accept σ.time, type := some .tcp,
      cls := some .scriptClient, scriptRef := some s }
    have hq : q.IsNew :=
      ⟨.inr <| .inr rfl, .inr rfl, rfl, rfl, rfl, rfl, rfl, rfl, (nomatch ·), rfl, rfl⟩
    let σ₁ := (({ σ with time := σ.time + 1 }.malloc q).setClientNext σ.fresh sp.clients).modify s
      ({ · with clients := some σ.fresh })
    have h₀₁ : Effects env K σ σ₁ :=
      (tick σ _).trans <| (of <| .create hK.right.right.left (.inl rfl) hq).trans <|
        (setClientNext hK.right.right.right _ _ _).trans <| .of <| .head hK.right.right.right
    have h₁₃ : Effects env K σ₁ σ₃ := (push _ _).trans <| (refresh h₂).trans <| fdSet h₃
    have hport : σ₃.port = σ₁.port := by
      have hp₂ := (Still.refresh h₂).port
      rw [(fdSet_eq h₃).right, hp₂]
      rfl
    have h₃₄ : Sends env K σ₃ σ₄ := by
      split at h₄
      case isTrue =>
        refine .iacStartup (.client (q := q) hK.left ?_ rfl) h₄
        rw [hport]
        exact (State.modify_port_of_ne <| Ne.symm <| Nat.ne_of_lt hs).trans State.malloc_port_self
      case isFalse => cases h₄; exact .refl σ₃
    refine h₀₁.trans <| h₁₃.trans <| h₃₄.effects.trans ?_
    split at h
    case h_1 => cases h; exact .refl σ'
    case h_2 r hr =>
      split at h
      case isFalse => cases h; exact .refl σ'
      case isTrue  =>
        have hs₄ : σ₄.port s = some { sp with clients := some σ.fresh } := by
          rw [h₃₄.port, hport]
          refine State.modify_port_self.trans <| (Option.map_eq_some_iff.mpr ⟨sp, ?_, rfl⟩)
          exact (State.malloc_port_of_ne <| Nat.ne_of_lt hs).trans hsp
        exact (Sends.sendSpecialBreak (.rscript hK.right.left hs₄ hr) h).effects

theorem writeScript {side : Option Addr} {got : Nat} {r : Option Nat}
    (hK : ∀ b q, side = some b → σ.port b = some q → q.mode &&& SCRIPT_WRITE ≠ 0 → Route K σ b)
    (h : writeScript env σ a side got = some (r, σ')) : Effects env K σ σ' := by
  cases side
  case none => cases h; exact .refl σ
  case some b =>
    have ⟨q, hq, h⟩ := Option.bind_eq_some_iff.mp h
    split at h
    case isTrue     => cases h; exact .refl σ
    case isFalse hm =>
      have ⟨p, _, h⟩ := Option.bind_eq_some_iff.mp h
      have ⟨⟨k, σ₁⟩, hw, h⟩ := Option.bind_eq_some_iff.mp h
      refine (portwrite (hK b q rfl hq hm) hw).trans ?_
      dsimp only at h
      split at h
      case isTrue =>
        have ⟨_, hk, h⟩ := Option.bind_eq_some_iff.mp h
        cases h
        exact killport hk
      case isFalse => cases h; exact .refl σ'

theorem scriptClientPortReadMessage {failed : Bool} (hK : K .script ∧ K .roster)
    (hm : σ.handler a = some .scriptClientPort)
    (h : scriptClientPortReadMessage env σ a = some (failed, σ')) : Effects env K σ σ' := by
  obtain ⟨⟨got, σ₁⟩, hr, h⟩ := Option.bind_eq_some_iff.mp h
  refine (portread (Nat.le_refl _) hr).trans ?_
  obtain ⟨p, hp, h⟩ := Option.bind_eq_some_iff.mp h
  obtain ⟨s, _, h⟩ := Option.bind_eq_some_iff.mp h
  have hm₁ : p.readMessage = some .scriptClientPort := by
    obtain ⟨p₀, hp₀, he, _⟩ := (quiet_of_portread hr).symm.exists_port hp
    simp only [State.handler, hp₀, Option.bind_some] at hm
    exact (congrArg Node.readMessage he).symm.trans hm
  dsimp only at h
  split at h
  case isTrue =>
    obtain ⟨⟨_, _⟩, hk, h⟩ := Option.bind_eq_some_iff.mp h
    cases h
    exact killScriptClient hK.right hk
  case isFalse =>
    obtain ⟨⟨k, σ₂⟩, hn, h⟩ := Option.bind_eq_some_iff.mp h
    refine (negotiate hp (fun _ => by rw [if_pos hm₁]; exact hK.left) hn).trans ?_
    dsimp only at h
    split at h
    case isTrue  => cases h; exact .refl σ'
    case isFalse =>
      obtain ⟨sp, hsp, h⟩ := Option.bind_eq_some_iff.mp h
      split at h
      case isTrue  => cases h; exact .refl σ'
      case isFalse =>
        obtain ⟨⟨r, σ₃⟩, hw, h⟩ := Option.bind_eq_some_iff.mp h
        refine (writeScript (fun b q hb hq _ => .rscript hK.left hsp hb) hw).trans ?_
        cases r
        case none => cases h; exact .refl σ'
        case some k' =>
          obtain ⟨sp', hsp', h⟩ := Option.bind_eq_some_iff.mp h
          obtain ⟨⟨_, _⟩, hw', h⟩ := Option.bind_eq_some_iff.mp h
          cases h
          exact writeScript (fun b q hb hq hm => .lscript hK.left hsp' hb hq hm) hw'

end ScriptPort

section Remote

theorem writePeer {got : Nat} {ok : Bool} (hK : K .peer)
    (h : writePeer env σ a got = some (ok, σ')) : Effects env K σ σ' := by
  have ⟨p, hp, h⟩ := Option.bind_eq_some_iff.mp h
  split at h
  case h_1 => cases h; exact .refl σ
  case h_2 hb =>
    have ⟨q, _, h⟩ := Option.bind_eq_some_iff.mp h
    split at h
    case isTrue  => cases h; exact .refl σ
    case isFalse =>
      have ⟨⟨k, σ₁⟩, hw, h⟩ := Option.bind_eq_some_iff.mp h
      cases h
      exact portwrite (.peer hK hp hb) hw

-- What follows a successful read from a connection, up to the write to its peer.
theorem negotiate_of_handler {active : Bool} {got : Int} {size k : Nat} {σ₁ : State}
    (hK : K .peer) (hm : σ.handler a ≠ some .scriptClientPort)
    (hr : Proxy.portread env σ a size = some (got, σ₁))
    (h : Proxy.negotiate env active σ₁ a got.toNat = some (k, σ')) : Effects env K σ₁ σ' := by
  have ⟨p, hp, _⟩ := Option.bind_eq_some_iff.mp hr
  have ⟨p₁, hp₁, he, _⟩ := (quiet_of_portread hr).exists_port hp
  refine negotiate hp₁ (fun _ => ?_) h
  rw [if_neg]
  · exact hK
  · rw [State.handler, hp, Option.bind_some] at hm
    exact fun hm₁ => hm <| (congrArg Node.readMessage he).symm.trans hm₁

theorem remotePort_reads {r : Bool} (h : Proxy.remotePortReadMessage env σ a = some (r, σ')) :
    Reads env σ a σ' := by
  have ⟨⟨got, σ₁⟩, hr, h⟩ := Option.bind_eq_some_iff.mp h
  dsimp only at h
  split at h
  case isTrue hg =>
    have ⟨_, hk, h⟩ := Option.bind_eq_some_iff.mp h
    cases h
    exact .nothing hr hg (.inr hk)
  case isFalse hg =>
    have ⟨⟨k, σ₂⟩, hn, h⟩ := Option.bind_eq_some_iff.mp h
    dsimp only at h
    split at h
    case isTrue hk  => cases h; exact .options hr (Int.not_le.mp hg) (hk ▸ hn)
    case isFalse hk =>
      have ⟨⟨ok, σ₃⟩, hw, h⟩ := Option.bind_eq_some_iff.mp h
      refine .data hr (Int.not_le.mp hg) hn hk hw ?_
      dsimp only at h
      split at h
      case isTrue =>
        have ⟨_, hk, h⟩ := Option.bind_eq_some_iff.mp h
        cases h
        exact .kill hk
      case isFalse =>
        have ⟨p, hp, h⟩ := Option.bind_eq_some_iff.mp h
        split at h
        case h_1      => cases h; exact .rest
        case h_2 s hs =>
          split at h
          case isTrue  => cases h; exact .rest
          case isFalse =>
            have ⟨_, hws, h⟩ := Option.bind_eq_some_iff.mp h
            cases h
            exact .broadcast hp hs hws

theorem remoteUSBPort_reads (h : Proxy.remoteUSBPortReadMessage env σ a = some σ') :
    Reads env σ a σ' := by
  have ⟨⟨got, σ₁⟩, hr, h⟩ := Option.bind_eq_some_iff.mp h
  dsimp only at h
  split at h
  case isFalse hg =>
    have hg := Int.not_lt.mp hg
    split at h
    case isTrue  => exact .nothing hr hg (.inr h)
    case isFalse => cases h; exact .nothing hr hg (.inl rfl)
  case isTrue hg =>
    have ⟨⟨k, σ₂⟩, hn, h⟩ := Option.bind_eq_some_iff.mp h
    dsimp only at h
    split at h
    case isTrue hk  => cases h; exact .options hr hg (hk ▸ hn)
    case isFalse hk =>
      have ⟨⟨ok, σ₃⟩, hw, h⟩ := Option.bind_eq_some_iff.mp h
      refine .data hr hg hn hk hw ?_
      dsimp only at h
      split at h
      case isTrue  => exact .kill h
      case isFalse =>
        have ⟨p, hp, h⟩ := Option.bind_eq_some_iff.mp h
        split at h
        case h_1      => cases h; exact .rest
        case h_2 s hs => exact .print hp hs h

-- In the end, all clients are offered the same buffer, or none.
theorem concludes (h : Concludes env σ a σ') (hK : ∀ b, K (.client b)) (hR : K .roster)
    (hσ : Refines σ n) (hi : n.Inv) : Effects env K σ σ' ∧ ∃ bufs : List (List Byte),
      σ'.writes = σ.writes ++ bufs.flatMap fun buf => n.clients.map (·, buf) := by
  cases h
  case rest               => exact ⟨.refl σ, [], by simp⟩
  case kill h             => exact ⟨killport h, [], by simp [killFrame_writes.killport h]⟩
  case broadcast hp hs h  =>
    exact writeScriptClients hK hR hσ hi (hσ.script_of_scriptRef hi hp hs) h
  case print hp hs h      =>
    exact writeUSBScriptClients hK hR hσ hi (hσ.script_of_scriptRef hi hp hs) h

-- The network is the same up to the end.
theorem refines_of_writePeer {size k k' : Nat} {got : Int} {act ok : Bool} {σ₁ σ₂ σ₃ : State}
    (hr : Proxy.portread env σ a size = some (got, σ₁))
    (hn : Proxy.negotiate env act σ₁ a k = some (k', σ₂))
    (hw : Proxy.writePeer env σ₂ a k' = some (ok, σ₃)) (hσ : Refines σ n) : Refines σ₃ n :=
  (quiet_of_writePeer hw).refines <| (quiet_of_negotiate hn).refines <|
    (quiet_of_portread hr).refines hσ

theorem reads (h : Reads env σ a σ') (hK : K .peer ∧ (∀ b, K (.client b)) ∧ K .roster)
    (hσ : Refines σ n) (hi : n.Inv) (hm : σ.handler a ≠ some .scriptClientPort) :
    Effects env K σ σ' := by
  cases h
  case nothing hr _ h =>
    refine (portread (Nat.le_refl _) hr).trans ?_
    exact h.elim (fun he => he ▸ .refl _) killport
  case options hr _ hn =>
    exact (portread (Nat.le_refl _) hr).trans <| negotiate_of_handler hK.left hm hr hn
  case data hr _ hn _ hw hc =>
    exact (portread (Nat.le_refl _) hr).trans <| (negotiate_of_handler hK.left hm hr hn).trans <|
      (writePeer hK.left hw).trans
        (concludes hc hK.right.left hK.right.right (refines_of_writePeer hr hn hw hσ) hi).left

theorem outOfBand {failed : Bool} (hK : K .peer) (h : outOfBand env σ a = some (failed, σ')) :
    Effects env K σ σ' := by
  have ⟨⟨got, σ₁⟩, hr, h⟩ := Option.bind_eq_some_iff.mp h
  refine (portread (by decide) hr).trans ?_
  dsimp only at h
  split at h
  case isTrue =>
    have ⟨_, hk, h⟩ := Option.bind_eq_some_iff.mp h
    cases h
    exact killport hk
  case isFalse =>
    have ⟨p, hp, h⟩ := Option.bind_eq_some_iff.mp h
    have ⟨b, hb, h⟩ := Option.bind_eq_some_iff.mp h
    have ⟨⟨k, σ₂⟩, hw, h⟩ := Option.bind_eq_some_iff.mp h
    refine (portwrite (.peer hK hp hb) hw).trans ?_
    dsimp only at h
    split at h
    case isTrue =>
      have ⟨_, hk, h⟩ := Option.bind_eq_some_iff.mp h
      cases h
      exact killport hk
    case isFalse => cases h; exact .refl σ'

end Remote

section Fifo

-- A handle is replaced first, and then the function that reads from it.
theorem swap_of_modify {τ τ' σ₁ σ₂ : State} {old fd : Int} (handler : Handler) (hs : Still τ τ')
    (h₁ : ((τ'.modify a ({ · with sock := fd })).fdClr old).fdSet fd = some σ₁)
    (h₂ : refreshNsockhandle σ₁ = some σ₂) : (0 ≤ fd ∧ fd < 1024) ∧
      Still (τ.swap a old fd handler) (σ₂.modify a ({ · with readMessage := some handler })) := by
  have ⟨hfd, hσ₁⟩ := fdSet_eq h₁
  subst hσ₁
  have h := Still.refresh h₂
  refine ⟨hfd, ?_, h.clientNext.trans hs.clientNext, h.fresh.trans hs.fresh,
    h.lPorts.trans hs.lPorts, h.rPorts.trans hs.rPorts, h.listenFd.trans hs.listenFd,
    h.fifoConFd.trans hs.fifoConFd, ?_, h.gdb.trans hs.gdb, h.telnet.trans hs.telnet,
    h.fifoBuf.trans hs.fifoBuf, h.fifoIdx.trans hs.fifoIdx, h.trace.trans hs.trace⟩
  case refine_1 =>
    simp only [State.modify, State.swap, h.port, State.fdClr, Function.update_self,
      Function.update_idem, Option.map_map, hs.port]
    rfl
  case refine_2 =>
    refine h.masterRds.trans ?_
    simp only [State.fdClr, State.modify, State.swap, hs.masterRds]

theorem remotePortAccept (hm : σ.handler a = some .remotePortAccept)
    (h : remotePortAccept env σ a = some σ') : Effects env K σ σ' := by
  obtain ⟨p, hp, h⟩ := Option.bind_eq_some_iff.mp h
  rw [State.handler, hp, Option.bind_some] at hm
  dsimp only at h
  split at h
  case isTrue  => cases h; exact tick σ _
  case isFalse =>
    split at h
    case isFalse   => cases h; exact tick σ _
    case isTrue hl =>
      obtain ⟨σ₁, h₁, h⟩ := Option.bind_eq_some_iff.mp h
      obtain ⟨σ₂, h₂, he⟩ := Option.bind_eq_some_iff.mp h
      have hs : Still { σ with listenFd := p.sock }
          { σ with time := σ.time + 1, listenFd := p.sock } :=
        ⟨rfl, rfl, rfl, rfl, rfl, rfl, rfl, rfl, rfl, rfl, rfl, rfl, rfl⟩
      obtain ⟨hfd, hs⟩ := swap_of_modify .remotePort hs h₁ h₂
      cases he
      exact (of <| .accept hp hm hl hfd.left hfd.right).trans <| .still hs

theorem fifoConnect (hm : σ.handler a = some .remotePortFifoCon)
    (h : fifoConnect env σ a = some σ') : Effects env K σ σ' := by
  obtain ⟨p, hp, h⟩ := Option.bind_eq_some_iff.mp h
  rw [State.handler, hp, Option.bind_some] at hm
  have ht : Effects env K σ { σ with time := σ.time + 1, fifoIdx := 0 } :=
    (of <| .fifo rfl (by decide)).trans <| tick { σ with fifoIdx := 0 } _
  dsimp only at h
  split at h
  case isTrue  => cases h; exact ht
  case isFalse =>
    let σ₀ : State := ({ σ with time := σ.time + 1, fifoIdx := 0 } : State).log <|
      .connect <| atoi σ.fifoBuf % 2 ^ 16
    have hl : Effects env K σ σ₀ := ht.trans <| .of .connect
    split at h
    case isTrue  => cases h; exact hl
    case isFalse =>
      refine hl.trans ?_
      split at h
      case isFalse   => cases h; exact .refl _
      case isTrue hc =>
        obtain ⟨σ₁, h₁, h⟩ := Option.bind_eq_some_iff.mp h
        obtain ⟨σ₂, h₂, he⟩ := Option.bind_eq_some_iff.mp h
        obtain ⟨hfd, hs⟩ := swap_of_modify .remotePort (.refl { σ₀ with fifoConFd := p.sock }) h₁ h₂
        cases he
        exact (of <| .call (σ := σ₀) hp hm hc hfd.left hfd.right).trans <| .still hs

theorem exists_of_reopened {ev : Event} (hr : reopened env σ ev = some fd) :
    ∃ t, env.openFifo t = fd := by
  simp only [reopened] at hr
  split at hr
  case h_2 => contradiction
  case h_1 a =>
    have ⟨_, hr⟩ := Option.ite_none_right_eq_some.mp hr
    split at hr
    case h_1 => contradiction
    case h_2 => exact ⟨_, Option.some.inj hr⟩

theorem swap_of_reopened (hr : reopened env σ (.ready a) = some fd)
    (h : Proxy.remotePortFifoConRead env σ a = some σ') :
    ∃ p, σ.port a = some p ∧ p.readMessage = some .remotePortFifoCon ∧
      fd = env.openFifo (σ.time + 1) ∧ (0 ≤ fd ∧ fd < 1024) ∧
      Still (σ.swap a p.sock fd .remotePortFifoCon) σ' := by
  have ⟨p, hp, h⟩ := Option.bind_eq_some_iff.mp h
  simp only [reopened, State.handler, hp, Option.bind_some] at hr
  split at hr
  case isFalse   => contradiction
  case isTrue hm =>
    dsimp only at h
    split at h
    case h_1 he => simp [he] at hr
    case h_2 hn =>
      split at hr
      case h_1 he => exact absurd he (hn _ _)
      case h_2 =>
        cases hr
        split at h
        case isTrue  => contradiction
        case isFalse =>
          have ⟨σ₁, h₁, h₂⟩ := Option.bind_eq_some_iff.mp h
          have ⟨hfd, hσ₁⟩ := fdSet_eq h₁
          refine ⟨p, hp, hm, rfl, hfd, Still.trans ?_ <| .refresh h₂⟩
          subst hσ₁
          refine ⟨?_, rfl, rfl, rfl, rfl, rfl, rfl, rfl, rfl, rfl, rfl, rfl, rfl⟩
          simp only [State.swap, State.modify, State.fdClr, hp, Option.map_some, ← hm]

theorem remotePortFifoConRead (hK : (reopened env σ (.ready a)).isSome → K .reopen)
    (hm : σ.handler a = some .remotePortFifoCon)
    (h : remotePortFifoConRead env σ a = some σ') : Effects env K σ σ' := by
  cases hr : reopened env σ (.ready a)
  case some fd =>
    obtain ⟨p, hp, hm, he, hfd, hs⟩ := swap_of_reopened hr h
    subst he
    exact (of <| .reopen (hK <| by simp [hr]) hp hm hfd.left hfd.right).trans <| .still hs
  obtain ⟨p, hp, h⟩ := Option.bind_eq_some_iff.mp h
  refine (tick σ (σ.time + 1)).trans ?_
  dsimp only at h
  split at h
  case h_1 c cs hr =>
    obtain ⟨σ₁, h₁, h⟩ := ite_bind_eq_some_iff.mp h
    have h₁ : Effects env K { σ with time := σ.time + 1 } σ₁ := by
      split at h₁
      case isTrue  => exact fifoConnect hm h₁
      case isFalse => cases h₁; exact .refl _
    refine h₁.trans ?_
    cases h
    split
    case isTrue =>
      split
      case isTrue     => exact .of <| .fifo (by simp) (by decide)
      case isFalse hi => exact .of <| .fifo (by simp) (Nat.not_le.mp hi)
    case isFalse =>
      split
      case isTrue  => exact .of <| .fifo rfl (by decide)
      case isFalse => exact .refl _
  case h_2 he =>
    rw [reopened, if_pos hm] at hr
    split at hr
    case h_1 hc => exact absurd hc (he _ _)
    case h_2    => contradiction

end Fifo

section Step

-- Only connections pass on what they read to their peers.
theorem of_handler (hK : ∀ {c}, c.Aside σ → c ≠ .reopen → K c)
    (hre : (reopened env σ (.ready a)).isSome → K .reopen) (hσ : σ.Consistent)
    (hm : σ.handler a ≠ some .remotePort) (h : Proxy.step env σ (.ready a) = some σ') :
    Effects env K σ σ' := by
  obtain ⟨n, hσ, hi, _⟩ := hσ
  obtain ⟨p, handler, hp, hr, h⟩ := handled_of_step h
  have hh : σ.handler a = some handler := by rw [State.handler, hp, Option.bind_some, hr]
  cases h
  case remotePort  => contradiction
  case localPort h =>
    have hrem : p.remote = some σ.rPorts :=
      ((hi.role <| hσ.node_eq hp).remote_of_handler hr).trans <| congrArg _ hσ.rPorts.symm
    have hcls : p.cls = some .localPort := (hi.role <| hσ.node_eq hp).cls_of_local_handler hr
    have hpeer := hσ.peerable hi hp hcls
    have hc : p.isPermanent := by simp [Port.isPermanent, hcls]
    exact localPortReadMessage ⟨hK trivial (by simp), hK trivial (by simp), hK trivial (by simp)⟩
      hpeer hp hc hrem (hσ.rooted hi) h
  case scriptPort h        =>
    have hclient : K (.client σ.fresh) := hK (Nat.le_refl _) (by simp)
    exact scriptPortReadMessage
      ⟨hclient, hK trivial (by simp), hK trivial (by simp), hK trivial (by simp)⟩
      (hσ.lt_fresh hi hp) h
  case scriptClientPort h  =>
    exact scriptClientPortReadMessage ⟨hK trivial (by simp), hK trivial (by simp)⟩ hh h
  case remotePortAccept h  => exact remotePortAccept hh h
  case remotePortFifoCon h => exact remotePortFifoConRead hre hh h

-- What a step is made up of.
theorem reacts {ev : Event} (hσ : σ.Consistent) (h : Proxy.step env σ ev = some σ') :
    Reacts env σ σ' ev := by
  cases ev
  case oob a =>
    have ⟨_, _, h⟩ := outOfBand_of_step h
    exact .oob h
  case poll =>
    obtain ⟨n, hn, hi, _⟩ := hσ
    obtain ⟨r, hr, h⟩ := Option.bind_eq_some_iff.mp h
    split at h
    case isFalse => contradiction
    case isTrue  =>
      refine .poll (fun hm => ?_) <| remoteUSBPort_reads h
      rw [State.handler, hr, Option.bind_some] at hm
      have hx := hn.node_eq hr
      have hc := (hi.role hx).cls_of_client_handler hm
      cases hc.symm.trans <| hi.cls_rPorts <| hn.rPorts ▸ hx
  case ready a =>
    by_cases hm : σ.handler a = some .remotePort
    case neg => exact .aside hm <| of_handler (fun hc _ => hc) (fun _ => trivial) hσ hm h
    case pos =>
      obtain ⟨p, handler, hp, hr, h⟩ := handled_of_step h
      have hh : σ.handler a = some handler := by rw [State.handler, hp, Option.bind_some, hr]
      cases hm.symm.trans hh
      cases h
      case remotePort h => exact .relay hm <| remotePort_reads h

-- No step both passes on what it reads and creates ports.
theorem step_cases {ev : Event} (hσ : σ.Consistent) (h : Proxy.step env σ ev = some σ') :
    Effects env (Cause.Aside σ) σ σ' ∨ Effects env (· ≠ .setup) σ σ' := by
  have hr := reacts hσ h
  have ⟨n, hσ, hi, _⟩ := hσ
  clear h
  cases hr
  case aside h    => exact .inl h
  case oob h      => exact .inr <| outOfBand nofun h
  case poll hm h  => exact .inr <| reads h ⟨nofun, fun _ => nofun, nofun⟩ hσ hi hm
  case relay hm h => exact .inr <| reads h ⟨nofun, fun _ => nofun, nofun⟩ hσ hi (by simp [hm])

theorem step {ev : Event} (hσ : σ.Consistent) (h : Proxy.step env σ ev = some σ') :
    Effects env (fun _ => True) σ σ' :=
  (step_cases hσ h).elim (·.mono fun _ => trivial) (·.mono fun _ => trivial)

-- Most steps do not open the fifo again.
theorem step_of_not_reopened {ev : Event} (hσ : σ.Consistent)
    (h : Proxy.step env σ ev = some σ') (hn : reopened env σ ev = none) :
    Effects env (· ≠ .reopen) σ σ' := by
  have hr := reacts hσ h
  have ⟨_, hτ, hi, _⟩ := id hσ
  cases hr
  case aside hm _  => exact of_handler (fun _ hc => hc) (fun hs => by simp [hn] at hs) hσ hm h
  case oob hr      => exact outOfBand nofun hr
  case poll hm hr  => exact reads hr ⟨nofun, fun _ => nofun, nofun⟩ hτ hi hm
  case relay hm hr => exact reads hr ⟨nofun, fun _ => nofun, nofun⟩ hτ hi (by simp [hm])

end Step

end Effects

-- What holds when the proxy has started, and is kept by everything that a step is made up of, holds
-- throughout every run.
theorem Run.invariant {P : State → Prop} {cfg : Config} {σ₀ : State} {steps : List (State × Event)}
    (hr : Run env σ₀ steps σ) (h : start env cfg = some σ₀) (h₀ : P σ₀)
    (hP : ∀ {τ τ'}, Primitive env (fun _ => True) τ τ' → P τ → P τ') : P σ := by
  induction hr
  case refl           => exact h₀
  case step hr hs ih => exact (Effects.step (consistent_run h hr) hs).induct ih hP

end Proxy
