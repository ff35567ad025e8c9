import MyLinuxEnv.Proxy.Theorems.Equipped
import MyLinuxEnv.Proxy.Theorems.Links

namespace Proxy

-- What the end of the connection `a` does to the other ports: those which had it as their peer are
-- unlinked, unless they go away as well, and all others stay and keep their peer.
structure Undisturbed (σ : State) (a : Addr) (σ' : State) : Prop where
  unlinked : ∀ b q q', b ≠ a → σ.port b = some q → q.peer = some a → σ'.port b = some q' →
    q'.peer = none
  spared : ∀ b q, b ≠ a → σ.port b = some q → q.peer ≠ some a →
    ∃ q', σ'.port b = some q' ∧ q'.peer = q.peer

namespace Net

variable {n n' : Net} {a b c : Addr} {x z : Node}

-- A connection knows the ports which are told when it goes away.
theorem Inv.peer_of_isKept (h : n.Inv) (hx : n.node a = some x) (hp : ¬x.isPermanent)
    (hz : n.node c = some z) (hk : z.isKept) (hc : z.peer = some a) : x.peer = some c := by
  have ⟨y, hy, _, hb⟩ := h.peer hz hk hc
  cases hx.symm.trans hy
  exact hb.resolve_left hp

-- A closed receiver has no peer in the first place.
theorem Inv.peer_of_closed (h : n.Inv) (hz : n.node c = some z) (ho : ¬z.isOpen)
    (hc : z.cls = some .remotePort) (hm : z.isMaster) : z.peer = none := by
  refine Classical.not_not.mp fun hn => ho ?_
  have hk : z.isKept := by simp [Node.isKept, hc, hm]
  exact (h.role hz).isOpen_of_isKept (by simp [Node.isPermanent, hc]) hk hn

-- What becomes of another port: it is destroyed if it is the connection on the other side, and
-- loses its peer if it is the receiver on the other side, whoever that peer is.
theorem Killed.peer_cases (hi : n.Inv) (hk : n.Killed a n') (hx : n.node a = some x)
    (hp : ¬x.isPermanent) (hca : c ≠ a) (hz : n.node c = some z) :
    (x.peer = some c ∧ ¬z.isPermanent ∧ n'.node c = none) ∨
      (x.peer = some c → z.isPermanent) ∧ ∃ z', n'.node c = some z' ∧ z'.peer =
        if x.peer = some c ∧ z.cls = some .remotePort ∧ z.isMaster then none else z.peer := by
  -- Ports on neither side are left alone.
  have hother (hb : x.peer ≠ some c) (hz' : n'.node c = some z) :
      (x.peer = some c → z.isPermanent) ∧ ∃ z', n'.node c = some z' ∧ z'.peer =
        if x.peer = some c ∧ z.cls = some .remotePort ∧ z.isMaster then none else z.peer :=
    ⟨fun hc => absurd hc hb, z, hz', (if_neg fun hc => hb hc.left).symm⟩
  have hnot : c ∉ [a] := by simpa using hca
  cases hk
  case reset hx' hp' _ =>
    cases hx.symm.trans hx'
    contradiction
  case alone hx' _ hb =>
    cases hx.symm.trans hx'
    exact .inr <| hother (by simp [hb]) <| without_node_eq_some.mpr ⟨hnot, hz⟩
  case pair b y hx' _ hb hy hq =>
    cases hx.symm.trans hx'
    by_cases hcb : c = b
    case pos =>
      subst hcb
      cases hz.symm.trans hy
      exact .inl ⟨hb, hq, by simp [Net.without]⟩
    case neg =>
      refine .inr <| hother ?_ <| without_node_eq_some.mpr ⟨by simpa using ⟨hca, hcb⟩, hz⟩
      simpa [hb] using Ne.symm hcb
  case attached b y y' hx' _ hb hy hq hr =>
    cases hx.symm.trans hx'
    by_cases hcb : c = b
    case neg =>
      refine .inr <| hother ?_ <| without_node_eq_some.mpr ⟨hnot, (modify_node_of_ne hcb).trans hz⟩
      simpa [hb] using Ne.symm hcb
    case pos =>
      subst hcb
      cases hz.symm.trans hy
      refine .inr ⟨fun _ => hq, y', without_node_eq_some.mpr ⟨hnot, modify_node_self hz⟩, ?_⟩
      simp only [hb, true_and]
      cases hr
      case inr hr => exact hr.peer
      case inl hr =>
        obtain ⟨ho, rfl⟩ := hr
        split
        case isTrue hc => exact hi.peer_of_closed hz ho hc.left hc.right
        case isFalse   => rfl

end Net

variable {env : Env} {cfg : Config} {σ₀ σ σ' : State} {steps : List (State × Event)} {n : Net}
  {a b : Addr} {p : Port}

-- The permanent ports which have a connection as their peer notice when it ends.
def Notices (σ : State) (a : Addr) : Prop :=
  ∀ b q, σ.port b = some q → q.isPermanent → q.peer = some a →
    q.cls = some .remotePort ∧ q.isMaster

-- A connection to a receiver is still the one which the receiver is linked to, if any.
def IsCurrent (σ : State) (a : Addr) (p : Port) : Prop :=
  ∀ b q, p.peer = some b → σ.port b = some q → q.cls = some .remotePort → q.isMaster →
    q.peer = none ∨ q.peer = some a

theorem Refines.peer_cases {n' : Net} {c : Addr} {q : Port} (h : Refines σ n) (hi : n.Inv)
    (h' : Refines σ' n') (hk : n.Killed a n') (hp : σ.port a = some p) (hc : ¬p.isPermanent)
    (hca : c ≠ a) (hq : σ.port c = some q) :
    (p.peer = some c ∧ ¬q.isPermanent ∧ σ'.port c = none) ∨
      (p.peer = some c → q.isPermanent) ∧ ∃ q', σ'.port c = some q' ∧ q'.peer =
        if p.peer = some c ∧ q.cls = some .remotePort ∧ q.isMaster then none else q.peer := by
  refine (hk.peer_cases hi (h.node_eq hp) hc hca (h.node_eq hq)).imp ?_ ?_
  · intro ⟨hb, hn, hg⟩
    exact ⟨hb, hn, by simpa [← h'.node] using hg⟩
  · intro ⟨hb, z', hz', hz⟩
    have ⟨q', hq', he⟩ := h'.exists_port hz'
    exact ⟨hb, q', hq', (congrArg Node.peer he).trans hz⟩

theorem Refines.notices_of_undisturbed {n' : Net} (h : Refines σ n) (hi : n.Inv)
    (h' : Refines σ' n') (hk : n.Killed a n') (hp : σ.port a = some p) (hc : ¬p.isPermanent)
    (hu : Undisturbed σ a σ') : Notices σ a := by
  intro b q hq hqp hb
  have hba : b ≠ a := by
    rintro rfl
    exact hc <| Option.some.inj (hp.symm.trans hq) ▸ hqp
  rcases h.peer_cases hi h' hk hp hc hba hq with ⟨_, hn, _⟩ | ⟨_, q', hq', he⟩
  case inl => contradiction
  case inr =>
    rw [hu.unlinked b q q' hba hq hb hq', hb] at he
    split at he
    case isTrue hm => exact hm.right
    case isFalse   => contradiction

theorem Refines.isCurrent_of_undisturbed {n' : Net} (h : Refines σ n) (hi : n.Inv)
    (h' : Refines σ' n') (hk : n.Killed a n') (hp : σ.port a = some p) (hc : ¬p.isPermanent)
    (hu : Undisturbed σ a σ') : IsCurrent σ a p := by
  intro b q hb hq hqc hqm
  have hba : b ≠ a := by
    rintro rfl
    cases hp.symm.trans hq
    simp [Port.isPermanent, hqc] at hc
  by_cases hqa : q.peer = some a
  case pos => exact .inr hqa
  case neg =>
    obtain ⟨q', hq', he⟩ := hu.spared b q hba hq hqa
    rcases h.peer_cases hi h' hk hp hc hba hq with ⟨_, _, hg⟩ | ⟨_, q'', hq'', he'⟩
    case inl => cases hq'.symm.trans hg
    case inr =>
      cases hq'.symm.trans hq''
      rw [if_pos ⟨hb, hqc, hqm⟩] at he'
      exact .inl <| he.symm.trans he'

theorem Refines.unlinked_of_notices {n' : Net} {q q' : Port} (h : Refines σ n) (hi : n.Inv)
    (h' : Refines σ' n') (hk : n.Killed a n') (hp : σ.port a = some p) (hc : ¬p.isPermanent)
    (hn : Notices σ a) (hba : b ≠ a) (hq : σ.port b = some q) (hb : q.peer = some a)
    (hq' : σ'.port b = some q') : q'.peer = none := by
  rcases h.peer_cases hi h' hk hp hc hba hq with ⟨_, _, hg⟩ | ⟨hqp, q'', hq'', he⟩
  case inl => cases hq'.symm.trans hg
  case inr =>
    cases hq'.symm.trans hq''
    have hkept : q.node.isKept := by
      by_cases hqp : q.isPermanent
      case neg => simp [Node.isKept, show ¬q.node.isPermanent from hqp]
      case pos =>
        obtain ⟨hqc, hqm⟩ := hn b q hq hqp hb
        simp [Node.isKept, show q.node.cls = _ from hqc, show q.node.isMaster from hqm]
    have hpb := hi.peer_of_isKept (h.node_eq hp) hc (h.node_eq hq) hkept hb
    obtain ⟨hqc, hqm⟩ := hn b q hq (hqp hpb) hb
    rw [he, if_pos ⟨hpb, hqc, hqm⟩]

theorem Refines.spared_of_isCurrent {n' : Net} {q : Port} (h : Refines σ n) (hi : n.Inv)
    (h' : Refines σ' n') (hk : n.Killed a n') (hp : σ.port a = some p) (hc : ¬p.isPermanent)
    (hcur : IsCurrent σ a p) (hba : b ≠ a) (hq : σ.port b = some q) (hqa : q.peer ≠ some a) :
    ∃ q', σ'.port b = some q' ∧ q'.peer = q.peer := by
  rcases h.peer_cases hi h' hk hp hc hba hq with ⟨hb, hqn, _⟩ | ⟨_, q', hq', he⟩
  case inl =>
    have hkept : p.node.isKept := by simp [Node.isKept, show ¬p.node.isPermanent from hc]
    obtain ⟨y, hy, _, hback⟩ := hi.peer (h.node_eq hp) hkept hb
    cases (h.node_eq hq).symm.trans hy
    exact absurd (hback.resolve_left hqn) hqa
  case inr =>
    refine ⟨q', hq', ?_⟩
    split at he
    case isFalse   => exact he
    case isTrue hm =>
      have hnone := (hcur b q hm.left hq hm.right.left hm.right.right).resolve_right hqa
      rw [he, hnone]

theorem Refines.undisturbed_iff {n' : Net} (h : Refines σ n) (hi : n.Inv) (h' : Refines σ' n')
    (hk : n.Killed a n') (hp : σ.port a = some p) (hc : ¬p.isPermanent) :
    Undisturbed σ a σ' ↔ Notices σ a ∧ IsCurrent σ a p := by
  constructor
  case mp =>
    intro hu
    constructor
    case left  => exact h.notices_of_undisturbed hi h' hk hp hc hu
    case right => exact h.isCurrent_of_undisturbed hi h' hk hp hc hu
  case mpr =>
    rintro ⟨hn, hcur⟩
    constructor
    case unlinked =>
      intro b q q' hba hq hb hq'
      exact h.unlinked_of_notices hi h' hk hp hc hn hba hq hb hq'
    case spared =>
      intro b q hba hq hqa
      exact h.spared_of_isCurrent hi h' hk hp hc hcur hba hq hqa

-- The end of a connection leaves the others alone, if and only if all ports that are linked to it
-- notice, and it has not been superseded as the peer of a receiver.
theorem killport_undisturbed_iff (h : start env cfg = some σ₀) (hr : Run env σ₀ steps σ)
    (hp : σ.port a = some p) (hc : ¬p.isPermanent) :
    ∃ σ', killport σ a = some σ' ∧ (Undisturbed σ a σ' ↔ Notices σ a ∧ IsCurrent σ a p) := by
  have he := equipped_of_run h hr
  have ⟨n, h, hi, _⟩ := consistent_run h hr
  have ⟨σ', hσ'⟩ := he.exists_killport h hi hp
  have ⟨n', hk, h'⟩ := killport_refines h hi hσ'
  exact ⟨σ', hσ', h.undisturbed_iff hi h' hk hp hc⟩

-- A receiver to which the ports with the addresses 2 and 3 connect.
def sharedConfig : Config where
  lPort      := .tcp
  scriptPort := none
  remote     := some .udp

def sharedEvents : List Event :=
  [.ready 0, .ready 0]

theorem exists_shared : ∃ σ₀ steps σ p σ', steps.map Prod.snd = sharedEvents ∧
    start exampleEnv sharedConfig = some σ₀ ∧ Run exampleEnv σ₀ steps σ ∧
    σ.port 2 = some p ∧ ¬p.isPermanent ∧ 2 ∈ σ.ports ∧ killport σ 2 = some σ' ∧
    (∃ q, σ.port 1 = some q ∧ q.peer = some 3) ∧ ∃ q, σ'.port 1 = some q ∧ q.peer = none := by
  have h : (((start exampleEnv sharedConfig).bind (step exampleEnv · (.ready 0))).bind
      (step exampleEnv · (.ready 0))).bind (fun σ => (killport σ 2).map fun σ' =>
        decide ((σ.port 2).any (!·.isPermanent) ∧ 2 ∈ σ.ports ∧
          (σ.port 1).any (·.peer = some 3) ∧ (σ'.port 1).any (·.peer = none))) = some true := by
    decide
  have ⟨σ, h, hσ⟩ := Option.bind_eq_some_iff.mp h
  have ⟨σ₁, h, h₂⟩ := Option.bind_eq_some_iff.mp h
  have ⟨σ₀, h₀, h₁⟩ := Option.bind_eq_some_iff.mp h
  have ⟨σ', hk, hσ⟩ := Option.map_eq_some_iff.mp hσ
  have ⟨hp, hm, hq, hq'⟩ := of_decide_eq_true hσ
  have ⟨p, hp, hc⟩ := (Option.any_eq_true ..).mp hp
  have ⟨q, hq, hb⟩ := (Option.any_eq_true ..).mp hq
  have ⟨q', hq', hb'⟩ := (Option.any_eq_true ..).mp hq'
  exact ⟨σ₀, _, σ, p, σ', rfl, h₀, .step (.step .refl h₁) h₂, hp, by simpa using hc, hm, hk,
    ⟨q, hq, of_decide_eq_true hb⟩, q', hq', of_decide_eq_true hb'⟩

theorem killport_undisturbed_iff_of_shared : ∃ σ₀ steps σ p σ', steps.map Prod.snd = sharedEvents ∧
    start exampleEnv sharedConfig = some σ₀ ∧ Run exampleEnv σ₀ steps σ ∧
    killport σ 2 = some σ' ∧ (Undisturbed σ 2 σ' ↔ Notices σ 2 ∧ IsCurrent σ 2 p) := by
  have ⟨σ₀, steps, σ, p, _, he, h, hr, hp, hc, _⟩ := exists_shared
  have ⟨σ', hk, hu⟩ := killport_undisturbed_iff h hr hp hc
  exact ⟨σ₀, steps, σ, p, σ', he, h, hr, hk, hu⟩

-- The end of the first connection takes the receiver away from the second one.
theorem not_undisturbed : ∃ σ₀ steps σ p σ', steps.map Prod.snd = sharedEvents ∧
    start exampleEnv sharedConfig = some σ₀ ∧ Run exampleEnv σ₀ steps σ ∧
    σ.port 2 = some p ∧ ¬p.isPermanent ∧ 2 ∈ σ.ports ∧ killport σ 2 = some σ' ∧
    ¬Undisturbed σ 2 σ' := by
  have ⟨σ₀, steps, σ, p, σ', he, h, hr, hp, hc, hm, hk, ⟨q, hq, hb⟩, q', hq', hb'⟩ := exists_shared
  refine ⟨σ₀, steps, σ, p, σ', he, h, hr, hp, hc, hm, hk, fun hu => ?_⟩
  have ⟨q'', hq'', he⟩ := hu.spared 1 q (by decide) hq (by rw [hb]; decide)
  cases hq'.symm.trans hq''
  cases hb'.symm.trans <| he.trans hb

end Proxy
