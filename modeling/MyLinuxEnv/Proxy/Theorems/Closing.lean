import MyLinuxEnv.Proxy.Links
import MyLinuxEnv.Proxy.Theorems.Kill

open Memory

namespace Proxy

variable {env : Env} {σ σ' : State} {n : Net} {a b s : Addr} {x : Node} {K : Addr → Prop}

theorem Refines.represents (h : Refines σ n) (hi : n.Inv) : Represents σ (n.Closing K) :=
  ⟨n, h, hi, .refl K n⟩

theorem Represents.bind {σ₁ σ₂ : State} (h : Represents σ₁ (n.Closing K))
    (hs : ∀ {m}, Refines σ₁ m → m.Inv → n.Closing K m → Represents σ₂ (m.Closing K)) :
    Represents σ₂ (n.Closing K) := by
  have ⟨m, hm, hi, hc⟩ := h
  exact (hs hm hi hc).mono hc.trans

theorem Refines.script_eq (h : Refines σ n) : σ.script = n.script := by
  simp only [State.script, Net.script, h.lPorts, ← h.node, Option.bind_map]
  rfl

theorem Refines.killport_closing (h : Refines σ n) (hi : n.Inv) (hk : killport σ a = some σ')
    (ha : a ∉ n.clients) : Represents σ' (n.Closing (n.Doomed a)) := by
  have ⟨n', hk, h'⟩ := killport_refines h hi hk
  exact ⟨n', h', hi.of_killed hk, .of_killed hi hk ha⟩

theorem Net.Inv.not_mem_clients (hi : n.Inv) (hf : n.Firm a) : a ∉ n.clients := by
  intro hm
  have ⟨x, hx, hc⟩ := hf
  exact hc <| (hi.clients a hm).right x hx

section Clients

-- The search for a client only ends where the client is.
theorem mem_of_prevClient {fuel : Nat} {prev find q : Option Addr} {l : List Addr}
    (hc : Chain σ.clientNext find l) (h : prevClient σ a fuel prev find = some q) :
    (q = prev ∧ find = some a) ∨ ∃ b xs ys, q = some b ∧ l = xs ++ b :: a :: ys := by
  fun_induction prevClient σ a fuel prev find generalizing l
  case case1 => contradiction
  case case2 =>
    cases h
    exact .inl ⟨rfl, rfl⟩
  case case3 find hne hi =>
    have ⟨i, hf, h⟩ := Option.bind_eq_some_iff.mp h
    have ⟨_, _, h⟩ := Option.bind_eq_some_iff.mp h
    subst hf
    have ⟨l', he, hc'⟩ := hc.exists_cons
    subst he
    rcases hi i hc' h with ⟨hq, hh⟩ | ⟨b, xs, ys, hq, hl⟩
    · have ⟨ys, hl⟩ := (hh ▸ hc').exists_cons
      exact .inr ⟨i, [], ys, hq, by rw [hl.left]; rfl⟩
    · exact .inr ⟨b, i :: xs, ys, hq, by rw [hl]; rfl⟩

theorem Refines.disown_head {sp : Port} (h : Refines σ n) (hs : n.script = some s)
    (hp : σ.port s = some sp) (hc : sp.clients = some a) :
    Refines (σ.modify s ({ · with clients := σ.clientNext a })) (n.disown a) where
  node b := by
    by_cases hb : b = s
    case neg => exact (congrArg _ <| State.modify_port_of_ne hb).trans <| h.node b
    case pos => simp [hb, hp, h.node_eq hp, Net.disown, Port.node]
  ports := h.ports
  clients {s' sp'} hs' hp' := by
    cases hs.symm.trans hs'
    have hch := hc ▸ h.clients hs hp
    obtain ⟨l, hl, ht⟩ := hch.exists_cons
    have hf : (n.disown a).clients = l := by
      simp only [Net.disown, hl]
      exact @Chain.filter_ne _ _ _ _ [] _ _ <| hl ▸ hch
    rw [State.modify_port_self, hp, Option.map_some, Option.some_inj] at hp'
    rw [hf, ← hp']
    exact ht
  fresh  := h.fresh
  lPorts := h.lPorts
  rPorts := h.rPorts

theorem Refines.disown_next {sp : Port} {xs ys : List Addr} (h : Refines σ n)
    (hs : n.script = some s) (hp : σ.port s = some sp) (hl : n.clients = xs ++ b :: a :: ys) :
    Refines (σ.setClientNext b (σ.clientNext a)) (n.disown a) where
  node  := h.node
  ports := h.ports
  clients {s' sp'} hs' hp' := by
    cases hs.symm.trans hs'
    cases hp.symm.trans hp'
    have hc := hl ▸ h.clients hs hp
    have hf : (n.disown a).clients = xs ++ b :: ys := by
      simp only [Net.disown, hl]
      rw [List.append_cons, List.append_cons xs b ys]
      exact Chain.filter_ne <| List.append_cons .. ▸ hc
    exact hf ▸ hc.unlink
  fresh  := h.fresh
  lPorts := h.lPorts
  rPorts := h.rPorts

theorem Net.Inv.disown (h : n.Inv) : (n.disown a).Inv :=
  h.congr rfl rfl rfl rfl (Nat.le_refl _) (fun c hc => h.clients c (List.mem_filter.mp hc).left)
    (h.clients_nodup.filter _)

-- A client that leaves the list is destroyed.
theorem Net.Closing.disown (hl : n.lPorts ≠ a) (hf : ¬n.Firm a) :
    n.Closing K ((n.disown a).without [a]) := by
  have hc : ∀ c ∈ (n.disown a).clients, c ∈ [a] → ¬(n.disown a).Live c := by
    intro c hm hK
    cases List.mem_singleton.mp hK
    simp [Net.disown] at hm
  have hw := Closing.of_without (n := n.disown a) (fun hm => hl <| List.mem_singleton.mp hm) hc
  refine ⟨hw.script, fun hb => (hw.loose hb).congr rfl rfl rfl, fun hb => ?_, fun hm => ?_,
    fun h => ?_⟩
  case refine_1 =>
    refine (hw.firm hb).imp id fun hn => absurd hn.right ?_
    exact List.mem_singleton.mp hn.left ▸ hf
  case refine_2 => exact (hw.clients hm).imp_left fun hm => (List.mem_filter.mp hm).left
  case refine_3 =>
    refine ⟨fun {c x} hx hcx => List.mem_filter.mpr ?_, (h.without [a]).remote⟩
    have ⟨hne, hx⟩ := without_node_eq_some.mp hx
    exact ⟨h.client hx hcx, by simpa using hne⟩

theorem Net.Closing.of_killed_client (hi : n.Inv) {n' : Net} (hk : (n.disown a).Killed a n')
    (hx : n.node a = some x) (hc : x.cls = some .scriptClient) : n.Closing K n' := by
  have hp : ¬x.isPermanent := by simp [Node.isPermanent, hc]
  have hb := hi.role hx |>.peer_of_client hc
  cases hk
  case alone =>
    refine .disown ?_ ?_
    · rintro rfl
      exact hp <| hi.isPermanent_lPorts hx
    · rintro ⟨y, hy, hcy⟩
      cases hx.symm.trans hy
      contradiction
  case reset hx' hp' _ =>
    cases hx.symm.trans hx'
    contradiction
  case pair _ _ _ hx' _ hb' _ _ =>
    cases hx.symm.trans hx'
    cases hb.symm.trans hb'
  case attached _ _ _ _ hx' _ hb' _ _ _ =>
    cases hx.symm.trans hx'
    cases hb.symm.trans hb'

-- A client is taken off the list before it is destroyed.
theorem killScriptClient_closing {next : Option Addr} (h : Refines σ n) (hi : n.Inv)
    (hs : n.script = some s) (hk : killScriptClient σ s a = some (next, σ')) :
    Represents σ' (n.Closing K) := by
  have ⟨sp, hp, hk⟩ := Option.bind_eq_some_iff.mp hk
  have ⟨prev, hprev, hk⟩ := Option.bind_eq_some_iff.mp hk
  have ⟨p, hpa, hk⟩ := Option.bind_eq_some_iff.mp hk
  have ⟨σ₁, h₁, hk⟩ := ite_bind_eq_some_iff.mp hk
  have ⟨σ₂, hk, he⟩ := Option.bind_eq_some_iff.mp hk
  cases he
  have hc := h.clients hs hp
  have ⟨ha, h₁⟩ : a ∈ n.clients ∧ Refines σ₁ (n.disown a) := by
    split at h₁
    case isTrue hsc =>
      cases h₁
      have ⟨l, hl, _⟩ := (hsc ▸ hc).exists_cons
      exact ⟨by simp [hl], h.disown_head hs hp hsc⟩
    case isFalse hsc =>
      have ⟨q, hq, h₁⟩ := Option.map_eq_some_iff.mp h₁
      rcases mem_of_prevClient hc hprev with ⟨_, hsc'⟩ | ⟨b, xs, ys, hb, hl⟩
      · contradiction
      · cases hq.symm.trans hb
        exact ⟨by simp [hl], h₁ ▸ h.disown_next hs hp hl⟩
  have ⟨n', hk, h'⟩ := killport_refines h₁ hi.disown hk
  have hx := h.node_eq hpa
  exact ⟨n', h', hi.disown.of_killed hk, .of_killed_client hi hk hx <| (hi.clients a ha).right _ hx⟩

theorem writeClients_closing {mem : List Byte} {bytes fuel : Nat} {iport : Option Addr}
    (h : Refines σ n) (hi : n.Inv) (hs : n.script = some s)
    (hw : writeClients env s mem bytes fuel σ iport = some σ') :
    Represents σ' (n.Closing K) := by
  induction fuel generalizing σ n iport
  case zero => contradiction
  case succ fuel hf =>
    cases iport
    case none => cases hw; exact h.represents hi
    case some i =>
      have ⟨⟨got, σ₁⟩, hw₁, hw⟩ := Option.bind_eq_some_iff.mp hw
      dsimp only at hw
      have h₁ := quiet_of_portwrite hw₁ |>.refines h
      split at hw
      case isFalse =>
        have ⟨_, _, hw⟩ := Option.bind_eq_some_iff.mp hw
        exact hf h₁ hi hs hw
      case isTrue =>
        have ⟨⟨next, σ₂⟩, hk, hw⟩ := Option.bind_eq_some_iff.mp hw
        refine killScriptClient_closing h₁ hi hs hk |>.bind fun h₂ hi₂ hc => ?_
        exact hf h₂ hi₂ (hc.script.trans hs) hw

theorem deliver_closing {mem : List Byte} {bytes : Nat} (h : Refines σ n) (hi : n.Inv)
    (hs : n.script = some s) (hd : deliver env σ s mem bytes = some σ') :
    Represents σ' (n.Closing K) := by
  have ⟨_, _, hd⟩ := Option.bind_eq_some_iff.mp hd
  have ⟨σ₁, hw, hd⟩ := Option.bind_eq_some_iff.mp hd
  have ⟨_, _, hd⟩ := Option.bind_eq_some_iff.mp hd
  refine writeClients_closing h hi hs hw |>.bind fun h₁ hi₁ _ => ?_
  cases hd
  split
  · exact (Quiet.gdb ..).refines h₁ |>.represents hi₁
  · exact h₁.represents hi₁

theorem writeScriptClients_closing {buf : List Byte} {bytes : Nat} (h : Refines σ n) (hi : n.Inv)
    (hs : n.script = some s) (hw : writeScriptClients env σ s buf bytes = some σ') :
    Represents σ' (n.Closing K) := by
  have ⟨_, _, hw⟩ := Option.bind_eq_some_iff.mp hw
  split at hw
  case isFalse => exact deliver_closing h hi hs hw
  case isTrue =>
    cases hg : σ.gdb.scan <| buf.take bytes
    case mk gdb xmit =>
      simp only [hg] at hw
      have h₁ := (Quiet.gdb σ gdb).refines h
      split at hw
      case isTrue  => exact deliver_closing h₁ hi hs hw
      case isFalse => cases hw; exact h₁.represents hi

theorem writeUSBScriptClients_closing {buf : List Byte} {bytes : Nat} (h : Refines σ n)
    (hi : n.Inv) (hs : n.script = some s) (hw : writeUSBScriptClients env σ s buf bytes = some σ') :
    Represents σ' (n.Closing K) := by
  simp only [writeUSBScriptClients] at hw
  split at hw
  · cases hw; exact h.represents hi
  · exact deliver_closing h hi hs hw

end Clients

section Handlers

-- The ports that are destroyed in a step because a read or a write fails.
def Destroyed (env : Env) (n : Net) (σ : State) (ev : Event) (b : Addr) : Prop :=
  ∃ a, Kills env σ ev a ∧ n.Doomed a b

-- A step which ends with the death of a port, before which it leaves all links alone.
def Fails (env : Env) (σ : State) (ev : Event) (σ' : State) : Prop :=
  ∃ b τ, Kills env σ ev b ∧ Quiet σ τ ∧ killport τ b = some σ'

-- The failure of a read or a write on a port other than a client.
theorem Refines.killport_destroyed {ev : Event} {τ : State} (h : Refines τ n) (hi : n.Inv)
    (hk : killport τ a = some σ') (ha : a ∉ n.clients) (hK : Kills env σ ev a) :
    Represents σ' (n.Closing (Destroyed env n σ ev)) :=
  (h.killport_closing hi hk ha).mono fun hc => hc.mono fun hd => ⟨a, hK, hd⟩

-- A client is killed along with the others only in a step that severs a link.
theorem Refines.not_mem_clients {ev : Event} (h : Refines σ n) (hi : n.Inv)
    (hx : n.node a = some x) (hK : Kills env σ ev a) (hn : ¬Severs env σ ev) : a ∉ n.clients := by
  intro hm
  have hs := hi.role hx |>.scriptRef_of_client <| (hi.clients a hm).right _ hx
  have ⟨s, hs⟩ := Option.isSome_iff_exists.mp hs
  have hs := hi.scriptRef hx hs
  have ⟨y, hy, _⟩ := hi.sPort s hs
  have ⟨sp, hsp, _⟩ := h.exists_port hy
  exact hn <| .client hK (h.script_eq.trans hs) (h.clients_eq hi hs hsp ▸ hm)

theorem Fails.destroyed {ev : Event} (hf : Fails env σ ev σ') (h : Refines σ n) (hi : n.Inv)
    (hn : ¬Severs env σ ev) : Represents σ' (n.Closing (Destroyed env n σ ev)) := by
  have ⟨b, τ, hK, hq, hk⟩ := hf
  have ⟨p, hp, _⟩ := Option.bind_eq_some_iff.mp hk
  have hτ := hq.refines h
  exact hτ.killport_destroyed hi hk (h.not_mem_clients hi (hτ.node_eq hp) hK hn) hK

theorem Refines.script_of_scriptRef {p : Port} (h : Refines σ n) (hi : n.Inv)
    (hp : σ.port a = some p) (hs : p.scriptRef = some s) : n.script = some s :=
  hi.scriptRef (h.node_eq hp) hs

theorem remotePortReadMessage_cases {again : Bool} (h : Refines σ n) (hi : n.Inv)
    (hm : σ.handler a = some .remotePort)
    (hr : remotePortReadMessage env σ a = some (again, σ')) :
    Represents σ' (n.Closing K) ∨ Fails env σ (.ready a) σ' := by
  have ⟨⟨got, σ₁⟩, hgot, hr⟩ := Option.bind_eq_some_iff.mp hr
  dsimp only at hr
  have h₁ := quiet_of_portread hgot
  split at hr
  case isTrue hle =>
    have ⟨σ₂, hk, hr⟩ := Option.bind_eq_some_iff.mp hr
    cases hr
    exact .inr ⟨a, σ₁, .read hm hgot hle, h₁, hk⟩
  case isFalse hlt =>
    have ⟨⟨k, σ₂⟩, hf, hr⟩ := Option.bind_eq_some_iff.mp hr
    dsimp only at hr
    have h₂ := h₁.trans <| quiet_of_negotiate hf
    split at hr
    case isTrue     => cases hr; exact .inl <| h₂.refines h |>.represents hi
    case isFalse hk =>
      have ⟨⟨ok, σ₃⟩, hw, hr⟩ := Option.bind_eq_some_iff.mp hr
      have h₃ := h₂.trans <| quiet_of_writePeer hw
      cases ok
      case false =>
        have ⟨σ₄, hk', hr⟩ := Option.bind_eq_some_iff.mp hr
        cases hr
        exact .inr ⟨a, σ₃, .write (.intro hm hgot (by omega) hf hk) hw, h₃, hk'⟩
      case true =>
        have ⟨p, hp, hr⟩ := Option.bind_eq_some_iff.mp hr
        have h₃ := h₃.refines h
        split at hr
        case h_1 => cases hr; exact .inl <| h₃.represents hi
        case h_2 s hs =>
          split at hr
          case isTrue  => cases hr; exact .inl <| h₃.represents hi
          case isFalse =>
            have ⟨σ₄, hw, hr⟩ := Option.bind_eq_some_iff.mp hr
            cases hr
            exact .inl <| writeScriptClients_closing h₃ hi (h₃.script_of_scriptRef hi hp hs) hw

theorem Refines.killport_permanent (h : Refines σ n) (hi : n.Inv) (hk : killport σ a = some σ')
    (hx : n.node a = some x) (hp : x.isPermanent) : Represents σ' (n.Closing K) := by
  have hf : n.Firm a := ⟨x, hx, fun hc => by simp [Node.isPermanent, hc] at hp⟩
  have hconn : ¬n.IsConn a := by
    rintro ⟨y, hy, hn⟩
    cases hx.symm.trans hy
    exact hn hp
  refine h.killport_closing hi hk (hi.not_mem_clients hf) |>.mono fun hc => hc.mono fun hd => ?_
  cases hd <;> contradiction

theorem remoteUSBPortReadMessage_closing (h : Refines σ n) (hi : n.Inv)
    (hr : remoteUSBPortReadMessage env σ σ.rPorts = some σ') : Represents σ' (n.Closing K) := by
  have ⟨r, hr', _⟩ := hi.rPort
  have hrp := hi.isPermanent_rPorts hr'
  have hx := h.rPorts ▸ hr'
  have ⟨⟨got, σ₁⟩, hgot, hr⟩ := Option.bind_eq_some_iff.mp hr
  dsimp only at hr
  have h₁ := quiet_of_portread hgot |>.refines h
  split at hr
  case isFalse =>
    split at hr
    case isTrue  => exact h₁.killport_permanent hi hr hx hrp
    case isFalse => cases hr; exact h₁.represents hi
  case isTrue =>
    have ⟨⟨k, σ₂⟩, hf, hr⟩ := Option.bind_eq_some_iff.mp hr
    dsimp only at hr
    have h₂ := quiet_of_negotiate hf |>.refines h₁
    split at hr
    case isTrue  => cases hr; exact h₂.represents hi
    case isFalse =>
      have ⟨⟨ok, σ₃⟩, hw, hr⟩ := Option.bind_eq_some_iff.mp hr
      have h₃ := quiet_of_writePeer hw |>.refines h₂
      cases ok
      case false => exact h₃.killport_permanent hi hr hx hrp
      case true  =>
        have ⟨p, hp, hr⟩ := Option.bind_eq_some_iff.mp hr
        split at hr
        · cases hr; exact h₃.represents hi
        · exact writeUSBScriptClients_closing h₃ hi (h₃.script_of_scriptRef hi hp ‹_›) hr

theorem outOfBand_cases {failed : Bool} (ho : outOfBand env σ a = some (failed, σ')) :
    Quiet σ σ' ∨ Fails env σ (.oob a) σ' := by
  have ⟨⟨got, σ₁⟩, hgot, ho⟩ := Option.bind_eq_some_iff.mp ho
  dsimp only at ho
  have h₁ := quiet_of_portread hgot
  split at ho
  case isTrue hle  =>
    have ⟨_, hk, ho⟩ := Option.bind_eq_some_iff.mp ho
    cases ho
    exact .inr ⟨a, σ₁, .oobRead hgot hle, h₁, hk⟩
  case isFalse hlt =>
    have ⟨p, hp, ho⟩ := Option.bind_eq_some_iff.mp ho
    have ⟨b, hb, ho⟩ := Option.bind_eq_some_iff.mp ho
    have ⟨⟨k, σ₂⟩, hw, ho⟩ := Option.bind_eq_some_iff.mp ho
    dsimp only at ho
    have h₂ := h₁.trans <| quiet_of_portwrite hw
    split at ho
    case isFalse    => cases ho; exact .inl h₂
    case isTrue hle =>
      have ⟨_, hk, ho⟩ := Option.bind_eq_some_iff.mp ho
      cases ho
      exact .inr ⟨a, σ₂, .oobWrite hgot (by omega) hp hb hw hle, h₂, hk⟩

theorem writeScript_cases {side : Option Addr} {k : Nat} {res : Option Nat}
    (hw : writeScript env σ a side k = some (res, σ')) :
    (∃ k', res = some k' ∧ Quiet σ σ') ∨ ∃ b τ, res = none ∧ side = some b ∧
      WriteFails env σ a b k ∧ Quiet σ τ ∧ killport τ b = some σ' := by
  cases side
  case none => cases hw; exact .inl ⟨k, rfl, .refl σ⟩
  case some b =>
    have ⟨q, hq, hw⟩ := Option.bind_eq_some_iff.mp hw
    split at hw
    case isTrue  => cases hw; exact .inl ⟨k, rfl, .refl σ⟩
    case isFalse hm =>
      have ⟨p, hp, hw⟩ := Option.bind_eq_some_iff.mp hw
      have ⟨⟨k', τ⟩, hw', hw⟩ := Option.bind_eq_some_iff.mp hw
      dsimp only at hw
      have hq' := quiet_of_portwrite hw'
      split at hw
      case isFalse => cases hw; exact .inl ⟨_, rfl, hq'⟩
      case isTrue hle =>
        have ⟨_, hk, hw⟩ := Option.bind_eq_some_iff.mp hw
        cases hw
        exact .inr ⟨b, τ, rfl, rfl, ⟨hq, hm, hp, hw', hle⟩, hq', hk⟩

theorem scriptClientPortReadMessage_cases {failed : Bool} (h : Refines σ n) (hi : n.Inv)
    (hm : σ.handler a = some .scriptClientPort)
    (hr : scriptClientPortReadMessage env σ a = some (failed, σ')) :
    Represents σ' (n.Closing K) ∨ Fails env σ (.ready a) σ' := by
  have ⟨⟨got, σ₁⟩, hgot, hr⟩ := Option.bind_eq_some_iff.mp hr
  have ⟨p, hp, hr⟩ := Option.bind_eq_some_iff.mp hr
  have ⟨s, hps, hr⟩ := Option.bind_eq_some_iff.mp hr
  dsimp only at hp hr
  have h₁ := quiet_of_portread hgot
  split at hr
  case isTrue =>
    have ⟨⟨_, _⟩, hk, hr⟩ := Option.bind_eq_some_iff.mp hr
    cases hr
    have h₁ := h₁.refines h
    exact .inl <| killScriptClient_closing h₁ hi (h₁.script_of_scriptRef hi hp hps) hk
  case isFalse hlt =>
    have ⟨⟨k, σ₂⟩, hf, hr⟩ := Option.bind_eq_some_iff.mp hr
    dsimp only at hr
    have h₂ := h₁.trans <| quiet_of_negotiate hf
    split at hr
    case isTrue     => cases hr; exact .inl <| h₂.refines h |>.represents hi
    case isFalse hk =>
      have ⟨sp, hsp, hr⟩ := Option.bind_eq_some_iff.mp hr
      split at hr
      case isTrue     => cases hr; exact .inl <| h₂.refines h |>.represents hi
      case isFalse hu =>
        have hsends : Sends env σ a sp k σ₂ :=
          .intro hm hgot (by omega) hp hps hf hk hsp (by simpa using hu)
        have ⟨⟨res, σ₃⟩, hw, hr⟩ := Option.bind_eq_some_iff.mp hr
        rcases writeScript_cases hw with ⟨k', rfl, hq⟩ | ⟨b, τ, rfl, hb, hfail, hq, hkill⟩
        case inr =>
          cases hr
          exact .inr ⟨b, τ, .rscript hsends hb hfail, h₂.trans hq, hkill⟩
        case inl =>
          have h₃ := h₂.trans hq
          have ⟨sp', hsp', hr⟩ := Option.bind_eq_some_iff.mp hr
          have ⟨⟨res, σ₄⟩, hw', hr⟩ := Option.bind_eq_some_iff.mp hr
          cases hr
          have hl : sp'.lscript = sp.lscript := by
            have ⟨_, hsp'', hn, _⟩ := hq.exists_port hsp
            cases hsp'.symm.trans hsp''
            exact congrArg Node.lscript hn
          rcases writeScript_cases hw' with ⟨_, _, hq'⟩ | ⟨b, τ, _, hb, hfail, hq', hkill⟩
          case inl => exact .inl <| (h₃.trans hq').refines h |>.represents hi
          case inr => exact .inr ⟨b, τ, .lscript hsends hw (hl ▸ hb) hfail, h₃.trans hq', hkill⟩

end Handlers

end Proxy
