import MyLinuxEnv.Proxy.Changes
import MyLinuxEnv.Proxy.Refines

open Memory

namespace Proxy

namespace Net

-- Memory for a port which does not belong to the list yet.
def alloc (n : Net) (x : Node) : Net :=
  { n with node := Function.update n.node n.fresh (some x), fresh := n.fresh + 1 }

def reserve (n : Net) (k : Nat) : Net :=
  { n with fresh := n.fresh + k }

def enlist (n : Net) (a : Addr) : Net :=
  { n with ports := a :: n.ports }

-- All addresses in use are below the one that is handed out next.
structure Bounded (n : Net) : Prop where
  live : ∀ a, n.Live a → a < n.fresh
  ports : ∀ a ∈ n.ports, a < n.fresh
  clients : ∀ c ∈ n.clients, c < n.fresh
  lPorts : n.lPorts < n.fresh
  script : ∀ s, n.script = some s → s < n.fresh

variable {n : Net} {a b : Addr} {x y : Node} {f : Node → Node}

theorem Inv.bounded (h : n.Inv) : n.Bounded where
  live      := h.lt_fresh
  ports a m := h.lt_fresh a <| h.live a m
  clients c m := (h.clients c m).left
  lPorts :=
    have ⟨x, hx, _⟩ := h.lPort
    h.lt_fresh _ <| live_iff.mpr ⟨x, hx⟩
  script s hs :=
    have ⟨x, hx, _⟩ := h.sPort s hs
    h.lt_fresh _ <| live_iff.mpr ⟨x, hx⟩

theorem Bounded.node_fresh (h : n.Bounded) : n.node n.fresh = none := by
  cases hx : n.node n.fresh
  case none   => rfl
  case some x => exact absurd (h.live _ <| live_iff.mpr ⟨x, hx⟩) (Nat.lt_irrefl _)

theorem alloc_node_self : (n.alloc x).node n.fresh = some x :=
  Function.update_self ..

theorem alloc_node_of_ne (h : a ≠ n.fresh) : (n.alloc x).node a = n.node a :=
  Function.update_of_ne h ..

theorem script_alloc (h : n.Bounded) : (n.alloc x).script = n.script := by
  rw [script, script]
  exact congrArg (Option.bind · _) <| alloc_node_of_ne <| Nat.ne_of_lt h.lPorts

theorem free_alloc (h : n.Bounded) : (n.alloc x).free n.fresh = n.reserve 1 := by
  rw [alloc, free, reserve, Function.update_idem, ← h.node_fresh, Function.update_eq_self]

theorem add_fresh : n.add n.fresh x = (n.alloc x).enlist n.fresh := by
  simp [add, alloc, enlist]

theorem Inv.reserve (h : n.Inv) (k : Nat) : (n.reserve k).Inv :=
  h.congr rfl rfl rfl rfl (Nat.le_add_right ..)
    (fun c hc => (h.clients c hc).imp_left (Nat.lt_add_right k)) h.clients_nodup

theorem Opening.reserve (n : Net) (k : Nat) : n.Opening (n.reserve k) where
  loose hb := .inl <| hb.congr rfl rfl rfl
  firm    := id
  clients := .inl
  live    := id
  sound h := ⟨h.client, h.remote⟩

theorem modify_alloc : (n.alloc x).modify n.fresh f = n.alloc (f x) := by
  rw [modify, alloc_node_self, alloc, Function.update_idem, Option.map_some]
  rfl

theorem Bounded.alloc (h : n.Bounded) : (n.alloc x).Bounded where
  live a ha := by
    by_cases hn : a = n.fresh
    case pos => exact hn ▸ Nat.lt_succ_self a
    case neg =>
      rw [Live, alloc_node_of_ne hn] at ha
      exact Nat.lt_succ_of_lt <| h.live a ha
  ports a ha   := Nat.lt_succ_of_lt <| h.ports a ha
  clients a ha := Nat.lt_succ_of_lt <| h.clients a ha
  lPorts       := Nat.lt_succ_of_lt h.lPorts
  script s hs  := Nat.lt_succ_of_lt <| h.script s <| script_alloc h ▸ hs

end Net

section Refines

variable {σ σ' : State} {n : Net} {a b : Addr} {p : Port}

theorem Refines.malloc (h : Refines σ n) (hb : n.Bounded) :
    Refines (σ.malloc p) (n.alloc p.node) where
  node a := by
    by_cases ha : a = σ.fresh
    case pos =>
      subst ha
      rw [State.malloc_port_self, h.fresh, Net.alloc_node_self]
      rfl
    case neg =>
      rw [State.malloc_port_of_ne ha, Net.alloc_node_of_ne (h.fresh ▸ ha)]
      exact h.node a
  ports := h.ports.congr fun a ha =>
    Function.update_of_ne (h.fresh ▸ Nat.ne_of_lt (hb.ports a ha)) ..
  clients {s sp} hs hp := by
    have hs := Net.script_alloc hb ▸ hs
    rw [State.malloc_port_of_ne (h.fresh ▸ Nat.ne_of_lt (hb.script s hs))] at hp
    exact (h.clients hs hp).congr fun c hc =>
      Function.update_of_ne (h.fresh ▸ Nat.ne_of_lt (hb.clients c hc)) ..
  fresh  := congrArg (· + 1) h.fresh
  lPorts := h.lPorts
  rPorts := h.rPorts

theorem Refines.push (h : Refines σ n) (ha : a ∉ n.ports) : Refines (σ.push a) (n.enlist a) :=
  ⟨h.node, h.ports.push ha, h.clients, h.fresh, h.lPorts, h.rPorts⟩

theorem Refines.set_peer (h : Refines σ n) (a : Addr) (b : Option Addr) :
    Refines (σ.modify a ({ · with peer := b })) (n.modify a ({ · with peer := b })) :=
  h.modify (fun _ _ => ⟨rfl, rfl⟩) <| Net.script_modify fun _ _ => rfl

theorem le_of_fdSet {fd : Int} (h : σ.fdSet fd = some σ') : 0 ≤ fd := by
  simp only [State.fdSet] at h
  split at h
  case isTrue hfd => exact hfd.left
  case isFalse    => contradiction

end Refines

section Net

variable {n : Net} {a b s : Addr} {x y : Node}

-- A connection which is not linked to a script port yet.
structure Node.IsNew (x : Node) : Prop where
  cls : x.cls = none
  readMessage : x.readMessage = some .remotePort
  portclose : x.portclose = some .tcp
  isOpen : x.isOpen
  scriptRef : x.scriptRef = none

theorem Net.Inv.add_new (h : n.Inv) (ha : n.node a = none) (hc : a ∉ n.clients) (hx : x.IsNew)
    (hp : ∀ b, x.peer = some b → ∃ y, n.node b = some y ∧ y.isPermanent) : (n.add a x).Inv := by
  apply h.add ha hc ?_ ?_ ?_ hp
  · exact .conn (List.mem_cons_self ..) hx.cls hx.readMessage hx.portclose hx.isOpen
  · simp [Node.isPermanent, hx.cls]
  · simp [hx.scriptRef]

-- Both sides of a connection to a TCP remote.
theorem Net.Inv.connect (h : n.Inv) (hx : x.IsNew) (hy : y.IsNew) (hxp : x.peer = none)
    (hyp : y.peer = none) :
    let m := ((n.add (n.fresh + 1) y).add n.fresh x).link n.fresh (n.fresh + 1)
    m.Inv ∧ n.Opening m := by
  have hn₁ : n.node (n.fresh + 1) = none := by
    cases hz : n.node (n.fresh + 1)
    case none   => rfl
    case some z =>
      have hlt := h.lt_fresh _ <| live_iff.mpr ⟨z, hz⟩
      exact absurd hlt <| Nat.not_lt_of_le <| Nat.le_succ _
  have hc {a : Addr} (ha : n.fresh ≤ a) : a ∉ n.clients :=
    fun hm => Nat.not_lt_of_le ha (h.clients a hm).left
  have h₁ := h.add_new hn₁ (hc <| Nat.le_succ _) hy (by simp [hyp])
  have hn₂ : (n.add (n.fresh + 1) y).node n.fresh = none := by
    simpa [Net.add] using h.bounded.node_fresh
  have h₂ := h₁.add_new hn₂ (hc <| Nat.le_refl _) hx (by simp [hxp])
  have hx' : ((n.add (n.fresh + 1) y).add n.fresh x).node n.fresh = some x := by simp [Net.add]
  have hy' : ((n.add (n.fresh + 1) y).add n.fresh x).node (n.fresh + 1) = some y := by
    simp [Net.add]
  have hne : n.fresh ≠ n.fresh + 1 := Nat.ne_of_lt <| Nat.lt_succ_self _
  refine ⟨h₂.link hx' hy' hne hx.cls hy.cls hxp hyp, ?_⟩
  have hxc : x.cls ≠ some .scriptClient := by simp [hx.cls]
  have hyc : y.cls ≠ some .scriptClient := by simp [hy.cls]
  apply (Opening.add h hn₁ hyc).trans <| (Opening.add h₁ hn₂ hxc).trans ?_
  exact Opening.link hx' hy' hne hxc hyc

-- A connection to a remote port which is itself the peer.
theorem Net.Inv.attach (h : n.Inv) (hx : x.IsNew) (hy : n.node n.rPorts = some y)
    (hya : y.isAttachable) (hxp : x.peer = some n.rPorts) :
    let m := (n.add n.fresh x).modify n.rPorts ({ · with peer := some n.fresh })
    m.Inv ∧ n.Opening m := by
  have hn := h.bounded.node_fresh
  have hr : n.rPorts ≠ n.fresh := by
    intro he
    cases (he ▸ hn).symm.trans hy
  have hyp := h.isPermanent_rPorts hy
  have hc : n.fresh ∉ n.clients := fun hm => Nat.lt_irrefl _ (h.clients _ hm).left
  have h₁ := h.add_new hn hc hx fun b hb => by
    cases hxp.symm.trans hb
    exact ⟨y, hy, hyp⟩
  have hy' : (n.add n.fresh x).node n.rPorts = some y := by simp [Net.add, hr, hy]
  have hx' : (n.add n.fresh x).node n.fresh = some x := by simp [Net.add]
  constructor
  · apply h₁.modify hy' ?_ rfl (.inl rfl) ?_ (.inl hyp)
    · exact (h₁.role hy').set_remote_peer hya (h.cls_rPorts hy) _
    · rintro b _ hb
      cases hb
      exact ⟨x, hx', hr.symm, .inr hxp⟩
  · have hxc : x.cls ≠ some .scriptClient := by simp [hx.cls]
    exact (Opening.add h hn hxc).trans <| Opening.set_peer hy' ⟨x, hx', hxc⟩

-- The local port itself as the peer of a new connection, or of the remote port.
theorem Net.Inv.forward_connect (h : n.Inv) (hx : x.IsNew) (hxp : x.peer = some n.lPorts) :
    let m := (n.add n.fresh x).modify n.lPorts ({ · with peer := some n.fresh })
    m.Inv ∧ n.Opening m := by
  have hn := h.bounded.node_fresh
  have ⟨l, hl, hlc⟩ := h.lPort
  have hlp := h.isPermanent_lPorts hl
  have hne : n.lPorts ≠ n.fresh := Nat.ne_of_lt h.bounded.lPorts
  have hc : n.fresh ∉ n.clients := fun hm => Nat.lt_irrefl _ (h.clients _ hm).left
  have h₁ := h.add_new hn hc hx fun b hb => by
    cases hxp.symm.trans hb
    exact ⟨l, hl, hlp⟩
  have hl' : (n.add n.fresh x).node n.lPorts = some l := by simp [Net.add, hne, hl]
  have hx' : (n.add n.fresh x).node n.fresh = some x := by simp [Net.add]
  refine ⟨h₁.set_local_peer hl' _, ?_⟩
  have hxc : x.cls ≠ some .scriptClient := by simp [hx.cls]
  exact (Opening.add h hn hxc).trans <| Opening.set_peer hl' ⟨x, hx', hxc⟩

theorem Net.Inv.forward_attach (h : n.Inv) (hy : n.node n.rPorts = some y) (hya : y.isAttachable) :
    let m := (n.modify n.rPorts ({ · with peer := some n.lPorts })).modify n.lPorts
      ({ · with peer := some n.rPorts })
    m.Inv ∧ n.Opening m := by
  have ⟨l, hl, hlc⟩ := h.lPort
  have hyc := h.cls_rPorts hy
  have hlp := h.isPermanent_lPorts hl
  have hne : n.lPorts ≠ n.rPorts := by
    intro he
    cases (he ▸ hl).symm.trans hy
    simp [hlc] at hyc
  have h₁ : (n.modify n.rPorts ({ · with peer := some n.lPorts })).Inv := by
    apply h.modify hy ?_ rfl (.inl rfl) ?_ (.inl <| h.isPermanent_rPorts hy)
    · exact (h.role hy).set_remote_peer hya hyc _
    · rintro b _ hb
      cases hb
      exact ⟨l, hl, hne, .inl hlp⟩
  have hl' := (modify_node_of_ne hne (f := ({ · with peer := some n.lPorts }))).trans hl
  have ho := Opening.set_peer hy ⟨l, hl, by simp [hlc]⟩
  refine ⟨h₁.set_local_peer hl' _, ?_⟩
  exact ho.trans <| Opening.set_peer hl' <| ho.firm ⟨y, hy, by simp [hyc]⟩

theorem Net.Inv.set_scriptRef (h : n.Inv) (hx : n.node a = some x) (ha : a ≠ n.lPorts)
    (hs : n.script = some s) :
    let m := n.modify a ({ · with scriptRef := some s })
    m.Inv ∧ n.Opening m ∧ m.script = some s := by
  have hm : (n.modify a ({ · with scriptRef := some s })).script = n.script :=
    script_modify_of_ne ha
  refine ⟨?_, ?_, hm.trans hs⟩
  · apply h.modify_of_peer hx ((h.role hx).set_scriptRef s) rfl rfl (.inr ⟨ha, ?_⟩) rfl
    exact fun _ he => he ▸ hs
  · exact .modify hx (by rfl) hm ⟨rfl, .inl, .inl, .inl⟩

-- Both sides of a connection get to know the script port, and the other way around.
theorem Net.Inv.bind (h : n.Inv) (ha : n.Firm a) (hb : n.Firm b) (hal : a ≠ n.lPorts)
    (hbl : b ≠ n.lPorts) (hs : n.script = some s) :
    let m := ((n.modify a ({ · with scriptRef := some s })).modify b
      ({ · with scriptRef := some s })).modify s ({ · with lscript := some a, rscript := some b })
    m.Inv ∧ n.Opening m := by
  have ⟨x, hx, _⟩ := ha
  have ⟨h₁, ho₁, hs₁⟩ := h.set_scriptRef hx hal hs
  have ⟨y, hy, _⟩ := ho₁.firm hb
  have ⟨h₂, ho₂, hs₂⟩ := h₁.set_scriptRef hy hbl hs₁
  have ⟨z, hz, _⟩ := h₂.sPort s hs₂
  constructor
  · exact h₂.modify_of_peer hz ((h₂.role hz).set_sides ..) rfl rfl (.inl rfl) rfl
  · refine (ho₁.trans ho₂).trans <| .modify hz (by rfl) (script_modify fun _ _ => rfl) ?_
    have hf {c : Addr} (hc : n.Firm c) := ho₂.firm <| ho₁.firm hc
    refine ⟨rfl, .inl, fun h => ?_, fun h => ?_⟩
    · exact .inr <| hf <| Option.some.inj h ▸ ha
    · exact .inr <| hf <| Option.some.inj h ▸ hb

-- A client in front of the others.
def Net.addClient (n : Net) (x : Node) : Net :=
  { n.add n.fresh x with clients := n.fresh :: n.clients }

theorem Net.Inv.add_client (h : n.Inv) (hs : n.script = some s) (hc : x.cls = some .scriptClient)
    (hr : x.readMessage = some .scriptClientPort) (hx : x.portclose = some .tcp) (ho : x.isOpen)
    (hp : x.peer = none) (hsr : x.scriptRef = some s) (hw : x.portwrite = some .tcp) :
    (n.addClient x).Inv ∧ n.Opening (n.addClient x) := by
  have hn := h.bounded.node_fresh
  have hnc : n.fresh ∉ n.clients := fun hm => Nat.lt_irrefl _ (h.clients _ hm).left
  have h₁ : (n.add n.fresh x).Inv := by
    apply h.add hn hnc ?_ ?_ ?_ (by simp [hp])
    · exact .client (List.mem_cons_self ..) hc hr hx ho hp (by simp [hsr]) hw
    · simp [Node.isPermanent, hc]
    · exact fun t ht => Option.some.inj (hsr.symm.trans ht) ▸ hs
  have hx' : (n.add n.fresh x).node n.fresh = some x := by simp [Net.add]
  constructor
  · refine h₁.congr rfl rfl rfl rfl (Nat.le_refl _) ?_ (List.nodup_cons.mpr ⟨hnc, h.clients_nodup⟩)
    intro c hm
    cases List.mem_cons.mp hm
    case inr hm => exact h₁.clients c hm
    case inl hm =>
      subst hm
      refine ⟨h₁.lt_fresh _ <| live_iff.mpr ⟨x, hx'⟩, fun y hy => ?_⟩
      cases hx'.symm.trans hy
      exact hc
  · have hadd {b : Addr} {y : Node} (hy : n.node b = some y) : (n.addClient x).node b = some y :=
      node_add hn hy
    refine ⟨fun hb => ?_, fun hb => hb.imp fun _ => And.imp_left hadd, fun hm => ?_, fun hl => ?_,
      fun hn' => ?_⟩
    case refine_1 => exact .inl <| Loose.of_add (x := x) (hb.congr rfl rfl rfl) h hn
    case refine_2 =>
      cases List.mem_cons.mp hm
      case inr hm => exact .inl hm
      case inl hm => exact .inr <| hm ▸ live_iff.mpr ⟨x, hx'⟩
    case refine_3 => exact live_iff.mpr <| (live_iff.mp hl).imp fun _ => hadd
    case refine_4 =>
      have h' : ({ n with clients := n.fresh :: n.clients } : Net).Sound :=
        ⟨fun hy hcy => List.mem_cons_of_mem _ <| hn'.client hy hcy, hn'.remote⟩
      have hr : n.Live n.rPorts := live_iff.mpr <| h.rPort.imp fun _ => And.left
      exact h'.add hr hn fun _ => List.mem_cons_self ..

end Net

section OpenRemotePort

-- A connection to the remote side, as `openRemotePort` sets it up for `peer`.
def remoteConn (sock : Int) (peer : Option Addr) : Node :=
  Port.node {
    readMessage := some .remotePort, portclose := some .tcp, portwrite := some .tcp, sock, peer }

-- What may come out of `openRemotePort` for the port `a` whose remote is `b`: nothing, the remote
-- itself, or a new connection.
inductive Opened (n : Net) (a b : Addr) : Option Addr → Net → Prop
  | none (k : Nat) : Opened n a b none (n.reserve k)
  | attach (hy : n.node b = some y) (ht : y.isAttachable) :
    Opened n a b (some b) (n.modify b ({ · with peer := some a }))
  | connect (hs : 0 ≤ sock) :
    Opened n a b (some n.fresh) ((n.alloc <| remoteConn sock (some a)).enlist n.fresh)

variable {env : Env} {σ σ' : State} {n : Net} {a b : Addr} {x y : Node}

theorem Refines.openRemotePort {res : Option Addr} (h : Refines σ n) (hn : n.Bounded)
    (hx : n.node a = some x) (hr : x.remote = some b)
    (ho : openRemotePort env σ a = some (res, σ')) :
    ∃ n', Opened n a b res n' ∧ Refines σ' n' := by
  have ⟨p, hp, ho⟩ := Option.bind_eq_some_iff.mp ho
  have ⟨c, hc, ho⟩ := Option.bind_eq_some_iff.mp ho
  cases hx.symm.trans <| h.node_eq hp
  cases hc.symm.trans hr
  have ⟨r, hrp, ho⟩ := Option.bind_eq_some_iff.mp ho
  have hy := h.node_eq hrp
  cases ht : r.type
  case none => rw [ht] at ho; cases ho; exact ⟨_, .none 0, h⟩
  case some t =>
    cases t
    all_goals simp only [ht] at ho
    case tcp =>
      have hm : Refines ({ σ with time := σ.time + 1 }.malloc {
          readMessage := some .remotePort, portclose := some .tcp, portread := some .tcp,
          portwrite := some .tcp, sock := env.socket σ.time }) _ :=
        (Quiet.time ..).refines h |>.malloc hn
      have hf {τ : State} {x : Node} (hτ : Refines τ (n.alloc x)) :
          Refines (τ.free σ.fresh) (n.reserve 1) := by
        rw [← Net.free_alloc hn (x := x), h.fresh]
        exact hτ.free <| Nat.ne_of_lt hn.lPorts
      split at ho
      case isTrue => cases ho; exact ⟨_, .none 1, hf hm⟩
      case isFalse hs =>
        split at ho
        case isTrue => cases ho; exact ⟨_, .none 1, hf <| (Quiet.time ..).refines hm⟩
        case isFalse =>
          have ⟨σ₁, h₁, ho⟩ := Option.bind_eq_some_iff.mp ho
          have ⟨σ₂, h₂, ho⟩ := Option.bind_eq_some_iff.mp ho
          cases ho
          have hp := (Quiet.time _ (σ.time + 1 + 1)).refines hm |>.set_peer σ.fresh (some a)
          rw [h.fresh, Net.modify_alloc] at hp
          have hp := hp.push fun hm => Nat.lt_irrefl _ <| hn.ports _ hm
          have hq := (quiet_of_refresh h₁).trans <| quiet_of_fdSet h₂
          exact ⟨_, h.fresh ▸ .connect (by omega), hq.refines <| h.fresh ▸ hp⟩
    case stdinout | listen | fifoCon => cases ho; exact ⟨_, .none 0, h⟩
    all_goals
      cases ho
      refine ⟨_, .attach hy (by simp [Node.isAttachable, Port.node, ht]), ?_⟩
      exact h.set_peer ..

end OpenRemotePort

end Proxy
