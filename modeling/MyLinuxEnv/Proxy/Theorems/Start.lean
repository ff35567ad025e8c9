import MyLinuxEnv.Proxy.Theorems.Opening

open Memory

namespace Proxy

-- The memory of a proxy represents a network, while it does not have any clients yet.
structure Boots (σ : State) (n : Net) : Prop where
  core : ∀ a, (σ.port a).map Port.core = (n.node a).map (·, none)
  ports : Chain σ.next σ.rports n.ports
  clients : n.clients = []
  fresh : σ.fresh = n.fresh
  lPorts : σ.lPorts = n.lPorts
  rPorts : σ.rPorts = n.rPorts

namespace Boots

variable {σ σ' : State} {n : Net} {a : Addr} {p : Port}

theorem node_eq (h : Boots σ n) (hp : σ.port a = some p) :
    n.node a = some p.node ∧ p.clients = none := by
  have hc := h.core a
  rw [hp, Option.map_some] at hc
  have ⟨x, hx, hc⟩ := Option.map_eq_some_iff.mp hc.symm
  exact ⟨hx.trans <| congrArg _ <| congrArg Prod.fst hc, (congrArg Prod.snd hc).symm⟩

theorem refines (h : Boots σ n) : Refines σ n where
  node a := by
    have hc := congrArg (Option.map Prod.fst) (h.core a)
    simpa [Option.map_map, Function.comp_def, Port.core] using hc
  ports := h.ports
  clients _ hp := by
    rw [(h.node_eq hp).right, h.clients]
    exact .nil
  fresh  := h.fresh
  lPorts := h.lPorts
  rPorts := h.rPorts

theorem quiet (h : Boots σ n) (hq : Quiet σ σ') : Boots σ' n where
  core a  := (hq.core a).trans (h.core a)
  ports   := hq.next ▸ hq.rports ▸ h.ports
  clients := h.clients
  fresh   := hq.fresh.trans h.fresh
  lPorts  := hq.lPorts.trans h.lPorts
  rPorts  := hq.rPorts.trans h.rPorts

theorem modify {f : Port → Port} {g : Node → Node} (h : Boots σ n)
    (hf : ∀ p, (f p).core = (g p.node, p.clients)) : Boots (σ.modify a f) (n.modify a g) where
  core b := by
    by_cases hb : b = a
    case neg => simpa [Net.modify, hb] using h.core b
    case pos =>
      subst hb
      cases hp : σ.port b
      case none =>
        have hn := h.core b
        rw [hp, Option.map_none, eq_comm, Option.map_eq_none_iff] at hn
        simp [Net.modify, hp, hn]
      case some p => simp [Net.modify, hp, h.node_eq hp, hf]
  ports   := h.ports
  clients := h.clients
  fresh   := h.fresh
  lPorts  := h.lPorts
  rPorts  := h.rPorts

theorem malloc (h : Boots σ n) (hn : ∀ a ∈ n.ports, a < n.fresh) (hp : p.clients = none) :
    Boots (σ.malloc p) (n.alloc p.node) where
  core b := by
    by_cases hb : b = σ.fresh
    case pos =>
      subst hb
      rw [State.malloc_port_self, h.fresh, Net.alloc_node_self]
      simp [Port.core, hp]
    case neg =>
      rw [State.malloc_port_of_ne hb, Net.alloc_node_of_ne (h.fresh ▸ hb)]
      exact h.core b
  ports := h.ports.congr fun b hb =>
    Function.update_of_ne (h.fresh ▸ Nat.ne_of_lt (hn b hb)) ..
  clients := h.clients
  fresh   := congrArg (· + 1) h.fresh
  lPorts  := h.lPorts
  rPorts  := h.rPorts

theorem push (h : Boots σ n) (ha : a ∉ n.ports) : Boots (σ.push a) (n.enlist a) :=
  ⟨h.core, h.ports.push ha, h.clients, h.fresh, h.lPorts, h.rPorts⟩

end Boots

-- A network whose ports are numbered from zero, where the first one is the local port.
def Net.boot (nodes : List Node) (ports : List Addr) (rPorts : Addr) : Net where
  node a  := nodes[a]?
  ports   := ports
  clients := []
  fresh   := nodes.length
  lPorts  := 0
  rPorts  := rPorts

section Boot

variable {env : Env} {σ σ' : State} {nodes : List Node} {ports : List Addr} {a r : Addr}

theorem Net.boot_modify {f : Node → Node} :
    (Net.boot nodes ports r).modify a f = .boot (nodes.modify a f) ports r := by
  simp only [Net.modify, Net.boot, List.length_modify, Net.mk.injEq, and_true]
  funext b
  by_cases hb : b = a
  case pos => simp [hb]
  case neg => simp [hb, Ne.symm hb]

theorem Net.boot_alloc {x : Node} :
    (Net.boot nodes ports r).alloc x = .boot (nodes ++ [x]) ports r := by
  simp only [Net.alloc, Net.boot, List.length_append, List.length_singleton, Net.mk.injEq, and_true]
  funext b
  by_cases hb : b = nodes.length
  case pos => simp [hb]
  case neg =>
    rw [Function.update_of_ne hb]
    by_cases hlt : b < nodes.length
    case pos => rw [List.getElem?_append_left hlt]
    case neg =>
      have hlt' : nodes.length < b := Nat.lt_of_le_of_ne (Nat.not_lt.mp hlt) (Ne.symm hb)
      rw [List.getElem?_eq_none (Nat.le_of_lt hlt'), List.getElem?_eq_none]
      simpa using Nat.succ_le_of_lt hlt'

-- What the setup of a local port makes of the node.
def Node.asLocal (kind : LocalKind) (attach : Bool) (x : Node) : Node :=
  { x with
    cls := some <| if attach then .scriptPort else .localPort
    readMessage := some <| if attach then .scriptPort else .localPort
    portwrite := some kind.driver, type := some kind.type, isOpen := true }

theorem openSocket_eq {sock : Int} (h : openSocket env σ = some (sock, σ')) :
    0 ≤ sock ∧ Quiet σ σ' := by
  simp only [openSocket] at h
  split at h
  · contradiction
  · cases h
    exact ⟨by omega, .time ..⟩

theorem Boots.setupLocalPort {kind : LocalKind} {attach : Bool}
    (h : Boots σ (.boot nodes ports r)) (ha : a ∉ ports)
    (hs : setupLocalPort env σ a kind attach = some σ') :
    Boots σ' (.boot (nodes.modify a <| .asLocal kind attach) (a :: ports) r) := by
  have ⟨⟨sock, σ₁⟩, h₁, hs⟩ := ite_bind_eq_some_iff.mp hs
  cases hs
  have ⟨hsock, hq⟩ : 0 ≤ sock ∧ Quiet σ σ₁ := by
    split at h₁
    · cases h₁; exact ⟨Int.le_refl 0, .refl _⟩
    · exact openSocket_eq h₁
  have hm := (h.quiet hq).modify (a := a) (g := .asLocal kind attach) (f := ({ · with
    cls := some <| if attach then .scriptPort else .localPort
    readMessage := some <| if attach then .scriptPort else .localPort
    portread := some kind.driver, portwrite := some kind.driver, type := some kind.type, sock }))
    fun p => by
      simp only [Port.core, Port.node, Node.asLocal, Prod.mk.injEq, Node.mk.injEq, and_true,
        true_and, decide_eq_true_eq]
      omega
  rw [Net.boot_modify] at hm
  exact hm.push ha

-- The local port and the script port, before they get to know the remote port.
def Config.localNode (cfg : Config) : Node :=
  .asLocal cfg.lPort false <| ({} : Port).node

def Config.scriptNode (cfg : Config) (kind : LocalKind) (breakPort : Bool) : Node :=
  { Node.asLocal kind true ({} : Port).node with
    breakPort
    lscript := if cfg.lPort = .tcp then none else some 0 }

def Config.localNodes (cfg : Config) : List Node :=
  match cfg.scriptPort with
  | none                   => [cfg.localNode]
  | some (kind, breakPort) =>
    [{ cfg.localNode with scriptRef := some 1 }, cfg.scriptNode kind breakPort]

def Config.localPorts (cfg : Config) : List Addr :=
  if cfg.scriptPort.isSome then [1, 0] else [0]

theorem Boots.parseLocalPort {cfg : Config} (h : Boots σ (.boot [({} : Port).node] [] r))
    (hp : parseLocalPort env σ 0 cfg = some σ') :
    Boots σ' (.boot cfg.localNodes cfg.localPorts r) := by
  have ⟨σ₁, h₁, hp⟩ := Option.bind_eq_some_iff.mp hp
  have hl := h.setupLocalPort List.not_mem_nil h₁
  cases hc : cfg.scriptPort
  all_goals rw [hc] at hp
  case none =>
    have ⟨_, he, hp⟩ := Option.bind_eq_some_iff.mp hp
    have ⟨l, _, hp⟩ := Option.bind_eq_some_iff.mp hp
    cases he
    simpa [Config.localNodes, Config.localPorts, Config.localNode, hc] using
      hl.quiet <| quiet_of_fdSet hp
  case some sp =>
    have ⟨kind, breakPort⟩ := sp
    have hf : σ₁.fresh = 1 := hl.fresh
    dsimp only at hp
    rw [hf] at hp
    have ⟨σ₂, h₂, hp⟩ := Option.bind_eq_some_iff.mp hp
    have ⟨s, _, hp⟩ := Option.bind_eq_some_iff.mp hp
    have ⟨σ₃, h₃, hp⟩ := Option.bind_eq_some_iff.mp hp
    have ⟨_, he, hp⟩ := Option.bind_eq_some_iff.mp hp
    have ⟨l, _, hp⟩ := Option.bind_eq_some_iff.mp hp
    cases he
    have hm := hl.malloc (p := {}) (by simp [Net.boot]) rfl
    rw [Net.boot_alloc] at hm
    have hs := hm.setupLocalPort (by simp) h₂
    have hs' : Boots (if cfg.lPort = .tcp then σ₂ else
        σ₂.modify 1 ({ · with scriptInUse := true, lscript := some 0 }))
        (.boot [cfg.localNode, cfg.scriptNode kind false] [1, 0] r) := by
      by_cases hk : cfg.lPort = .tcp
      case pos =>
        rw [if_pos hk]
        simpa [Config.localNode, Config.scriptNode, Node.asLocal, Port.node, hk] using hs
      case neg =>
        rw [if_neg hk]
        have hs := hs.modify (a := 1) (f := ({ · with scriptInUse := true, lscript := some 0 }))
          (g := ({ · with lscript := some 0 })) fun _ => rfl
        rw [Net.boot_modify] at hs
        simpa [Config.localNode, Config.scriptNode, Node.asLocal, Port.node, hk] using hs
    have hr := (hs'.quiet <| quiet_of_fdSet h₃).modify (a := 0)
      (f := ({ · with scriptRef := some 1 })) (g := ({ · with scriptRef := some 1 })) fun _ => rfl
    rw [Net.boot_modify] at hr
    have hb := hr.modify (a := 1) (g := ({ · with breakPort }))
      (f := ({ · with lmode := 0, rmode := SCRIPT_READ + SCRIPT_WRITE, breakPort })) fun _ => rfl
    rw [Net.boot_modify] at hb
    simp only [Config.localNodes, Config.localPorts, hc]
    exact hb.quiet <| quiet_of_fdSet hp

-- What the setup makes of the remote port.
structure Node.IsRemote (type : Option PortType) (x : Node) : Prop where
  cls : x.cls = some .remotePort
  type_eq : x.type = type
  peer : x.peer = none
  scriptRef : x.scriptRef = none
  isOpen : type = some .udp → x.isOpen
  handler : x.readMessage = some .remotePort ∨
    type = some .listen ∧ x.readMessage = some .remotePortAccept ∨
    type = some .fifoCon ∧ x.readMessage = some .remotePortFifoCon

theorem Boots.modify_last {x : Node} {f : Port → Port} {g : Node → Node}
    (h : Boots σ (.boot (nodes ++ [x]) ports r)) (hf : ∀ p, (f p).core = (g p.node, p.clients)) :
    Boots (σ.modify nodes.length f) (.boot (nodes ++ [g x]) ports r) := by
  have hm := h.modify (a := nodes.length) hf
  have hl : (nodes ++ [x]).modify nodes.length g = nodes ++ [g x] :=
    List.modifyTailIdx_add (List.modifyHead g) 0 nodes [x]
  rwa [Net.boot_modify, hl] at hm

theorem Boots.manage (h : Boots σ (.boot nodes ports r)) (ha : a ∉ ports)
    (hm : manage σ a = some σ') : Boots σ' (.boot nodes (a :: ports) r) := by
  have ⟨p, _, hm⟩ := Option.bind_eq_some_iff.mp hm
  exact (h.push ha).quiet <| quiet_of_fdSet hm

theorem Boots.setupRemotePort {type : Option PortType}
    (h : Boots σ (.boot (nodes ++ [({} : Port).node]) ports r)) (ha : nodes.length ∉ ports)
    (hs : setupRemotePort env σ nodes.length type = some σ') :
    ∃ x ports', x.IsRemote type ∧ Boots σ' (.boot (nodes ++ [x]) ports' r) ∧
      (ports' = nodes.length :: ports ∨ ports' = ports ∧ ¬x.isAttachable) ∧
      (nodes.length ∈ ports' → x.type.any (·.hasDriver)) := by
  have h₀ := h.modify_last
    (f := ({ · with cls := some .remotePort, sock := -1, readMessage := some .remotePort, type }))
    (g := ({ · with
      cls := some .remotePort, isOpen := false, readMessage := some .remotePort, type }))
    fun _ => rfl
  -- The handle and the drivers of the types which are managed.
  have hdrivers {τ : State} {x : Node} {portio d : Driver} {sock : Int} (hsock : 0 ≤ sock)
      (hτ : Boots τ (.boot (nodes ++ [x]) ports r)) :=
    hτ.modify_last
      (f := ({ · with
        portread := some portio, portwrite := some portio, portclose := some d, sock }))
      (g := ({ · with portclose := some d, portwrite := some portio, isOpen := true })) fun p => by
        simp only [Port.core, Port.node, Prod.mk.injEq, Node.mk.injEq, and_true, true_and,
          decide_eq_true_eq]
        omega
  simp only [Proxy.setupRemotePort] at hs
  split at hs
  case h_1 =>
    obtain ⟨⟨sock, σ₁⟩, ho, hs⟩ := Option.bind_eq_some_iff.mp hs
    obtain ⟨hsock, hq⟩ := openSocket_eq ho
    refine ⟨_, _, ?_, (hdrivers hsock (h₀.quiet hq)).manage ha hs, .inl rfl, fun _ => rfl⟩
    exact ⟨rfl, rfl, rfl, rfl, fun _ => rfl, .inl rfl⟩
  case h_2 =>
    obtain ⟨⟨sock, σ₁⟩, ho, hs⟩ := Option.bind_eq_some_iff.mp hs
    obtain ⟨hsock, hq⟩ := openSocket_eq ho
    have hr := (h₀.quiet hq).modify_last (f := ({ · with readMessage := some .remotePortAccept }))
      (g := ({ · with readMessage := some .remotePortAccept })) fun _ => rfl
    refine ⟨_, _, ?_, (hdrivers hsock hr).manage ha hs, .inl rfl, fun _ => rfl⟩
    exact ⟨rfl, rfl, rfl, rfl, fun _ => rfl, .inr <| .inl ⟨rfl, rfl⟩⟩
  case h_3 =>
    split at hs
    case isTrue => contradiction
    case isFalse hsock =>
      have hr := (h₀.quiet <| .time _ (σ.time + 1)).modify_last
        (f := ({ · with readMessage := some .remotePortFifoCon }))
        (g := ({ · with readMessage := some .remotePortFifoCon })) fun _ => rfl
      have hm := (hdrivers (Int.not_lt.mp hsock) hr).manage ha hs
      refine ⟨_, _, ?_, hm, .inl rfl, fun _ => rfl⟩
      exact ⟨rfl, rfl, rfl, rfl, fun _ => rfl, .inr <| .inr ⟨rfl, rfl⟩⟩
  case h_4 =>
    split at hs
    case isTrue => contradiction
    case isFalse hsock =>
      have hm := (hdrivers (Int.not_lt.mp hsock) (h₀.quiet <| .time ..)).manage ha hs
      refine ⟨_, _, ?_, hm, .inl rfl, fun _ => rfl⟩
      exact ⟨rfl, rfl, rfl, rfl, fun _ => rfl, .inl rfl⟩
  case h_5 =>
    cases hs
    refine ⟨_, _, ?_, (hdrivers (Int.le_refl 0) h₀).push ha, .inl rfl, fun _ => rfl⟩
    exact ⟨rfl, rfl, rfl, rfl, fun _ => rfl, .inl rfl⟩
  case h_6 hu _ _ hr hb =>
    cases hs
    refine ⟨_, _, ?_, h₀, .inr ⟨rfl, ?_⟩, fun hm => absurd hm ha⟩
    · exact ⟨rfl, rfl, rfl, rfl, fun h => absurd h hu, .inl rfl⟩
    · simpa [Node.isAttachable] using ⟨⟨hu, hr⟩, hb⟩

end Boot

section Start

variable {env : Env} {σ σ' : State} {cfg : Config} {nodes : List Node} {ports : List Addr}
  {a r : Addr} {x : Node}

-- A network in which no port has a peer yet.
theorem Net.inv_boot (hd : ports.Nodup) (hp : ∀ a ∈ ports, a < nodes.length)
    (hr : ∀ {a x}, nodes[a]? = some x → (boot nodes ports r).Role a x ∧ x.peer = none ∧
      ∀ s, x.scriptRef = some s → (boot nodes ports r).script = some s)
    (hl : ∃ x, nodes[0]? = some x ∧ x.cls = some .localPort)
    (hR : ∃ x, nodes[r]? = some x ∧ x.cls = some .remotePort)
    (hs : ∀ s, (boot nodes ports r).script = some s →
      ∃ x, nodes[s]? = some x ∧ x.cls = some .scriptPort) :
    (boot nodes ports r).Inv where
  nodup := hd
  live a ha := live_iff.mpr ⟨_, List.getElem?_eq_getElem <| hp a ha⟩
  lt_fresh a ha :=
    have ⟨_, hx⟩ := live_iff.mp ha
    (List.getElem?_eq_some_iff.mp hx).choose
  role hx := (hr hx).left
  lPort := hl
  rPort := hR
  sPort := hs
  scriptRef hx := (hr hx).right.right _
  peer hx _ hb := by cases (hr hx).right.left.symm.trans hb
  clients _ hm := absurd hm List.not_mem_nil
  clients_nodup := List.nodup_nil

theorem Net.sound_boot (hc : ∀ x ∈ nodes, x.cls ≠ some .scriptClient)
    (hr : r ∈ ports → ∀ x, nodes[r]? = some x → x.type.any (·.hasDriver)) :
    (boot nodes ports r).Sound where
  client hx hcx  := absurd hcx <| hc _ <| List.mem_of_getElem? hx
  remote hm hx   := hr hm _ hx

theorem LocalKind.type_ne (kind : LocalKind) :
    some kind.type ≠ some PortType.listen ∧ some kind.type ≠ some PortType.fifoCon := by
  cases kind <;> decide

theorem Net.role_localNode (h : 0 ∈ ports) (s : Option Addr) :
    (boot nodes ports r).Role 0 { cfg.localNode with remote := some r, scriptRef := s } :=
  .localPort rfl rfl cfg.lPort.type_ne rfl rfl h

theorem Net.role_remote (hx : x.IsRemote cfg.remote) (h : x.isAttachable → r ∈ ports)
    (s : Option Addr) : (boot nodes ports r).Role r { x with scriptRef := s } := by
  refine .remotePort rfl hx.cls ?_ ?_ h fun hn => absurd hx.peer hn
  · simpa [hx.type_eq] using hx.handler
  · exact fun ht => hx.isOpen <| hx.type_eq ▸ ht

theorem Net.role_scriptNode {kind : LocalKind} {breakPort : Bool}
    (h : (boot nodes ports r).script = some a) (b : Option Addr) :
    (boot nodes ports r).Role a { cfg.scriptNode kind breakPort with rscript := b } :=
  .scriptPort h rfl kind.type_ne rfl rfl

-- Without a script port, there aren't any links.
theorem Net.boot_alone (hx : x.IsRemote cfg.remote)
    (hp : ports = [1, 0] ∨ ports = [0] ∧ ¬x.isAttachable) :
    let n := boot [{ cfg.localNode with remote := some 1 }, x] ports 1
    n.Inv ∧ n.Valid := by
  have hs : (boot [{ cfg.localNode with remote := some 1 }, x] ports 1).script = none := rfl
  have h0 : 0 ∈ ports := by rcases hp with rfl | ⟨rfl, _⟩ <;> simp
  have h1 : x.isAttachable → 1 ∈ ports := by
    rcases hp with rfl | ⟨rfl, hn⟩
    · simp
    · exact fun h => absurd h hn
  constructor
  · apply inv_boot
    · rcases hp with rfl | ⟨rfl, _⟩ <;> decide
    · rcases hp with rfl | ⟨rfl, _⟩ <;> simp
    · intro a y hy
      rcases a with _ | _ | a
      · cases hy
        exact ⟨role_localNode h0 none, rfl, nofun⟩
      · cases hy
        have hr : (boot [{ cfg.localNode with remote := some 1 }, x] ports 1).Role 1 _ :=
          role_remote hx h1 none
        have he : { x with scriptRef := none } = x := by rw [← hx.scriptRef]
        exact ⟨he ▸ hr, hx.peer, fun s hs => by cases hx.scriptRef.symm.trans hs⟩
      · contradiction
    · exact ⟨_, rfl, rfl⟩
    · exact ⟨_, rfl, hx.cls⟩
    · exact fun s h => by cases hs.symm.trans h
  · constructor
    · intro b hb
      cases hb
      case lPeer hy h        => cases hy; contradiction
      case rPeer hy _ h      => cases hy; cases hx.peer.symm.trans h
      case lscript hs' _ _   => cases hs.symm.trans hs'
      case rscript hs' _ _   => cases hs.symm.trans hs'
    · exact fun hm => absurd hm List.not_mem_nil

-- The script port may be linked to the local port and to the remote port from the beginning.
theorem Net.boot_script (cfg : Config) (kind : LocalKind) (breakPort : Bool) (b s : Option Addr)
    (hx : x.IsRemote cfg.remote) (hp : ports = [2, 1, 0] ∨ ports = [1, 0] ∧ ¬x.isAttachable)
    (hb : ∀ c, b = some c → c = 2) (hs : ∀ c, s = some c → c = 1) :
    let n := boot [{ cfg.localNode with remote := some 2, scriptRef := some 1 },
      { cfg.scriptNode kind breakPort with rscript := b }, { x with scriptRef := s }] ports 2
    n.Inv ∧ n.Valid := by
  intro n
  have hscript : n.script = some 1 := rfl
  have h0 : 0 ∈ ports := by rcases hp with rfl | ⟨rfl, _⟩ <;> simp
  have h2 : x.isAttachable → 2 ∈ ports := by
    rcases hp with rfl | ⟨rfl, hn⟩
    · simp
    · exact fun h => absurd h hn
  constructor
  · apply inv_boot
    · rcases hp with rfl | ⟨rfl, _⟩ <;> decide
    · rcases hp with rfl | ⟨rfl, _⟩ <;> simp
    · intro a y hy
      rcases a with _ | _ | _ | a
      · cases hy
        exact ⟨role_localNode h0 _, rfl, fun s h => h⟩
      · cases hy
        exact ⟨role_scriptNode hscript b, rfl, nofun⟩
      · cases hy
        exact ⟨role_remote hx h2 s, hx.peer, fun c h => by rw [hs c h]; rfl⟩
      · contradiction
    · exact ⟨_, rfl, rfl⟩
    · exact ⟨_, rfl, hx.cls⟩
    · intro c h
      cases hscript.symm.trans h
      exact ⟨_, rfl, rfl⟩
  · have hf0 : n.Firm 0 := ⟨_, rfl, by simp [Config.localNode, Node.asLocal]⟩
    have hf2 : n.Firm 2 := ⟨_, rfl, by simp [hx.cls]⟩
    constructor
    · intro c hc
      cases hc
      case lPeer hy h   => cases hy; contradiction
      case rPeer hy _ h => cases hy; cases hx.peer.symm.trans h
      case lscript hs' hy h =>
        cases hscript.symm.trans hs'
        cases hy
        simp only [Config.scriptNode] at h
        split at h
        · contradiction
        · cases h; exact hf0
      case rscript hs' hy h =>
        cases hscript.symm.trans hs'
        cases hy
        exact hb c h ▸ hf2
    · exact fun hm => absurd hm List.not_mem_nil

-- The program begins with a network in which all links are valid.
theorem start_sound (h : start env cfg = some σ) :
    ∃ n, Refines σ n ∧ n.Inv ∧ n.Valid ∧ n.Sound := by
  have ⟨σ₁, h₁, h⟩ := Option.bind_eq_some_iff.mp h
  have ⟨σ₂, h₂, h⟩ := Option.bind_eq_some_iff.mp h
  have ⟨l, hl, h⟩ := Option.bind_eq_some_iff.mp h
  have ⟨q, hq, h⟩ := Option.bind_eq_some_iff.mp h
  have hb₀ : Boots (({ lPorts := 0 } : State).malloc {}) (.boot [({} : Port).node] [] 0) := by
    refine ⟨fun a => ?_, .nil, rfl, rfl, rfl, rfl⟩
    cases a
    · rfl
    · rfl
  have hb₁ := hb₀.parseLocalPort h₁
  have hb₂ : Boots { σ₁ with rPorts := σ₁.fresh }
      (.boot cfg.localNodes cfg.localPorts cfg.localNodes.length) :=
    ⟨hb₁.core, hb₁.ports, hb₁.clients, hb₁.fresh, hb₁.lPorts, hb₁.fresh⟩
  have hlt : ∀ a ∈ cfg.localPorts, a < cfg.localNodes.length := by
    cases hc : cfg.scriptPort <;> simp [Config.localPorts, Config.localNodes, hc]
  have hm := hb₂.malloc (p := {}) hlt rfl
  rw [Net.boot_alloc] at hm
  have hf : σ₁.fresh = cfg.localNodes.length := hb₁.fresh
  rw [hf] at h₂ hm
  have ⟨x, ports, hx, hb₃, hp, hd⟩ := hm.setupRemotePort (fun hm => Nat.lt_irrefl _ <| hlt _ hm) h₂
  dsimp only at hl h
  rw [hf] at hl h
  have hb₄ := hb₃.modify (a := 0) (f := ({ · with remote := some cfg.localNodes.length }))
    (g := ({ · with remote := some cfg.localNodes.length })) fun _ => rfl
  rw [Net.boot_modify] at hb₄
  have hln := (hb₄.node_eq hl).left
  cases hc : cfg.scriptPort
  case none =>
    simp only [Config.localNodes, Config.localPorts, hc] at hb₄ hp hln h hd
    have hsr : l.scriptRef = none :=
      congrArg Node.scriptRef <| Option.some.inj <| hln.symm.trans rfl
    rw [hsr] at h
    have ⟨hi, hv⟩ := Net.boot_alone hx hp
    refine ⟨_, hb₄.quiet (quiet_of_refresh h) |>.refines, hi, hv, Net.sound_boot ?_ ?_⟩
    · simp [Config.localNode, Node.asLocal, hx.cls]
    · exact fun hm y hy => Option.some.inj hy ▸ hd hm
  case some sp =>
    have ⟨kind, breakPort⟩ := sp
    simp only [Config.localNodes, Config.localPorts, hc] at hb₄ hp hln h hd
    have hsr : l.scriptRef = some 1 :=
      congrArg Node.scriptRef <| Option.some.inj <| hln.symm.trans rfl
    rw [hsr] at h
    dsimp only at h
    split at h
    case isTrue =>
      have hb₅ := hb₄.modify (a := 1) (f := ({ · with scriptInUse := true, rscript := some 2 }))
        (g := ({ · with rscript := some 2 })) fun _ => rfl
      rw [Net.boot_modify] at hb₅
      have hb₆ := hb₅.modify (a := 2)
        (f := ({ · with mode := SCRIPT_READ + SCRIPT_WRITE, scriptRef := some 1 }))
        (g := ({ · with scriptRef := some 1 })) fun _ => rfl
      rw [Net.boot_modify] at hb₆
      have ⟨hi, hv⟩ := Net.boot_script cfg kind breakPort (some 2) (some 1) hx hp
        (fun _ h => (Option.some.inj h).symm) fun _ h => (Option.some.inj h).symm
      refine ⟨_, hb₆.quiet (quiet_of_refresh h) |>.refines, hi, hv, Net.sound_boot ?_ ?_⟩
      · simp [Config.localNode, Config.scriptNode, Node.asLocal, hx.cls]
      · exact fun hm y hy => Option.some.inj hy ▸ hd hm
    case isFalse =>
      have ⟨hi, hv⟩ := Net.boot_script cfg kind breakPort none none hx hp nofun nofun
      have he : { x with scriptRef := none } = x := by rw [← hx.scriptRef]
      rw [he] at hi hv
      refine ⟨_, hb₄.quiet (quiet_of_refresh h) |>.refines, hi, hv, Net.sound_boot ?_ ?_⟩
      · simp [Config.localNode, Config.scriptNode, Node.asLocal, hx.cls]
      · exact fun hm y hy => Option.some.inj hy ▸ hd hm

theorem start_represents (h : start env cfg = some σ) :
    ∃ n, Refines σ n ∧ n.Inv ∧ n.Valid := by
  have ⟨n, hσ, hi, hv, _⟩ := start_sound h
  exact ⟨n, hσ, hi, hv⟩

end Start

end Proxy
