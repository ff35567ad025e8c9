import Mathlib.Data.List.Nodup
import MyLinuxEnv.Proxy.Setup

namespace Proxy

-- The part of a port which says what it is and what it is linked to.
structure Node where
  type : Option PortType
  cls : Option Cls
  isOpen : Bool
  readMessage : Option Handler
  portclose : Option Driver
  portwrite : Option Driver
  breakPort : Bool
  peer : Option Addr
  remote : Option Addr
  scriptRef : Option Addr
  lscript : Option Addr
  rscript : Option Addr

def Port.node (p : Port) : Node where
  type        := p.type
  cls         := p.cls
  isOpen      := p.sock ≠ -1
  readMessage := p.readMessage
  portclose   := p.portclose
  portwrite   := p.portwrite
  breakPort   := p.breakPort
  peer        := p.peer
  remote      := p.remote
  scriptRef   := p.scriptRef
  lscript     := p.lscript
  rscript     := p.rscript

namespace Node

def isPermanent (x : Node) : Bool :=
  x.cls = some .localPort || x.cls = some .remotePort || x.cls = some .scriptPort

def isMaster (x : Node) : Bool :=
  x.type.any (·.isMaster)

-- The remote ports which are themselves the peer of a connection.
def isAttachable (x : Node) : Bool :=
  x.type = some .udp || x.type = some .rs232 || x.type = some .usb

-- The ports which are told when their peer goes away.
def isKept (x : Node) : Bool :=
  !x.isPermanent || (x.cls = some .remotePort && x.isMaster)

-- What becomes of a permanent port that is to be killed: a master receiver forgets its peer, and
-- the original handle of a port may be swapped back in.
structure Reset (x x' : Node) : Prop where
  peer : x'.peer = if x.cls = some .remotePort ∧ x.isMaster then none else x.peer
  handler : x'.readMessage = x.readMessage ∧ x'.isOpen = x.isOpen ∨
    x'.isOpen ∧ (x.type = some .listen ∧ x'.readMessage = some .remotePortAccept ∨
      x.type = some .fifoCon ∧ x'.readMessage = some .remotePortFifoCon)
  type : x'.type = x.type
  cls : x'.cls = x.cls
  portclose : x'.portclose = x.portclose
  portwrite : x'.portwrite = x.portwrite
  breakPort : x'.breakPort = x.breakPort
  remote : x'.remote = x.remote
  scriptRef : x'.scriptRef = x.scriptRef
  lscript : x'.lscript = x.lscript
  rscript : x'.rscript = x.rscript

end Node

-- The ports of a proxy as a network of nodes: which ones exist, which ones are managed and how
-- they are linked, apart from the memory that holds the lists.
structure Net where
  node : Addr → Option Node
  ports : List Addr
  clients : List Addr
  fresh : Addr
  lPorts : Addr
  rPorts : Addr

namespace Net

def script (n : Net) : Option Addr :=
  (n.node n.lPorts).bind (·.scriptRef)

def Live (n : Net) (a : Addr) : Prop :=
  (n.node a).isSome

-- The links of permanent ports which nobody clears.
inductive Loose (n : Net) : Addr → Prop
  | lPeer (hx : n.node n.lPorts = some x) (h : x.peer = some b) : Loose n b
  | rPeer (hx : n.node n.rPorts = some x) (hm : ¬x.isMaster) (h : x.peer = some b) : Loose n b
  | lscript (hs : n.script = some s) (hx : n.node s = some x) (h : x.lscript = some b) : Loose n b
  | rscript (hs : n.script = some s) (hx : n.node s = some x) (h : x.rscript = some b) : Loose n b

-- What a port is, which depends on its class.
inductive Role (n : Net) (a : Addr) (x : Node) : Prop
  | localPort (ha : a = n.lPorts) (hc : x.cls = some .localPort)
      (ht : x.type ≠ some .listen ∧ x.type ≠ some .fifoCon)
      (hr : x.readMessage = some .localPort) (hm : x.remote = some n.rPorts) (hp : a ∈ n.ports)
  | remotePort (ha : a = n.rPorts) (hc : x.cls = some .remotePort)
      (hr : x.readMessage = some .remotePort ∨
        x.type = some .listen ∧ x.readMessage = some .remotePortAccept ∨
        x.type = some .fifoCon ∧ x.readMessage = some .remotePortFifoCon)
      (ho : x.type = some .udp → x.isOpen) (hm : x.isAttachable → a ∈ n.ports)
      (hp : x.peer ≠ none → x.isAttachable)
  | scriptPort (ha : n.script = some a) (hc : x.cls = some .scriptPort)
      (ht : x.type ≠ some .listen ∧ x.type ≠ some .fifoCon)
      (hr : x.readMessage = some .scriptPort) (hp : x.peer = none)
  | conn (hm : a ∈ n.ports) (hc : x.cls = none) (hr : x.readMessage = some .remotePort)
      (hx : x.portclose = some .tcp) (ho : x.isOpen)
  | client (hm : a ∈ n.ports) (hc : x.cls = some .scriptClient)
      (hr : x.readMessage = some .scriptClientPort) (hx : x.portclose = some .tcp) (ho : x.isOpen)
      (hp : x.peer = none) (hs : x.scriptRef.isSome) (hw : x.portwrite = some .tcp)

structure Inv (n : Net) : Prop where
  nodup : n.ports.Nodup
  live : ∀ a ∈ n.ports, n.Live a
  lt_fresh : ∀ a, n.Live a → a < n.fresh
  role : ∀ {a x}, n.node a = some x → n.Role a x
  lPort : ∃ x, n.node n.lPorts = some x ∧ x.cls = some .localPort
  rPort : ∃ x, n.node n.rPorts = some x ∧ x.cls = some .remotePort
  sPort : ∀ s, n.script = some s → ∃ x, n.node s = some x ∧ x.cls = some .scriptPort
  scriptRef : ∀ {a x s}, n.node a = some x → x.scriptRef = some s → n.script = some s
  peer : ∀ {a x b}, n.node a = some x → x.isKept → x.peer = some b →
    ∃ y, n.node b = some y ∧ b ≠ a ∧ (y.isPermanent ∨ y.peer = some a)
  clients : ∀ c ∈ n.clients, c < n.fresh ∧ ∀ x, n.node c = some x → x.cls = some .scriptClient
  clients_nodup : n.clients.Nodup

def modify (n : Net) (a : Addr) (f : Node → Node) : Net :=
  { n with node := Function.update n.node a <| (n.node a).map f }

-- Removes connections together with their memory.
def without (n : Net) (K : List Addr) : Net :=
  { n with node := fun a => if a ∈ K then none else n.node a, ports := n.ports.filter (· ∉ K) }

-- The steps in which a connection is removed: it leaves the list, it is closed, and finally gives
-- back its memory.
def unlist (n : Net) (a : Addr) : Net :=
  { n with ports := n.ports.filter (· ≠ a) }

def shut (n : Net) (a : Addr) : Net :=
  (n.unlist a).modify a ({ · with isOpen := false })

def free (n : Net) (a : Addr) : Net :=
  { n with node := Function.update n.node a none }

def disown (n : Net) (c : Addr) : Net :=
  { n with clients := n.clients.filter (· ≠ c) }

-- Adds a connection to the front of the list.
def add (n : Net) (a : Addr) (x : Node) : Net where
  __    := n
  node  := Function.update n.node a (some x)
  ports := a :: n.ports
  fresh := max n.fresh (a + 1)

-- Makes two ports each other's peer.
def link (n : Net) (a b : Addr) : Net :=
  (n.modify a ({ · with peer := some b })).modify b ({ · with peer := some a })

section Node

variable {n : Net} {a b : Addr} {x y : Node} {f : Node → Node} {K : List Addr}

theorem modify_node_self (h : n.node a = some x) : (n.modify a f).node a = some (f x) := by
  simp [modify, h]

theorem modify_node_of_ne (h : b ≠ a) : (n.modify a f).node b = n.node b :=
  Function.update_of_ne h ..

theorem modify_node_eq_some : (n.modify a f).node b = some y ↔
    (b ≠ a ∧ n.node b = some y) ∨ (b = a ∧ ∃ x, n.node a = some x ∧ y = f x) := by
  by_cases h : b = a
  case pos =>
    subst h
    cases hx : n.node b <;> simp [modify, hx, eq_comm]
  case neg => simp [modify_node_of_ne h, h]

theorem without_node_eq_some : (n.without K).node a = some x ↔ a ∉ K ∧ n.node a = some x := by
  by_cases h : a ∈ K <;> simp [without, h]

theorem modify_modify {g : Node → Node} : (n.modify a f).modify a g = n.modify a (g <| f ·) := by
  cases h : n.node a <;> simp [modify, h]

theorem modify_of_node (h : n.node a = some x) : (n.modify a fun _ => x) = n := by
  rw [modify, h, Option.map_some, ← h, Function.update_eq_self]

theorem modify_comm {g : Node → Node} (h : a ≠ b) :
    (n.modify a f).modify b g = (n.modify b g).modify a f := by
  simp only [modify, Net.mk.injEq, and_true]
  rw [Function.update_of_ne h, Function.update_of_ne h.symm, Function.update_comm h.symm]

theorem modify_eq_of_node (h : n.node a = some x) : n.modify a f = n.modify a fun _ => f x := by
  simp [modify, h]

theorem free_shut : (n.shut a).free a = n.without [a] := by
  simp only [shut, without, free, modify, unlist, Function.update_idem, List.mem_singleton,
    Net.mk.injEq, and_true]
  funext b
  by_cases hb : b = a <;> simp [hb]

theorem shut_node_self (h : n.node a = some x) :
    (n.shut a).node a = some { x with isOpen := false } :=
  modify_node_self h

theorem shut_node_of_ne (h : b ≠ a) : (n.shut a).node b = n.node b :=
  modify_node_of_ne h

theorem modify_shut (h : b ≠ a) : (n.shut a).modify b f = (n.modify b f).shut a := by
  simp only [shut, modify, unlist, Net.mk.injEq, and_true]
  rw [Function.update_of_ne h, Function.update_of_ne h.symm, Function.update_comm h]

theorem free_without_shut : ((n.shut a).without [b]).free a = n.without [a, b] := by
  simp only [shut, without, free, modify, unlist, List.filter_filter, Net.mk.injEq, and_true]
  refine ⟨funext fun c => ?_, ?_⟩
  · by_cases hc : c = a <;> simp [hc]
  · simp [Bool.and_comm]

theorem add_node_eq_some : (n.add a x).node b = some y ↔
    (b ≠ a ∧ n.node b = some y) ∨ (b = a ∧ y = x) := by
  by_cases h : b = a
  case pos => simp [add, h, eq_comm]
  case neg => simp [add, h]

theorem live_iff : n.Live a ↔ ∃ x, n.node a = some x :=
  Option.isSome_iff_exists

end Node

section Role

variable {n n' : Net} {a : Addr} {x : Node}

theorem Role.mono (h : n.Role a x) (hl : n'.lPorts = n.lPorts) (hr : n'.rPorts = n.rPorts)
    (hs : n'.script = n.script) (hp : a ∈ n.ports → a ∈ n'.ports) : n'.Role a x := by
  cases h
  case localPort ha hc ht hr' hm hp' =>
    exact .localPort (ha.trans hl.symm) hc ht hr' (hr ▸ hm) (hp hp')
  case remotePort ha hc hr' ho hm hp' =>
    exact .remotePort (ha.trans hr.symm) hc hr' ho (hp <| hm ·) hp'
  case scriptPort ha hc ht hr' hp' => exact .scriptPort (hs.trans ha) hc ht hr' hp'
  case conn hm hc hr' hx ho        => exact .conn (hp hm) hc hr' hx ho
  case client hm hc hr' hx ho hp' hs' hw => exact .client (hp hm) hc hr' hx ho hp' hs' hw

theorem Role.set_peer (h : n.Role a x) (hc : x.cls = none) (b : Option Addr) :
    n.Role a { x with peer := b } := by
  cases h
  case conn hm _ hr hx ho => exact .conn hm hc hr hx ho
  all_goals simp_all

theorem Role.set_remote_peer (h : n.Role a x) (hx : x.isAttachable) (hc : x.cls = some .remotePort)
    (b : Option Addr) : n.Role a { x with peer := b } := by
  cases h
  case remotePort ha hc hr ho hm hp => exact .remotePort ha hc hr ho hm fun _ => hx
  all_goals simp_all

theorem Role.set_scriptRef (h : n.Role a x) (s : Addr) :
    n.Role a { x with scriptRef := some s } := by
  cases h
  case localPort ha hc ht hr hm hp      => exact .localPort ha hc ht hr hm hp
  case remotePort ha hc hr ho hm hp     => exact .remotePort ha hc hr ho hm hp
  case scriptPort ha hc ht hr hp        => exact .scriptPort ha hc ht hr hp
  case conn hm hc hr hx ho              => exact .conn hm hc hr hx ho
  case client hm hc hr hx ho hp _ hw    => exact .client hm hc hr hx ho hp rfl hw

theorem Role.set_sides (h : n.Role a x) (l r : Option Addr) :
    n.Role a { x with lscript := l, rscript := r } := by
  cases h
  case localPort ha hc ht hr hm hp      => exact .localPort ha hc ht hr hm hp
  case remotePort ha hc hr ho hm hp     => exact .remotePort ha hc hr ho hm hp
  case scriptPort ha hc ht hr hp        => exact .scriptPort ha hc ht hr hp
  case conn hm hc hr hx ho              => exact .conn hm hc hr hx ho
  case client hm hc hr hx ho hp hs hw   => exact .client hm hc hr hx ho hp hs hw

theorem Role.isPermanent_or (h : n.Role a x) :
    (x.isPermanent ∧ (a = n.lPorts ∨ a = n.rPorts ∨ n.script = some a)) ∨
      (¬x.isPermanent ∧ a ∈ n.ports ∧ x.portclose = some .tcp ∧ x.isOpen) := by
  cases h
  case localPort ha hc _ _ _ _  => exact .inl ⟨by simp [Node.isPermanent, hc], .inl ha⟩
  case remotePort ha hc _ _ _ _ => exact .inl ⟨by simp [Node.isPermanent, hc], .inr <| .inl ha⟩
  case scriptPort ha hc _ _ _   => exact .inl ⟨by simp [Node.isPermanent, hc], .inr <| .inr ha⟩
  case conn hm hc _ hx ho       => exact .inr ⟨by simp [Node.isPermanent, hc], hm, hx, ho⟩
  case client hm hc _ hx ho _ _ _ => exact .inr ⟨by simp [Node.isPermanent, hc], hm, hx, ho⟩

end Role

section Inv

variable {n : Net} {a b : Addr} {x y : Node} {f : Node → Node} {K : List Addr}

-- Every live port is permanent or managed.
theorem Inv.permanent_or_mem (h : n.Inv) (ha : n.Live a) :
    (a = n.lPorts ∨ a = n.rPorts ∨ n.script = some a) ∨ a ∈ n.ports := by
  have ⟨x, hx⟩ := live_iff.mp ha
  cases (h.role hx).isPermanent_or
  case inl hp => exact .inl hp.right
  case inr hp => exact .inr hp.right.left

theorem Inv.isPermanent_lPorts (h : n.Inv) (hx : n.node n.lPorts = some x) : x.isPermanent := by
  have ⟨y, hy, hc⟩ := h.lPort
  cases hx.symm.trans hy
  simp [Node.isPermanent, hc]

theorem Inv.cls_rPorts (h : n.Inv) (hx : n.node n.rPorts = some x) : x.cls = some .remotePort := by
  have ⟨y, hy, hc⟩ := h.rPort
  cases hx.symm.trans hy
  exact hc

theorem Inv.isPermanent_rPorts (h : n.Inv) (hx : n.node n.rPorts = some x) : x.isPermanent := by
  simp [Node.isPermanent, h.cls_rPorts hx]

theorem Inv.isPermanent_script (h : n.Inv) (hs : n.script = some a) (hx : n.node a = some x) :
    x.isPermanent := by
  have ⟨y, hy, hc⟩ := h.sPort a hs
  cases hx.symm.trans hy
  simp [Node.isPermanent, hc]

theorem script_without (h : n.lPorts ∉ K) : (n.without K).script = n.script := by
  simp [script, without, h]

theorem Inv.without (h : n.Inv) (hK : ∀ b ∈ K, ∀ x, n.node b = some x → ¬x.isPermanent)
    (hc : ∀ {a x b}, n.node a = some x → x.isKept → x.peer = some b → b ∈ K → a ∈ K) :
    (n.without K).Inv := by
  have ⟨l, hl, hlc⟩ := h.lPort
  have ⟨r, hr, hrc⟩ := h.rPort
  have hlK : n.lPorts ∉ K := fun hm => hK _ hm l hl <| h.isPermanent_lPorts hl
  have hrK : n.rPorts ∉ K := fun hm => hK _ hm r hr <| h.isPermanent_rPorts hr
  have hs := script_without hlK
  constructor
  case nodup => exact h.nodup.filter _
  case live =>
    intro a ha
    have ⟨ha, hn⟩ : a ∈ n.ports ∧ a ∉ K := by simpa [Net.without] using ha
    have ⟨x, hx⟩ := live_iff.mp <| h.live a ha
    exact live_iff.mpr ⟨x, without_node_eq_some.mpr ⟨hn, hx⟩⟩
  case lt_fresh =>
    intro a ha
    have ⟨x, hx⟩ := live_iff.mp ha
    exact h.lt_fresh a <| live_iff.mpr ⟨x, without_node_eq_some.mp hx |>.right⟩
  case role =>
    intro a x hx
    have ⟨hn, hx⟩ := without_node_eq_some.mp hx
    exact (h.role hx).mono rfl rfl hs fun hm => by simp [Net.without, hm, hn]
  case lPort => exact ⟨l, without_node_eq_some.mpr ⟨hlK, hl⟩, hlc⟩
  case rPort => exact ⟨r, without_node_eq_some.mpr ⟨hrK, hr⟩, hrc⟩
  case sPort =>
    intro s hs'
    have hs' := hs.symm.trans hs'
    have ⟨x, hx, hxc⟩ := h.sPort s hs'
    have hn : s ∉ K := fun hm => hK _ hm x hx <| h.isPermanent_script hs' hx
    exact ⟨x, without_node_eq_some.mpr ⟨hn, hx⟩, hxc⟩
  case scriptRef =>
    intro a x s hx hs'
    exact hs.trans <| h.scriptRef (without_node_eq_some.mp hx).right hs'
  case peer =>
    intro a x b hx hk hb
    have ⟨hn, hx⟩ := without_node_eq_some.mp hx
    have ⟨y, hy, hp⟩ := h.peer hx hk hb
    exact ⟨y, without_node_eq_some.mpr ⟨mt (hc hx hk hb) hn, hy⟩, hp⟩
  case clients =>
    intro c hm
    have ⟨hlt, hcl⟩ := h.clients c hm
    exact ⟨hlt, fun x hx => hcl x (without_node_eq_some.mp hx).right⟩
  case clients_nodup => exact h.clients_nodup

theorem script_modify (h : ∀ x, n.node a = some x → (f x).scriptRef = x.scriptRef) :
    (n.modify a f).script = n.script := by
  simp only [script]
  by_cases ha : n.lPorts = a
  case neg => simp [modify, ha]
  case pos =>
    cases hx : n.node a
    case none   => simp [modify, ha, hx]
    case some x => simp [modify, ha, hx, h x hx]

theorem script_modify_of_ne (h : a ≠ n.lPorts) : (n.modify a f).script = n.script :=
  congrArg (Option.bind · _) <| modify_node_of_ne h.symm

theorem live_modify : (n.modify a f).Live b ↔ n.Live b := by
  by_cases hb : b = a
  case pos => simp [Live, modify, hb]
  case neg => simp [Live, modify_node_of_ne hb]

-- Changes of a port which do not affect its role.
theorem Inv.modify (h : n.Inv) (hx : n.node a = some x) (hr : n.Role a (f x))
    (hc : (f x).cls = x.cls) (ht : (f x).scriptRef = x.scriptRef ∨
      a ≠ n.lPorts ∧ ∀ s, (f x).scriptRef = some s → n.script = some s)
    (hp : ∀ b, (f x).isKept → (f x).peer = some b →
      ∃ y, n.node b = some y ∧ b ≠ a ∧ (y.isPermanent ∨ y.peer = some a))
    (hb : x.isPermanent ∨ ∀ b y, n.node b = some y → y.isKept → y.peer = some a →
      (f x).peer = some b) :
    (n.modify a f).Inv := by
  have hs : (n.modify a f).script = n.script := by
    cases ht
    case inl ht => exact script_modify fun y hy => Option.some.inj (hx.symm.trans hy) ▸ ht
    case inr ht => simp [script, Net.modify, ht.left.symm]
  have hm : ∀ {b y}, n.node b = some y →
      ∃ z, (n.modify a f).node b = some z ∧ z.cls = y.cls ∧ (b ≠ a → z = y) ∧
        (b = a → z = f x) := by
    intro b y hy
    by_cases hb : b = a
    case neg => exact ⟨y, (modify_node_of_ne hb).trans hy, rfl, fun _ => rfl, (absurd · hb)⟩
    case pos =>
      subst hb
      cases hx.symm.trans hy
      exact ⟨f x, modify_node_self hx, hc, (absurd rfl ·), fun _ => rfl⟩
  constructor
  case nodup => exact h.nodup
  case live => exact fun b hb => live_modify.mpr <| h.live b hb
  case lt_fresh => exact fun b hb => h.lt_fresh b <| live_modify.mp hb
  case role =>
    intro b y hy
    have hr : n.Role b y := by
      cases modify_node_eq_some.mp hy
      case inl hy => exact h.role hy.right
      case inr hy =>
        obtain ⟨rfl, z, hz, rfl⟩ := hy
        exact Option.some.inj (hx.symm.trans hz) ▸ hr
    exact hr.mono rfl rfl hs id
  case lPort =>
    have ⟨l, hl, hlc⟩ := h.lPort
    have ⟨z, hz, hzc, _⟩ := hm hl
    exact ⟨z, hz, hzc.trans hlc⟩
  case rPort =>
    have ⟨r, hr, hrc⟩ := h.rPort
    have ⟨z, hz, hzc, _⟩ := hm hr
    exact ⟨z, hz, hzc.trans hrc⟩
  case sPort =>
    intro s hs'
    have ⟨y, hy, hyc⟩ := h.sPort s <| hs ▸ hs'
    have ⟨z, hz, hzc, _⟩ := hm hy
    exact ⟨z, hz, hzc.trans hyc⟩
  case scriptRef =>
    intro b y s hy hs'
    cases modify_node_eq_some.mp hy
    case inl hy => exact hs.trans <| h.scriptRef hy.right hs'
    case inr hy =>
      obtain ⟨rfl, z, hz, rfl⟩ := hy
      cases hx.symm.trans hz
      cases ht
      case inl ht => exact hs.trans <| h.scriptRef hx (ht ▸ hs')
      case inr ht => exact hs.trans <| ht.right s hs'
  case peer =>
    intro b y c hy hk hpeer
    cases modify_node_eq_some.mp hy
    case inr hy =>
      obtain ⟨rfl, z, hz, rfl⟩ := hy
      cases hx.symm.trans hz
      have ⟨y, hy, hne, hp⟩ := hp c hk hpeer
      exact ⟨y, (modify_node_of_ne hne).trans hy, hne, hp⟩
    case inl hy =>
      have ⟨z, hz, hcb, hp⟩ := h.peer hy.right hk hpeer
      have ⟨z', hz', hzc, hne, heq⟩ := hm hz
      refine ⟨z', hz', hcb, ?_⟩
      by_cases hca : c = a
      case neg => exact hne hca ▸ hp
      case pos =>
        subst hca
        cases hx.symm.trans hz
        cases hb
        case inl hb => exact .inl <| by simpa [Node.isPermanent, hzc] using hb
        case inr hb => exact .inr <| heq rfl ▸ hb b y hy.right hk hpeer
  case clients =>
    intro c hcl
    have ⟨hlt, hcc⟩ := h.clients c hcl
    refine ⟨hlt, fun y hy => ?_⟩
    cases modify_node_eq_some.mp hy
    case inl hy => exact hcc y hy.right
    case inr hy =>
      obtain ⟨rfl, z, hz, rfl⟩ := hy
      cases hx.symm.trans hz
      exact hc.trans <| hcc x hx
  case clients_nodup => exact h.clients_nodup

-- Changes of a port which leave its peer alone.
theorem Inv.modify_of_peer (h : n.Inv) (hx : n.node a = some x) (hr : n.Role a (f x))
    (hc : (f x).cls = x.cls) (hty : (f x).type = x.type) (ht : (f x).scriptRef = x.scriptRef ∨
      a ≠ n.lPorts ∧ ∀ s, (f x).scriptRef = some s → n.script = some s)
    (hp : (f x).peer = x.peer) : (n.modify a f).Inv := by
  have hk : (f x).isKept = x.isKept := by
    simp [Node.isKept, Node.isPermanent, Node.isMaster, hc, hty]
  apply h.modify hx hr hc ht
  · exact fun b hk' hb => h.peer hx (hk ▸ hk') (hp ▸ hb)
  · by_cases hxp : x.isPermanent
    case pos => exact .inl hxp
    case neg =>
      refine .inr fun b y hy hk' hb => ?_
      have ⟨z, hz, _, hz'⟩ := h.peer hy hk' hb
      cases hx.symm.trans hz
      exact hp.trans <| hz'.resolve_left hxp

theorem Inv.set_local_peer (h : n.Inv) (hx : n.node n.lPorts = some x) (b : Option Addr) :
    (n.modify n.lPorts ({ · with peer := b })).Inv := by
  have hc : x.cls = some .localPort := by
    have ⟨y, hy, hc⟩ := h.lPort
    cases hx.symm.trans hy
    exact hc
  apply h.modify hx ?_ rfl (.inl rfl) ?_ (.inl <| h.isPermanent_lPorts hx)
  · have hr := h.role hx
    cases hr
    case localPort ha hc ht hr hm hp => exact .localPort ha hc ht hr hm hp
    all_goals simp_all
  · intro c hk _
    simp [Node.isKept, Node.isPermanent, hc] at hk

theorem script_add (h : n.lPorts ≠ a) : (n.add a x).script = n.script := by
  simp [script, add, h]

theorem Inv.add (h : n.Inv) (ha : n.node a = none) (hcl : a ∉ n.clients)
    (hr : (n.add a x).Role a x) (hx : ¬x.isPermanent)
    (hs : ∀ s, x.scriptRef = some s → n.script = some s)
    (hp : ∀ b, x.peer = some b → ∃ y, n.node b = some y ∧ y.isPermanent) : (n.add a x).Inv := by
  have hne : ∀ {b y}, n.node b = some y → b ≠ a := by
    rintro b y hy rfl
    cases ha.symm.trans hy
  have hm : ∀ {b y}, n.node b = some y → (n.add a x).node b = some y :=
    fun hy => add_node_eq_some.mpr <| .inl ⟨hne hy, hy⟩
  have ⟨l, hl, hlc⟩ := h.lPort
  have hse : (n.add a x).script = n.script := script_add <| hne hl
  constructor
  case nodup =>
    refine List.nodup_cons.mpr ⟨fun hm => ?_, h.nodup⟩
    have ⟨_, hy⟩ := live_iff.mp <| h.live a hm
    exact hne hy rfl
  case live =>
    intro b hb
    cases List.mem_cons.mp hb
    case inl hb => exact live_iff.mpr ⟨x, add_node_eq_some.mpr <| .inr ⟨hb, rfl⟩⟩
    case inr hb =>
      have ⟨y, hy⟩ := live_iff.mp <| h.live b hb
      exact live_iff.mpr ⟨y, hm hy⟩
  case lt_fresh =>
    intro b hb
    have ⟨y, hy⟩ := live_iff.mp hb
    cases add_node_eq_some.mp hy
    case inl hy =>
      exact Nat.lt_of_lt_of_le (h.lt_fresh b <| live_iff.mpr ⟨y, hy.right⟩) <| Nat.le_max_left ..
    case inr hy =>
      obtain ⟨rfl, rfl⟩ := hy
      exact Nat.lt_of_lt_of_le (Nat.lt_succ_self b) <| Nat.le_max_right ..
  case role =>
    intro b y hy
    cases add_node_eq_some.mp hy
    case inl hy => exact (h.role hy.right).mono rfl rfl hse <| List.mem_cons_of_mem _
    case inr hy =>
      obtain ⟨rfl, rfl⟩ := hy
      exact hr
  case lPort => exact ⟨l, hm hl, hlc⟩
  case rPort => exact h.rPort.imp fun r hr => hr.imp_left hm
  case sPort => exact fun s hs => h.sPort s (hse ▸ hs) |>.imp fun y hy => hy.imp_left hm
  case scriptRef =>
    intro b y s hy hs'
    cases add_node_eq_some.mp hy
    case inl hy => exact hse.trans <| h.scriptRef hy.right hs'
    case inr hy => exact hse.trans <| hs s (hy.right ▸ hs')
  case peer =>
    intro b y c hy hk hpeer
    cases add_node_eq_some.mp hy
    case inl hy =>
      have ⟨z, hz, hp⟩ := h.peer hy.right hk hpeer
      exact ⟨z, hm hz, hp⟩
    case inr hy =>
      have ⟨z, hz, hp⟩ := hp c <| hy.right ▸ hpeer
      exact ⟨z, hm hz, hy.left ▸ hne hz, .inl hp⟩
  case clients =>
    intro c hc
    have ⟨hlt, hcc⟩ := h.clients c hc
    refine ⟨Nat.lt_of_lt_of_le hlt <| Nat.le_max_left .., fun y hy => ?_⟩
    cases add_node_eq_some.mp hy
    case inl hy => exact hcc y hy.right
    case inr hy => exact absurd (hy.left ▸ hc) hcl
  case clients_nodup => exact h.clients_nodup

theorem Inv.congr {n' : Net} (h : n.Inv) (hn : n'.node = n.node) (hp : n'.ports = n.ports)
    (hl : n'.lPorts = n.lPorts) (hr : n'.rPorts = n.rPorts) (hf : n.fresh ≤ n'.fresh)
    (hc : ∀ c ∈ n'.clients,
      c < n'.fresh ∧ ∀ x, n.node c = some x → x.cls = some .scriptClient)
    (hd : n'.clients.Nodup) : n'.Inv := by
  have hs : n'.script = n.script := by rw [script, script, hn, hl]
  constructor
  case nodup         => exact hp ▸ h.nodup
  case live          => exact fun a ha => by simpa only [Live, hn] using h.live a (hp ▸ ha)
  case lt_fresh      =>
    exact fun a ha => Nat.lt_of_lt_of_le (h.lt_fresh a (by simpa only [Live, hn] using ha)) hf
  case role          => exact fun hx => (h.role (hn ▸ hx)).mono hl hr hs fun hm => hp ▸ hm
  case lPort         => rw [hn, hl]; exact h.lPort
  case rPort         => rw [hn, hr]; exact h.rPort
  case sPort         => rw [hn, hs]; exact h.sPort
  case scriptRef     => rw [hn, hs]; exact h.scriptRef
  case peer          => rw [hn]; exact h.peer
  case clients       => rw [hn]; exact hc
  case clients_nodup => exact hd

-- Connects two ports which are not linked to anything yet.
theorem Inv.link (h : n.Inv) (ha : n.node a = some x) (hb : n.node b = some y) (hab : a ≠ b)
    (hx : x.cls = none) (hy : y.cls = none) (hxp : x.peer = none) (hyp : y.peer = none) :
    (n.link a b).Inv := by
  have hne : ∀ {c z}, n.node c = some z → z.isPermanent → c ≠ a ∧ c ≠ b := by
    rintro c z hz hp
    constructor
    · rintro rfl
      cases hz.symm.trans ha
      simp [Node.isPermanent, hx] at hp
    · rintro rfl
      cases hz.symm.trans hb
      simp [Node.isPermanent, hy] at hp
  have hn : ∀ {c z}, (n.link a b).node c = some z ↔ c ≠ a ∧ c ≠ b ∧ n.node c = some z ∨
      c = a ∧ z = { x with peer := some b } ∨ c = b ∧ z = { y with peer := some a } := by
    intro c z
    rw [Net.link, modify_node_eq_some, modify_node_eq_some, modify_node_of_ne hab.symm, ha, hb]
    by_cases hca : c = a <;> by_cases hcb : c = b <;> simp_all
  have hm : ∀ {c z}, n.node c = some z → z.isPermanent → (n.link a b).node c = some z :=
    fun hz hp => hn.mpr <| .inl ⟨(hne hz hp).left, (hne hz hp).right, hz⟩
  have hlive : ∀ c, (n.link a b).Live c ↔ n.Live c := fun c => live_modify.trans live_modify
  have ⟨l, hl, hlc⟩ := h.lPort
  have ⟨r, hr, hrc⟩ := h.rPort
  have hl' := hm hl (by simp [Node.isPermanent, hlc])
  have hs : (n.link a b).script = n.script := by
    change ((n.link a b).node n.lPorts).bind _ = _
    rw [hl', script, hl]
  constructor
  case nodup    => exact h.nodup
  case live     => exact fun c hc => hlive c |>.mpr <| h.live c hc
  case lt_fresh => exact fun c hc => h.lt_fresh c <| hlive c |>.mp hc
  case role =>
    intro c z hz
    have hr : n.Role c z := by
      rcases hn.mp hz with hz | ⟨rfl, rfl⟩ | ⟨rfl, rfl⟩
      · exact h.role hz.right.right
      · exact (h.role ha).set_peer hx _
      · exact (h.role hb).set_peer hy _
    exact hr.mono rfl rfl hs id
  case lPort => exact ⟨l, hl', hlc⟩
  case rPort => exact ⟨r, hm hr (by simp [Node.isPermanent, hrc]), hrc⟩
  case sPort =>
    intro s hs'
    have ⟨z, hz, hzc⟩ := h.sPort s (hs ▸ hs')
    exact ⟨z, hm hz (by simp [Node.isPermanent, hzc]), hzc⟩
  case scriptRef =>
    intro c z s hz hs'
    refine hs.trans ?_
    rcases hn.mp hz with hz | ⟨rfl, rfl⟩ | ⟨rfl, rfl⟩
    · exact h.scriptRef hz.right.right hs'
    · exact h.scriptRef ha hs'
    · exact h.scriptRef hb hs'
  case peer =>
    intro c z d hz hk hd
    rcases hn.mp hz with ⟨hca, hcb, hz⟩ | ⟨rfl, rfl⟩ | ⟨rfl, rfl⟩
    · have ⟨w, hw, hp⟩ := h.peer hz hk hd
      have hda : d ≠ a := by
        rintro rfl
        cases hw.symm.trans ha
        simp [Node.isPermanent, hx, hxp] at hp
      have hdb : d ≠ b := by
        rintro rfl
        cases hw.symm.trans hb
        simp [Node.isPermanent, hy, hyp] at hp
      exact ⟨w, hn.mpr <| .inl ⟨hda, hdb, hw⟩, hp⟩
    · cases hd
      exact ⟨_, hn.mpr <| .inr <| .inr ⟨rfl, rfl⟩, hab.symm, .inr rfl⟩
    · cases hd
      exact ⟨_, hn.mpr <| .inr <| .inl ⟨rfl, rfl⟩, hab, .inr rfl⟩
  case clients =>
    intro c hc
    have ⟨hlt, hcc⟩ := h.clients c hc
    refine ⟨hlt, fun z hz => ?_⟩
    rcases hn.mp hz with hz | ⟨rfl, rfl⟩ | ⟨rfl, rfl⟩
    · exact hcc z hz.right.right
    · exact absurd (hcc x ha) (by simp [hx])
    · exact absurd (hcc y hb) (by simp [hy])
  case clients_nodup => exact h.clients_nodup

end Inv

end Net

end Proxy
