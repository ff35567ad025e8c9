import Mathlib.Data.List.Perm.Subperm
import MyLinuxEnv.Proxy.Net

open Memory

namespace Proxy

-- The memory of a proxy represents a network.
structure Refines (σ : State) (n : Net) : Prop where
  node : ∀ a, (σ.port a).map Port.node = n.node a
  ports : Chain σ.next σ.rports n.ports
  clients : ∀ {s sp}, n.script = some s → σ.port s = some sp →
    Chain σ.clientNext sp.clients n.clients
  fresh : σ.fresh = n.fresh
  lPorts : σ.lPorts = n.lPorts
  rPorts : σ.rPorts = n.rPorts

-- A conditional action in front of the rest of a computation.
theorem ite_bind_eq_some_iff {α β : Type} {c : Prop} [Decidable c] {x y : Option α}
    {k : α → Option β} {b : β} : (if c then x >>= k else y >>= k) = some b ↔
      ∃ a, (if c then x else y) = some a ∧ k a = some b := by
  split <;> exact Option.bind_eq_some_iff

theorem length_le_of_forall_lt {l : List Nat} {k : Nat} (h : l.Nodup) (hk : ∀ a ∈ l, a < k) :
    l.length ≤ k := by
  have hs : l ⊆ List.range k := fun a ha => List.mem_range.mpr <| hk a ha
  simpa using (h.subperm hs).length_le

namespace Refines

variable {σ : State} {n : Net} {a : Addr} {p : Port} {x : Node}

theorem node_eq (h : Refines σ n) (hp : σ.port a = some p) : n.node a = some p.node := by
  rw [← h.node, hp, Option.map_some]

theorem exists_port (h : Refines σ n) (hx : n.node a = some x) :
    ∃ p, σ.port a = some p ∧ p.node = x :=
  Option.map_eq_some_iff.mp <| (h.node a).trans hx

theorem ports_eq (h : Refines σ n) (hi : n.Inv) : σ.ports = n.ports := by
  refine h.ports.walk_eq <| length_le_of_forall_lt hi.nodup fun a ha => ?_
  exact h.fresh ▸ hi.lt_fresh a (hi.live a ha)

theorem clients_eq (h : Refines σ n) (hi : n.Inv) {s : Addr} (hs : n.script = some s)
    (hp : σ.port s = some p) : σ.clients s = n.clients := by
  have hc := h.clients hs hp
  rw [State.clients, hp, Option.bind_some]
  refine hc.walk_eq <| length_le_of_forall_lt hi.clients_nodup fun c hm => ?_
  exact h.fresh ▸ (hi.clients c hm).left

section Operations

variable {f : Port → Port} {g : Node → Node} {prev : Addr}

theorem modify (h : Refines σ n)
    (hf : ∀ p, σ.port a = some p → (f p).node = g p.node ∧ (f p).clients = p.clients)
    (hs : (n.modify a g).script = n.script) : Refines (σ.modify a f) (n.modify a g) where
  node b := by
    by_cases hb : b = a
    case neg => simpa [Net.modify, hb] using h.node b
    case pos =>
      subst hb
      cases hp : σ.port b
      case none   => simp [Net.modify, ← h.node, hp]
      case some p => simp [Net.modify, ← h.node, hp, hf p hp]
  ports := h.ports
  clients {s sp} hs' hp := by
    by_cases hsa : s = a
    case neg => exact h.clients (hs ▸ hs') <| (State.modify_port_of_ne hsa).symm.trans hp
    case pos =>
      subst hsa
      obtain ⟨p, hp, he⟩ := Option.map_eq_some_iff.mp <| State.modify_port_self.symm.trans hp
      rw [← he, (hf p hp).right]
      exact h.clients (hs ▸ hs') hp
  fresh  := h.fresh
  lPorts := h.lPorts
  rPorts := h.rPorts

theorem free (h : Refines σ n) (hl : n.lPorts ≠ a) : Refines (σ.free a) (n.free a) where
  node b := by
    by_cases hb : b = a
    case pos => simp [Net.free, hb]
    case neg => simpa [Net.free, hb] using h.node b
  ports := h.ports
  clients {s sp} hs hp := by
    have hne : s ≠ a := by
      rintro rfl
      simp at hp
    refine h.clients ?_ <| (State.free_port_of_ne hne).symm.trans hp
    simpa [Net.script, Net.free, hl] using hs
  fresh  := h.fresh
  lPorts := h.lPorts
  rPorts := h.rPorts

end Operations

end Refines

-- What a port contributes to a network.
def Port.core (p : Port) : Node × Option Addr :=
  (p.node, p.clients)

-- Only contents of ports have changed which do not matter for a network.
structure Quiet (σ σ' : State) : Prop where
  core : ∀ a, (σ'.port a).map Port.core = (σ.port a).map Port.core
  next : σ'.next = σ.next
  clientNext : σ'.clientNext = σ.clientNext
  rports : σ'.rports = σ.rports
  fresh : σ'.fresh = σ.fresh
  lPorts : σ'.lPorts = σ.lPorts
  rPorts : σ'.rPorts = σ.rPorts

namespace Quiet

variable {σ σ' σ'' : State} {a : Addr} {p : Port}

theorem refl (σ : State) : Quiet σ σ :=
  ⟨fun _ => rfl, rfl, rfl, rfl, rfl, rfl, rfl⟩

theorem trans (h : Quiet σ σ') (h' : Quiet σ' σ'') : Quiet σ σ'' where
  core a     := (h'.core a).trans (h.core a)
  next       := h'.next.trans h.next
  clientNext := h'.clientNext.trans h.clientNext
  rports     := h'.rports.trans h.rports
  fresh      := h'.fresh.trans h.fresh
  lPorts     := h'.lPorts.trans h.lPorts
  rPorts     := h'.rPorts.trans h.rPorts

theorem modify (a : Addr) {f : Port → Port} (h : ∀ p, (f p).core = p.core) :
    Quiet σ (σ.modify a f) := by
  refine ⟨fun b => ?_, rfl, rfl, rfl, rfl, rfl, rfl⟩
  by_cases hb : b = a
  case pos => cases hp : σ.port a <;> simp [State.modify, hb, hp, h]
  case neg => simp [State.modify, hb]

theorem of_port_eq (h : σ'.port = σ.port) (hn : σ'.next = σ.next)
    (hc : σ'.clientNext = σ.clientNext) (hr : σ'.rports = σ.rports) (hf : σ'.fresh = σ.fresh)
    (hl : σ'.lPorts = σ.lPorts) (hr' : σ'.rPorts = σ.rPorts) : Quiet σ σ' :=
  ⟨fun a => by rw [h], hn, hc, hr, hf, hl, hr'⟩

theorem log (σ : State) (io : Io) : Quiet σ (σ.log io) :=
  .of_port_eq rfl rfl rfl rfl rfl rfl rfl

theorem gdb (σ : State) (gdb : Gdb) : Quiet σ { σ with gdb } :=
  .of_port_eq rfl rfl rfl rfl rfl rfl rfl

theorem time (σ : State) (time : Nat) : Quiet σ { σ with time } :=
  .of_port_eq rfl rfl rfl rfl rfl rfl rfl

theorem telnetNegotiation (σ : State) (telnetNegotiation : Bool) :
    Quiet σ { σ with telnetNegotiation } :=
  .of_port_eq rfl rfl rfl rfl rfl rfl rfl

theorem fifoConFd (σ : State) (fifoConFd : Int) : Quiet σ { σ with fifoConFd } :=
  .of_port_eq rfl rfl rfl rfl rfl rfl rfl

theorem fifo (σ : State) (fifoBuf : List Byte) (fifoIdx : Nat) :
    Quiet σ { σ with fifoBuf, fifoIdx } :=
  .of_port_eq rfl rfl rfl rfl rfl rfl rfl

theorem fdClr (σ : State) (fd : Int) : Quiet σ (σ.fdClr fd) :=
  .of_port_eq rfl rfl rfl rfl rfl rfl rfl

theorem exists_port (h : Quiet σ σ') (hp : σ.port a = some p) :
    ∃ p', σ'.port a = some p' ∧ p'.node = p.node ∧ p'.clients = p.clients := by
  have hc := h.core a
  rw [hp, Option.map_some] at hc
  have ⟨p', hp', he⟩ := Option.map_eq_some_iff.mp hc
  exact ⟨p', hp', congrArg Prod.fst he, congrArg Prod.snd he⟩

theorem symm (h : Quiet σ σ') : Quiet σ' σ :=
  ⟨fun a => (h.core a).symm, h.next.symm, h.clientNext.symm, h.rports.symm, h.fresh.symm,
    h.lPorts.symm, h.rPorts.symm⟩

theorem refines (h : Quiet σ σ') {n : Net} (hr : Refines σ n) : Refines σ' n where
  node a := by
    have hc := congrArg (Option.map Prod.fst) (h.core a)
    simpa [Option.map_map, Function.comp_def, Port.core, ← hr.node a] using hc
  ports := h.next ▸ h.rports ▸ hr.ports
  clients hs hp := by
    have ⟨p, hp', _, hc⟩ := h.symm.exists_port hp
    exact h.clientNext ▸ hc ▸ hr.clients hs hp'
  fresh  := h.fresh.trans hr.fresh
  lPorts := h.lPorts.trans hr.lPorts
  rPorts := h.rPorts.trans hr.rPorts

end Quiet

section Io

variable {env : Env} {σ σ' : State} {a : Addr}

theorem quiet_of_fdSet {fd : Int} (h : σ.fdSet fd = some σ') : Quiet σ σ' := by
  simp only [State.fdSet] at h
  split at h
  case isFalse => contradiction
  case isTrue  =>
    cases h
    exact .of_port_eq rfl rfl rfl rfl rfl rfl rfl

theorem quiet_of_refresh (h : refreshNsockhandle σ = some σ') : Quiet σ σ' := by
  have ⟨_, _, h⟩ := Option.bind_eq_some_iff.mp h
  cases h
  exact .of_port_eq rfl rfl rfl rfl rfl rfl rfl

theorem quiet_of_portread {size : Nat} {got : Int} (h : portread env σ a size = some (got, σ')) :
    Quiet σ σ' := by
  have ⟨p, _, h⟩ := Option.bind_eq_some_iff.mp h
  have ⟨_, _, h⟩ := Option.bind_eq_some_iff.mp h
  have ht : Quiet σ { σ with time := σ.time + 1 } := .of_port_eq rfl rfl rfl rfl rfl rfl rfl
  cases hr : env.read σ.time a
  all_goals simp only [Nat.add_sub_cancel, hr] at h; cases h
  case error => exact ht
  case ok    => exact ht.trans <| .modify a fun _ => rfl

theorem quiet_of_portwrite {mem : List Byte} {size got : Int}
    (h : portwrite env σ a mem size = some (got, σ')) : Quiet σ σ' := by
  have ⟨p, _, h⟩ := Option.bind_eq_some_iff.mp h
  have ⟨_, _, h⟩ := Option.bind_eq_some_iff.mp h
  split at h
  case isTrue  => cases h; exact .refl σ
  case isFalse => cases h; exact .of_port_eq rfl rfl rfl rfl rfl rfl rfl

theorem quiet_of_sendSpecialBreak {breakString : List Byte}
    (h : sendSpecialBreak env breakString σ a = some σ') : Quiet σ σ' := by
  fun_induction sendSpecialBreak env breakString σ a
  case case1 => cases h; exact .refl _
  case case2 =>
    have ⟨_, hw, h⟩ := Option.bind_eq_some_iff.mp h
    cases h
    exact quiet_of_portwrite hw
  case case3 hi hi' =>
    have ⟨p, _, h⟩ := Option.bind_eq_some_iff.mp h
    split at h
    case isTrue => exact (Quiet.log _ _).trans <| hi h
    case isFalse =>
      have ⟨⟨got, σ₁⟩, hw, h⟩ := Option.bind_eq_some_iff.mp h
      dsimp only at h
      split at h
      case isTrue  => cases h; exact quiet_of_portwrite hw
      case isFalse => exact (quiet_of_portwrite hw).trans <| hi' _ h

-- A loop whose steps all are quiet.
theorem quiet_of_foldlM {α : Type} {f : State → α → Option State} {l : List α}
    (hf : ∀ {σ x σ'}, f σ x = some σ' → Quiet σ σ') {τ : State} (h : l.foldlM f τ = some σ') :
    Quiet τ σ' := by
  induction l generalizing τ
  case nil => cases h; exact .refl _
  case cons hi =>
    have ⟨_, h₁, h⟩ := Option.bind_eq_some_iff.mp h
    exact (hf h₁).trans <| hi h

theorem quiet_of_iacStartup (h : iacStartup env σ a = some σ') : Quiet σ σ' := by
  refine quiet_of_foldlM (fun h => ?_) h
  have ⟨_, hw, h⟩ := Option.bind_eq_some_iff.mp h
  cases h
  exact quiet_of_portwrite hw

theorem quiet_of_filterOptions {got j : Nat} (h : filterOptions env σ a got = some (j, σ')) :
    Quiet σ σ' := by
  have ⟨p, _, h⟩ := Option.bind_eq_some_iff.mp h
  have ⟨_, _, h⟩ := Option.bind_eq_some_iff.mp h
  have ⟨σ₁, hb, h⟩ := Option.bind_eq_some_iff.mp h
  cases h
  have hq := quiet_of_foldlM (fun h => ?_) hb
  · exact Quiet.trans (.modify a (by exact fun _ => rfl)) hq
  · have ⟨_, _, h⟩ := Option.bind_eq_some_iff.mp h
    exact quiet_of_sendSpecialBreak h

theorem quiet_of_negotiate {active : Bool} {got j : Nat}
    (h : negotiate env active σ a got = some (j, σ')) : Quiet σ σ' := by
  simp only [negotiate] at h
  split at h
  case isTrue  => exact quiet_of_filterOptions h
  case isFalse => cases h; exact .refl σ

theorem quiet_of_writePeer {got : Nat} {ok : Bool}
    (h : writePeer env σ a got = some (ok, σ')) : Quiet σ σ' := by
  have ⟨p, _, h⟩ := Option.bind_eq_some_iff.mp h
  split at h
  case h_1 => cases h; exact .refl σ
  case h_2 =>
    have ⟨q, _, h⟩ := Option.bind_eq_some_iff.mp h
    split at h
    case isTrue  => cases h; exact .refl σ
    case isFalse =>
      have ⟨_, hw, h⟩ := Option.bind_eq_some_iff.mp h
      cases h
      exact quiet_of_portwrite hw

end Io

-- A state which represents a network of some kind.
def Represents (σ : State) (P : Net → Prop) : Prop :=
  ∃ n, Refines σ n ∧ n.Inv ∧ P n

theorem Represents.mono {σ : State} {P Q : Net → Prop} (h : Represents σ P)
    (hPQ : ∀ {n}, P n → Q n) : Represents σ Q :=
  h.imp fun _ => And.imp_right <| And.imp_right hPQ

end Proxy
