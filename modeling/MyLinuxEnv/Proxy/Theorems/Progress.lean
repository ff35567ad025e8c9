import MyLinuxEnv.Proxy.Theorems.MainLoop
import MyLinuxEnv.Proxy.Theorems.Settled

namespace Proxy

-- A state in which the local port has accepted a connection.
def State.accepted (env : Env) (σ : State) (l : Port) : State :=
  { σ with time := σ.time + 1 }.malloc {
    readMessage := some .remotePort, portclose := some .tcp, portread := some .tcp,
    portwrite := some .tcp, sock := env.accept σ.time, type := some .tcp, remote := l.remote }

-- There is nothing to read from a port, be it the end of the stream or an error.
def Env.Idle (env : Env) (t : Nat) (a : Addr) : Prop :=
  ∀ c s, env.read t a ≠ .ok (c :: s)

variable {env : Env} {σ σ' : State} {n : Net} {a b s : Addr} {p : Port}

section Read

variable {size : Nat} {got : Int}

end Read

section Lists

variable {ps : List Addr} {fd : Int}

theorem Listed.create (h : Listed σ ps) (p : Port) : Listed (σ.malloc p) ps where
  chain       := h.chain.congr fun c hc => Function.update_of_ne (Nat.ne_of_lt (h.lt c hc)) ..
  lt c hc     := Nat.lt_succ_of_lt <| h.lt c hc
  isSome c hc := by
    rw [State.malloc_port_of_ne <| Nat.ne_of_lt <| h.lt c hc]
    exact h.isSome c hc

theorem Listed.push (h : Listed σ ps) (hp : (σ.port a).isSome) (hlt : a < σ.fresh) (ha : a ∉ ps) :
    Listed (σ.push a) (a :: ps) where
  chain  := h.chain.push ha
  lt     := List.forall_mem_cons.mpr ⟨hlt, h.lt⟩
  isSome := List.forall_mem_cons.mpr ⟨hp, h.isSome⟩

end Lists

section Opened

variable {x : Node} {n₁ : Net} {res : Option Addr} {c : Addr}

theorem Opened.live (ho : Opened n a b res n₁) (hn : n.Bounded) (hc : n.Live c) : n₁.Live c := by
  cases ho
  case none    => exact hc
  case attach  => exact Net.live_modify.mpr hc
  case connect =>
    have hne : c ≠ n.fresh := Nat.ne_of_lt (hn.live c hc)
    simpa [Net.Live, Net.enlist, Net.alloc, hne] using hc

theorem Opened.live_peer (ho : Opened n a b (some c) n₁) : n₁.Live c := by
  cases ho
  case attach hy _ => simp [Net.Live, Net.modify, hy]
  case connect     => simp [Net.Live, Net.enlist, Net.alloc]

-- An accepted connection is still there when its peer has been opened.
theorem Opened.node_fresh (ho : Opened (n.alloc x) n.fresh b (some c) n₁) (hb : b ≠ n.fresh) :
    n₁.node n.fresh = some x := by
  cases ho
  case attach  => exact (Net.modify_node_of_ne hb.symm).trans Net.alloc_node_self
  case connect =>
    exact (Net.alloc_node_of_ne <| Nat.ne_of_lt <| Nat.lt_succ_self _).trans Net.alloc_node_self

end Opened

section LocalLinks

end LocalLinks

namespace Settled

section Relay

theorem of_portread {size : Nat} {got : Int} (h : Settled σ n) (hs : size ≤ IO_BUFSIZE)
    (hr : portread env σ a size = some (got, σ')) : Settled σ' n :=
  h.of_effects (quiet_of_portread hr) (.portread hs hr)

end Relay

section ScriptClient

end ScriptClient

section Waiting

end Waiting

section LocalPort

end LocalPort

section ScriptPort

end ScriptPort

end Settled

end Proxy
