import MyLinuxEnv.Proxy.Theorems.Closing
import MyLinuxEnv.Proxy.Theorems.KillFrame
import MyLinuxEnv.Proxy.Theorems.Removal

open Memory

namespace Proxy

-- The buffers that have been written to a port so far.
def State.written (σ : State) (c : Addr) : List (List Byte) :=
  σ.trace.filterMap fun
    | .write a bytes => if a = c then some bytes else none
    | _              => none

-- Neither what has been accumulated of the packets has changed, nor what has been written.
structure Mute (σ σ' : State) : Prop where
  gdb : σ'.gdb = σ.gdb
  written : ∀ c, σ'.written c = σ.written c

variable {env : Env} {σ σ' : State} {n : Net} {a c : Addr} {p : Port}

theorem Mute.of_trace_eq (hg : σ'.gdb = σ.gdb) (ht : σ'.trace = σ.trace) : Mute σ σ' :=
  ⟨hg, fun c => by rw [State.written, State.written, ht]⟩

theorem Mute.trans {σ'' : State} (h : Mute σ σ') (h' : Mute σ' σ'') : Mute σ σ'' :=
  ⟨h'.gdb.trans h.gdb, fun c => (h'.written c).trans (h.written c)⟩

theorem Mute.log_close (σ : State) (a : Addr) : Mute σ (σ.log <| .close a) :=
  ⟨rfl, fun c => by simp [State.written, State.log, List.filterMap_append]⟩

-- Killing ports never writes anything.
theorem Mute.killFrame : KillFrame Mute where
  trans      := .trans
  idle h     := .of_trace_eq h.gdb h.trace
  modify _   := .of_trace_eq rfl rfl
  free       := .of_trace_eq rfl rfl
  close      := .log_close ..

section Lists

variable {fuel : Nat} {iport : Option Addr} {l : List Addr}

-- The search for a client succeeds if the client is on the list.
theorem exists_prevClient {prev : Option Addr} (hc : Chain σ.clientNext iport l)
    (hl : ∀ i ∈ l, ∃ p, σ.port i = some p) (hf : l.length < fuel) (ha : a ∈ l) :
    ∃ q, prevClient σ a fuel prev iport = some q := by
  induction l generalizing fuel prev iport
  case nil => contradiction
  case cons i l hi =>
    obtain ⟨fuel, rfl⟩ := Nat.exists_eq_succ_of_ne_zero <| Nat.ne_zero_of_lt hf
    have hh := hc.head_eq
    subst hh
    have ⟨⟨p, hp⟩, hl⟩ := List.forall_mem_cons.mp hl
    by_cases hia : i = a
    case pos => exact ⟨prev, by simp [prevClient, hia]⟩
    case neg =>
      have ha := (List.mem_cons.mp ha).resolve_left (Ne.symm hia)
      have ⟨q, hq⟩ : ∃ q, prevClient σ a fuel (some i) (σ.clientNext i) = some q :=
        hi hc.tail hl (Nat.lt_of_succ_lt_succ hf) ha
      exact ⟨q, by simpa [prevClient, hia, hp] using hq⟩

end Lists

section Network

-- What is known about a client.
structure Net.IsClient (n : Net) (a : Addr) : Prop where
  mem : a ∈ n.ports
  exists_node : ∃ x, n.node a = some x ∧ x.cls = some .scriptClient
  not_side : ∀ s y, n.script = some s → n.node s = some y → y.lscript ≠ some a

theorem Net.Valid.isClient (hv : n.Valid) (hi : n.Inv) (hm : a ∈ n.clients) : n.IsClient a := by
  have ⟨x, hx⟩ := Net.live_iff.mp <| hv.clients hm
  have hc := (hi.clients a hm).right x hx
  refine ⟨?_, ⟨x, hx, hc⟩, fun s y hs hy hl => ?_⟩
  · have hp : ¬x.isPermanent := by simp [Node.isPermanent, hc]
    exact (hi.role hx).isPermanent_or.resolve_left (fun h => hp h.left) |>.right.left
  · exact hi.not_mem_clients (hv.loose <| .lscript hs hy hl) hm

end Network

section Write

variable {mem : List Byte} {bytes : Nat}

theorem portwrite_of_tcp {size : Int} (hp : σ.port a = some p) (hd : p.portwrite = some .tcp) :
    portwrite env σ a mem size = some (env.write σ.time a (mem.take size.toNat),
      σ.log <| .write a <| mem.take size.toNat) := by
  simp [portwrite, hp, hd]

theorem written_log {bs : List Byte} :
    (σ.log <| .write a bs).written c = σ.written c ++ if a = c then [bs] else [] := by
  simp only [State.written, State.log, List.filterMap_append, List.filterMap_cons,
    List.filterMap_nil]
  split <;> simp_all

end Write

end Proxy
