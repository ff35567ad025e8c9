import MyLinuxEnv.Proxy.Links

namespace Proxy

variable (env : Env)

-- What a call of `select` yields: the number of handles, and the sets which they are in.
structure Selection where
  ret : Nat
  rds : List Int
  eds : List Int

section Passes

-- The first port from `iport` on whose handle is in the set.
def nextSet (σ : State) (fds : List Int) : (fuel : Nat) → (iport : Option Addr) →
    Option (Option Addr)
  | 0, _             => none
  | _ + 1, none      => some none
  | fuel + 1, some i => do
    let p ← σ.port i
    if p.sock ∈ fds then some (some i) else nextSet σ fds fuel (σ.next i)

-- A loop over the ports whose handles are in the set, as long as there are any left. If something
-- went wrong, it starts again at the top of the list. Returns the number of handles that are left.
def pass (react : State → Addr → Option (Bool × State)) : (ret : Nat) → State → (fds : List Int) →
    (iport : Option Addr) → Option (Nat × State)
  | 0, σ, _, _            => some (0, σ)
  | ret + 1, σ, fds, iport => do
    match ← nextSet σ fds (σ.fresh + 1) iport with
    | none   => some (ret + 1, σ)
    | some i =>
      let p ← σ.port i
      let (failed, σ) ← react σ i
      if failed then pass react ret σ (fds.erase p.sock) σ.rports else
        let _ ← σ.port i
        pass react ret σ (fds.erase p.sock) (σ.next i)

-- The main loop, from one call of `select` to the next one.
def iteration (σ : State) (s : Selection) : Option State := do
  let (ret, σ) ← pass (readMessage env) s.ret σ s.rds σ.rports
  return (← pass (outOfBand env) ret σ s.eds σ.rports).2

def mainLoop (ss : List Selection) (σ : State) : Option State :=
  ss.foldlM (iteration env) σ

end Passes

-- The handle of a port.
def handle (s : State × Addr) : Option Int :=
  (s.1.port s.2).map (·.sock)

-- An iteration lets some ports read at first, and then others that have data which is out of band.
structure Round where
  rs : List (State × Addr)
  os : List (State × Addr)

def event (ev : Addr → Event) (s : State × Addr) : State × Event :=
  (s.1, ev s.2)

def Round.steps (r : Round) : List (State × Event) :=
  r.rs.map (event .ready) ++ r.os.map (event .oob)

-- A round in which all ports react on account of a selection: there are not more of them than
-- handles, and each element of the sets accounts for one port at most.
structure Selection.Asks (s : Selection) (r : Round) : Prop where
  rds : (r.rs.map handle).Subperm (s.rds.map some)
  eds : (r.os.map handle).Subperm (s.eds.map some)
  ret : r.rs.length + r.os.length ≤ s.ret

-- In a run through the given states, every handle in the set that the port `a` has is served,
-- unless the port leaves the list or loses the handle.
def Attends (fds : List Int) (l : List (State × Addr)) (τs : List State) (a : Addr) : Prop :=
  ∀ fd ∈ fds, some fd ∈ l.map handle ∨ ∃ τ ∈ τs, a ∉ τ.ports ∨ handle (τ, a) ≠ some fd

end Proxy
