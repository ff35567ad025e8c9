import MyLinuxEnv.Proxy.Basic

namespace Proxy

-- The remote types whose connections all share the one master receiver.
def PortType.isMaster : PortType → Bool
  | udp | listen | stdinout | fifoCon => true
  | tcp | rs232 | usb                 => false

def Port.isMaster (p : Port) : Bool :=
  p.type.any (·.isMaster)

def Port.isPermanent (p : Port) : Bool :=
  p.cls = some .localPort || p.cls = some .remotePort || p.cls = some .scriptPort

-- Swaps the original handle of a port back in.
def swapBack (σ : State) (a : Addr) (fd : Int) (handler : Handler) : Option State := do
  let p ← σ.port a
  let σ ← (σ.fdClr p.sock).fdSet fd
  let σ ← refreshNsockhandle σ
  some <| σ.modify a ({ · with readMessage := some handler, sock := fd })

-- What `killport` does to the listeners and the master receiver instead of closing them.
def resetport (σ : State) (a : Addr) : Option State := do
  let p ← σ.port a
  let σ :=
    if p.cls = some .remotePort ∧ p.isMaster then σ.modify a ({ · with peer := none }) else σ
  let σ ←
    if p.type = some .listen ∧ 0 ≤ σ.listenFd
    then (swapBack σ a σ.listenFd .remotePortAccept).map ({ · with listenFd := -1 })
    else some σ
  if p.type = some .fifoCon ∧ 0 ≤ σ.fifoConFd
  then (swapBack σ a σ.fifoConFd .remotePortFifoCon).map ({ · with fifoConFd := -1 })
  else some σ

-- The local side of a script connection gives it up, unless the remote side is shared.
def releaseScript (σ : State) (a : Addr) : Option State := do
  let p ← σ.port a
  match p.scriptRef with
  | none   => some σ
  | some s =>
    let sp ← σ.port s
    if sp.lscript = some a then
      let r ← σ.port (← sp.rscript)
      some <| if r.isMaster then σ else σ.modify s ({ · with scriptInUse := false })
    else some σ

-- The port in front of `a` on the managed list, from `iport` on, if `a` is there at all.
def prevPort (σ : State) (a : Addr) : (fuel : Nat) → (prev : Addr) → (iport : Option Addr) →
    Option (Option Addr)
  | 0, _, _                => none
  | _ + 1, _, none         => some none
  | fuel + 1, prev, some i =>
    if i = a then some (some prev) else do
      let _ ← σ.port i
      prevPort σ a fuel i (σ.next i)

-- Closes a port that is no longer on the list and kills its peer, if that one is still open.
def closeport (kill : State → Addr → Option State) (σ : State) (a : Addr) : Option State := do
  let σ ← portclose σ a
  let p ← σ.port a
  match p.peer with
  | none   => some (σ.free a)
  | some b =>
    let σ ← if (← σ.port b).sock = -1 then some σ else kill σ b
    some (σ.free a)

def unlinkport (kill : State → Addr → Option State) (σ : State) (a : Addr) : Option State :=
  match σ.rports with
  | none       => some σ
  | some first =>
    if first = a then closeport kill { σ with rports := σ.next a } a else do
      match ← prevPort σ a (σ.fresh + 1) first (some first) with
      | none      => some σ
      | some prev => refreshNsockhandle (← closeport kill (σ.setNext prev (σ.next a)) a)

def killportFrom : (fuel : Nat) → State → Addr → Option State
  | 0, _, _        => none
  | fuel + 1, σ, a => do
    let p ← σ.port a
    if p.isPermanent then resetport σ a else
      let σ ← releaseScript σ a
      unlinkport (killportFrom fuel) σ a

-- Every nested call removes one more port from the list.
def killport (σ : State) (a : Addr) : Option State :=
  killportFrom (σ.fresh + 2) σ a

-- The client in front of `a` on the list of clients.
def prevClient (σ : State) (a : Addr) : (fuel : Nat) → (prev find : Option Addr) →
    Option (Option Addr)
  | 0, _, _              => none
  | fuel + 1, prev, find =>
    if find = some a then some prev else do
      let i ← find
      let _ ← σ.port i
      prevClient σ a fuel find (σ.clientNext i)

-- Besides the new state, returns the client to go on with.
def killScriptClient (σ : State) (s a : Addr) : Option (Option Addr × State) := do
  let sp ← σ.port s
  let prev ← prevClient σ a (σ.fresh + 1) sp.clients sp.clients
  let _ ← σ.port a
  let next := σ.clientNext a
  let σ ←
    if sp.clients = some a
    then some <| σ.modify s ({ · with clients := next })
    else prev.map (σ.setClientNext · next)
  let σ ← killport σ a
  some (next, σ)

end Proxy
