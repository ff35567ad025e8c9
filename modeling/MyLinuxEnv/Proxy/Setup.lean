import MyLinuxEnv.Proxy.Handlers

namespace Proxy

inductive LocalKind
  | tcp | udp | stdin
  deriving DecidableEq, Repr

def LocalKind.type : LocalKind → PortType
  | tcp   => .tcp
  | udp   => .udp
  | stdin => .stdinout

def LocalKind.driver : LocalKind → Driver
  | tcp   => .tcp
  | udp   => .udp
  | stdin => .stdin

-- What the three arguments of the command line specify. A script port comes with the information
-- whether it is a break port. Without a remote type, the remote is a serial port without a device.
structure Config where
  lPort : LocalKind
  scriptPort : Option (LocalKind × Bool)
  remote : Option PortType
  deriving DecidableEq, Repr

variable (env : Env)

-- The process exits if a socket can't be set up.
def openSocket (σ : State) : Option (Int × State) :=
  if env.socket σ.time < 0 then none else some (env.socket σ.time, { σ with time := σ.time + 1 })

def setupLocalPort (σ : State) (a : Addr) (kind : LocalKind) (attach : Bool) : Option State := do
  let (sock, σ) ← if kind = .stdin then some (0, σ) else openSocket env σ
  let σ := σ.modify a ({ · with
    cls := some <| if attach then .scriptPort else .localPort
    readMessage := some <| if attach then .scriptPort else .localPort
    portread := some kind.driver, portwrite := some kind.driver, type := some kind.type, sock })
  some <| σ.push a

-- The local port is set up by its caller.
def parseLocalPort (σ : State) (lPort : Addr) (cfg : Config) : Option State := do
  let σ ← setupLocalPort env σ lPort cfg.lPort false
  let σ ←
    match cfg.scriptPort with
    | none                   => some σ
    | some (kind, breakPort) => do
      let s := σ.fresh
      let σ ← setupLocalPort env (σ.malloc {}) s kind true
      let σ := if cfg.lPort = .tcp then σ else
        σ.modify s ({ · with scriptInUse := true, lscript := some lPort })
      let σ ← σ.fdSet (← σ.port s).sock
      let σ := σ.modify lPort ({ · with scriptRef := some s })
      some <| σ.modify s ({ · with lmode := 0, rmode := SCRIPT_READ + SCRIPT_WRITE, breakPort })
  σ.fdSet (← σ.port lPort).sock

-- Puts a remote port on the list and lets it be selected.
def manage (σ : State) (a : Addr) : Option State := do
  let p ← σ.port a
  (σ.push a).fdSet p.sock

def setupRemotePort (σ : State) (a : Addr) (type : Option PortType) : Option State := do
  let σ := σ.modify a ({ · with
    cls := some .remotePort, sock := -1, readMessage := some .remotePort, type })
  let drivers (portio portclose : Driver) (sock : Int) (σ : State) : State :=
    σ.modify a ({ · with
      portread := some portio, portwrite := some portio, portclose := some portclose, sock })
  match type with
  | some .udp => do
    let (sock, σ) ← openSocket env σ
    manage (drivers .udp .tcp sock σ) a
  | some .listen => do
    let (sock, σ) ← openSocket env σ
    let σ := σ.modify a ({ · with readMessage := some .remotePortAccept })
    manage (drivers .udp .tcp sock σ) a
  | some .fifoCon => do
    let sock := env.openFifo σ.time
    if sock < 0 then none else
      let σ := { σ with time := σ.time + 1 }.modify a
        ({ · with readMessage := some .remotePortFifoCon })
      manage (drivers .tcp .tcp sock σ) a
  | some .rs232 => do
    let sock := env.openFifo σ.time
    if sock < 0 then none else
      manage (drivers .rs232 .rs232 sock { σ with time := σ.time + 1 }) a
  | some .usb => some <| (drivers .usb .usb 0 σ).push a
  | _ => some σ

-- Up to the main loop.
def start (cfg : Config) : Option State := do
  let lPorts := 0
  let σ := ({ lPorts } : State).malloc {}
  let σ ← parseLocalPort env σ lPorts cfg
  let rPorts := σ.fresh
  let σ ← setupRemotePort env ({ σ with rPorts }.malloc {}) rPorts cfg.remote
  let σ := σ.modify lPorts ({ · with remote := some rPorts })
  let l ← σ.port lPorts
  let r ← σ.port rPorts
  let σ :=
    match l.scriptRef with
    | none   => σ
    | some s =>
      if r.type = some .udp ∨ r.type = some .listen ∨ r.type = some .fifoCon then
        let σ := σ.modify s ({ · with scriptInUse := true, rscript := some rPorts })
        σ.modify rPorts ({ · with mode := SCRIPT_READ + SCRIPT_WRITE, scriptRef := some s })
      else σ
  refreshNsockhandle σ

end Proxy
