import Mathlib.Logic.Relation
import MyLinuxEnv.Proxy.Links
import MyLinuxEnv.Proxy.Setup

namespace Proxy

namespace Port

-- A connection that has been accepted by the local port.
def IsLocal (p : Port) : Prop :=
  p.cls = none ∧ p.type = some .tcp

-- A connection that has been opened to the remote side.
def IsOpened (p : Port) : Prop :=
  p.cls = none ∧ p.type = none

-- A port as it is when its memory has just been initialized.
structure IsNew (p : Port) : Prop where
  kind : p.IsLocal ∨ p.IsOpened ∨ p.cls = some .scriptClient
  handler : p.readMessage = some .remotePort ∨ p.readMessage = some .scriptClientPort
  buf : p.buf = List.replicate IO_BUFSIZE 0
  peer : p.peer = none
  mode : p.mode = 0
  lmode : p.lmode = 0
  lscript : p.lscript = none
  rscript : p.rscript = none
  type : p.type ≠ some .rs232
  driver : p.portread = some .tcp ∧ p.portwrite = some .tcp

-- Only the buffer of a port is changed, together with the state of the options in it.
structure Fills (p p' : Port) : Prop where
  eq : p' = { p with buf := p'.buf, inIAC := p'.inIAC }
  length : p.buf.length = IO_BUFSIZE → p'.buf.length = IO_BUFSIZE

-- Only links of a port are changed that say who its peer is.
def Relinks (p p' : Port) : Prop :=
  p' = { p with peer := p'.peer, scriptInUse := p'.scriptInUse }

-- The port stays what it is, and a connection keeps its peer once it has got one.
structure Keeps (p p' : Port) : Prop where
  cls : p'.cls = p.cls
  type : p'.type = p.type
  peer : ∀ b, ¬p.isPermanent → p.peer = some b → p'.peer = some b

end Port

namespace State

-- A connection that has been accepted, as far as it is still there.
def Local (σ : State) (a : Addr) : Prop :=
  ∀ p, σ.port a = some p → p.IsLocal

-- A port of the remote side, as far as it is still there.
def Remote (σ : State) (b : Addr) : Prop :=
  ∀ q, σ.port b = some q → q.IsOpened ∨ b = σ.rPorts

-- A port that may be the peer of another one.
def Peerable (σ : State) (b : Addr) : Prop :=
  b < σ.fresh ∧ ∀ q, σ.port b = some q → q.cls ≠ some .scriptClient ∧
    (q.cls = some .remotePort → q.type.any (·.hasDriver))

end State

-- The reasons why a step writes to a port: it is somebody's peer, the remote side of the local
-- port, a client of the script port, a side of the script connection, or a connection that
-- negotiates telnet. The last three are the reasons for new ports, for changes of the list of the
-- clients and for new handles of the fifo.
inductive Cause
  | peer | remote | client (b : Addr) | script | startup | setup | roster | reopen
  deriving DecidableEq, Repr

-- The reasons of a step which does not pass on what it reads: it neither writes to a peer, nor to
-- any client that has been there before.
def Cause.Aside (σ : State) : Cause → Prop
  | peer     => False
  | client b => σ.fresh ≤ b
  | _        => True

-- How a write gets to a port, for one of the given reasons.
inductive Route (K : Cause → Prop) (σ : State) (b : Addr) : Prop
  | peer (hk : K .peer) (hp : σ.port a = some p) (hb : p.peer = some b)
  | remote (hk : K .remote) (hb : σ.Remote b)
  | client (hk : K <| .client b) (hq : σ.port b = some q) (hc : q.cls = some .scriptClient)
  | rscript (hk : K .script) (hs : σ.port s = some sp) (hb : sp.rscript = some b)
  | lscript (hk : K .script) (hs : σ.port s = some sp) (hb : sp.lscript = some b)
      (hq : σ.port b = some q) (hm : q.mode &&& SCRIPT_WRITE ≠ 0)
  | startup (hk : K .startup) (ht : σ.telnetNegotiation) (hb : σ.Local b)

-- Nothing has changed but the list of ports, the number of watched handles and the time.
structure Still (σ σ' : State) : Prop where
  port : σ'.port = σ.port
  clientNext : σ'.clientNext = σ.clientNext
  fresh : σ'.fresh = σ.fresh
  lPorts : σ'.lPorts = σ.lPorts
  rPorts : σ'.rPorts = σ.rPorts
  listenFd : σ'.listenFd = σ.listenFd
  fifoConFd : σ'.fifoConFd = σ.fifoConFd
  masterRds : σ'.masterRds = σ.masterRds
  gdb : σ'.gdb = σ.gdb
  telnet : σ'.telnetNegotiation = σ.telnetNegotiation
  fifoBuf : σ'.fifoBuf = σ.fifoBuf
  fifoIdx : σ'.fifoIdx = σ.fifoIdx
  trace : σ'.trace = σ.trace

-- Replaces the handle of a port, and with it the function that reads from it.
def State.swap (σ : State) (a : Addr) (old fd : Int) (handler : Handler) : State :=
  { σ with masterRds := (σ.masterRds.erase old).insert fd }.modify a
    ({ · with sock := fd, readMessage := some handler })

-- Everything that a step is made up of. It writes for the given reasons only.
inductive Primitive (env : Env) (K : Cause → Prop) (σ : State) : State → Prop
  | still (h : Still σ σ') : Primitive env K σ σ'
  | write (hb : (σ.port b).isSome) (h : Route K σ b) :
    Primitive env K σ (σ.log <| .write b bytes)
  | serialBreak (hb : (σ.port b).isSome) (h : Route K σ b) :
    Primitive env K σ (σ.log <| .serialBreak b)
  | connect : Primitive env K σ (σ.log <| .connect port)
  | fill (h : ∀ p, σ.port a = some p → p.Fills (f p)) : Primitive env K σ (σ.modify a f)
  | relink (hk : ∀ p, σ.port a = some p → p.Keeps (f p)) (h : ∀ p : Port, p.Relinks (f p))
      (hb : ∀ p b, (f p).peer = some b → p.peer = some b ∨ σ.Peerable b) :
    Primitive env K σ (σ.modify a f)
  -- A connection and its peer get access to a script port.
  | attachLocal (hs : σ.port s = some sp) :
    Primitive env K σ (σ.modify a ({ · with scriptRef := some s, mode := sp.lmode }))
  | attachRemote (hb : σ.Remote b) :
    Primitive env K σ (σ.modify b ({ · with scriptRef := some s, mode := mode }))
  | bind (hk : ∀ p, σ.port a = some p → p.peer = some b) (ha : σ.Local a) (hlt : a < σ.fresh)
      (hb : σ.Remote b) (hp : σ.Peerable b) :
    Primitive env K σ
      (σ.modify s ({ · with lscript := some a, rscript := some b, scriptInUse := true }))
  | chain (hk : K .roster) : Primitive env K σ (σ.setClientNext a b)
  | head (hk : K .roster) : Primitive env K σ (σ.modify s ({ · with clients := b }))
  | scan : Primitive env K σ { σ with gdb := (σ.gdb.scan bytes).1 }
  | flush : Primitive env K σ { σ with gdb := { σ.gdb with arr := [] } }
  | fifo (hb : buf.length = σ.fifoBuf.length) (hi : i < MAX_FIFO_BUF) :
    Primitive env K σ { σ with fifoBuf := buf, fifoIdx := i }
  | negotiate (hp : σ.port r = some p) (ht : p.type = some .rs232) :
    Primitive env K σ { σ with telnetNegotiation := true }
  -- Connections are accepted, unless they are opened to the remote side.
  | create (hk : K .setup)
      (hs : p.sock = env.accept t ∨ (σ.port σ.rPorts).bind (·.type) = some .tcp) (h : p.IsNew) :
    Primitive env K σ (σ.malloc p)
  | select (h : σ.fdSet fd = some σ') : Primitive env K σ σ'
  -- Connections are closed and destroyed, but no permanent port is.
  | close (hp : σ.port a = some p) (hc : ¬p.isPermanent) (h : portclose σ a = some σ') :
    Primitive env K σ σ'
  | free (h : ∀ p, σ.port a = some p → ¬p.isPermanent) : Primitive env K σ (σ.free a)
  -- A connection takes the place of a handle that waits for one.
  | accept (hp : σ.port a = some p) (hm : p.readMessage = some .remotePortAccept)
      (hl : σ.listenFd < 0) (hf : 0 ≤ fd) (hs : fd < 1024) :
    Primitive env K σ (({ σ with listenFd := p.sock } : State).swap a p.sock fd .remotePort)
  | call (hp : σ.port a = some p) (hm : p.readMessage = some .remotePortFifoCon)
      (hl : σ.fifoConFd < 0) (hf : 0 ≤ fd) (hs : fd < 1024) :
    Primitive env K σ (({ σ with fifoConFd := p.sock } : State).swap a p.sock fd .remotePort)
  | reopen (hk : K .reopen) (hp : σ.port a = some p)
      (hm : p.readMessage = some .remotePortFifoCon) (hf : 0 ≤ env.openFifo t)
      (hs : env.openFifo t < 1024) :
    Primitive env K σ (σ.swap a p.sock (env.openFifo t) .remotePortFifoCon)
  -- The handle takes its place back.
  | listen (hp : σ.port a = some p) (hc : p.isPermanent) (ht : p.type = some .listen)
      (hl : 0 ≤ σ.listenFd) :
    Primitive env K σ
      (({ σ with listenFd := -1 } : State).swap a p.sock σ.listenFd .remotePortAccept)
  | await (hp : σ.port a = some p) (hc : p.isPermanent) (ht : p.type = some .fifoCon)
      (hl : 0 ≤ σ.fifoConFd) :
    Primitive env K σ
      (({ σ with fifoConFd := -1 } : State).swap a p.sock σ.fifoConFd .remotePortFifoCon)

-- The new handle of the fifo, if a step opens it again.
def reopened (env : Env) (σ : State) : Event → Option Int
  | .ready a =>
    if σ.handler a = some .remotePortFifoCon then
      match env.read σ.time a with
      | .ok (_ :: _) => none
      | _            => some <| env.openFifo (σ.time + 1)
    else none
  | _        => none

-- A sequence of primitive effects.
def Effects (env : Env) (K : Cause → Prop) : State → State → Prop :=
  Relation.ReflTransGen (Primitive env K)

-- What a connection does after it has tried to relay what it has read.
inductive Concludes (env : Env) (σ : State) (a : Addr) : State → Prop
  | rest : Concludes env σ a σ
  | kill (h : killport σ a = some σ') : Concludes env σ a σ'
  | broadcast (hp : σ.port a = some p) (hs : p.scriptRef = some s)
      (h : writeScriptClients env σ s mem bytes = some σ') : Concludes env σ a σ'
  | print (hp : σ.port a = some p) (hs : p.scriptRef = some s)
      (h : writeUSBScriptClients env σ s mem bytes = some σ') : Concludes env σ a σ'

-- What the ports of the remote side and their peers do when there is something to read.
inductive Reads (env : Env) (σ : State) (a : Addr) (σ' : State) : Prop
  | nothing (hr : portread env σ a IO_BUFSIZE = some (got, σ₁)) (hg : got ≤ 0)
      (h : σ' = σ₁ ∨ killport σ₁ a = some σ')
  | options (hr : portread env σ a IO_BUFSIZE = some (got, σ₁)) (hg : 0 < got)
      (hn : negotiate env σ₁.telnetNegotiation σ₁ a got.toNat = some (0, σ'))
  | data (hr : portread env σ a IO_BUFSIZE = some (got, σ₁)) (hg : 0 < got)
      (hn : negotiate env σ₁.telnetNegotiation σ₁ a got.toNat = some (k, σ₂)) (hk : k ≠ 0)
      (hw : writePeer env σ₂ a k = some (ok, σ₃)) (hc : Concludes env σ₃ a σ')

-- What the ports do in a step.
inductive Reacts (env : Env) (σ σ' : State) : Event → Prop
  | aside (hm : σ.handler a ≠ some .remotePort) (h : Effects env (Cause.Aside σ) σ σ') :
    Reacts env σ σ' (.ready a)
  | relay (hm : σ.handler a = some .remotePort) (h : Reads env σ a σ') : Reacts env σ σ' (.ready a)
  | poll (hm : σ.handler σ.rPorts ≠ some .scriptClientPort) (h : Reads env σ σ.rPorts σ') :
    Reacts env σ σ' .poll
  | oob (h : outOfBand env σ a = some (failed, σ')) : Reacts env σ σ' (.oob a)

end Proxy
