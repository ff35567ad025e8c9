import MyLinuxEnv.Proxy.Kill

namespace Proxy

variable (env : Env)

section Telnet

-- The callers ignore the result.
def sendSpecialBreak : (breakString : List Byte) → State → Addr → Option State
  | [], σ, _          => some σ
  | [c], σ, a         => return (← portwrite env σ a [c] 1).2
  | c :: d :: s, σ, a => do
    let p ← σ.port a
    if c = 0xff ∧ d = 0xf3 ∧ p.type = some .rs232
    then sendSpecialBreak s (σ.log <| .serialBreak a) a
    else
      let (got, σ) ← portwrite env σ a (c :: d :: s) 1
      if got ≠ 1 then some σ else sendSpecialBreak (d :: s) σ a

-- Where the breaks that a connection requests go to, and what they look like there.
def breakTarget (σ : State) (p : Port) : Option (Addr × List Byte) :=
  if p.readMessage = some .scriptClientPort then do
    let sp ← σ.port (← p.scriptRef)
    return (← sp.rscript, if sp.breakPort then env.breakStr else defaultBrkStr)
  else do
    return (← p.peer, defaultBrkStr)

-- Whether the control character requests a break.
def ctrlC (σ : State) (p : Port) : Option Bool :=
  if p.readMessage = some .scriptClientPort then do
    let sp ← σ.port (← p.scriptRef)
    return sp.breakPort && sp.rscript.isSome
  else
    return false

-- Removes the telnet options from the bytes that have just been read.
def filterOptions (σ : State) (a : Addr) (got : Nat) : Option (Nat × State) := do
  let p ← σ.port a
  let s := processIACoptions (← ctrlC σ p) p.inIAC p.buf got
  let σ := σ.modify a ({ · with buf := s.buf, inIAC := s.inIAC })
  let σ ← s.breaks.foldlM (fun σ _ => do
    let (b, str) ← breakTarget env σ p
    sendSpecialBreak env str σ b) σ
  return (s.j, σ)

-- Where telnet is not negotiated, all bytes are data.
def negotiate (active : Bool) (σ : State) (a : Addr) (got : Nat) : Option (Nat × State) :=
  if active then filterOptions env σ a got else some (got, σ)

-- IAC WILL ECHO, IAC WILL suppress go ahead, IAC WILL binary and IAC DO binary.
def iacStartup (σ : State) (a : Addr) : Option State :=
  [[0xff, 0xfb, 0x01], [0xff, 0xfb, 0x03], [0xff, 0xfb, 0x00], [0xff, 0xfd, 0x00]].foldlM
    (fun σ resp => return (← portwrite env σ a resp 3).2) σ

end Telnet

section Script

-- The loop over the clients from `iport` on.
def writeClients (s : Addr) (mem : List Byte) (bytes : Nat) :
    (fuel : Nat) → State → (iport : Option Addr) → Option State
  | 0, _, _           => none
  | _ + 1, σ, none    => some σ
  | fuel + 1, σ, some i => do
    let (got, σ) ← portwrite env σ i mem bytes
    if got ≤ 0 then
      let (next, σ) ← killScriptClient σ s i
      writeClients s mem bytes fuel σ next
    else
      let _ ← σ.port i
      writeClients s mem bytes fuel σ (σ.clientNext i)

def deliver (σ : State) (s : Addr) (mem : List Byte) (bytes : Nat) : Option State := do
  let sp ← σ.port s
  let σ ← writeClients env s mem bytes (σ.fresh + 1) σ sp.clients
  let sp ← σ.port s
  return if sp.breakPort then { σ with gdb := { σ.gdb with arr := [] } } else σ

def writeScriptClients (σ : State) (s : Addr) (buf : List Byte) (bytes : Nat) : Option State := do
  let sp ← σ.port s
  if sp.breakPort ∧ env.gdbSplit then
    let (gdb, xmit) := σ.gdb.scan <| buf.take bytes
    let σ := { σ with gdb }
    if xmit then deliver env σ s gdb.arr gdb.arr.length else some σ
  else
    deliver env σ s buf bytes

def writeUSBScriptClients (σ : State) (s : Addr) (buf : List Byte) (bytes : Nat) : Option State :=
  match findConsole buf bytes 0 with
  | none   => some σ
  | some i =>
    let text := decodeConsole buf bytes bytes i
    deliver env σ s text text.length

end Script

section Local

def openRemotePort (σ : State) (peer : Addr) : Option (Option Addr × State) := do
  let p ← σ.port peer
  let remote ← p.remote
  let r ← σ.port remote
  match r.type with
  | some .tcp =>
    let iport := σ.fresh
    let sock := env.socket σ.time
    let σ := { σ with time := σ.time + 1 }.malloc {
      readMessage := some .remotePort, portclose := some .tcp, portread := some .tcp,
      portwrite := some .tcp, sock }
    if sock < 0 then some (none, σ.free iport) else
      let tmp := env.connect σ.time
      let σ := { σ with time := σ.time + 1 }
      if tmp < 0 then some (none, σ.free iport) else
        let σ := (σ.modify iport ({ · with peer := some peer })).push iport
        let σ ← refreshNsockhandle σ
        let σ ← σ.fdSet sock
        some (some iport, σ)
  | some .udp | some .rs232 | some .usb =>
    some (some remote, σ.modify remote ({ · with peer := some peer }))
  | _ => some (none, σ)

-- Binds the script port to a connection and its peer, unless another connection uses it.
def bindScript (σ : State) (lPort iport peer : Addr) : Option State := do
  let l ← σ.port lPort
  match l.scriptRef with
  | none   => some σ
  | some s =>
    let sp ← σ.port s
    if sp.scriptInUse then some σ else
      let σ := σ.modify iport ({ · with scriptRef := some s, mode := sp.lmode })
      let σ := σ.modify peer ({ · with scriptRef := some s, mode := sp.rmode })
      some <| σ.modify s
        ({ · with lscript := some iport, rscript := some peer, scriptInUse := true })

def localPortAccept (σ : State) (lPort : Addr) : Option State := do
  let l ← σ.port lPort
  let nsock := env.accept σ.time
  let iport := σ.fresh
  let σ := { σ with time := σ.time + 1 }.malloc {
    readMessage := some .remotePort, portclose := some .tcp, portread := some .tcp,
    portwrite := some .tcp, sock := nsock, type := some .tcp, remote := l.remote }
  match ← openRemotePort env σ iport with
  | (none, σ)      => some (σ.free iport)
  | (some peer, σ) =>
    let σ := (σ.modify iport ({ · with peer := some peer })).push iport
    let σ ← refreshNsockhandle σ
    let σ ← σ.fdSet nsock
    let l ← σ.port lPort
    let r ← σ.port (← l.remote)
    let σ ←
      if r.type = some .rs232
      then iacStartup env { σ with telnetNegotiation := true } iport
      else some σ
    bindScript σ lPort iport peer

-- The process exits when the standard input ends.
def localPortForward (σ : State) (lPort : Addr) : Option State := do
  match ← openRemotePort env σ lPort with
  | (none, σ)      => return (← portread env σ lPort IO_BUFSIZE).2
  | (some peer, σ) =>
    let σ := σ.modify lPort ({ · with peer := some peer })
    let (got, σ) ← portread env σ lPort IO_BUFSIZE
    let l ← σ.port lPort
    if got ≤ 0 ∧ l.type = some .stdinout then none else
      return (← portwrite env σ (← l.peer) l.buf got).2

def localPortReadMessage (σ : State) (lPort : Addr) : Option State := do
  let l ← σ.port lPort
  match l.type with
  | some .tcp                   => localPortAccept env σ lPort
  | some .udp | some .stdinout => localPortForward env σ lPort
  | _                           => some σ

end Local

section ScriptPort

def scriptPortReadMessage (σ : State) (s : Addr) : Option State := do
  let sp ← σ.port s
  if sp.type ≠ some .tcp then some σ else
    let nsock := env.accept σ.time
    let iport := σ.fresh
    let σ := { σ with time := σ.time + 1 }.malloc {
      readMessage := some .scriptClientPort, portclose := some .tcp, portread := some .tcp,
      portwrite := some .tcp, sock := nsock, type := some .tcp, cls := some .scriptClient,
      scriptRef := some s }
    let σ := (σ.setClientNext iport sp.clients).modify s ({ · with clients := some iport })
    let σ := σ.push iport
    let σ ← refreshNsockhandle σ
    let σ ← σ.fdSet nsock
    let σ ←
      if sp.mode &&& NO_TELNET_OPTION_NEGOTIATION = 0 ∧ !sp.breakPort
      then iacStartup env σ iport
      else some σ
    match sp.rscript with
    | none   => some σ
    | some r =>
      if env.breakOnConnect ∧ sp.breakPort
      then sendSpecialBreak env env.breakStr σ r
      else some σ

-- Writes what a client has sent to one side of the script connection. Returns the number of bytes
-- that have been written, if that succeeds.
def writeScript (σ : State) (a : Addr) (side : Option Addr) (got : Nat) :
    Option (Option Nat × State) :=
  match side with
  | none   => some (some got, σ)
  | some b => do
    let q ← σ.port b
    if q.mode &&& SCRIPT_WRITE = 0 then some (some got, σ) else
      let p ← σ.port a
      let (got, σ) ← portwrite env σ b p.buf got
      if got ≤ 0 then return (none, ← killport σ b) else some (some got.toNat, σ)

-- Returns if something went wrong, in which case ports may have been destroyed.
def scriptClientPortReadMessage (σ : State) (a : Addr) : Option (Bool × State) := do
  let (got, σ) ← portread env σ a IO_BUFSIZE
  let p ← σ.port a
  let s ← p.scriptRef
  if got ≤ 0 then return (true, (← killScriptClient σ s a).2) else
    let (got, σ) ← negotiate env (p.mode &&& NO_TELNET_OPTION_NEGOTIATION = 0) σ a got.toNat
    if got = 0 then some (false, σ) else
      let sp ← σ.port s
      if !sp.scriptInUse then some (false, σ) else
        match ← writeScript env σ a sp.rscript got with
        | (none, σ)     => some (true, σ)
        | (some got, σ) =>
          let (got, σ) ← writeScript env σ a (← σ.port s).lscript got
          some (got.isNone, σ)

end ScriptPort

section Remote

-- The original handle is kept while a connection takes its place.
def remotePortAccept (σ : State) (a : Addr) : Option State := do
  let p ← σ.port a
  let fd := env.accept σ.time
  let σ := { σ with time := σ.time + 1 }
  if fd < 0 then some σ else
    if σ.listenFd < 0 then
      let σ := { σ with listenFd := p.sock }.modify a ({ · with sock := fd })
      let σ ← (σ.fdClr p.sock).fdSet fd
      let σ ← refreshNsockhandle σ
      some <| σ.modify a ({ · with readMessage := some .remotePort })
    else some σ

-- Tries to connect to the port whose number has been read from the fifo, cut down to 16 bits.
def fifoConnect (σ : State) (a : Addr) : Option State := do
  let p ← σ.port a
  let port := atoi σ.fifoBuf
  let sock := env.socket σ.time
  let σ := { σ with time := σ.time + 1, fifoIdx := 0 }
  if sock < 0 then some σ else
    let ret := env.connect σ.time
    let σ := σ.log <| .connect (port % 2 ^ 16)
    if ret < 0 then some σ else
      if σ.fifoConFd < 0 then
        let σ := { σ with fifoConFd := p.sock }.modify a ({ · with sock })
        let σ ← (σ.fdClr p.sock).fdSet sock
        let σ ← refreshNsockhandle σ
        some <| σ.modify a ({ · with readMessage := some .remotePort })
      else some σ

-- The process exits when the fifo can't be opened again.
def remotePortFifoConRead (σ : State) (a : Addr) : Option State := do
  let p ← σ.port a
  let time := σ.time
  let σ := { σ with time := time + 1 }
  match env.read time a with
  | .ok (c :: _) =>
    let σ ← if c = '\n'.toUInt8 then fifoConnect env σ a else some σ
    let σ :=
      if c ≠ '\r'.toUInt8 ∧ c ≠ '\n'.toUInt8
      then { σ with fifoBuf := σ.fifoBuf.set σ.fifoIdx c, fifoIdx := σ.fifoIdx + 1 }
      else σ
    some <| if MAX_FIFO_BUF ≤ σ.fifoIdx then { σ with fifoIdx := 0 } else σ
  | _ =>
    let sock := env.openFifo σ.time
    let σ := ({ σ with time := σ.time + 1 }.fdClr p.sock).modify a ({ · with sock })
    if sock < 0 then none else
      refreshNsockhandle (← σ.fdSet sock)

-- Passes on to the peer what has been read. Returns if that succeeds.
def writePeer (σ : State) (a : Addr) (got : Nat) : Option (Bool × State) := do
  let p ← σ.port a
  match p.peer with
  | none   => some (true, σ)
  | some b =>
    if (← σ.port b).sock < 0 then some (true, σ) else
      let (got, σ) ← portwrite env σ b p.buf got
      some (0 < got, σ)

-- Returns if something went wrong, in which case the iteration over the ports starts again.
def remotePortReadMessage (σ : State) (a : Addr) : Option (Bool × State) := do
  let (got, σ) ← portread env σ a IO_BUFSIZE
  if got ≤ 0 then return (true, ← killport σ a) else
    let (got, σ) ← negotiate env σ.telnetNegotiation σ a got.toNat
    if got = 0 then some (false, σ) else
      let (ok, σ) ← writePeer env σ a got
      if !ok then return (true, ← killport σ a) else
        let p ← σ.port a
        match p.scriptRef with
        | none   => some (false, σ)
        | some s =>
          if p.mode &&& SCRIPT_READ = 0 then some (false, σ) else
            return (true, ← writeScriptClients env σ s p.buf got)

-- A timeout of the transfer is not an error.
def remoteUSBPortReadMessage (σ : State) (a : Addr) : Option State := do
  let (got, σ) ← portread env σ a IO_BUFSIZE
  if 0 < got then
    let (got, σ) ← negotiate env σ.telnetNegotiation σ a got.toNat
    if got = 0 then some σ else
      let (ok, σ) ← writePeer env σ a got
      if !ok then killport σ a else
        let p ← σ.port a
        match p.scriptRef with
        | none   => some σ
        | some s => writeUSBScriptClients env σ s p.buf got
  else if got ≠ -7 then killport σ a else some σ

end Remote

section Main

-- The functions behind `readMessage`. The local port and the ports that wait for a connection do
-- not report errors.
def readMessage (σ : State) (a : Addr) : Option (Bool × State) := do
  let p ← σ.port a
  match ← p.readMessage with
  | .localPort         => return (false, ← localPortReadMessage env σ a)
  | .scriptPort        => return (p.type ≠ some .tcp, ← scriptPortReadMessage env σ a)
  | .scriptClientPort  => scriptClientPortReadMessage env σ a
  | .remotePort        => remotePortReadMessage env σ a
  | .remotePortAccept  => return (false, ← remotePortAccept env σ a)
  | .remotePortFifoCon => return (false, ← remotePortFifoConRead env σ a)

-- A single byte is passed on to the peer, which is not checked for its existence.
def outOfBand (σ : State) (a : Addr) : Option (Bool × State) := do
  let (got, σ) ← portread env σ a 1
  if got ≤ 0 then return (true, ← killport σ a) else
    let p ← σ.port a
    let (got, σ) ← portwrite env σ (← p.peer) p.buf got
    if got ≤ 0 then return (true, ← killport σ a) else some (false, σ)

-- What the loops of the main thread and of the polling thread react to.
inductive Event
  | ready (a : Addr)
  | oob   (a : Addr)
  | poll
  deriving DecidableEq, Repr

def step (σ : State) : Event → Option State
  | .ready a => if a ∈ σ.ports then (readMessage env σ a).map (·.2) else none
  | .oob a   => if a ∈ σ.ports then (outOfBand env σ a).map (·.2) else none
  | .poll    => do
    let r ← σ.port σ.rPorts
    if r.type = some .usb then remoteUSBPortReadMessage env σ σ.rPorts else none

-- A run from one state to another, together with its steps.
inductive Run (σ : State) : List (State × Event) → State → Prop
  | refl : Run σ [] σ
  | step (h : Run σ steps τ) (hs : step env τ ev = some τ') : Run σ (steps ++ [(τ, ev)]) τ'

end Main

section Step

variable {env : Env} {σ σ' : State} {a : Addr}

-- What a port does when there is something to read, which depends on its handler.
inductive Handled (env : Env) (σ : State) (a : Addr) (σ' : State) : Handler → Prop
  | localPort (h : localPortReadMessage env σ a = some σ') : Handled env σ a σ' .localPort
  | scriptPort (h : scriptPortReadMessage env σ a = some σ') : Handled env σ a σ' .scriptPort
  | scriptClientPort (h : scriptClientPortReadMessage env σ a = some (failed, σ')) :
    Handled env σ a σ' .scriptClientPort
  | remotePort (h : remotePortReadMessage env σ a = some (failed, σ')) :
    Handled env σ a σ' .remotePort
  | remotePortAccept (h : remotePortAccept env σ a = some σ') :
    Handled env σ a σ' .remotePortAccept
  | remotePortFifoCon (h : remotePortFifoConRead env σ a = some σ') :
    Handled env σ a σ' .remotePortFifoCon

theorem handled_of_readMessage {failed : Bool} (h : readMessage env σ a = some (failed, σ')) :
    ∃ p handler, σ.port a = some p ∧ p.readMessage = some handler ∧ Handled env σ a σ' handler := by
  have ⟨p, hp, h⟩ := Option.bind_eq_some_iff.mp h
  have ⟨handler, hm, h⟩ := Option.bind_eq_some_iff.mp h
  refine ⟨p, handler, hp, hm, ?_⟩
  cases handler
  case localPort =>
    have ⟨_, h, he⟩ := Option.bind_eq_some_iff.mp h
    cases he
    exact .localPort h
  case scriptPort =>
    have ⟨_, h, he⟩ := Option.bind_eq_some_iff.mp h
    cases he
    exact .scriptPort h
  case scriptClientPort => exact .scriptClientPort h
  case remotePort       => exact .remotePort h
  case remotePortAccept =>
    have ⟨_, h, he⟩ := Option.bind_eq_some_iff.mp h
    cases he
    exact .remotePortAccept h
  case remotePortFifoCon =>
    have ⟨_, h, he⟩ := Option.bind_eq_some_iff.mp h
    cases he
    exact .remotePortFifoCon h

theorem readMessage_of_step (h : step env σ (.ready a) = some σ') :
    a ∈ σ.ports ∧ ∃ failed, readMessage env σ a = some (failed, σ') := by
  simp only [step] at h
  split at h
  case isFalse   => contradiction
  case isTrue hm =>
    have ⟨⟨failed, _⟩, hr, he⟩ := Option.map_eq_some_iff.mp h
    cases he
    exact ⟨hm, failed, hr⟩

theorem outOfBand_of_step (h : step env σ (.oob a) = some σ') :
    a ∈ σ.ports ∧ ∃ failed, outOfBand env σ a = some (failed, σ') := by
  simp only [step] at h
  split at h
  case isFalse   => contradiction
  case isTrue hm =>
    have ⟨⟨failed, _⟩, hr, he⟩ := Option.map_eq_some_iff.mp h
    cases he
    exact ⟨hm, failed, hr⟩

-- A step in which a port reads.
theorem handled_of_step (h : step env σ (.ready a) = some σ') :
    ∃ p handler, σ.port a = some p ∧ p.readMessage = some handler ∧ Handled env σ a σ' handler :=
  have ⟨_, _, h⟩ := readMessage_of_step h
  handled_of_readMessage h

theorem remotePortFifoConRead_of_step
    (hm : (σ.port a).bind (·.readMessage) = some .remotePortFifoCon)
    (h : step env σ (.ready a) = some σ') : remotePortFifoConRead env σ a = some σ' := by
  have ⟨p, handler, hp, hh, hd⟩ := handled_of_step h
  rw [hp, Option.bind_some, hh, Option.some_inj] at hm
  subst hm
  cases hd
  assumption

end Step

end Proxy
