import Mathlib.Logic.Function.Basic
import MyLinuxEnv.Memory.Chain
import MyLinuxEnv.Proxy.Streams

open Memory

namespace Proxy

abbrev Addr := Nat

inductive PortType
  | tcp | udp | rs232 | stdinout | listen | fifoCon | usb
  deriving DecidableEq, Repr

inductive Cls
  | localPort | remotePort | scriptPort | scriptClient
  deriving DecidableEq, Repr

-- The functions that `readMessage` can point to.
inductive Handler
  | localPort | scriptPort | scriptClientPort | remotePort | remotePortAccept | remotePortFifoCon
  deriving DecidableEq, Repr

-- The families of functions that `portread`, `portwrite` and `portclose` can point to.
inductive Driver
  | tcp | udp | stdin | rs232 | usb
  deriving DecidableEq, Repr

def SCRIPT_READ : Nat := 4
def SCRIPT_WRITE : Nat := 2
def NO_TELNET_OPTION_NEGOTIATION : Nat := 16

-- A port, except for its links to the next port and to the next client.
structure Port where
  type : Option PortType := none
  cls : Option Cls := none
  sock : Int := 0
  peer : Option Addr := none
  remote : Option Addr := none
  inIAC : Nat := 0
  scriptRef : Option Addr := none
  mode : Nat := 0
  lmode : Nat := 0
  rmode : Nat := 0
  scriptInUse : Bool := false
  lscript : Option Addr := none
  rscript : Option Addr := none
  clients : Option Addr := none
  breakPort : Bool := false
  buf : List Byte := List.replicate IO_BUFSIZE 0
  readMessage : Option Handler := none
  portclose : Option Driver := none
  portread : Option Driver := none
  portwrite : Option Driver := none

-- The environment: the options of the command line and the results of the system calls, by the
-- time at which they are made. A read yields data, where none means the end of the stream, or an
-- error, where `n` stands for the result `-(n + 1)`.
structure Env where
  breakOnConnect : Bool := true
  gdbSplit : Bool := true
  breakStr : List Byte := [0xff, 0xf3, 'g'.toUInt8]
  read : Nat → Addr → Except Nat (List Byte)
  write : Nat → Addr → List Byte → Int
  accept : Nat → Int
  socket : Nat → Int
  connect : Nat → Int
  openFifo : Nat → Int

def defaultBrkStr : List Byte :=
  [0xff, 0xf3]

inductive Io
  | write (a : Addr) (bytes : List Byte)
  | close (a : Addr)
  | connect (port : Int)
  | serialBreak (a : Addr)
  deriving DecidableEq, Repr

-- Freed ports are `none`. No address is handed out twice.
structure State where
  port : Addr → Option Port := fun _ => none
  next : Addr → Option Addr := fun _ => none
  clientNext : Addr → Option Addr := fun _ => none
  fresh : Addr := 0
  rports : Option Addr := none
  lPorts : Addr := 0
  rPorts : Addr := 0
  listenFd : Int := -1
  fifoConFd : Int := -1
  nsockhandle : Int := 0
  masterRds : List Int := []
  gdb : Gdb := {}
  telnetNegotiation : Bool := false
  fifoBuf : List Byte := List.replicate MAX_FIFO_BUF 0
  fifoIdx : Nat := 0
  time : Nat := 0
  trace : List Io := []

namespace State

def modify (σ : State) (a : Addr) (f : Port → Port) : State :=
  { σ with port := Function.update σ.port a <| (σ.port a).map f }

def setNext (σ : State) (a : Addr) (b : Option Addr) : State :=
  { σ with next := Function.update σ.next a b }

def setClientNext (σ : State) (a : Addr) (b : Option Addr) : State :=
  { σ with clientNext := Function.update σ.clientNext a b }

def malloc (σ : State) (p : Port) : State where
  __         := σ
  port       := Function.update σ.port σ.fresh (some p)
  next       := Function.update σ.next σ.fresh none
  clientNext := Function.update σ.clientNext σ.fresh none
  fresh      := σ.fresh + 1

def free (σ : State) (a : Addr) : State :=
  { σ with port := Function.update σ.port a none }

-- Adds a port to the front of the managed list.
def push (σ : State) (a : Addr) : State :=
  { σ.setNext a σ.rports with rports := some a }

def log (σ : State) (io : Io) : State :=
  { σ with time := σ.time + 1, trace := σ.trace ++ [io] }

-- The handle must fit into the set.
def fdSet (σ : State) (fd : Int) : Option State :=
  if 0 ≤ fd ∧ fd < 1024 then some { σ with masterRds := σ.masterRds.insert fd } else none

def fdClr (σ : State) (fd : Int) : State :=
  { σ with masterRds := σ.masterRds.erase fd }

variable {σ : State} {a b : Addr} {f : Port → Port} {p : Port}

@[simp] theorem modify_port_self : (σ.modify a f).port a = (σ.port a).map f :=
  Function.update_self ..

@[simp] theorem modify_port_of_ne (h : b ≠ a) : (σ.modify a f).port b = σ.port b :=
  Function.update_of_ne h ..

@[simp] theorem free_port_self : (σ.free a).port a = none :=
  Function.update_self ..

@[simp] theorem free_port_of_ne (h : b ≠ a) : (σ.free a).port b = σ.port b :=
  Function.update_of_ne h ..

@[simp] theorem malloc_port_self : (σ.malloc p).port σ.fresh = some p :=
  Function.update_self ..

@[simp] theorem malloc_port_of_ne (h : b ≠ σ.fresh) : (σ.malloc p).port b = σ.port b :=
  Function.update_of_ne h ..

-- The managed list and the clients of a script port.
def ports (σ : State) : List Addr :=
  walk σ.next σ.fresh σ.rports

def clients (σ : State) (s : Addr) : List Addr :=
  walk σ.clientNext σ.fresh <| (σ.port s).bind (·.clients)

end State

section Ports

variable (env : Env)

-- The result of a read, together with the data, which replaces the beginning of the buffer.
def portread (σ : State) (a : Addr) (size : Nat) : Option (Int × State) := do
  let p ← σ.port a
  let _ ← p.portread
  let σ := { σ with time := σ.time + 1 }
  match env.read (σ.time - 1) a with
  | .error n => some (-(n + 1), σ)
  | .ok data =>
    let data := data.take size
    some (data.length, σ.modify a fun p => { p with buf := data ++ p.buf.drop data.length })

-- Writes the first bytes of the memory from some address on. The driver of the target looks at the
-- memory as a string, whose end does not depend on the number of bytes.
def portwrite (σ : State) (a : Addr) (mem : List Byte) (size : Int) : Option (Int × State) := do
  let p ← σ.port a
  let d ← p.portwrite
  if d = .usb ∧ mem.takeWhile (· ≠ 0) = "$c#63".toList.map Char.toUInt8 then some (size, σ) else
    let bytes := mem.take size.toNat
    some (env.write σ.time a bytes, σ.log <| .write a bytes)

def portclose (σ : State) (a : Addr) : Option State := do
  let p ← σ.port a
  match p.portclose with
  | none   => some σ
  | some d =>
    let σ := if d = .usb then σ else σ.fdClr p.sock
    some <| (σ.log <| .close a).modify a ({ · with sock := -1 })

def maxSock (σ : State) : (fuel : Nat) → Option Addr → Int → Option Int
  | 0, _, _             => none
  | _ + 1, none, temp   => some temp
  | fuel + 1, some i, temp => do
    let p ← σ.port i
    maxSock σ fuel (σ.next i) <| if temp < p.sock then p.sock else temp

def refreshNsockhandle (σ : State) : Option State := do
  let temp ← maxSock σ (σ.fresh + 1) σ.rports (-1)
  some { σ with nsockhandle := temp + 1 }

end Ports

end Proxy
