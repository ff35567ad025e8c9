import Mathlib.Data.List.Basic
import MyLinuxEnv.Proxy.Streams

namespace Proxy

-- What becomes of a stream: the bytes that are kept, and for every break that is requested the
-- number of bytes in front of it.
structure Output where
  bytes : List Byte := []
  breaks : List Nat := []
  deriving DecidableEq, Repr

inductive Effect
  | keep (c : Byte) | brk | drop
  deriving DecidableEq, Repr

namespace Output

def apply (o : Output) : Effect → Output
  | .keep c => { o with bytes := o.bytes ++ [c] }
  | .brk    => { o with breaks := o.breaks ++ [o.bytes.length] }
  | .drop   => o

def append (o o' : Output) : Output where
  bytes  := o.bytes ++ o'.bytes
  breaks := o.breaks ++ o'.breaks.map (o.bytes.length + ·)

end Output

namespace Iac

def output (s : Iac) : Output where
  bytes  := s.buf.take s.j
  breaks := s.breaks

-- How many bytes of a command have been seen after the next byte.
def next (inIAC : Nat) (c : Byte) : Nat :=
  if 0 < inIAC then
    if c = IAC ∧ inIAC = 1 then 1
    else if c = 0xf3 ∨ 3 ≤ inIAC + 1 then 0
    else inIAC + 1
  else if c = IAC then 1 else 0

-- What becomes of a byte, where `special` says if data is taken for the control character.
def effect (inIAC : Nat) (c : Byte) (special : Bool) : Effect :=
  if 0 < inIAC then if c = 0xf3 then .brk else .drop
  else if c = IAC then .drop
  else if special then .brk
  else .keep c

-- The filter as a function of what has been read, where data is taken for the control character
-- according to the byte whose index is the number of bytes that have been kept so far.
def scan (ctrlC : Bool) (inIAC : Nat) (buf : List Byte) : Nat → Nat × Output
  | 0     => (inIAC, {})
  | i + 1 =>
    let (inIAC, o) := scan ctrlC inIAC buf i
    let c := buf.getD i 0
    (next inIAC c, o.apply <| effect inIAC c <| ctrlC && buf.getD o.bytes.length 0 = 3)

end Iac

-- The state of a connection and its output after one more read.
def receive (ctrlC : Bool) (s : Nat × Output) (read : List Byte) : Nat × Output :=
  let t := processIACoptions ctrlC s.1 read read.length
  (t.inIAC, s.2.append t.output)

-- Reads which consist of a single byte.
def receiveByte (ctrlC : Bool) (s : Nat × Output) (c : Byte) : Nat × Output :=
  receive ctrlC s [c]

def receiveAll (ctrlC : Bool) (reads : List (List Byte)) : Nat × Output :=
  reads.foldl (receive ctrlC) (0, {})

section Cuts

-- The reads that a stream may arrive in.
structure IsCut (w : List Byte) (reads : List (List Byte)) : Prop where
  flatten : reads.flatten = w
  read : ∀ r ∈ reads, r ≠ [] ∧ r.length ≤ IO_BUFSIZE

-- The state of a connection in front of a position of a stream.
def stateAt (w : List Byte) (p : Nat) : Nat :=
  (w.take p).foldl Iac.next 0

-- The byte at a position does not belong to a command.
def IsData (w : List Byte) (p : Nat) : Prop :=
  p < w.length ∧ stateAt w p = 0 ∧ w.getD p 0 ≠ IAC

-- No part of a stream which fits into a read mixes the control character with anything else: data
-- behind its code is always the control character, and data behind another byte of a command
-- never is.
structure Uniform (w : List Byte) : Prop where
  control : ∀ p q, p < q → q < p + IO_BUFSIZE → IsData w q → w.getD p 0 = 3 → w.getD q 0 = 3
  command : ∀ p q, p < q → q < p + IO_BUFSIZE → IsData w q → ¬IsData w p → w.getD p 0 ≠ 3 →
    w.getD q 0 ≠ 3

end Cuts

section Encoding

-- The commands which negotiate an option.
inductive Verb
  | will | wont | do_ | dont
  deriving DecidableEq, Repr

def Verb.byte : Verb → Byte
  | will => 0xfb
  | wont => 0xfc
  | do_  => 0xfd
  | dont => 0xfe

-- What is sent on a connection.
inductive Item
  | data (c : Byte) | option (verb : Verb) (opt : Byte) (h : opt ≠ IAC) | brk
  deriving DecidableEq, Repr

namespace Item

def encode : Item → List Byte
  | data c            => if c = IAC then [IAC, IAC] else [c]
  | option verb opt _ => [IAC, verb.byte, opt]
  | brk               => [IAC, 0xf3]

def data? : Item → Option Byte
  | data c => some c
  | _      => none

end Item

def encode (items : List Item) : List Byte :=
  items.flatMap Item.encode

-- The data is what has been sent, every break is requested, and no command is left unfinished.
structure Decodes (items : List Item) (s : Nat × Output) : Prop where
  data : s.2.bytes = items.filterMap Item.data?
  breaks : s.2.breaks.length = items.count .brk
  inIAC : s.1 = 0

end Encoding

end Proxy
