import Mathlib.Algebra.Group.Int.Defs
import Mathlib.Algebra.Group.Nat.Defs
import Mathlib.Data.List.Basic
import Mathlib.Data.Nat.Notation

namespace Proxy

abbrev Byte := UInt8

def IO_BUFSIZE : Nat := 8192

def IAC : Byte := 255

section Iac

-- The state of the loop over a read which removes the telnet options. For every request of a
-- break, `breaks` lists the number of bytes that have been kept in front of it.
structure Iac where
  buf : List Byte
  j : Nat := 0
  inIAC : Nat
  breaks : List Nat := []
  deriving DecidableEq, Repr

-- The byte at index `i`. The control character is special if `ctrlC` is set.
def Iac.step (ctrlC : Bool) (i : Nat) (s : Iac) : Iac :=
  let c := s.buf.getD i 0
  if 0 < s.inIAC then
    let s :=
      if c = IAC ∧ s.inIAC = 1 then s
      else if c = 0xf3 then { s with breaks := s.breaks ++ [s.j], inIAC := 0 }
      else { s with inIAC := s.inIAC + 1 }
    if 3 ≤ s.inIAC then { s with inIAC := 0 } else s
  else if c = IAC then { s with inIAC := 1 }
  else if ctrlC ∧ s.buf.getD s.j 0 = 3 then { s with breaks := s.breaks ++ [s.j] }
  else { s with buf := if s.j ≠ i then s.buf.set s.j c else s.buf, j := s.j + 1 }

def Iac.run (ctrlC : Bool) : (count i : Nat) → Iac → Iac
  | 0, _, s         => s
  | count + 1, i, s => run ctrlC count (i + 1) (s.step ctrlC i)

def processIACoptions (ctrlC : Bool) (inIAC : Nat) (buf : List Byte) (got : Nat) : Iac :=
  Iac.run ctrlC got 0 { buf, inIAC }

end Iac

section Gdb

def MAX_GDB_BUF : Nat := 1024 * 8

-- What has been accumulated of a stream of packets. The index `gdbPtr` is the length of `arr`.
structure Gdb where
  arr : List Byte := []
  gotDollar : Nat := 0
  deriving DecidableEq, Repr

-- Besides the new state, returns whether the accumulated bytes are to be transmitted.
def Gdb.step (g : Gdb) (c : Byte) : Gdb × Bool :=
  if MAX_GDB_BUF ≤ g.arr.length then ({ arr := [], gotDollar := 0 }, false)
  else if c = '+'.toUInt8 ∨ c = '-'.toUInt8 then
    ({ g with arr := g.arr ++ [c] }, g.gotDollar = 0)
  else if c = '$'.toUInt8 then ({ arr := g.arr ++ [c], gotDollar := 1 }, false)
  else if 0 < g.gotDollar then
    let d := if 1 < g.gotDollar then g.gotDollar + 1 else g.gotDollar
    let d := if c = '#'.toUInt8 ∧ d ≤ 1 then d + 1 else d
    if 4 ≤ d
    then ({ arr := g.arr ++ [c], gotDollar := 0 }, true)
    else ({ arr := g.arr ++ [c], gotDollar := d }, false)
  else (g, false)

def Gdb.scan (g : Gdb) : List Byte → Gdb × Bool
  | []      => (g, false)
  | c :: cs =>
    let (g, xmit) := g.step c
    let (g, xmit') := g.scan cs
    (g, xmit || xmit')

end Gdb

section Usb

def hexDigit? (c : Byte) : Option Nat :=
  if '0'.toUInt8 ≤ c ∧ c ≤ '9'.toUInt8 then some <| c.toNat - '0'.toNat
  else if 'a'.toUInt8 ≤ c ∧ c ≤ 'f'.toUInt8 then some <| c.toNat - 'a'.toNat + 10
  else if 'A'.toUInt8 ≤ c ∧ c ≤ 'F'.toUInt8 then some <| c.toNat - 'A'.toNat + 10
  else none

-- The number that begins with `0x` is read up to the first character which is no digit.
def hexToAscii (first second : Byte) : Byte :=
  match hexDigit? first, hexDigit? second with
  | none, _          => 0
  | some h, none     => .ofNat h
  | some h, some l   => .ofNat (16 * h + l)

-- The offset of the first `$O`. The byte behind the last one that was read belongs to the buffer.
def findConsole (buf : List Byte) : (count i : Nat) → Option Nat
  | 0, _         => none
  | count + 1, i =>
    if buf.getD i 0 = '$'.toUInt8 ∧ buf.getD (i + 1) 0 = 'O'.toUInt8
    then some i
    else findConsole buf count (i + 1)

def decodeConsole (buf : List Byte) (bytes : Nat) : (fuel i : Nat) → List Byte
  | 0, _        => []
  | fuel + 1, i =>
    if i < bytes ∧ buf.getD i 0 ≠ '#'.toUInt8
    then hexToAscii (buf.getD i 0) (buf.getD (i + 1) 0) :: decodeConsole buf bytes fuel (i + 2)
    else []

end Usb

section Fifo

def isSpace (c : Byte) : Bool :=
  c = 32 || (9 ≤ c && c ≤ 13)

def isDigit (c : Byte) : Bool :=
  '0'.toUInt8 ≤ c && c ≤ '9'.toUInt8

def number (s : List Byte) : Nat :=
  s.foldl (fun n c => 10 * n + (c.toNat - '0'.toNat)) 0

def LONG_MAX : Int := 2 ^ 63 - 1

-- The number is a `long`, which does not exceed its limits, and is cut down to 32 bits.
def atoi (s : List Byte) : Int :=
  let s := s.dropWhile isSpace
  let value (s : List Byte) : Int := number <| s.takeWhile isDigit
  let n :=
    match s with
    | []     => 0
    | c :: t =>
      if c = '-'.toUInt8 then max (-value t) (-LONG_MAX - 1)
      else if c = '+'.toUInt8 then min (value t) LONG_MAX
      else min (value s) LONG_MAX
  n.bmod (2 ^ 32)

def MAX_FIFO_BUF : Nat := 50

end Fifo

end Proxy
