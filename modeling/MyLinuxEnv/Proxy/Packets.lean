import MyLinuxEnv.Proxy.Streams
import MyLinuxEnv.Text.InOrder

namespace Proxy

-- A packet of the debugger: a body between `$` and `#`, followed by the digits of a checksum.
inductive IsPacket : List Byte → Prop
  | intro (hb : ∀ c ∈ body, c ≠ '$'.toUInt8 ∧ c ≠ '#'.toUInt8) (h₁ : (hexDigit? c₁).isSome)
      (h₂ : (hexDigit? c₂).isSome) (hl : body.length + 4 < 4096) :
    IsPacket <| '$'.toUInt8 :: body ++ ['#'.toUInt8, c₁, c₂]

namespace Gdb

-- All bytes of a read find room in the accumulator.
def Fits (g : Gdb) : List Byte → Prop
  | []      => True
  | c :: cs => g.arr.length < MAX_GDB_BUF ∧ (g.step c).1.Fits cs

instance decidableFits (g : Gdb) : (buf : List Byte) → Decidable (g.Fits buf)
  | []      => inferInstanceAs (Decidable True)
  | c :: cs =>
    have := (g.step c).1.decidableFits cs
    inferInstanceAs (Decidable (_ ∧ _))

-- What is left of a read in the accumulator, and the buffer that is handed to the clients.
def read (g : Gdb) (buf : List Byte) : Gdb × Option (List Byte) :=
  let (g, xmit) := g.scan buf
  if xmit then ({ g with arr := [] }, some g.arr) else (g, none)

def FitsAll (g : Gdb) : List (List Byte) → Prop
  | []          => True
  | buf :: bufs => g.Fits buf ∧ (g.read buf).1.FitsAll bufs

instance decidableFitsAll (g : Gdb) : (bufs : List (List Byte)) → Decidable (g.FitsAll bufs)
  | []          => inferInstanceAs (Decidable True)
  | buf :: bufs =>
    have := (g.read buf).1.decidableFitsAll bufs
    inferInstanceAs (Decidable (_ ∧ _))

-- The buffers that are handed to the clients during some reads.
def sent (g : Gdb) : List (List Byte) → List (List Byte)
  | []          => []
  | buf :: bufs => (g.read buf).2.toList ++ (g.read buf).1.sent bufs

-- The splitter without its accumulator: what becomes of `gotDollar`, which bytes are kept, and
-- which ones ask for a transmission.
def next (d : Nat) (c : Byte) : Nat :=
  (step { gotDollar := d } c).1.gotDollar

def kept (d : Nat) (c : Byte) : List Byte :=
  (step { gotDollar := d } c).1.arr

def ends (d : Nat) (c : Byte) : Bool :=
  (step { gotDollar := d } c).2

def final (d : Nat) (w : List Byte) : Nat :=
  w.foldl next d

def keep (d : Nat) : List Byte → List Byte
  | []     => []
  | c :: w => kept d c ++ keep (next d c) w

def xmits (d : Nat) : List Byte → Bool
  | []     => false
  | c :: w => ends d c || xmits (next d c) w

end Gdb

end Proxy
