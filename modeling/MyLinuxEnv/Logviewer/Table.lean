import MyLinuxEnv.Text.Regex

open Text

namespace Logviewer

def ESC : Char := '\x1b'

-- The codes of a rendering, or the one that ends all renderings if `reset` is set.
def codes (fg bg : Option Nat) (bright bold underline reverse reset : Bool) : List Str :=
  if reset then [['0']] else
    (if bright
      then [fg.elim ['9', '9'] ('9' :: Nat.toDigits 10 ·),
        bg.elim ['1', '0', '9'] ('1' :: '0' :: Nat.toDigits 10 ·)]
      else (fg.map ('3' :: Nat.toDigits 10 ·)).toList ++
        (bg.map ('4' :: Nat.toDigits 10 ·)).toList) ++
    (if bold then [['1']] else []) ++
    (if underline then [['4']] else []) ++
    (if reverse then [['7']] else [])

def format (fg bg : Option Nat) (bright bold underline reverse reset : Bool) : Str :=
  let codes := codes fg bg bright bold underline reverse reset
  let codes := if codes = [] then [['2', '2']] else codes
  ESC :: '[' :: [';'].intercalate codes ++ ['m']

-- How a string is displayed within a tuple.
def repr (s : Str) : Str :=
  let quote := if '\'' ∈ s ∧ '"' ∉ s then '"' else '\''
  let hex (n : Nat) := (Nat.toDigits 16 (n / 16)) ++ (Nat.toDigits 16 (n % 16))
  quote :: s.flatMap (fun c =>
    if c = quote ∨ c = '\\' then ['\\', c]
    else if c = '\t' then ['\\', 't']
    else if c = '\n' then ['\\', 'n']
    else if c = '\r' then ['\\', 'r']
    else if c.toNat < 32 ∨ 127 ≤ c.toNat then '\\' :: 'x' :: hex c.toNat
    else [c]) ++ [quote]

-- What is passed as a pattern: a string, or the tuple of all groups of a match.
inductive Pattern
  | str   (s : Str)
  | tuple (items : List Str)
  deriving DecidableEq, Repr

namespace Pattern

def length : Pattern → Nat
  | str s       => s.length
  | tuple items => items.length

def take (n : Nat) : Pattern → Pattern
  | str s       => str (s.take n)
  | tuple items => tuple (items.take n)

def toStr : Pattern → Str
  | str s       => s
  | tuple [s]   => '(' :: repr s ++ [',', ')']
  | tuple items => '(' :: [',', ' '].intercalate (items.map repr) ++ [')']

end Pattern

structure Attributes where
  fg : Option Nat := none
  bg : Option Nat := none
  br : Bool := false
  bo : Bool := false
  un : Bool := false
  re : Bool := false
  deriving DecidableEq, Repr

-- The arguments of a call which inserts a pattern into the table.
structure Call extends Attributes where
  pattern : Pattern
  deriving DecidableEq, Repr

structure Entry extends Call where
  text : Str
  deriving DecidableEq, Repr

def Call.entry (c : Call) : Entry where
  toCall := c
  text   := format c.fg c.bg c.br c.bo c.un c.re false ++ c.pattern.toStr ++
    format none none false false false false true

-- Two patterns compete if one of them is a prefix of the other.
def compete (old new : Pattern) : Bool :=
  let minLen := min old.length new.length
  old.take minLen = new.take minLen

def insertPatternIntoTable (c : Call) : List Entry → List Entry
  | []      => [c.entry]
  | e :: es =>
    if compete e.pattern c.pattern then c.entry :: es else e :: insertPatternIntoTable c es

def patternTable (calls : List Call) : List Entry :=
  calls.foldl (fun table c => insertPatternIntoTable c table) []

-- The body of the colouring loop. The exception that a tuple causes is ignored.
def recolor (line : Str) (e : Entry) : Str :=
  match e.pattern with
  | .str p   => replace p e.text line
  | .tuple _ => line

def colored (table : List Entry) (line : Str) : Str :=
  table.foldl recolor line

def isCode (c : Char) : Bool :=
  c.isDigit || c = ';'

-- The part of an escape sequence that follows the escape character.
def codeBody : Regex Char :=
  .seq (.cls (· = '[')) (.seq (.star isCode) (.cls Char.isAlpha))

def nocosmetic (s : Str) : Str :=
  Regex.sub (.seq (.cls (· = ESC)) codeBody) [] s

end Logviewer
