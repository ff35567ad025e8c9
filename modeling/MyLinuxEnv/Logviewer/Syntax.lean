import MyLinuxEnv.Logviewer.Parse

open Text

namespace Logviewer

-- How a color is written in a description file.
inductive ColorText
  | digit (n : Fin 8)
  | name  (n : Fin 8) (s : Str) (h : upper s = colorString[n])

namespace ColorText

def text : ColorText → Str
  | digit n    => [Nat.digitChar n]
  | name _ s _ => s

def value : ColorText → Nat
  | digit n    => n
  | name n _ _ => n

def isName : ColorText → Bool
  | digit _    => false
  | name _ _ _ => true

end ColorText

-- How a flag is written in a description file.
inductive FlagText
  | digit (b : Bool)
  | word  (b : Bool) (s : Str) (h : upper s = if b then "TRUE".toList else "FALSE".toList)

namespace FlagText

def text : FlagText → Str
  | digit b    => [if b then '1' else '0']
  | word _ s _ => s

def value : FlagText → Bool
  | digit b    => b
  | word b _ _ => b

def isTrueWord : FlagText → Bool
  | digit _    => false
  | word b _ _ => b

end FlagText

inductive ColorKey
  | fg | bg
  deriving DecidableEq

def ColorKey.text : ColorKey → Str
  | fg => ['f', 'g']
  | bg => ['b', 'g']

inductive FlagKey
  | br | bo | un | re
  deriving DecidableEq

def FlagKey.text : FlagKey → Str
  | br => ['b', 'r']
  | bo => ['b', 'o']
  | un => ['u', 'n']
  | re => ['r', 'e']

inductive Attr
  | color (key : ColorKey) (value : ColorText)
  | flag  (key : FlagKey)  (value : FlagText)

namespace Attr

def key : Attr → ColorKey ⊕ FlagKey
  | color k _ => .inl k
  | flag k _  => .inr k

def keyText : Attr → Str
  | color k _ => k.text
  | flag k _  => k.text

def valueText : Attr → Str
  | color _ v => v.text
  | flag _ v  => v.text

def text (a : Attr) : Str :=
  a.keyText ++ '=' :: a.valueText

def color? (k : ColorKey) : Attr → Option Nat
  | color k' v => if k' = k then some v.value else none
  | flag _ _   => none

def flag? (k : FlagKey) : Attr → Option Bool
  | color _ _ => none
  | flag k' v => if k' = k then some v.value else none

end Attr

-- The attributes which are written on a line.
def written (attrs : List Attr) : Attributes where
  fg := attrs.findSome? (·.color? .fg)
  bg := attrs.findSome? (·.color? .bg)
  br := attrs.findSome? (·.flag? .br) |>.getD false
  bo := attrs.findSome? (·.flag? .bo) |>.getD false
  un := attrs.findSome? (·.flag? .un) |>.getD false
  re := attrs.findSome? (·.flag? .re) |>.getD false

def blanks (n : Nat) : Str :=
  List.replicate n ' '

-- An attribute with the number of blanks in front of each of its parts and behind it.
structure Item where
  attr : Attr
  pre : Nat
  mid : Nat
  post : Nat
  last : Nat

def Item.text (i : Item) : Str :=
  blanks i.pre ++ i.attr.keyText ++ blanks i.mid ++ '=' ::
    blanks i.post ++ i.attr.valueText ++ blanks i.last

def keyword : Str :=
  ['p', 'a', 't', 't', 'e', 'r', 'n']

-- A line of a description file, as the syntax describes it.
structure DescLine where
  pattern : Str
  items : List Item
  pre : Nat
  mid : Nat
  post : Nat
  newline_not_mem : '\n' ∉ pattern
  nodup : (items.map (·.attr.key)).Nodup

namespace DescLine

def attrs (l : DescLine) : List Attr :=
  l.items.map (·.attr)

-- What follows the pattern's closing quote.
def tail (l : DescLine) : Str :=
  blanks l.post ++ l.items.flatMap (',' :: ·.text) ++ ['\n']

def text (l : DescLine) : Str :=
  keyword ++ blanks l.pre ++ '=' :: blanks l.mid ++ '"' :: l.pattern ++ '"' :: l.tail

def call (l : DescLine) : Call :=
  { written l.attrs with pattern := .str l.pattern }

end DescLine

end Logviewer
