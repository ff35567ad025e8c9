import MyLinuxEnv.Text.Basic

open Text

namespace Vim

-- The state of the loop over the characters of the current line.
structure Aligner where
  alignedLine : Str  := []
  tabDepth    : Int  := 0
  wasEqual    : Bool := false
  deriving DecidableEq, Repr

-- A negative number of tabs is as good as none.
def tabs (tabDepth : Int) : Str :=
  List.replicate tabDepth.toNat '\t'

-- The body of the loop. Nothing ever sets `wasEqual`.
def alignChar (self : Aligner) (ch : Char) : Aligner :=
  if ch = '{' then
    let tabDepth := if self.wasEqual then self.tabDepth + 1 else self.tabDepth
    let newChar := '\n' :: tabs tabDepth ++ ['{', '\n'] ++ tabs (tabDepth + 1)
    { self with alignedLine := self.alignedLine ++ newChar, tabDepth := tabDepth + 1 }
  else if ch = '}' then
    let tabDepth := self.tabDepth - 1
    let newChar := '\n' :: tabs tabDepth ++ ['}', '\n']
    let tabDepth := if self.wasEqual then tabDepth - 1 else tabDepth
    { alignedLine := self.alignedLine ++ newChar ++ tabs tabDepth, tabDepth, wasEqual := false }
  else if ch = ',' then
    { self with alignedLine := self.alignedLine ++ [',', '\n'] ++ tabs self.tabDepth }
  else
    { self with alignedLine := self.alignedLine ++ [ch] }

def alignVar (currentLine : Str) : Aligner :=
  currentLine.foldl alignChar {}

section Values

-- The text of a name or of a value without parts.
structure Atom where
  text     : Str
  nonempty : text ≠ []
  plain    : ∀ c ∈ text, c ∉ ['{', '}', ',', '"', '\t', '\n']

-- What stands between two quotes.
structure Quoted where
  text  : Str
  plain : ∀ c ∈ text, c ∉ ['"', '\t', '\n']

def blanks (n : Nat) : Str :=
  List.replicate n ' '

mutual

-- A value as the debugger prints it.
inductive Value
  | atom (a : Atom)
  | quoted (q : Quoted)
  | aggregate (fs : Fields)

-- One or more fields, with the numbers of blanks in front of each of them and behind it.
inductive Fields
  | last (pre : Nat) (f : Field) (post : Nat)
  | cons (pre : Nat) (f : Field) (post : Nat) (fs : Fields)

inductive Field
  | named (name : Atom) (pre post : Nat) (v : Value)
  | bare (v : Value)

end

def Quoted.quote (q : Quoted) : Str :=
  '"' :: q.text ++ ['"']

mutual

def Value.text : Value → Str
  | .atom a       => a.text
  | .quoted q     => q.quote
  | .aggregate fs => '{' :: fs.text ++ ['}']

def Fields.text : Fields → Str
  | .last pre f post    => blanks pre ++ f.text ++ blanks post
  | .cons pre f post fs => blanks pre ++ f.text ++ blanks post ++ ',' :: fs.text

def Field.text : Field → Str
  | .named name pre post v => name.text ++ blanks pre ++ '=' :: blanks post ++ v.text
  | .bare v                => v.text

end

-- What is to be found in a value: fields, with the number of braces that enclose them, and strings.
inductive Part
  | field (f : Field) (depth : Nat)
  | string (q : Quoted)

mutual

-- The parts of a value which begins at the given depth behind the text `s`, and for each of them
-- the text in front of it.
def Value.parts (s : Str) (depth : Nat) : Value → List (Str × Part)
  | .atom _       => []
  | .quoted q     => [(s, .string q)]
  | .aggregate fs => fs.parts (s ++ ['{']) (depth + 1)

def Fields.parts (s : Str) (depth : Nat) : Fields → List (Str × Part)
  | .last pre f _       => f.parts (s ++ blanks pre) depth
  | .cons pre f post fs =>
    f.parts (s ++ blanks pre) depth ++
      fs.parts (s ++ blanks pre ++ f.text ++ blanks post ++ [',']) depth

def Field.parts (s : Str) (depth : Nat) : Field → List (Str × Part)
  | .named name pre post v =>
    (s, .field (.named name pre post v) depth) ::
      v.parts (s ++ name.text ++ blanks pre ++ '=' :: blanks post) depth
  | .bare v                => (s, .field (.bare v) depth) :: v.parts s depth

end

end Values

end Vim
