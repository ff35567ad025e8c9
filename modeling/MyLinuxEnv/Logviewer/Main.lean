import MyLinuxEnv.Logviewer.Parse

open Text

namespace Logviewer

-- A lookup of a color outside of the table raises an exception.
def colorName (n : Nat) : Except Exn Str :=
  colorString[n]?.elim (.error .indexError) .ok

section ColorTest

def isSpace (c : Char) : Bool :=
  c = ' ' || (9 ≤ c.toNat && c.toNat ≤ 13)

-- The value of a decimal without a sign. The blanks around it are ignored.
def decimal (s : Str) : Except Exn Nat :=
  int <| (s.dropWhile isSpace).rdropWhile isSpace

-- What is typed at a prompt: a line, or the key that interrupts the program.
inductive Answer
  | line (s : Str)
  | interrupt
  deriving DecidableEq, Repr

-- Strings are compared in the order of the dictionary.
def le : Str → Str → Bool
  | [], _          => true
  | _ :: _, []     => false
  | a :: s, b :: t => a.toNat < b.toNat || (a = b && le s t)

def changeColor (color : Nat) : Answer → Except Exn Nat
  | .interrupt => .ok color
  | .line c    => if le ['0'] c ∧ le c ['9'] then decimal c else .ok color

def changeValue (value : Bool) : Answer → Except Exn Bool
  | .interrupt => .ok value
  | .line v    => if le ['0'] v ∧ le v ['1'] then (· ≠ 0) <$> decimal v else .ok value

inductive Prompt
  | item | fg | bg | br | bo | un | re
  deriving DecidableEq, Repr

-- The variables of the color test, and what it is asking for.
structure ColorTest where
  fg : Nat := 7
  bg : Nat := 0
  br : Bool := false
  bo : Bool := false
  un : Bool := false
  re : Bool := false
  prompt : Prompt := .item
  deriving DecidableEq, Repr

namespace ColorTest

-- The beginning of an iteration, which displays the names of the colors.
def display (t : ColorTest) : Except Exn ColorTest := do
  let _ ← colorName t.fg
  let _ ← colorName t.bg
  return { t with prompt := .item }

-- The selected item. The prompts for colors contain the name of the current one.
def select (t : ColorTest) (item : Str) : Except Exn ColorTest :=
  if item = ['0'] then display {}
  else if item = ['1'] then (fun _ => { t with prompt := .fg }) <$> colorName t.fg
  else if item = ['2'] then (fun _ => { t with prompt := .bg }) <$> colorName t.bg
  else if item = ['3'] then return { t with prompt := .br }
  else if item = ['4'] then return { t with prompt := .bo }
  else if item = ['5'] then return { t with prompt := .un }
  else if item = ['6'] then return { t with prompt := .re }
  else t.display

-- The reaction to an answer, up to the next prompt. An interrupt ends the loop over the items.
def answer (t : ColorTest) (a : Answer) : Except Exn (Option ColorTest) := do
  match t.prompt with
  | .item =>
    match a with
    | .interrupt => return none
    | .line item => return (← t.select item)
  | .fg => return (← display { t with fg := ← changeColor t.fg a })
  | .bg => return (← display { t with bg := ← changeColor t.bg a })
  | .br => return (← display { t with br := ← changeValue t.br a })
  | .bo => return (← display { t with bo := ← changeValue t.bo a })
  | .un => return (← display { t with un := ← changeValue t.un a })
  | .re => return (← display { t with re := ← changeValue t.re a })

-- The reactions to the answers so far.
def answers (t : ColorTest) : List Answer → Except Exn (Option ColorTest)
  | []      => return t
  | a :: as => do
    match ← t.answer a with
    | none   => return none
    | some t => t.answers as

end ColorTest

def doColorTest (as : List Answer) : Except Exn (Option ColorTest) := do
  (← ColorTest.display {}).answers as

end ColorTest

section CommandLine

inductive CmdType
  | file | shell | dmesg | catKmsg | logcat | devId | descFile | test | help
  deriving DecidableEq, Repr

def mapCmdType : Char → Option CmdType
  | 'f' => some .file
  | 'c' => some .shell
  | 'd' => some .dmesg
  | 'k' => some .catKmsg
  | 'l' => some .logcat
  | 's' => some .devId
  | 'p' => some .descFile
  | 't' => some .test
  | 'h' => some .help
  | _   => none

structure Options where
  command : Option CmdType := none
  cmdArg : Option Str := none
  devId : Option Str := none
  descFile : Option Str := none
  patterns : List Str := []
  deriving DecidableEq, Repr

-- What the loop over the arguments ends with.
inductive CommandLine
  | exits
  | raises (e : Exn)
  | test
  | options (o : Options)
  deriving DecidableEq, Repr

def CmdType.takesArg : CmdType → Bool
  | file | shell | devId | descFile          => true
  | dmesg | catKmsg | logcat | test | help => false

def Options.setArg (o : Options) (arg : Str) : CmdType → Options
  | .file     => { o with command := some .file, cmdArg := some arg }
  | .shell    => { o with command := some .shell, cmdArg := some arg }
  | .devId    => { o with devId := some arg }
  | .descFile => { o with descFile := some arg }
  | _         => o

-- The arguments that are left, the first of which may belong to an option. An empty argument has no
-- first character.
def parseArgs (o : Options) (pending : Option CmdType) : List Str → CommandLine
  | []                => if pending.isSome then .exits else .options o
  | [] :: _           => .raises .indexError
  | (c :: cs) :: args =>
    match pending with
    | some cmdType =>
      if c = '-' then .exits else parseArgs (o.setArg (c :: cs) cmdType) none args
    | none         =>
      if c ≠ '-' then parseArgs { o with patterns := o.patterns ++ [c :: cs] } none args else
        match cs.head?.bind (mapCmdType ·.toLower) with
        | none         => .exits
        | some .test   => .test
        | some .help   => .exits
        | some cmdType =>
          if cmdType.takesArg
          then parseArgs o (some cmdType) args
          else parseArgs { o with command := some cmdType } none args

end CommandLine

section Main

-- What the program comes to: it exits, it raises an exception which has nothing to do with colors,
-- it tests the colors, or it prints the summary of the patterns.
inductive Outcome
  | exits
  | raises (e : Exn)
  | test (r : Except Exn (Option ColorTest))
  | summary (r : Except Exn (List (Str × Str)))

def defaultPattern : Str :=
  "error::1:3:1:1:0:0".toList

-- The calls which insert patterns: those of the description file or the default one, and those of
-- the arguments. Without an exception, the program exits as the file cannot be opened.
def calls (files : Str → Option Str) (o : Options) : Except (Option Exn) (List Call) := do
  let first ←
    match o.descFile with
    | none          => (parsePatternArguement (some defaultPattern)).mapError some |>.map (·.toList)
    | some descFile =>
      match files descFile with
      | none      => .error none
      | some file =>
        match parsePatternDescFile file with
        | (calls, none) => .ok calls
        | (_, some e)   => .error (some e)
  let rest ← o.patterns.mapM (parsePatternArguement <| some ·) |>.mapError some
  return first ++ rest.reduceOption

-- The names of the foreground and the background, where there may be none.
def summaryLine (e : Entry) : Except Exn (Str × Str) := do
  let name (color : Option Nat) := color.elim (.ok "None".toList) colorName
  return (← name e.fg, ← name e.bg)

def summary (table : List Entry) : Except Exn (List (Str × Str)) :=
  table.mapM summaryLine

def main (files : Str → Option Str) (answers : List Answer) (argv : List Str) : Outcome :=
  if argv = [] then .exits else
    match parseArgs {} none argv with
    | .exits     => .exits
    | .raises e  => .raises e
    | .test      => .test (doColorTest answers)
    | .options o =>
      match calls files o with
      | .error none     => .exits
      | .error (some e) => .raises e
      | .ok calls       => .summary <| summary <| patternTable calls

end Main

end Logviewer
