import MyLinuxEnv.Logviewer.Table

open Text

namespace Logviewer

def colorString : List Str :=
  ["BLACK".toList, "RED".toList, "GREEN".toList, "YELLOW".toList, "BLUE".toList, "MAGENTA".toList,
    "CYAN".toList, "WHITE".toList]

def colorValue : List Str :=
  [['0'], ['1'], ['2'], ['3'], ['4'], ['5'], ['6'], ['7']]

def mapColorFromString : List (Str × Str) :=
  colorString.zip colorValue

def mapColorFromValue : List (Str × Str) :=
  colorValue.zip colorString

section Argument

-- A greedy group, followed by one group for each of the fields.
def exp (fields : List (Char → Bool)) : Regex Char :=
  .seq (.group <| .star (· ≠ '\n')) <|
    fields.foldr (fun p r => .seq (.cls (· = ':')) <| .seq (.group <| .cls p) r) <|
      .eol (· = '\n')

def isBit (c : Char) : Bool :=
  c = '0' || c = '1'

def exps : List (Regex Char) := [
  exp [Char.isDigit, Char.isDigit, isBit, isBit, isBit, isBit],
  exp [Char.isDigit, Char.isDigit, isBit, isBit, isBit],
  exp [Char.isDigit, Char.isDigit, isBit, isBit],
  exp [Char.isDigit, Char.isDigit, isBit],
  exp [Char.isDigit, Char.isDigit],
  exp [Char.isDigit],
  exp []
]

-- Only the last expression has a single group. There the tuple of all groups becomes the pattern.
def groupsPattern : List Str → Option Pattern
  | []     => none
  | [p]    => some (.tuple [p])
  | p :: _ => some (.str p)

def parsePatternArguement (buffer : Option Str) : Except Exn (Option Call) := do
  let groups := buffer.bind fun buffer =>
    exps.findSome? fun exp => (exp.match? buffer).map (·.groups)
  let groups := groups.getD []
  let fg ← groups[1]?.mapM int
  let bg ← groups[2]?.mapM int
  let br ← int <| groups.getD 3 ['0']
  let bo ← int <| groups.getD 4 ['0']
  let un ← int <| groups.getD 5 ['0']
  let re ← int <| groups.getD 6 ['0']
  return (groupsPattern groups).map fun pattern =>
    { fg, bg, br := br ≠ 0, bo := bo ≠ 0, un := un ≠ 0, re := re ≠ 0, pattern }

end Argument

section DescFile

def color (old : Option Nat) (rvalue : Str) : Except Exn (Option Nat) := do
  let lookup (map : List (Str × Str)) : Except Exn (Option Nat) :=
    match map.lookup (upper rvalue) with
    | some value => some <$> int value
    | none       => .error .keyError
  let fst ← if upper rvalue ∈ colorString then lookup mapColorFromString else pure old
  if upper rvalue ∈ colorValue then lookup mapColorFromValue else pure fst

def flag (rvalue : Str) : Except Exn Bool :=
  if upper rvalue = "TRUE".toList ∨ upper rvalue = "FALSE".toList
  then pure <| upper rvalue = "TRUE".toList
  else
    match rvalue with
    | []     => .error .indexError
    | c :: _ => pure <| c = '1'

def parseAttribute (a : Attributes) (subline : Str) : Except Exn Attributes :=
  if subline = [] then pure a else
    match subline.splitOn '=' with
    | [lvalue, rvalue] => do
      let key := lower <| lvalue.take 2
      let fg ← if key = "fg".toList then color a.fg rvalue else pure a.fg
      if key = "bg".toList
      then
        let bg ← color a.bg rvalue
        pure { a with fg, bg }
      else
        let value ← flag rvalue
        pure <|
          if key = "br".toList then { a with fg, br := value }
          else if key = "bo".toList then { a with fg, bo := value }
          else if key = "un".toList then { a with fg, un := value }
          else if key = "re".toList then { a with fg, re := value }
          else { a with fg }
    | _ => .error .valueError

-- The body of the loop over the lines of a description file.
def parsePatternDescLine (line : Str) : Except Exn (Option Call) :=
  if line = ['\n'] ∨ line.head? = some '#' then pure none else
    match rfind? ['"'] line with
    | none     => pure none
    | some pos =>
      match (line.take pos).splitOn '=' with
      | [lvalue, rvalue] =>
        if lower (lvalue.take 7) ≠ "pattern".toList then pure none else do
          let rvalue := rvalue.drop <| (find? ['"'] rvalue).elim 0 (· + 1)
          let pattern := if rvalue = [] then none else some (.str rvalue)
          let line := replace [' '] [] <| line.drop (pos + 1)
          let a ← (line.splitOn ',').foldlM parseAttribute {}
          return pattern.map fun pattern => { a with pattern }
      | _ => .error .valueError

-- The calls which insert patterns, up to the line which ends the loop by an exception.
def parsePatternDescLines : List Str → List Call × Option Exn
  | []            => ([], none)
  | line :: lines =>
    match parsePatternDescLine line with
    | .error e => ([], some e)
    | .ok call => (call.toList ++ (parsePatternDescLines lines).1, (parsePatternDescLines lines).2)

def parsePatternDescFile (file : Str) : List Call × Option Exn :=
  parsePatternDescLines <| lines file

end DescFile

end Logviewer
