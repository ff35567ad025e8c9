import MyLinuxEnv.Text.Regex
import MyLinuxEnv.Paths.Basic

open Text Posix

namespace Logtrans

def delimiter : Regex Char :=
  (.alt (.cls (· = '|')) <| .alt (.cls (· = '[')) <| .alt (.cls (· = ']')) <|
    .alt (.cls (· = '<')) (.cls (· = '>')))

def postfixToKernel : Str :=
  "kernel/samsung/shannon222ap-tn".toList

def outfmtDelimiter : Regex Char :=
  (.alt (.word 'T' ['T']) <| .alt (.word 'L' ['L']) <| .alt (.word 'M' ['M']) <|
    .alt (.word 'F' ['F']) (.word 'N' ['N']))

def notFound : Str :=
  "<not found>".toList

structure LogMessage where
  timestamp : Str
  level     : Str
  message   : Str
  filename  : Str
  linenum   : Str
  deriving DecidableEq, Repr

namespace LogMessage

def unstructured (msg : Str) : LogMessage where
  timestamp := notFound
  level     := notFound
  message   := msg
  filename  := notFound
  linenum   := notFound

def parse (h : Host) (msg : Str) : Except Exn LogMessage :=
  match msg.head? with
  | none   => .error .indexError
  | some c =>
    if c ≠ '[' ∧ c ≠ '<' then .ok <| unstructured msg else
      let msg := if c ≠ '[' ∧ c = '<' then msg.drop 3 else msg
      match delimiter.split msg with
      | _ :: timestamp :: filename :: linenum :: _ :: level :: _ =>
        let filename := replace [' '] [] filename
        .ok {
          timestamp := replace [' '] [] timestamp
          level     := level
          message   := msg.drop ((find? ['>'] msg).elim 0 (· + 1))
          filename  := if h.islink filename then h.realpath filename else filename
          linenum   := linenum
        }
      | _ => .ok <| unstructured msg

-- The text that takes the place of a formatter. A field that has not been found is left out.
def addtoken (self : LogMessage) (formatter : Str) : Str :=
  if formatter = "FF".toList ∧ self.filename ≠ notFound then self.filename
  else if formatter = "NN".toList ∧ self.linenum ≠ notFound then self.linenum
  else if formatter = "MM".toList ∧ self.message ≠ notFound then self.message
  else if formatter = "LL".toList ∧ self.level ≠ notFound then self.level
  else if formatter = "TT".toList ∧ self.timestamp ≠ notFound then self.timestamp
  else []

-- The loop over the formatters in the part of the template that has not been scanned yet. Every
-- round consumes a formatter, so the length of the template bounds the number of rounds.
def formatLoop (self : LogMessage) : Nat → Str → Str → Str
  | 0, ret, _            => ret
  | fuel + 1, ret, fmt   =>
    match outfmtDelimiter.search fmt with
    | none        => ret ++ fmt
    | some (a, m) => formatLoop self fuel (ret ++ a ++ self.addtoken m.text) m.rest

def format (self : LogMessage) (fmt : Str) : Str :=
  self.formatLoop (fmt.length + 1) [] fmt

end LogMessage

-- What the body of the main loop prints for one line.
def record (h : Host) (rootPath outputFormat line : Str) : Except Exn Str := do
  let curline ← LogMessage.parse h line
  let last ← rootPath.getLast?.elim (.error .indexError) .ok
  let pathToKernel :=
    if last = '/' then rootPath ++ postfixToKernel else rootPath ++ ['/'] ++ postfixToKernel
  let filename := refinePath h curline.filename pathToKernel rootPath
  return { curline with filename }.format outputFormat

-- What has been printed when the main loop ends, which lines it has not read by then, and the
-- exception which ended it, if any.
structure Run where
  printed : List Str
  unread  : List Str
  raised  : Option Exn
  deriving DecidableEq, Repr

def eol : Str :=
  "\r\n".toList

def mainLoop (h : Host) (rootPath outputFormat : Str) : List Str → Run
  | []         => ⟨[], [], none⟩
  | line :: f  =>
    let line := rstrip eol line
    if line = [] then ⟨[], f, none⟩ else
      match record h rootPath outputFormat line with
      | .error e => ⟨[], f, some e⟩
      | .ok r    =>
        let run := mainLoop h rootPath outputFormat f
        { run with printed := r :: run.printed }

end Logtrans
