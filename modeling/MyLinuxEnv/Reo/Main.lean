import Mathlib.Data.Char
import Mathlib.Data.List.Lex
import MyLinuxEnv.Posix.Disk
import MyLinuxEnv.Reo.Basic

open Text Posix

namespace Reo

-- The ways in which the program ends early. An exception stems from `getsize`, when there is no
-- file.
inductive Failure
  | usage | invalidTarget | invalidRoot | unreadable (file : Str) | raised (file : Str)
  deriving DecidableEq, Repr

section Files

variable (d : Disk) (l : Listing d.fs)

def findfiles (root ext : Str) : List Str :=
  (d.osWalk l root).flatMap fun (path, files) =>
    (files.filter (extension · = ext)).map fun filename =>
      if path.getLast? = some '/' then path ++ filename else path ++ ['/'] ++ filename

variable (tpath rpath : Str)

-- The source of an object file, unless it is empty or can't be found.
def sourceOf (filename : Str) : Except Failure (Option Str) :=
  let tmp := refinePath d.toHost (filename.dropLast ++ ['c']) tpath rpath
  if tmp = [] then .ok none else
    match d.getsize tmp with
    | none      => .error (.raised tmp)
    | some size => .ok <| if 0 < size then some tmp else none

-- The text of a file, unless it is empty or to be left out.
def readFile (file : Str) : Except Failure (Option Str) :=
  if basename file = "auto.conf.cmd".toList then .ok none else
    match d.getsize file with
    | none          => .error (.raised file)
    | some 0        => .ok none
    | some (_ + 1)  =>
      match (d.resolve file).bind d.content with
      | none      => .error (.unreadable file)
      | some text => .ok (some text)

-- The sources after a series of files.
def extractAllSources (sources : List Str) (texts : List Str) : List Str :=
  texts.foldl (fun sources text => (extractSourcesFromPfile d.toHost tpath rpath sources text).1)
    sources

-- What is found below the target path.
def collectFiles : Except Failure (List Str) := do
  let srcs ← (findfiles d l tpath ".o".toList).mapM (sourceOf d tpath rpath)
  let cmds ← (findfiles d l tpath ".cmd".toList).mapM (readFile d)
  let deps ← (findfiles d l tpath ".P".toList).mapM (readFile d)
  let headers := (extractAllHeaders d.toHost tpath rpath [] cmds.reduceOption).1
  let sourcesFromP := extractAllSources d tpath rpath [] deps.reduceOption
  return (srcs.reduceOption ++ headers ++ sourcesFromP).mergeSort

end Files

-- The target path and the root path.
def paths : List Str → Except Failure (Str × Str)
  | []                     => .ok (curdir, curdir)
  | [targetPath]           => .ok (targetPath, curdir)
  | [targetPath, rootPath] => .ok (targetPath, rootPath)
  | _                      => .error .usage

-- The lines that are printed.
def main (d : Disk) (l : Listing d.fs) (origArgs : List Str) : Except Failure (List Str) := do
  let (targetPath, rootPath) ← paths origArgs
  if !Paths.isValidPath d.toHost targetPath then .error .invalidTarget else
    if !Paths.isValidPath d.toHost rootPath then .error .invalidRoot else
      collectFiles d l targetPath rootPath

end Reo
