import MyLinuxEnv.Text.Distinct
import MyLinuxEnv.Text.Regex
import MyLinuxEnv.Paths.Basic

open Text Posix

namespace Reo

-- The two escaped characters in the middle form a single alternative.
def delimiter : Regex Char :=
  .alt (.cls (· = ' ')) <| .alt (.word '|' ['(']) <| .alt (.cls (· = ')')) (.cls (· = '\n'))

-- The extensions stand within a character class.
def extention : Regex Char :=
  .seq (.cls (· = '.')) <| .seq (.cls (· ∈ "c|cpp|h|hpp|S".toList)) (.eol (· = '\n'))

-- The loop over the pieces of a line, whose variable is reset at every miss.
def extractLoop (found : Str) : List Str → Str
  | []             => found
  | tmpPath :: tmp => if extention.search tmpPath = none then extractLoop [] tmp else tmpPath

def extractPath (h : Host) (line tpath rpath : Str) : Str :=
  let found := extractLoop [] (delimiter.split line)
  if found ≠ [] then refinePath h found tpath rpath else []

-- What the innermost loops do with a line, which is the same in both of them.
def collect (h : Host) (tpath rpath : Str) (paths : List Str) (line : Str) : List Str :=
  let tmp := extractPath h line tpath rpath
  if tmp = [] then paths
  else if paths.count tmp = 0 then paths ++ [tmp]
  else paths

-- The paths which are not listed yet, each of them where it appears for the first time.
def newPaths (h : Host) (tpath rpath : Str) (paths ls : List Str) : List Str :=
  ((ls.map (extractPath h · tpath rpath)).filter fun p => p ≠ [] ∧ paths.count p = 0).eraseDups

theorem collect_eq (h : Host) (tpath rpath : Str) (paths : List Str) (line : Str) :
    collect h tpath rpath paths line =
      if extractPath h line tpath rpath = [] then paths
      else addNew paths (extractPath h line tpath rpath) := by
  simp only [collect, addNew, List.count_eq_zero, ite_not]

-- What a run of lines adds to the list.
theorem foldl_collect (h : Host) (tpath rpath : Str) (ls paths : List Str) :
    ls.foldl (collect h tpath rpath) paths = paths ++ newPaths h tpath rpath paths ls := by
  have hf : ls.foldl (collect h tpath rpath) paths =
      ((ls.map (extractPath h · tpath rpath)).filter (· ≠ [])).foldl addNew paths := by
    rw [List.foldl_filter, List.foldl_map]
    refine List.foldl_ext _ _ _ fun ps line _ => ?_
    simp [collect_eq]
  rw [hf, foldl_addNew, List.filter_filter, newPaths]
  congr 3
  funext p
  simp [Bool.and_comm, List.count_eq_zero]

section Headers

variable (h : Host) (tpath rpath : Str)

def reference : Str :=
  "$(deps_".toList

def definition : Str :=
  "deps_".toList

mutual

-- The outer loop of `extractHeaders` on the lines which have not been read yet.
def headersLoop (headers : List Str) : List Str → List Str
  | []              => headers
  | line :: cmdfile =>
    if (find? reference line).isSome then headers
    else if (find? definition line).isSome then inHeaders headers cmdfile
    else headersLoop headers cmdfile

-- The inner loop, which hands what it has not read back to the outer one.
def inHeaders (headers : List Str) : List Str → List Str
  | []              => headers
  | line :: cmdfile =>
    if (find? reference line).isSome then headersLoop headers cmdfile
    else inHeaders (collect h tpath rpath headers line) cmdfile

end

-- The headers after a file has been read, and how many of them have been added.
def extractHeaders (headers : List Str) (cmdfile : Str) : List Str × Nat :=
  let headers' := headersLoop h tpath rpath headers (lines cmdfile)
  (headers', headers'.length - headers.length)

-- The headers after a series of files, and the numbers which have been returned.
def extractAllHeaders (headers : List Str) : List Str → List Str × List Nat
  | []            => (headers, [])
  | file :: cmds  =>
    let (headers, added) := extractHeaders h tpath rpath headers file
    let (headers, counts) := extractAllHeaders headers cmds
    (headers, added :: counts)

end Headers

section Sources

variable (h : Host) (tpath rpath : Str)

def rule : Str :=
  ".o:".toList

-- The outer loop of `extractSourcesFromPfile`. The line that ends it has been read by then, and
-- the inner loop reads the rest of the file.
def sourcesLoop (sources : List Str) : List Str → List Str
  | []            => sources
  | line :: pfile =>
    if (find? rule line).isSome then sourcesLoop sources pfile
    else pfile.foldl (collect h tpath rpath) sources

def extractSourcesFromPfile (sources : List Str) (pfile : Str) : List Str × Nat :=
  let sources' := sourcesLoop h tpath rpath sources (lines pfile)
  (sources', sources'.length - sources.length)

end Sources

end Reo
