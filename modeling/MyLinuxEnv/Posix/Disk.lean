import Mathlib.Data.List.Dedup
import Mathlib.Data.List.DropRight
import MyLinuxEnv.Posix.FileSystem

namespace Posix

open Text

-- The order in which the entries of directories are listed.
structure Listing (fs : FileSystem) where
  names : Location → List Name
  nodup : ∀ loc, (names loc).Nodup
  mem   : ∀ loc n, n ∈ names loc ↔ (fs.node (loc ++ [n])).isSome

-- The entries of a directory in the order of the list that gives the file system.
def Listing.ofEntries (es : List (Location × Node)) (h : FileSystem.WellFormed es) :
    Listing (.ofEntries es h) where
  names loc := (es.filterMap fun e => if e.1.dropLast = loc then e.1.getLast? else none).dedup
  nodup _   := List.nodup_dedup _
  mem loc n := by
    rw [List.mem_dedup, List.mem_filterMap]
    constructor
    case mp =>
      intro ⟨e, he, hn⟩
      split at hn
      case isFalse => contradiction
      case isTrue hl =>
        have hc : e.1 = loc ++ [n] := hl ▸ (List.dropLast_append_getLast? n hn).symm
        refine Option.isSome_map.trans <| List.find?_isSome.mpr ⟨e, he, ?_⟩
        exact decide_eq_true hc
    case mpr =>
      intro hs
      have ⟨x, hx⟩ := Option.isSome_iff_exists.mp hs
      refine ⟨_, FileSystem.mem_of_entry_eq hx, ?_⟩
      simp

-- A process, together with the contents of the files that it may read. No path is longer than
-- `height`.
structure Disk extends Host where
  content   : Location → Option Str
  height    : Nat
  le_height : ∀ loc, (fs.node loc).isSome → loc.length ≤ height

def joinPath (top name : Str) : Str :=
  if top.getLast? = some '/' then top ++ name else top ++ ['/'] ++ name

-- The extension of a name begins at its last dot, unless there are only dots in front of it.
def extension (name : Name) : Str :=
  let ext := name.rtakeWhile (· ≠ '.')
  let stem := name.rdropWhile (· ≠ '.')
  if stem.all (· = '.') then [] else '.' :: ext

def basename (path : Str) : Name :=
  path.rtakeWhile (· ≠ '/')

namespace Disk

variable (d : Disk) (l : Listing d.fs)

-- An entry of a directory is one itself, or a link to one. It is only descended into in the former
-- case.
def isSubdir (loc : Location) (n : Name) : Bool :=
  d.fs.isDir (loc ++ [n])

def isFile (path : Str) (loc : Location) (n : Name) : Bool :=
  match d.fs.node (loc ++ [n]) with
  | some (.dir _)  => false
  | some (.link _) => !d.isdir (joinPath path n)
  | _              => true

-- The directories below a place, each with the names of its files. The number bounds how far they
-- are below it.
def walkFrom : Nat → Str → Location → List (Str × List Name)
  | 0, _, _ => []
  | k + 1, path, loc =>
    (path, (l.names loc).filter (d.isFile path loc)) ::
      ((l.names loc).filter (d.isSubdir loc)).flatMap fun n =>
        walkFrom k (joinPath path n) (loc ++ [n])

-- Nothing is found below a path which is not one of a directory.
def osWalk (top : Str) : List (Str × List Name) :=
  match d.resolve top with
  | none     => []
  | some loc => if d.fs.isDir loc then d.walkFrom l (d.height + 1) top loc else []

end Disk

end Posix
