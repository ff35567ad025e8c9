import MyLinuxEnv.Posix.FileSystem

open Text Posix

namespace Paths

def isValidPath (h : Host) (path : Str) : Bool :=
  h.isdir path && h.lexists path

def transPath (h : Host) (path rpath : Str) : Str :=
  if h.islink path
  then h.relpath (h.realpath path) rpath
  else h.relpath path curdir

def joinTarget (path tpath : Str) : Str :=
  if tpath.getLast? = some '/' then tpath ++ path else tpath ++ ['/'] ++ path

-- The path that is tried when `path` itself does not exist.
def retarget (path tpath : Str) : Str :=
  if find? tpath path = none then joinTarget path tpath else path

-- The two copies of this function differ in what they demand of the second path.
def refinePath (usable : Host → Str → Bool) (h : Host) (path tpath rpath : Str) : Str :=
  if path.take 4 = "/usr".toList then path
  else if h.exists? path then transPath h path rpath
  else if usable h (retarget path tpath) then transPath h (retarget path tpath) rpath
  else []

-- A directory `/work` with the file `src/real.c` and a link `link.c` to it.
def exampleEntries : List (Location × Node) := [
  ([], .dir 1),
  (["work".toList], .dir 1),
  (["work".toList, "src".toList], .dir 1),
  (["work".toList, "src".toList, "real.c".toList], .file 1),
  (["work".toList, "link.c".toList], .link "src/real.c".toList)
]

def exampleHost : Host where
  fs      := .ofEntries exampleEntries ⟨by decide, by decide, by decide⟩
  cwd     := ["work".toList]
  cwd_dir := by decide

end Paths

namespace Logtrans

def refinePath : Host → Str → Str → Str → Str :=
  Paths.refinePath Host.exists?

end Logtrans

namespace Reo

def usable (h : Host) (tmp : Str) : Bool :=
  h.exists? tmp && (h.getsize tmp).any (0 < ·)

def refinePath : Host → Str → Str → Str → Str :=
  Paths.refinePath usable

end Reo
