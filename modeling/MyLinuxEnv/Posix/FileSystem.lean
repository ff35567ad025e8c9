import MyLinuxEnv.Posix.Path

namespace Posix

open Text

inductive Node
  | file (size : Nat)
  | dir  (size : Nat)
  | link (target : Str)
  deriving DecidableEq, Repr

def Node.isDir : Node → Bool
  | dir _ => true
  | _     => false

-- A tree of directories, regular files and symbolic links.
structure FileSystem where
  node   : Location → Option Node
  root   : (node []).any Node.isDir
  parent : ∀ {loc n}, (node (loc ++ [n])).isSome → (node loc).any Node.isDir ∧ Proper n
  target : ∀ {loc t}, node loc = some (.link t) → t ≠ []

namespace FileSystem

variable (fs : FileSystem)

def isDir (loc : Location) : Bool :=
  (fs.node loc).any Node.isDir

-- Walks along a list of components. Each of them has to be looked up in a directory. `expand`
-- continues the walk when a symbolic link has been replaced by its target. A link in the last
-- component is only replaced if `follow` is set.
def walkWith (follow : Bool) (expand : Location → List Name → Option Location) :
    Location → List Name → Option Location
  | cur, []        => some cur
  | cur, n :: rest =>
    if fs.isDir cur then
      match fs.node (enter cur n) with
      | none           => none
      | some (.link t) =>
        if rest = [] ∧ ¬follow then some (enter cur n) else expand (base cur t) (comps t ++ rest)
      | some _         => walkWith follow expand (enter cur n) rest
    else none

-- The first argument bounds the number of symbolic links that are replaced.
def walk (follow : Bool) : Nat → Location → List Name → Option Location
  | 0     => fs.walkWith follow fun _ _ => none
  | k + 1 => fs.walkWith follow (walk follow k)

def symloopMax : Nat := 40

-- The same walk, except that missing components are kept as they are written.
def canonWith (expand : Location → List Name → Location) : Location → List Name → Location
  | cur, []        => cur
  | cur, n :: rest =>
    match fs.node (enter cur n) with
    | some (.link t) => expand (base cur t) (comps t ++ rest)
    | _              => canonWith expand (enter cur n) rest

def canon : Nat → Location → List Name → Location
  | 0     => fs.canonWith fun cur => List.foldl enter cur
  | k + 1 => fs.canonWith (canon k)

end FileSystem

-- A file system given by the list of its entries.
namespace FileSystem

def entry (es : List (Location × Node)) (loc : Location) : Option Node :=
  (es.find? (·.1 = loc)).map (·.2)

structure WellFormed (es : List (Location × Node)) : Prop where
  root   : (entry es []).any Node.isDir
  parent : ∀ e ∈ es, e.1 = [] ∨ (entry es e.1.dropLast).any Node.isDir ∧ Proper (e.1.getLastD [])
  target : ∀ e ∈ es, e.2 ≠ .link []

theorem mem_of_entry_eq {es : List (Location × Node)} {loc : Location} {x : Node}
    (h : entry es loc = some x) : (loc, x) ∈ es := by
  have ⟨⟨l, y⟩, hf, hy⟩ := Option.map_eq_some_iff.mp h
  have hl := List.find?_some hf
  simp only [decide_eq_true_eq] at hl hy
  exact hl ▸ hy ▸ List.mem_of_find?_eq_some hf

def ofEntries (es : List (Location × Node)) (h : WellFormed es) : FileSystem where
  node   := entry es
  root   := h.root
  parent := by
    intro loc n hs
    have ⟨_, hx⟩ := Option.isSome_iff_exists.mp hs
    simpa using h.parent _ <| mem_of_entry_eq hx
  target := by
    intro loc t ht hn
    exact h.target _ (mem_of_entry_eq ht) (by rw [hn])

end FileSystem

-- A process in its working directory.
structure Host where
  fs      : FileSystem
  cwd     : Location
  cwd_dir : fs.isDir cwd

namespace Host

variable (h : Host)

def lookup (follow : Bool) (path : Str) : Option Location :=
  if path = [] then none
  else h.fs.walk follow FileSystem.symloopMax (base h.cwd path) (comps path)

-- The place in the tree which a path designates.
def resolve (path : Str) : Option Location :=
  h.lookup true path

def stat (path : Str) : Option Node :=
  (h.resolve path).bind h.fs.node

def lstat (path : Str) : Option Node :=
  (h.lookup false path).bind h.fs.node

def exists? (path : Str) : Bool :=
  (h.resolve path).isSome

def lexists (path : Str) : Bool :=
  (h.lookup false path).isSome

def isdir (path : Str) : Bool :=
  (h.stat path).any Node.isDir

def islink (path : Str) : Bool :=
  match h.lstat path with
  | some (.link _) => true
  | _              => false

def getsize (path : Str) : Option Nat :=
  (h.stat path).map fun
    | .file size | .dir size => size
    | .link t                => t.length

def realpath (path : Str) : Str :=
  '/' :: join (h.fs.canon FileSystem.symloopMax (base h.cwd path) (comps path))

def relpath (path : Str) (start : Str) : Str :=
  Posix.relpath h.cwd path start

end Host

namespace FileSystem

variable {fs : FileSystem} {cur loc : Location} {n : Name} {rest : List Name} {k : Nat}
  {follow : Bool}

theorem isDir_root : fs.isDir [] :=
  fs.root

theorem isDir_of_entry (h : (fs.node (loc ++ [n])).isSome) : fs.isDir loc :=
  fs.parent h |>.left

theorem proper_of_entry (h : (fs.node (loc ++ [n])).isSome) : Proper n :=
  fs.parent h |>.right

theorem isDir_iff : fs.isDir cur ↔ ∃ size, fs.node cur = some (.dir size) := by
  simp only [isDir]
  cases fs.node cur
  case none   => simp
  case some x => cases x <;> simp [Node.isDir]

theorem isSome_of_isDir (h : fs.isDir cur) : (fs.node cur).isSome := by
  have ⟨_, h⟩ := isDir_iff.mp h
  simp [h]

-- What is left when all links have been replaced.
def IsResolved (fs : FileSystem) (loc : Location) : Prop :=
  ∃ x, fs.node loc = some x ∧ ∀ t, x ≠ .link t

theorem isResolved_of_isDir (h : fs.isDir cur) : fs.IsResolved cur :=
  have ⟨_, h⟩ := isDir_iff.mp h
  ⟨_, h, by simp⟩

theorem isDir_dropLast (h : fs.isDir cur) : fs.isDir cur.dropLast := by
  induction cur using List.reverseRecOn
  case nil              => exact isDir_root
  case append_singleton => simpa using isDir_of_entry <| isSome_of_isDir h

theorem isDir_take (h : fs.isDir cur) (i : Nat) : fs.isDir (cur.take i) := by
  induction cur using List.reverseRecOn
  case nil => simpa using isDir_root
  case append_singleton cur n hi =>
    by_cases hl : i ≤ cur.length
    case pos => exact List.take_append_of_le_length hl ▸ hi (by simpa using isDir_dropLast h)
    case neg => rwa [List.take_of_length_le (by simp; omega)]

theorem forall_proper (h : (fs.node loc).isSome) : ∀ m ∈ loc, Proper m := by
  induction loc using List.reverseRecOn
  case nil => simp
  case append_singleton loc m hi =>
    intro m' hm'
    cases List.mem_append.mp hm'
    case inl hm' => exact hi (isSome_of_isDir <| isDir_of_entry h) m' hm'
    case inr hm' => exact List.mem_singleton.mp hm' ▸ proper_of_entry h

theorem walk_nil : fs.walk follow k cur [] = some cur := by
  cases k <;> rfl

theorem walk_cons_of_not_link (h : fs.isDir cur) {x : Node} (hx : fs.node (enter cur n) = some x)
    (hl : ∀ t, x ≠ .link t) :
    fs.walk follow k cur (n :: rest) = fs.walk follow k (enter cur n) rest := by
  cases k <;> cases x <;> simp_all [walk, walkWith]

theorem walk_pardir (h : fs.isDir cur) :
    fs.walk follow k cur (pardir :: rest) = fs.walk follow k cur.dropLast rest := by
  have ⟨_, hd⟩ := isDir_iff.mp <| isDir_dropLast h
  rw [walk_cons_of_not_link h (enter_pardir cur ▸ hd) (by simp), enter_pardir]

theorem walk_replicate_pardir (h : fs.isDir cur) (i : Nat) :
    fs.walk follow k cur (List.replicate i pardir ++ rest) =
      fs.walk follow k (cur.take (cur.length - i)) rest := by
  induction i generalizing cur
  case zero => simp
  case succ i hi =>
    rw [List.replicate_succ, List.cons_append, walk_pardir h, hi (isDir_dropLast h),
      List.dropLast_eq_take, List.take_take, List.length_take]
    congr 2
    omega

-- Descending from a place above an existing directory.
theorem walk_append_of_isDir (h : fs.isDir (cur ++ loc)) :
    fs.walk follow k cur (loc ++ rest) = fs.walk follow k (cur ++ loc) rest := by
  induction loc generalizing cur
  case nil => simp
  case cons n loc hi =>
    have hc : fs.isDir (cur ++ [n]) := by
      simpa [List.take_append, List.take_of_length_le] using isDir_take h (cur.length + 1)
    have hs := isSome_of_isDir hc
    have ⟨_, hd⟩ := isDir_iff.mp hc
    have he := enter_proper (proper_of_entry hs) cur
    rw [List.cons_append, walk_cons_of_not_link (isDir_of_entry hs) (he ▸ hd) (by simp), he]
    simpa using @hi (cur ++ [n]) <| by simpa using h

-- A place which is not a link is designated by its own components.
theorem walk_of_isResolved (h : fs.IsResolved (cur ++ loc)) :
    fs.walk follow k cur loc = some (cur ++ loc) := by
  obtain ⟨_, h, hl⟩ := h
  induction loc using List.reverseRecOn
  case nil => simp [walk_nil]
  case append_singleton loc n _ =>
    rw [← List.append_assoc] at h
    have hs := Option.isSome_of_eq_some h
    have hd := isDir_of_entry hs
    have he := enter_proper (proper_of_entry hs) (cur ++ loc)
    rw [walk_append_of_isDir hd, walk_cons_of_not_link hd (he ▸ h) hl, walk_nil, he,
      List.append_assoc]

theorem walkWith_canonWith {e : Location → List Name → Option Location}
    {e' : Location → List Name → Location}
    (he : ∀ cur rest, e cur rest = some loc → e' cur rest = loc)
    (h : fs.walkWith true e cur rest = some loc) : fs.canonWith e' cur rest = loc := by
  induction rest generalizing cur
  case nil => simpa [walkWith, canonWith] using h
  case cons n rest hi =>
    simp only [walkWith] at h
    split at h
    case isFalse => contradiction
    case isTrue =>
      cases hx : fs.node (enter cur n)
      case none => simp [hx] at h
      case some x =>
        cases x
        case link t => simpa [canonWith, hx] using he _ _ (by simpa [hx] using h)
        all_goals simpa [canonWith, hx] using hi (by simpa [hx] using h)

-- The canonical path of a file that exists is the place at which the file is found.
theorem walk_canon (h : fs.walk true k cur rest = some loc) : fs.canon k cur rest = loc := by
  induction k generalizing cur rest
  case zero      => exact walkWith_canonWith (by simp) h
  case succ k hi => exact walkWith_canonWith (fun _ _ => hi) h

theorem walkWith_isResolved {e : Location → List Name → Option Location}
    (he : ∀ cur rest, fs.isDir cur → e cur rest = some loc → fs.IsResolved loc)
    (hc : fs.IsResolved cur) (h : fs.walkWith true e cur rest = some loc) : fs.IsResolved loc := by
  induction rest generalizing cur
  case nil => simp_all [walkWith]
  case cons n rest hi =>
    simp only [walkWith] at h
    split at h
    case isFalse => contradiction
    case isTrue hd =>
      cases hx : fs.node (enter cur n)
      case none => simp [hx] at h
      case some x =>
        cases x
        case link t =>
          refine he _ _ ?_ (by simpa [hx] using h)
          simp only [base]
          split
          case isTrue  => exact isDir_root
          case isFalse => exact hd
        all_goals exact hi ⟨_, hx, by simp⟩ (by simpa [hx] using h)

-- A walk that replaces all links ends at something that exists and is not a link.
theorem walk_isResolved (hc : fs.isDir cur) (h : fs.walk true k cur rest = some loc) :
    fs.IsResolved loc := by
  induction k generalizing cur rest
  case zero      => exact walkWith_isResolved (by simp) (isResolved_of_isDir hc) h
  case succ k hi => exact walkWith_isResolved (fun _ _ => hi) (isResolved_of_isDir hc) h

end FileSystem

namespace Host

variable {h : Host} {path start : Str} {loc : Location}

theorem forall_proper_cwd (h : Host) : ∀ n ∈ h.cwd, Proper n :=
  FileSystem.forall_proper <| FileSystem.isSome_of_isDir h.cwd_dir

theorem isDir_base (h : Host) (path : Str) : h.fs.isDir (base h.cwd path) := by
  simp only [base]
  split
  case isTrue  => exact FileSystem.isDir_root
  case isFalse => exact h.cwd_dir

theorem realpath_of_resolve (hr : h.resolve path = some loc) :
    h.realpath path = '/' :: join loc := by
  simp only [resolve, lookup] at hr
  split at hr
  case isTrue  => contradiction
  case isFalse => rw [realpath, FileSystem.walk_canon hr]

theorem isResolved_of_resolve (hr : h.resolve path = some loc) : h.fs.IsResolved loc := by
  simp only [resolve, lookup] at hr
  split at hr
  case isTrue  => contradiction
  case isFalse => exact FileSystem.walk_isResolved (h.isDir_base path) hr

theorem forall_proper_of_resolve (hr : h.resolve path = some loc) : ∀ n ∈ loc, Proper n :=
  have ⟨_, hn, _⟩ := isResolved_of_resolve hr
  FileSystem.forall_proper <| Option.isSome_of_eq_some hn

theorem relpath_ne_nil (h : Host) (path start : Str) : h.relpath path start ≠ [] := by
  intro hn
  rw [relpath] at hn
  have hm := nil_not_mem_comps_relpath h.forall_proper_cwd path start
  rw [hn] at hm
  exact hm <| List.mem_singleton.mpr rfl

theorem resolve_relpath_eq_walk (h : Host) (path start : Str) :
    h.resolve (h.relpath path start) = h.fs.walk true FileSystem.symloopMax h.cwd
      (relative (abspath h.cwd start) (abspath h.cwd path)) := by
  have hb : isabs (h.relpath path start) = false := by
    have hn := nil_not_mem_comps_relpath h.forall_proper_cwd path start
    exact Bool.eq_false_iff.mpr <| mt nil_mem_comps_of_isabs hn
  simp only [resolve, lookup, relpath_ne_nil, if_false, base, hb, Bool.false_eq_true]
  rw [relpath, comps_relpath h.forall_proper_cwd]
  split
  case _ hr =>
    obtain ⟨_, hd⟩ := FileSystem.isDir_iff.mp h.cwd_dir
    have he := enter_curdir h.cwd
    rw [hr, FileSystem.walk_cons_of_not_link h.cwd_dir (he ▸ hd) (by simp), he]
  case _ => rfl

-- A relative path leads up from the working directory, no matter what it is relative to.
theorem resolve_relpath {S P : Location} (h : Host) (hs : abspath h.cwd start = S)
    (hp : abspath h.cwd path = P) : h.resolve (h.relpath path start) =
      h.fs.walk true FileSystem.symloopMax
        (h.cwd.take (h.cwd.length - (S.length - commonPrefix S P)))
        (P.drop (commonPrefix S P)) := by
  rw [resolve_relpath_eq_walk, hs, hp, relative, FileSystem.walk_replicate_pardir h.cwd_dir]

end Host
end Posix
