import MyLinuxEnv.Text.Basic

namespace Posix

open Text

-- A component of a path, and a place in the directory tree given by its components from the root.
abbrev Name := Str
abbrev Location := List Name

def curdir : Name := ['.']
def pardir : Name := ['.', '.']

-- The names that directory entries can have.
structure Proper (n : Name) : Prop where
  ne_nil    : n ≠ []
  ne_curdir : n ≠ curdir
  ne_pardir : n ≠ pardir
  no_slash  : '/' ∉ n

instance (n : Name) : Decidable (Proper n) :=
  decidable_of_iff (n ≠ [] ∧ n ≠ curdir ∧ n ≠ pardir ∧ '/' ∉ n)
    ⟨fun ⟨h₁, h₂, h₃, h₄⟩ => ⟨h₁, h₂, h₃, h₄⟩, fun ⟨h₁, h₂, h₃, h₄⟩ => ⟨h₁, h₂, h₃, h₄⟩⟩

def isabs (path : Str) : Bool :=
  path.head? = some '/'

def comps (path : Str) : List Name :=
  path.splitOn '/'

def join (ns : List Name) : Str :=
  ['/'].intercalate ns

-- The place to which one component leads when no symbolic links are taken into account.
def enter (cur : Location) (n : Name) : Location :=
  if n = [] ∨ n = curdir then cur
  else if n = pardir then cur.dropLast
  else cur ++ [n]

-- The place from which a path is interpreted.
def base (cwd : Location) (path : Str) : Location :=
  if isabs path then [] else cwd

-- The components of the normalized absolute path, that is, `..` is collapsed lexically.
def abspath (cwd : Location) (path : Str) : Location :=
  (comps path).foldl enter (base cwd path)

-- The length of the longest common prefix.
def commonPrefix {α : Type} [DecidableEq α] : List α → List α → Nat
  | a :: as, b :: bs => if a = b then commonPrefix as bs + 1 else 0
  | _, _             => 0

-- The components that lead from `start` to `path` by going up first.
def relative (start path : Location) : List Name :=
  List.replicate (start.length - commonPrefix start path) pardir ++
    path.drop (commonPrefix start path)

def relpath (cwd : Location) (path start : Str) : Str :=
  match relative (abspath cwd start) (abspath cwd path) with
  | [] => curdir
  | ns => join ns

section Components

theorem comps_ne_nil (path : Str) : comps path ≠ [] :=
  List.splitOn_ne_nil _ _

theorem comps_join {ns : List Name} (h : ns ≠ []) (hs : ∀ n ∈ ns, '/' ∉ n) :
    comps (join ns) = ns :=
  List.splitOn_intercalate _ hs h

theorem comps_cons_slash (path : Str) : comps ('/' :: path) = [] :: comps path := by
  simp [comps, List.splitOn_cons_eq_if_modifyHead]

theorem nil_mem_comps_of_isabs {path : Str} (h : isabs path) : [] ∈ comps path := by
  cases path
  case nil  => simp [isabs] at h
  case cons => simp_all [isabs, comps_cons_slash]

theorem enter_curdir (cur : Location) : enter cur curdir = cur := by
  simp [enter]

theorem enter_nil (cur : Location) : enter cur [] = cur := by
  simp [enter]

theorem enter_pardir (cur : Location) : enter cur pardir = cur.dropLast := by
  simp [enter, pardir, curdir]

theorem enter_proper {n : Name} (h : Proper n) (cur : Location) : enter cur n = cur ++ [n] := by
  simp [enter, h.ne_nil, h.ne_curdir, h.ne_pardir]

theorem foldl_enter_proper {ns : List Name} (h : ∀ n ∈ ns, Proper n) (cur : Location) :
    ns.foldl enter cur = cur ++ ns := by
  induction ns generalizing cur
  case nil => simp
  case cons n ns hi =>
    have ⟨hn, hns⟩ := List.forall_mem_cons.mp h
    simp [enter_proper hn, hi hns]

theorem enter_forall_proper {cur : Location} {n : Name} (h : ∀ m ∈ cur, Proper m) (hs : '/' ∉ n) :
    ∀ m ∈ enter cur n, Proper m := by
  simp only [enter]
  split
  case isTrue => exact h
  case isFalse hc =>
    split
    case isTrue => exact fun m hm => h m <| List.dropLast_subset _ hm
    case isFalse hp =>
      intro m hm
      cases List.mem_append.mp hm
      case inl hm => exact h m hm
      case inr hm =>
        rw [List.mem_singleton.mp hm]
        exact ⟨mt .inl hc, mt .inr hc, hp, hs⟩

theorem foldl_enter_forall_proper {ns : List Name} {cur : Location} (h : ∀ m ∈ cur, Proper m)
    (hs : ∀ n ∈ ns, '/' ∉ n) : ∀ m ∈ ns.foldl enter cur, Proper m := by
  induction ns generalizing cur
  case nil => exact h
  case cons n ns hi =>
    have ⟨hn, hns⟩ := List.forall_mem_cons.mp hs
    exact hi (enter_forall_proper h hn) hns

theorem no_slash_of_mem_comps {path : Str} {n : Name} (h : n ∈ comps path) : '/' ∉ n := by
  induction path generalizing n
  case nil => simp_all [comps]
  case cons c path hi =>
    simp only [comps, List.splitOn_cons_eq_if_modifyHead] at h
    split at h
    case isTrue =>
      cases h
      case head   => simp
      case tail h => exact hi h
    case isFalse hc =>
      cases hp : path.splitOn '/'
      case nil => exact absurd hp <| comps_ne_nil path
      case cons m ms =>
        simp only [comps, hp] at hi h
        cases h
        case head   => simpa [Ne.symm (by simpa using hc : c ≠ '/')] using hi (.head _)
        case tail h => exact hi (.tail _ h)

theorem abspath_forall_proper {cwd : Location} (h : ∀ m ∈ cwd, Proper m) (path : Str) :
    ∀ m ∈ abspath cwd path, Proper m := by
  refine foldl_enter_forall_proper ?_ (fun _ => no_slash_of_mem_comps)
  simp only [base]
  split
  case isTrue  => simp
  case isFalse => exact h

theorem abspath_curdir (cwd : Location) : abspath cwd curdir = cwd := by
  have hc : comps curdir = [curdir] := by decide
  have hb : base cwd curdir = cwd := by simp [base, isabs, curdir]
  simp [abspath, hc, hb, enter_curdir]

-- An absolute path which is written in normal form.
theorem abspath_join {loc : Location} (h : ∀ n ∈ loc, Proper n) (cwd : Location) :
    abspath cwd ('/' :: join loc) = loc := by
  have hb : base cwd ('/' :: join loc) = [] := by simp [base, isabs]
  simp only [abspath, hb, comps_cons_slash, List.foldl_cons, enter_nil]
  by_cases hl : loc = []
  case pos => simp [hl, join, comps, enter_nil]
  case neg => simp [comps_join hl fun n hn => (h n hn).no_slash, foldl_enter_proper h]

end Components

section Relative

variable {α : Type} [DecidableEq α]

theorem commonPrefix_le_left (as bs : List α) : commonPrefix as bs ≤ as.length := by
  induction as generalizing bs
  case nil => simp [commonPrefix]
  case cons hi =>
    cases bs
    case nil => simp [commonPrefix]
    case cons bs =>
      simp only [commonPrefix]
      split <;> simp [hi bs]

theorem take_commonPrefix (as bs : List α) :
    as.take (commonPrefix as bs) = bs.take (commonPrefix as bs) := by
  induction as generalizing bs
  case nil => simp [commonPrefix]
  case cons hi =>
    cases bs
    case nil => simp [commonPrefix]
    case cons bs =>
      simp only [commonPrefix]
      split
      case isTrue h => simp [h, hi bs]
      case isFalse  => simp

variable {path : Location}

theorem forall_mem_relative (start : Location) (h : ∀ m ∈ path, Proper m) :
    ∀ n ∈ relative start path, '/' ∉ n ∧ n ≠ [] := by
  intro n hn
  cases List.mem_append.mp hn
  case inl hn => rw [List.eq_of_mem_replicate hn]; decide
  case inr hn =>
    have hp := h n <| List.mem_of_mem_drop hn
    exact ⟨hp.no_slash, hp.ne_nil⟩

theorem comps_relpath {cwd : Location} (h : ∀ m ∈ cwd, Proper m) (path start : Str) :
    comps (relpath cwd path start) =
      match relative (abspath cwd start) (abspath cwd path) with
      | [] => [curdir]
      | ns => ns := by
  have hr := forall_mem_relative (abspath cwd start) (abspath_forall_proper h path)
  simp only [relpath]
  split
  case _      => decide
  case _ hn   => exact comps_join hn fun n hn => (hr n hn).left

theorem nil_not_mem_comps_relpath {cwd : Location} (h : ∀ m ∈ cwd, Proper m) (path start : Str) :
    [] ∉ comps (relpath cwd path start) := by
  have hr := forall_mem_relative (abspath cwd start) (abspath_forall_proper h path)
  rw [comps_relpath h]
  split
  case _ => decide
  case _ => exact fun hn => (hr _ hn).right rfl

end Relative

end Posix
