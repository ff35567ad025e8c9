import MyLinuxEnv.Paths.Basic

open Text Posix

namespace Paths

variable {usable : Host → Str → Bool} {h : Host} {path tpath rpath c : Str}

-- The place that a recorded path designates, or else the target path joined with it.
def designated (h : Host) (path tpath : Str) : Option Location :=
  (h.resolve path).or (h.resolve (joinTarget path tpath))

-- A result can be opened from the working directory and leads to the recorded file.
def Openable (h : Host) (path tpath result : Str) : Prop :=
  ∃ loc, h.resolve result = some loc ∧ designated h path tpath = some loc

-- The path that has been found to exist.
def candidate (usable : Host → Str → Bool) (h : Host) (path tpath : Str) : Option Str :=
  if h.exists? path then some path
  else if usable h (retarget path tpath) then some (retarget path tpath)
  else none

-- The place which is reached by going up from the working directory by as many levels as `root`
-- lies below its common ancestor with `loc`, and then down to `loc` from there.
def rebase (h : Host) (root loc : Location) : Option Location :=
  h.fs.walk true FileSystem.symloopMax
    (h.cwd.take (h.cwd.length - (root.length - commonPrefix root loc)))
    (loc.drop (commonPrefix root loc))

-- A link keeps its meaning if the root path is as good a base for its target as the working
-- directory is. Any other path does if its meaning does not depend on a `..` behind a link.
def Faithful (h : Host) (rpath c : Str) : Prop :=
  if h.islink c
  then ∀ loc, h.resolve c = some loc → rebase h (abspath h.cwd rpath) loc = some loc
  else h.fs.walk true FileSystem.symloopMax [] (abspath h.cwd c) = h.resolve c

theorem refinePath_eq_of_candidate (hu : path.take 4 ≠ "/usr".toList)
    (hc : candidate usable h path tpath = some c) :
    refinePath usable h path tpath rpath = transPath h c rpath := by
  simp only [candidate] at hc
  simp only [refinePath, hu, if_false]
  split at hc
  case isTrue he => simp_all
  case isFalse he =>
    split at hc
    case isTrue  => simp_all
    case isFalse => contradiction

theorem refinePath_eq_nil_of_candidate_none (hu : path.take 4 ≠ "/usr".toList)
    (hc : candidate usable h path tpath = none) : refinePath usable h path tpath rpath = [] := by
  simp only [candidate] at hc
  simp only [refinePath, hu, if_false]
  split at hc
  case isTrue => contradiction
  case isFalse =>
    split at hc
    case isTrue  => contradiction
    case isFalse => simp_all

theorem transPath_ne_nil : transPath h path rpath ≠ [] := by
  simp only [transPath]
  split
  case isTrue  => exact h.relpath_ne_nil _ _
  case isFalse => exact h.relpath_ne_nil _ _

theorem resolve_transPath_of_link {loc : Location} (hl : h.islink c) (hr : h.resolve c = some loc) :
    h.resolve (transPath h c rpath) = rebase h (abspath h.cwd rpath) loc := by
  have hp : abspath h.cwd (h.realpath c) = loc := by
    rw [Host.realpath_of_resolve hr, abspath_join (Host.forall_proper_of_resolve hr)]
  simp only [transPath, hl, if_true, rebase]
  exact h.resolve_relpath rfl hp

theorem resolve_transPath_of_not_link (hl : ¬h.islink c) :
    h.resolve (transPath h c rpath) =
      h.fs.walk true FileSystem.symloopMax [] (abspath h.cwd c) := by
  have hs := commonPrefix_le_left h.cwd (abspath h.cwd c)
  have ht := take_commonPrefix h.cwd (abspath h.cwd c)
  simp only [transPath, hl, Bool.false_eq_true, if_false]
  rw [h.resolve_relpath (abspath_curdir h.cwd) rfl, Nat.sub_sub_self hs]
  have hd := FileSystem.isDir_take h.cwd_dir (commonPrefix h.cwd (abspath h.cwd c))
  rw [ht] at hd ⊢
  rw [← List.nil_append (List.take ..)] at hd ⊢
  refine FileSystem.walk_append_of_isDir hd |>.symm.trans ?_
  rw [List.take_append_drop]

theorem resolve_transPath_eq_iff {loc : Location} (hr : h.resolve c = some loc) :
    h.resolve (transPath h c rpath) = some loc ↔ Faithful h rpath c := by
  simp only [Faithful]
  split
  case isTrue hl  => simp [resolve_transPath_of_link hl hr, hr]
  case isFalse hl => simp [resolve_transPath_of_not_link hl, hr]

theorem candidate_designated (hc : candidate usable h path tpath = some c)
    (hu : usable h c → h.exists? c) :
    ∃ loc, h.resolve c = some loc ∧ designated h path tpath = some loc := by
  simp only [candidate] at hc
  split at hc
  case isTrue he =>
    cases hc
    have ⟨loc, hr⟩ := Option.isSome_iff_exists.mp he
    exact ⟨loc, hr, by simp [designated, hr]⟩
  case isFalse he =>
    split at hc
    case isFalse => contradiction
    case isTrue ht =>
      cases hc
      have hs := hu ht
      have ⟨loc, hr⟩ := Option.isSome_iff_exists.mp hs
      simp only [retarget] at hs hr ⊢
      split at hr
      case isFalse => simp_all
      case isTrue hf =>
        have hn : h.resolve path = none := by simpa [Host.exists?] using he
        exact ⟨loc, by simp [hf, hr], by simp [designated, hn, hr]⟩

-- A result that is not empty leads to the recorded file if and only if that path is faithful.
theorem refinePath_openable_iff (hu : path.take 4 ≠ "/usr".toList)
    (he : ∀ c, usable h c → h.exists? c) :
    (refinePath usable h path tpath rpath ≠ [] →
        Openable h path tpath (refinePath usable h path tpath rpath)) ↔
      ∀ c, candidate usable h path tpath = some c → Faithful h rpath c := by
  cases hc : candidate usable h path tpath
  case none => simp [refinePath_eq_nil_of_candidate_none hu hc]
  case some c =>
    have ⟨loc, hr, hd⟩ := candidate_designated hc (he c)
    simp [refinePath_eq_of_candidate hu hc, transPath_ne_nil, Openable, hd,
      ← resolve_transPath_eq_iff hr]

-- No harm is done when the root path is the working directory.
theorem faithful_of_root_eq_cwd (hl : h.islink c) (hr : abspath h.cwd rpath = h.cwd) :
    Faithful h rpath c := by
  simp only [Faithful, hl, if_true]
  intro loc hc
  have hs := commonPrefix_le_left h.cwd loc
  rw [rebase, hr, Nat.sub_sub_self hs, take_commonPrefix]
  refine FileSystem.walk_of_isResolved ?_ |>.trans ?_
  case refine_1 => simpa using Host.isResolved_of_resolve hc
  case refine_2 => rw [List.take_append_drop]

end Paths

-- Both tools hand out paths that can be opened exactly as long as the paths are faithful.
theorem Paths.tools_refinePath_openable_iff {h : Host} {path tpath rpath : Str}
    (hu : path.take 4 ≠ "/usr".toList) :
    ((Logtrans.refinePath h path tpath rpath ≠ [] →
        Openable h path tpath (Logtrans.refinePath h path tpath rpath)) ↔
      ∀ c, candidate Host.exists? h path tpath = some c → Faithful h rpath c) ∧
    ((Reo.refinePath h path tpath rpath ≠ [] →
        Openable h path tpath (Reo.refinePath h path tpath rpath)) ↔
      ∀ c, candidate Reo.usable h path tpath = some c → Faithful h rpath c) :=
  ⟨refinePath_openable_iff hu (by simp), refinePath_openable_iff hu (by simp_all [Reo.usable])⟩

theorem Paths.tools_refinePath_openable_iff_of_link :
    ((Logtrans.refinePath exampleHost "link.c".toList ".".toList ".".toList ≠ [] →
        Openable exampleHost "link.c".toList ".".toList
          (Logtrans.refinePath exampleHost "link.c".toList ".".toList ".".toList)) ↔
      ∀ c, candidate Host.exists? exampleHost "link.c".toList ".".toList = some c →
        Faithful exampleHost ".".toList c) ∧
    ((Reo.refinePath exampleHost "link.c".toList ".".toList ".".toList ≠ [] →
        Openable exampleHost "link.c".toList ".".toList
          (Reo.refinePath exampleHost "link.c".toList ".".toList ".".toList)) ↔
      ∀ c, candidate Reo.usable exampleHost "link.c".toList ".".toList = some c →
        Faithful exampleHost ".".toList c) :=
  tools_refinePath_openable_iff (by decide)

-- The target of a link is reported relative to the root path, here `/`, from which nobody opens it.
theorem Paths.refinePath_link_not_openable :
    ¬∀ (h : Host) (path tpath rpath : Str), isValidPath h tpath → isValidPath h rpath →
      path.take 4 ≠ "/usr".toList →
      (Logtrans.refinePath h path tpath rpath ≠ [] →
        Openable h path tpath (Logtrans.refinePath h path tpath rpath)) ∧
      (Reo.refinePath h path tpath rpath ≠ [] →
        Openable h path tpath (Reo.refinePath h path tpath rpath)) := by
  intro hc
  have ⟨hl, _⟩ := hc exampleHost "link.c".toList ".".toList "/".toList
    (by decide) (by decide) (by decide)
  have ⟨loc, hr, _⟩ := hl (by decide)
  have hn : exampleHost.resolve
      (Logtrans.refinePath exampleHost "link.c".toList ".".toList "/".toList) = none := by decide
  exact absurd (hn.symm.trans hr) (by simp)
