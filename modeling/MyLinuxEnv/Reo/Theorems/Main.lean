import Mathlib.Data.List.Forall2
import Mathlib.Data.List.Perm.Basic
import Mathlib.Data.List.Sort
import MyLinuxEnv.Reo.Main

open Text Posix

namespace Posix.Disk

variable {d : Disk} {l l' : Listing d.fs} {path : Str} {loc : Location} {k : Nat}

theorem perm_names (l l' : Listing d.fs) (loc : Location) :
    (l.names loc).Perm (l'.names loc) :=
  (List.perm_ext_iff_of_nodup (l.nodup loc) (l'.nodup loc)).mpr fun n =>
    (l.mem loc n).trans (l'.mem loc n).symm

theorem perm_flatMap_walkFrom {g : Str × List Name → List Str}
    (hg : ∀ path {files files' : List Name}, files.Perm files' →
      (g (path, files)).Perm (g (path, files'))) :
    ((d.walkFrom l k path loc).flatMap g).Perm ((d.walkFrom l' k path loc).flatMap g) := by
  induction k generalizing path loc
  case zero => exact .refl _
  case succ k ih =>
    have hn := perm_names l l' loc
    rw [walkFrom, walkFrom, List.flatMap_cons, List.flatMap_cons, List.flatMap_assoc,
      List.flatMap_assoc]
    exact (hg path <| hn.filter _).append <| (hn.filter _).flatMap fun _ _ => ih

end Posix.Disk

namespace Reo

variable {d : Disk} {l l' : Listing d.fs} {tpath rpath : Str}

theorem perm_findfiles (l l' : Listing d.fs) (root ext : Str) :
    (findfiles d l root ext).Perm (findfiles d l' root ext) := by
  rw [findfiles, findfiles, Disk.osWalk, Disk.osWalk]
  split
  case h_1 => exact .refl _
  case h_2 =>
    split
    case isTrue  => exact Disk.perm_flatMap_walkFrom fun path _ _ h => (h.filter _).map _
    case isFalse => exact .refl _

section Lines

variable {h : Host}

mutual

-- The lines of a command file which are searched for paths, while the outer loop is running.
def outerLines : List Str → List Str
  | []              => []
  | line :: cmdfile =>
    if (find? reference line).isSome then []
    else if (find? definition line).isSome then innerLines cmdfile
    else outerLines cmdfile

def innerLines : List Str → List Str
  | []              => []
  | line :: cmdfile =>
    if (find? reference line).isSome then outerLines cmdfile else line :: innerLines cmdfile

end

theorem headersLoop_eq (headers ls : List Str) :
    headersLoop h tpath rpath headers ls = (outerLines ls).foldl (collect h tpath rpath) headers ∧
      inHeaders h tpath rpath headers ls =
        (innerLines ls).foldl (collect h tpath rpath) headers := by
  induction ls generalizing headers
  case nil => exact ⟨rfl, rfl⟩
  case cons line ls hi =>
    rw [headersLoop, outerLines, inHeaders, innerLines]
    constructor
    case left =>
      split
      case isTrue  => rfl
      case isFalse =>
        split
        case isTrue  => exact (hi headers).right
        case isFalse => exact (hi headers).left
    case right =>
      split
      case isTrue  => exact (hi headers).left
      case isFalse => exact (hi _).right

-- The lines of a dependency file which are searched for paths.
def sourceLines : List Str → List Str
  | []            => []
  | line :: pfile => if (find? rule line).isSome then sourceLines pfile else pfile

theorem sourcesLoop_eq (sources ls : List Str) :
    sourcesLoop h tpath rpath sources ls =
      (sourceLines ls).foldl (collect h tpath rpath) sources := by
  induction ls
  case nil => rfl
  case cons line ls hi =>
    rw [sourcesLoop, sourceLines]
    split
    case isTrue  => exact hi
    case isFalse => rfl

theorem extractAllHeaders_eq (headers texts : List Str) :
    (extractAllHeaders h tpath rpath headers texts).1 =
      headers ++
        newPaths h tpath rpath headers (texts.flatMap fun text => outerLines (lines text)) := by
  rw [← foldl_collect]
  induction texts generalizing headers
  case nil => rfl
  case cons text texts hi =>
    rw [List.flatMap_cons, List.foldl_append, ← (headersLoop_eq headers _).left]
    exact hi _

theorem extractAllSources_eq (sources texts : List Str) :
    extractAllSources d tpath rpath sources texts =
      sources ++ newPaths d.toHost tpath rpath sources
        (texts.flatMap fun text => sourceLines (lines text)) := by
  rw [← foldl_collect]
  induction texts generalizing sources
  case nil => rfl
  case cons text texts hi =>
    rw [List.flatMap_cons, List.foldl_append, ← sourcesLoop_eq]
    exact hi _

theorem perm_newPaths {ls ls' : List Str} (hp : ls.Perm ls') (paths : List Str) :
    (newPaths h tpath rpath paths ls).Perm (newPaths h tpath rpath paths ls') :=
  perm_eraseDups <| (hp.map _).filter _

end Lines

section Order

-- A loop over some files succeeds if and only if it does for each of them.
theorem mapM_eq_ok_iff {α β : Type} {f : α → Except Failure β} {xs : List α} {ys : List β} :
    xs.mapM f = .ok ys ↔ List.Forall₂ (fun x y => f x = .ok y) xs ys := by
  induction xs generalizing ys
  case nil => cases ys <;> simp [pure, Except.pure]
  case cons x xs hi =>
    rw [List.mapM_cons]
    cases hx : f x
    case error => cases ys <;> simp [bind, Except.bind, hx]
    case ok =>
      cases hxs : xs.mapM f
      all_goals cases ys <;> simp [bind, Except.bind, pure, Except.pure, ← hi, hxs, hx]

theorem exists_perm_mapM {α β : Type} {f : α → Except Failure β} {xs xs' : List α} {ys : List β}
    (hp : xs.Perm xs') (h : xs.mapM f = .ok ys) :
    ∃ ys', xs'.mapM f = .ok ys' ∧ ys.Perm ys' := by
  have ⟨ys', hf, hp'⟩ := List.perm_comp_forall₂ hp.symm <| mapM_eq_ok_iff.mp h
  exact ⟨ys', mapM_eq_ok_iff.mpr hf, hp'.symm⟩

-- The same elements are sorted in the same way.
theorem mergeSort_eq_of_perm {xs ys : List Str} (h : xs.Perm ys) : xs.mergeSort = ys.mergeSort := by
  refine List.Perm.eq_of_sortedLE List.sortedLE_mergeSort List.sortedLE_mergeSort ?_
  exact (List.mergeSort_perm xs _).trans <| h.trans (List.mergeSort_perm ys _).symm

theorem collectFiles_eq_ok {files : List Str} (l' : Listing d.fs)
    (h : collectFiles d l tpath rpath = .ok files) :
    collectFiles d l' tpath rpath = .ok files := by
  have ⟨srcs, hs, h⟩ := bind_eq_ok_iff.mp h
  have ⟨cmds, hc, h⟩ := bind_eq_ok_iff.mp h
  have ⟨deps, hd, h⟩ := bind_eq_ok_iff.mp h
  cases h
  have ⟨srcs', hs', hps⟩ := exists_perm_mapM (perm_findfiles l l' ..) hs
  have ⟨cmds', hc', hpc⟩ := exists_perm_mapM (perm_findfiles l l' ..) hc
  have ⟨deps', hd', hpd⟩ := exists_perm_mapM (perm_findfiles l l' ..) hd
  rw [collectFiles, hs', hc', hd']
  refine congrArg Except.ok <| mergeSort_eq_of_perm ?_
  rw [extractAllHeaders_eq, extractAllHeaders_eq, extractAllSources_eq, extractAllSources_eq]
  refine List.Perm.append (List.Perm.append ?_ ?_) ?_
  case refine_1 => exact (hps.filterMap _).symm
  case refine_2 => exact (perm_newPaths ((hpc.filterMap _).flatMap_right _) []).symm
  case refine_3 => exact (perm_newPaths ((hpd.filterMap _).flatMap_right _) []).symm

end Order

-- When the program gets to the end.
theorem main_eq_ok {args files : List Str} :
    main d l args = .ok files ↔ ∃ tpath rpath, paths args = .ok (tpath, rpath) ∧
      Paths.isValidPath d.toHost tpath ∧ Paths.isValidPath d.toHost rpath ∧
        collectFiles d l tpath rpath = .ok files := by
  constructor
  case mp =>
    intro h
    have ⟨⟨tpath, rpath⟩, ha, h⟩ := bind_eq_ok_iff.mp h
    dsimp only at h
    split at h
    case isTrue => cases h
    case isFalse ht =>
      split at h
      case isTrue     => cases h
      case isFalse hr => exact ⟨tpath, rpath, ha, by simpa using ht, by simpa using hr, h⟩
  case mpr =>
    intro ⟨tpath, rpath, ha, ht, hr, h⟩
    refine bind_eq_ok_iff.mpr ⟨(tpath, rpath), ha, ?_⟩
    simp [ht, hr, h]

-- The output depends on what there is on the disk only, and not on the order in which directories
-- list their entries.
theorem main_eq_ok_iff (d : Disk) (l l' : Listing d.fs) (args files : List Str) :
    main d l args = .ok files ↔ main d l' args = .ok files := by
  suffices h : ∀ l l', main d l args = .ok files → main d l' args = .ok files from ⟨h l l', h l' l⟩
  intro l l' h
  have ⟨tpath, rpath, ha, ht, hr, h⟩ := main_eq_ok.mp h
  exact main_eq_ok.mpr ⟨tpath, rpath, ha, ht, hr, collectFiles_eq_ok l' h⟩

end Reo
