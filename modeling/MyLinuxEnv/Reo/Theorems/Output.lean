import MyLinuxEnv.Paths.Theorems.Refine
import MyLinuxEnv.Posix.Walk
import MyLinuxEnv.Reo.Theorems.Main

open Text Posix

namespace Posix.Disk

variable {d : Disk} {l : Listing d.fs} {path : Str} {loc dirs : Location} {n : Name} {k : Nat}

theorem resolve_joinPath {x : Node} (hr : d.resolve path = some loc)
    (hx : d.fs.node (loc ++ [n]) = some x) (hl : ∀ t, x ≠ .link t) :
    d.resolve (joinPath path n) = some (loc ++ [n]) :=
  Host.lookup_joinPath hr hx hl

-- The paths of directories which are walked through lead to them. A walk gets to each directory
-- that is not too far below.
theorem exists_mem_walkFrom (hr : d.resolve path = some loc) (hn : d.Normal path)
    (hd : d.fs.isDir (loc ++ dirs)) (hk : dirs.length < k) :
    ∃ p, d.resolve p = some (loc ++ dirs) ∧ d.Normal p ∧
      (p, (l.names (loc ++ dirs)).filter (d.isFile p (loc ++ dirs))) ∈ d.walkFrom l k path loc := by
  induction k generalizing path loc dirs
  case zero => contradiction
  case succ k hi =>
    rw [walkFrom]
    cases dirs
    case nil =>
      rw [List.append_nil]
      exact ⟨path, hr, hn, .head _⟩
    case cons n dirs =>
      have hs : d.fs.isDir (loc ++ [n]) := by
        simpa [List.take_append, List.take_of_length_le] using
          FileSystem.isDir_take hd (loc.length + 1)
      obtain ⟨_, hx⟩ := FileSystem.isDir_iff.mp hs
      have hm := (l.mem loc n).mpr <| Option.isSome_of_eq_some hx
      rw [List.append_cons] at hd ⊢
      have hr' := resolve_joinPath hr hx (by simp)
      have hn' := Host.normal_joinPath hr hx (by simp) hn
      obtain ⟨p, hrp, hnp, hw⟩ := hi hr' hn' hd (Nat.lt_of_succ_lt_succ hk)
      refine ⟨p, hrp, hnp, .tail _ <| List.mem_flatMap.mpr ⟨n, ?_, hw⟩⟩
      exact List.mem_filter.mpr ⟨hm, hs⟩

theorem exists_mem_osWalk (hr : d.resolve path = some loc) (hn : d.Normal path)
    (hd : d.fs.isDir (loc ++ dirs)) :
    ∃ p, d.resolve p = some (loc ++ dirs) ∧ d.Normal p ∧
      (p, (l.names (loc ++ dirs)).filter (d.isFile p (loc ++ dirs))) ∈ d.osWalk l path := by
  have hle := d.le_height _ <| FileSystem.isSome_of_isDir hd
  have hl : d.fs.isDir loc := by simpa using FileSystem.isDir_take hd loc.length
  rw [List.length_append] at hle
  simp only [osWalk, hr, hl, if_true]
  exact exists_mem_walkFrom hr hn hd (by omega)

end Posix.Disk

namespace Posix

theorem extension_append {stem : Name} {c : Char} (hs : ¬stem.all (· = '.')) (hc : c ≠ '.') :
    extension (stem ++ ['.', c]) = ['.', c] := by
  have ha : stem ++ ['.', c] = stem ++ ['.'] ++ [c] := by simp
  have ht : (stem ++ ['.', c]).rtakeWhile (· ≠ '.') = [c] := by
    rw [ha, List.rtakeWhile_concat_pos _ _ _ (by simpa using hc),
      List.rtakeWhile_concat_neg _ _ _ (by simp), List.nil_append]
  have hd : (stem ++ ['.', c]).rdropWhile (· ≠ '.') = stem ++ ['.'] := by
    rw [ha, List.rdropWhile_concat_pos _ _ _ (by simpa using hc),
      List.rdropWhile_concat_neg _ _ _ (by simp)]
  rw [extension, ht, hd, if_neg (by simpa using hs)]

theorem dropLast_joinPath (top : Str) (stem : Name) :
    (joinPath top (stem ++ ".o".toList)).dropLast ++ ['c'] =
      joinPath top (stem ++ ".c".toList) := by
  have hd (x : Str) :
      (x ++ (stem ++ ".o".toList)).dropLast ++ ['c'] = x ++ (stem ++ ".c".toList) := by
    have ho : x ++ (stem ++ ".o".toList) = x ++ stem ++ ['.'] ++ ['o'] := by simp
    rw [ho, List.dropLast_concat]
    simp
  rw [joinPath, joinPath]
  split
  case isTrue  => exact hd top
  case isFalse => exact hd (top ++ ['/'])

end Posix

namespace Reo

variable {d : Disk} {l : Listing d.fs} {tpath rpath path c : Str} {loc : Location} {size : Nat}

theorem resolve_refinePath (tpath rpath : Str) (hc : d.resolve c = some loc) (hl : ¬d.islink c)
    (hn : d.Normal c) : d.resolve (refinePath d.toHost c tpath rpath) = some loc := by
  by_cases hu : c.take 4 = "/usr".toList
  case pos => rwa [refinePath, Paths.refinePath, if_pos hu]
  case neg =>
    have he : d.exists? c := Option.isSome_of_eq_some hc
    have hs : Paths.candidate usable d.toHost c tpath = some c := by rw [Paths.candidate, if_pos he]
    rw [refinePath, Paths.refinePath_eq_of_candidate hu hs]
    exact Paths.resolve_transPath_eq_iff hc |>.mpr <| by rwa [Paths.Faithful, if_neg hl]

theorem sourceOf_eq {filename : Str} {p : Str}
    (hp : refinePath d.toHost (filename.dropLast ++ ['c']) tpath rpath = p)
    (hr : d.resolve p = some loc) (hx : d.fs.node loc = some (.file (size + 1))) :
    sourceOf d tpath rpath filename = .ok (some p) := by
  have hg : d.getsize p = some (size + 1) := by
    rw [Host.getsize, Host.stat, hr, Option.bind_some, hx]
    rfl
  rw [sourceOf, hp]
  simp [Host.resolve_ne_nil hr, hg]

theorem mem_findfiles {files : List Name} {n ext : Name} (hw : (path, files) ∈ d.osWalk l tpath)
    (hn : n ∈ files) (he : extension n = ext) : joinPath path n ∈ findfiles d l tpath ext := by
  refine List.mem_flatMap.mpr ⟨(path, files), hw, List.mem_map.mpr ⟨n, ?_, rfl⟩⟩
  exact List.mem_filter.mpr ⟨hn, by simpa using he⟩

theorem exists_mem_of_mem_mapM {α β : Type} {f : α → Except Failure β} {xs : List α} {ys : List β}
    {x : α} (h : xs.mapM f = .ok ys) (hx : x ∈ xs) : ∃ y ∈ ys, f x = .ok y := by
  have hf := mapM_eq_ok_iff.mp h
  induction hf
  case nil => contradiction
  case cons hy hf hi =>
    cases hx
    case head    => exact ⟨_, .head _, hy⟩
    case tail hx =>
      have ⟨y, hm, he⟩ := hi (mapM_eq_ok_iff.mpr hf) hx
      exact ⟨y, .tail _ hm, he⟩

theorem mem_of_mem_findfiles {filename : Str} {p : Str} {files : List Str}
    (h : collectFiles d l tpath rpath = .ok files)
    (hf : filename ∈ findfiles d l tpath ".o".toList)
    (hs : sourceOf d tpath rpath filename = .ok (some p)) : p ∈ files := by
  have ⟨srcs, hsrcs, h⟩ := bind_eq_ok_iff.mp h
  have ⟨_, _, h⟩ := bind_eq_ok_iff.mp h
  have ⟨_, _, h⟩ := bind_eq_ok_iff.mp h
  cases h
  have hm : some p ∈ srcs := by
    have ⟨o, ho, he⟩ := exists_mem_of_mem_mapM hsrcs hf
    exact Except.ok.inj (hs.symm.trans he) ▸ ho
  refine List.mem_mergeSort.mpr <| List.mem_append_left _ <| List.mem_append_left _ ?_
  exact List.mem_filterMap.mpr ⟨some p, hm, rfl⟩

-- The program prints a path of the source of each object file below the target path, as long as
-- collapsing `..` does no harm to the latter.
theorem exists_mem_main {args files : List Str} {m k : Nat} (root dirs : Location) (stem : Name)
    (h : main d l args = .ok files) (ha : paths args = .ok (tpath, rpath))
    (hr : d.resolve tpath = some root) (hn : d.Normal tpath) (hs : ¬stem.all (· = '.'))
    (ho : d.fs.node (root ++ dirs ++ [stem ++ ".o".toList]) = some (.file m))
    (hc : d.fs.node (root ++ dirs ++ [stem ++ ".c".toList]) = some (.file (k + 1))) :
    ∃ p ∈ files, d.resolve p = some (root ++ dirs ++ [stem ++ ".c".toList]) := by
  have hd := FileSystem.isDir_of_entry <| Option.isSome_of_eq_some ho
  obtain ⟨p, hrp, hnp, hw⟩ := Disk.exists_mem_osWalk (l := l) hr hn hd
  have hf : joinPath p (stem ++ ".o".toList) ∈ findfiles d l tpath ".o".toList := by
    refine mem_findfiles hw (List.mem_filter.mpr ⟨?_, ?_⟩) <| extension_append hs (by decide)
    case refine_1 => exact (l.mem ..).mpr <| Option.isSome_of_eq_some ho
    case refine_2 => rw [Disk.isFile, ho]
  have he := dropLast_joinPath p stem
  have hrc := Disk.resolve_joinPath hrp hc (by simp)
  have hlc : ¬d.islink (joinPath p (stem ++ ".c".toList)) := by
    rw [Host.islink, Host.lstat, Host.lookup_joinPath hrp hc (by simp), Option.bind_some, hc]
    exact Bool.false_ne_true
  have hrf := resolve_refinePath tpath rpath hrc hlc <| Host.normal_joinPath hrp hc (by simp) hnp
  have hm : collectFiles d l tpath rpath = .ok files := by
    obtain ⟨_, _, ha', _, _, h⟩ := main_eq_ok.mp h
    cases ha.symm.trans ha'
    exact h
  exact ⟨_, mem_of_mem_findfiles hm hf <| sourceOf_eq (he ▸ rfl) hrf hc, hrf⟩

-- A directory `/work` with an object file `src/a.o` and its source.
def exampleEntries : List (Location × Node) := [
  ([], .dir 1),
  (["work".toList], .dir 1),
  (["work".toList, "src".toList], .dir 1),
  (["work".toList, "src".toList, "a.c".toList], .file 1),
  (["work".toList, "src".toList, "a.o".toList], .file 1)
]

def exampleDisk : Disk where
  fs        := .ofEntries exampleEntries ⟨by decide, by decide, by decide⟩
  cwd       := ["work".toList]
  cwd_dir   := by decide
  content _ := none
  height    := 3
  le_height := by
    intro loc hs
    have ⟨_, hx⟩ := Option.isSome_iff_exists.mp hs
    have hl : ∀ e ∈ exampleEntries, e.1.length ≤ 3 := by decide
    exact hl _ <| FileSystem.mem_of_entry_eq hx

def exampleListing : Listing exampleDisk.fs :=
  .ofEntries exampleEntries ⟨by decide, by decide, by decide⟩

theorem exists_mem_main_of_example :
    ∃ files, main exampleDisk exampleListing [] = .ok files ∧
      ∃ p ∈ files, exampleDisk.resolve p =
        some ["work".toList, "src".toList, "a.c".toList] := by
  have hm : main exampleDisk exampleListing [] = .ok ["src/a.c".toList].mergeSort := by
    rfl
  have hr : exampleDisk.resolve curdir = some ["work".toList] := by decide
  have hn := Host.normal_of_pardir_not_mem hr (by decide)
  exact ⟨_, hm, exists_mem_main (m := 1) (k := 0) ["work".toList] ["src".toList] "a".toList
    hm rfl hr hn (by decide) (by decide) (by decide)⟩

-- Only paths outside of `/usr` are ever looked for.
theorem exists_of_refinePath (hp : refinePath d.toHost path tpath rpath = c) (hc : c ≠ []) :
    c.take 4 = "/usr".toList ∨ ∃ p, d.exists? p ∧ c = Paths.transPath d.toHost p rpath := by
  by_cases hu : path.take 4 = "/usr".toList
  case pos =>
    rw [refinePath, Paths.refinePath, if_pos hu] at hp
    exact .inl (hp ▸ hu)
  case neg =>
    cases hs : Paths.candidate usable d.toHost path tpath
    case none =>
      have hn : refinePath d.toHost path tpath rpath = [] :=
        Paths.refinePath_eq_nil_of_candidate_none hu hs
      exact absurd (hp.symm.trans hn) hc
    case some p =>
      obtain ⟨_, hr, _⟩ := Paths.candidate_designated hs (by simp_all [usable])
      refine .inr ⟨p, Option.isSome_of_eq_some hr, ?_⟩
      exact hp.symm.trans <| Paths.refinePath_eq_of_candidate hu hs

theorem refinePath_of_sourceOf {filename : Str}
    (h : sourceOf d tpath rpath filename = .ok (some c)) :
    c ≠ [] ∧ ∃ path, refinePath d.toHost path tpath rpath = c := by
  rw [sourceOf] at h
  split at h
  case isTrue => cases h
  case isFalse hn =>
    split at h
    case h_1 => cases h
    case h_2 size _ =>
      have h := Except.ok.inj h
      by_cases hs : 0 < size
      case neg => rw [if_neg hs] at h; cases h
      case pos =>
        rw [if_pos hs] at h
        exact Option.some.inj h ▸ ⟨hn, _, rfl⟩

theorem refinePath_of_mem_newPaths {paths ls : List Str}
    (hc : c ∈ newPaths d.toHost tpath rpath paths ls) :
    c ≠ [] ∧ ∃ path, refinePath d.toHost path tpath rpath = c := by
  rw [newPaths, List.mem_eraseDups, List.mem_filter] at hc
  obtain ⟨hm, hc⟩ := hc
  obtain ⟨hn, _⟩ := of_decide_eq_true hc
  obtain ⟨line, _, hl⟩ := List.mem_map.mp hm
  refine ⟨hn, ?_⟩
  rw [extractPath] at hl
  split at hl
  case isTrue  => exact ⟨_, hl⟩
  case isFalse => exact absurd hl.symm hn

theorem refinePath_of_mem_collectFiles {files : List Str}
    (h : collectFiles d l tpath rpath = .ok files) (hc : c ∈ files) :
    c ≠ [] ∧ ∃ path, refinePath d.toHost path tpath rpath = c := by
  have ⟨srcs, hsrcs, h⟩ := bind_eq_ok_iff.mp h
  have ⟨cmds, _, h⟩ := bind_eq_ok_iff.mp h
  have ⟨deps, _, h⟩ := bind_eq_ok_iff.mp h
  cases h
  rw [List.mem_mergeSort, List.mem_append, List.mem_append, extractAllHeaders_eq,
    extractAllSources_eq] at hc
  rcases hc with (hc | hc) | hc
  case inl.inl =>
    have ⟨o, ho, he⟩ := List.mem_filterMap.mp hc
    have he : o = some c := he
    have ⟨_, _, hs⟩ := exists_of_mem_mapM hsrcs ho
    exact refinePath_of_sourceOf <| he ▸ hs
  case inl.inr => exact refinePath_of_mem_newPaths hc
  case inr     => exact refinePath_of_mem_newPaths hc

-- The program only prints paths that lead to something, except for those below `/usr`, as long as
-- no path loses its meaning.
theorem exists_of_mem_main {args files : List Str} (h : main d l args = .ok files)
    (ha : paths args = .ok (tpath, rpath))
    (hf : ∀ p, d.exists? p → Paths.Faithful d.toHost rpath p) (hc : c ∈ files) :
    c.take 4 = "/usr".toList ∨ d.exists? c := by
  have ⟨_, _, ha', _, _, h⟩ := main_eq_ok.mp h
  cases ha.symm.trans ha'
  have ⟨hn, path, hp⟩ := refinePath_of_mem_collectFiles h hc
  cases exists_of_refinePath hp hn
  case inl hu => exact .inl hu
  case inr hp =>
    have ⟨p, he, hc⟩ := hp
    have ⟨loc, hr⟩ := Option.isSome_iff_exists.mp he
    have hs := Paths.resolve_transPath_eq_iff hr |>.mpr <| hf p he
    exact .inr <| hc ▸ Option.isSome_of_eq_some hs

-- Nothing is lost on a disk without links.
theorem faithful_of_no_link (hl : ∀ loc t, d.fs.node loc ≠ some (.link t)) (hc : d.exists? c) :
    Paths.Faithful d.toHost rpath c := by
  obtain ⟨loc, hr⟩ := Option.isSome_iff_exists.mp hc
  have hn : ¬d.islink c := by
    rw [Host.islink]
    split
    case h_1 t ht =>
      obtain ⟨loc, _, ht⟩ := Option.bind_eq_some_iff.mp ht
      exact absurd ht (hl loc t)
    case h_2 => exact Bool.false_ne_true
  rw [Paths.Faithful, if_neg hn]
  exact Host.normal_of_no_link hl hr

theorem exists_of_mem_main_of_example :
    ∃ files, main exampleDisk exampleListing [] = .ok files ∧
      ∃ p ∈ files, p.take 4 = "/usr".toList ∨ exampleDisk.exists? p := by
  have hl (loc : Location) (t : Str) : exampleDisk.fs.node loc ≠ some (.link t) := by
    intro ht
    have hn : ∀ e ∈ exampleEntries, ∀ t, e.2 ≠ .link t := by simp [exampleEntries]
    exact hn _ (FileSystem.mem_of_entry_eq ht) t rfl
  have hm : main exampleDisk exampleListing [] = .ok ["src/a.c".toList].mergeSort := by
    rfl
  have hc : "src/a.c".toList ∈ ["src/a.c".toList].mergeSort :=
    List.mem_mergeSort.mpr <| .head _
  exact ⟨_, hm, _, hc, exists_of_mem_main hm rfl (fun _ => faithful_of_no_link hl) hc⟩

end Reo
