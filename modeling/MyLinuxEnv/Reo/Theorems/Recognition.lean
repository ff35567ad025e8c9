import MyLinuxEnv.Posix.Layout
import MyLinuxEnv.Posix.Walk
import MyLinuxEnv.Paths.Theorems.Refine
import MyLinuxEnv.Reo.Theorems.ExtractPath

open Text Posix

namespace Reo

variable {h : Host} {line path tpath rpath u v : Str} {o o' : Option Str}

-- Names of files like those that are found on a line.
structure IsFile (u : Str) : Prop where
  dot  : '.' ∈ u
  last : ∃ c, [c] <:+ u ∧ c ≠ '/' ∧ c ≠ '.'

namespace IsFile

theorem of_suffix {e : Str} {c : Char} (hs : '.' :: e ++ [c] <:+ u) (hc : c ≠ '/' ∧ c ≠ '.') :
    IsFile u :=
  ⟨hs.subset <| by simp, c, (List.suffix_append _ _).trans hs, hc⟩

theorem of_isListed (h : isListed u) : IsFile u := by
  have ⟨c, hc, hs⟩ := List.any_eq_true.mp h
  refine of_suffix (e := []) (of_decide_eq_true hs) ?_
  constructor
  all_goals
    rintro rfl
    exact absurd hc (by decide)

theorem of_isSource (h : isSource u) : IsFile u := by
  have ⟨e, he, hs⟩ := List.any_eq_true.mp h
  have hs := of_decide_eq_true hs
  simp only [List.mem_cons, List.not_mem_nil, or_false] at he
  rcases he with rfl | rfl | rfl | rfl | rfl
  · exact of_suffix (e := []) (c := 'c') hs (by decide)
  · exact of_suffix (e := ['c', 'p']) (c := 'p') hs (by decide)
  · exact of_suffix (e := []) (c := 'h') hs (by decide)
  · exact of_suffix (e := ['h', 'p']) (c := 'p') hs (by decide)
  · exact of_suffix (e := []) (c := 'S') hs (by decide)

theorem ne_nil (h : IsFile u) : u ≠ [] :=
  List.ne_nil_of_mem h.dot

theorem exists_proper (h : IsFile u) : ∃ n ∈ comps u, Proper n := by
  have ⟨c, hs, hn, hd⟩ := h.last
  exact Posix.exists_proper hn hd <| hs.subset List.mem_cons_self

theorem infix_curdir (h : IsFile u) : curdir <:+: u := by
  have ⟨s, t, he⟩ := List.append_of_mem h.dot
  exact ⟨s, t, by rw [he, List.append_assoc]; rfl⟩

end IsFile

section Refine

theorem retarget_eq_self (h : tpath <:+: path) : Paths.retarget path tpath = path := by
  rw [Paths.retarget, if_neg]
  have hs := isSome_find?_iff.mpr h
  exact fun hn => by simp [hn] at hs

theorem retarget_eq_joinTarget (h : ¬tpath <:+: path) :
    Paths.retarget path tpath = Paths.joinTarget path tpath := by
  rw [Paths.retarget, if_pos]
  exact Option.not_isSome_iff_eq_none.mp fun hs => h <| isSome_find?_iff.mp hs

theorem refinePath_of_usr (hu : u.take 4 = "/usr".toList) : refinePath h u tpath rpath = u := by
  rw [refinePath, Paths.refinePath, if_pos hu]

theorem refinePath_of_exists (hu : u.take 4 ≠ "/usr".toList) (he : h.exists? u) :
    refinePath h u tpath rpath = Paths.transPath h u rpath := by
  rw [refinePath, Paths.refinePath, if_neg hu, if_pos he]

theorem refinePath_of_not_exists (hu : u.take 4 ≠ "/usr".toList) (he : ¬h.exists? u) :
    refinePath h u tpath rpath = if usable h (Paths.retarget u tpath)
      then Paths.transPath h (Paths.retarget u tpath) rpath else [] := by
  rw [refinePath, Paths.refinePath, if_neg hu, if_neg he]

theorem refinePath_ne_nil (hn : u ≠ []) (he : h.exists? u ∨ usable h (Paths.retarget u tpath)) :
    refinePath h u tpath rpath ≠ [] := by
  by_cases hu : u.take 4 = "/usr".toList
  case pos => rwa [refinePath_of_usr hu]
  case neg =>
    by_cases hx : h.exists? u
    case pos =>
      rw [refinePath_of_exists hu hx]
      exact Paths.transPath_ne_nil
    case neg =>
      rw [refinePath_of_not_exists hu hx, if_pos <| he.resolve_left hx]
      exact Paths.transPath_ne_nil

theorem not_usable_of_resolve (hr : h.resolve u = none) : ¬usable h u := by
  simp [usable, Host.exists?, hr]

theorem refinePath_eq_nil (hu : u.take 4 ≠ "/usr".toList) (hr : h.resolve u = none)
    (hi : tpath <:+: u) : refinePath h u tpath rpath = [] := by
  rw [refinePath_of_not_exists hu (by simp [Host.exists?, hr]), retarget_eq_self hi,
    if_neg <| not_usable_of_resolve hr]

end Refine

section Hosts

theorem isValidPath_curdir (h : Host) : Paths.isValidPath h curdir := by
  have hd : (h.fs.node h.cwd).any Node.isDir := h.cwd_dir
  simp [Paths.isValidPath, Host.isdir, Host.stat, Host.resolve, Host.lexists, Host.lookup_curdir,
    hd]

theorem isValidPath_of_reaches (hr : h.Reaches path) : Paths.isValidPath h path := by
  simp [Paths.isValidPath, Host.isdir, Host.stat, hr.resolve, hr.node, Node.isDir,
    Host.lexists, hr.lookup]

theorem usable_of_reaches (hr : h.Reaches path) : usable h path := by
  simp [usable, hr.exists, Host.getsize, Host.stat, hr.resolve, hr.node]

theorem resolve_transPath_of_reaches (hr : h.Reaches path) (rpath : Str) :
    h.resolve (Paths.transPath h path rpath) = some (abspath h.cwd path) := by
  rw [Paths.resolve_transPath_of_not_link hr.not_islink]
  have hs : h.fs.IsResolved ([] ++ abspath h.cwd path) := ⟨_, hr.node, by simp⟩
  exact FileSystem.walk_of_isResolved hs

end Hosts

-- On some host, two files lead to different results.
def Separable (o o' : Option Str) : Prop :=
  ∃ h tpath rpath, Paths.isValidPath h tpath ∧ pathOf h tpath rpath o ≠ pathOf h tpath rpath o'

theorem Separable.symm (hs : Separable o o') : Separable o' o :=
  have ⟨h, tpath, rpath, ht, hne⟩ := hs
  ⟨h, tpath, rpath, ht, hne.symm⟩

section Layouts

-- Every directory exists.
def full (depth : Nat) : Layout where
  depth  := depth
  dirs _ := true
  link   := none
  proper := nofun
  leaf   := nofun

-- The entry of the root that leads to the working directory is the only one.
def near (depth : Nat) : Layout where
  depth  := depth
  dirs   := (· = Layout.name depth)
  link   := none
  proper := nofun
  leaf   := nofun

-- Below that entry, there is nothing but the way to the working directory.
def far (depth : Nat) : Layout where
  depth  := depth
  dirs   := (· ≠ Layout.name depth)
  link   := none
  proper := nofun
  leaf   := nofun

-- The same, except that the working directory contains a link to the root.
def linked (depth : Nat) (a : Name) (ha : Proper a) : Layout where
  depth  := depth
  dirs   := (· ≠ Layout.name depth)
  link   := some a
  proper := fun _ he => Option.some.inj he ▸ ha
  leaf _ := by simp

variable {depth : Nat}

theorem full_reaches (hn : u ≠ []) (hu : u.length < depth) : (full depth).host.Reaches u := by
  by_cases ha : isabs u
  case pos => exact Layout.reaches_of_isabs (fun _ _ => rfl) ha <| Nat.le_of_lt hu
  case neg => exact Layout.reaches_of_not_isabs rfl rfl ha hn hu

theorem near_reaches (ha : ¬isabs u) (hn : u ≠ []) (hu : u.length < depth) :
    (near depth).host.Reaches u :=
  Layout.reaches_of_not_isabs rfl (by simp [near]) ha hn hu

theorem near_resolve (hf : IsFile u) (ha : isabs u) (hu : u.length < depth) :
    (near depth).host.resolve u = none :=
  Layout.resolve_eq_none_of_isabs (fun n hn => by simpa [near] using hn) ha (Nat.le_of_lt hu)
    hf.exists_proper

theorem far_reaches (ha : isabs u) (hu : u.length < depth) : (far depth).host.Reaches u :=
  Layout.reaches_of_isabs (fun n hn => by simpa [far] using hn) ha <| Nat.le_of_lt hu

theorem far_resolve (hf : IsFile u) (ha : ¬isabs u) (hu : u.length < depth) :
    (far depth).host.resolve u = none :=
  Layout.resolve_eq_none_of_not_isabs rfl (by simp [far]) ha hu hf.exists_proper

variable {a b : Name} {ns : List Name}

theorem linked_resolve (hp : Proper a) (hb : ¬isabs v) (hc : comps v = b :: ns) (hpb : Proper b)
    (hne : b ≠ a) : (linked depth a hp).host.resolve v = none := by
  have hn : (linked depth a hp).node ((linked depth a hp).cwd ++ [b]) = none := by
    rw [Layout.node, if_neg, if_neg]
    · rintro ⟨_, hd | hp⟩
      · exact absurd (hd _ rfl) (by simp [linked])
      · have hle := hp.length_le
        rw [List.length_append, List.length_singleton] at hle
        omega
    · exact fun he => hne <| List.singleton_inj.mp <| List.append_cancel_left <| Option.some.inj he
  rw [Host.resolve, Host.lookup, base, if_neg hb, hc]
  split
  case isTrue  => rfl
  case isFalse => exact FileSystem.walk_cons_of_none <| (enter_proper hpb _).symm ▸ hn

theorem linked_exists (hp : Proper a) (hf : IsFile u) (ha : ¬isabs u) (hc : comps u = a :: ns)
    (hu : u.length ≤ depth) : (linked depth a hp).host.exists? u := by
  let l := linked depth a hp
  have hlink : l.fs.node (enter l.cwd a) = some (.link ['/']) := by
    rw [enter_proper hp]
    exact if_pos rfl
  -- Behind the link, there are only directories.
  have hs : ∀ n ∈ [] :: [] :: ns, '/' ∉ n ∧ n ≠ Layout.name depth := by
    have hnil : '/' ∉ ([] : Name) ∧ [] ≠ Layout.name depth := ⟨by simp, by simp [Layout.name]⟩
    refine List.forall_mem_cons.mpr ⟨hnil, List.forall_mem_cons.mpr ⟨hnil, fun n hn => ?_⟩⟩
    have hn : n ∈ comps u := hc ▸ List.mem_cons_of_mem _ hn
    exact ⟨no_slash_of_mem_comps hn, Layout.ne_name (l := l) hu hn⟩
  have hw : l.fs.walk true 39 [] ([] :: [] :: ns) = some (([] :: [] :: ns).foldl enter []) := by
    refine And.left <| FileSystem.walk_eq_foldl (R := fun _ => l.Outside)
      (fun _ _ h => Layout.isDir_of_node h.node) (fun _ _ n hn h => ?_) ⟨by simp, by simp⟩
    obtain ⟨hs, hne⟩ := hs n hn
    exact h.enter hs fun _ => ⟨by simpa [l, linked] using hne, hne⟩
  have he : l.host.resolve u = l.fs.walk true 39 [] ([] :: [] :: ns) := by
    rw [Host.resolve, Host.lookup, if_neg hf.ne_nil, base, if_neg ha, hc]
    exact FileSystem.walk_cons_of_link l.host.cwd_dir hlink
  exact Option.isSome_of_eq_some <| he.trans hw

end Layouts

section Cases

theorem separable_none (hu : IsFile u) : Separable (some u) none := by
  have hr := full_reaches hu.ne_nil <| Nat.lt_succ_self u.length
  refine ⟨(full (u.length + 1)).host, curdir, curdir, isValidPath_curdir _, ?_⟩
  exact refinePath_ne_nil hu.ne_nil <| .inl hr.exists

theorem isabs_refinePath (hu : u.take 4 ≠ "/usr".toList) :
    isabs (refinePath h u tpath rpath) = false := by
  have hrel (p q : Str) : isabs (h.relpath p q) = false :=
    Bool.eq_false_iff.mpr <| mt nil_mem_comps_of_isabs <|
      nil_not_mem_comps_relpath h.forall_proper_cwd p q
  have htrans (p : Str) : isabs (Paths.transPath h p rpath) = false := by
    rw [Paths.transPath]
    split <;> exact hrel ..
  by_cases hx : h.exists? u
  case pos =>
    rw [refinePath_of_exists hu hx]
    exact htrans u
  case neg =>
    rw [refinePath_of_not_exists hu hx]
    split
    case isTrue  => exact htrans _
    case isFalse => rfl

-- What begins with `/usr` is kept as it is, whereas other results are relative.
theorem separable_of_usr (hu : u.take 4 = "/usr".toList) (hne : u ≠ v) :
    Separable (some u) (some v) := by
  refine ⟨Paths.exampleHost, curdir, curdir, isValidPath_curdir _, fun hp => ?_⟩
  have he : u = refinePath Paths.exampleHost v curdir curdir := (refinePath_of_usr hu).symm.trans hp
  by_cases hv : v.take 4 = "/usr".toList
  case pos => exact hne <| he.trans <| refinePath_of_usr hv
  case neg =>
    have ha : isabs u = true := by
      cases u
      case nil  => contradiction
      case cons c _ =>
        have hc : c = '/' := (List.cons.inj hu).left
        exact decide_eq_true <| congrArg some hc
    rw [he, isabs_refinePath hv] at ha
    contradiction

theorem separable_of_missing (hu : u ≠ []) (hv : v.take 4 ≠ "/usr".toList)
    (ht : Paths.isValidPath h tpath) (hr : h.resolve v = none) (hi : tpath <:+: v)
    (hx : h.exists? u ∨ usable h (Paths.retarget u tpath)) : Separable (some u) (some v) := by
  refine ⟨h, tpath, curdir, ht, fun he => refinePath_ne_nil hu hx <| he.trans ?_⟩
  exact refinePath_eq_nil hv hr hi

theorem separable_of_isabs (hu : IsFile u) (hv : IsFile v) (hvs : v.take 4 ≠ "/usr".toList)
    (ha : isabs u) (hb : ¬isabs v) : Separable (some u) (some v) := by
  have hr : (far (u.length + v.length + 1)).host.Reaches u := far_reaches ha (by omega)
  exact separable_of_missing hu.ne_nil hvs (isValidPath_curdir _)
    (far_resolve hv hb (by omega)) hv.infix_curdir <| .inl hr.exists

theorem eq_false_of_mem_head?_dropWhile {p : Char → Bool} {c : Char}
    (hc : c ∈ (u.dropWhile p).head?) : p c = false := by
  have hd := List.head?_dropWhile_not p u
  rw [Option.mem_def.mp hc] at hd
  exact hd

theorem exists_cons_of_not_infix {p : Char → Bool} (hi : ¬u.dropWhile p <:+: v) :
    ∃ c w, u.dropWhile p = c :: w ∧ p c = false := by
  cases hd : u.dropWhile p
  case nil      => exact absurd (hd ▸ List.nil_infix) hi
  case cons c w =>
    exact ⟨c, w, rfl, eq_false_of_mem_head?_dropWhile (u := u) (by rw [hd]; rfl)⟩

-- Whatever the first parts of two files are, what follows them can be found within the other file
-- only if it is the same.
theorem dropWhile_not_part {p : Char → Bool} (hne : u.dropWhile p ≠ v.dropWhile p) :
    ¬u.dropWhile p <:+: v ∨ ¬v.dropWhile p <:+: u := by
  have hi {s t : Str} (h : s.dropWhile p <:+: t) : s.dropWhile p <:+: t.dropWhile p := by
    induction t
    case nil => exact h
    case cons d t hi =>
      cases hd : p d
      case false => rwa [List.dropWhile_cons_of_neg (by simp [hd])]
      case true  =>
        rw [List.dropWhile_cons_of_pos hd]
        rcases List.infix_cons_iff.mp h with hp | h
        · rcases List.prefix_cons_iff.mp hp with hs | ⟨w, hs, _⟩
          · exact hs ▸ List.nil_infix
          · have hf := eq_false_of_mem_head?_dropWhile (u := s) (c := d) (by rw [hs]; rfl)
            exact absurd (hd.symm.trans hf) (by decide)
        · exact hi h
  rw [← not_and_or]
  rintro ⟨h₁, h₂⟩
  exact hne <| (hi h₁).sublist.antisymm (hi h₂).sublist

theorem IsFile.joinTarget (hu : IsFile u) {t : Str} (ht : t <:+ u) :
    Paths.joinTarget path t = t ++ '/' :: path := by
  have ⟨c, hc, hs, _⟩ := hu.last
  rw [Paths.joinTarget, if_neg, List.append_assoc, List.singleton_append]
  intro hl
  have ⟨s, he⟩ := List.getLast?_eq_some_iff.mp hl
  have hsuf : ['/'] <:+ u := (he ▸ List.suffix_append s ['/']).trans ht
  have hcs := List.suffix_of_suffix_length_le hc hsuf Nat.le.refl
  exact hs <| List.mem_singleton.mp <| hcs.subset List.mem_cons_self

-- A target path which is part of one of two missing files, but not of the other, leads to a
-- directory in which only the other one is found.
theorem separable_of_part {t : Str} (hu : IsFile u) (hv : v ≠ []) (hus : u.take 4 ≠ "/usr".toList)
    (ht : t <:+ u) (hi : ¬t <:+: v) (hr : h.Reaches t)
    (hm : h.resolve u = none) (hj : h.Reaches (t ++ '/' :: v)) : Separable (some v) (some u) := by
  refine separable_of_missing hv hus (isValidPath_of_reaches hr) hm ht.isInfix <| .inr ?_
  rw [retarget_eq_joinTarget hi, hu.joinTarget ht]
  exact usable_of_reaches hj

theorem separable_of_slashes (hu : IsFile u) (hv : IsFile v) (hus : u.take 4 ≠ "/usr".toList)
    (ha : isabs u) (hi : ¬u.dropWhile (· = '/') <:+: v) : Separable (some v) (some u) := by
  have ht : u.dropWhile (· = '/') <:+ u := List.dropWhile_suffix _
  have hl := ht.length_le
  have ⟨c, w, hd, hc⟩ := exists_cons_of_not_infix hi
  have hb {s : Str} : ¬isabs (u.dropWhile (· = '/') ++ s) := by
    rw [hd]
    simpa [isabs] using hc
  have hn : u.dropWhile (· = '/') ≠ [] := List.ne_nil_of_mem (hd ▸ List.mem_cons_self)
  refine separable_of_part (h := (near (u.length + v.length + 2)).host) hu hv.ne_nil hus ht hi
    (near_reaches (by simpa using hb (s := [])) hn (by omega)) (near_resolve hu ha (by omega)) <|
    near_reaches hb (by simp) ?_
  rw [List.length_append, List.length_cons]
  omega

theorem separable_of_tails (hu : IsFile u) (hv : IsFile v) (hus : u.take 4 ≠ "/usr".toList)
    (ha : ¬isabs u) (hi : ¬u.dropWhile (· ≠ '/') <:+: v) : Separable (some v) (some u) := by
  have ht : u.dropWhile (· ≠ '/') <:+ u := List.dropWhile_suffix _
  have hl := ht.length_le
  have ⟨c, w, hd, hc⟩ := exists_cons_of_not_infix hi
  have hb {s : Str} : isabs (u.dropWhile (· ≠ '/') ++ s) := by
    rw [hd]
    simpa [isabs] using hc
  refine separable_of_part (h := (far (u.length + v.length + 2)).host) hu hv.ne_nil hus ht hi
    (far_reaches (by simpa using hb (s := [])) (by omega)) (far_resolve hu ha (by omega)) <|
    far_reaches hb ?_
  rw [List.length_append, List.length_cons]
  omega

variable {a b : Name} {ns : List Name}

-- The first file is behind a link, and the second one is not there.
theorem separable_of_proper (hu : IsFile u) (hv : IsFile v) (hvs : v.take 4 ≠ "/usr".toList)
    (ha : ¬isabs u) (hb : ¬isabs v) (hcu : comps u = a :: ns) (hcv : comps v = b :: ns)
    (hpa : Proper a) (hpb : Proper b) (hne : a ≠ b) : Separable (some u) (some v) :=
  separable_of_missing hu.ne_nil hvs (isValidPath_curdir _)
    (linked_resolve hpa hb hcv hpb hne.symm) hv.infix_curdir <| .inl <|
      linked_exists hpa hu ha hcu <| Nat.le_refl u.length

-- On a full disk, both files exist, but at different depths.
theorem separable_of_depth (hu : IsFile u) (hv : IsFile v) (hus : u.take 4 ≠ "/usr".toList)
    (hvs : v.take 4 ≠ "/usr".toList) (ha : ¬isabs u) (hb : ¬isabs v) (hcu : comps u = a :: ns)
    (hcv : comps v = b :: ns)
    (hne : ∀ cur, cur ≠ [] → (enter cur a).length ≠ (enter cur b).length) :
    Separable (some u) (some v) := by
  let l := full (u.length + v.length + 2)
  have hru : l.host.Reaches u := full_reaches hu.ne_nil (by omega)
  have hrv : l.host.Reaches v := full_reaches hv.ne_nil (by omega)
  refine ⟨l.host, curdir, curdir, isValidPath_curdir _, fun he => ?_⟩
  have he : Paths.transPath l.host u curdir = Paths.transPath l.host v curdir :=
    (refinePath_of_exists hus hru.exists).symm.trans <| he.trans <|
      refinePath_of_exists hvs hrv.exists
  have hs : abspath l.cwd u = abspath l.cwd v := by
    refine Option.some.inj <| (resolve_transPath_of_reaches hru curdir).symm.trans ?_
    rw [he, resolve_transPath_of_reaches hrv]
    rfl
  rw [abspath, abspath, base, base, if_neg ha, if_neg hb, hcu, hcv] at hs
  have hle := (comps_length_le u).left
  rw [hcu, List.length_cons] at hle
  have hlen (n : Name) : ns.length ≤ (enter l.cwd n).length := by
    have hc : l.cwd.length = u.length + v.length + 2 + 1 := List.length_replicate
    rw [enter]
    split
    case isTrue => omega
    case isFalse =>
      split
      case isTrue  => rw [List.length_dropLast]; omega
      case isFalse => rw [List.length_append]; omega
  have hl := length_foldl_enter (hlen a) (hlen b)
  rw [List.foldl_cons, List.foldl_cons] at hs
  rw [hs] at hl
  exact hne l.cwd (by simp [Layout.cwd]) (Nat.add_left_cancel hl).symm

theorem separable_of_heads (hu : IsFile u) (hv : IsFile v) (hus : u.take 4 ≠ "/usr".toList)
    (hvs : v.take 4 ≠ "/usr".toList) (ha : ¬isabs u) (hb : ¬isabs v) (hne : u ≠ v)
    (ht : u.dropWhile (· ≠ '/') = v.dropWhile (· ≠ '/')) : Separable (some u) (some v) := by
  have hcu := comps_eq_cons u
  have hcv := comps_eq_cons v
  rw [← ht] at hcv
  have hn {w : Str} (hw : IsFile w) (hr : ¬isabs w) : w.takeWhile (· ≠ '/') ≠ [] := by
    cases w
    case nil => exact absurd rfl hw.ne_nil
    case cons c w =>
      have hc : c ≠ '/' := by simpa [isabs] using hr
      simp [hc]
  have hab : u.takeWhile (· ≠ '/') ≠ v.takeWhile (· ≠ '/') := by
    intro he
    refine hne ?_
    rw [← List.takeWhile_append_dropWhile (p := (· ≠ '/')) (l := u), he, ht,
      List.takeWhile_append_dropWhile]
  have hs (w : Str) : '/' ∉ w.takeWhile (· ≠ '/') := fun hm => by
    simpa using List.mem_takeWhile_imp hm
  by_cases hp : Proper (u.takeWhile (· ≠ '/')) ∧ Proper (v.takeWhile (· ≠ '/'))
  case pos => exact separable_of_proper hu hv hvs ha hb hcu hcv hp.left hp.right hab
  case neg =>
    refine separable_of_depth hu hv hus hvs ha hb hcu hcv fun cur hcur => ?_
    exact length_enter_ne ⟨hn hu ha, hs u⟩ ⟨hn hv hb, hs v⟩ hab hp hcur

-- Absolute paths that differ in the number of slashes at their beginning only.
structure Alike (u v : Str) : Prop where
  left   : isabs u ∧ u.take 4 ≠ "/usr".toList
  right  : isabs v ∧ v.take 4 ≠ "/usr".toList
  parts  : u.dropWhile (· = '/') = v.dropWhile (· = '/')

theorem separable_or_alike (hu : IsFile u) (hv : IsFile v) (hne : u ≠ v) :
    Separable (some u) (some v) ∨ Alike u v := by
  by_cases hus : u.take 4 = "/usr".toList
  case pos => exact .inl <| separable_of_usr hus hne
  by_cases hvs : v.take 4 = "/usr".toList
  case pos => exact .inl <| (separable_of_usr hvs hne.symm).symm
  by_cases ha : isabs u
  case pos =>
    by_cases hb : isabs v
    case neg => exact .inl <| separable_of_isabs hu hv hvs ha hb
    case pos =>
      by_cases hp : u.dropWhile (· = '/') = v.dropWhile (· = '/')
      case pos => exact .inr ⟨⟨ha, hus⟩, ⟨hb, hvs⟩, hp⟩
      case neg =>
        rcases dropWhile_not_part hp with hi | hi
        · exact .inl (separable_of_slashes hu hv hus ha hi).symm
        · exact .inl <| separable_of_slashes hv hu hvs hb hi
  case neg =>
    by_cases hb : isabs v
    case pos => exact .inl (separable_of_isabs hv hu hus hb ha).symm
    case neg =>
      by_cases ht : u.dropWhile (· ≠ '/') = v.dropWhile (· ≠ '/')
      case pos => exact .inl <| separable_of_heads hu hv hus hvs ha hb hne ht
      case neg =>
        rcases dropWhile_not_part ht with hi | hi
        · exact .inl (separable_of_tails hu hv hus ha hi).symm
        · exact .inl <| separable_of_tails hv hu hvs hb hi

end Cases

section Alike

theorem Alike.same (hs : Alike u v) (h : Host) (p : Str) : h.Same (p ++ u) (p ++ v) := by
  have hcut {w : Str} (hw : isabs w) :
      h.Same (p ++ w) (p ++ '/' :: w.dropWhile (· = '/')) := by
    cases w
    case nil => contradiction
    case cons c w =>
      have hc : c = '/' := by simpa [isabs] using hw
      subst hc
      rw [List.dropWhile_cons_of_pos (by decide)]
      exact h.same_dropWhile p w
  exact (hcut hs.left.left).trans <| hs.parts ▸ (hcut hs.right.left).symm

theorem same_joinTarget (hs : Alike u v) (h : Host) (tpath : Str) :
    h.Same (Paths.joinTarget u tpath) (Paths.joinTarget v tpath) := by
  rw [Paths.joinTarget, Paths.joinTarget]
  split
  case isTrue  => exact hs.same h tpath
  case isFalse => exact hs.same h <| tpath ++ ['/']

theorem transPath_of_same (hs : h.Same u v) (hx : h.exists? u) :
    Paths.transPath h u rpath = Paths.transPath h v rpath := by
  have ⟨loc, hr⟩ := Option.isSome_iff_exists.mp hx
  have hr' : h.resolve v = some loc := (hs.lookup true).symm.trans hr
  rw [Paths.transPath, Paths.transPath, hs.islink, Host.realpath_of_resolve hr,
    Host.realpath_of_resolve hr']
  split
  case isTrue  => rfl
  case isFalse => rw [Host.relpath, Host.relpath, Posix.relpath, Posix.relpath, hs.abspath]

-- A directory below which a file is found that does not exist otherwise.
def Shelters (t u : Str) : Prop :=
  ∃ h : Host, Paths.isValidPath h t ∧ ¬h.exists? u ∧ usable h (t ++ u)

theorem usable_of_same (hs : h.Same u v) : usable h u = usable h v := by
  rw [usable, usable, hs.exists, Host.getsize, Host.getsize, Host.stat, Host.stat, Host.resolve,
    Host.resolve, hs.lookup]

theorem usable_joinTarget (ha : isabs u) (tpath : Str) :
    usable h (Paths.joinTarget u tpath) = usable h (tpath ++ u) := by
  rw [Paths.joinTarget]
  split
  case isTrue  => rfl
  case isFalse =>
    cases u
    case nil => contradiction
    case cons c u =>
      have hc : c = '/' := by simpa [isabs] using ha
      rw [hc, List.append_assoc, List.singleton_append]
      exact usable_of_same <| h.same_slash tpath u

-- A target path that is part of the file does not help.
theorem usable_retarget (ha : isabs u) (hx : ¬h.exists? u) (tpath : Str) :
    usable h (Paths.retarget u tpath) ↔ ¬tpath <:+: u ∧ usable h (tpath ++ u) := by
  by_cases hi : tpath <:+: u
  case pos =>
    rw [retarget_eq_self hi]
    exact iff_of_false (fun hu => hx (Bool.and_eq_true_iff.mp hu).left) fun hu => hu.left hi
  case neg =>
    rw [retarget_eq_joinTarget hi, usable_joinTarget ha]
    exact (and_iff_right hi).symm

-- Whether the target path helps to find them is all that can distinguish such paths.
theorem refinePath_eq_iff_of_alike (hs : Alike u v) :
    refinePath h u tpath rpath = refinePath h v tpath rpath ↔
      (¬h.exists? u → usable h (tpath ++ u) → (tpath <:+: u ↔ tpath <:+: v)) := by
  have huv : h.Same u v := hs.same h []
  have hj : usable h (tpath ++ u) = usable h (tpath ++ v) := usable_of_same <| hs.same h tpath
  by_cases hx : h.exists? u
  case pos =>
    rw [refinePath_of_exists hs.left.right hx,
      refinePath_of_exists hs.right.right (huv.exists ▸ hx)]
    exact iff_of_true (transPath_of_same huv hx) fun hn => absurd hx hn
  case neg =>
    have hxv : ¬h.exists? v := huv.exists ▸ hx
    have hu := usable_retarget hs.left.left hx tpath
    have hv := usable_retarget hs.right.left hxv tpath
    rw [← hj] at hv
    rw [refinePath_of_not_exists hs.left.right hx, refinePath_of_not_exists hs.right.right hxv]
    by_cases hs₁ : usable h (tpath ++ u)
    case neg =>
      rw [if_neg fun h => hs₁ (hu.mp h).right, if_neg fun h => hs₁ (hv.mp h).right]
      exact iff_of_true rfl fun _ h => absurd h hs₁
    case pos =>
      by_cases hiu : tpath <:+: u <;> by_cases hiv : tpath <:+: v
      · rw [if_neg fun h => (hu.mp h).left hiu, if_neg fun h => (hv.mp h).left hiv]
        exact iff_of_true rfl fun _ _ => iff_of_true hiu hiv
      · rw [if_neg fun h => (hu.mp h).left hiu, if_pos <| hv.mpr ⟨hiv, hs₁⟩]
        exact iff_of_false Paths.transPath_ne_nil.symm fun he => hiv <| (he hx hs₁).mp hiu
      · rw [if_pos <| hu.mpr ⟨hiu, hs₁⟩, if_neg fun h => (hv.mp h).left hiv]
        exact iff_of_false Paths.transPath_ne_nil fun he => hiu <| (he hx hs₁).mpr hiv
      · rw [if_pos <| hu.mpr ⟨hiu, hs₁⟩, if_pos <| hv.mpr ⟨hiv, hs₁⟩,
          retarget_eq_joinTarget hiu, retarget_eq_joinTarget hiv]
        refine iff_of_true (transPath_of_same (same_joinTarget hs h tpath) ?_) fun _ _ =>
          iff_of_false hiu hiv
        have hux := usable_joinTarget (h := h) hs.left.left tpath
        exact (Bool.and_eq_true_iff.mp <| hux.trans hs₁).left

end Alike

theorem isFile_of_picked (hp : picked line = some u) : IsFile u :=
  .of_isListed <| List.find?_some hp

theorem isFile_of_intended (hi : intended line = some u) : IsFile u :=
  .of_isSource <| List.find?_some hi

-- Only absolute paths with different numbers of slashes at the beginning can be mistaken for each
-- other without a consequence.
theorem eq_or_alike (he : ∀ h tpath rpath, Paths.isValidPath h tpath →
    extractPath h line tpath rpath = pathOf h tpath rpath (intended line)) :
    picked line = intended line ∨
      ∃ u v, picked line = some u ∧ intended line = some v ∧ u ≠ v ∧ Alike u v := by
  have hns : ¬Separable (picked line) (intended line) := fun ⟨h, tpath, rpath, ht, hne⟩ =>
    hne <| (extractPath_eq ..).symm.trans <| he h tpath rpath ht
  cases hp : picked line
  case none =>
    cases hi : intended line
    case none   => exact .inl rfl
    case some v =>
      rw [hp, hi] at hns
      exact absurd (separable_none <| isFile_of_intended hi).symm hns
  case some u =>
    cases hi : intended line
    case none   =>
      rw [hp, hi] at hns
      exact absurd (separable_none <| isFile_of_picked hp) hns
    case some v =>
      rw [hp, hi] at hns
      by_cases hne : u = v
      case pos => exact .inl <| congrArg some hne
      case neg =>
        have hs := separable_or_alike (isFile_of_picked hp) (isFile_of_intended hi) hne
        exact .inr ⟨u, v, rfl, rfl, hne, hs.resolve_left hns⟩

-- There are none of these if no two slashes stand side by side.
theorem Alike.eq_of_not_infix (hs : Alike u v) (hu : ¬"//".toList <:+: u)
    (hv : ¬"//".toList <:+: v) : u = v := by
  have hcut {w : Str} (ha : isabs w) (hi : ¬"//".toList <:+: w) :
      w = '/' :: w.dropWhile (· = '/') := by
    obtain _ | ⟨c, _ | ⟨d, w⟩⟩ := w
    · contradiction
    · simp_all [isabs]
    · have hc : c = '/' := by simpa [isabs] using ha
      have hd : d ≠ '/' := fun hd => hi ⟨[], w, by rw [hc, hd]; rfl⟩
      rw [hc, List.dropWhile_cons_of_pos (by decide),
        List.dropWhile_cons_of_neg (by simpa using hd)]
  rw [hcut hs.left.left hu, hs.parts, ← hcut hs.right.left hv]

-- On a line without such slashes, what is picked has to be the intended file.
theorem extractPath_eq_iff_of_not_infix (hl : ¬"//".toList <:+: line) :
    (∀ h tpath rpath, Paths.isValidPath h tpath →
      extractPath h line tpath rpath = pathOf h tpath rpath (intended line)) ↔
    picked line = intended line := by
  constructor
  case mpr =>
    intro he h tpath rpath _
    rw [extractPath_eq, he]
  case mp =>
    intro he
    refine (eq_or_alike he).resolve_right fun ⟨u, v, hp, hi, hne, hs⟩ => hne ?_
    have hu := (cuts_pieces line).parts u <| List.mem_of_find?_eq_some hp
    have hv := (cuts_splitOnP _ line).parts v <| List.mem_of_find?_eq_some hi
    exact hs.eq_of_not_infix (fun h => hl <| h.trans hu) fun h => hl <| h.trans hv

-- What is picked from a line leads to the path of the intended file on every host if and only if it
-- is that file. The exception are absolute paths which only differ in the slashes at the beginning.
-- What tells them apart is a target path that is part of just one of them, provided that the file
-- can be found below such a path while it does not exist itself.
theorem extractPath_eq_iff (line : Str) :
    (∀ h tpath rpath, Paths.isValidPath h tpath →
      extractPath h line tpath rpath = pathOf h tpath rpath (intended line)) ↔
    picked line = intended line ∨
      ∃ u v, picked line = some u ∧ intended line = some v ∧ Alike u v ∧
        ∀ t, Shelters t u → (t <:+: u ↔ t <:+: v) := by
  constructor
  case mp =>
    intro he
    rcases eq_or_alike he with hp | ⟨u, v, hp, hi, _, hs⟩
    · exact .inl hp
    · refine .inr ⟨u, v, hp, hi, hs, fun t ⟨h, ht, hx, hu⟩ => ?_⟩
      have hr := (extractPath_eq ..).symm.trans <| he h t curdir ht
      rw [hp, hi] at hr
      exact (refinePath_eq_iff_of_alike hs).mp hr hx hu
  case mpr =>
    rintro (he | ⟨u, v, hp, hi, hs, he⟩) h tpath rpath ht
    · rw [extractPath_eq, he]
    · rw [extractPath_eq, hp, hi]
      exact (refinePath_eq_iff_of_alike hs).mpr fun hx hu => he tpath ⟨h, ht, hx, hu⟩

-- The longer extensions are not recognized.
theorem extractPath_ne :
    ¬∀ (h : Host) (line tpath rpath : Str), Paths.isValidPath h tpath →
      extractPath h line tpath rpath = pathOf h tpath rpath (intended line) := by
  intro hc
  exact absurd
    (hc Paths.exampleHost "/usr/include/a.hpp\n".toList ".".toList ".".toList (by decide))
    (by decide)

-- In particular, a line is handled well if the first word with a source file is plain.
theorem extractPath_of_plainHit (hp : PlainHit line) :
    extractPath h line tpath rpath = pathOf h tpath rpath (intended line) := by
  rw [extractPath_eq, picked_eq_intended hp]

end Reo
