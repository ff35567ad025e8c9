import MyLinuxEnv.Posix.Disk

namespace Posix

open Text

section Components

variable {cwd : Location} {path top : Str} {n : Name}

-- A component that leads to another place.
def leadsOn (n : Name) : Bool :=
  n ≠ [] ∧ n ≠ curdir

theorem foldl_enter_of_pardir_not_mem {ns : List Name} (h : pardir ∉ ns) (cur : Location) :
    ns.foldl enter cur = cur ++ ns.filter leadsOn := by
  induction ns generalizing cur
  case nil => simp
  case cons n ns hi =>
    have ⟨hn, hns⟩ := List.ne_and_not_mem_of_not_mem_cons h
    rw [List.foldl_cons, hi hns, enter, List.filter_cons]
    by_cases hc : n = [] ∨ n = curdir
    case pos => cases hc <;> simp [leadsOn, *]
    case neg => simp_all [leadsOn, hn.symm]

theorem abspath_of_pardir_not_mem (h : pardir ∉ comps path) :
    abspath cwd path = base cwd path ++ (comps path).filter leadsOn :=
  foldl_enter_of_pardir_not_mem h _

theorem comps_append_slash (path top : Str) :
    comps (top ++ '/' :: path) = comps top ++ comps path :=
  List.splitOn_append_cons_self _ _

theorem joinPath_ne_nil (hn : n ≠ []) : joinPath top n ≠ [] := by
  rw [joinPath]
  split <;> simp [hn]

-- The components in front of the last one.
theorem exists_comps_joinPath (ht : top ≠ []) (hn : '/' ∉ n) :
    ∃ ns, comps (joinPath top n) = ns ++ [n] ∧ isabs (joinPath top n) = isabs top ∧
      (comps top = ns ∨ comps top = ns ++ [[]]) := by
  have hc : comps n = [n] := List.splitOn_eq_singleton hn
  have ha (x : Str) : isabs (top ++ x) = isabs top := by
    cases top
    case nil => contradiction
    case cons => rfl
  simp only [joinPath]
  split
  case isTrue hs =>
    have ⟨t, he⟩ := List.getLast?_eq_some_iff.mp hs
    refine ⟨comps t, ?_, ha n, .inr ?_⟩
    case refine_1 => rw [he, List.append_assoc, List.singleton_append, comps_append_slash, hc]
    case refine_2 => exact he ▸ comps_append_slash [] t
  case isFalse =>
    refine ⟨comps top, ?_, ?_, .inl rfl⟩
    case refine_1 => rw [List.append_assoc, List.singleton_append, comps_append_slash, hc]
    case refine_2 => rw [List.append_assoc, ha]

theorem abspath_joinPath (ht : top ≠ []) (hn : Proper n) :
    abspath cwd (joinPath top n) = abspath cwd top ++ [n] := by
  have ⟨ns, hc, ha, ho⟩ := exists_comps_joinPath ht hn.no_slash
  have he : (comps top).foldl enter (base cwd top) = ns.foldl enter (base cwd top) := by
    cases ho
    case inl ho => rw [ho]
    case inr ho => rw [ho, List.foldl_append, List.foldl_cons, enter_nil, List.foldl_nil]
  rw [abspath, abspath, hc, he, base, base, ha, List.foldl_append]
  exact enter_proper hn _

end Components

namespace FileSystem

variable {fs : FileSystem} {cur loc loc' : Location} {ns rest : List Name} {k : Nat} {follow : Bool}

-- A walk goes on from the place at which another one has ended. What it is to reach from there
-- must not depend on how many links have been replaced.
theorem walkWith_append {e e' : Location → List Name → Option Location} (hr : rest ≠ [])
    (he : ∀ cur ns, e cur ns = some loc → e' cur (ns ++ rest) = some loc')
    (hw : fs.walkWith follow e' loc rest = some loc') (h : fs.walkWith true e cur ns = some loc) :
    fs.walkWith follow e' cur (ns ++ rest) = some loc' := by
  induction ns generalizing cur
  case nil =>
    cases h
    exact hw
  case cons n ns hi =>
    simp only [walkWith] at h
    split at h
    case isFalse => contradiction
    case isTrue hd =>
      cases hx : fs.node (enter cur n)
      case none => simp [hx] at h
      case some x =>
        cases x
        case link t =>
          have h := he (base cur t) (comps t ++ ns) (by simpa [hx] using h)
          simpa [walkWith, hd, hx, hr] using h
        all_goals simpa [walkWith, hd, hx] using hi (by simpa [hx] using h)

theorem walk_append (h : fs.walk true k cur ns = some loc) (hr : rest ≠ [])
    (hw : ∀ k, fs.walk follow k loc rest = some loc') :
    fs.walk follow k cur (ns ++ rest) = some loc' := by
  induction k generalizing cur ns
  case zero      => exact walkWith_append hr (by simp) (hw 0) h
  case succ k hi => exact walkWith_append hr (fun _ _ => hi) (hw (k + 1)) h

-- An entry which is not a link is found no matter whether links are followed.
theorem walk_entry {n : Name} {x : Node} (hx : fs.node (loc ++ [n]) = some x)
    (hl : ∀ t, x ≠ .link t) : fs.walk follow k loc [n] = some (loc ++ [n]) := by
  have hs := Option.isSome_of_eq_some hx
  have he := enter_proper (proper_of_entry hs) loc
  rw [walk_cons_of_not_link (isDir_of_entry hs) (he ▸ hx) hl, walk_nil, he]

-- Components that lead nowhere else can be left out.
theorem walkWith_filter {e : Location → List Name → Option Location}
    (he : ∀ cur ns rest, e cur (ns ++ rest) = some loc →
      e cur (ns ++ rest.filter leadsOn) = some loc)
    (h : fs.walkWith true e cur rest = some loc) :
    fs.walkWith true e cur (rest.filter leadsOn) = some loc := by
  induction rest generalizing cur
  case nil => exact h
  case cons n rest hi =>
    simp only [walkWith] at h
    split at h
    case isFalse => contradiction
    case isTrue hd =>
      by_cases hn : n = [] ∨ n = curdir
      case pos =>
        obtain ⟨_, hx⟩ := isDir_iff.mp hd
        have hc : enter cur n = cur := by rw [enter, if_pos hn]
        rw [List.filter_cons_of_neg (by cases hn <;> simp [leadsOn, *])]
        exact hi <| by simpa [hc, hx] using h
      case neg =>
        rw [List.filter_cons_of_pos (by simpa [leadsOn] using hn)]
        cases hx : fs.node (enter cur n)
        case none => simp [hx] at h
        case some x =>
          cases x
          case link t =>
            simpa [walkWith, hd, hx] using he (base cur t) (comps t) rest (by simpa [hx] using h)
          all_goals simpa [walkWith, hd, hx] using hi (by simpa [hx] using h)

theorem walkWith_append_filter {e : Location → List Name → Option Location}
    (he : ∀ cur ns rest, e cur (ns ++ rest) = some loc →
      e cur (ns ++ rest.filter leadsOn) = some loc)
    (h : fs.walkWith true e cur (ns ++ rest) = some loc) :
    fs.walkWith true e cur (ns ++ rest.filter leadsOn) = some loc := by
  induction ns generalizing cur
  case nil => exact walkWith_filter he h
  case cons n ns hi =>
    simp only [List.cons_append, walkWith] at h
    split at h
    case isFalse => contradiction
    case isTrue hd =>
      cases hx : fs.node (enter cur n)
      case none => simp [hx] at h
      case some x =>
        cases x
        case link t =>
          have h := he (base cur t) (comps t ++ ns) rest (by simpa [hx] using h)
          simpa [walkWith, hd, hx] using h
        all_goals simpa [walkWith, hd, hx] using hi (by simpa [hx] using h)

theorem walk_append_filter (ns : List Name)
    (h : fs.walk true k cur (ns ++ rest) = some loc) :
    fs.walk true k cur (ns ++ rest.filter leadsOn) = some loc := by
  induction k generalizing cur ns rest
  case zero      => exact walkWith_append_filter (by simp) h
  case succ k hi => exact walkWith_append_filter (fun _ _ _ => hi _) h

-- An empty component in front of others makes no difference.
theorem walkWith_insert_nil {e : Location → List Name → Option Location} (hr : rest ≠ [])
    (he : ∀ cur ns, e cur (ns ++ [] :: rest) = e cur (ns ++ rest)) :
    fs.walkWith follow e cur (ns ++ [] :: rest) = fs.walkWith follow e cur (ns ++ rest) := by
  induction ns generalizing cur
  case nil =>
    rw [List.nil_append, List.nil_append, walkWith, enter_nil]
    split
    case isTrue hd =>
      obtain ⟨_, hx⟩ := isDir_iff.mp hd
      rw [hx]
    case isFalse hd =>
      cases rest
      case nil  => contradiction
      case cons => rw [walkWith, if_neg hd]
  case cons n ns hi =>
    simp only [List.cons_append, walkWith, hi]
    split
    case isFalse => rfl
    case isTrue =>
      cases hx : fs.node (enter cur n)
      case none => rfl
      case some x =>
        cases x
        case link t => simp [hr, ← List.append_assoc, he]
        all_goals rfl

theorem walk_insert_nil (ns : List Name) (hr : rest ≠ []) :
    fs.walk follow k cur (ns ++ [] :: rest) = fs.walk follow k cur (ns ++ rest) := by
  induction k generalizing cur ns
  case zero      => exact walkWith_insert_nil hr fun _ _ => rfl
  case succ k hi => exact walkWith_insert_nil hr fun _ ns => hi ns

-- There is no more to a walk than its components if there are no links.
theorem foldl_enter_of_walk (hl : ∀ loc t, fs.node loc ≠ some (.link t))
    (h : fs.walk true k cur ns = some loc) : ns.foldl enter cur = loc := by
  induction ns generalizing cur
  case nil => exact Option.some.inj <| walk_nil.symm.trans h
  case cons n ns hi =>
    by_cases hd : fs.isDir cur
    case neg => cases k <;> simp [walk, walkWith, hd] at h
    case pos =>
      cases hx : fs.node (enter cur n)
      case none   => cases k <;> simp [walk, walkWith, hd, hx] at h
      case some x =>
        have hn : ∀ t, x ≠ .link t := fun t ht => hl _ t (ht ▸ hx)
        exact hi <| walk_cons_of_not_link hd hx hn ▸ h

end FileSystem

namespace Host

variable {h : Host} {path top : Str} {loc : Location} {n : Name}

theorem resolve_ne_nil (hr : h.resolve path = some loc) : path ≠ [] := by
  rintro rfl
  contradiction

-- No link behind a directory is needed in order to find one of its entries.
theorem lookup_joinPath {follow : Bool} {x : Node} (hr : h.resolve top = some loc)
    (hx : h.fs.node (loc ++ [n]) = some x) (hl : ∀ t, x ≠ .link t) :
    h.lookup follow (joinPath top n) = some (loc ++ [n]) := by
  have ht := resolve_ne_nil hr
  have hn := FileSystem.proper_of_entry <| Option.isSome_of_eq_some hx
  have ⟨ns, hc, ha, ho⟩ := exists_comps_joinPath ht hn.no_slash
  have hw : h.fs.walk true FileSystem.symloopMax (base h.cwd top) ns = some loc := by
    rw [resolve, lookup, if_neg ht] at hr
    cases ho
    case inl ho => exact ho ▸ hr
    case inr ho =>
      have hf : ns ++ [[]].filter leadsOn = ns := List.append_nil ns
      exact hf ▸ FileSystem.walk_append_filter ns (ho ▸ hr)
  rw [lookup, if_neg <| joinPath_ne_nil hn.ne_nil, hc, base, ha]
  exact FileSystem.walk_append hw (by simp) fun _ => FileSystem.walk_entry hx hl

theorem lookup_curdir (h : Host) (follow : Bool) : h.lookup follow curdir = some h.cwd := by
  have ⟨_, hx⟩ := FileSystem.isDir_iff.mp h.cwd_dir
  have he := enter_curdir h.cwd
  have hc : comps curdir = [curdir] := by decide
  rw [Host.lookup, if_neg (by decide), hc, base, if_neg (by decide),
    FileSystem.walk_cons_of_not_link h.cwd_dir (he ▸ hx) (by simp), FileSystem.walk_nil, he]

-- A path that designates the same place when `..` is collapsed lexically.
def Normal (h : Host) (path : Str) : Prop :=
  h.fs.walk true FileSystem.symloopMax [] (abspath h.cwd path) = h.resolve path

theorem normal_of_pardir_not_mem (hr : h.resolve path = some loc) (hp : pardir ∉ comps path) :
    h.Normal path := by
  rw [Normal, hr, abspath_of_pardir_not_mem hp]
  rw [resolve, lookup, if_neg <| resolve_ne_nil hr] at hr
  refine FileSystem.walk_append_of_isDir (h.isDir_base path) |>.trans ?_
  exact FileSystem.walk_append_filter [] hr

theorem normal_of_no_link (hl : ∀ loc t, h.fs.node loc ≠ some (.link t))
    (hr : h.resolve path = some loc) : h.Normal path := by
  have hi : h.fs.IsResolved ([] ++ loc) := isResolved_of_resolve hr
  rw [Normal, hr]
  rw [resolve, lookup, if_neg <| resolve_ne_nil hr] at hr
  rw [abspath, FileSystem.foldl_enter_of_walk hl hr]
  exact FileSystem.walk_of_isResolved hi

theorem normal_joinPath {x : Node} (hr : h.resolve top = some loc)
    (hx : h.fs.node (loc ++ [n]) = some x) (hl : ∀ t, x ≠ .link t) (hn : h.Normal top) :
    h.Normal (joinPath top n) := by
  have hp := FileSystem.proper_of_entry <| Option.isSome_of_eq_some hx
  rw [Normal, resolve, lookup_joinPath hr hx hl, abspath_joinPath (resolve_ne_nil hr) hp]
  exact FileSystem.walk_append (hn.trans hr) (by simp) fun _ => FileSystem.walk_entry hx hl

-- Two paths which the file system does not distinguish.
structure Same (h : Host) (p q : Str) : Prop where
  lookup  : ∀ follow, h.lookup follow p = h.lookup follow q
  abspath : abspath h.cwd p = abspath h.cwd q

theorem Same.trans {p q r : Str} (h₁ : h.Same p q) (h₂ : h.Same q r) : h.Same p r :=
  ⟨fun follow => (h₁.lookup follow).trans <| h₂.lookup follow, h₁.abspath.trans h₂.abspath⟩

theorem Same.symm {p q : Str} (h' : h.Same p q) : h.Same q p :=
  ⟨fun follow => (h'.lookup follow).symm, h'.abspath.symm⟩

theorem Same.exists {p q : Str} (hs : h.Same p q) : h.exists? p = h.exists? q := by
  rw [Host.exists?, Host.exists?, Host.resolve, Host.resolve, hs.lookup]

theorem Same.islink {p q : Str} (hs : h.Same p q) : h.islink p = h.islink q := by
  rw [Host.islink, Host.islink, Host.lstat, Host.lstat, hs.lookup]

theorem same_slash (h : Host) (p q : Str) : h.Same (p ++ '/' :: '/' :: q) (p ++ '/' :: q) := by
  have hc : comps (p ++ '/' :: '/' :: q) = comps p ++ [] :: comps q := by
    rw [comps_append_slash, comps_cons_slash]
  have hb : base h.cwd (p ++ '/' :: '/' :: q) = base h.cwd (p ++ '/' :: q) := by
    cases p <;> rfl
  constructor
  case lookup =>
    intro follow
    rw [Host.lookup, Host.lookup, if_neg (by simp), if_neg (by simp), hb, hc, comps_append_slash]
    exact FileSystem.walk_insert_nil _ <| comps_ne_nil q
  case abspath =>
    rw [Posix.abspath, Posix.abspath, hb, hc, comps_append_slash, List.foldl_append,
      List.foldl_append, List.foldl_cons, enter_nil]

-- Neither does the number of slashes matter.
theorem same_dropWhile (h : Host) (p q : Str) :
    h.Same (p ++ '/' :: q) (p ++ '/' :: q.dropWhile (· = '/')) := by
  induction q
  case nil => exact ⟨fun _ => rfl, rfl⟩
  case cons c q hi =>
    by_cases hc : c = '/'
    case neg =>
      rw [List.dropWhile_cons_of_neg (by simpa using hc)]
      exact ⟨fun _ => rfl, rfl⟩
    case pos =>
      subst hc
      rw [List.dropWhile_cons_of_pos (by decide)]
      exact (h.same_slash p q).trans hi

end Host

end Posix
