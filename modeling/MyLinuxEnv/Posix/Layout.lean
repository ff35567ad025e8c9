import MyLinuxEnv.Posix.FileSystem

namespace Posix

open Text

section Components

variable {cur : Location} {n : Name} {path : Str}

theorem enter_of_not_proper (hs : '/' ∉ n) (hn : ¬Proper n) (cur : Location) :
    enter cur n = cur ∨ enter cur n = cur.dropLast := by
  rw [enter]
  split
  case isTrue => exact .inl rfl
  case isFalse hc =>
    obtain ⟨hn₁, hn₂⟩ := not_or.mp hc
    exact .inr <| if_pos <| by_contra fun hp => hn ⟨hn₁, hn₂, hp, hs⟩

theorem enter_append {loc : Location} (hl : loc ≠ []) (cur : Location) (n : Name) :
    enter (cur ++ loc) n = cur ++ enter loc n := by
  simp only [enter]
  split
  case isTrue  => rfl
  case isFalse =>
    split
    case isTrue  => exact List.dropLast_append_of_ne_nil hl
    case isFalse => exact List.append_assoc ..

theorem comps_cons {c : Char} (hc : c ≠ '/') (path : Str) :
    ∃ n ns, comps path = n :: ns ∧ comps (c :: path) = (c :: n) :: ns := by
  cases hp : comps path
  case nil       => exact absurd hp <| comps_ne_nil path
  case cons n ns =>
    rw [comps] at hp
    exact ⟨n, ns, rfl, by simp [comps, List.splitOn_cons_eq_if_modifyHead, hp, hc]⟩

-- A path has at most one component more than characters, and none of them is longer than it.
theorem comps_length_le (path : Str) : (comps path).length ≤ path.length + 1 ∧
    ∀ n ∈ comps path, n.length ≤ path.length := by
  induction path
  case nil => simp [comps]
  case cons c path hi =>
    by_cases hc : c = '/'
    case pos =>
      subst hc
      rw [comps_cons_slash]
      refine ⟨Nat.succ_le_succ hi.left, fun n hn => ?_⟩
      rcases List.mem_cons.mp hn with rfl | hn
      · exact Nat.zero_le _
      · exact Nat.le_succ_of_le <| hi.right n hn
    case neg =>
      obtain ⟨n, ns, hp, hcp⟩ := comps_cons hc path
      rw [hp] at hi
      rw [hcp]
      refine ⟨Nat.le_succ_of_le hi.left, fun m hm => ?_⟩
      rcases List.mem_cons.mp hm with rfl | hm
      · exact Nat.succ_le_succ <| hi.right n List.mem_cons_self
      · exact Nat.le_succ_of_le <| hi.right m <| List.mem_cons_of_mem _ hm

-- A character other than a slash lies within a component.
theorem exists_mem_comps {c : Char} (hc : c ≠ '/') (h : c ∈ path) : ∃ n ∈ comps path, c ∈ n := by
  induction path
  case nil => contradiction
  case cons d path hi =>
    by_cases hd : d = '/'
    case pos =>
      have ⟨n, hn, hm⟩ := hi <| (List.mem_cons.mp h).resolve_left (hd ▸ hc)
      rw [hd, comps_cons_slash]
      exact ⟨n, List.mem_cons_of_mem _ hn, hm⟩
    case neg =>
      have ⟨n, ns, hp, hdp⟩ := comps_cons hd path
      rw [hdp]
      rcases List.mem_cons.mp h with rfl | h
      · exact ⟨_, List.mem_cons_self, List.mem_cons_self⟩
      · have ⟨m, hm, hcm⟩ := hi h
        rcases List.mem_cons.mp (hp ▸ hm) with rfl | hm
        · exact ⟨_, List.mem_cons_self, List.mem_cons_of_mem _ hcm⟩
        · exact ⟨m, List.mem_cons_of_mem _ hm, hcm⟩

theorem exists_proper {c : Char} (hs : c ≠ '/') (hd : c ≠ '.') (h : c ∈ path) :
    ∃ n ∈ comps path, Proper n := by
  have ⟨n, hn, hc⟩ := exists_mem_comps hs h
  refine ⟨n, hn, ?_, ?_, ?_, no_slash_of_mem_comps hn⟩
  all_goals
    rintro rfl
    simp [curdir, pardir, hd] at hc

theorem comps_eq_cons (s : Str) : comps s = s.takeWhile (· ≠ '/') ::
    if s.dropWhile (· ≠ '/') = [] then [] else comps (s.dropWhile (· ≠ '/')).tail := by
  induction s
  case nil => rfl
  case cons c s hi =>
    by_cases hc : c = '/'
    case pos => simp [hc, comps_cons_slash]
    case neg =>
      have ⟨n, ns, hs, hcs⟩ := comps_cons hc s
      have ⟨hn, hns⟩ := List.cons.inj <| hs.symm.trans hi
      rw [hcs, hn, hns]
      simp [hc]

-- Going up from a directory that is deep enough never ends at the root.
theorem length_foldl_enter {cur' : Location} {ns : List Name} (h : ns.length ≤ cur.length)
    (h' : ns.length ≤ cur'.length) : (ns.foldl enter cur).length + cur'.length =
      (ns.foldl enter cur').length + cur.length := by
  induction ns generalizing cur cur'
  case nil => exact Nat.add_comm ..
  case cons n ns hi =>
    rw [List.length_cons] at h h'
    simp only [List.foldl_cons, enter]
    split
    case isTrue => exact hi (by omega) (by omega)
    case isFalse =>
      split
      case isTrue =>
        have he := @hi cur.dropLast cur'.dropLast (by simp; omega) (by simp; omega)
        simp only [List.length_dropLast] at he
        omega
      case isFalse =>
        have he := @hi (cur ++ [n]) (cur' ++ [n]) (by simp; omega) (by simp; omega)
        simp only [List.length_append, List.length_singleton] at he
        omega

-- A name is entered, stands for the current place or for the one above.
theorem length_enter_ne {a b : Name} (ha : a ≠ [] ∧ '/' ∉ a) (hb : b ≠ [] ∧ '/' ∉ b) (hne : a ≠ b)
    (hp : ¬(Proper a ∧ Proper b)) (hc : cur ≠ []) :
    (enter cur a).length ≠ (enter cur b).length := by
  have hkind {n : Name} (hn : n ≠ [] ∧ '/' ∉ n) : n = curdir ∨ n = pardir ∨ Proper n := by
    by_contra h
    have ⟨hcd, h⟩ := not_or.mp h
    have ⟨hpd, h⟩ := not_or.mp h
    exact h ⟨hn.left, hcd, hpd, hn.right⟩
  have hpos := List.length_pos_of_ne_nil hc
  have hup : (enter cur pardir).length + 1 = cur.length := by
    rw [enter_pardir, List.length_dropLast]
    omega
  have hin {n : Name} (hn : Proper n) : (enter cur n).length = cur.length + 1 := by
    rw [enter_proper hn, List.length_append, List.length_singleton]
  rcases hkind ha with rfl | rfl | hpa
  case inl =>
    rw [enter_curdir]
    rcases hkind hb with rfl | rfl | hpb
    · exact absurd rfl hne
    · omega
    · have := hin hpb
      omega
  case inr.inl =>
    rcases hkind hb with rfl | rfl | hpb
    · rw [enter_curdir]
      omega
    · exact absurd rfl hne
    · have := hin hpb
      omega
  case inr.inr =>
    have := hin hpa
    rcases hkind hb with rfl | rfl | hpb
    · rw [enter_curdir]
      omega
    · omega
    · exact absurd ⟨hpa, hpb⟩ hp

end Components

namespace FileSystem

variable {fs : FileSystem} {cur : Location} {n : Name} {ns rest : List Name} {k : Nat}
  {follow : Bool} {R : Nat → Location → Prop}

theorem walk_cons_of_none (hx : fs.node (enter cur n) = none) :
    fs.walk follow k cur (n :: rest) = none := by
  cases k <;> simp [walk, walkWith, hx]

theorem walk_cons_of_link {t : Str} (hd : fs.isDir cur)
    (hx : fs.node (enter cur n) = some (.link t)) :
    fs.walk true (k + 1) cur (n :: rest) = fs.walk true k (base cur t) (comps t ++ rest) := by
  simp [walk, walkWith, hd, hx]

-- A walk that does not leave a region of directories goes where its components lead. The region
-- may depend on how many components are left.
theorem walk_eq_foldl (hd : ∀ i cur, R i cur → fs.isDir cur)
    (he : ∀ i cur, ∀ n ∈ ns, R (i + 1) cur → R i (enter cur n)) (hc : R ns.length cur) :
    fs.walk follow k cur ns = some (ns.foldl enter cur) ∧ R 0 (ns.foldl enter cur) := by
  induction ns generalizing cur
  case nil => exact ⟨walk_nil, hc⟩
  case cons n ns hi =>
    have hn := he _ _ n List.mem_cons_self hc
    have ⟨_, hx⟩ := isDir_iff.mp <| hd _ _ hn
    rw [walk_cons_of_not_link (hd _ _ hc) hx nofun]
    exact hi (fun i cur m hm => he i cur m <| List.mem_cons_of_mem _ hm) hn

-- A walk fails if everything that the components name is missing.
theorem walk_eq_none (hd : ∀ i cur, R i cur → fs.isDir cur)
    (he : ∀ i cur, ∀ n ∈ ns, R (i + 1) cur →
      if Proper n then fs.node (cur ++ [n]) = none else R i (enter cur n))
    (hp : ∃ n ∈ ns, Proper n) (hc : R ns.length cur) : fs.walk follow k cur ns = none := by
  induction ns generalizing cur
  case nil => exact absurd hp (by simp)
  case cons n ns hi =>
    have hn := he _ _ n List.mem_cons_self hc
    by_cases hpn : Proper n
    case pos =>
      rw [if_pos hpn] at hn
      exact walk_cons_of_none <| (enter_proper hpn cur).symm ▸ hn
    case neg =>
      rw [if_neg hpn] at hn
      have ⟨_, hx⟩ := isDir_iff.mp <| hd _ _ hn
      rw [walk_cons_of_not_link (hd _ _ hc) hx nofun]
      refine hi (fun i cur m hm => he i cur m <| List.mem_cons_of_mem _ hm) ?_ hn
      have ⟨m, hm, hpm⟩ := hp
      exact ⟨m, (List.mem_cons.mp hm).resolve_left fun he => hpn (he ▸ hpm), hpm⟩

end FileSystem

-- A name that no path of that length contains.
def Layout.name (depth : Nat) : Name :=
  List.replicate (depth + 1) 'f'

-- A tree for paths that are shorter than `depth`. It has a working directory which they neither
-- name nor leave by going up.
structure Layout where
  depth  : Nat
  -- The entries of the root below which there is every directory.
  dirs   : Name → Bool
  -- An entry of the working directory that is a link to the root.
  link   : Option Name
  proper : ∀ a ∈ link, Proper a
  leaf   : link.isSome → dirs (Layout.name depth) = false

namespace Layout

def cwd (l : Layout) : Location :=
  List.replicate (l.depth + 1) (name l.depth)

def node (l : Layout) (loc : Location) : Option Node :=
  if some loc = l.link.map (l.cwd ++ [·]) then some <| .link ['/']
  else if (∀ n ∈ loc, Proper n) ∧ ((∀ n ∈ loc.head?, l.dirs n) ∨ loc <+: l.cwd) then some <| .dir 1
  else none

variable {l : Layout} {loc cur : Location} {n : Name} {i : Nat}

theorem proper_name (depth : Nat) : Proper (name depth) := by
  have hm {c : Char} (hc : c ∈ name depth) : c = 'f' := List.eq_of_mem_replicate hc
  have hf : 'f' ∈ name depth := by simp [name]
  refine ⟨List.ne_nil_of_mem hf, ?_, ?_, fun hc => absurd (hm hc) (by decide)⟩
  all_goals
    intro he
    rw [he] at hf
    exact absurd hf (by decide)

theorem forall_proper_cwd : ∀ n ∈ l.cwd, Proper n :=
  fun _ hn => List.eq_of_mem_replicate hn ▸ proper_name _

theorem node_of_ne (hl : some loc ≠ l.link.map (l.cwd ++ [·])) (hp : ∀ n ∈ loc, Proper n)
    (hd : (∀ n ∈ loc.head?, l.dirs n) ∨ loc <+: l.cwd) : l.node loc = some (.dir 1) := by
  rw [node, if_neg hl, if_pos ⟨hp, hd⟩]

theorem node_of_above (h : loc <+: l.cwd) : l.node loc = some (.dir 1) := by
  refine node_of_ne (fun hl => ?_) (fun n hn => forall_proper_cwd n <| h.subset hn) (.inr h)
  have ⟨a, _, he⟩ := Option.map_eq_some_iff.mp hl.symm
  have hle := h.length_le
  rw [← he, List.length_append, List.length_singleton] at hle
  omega

theorem node_of_head (hp : ∀ n ∈ loc, Proper n)
    (hd : ∀ n ∈ loc.head?, l.dirs n ∧ (l.link.isSome → n ≠ name l.depth)) :
    l.node loc = some (.dir 1) := by
  refine node_of_ne (fun hl => ?_) hp <| .inl fun n hn => (hd n hn).left
  have ⟨a, ha, he⟩ := Option.map_eq_some_iff.mp hl.symm
  exact (hd (name l.depth) (he ▸ rfl)).right (Option.isSome_of_eq_some ha) rfl

def fs (l : Layout) : FileSystem where
  node := l.node
  root := by rw [node_of_above List.nil_prefix]; rfl
  parent {loc n} h := by
    rw [node] at h
    split at h
    case isTrue hl =>
      have ⟨a, ha, he⟩ := Option.map_eq_some_iff.mp hl.symm
      have ⟨hc, hn⟩ := List.append_inj' he rfl
      rw [← hc, node_of_above List.prefix_rfl]
      exact ⟨rfl, List.singleton_inj.mp hn ▸ l.proper a ha⟩
    case isFalse =>
      split at h
      case isFalse => contradiction
      case isTrue hd =>
        have hp := List.forall_mem_append.mp hd.left
        refine ⟨?_, hp.right n List.mem_cons_self⟩
        rcases hd.right with hd | hd
        case inr => rw [node_of_above <| (List.prefix_append loc [n]).trans hd]; rfl
        case inl =>
          have hh : ∀ m ∈ loc.head?, l.dirs m := by
            cases loc
            case nil  => exact nofun
            case cons => exact hd
          rw [node_of_head hp.left fun m hm => ⟨hh m hm, fun hl he => ?_⟩]
          · rfl
          · exact absurd (hh m hm) <| he ▸ by simp [l.leaf hl]
  target {loc t} h := by
    rw [node] at h
    split at h
    case isTrue =>
      cases h
      exact nofun
    case isFalse => split at h <;> cases h

def host (l : Layout) : Host where
  fs      := l.fs
  cwd     := l.cwd
  cwd_dir := by
    have hn : l.fs.node l.cwd = some (.dir 1) := node_of_above List.prefix_rfl
    exact FileSystem.isDir_iff.mpr ⟨1, hn⟩

-- Below the root, but not on the way to the working directory.
def Outside (l : Layout) (loc : Location) : Prop :=
  (∀ n ∈ loc, Proper n) ∧ ∀ n ∈ loc.head?, l.dirs n ∧ n ≠ name l.depth

-- Below the working directory or above it, at least as deep as there are components left.
def Inside (l : Layout) (i : Nat) (loc : Location) : Prop :=
  ∃ w, (∀ n ∈ w, Proper n) ∧ loc = List.replicate (i + 1) (name l.depth) ++ w

theorem Outside.node (h : l.Outside loc) : l.fs.node loc = some (.dir 1) :=
  node_of_head h.left fun n hn => (h.right n hn).imp_right fun hne _ => hne

theorem Outside.enter (h : l.Outside loc) (hs : '/' ∉ n)
    (hd : Proper n → l.dirs n ∧ n ≠ name l.depth) : l.Outside (enter loc n) := by
  refine ⟨enter_forall_proper h.left hs, fun m hm => ?_⟩
  by_cases hp : Proper n
  case pos =>
    rw [enter_proper hp, List.head?_append] at hm
    cases hl : loc.head?
    case none =>
      rw [hl] at hm
      exact Option.some.inj hm ▸ hd hp
    case some =>
      rw [hl] at hm
      exact h.right m <| hl.trans hm
  case neg =>
    refine h.right m ?_
    rcases enter_of_not_proper hs hp loc with he | he
    · exact he ▸ hm
    · rw [he, List.head?_dropLast] at hm
      split at hm
      · exact hm
      · contradiction

theorem Inside.node (h : l.Inside i loc) (hl : l.link = none) (hd : l.dirs <| name l.depth) :
    l.fs.node loc = some (.dir 1) := by
  have ⟨w, hw, he⟩ := h
  have hp : ∀ n ∈ loc, Proper n := he ▸ List.forall_mem_append.mpr
    ⟨fun _ hn => List.eq_of_mem_replicate hn ▸ proper_name _, hw⟩
  refine node_of_head hp fun n hn => ?_
  rw [he, List.replicate_succ] at hn
  cases hn
  exact ⟨hd, fun hs => absurd hs (by simp [hl])⟩

theorem Inside.enter (h : l.Inside (i + 1) loc) (hs : '/' ∉ n) : l.Inside i (enter loc n) := by
  have ⟨w, hw, he⟩ := h
  have hw : ∀ m ∈ name l.depth :: w, Proper m := List.forall_mem_cons.mpr ⟨proper_name _, hw⟩
  refine ⟨Posix.enter (name l.depth :: w) n, enter_forall_proper hw hs, ?_⟩
  rw [he, List.replicate_succ', List.append_assoc, enter_append (by simp)]
  rfl

-- The working directory or a place above it that is deep enough.
def Above (l : Layout) (i : Nat) (loc : Location) : Prop :=
  ∃ j ≥ i, loc = List.replicate j (name l.depth) ∧ loc <+: l.cwd

theorem Above.node (h : l.Above i loc) : l.fs.node loc = some (.dir 1) :=
  have ⟨_, _, _, hp⟩ := h
  node_of_above hp

theorem Above.enter (h : l.Above (i + 1) loc) (hs : '/' ∉ n) (hp : ¬Proper n) :
    l.Above i (enter loc n) := by
  have ⟨j, hj, he, hpre⟩ := h
  rcases enter_of_not_proper hs hp loc with hn | hn
  · rw [hn]
    exact ⟨j, Nat.le_of_succ_le hj, he, hpre⟩
  · rw [hn]
    refine ⟨j - 1, Nat.le_sub_one_of_lt hj, ?_, (List.dropLast_prefix loc).trans hpre⟩
    rw [he, List.dropLast_replicate]

theorem Above.missing (h : l.Above (i + 1) loc) (hd : l.dirs (name l.depth) = false)
    (hl : l.link = none) (hn : n ≠ name l.depth) : l.fs.node (loc ++ [n]) = none := by
  have ⟨j, hj, he, _⟩ := h
  have hnode : l.node (loc ++ [n]) = none := by
    rw [Layout.node, hl, if_neg nofun, if_neg]
    rintro ⟨_, hd' | hp⟩
    · have hh : (loc ++ [n]).head? = some (name l.depth) := by
        rw [he, show j = j - 1 + 1 by omega, List.replicate_succ]
        rfl
      exact absurd (hd' _ hh) (by simp [hd])
    · exact hn <| List.eq_of_mem_replicate <| hp.subset <| by simp
  exact hnode

end Layout

-- A path leads to a directory without going through a link.
structure Host.Reaches (h : Host) (path : Str) : Prop where
  lookup : ∀ follow, h.lookup follow path = some (abspath h.cwd path)
  node   : h.fs.node (abspath h.cwd path) = some (.dir 1)

theorem Host.Reaches.resolve {h : Host} {path : Str} (hr : h.Reaches path) :
    h.resolve path = some (abspath h.cwd path) :=
  hr.lookup true

theorem Host.Reaches.exists {h : Host} {path : Str} (hr : h.Reaches path) : h.exists? path :=
  Option.isSome_of_eq_some hr.resolve

theorem Host.Reaches.not_islink {h : Host} {path : Str} (hr : h.Reaches path) :
    ¬h.islink path := by
  simp [Host.islink, Host.lstat, hr.lookup, hr.node]

namespace Layout

variable {l : Layout} {path : Str} {n : Name}

theorem ne_name (hp : path.length ≤ l.depth) (hn : n ∈ comps path) : n ≠ name l.depth := by
  rintro rfl
  have hle := (comps_length_le path).right _ hn
  rw [name, List.length_replicate] at hle
  omega

theorem isDir_of_node {loc : Location} (h : l.fs.node loc = some (.dir 1)) : l.fs.isDir loc :=
  FileSystem.isDir_iff.mpr ⟨1, h⟩

theorem reaches_of_isabs (hd : ∀ n ≠ name l.depth, l.dirs n) (ha : isabs path)
    (hp : path.length ≤ l.depth) : l.host.Reaches path := by
  have hn : path ≠ [] := by
    rintro rfl
    contradiction
  have hw (follow : Bool) : l.fs.walk follow FileSystem.symloopMax [] (comps path) =
      some ((comps path).foldl enter []) ∧ l.Outside ((comps path).foldl enter []) :=
    FileSystem.walk_eq_foldl (R := fun _ => l.Outside) (fun _ _ h => isDir_of_node h.node)
      (fun _ _ n hn h => h.enter (no_slash_of_mem_comps hn) fun _ =>
        ⟨hd n <| ne_name hp hn, ne_name hp hn⟩)
      ⟨by simp, nofun⟩
  have he : abspath l.host.cwd path = (comps path).foldl enter [] := by
    rw [abspath, base, if_pos ha]
  refine ⟨fun follow => ?_, he ▸ (hw true).right.node⟩
  rw [Host.lookup, if_neg hn, base, if_pos ha, he]
  exact (hw follow).left

theorem reaches_of_not_isabs (hl : l.link = none) (hd : l.dirs <| name l.depth)
    (ha : ¬isabs path) (hn : path ≠ []) (hp : path.length < l.depth) : l.host.Reaches path := by
  have hc : l.Inside (comps path).length l.cwd := by
    have hle := (comps_length_le path).left
    refine ⟨List.replicate (l.depth - (comps path).length) (name l.depth), ?_, ?_⟩
    · exact fun _ hn => List.eq_of_mem_replicate hn ▸ proper_name _
    · rw [← List.replicate_add, cwd]
      congr 1
      omega
  have hw (follow : Bool) : l.fs.walk follow FileSystem.symloopMax l.cwd (comps path) =
      some ((comps path).foldl enter l.cwd) ∧ l.Inside 0 ((comps path).foldl enter l.cwd) :=
    FileSystem.walk_eq_foldl (fun _ _ h => isDir_of_node <| h.node hl hd)
      (fun _ _ n hn h => h.enter <| no_slash_of_mem_comps hn) hc
  have he : abspath l.host.cwd path = (comps path).foldl enter l.cwd := by
    rw [abspath, base, if_neg ha]
    rfl
  refine ⟨fun follow => ?_, he ▸ (hw true).right.node hl hd⟩
  rw [Host.lookup, if_neg hn, base, if_neg ha, he]
  exact (hw follow).left

theorem resolve_eq_none_of_isabs (hd : ∀ n ≠ name l.depth, l.dirs n = false) (ha : isabs path)
    (hp : path.length ≤ l.depth) (hc : ∃ n ∈ comps path, Proper n) :
    l.host.resolve path = none := by
  rw [Host.resolve, Host.lookup, base, if_pos ha]
  split
  case isTrue => rfl
  case isFalse =>
    refine FileSystem.walk_eq_none (R := fun _ cur => cur = []) ?_ ?_ hc rfl
    · rintro _ _ rfl
      exact FileSystem.isDir_root
    · rintro _ _ n hn rfl
      split
      case isTrue =>
        have hnode : l.node [n] = none := by
          rw [node, if_neg, if_neg]
          · rintro ⟨_, hd' | hpre⟩
            · exact absurd (hd' n rfl) (by simp [hd n <| ne_name hp hn])
            · exact ne_name hp hn <| List.eq_of_mem_replicate <| hpre.subset List.mem_cons_self
          · intro he
            obtain ⟨_, _, he⟩ := Option.map_eq_some_iff.mp he.symm
            simpa [cwd] using congrArg List.length he
        exact hnode
      case isFalse hp =>
        exact (enter_of_not_proper (no_slash_of_mem_comps hn) hp []).elim id id

theorem resolve_eq_none_of_not_isabs (hl : l.link = none) (hd : l.dirs (name l.depth) = false)
    (ha : ¬isabs path) (hp : path.length < l.depth) (hc : ∃ n ∈ comps path, Proper n) :
    l.host.resolve path = none := by
  rw [Host.resolve, Host.lookup, base, if_neg ha]
  split
  case isTrue => rfl
  case isFalse =>
    have hle := (comps_length_le path).left
    refine FileSystem.walk_eq_none (R := l.Above) (fun _ _ h => isDir_of_node h.node) ?_ hc
      ⟨l.depth + 1, by omega, rfl, List.prefix_rfl⟩
    intro i cur n hn h
    split
    case isTrue  => exact h.missing hd hl <| ne_name (Nat.le_of_lt hp) hn
    case isFalse hnp => exact h.enter (no_slash_of_mem_comps hn) hnp

end Layout

end Posix
