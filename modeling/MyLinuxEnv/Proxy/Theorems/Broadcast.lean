import MyLinuxEnv.Proxy.Packets
import MyLinuxEnv.Proxy.Theorems.Clients

open Memory

namespace Proxy

-- A client of the script port `s`, as it has been accepted.
structure Port.IsClient (p : Port) (s : Addr) : Prop where
  cls : p.cls = some .scriptClient
  peer : p.peer = none
  scriptRef : p.scriptRef = some s
  portclose : p.portclose = some .tcp
  portwrite : p.portwrite = some .tcp

-- The script port `s` has the clients `cs`, which are managed like the other ports on the list.
structure Serves (σ : State) (s : Addr) (cs ps : List Addr) : Prop extends Listed σ ps where
  script : ∃ sp, σ.port s = some sp ∧ sp.cls = some .scriptPort ∧
    Chain σ.clientNext sp.clients cs ∧ ∀ c ∈ cs, sp.lscript ≠ some c
  client : ∀ c ∈ cs, c ∈ ps ∧ ∃ p, σ.port c = some p ∧ p.IsClient s

def State.breakPort (σ : State) (s : Addr) : Bool :=
  (σ.port s).any (·.breakPort)

-- The writes so far.
def State.writes (σ : State) : List (Addr × List Byte) :=
  σ.trace.filterMap fun
    | .write a bytes => some (a, bytes)
    | _              => none

variable {env : Env} {σ σ' : State} {s a c : Addr} {cs ps xs ys : List Addr} {p : Port}

section Kill

theorem Port.IsClient.not_isPermanent (h : p.IsClient s) : ¬p.isPermanent := by
  simp [Port.isPermanent, h.cls]

theorem Serves.ne_script (h : Serves σ s cs ps) (ha : a ∈ cs) : a ≠ s := by
  rintro rfl
  have ⟨_, p, hp, hc⟩ := h.client a ha
  have ⟨sp, hsp, hcls, _⟩ := h.script
  cases hp.symm.trans hsp
  cases hc.cls.symm.trans hcls

theorem Serves.lt_fresh (h : Serves σ s cs ps) (ha : a ∈ cs) : a < σ.fresh :=
  h.lt a (h.client a ha).1

theorem Port.IsClient.of_node {p' : Port} (h : p.IsClient s) (he : p'.node = p.node) :
    p'.IsClient s where
  cls       := (congrArg Node.cls he).trans h.cls
  peer      := (congrArg Node.peer he).trans h.peer
  scriptRef := (congrArg Node.scriptRef he).trans h.scriptRef
  portclose := (congrArg Node.portclose he).trans h.portclose
  portwrite := (congrArg Node.portwrite he).trans h.portwrite

theorem Serves.clients_eq (h : Serves σ s cs ps) : σ.clients s = cs := by
  have ⟨sp, hsp, _, hc, _⟩ := h.script
  rw [State.clients, hsp, Option.bind_some]
  exact hc.walk_eq <| length_le_of_forall_lt hc.nodup fun c => h.lt_fresh

-- The clients that are left are still clients.
theorem Serves.of_node {τ : State} {ds qs : List Addr} (h : Serves σ s cs ps) (hl : Listed τ qs)
    (hs : ∃ sp, τ.port s = some sp ∧ sp.cls = some .scriptPort ∧
      Chain τ.clientNext sp.clients ds ∧ ∀ c ∈ ds, sp.lscript ≠ some c)
    (hd : ∀ c ∈ ds, c ∈ cs ∧ c ∈ qs ∧ (τ.port c).map Port.node = (σ.port c).map Port.node) :
    Serves τ s ds qs where
  toListed := hl
  script   := hs
  client c hc := by
    have ⟨hm, hq, he⟩ := hd c hc
    have ⟨_, p, hp, hcl⟩ := h.client c hm
    rw [hp, Option.map_some] at he
    have ⟨p', hp', he⟩ := Option.map_eq_some_iff.mp he
    exact ⟨hq, p', hp', hcl.of_node he⟩

-- The first client leaves the list of clients.
theorem Serves.of_modify (h : Serves σ s (a :: ys) ps) :
    Serves (σ.modify s ({ · with clients := σ.clientNext a })) s ys ps := by
  have ⟨sp, hsp, hcls, hc, hl⟩ := h.script
  apply h.of_node
  case hl => exact h.toListed.of_steady <| .modify ..
  case hs =>
    exact ⟨{ sp with clients := σ.clientNext a }, by simp [hsp], hcls, hc.tail,
      fun c hm => hl c <| List.mem_cons_of_mem _ hm⟩
  case hd =>
    intro c hm
    have hm := List.mem_cons_of_mem a hm
    exact ⟨hm, (h.client c hm).1, by rw [State.modify_port_of_ne <| h.ne_script hm]⟩

-- A client leaves the list of clients by way of the one in front of it.
theorem Serves.of_setClientNext {b : Addr} (h : Serves σ s (xs ++ b :: a :: ys) ps) :
    Serves (σ.setClientNext b (σ.clientNext a)) s (xs ++ b :: ys) ps := by
  have ⟨sp, hsp, hcls, hc, hl⟩ := h.script
  have hsub {c : Addr} (hm : c ∈ xs ++ b :: ys) : c ∈ xs ++ b :: a :: ys := by
    simp only [List.mem_append, List.mem_cons] at hm ⊢
    exact hm.imp_right <| Or.imp_right .inr
  apply h.of_node
  case hl => exact ⟨h.chain, h.lt, h.isSome⟩
  case hs => exact ⟨sp, hsp, hcls, hc.unlink, fun c hm => hl c (hsub hm)⟩
  case hd => exact fun c hm => ⟨hsub hm, (h.client c (hsub hm)).1, rfl⟩

-- What a kill does to the list of clients first.
theorem Serves.exists_disown (h : Serves σ s (xs ++ a :: ys) ps) :
    ∃ sp prev τ, σ.port s = some sp ∧
      prevClient σ a (σ.fresh + 1) sp.clients sp.clients = some prev ∧
      (if sp.clients = some a then some <| σ.modify s ({ · with clients := σ.clientNext a })
        else prev.map (σ.setClientNext · (σ.clientNext a))) = some τ ∧
      Serves τ s (xs ++ ys) ps ∧ (∀ sp', τ.port s = some sp' → sp'.lscript ≠ some a) ∧
      τ.port a = σ.port a ∧ τ.breakPort s = σ.breakPort s ∧ τ.time = σ.time ∧
      τ.trace = σ.trace := by
  have ⟨sp, hsp, _, hc, hl⟩ := h.script
  have ha : a ∈ xs ++ a :: ys := by simp
  have ⟨prev, hprev⟩ : ∃ q, prevClient σ a (σ.fresh + 1) sp.clients sp.clients = some q := by
    apply exists_prevClient hc _ _ ha
    case _ => exact fun i hi => (h.client i hi).2.imp fun _ => And.left
    case _ => exact Nat.lt_succ_of_le <| length_le_of_forall_lt hc.nodup fun c => h.lt_fresh
  refine ⟨sp, prev, ?_⟩
  cases xs
  case nil =>
    refine ⟨_, hsp, hprev, if_pos hc.head_eq, h.of_modify, ?_, ?_, ?_, rfl, rfl⟩
    case refine_1 =>
      intro sp' hsp'
      simp only [State.modify_port_self, hsp, Option.map_some, Option.some_inj] at hsp'
      exact hsp' ▸ hl a ha
    case refine_2 => exact State.modify_port_of_ne <| h.ne_script ha
    case refine_3 => rw [State.breakPort, State.modify_port_self, hsp, State.breakPort, hsp]; rfl
  case cons x xs =>
    have hx : x ≠ a := by
      rintro rfl
      simpa using (List.nodup_cons.mp hc.nodup).1
    have hhead : sp.clients ≠ some a := by
      rw [hc.head_eq]
      simpa using hx
    rcases mem_of_prevClient hc hprev with ⟨_, hh⟩ | ⟨b, us, vs, rfl, hb⟩
    · contradiction
    · have he : x :: xs ++ ys = us ++ b :: vs := by
        rw [← hc.filter_ne, hb, List.append_cons, List.append_cons us b vs]
        exact Chain.filter_ne <| List.append_cons .. ▸ hb ▸ hc
      refine ⟨_, hsp, hprev, if_neg hhead, ?_, ?_, rfl, rfl, rfl, rfl⟩
      case refine_1 => exact he ▸ (hb ▸ h).of_setClientNext
      case refine_2 => exact fun sp' hsp' => Option.some.inj (hsp.symm.trans hsp') ▸ hl a ha

-- A client that is killed leaves both lists.
theorem Serves.exists_killScriptClient (h : Serves σ s (xs ++ a :: ys) ps) :
    ∃ σ', killScriptClient σ s a = some (ys.head?, σ') ∧
      Serves σ' s (xs ++ ys) (ps.filter (· ≠ a)) ∧
      σ'.breakPort s = σ.breakPort s ∧
      σ'.time = σ.time + 1 ∧ σ'.trace = σ.trace ++ [.close a] := by
  have ha : a ∈ xs ++ a :: ys := by simp
  obtain ⟨_, p, hp, hcl⟩ := h.client a ha
  obtain ⟨sp, prev, τ, hsp, hprev, hτ, hs, hside, hpa, hbreak, htime, htrace⟩ := h.exists_disown
  obtain ⟨_, _, _, hchain, _⟩ := h.script
  have hnext : σ.clientNext a = ys.head? := hchain.suffix.tail.head?_eq
  have hna : a ∉ xs ++ ys := (List.nodup_cons.mp <| List.nodup_middle.mp hchain.nodup).1
  have hpτ : τ.port a = some p := hpa.trans hp
  obtain ⟨sp', hsp', hcls, hc, hl⟩ := hs.script
  have hr : τ.Releasable a p := by
    intro s' hs'
    cases hcl.scriptRef.symm.trans hs'
    exact ⟨sp', hsp', fun hls => absurd hls <| hside sp' hsp'⟩
  obtain ⟨σ', hk, hrem, hclient, hcore⟩ := hs.exists_killportFrom_alone (τ.fresh + 1)
    (h.client a ha).1 hpτ hcl.not_isPermanent hcl.portclose hr
    fun b hb => by cases hcl.peer.symm.trans hb
  refine ⟨σ', ?_, ?_, ?_, ?_, ?_⟩
  case refine_1 =>
    have hk : killport τ a = some σ' := hk
    simp only [killScriptClient, hsp, hprev, hp, Option.bind_eq_bind, Option.bind_some]
    exact ite_bind_eq_some_iff.mpr ⟨τ, hτ, by simp [hk, hnext]⟩
  case refine_2 =>
    apply hs.of_node
    case hl => simpa using hrem.listed
    case hs =>
      have he := hcore s (h.ne_script ha).symm
      rw [hsp', Option.map_some] at he
      obtain ⟨sp'', hsp'', he⟩ := Option.map_eq_some_iff.mp he
      have hn := congrArg Prod.fst he
      have hclients : sp''.clients = sp'.clients := congrArg Prod.snd he
      refine ⟨sp'', hsp'', (congrArg Node.cls hn).trans hcls, ?_, ?_⟩
      case refine_1 => exact hclient ▸ hclients ▸ hc
      case refine_2 => exact fun c hm => (congrArg Node.lscript hn).trans_ne <| hl c hm
    case hd =>
      intro c hm
      have hca : c ≠ a := ne_of_mem_of_not_mem hm hna
      have he := congrArg (Option.map Prod.fst) (hcore c hca)
      refine ⟨hm, List.mem_filter.mpr ⟨(hs.client c hm).1, by simpa using hca⟩, ?_⟩
      simpa [Option.map_map, Function.comp_def, Port.core] using he
  case refine_3 =>
    have he := congrArg (Option.any (·.1.breakPort)) <| hcore s (h.ne_script ha).symm
    rw [Option.any_map, Option.any_map] at he
    exact he.trans hbreak
  case refine_4 => rw [hrem.time, htime]; rfl
  case refine_5 => rw [hrem.trace, htrace]; rfl

end Kill

section Write

-- What comes of offering a buffer to some clients, one after the other. Every write is a system
-- call, and a client that does not take the bytes is closed by another one.
def outcomes (env : Env) (mem : List Byte) : (time : Nat) → (cs : List Addr) → List (Addr × Int)
  | _, []         => []
  | time, c :: cs =>
    let got := env.write time c mem
    (c, got) :: outcomes env mem (if got ≤ 0 then time + 2 else time + 1) cs

def accepted (os : List (Addr × Int)) : List Addr :=
  (os.filter (0 < ·.2)).map (·.1)

def refused (os : List (Addr × Int)) : List Addr :=
  (os.filter (·.2 ≤ 0)).map (·.1)

-- The bytes that a call hands to the clients, if it transmits.
def transmits (env : Env) (σ : State) (sp : Port) (buf : List Byte) (bytes : Nat) :
    Option (List Byte) :=
  if sp.breakPort ∧ env.gdbSplit then (σ.gdb.read <| buf.take bytes).2 else some (buf.take bytes)

variable {mem buf : List Byte} {bytes fuel : Nat} {sp : Port}

theorem accepted_cons (a : Addr) (got : Int) (os : List (Addr × Int)) :
    accepted ((a, got) :: os) = if got ≤ 0 then accepted os else a :: accepted os := by
  simp only [accepted, List.filter_cons, decide_eq_true_eq]
  split <;> split <;> first | rfl | omega

theorem refused_cons (a : Addr) (got : Int) (os : List (Addr × Int)) :
    refused ((a, got) :: os) = if got ≤ 0 then a :: refused os else refused os := by
  simp only [refused, List.filter_cons, decide_eq_true_eq]
  split <;> rfl

theorem written_eq_filterMap : σ.written c =
    σ.writes.filterMap fun w => if w.1 = c then some w.2 else none := by
  rw [State.written, State.writes, List.filterMap_filterMap]
  congr
  funext io
  cases io <;> rfl

theorem filterMap_of_mem {buf : List Byte} (hd : cs.Nodup) (hc : c ∈ cs) :
    (cs.map (·, buf)).filterMap (fun w => if w.1 = c then some w.2 else none) = [buf] := by
  induction cs
  case nil           => contradiction
  case cons b cs ih =>
    have ⟨hb, hd⟩ := List.nodup_cons.mp hd
    rw [List.map_cons, List.filterMap_cons]
    by_cases he : b = c
    case neg =>
      have hc := (List.mem_cons.mp hc).resolve_left (Ne.symm he)
      simp [he, ih hd hc]
    case pos =>
      have hnil : (cs.map (·, buf)).filterMap
          (fun w => if w.1 = c then some w.2 else none) = [] := by
        refine List.filterMap_eq_nil_iff.mpr fun w hw => ?_
        have ⟨d, hd, he'⟩ := List.mem_map.mp hw
        subst he'
        exact if_neg fun (h : d = c) => hb <| he ▸ h ▸ hd
      simp [he, hnil]

-- A client that takes the bytes at any time stays.
theorem mem_accepted (hc : c ∈ cs) (hw : ∀ time, 0 < env.write time c mem) (time : Nat) :
    c ∈ accepted (outcomes env mem time cs) := by
  induction cs generalizing time
  case nil => contradiction
  case cons a cs hi =>
    rw [outcomes, accepted_cons]
    by_cases ha : c = a
    case pos =>
      rw [← ha, if_neg <| Int.not_le.mpr <| hw time]
      exact List.mem_cons_self
    case neg =>
      have hm := (List.mem_cons.mp hc).resolve_left ha
      split
      case isTrue  => exact hi hm _
      case isFalse => exact List.mem_cons_of_mem _ <| hi hm _

theorem Serves.log (h : Serves σ s cs ps) (io : Io) : Serves (σ.log io) s cs ps :=
  ⟨⟨h.chain, h.lt, h.isSome⟩, h.script, h.client⟩

theorem writes_of_write {bs : List Byte} (h : σ'.trace = σ.trace ++ [.write a bs]) :
    σ'.writes = σ.writes ++ [(a, bs)] := by
  simp [State.writes, h, List.filterMap_append]

theorem writes_of_close (h : σ'.trace = σ.trace ++ [.close a]) : σ'.writes = σ.writes := by
  simp [State.writes, h, List.filterMap_append]

-- All the clients that are left are offered the bytes, and those who take them stay.
theorem Serves.exists_writeClients (h : Serves σ s (xs ++ ys) ps) (hf : ys.length < fuel) :
    ∃ σ', writeClients env s mem bytes fuel σ ys.head? = some σ' ∧
      Serves σ' s (xs ++ accepted (outcomes env (mem.take bytes) σ.time ys))
        (ps.filter (· ∉ refused (outcomes env (mem.take bytes) σ.time ys))) ∧
      σ'.breakPort s = σ.breakPort s ∧ σ'.gdb = σ.gdb ∧
      σ'.writes = σ.writes ++ ys.map (·, mem.take bytes) := by
  induction ys generalizing σ xs ps fuel
  all_goals obtain ⟨fuel, rfl⟩ := Nat.exists_eq_succ_of_ne_zero <| Nat.ne_zero_of_lt hf
  case nil => exact ⟨σ, rfl, by simpa [outcomes, accepted, refused] using h, rfl, rfl, by simp⟩
  case cons a ys hi =>
    have hf := Nat.lt_of_succ_lt_succ hf
    obtain ⟨_, p, hp, hcl⟩ := h.client a (by simp)
    have hw : portwrite env σ a mem bytes = _ := portwrite_of_tcp hp hcl.portwrite
    have h₁ := h.log (.write a <| mem.take bytes)
    have hwr : (σ.log <| .write a <| mem.take bytes).writes = _ := writes_of_write rfl
    obtain ⟨_, _, _, hchain, _⟩ := h.script
    have hnext : σ.clientNext a = ys.head? := hchain.suffix.tail.head?_eq
    simp only [writeClients, List.head?_cons, hw, Int.toNat_natCast, Option.bind_eq_bind,
      Option.bind_some, outcomes]
    split
    case isTrue hgot =>
      obtain ⟨σ₂, hk, h₂, hb, htime, htrace⟩ := h₁.exists_killScriptClient
      obtain ⟨σ', hwc, h', hb', hg, hws⟩ := hi h₂ hf
      have hg₂ := (Mute.killFrame.killScriptClient hk).gdb
      refine ⟨σ', by simpa [hk] using hwc, ?_, hb'.trans hb, hg.trans hg₂, ?_⟩
      case refine_1 =>
        have ht : σ₂.time = σ.time + 2 := htime
        rw [accepted_cons, refused_cons, if_pos hgot, if_pos hgot, ← ht]
        simpa [List.filter_filter, Bool.and_comm] using h'
      case refine_2 => rw [hws, writes_of_close htrace, hwr]; simp
    case isFalse hgot =>
      have h₁ : Serves _ s ((xs ++ [a]) ++ ys) ps := List.append_assoc xs [a] ys ▸ h₁
      obtain ⟨σ', hwc, h', hb, hg, hws⟩ := hi h₁ hf
      refine ⟨σ', by simpa [State.log, hp, hnext] using hwc, ?_, hb, hg, ?_⟩
      case refine_1 =>
        rw [accepted_cons, refused_cons, if_neg hgot, if_neg hgot]
        rw [List.append_assoc] at h'
        exact h'
      case refine_2 => rw [hws, hwr]; simp

theorem Serves.exists_deliver (h : Serves σ s cs ps) (env : Env) (mem : List Byte) (bytes : Nat) :
    ∃ σ', deliver env σ s mem bytes = some σ' ∧
      Serves σ' s (accepted (outcomes env (mem.take bytes) σ.time cs))
        (ps.filter (· ∉ refused (outcomes env (mem.take bytes) σ.time cs))) ∧
      σ'.writes = σ.writes ++ cs.map (·, mem.take bytes) ∧
      σ'.breakPort s = σ.breakPort s ∧
      σ'.gdb = if σ.breakPort s then { σ.gdb with arr := [] } else σ.gdb := by
  have ⟨sp, hsp, _, hc, _⟩ := h.script
  have hf : cs.length < σ.fresh + 1 :=
    Nat.lt_succ_of_le <| length_le_of_forall_lt hc.nodup fun c => h.lt_fresh
  have h₀ : Serves σ s ([] ++ cs) ps := h
  have ⟨σ₁, hw, h₁, hb, hg, hws⟩ : ∃ σ₁,
      writeClients env s mem bytes (σ.fresh + 1) σ cs.head? = some σ₁ ∧ _ :=
    h₀.exists_writeClients hf
  have ⟨sp₁, hsp₁, _⟩ := h₁.script
  have hb₁ : σ₁.breakPort s = sp₁.breakPort := by rw [State.breakPort, hsp₁]; rfl
  refine ⟨if σ.breakPort s then { σ₁ with gdb := { σ₁.gdb with arr := [] } } else σ₁,
    ?_, ?_, ?_, ?_, ?_⟩
  case refine_1 => simp [deliver, hsp, hc.head?_eq, hw, hsp₁, ← hb, hb₁]
  case refine_2 =>
    split
    case isTrue  => exact ⟨⟨h₁.chain, h₁.lt, h₁.isSome⟩, h₁.script, h₁.client⟩
    case isFalse => exact h₁
  case refine_3 =>
    rw [← hws]
    split <;> rfl
  case refine_4 =>
    rw [← hb]
    split <;> rfl
  case refine_5 =>
    rw [← hg]
    split <;> rfl

-- A call that transmits offers the same bytes to every client once, in the order of the list. Those
-- who take some stay on it, and the other ones are removed from both lists.
theorem broadcasts (h : Serves σ s cs ps) (hp : σ.port s = some sp)
    (ht : transmits env σ sp buf bytes = some mem) :
    ∃ σ', writeScriptClients env σ s buf bytes = some σ' ∧
      σ'.writes = σ.writes ++ cs.map (·, mem) ∧
      Serves σ' s (accepted (outcomes env mem σ.time cs))
        (ps.filter (· ∉ refused (outcomes env mem σ.time cs))) := by
  simp only [transmits] at ht
  simp only [writeScriptClients, hp, Option.bind_eq_bind, Option.bind_some]
  split at ht
  case isFalse hsplit =>
    cases ht
    have ⟨σ', hd, h', hws, _⟩ := h.exists_deliver env buf bytes
    exact ⟨σ', by rw [if_neg hsplit]; exact hd, hws, h'⟩
  case isTrue hsplit =>
    simp only [Gdb.read] at ht
    split at ht
    case isFalse => contradiction
    case isTrue hx =>
      cases ht
      generalize hg : (σ.gdb.scan <| buf.take bytes).1 = g
      have h₁ : Serves { σ with gdb := g } s cs ps :=
        ⟨⟨h.chain, h.lt, h.isSome⟩, h.script, h.client⟩
      have ⟨σ', hd, h', hws, _⟩ := h₁.exists_deliver env g.arr g.arr.length
      rw [List.take_length] at h' hws
      refine ⟨σ', ?_, hws, h'⟩
      rw [if_pos hsplit, if_pos hx]
      exact hg ▸ hd

-- The first one of two clients does not take the bytes.
def broadcastEnv : Env where
  read _ _           := .ok []
  write _ c bytes    := if c = 1 then -1 else bytes.length
  accept _           := -1
  socket _           := -1
  connect _          := -1
  openFifo _         := -1

def twoClients : State where
  port a :=
    if a = 0 then some { cls := some .scriptPort, clients := some 1 }
    else if a = 1 ∨ a = 2 then some {
      cls := some .scriptClient, scriptRef := some 0, portclose := some .tcp,
      portwrite := some .tcp }
    else none
  clientNext a := if a = 1 then some 2 else none
  next a := if a = 2 then some 0 else if a = 0 then some 1 else none
  rports := some 2
  fresh  := 3

theorem serves_twoClients : Serves twoClients 0 [1, 2] [2, 0, 1] where
  chain  := .cons <| .cons <| .cons .nil
  lt     := by decide
  isSome := by decide
  script := ⟨_, rfl, rfl, .cons <| .cons .nil, by decide⟩
  client := by
    simp only [List.forall_mem_cons, List.not_mem_nil, false_imp_iff, implies_true, and_true]
    exact ⟨⟨by decide, _, rfl, rfl, rfl, rfl, rfl, rfl⟩,
      ⟨by decide, _, rfl, rfl, rfl, rfl, rfl, rfl⟩⟩

theorem broadcasts_of_two : ∃ σ', writeScriptClients broadcastEnv twoClients 0 [97] 1 = some σ' ∧
    σ'.writes = twoClients.writes ++ [1, 2].map (·, [97]) ∧
    Serves σ' 0 (accepted (outcomes broadcastEnv [97] twoClients.time [1, 2]))
      ([2, 0, 1].filter (· ∉ refused (outcomes broadcastEnv [97] twoClients.time [1, 2]))) :=
  broadcasts serves_twoClients rfl rfl

end Write

section Network

variable {n : Net}

-- As long as no link leads to a port that has been destroyed, a script port serves its clients.
theorem Refines.serves (h : Refines σ n) (hi : n.Inv) (hv : n.Valid) (hs : n.script = some s) :
    Serves σ s n.clients n.ports where
  toListed := h.listed hi
  script   := by
    have ⟨y, hy, hc⟩ := hi.sPort s hs
    have ⟨sp, hsp, he⟩ := h.exists_port hy
    subst he
    refine ⟨sp, hsp, hc, h.clients hs hsp, fun c hm => ?_⟩
    exact (hv.isClient hi hm).not_side s _ hs hy
  client c hm := by
    have ⟨hp, ⟨x, hx, hc⟩, _⟩ := hv.isClient hi hm
    have ⟨p, hpc, he⟩ := h.exists_port hx
    subst he
    have hr := hi.role hx
    have ⟨s', hs'⟩ := Option.isSome_iff_exists.mp <| hr.scriptRef_of_client hc
    cases hs.symm.trans <| hi.scriptRef hx hs'
    refine ⟨hp, p, hpc, hc, hr.peer_of_client hc, hs', ?_, hr.portwrite_of_client hc⟩
    have hn : ¬p.node.isPermanent := by simp [Node.isPermanent, hc]
    exact (hr.isPermanent_or.resolve_left fun hp => hn hp.left).right.right.left

theorem Represents.serves (h : Represents σ Net.Valid) (hs : σ.script = some s) :
    Serves σ s (σ.clients s) σ.ports := by
  have ⟨n, h, hi, hv⟩ := h
  have hs := h.script_eq.symm.trans hs
  have ⟨y, hy, _⟩ := hi.sPort s hs
  have ⟨sp, hsp, _⟩ := h.exists_port hy
  rw [h.clients_eq hi hs hsp, h.ports_eq hi]
  exact h.serves hi hv hs

end Network

end Proxy
