import MyLinuxEnv.Proxy.Theorems.Kill

open Memory

namespace Proxy

-- The managed list, all of whose ports are there.
structure Listed (σ : State) (ps : List Addr) : Prop where
  chain : Chain σ.next σ.rports ps
  lt : ∀ a ∈ ps, a < σ.fresh
  isSome : ∀ a ∈ ps, (σ.port a).isSome

-- The handles which are kept for later fit into the set.
structure State.Fits (σ : State) : Prop where
  listenFd : σ.listenFd < 1024
  fifoConFd : σ.fifoConFd < 1024

-- The same ports are on the same list, and nothing has been closed.
structure Steady (σ σ' : State) : Prop where
  next : σ'.next = σ.next
  rports : σ'.rports = σ.rports
  fresh : σ'.fresh = σ.fresh
  time : σ'.time = σ.time
  trace : σ'.trace = σ.trace
  isSome : ∀ c, (σ'.port c).isSome = (σ.port c).isSome
  fits : σ.Fits → σ'.Fits

-- Only the managed list has changed, or what depends on it.
structure Relists (σ σ' : State) : Prop where
  port : σ'.port = σ.port
  clientNext : σ'.clientNext = σ.clientNext
  fresh : σ'.fresh = σ.fresh
  time : σ'.time = σ.time
  trace : σ'.trace = σ.trace
  fits : σ.Fits → σ'.Fits

-- Some of the ports on the list have been closed, one after the other, and removed.
structure Removes (σ : State) (ks ps : List Addr) (σ' : State) : Prop where
  listed : Listed σ' (ps.filter (· ∉ ks))
  fresh : σ'.fresh = σ.fresh
  time : σ'.time = σ.time + ks.length
  trace : σ'.trace = σ.trace ++ ks.map .close
  isSome : ∀ c, (σ'.port c).isSome = (decide (c ∉ ks) && (σ.port c).isSome)

variable {σ σ' σ'' : State} {a b : Addr} {ps ks : List Addr} {p : Port}

section Lists

variable {fuel : Nat} {prev : Addr} {iport : Option Addr} {temp : Int} {l : List Addr}

theorem exists_maxSock (hc : Chain σ.next iport l) (hl : ∀ i ∈ l, ∃ p, σ.port i = some p)
    (hf : l.length < fuel) : ∃ t, maxSock σ fuel iport temp = some t := by
  induction l generalizing fuel iport temp
  all_goals
    obtain ⟨fuel, rfl⟩ := Nat.exists_eq_succ_of_ne_zero <| Nat.ne_zero_of_lt hf
    have hh := hc.head?_eq
    subst hh
  case nil => exact ⟨temp, rfl⟩
  case cons i l hi =>
    have ⟨⟨p, hp⟩, hl⟩ := List.forall_mem_cons.mp hl
    have ⟨t, ht⟩ :
        ∃ t, maxSock σ fuel (σ.next i) (if temp < p.sock then p.sock else temp) = some t :=
      hi hc.tail hl <| Nat.lt_of_succ_lt_succ hf
    exact ⟨t, by simpa [maxSock, hp] using ht⟩

theorem exists_prevPort (hc : Chain σ.next iport l) (hl : ∀ i ∈ l, ∃ p, σ.port i = some p)
    (hf : l.length < fuel) : ∃ q, prevPort σ a fuel prev iport = some q := by
  induction l generalizing fuel prev iport
  all_goals
    obtain ⟨fuel, rfl⟩ := Nat.exists_eq_succ_of_ne_zero <| Nat.ne_zero_of_lt hf
    have hh := hc.head?_eq
    subst hh
  case nil => exact ⟨none, rfl⟩
  case cons i l hi =>
    have ⟨⟨p, hp⟩, hl⟩ := List.forall_mem_cons.mp hl
    by_cases ha : i = a
    case pos => exact ⟨some prev, by simp [prevPort, ha]⟩
    case neg =>
      have ⟨q, hq⟩ : ∃ q, prevPort σ a fuel i (σ.next i) = some q :=
        hi hc.tail hl <| Nat.lt_of_succ_lt_succ hf
      exact ⟨q, by simpa [prevPort, ha, hp] using hq⟩

end Lists

section Steady

theorem Steady.refl (σ : State) : Steady σ σ :=
  ⟨rfl, rfl, rfl, rfl, rfl, fun _ => rfl, fun h => ⟨h.1, h.2⟩⟩

theorem Steady.trans (h : Steady σ σ') (h' : Steady σ' σ'') : Steady σ σ'' where
  next     := h'.next.trans h.next
  rports   := h'.rports.trans h.rports
  fresh    := h'.fresh.trans h.fresh
  time     := h'.time.trans h.time
  trace    := h'.trace.trans h.trace
  isSome c := (h'.isSome c).trans (h.isSome c)
  fits     := h'.fits ∘ h.fits

theorem isSome_modify (σ : State) (a : Addr) (f : Port → Port) (c : Addr) :
    ((σ.modify a f).port c).isSome = (σ.port c).isSome := by
  by_cases hc : c = a
  case pos => subst hc; simp
  case neg => rw [State.modify_port_of_ne hc]

theorem Steady.modify (σ : State) (a : Addr) (f : Port → Port) : Steady σ (σ.modify a f) :=
  ⟨rfl, rfl, rfl, rfl, rfl, isSome_modify σ a f, fun h => ⟨h.1, h.2⟩⟩

theorem Listed.congr (h : Listed σ ps) (hn : σ'.next = σ.next) (hr : σ'.rports = σ.rports)
    (hf : σ'.fresh = σ.fresh) (hp : ∀ c, (σ'.port c).isSome = (σ.port c).isSome) :
    Listed σ' ps where
  chain       := hn ▸ hr ▸ h.chain
  lt c hc     := hf ▸ h.lt c hc
  isSome c hc := (hp c).trans (h.isSome c hc)

theorem Listed.of_steady (h : Listed σ ps) (hs : Steady σ σ') : Listed σ' ps :=
  h.congr hs.next hs.rports hs.fresh hs.isSome

theorem Listed.length_le (h : Listed σ ps) : ps.length ≤ σ.fresh :=
  length_le_of_forall_lt h.chain.nodup h.lt

theorem Listed.exists_port (h : Listed σ ps) (ha : a ∈ ps) : ∃ p, σ.port a = some p :=
  Option.isSome_iff_exists.mp <| h.isSome a ha

theorem Listed.exists_refresh (h : Listed σ ps) :
    ∃ k, refreshNsockhandle σ = some { σ with nsockhandle := k } := by
  have ⟨t, ht⟩ : ∃ t, maxSock σ (σ.fresh + 1) σ.rports (-1) = some t :=
    exists_maxSock h.chain (fun _ => h.exists_port) <| Nat.lt_succ_of_le h.length_le
  exact ⟨t + 1, by simp [refreshNsockhandle, ht]⟩

end Steady

section Reset

-- A handle that fits into the set can be swapped back in.
theorem Listed.exists_swapBack {fd : Int} (h : Listed σ ps) (hp : σ.port a = some p) (h₀ : 0 ≤ fd)
    (h₁ : fd < 1024) (handler : Handler) : ∃ σ', swapBack σ a fd handler = some σ' ∧
      Steady σ σ' := by
  have ⟨τ, hτ, hs⟩ : ∃ τ, (σ.fdClr p.sock).fdSet fd = some τ ∧ Steady σ τ :=
    ⟨_, if_pos ⟨h₀, h₁⟩, rfl, rfl, rfl, rfl, rfl, fun _ => rfl, fun h => ⟨h.1, h.2⟩⟩
  have ⟨k, hk⟩ := (h.of_steady hs).exists_refresh
  refine ⟨({ τ with nsockhandle := k }).modify a
    ({ · with readMessage := some handler, sock := fd }), ?_, ?_⟩
  case refine_1 => simp only [swapBack, hp, hτ, hk, Option.bind_eq_bind, Option.bind_some]
  case refine_2 =>
    have hn : Steady τ { τ with nsockhandle := k } :=
      ⟨rfl, rfl, rfl, rfl, rfl, fun _ => rfl, fun h => ⟨h.1, h.2⟩⟩
    exact hs.trans <| hn.trans <| .modify ..

theorem Listed.exists_swapBack_or {c : Prop} [Decidable c] {fd : Int} {f : State → State}
    (h : Listed σ ps) (hp : ∃ p, σ.port a = some p) (hc : c → 0 ≤ fd) (h₁ : fd < 1024)
    (handler : Handler) (hf : ∀ τ, Steady τ (f τ)) :
    ∃ σ', (if c then (swapBack σ a fd handler).map f else some σ) = some σ' ∧ Steady σ σ' := by
  have ⟨p, hp⟩ := hp
  split
  case isFalse => exact ⟨σ, rfl, .refl σ⟩
  case isTrue ht =>
    have ⟨τ, hs, hτ⟩ := h.exists_swapBack hp (hc ht) h₁ handler
    exact ⟨f τ, by simp [hs], hτ.trans (hf τ)⟩

theorem Steady.exists_port (h : Steady σ σ') (hp : σ.port a = some p) :
    ∃ p, σ'.port a = some p := by
  have hs := h.isSome a
  rw [hp, Option.isSome_some] at hs
  exact Option.isSome_iff_exists.mp hs

theorem Listed.exists_resetport (h : Listed σ ps) (hf : σ.Fits) (hp : σ.port a = some p) :
    ∃ σ', resetport σ a = some σ' ∧ Steady σ σ' := by
  have hs₁ : Steady σ (if p.cls = some .remotePort ∧ p.isMaster
      then σ.modify a ({ · with peer := none }) else σ) := by
    split
    case isTrue  => exact .modify ..
    case isFalse => exact .refl σ
  generalize hσ₁ : (if p.cls = some .remotePort ∧ p.isMaster
    then σ.modify a ({ · with peer := none }) else σ) = σ₁ at hs₁
  have ⟨σ₂, h₂, hs₂⟩ := (h.of_steady hs₁).exists_swapBack_or
    (c := p.type = some .listen ∧ 0 ≤ σ₁.listenFd) (f := ({ · with listenFd := -1 }))
    (hs₁.exists_port hp) And.right (hs₁.fits hf).listenFd .remotePortAccept
    fun _ => ⟨rfl, rfl, rfl, rfl, rfl, fun _ => rfl,
      fun h => ⟨(by decide : (-1 : Int) < 1024), h.2⟩⟩
  have hs₂ := hs₁.trans hs₂
  have ⟨σ₃, h₃, hs₃⟩ := (h.of_steady hs₂).exists_swapBack_or
    (c := p.type = some .fifoCon ∧ 0 ≤ σ₂.fifoConFd) (f := ({ · with fifoConFd := -1 }))
    (hs₂.exists_port hp) And.right (hs₂.fits hf).fifoConFd .remotePortFifoCon
    fun _ => ⟨rfl, rfl, rfl, rfl, rfl, fun _ => rfl,
      fun h => ⟨h.1, (by decide : (-1 : Int) < 1024)⟩⟩
  refine ⟨σ₃, ?_, hs₂.trans hs₃⟩
  simp only [resetport, hp, hσ₁, Option.bind_eq_bind, Option.bind_some]
  exact ite_bind_eq_some_iff.mpr ⟨σ₂, h₂, h₃⟩

end Reset

section Release

-- The pointers to the sides of a script connection can be followed from a port.
def State.Releasable (σ : State) (a : Addr) (p : Port) : Prop :=
  ∀ s, p.scriptRef = some s → ∃ sp, σ.port s = some sp ∧
    (sp.lscript = some a → ∃ r, sp.rscript = some r ∧ (σ.port r).isSome)

theorem exists_releaseScript (hp : σ.port a = some p) (hr : σ.Releasable a p) :
    ∃ σ', releaseScript σ a = some σ' ∧ Steady σ σ' ∧ Quiet σ σ' := by
  suffices hs : ∃ σ', releaseScript σ a = some σ' ∧ Steady σ σ' by
    obtain ⟨σ', h, hs⟩ := hs
    exact ⟨σ', h, hs, quiet_of_releaseScript h⟩
  cases hs : p.scriptRef
  case none => exact ⟨σ, by simp [releaseScript, hp, hs], .refl σ⟩
  case some s =>
    have ⟨sp, hsp, hl⟩ := hr s hs
    by_cases ha : sp.lscript = some a
    case neg => exact ⟨σ, by simp [releaseScript, hp, hs, hsp, ha], .refl σ⟩
    case pos =>
      have ⟨r, hr, hsome⟩ := hl ha
      have ⟨q, hq⟩ := Option.isSome_iff_exists.mp hsome
      refine ⟨if q.isMaster then σ else σ.modify s ({ · with scriptInUse := false }), ?_, ?_⟩
      · simp [releaseScript, hp, hs, hsp, ha, hr, hq]
      · split
        case isTrue  => exact .refl σ
        case isFalse => exact .modify ..

end Release

section Unlink

theorem Listed.filter (h : Listed σ ps) {qs : List Addr} (hr : Relists σ σ')
    (hq : ps.filter (· ≠ a) = qs) (hc : Chain σ'.next σ'.rports qs) :
    Listed σ' (ps.filter (· ≠ a)) where
  chain       := hq ▸ hc
  lt c hc     := hr.fresh ▸ h.lt c (List.mem_filter.mp hc).1
  isSome c hc := hr.port ▸ h.isSome c (List.mem_filter.mp hc).1

-- Wherever a port is on the list, it leaves it before it is closed.
theorem Listed.exists_unlink (h : Listed σ ps) (ha : a ∈ ps) :
    ∃ τ, Relists σ τ ∧ Listed τ (ps.filter (· ≠ a)) ∧
      ∀ {kill : State → Addr → Option State} {σ' : State} {qs : List Addr},
        closeport kill τ a = some σ' → Listed σ' qs →
        ∃ σ'', unlinkport kill σ a = some σ'' ∧ Relists σ' σ'' ∧ Listed σ'' qs := by
  obtain ⟨first, l, rfl⟩ := List.exists_cons_of_ne_nil <| List.ne_nil_of_mem ha
  have hfirst : σ.rports = some first := h.chain.head_eq
  by_cases hf : first = a
  case pos =>
    subst hf
    have hr : Relists σ { σ with rports := σ.next first } :=
      ⟨rfl, rfl, rfl, rfl, rfl, fun h => ⟨h.1, h.2⟩⟩
    have hc : Chain σ.next σ.rports ([] ++ first :: l) := h.chain
    refine ⟨_, hr, h.filter hr (Chain.filter_ne hc) h.chain.tail, ?_⟩
    intro kill σ' qs hc hl
    exact ⟨σ', by simpa [unlinkport, hfirst] using hc, ⟨rfl, rfl, rfl, rfl, rfl, id⟩, hl⟩
  case neg =>
    obtain ⟨q, hq⟩ : ∃ q, prevPort σ a (σ.fresh + 1) first (some first) = some q :=
      exists_prevPort (hfirst ▸ h.chain) (fun _ => h.exists_port) <| Nat.lt_succ_of_le h.length_le
    rcases mem_of_prevPort (hfirst ▸ h.chain) hq with ⟨_, hn⟩ | ⟨_, hh⟩ | ⟨b, xs, ys, rfl, hb⟩
    case inl     => contradiction
    case inr.inl => exact absurd (Option.some.inj hh) hf
    case inr.inr =>
      have hfilter : (first :: l).filter (· ≠ a) = xs ++ b :: ys := by
        have hch := h.chain
        rw [hb, List.append_cons] at hch
        rw [hb, List.append_cons, List.append_cons xs b ys]
        exact hch.filter_ne
      have hr : Relists σ (σ.setNext b (σ.next a)) :=
        ⟨rfl, rfl, rfl, rfl, rfl, fun h => ⟨h.1, h.2⟩⟩
      refine ⟨_, hr, h.filter hr hfilter (hb ▸ h.chain).unlink, ?_⟩
      intro kill σ' qs hc hl
      obtain ⟨k, hk⟩ := hl.exists_refresh
      refine ⟨{ σ' with nsockhandle := k }, ?_, ⟨rfl, rfl, rfl, rfl, rfl, fun h => ⟨h.1, h.2⟩⟩,
        ⟨hl.chain, hl.lt, hl.isSome⟩⟩
      simp [unlinkport, hfirst, hf, hq, hc, hk]

end Unlink

section Close

variable {kill : State → Addr → Option State} {q : Port} {τ : State}

-- A port that has been closed, but not been freed yet.
def State.shut (σ : State) (a : Addr) (sock : Int) : State :=
  ((σ.fdClr sock).log <| .close a).modify a ({ · with sock := -1 })

theorem portclose_of_tcp (hp : σ.port a = some p) (hd : p.portclose = some .tcp) :
    portclose σ a = some (σ.shut a p.sock) := by
  simp [portclose, hp, hd, State.shut]

theorem shut_port_self (hp : σ.port a = some p) (sock : Int) :
    (σ.shut a sock).port a = some { p with sock := -1 } := by
  simp [State.shut, State.log, State.fdClr, hp]

theorem shut_port_of_ne (h : b ≠ a) (sock : Int) : (σ.shut a sock).port b = σ.port b :=
  State.modify_port_of_ne h

-- The peer is left alone if it has been closed before.
theorem closeport_of_closed (hp : σ.port a = some p) (hd : p.portclose = some .tcp)
    (hb : ∀ b, p.peer = some b → ∃ q, (σ.shut a p.sock).port b = some q ∧ q.sock = -1) :
    closeport kill σ a = some ((σ.shut a p.sock).free a) := by
  simp only [closeport, portclose_of_tcp hp hd, shut_port_self hp, Option.bind_eq_bind,
    Option.bind_some]
  split
  case h_1     => rfl
  case h_2 b h =>
    have ⟨q, hq, ho⟩ := hb b h
    simp [hq, ho]

theorem closeport_of_open (hp : σ.port a = some p) (hd : p.portclose = some .tcp)
    (hb : p.peer = some b) (hq : (σ.shut a p.sock).port b = some q) (ho : q.sock ≠ -1)
    (hk : kill (σ.shut a p.sock) b = some τ) : closeport kill σ a = some (τ.free a) := by
  simp [closeport, portclose_of_tcp hp hd, shut_port_self hp, hb, hq, ho, hk]

theorem Listed.shut (h : Listed σ ps) (a : Addr) (sock : Int) : Listed (σ.shut a sock) ps :=
  h.congr rfl rfl rfl (isSome_modify _ a _)

theorem Listed.free (h : Listed σ ps) (ha : a ∉ ps) : Listed (σ.free a) ps where
  chain       := h.chain
  lt          := h.lt
  isSome c hc := by
    have hne : c ≠ a := fun he => ha (he ▸ hc)
    rw [State.free_port_of_ne hne]
    exact h.isSome c hc

-- A port has left the list, and is about to be closed.
structure Releases (σ : State) (a : Addr) (ps : List Addr) (τ : State) : Prop where
  listed : Listed τ (ps.filter (· ≠ a))
  fresh : τ.fresh = σ.fresh
  time : τ.time = σ.time
  trace : τ.trace = σ.trace
  clientNext : τ.clientNext = σ.clientNext
  core : ∀ c, (τ.port c).map Port.core = (σ.port c).map Port.core
  fits : σ.Fits → τ.Fits

theorem Listed.exists_release (h : Listed σ ps) (ha : a ∈ ps) (hp : σ.port a = some p)
    (hn : ¬p.isPermanent) (hr : σ.Releasable a p) :
    ∃ τ, Releases σ a ps τ ∧ ∀ {fuel : Nat} {σ' : State} {qs : List Addr},
      closeport (killportFrom fuel) τ a = some σ' → Listed σ' qs →
      ∃ σ'', killportFrom (fuel + 1) σ a = some σ'' ∧ Relists σ' σ'' ∧ Listed σ'' qs := by
  have ⟨σ₁, h₁, hs, hq⟩ := exists_releaseScript hp hr
  have ⟨τ, hτ, hl, hu⟩ := (h.of_steady hs).exists_unlink ha
  refine ⟨τ, ?_, ?_⟩
  case refine_1 =>
    exact ⟨hl, hτ.fresh.trans hs.fresh, hτ.time.trans hs.time, hτ.trace.trans hs.trace,
      hτ.clientNext.trans hq.clientNext, fun c => hτ.port ▸ hq.core c, hτ.fits ∘ hs.fits⟩
  case refine_2 =>
    intro fuel σ' qs hc hl'
    have ⟨σ'', hk, hr⟩ := hu hc hl'
    exact ⟨σ'', by simp [killportFrom, hp, hn, h₁, hk], hr⟩

theorem Releases.exists_port (h : Releases σ a ps τ) (hp : σ.port b = some p) :
    ∃ p', τ.port b = some p' ∧ p'.node = p.node := by
  have hc := h.core b
  rw [hp, Option.map_some] at hc
  have ⟨p', hp', he⟩ := Option.map_eq_some_iff.mp hc
  exact ⟨p', hp', congrArg Prod.fst he⟩

theorem Releases.isSome (h : Releases σ a ps τ) (c : Addr) :
    (τ.port c).isSome = (σ.port c).isSome := by
  have hc := congrArg Option.isSome (h.core c)
  simpa using hc

theorem Port.isClosed_congr {p p' : Port} (h : p'.node = p.node) : p'.sock = -1 ↔ p.sock = -1 := by
  have ho := congrArg Node.isOpen h
  simpa [Port.node, not_iff_not] using ho

-- The other ports which have been removed in the meantime are already gone when it is freed.
theorem Removes.listed_free {sock : Int} (h : Removes (τ.shut a sock) ks (ps.filter (· ≠ a)) σ') :
    Listed (σ'.free a) (ps.filter (· ∉ a :: ks)) := by
  have hf : (ps.filter (· ≠ a)).filter (· ∉ ks) = ps.filter (· ∉ a :: ks) := by
    simp [List.filter_filter, Bool.and_comm]
  exact hf ▸ h.listed.free fun hm => by simp at hm

theorem Releases.removes {sock : Int} (hτ : Releases σ a ps τ)
    (h : Removes (τ.shut a sock) ks (ps.filter (· ≠ a)) σ') (hr : Relists (σ'.free a) σ'')
    (hl : Listed σ'' (ps.filter (· ∉ a :: ks))) : Removes σ (a :: ks) ps σ'' where
  listed := hl
  fresh  := hr.fresh.trans <| h.fresh.trans hτ.fresh
  time   := by
    have ht : σ''.time = τ.time + 1 + ks.length := hr.time.trans h.time
    rw [ht, hτ.time, List.length_cons]
    omega
  trace  := by
    have ht : σ''.trace = τ.trace ++ [.close a] ++ ks.map .close := hr.trace.trans h.trace
    rw [ht, hτ.trace, List.append_assoc]
    rfl
  isSome c := by
    rw [hr.port]
    by_cases hca : c = a
    case pos => simp [hca]
    case neg =>
      rw [State.free_port_of_ne hca, h.isSome c, shut_port_of_ne hca, hτ.isSome c]
      simp [hca]

theorem Steady.removes (h : Listed σ ps) (hs : Steady σ σ') : Removes σ [] ps σ' where
  listed   := by simpa using h.of_steady hs
  fresh    := hs.fresh
  time     := hs.time
  trace    := by simp [hs.trace]
  isSome c := by simp [hs.isSome c]

-- A port goes alone if its peer has been closed before.
theorem Listed.exists_killportFrom_alone (h : Listed σ ps) (fuel : Nat) (ha : a ∈ ps)
    (hp : σ.port a = some p) (hn : ¬p.isPermanent) (hd : p.portclose = some .tcp)
    (hr : σ.Releasable a p)
    (hb : ∀ b, p.peer = some b → b ≠ a → ∃ q, σ.port b = some q ∧ q.sock = -1) :
    ∃ σ', killportFrom (fuel + 1) σ a = some σ' ∧ Removes σ [a] ps σ' ∧
      σ'.clientNext = σ.clientNext ∧
      ∀ c, c ≠ a → (σ'.port c).map Port.core = (σ.port c).map Port.core := by
  have ⟨τ, hτ, hk⟩ := h.exists_release ha hp hn hr
  have ⟨p', hp', hx⟩ := hτ.exists_port hp
  have hc : closeport (killportFrom fuel) τ a = some ((τ.shut a p'.sock).free a) := by
    apply closeport_of_closed hp' <| (congrArg Node.portclose hx).trans hd
    intro b hpb
    by_cases hba : b = a
    case pos => rw [hba]; exact ⟨_, shut_port_self hp' _, rfl⟩
    case neg =>
      have ⟨q, hqb, ho⟩ := hb b ((congrArg Node.peer hx).symm.trans hpb) hba
      have ⟨q', hqb', hy⟩ := hτ.exists_port hqb
      exact ⟨q', (shut_port_of_ne hba _).trans hqb', (Port.isClosed_congr hy).mpr ho⟩
  have hrem : Removes (τ.shut a p'.sock) [] (ps.filter (· ≠ a)) (τ.shut a p'.sock) :=
    (Steady.refl _).removes <| hτ.listed.shut a p'.sock
  have ⟨σ', hk, hs, hl⟩ := hk hc hrem.listed_free
  refine ⟨σ', hk, hτ.removes hrem hs hl, hs.clientNext.trans hτ.clientNext, ?_⟩
  intro c hca
  rw [hs.port, State.free_port_of_ne hca, shut_port_of_ne hca]
  exact hτ.core c

end Close

section Pair

-- The connections of the list are connected to another one, which is on the list as well, to a
-- permanent port, or to nothing. All that is asked for is what a connection is killed by: the
-- pointers of permanent ports are not followed.
structure Paired (σ : State) (ps : List Addr) : Prop extends Listed σ ps where
  close : ∀ a ∈ ps, ∀ p, σ.port a = some p → ¬p.isPermanent → p.portclose = some .tcp
  peer : ∀ a ∈ ps, ∀ p, σ.port a = some p → ¬p.isPermanent → ∀ b, p.peer = some b →
    ∃ q, σ.port b = some q ∧
      (q.isPermanent ∨ b ∈ ps ∧ b ≠ a ∧ ¬q.isPermanent ∧ q.peer = some a)
  script : ∀ a ∈ ps, ∀ p, σ.port a = some p → ¬p.isPermanent → σ.Releasable a p
  fits : σ.Fits

-- The ports that are closed together with a connection: itself and, if that is still open, the
-- connection on the other side.
def State.isOpenConnection (σ : State) (b : Addr) : Bool :=
  (σ.port b).any fun q => !q.isPermanent && q.sock ≠ -1

def State.ends (σ : State) (a : Addr) : List Addr :=
  a :: (((σ.port a).bind (·.peer)).filter σ.isOpenConnection).toList

variable {q : Port} {τ : State}

theorem exists_shut_port {c : Addr} (sock : Int) (hp : σ.port c = some p) :
    ∃ k, (σ.shut a sock).port c = some { p with sock := k } := by
  by_cases hc : c = a
  case pos => subst hc; exact ⟨-1, shut_port_self hp sock⟩
  case neg => exact ⟨p.sock, (shut_port_of_ne hc sock).trans hp⟩

-- The pointers of the other ports can still be followed.
theorem State.Releasable.of_releases (h : σ.Releasable b q) (hτ : Releases σ a ps τ) {q' : Port}
    (hq : q'.node = q.node) (sock : Int) : (τ.shut a sock).Releasable b q' := by
  intro s hs
  have ⟨sp, hsp, hl⟩ := h s <| (congrArg Node.scriptRef hq).symm.trans hs
  have ⟨sp', hsp', hy⟩ := hτ.exists_port hsp
  have ⟨k, hk⟩ := exists_shut_port (a := a) sock hsp'
  refine ⟨_, hk, fun hls => ?_⟩
  have ⟨r, hr, hsome⟩ := hl <| (congrArg Node.lscript hy).symm.trans hls
  refine ⟨r, (congrArg Node.rscript hy).trans hr, ?_⟩
  rw [State.shut, isSome_modify]
  exact (hτ.isSome r).trans hsome

theorem ends_of_peer (hp : σ.port a = some p) (hb : p.peer = some b) (hq : σ.port b = some q) :
    σ.ends a = if q.isPermanent ∨ q.sock = -1 then [a] else [a, b] := by
  have ho : σ.isOpenConnection b = decide ¬(q.isPermanent ∨ q.sock = -1) := by
    simp [State.isOpenConnection, hq]
  simp only [State.ends, hp, Option.bind_some, hb, Option.filter_some, ho, decide_not]
  split <;> simp_all

-- The peer is killed while the connection has been closed, but is still there: a permanent port is
-- reset, and another connection is removed on its own.
theorem Paired.exists_kill_peer (h : Paired σ ps) (hτ : Releases σ a ps τ) {p' : Port}
    (hp' : τ.port a = some p') (hba : b ≠ a) (hq : σ.port b = some q) (ho : q.sock ≠ -1)
    (hb : q.isPermanent ∨ b ∈ ps ∧ b ≠ a ∧ ¬q.isPermanent ∧ q.peer = some a) :
    ∃ ks σ₁, killportFrom (σ.fresh + 1) (τ.shut a p'.sock) b = some σ₁ ∧
      Removes (τ.shut a p'.sock) ks (ps.filter (· ≠ a)) σ₁ ∧
      (if q.isPermanent ∨ q.sock = -1 then [a] else [a, b]) = a :: ks := by
  have ⟨q', hq', hy⟩ := hτ.exists_port hq
  have hqs : (τ.shut a p'.sock).port b = some q' := (shut_port_of_ne hba _).trans hq'
  have hcls : q'.cls = q.cls := congrArg Node.cls hy
  have hl := hτ.listed.shut a p'.sock
  cases hb
  case inl hqp =>
    have hqp' : q'.isPermanent := by rwa [Port.isPermanent, hcls]
    have hf := hτ.fits h.fits
    have ⟨σ₁, h₁, hs⟩ := hl.exists_resetport ⟨hf.1, hf.2⟩ hqs
    exact ⟨[], σ₁, by simp [killportFrom, hqs, hqp', h₁], hs.removes hl, by simp [hqp]⟩
  case inr hc =>
    have ⟨hbm, _, hqn, hpeer⟩ := hc
    have hqn' : ¬q'.isPermanent := by rwa [Port.isPermanent, hcls]
    have hd : q'.portclose = some .tcp :=
      (congrArg Node.portclose hy).trans <| h.close b hbm q hq hqn
    have hbs : b ∈ ps.filter (· ≠ a) := List.mem_filter.mpr ⟨hbm, by simpa using hba⟩
    have hclosed (c : Addr) (hc : q'.peer = some c) (_ : c ≠ b) :
        ∃ r, (τ.shut a p'.sock).port c = some r ∧ r.sock = -1 := by
      cases hpeer.symm.trans <| (congrArg Node.peer hy).symm.trans hc
      exact ⟨_, shut_port_self hp' _, rfl⟩
    have ⟨σ₁, h₁, hrem, _⟩ := hl.exists_killportFrom_alone σ.fresh hbs hqs hqn' hd
      ((h.script b hbm q hq hqn).of_releases hτ hy _) hclosed
    exact ⟨[b], σ₁, h₁, hrem, by simp [hqn, ho]⟩

-- Whatever its position on the list and that of its peer, killing a connection removes both.
theorem Paired.exists_killport (h : Paired σ ps) (ha : a ∈ ps) (hp : σ.port a = some p)
    (hn : ¬p.isPermanent) : ∃ σ', killport σ a = some σ' ∧ Removes σ (σ.ends a) ps σ' := by
  have hd := h.close a ha p hp hn
  have hr := h.script a ha p hp hn
  cases hb : p.peer
  case none =>
    have ⟨σ', hk, hrem, _⟩ :=
      h.exists_killportFrom_alone (σ.fresh + 1) ha hp hn hd hr (by simp [hb])
    exact ⟨σ', hk, by simpa [State.ends, hp, hb] using hrem⟩
  case some b =>
    have ⟨q, hq, hcase⟩ := h.peer a ha p hp hn b hb
    rw [ends_of_peer hp hb hq]
    by_cases ho : q.sock = -1
    case pos =>
      have ⟨σ', hk, hrem, _⟩ := h.exists_killportFrom_alone (σ.fresh + 1) ha hp hn hd hr
        fun c hc _ => by cases hb.symm.trans hc; exact ⟨q, hq, ho⟩
      exact ⟨σ', hk, by simpa [ho] using hrem⟩
    case neg =>
      have hba : b ≠ a := by
        rintro rfl
        cases hp.symm.trans hq
        cases hcase
        case inl hc => exact hn hc
        case inr hc => exact hc.2.1 rfl
      have ⟨τ, hτ, hk⟩ := h.exists_release ha hp hn hr
      have ⟨p', hp', hx⟩ := hτ.exists_port hp
      have ⟨q', hq', hy⟩ := hτ.exists_port hq
      have ⟨ks, σ₁, h₁, hrem, hks⟩ := h.exists_kill_peer hτ hp' hba hq ho hcase
      have hc : closeport (killportFrom (σ.fresh + 1)) τ a = some (σ₁.free a) := by
        apply closeport_of_open hp' ((congrArg Node.portclose hx).trans hd)
          ((congrArg Node.peer hx).trans hb) ((shut_port_of_ne hba _).trans hq') ?_ h₁
        exact fun ho' => ho <| (Port.isClosed_congr hy).mp ho'
      have ⟨σ', hk, hs, hl⟩ := hk hc hrem.listed_free
      exact ⟨σ', hk, hks ▸ hτ.removes hrem hs hl⟩

theorem nodup_ends (h : Paired σ ps) (ha : a ∈ ps) (hp : σ.port a = some p)
    (hn : ¬p.isPermanent) : (σ.ends a).Nodup := by
  cases hb : p.peer
  case none   => simp [State.ends, hp, hb]
  case some b =>
    have ⟨q, hq, hcase⟩ := h.peer a ha p hp hn b hb
    rw [ends_of_peer hp hb hq]
    split
    case isTrue     => simp
    case isFalse hc =>
      have ⟨_, hba, _⟩ := hcase.resolve_left fun hqp => hc <| .inl hqp
      simpa using hba.symm

-- Killing a connection ends, although it kills its peer, which kills its own peer in turn. Every
-- end of the connection is closed once, and only these leave the list and the memory.
theorem killport_closes_ends (h : Paired σ ps) (ha : a ∈ ps) (hp : σ.port a = some p)
    (hn : ¬p.isPermanent) :
    ∃ σ', killport σ a = some σ' ∧ (σ.ends a).Nodup ∧
      σ'.trace = σ.trace ++ (σ.ends a).map .close ∧
      Chain σ'.next σ'.rports (ps.filter (· ∉ σ.ends a)) ∧
      ∀ c, (σ'.port c).isSome ↔ c ∉ σ.ends a ∧ (σ.port c).isSome := by
  have ⟨σ', hk, hr⟩ := h.exists_killport ha hp hn
  exact ⟨σ', hk, nodup_ends h ha hp hn, hr.trace, hr.listed.chain, fun c => by simp [hr.isSome c]⟩

-- Two connected ports around a permanent one.
def connectedPair : State where
  port a :=
    if a = 0 then some { cls := some .localPort, sock := 3 }
    else if a = 1 then some { portclose := some .tcp, sock := 4, peer := some 2 }
    else if a = 2 then some { portclose := some .tcp, sock := 5, peer := some 1 }
    else none
  next a := if a = 2 then some 0 else if a = 0 then some 1 else none
  rports := some 2
  fresh  := 3

theorem paired_connectedPair : Paired connectedPair [2, 0, 1] where
  chain    := .cons <| .cons <| .cons .nil
  lt       := by decide
  isSome   := by decide
  close    := by simp [connectedPair, Port.isPermanent]
  peer     := by simp [connectedPair]
  script   := by simp [connectedPair, State.Releasable]
  fits     := ⟨by decide, by decide⟩

theorem killport_closes_ends_of_pair : ∃ σ', killport connectedPair 2 = some σ' ∧
    (connectedPair.ends 2).Nodup ∧
    σ'.trace = connectedPair.trace ++ (connectedPair.ends 2).map .close ∧
    Chain σ'.next σ'.rports ([2, 0, 1].filter (· ∉ connectedPair.ends 2)) ∧
    ∀ c, (σ'.port c).isSome ↔ c ∉ connectedPair.ends 2 ∧ (connectedPair.port c).isSome :=
  killport_closes_ends paired_connectedPair (by decide) rfl (by decide)

end Pair

section Network

variable {n : Net}

theorem Refines.exists_port_of_mem (h : Refines σ n) (hi : n.Inv) (ha : a ∈ n.ports) :
    ∃ p, σ.port a = some p := by
  have ⟨x, hx⟩ := Net.live_iff.mp <| hi.live a ha
  exact (h.exists_port hx).imp fun _ => And.left

-- The managed ports of a network are all there.
theorem Refines.listed (h : Refines σ n) (hi : n.Inv) : Listed σ n.ports where
  chain       := h.ports
  lt a ha     := h.fresh ▸ hi.lt_fresh a (hi.live a ha)
  isSome _ ha := Option.isSome_iff_exists.mpr <| h.exists_port_of_mem hi ha

-- The connections of a network are linked to each other as they have to be.
theorem Refines.paired (h : Refines σ n) (hi : n.Inv)
    (hs : ∀ a ∈ n.ports, ∀ p, σ.port a = some p → ¬p.isPermanent → σ.Releasable a p)
    (hf : σ.Fits) : Paired σ n.ports where
  toListed := h.listed hi
  close a _ p hp hn := (hi.role <| h.node_eq hp).isPermanent_or.resolve_left (fun hr => hn hr.left)
    |>.right.right.left
  peer a _ p hp hn b hb := by
    have hk : p.node.isKept := by simp [Node.isKept, show ¬p.node.isPermanent from hn]
    obtain ⟨y, hy, hba, hc⟩ := hi.peer (h.node_eq hp) hk hb
    obtain ⟨q, hq, he⟩ := h.exists_port hy
    subst he
    refine ⟨q, hq, ?_⟩
    cases hi.role hy |>.isPermanent_or
    case inl hq => exact .inl hq.left
    case inr hq => exact .inr ⟨hq.right.left, hba, hq.left, hc.resolve_left hq.left⟩
  script := hs
  fits   := hf

end Network

end Proxy
