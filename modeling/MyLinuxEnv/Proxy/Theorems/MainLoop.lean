import MyLinuxEnv.Proxy.MainLoop
import MyLinuxEnv.Proxy.Theorems.StepEffects

open Memory

namespace Proxy

variable {env : Env} {σ σ' σ'' : State} {n : Net} {a : Addr} {p : Port} {failed : Bool}

-- The links of the managed list have not changed.
structure SameList (σ σ' : State) : Prop where
  next : σ'.next = σ.next
  rports : σ'.rports = σ.rports
  fresh : σ'.fresh = σ.fresh

namespace SameList

theorem ports_eq (h : SameList σ σ') : σ'.ports = σ.ports := by
  rw [State.ports, h.next, h.rports, h.fresh, State.ports]

theorem trans (h : SameList σ σ') (h' : SameList σ' σ'') : SameList σ σ'' :=
  ⟨h'.next.trans h.next, h'.rports.trans h.rports, h'.fresh.trans h.fresh⟩

theorem of_quiet (h : Quiet σ σ') : SameList σ σ' :=
  ⟨h.next, h.rports, h.fresh⟩

theorem refl (σ : State) : SameList σ σ :=
  .of_quiet <| .refl σ

theorem modify {f : Port → Port} : SameList σ (σ.modify a f) :=
  ⟨rfl, rfl, rfl⟩

-- The handle of a port is replaced by another one, which is selected from now on.
theorem swap {fd old : Int} (hs : (σ.fdClr old).fdSet fd = some σ')
    (hr : refreshNsockhandle σ' = some σ'') : SameList σ σ'' :=
  .of_quiet <| (Quiet.fdClr σ old).trans <| (quiet_of_fdSet hs).trans <| quiet_of_refresh hr

theorem of_remotePortAccept (h : remotePortAccept env σ a = some σ') : SameList σ σ' := by
  obtain ⟨p, _, h⟩ := Option.bind_eq_some_iff.mp h
  have ht : SameList σ { σ with time := σ.time + 1 } := ⟨rfl, rfl, rfl⟩
  dsimp only at h
  split at h
  case isTrue  => cases h; exact ht
  case isFalse =>
    split at h
    case isFalse => cases h; exact ht
    case isTrue  =>
      obtain ⟨σ₂, h₂, h⟩ := Option.bind_eq_some_iff.mp h
      obtain ⟨σ₃, h₃, h⟩ := Option.bind_eq_some_iff.mp h
      cases h
      refine trans ?_ <| (swap h₂ h₃).trans .modify
      exact ⟨rfl, rfl, rfl⟩

theorem of_fifoConnect (h : fifoConnect env σ a = some σ') : SameList σ σ' := by
  obtain ⟨p, _, h⟩ := Option.bind_eq_some_iff.mp h
  dsimp only at h
  split at h
  case isTrue  => cases h; exact ⟨rfl, rfl, rfl⟩
  case isFalse =>
    split at h
    case isTrue  => cases h; exact ⟨rfl, rfl, rfl⟩
    case isFalse =>
      split at h
      case isFalse => cases h; exact ⟨rfl, rfl, rfl⟩
      case isTrue  =>
        obtain ⟨σ₂, h₂, h⟩ := Option.bind_eq_some_iff.mp h
        obtain ⟨σ₃, h₃, h⟩ := Option.bind_eq_some_iff.mp h
        cases h
        refine trans ?_ <| (swap h₂ h₃).trans .modify
        exact ⟨rfl, rfl, rfl⟩

theorem of_remotePortFifoConRead (h : remotePortFifoConRead env σ a = some σ') :
    SameList σ σ' := by
  obtain ⟨p, _, h⟩ := Option.bind_eq_some_iff.mp h
  have ht : SameList σ { σ with time := σ.time + 1 } := ⟨rfl, rfl, rfl⟩
  dsimp only at h
  split at h
  case h_1 =>
    obtain ⟨σ₁, h₁, h⟩ := ite_bind_eq_some_iff.mp h
    have h₁ : SameList σ σ₁ := by
      split at h₁
      case isTrue  => exact ht.trans <| of_fifoConnect h₁
      case isFalse => cases h₁; exact ht
    cases h
    refine h₁.trans ?_
    repeat' split
    all_goals exact ⟨rfl, rfl, rfl⟩
  case h_2 =>
    split at h
    case isTrue  => contradiction
    case isFalse =>
      obtain ⟨σ₂, h₂, h⟩ := Option.bind_eq_some_iff.mp h
      refine trans ?_ <| of_quiet <| (quiet_of_fdSet h₂).trans <| quiet_of_refresh h
      exact ⟨rfl, rfl, rfl⟩

end SameList

section Stay

-- What one side of the script connection accepts goes there quietly.
theorem quiet_of_writeScript {side : Option Addr} {got k : Nat}
    (h : writeScript env σ a side got = some (some k, σ')) : Quiet σ σ' := by
  rcases writeScript_cases h with ⟨_, _, hq⟩ | ⟨_, _, he, _⟩
  · exact hq
  · cases he

theorem quiet_of_scriptClientPortReadMessage
    (h : scriptClientPortReadMessage env σ a = some (false, σ')) : Quiet σ σ' := by
  obtain ⟨⟨got, σ₁⟩, hr, h⟩ := Option.bind_eq_some_iff.mp h
  obtain ⟨p, _, h⟩ := Option.bind_eq_some_iff.mp h
  obtain ⟨s, _, h⟩ := Option.bind_eq_some_iff.mp h
  refine (quiet_of_portread hr).trans ?_
  dsimp only at h
  split at h
  case isTrue =>
    obtain ⟨_, _, h⟩ := Option.bind_eq_some_iff.mp h
    cases h
  case isFalse =>
    obtain ⟨⟨k, σ₂⟩, hn, h⟩ := Option.bind_eq_some_iff.mp h
    refine (quiet_of_negotiate hn).trans ?_
    dsimp only at h
    split at h
    case isTrue  => cases h; exact .refl _
    case isFalse =>
      obtain ⟨sp, _, h⟩ := Option.bind_eq_some_iff.mp h
      split at h
      case isTrue  => cases h; exact .refl _
      case isFalse =>
        obtain ⟨⟨got, σ₃⟩, hw, h⟩ := Option.bind_eq_some_iff.mp h
        cases got
        case none => cases h
        case some k' =>
          obtain ⟨sp', _, h⟩ := Option.bind_eq_some_iff.mp h
          obtain ⟨⟨got', σ₄⟩, hw', h⟩ := Option.bind_eq_some_iff.mp h
          cases got'
          case none   => cases h
          case some _ =>
            cases h
            exact (quiet_of_writeScript hw).trans <| quiet_of_writeScript hw'

theorem quiet_of_remotePortReadMessage (h : remotePortReadMessage env σ a = some (false, σ')) :
    Quiet σ σ' := by
  obtain ⟨⟨got, σ₁⟩, hr, h⟩ := Option.bind_eq_some_iff.mp h
  refine (quiet_of_portread hr).trans ?_
  dsimp only at h
  split at h
  case isTrue =>
    obtain ⟨_, _, h⟩ := Option.bind_eq_some_iff.mp h
    cases h
  case isFalse =>
    obtain ⟨⟨k, σ₂⟩, hn, h⟩ := Option.bind_eq_some_iff.mp h
    refine (quiet_of_negotiate hn).trans ?_
    dsimp only at h
    split at h
    case isTrue  => cases h; exact .refl _
    case isFalse =>
      obtain ⟨⟨ok, σ₃⟩, hw, h⟩ := Option.bind_eq_some_iff.mp h
      refine (quiet_of_writePeer hw).trans ?_
      cases ok
      case false =>
        obtain ⟨_, _, h⟩ := Option.bind_eq_some_iff.mp h
        cases h
      case true =>
        obtain ⟨p, _, h⟩ := Option.bind_eq_some_iff.mp h
        split at h
        case h_1 => cases h; exact .refl _
        case h_2 =>
          split at h
          case isTrue  => cases h; exact .refl _
          case isFalse =>
            obtain ⟨_, _, h⟩ := Option.bind_eq_some_iff.mp h
            cases h

theorem quiet_of_outOfBand (h : outOfBand env σ a = some (false, σ')) :
    Quiet σ σ' := by
  obtain ⟨⟨got, σ₁⟩, hr, h⟩ := Option.bind_eq_some_iff.mp h
  refine (quiet_of_portread hr).trans ?_
  dsimp only at h
  split at h
  case isTrue =>
    obtain ⟨_, _, h⟩ := Option.bind_eq_some_iff.mp h
    cases h
  case isFalse =>
    obtain ⟨p, _, h⟩ := Option.bind_eq_some_iff.mp h
    obtain ⟨b, _, h⟩ := Option.bind_eq_some_iff.mp h
    obtain ⟨⟨k, σ₂⟩, hw, h⟩ := Option.bind_eq_some_iff.mp h
    dsimp only at h
    split at h
    case isTrue =>
      obtain ⟨_, _, h⟩ := Option.bind_eq_some_iff.mp h
      cases h
    case isFalse => cases h; exact quiet_of_portwrite hw

end Stay

-- The list of ports, of which all have been allocated.
structure State.Lists (σ : State) (l : List Addr) : Prop where
  chain : Chain σ.next σ.rports l
  lt_fresh : ∀ a ∈ l, a < σ.fresh

theorem State.Consistent.lists (h : σ.Consistent) : σ.Lists σ.ports := by
  have ⟨n, h, hi, _⟩ := h
  rw [h.ports_eq hi]
  exact ⟨h.ports, fun a ha => h.fresh ▸ hi.lt_fresh a (hi.live a ha)⟩

namespace State.Lists

variable {l : List Addr} {c : Addr}

theorem ports_eq (h : σ.Lists l) : σ.ports = l :=
  h.chain.walk_eq <| length_le_of_forall_lt h.chain.nodup h.lt_fresh

theorem of_sameList (h : σ.Lists l) (hs : SameList σ σ') : σ'.Lists l :=
  ⟨hs.next ▸ hs.rports ▸ h.chain, hs.fresh ▸ h.lt_fresh⟩

theorem of_quiet (h : σ.Lists l) (hq : Quiet σ σ') : σ'.Lists l :=
  h.of_sameList <| .of_quiet hq

theorem malloc (h : σ.Lists l) (p : Port) : (σ.malloc p).Lists l where
  chain := h.chain.congr fun b hb =>
    Function.update_of_ne (Nat.ne_of_lt <| h.lt_fresh b hb) ..
  lt_fresh a ha := Nat.lt_succ_of_lt <| h.lt_fresh a ha

-- A new port gets to the front of the list.
theorem push (h : σ.Lists l) (hc : c ∉ l) (hlt : c < σ.fresh) : (σ.push c).Lists (c :: l) where
  chain    := h.chain.push hc
  lt_fresh := List.forall_mem_cons.mpr ⟨hlt, h.lt_fresh⟩

theorem not_mem (h : σ.Lists l) : σ.fresh ∉ l :=
  fun hm => Nat.lt_irrefl _ <| h.lt_fresh _ hm

theorem openRemotePort {peer : Addr} {res : Option Addr} (h : σ.Lists l)
    (ho : openRemotePort env σ peer = some (res, σ')) :
    σ.fresh ≤ σ'.fresh ∧ (σ'.Lists l ∨ σ'.Lists (σ.fresh :: l)) := by
  obtain ⟨q, _, ho⟩ := Option.bind_eq_some_iff.mp ho
  obtain ⟨remote, _, ho⟩ := Option.bind_eq_some_iff.mp ho
  obtain ⟨r, _, ho⟩ := Option.bind_eq_some_iff.mp ho
  split at ho
  case h_2 => cases ho; exact ⟨Nat.le_refl _, .inl <| h.of_sameList .modify⟩
  case h_3 => cases ho; exact ⟨Nat.le_refl _, .inl <| h.of_sameList .modify⟩
  case h_4 => cases ho; exact ⟨Nat.le_refl _, .inl <| h.of_sameList .modify⟩
  case h_5 => cases ho; exact ⟨Nat.le_refl _, .inl h⟩
  case h_1 =>
    have ht := h.of_quiet <| .time σ (σ.time + 1)
    dsimp only at ho
    split at ho
    case isTrue =>
      cases ho
      exact ⟨Nat.le_succ _, .inl <| (ht.malloc {}).of_sameList ⟨rfl, rfl, rfl⟩⟩
    case isFalse =>
      split at ho
      case isTrue =>
        cases ho
        exact ⟨Nat.le_succ _, .inl <| (ht.malloc {}).of_sameList ⟨rfl, rfl, rfl⟩⟩
      case isFalse =>
        obtain ⟨σ₂, h₂, ho⟩ := Option.bind_eq_some_iff.mp ho
        obtain ⟨σ₃, h₃, ho⟩ := Option.bind_eq_some_iff.mp ho
        cases ho
        have hq := (quiet_of_refresh h₂).trans <| quiet_of_fdSet h₃
        refine ⟨hq.fresh ▸ Nat.le_succ _, .inr <| of_quiet (push ?_ h.not_mem ?_) hq⟩
        case refine_1 => exact (ht.malloc {}).of_sameList ⟨rfl, rfl, rfl⟩
        case refine_2 => exact Nat.lt_succ_self _

theorem localPortAccept (h : σ.Lists l) (hr : localPortAccept env σ a = some σ') :
    ∃ zs, σ'.Lists (zs ++ l) := by
  obtain ⟨q, _, hr⟩ := Option.bind_eq_some_iff.mp hr
  obtain ⟨⟨res, σ₁⟩, ho, hr⟩ := Option.bind_eq_some_iff.mp hr
  obtain ⟨hf, h₁⟩ := ((h.of_quiet <| .time σ (σ.time + 1)).malloc _).openRemotePort ho
  have hlt : σ.fresh < σ₁.fresh := hf
  -- A connection to the remote side may have got in front of the list already.
  obtain ⟨zs, hz, h₁⟩ : ∃ zs, σ.fresh ∉ zs ++ l ∧ σ₁.Lists (zs ++ l) := by
    rcases h₁ with h₁ | h₁
    · exact ⟨[], h.not_mem, h₁⟩
    · refine ⟨[σ.fresh + 1], fun hm => ?_, h₁⟩
      exact (List.mem_cons.mp hm).elim (Nat.ne_of_lt <| Nat.lt_succ_self _) h.not_mem
  cases res
  case none =>
    cases hr
    exact ⟨zs, h₁.of_sameList ⟨rfl, rfl, rfl⟩⟩
  case some peer =>
    obtain ⟨σ₂, h₂, hr⟩ := Option.bind_eq_some_iff.mp hr
    obtain ⟨σ₃, h₃, hr⟩ := Option.bind_eq_some_iff.mp hr
    obtain ⟨_, _, hr⟩ := Option.bind_eq_some_iff.mp hr
    obtain ⟨_, _, hr⟩ := Option.bind_eq_some_iff.mp hr
    obtain ⟨_, _, hr⟩ := Option.bind_eq_some_iff.mp hr
    obtain ⟨σ₄, h₄, hr⟩ := ite_bind_eq_some_iff.mp hr
    have h₂₃ := (quiet_of_refresh h₂).trans <| quiet_of_fdSet h₃
    have h₃₄ : Quiet σ₃ σ₄ := by
      split at h₄
      case isTrue  => exact (Quiet.telnetNegotiation σ₃ true).trans <| quiet_of_iacStartup h₄
      case isFalse => cases h₄; exact .refl _
    have h₄' : SameList σ₄ σ' := by
      obtain ⟨_, _, hr⟩ := Option.bind_eq_some_iff.mp hr
      split at hr
      case h_1 => cases hr; exact .refl _
      case h_2 =>
        obtain ⟨_, _, hr⟩ := Option.bind_eq_some_iff.mp hr
        split at hr
        case isTrue  => cases hr; exact .refl _
        case isFalse => cases hr; exact ⟨rfl, rfl, rfl⟩
    refine ⟨σ.fresh :: zs, of_sameList (of_quiet (push ?_ hz ?_) <| h₂₃.trans h₃₄) h₄'⟩
    case refine_1 => exact h₁.of_sameList .modify
    case refine_2 => exact hlt

theorem localPortForward (h : σ.Lists l) (hr : localPortForward env σ a = some σ') :
    ∃ zs, σ'.Lists (zs ++ l) := by
  obtain ⟨⟨res, σ₁⟩, ho, hr⟩ := Option.bind_eq_some_iff.mp hr
  have ⟨zs, h₁⟩ : ∃ zs, σ₁.Lists (zs ++ l) := (h.openRemotePort ho).right.elim (⟨[], ·⟩) (⟨[_], ·⟩)
  refine ⟨zs, h₁.of_sameList ?_⟩
  cases res
  case none =>
    obtain ⟨_, hp, he⟩ := Option.bind_eq_some_iff.mp hr
    cases he
    exact .of_quiet <| quiet_of_portread hp
  case some peer =>
    obtain ⟨⟨got, σ₂⟩, hp, hr⟩ := Option.bind_eq_some_iff.mp hr
    refine SameList.trans .modify <| .of_quiet <| (quiet_of_portread hp).trans ?_
    obtain ⟨_, _, hr⟩ := Option.bind_eq_some_iff.mp hr
    split at hr
    case isTrue  => contradiction
    case isFalse =>
      obtain ⟨_, _, hr⟩ := Option.bind_eq_some_iff.mp hr
      obtain ⟨_, hw, he⟩ := Option.bind_eq_some_iff.mp hr
      cases he
      exact quiet_of_portwrite hw

theorem scriptPortReadMessage (h : σ.Lists l) (hr : scriptPortReadMessage env σ a = some σ') :
    ∃ zs, σ'.Lists (zs ++ l) := by
  obtain ⟨sp, _, hr⟩ := Option.bind_eq_some_iff.mp hr
  split at hr
  case isTrue  => cases hr; exact ⟨[], h⟩
  case isFalse =>
    obtain ⟨σ₂, h₂, hr⟩ := Option.bind_eq_some_iff.mp hr
    obtain ⟨σ₃, h₃, hr⟩ := Option.bind_eq_some_iff.mp hr
    obtain ⟨σ₄, h₄, hr⟩ := ite_bind_eq_some_iff.mp hr
    have ht := h.of_quiet <| .time σ (σ.time + 1)
    have h₂₃ := (quiet_of_refresh h₂).trans <| quiet_of_fdSet h₃
    have h₃₄ : Quiet σ₃ σ₄ := by
      split at h₄
      case isTrue  => exact quiet_of_iacStartup h₄
      case isFalse => cases h₄; exact .refl _
    have h₄' : Quiet σ₄ σ' := by
      split at hr
      case h_1 => cases hr; exact .refl _
      case h_2 =>
        split at hr
        case isTrue  => exact quiet_of_sendSpecialBreak hr
        case isFalse => cases hr; exact .refl _
    refine ⟨[σ.fresh], of_quiet (push ?_ h.not_mem ?_) <| h₂₃.trans <| h₃₄.trans h₄'⟩
    case refine_1 => exact (ht.malloc {}).of_sameList ⟨rfl, rfl, rfl⟩
    case refine_2 => exact Nat.lt_succ_self _

-- A port which does not report an error leaves the list as it is, apart from new ports in front.
theorem readMessage (h : σ.Lists l) (hr : readMessage env σ a = some (false, σ')) :
    ∃ zs, σ'.Lists (zs ++ l) := by
  obtain ⟨p, hp, hr⟩ := Option.bind_eq_some_iff.mp hr
  obtain ⟨handler, hh, hr⟩ := Option.bind_eq_some_iff.mp hr
  cases handler
  case localPort =>
    obtain ⟨_, hr, he⟩ := Option.bind_eq_some_iff.mp hr
    cases he
    obtain ⟨_, _, hr⟩ := Option.bind_eq_some_iff.mp hr
    split at hr
    case h_1 => exact h.localPortAccept hr
    case h_2 => exact h.localPortForward hr
    case h_3 => exact h.localPortForward hr
    case h_4 => cases hr; exact ⟨[], h⟩
  case scriptPort =>
    obtain ⟨τ, hs, he⟩ := Option.bind_eq_some_iff.mp hr
    have he : τ = σ' := congrArg Prod.snd <| Option.some.inj he
    exact h.scriptPortReadMessage (he ▸ hs)
  case scriptClientPort => exact ⟨[], h.of_quiet <| quiet_of_scriptClientPortReadMessage hr⟩
  case remotePort       => exact ⟨[], h.of_quiet <| quiet_of_remotePortReadMessage hr⟩
  case remotePortAccept =>
    obtain ⟨_, hr, he⟩ := Option.bind_eq_some_iff.mp hr
    cases he
    exact ⟨[], h.of_sameList <| .of_remotePortAccept hr⟩
  case remotePortFifoCon =>
    obtain ⟨_, hr, he⟩ := Option.bind_eq_some_iff.mp hr
    cases he
    exact ⟨[], h.of_sameList <| .of_remotePortFifoConRead hr⟩

end State.Lists

-- The rest of the list of ports, from a port on.
structure State.Rest (σ : State) (iport : Option Addr) (ys : List Addr) : Prop where
  suffix : ys <:+ σ.ports
  head : iport = ys.head?

-- None of the ports has a handle in the set.
def State.Idle (σ : State) (fds : List Int) (l : List Addr) : Prop :=
  ∀ a ∈ l, ∀ fd ∈ fds, handle (σ, a) ≠ some fd

section Rest

variable {fds : List Int} {xs ys : List Addr}

theorem State.Consistent.rest_rports (h : σ.Consistent) : σ.Rest σ.rports σ.ports :=
  ⟨List.suffix_rfl, h.lists.chain.head?_eq⟩

theorem State.Consistent.rest_next (h : σ.Consistent) (hl : σ.ports = xs ++ a :: ys) :
    σ.Rest (σ.next a) ys where
  suffix := ⟨xs ++ [a], by rw [hl, List.append_assoc, List.singleton_append]⟩
  head   := (hl ▸ h.lists.chain).suffix.tail.head?_eq

theorem State.Consistent.port (h : σ.Consistent) (ha : a ∈ σ.ports) : ∃ p, σ.port a = some p := by
  have ⟨n, h, hi, _⟩ := h
  have ⟨x, hx⟩ := Net.live_iff.mp <| hi.live a <| h.ports_eq hi ▸ ha
  have ⟨p, hp, _⟩ := h.exists_port hx
  exact ⟨p, hp⟩

-- The search never leaves the list: it finds the first port whose handle is in the set, or gets to
-- the end.
theorem State.Consistent.nextSet {fuel : Nat} (h : σ.Consistent) (fds : List Int)
    (hl : ys <:+ σ.ports) (hf : ys.length < fuel) :
    nextSet σ fds fuel ys.head? = some none ∧ σ.Idle fds ys ∨
      ∃ zs i ws p, ys = zs ++ i :: ws ∧ σ.Idle fds zs ∧
        nextSet σ fds fuel ys.head? = some (some i) ∧ σ.port i = some p ∧ p.sock ∈ fds := by
  induction fuel generalizing ys
  case zero => contradiction
  case succ fuel ih =>
    cases ys
    case nil => exact .inl ⟨rfl, nofun⟩
    case cons i ys =>
      have ⟨xs, hl⟩ := hl
      have hm : i ∈ σ.ports := hl ▸ List.mem_append_right _ List.mem_cons_self
      have ⟨p, hp⟩ := h.port hm
      have hr := h.rest_next hl.symm
      by_cases hs : p.sock ∈ fds
      case pos => exact .inr ⟨[], i, ys, p, rfl, nofun, by simp [Proxy.nextSet, hp, hs], hp, hs⟩
      case neg =>
        have he : Proxy.nextSet σ fds (fuel + 1) (some i) = Proxy.nextSet σ fds fuel ys.head? := by
          simp [Proxy.nextSet, hp, hs, hr.head]
        have hi : ∀ fd ∈ fds, handle (σ, i) ≠ some fd := by
          intro fd hfd hh
          rw [handle, hp, Option.map_some, Option.some_inj] at hh
          exact hs <| hh ▸ hfd
        rw [List.head?_cons, he]
        rcases ih hr.suffix <| Nat.lt_of_succ_lt_succ hf with
          ⟨hn, hid⟩ | ⟨zs, j, ws, q, hy, hid, hn⟩
        · exact .inl ⟨hn, List.forall_mem_cons.mpr ⟨hi, hid⟩⟩
        · exact .inr ⟨i :: zs, j, ws, q, by rw [hy]; rfl, List.forall_mem_cons.mpr ⟨hi, hid⟩, hn⟩

end Rest

-- A reaction is a step, after which the list has only got new ports in front unless an error has
-- been reported.
structure Reaction (env : Env) (react : State → Addr → Option (Bool × State))
    (ev : Addr → Event) : Prop where
  step : ∀ {σ σ' a failed}, a ∈ σ.ports → react σ a = some (failed, σ') →
    step env σ (ev a) = some σ'
  stays : ∀ {σ σ' a}, σ.Consistent → react σ a = some (false, σ') →
    ∃ zs, σ'.ports = zs ++ σ.ports

theorem mem_states_of_run {σ₀ : State} {steps : List (State × Event)} (hr : Run env σ₀ steps σ) :
    σ₀ ∈ states steps σ := by
  induction hr
  case refl => exact List.mem_singleton_self _
  case step ih =>
    rw [states, List.map_append]
    exact List.mem_append_left _ ih

-- Parts of a run go through states of the whole run.
theorem mem_states_of_left {σ₁ τ : State} {steps₁ steps₂ : List (State × Event)}
    (hr : Run env σ₁ steps₂ σ) (hτ : τ ∈ states steps₁ σ₁) : τ ∈ states (steps₁ ++ steps₂) σ := by
  rw [states, List.map_append, List.append_assoc]
  refine (List.mem_append.mp hτ).elim (List.mem_append_left _) fun he => ?_
  rw [List.mem_singleton.mp he]
  exact List.mem_append_right _ <| mem_states_of_run hr

theorem mem_states_of_right {τ : State} {steps₁ steps₂ : List (State × Event)}
    (hτ : τ ∈ states steps₂ σ) : τ ∈ states (steps₁ ++ steps₂) σ := by
  rw [states, List.map_append, List.append_assoc]
  exact List.mem_append_right _ hτ

theorem Attends.mono {fds : List Int} {l : List (State × Addr)} {τs τs' : List State}
    (h : Attends fds l τs a) (hτ : ∀ τ ∈ τs, τ ∈ τs') : Attends fds l τs' a :=
  fun fd hfd => (h fd hfd).imp_right fun ⟨τ, hm, hc⟩ => ⟨τ, hτ τ hm, hc⟩

section Pass

theorem reaction_of_readMessage : Reaction env (readMessage env) .ready where
  step hm h  := by rw [Proxy.step, if_pos hm, h, Option.map_some]
  stays hσ h := (hσ.lists.readMessage h).imp fun _ hl => hl.ports_eq

theorem reaction_of_outOfBand : Reaction env (outOfBand env) .oob where
  step hm h := by rw [Proxy.step, if_pos hm, h, Option.map_some]
  stays _ h := ⟨[], (SameList.of_quiet <| quiet_of_outOfBand h).ports_eq⟩

variable {react : State → Addr → Option (Bool × State)} {ev : Addr → Event} {ret ret' : Nat}
  {fds : List Int} {iport : Option Addr} {ys : List Addr}

-- The beginning of a pass: either no port is left to react, or one is, and those behind it are not
-- forgotten.
theorem Reaction.pass_succ (hR : Reaction env react ev) (hσ : σ.Consistent)
    (hp : σ.Rest iport ys) :
    pass react (ret + 1) σ fds iport = some (ret + 1, σ) ∧ σ.Idle fds ys ∨
      ∃ i p, i ∈ σ.ports ∧ σ.port i = some p ∧ p.sock ∈ fds ∧
        (react σ i = none ∧ pass react (ret + 1) σ fds iport = none ∨
          ∃ σ₁ iport₁ ys₁, Proxy.step env σ (ev i) = some σ₁ ∧ σ₁.Consistent ∧
            σ₁.Rest iport₁ ys₁ ∧
            pass react (ret + 1) σ fds iport = pass react ret σ₁ (fds.erase p.sock) iport₁ ∧
            ∀ a ∈ ys, a ∈ σ₁.ports → ∀ fd ∈ fds, handle (σ, a) = some fd → fd ≠ p.sock →
              a ∈ ys₁) := by
  have ⟨hys, hhead⟩ := hp
  subst hhead
  have hf : ys.length < σ.fresh + 1 := by
    have hl := hσ.lists
    exact Nat.lt_succ_of_le <| Nat.le_trans hys.length_le <|
      length_le_of_forall_lt hl.chain.nodup hl.lt_fresh
  rcases hσ.nextSet fds hys hf with ⟨hn, hid⟩ | ⟨zs, i, ws, p, hy, hid, hn, hpi, hs⟩
  · exact .inl ⟨by simp [pass, hn], hid⟩
  · have ⟨xs, hl⟩ := hys
    have hl : σ.ports = (xs ++ zs) ++ i :: ws := by rw [← hl, hy, List.append_assoc]
    have hm : i ∈ σ.ports := hl ▸ List.mem_append_right _ List.mem_cons_self
    -- A port which is ready and does not share its handle with `i` is behind it.
    have hws : ∀ a ∈ ys, ∀ fd ∈ fds, handle (σ, a) = some fd → fd ≠ p.sock → a ∈ ws := by
      intro a ha fd hfd hh hne
      rcases List.mem_append.mp (hy ▸ ha) with hz | hc
      · exact absurd hh <| hid a hz fd hfd
      · refine (List.mem_cons.mp hc).resolve_left fun he => hne ?_
        rw [he, handle, hpi] at hh
        exact (Option.some.inj hh).symm
    refine .inr ⟨i, p, hm, hpi, hs, ?_⟩
    cases hr : react σ i
    case none => exact .inl ⟨rfl, by simp [pass, hn, hpi, hr]⟩
    case some r =>
      have ⟨failed, σ₁⟩ := r
      have hstep := hR.step hm hr
      have h₁ := consistent_step hσ hstep
      cases failed
      case true =>
        exact .inr ⟨σ₁, σ₁.rports, σ₁.ports, hstep, h₁, h₁.rest_rports,
          by simp [pass, hn, hpi, hr], fun _ _ ha _ _ _ _ => ha⟩
      case false =>
        have ⟨vs, hl₁⟩ := hR.stays hσ hr
        have hl₁ : σ₁.ports = (vs ++ (xs ++ zs)) ++ i :: ws := by
          rw [hl₁, hl, List.append_assoc vs]
        have ⟨q, hq⟩ := h₁.port <| hl₁ ▸ List.mem_append_right _ List.mem_cons_self
        exact .inr ⟨σ₁, σ₁.next i, ws, hstep, h₁, h₁.rest_next hl₁,
          by simp [pass, hn, hpi, hr, hq], fun a ha _ => hws a ha⟩

-- A pass is a run, whose steps all take their handles out of the set. If there are enough of them,
-- it does not end before all handles have been served.
theorem Reaction.run_of_pass (hR : Reaction env react ev) (hσ : σ.Consistent)
    (hp : σ.Rest iport ys) (h : pass react ret σ fds iport = some (ret', σ')) :
    σ'.Consistent ∧ ∃ l : List (State × Addr), Run env σ (l.map <| event ev) σ' ∧
      (l.map handle).Subperm (fds.map some) ∧ l.length + ret' = ret ∧
      (fds.length ≤ ret → ∀ a ∈ ys,
        Attends fds l (states (l.map <| event ev) σ') a) := by
  induction ret generalizing σ fds iport ys
  case zero =>
    cases h
    refine ⟨hσ, [], .refl, List.nil_subperm, rfl, fun hl a _ fd hfd => ?_⟩
    rw [List.eq_nil_of_length_eq_zero <| Nat.le_zero.mp hl] at hfd
    contradiction
  case succ ret ih =>
    rcases hR.pass_succ hσ hp with ⟨he, hid⟩ |
      ⟨i, p, hm, hpi, hs, ⟨_, he⟩ | ⟨σ₁, iport₁, ys₁, hstep, h₁, hp₁, he, hys₁⟩⟩
    · cases he.symm.trans h
      refine ⟨hσ, [], .refl, List.nil_subperm, Nat.zero_add _, fun _ a ha fd hfd => .inr ?_⟩
      exact ⟨σ', List.mem_singleton_self σ', .inr <| hid a ha fd hfd⟩
    · cases he.symm.trans h
    · have ⟨h', l, hr, hl, hret, hserve⟩ := ih h₁ hp₁ <| he ▸ h
      have hh : handle (σ, i) = some p.sock := by rw [handle, hpi, Option.map_some]
      refine ⟨h', (σ, i) :: l, Run.trans (.step .refl hstep) hr, ?_, by simp; omega, ?_⟩
      case refine_1 =>
        have hfds := (List.perm_cons_erase hs).map some
        refine List.Subperm.trans ?_ hfds.symm.subperm
        rw [List.map_cons, List.map_cons, hh]
        exact (List.subperm_cons _).mpr hl
      case refine_2 =>
        intro hlen a ha fd hfd
        by_cases hsock : fd = p.sock
        case pos => exact .inl <| by rw [List.map_cons, hh, hsock]; exact List.mem_cons_self
        case neg =>
          by_cases hfda : handle (σ, a) = some fd
          case neg => exact .inr ⟨σ, List.mem_cons_self, .inr hfda⟩
          case pos =>
            by_cases ha₁ : a ∈ σ₁.ports
            case neg =>
              exact .inr ⟨σ₁, List.mem_cons_of_mem _ <| mem_states_of_run hr, .inl ha₁⟩
            case pos =>
              have hlen₁ : (fds.erase p.sock).length ≤ ret := by
                rw [List.length_erase_of_mem hs]
                omega
              have hfd₁ := (List.mem_erase_of_ne hsock).mpr hfd
              have hserve := hserve hlen₁ a (hys₁ a ha ha₁ fd hfd hfda hsock) fd hfd₁
              exact hserve.imp (List.mem_cons_of_mem _) fun ⟨τ, hτ, hc⟩ =>
                ⟨τ, List.mem_cons_of_mem _ hτ, hc⟩

end Pass

section Iteration

variable {s : Selection} {ss : List Selection}

-- What a round does on account of a selection. If `select` has counted the handles, then none of
-- them is forgotten.
theorem run_of_iteration (hσ : σ.Consistent) (h : iteration env σ s = some σ') :
    σ'.Consistent ∧ ∃ r : Round, Run env σ r.steps σ' ∧ s.Asks r ∧
      (s.rds.length + s.eds.length ≤ s.ret → ∀ a ∈ σ.ports,
        Attends s.rds r.rs (states r.steps σ') a ∧ Attends s.eds r.os (states r.steps σ') a) := by
  have ⟨⟨ret, σ₁⟩, hr, h⟩ := Option.bind_eq_some_iff.mp h
  have ⟨⟨ret', σ₂⟩, ho, h⟩ := Option.bind_eq_some_iff.mp h
  cases h
  have ⟨h₁, rs, hr, hrs, hret, hserve⟩ :=
    reaction_of_readMessage.run_of_pass hσ hσ.rest_rports hr
  have ⟨h₂, os, ho, hos, hret', hserve'⟩ :=
    reaction_of_outOfBand.run_of_pass h₁ h₁.rest_rports ho
  refine ⟨h₂, ⟨rs, os⟩, hr.trans ho, ⟨hrs, hos, by simp only; omega⟩, fun hlen a ha => ?_⟩
  have hlrs : rs.length ≤ s.rds.length := by simpa using hrs.length_le
  constructor
  case left =>
    have hlen : s.rds.length ≤ s.ret := Nat.le_trans (Nat.le_add_right ..) hlen
    exact (hserve hlen a ha).mono fun _ hτ => mem_states_of_left ho hτ
  case right =>
    intro fd hfd
    by_cases ha₁ : a ∈ σ₁.ports
    case neg =>
      exact .inr ⟨σ₁, mem_states_of_right <| mem_states_of_run ho, .inl ha₁⟩
    case pos =>
      exact (hserve' (by omega) a ha₁).mono (fun _ => mem_states_of_right) fd hfd

end Iteration

section Run

variable {cfg : Config} {σ₀ : State} {steps : List (State × Event)}

-- No handle is starved: whatever the other ports do in the meantime, each handle that has been
-- selected is served in the same iteration, as long as its port stays on the list and keeps it.
theorem attends_of_iteration {s : Selection} (h : start env cfg = some σ₀)
    (hr : Run env σ₀ steps σ) (hs : s.rds.length + s.eds.length ≤ s.ret)
    (hi : iteration env σ s = some σ') : ∃ r : Round, Run env σ r.steps σ' ∧ s.Asks r ∧
      ∀ a ∈ σ.ports,
        Attends s.rds r.rs (states r.steps σ') a ∧ Attends s.eds r.os (states r.steps σ') a := by
  have ⟨_, r, hr, ha, hserve⟩ := run_of_iteration (consistent_run h hr) hi
  exact ⟨r, hr, ha, hserve hs⟩

-- A connection with the handle 8 and the receiver with 7 are read from, and then the local port
-- with 5 accepts another connection.
theorem attends_of_iteration_of_chat : ∃ σ₀ steps σ σ', steps.map Prod.snd = [Event.ready 0] ∧
    start chatEnv chatConfig = some σ₀ ∧ Run chatEnv σ₀ steps σ ∧
    iteration chatEnv σ ⟨3, [5, 8, 7], []⟩ = some σ' ∧
    ∃ r : Round, Run chatEnv σ r.steps σ' ∧ Selection.Asks ⟨3, [5, 8, 7], []⟩ r ∧ ∀ a ∈ σ.ports,
      Attends [5, 8, 7] r.rs (states r.steps σ') a ∧ Attends [] r.os (states r.steps σ') a := by
  have ⟨σ₀, steps, σ, he, h, hr, hP⟩ := exists_run chatEnv chatConfig [.ready 0] (fun σ =>
    (iteration chatEnv σ ⟨3, [5, 8, 7], []⟩).isSome) (by decide)
  have ⟨σ', hi⟩ := Option.isSome_iff_exists.mp hP
  exact ⟨σ₀, steps, σ, σ', he, h, hr, hi, attends_of_iteration h hr (by decide) hi⟩

end Run

end Proxy
