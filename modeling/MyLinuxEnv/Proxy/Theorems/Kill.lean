import MyLinuxEnv.Proxy.Changes
import MyLinuxEnv.Proxy.Refines

open Memory

namespace Proxy

section Reset

variable {σ σ' : State} {n : Net} {a : Addr} {x : Node} {p : Port}

theorem Refines.portclose {d : Driver} (h : Refines σ n) (hx : n.node a = some x)
    (hd : x.portclose = some d) (hc : portclose σ a = some σ') :
    Refines σ' (n.modify a ({ · with isOpen := false })) := by
  have ⟨p, hp, hc⟩ := Option.bind_eq_some_iff.mp hc
  cases hx.symm.trans <| h.node_eq hp
  rw [show p.portclose = some d from hd] at hc
  cases hc
  have hq : Refines ((if d = .usb then σ else σ.fdClr p.sock).log <| .close a) n := by
    refine Quiet.refines (.log _ _) ?_
    split
    · exact h
    · exact (Quiet.fdClr ..).refines h
  exact hq.modify (fun _ _ => ⟨rfl, rfl⟩) <| Net.script_modify fun _ _ => rfl

theorem Refines.swapBack {fd : Int} {handler : Handler} (h : Refines σ n)
    (hs : swapBack σ a fd handler = some σ') :
    Refines σ' (n.modify a ({ · with readMessage := some handler, isOpen := fd ≠ -1 })) := by
  have ⟨p, _, hs⟩ := Option.bind_eq_some_iff.mp hs
  have ⟨σ₁, h₁, hs⟩ := Option.bind_eq_some_iff.mp hs
  have ⟨σ₂, h₂, hs⟩ := Option.bind_eq_some_iff.mp hs
  cases hs
  have hr :=
    quiet_of_refresh h₂ |>.refines <| quiet_of_fdSet h₁ |>.refines <| (Quiet.fdClr ..).refines h
  exact hr.modify (fun _ _ => ⟨rfl, rfl⟩) <| Net.script_modify fun _ _ => rfl

-- One of the two places where `resetport` may swap the original handle back in.
theorem Refines.swapBack_or {z : Node} {c : Prop} [Decidable c] {fd : Int} {handler : Handler}
    {f : State → State} (h : Refines σ (n.modify a fun _ => z))
    (hs : (if c then (Proxy.swapBack σ a fd handler).map f else some σ) = some σ')
    (hf : ∀ τ, Quiet τ (f τ)) :
    ∃ z', Refines σ' (n.modify a fun _ => z') ∧
      (¬c ∧ z' = z ∨ c ∧ z' = { z with readMessage := some handler, isOpen := fd ≠ -1 }) := by
  split at hs
  case isFalse hc =>
    cases hs
    exact ⟨z, h, .inl ⟨hc, rfl⟩⟩
  case isTrue hc =>
    have ⟨τ, hτ, hs⟩ := Option.map_eq_some_iff.mp hs
    refine ⟨_, ?_, .inr ⟨hc, rfl⟩⟩
    have hr := h.swapBack hτ
    rw [Net.modify_modify] at hr
    exact hs ▸ (hf τ).refines hr

theorem Refines.resetport (h : Refines σ n) (hx : n.node a = some x)
    (hr : resetport σ a = some σ') : ∃ x', x.Reset x' ∧ Refines σ' (n.modify a fun _ => x') := by
  have ⟨p, hp, hr⟩ := Option.bind_eq_some_iff.mp hr
  cases hx.symm.trans <| h.node_eq hp
  have ⟨σ₂, h₂, h₃⟩ := ite_bind_eq_some_iff.mp hr
  have h₁ : Refines
      (if p.cls = some .remotePort ∧ p.isMaster then σ.modify a ({ · with peer := none }) else σ)
      (n.modify a fun _ => { p.node with
        peer := if p.cls = some .remotePort ∧ p.isMaster then none else p.peer }) := by
    split
    case isFalse =>
      change Refines σ <| n.modify a fun _ => p.node
      rwa [Net.modify_of_node hx]
    case isTrue =>
      rw [← Net.modify_eq_of_node hx (f := ({ · with peer := none }))]
      exact h.modify (fun _ _ => ⟨rfl, rfl⟩) <| Net.script_modify fun _ _ => rfl
  dsimp only at h₂ h₃
  have ⟨z₂, hr₂, hz₂⟩ := h₁.swapBack_or h₂ fun _ => .of_port_eq rfl rfl rfl rfl rfl rfl rfl
  have ⟨z₃, hr₃, hz₃⟩ := hr₂.swapBack_or h₃ fun _ => .of_port_eq rfl rfl rfl rfl rfl rfl rfl
  have hfd : ∀ {fd : Int}, 0 ≤ fd → decide (fd ≠ -1) = true := by
    intro fd h
    simp only [decide_eq_true_eq]
    omega
  refine ⟨z₃, ?_, hr₃⟩
  rcases hz₂ with ⟨_, rfl⟩ | ⟨⟨ht₂, hfd₂⟩, rfl⟩ <;> rcases hz₃ with ⟨_, rfl⟩ | ⟨⟨ht₃, hfd₃⟩, rfl⟩
  · exact ⟨rfl, .inl ⟨rfl, rfl⟩, rfl, rfl, rfl, rfl, rfl, rfl, rfl, rfl, rfl⟩
  · exact ⟨rfl, .inr ⟨hfd hfd₃, .inr ⟨ht₃, rfl⟩⟩, rfl, rfl, rfl, rfl, rfl, rfl, rfl, rfl, rfl⟩
  · exact ⟨rfl, .inr ⟨hfd hfd₂, .inl ⟨ht₂, rfl⟩⟩, rfl, rfl, rfl, rfl, rfl, rfl, rfl, rfl, rfl⟩
  · cases ht₂.symm.trans ht₃

end Reset

section Unlink

variable {kill : State → Addr → Option State} {σ σ' : State} {n : Net} {a : Addr} {x : Node}

theorem quiet_of_releaseScript (h : releaseScript σ a = some σ') : Quiet σ σ' := by
  have ⟨p, _, h⟩ := Option.bind_eq_some_iff.mp h
  cases hs : p.scriptRef
  all_goals rw [hs] at h
  case none   => cases h; exact .refl _
  case some s =>
    have ⟨sp, _, h⟩ := Option.bind_eq_some_iff.mp h
    split at h
    case isFalse => cases h; exact .refl _
    case isTrue  =>
      have ⟨b, _, h⟩ := Option.bind_eq_some_iff.mp h
      have ⟨r, _, h⟩ := Option.bind_eq_some_iff.mp h
      cases h
      split
      · exact .refl _
      · exact .modify s fun _ => rfl

-- The search for a port tells where it is on the list.
theorem mem_of_prevPort {fuel : Nat} {prev : Addr} {iport q : Option Addr} {l : List Addr}
    (hc : Chain σ.next iport l) (h : prevPort σ a fuel prev iport = some q) :
    (q = none ∧ a ∉ l) ∨ (q = some prev ∧ l.head? = some a) ∨
      ∃ b xs ys, q = some b ∧ l = xs ++ b :: a :: ys := by
  fun_induction prevPort σ a fuel prev iport generalizing l
  case case1 => contradiction
  case case2 =>
    cases h
    exact .inl ⟨rfl, hc.eq_nil ▸ List.not_mem_nil⟩
  case case3 =>
    cases h
    exact .inr <| .inl ⟨rfl, hc.head?_eq.symm⟩
  case case4 i hne hi =>
    have ⟨_, _, h⟩ := Option.bind_eq_some_iff.mp h
    have ⟨l', he, hc'⟩ := hc.exists_cons
    subst he
    rcases hi hc' h with ⟨hq, hn⟩ | ⟨hq, hh⟩ | ⟨b, xs, ys, hq, hl⟩
    · exact .inl ⟨hq, List.not_mem_cons_of_ne_of_not_mem (Ne.symm hne) hn⟩
    · have ⟨ys, hl⟩ := List.head?_eq_some_iff.mp hh
      exact .inr <| .inr ⟨i, [], ys, hq, by rw [hl]; rfl⟩
    · exact .inr <| .inr ⟨b, i :: xs, ys, hq, by rw [hl]; rfl⟩

theorem Refines.unlist_head (h : Refines σ n) (ha : σ.rports = some a) :
    Refines { σ with rports := σ.next a } (n.unlist a) := by
  have ⟨l, hl, hc⟩ := (ha ▸ h.ports).exists_cons
  have hf : (n.unlist a).ports = l := by
    simp only [Net.unlist, hl]
    exact @Chain.filter_ne _ _ _ _ [] _ _ <| hl ▸ h.ports
  exact ⟨h.node, hf ▸ hc, h.clients, h.fresh, h.lPorts, h.rPorts⟩

theorem Refines.unlist_next {b : Addr} {xs ys : List Addr} (h : Refines σ n)
    (hl : n.ports = xs ++ b :: a :: ys) : Refines (σ.setNext b (σ.next a)) (n.unlist a) := by
  have hf : (n.unlist a).ports = xs ++ b :: ys := by
    simp only [Net.unlist, hl]
    rw [List.append_cons, List.append_cons xs b ys]
    exact Chain.filter_ne <| List.append_cons .. ▸ hl ▸ h.ports
  have hc := (hl ▸ h.ports).unlink
  exact ⟨h.node, hf ▸ hc, h.clients, h.fresh, h.lPorts, h.rPorts⟩

-- Whatever the position of a port on the list, `closeport` finds it taken off the list.
theorem Refines.unlinkport (h : Refines σ n) (ha : a ∈ n.ports)
    (hu : unlinkport kill σ a = some σ') :
    ∃ σ₁ σ₂, Refines σ₁ (n.unlist a) ∧ closeport kill σ₁ a = some σ₂ ∧ Quiet σ₂ σ' := by
  have ⟨first, l, hl⟩ := List.exists_cons_of_ne_nil <| List.ne_nil_of_mem ha
  have hr : σ.rports = some first := by
    rw [h.ports.head?_eq, hl, List.head?_cons]
  simp only [Proxy.unlinkport, hr] at hu
  split at hu
  case isTrue he =>
    subst he
    exact ⟨_, σ', h.unlist_head hr, hu, .refl _⟩
  case isFalse hne =>
    have ⟨q, hq, hu⟩ := Option.bind_eq_some_iff.mp hu
    rcases mem_of_prevPort (hr ▸ h.ports) hq with ⟨_, hn⟩ | ⟨_, hh⟩ | ⟨b, xs, ys, rfl, hb⟩
    · contradiction
    · rw [hl, List.head?_cons, Option.some_inj] at hh
      contradiction
    · have ⟨σ₂, hc, hf⟩ := Option.bind_eq_some_iff.mp hu
      exact ⟨_, σ₂, h.unlist_next hb, hc, quiet_of_refresh hf⟩

-- A closed port is freed at once, unless it has a peer which is still open.
theorem Refines.closeport {d : Driver} (h : Refines σ (n.unlist a)) (hx : n.node a = some x)
    (hd : x.portclose = some d) (hl : n.lPorts ≠ a) (hc : closeport kill σ a = some σ') :
    Refines σ' (n.without [a]) ∧
        (∀ b, x.peer = some b → ∃ y, (n.shut a).node b = some y ∧ ¬y.isOpen) ∨
      ∃ b y τ τ', x.peer = some b ∧ (n.shut a).node b = some y ∧ y.isOpen ∧
        Refines τ (n.shut a) ∧ kill τ b = some τ' ∧ σ' = τ'.free a := by
  have ⟨τ, hτ, hc⟩ := Option.bind_eq_some_iff.mp hc
  have hr : Refines τ (n.shut a) := h.portclose hx hd hτ
  have hf : Refines (τ.free a) (n.without [a]) := Net.free_shut ▸ hr.free hl
  have ⟨p, hp, hc⟩ := Option.bind_eq_some_iff.mp hc
  have hpx : p.peer = x.peer := by
    have hn := (hr.node_eq hp).symm.trans <| Net.modify_node_self hx
    exact congrArg Node.peer <| Option.some.inj hn
  cases hb : p.peer
  all_goals rw [hb] at hc hpx
  case none =>
    cases hc
    exact .inl ⟨hf, fun b hb => by cases hpx.trans hb⟩
  case some b =>
    have ⟨q, hq, hc⟩ := Option.bind_eq_some_iff.mp hc
    have ⟨τ', hk, hc⟩ := ite_bind_eq_some_iff.mp hc
    cases hc
    split at hk
    case isFalse ho =>
      exact .inr ⟨b, q.node, τ, τ', hpx.symm, hr.node_eq hq, by simp [Port.node, ho], hr, hk, rfl⟩
    case isTrue ho =>
      cases hk
      refine .inl ⟨hf, fun b' hb' => ?_⟩
      cases hpx.trans hb'
      exact ⟨q.node, hr.node_eq hq, by simp [Port.node, ho]⟩

-- Killing a connection up to the point where it comes to the peer.
theorem Refines.killportFrom_conn {d : Driver} {fuel : Nat} (h : Refines σ n)
    (hx : n.node a = some x) (hp : ¬x.isPermanent) (hd : x.portclose = some d)
    (hl : n.lPorts ≠ a) (ha : a ∈ n.ports) (hk : killportFrom (fuel + 1) σ a = some σ') :
    Refines σ' (n.without [a]) ∧
        (∀ b, x.peer = some b → ∃ y, (n.shut a).node b = some y ∧ ¬y.isOpen) ∨
      ∃ b y τ τ', x.peer = some b ∧ (n.shut a).node b = some y ∧ y.isOpen ∧
        Refines τ (n.shut a) ∧ killportFrom fuel τ b = some τ' ∧ Quiet (τ'.free a) σ' := by
  have ⟨p, hpa, hk⟩ := Option.bind_eq_some_iff.mp hk
  have hpp : ¬p.isPermanent := by
    cases hx.symm.trans <| h.node_eq hpa
    exact hp
  rw [if_neg hpp] at hk
  have ⟨σ₁, hr, hu⟩ := Option.bind_eq_some_iff.mp hk
  have ⟨σ₂, σ₃, h₂, hc, hq⟩ := quiet_of_releaseScript hr |>.refines h |>.unlinkport ha hu
  cases h₂.closeport hx hd hl hc
  case inl hc => exact .inl <| hc.imp_left hq.refines
  case inr hc =>
    have ⟨b, y, τ, τ', hb, hy, ho, hτ, hk, he⟩ := hc
    exact .inr ⟨b, y, τ, τ', hb, hy, ho, hτ, hk, he ▸ hq⟩

end Unlink

section Kill

variable {fuel : Nat} {σ σ' : State} {n : Net} {a b : Addr} {x y : Node}

theorem Refines.killportFrom_permanent (h : Refines σ n) (hx : n.node a = some x)
    (hp : x.isPermanent) (hk : killportFrom fuel σ a = some σ') :
    ∃ x', x.Reset x' ∧ Refines σ' (n.modify a fun _ => x') := by
  cases fuel
  case zero => contradiction
  case succ fuel =>
    have ⟨p, hpa, hk⟩ := Option.bind_eq_some_iff.mp hk
    have hpp : p.isPermanent := by
      cases hx.symm.trans <| h.node_eq hpa
      exact hp
    rw [if_pos hpp] at hk
    exact h.resetport hx hk

theorem killport_refines (h : Refines σ n) (hi : n.Inv) (hk : killport σ a = some σ') :
    ∃ n', n.Killed a n' ∧ Refines σ' n' := by
  obtain ⟨p, hpa, _⟩ := Option.bind_eq_some_iff.mp hk
  have hx := h.node_eq hpa
  cases hi.role hx |>.isPermanent_or
  case inl hp =>
    obtain ⟨x', hr, h'⟩ := h.killportFrom_permanent hx hp.left hk
    exact ⟨_, .reset hx hp.left hr, h'⟩
  case inr hp =>
    obtain ⟨hn, ha, hd, _⟩ := hp
    have hl : ∀ {c y}, n.node c = some y → ¬y.isPermanent → n.lPorts ≠ c := by
      rintro c y hy hc rfl
      exact hc <| hi.isPermanent_lPorts hy
    have hkept : p.node.isKept := by simp [Node.isKept, hn]
    rcases h.killportFrom_conn hx hn hd (hl hx hn) ha hk with
      ⟨h', hb⟩ | ⟨b, z, τ, τ', hb, hz, ho, hτ, hk, hq⟩
    case inl =>
      cases hpb : p.node.peer
      case none   => exact ⟨_, .alone hx hn hpb, h'⟩
      case some b =>
        obtain ⟨y, hy, hba, _⟩ := hi.peer hx hkept hpb
        obtain ⟨z, hz, hzo⟩ := hb b hpb
        cases hy.symm.trans <| (Net.shut_node_of_ne hba).symm.trans hz
        cases hi.role hy |>.isPermanent_or
        case inr hq => exact absurd hq.right.right.right hzo
        case inl hq =>
          refine ⟨_, .attached hx hn hpb hy hq.left <| .inl ⟨hzo, rfl⟩, ?_⟩
          rwa [Net.modify_of_node hy]
    case inr =>
      obtain ⟨y, hy, hba, hpy⟩ := hi.peer hx hkept hb
      cases hy.symm.trans <| (Net.shut_node_of_ne hba).symm.trans hz
      cases hi.role hy |>.isPermanent_or
      case inl hpy' =>
        obtain ⟨y', hr, h'⟩ := hτ.killportFrom_permanent hz hpy'.left hk
        refine ⟨_, .attached hx hn hb hy hpy'.left <| .inr hr, hq.refines ?_⟩
        rw [← Net.free_shut, ← Net.modify_shut hba]
        exact h'.free <| hl hx hn
      case inr hpy' =>
        obtain ⟨hpy', hbm, hd, _⟩ := hpy'
        have hbs : b ∈ (n.shut a).ports := by simp [Net.shut, Net.unlist, Net.modify, hbm, hba]
        have hpeer := hpy.resolve_left hpy'
        refine ⟨_, .pair hx hn hb hy hpy', hq.refines ?_⟩
        rcases hτ.killportFrom_conn hz hpy' hd (hl hy hpy') hbs hk with
          ⟨h', _⟩ | ⟨c, w, _, _, hc, hw, ho, _⟩
        case inl => exact Net.free_without_shut ▸ h'.free (hl hx hn)
        case inr =>
          cases hpeer.symm.trans hc
          have hw' := (Net.shut_node_of_ne hba.symm).symm.trans hw
          cases (Net.shut_node_self hx).symm.trans hw'
          contradiction

end Kill

end Proxy
