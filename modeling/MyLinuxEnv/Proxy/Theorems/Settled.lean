import MyLinuxEnv.Proxy.Theorems.Equipped
import MyLinuxEnv.Proxy.Theorems.Isolation
import MyLinuxEnv.Proxy.Theorems.Links

namespace Proxy

-- A state in which the pointers that the program follows lead to ports.
structure Settled (σ : State) (n : Net) : Prop where
  refines : Refines σ n
  inv : n.Inv
  valid : n.Valid
  sound : n.Sound
  guarded : σ.Guarded
  equipped : σ.Equipped

variable {env : Env} {σ σ' : State} {n n' : Net} {a b s : Addr} {p q sp : Port}
  {ev : Event}

section Run

variable {cfg : Config} {σ₀ : State} {steps : List (State × Event)}

theorem Net.Sound.of_killed (h : n.Sound) (hk : n.Killed a n') : n'.Sound := by
  cases hk
  case reset hx _ hr           => exact h.modify hx hr.cls hr.type
  case alone                   => exact h.without _
  case pair                    => exact h.without _
  case attached hx _ _ hy _ hr =>
    refine Sound.without ?_ _
    rcases hr with ⟨_, rfl⟩ | hr
    · rwa [modify_of_node hy]
    · exact h.modify hy hr.cls hr.type

-- Where there is no script port, there is no client either.
theorem Net.Inv.not_scriptClient {x : Node} (hi : n.Inv) (hs : n.script = none)
    (hx : n.node a = some x) : x.cls ≠ some .scriptClient := by
  intro hc
  have ⟨s, hx'⟩ := Option.isSome_iff_exists.mp <| (hi.role hx).scriptRef_of_client hc
  cases hs.symm.trans <| hi.scriptRef hx hx'

end Run

section Operations

variable {size got : Int} {mem str : List Byte}

end Operations

namespace Settled

-- The network stays the same as long as nothing but the contents of ports changes.
theorem of_effects (h : Settled σ n) (hq : Quiet σ σ') (he : Effects env (fun _ => True) σ σ') :
    Settled σ' n where
  refines  := hq.refines h.refines
  inv      := h.inv
  valid    := h.valid
  sound    := h.sound
  guarded  := he.induct h.guarded .of_effect
  equipped := he.induct h.equipped .of_effect

theorem listed (h : Settled σ n) : Listed σ n.ports :=
  h.refines.listed h.inv

theorem exists_port (h : Settled σ n) (hb : n.Live b) : ∃ q, σ.port b = some q := by
  have ⟨y, hy⟩ := Net.live_iff.mp hb
  exact (h.refines.exists_port hy).imp fun _ => And.left

theorem live (h : Settled σ n) (hp : σ.port a = some p) : n.Live a :=
  Net.live_iff.mpr ⟨_, h.refines.node_eq hp⟩

theorem exists_killport (h : Settled σ n) (hp : σ.port a = some p) :
    ∃ σ', killport σ a = some σ' :=
  h.equipped.exists_killport h.refines h.inv hp

theorem exists_killScriptClient (h : Settled σ n) (hp : σ.port a = some p)
    (hc : p.cls = some .scriptClient) (hs : p.scriptRef = some s) :
    ∃ r, killScriptClient σ s a = some r := by
  have hs := h.refines.script_of_scriptRef h.inv hp hs
  have hm := h.sound.client (h.refines.node_eq hp) hc
  have ⟨xs, ys, hl⟩ := List.append_of_mem hm
  have ⟨σ', hk, _⟩ := (hl ▸ h.refines.serves h.inv h.valid hs).exists_killScriptClient
  exact ⟨_, hk⟩

section Operations

variable {side : Option Addr} {k : Nat} {mem : List Byte} {bytes : Nat}

theorem exists_deliver (h : Settled σ n) (hs : n.script = some s) :
    ∃ σ', deliver env σ s mem bytes = some σ' :=
  (h.refines.serves h.inv h.valid hs).exists_deliver env mem bytes |>.imp fun _ => And.left

theorem exists_writeScriptClients (h : Settled σ n) (hs : n.script = some s) :
    ∃ σ', writeScriptClients env σ s mem bytes = some σ' := by
  have ⟨y, hy, _⟩ := h.inv.sPort s hs
  have ⟨sp, hsp⟩ := h.exists_port <| Net.live_iff.mpr ⟨y, hy⟩
  simp only [writeScriptClients, hsp, Option.bind_eq_bind, Option.bind_some]
  split
  case isFalse => exact h.exists_deliver hs
  case isTrue  =>
    split
    case isFalse => exact ⟨_, rfl⟩
    case isTrue  =>
      let τ := { σ with gdb := (σ.gdb.scan <| mem.take bytes).1 }
      have he : Effects env (fun _ => True) σ τ := .of .scan
      exact (h.of_effects (Quiet.gdb ..) he).exists_deliver hs

end Operations

end Settled

end Proxy
