import MyLinuxEnv.Proxy.Refines

namespace Proxy

-- Nothing has changed but the links between the ports and the handles that are selected.
structure Idle (σ σ' : State) : Prop where
  port : σ'.port = σ.port
  fresh : σ'.fresh = σ.fresh
  gdb : σ'.gdb = σ.gdb
  telnet : σ'.telnetNegotiation = σ.telnetNegotiation
  fifoBuf : σ'.fifoBuf = σ.fifoBuf
  fifoIdx : σ'.fifoIdx = σ.fifoIdx
  trace : σ'.trace = σ.trace

-- What a port keeps as long as it exists, apart from reads.
structure Port.Alike (p p' : Port) : Prop where
  cls : p'.cls = p.cls
  type : p'.type = p.type
  buf : p'.buf = p.buf

-- A relation between states that holds across everything that is done to end a connection.
structure KillFrame (R : State → State → Prop) : Prop where
  trans : R σ σ' → R σ' σ'' → R σ σ''
  idle : Idle σ σ' → R σ σ'
  modify : (∀ p : Port, p.Alike (f p)) → R σ (σ.modify a f)
  free : R σ (σ.free a)
  close : R σ (σ.log <| .close a)

namespace KillFrame

variable {R : State → State → Prop} {σ σ' : State} {a s : Addr} {kill : State → Addr → Option State}

theorem refl (hR : KillFrame R) (σ : State) : R σ σ :=
  hR.idle ⟨rfl, rfl, rfl, rfl, rfl, rfl, rfl⟩

theorem fdClr (hR : KillFrame R) (σ : State) (fd : Int) : R σ (σ.fdClr fd) :=
  hR.idle ⟨rfl, rfl, rfl, rfl, rfl, rfl, rfl⟩

theorem setNext (hR : KillFrame R) (σ : State) (a : Addr) (b : Option Addr) : R σ (σ.setNext a b) :=
  hR.idle ⟨rfl, rfl, rfl, rfl, rfl, rfl, rfl⟩

theorem setClientNext (hR : KillFrame R) (σ : State) (a : Addr) (b : Option Addr) :
    R σ (σ.setClientNext a b) :=
  hR.idle ⟨rfl, rfl, rfl, rfl, rfl, rfl, rfl⟩

theorem fdSet {fd : Int} (hR : KillFrame R) (h : σ.fdSet fd = some σ') : R σ σ' := by
  simp only [State.fdSet] at h
  split at h
  case isFalse => contradiction
  case isTrue  => cases h; exact hR.idle ⟨rfl, rfl, rfl, rfl, rfl, rfl, rfl⟩

theorem refresh (hR : KillFrame R) (h : refreshNsockhandle σ = some σ') : R σ σ' := by
  have ⟨_, _, h⟩ := Option.bind_eq_some_iff.mp h
  cases h
  exact hR.idle ⟨rfl, rfl, rfl, rfl, rfl, rfl, rfl⟩

theorem swapBack {fd : Int} {handler : Handler} (hR : KillFrame R)
    (h : swapBack σ a fd handler = some σ') : R σ σ' := by
  have ⟨p, _, h⟩ := Option.bind_eq_some_iff.mp h
  have ⟨σ₁, h₁, h⟩ := Option.bind_eq_some_iff.mp h
  have ⟨σ₂, h₂, h⟩ := Option.bind_eq_some_iff.mp h
  cases h
  have hs := (hR.fdClr σ p.sock)
  exact hR.trans hs <| hR.trans (hR.fdSet h₁) <| hR.trans (hR.refresh h₂) <|
    hR.modify fun _ => ⟨rfl, rfl, rfl⟩

theorem swapBack_or {c : Prop} [Decidable c] {fd : Int} {handler : Handler} {f : State → State}
    (hR : KillFrame R) (hf : ∀ τ, Idle τ (f τ))
    (h : (if c then (Proxy.swapBack σ a fd handler).map f else some σ) = some σ') : R σ σ' := by
  split at h
  case isFalse => cases h; exact hR.refl σ
  case isTrue  =>
    have ⟨τ, hs, h⟩ := Option.map_eq_some_iff.mp h
    exact h ▸ hR.trans (hR.swapBack hs) (hR.idle <| hf τ)

theorem resetport (hR : KillFrame R) (h : resetport σ a = some σ') : R σ σ' := by
  have ⟨p, _, h⟩ := Option.bind_eq_some_iff.mp h
  have ⟨σ₂, h₂, h₃⟩ := ite_bind_eq_some_iff.mp h
  dsimp only at h₂ h₃
  have h₁ : R σ
      (if p.cls = some .remotePort ∧ p.isMaster then σ.modify a ({ · with peer := none })
      else σ) := by
    split
    case isTrue  => exact hR.modify fun _ => ⟨rfl, rfl, rfl⟩
    case isFalse => exact hR.refl σ
  apply hR.trans h₁ <| hR.trans (hR.swapBack_or _ h₂) (hR.swapBack_or _ h₃)
  all_goals exact fun _ => ⟨rfl, rfl, rfl, rfl, rfl, rfl, rfl⟩

theorem releaseScript (hR : KillFrame R) (h : releaseScript σ a = some σ') : R σ σ' := by
  have ⟨p, _, h⟩ := Option.bind_eq_some_iff.mp h
  split at h
  case h_1 => cases h; exact hR.refl σ
  case h_2 =>
    have ⟨sp, _, h⟩ := Option.bind_eq_some_iff.mp h
    split at h
    case isFalse => cases h; exact hR.refl σ
    case isTrue  =>
      have ⟨_, _, h⟩ := Option.bind_eq_some_iff.mp h
      have ⟨r, _, h⟩ := Option.bind_eq_some_iff.mp h
      cases h
      split
      case isTrue  => exact hR.refl σ
      case isFalse => exact hR.modify fun _ => ⟨rfl, rfl, rfl⟩

theorem portclose (hR : KillFrame R) (h : portclose σ a = some σ') : R σ σ' := by
  have ⟨p, _, h⟩ := Option.bind_eq_some_iff.mp h
  split at h
  case h_1   => cases h; exact hR.refl σ
  case h_2 d _ =>
    cases h
    have hm : R σ (if d = .usb then σ else σ.fdClr p.sock) := by
      split
      case isTrue  => exact hR.refl σ
      case isFalse => exact hR.fdClr σ p.sock
    exact hR.trans hm <| hR.trans hR.close <| hR.modify fun _ => ⟨rfl, rfl, rfl⟩

theorem closeport (hR : KillFrame R) (hk : ∀ {τ τ' b}, kill τ b = some τ' → R τ τ')
    (h : closeport kill σ a = some σ') : R σ σ' := by
  have ⟨σ₁, h₁, h⟩ := Option.bind_eq_some_iff.mp h
  have ⟨p, _, h⟩ := Option.bind_eq_some_iff.mp h
  apply hR.trans (hR.portclose h₁)
  split at h
  case h_1   => cases h; exact hR.free
  case h_2 b =>
    have ⟨q, _, h⟩ := Option.bind_eq_some_iff.mp h
    have ⟨σ₂, h₂, h⟩ := ite_bind_eq_some_iff.mp h
    have hm : R σ₁ σ₂ := by
      split at h₂
      case isTrue  => cases h₂; exact hR.refl σ₁
      case isFalse => exact hk h₂
    cases h
    exact hR.trans hm hR.free

theorem unlinkport (hR : KillFrame R) (hk : ∀ {τ τ' b}, kill τ b = some τ' → R τ τ')
    (h : unlinkport kill σ a = some σ') : R σ σ' := by
  simp only [Proxy.unlinkport] at h
  split at h
  case h_1       => cases h; exact hR.refl σ
  case h_2 first =>
    split at h
    case isTrue =>
      have hi : R σ { σ with rports := σ.next a } := hR.idle ⟨rfl, rfl, rfl, rfl, rfl, rfl, rfl⟩
      exact hR.trans hi <| hR.closeport hk h
    case isFalse =>
      obtain ⟨q, _, h⟩ := Option.bind_eq_some_iff.mp h
      split at h
      case h_1 => cases h; exact hR.refl σ
      case h_2 =>
        obtain ⟨σ₁, h₁, h⟩ := Option.bind_eq_some_iff.mp h
        exact hR.trans (hR.setNext σ _ _) <| hR.trans (hR.closeport hk h₁) (hR.refresh h)

theorem killportFrom {fuel : Nat} (hR : KillFrame R) (h : killportFrom fuel σ a = some σ') :
    R σ σ' := by
  induction fuel generalizing σ σ' a
  case zero => contradiction
  case succ fuel hi =>
    have ⟨p, _, h⟩ := Option.bind_eq_some_iff.mp h
    split at h
    case isTrue  => exact hR.resetport h
    case isFalse =>
      have ⟨σ₁, h₁, h⟩ := Option.bind_eq_some_iff.mp h
      exact hR.trans (hR.releaseScript h₁) <| hR.unlinkport hi h

theorem killport (hR : KillFrame R) (h : killport σ a = some σ') : R σ σ' :=
  hR.killportFrom h

theorem killScriptClient {next : Option Addr} (hR : KillFrame R)
    (h : killScriptClient σ s a = some (next, σ')) : R σ σ' := by
  have ⟨sp, _, h⟩ := Option.bind_eq_some_iff.mp h
  have ⟨prev, _, h⟩ := Option.bind_eq_some_iff.mp h
  have ⟨p, _, h⟩ := Option.bind_eq_some_iff.mp h
  have ⟨σ₁, h₁, h⟩ := ite_bind_eq_some_iff.mp h
  have ⟨σ₂, hk, h⟩ := Option.bind_eq_some_iff.mp h
  have hm : R σ σ₁ := by
    split at h₁
    case isTrue  => cases h₁; exact hR.modify fun _ => ⟨rfl, rfl, rfl⟩
    case isFalse =>
      have ⟨b, _, h₁⟩ := Option.map_eq_some_iff.mp h₁
      exact h₁ ▸ hR.setClientNext σ b _
  cases h
  exact hR.trans hm <| hR.killport hk

end KillFrame

end Proxy
