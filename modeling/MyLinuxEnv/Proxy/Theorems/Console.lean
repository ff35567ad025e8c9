import MyLinuxEnv.Proxy.Theorems.Clients
import MyLinuxEnv.Proxy.Theorems.Links
import MyLinuxEnv.Text.Basic

open Text

namespace Proxy

section Hex

def hexDigit (n : Nat) : Byte :=
  .ofNat <| if n < 10 then '0'.toNat + n else 'a'.toNat + (n - 10)

-- Two lower-case digits for every byte.
def hex (t : List Byte) : List Byte :=
  t.flatMap fun c => [hexDigit <| c.toNat / 16, hexDigit <| c.toNat % 16]

theorem length_hex (t : List Byte) : (hex t).length = 2 * t.length := by
  induction t
  case nil => rfl
  case cons c t hi =>
    change (hex t).length + 2 = _
    rw [hi, List.length_cons, Nat.mul_succ]

theorem hexDigit?_hexDigit : ∀ n < 16, hexDigit? (hexDigit n) = some n := by
  decide

theorem hexDigit_ne : ∀ n < 16, hexDigit n ≠ '#'.toUInt8 := by
  decide

theorem hexToAscii_hexDigit (c : Byte) :
    hexToAscii (hexDigit <| c.toNat / 16) (hexDigit <| c.toNat % 16) = c := by
  have hc := c.toNat_lt
  have h₁ := hexDigit?_hexDigit (c.toNat / 16) (by omega)
  have h₂ := hexDigit?_hexDigit (c.toNat % 16) (by omega)
  simp only [hexToAscii, h₁, h₂, Nat.div_add_mod]
  exact UInt8.ofNat_toNat

end Hex

section Packet

-- The output of a program, as the debugger gets it: two checksum digits behind the text.
def packet (t : List Byte) (h₁ h₂ : Byte) : List Byte :=
  '$'.toUInt8 :: 'O'.toUInt8 :: hex t ++ ['#'.toUInt8, h₁, h₂]

variable {buf s t : List Byte} {bytes fuel i k : Nat}

theorem getD_of_drop {c : Byte} (h : buf.drop i = c :: s) : buf.getD i 0 = c := by
  have hg := congrArg (·[0]?) h
  simp only [List.getElem?_drop, Nat.add_zero, List.getElem?_cons_zero] at hg
  rw [List.getD_eq_getElem?_getD, hg, Option.getD_some]

theorem drop_succ_of_drop {c : Byte} (h : buf.drop i = c :: s) : buf.drop (i + 1) = s := by
  rw [← List.drop_drop, h]
  rfl

theorem marker_prefix_iff : ['$'.toUInt8, 'O'.toUInt8] <+: buf.drop i ↔
    buf.getD i 0 = '$'.toUInt8 ∧ buf.getD (i + 1) 0 = 'O'.toUInt8 := by
  have hget (j : Nat) : buf.getD (i + j) 0 = (buf.drop i).getD j 0 := by
    simp [List.getD_eq_getElem?_getD]
  rw [← Nat.add_zero i, hget, Nat.add_zero, hget]
  have ⟨hd, ho⟩ : (0 : Byte) ≠ '$'.toUInt8 ∧ (0 : Byte) ≠ 'O'.toUInt8 := by decide
  rcases buf.drop i with _ | ⟨c, _ | ⟨d, s⟩⟩
  · simp [hd]
  · simp [List.cons_prefix_cons, ho]
  · simp [List.cons_prefix_cons, eq_comm]

-- The first marker is found, wherever the data ends.
theorem findConsole_eq (hf : find? ['$'.toUInt8, 'O'.toUInt8] (buf.drop i) = some k)
    (hk : k < bytes) : findConsole buf bytes i = some (i + k) := by
  induction bytes generalizing i k
  case zero => contradiction
  case succ bytes hi =>
    rw [findConsole]
    cases hs : buf.drop i
    case nil => simp [hs, find?] at hf
    case cons c s =>
      simp only [hs, find?] at hf
      rw [← hs] at hf
      split at hf
      case isTrue hp =>
        cases hf
        exact if_pos <| marker_prefix_iff.mp hp
      case isFalse hp =>
        obtain ⟨j, hj, hjk⟩ := Option.map_eq_some_iff.mp hf
        subst hjk
        rw [if_neg <| mt marker_prefix_iff.mpr hp, hi (drop_succ_of_drop hs ▸ hj) (by omega)]
        rw [Nat.add_right_comm, Nat.add_assoc]

-- From a digit on, the payload is decoded up to its end.
theorem decodeConsole_hex (h : buf.drop i = hex t ++ '#'.toUInt8 :: s)
    (hb : i + (hex t).length < bytes) (hf : t.length < fuel) :
    decodeConsole buf bytes fuel i = t := by
  obtain ⟨fuel, rfl⟩ := Nat.exists_eq_succ_of_ne_zero <| Nat.ne_zero_of_lt hf
  induction t generalizing i fuel
  case nil => rw [decodeConsole, getD_of_drop h, if_neg fun hc => hc.right rfl]
  case cons c t hi =>
    have hn := hexDigit_ne (c.toNat / 16) (by have := c.toNat_lt; omega)
    have h₁ := drop_succ_of_drop h
    have hl : (hex (c :: t)).length = (hex t).length + 2 := rfl
    obtain ⟨fuel, rfl⟩ := Nat.exists_eq_succ_of_ne_zero <|
      Nat.ne_zero_of_lt <| Nat.lt_of_succ_lt_succ hf
    rw [decodeConsole, getD_of_drop h, getD_of_drop h₁, if_pos ⟨by omega, hn⟩,
      hexToAscii_hexDigit, hi (drop_succ_of_drop h₁) (by omega) _ (by simpa using hf)]

-- The marker itself is taken for the first byte of the text.
theorem decodeConsole_packet {h₁ h₂ : Byte} {pre post : List Byte}
    (h : buf = pre ++ packet t h₁ h₂ ++ post) (hb : pre.length + (packet t h₁ h₂).length ≤ bytes) :
    decodeConsole buf bytes bytes pre.length = 0 :: t := by
  have hd : buf.drop pre.length =
      '$'.toUInt8 :: 'O'.toUInt8 :: (hex t ++ '#'.toUInt8 :: (h₁ :: h₂ :: post)) := by
    simp [h, packet]
  have hd₁ := drop_succ_of_drop hd
  have hl : (packet t h₁ h₂).length = (hex t).length + 5 := by simp [packet]
  have ht := length_hex t
  obtain ⟨bytes, rfl⟩ := Nat.exists_eq_succ_of_ne_zero (n := bytes) (by omega)
  rw [decodeConsole, getD_of_drop hd, getD_of_drop hd₁, if_pos ⟨by omega, by decide⟩,
    decodeConsole_hex (drop_succ_of_drop hd₁) (by omega) (by omega)]
  rfl

end Packet

section Writes

variable {env : Env} {σ σ' σ'' : State} {s : Addr} {bs mem : List Byte} {bytes : Nat}

-- Whatever has been written to some port, it was always the same.
def OnlyWrites (bs : List Byte) (σ σ' : State) : Prop :=
  ∀ c, ∃ k, σ'.written c = σ.written c ++ List.replicate k bs

theorem Mute.onlyWrites (h : Mute σ σ') : OnlyWrites bs σ σ' :=
  fun c => ⟨0, by simp [h.written]⟩

theorem OnlyWrites.trans (h : OnlyWrites bs σ σ') (h' : OnlyWrites bs σ' σ'') :
    OnlyWrites bs σ σ'' := by
  intro c
  have ⟨k, hk⟩ := h c
  have ⟨l, hl⟩ := h' c
  exact ⟨k + l, by rw [hl, hk, List.append_assoc, List.replicate_append_replicate]⟩

theorem onlyWrites_of_portwrite {a : Addr} {size got : Int}
    (h : portwrite env σ a mem size = some (got, σ')) : OnlyWrites (mem.take size.toNat) σ σ' := by
  have ⟨p, _, h⟩ := Option.bind_eq_some_iff.mp h
  have ⟨d, _, h⟩ := Option.bind_eq_some_iff.mp h
  split at h
  case isTrue  => cases h; exact Mute.onlyWrites <| .of_trace_eq rfl rfl
  case isFalse =>
    cases h
    intro c
    refine ⟨if a = c then 1 else 0, ?_⟩
    rw [written_log]
    split <;> rfl

theorem onlyWrites_of_writeClients {fuel : Nat} {iport : Option Addr}
    (h : writeClients env s mem bytes fuel σ iport = some σ') :
    OnlyWrites (mem.take bytes) σ σ' := by
  induction fuel generalizing σ iport
  case zero => contradiction
  case succ fuel hi =>
    cases iport
    case none => cases h; exact Mute.onlyWrites <| .of_trace_eq rfl rfl
    case some i =>
      have ⟨⟨got, σ₁⟩, hw, h⟩ := Option.bind_eq_some_iff.mp h
      have h₁ : OnlyWrites (mem.take bytes) σ σ₁ := onlyWrites_of_portwrite hw
      dsimp only at h
      split at h
      case isTrue =>
        have ⟨⟨next, σ₂⟩, hk, h⟩ := Option.bind_eq_some_iff.mp h
        exact (h₁.trans (Mute.killFrame.killScriptClient hk).onlyWrites).trans <| hi h
      case isFalse =>
        have ⟨_, _, h⟩ := Option.bind_eq_some_iff.mp h
        exact h₁.trans <| hi h

theorem onlyWrites_of_deliver (h : deliver env σ s mem bytes = some σ') :
    OnlyWrites (mem.take bytes) σ σ' := by
  have ⟨sp, _, h⟩ := Option.bind_eq_some_iff.mp h
  have ⟨σ₁, hw, h⟩ := Option.bind_eq_some_iff.mp h
  have ⟨sp', _, h⟩ := Option.bind_eq_some_iff.mp h
  have h₁ := onlyWrites_of_writeClients hw
  cases h
  split
  · exact h₁
  · exact h₁

end Writes

section Clients

variable {env : Env} {cfg : Config} {σ₀ σ σ' : State} {steps : List (State × Event)} {s c : Addr}
  {buf t pre post : List Byte} {h₁ h₂ : Byte} {bytes : Nat}

-- A read whose first marker begins the complete packet of a text.
structure Receipt (buf : List Byte) (bytes : Nat) (t : List Byte) where
  before : List Byte
  after : List Byte
  c₁ : Byte
  c₂ : Byte
  buf_eq : buf = before ++ packet t c₁ c₂ ++ after
  first : find? ['$'.toUInt8, 'O'.toUInt8] buf = some before.length
  complete : before.length + (packet t c₁ c₂).length ≤ bytes

-- All clients are handed the text, and nothing else.
def Prints (env : Env) (σ : State) (s : Addr) (buf : List Byte) (bytes : Nat) (t : List Byte) :
    Prop :=
  ∃ σ', writeUSBScriptClients env σ s buf bytes = some σ' ∧
    ∀ c ∈ σ.clients s, ∃ bufs, σ'.written c = σ.written c ++ bufs ∧ bufs.flatten = t

theorem writeUSBScriptClients_eq (r : Receipt buf bytes t) :
    writeUSBScriptClients env σ s buf bytes = deliver env σ s (0 :: t) (0 :: t).length := by
  have hk : r.before.length < bytes := by
    have := r.complete
    simp only [packet, List.length_append, List.length_cons] at this
    omega
  rw [writeUSBScriptClients, findConsole_eq (i := 0) r.first hk]
  simp only [Nat.zero_add, decodeConsole_packet r.buf_eq r.complete]

theorem not_prints_of_client (r : Receipt buf bytes t) (ht : t ≠ []) (hc : c ∈ σ.clients s) :
    ¬Prints env σ s buf bytes t := by
  intro ⟨σ', hw, hp⟩
  have ⟨bufs, hb, hf⟩ := hp c hc
  rw [writeUSBScriptClients_eq r] at hw
  have ⟨k, hk⟩ := onlyWrites_of_deliver hw c
  rw [List.take_length] at hk
  rw [List.append_cancel_left (hb.symm.trans hk)] at hf
  have hl := congrArg List.length hf
  cases k
  case zero   => exact ht hf.symm
  case succ k =>
    rw [List.replicate_succ, List.flatten_cons, List.length_append, List.length_cons] at hl
    omega

theorem prints_of_no_clients (r : Receipt buf bytes t) (h : σ.Consistent) (hs : σ.script = some s)
    (hc : σ.clients s = []) : Prints env σ s buf bytes t := by
  have ⟨n, h, hi, _⟩ := h
  have hs := h.script_eq.symm.trans hs
  have ⟨x, hx, _⟩ := hi.sPort s hs
  have ⟨sp, hsp, _⟩ := h.exists_port hx
  have hnone : sp.clients = none := by
    rw [(h.clients hs hsp).head?_eq, ← h.clients_eq hi hs hsp, hc, List.head?_nil]
  refine ⟨if sp.breakPort then { σ with gdb := { σ.gdb with arr := [] } } else σ, ?_, ?_⟩
  · rw [writeUSBScriptClients_eq r]
    simp [deliver, hsp, hnone, writeClients]
  · simp [hc]

-- Clients are never handed what was printed.
theorem prints_iff (h : start env cfg = some σ₀) (hr : Run env σ₀ steps σ)
    (hs : σ.script = some s) (ht : t ≠ []) (r : Receipt buf bytes t) :
    Prints env σ s buf bytes t ↔ σ.clients s = [] := by
  constructor
  case mp =>
    intro hp
    refine List.eq_nil_iff_forall_not_mem.mpr fun c hc => ?_
    exact not_prints_of_client r ht hc hp
  case mpr => exact prints_of_no_clients r (consistent_run h hr) hs

-- A USB remote with a script port, to which the port with the address 3 connects as a client.
def consoleConfig : Config where
  lPort      := .tcp
  scriptPort := some (.tcp, false)
  remote     := some .usb

theorem exists_consoleClient : ∃ σ₀ steps σ, steps.map Prod.snd = [Event.ready 1] ∧
    start exampleEnv consoleConfig = some σ₀ ∧ Run exampleEnv σ₀ steps σ ∧ σ.script = some 1 ∧
    3 ∈ σ.clients 1 := by
  have h : ((start exampleEnv consoleConfig).bind (step exampleEnv · (.ready 1))).map (fun σ =>
      decide (σ.script = some 1 ∧ 3 ∈ σ.clients 1)) = some true := by decide
  have ⟨σ, h, hσ⟩ := Option.map_eq_some_iff.mp h
  have ⟨σ₀, h₀, h₁⟩ := Option.bind_eq_some_iff.mp h
  have ⟨hs, hc⟩ := of_decide_eq_true hσ
  exact ⟨σ₀, _, σ, rfl, h₀, .step .refl h₁, hs, hc⟩

-- The letter `a`, as it is printed.
def exampleReceipt : Receipt (packet [97] '6'.toUInt8 '1'.toUInt8) 7 [97] where
  before   := []
  after    := []
  c₁       := '6'.toUInt8
  c₂       := '1'.toUInt8
  buf_eq   := rfl
  first    := by decide
  complete := by decide

theorem prints_iff_of_letter : ∃ σ₀ steps σ, steps.map Prod.snd = [Event.ready 1] ∧
    start exampleEnv consoleConfig = some σ₀ ∧ Run exampleEnv σ₀ steps σ ∧
    (Prints exampleEnv σ 1 (packet [97] '6'.toUInt8 '1'.toUInt8) 7 [97] ↔ σ.clients 1 = []) := by
  have ⟨σ₀, steps, σ, he, h, hr, hs, _⟩ := exists_consoleClient
  exact ⟨σ₀, steps, σ, he, h, hr, prints_iff h hr hs (by decide) exampleReceipt⟩

theorem not_prints_letter : ∃ σ₀ steps σ, steps.map Prod.snd = [Event.ready 1] ∧
    start exampleEnv consoleConfig = some σ₀ ∧ Run exampleEnv σ₀ steps σ ∧ σ.script = some 1 ∧
    3 ∈ σ.clients 1 ∧ ¬Prints exampleEnv σ 1 (packet [97] '6'.toUInt8 '1'.toUInt8) 7 [97] := by
  have ⟨σ₀, steps, σ, he, h, hr, hs, hc⟩ := exists_consoleClient
  exact ⟨σ₀, steps, σ, he, h, hr, hs, hc, not_prints_of_client exampleReceipt (by decide) hc⟩

end Clients

end Proxy
