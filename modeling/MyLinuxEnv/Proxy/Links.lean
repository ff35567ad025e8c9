import MyLinuxEnv.Proxy.Changes

namespace Proxy

variable (env : Env)

namespace State

-- The script port, if there is one.
def script (σ : State) : Option Addr :=
  (σ.port σ.lPorts).bind (·.scriptRef)

-- The network which a state represents.
def net (σ : State) : Net where
  node a  := (σ.port a).map Port.node
  ports   := σ.ports
  clients := σ.script.elim [] σ.clients
  fresh   := σ.fresh
  lPorts  := σ.lPorts
  rPorts  := σ.rPorts

-- A port which has not been destroyed: it is one of the permanent ports, or still managed.
def Designates (σ : State) (b : Addr) : Prop :=
  (σ.port b).isSome ∧ (b = σ.lPorts ∨ b = σ.rPorts ∨ σ.script = some b ∨ b ∈ σ.ports)

-- No link leads to a port that has been destroyed.
structure LinksValid (σ : State) : Prop where
  peer : ∀ a ∈ σ.ports, ∀ p, σ.port a = some p → ∀ b, p.peer = some b → σ.Designates b
  lscript : ∀ s sp, σ.script = some s → σ.port s = some sp →
    ∀ b, sp.lscript = some b → σ.Designates b
  rscript : ∀ s sp, σ.script = some s → σ.port s = some sp →
    ∀ b, sp.rscript = some b → σ.Designates b
  clients : ∀ s, σ.script = some s → ∀ c ∈ σ.clients s, σ.Designates c

end State

-- The states of a run, the last one included.
def states (steps : List (State × Event)) (σ : State) : List State :=
  steps.map (·.1) ++ [σ]

-- Takes a step for each of the events.
def trail (evs : List Event) (steps : List (State × Event)) (σ : State) :
    Option (List (State × Event) × State) :=
  evs.foldlM (fun (steps, σ) ev => (step env σ ev).map (steps ++ [(σ, ev)], ·)) (steps, σ)

theorem Run.of_trail {env : Env} {evs : List Event} {σ₀ τ σ : State}
    {steps steps' : List (State × Event)} (hr : Run env σ₀ steps τ)
    (h : trail env evs steps τ = some (steps', σ)) : Run env σ₀ steps' σ := by
  induction evs generalizing steps τ
  case nil => cases h; exact hr
  case cons ev evs hi =>
    have ⟨_, hm, h⟩ := Option.bind_eq_some_iff.mp h
    have ⟨τ', hs, he⟩ := Option.map_eq_some_iff.mp hm
    subst he
    exact hi (.step hr hs) h

theorem Run.trans {env : Env} {σ₀ σ σ' : State} {steps₀ steps : List (State × Event)}
    (h : Run env σ₀ steps₀ σ) (h' : Run env σ steps σ') : Run env σ₀ (steps₀ ++ steps) σ' := by
  induction h'
  case refl       => rwa [List.append_nil]
  case step hs ih => exact List.append_assoc .. ▸ .step ih hs

theorem events_of_trail {env : Env} {evs : List Event} {τ σ : State}
    {steps steps' : List (State × Event)} (h : trail env evs steps τ = some (steps', σ)) :
    steps'.map Prod.snd = steps.map Prod.snd ++ evs := by
  induction evs generalizing steps τ
  case nil =>
    cases h
    exact (List.append_nil _).symm
  case cons ev evs hi =>
    have ⟨_, hm, h⟩ := Option.bind_eq_some_iff.mp h
    have ⟨τ', _, he⟩ := Option.map_eq_some_iff.mp hm
    subst he
    rw [hi h, List.map_append, List.append_assoc]
    rfl

def State.handler (σ : State) (a : Addr) : Option Handler :=
  (σ.port a).bind (·.readMessage)

-- The write to one side of the script connection of what the client `a` has sent.
inductive WriteFails (σ : State) (a b : Addr) (got : Nat) : Prop
  | intro (hq : σ.port b = some q) (hm : q.mode &&& SCRIPT_WRITE ≠ 0) (hp : σ.port a = some p)
      (hw : portwrite env σ b p.buf got = some (k, σ')) (hk : k ≤ 0)

-- What a remote connection has sent: the bytes in its buffer after the telnet options are gone.
inductive Receives (σ : State) (a : Addr) : Nat → State → Prop
  | intro (hm : σ.handler a = some .remotePort)
      (hr : portread env σ a IO_BUFSIZE = some (got, σ₁)) (hg : 0 < got)
      (hf : negotiate env σ₁.telnetNegotiation σ₁ a got.toNat = some (k, σ')) (hk : k ≠ 0) :
    Receives σ a k σ'

-- What a client has sent to the script port `sp`, while that is connected.
inductive Sends (σ : State) (a : Addr) : Port → Nat → State → Prop
  | intro (hm : σ.handler a = some .scriptClientPort)
      (hr : portread env σ a IO_BUFSIZE = some (got, σ₁)) (hg : 0 < got)
      (hp : σ₁.port a = some p) (hs : p.scriptRef = some s)
      (hf : negotiate env (p.mode &&& NO_TELNET_OPTION_NEGOTIATION = 0) σ₁ a got.toNat =
        some (k, σ')) (hk : k ≠ 0) (hsp : σ'.port s = some sp) (hu : sp.scriptInUse) :
    Sends σ a sp k σ'

-- The ports which the program hands to `killport` because a read or a write has failed. Clients
-- whose own connection ends or is broken are left out.
inductive Kills (σ : State) : Event → Addr → Prop
  | read (hm : σ.handler a = some .remotePort)
      (hr : portread env σ a IO_BUFSIZE = some (got, σ₁)) (hg : got ≤ 0) :
    Kills σ (.ready a) a
  | write (hr : Receives env σ a k σ₁) (hw : writePeer env σ₁ a k = some (false, σ₂)) :
    Kills σ (.ready a) a
  | rscript (hs : Sends env σ a sp k σ₁) (hb : sp.rscript = some b)
      (hw : WriteFails env σ₁ a b k) :
    Kills σ (.ready a) b
  | lscript (hs : Sends env σ a sp k σ₁)
      (hr : writeScript env σ₁ a sp.rscript k = some (some k', σ₂)) (hb : sp.lscript = some b)
      (hw : WriteFails env σ₂ a b k') :
    Kills σ (.ready a) b
  | oobRead (hr : portread env σ a 1 = some (got, σ₁)) (hg : got ≤ 0) : Kills σ (.oob a) a
  | oobWrite (hr : portread env σ a 1 = some (got, σ₁)) (hg : 0 < got) (hp : σ₁.port a = some p)
      (hb : p.peer = some b) (hw : portwrite env σ₁ b p.buf got = some (k, σ₂)) (hk : k ≤ 0) :
    Kills σ (.oob a) a

-- A step which destroys a connection although a link leads to it that nobody clears: either one
-- of the links of a permanent port, or the list of the clients.
inductive Severs (σ : State) (ev : Event) : Prop
  | link (hk : Kills env σ ev a) (hd : σ.net.Doomed a b) (hl : σ.net.Loose b)
  | client (hk : Kills env σ ev a) (hs : σ.script = some s) (hm : a ∈ σ.clients s)

end Proxy
