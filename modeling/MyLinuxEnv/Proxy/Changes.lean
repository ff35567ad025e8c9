import MyLinuxEnv.Proxy.Net

namespace Proxy

-- The remote types whose ports are read from and written to themselves.
def PortType.hasDriver : PortType → Bool
  | udp | listen | fifoCon | rs232 | usb => true
  | tcp | stdinout                       => false

namespace Net

-- What killing a port leaves behind. A connection takes its peer along, unless that is permanent.
inductive Killed (n : Net) (a : Addr) : Net → Prop
  | reset (hx : n.node a = some x) (hp : x.isPermanent) (hr : x.Reset x') :
    Killed n a (n.modify a fun _ => x')
  | alone (hx : n.node a = some x) (hp : ¬x.isPermanent) (hb : x.peer = none) :
    Killed n a (n.without [a])
  | pair (hx : n.node a = some x) (hp : ¬x.isPermanent) (hb : x.peer = some b)
      (hy : n.node b = some y) (hq : ¬y.isPermanent) :
    Killed n a (n.without [a, b])
  | attached (hx : n.node a = some x) (hp : ¬x.isPermanent) (hb : x.peer = some b)
      (hy : n.node b = some y) (hq : y.isPermanent) (hr : ¬y.isOpen ∧ y' = y ∨ y.Reset y') :
    Killed n a ((n.modify b fun _ => y').without [a])

section Killed

variable {n n' : Net} {a b : Addr} {x x' y : Node}

theorem Role.of_reset (h : n.Role a x) (hp : x.isPermanent) (hr : x.Reset x') : n.Role a x' := by
  have hpeer : x'.peer ≠ none → x.peer ≠ none := by
    intro h hn
    simp [hr.peer, hn] at h
  have hsame (ht : x.type ≠ some .listen ∧ x.type ≠ some .fifoCon) :
      x'.readMessage = x.readMessage := by
    rcases hr.handler with h | ⟨_, h | h⟩
    · exact h.left
    · exact absurd h.left ht.left
    · exact absurd h.left ht.right
  cases h
  case localPort ha hc ht hm hrem hmem =>
    refine .localPort ha (hr.cls.trans hc) ?_ ((hsame ht).trans hm) (hr.remote.trans hrem) hmem
    exact hr.type ▸ ht
  case remotePort ha hc hm ho hmem hatt =>
    have ha' : x'.isAttachable = x.isAttachable := by simp [Node.isAttachable, hr.type]
    refine .remotePort ha (hr.cls.trans hc) ?_ ?_ (ha' ▸ hmem) fun h => ha' ▸ hatt (hpeer h)
    · rw [hr.type]
      rcases hr.handler with h | ⟨_, h | h⟩
      · rwa [h.left]
      · exact .inr <| .inl h
      · exact .inr <| .inr h
    · intro hu
      rcases hr.handler with h | h
      · exact h.right ▸ ho (hr.type ▸ hu)
      · exact h.left
  case scriptPort ha hc ht hm hnone =>
    refine .scriptPort ha (hr.cls.trans hc) (hr.type ▸ ht) ((hsame ht).trans hm) ?_
    exact Classical.not_not.mp fun h => hpeer h hnone
  all_goals simp_all [Node.isPermanent]

-- A master receiver which has been reset has no peer.
theorem peer_of_reset (hp : x.isPermanent) (hr : x.Reset x') (hk : x'.isKept) : x'.peer = none := by
  have he : x'.isKept = x.isKept := by
    simp [Node.isKept, Node.isPermanent, Node.isMaster, hr.cls, hr.type]
  rw [he, Node.isKept, hp] at hk
  rw [hr.peer, if_pos <| by simpa using hk]

theorem Inv.of_reset (h : n.Inv) (hx : n.node a = some x) (hp : x.isPermanent) (hr : x.Reset x') :
    (n.modify a fun _ => x').Inv := by
  apply h.modify hx ((h.role hx).of_reset hp hr) hr.cls (.inl hr.scriptRef) ?_ (.inl hp)
  intro b hk hb
  cases (peer_of_reset hp hr hk).symm.trans hb

-- The only receiver which can be attached to a connection is open all the time.
theorem Role.isOpen_of_isKept (h : n.Role a x) (hp : x.isPermanent) (hk : x.isKept)
    (hb : x.peer ≠ none) : x.isOpen := by
  have ⟨hc, hm⟩ : x.cls = some .remotePort ∧ x.isMaster := by simpa [Node.isKept, hp] using hk
  cases h
  case remotePort ho _ hatt =>
    refine ho ?_
    have ha := hatt hb
    simp only [Node.isAttachable, Bool.or_eq_true, decide_eq_true_eq] at ha
    rcases ha with (ha | ha) | ha
    · exact ha
    all_goals simp [Node.isMaster, PortType.isMaster, ha] at hm
  all_goals simp_all

theorem Inv.of_killed (h : n.Inv) (hk : n.Killed a n') : n'.Inv := by
  cases hk
  case reset hx hp hr => exact h.of_reset hx hp hr
  case alone x hx hp hb =>
    apply h.without
    · rintro b hm y hy
      cases List.mem_singleton.mp hm
      exact Option.some.inj (hx.symm.trans hy) ▸ hp
    · intro c y b hy hk hpeer hm
      cases List.mem_singleton.mp hm
      obtain ⟨_, hx', _, hp'⟩ := h.peer hy hk hpeer
      cases hx.symm.trans hx'
      simp [hp, hb] at hp'
  case pair x b y hx hp hb hy hq =>
    have hback : y.peer = some a := by
      obtain ⟨_, hy', _, hp'⟩ := h.peer hx (by simp [Node.isKept, hp]) hb
      cases hy.symm.trans hy'
      exact hp'.resolve_left hq
    apply h.without
    · rintro c hm z hz
      simp only [List.mem_cons, List.not_mem_nil, or_false] at hm
      rcases hm with rfl | rfl
      · exact Option.some.inj (hx.symm.trans hz) ▸ hp
      · exact Option.some.inj (hy.symm.trans hz) ▸ hq
    · intro c z d hz hk hpeer hm
      obtain ⟨w, hw, _, hp'⟩ := h.peer hz hk hpeer
      simp only [List.mem_cons, List.not_mem_nil, or_false] at hm ⊢
      rcases hm with rfl | rfl
      · cases hx.symm.trans hw
        exact .inr <| Option.some.inj <| (hp'.resolve_left hp).symm.trans hb
      · cases hy.symm.trans hw
        exact .inl <| Option.some.inj <| (hp'.resolve_left hq).symm.trans hback
  case attached x b y y' hx hp hb hy hq hr =>
    have hba : a ≠ b := by
      rintro rfl
      cases hx.symm.trans hy
      contradiction
    have hx' : (n.modify b fun _ => y').node a = some x := (modify_node_of_ne hba).trans hx
    -- The peer is not a receiver which is still attached.
    have hkept : y'.isKept → y'.peer ≠ some a := by
      intro hk hpa
      cases hr
      case inr hr => cases (peer_of_reset hq hr hk).symm.trans hpa
      case inl hr =>
        obtain ⟨ho, rfl⟩ := hr
        exact ho <| (h.role hy).isOpen_of_isKept hq hk <| hpa ▸ Option.some_ne_none a
    have hi : (n.modify b fun _ => y').Inv := by
      cases hr
      case inl hr => rwa [hr.right, modify_of_node hy]
      case inr hr => exact h.of_reset hy hq hr
    apply hi.without
    · rintro c hm z hz
      cases List.mem_singleton.mp hm
      exact Option.some.inj (hx'.symm.trans hz) ▸ hp
    · intro c z d hz hk hpeer hm
      cases List.mem_singleton.mp hm
      obtain ⟨w, hw, _, hp'⟩ := hi.peer hz hk hpeer
      cases hx'.symm.trans hw
      have hcb : c = b := Option.some.inj <| (hp'.resolve_left hp).symm.trans hb
      subst hcb
      cases (modify_node_self hy).symm.trans hz
      exact absurd hpeer <| hkept hk

end Killed

-- The ports which are not clients of the script port.
def Firm (n : Net) (b : Addr) : Prop :=
  ∃ x, n.node b = some x ∧ x.cls ≠ some .scriptClient

-- Every client is on the list, and the remote port is not managed unless it can be read from.
structure Sound (n : Net) : Prop where
  client : ∀ {c x}, n.node c = some x → x.cls = some .scriptClient → c ∈ n.clients
  remote : ∀ {x}, n.rPorts ∈ n.ports → n.node n.rPorts = some x → x.type.any (·.hasDriver)

-- A network in which nobody connects, but in which ports may go away. Those among them which are
-- not clients belong to `K`.
structure Closing (K : Addr → Prop) (n n' : Net) : Prop where
  script : n'.script = n.script
  loose : ∀ {b}, n'.Loose b → n.Loose b
  firm : ∀ {b}, n.Firm b → n'.Firm b ∨ K b
  clients : ∀ {c}, c ∈ n'.clients → c ∈ n.clients ∧ (n.Live c → n'.Live c)
  sound : n.Sound → n'.Sound

-- A network in which new ports may show up, but none goes away.
structure Opening (n n' : Net) : Prop where
  loose : ∀ {b}, n'.Loose b → n.Loose b ∨ n'.Firm b
  firm : ∀ {b}, n.Firm b → n'.Firm b
  clients : ∀ {c}, c ∈ n'.clients → c ∈ n.clients ∨ n'.Live c
  live : ∀ {c}, n.Live c → n'.Live c
  sound : n.Sound → n'.Sound

-- No link leads to a port that is gone.
structure Valid (n : Net) : Prop where
  loose : ∀ {b}, n.Loose b → n.Firm b
  clients : ∀ {c}, c ∈ n.clients → n.Live c

-- A port which is destroyed if it is killed.
def IsConn (n : Net) (a : Addr) : Prop :=
  ∃ x, n.node a = some x ∧ ¬x.isPermanent

-- The ports which are destroyed if `a` is killed.
inductive Doomed (n : Net) (a : Addr) : Addr → Prop
  | self (ha : n.IsConn a) : Doomed n a a
  | peer (ha : n.IsConn a) (hx : n.node a = some x) (hb : x.peer = some b) (hb' : n.IsConn b) :
    Doomed n a b

section Preorder

variable {n n' n'' : Net} {K K' : Addr → Prop}

theorem Closing.refl (K : Addr → Prop) (n : Net) : n.Closing K n :=
  ⟨rfl, id, .inl, fun h => ⟨h, id⟩, id⟩

theorem Closing.trans (h : n.Closing K n') (h' : n'.Closing K n'') : n.Closing K n'' where
  script := h'.script.trans h.script
  loose hb := h.loose <| h'.loose hb
  firm hb := (h.firm hb).elim h'.firm .inr
  clients hc :=
    have ⟨hc, hl'⟩ := h'.clients hc
    have ⟨hc, hl⟩ := h.clients hc
    ⟨hc, hl' ∘ hl⟩
  sound := h'.sound ∘ h.sound

theorem Closing.mono (h : n.Closing K n') (hK : ∀ {b}, K b → K' b) : n.Closing K' n' :=
  ⟨h.script, h.loose, fun hb => (h.firm hb).imp_right hK, h.clients, h.sound⟩

theorem Opening.refl (n : Net) : n.Opening n :=
  ⟨.inl, id, .inl, id, id⟩

theorem Opening.trans (h : n.Opening n') (h' : n'.Opening n'') : n.Opening n'' where
  loose hb := by
    rcases h'.loose hb with hb | hb
    · exact (h.loose hb).imp_right h'.firm
    · exact .inr hb
  firm hb := h'.firm <| h.firm hb
  clients hc := by
    rcases h'.clients hc with hc | hc
    · exact (h.clients hc).imp_right h'.live
    · exact .inr hc
  live hl := h'.live <| h.live hl
  sound := h'.sound ∘ h.sound

theorem Valid.of_closing (h : n.Valid) (hc : n.Closing K n') (hK : ∀ {b}, n.Loose b → ¬K b) :
    n'.Valid where
  loose hb := (hc.firm <| h.loose <| hc.loose hb).resolve_right <| hK <| hc.loose hb
  clients hm := (hc.clients hm).right <| h.clients (hc.clients hm).left

theorem Valid.of_opening (h : n.Valid) (ho : n.Opening n') : n'.Valid where
  loose hb := (ho.loose hb).elim (ho.firm <| h.loose ·) id
  clients hm := (ho.clients hm).elim (fun hm => ho.live <| h.clients hm) id

end Preorder

section Links

variable {n n' : Net} {a b : Addr} {x x' : Node} {P : Addr → Prop}

-- The permanent ports, as far as their own links go.
def IsRoot (n : Net) (a : Addr) : Prop :=
  a = n.lPorts ∨ a = n.rPorts ∨ n.script = some a

theorem Inv.isRoot (h : n.Inv) (hx : n.node a = some x) (hp : x.isPermanent) : n.IsRoot a := by
  cases (h.role hx).isPermanent_or
  case inl hr => exact hr.right
  case inr hr => exact absurd hp hr.left

-- The links of a port `x'` which were not there in `x` satisfy `P`.
structure Links (P : Addr → Prop) (x x' : Node) : Prop where
  type : x'.type = x.type
  peer : ∀ {b}, x'.peer = some b → x.peer = some b ∨ P b
  lscript : ∀ {b}, x'.lscript = some b → x.lscript = some b ∨ P b
  rscript : ∀ {b}, x'.rscript = some b → x.rscript = some b ∨ P b

theorem Links.refl (P : Addr → Prop) (x : Node) : Links P x x :=
  ⟨rfl, .inl, .inl, .inl⟩

theorem Links.of_reset (hr : x.Reset x') : Links P x x' where
  type := hr.type
  peer hb := by
    rw [hr.peer] at hb
    split at hb
    · contradiction
    · exact .inl hb
  lscript hb := .inl <| hr.lscript ▸ hb
  rscript hb := .inl <| hr.rscript ▸ hb

theorem Loose.of_links (hb : n'.Loose b) (hl : n'.lPorts = n.lPorts) (hr : n'.rPorts = n.rPorts)
    (hs : n'.script = n.script)
    (h : ∀ {a x'}, n.IsRoot a → n'.node a = some x' → ∃ x, n.node a = some x ∧ Links P x x') :
    n.Loose b ∨ P b := by
  cases hb
  case lPeer x' hx hb =>
    obtain ⟨x, hx, hlk⟩ := h (.inl rfl) (hl ▸ hx)
    exact (hlk.peer hb).imp_left (.lPeer hx)
  case rPeer x' hx hm hb =>
    obtain ⟨x, hx, hlk⟩ := h (.inr <| .inl rfl) (hr ▸ hx)
    rw [Node.isMaster, hlk.type] at hm
    exact (hlk.peer hb).imp_left (.rPeer hx hm)
  case lscript s x' hs' hx hb =>
    have hs' := hs ▸ hs'
    obtain ⟨x, hx, hlk⟩ := h (.inr <| .inr hs') hx
    exact (hlk.lscript hb).imp_left (.lscript hs' hx)
  case rscript s x' hs' hx hb =>
    have hs' := hs ▸ hs'
    obtain ⟨x, hx, hlk⟩ := h (.inr <| .inr hs') hx
    exact (hlk.rscript hb).imp_left (.rscript hs' hx)

-- Only the ports matter for the links, but not the lists.
theorem Loose.congr (hb : n'.Loose b) (hn : n.node = n'.node) (hl : n.lPorts = n'.lPorts)
    (hr : n.rPorts = n'.rPorts) : n.Loose b := by
  have hs : n.script = n'.script := by rw [script, script, hn, hl]
  cases hb
  case lPeer hx hb       => exact .lPeer (hn ▸ hl ▸ hx) hb
  case rPeer hx hm hb    => exact .rPeer (hn ▸ hr ▸ hx) hm hb
  case lscript hs' hx hb => exact .lscript (hs.trans hs') (hn ▸ hx) hb
  case rscript hs' hx hb => exact .rscript (hs.trans hs') (hn ▸ hx) hb

theorem Firm.live (h : n.Firm b) : n.Live b :=
  live_iff.mpr <| h.imp fun _ => And.left

theorem Sound.modify {f : Node → Node} (h : n.Sound) (hx : n.node a = some x)
    (hc : (f x).cls = x.cls) (ht : (f x).type = x.type) : (n.modify a f).Sound where
  client hy hcy := by
    rcases modify_node_eq_some.mp hy with ⟨_, hy⟩ | ⟨rfl, z, hz, rfl⟩
    · exact h.client hy hcy
    · cases hx.symm.trans hz
      exact h.client hx <| hc ▸ hcy
  remote hm hy := by
    rcases modify_node_eq_some.mp hy with ⟨_, hy⟩ | ⟨he, z, hz, rfl⟩
    · exact h.remote hm hy
    · cases hx.symm.trans hz
      exact ht ▸ h.remote hm (he ▸ hx)

theorem Sound.without (h : n.Sound) (K : List Addr) : (n.without K).Sound where
  client hx    := h.client (without_node_eq_some.mp hx).right
  remote hm hx := h.remote (List.mem_filter.mp hm).left (without_node_eq_some.mp hx).right

theorem script_of_reset (hx : n.node a = some x) (hr : x.Reset x') :
    (n.modify a fun _ => x').script = n.script :=
  script_modify fun _ hy => Option.some.inj (hx.symm.trans hy) ▸ hr.scriptRef

theorem Closing.of_reset (hx : n.node a = some x) (hr : x.Reset x') :
    n.Closing P (n.modify a fun _ => x') where
  script := script_of_reset hx hr
  loose hb := by
    suffices h : n.Loose _ ∨ False from h.resolve_right id
    refine hb.of_links (P := fun _ => False) rfl rfl (script_of_reset hx hr) ?_
    intro c z _ hz
    rcases modify_node_eq_some.mp hz with ⟨_, hz⟩ | ⟨rfl, y, hy, rfl⟩
    · exact ⟨z, hz, .refl _ z⟩
    · exact ⟨x, hx, .of_reset hr⟩
  firm {b} hb := by
    have ⟨y, hy, hc⟩ := hb
    by_cases hba : b = a
    case neg => exact .inl ⟨y, (modify_node_of_ne hba).trans hy, hc⟩
    case pos =>
      subst hba
      cases hx.symm.trans hy
      exact .inl ⟨x', modify_node_self hx, hr.cls ▸ hc⟩
  clients hc := ⟨hc, live_modify.mpr⟩
  sound h := h.modify hx hr.cls hr.type

theorem Closing.of_without {K : List Addr} (hl : n.lPorts ∉ K)
    (hc : ∀ c ∈ n.clients, c ∈ K → ¬n.Live c) :
    n.Closing (fun b => b ∈ K ∧ n.Firm b) (n.without K) where
  script := script_without hl
  loose hb := by
    suffices h : n.Loose _ ∨ False from h.resolve_right id
    refine hb.of_links (P := fun _ => False) rfl rfl (script_without hl) ?_
    exact fun _ hx => ⟨_, without_node_eq_some.mp hx |>.right, .refl _ _⟩
  firm {b} hb := by
    by_cases hK : b ∈ K
    case pos => exact .inr ⟨hK, hb⟩
    case neg =>
      exact .inl <| hb.imp fun x hx => hx.imp_left fun hx => without_node_eq_some.mpr ⟨hK, hx⟩
  clients {c} hm := by
    refine ⟨hm, fun hlc => ?_⟩
    have ⟨x, hx⟩ := live_iff.mp hlc
    exact live_iff.mpr ⟨x, without_node_eq_some.mpr ⟨fun hK => hc c hm hK hlc, hx⟩⟩
  sound h := h.without K

end Links

section Closing

variable {n n' : Net} {a : Addr} {x : Node}

-- A client of the script port has no peer.
theorem Role.peer_of_client (h : n.Role a x) (hc : x.cls = some .scriptClient) : x.peer = none := by
  cases h <;> simp_all

theorem Role.scriptRef_of_client (h : n.Role a x) (hc : x.cls = some .scriptClient) :
    x.scriptRef.isSome := by
  cases h <;> simp_all

theorem Role.portwrite_of_client (h : n.Role a x) (hc : x.cls = some .scriptClient) :
    x.portwrite = some .tcp := by
  cases h <;> simp_all

theorem Closing.of_killed (hi : n.Inv) (hk : n.Killed a n') (ha : a ∉ n.clients) :
    n.Closing (n.Doomed a) n' := by
  have hclient : ∀ {b y}, n.node b = some y → y.cls ≠ some .scriptClient → b ∉ n.clients :=
    fun hy hn hm => hn <| (hi.clients _ hm).right _ hy
  have hlp : ∀ {b y}, n.node b = some y → ¬y.isPermanent → n.lPorts ≠ b := by
    rintro b y hy hn rfl
    exact hn <| hi.isPermanent_lPorts hy
  cases hk
  case reset hx _ hr => exact .of_reset hx hr
  case alone x hx hp hb =>
    refine Closing.of_without ?_ ?_ |>.mono ?_
    · simpa using hlp hx hp
    · intro c hm hK
      cases List.mem_singleton.mp hK
      contradiction
    · intro b hb
      cases List.mem_singleton.mp hb.left
      exact .self ⟨x, hx, hp⟩
  case pair x b y hx hp hb hy hq =>
    have hcy : y.cls ≠ some .scriptClient := by
      intro hcy
      have ⟨_, hy', _, hp'⟩ := hi.peer hx (by simp [Node.isKept, hp]) hb
      cases hy.symm.trans hy'
      simp [hq, (hi.role hy).peer_of_client hcy] at hp'
    refine Closing.of_without ?_ ?_ |>.mono ?_
    · simpa using ⟨hlp hx hp, hlp hy hq⟩
    · intro c hm hK
      simp only [List.mem_cons, List.not_mem_nil, or_false] at hK
      rcases hK with rfl | rfl
      · contradiction
      · exact absurd hm <| hclient hy hcy
    · intro c hm
      have hK := hm.left
      simp only [List.mem_cons, List.not_mem_nil, or_false] at hK
      rcases hK with rfl | rfl
      · exact .self ⟨x, hx, hp⟩
      · exact .peer ⟨x, hx, hp⟩ hx hb ⟨y, hy, hq⟩
  case attached x b y y' hx hp hb hy hq hr =>
    have h₁ : n.Closing (n.Doomed a) (n.modify b fun _ => y') := by
      cases hr
      case inl hr => rw [hr.right, modify_of_node hy]; exact .refl _ n
      case inr hr => exact .of_reset hy hr
    refine h₁.trans <| Closing.of_without ?_ ?_ |>.mono ?_
    · simpa [modify] using hlp hx hp
    · intro c hm hK
      cases List.mem_singleton.mp hK
      contradiction
    · intro b hb
      cases List.mem_singleton.mp hb.left
      exact .self ⟨x, hx, hp⟩

-- The links which `killport` does not clear outlive it.
theorem Loose.of_reset {b : Addr} {x' : Node} (h : n.Loose b) (hi : n.Inv)
    (hx : n.node a = some x) (hr : x.Reset x') : (n.modify a fun _ => x').Loose b := by
  have hs := script_of_reset hx hr
  have hm : ∀ {c y}, n.node c = some y → ∃ y', (n.modify a fun _ => x').node c = some y' ∧
      y'.lscript = y.lscript ∧ y'.rscript = y.rscript ∧ y'.type = y.type ∧
      (¬(y.cls = some .remotePort ∧ y.isMaster) → y'.peer = y.peer) := by
    intro c y hy
    by_cases hc : c = a
    case neg => exact ⟨y, (modify_node_of_ne hc).trans hy, rfl, rfl, rfl, fun _ => rfl⟩
    case pos =>
      subst hc
      cases hx.symm.trans hy
      refine ⟨x', modify_node_self hx, hr.lscript, hr.rscript, hr.type, fun hn => ?_⟩
      rw [hr.peer, if_neg hn]
  cases h
  case lPeer y hy hb =>
    obtain ⟨l, hl, hlc⟩ := hi.lPort
    cases hy.symm.trans hl
    obtain ⟨y', hy', _, _, _, hp⟩ := hm hy
    exact .lPeer hy' <| (hp <| by simp [hlc]).trans hb
  case rPeer y hy hn hb =>
    obtain ⟨y', hy', _, _, ht, hp⟩ := hm hy
    refine .rPeer hy' ?_ <| (hp fun h => hn h.right).trans hb
    rwa [Node.isMaster, ht]
  case lscript s y hs' hy hb =>
    obtain ⟨y', hy', hl, _⟩ := hm hy
    exact .lscript (hs.trans hs') hy' (hl.trans hb)
  case rscript s y hs' hy hb =>
    obtain ⟨y', hy', _, hr, _⟩ := hm hy
    exact .rscript (hs.trans hs') hy' (hr.trans hb)

theorem Loose.of_without {b : Addr} {K : List Addr} (h : n.Loose b) (hi : n.Inv)
    (hK : ∀ c ∈ K, ∀ x, n.node c = some x → ¬x.isPermanent) : (n.without K).Loose b := by
  have hm : ∀ {c y}, n.node c = some y → y.isPermanent → (n.without K).node c = some y :=
    fun hy hp => without_node_eq_some.mpr ⟨fun hc => hK _ hc _ hy hp, hy⟩
  have ⟨l, hl, _⟩ := hi.lPort
  have hs := script_without fun hc => hK _ hc l hl <| hi.isPermanent_lPorts hl
  cases h
  case lPeer hy hb       => exact .lPeer (hm hy <| hi.isPermanent_lPorts hy) hb
  case rPeer hy hn hb    => exact .rPeer (hm hy <| hi.isPermanent_rPorts hy) hn hb
  case lscript hs' hy hb => exact .lscript (hs.trans hs') (hm hy <| hi.isPermanent_script hs' hy) hb
  case rscript hs' hy hb => exact .rscript (hs.trans hs') (hm hy <| hi.isPermanent_script hs' hy) hb

theorem Doomed.congr {b : Addr} (h : n.Doomed a b) (hn : n'.node = n.node) : n'.Doomed a b := by
  have hc {c : Addr} (hc : n.IsConn c) : n'.IsConn c := by
    have ⟨x, hx, hp⟩ := hc
    exact ⟨x, hn ▸ hx, hp⟩
  cases h
  case self ha           => exact .self (hc ha)
  case peer ha hx hb hb' => exact .peer (hc ha) (hn ▸ hx) hb (hc hb')

-- The local port is never killed for good.
theorem Killed.script_eq (hk : n.Killed a n') (hi : n.Inv) : n'.script = n.script := by
  have hlp {b : Addr} {y : Node} (hy : n.node b = some y) (hp : ¬y.isPermanent) :
      n.lPorts ≠ b := by
    rintro rfl
    exact hp <| hi.isPermanent_lPorts hy
  cases hk
  case reset hx _ hr             => exact script_of_reset hx hr
  case alone hx hp _             => exact script_without <| by simpa using hlp hx hp
  case pair hx hp _ hy hq        => exact script_without <| by simpa using ⟨hlp hx hp, hlp hy hq⟩
  case attached hx hp _ hy _ hr  =>
    refine (script_without <| by simpa [modify] using hlp hx hp).trans ?_
    rcases hr with ⟨_, rfl⟩ | hr
    · rw [modify_of_node hy]
    · exact script_of_reset hy hr

-- All doomed ports are gone, but the loose links are still there.
theorem Killed.loose_of_doomed {b : Addr} (hk : n.Killed a n') (hi : n.Inv) (hd : n.Doomed a b) :
    ¬n'.Live b ∧ n'.clients = n.clients ∧ ∀ {c}, n.Loose c → n'.Loose c := by
  have hgone {m : Net} {K : List Addr} (hb : b ∈ K) : ¬(m.without K).Live b := by
    simp [Live, Net.without, hb]
  have hsingle {m : Net} {y : Node} (hy : m.node a = some y) (hp : ¬y.isPermanent) :
      ∀ c ∈ [a], ∀ x, m.node c = some x → ¬x.isPermanent := by
    intro c hc x hx
    cases List.mem_singleton.mp hc
    exact Option.some.inj (hy.symm.trans hx) ▸ hp
  obtain ⟨x₀, hx₀, hp₀⟩ : n.IsConn a := by cases hd <;> assumption
  cases hk
  case reset hx hp _ =>
    cases hx₀.symm.trans hx
    contradiction
  case alone x hx hp hb =>
    cases hd
    case self => exact ⟨hgone <| by simp, rfl, fun h => h.of_without hi <| hsingle hx hp⟩
    case peer hx' hb' _ =>
      cases hx.symm.trans hx'
      cases hb.symm.trans hb'
  case pair x c y hx hp hb hy hq =>
    refine ⟨hgone ?_, rfl, fun h => h.of_without hi ?_⟩
    · cases hd
      case self => simp
      case peer hx' hb' _ =>
        cases hx.symm.trans hx'
        cases hb.symm.trans hb'
        simp
    · intro d hd z hz
      simp only [List.mem_cons, List.not_mem_nil, or_false] at hd
      rcases hd with rfl | rfl
      · exact Option.some.inj (hx.symm.trans hz) ▸ hp
      · exact Option.some.inj (hy.symm.trans hz) ▸ hq
  case attached x c y y' hx hp hb hy hq hr =>
    have hca : a ≠ c := by
      rintro rfl
      cases hx.symm.trans hy
      contradiction
    have hx' := (modify_node_of_ne hca (f := fun _ => y')).trans hx
    have hi' : (n.modify c fun _ => y').Inv ∧
        ∀ {d}, n.Loose d → (n.modify c fun _ => y').Loose d := by
      cases hr
      case inl hr => rw [hr.right, modify_of_node hy]; exact ⟨hi, id⟩
      case inr hr => exact ⟨hi.of_reset hy hq hr, fun h => h.of_reset hi hy hr⟩
    cases hd
    case self =>
      exact ⟨hgone <| by simp, rfl, fun h => (hi'.right h).of_without hi'.left <| hsingle hx' hp⟩
    case peer hx'' hb' hconn =>
      cases hx.symm.trans hx''
      cases hb.symm.trans hb'
      obtain ⟨z, hz, hn⟩ := hconn
      cases hy.symm.trans hz
      contradiction

end Closing

section Opening

variable {n : Net} {a : Addr} {x : Node} {f : Node → Node}

theorem Firm.modify {b : Addr} (h : n.Firm b) (hx : n.node a = some x) (hc : (f x).cls = x.cls) :
    (n.modify a f).Firm b := by
  have ⟨y, hy, hcy⟩ := h
  by_cases hba : b = a
  case neg => exact ⟨y, (modify_node_of_ne hba).trans hy, hcy⟩
  case pos =>
    subst hba
    cases hx.symm.trans hy
    exact ⟨f x, modify_node_self hx, hc ▸ hcy⟩

theorem Opening.modify (hx : n.node a = some x) (hc : (f x).cls = x.cls)
    (hs : (n.modify a f).script = n.script) (hl : Links n.Firm x (f x)) :
    n.Opening (n.modify a f) where
  loose hb := by
    have h := hb.of_links (n := n) (P := n.Firm) rfl rfl hs fun {b z} _ hz => ?_
    · exact h.imp_right (·.modify hx hc)
    · rcases modify_node_eq_some.mp hz with ⟨_, hz⟩ | ⟨rfl, y, hy, rfl⟩
      · exact ⟨z, hz, .refl _ z⟩
      · cases hx.symm.trans hy
        exact ⟨x, hx, hl⟩
  firm hb := hb.modify hx hc
  clients := .inl
  live    := live_modify.mpr
  sound h := h.modify hx hc hl.type

-- A port gets a peer, which is not a client.
theorem Opening.set_peer {b : Addr} (hx : n.node a = some x) (hb : n.Firm b) :
    n.Opening (n.modify a ({ · with peer := some b })) := by
  refine .modify hx (by rfl) (script_modify fun _ _ => rfl) ?_
  exact ⟨rfl, fun h => .inr <| Option.some.inj h ▸ hb, .inl, .inl⟩

theorem Opening.link {b : Addr} {y : Node} (hx : n.node a = some x) (hy : n.node b = some y)
    (hab : a ≠ b) (hxc : x.cls ≠ some .scriptClient) (hyc : y.cls ≠ some .scriptClient) :
    n.Opening (n.link a b) := by
  have hy' := (modify_node_of_ne hab.symm (f := ({ · with peer := some b }))).trans hy
  exact (Opening.set_peer hx ⟨y, hy, hyc⟩).trans <| .set_peer hy' ⟨_, modify_node_self hx, hxc⟩

theorem node_add {b : Addr} {y : Node} (ha : n.node a = none) (hy : n.node b = some y) :
    (n.add a x).node b = some y := by
  refine add_node_eq_some.mpr <| .inl ⟨?_, hy⟩
  rintro rfl
  cases ha.symm.trans hy

-- The links of a new port are not loose.
theorem Loose.of_add {b : Addr} (hb : (n.add a x).Loose b) (h : n.Inv) (ha : n.node a = none) :
    n.Loose b := by
  have ⟨l, hl, _⟩ := h.lPort
  have ⟨r, hr, _⟩ := h.rPort
  have hla : n.lPorts ≠ a := fun he => by cases (he ▸ ha).symm.trans hl
  suffices h : n.Loose b ∨ False from h.resolve_right id
  refine hb.of_links (P := fun _ => False) rfl rfl (script_add hla) fun {c z} hroot hz => ?_
  have ⟨w, hw⟩ : ∃ w, n.node c = some w := by
    rcases hroot with rfl | rfl | hs
    · exact ⟨l, hl⟩
    · exact ⟨r, hr⟩
    · exact (h.sPort c hs).imp fun _ => And.left
  have he := Option.some.inj <| (node_add ha hw).symm.trans hz
  exact ⟨w, hw, he ▸ .refl _ w⟩

theorem Sound.add (h : n.Sound) (hr : n.Live n.rPorts) (ha : n.node a = none)
    (hc : x.cls = some .scriptClient → a ∈ n.clients) : (n.add a x).Sound where
  client hy hcy := by
    rcases add_node_eq_some.mp hy with ⟨_, hy⟩ | ⟨rfl, rfl⟩
    · exact h.client hy hcy
    · exact hc hcy
  remote hm hy := by
    have ⟨r, hr⟩ := live_iff.mp hr
    cases (node_add ha hr).symm.trans hy
    refine h.remote ((List.mem_cons.mp hm).resolve_left fun he => ?_) hr
    cases (he ▸ ha).symm.trans hr

theorem Opening.add (h : n.Inv) (ha : n.node a = none) (hc : x.cls ≠ some .scriptClient) :
    n.Opening (n.add a x) where
  loose hb := .inl <| hb.of_add h ha
  firm hb  := hb.imp fun _ => And.imp_left <| node_add ha
  clients  := .inl
  live hl  := live_iff.mpr <| (live_iff.mp hl).imp fun _ => node_add ha
  sound hn := hn.add (live_iff.mpr <| h.rPort.imp fun _ => And.left) ha (absurd · hc)

end Opening

end Net

end Proxy
