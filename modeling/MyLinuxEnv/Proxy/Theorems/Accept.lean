import MyLinuxEnv.Proxy.Theorems.Opening

namespace Proxy

variable {env : Env} {σ σ' : State} {n m : Net} {a b : Addr} {x : Node}

theorem Represents.bind_opening (h : Represents σ n.Opening)
    (hs : ∀ {m}, Refines σ m → m.Inv → n.Opening m → Represents σ' m.Opening) :
    Represents σ' n.Opening := by
  have ⟨m, hm, hi, ho⟩ := h
  exact (hs hm hi ho).mono ho.trans

theorem Refines.represents_opening (h : Refines σ n) (hi : n.Inv) : Represents σ n.Opening :=
  ⟨n, h, hi, .refl n⟩

theorem Refines.set_scriptRef (h : Refines σ n) (hb : b ≠ n.lPorts) (s : Addr) (mode : Nat) :
    Refines (σ.modify b ({ · with scriptRef := some s, mode }))
      (n.modify b ({ · with scriptRef := some s })) :=
  h.modify (fun _ _ => ⟨rfl, rfl⟩) <| Net.script_modify_of_ne hb

theorem bindScript_opening (h : Refines σ n) (hi : n.Inv) (ha : n.Firm a) (hb : n.Firm b)
    (hal : a ≠ n.lPorts) (hbl : b ≠ n.lPorts) (hs : bindScript σ n.lPorts a b = some σ') :
    Represents σ' n.Opening := by
  have ⟨l, hl, hs⟩ := Option.bind_eq_some_iff.mp hs
  split at hs
  case h_1 => cases hs; exact h.represents_opening hi
  case h_2 s hls =>
    have ⟨sp, _, hs⟩ := Option.bind_eq_some_iff.mp hs
    split at hs
    case isTrue  => cases hs; exact h.represents_opening hi
    case isFalse =>
      cases hs
      have ⟨hi', ho⟩ := hi.bind ha hb hal hbl <| hi.scriptRef (h.node_eq hl) hls
      refine ⟨_, ?_, hi', ho⟩
      have h₁ := h.set_scriptRef hal s sp.lmode |>.set_scriptRef (b := b) hbl s sp.rmode
      exact h₁.modify (fun _ _ => ⟨rfl, rfl⟩) <| Net.script_modify fun _ _ => rfl

theorem isNew_remoteConn {sock : Int} (peer : Option Addr) (h : 0 ≤ sock) :
    (remoteConn sock peer).IsNew := by
  refine ⟨rfl, rfl, rfl, ?_, rfl⟩
  simp only [remoteConn, Port.node, decide_eq_true_eq]
  omega

-- The local port and the remote port know each other from the beginning.
theorem Net.Inv.remote_of_localPort (hi : n.Inv) (hx : n.node a = some x)
    (hm : x.readMessage = some .localPort) : a = n.lPorts ∧ x.remote = some n.rPorts := by
  have hr := hi.role hx
  cases hr
  case localPort ha _ _ _ hrem _ => exact ⟨ha, hrem⟩
  all_goals simp_all

theorem localPortForward_opening (h : Refines σ n) (hi : n.Inv) (hx : n.node n.lPorts = some x)
    (hr : x.remote = some n.rPorts) (hf : localPortForward env σ n.lPorts = some σ') :
    Represents σ' n.Opening := by
  obtain ⟨⟨res, σ₁⟩, ho, hf⟩ := Option.bind_eq_some_iff.mp hf
  obtain ⟨n₁, ho, h₁⟩ := h.openRemotePort hi.bounded hx hr ho
  -- Whatever has been opened, the rest only reads and writes.
  have hrest {peer : Addr} (hf : (do
      let σ₁ := σ₁.modify n.lPorts ({ · with peer := some peer })
      let res ← portread env σ₁ n.lPorts IO_BUFSIZE
      let l ← res.2.port n.lPorts
      if res.1 ≤ 0 ∧ l.type = some .stdinout then none else
        return (← portwrite env res.2 (← l.peer) l.buf res.1).2) = some σ') :
      Refines σ' (n₁.modify n.lPorts ({ · with peer := some peer })) := by
    obtain ⟨⟨got, σ₂⟩, hg, hf⟩ := Option.bind_eq_some_iff.mp hf
    obtain ⟨l, hl, hf⟩ := Option.bind_eq_some_iff.mp hf
    split at hf
    · contradiction
    · obtain ⟨b, _, hf⟩ := Option.bind_eq_some_iff.mp hf
      obtain ⟨⟨_, σ₃⟩, hw, hf⟩ := Option.bind_eq_some_iff.mp hf
      cases hf
      exact (quiet_of_portread hg).trans (quiet_of_portwrite hw) |>.refines <| h₁.set_peer ..
  cases ho
  case none k =>
    obtain ⟨⟨_, σ₂⟩, hg, hf⟩ := Option.bind_eq_some_iff.mp hf
    cases hf
    exact ⟨_, quiet_of_portread hg |>.refines h₁, hi.reserve k, .reserve n k⟩
  case attach y hy ht =>
    obtain ⟨hi', ho'⟩ := hi.forward_attach hy ht
    exact ⟨_, hrest hf, hi', ho'⟩
  case connect sock hs =>
    obtain ⟨hi', ho'⟩ := hi.forward_connect (isNew_remoteConn (some n.lPorts) hs) rfl
    exact ⟨_, Net.add_fresh ▸ hrest hf, hi', ho'⟩

-- The network once the accepted connection `x` has got its peer and is on the list.
theorem Net.Inv.accepted {peer : Addr} {n₁ : Net} (h : n.Inv) (hx : x.IsNew) (hxp : x.peer = none)
    (ho : Opened (n.alloc x) n.fresh n.rPorts (some peer) n₁) :
    let m := (n₁.modify n.fresh ({ · with peer := some peer })).enlist n.fresh
    m.Inv ∧ n.Opening m ∧ m.Firm n.fresh ∧ m.Firm peer ∧ peer ≠ n.lPorts ∧ n.fresh ∉ n₁.ports ∧
      m.lPorts = n.lPorts := by
  have hnf : n.fresh ∉ n.ports := fun hm => Nat.lt_irrefl _ <| h.bounded.ports _ hm
  have hxc : x.cls ≠ some .scriptClient := by simp [hx.cls]
  cases ho
  case attach y hy hya =>
    obtain ⟨r, hr, hrc⟩ := h.rPort
    have hrf : n.rPorts ≠ n.fresh :=
      Nat.ne_of_lt <| h.lt_fresh _ <| Net.live_iff.mpr ⟨r, hr⟩
    have hy := (Net.alloc_node_of_ne hrf).symm.trans hy
    have he : (((n.alloc x).modify n.rPorts ({ · with peer := some n.fresh })).modify n.fresh
          ({ · with peer := some n.rPorts })).enlist n.fresh =
        (n.add n.fresh { x with peer := some n.rPorts }).modify n.rPorts
          ({ · with peer := some n.fresh }) := by
      rw [Net.modify_comm hrf, Net.modify_alloc, Net.add_fresh]
      rfl
    have hx' : ({ x with peer := some n.rPorts } : Node).IsNew := { hx with }
    obtain ⟨hi', ho'⟩ := h.attach hx' hy hya rfl
    dsimp only
    rw [he]
    refine ⟨hi', ho', ?_, ho'.firm ⟨r, hr, by simp [hrc]⟩, ?_, hnf, rfl⟩
    · refine ⟨{ x with peer := some n.rPorts }, ?_, hxc⟩
      exact (Net.modify_node_of_ne hrf.symm).trans <| by simp [Net.add]
    · obtain ⟨l, hl, hlc⟩ := h.lPort
      intro he
      cases (he ▸ hr).symm.trans hl
      simp [hrc] at hlc
  case connect sock hs =>
    have he : (((((n.alloc x).alloc <| remoteConn sock (some n.fresh)).enlist
          (n.fresh + 1)).modify n.fresh ({ · with peer := some (n.fresh + 1) })).enlist n.fresh) =
        ((n.add (n.fresh + 1) (remoteConn sock none)).add n.fresh x).link n.fresh
          (n.fresh + 1) := by
      simp only [Net.alloc, Net.enlist, Net.modify, Net.add, Net.link, Net.mk.injEq, and_true,
        true_and]
      have hmax : max n.fresh (n.fresh + 1 + 1) = n.fresh + 1 + 1 :=
        Nat.max_eq_right <| Nat.le_add_right _ 2
      refine ⟨funext fun b => ?_, by simp [hmax]⟩
      by_cases hb : b = n.fresh + 1
      case pos => simp [hb, remoteConn, Port.node]
      case neg => by_cases hb' : b = n.fresh <;> simp [hb, hb']
    obtain ⟨hi', ho'⟩ := h.connect hx (isNew_remoteConn none hs) hxp rfl
    have hlt : n.lPorts < n.fresh + 1 := Nat.lt_succ_of_lt h.bounded.lPorts
    have hfr : (n.alloc x).fresh = n.fresh + 1 := rfl
    dsimp only
    rw [hfr, he]
    refine ⟨hi', ho', ?_, ?_, Nat.ne_of_gt hlt, ?_, rfl⟩
    · exact ⟨{ x with peer := some (n.fresh + 1) }, by simp [Net.link, Net.modify, Net.add], hxc⟩
    · refine ⟨remoteConn sock (some n.fresh), ?_, by simp [remoteConn, Port.node]⟩
      simp [Net.link, Net.modify, Net.add, remoteConn, Port.node]
    · simp [Net.enlist, Net.alloc, hnf]

theorem localPortAccept_opening (h : Refines σ n) (hi : n.Inv) (hx : n.node n.lPorts = some x)
    (hr : x.remote = some n.rPorts) (hl : localPortAccept env σ n.lPorts = some σ') :
    Represents σ' n.Opening := by
  obtain ⟨l, hlp, hl⟩ := Option.bind_eq_some_iff.mp hl
  cases hx.symm.trans <| h.node_eq hlp
  obtain ⟨⟨res, σ₁⟩, ho, hl⟩ := Option.bind_eq_some_iff.mp hl
  let p : Port := {
    readMessage := some .remotePort, portclose := some .tcp, portread := some .tcp,
    portwrite := some .tcp, sock := env.accept σ.time, type := some .tcp, remote := l.remote }
  have h₀ : Refines ({ σ with time := σ.time + 1 }.malloc p) (n.alloc p.node) :=
    (Quiet.time ..).refines h |>.malloc hi.bounded
  have hp : (n.alloc p.node).node σ.fresh = some p.node := h.fresh ▸ Net.alloc_node_self
  obtain ⟨n₁, ho, h₁⟩ := h₀.openRemotePort hi.bounded.alloc hp hr ho
  dsimp only at hl
  rw [h.fresh] at ho hl
  cases res
  case none =>
    cases hl
    cases ho
    case none k =>
      refine ⟨(n.reserve 1).reserve k, ?_, (hi.reserve 1).reserve k,
        (Net.Opening.reserve n 1).trans <| .reserve _ k⟩
      have hf := h₁.free (Nat.ne_of_lt hi.bounded.lPorts)
      exact Net.free_alloc hi.bounded (x := p.node) ▸ hf
  case some peer _ =>
    obtain ⟨σ₂, hq₂, hl⟩ := Option.bind_eq_some_iff.mp hl
    obtain ⟨σ₃, hq₃, hl⟩ := Option.bind_eq_some_iff.mp hl
    obtain ⟨l', _, hl⟩ := Option.bind_eq_some_iff.mp hl
    obtain ⟨rem, _, hl⟩ := Option.bind_eq_some_iff.mp hl
    obtain ⟨r, _, hl⟩ := Option.bind_eq_some_iff.mp hl
    obtain ⟨σ₄, hq₄, hb⟩ := ite_bind_eq_some_iff.mp hl
    have hnew : p.node.IsNew := by
      refine ⟨rfl, rfl, rfl, ?_, rfl⟩
      have hfd := le_of_fdSet hq₃
      simp only [Port.node, decide_eq_true_eq, p]
      omega
    obtain ⟨hi', ho', hfi, hfp, hpl, hmem, hlp⟩ := hi.accepted hnew rfl ho
    have hq := (quiet_of_refresh hq₂).trans <| quiet_of_fdSet hq₃
    have h₃ := hq.refines <| (h₁.set_peer n.fresh (some peer)).push hmem
    have hq' : Quiet σ₃ σ₄ := by
      split at hq₄
      · exact (Quiet.telnetNegotiation ..).trans <| quiet_of_iacStartup hq₄
      · cases hq₄; exact .refl _
    have h₄ := hq'.refines h₃
    have hne : n.fresh ≠ n.lPorts := Nat.ne_of_gt hi.bounded.lPorts
    exact (bindScript_opening h₄ hi' hfi hfp (hlp ▸ hne) (hlp ▸ hpl) (hlp ▸ hb)).mono ho'.trans

-- The links of the new client and of the script port, which lead to the former first client.
theorem Refines.own {c s : Addr} {sp : Port} (h : Refines σ n) (hs : n.script = some s)
    (hp : σ.port s = some sp) (hc : c ∉ n.clients) :
    Refines ((σ.setClientNext c sp.clients).modify s ({ · with clients := some c }))
      { n with clients := c :: n.clients } where
  node b := by
    by_cases hb : b = s
    case neg => exact (congrArg _ <| State.modify_port_of_ne hb).trans <| h.node b
    case pos =>
      have hp' : (σ.setClientNext c sp.clients).port s = some sp := hp
      simp [hb, hp', h.node_eq hp, Port.node]
  ports := h.ports
  clients {s' sp'} hs' hp' := by
    cases hs.symm.trans hs'
    have hp'' : (σ.setClientNext c sp.clients).port s = some sp := hp
    rw [State.modify_port_self, hp'', Option.map_some, Option.some_inj] at hp'
    rw [← hp']
    exact (h.clients hs hp).push hc
  fresh  := h.fresh
  lPorts := h.lPorts
  rPorts := h.rPorts

-- A client that has been accepted, once it is on both lists.
theorem Refines.addClient {s : Addr} {sp : Port} (h : Refines σ n) (hi : n.Inv)
    (hs : n.script = some s) (hsp : σ.port s = some sp) (p : Port) :
    Refines ((((({ σ with time := σ.time + 1 } : State).malloc p).setClientNext σ.fresh
      sp.clients).modify s ({ · with clients := some σ.fresh })).push σ.fresh)
      (n.addClient p.node) := by
  have h₀ : Refines ({ σ with time := σ.time + 1 }.malloc p) (n.alloc p.node) :=
    (Quiet.time ..).refines h |>.malloc hi.bounded
  have hsf : s ≠ σ.fresh := h.fresh ▸ Nat.ne_of_lt (hi.bounded.script s hs)
  have hp : ({ σ with time := σ.time + 1 }.malloc p).port s = some sp :=
    (State.malloc_port_of_ne hsf).trans hsp
  have hnc : σ.fresh ∉ n.clients :=
    fun hm => Nat.lt_irrefl _ <| h.fresh ▸ hi.bounded.clients _ hm
  have hnp : σ.fresh ∉ n.ports := fun hm => Nat.lt_irrefl _ <| h.fresh ▸ hi.bounded.ports _ hm
  have h₁ := h₀.own ((Net.script_alloc hi.bounded).trans hs) hp hnc |>.push hnp
  have he : ({ n.alloc p.node with clients := σ.fresh :: n.clients } : Net).enlist σ.fresh =
      n.addClient p.node := by
    rw [Net.addClient, Net.add_fresh, h.fresh]
    rfl
  exact he ▸ h₁

theorem scriptPortReadMessage_opening {s : Addr} (h : Refines σ n) (hi : n.Inv)
    (hs : n.script = some s) (hr : scriptPortReadMessage env σ s = some σ') :
    Represents σ' n.Opening := by
  have ⟨sp, hsp, hr⟩ := Option.bind_eq_some_iff.mp hr
  split at hr
  case isTrue => cases hr; exact h.represents_opening hi
  case isFalse =>
    have ⟨σ₂, hq₂, hr⟩ := Option.bind_eq_some_iff.mp hr
    have ⟨σ₃, hq₃, hr⟩ := Option.bind_eq_some_iff.mp hr
    have ⟨σ₄, hq₄, hr⟩ := ite_bind_eq_some_iff.mp hr
    let p : Port := {
      readMessage := some .scriptClientPort, portclose := some .tcp, portread := some .tcp,
      portwrite := some .tcp, sock := env.accept σ.time, type := some .tcp,
      cls := some .scriptClient, scriptRef := some s }
    have hfd := le_of_fdSet hq₃
    have ⟨hi', ho'⟩ := hi.add_client hs (x := p.node) rfl rfl rfl
      (by simp only [Port.node, decide_eq_true_eq, p]; omega) rfl rfl rfl
    have hq : Quiet σ₃ σ' := by
      have hq₄ : Quiet σ₃ σ₄ := by
        split at hq₄
        · exact quiet_of_iacStartup hq₄
        · cases hq₄; exact .refl _
      refine hq₄.trans ?_
      split at hr
      · cases hr; exact .refl _
      · split at hr
        · exact quiet_of_sendSpecialBreak hr
        · cases hr; exact .refl _
    have hq' := (quiet_of_refresh hq₂).trans <| (quiet_of_fdSet hq₃).trans hq
    exact ⟨_, hq'.refines <| h.addClient hi hs hsp p, hi', ho'⟩

-- A remote port gets another handle, and may get connected by that.
theorem Net.Inv.set_handle {f : Node → Node} (h : n.Inv) (hx : n.node a = some x)
    (hc : x.cls = some .remotePort) (hf : f x = { x with isOpen := true } ∨
      f x = { x with isOpen := true, readMessage := some .remotePort }) :
    (n.modify a f).Inv ∧ n.Opening (n.modify a f) := by
  have hrole : n.Role a (f x) := by
    have hr := h.role hx
    cases hr
    case remotePort ha _ hm ho hl hp =>
      rcases hf with hf | hf
      · exact hf ▸ .remotePort ha hc hm (fun _ => rfl) hl hp
      · exact hf ▸ .remotePort ha hc (.inl rfl) (fun _ => rfl) hl hp
    all_goals simp_all
  have hs : (n.modify a f).script = n.script :=
    Net.script_modify fun y hy => by
      cases hx.symm.trans hy
      rcases hf with hf | hf <;> rw [hf]
  constructor
  · rcases hf with hf | hf
    all_goals
      exact h.modify_of_peer hx hrole (by rw [hf]) (by rw [hf]) (.inl <| by rw [hf]) (by rw [hf])
  · rcases hf with hf | hf
    all_goals exact .modify hx (by rw [hf]) hs <| hf ▸ ⟨rfl, .inl, .inl, .inl⟩

theorem Net.Role.cls_of_handler (h : n.Role a x) (hm : x.readMessage = some .remotePortAccept ∨
    x.readMessage = some .remotePortFifoCon) : x.cls = some .remotePort := by
  cases h <;> simp_all

theorem Refines.set_sock {fd : Int} (h : Refines σ n) (hfd : 0 ≤ fd) (a : Addr) :
    Refines (σ.modify a ({ · with sock := fd })) (n.modify a ({ · with isOpen := true })) := by
  refine h.modify (fun p _ => ⟨?_, rfl⟩) <| Net.script_modify fun _ _ => rfl
  simp only [Port.node, Node.mk.injEq, decide_eq_true_eq, and_true, true_and]
  omega

-- The way in which both kinds of remote ports which wait for a connection replace their handle.
theorem connect_opening {fd : Int} {σ₁ σ₂ σ₃ : State} (h : Refines σ n) (hi : n.Inv)
    (hx : n.node a = some x) (hc : x.cls = some .remotePort)
    (hq : Quiet (σ.modify a ({ · with sock := fd })) σ₁) (hf : σ₁.fdSet fd = some σ₂)
    (hr : refreshNsockhandle σ₂ = some σ₃) :
    Represents (σ₃.modify a ({ · with readMessage := some .remotePort })) n.Opening := by
  have h₁ := h.set_sock (le_of_fdSet hf) a
  have hq' := hq.trans <| (quiet_of_fdSet hf).trans <| quiet_of_refresh hr
  have h₂ := (hq'.refines h₁).modify (a := a) (f := ({ · with readMessage := some .remotePort }))
    (g := ({ · with readMessage := some .remotePort })) (fun _ _ => ⟨rfl, rfl⟩)
    (Net.script_modify fun _ _ => rfl)
  rw [Net.modify_modify] at h₂
  have ⟨hi', ho'⟩ := hi.set_handle hx hc
    (f := ({ · with isOpen := true, readMessage := some .remotePort })) <| .inr rfl
  exact ⟨_, h₂, hi', ho'⟩

theorem remotePortAccept_opening (h : Refines σ n) (hi : n.Inv) (hx : n.node a = some x)
    (hc : x.cls = some .remotePort) (hr : remotePortAccept env σ a = some σ') :
    Represents σ' n.Opening := by
  have ⟨p, _, hr⟩ := Option.bind_eq_some_iff.mp hr
  have ht := (Quiet.time σ (σ.time + 1)).refines h
  dsimp only at hr
  split at hr
  case isTrue => cases hr; exact ht.represents_opening hi
  case isFalse =>
    split at hr
    case isFalse => cases hr; exact ht.represents_opening hi
    case isTrue  =>
      have ⟨σ₂, hf, hr⟩ := Option.bind_eq_some_iff.mp hr
      have ⟨σ₃, hn, hr⟩ := Option.bind_eq_some_iff.mp hr
      cases hr
      have hl : Quiet σ { σ with time := σ.time + 1, listenFd := p.sock } :=
        .of_port_eq rfl rfl rfl rfl rfl rfl rfl
      exact connect_opening (hl.refines h) hi hx hc (.fdClr ..) hf hn

theorem fifoConnect_opening (h : Refines σ n) (hi : n.Inv) (hx : n.node a = some x)
    (hc : x.cls = some .remotePort) (hf : fifoConnect env σ a = some σ') :
    Represents σ' n.Opening := by
  have ⟨p, _, hf⟩ := Option.bind_eq_some_iff.mp hf
  dsimp only at hf
  have ht : Quiet σ { σ with time := σ.time + 1, fifoIdx := 0 } :=
    .of_port_eq rfl rfl rfl rfl rfl rfl rfl
  split at hf
  case isTrue => cases hf; exact (ht.refines h).represents_opening hi
  case isFalse =>
    have hl := ht.trans <| .log _ <| .connect (atoi σ.fifoBuf % 2 ^ 16)
    split at hf
    case isTrue => cases hf; exact (hl.refines h).represents_opening hi
    case isFalse =>
      split at hf
      case isFalse => cases hf; exact (hl.refines h).represents_opening hi
      case isTrue =>
        have ⟨σ₂, hs, hf⟩ := Option.bind_eq_some_iff.mp hf
        have ⟨σ₃, hn, hf⟩ := Option.bind_eq_some_iff.mp hf
        cases hf
        have hq := hl.trans <| .fifoConFd _ p.sock
        exact connect_opening (hq.refines h) hi hx hc (.fdClr ..) hs hn

theorem remotePortFifoConRead_opening (h : Refines σ n) (hi : n.Inv) (hx : n.node a = some x)
    (hc : x.cls = some .remotePort) (hr : remotePortFifoConRead env σ a = some σ') :
    Represents σ' n.Opening := by
  have ⟨p, _, hr⟩ := Option.bind_eq_some_iff.mp hr
  have ht := (Quiet.time σ (σ.time + 1)).refines h
  dsimp only at hr
  split at hr
  case h_1 c _ _ =>
    have ⟨σ₁, h₁, hr⟩ := ite_bind_eq_some_iff.mp hr
    have hrep : Represents σ₁ n.Opening := by
      split at h₁
      · exact fifoConnect_opening ht hi hx hc h₁
      · cases h₁; exact ht.represents_opening hi
    refine hrep.bind_opening fun h₁ hi₁ _ => ?_
    cases hr
    refine Refines.represents_opening (Quiet.refines ?_ h₁) hi₁
    split <;> split
    · exact .fifo ..
    · exact .fifo ..
    · exact .fifo ..
    · exact .refl _
  case h_2 =>
    split at hr
    case isTrue => contradiction
    case isFalse =>
      have ⟨σ₁, hs, hr⟩ := Option.bind_eq_some_iff.mp hr
      have hq := (quiet_of_fdSet hs).trans <| quiet_of_refresh hr
      have hc' := (Quiet.time σ (σ.time + 1 + 1)).trans <| .fdClr _ p.sock
      have h₁ := (hc'.refines h).set_sock (le_of_fdSet hs) a
      have ⟨hi', ho'⟩ := hi.set_handle hx hc (f := ({ · with isOpen := true })) <| .inl rfl
      exact ⟨_, hq.refines h₁, hi', ho'⟩

theorem localPortReadMessage_opening (h : Refines σ n) (hi : n.Inv) (hx : n.node a = some x)
    (hm : x.readMessage = some .localPort) (hr : localPortReadMessage env σ a = some σ') :
    Represents σ' n.Opening := by
  have ⟨ha, hrem⟩ := hi.remote_of_localPort hx hm
  subst ha
  have ⟨l, _, hr⟩ := Option.bind_eq_some_iff.mp hr
  split at hr
  · exact localPortAccept_opening h hi hx hrem hr
  · exact localPortForward_opening h hi hx hrem hr
  · exact localPortForward_opening h hi hx hrem hr
  · cases hr
    exact h.represents_opening hi

end Proxy
