import MyLinuxEnv.Proxy.Theorems.Broadcast
import MyLinuxEnv.Proxy.Theorems.Links
import MyLinuxEnv.Proxy.Theorems.Packets

open Text

namespace Proxy

variable {env : Env} {σ : State} {a c s : Addr}

-- The debug port `s` serves the client `c`.
structure Debugs (σ : State) (s c : Addr) : Prop where
  serves : ∃ cs ps, Serves σ s cs ps ∧ c ∈ cs
  breakPort : σ.breakPort s

section Step

variable {mem buf : List Byte}

theorem exists_deliver (h : Debugs σ s c) (hw : ∀ time, 0 < env.write time c mem) :
    ∃ σ', deliver env σ s mem mem.length = some σ' ∧ Debugs σ' s c ∧
      σ'.gdb = { σ.gdb with arr := [] } ∧ σ'.written c = σ.written c ++ [mem] := by
  have ⟨cs, ps, hs, hc⟩ := h.serves
  have ⟨σ', hd, hs', hws, hb, hg⟩ := hs.exists_deliver env mem mem.length
  have ⟨_, _, _, hchain, _⟩ := hs.script
  rw [List.take_length] at hs' hws
  rw [if_pos h.breakPort] at hg
  refine ⟨σ', hd, ⟨⟨_, _, hs', mem_accepted hc hw _⟩, hb.trans h.breakPort⟩, hg, ?_⟩
  rw [written_eq_filterMap, written_eq_filterMap, hws, List.filterMap_append,
    filterMap_of_mem hchain.nodup hc]

-- What a single call does, as long as all bytes find room.
theorem exists_writeScriptClients (h : Debugs σ s c) (hsplit : env.gdbSplit)
    (hw : ∀ time bytes, bytes ≠ [] → 0 < env.write time c bytes)
    (hne : ∀ b ∈ (σ.gdb.read buf).2, b ≠ []) :
    ∃ σ', writeScriptClients env σ s buf buf.length = some σ' ∧ Debugs σ' s c ∧
      σ'.gdb = (σ.gdb.read buf).1 ∧
      σ'.written c = σ.written c ++ (σ.gdb.read buf).2.toList := by
  have ⟨cs, ps, hs, hc⟩ := h.serves
  have ⟨sp, hsp, _⟩ := hs.script
  have hb : sp.breakPort := by
    have hb := h.breakPort
    rw [State.breakPort, hsp] at hb
    exact hb
  cases hg : σ.gdb.scan buf
  case mk gdb xmit =>
    have h₁ : Debugs { σ with gdb } s c :=
      ⟨⟨cs, ps, ⟨⟨hs.chain, hs.lt, hs.isSome⟩, hs.script, hs.client⟩, hc⟩, h.breakPort⟩
    simp only [writeScriptClients, hsp, hb, hsplit, List.take_length, hg, Option.bind_eq_bind,
      Option.bind_some, and_self, if_true]
    cases xmit
    all_goals simp only [Gdb.read, hg] at hne ⊢
    case false => exact ⟨_, rfl, h₁, rfl, by simp [State.written]⟩
    case true  =>
      obtain ⟨σ', hd, h', hg', hwritten⟩ := exists_deliver h₁ fun time => hw time _ <| hne _ rfl
      exact ⟨σ', hd, h', hg', hwritten⟩

end Step

section Run

variable {bufs : List (List Byte)}

-- Successive calls, starting with an empty accumulator.
def writeReads (env : Env) (s : Addr) (bufs : List (List Byte)) (σ : State) : Option State :=
  bufs.foldlM (fun σ buf => writeScriptClients env σ s buf buf.length) σ

-- A client is handed all packets of the reads, and is still connected afterwards.
def Delivers (env : Env) (s c : Addr) (bufs : List (List Byte)) (σ : State) : Prop :=
  ∃ σ' handed, writeReads env s bufs σ = some σ' ∧ σ'.written c = σ.written c ++ handed ∧
    (∀ ps, (∀ p ∈ ps, IsPacket p) → InOrder ps bufs.flatten → InOrder ps handed.flatten) ∧
    [] ∉ handed ∧ (σ'.port c).isSome ∧ c ∈ σ'.clients s

theorem exists_writeReads {v w : List Byte} (h : Debugs σ s c)
    (hsplit : env.gdbSplit) (hw : ∀ time bytes, bytes ≠ [] → 0 < env.write time c bytes)
    (hg : σ.gdb.Splits v w)
    (hf : σ.gdb.FitsAll bufs) :
    ∃ σ', writeReads env s bufs σ = some σ' ∧ Debugs σ' s c ∧
      σ'.written c = σ.written c ++ σ.gdb.sent bufs := by
  induction bufs generalizing σ v w
  case nil => exact ⟨σ, rfl, h, by simp [Gdb.sent]⟩
  case cons buf bufs ih =>
    obtain ⟨hg₁, hne⟩ := hg.read hf.left
    obtain ⟨σ₁, hw₁, h₁, hgdb, hwritten₁⟩ := exists_writeScriptClients h hsplit hw hne
    obtain ⟨σ', hw', h', hwritten'⟩ := ih h₁ (hgdb ▸ hg₁) (hgdb ▸ hf.right)
    refine ⟨σ', ?_, h', ?_⟩
    · simpa [writeReads, hw₁] using hw'
    · rw [hwritten', hwritten₁, hgdb, List.append_assoc]
      rfl

-- No packet is lost, as long as the accumulator is not full when a byte is scanned.
theorem delivers_of_fitsAll {sp : Port} (h : Represents σ Net.Valid) (hs : σ.script = some s)
    (hp : σ.port s = some sp) (hb : sp.breakPort) (hc : c ∈ σ.clients s) (hsplit : env.gdbSplit)
    (hw : ∀ time bytes, bytes ≠ [] → 0 < env.write time c bytes) (hg : σ.gdb = {})
    (hf : Gdb.FitsAll {} bufs) : Delivers env s c bufs σ := by
  have h : Debugs σ s c :=
    ⟨⟨_, _, h.serves hs, hc⟩, by rw [State.breakPort, hp]; exact hb⟩
  have hsplits : σ.gdb.Splits [] [] := hg ▸ Gdb.Splits.init
  have hf := hg ▸ hf
  obtain ⟨hpackets, hne⟩ := hsplits.sent hf
  obtain ⟨σ', hw', ⟨⟨cs, ps, hs', hc'⟩, _⟩, hwritten⟩ := exists_writeReads h hsplit hw hsplits hf
  refine ⟨σ', σ.gdb.sent bufs, hw', hwritten, hpackets, hne, ?_, hs'.clients_eq ▸ hc'⟩
  obtain ⟨_, p, hp', _⟩ := hs'.client c hc'
  exact Option.isSome_of_eq_some hp'

-- A client which connects to the script port does not break any connection.
theorem not_severs_of_scriptPort (h : σ.handler a = some .scriptPort) :
    ¬Severs env σ (.ready a) := by
  have hk (b : Addr) : ¬Kills env σ (.ready a) b := by
    intro hk
    cases hk
    case read _ hm _                             => cases h.symm.trans hm
    case write hr _ | rscript hr _ _ | lscript hr _ _ _ => cases hr; simp_all
  intro hs
  cases hs
  case link hk' _ _   => exact hk _ hk'
  case client hk' _ _ => exact hk _ hk'

-- A debug port to a remote, to which the port with the address 3 connects as a client.
def debugConfig : Config where
  lPort      := .tcp
  scriptPort := some (.tcp, true)
  remote     := some .udp

theorem exists_debugClient : ∃ σ₀ σ, start exampleEnv debugConfig = some σ₀ ∧
    step exampleEnv σ₀ (.ready 1) = some σ ∧ Represents σ Net.Valid ∧ σ.gdb = {} ∧
    σ.script = some 1 ∧ (∃ sp, σ.port 1 = some sp ∧ sp.breakPort) ∧ 3 ∈ σ.clients 1 := by
  have h : ((start exampleEnv debugConfig).bind fun σ₀ => (step exampleEnv σ₀ (.ready 1)).map
      fun σ => decide (σ₀.handler 1 = some .scriptPort ∧ σ.gdb = {} ∧ σ.script = some 1 ∧
        (σ.port 1).any (·.breakPort) ∧ σ.clients 1 = [3])) = some true := by decide
  have ⟨σ₀, h₀, h⟩ := Option.bind_eq_some_iff.mp h
  have ⟨σ, h₁, h⟩ := Option.map_eq_some_iff.mp h
  have ⟨hm, hg, hs, hb, hc⟩ := of_decide_eq_true h
  have hv := valid_step (start_represents h₀) h₁ <| not_severs_of_scriptPort hm
  exact ⟨σ₀, σ, h₀, h₁, hv, hg, hs, (Option.any_eq_true ..).mp hb, hc ▸ List.mem_singleton_self 3⟩

theorem exampleEnv_write (time : Nat) (bytes : List Byte) (h : bytes ≠ []) :
    0 < exampleEnv.write time 3 bytes :=
  Int.natCast_pos.mpr <| List.length_pos_iff.mpr h

def toBytes (s : String) : List Byte :=
  s.toList.map Char.toUInt8

theorem delivers_of_fitsAll_of_packets : ∃ σ₀ σ, start exampleEnv debugConfig = some σ₀ ∧
    step exampleEnv σ₀ (.ready 1) = some σ ∧
    Delivers exampleEnv 1 3 [toBytes "+$O61", toBytes "#e", toBytes "6$#00"] σ := by
  have ⟨σ₀, σ, h₀, h₁, hv, hg, hs, ⟨sp, hsp, hb⟩, hc⟩ := exists_debugClient
  exact ⟨σ₀, σ, h₀, h₁, delivers_of_fitsAll hv hs hsp hb hc rfl exampleEnv_write hg <| by decide⟩

theorem writeScriptClients_of_scan {sp : Port} {buf : List Byte} {gdb : Gdb}
    (hp : σ.port s = some sp) (hb : sp.breakPort) (hsplit : env.gdbSplit)
    (hg : σ.gdb.scan buf = (gdb, false)) :
    writeScriptClients env σ s buf buf.length = some { σ with gdb } := by
  simp [writeScriptClients, hp, hb, hsplit, hg]

-- A read which begins a packet without completing it.
def openRead (length : Nat) : List Byte :=
  '$'.toUInt8 :: List.replicate length 'x'.toUInt8

theorem scan_openRead {length : Nat} (h : length < MAX_GDB_BUF) :
    Gdb.scan {} (openRead length) = ({ arr := openRead length, gotDollar := 1 }, false) := by
  have hf : Gdb.Fits {} (openRead length) := Gdb.fits_of_length <| by
    rw [openRead, List.length_cons, List.length_replicate, List.length_nil, Nat.zero_add]
    exact h
  have ⟨hk, hn⟩ := Gdb.kept_dollar (d := 0)
  have hx : 'x'.toUInt8 ≠ '$'.toUInt8 ∧ 'x'.toUInt8 ≠ '#'.toUInt8 := by decide
  have ⟨hkb, hfb, hxb⟩ := Gdb.keep_body (w := List.replicate length 'x'.toUInt8) fun c hc =>
    List.eq_of_mem_replicate hc ▸ hx
  have he : Gdb.ends 0 '$'.toUInt8 = false := by decide
  simp only [Gdb.final] at hfb
  rw [Gdb.scan_of_fits hf]
  simp [openRead, Gdb.keep, Gdb.final, Gdb.xmits, hk, hn, hkb, hfb, hxb, he]

-- Behind a read which fills the accumulator up, the beginning of a packet is dropped.
theorem scan_of_full {g : Gdb} (h : MAX_GDB_BUF ≤ g.arr.length) :
    g.scan (toBytes "$#00") = ({}, false) := by
  have hs : g.scan (toBytes "$#00") = Gdb.scan {} (toBytes "#00") := by
    simp [toBytes, Gdb.scan, Gdb.step, h]
  rw [hs]
  decide

def lossyReads : List (List Byte) :=
  [openRead (MAX_GDB_BUF - 1), toBytes "$#00"]

theorem writeReads_lossyReads {sp : Port} (hp : σ.port s = some sp) (hb : sp.breakPort)
    (hsplit : env.gdbSplit) (hg : σ.gdb = {}) :
    writeReads env s lossyReads σ = some { σ with gdb := {} } := by
  have hm : MAX_GDB_BUF - 1 < MAX_GDB_BUF := by decide
  have h₁ := hg ▸ scan_openRead hm
  have h₂ := scan_of_full (g := { arr := openRead (MAX_GDB_BUF - 1), gotDollar := 1 }) <| by
    rw [openRead, List.length_cons, List.length_replicate]
    decide
  have hw₁ := writeScriptClients_of_scan hp hb hsplit h₁
  have hw₂ := writeScriptClients_of_scan
    (σ := { σ with gdb := { arr := openRead (MAX_GDB_BUF - 1), gotDollar := 1 } }) hp hb hsplit h₂
  rw [writeReads, lossyReads, List.foldlM_cons, hw₁, Option.bind_eq_bind, Option.bind_some,
    List.foldlM_cons, hw₂]
  rfl

theorem not_delivers_of_full : ∃ σ₀ σ, start exampleEnv debugConfig = some σ₀ ∧
    step exampleEnv σ₀ (.ready 1) = some σ ∧ σ.gdb = {} ∧ σ.script = some 1 ∧
    (∃ sp, σ.port 1 = some sp ∧ sp.breakPort) ∧ 3 ∈ σ.clients 1 ∧ exampleEnv.gdbSplit ∧
    (∀ time bytes, bytes ≠ [] → 0 < exampleEnv.write time 3 bytes) ∧
    (∀ buf ∈ lossyReads, buf.length ≤ IO_BUFSIZE) ∧ ¬Delivers exampleEnv 1 3 lossyReads σ := by
  have ⟨σ₀, σ, h₀, h₁, _, hg, hs, ⟨sp, hsp, hb⟩, hc⟩ := exists_debugClient
  refine ⟨σ₀, σ, h₀, h₁, hg, hs, ⟨sp, hsp, hb⟩, hc, rfl, exampleEnv_write, ?_, ?_⟩
  · rw [lossyReads, List.forall_mem_cons, List.forall_mem_singleton, openRead, List.length_cons,
      List.length_replicate]
    decide
  · rintro ⟨σ', handed, hw, hwritten, hpackets, _⟩
    have hw' : writeReads exampleEnv 1 lossyReads σ = _ := writeReads_lossyReads hsp hb rfl hg
    cases hw'.symm.trans hw
    have hnil : handed = [] := List.append_right_eq_self.mp hwritten.symm
    have hp : IsPacket (toBytes "$#00") :=
      @IsPacket.intro [] _ _ nofun (by decide) (by decide) (by decide)
    have hi : InOrder [toBytes "$#00"] lossyReads.flatten := by
      rw [lossyReads, List.flatten_cons, List.flatten_singleton, ← List.append_nil (_ ++ _)]
      exact .cons .nil
    have hlost := hpackets _ (List.forall_mem_singleton.mpr hp) hi
    rw [hnil, ← List.nil_append [_]] at hlost
    have ⟨x, y, he, _⟩ := hlost.of_concat
    simp [toBytes] at he

end Run

end Proxy
