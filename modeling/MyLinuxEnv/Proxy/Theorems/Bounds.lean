import MyLinuxEnv.Proxy.Theorems.Plain
import MyLinuxEnv.Proxy.Theorems.StepEffects
import MyLinuxEnv.Proxy.Theorems.Telnet

namespace Proxy

-- The sizes of the buffers and the indices into them that outlast a step.
structure State.Sized (σ : State) : Prop where
  buf : ∀ a p, σ.port a = some p → p.buf.length = IO_BUFSIZE
  gdb : σ.gdb.arr.length ≤ MAX_GDB_BUF
  fifoBuf : σ.fifoBuf.length = MAX_FIFO_BUF
  fifoIdx : σ.fifoIdx < MAX_FIFO_BUF

-- At each byte of a read, the loop which removes the options is at an index of the buffer, and so
-- is the place to which it moves the byte.
def Iac.Within (ctrlC : Bool) (inIAC : Nat) (buf : List Byte) (got : Nat) : Prop :=
  ∀ i < got, let s := run ctrlC i 0 { buf, inIAC }; s.j ≤ i ∧ i < s.buf.length

-- No index has left its buffer, nor does the next read of a port make one do so.
structure State.InBounds (env : Env) (σ : State) : Prop extends σ.Sized where
  options : ∀ a got σ₁ p, portread env σ a IO_BUFSIZE = some (got, σ₁) → σ₁.port a = some p →
    ∀ ctrlC, Iac.Within ctrlC p.inIAC p.buf got.toNat

section Gdb

variable {g : Gdb} {c : Byte}

theorem Gdb.length_step_le (h : g.arr.length ≤ MAX_GDB_BUF) :
    (g.step c).1.arr.length ≤ MAX_GDB_BUF := by
  simp only [Gdb.step]
  split
  case isTrue     => exact Nat.zero_le _
  case isFalse hl =>
    have hl : (g.arr ++ [c]).length ≤ MAX_GDB_BUF := by
      simpa using Nat.succ_le_of_lt <| Nat.not_le.mp hl
    repeat' split
    all_goals first | exact hl | exact h

theorem Gdb.length_scan_le (cs : List Byte) (h : g.arr.length ≤ MAX_GDB_BUF) :
    (g.scan cs).1.arr.length ≤ MAX_GDB_BUF := by
  induction cs generalizing g
  case nil          => exact h
  case cons c cs hi => exact hi <| length_step_le h

end Gdb

section Options

variable {ctrlC : Bool} {inIAC got : Nat} {buf : List Byte}

theorem Iac.within_of_le (h : got ≤ buf.length) : Iac.Within ctrlC inIAC buf got := by
  intro i hi
  have hr : Runs buf i (run ctrlC i 0 { buf, inIAC }) :=
    run_spec (Nat.le_trans (Nat.le_of_lt hi) h) |>.left
  exact ⟨hr.le, hr.length ▸ Nat.lt_of_lt_of_le hi h⟩

end Options

variable {env : Env} {K : Cause → Prop} {σ σ' : State}

namespace State.Sized

theorem congr (h : σ.Sized) (hp : σ'.port = σ.port) (hg : σ'.gdb = σ.gdb)
    (hb : σ'.fifoBuf = σ.fifoBuf) (hi : σ'.fifoIdx = σ.fifoIdx) : σ'.Sized :=
  ⟨fun a p hp' => h.buf a p (hp ▸ hp'), hg ▸ h.gdb, hb ▸ h.fifoBuf, hi ▸ h.fifoIdx⟩

theorem modify {a : Addr} {f : Port → Port} (h : σ.Sized)
    (hf : ∀ p, σ.port a = some p → p.buf.length = IO_BUFSIZE → (f p).buf.length = IO_BUFSIZE) :
    (σ.modify a f).Sized := by
  refine ⟨fun b p hp => ?_, h.gdb, h.fifoBuf, h.fifoIdx⟩
  by_cases hb : b = a
  case neg => exact h.buf b p <| State.modify_port_of_ne hb ▸ hp
  case pos =>
    rw [hb, State.modify_port_self] at hp
    have ⟨q, hq, he⟩ := Option.map_eq_some_iff.mp hp
    exact he ▸ hf q hq (h.buf a q hq)

theorem of_effect (h : Primitive env K σ σ') (hσ : σ.Sized) : σ'.Sized := by
  have hswap {τ : State} {a : Addr} {old fd : Int} {handler : Handler} (hτ : τ.Sized) :
      (τ.swap a old fd handler).Sized := by
    refine modify ?_ fun _ _ hl => hl
    exact hτ.congr rfl rfl rfl rfl
  cases h
  case still h        => exact hσ.congr h.port h.gdb h.fifoBuf h.fifoIdx
  case write          => exact hσ.congr rfl rfl rfl rfl
  case serialBreak    => exact hσ.congr rfl rfl rfl rfl
  case connect        => exact hσ.congr rfl rfl rfl rfl
  case fill h         => exact hσ.modify fun p hp hl => (h p hp).length hl
  case relink h _     => exact hσ.modify fun p _ hl => by rw [h p]; exact hl
  case attachLocal    => exact hσ.modify fun _ _ hl => hl
  case attachRemote   => exact hσ.modify fun _ _ hl => hl
  case bind           => exact hσ.modify fun _ _ hl => hl
  case chain          => exact hσ.congr rfl rfl rfl rfl
  case head           => exact hσ.modify fun _ _ hl => hl
  case scan           => exact ⟨hσ.buf, Gdb.length_scan_le _ hσ.gdb, hσ.fifoBuf, hσ.fifoIdx⟩
  case flush          => exact ⟨hσ.buf, Nat.zero_le _, hσ.fifoBuf, hσ.fifoIdx⟩
  case fifo hb hi     => exact ⟨hσ.buf, hσ.gdb, hb.trans hσ.fifoBuf, hi⟩
  case negotiate      => exact hσ.congr rfl rfl rfl rfl
  case create p _ _ _ hp =>
    refine ⟨fun b q hq => ?_, hσ.gdb, hσ.fifoBuf, hσ.fifoIdx⟩
    by_cases hb : b = σ.fresh
    case neg => exact hσ.buf b q <| State.malloc_port_of_ne hb ▸ hq
    case pos =>
      rw [hb, State.malloc_port_self] at hq
      cases hq
      rw [hp.buf, List.length_replicate]
  case select h       => rw [(fdSet_eq h).right]; exact hσ.congr rfl rfl rfl rfl
  case close h        =>
    have ⟨p, _, hc⟩ := portclose_eq h
    rcases hc with ⟨_, he⟩ | ⟨_, _, _, _, he⟩
    · exact he ▸ hσ
    · subst he
      refine modify ?_ fun _ _ hl => hl
      exact hσ.congr rfl rfl rfl rfl
  case free a _       =>
    refine ⟨fun b q hq => ?_, hσ.gdb, hσ.fifoBuf, hσ.fifoIdx⟩
    by_cases hb : b = a
    case neg => exact hσ.buf b q <| State.free_port_of_ne hb ▸ hq
    case pos => simp [hb] at hq
  case accept         => exact hswap <| hσ.congr rfl rfl rfl rfl
  case call           => exact hswap <| hσ.congr rfl rfl rfl rfl
  case reopen         => exact hswap hσ
  case listen         => exact hswap <| hσ.congr rfl rfl rfl rfl
  case await          => exact hswap <| hσ.congr rfl rfl rfl rfl

theorem of_start {cfg : Config} (h : start env cfg = some σ) : σ.Sized := by
  have h := start_plain h
  refine ⟨fun a p hp => ?_, ?_, ?_, ?_⟩
  case refine_1 => rw [(h.port a p hp).buf, List.length_replicate]
  case refine_2 => rw [h.gdb]; exact Nat.zero_le _
  case refine_3 => rw [h.fifoBuf, List.length_replicate]
  case refine_4 => rw [h.fifoIdx]; decide

-- A read does not return more than the buffer has room for.
theorem toNat_le_of_portread {a : Addr} {got : Int} {p : Port} (h : σ.Sized)
    (hr : portread env σ a IO_BUFSIZE = some (got, σ')) (hp : σ'.port a = some p) :
    got.toNat ≤ p.buf.length := by
  have ⟨q, data, hq, hdata, hp', _, _, hgot⟩ := portread_buf hr
  cases hp.symm.trans hp'
  have hd : data.length ≤ q.buf.length := by
    rw [h.buf a q hq, ← hdata]
    cases env.read σ.time a
    case error => exact Nat.zero_le _
    case ok    => exact List.length_take_le ..
  rw [Memory.length_overlay hd]
  by_cases hg : 0 < got
  case pos => rw [hgot hg]; exact hd
  case neg => omega

theorem inBounds (h : σ.Sized) : σ.InBounds env where
  __      := h
  options := fun _ _ _ _ hr hp _ => Iac.within_of_le <| h.toNat_le_of_portread hr hp

end State.Sized

-- Whatever is read, no buffer ever overflows.
theorem inBounds_of_run {cfg : Config} {σ₀ : State} {steps : List (State × Event)}
    (h : start env cfg = some σ₀) (hr : Run env σ₀ steps σ) : σ.InBounds env :=
  State.Sized.inBounds <| hr.invariant h (.of_start h) .of_effect

theorem inBounds_of_chat : ∃ σ₀ steps σ,
    steps.map Prod.snd = [Event.ready 1, .ready 3, .ready 2] ∧
    start chatEnv chatConfig = some σ₀ ∧ Run chatEnv σ₀ steps σ ∧ σ.InBounds chatEnv := by
  have ⟨σ₀, steps, σ, he, h, hr, _⟩ :=
    exists_run chatEnv chatConfig [.ready 1, .ready 3, .ready 2] (fun _ => True) (by decide)
  exact ⟨σ₀, steps, σ, he, h, hr, inBounds_of_run h hr⟩

end Proxy
