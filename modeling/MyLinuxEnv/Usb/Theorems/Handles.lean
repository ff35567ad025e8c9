import MyLinuxEnv.Usb.Theorems.Interfaces

namespace Usb

section Devices

-- The scan gets as far as opening the device.
def Device.reached (handleList : List UsbHandle) (dev : Device) : Bool :=
  dev.descriptor.any (fun desc => !(desc.idVendor = 0 && desc.idProduct = 0)) &&
    !handleList.any (fun usb => usb.devBus = dev.busNumber && usb.devAddr = dev.deviceAddress) &&
    dev.activeConfig.toOption.join.isSome

def ConfigDescriptor.accepted (config : ConfigDescriptor) : Bool :=
  config.interface.any (·.any (·.accepted))

def Device.hasMatch (dev : Device) : Bool :=
  dev.activeConfig.toOption.join.any (·.accepted)

-- The device is opened although none of its interfaces is accepted.
def Device.leaks (handleList : List UsbHandle) (dev : Device) : Bool :=
  dev.reached handleList && dev.openResult = 0 && !dev.hasMatch

def Device.claimable (handleList : List UsbHandle) (dev : Device) : Bool :=
  dev.reached handleList && dev.openResult = 0 && dev.hasMatch && 0 ≤ dev.claimResult

-- The devices up to the one that ends the scan, which is not included.
def examined (handleList : List UsbHandle) (devs : List Device) : List Device :=
  devs.takeWhile (!·.claimable handleList)

end Devices

section Steps

theorem checkUsbInterfaces_fst_cases (interfaces : List Interface) (desc : DeviceDescriptor)
    (uh : UsbHandle) :
    (interfaces.any (·.accepted) = false ∧ (checkUsbInterfaces interfaces desc uh).1 = -1) ∨
    (interfaces.any (·.accepted) = true ∧ 0 ≤ (checkUsbInterfaces interfaces desc uh).1) := by
  cases hf : interfaces.find? (·.accepted)
  case none =>
    have hr : ∀ interface ∈ interfaces, interface.accepted = false := by
      simpa using List.find?_eq_none.mp hf
    apply Or.inl
    simp [checkUsbInterfaces, checkUsbInterfacesFrom_of_rejected hr 0]
    simpa using hr
  case some interface =>
    obtain ⟨ha, pre, post, he, hr⟩ := List.find?_eq_some_iff_append.mp hf
    simp only [Bool.not_eq_true'] at hr
    subst he
    apply Or.inr
    simp only [checkUsbInterfaces, checkUsbInterfacesFrom_of_accepted hr ha 0]
    simp [ha]

-- The handles have been given out before.
def State.Fresh (σ : State) : Prop :=
  ∀ h ∈ σ.handles, h < σ.fresh

-- What the handle that has been opened is used for.
def State.Claimed (σ : State) (h : Nat) : Prop :=
  σ.androidUh.devh = some h ∧ (h, σ.androidUh.interface) ∈ σ.claimed

-- The state after a device: its handle is in use, has been forgotten, or is not open.
inductive Checked (σ : State) (dev : Device) : Int → State → Prop
  | claimed : dev.claimable σ.handleList → σ'.handles = σ.handles ++ [σ.fresh] →
    σ'.Claimed σ.fresh → Checked σ dev 0 σ'
  | leaked : dev.leaks σ.handleList → σ'.handles = σ.handles ++ [σ.fresh] → Checked σ dev 1 σ'
  | passed : ¬dev.claimable σ.handleList → ¬dev.leaks σ.handleList → r ≠ 0 →
    σ'.handles = σ.handles → Checked σ dev r σ'

-- The devices do not change which of them have been registered.
structure Kept (σ σ' : State) : Prop where
  fresh : σ'.Fresh
  handleList : σ'.handleList = σ.handleList

theorem State.Fresh.notMem {σ : State} (h : σ.Fresh) : σ.fresh ∉ σ.handles :=
  fun hm => Nat.lt_irrefl _ (h _ hm)

theorem openDevice_of_failure {σ : State} {dev : Device} (h : dev.openResult ≠ 0) (found : Int) :
    openDevice σ dev found = (1, σ) := by
  simp [openDevice, libusbOpen, h]

theorem openDevice_of_no_match {σ : State} {dev : Device} {found : Int} (h : dev.openResult = 0)
    (hf : found = -1) :
    (openDevice σ dev found).1 = 1 ∧
      (openDevice σ dev found).2.handles = σ.handles ++ [σ.fresh] := by
  simp [openDevice, libusbOpen, h, hf]

theorem openDevice_of_claim_failure {σ : State} {dev : Device} {found : Int} (hσ : σ.Fresh)
    (h : dev.openResult = 0) (hf : 0 ≤ found) (hc : dev.claimResult < 0) :
    (openDevice σ dev found).1 = -1 ∧ (openDevice σ dev found).2.handles = σ.handles := by
  simp [openDevice, libusbOpen, libusbClaimInterface, libusbClose, h, hf, hc]
  intro h hm he
  exact hσ.notMem (he ▸ hm)

theorem openDevice_of_claim {σ : State} {dev : Device} {found : Int} (h : dev.openResult = 0)
    (hf : 0 ≤ found) (hc : 0 ≤ dev.claimResult) :
    (openDevice σ dev found).1 = 0 ∧ (openDevice σ dev found).2.handles = σ.handles ++ [σ.fresh] ∧
    (openDevice σ dev found).2.Claimed σ.fresh := by
  have hc : ¬dev.claimResult < 0 := by omega
  simp [openDevice, libusbOpen, libusbClaimInterface, h, hf, hc, State.Claimed]

theorem State.Fresh.concat {σ σ' : State} (h : σ.Fresh) (hh : σ'.handles = σ.handles ++ [σ.fresh])
    (hf : σ'.fresh = σ.fresh + 1) : σ'.Fresh := by
  intro a ha
  simp only [hh, List.mem_append, List.mem_singleton] at ha
  cases ha
  case inl ha => exact hf ▸ Nat.lt_succ_of_lt (h a ha)
  case inr ha => omega

theorem openDevice_kept {σ : State} (hσ : σ.Fresh) (dev : Device) (found : Int) :
    Kept σ (openDevice σ dev found).2 := by
  by_cases h : dev.openResult = 0
  case neg => exact openDevice_of_failure h found ▸ ⟨hσ, rfl⟩
  case pos =>
    by_cases hf : 0 ≤ found
    case neg =>
      constructor
      case fresh => apply hσ.concat <;> simp [openDevice, libusbOpen, h, hf]
      case handleList => simp [openDevice, libusbOpen, h, hf]
    case pos =>
      by_cases hc : dev.claimResult < 0
      case neg =>
        constructor
        case fresh =>
          apply hσ.concat <;> simp [openDevice, libusbOpen, libusbClaimInterface, h, hf, hc]
        case handleList => simp [openDevice, libusbOpen, libusbClaimInterface, h, hf, hc]
      case pos =>
        constructor
        case fresh =>
          intro a ha
          rw [(openDevice_of_claim_failure hσ h hf hc).2] at ha
          have : (openDevice σ dev found).2.fresh = σ.fresh + 1 := by
            simp [openDevice, libusbOpen, libusbClaimInterface, libusbClose, h, hf, hc]
          exact this ▸ Nat.lt_succ_of_lt (hσ a ha)
        case handleList =>
          simp [openDevice, libusbOpen, libusbClaimInterface, libusbClose, h, hf, hc]

theorem checkDevice_of_unreached {σ : State} {dev : Device} (h : dev.reached σ.handleList = false) :
    (checkDevice σ dev).1 = -1 ∧ ∃ uh, (checkDevice σ dev).2 = { σ with androidUh := uh } := by
  simp only [checkDevice]
  split
  case h_1 => exact ⟨rfl, _, rfl⟩
  case h_2 desc hd =>
    split
    case isTrue => exact ⟨rfl, _, rfl⟩
    case isFalse hz =>
      simp only [isKgdbInterface, decide_true, Bool.and_self, Bool.not_true, Bool.false_eq_true,
        if_false]
      split
      case isTrue => exact ⟨rfl, _, rfl⟩
      case isFalse hr =>
        split
        case h_1 => exact ⟨rfl, _, rfl⟩
        case h_2 => exact ⟨rfl, _, rfl⟩
        case h_3 config hc =>
          simp only [alreadyRegistered] at hr
          simp [Device.reached, hd, hr, hc, Except.toOption] at h
          grind

theorem checkDevice_of_reached {σ : State} {dev : Device} (h : dev.reached σ.handleList) :
    ∃ uh found, checkDevice σ dev = openDevice { σ with androidUh := uh } dev found ∧
      (dev.hasMatch = false ∧ found = -1 ∨ dev.hasMatch = true ∧ 0 ≤ found) := by
  cases hd : dev.descriptor
  case none => simp [Device.reached, hd] at h
  case some desc =>
    match hc : dev.activeConfig with
    | .error _        => simp [Device.reached, hc, Except.toOption] at h
    | .ok none        => simp [Device.reached, hc, Except.toOption] at h
    | .ok (some config) =>
      simp only [Device.reached, hd, Option.any_some, Bool.and_eq_true, Bool.not_eq_true'] at h
      have hz : ¬(desc.idVendor = 0 ∧ desc.idProduct = 0) := by simpa using h.1.1
      simp only [checkDevice, hd, hz, hc, isKgdbInterface, alreadyRegistered, h.1.2]
      cases hi : config.interface
      case none =>
        have hm : dev.hasMatch = false := by
          simp [Device.hasMatch, ConfigDescriptor.accepted, hc, hi, Except.toOption]
        exact ⟨_, -1, rfl, .inl ⟨hm, rfl⟩⟩
      case some interfaces =>
        have hm : dev.hasMatch = interfaces.any (·.accepted) := by
          simp [Device.hasMatch, ConfigDescriptor.accepted, hc, hi, Except.toOption]
        exact ⟨_, _, rfl, hm ▸ checkUsbInterfaces_fst_cases interfaces desc _⟩

theorem checkDevice_checked {σ : State} (hσ : σ.Fresh) (dev : Device) :
    Checked σ dev (checkDevice σ dev).1 (checkDevice σ dev).2 ∧ Kept σ (checkDevice σ dev).2 := by
  cases h : dev.reached σ.handleList
  case false =>
    have ⟨hr, uh, hs⟩ := checkDevice_of_unreached h
    rw [hr, hs]
    constructor
    case left => apply Checked.passed <;> simp [Device.claimable, Device.leaks, h]
    case right => exact ⟨hσ, rfl⟩
  case true =>
    have ⟨uh, found, he, hm⟩ := checkDevice_of_reached h
    have hτ : State.Fresh { σ with androidUh := uh } := hσ
    rw [he]
    constructor
    case right =>
      have hk := openDevice_kept hτ dev found
      exact ⟨hk.fresh, hk.handleList⟩
    case left =>
      by_cases ho : dev.openResult = 0
      case neg =>
        rw [openDevice_of_failure ho]
        apply Checked.passed <;> simp [Device.claimable, Device.leaks, ho]
      case pos =>
        cases hm
        case inl hm =>
          have ⟨hr, hh⟩ := openDevice_of_no_match (σ := { σ with androidUh := uh }) ho hm.2
          exact hr ▸ .leaked (by simp [Device.leaks, h, ho, hm.1]) hh
        case inr hm =>
          by_cases hc : 0 ≤ dev.claimResult
          case pos =>
            have ⟨hr, hh, hu⟩ := openDevice_of_claim (σ := { σ with androidUh := uh }) ho hm.2 hc
            exact hr ▸ .claimed (by simp [Device.claimable, h, ho, hm.1, hc]) hh hu
          case neg =>
            have ⟨hr, hh⟩ := openDevice_of_claim_failure hτ ho hm.2 (Int.not_le.mp hc)
            exact .passed (by simp [Device.claimable, hc]) (by simp [Device.leaks, hm.1])
              (by simp [hr]) hh

end Steps

section Scans

def leaks (handleList : List UsbHandle) (devs : List Device) : Nat :=
  ((examined handleList devs).filter (·.leaks handleList)).length

-- The handles that are forgotten stay open in front of the one that is used.
def Balanced (σ : State) (n : Nat) (r : Int) (σ' : State) : Prop :=
  ∃ forgotten : List Nat, forgotten.length = n ∧
    (r = 0 ∧ (∃ h, σ'.handles = σ.handles ++ forgotten ++ [h] ∧ σ'.Claimed h) ∨
      r = -1 ∧ σ'.handles = σ.handles ++ forgotten)

theorem leaks_cons_of_claimable {hl : List UsbHandle} {dev : Device} (h : dev.claimable hl)
    (devs : List Device) : leaks hl (dev :: devs) = 0 := by
  simp [leaks, examined, h]

theorem leaks_cons {hl : List UsbHandle} {dev : Device} (h : ¬dev.claimable hl)
    (devs : List Device) :
    leaks hl (dev :: devs) = (if dev.leaks hl then 1 else 0) + leaks hl devs := by
  simp only [leaks, examined, List.takeWhile_cons, h, Bool.not_false, if_true, List.filter_cons]
  split <;> simp [Nat.add_comm]

theorem Device.not_claimable_of_leaks {hl : List UsbHandle} {dev : Device} (h : dev.leaks hl) :
    ¬dev.claimable hl := by
  simp only [Device.leaks, Bool.and_eq_true, Bool.not_eq_true'] at h
  simp [Device.claimable, h.2]

theorem scanDevices_balanced {σ : State} (hσ : σ.Fresh) (devs : List Device) :
    Balanced σ (leaks σ.handleList devs) (scanDevices σ devs).1 (scanDevices σ devs).2 ∧
    Kept σ (scanDevices σ devs).2 := by
  induction devs generalizing σ
  case nil => exact ⟨⟨[], rfl, .inr ⟨rfl, by simp [scanDevices]⟩⟩, hσ, rfl⟩
  case cons dev devs hi =>
    have ⟨hc, hk⟩ := checkDevice_checked hσ dev
    have ⟨⟨forgotten, hn, hb⟩, hk'⟩ := hi hk.fresh
    have hk' : Kept σ _ := ⟨hk'.fresh, hk'.handleList.trans hk.handleList⟩
    rw [hk.handleList] at hn
    simp only [scanDevices]
    generalize (checkDevice σ dev).1 = r at hc
    generalize (checkDevice σ dev).2 = τ at *
    cases hc
    case claimed h hh hu =>
      rw [leaks_cons_of_claimable h]
      exact ⟨⟨[], rfl, .inl ⟨rfl, σ.fresh, by simp [hh], hu⟩⟩, hk⟩
    case leaked h hh =>
      rw [leaks_cons <| Device.not_claimable_of_leaks h, if_pos h]
      refine ⟨⟨σ.fresh :: forgotten, by simp [hn, Nat.add_comm], ?_⟩, hk'⟩
      simpa [hh] using hb
    case passed h hl hr hh =>
      rw [leaks_cons h, if_neg hl, if_neg hr]
      refine ⟨⟨forgotten, by simp [hn], ?_⟩, hk'⟩
      simpa [hh] using hb

theorem usbPortopen_balanced {σ : State} (hσ : σ.Fresh) (devs : Option (List Device)) :
    Balanced σ (leaks σ.handleList (devs.getD [])) (usbPortopen σ devs).1 (usbPortopen σ devs).2 ∧
    Kept σ (usbPortopen σ devs).2 := by
  cases devs <;> exact scanDevices_balanced hσ _

end Scans

section Retries

-- The states after scans without a match, as the thread repeats them.
def retries (σ : State) : List (Option (List Device)) → Option State
  | []            => some σ
  | devs :: scans =>
    let (r, σ) := usbPortopen σ devs
    if r = -1 then retries σ scans else none

-- The only handle is that of the device that has been found, if any.
def NoLeak (r : Int) (σ : State) : Prop :=
  (r = 0 → ∃ h, σ.handles = [h] ∧ σ.Claimed h) ∧ (r = -1 → σ.handles = [])

theorem Balanced.noLeak_iff {σ σ' : State} {n : Nat} {r : Int} (h : Balanced σ n r σ') :
    NoLeak r σ' ↔ σ.handles = [] ∧ n = 0 := by
  have ⟨forgotten, hn, hb⟩ := h
  rw [← hn, List.length_eq_zero_iff, ← List.append_eq_nil_iff]
  cases hb
  case inl hb =>
    have ⟨hr, h, hh, hu⟩ := hb
    constructor
    case mp =>
      intro hl
      have ⟨_, hs, _⟩ := hl.1 hr
      have hl : σ.handles.length + (forgotten.length + 1) = 1 := by
        simpa using congrArg List.length (hh.symm.trans hs)
      exact List.eq_nil_of_length_eq_zero (by simp only [List.length_append]; omega)
    case mpr =>
      intro he
      exact ⟨fun _ => ⟨h, by simp [hh, he], hu⟩, by omega⟩
  case inr hb => simp [NoLeak, hb.1, hb.2]

-- Handles that have been forgotten are never closed.
theorem retries_balanced {σ τ : State} (hσ : σ.Fresh) {scans : List (Option (List Device))}
    (h : retries σ scans = some τ) :
    (τ.handles = [] ↔ σ.handles = [] ∧ ∀ devs ∈ scans, leaks σ.handleList (devs.getD []) = 0) ∧
    Kept σ τ := by
  induction scans generalizing σ
  case nil =>
    cases h
    exact ⟨by simp, hσ, rfl⟩
  case cons devs scans hi =>
    have ⟨⟨forgotten, hn, hb⟩, hk⟩ := usbPortopen_balanced hσ devs
    simp only [retries] at h
    split at h
    case isFalse => contradiction
    case isTrue hr =>
      have ⟨he, hk'⟩ := hi hk.fresh h
      have hh := (hb.resolve_left (by simp [hr])).2
      refine ⟨?_, hk'.fresh, hk'.handleList.trans hk.handleList⟩
      rw [he, hh, hk.handleList, List.append_eq_nil_iff, ← List.length_eq_zero_iff (l := forgotten),
        hn, List.forall_mem_cons, and_assoc]

theorem noLeak_iff_examined {σ τ : State} (hσ : σ.handles = [])
    {earlier : List (Option (List Device))} (h : retries σ earlier = some τ)
    (devs : Option (List Device)) :
    NoLeak (usbPortopen τ devs).1 (usbPortopen τ devs).2 ↔
      ∀ scan ∈ earlier ++ [devs], ∀ dev ∈ examined σ.handleList (scan.getD []),
        ¬dev.leaks σ.handleList := by
  have hf : σ.Fresh := by simp [State.Fresh, hσ]
  have ⟨he, hk⟩ := retries_balanced hf h
  rw [(usbPortopen_balanced hk.fresh devs).1.noLeak_iff, he, hk.handleList,
    List.forall_mem_append, List.forall_mem_singleton]
  simp [hσ, leaks]

-- A memory stick that can be opened if the result is zero.
def memoryStick (openResult : Int) : Device where
  descriptor := some ⟨0x0951, 0x1666⟩
  busNumber := 1
  deviceAddress := 5
  activeConfig := .ok <| some ⟨some [massStorage]⟩
  openResult := openResult
  claimResult := 0

theorem noLeak_iff_examined_memoryStick :
    NoLeak (usbPortopen (checkDevice {} (memoryStick (-3))).2 (some [])).1
      (usbPortopen (checkDevice {} (memoryStick (-3))).2 (some [])).2 ↔
    ∀ scan ∈ [some [memoryStick (-3)]] ++ [some []], ∀ dev ∈ examined [] (scan.getD []),
      ¬dev.leaks [] :=
  noLeak_iff_examined (σ := {}) rfl rfl (some [])

-- With the stick and nothing else the scan fails, and its handle stays open.
theorem not_noLeak :
    ¬NoLeak (usbPortopen {} (some [memoryStick 0])).1
      (usbPortopen {} (some [memoryStick 0])).2 := by
  intro h
  exact absurd (h.2 rfl) (by decide)

end Retries

end Usb
