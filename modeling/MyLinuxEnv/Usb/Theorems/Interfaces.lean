import Mathlib.Data.List.TakeWhile
import MyLinuxEnv.Memory.Overlay
import MyLinuxEnv.Usb.Basic

namespace Usb

section Saved

-- An endpoint, together with the protocol of the interface for which it is saved.
abbrev Save := UInt8 × EndpointDescriptor

def save (uh : UsbHandle) (s : Save) : UsbHandle :=
  saveEndpoint s.1 uh s.2

def InterfaceDescriptor.saves (idesc : InterfaceDescriptor) : List Save :=
  if idesc.endpoint.length = 2
  then (idesc.endpoint.takeWhile (·.isBulk)).map (idesc.bInterfaceProtocol, ·)
  else []

def InterfaceDescriptor.isKgdb (idesc : InterfaceDescriptor) : Bool :=
  idesc.bInterfaceClass = KGDB_CLASS && idesc.bInterfaceSubClass = KGDB_SUBCLASS &&
    idesc.bInterfaceProtocol = KGDB_PROTOCOL

def InterfaceDescriptor.accepted (idesc : InterfaceDescriptor) : Bool :=
  idesc.endpoint.length = 2 && idesc.endpoint.all (·.isBulk) && idesc.isKgdb

-- The endpoints that the check saves before it rejects or accepts the interface.
def Interface.saves (interface : Interface) : List Save :=
  (interface.altsetting.head?.map (·.saves)).getD []

def Interface.accepted (interface : Interface) : Bool :=
  interface.altsetting.head?.any (·.accepted)

theorem checkEndpoints_eq (protocol : UInt8) (uh : UsbHandle) (es : List EndpointDescriptor) :
    checkEndpoints protocol uh es =
      (es.all (·.isBulk), ((es.takeWhile (·.isBulk)).map (protocol, ·)).foldl save uh) := by
  induction es generalizing uh
  case nil => rfl
  case cons e es hi => cases h : e.isBulk <;> simp [checkEndpoints, h, hi, save]

theorem checkUsbInterface_eq (interface : Interface) (desc : DeviceDescriptor) (uh : UsbHandle) :
    checkUsbInterface interface desc uh =
      (if interface.accepted then 1 else -1, interface.saves.foldl save uh) := by
  have ⟨altsetting⟩ := interface
  cases altsetting
  case nil => rfl
  case cons idesc _ =>
    have hk : isKgdbInterface desc.idVendor desc.idProduct idesc.bInterfaceClass
      idesc.bInterfaceSubClass idesc.bInterfaceProtocol = idesc.isKgdb := rfl
    simp only [checkUsbInterface, checkEndpoints_eq, hk, Interface.accepted, Interface.saves,
      InterfaceDescriptor.saves, InterfaceDescriptor.accepted]
    by_cases hl : idesc.endpoint.length = 2
    case neg => simp [hl]
    case pos =>
      cases hb : idesc.endpoint.all (·.isBulk)
      case false => simp [hl, hb]
      case true => cases hc : idesc.isKgdb <;> simp [hl, hb, hc]

end Saved

section Outcome

variable {interfaces : List Interface} {desc : DeviceDescriptor} {uh : UsbHandle}

-- If no interface is accepted then everything that was saved stays.
theorem checkUsbInterfacesFrom_of_rejected
    (h : ∀ interface ∈ interfaces, interface.accepted = false) (i : Nat) :
    checkUsbInterfacesFrom desc i interfaces uh =
      (-1, (interfaces.flatMap (·.saves)).foldl save uh) := by
  induction interfaces generalizing i uh
  case nil => rfl
  case cons interface interfaces hi =>
    simp only [List.forall_mem_cons] at h
    simp [checkUsbInterfacesFrom, checkUsbInterface_eq, h.1, hi h.2, List.foldl_append]

theorem checkUsbInterfacesFrom_of_accepted {pre post : List Interface} {interface : Interface}
    (h : ∀ interface ∈ pre, interface.accepted = false) (ha : interface.accepted) (i : Nat) :
    checkUsbInterfacesFrom desc i (pre ++ interface :: post) uh =
      (↑(i + pre.length), ((pre ++ [interface]).flatMap (·.saves)).foldl save uh) := by
  induction pre generalizing i uh
  case nil => simp [checkUsbInterfacesFrom, checkUsbInterface_eq, ha]
  case cons first pre hi =>
    simp only [List.forall_mem_cons] at h
    simp only [List.cons_append, checkUsbInterfacesFrom, checkUsbInterface_eq, h.1, hi h.2]
    simp [List.foldl_append]
    omega

end Outcome

section Cells

theorem address_of_saves (isIn : Bool) (ss : List Save) (uh : UsbHandle) :
    (ss.foldl save uh).address isIn =
      ((ss.filter (·.2.isIn = isIn)).getLast?.map (·.2.bEndpointAddress)).getD
        (uh.address isIn) := by
  apply Memory.foldl_eq_last_hit (fun uh : UsbHandle => uh.address isIn)
  case hit =>
    intro uh s h
    simp only [decide_eq_true_eq] at h
    subst h
    cases h : s.2.isIn <;> by_cases hp : s.1 = 1 <;>
      simp [UsbHandle.address, save, saveEndpoint, h, hp]
  case miss =>
    intro uh s h
    simp only [decide_eq_true_eq] at h
    cases isIn <;> by_cases hp : s.1 = 1 <;>
      simp_all [UsbHandle.address, save, saveEndpoint]

theorem zeroMask_of_saves (ss : List Save) (uh : UsbHandle) :
    (ss.foldl save uh).zeroMask =
      ((ss.filter (·.1 = 1)).getLast?.map fun s => (s.2.wMaxPacketSize.toNat : Int) - 1).getD
        uh.zeroMask := by
  apply Memory.foldl_eq_last_hit UsbHandle.zeroMask
  case hit =>
    intro uh s h
    simp only [decide_eq_true_eq] at h
    simp [save, saveEndpoint, h]
  case miss =>
    intro uh s h
    simp only [decide_eq_true_eq] at h
    cases hd : s.2.isIn <;> simp [save, saveEndpoint, h, hd]

-- What is saved for an interface that is accepted replaces what was saved before, provided that
-- the interface has an endpoint with that direction.
theorem address_of_saves_append {isIn : Bool} {ss ts : List Save} (h : ∃ t ∈ ts, t.2.isIn = isIn)
    (uh : UsbHandle) :
    ∃ t ∈ ts, t.2.isIn = isIn ∧ ((ss ++ ts).foldl save uh).address isIn = t.2.bEndpointAddress := by
  have ⟨t, ht, hd⟩ := h
  have hm : t ∈ ts.filter (·.2.isIn = isIn) := by simp [ht, hd]
  cases hl : (ts.filter (·.2.isIn = isIn)).getLast?
  case none => simp [List.getLast?_eq_none_iff.mp hl] at hm
  case some last =>
    have hf : last ∈ ts.filter (·.2.isIn = isIn) := List.mem_of_getLast? hl
    simp only [List.mem_filter, decide_eq_true_eq] at hf
    exists last, hf.1, hf.2
    simp [address_of_saves, hl]

end Cells

section Endpoints

-- The address belongs to a bulk endpoint of the first alternate setting.
def Interface.HasBulk (interface : Interface) (isIn : Bool) (address : UInt8) : Prop :=
  ∃ idesc ∈ interface.altsetting.head?, ∃ e ∈ idesc.endpoint,
    e.isBulk ∧ e.isIn = isIn ∧ e.bEndpointAddress = address

-- The handle leads to the interface that has been found, and is as before if there is none.
def OwnEndpoints (interfaces : List Interface) (desc : DeviceDescriptor) (uh : UsbHandle) : Prop :=
  let (found, uh') := checkUsbInterfaces interfaces desc uh
  (∀ i : Nat, found = i → ∃ interface, interfaces[i]? = some interface ∧
    interface.HasBulk true (uh'.address true) ∧
    interface.HasBulk false (uh'.address false)) ∧
  (found = -1 → uh'.endPointAddress = uh.endPointAddress ∧ uh'.zeroMask = uh.zeroMask)

-- The interface to be accepted has an endpoint of each kind. If there is none, then the last
-- values that are saved for the rejected ones are those that the handle had before.
def SavesMatch (interfaces : List Interface) (uh : UsbHandle) : Prop :=
  match interfaces.find? (·.accepted) with
  | some interface => ∀ isIn, ∃ address, interface.HasBulk isIn address
  | none           =>
    let ss := interfaces.flatMap (·.saves)
    (∀ isIn, ∀ s ∈ (ss.filter (·.2.isIn = isIn)).getLast?,
      s.2.bEndpointAddress = uh.address isIn) ∧
    (∀ s ∈ (ss.filter (·.1 = 1)).getLast?, (s.2.wMaxPacketSize.toNat : Int) - 1 = uh.zeroMask)

theorem Interface.mem_saves_iff {interface : Interface} (h : interface.accepted) {s : Save} :
    s ∈ interface.saves ↔ ∃ idesc ∈ interface.altsetting.head?, ∃ e ∈ idesc.endpoint,
      e.isBulk ∧ (idesc.bInterfaceProtocol, e) = s := by
  have ⟨altsetting⟩ := interface
  cases altsetting
  case nil => simp [Interface.accepted] at h
  case cons idesc _ =>
    simp only [Interface.accepted, InterfaceDescriptor.accepted, List.head?_cons, Option.any_some,
      Bool.and_eq_true, decide_eq_true_eq, List.all_eq_true] at h
    have ht : idesc.endpoint.takeWhile (·.isBulk) = idesc.endpoint :=
      List.takeWhile_eq_self_iff.mpr h.1.2
    simp only [Interface.saves, InterfaceDescriptor.saves, List.head?_cons, Option.map_some,
      Option.getD_some, h.1.1, if_true, ht, List.mem_map, Option.mem_some_iff, exists_eq_left']
    constructor
    case mp =>
      intro ⟨e, he, hs⟩
      exact ⟨e, he, h.1.2 e he, hs⟩
    case mpr =>
      intro ⟨e, he, _, hs⟩
      exact ⟨e, he, hs⟩

theorem getD_map_eq_iff {o : Option α} {f : α → β} {b : β} :
    (o.map f).getD b = b ↔ ∀ a ∈ o, f a = b := by
  cases o <;> simp

-- With an accepted interface the outcome is right as soon as there is something to be saved in
-- both directions.
theorem hasBulk_of_accepted {interface : Interface} (ha : interface.accepted) (ss : List Save)
    (uh : UsbHandle) {isIn : Bool} (h : ∃ address, interface.HasBulk isIn address) :
    interface.HasBulk isIn (((ss ++ interface.saves).foldl save uh).address isIn) := by
  have ⟨_, idesc, hi, e, he, hb, hd, _⟩ := h
  have hs : (idesc.bInterfaceProtocol, e) ∈ interface.saves :=
    (Interface.mem_saves_iff ha).mpr ⟨idesc, hi, e, he, hb, rfl⟩
  have ⟨t, ht, htd, heq⟩ : ∃ t ∈ interface.saves, t.2.isIn = isIn ∧
      ((ss ++ interface.saves).foldl save uh).address isIn = t.2.bEndpointAddress :=
    address_of_saves_append ⟨_, hs, hd⟩ uh
  have ⟨idesc', hi', e', he', hb', hs'⟩ := (Interface.mem_saves_iff ha).mp ht
  subst hs'
  exact ⟨idesc', hi', e', he', hb', htd, heq.symm⟩

theorem endPointAddress_eq_iff {uh uh' : UsbHandle} :
    uh'.endPointAddress = uh.endPointAddress ↔ ∀ isIn, uh'.address isIn = uh.address isIn := by
  constructor
  case mp => intro h; simp [UsbHandle.address, h]
  case mpr =>
    intro h
    apply Vector.ext
    intro i hi
    match i with
    | 0 => exact h true
    | 1 => exact h false

theorem ownEndpoints_iff_savesMatch (interfaces : List Interface) (desc : DeviceDescriptor)
    (uh : UsbHandle) : OwnEndpoints interfaces desc uh ↔ SavesMatch interfaces uh := by
  cases hf : interfaces.find? (·.accepted)
  case none =>
    have hr : ∀ interface ∈ interfaces, interface.accepted = false := by
      simpa using List.find?_eq_none.mp hf
    simp only [OwnEndpoints, checkUsbInterfaces, checkUsbInterfacesFrom_of_rejected hr 0,
      SavesMatch, hf, endPointAddress_eq_iff, address_of_saves, zeroMask_of_saves, getD_map_eq_iff]
    constructor
    case mp => intro h; exact h.2 trivial
    case mpr => intro h; exact ⟨by omega, fun _ => h⟩
  case some interface =>
    have ⟨ha, pre, post, he, hr⟩ := List.find?_eq_some_iff_append.mp hf
    simp only [Bool.not_eq_true'] at hr
    simp only [OwnEndpoints, SavesMatch, hf, checkUsbInterfaces]
    subst he
    simp only [checkUsbInterfacesFrom_of_accepted hr ha 0, List.flatMap_append,
      List.flatMap_singleton]
    constructor
    case mp =>
      intro h isIn
      have ⟨interface', hi, hin, hout⟩ := h.1 pre.length (by simp)
      simp at hi
      subst hi
      cases isIn
      case false => exact ⟨_, hout⟩
      case true => exact ⟨_, hin⟩
    case mpr =>
      intro h
      refine ⟨?found, by omega⟩
      intro i hi
      have hi : i = pre.length := by omega
      subst hi
      exists interface, by simp
      exact ⟨hasBulk_of_accepted ha _ uh (h true), hasBulk_of_accepted ha _ uh (h false)⟩

-- The interface of a memory stick is rejected, but its endpoints stay in the handle.
def massStorage : Interface where
  altsetting := [{
    bInterfaceClass := 0x08, bInterfaceSubClass := 0x06, bInterfaceProtocol := 0x50,
    endpoint := [⟨0x81, 0x02, 512⟩, ⟨0x02, 0x02, 512⟩] }]

-- An interface that is accepted without an endpoint for the output.
def inputOnly : Interface where
  altsetting := [{
    bInterfaceClass := 0xff, bInterfaceSubClass := 0x50, bInterfaceProtocol := 0x01,
    endpoint := [⟨0x81, 0x02, 512⟩, ⟨0x82, 0x02, 512⟩] }]

theorem not_ownEndpoints :
    ¬OwnEndpoints [massStorage] ⟨0x0951, 0x1666⟩ {} ∧
    ¬OwnEndpoints [massStorage, inputOnly] ⟨0x18d1, 0x4ee1⟩ {} := by
  constructor
  case left =>
    intro h
    exact absurd (h.2 rfl).1 (by decide)
  case right =>
    intro h
    have ⟨interface, hi, _, idesc, hd, e, he, _, hout, ha⟩ := h.1 1 rfl
    cases hi
    cases hd
    have hm : e = ⟨0x81, 0x02, 512⟩ ∨ e = ⟨0x82, 0x02, 512⟩ := by simpa [inputOnly] using he
    cases hm
    case inl h => exact absurd hout (h ▸ by decide)
    case inr h => exact absurd hout (h ▸ by decide)

end Endpoints

end Usb
