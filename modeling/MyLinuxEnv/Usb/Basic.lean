import Mathlib.Data.Nat.Notation

namespace Usb

section Descriptors

def LIBUSB_TRANSFER_TYPE_BULK : UInt8 := 2
def LIBUSB_ENDPOINT_IN : UInt8 := 0x80

def KGDB_CLASS : UInt8 := 0xff
def KGDB_SUBCLASS : UInt8 := 0x50
def KGDB_PROTOCOL : UInt8 := 0x1

structure EndpointDescriptor where
  bEndpointAddress : UInt8
  bmAttributes : UInt8
  wMaxPacketSize : UInt16
  deriving DecidableEq, Repr

-- The number of endpoints is the length of the list.
structure InterfaceDescriptor where
  bInterfaceClass : UInt8
  bInterfaceSubClass : UInt8
  bInterfaceProtocol : UInt8
  endpoint : List EndpointDescriptor
  deriving DecidableEq, Repr

-- An interface with its alternate settings.
structure Interface where
  altsetting : List InterfaceDescriptor
  deriving DecidableEq, Repr

-- The pointer to the interfaces may be null.
structure ConfigDescriptor where
  interface : Option (List Interface)
  deriving DecidableEq, Repr

structure DeviceDescriptor where
  idVendor : UInt16
  idProduct : UInt16
  deriving DecidableEq, Repr

def EndpointDescriptor.isBulk (e : EndpointDescriptor) : Bool :=
  e.bmAttributes = LIBUSB_TRANSFER_TYPE_BULK

def EndpointDescriptor.isIn (e : EndpointDescriptor) : Bool :=
  e.bEndpointAddress &&& LIBUSB_ENDPOINT_IN ≠ 0

end Descriptors

-- The handle of a device, which is identified by a number while it is open.
structure UsbHandle where
  devh : Option Nat := none
  interface : Int := 0
  devBus : UInt8 := 0
  devAddr : UInt8 := 0
  zeroMask : Int := 0
  endPointAddress : Vector UInt8 2 := .replicate 2 0
  deriving DecidableEq, Repr

-- The address that is used for the transfers in the given direction.
def UsbHandle.address (uh : UsbHandle) (isIn : Bool) : UInt8 :=
  if isIn then uh.endPointAddress[0] else uh.endPointAddress[1]

section Interfaces

-- The vendor and the product do not matter.
def isKgdbInterface (_vid _pid : UInt16) (usbClass usbSubclass usbProtocol : UInt8) : Bool :=
  usbClass = KGDB_CLASS && usbSubclass = KGDB_SUBCLASS && usbProtocol = KGDB_PROTOCOL

-- The body of the loop over the endpoints, for one that is suitable.
def saveEndpoint (protocol : UInt8) (uh : UsbHandle) (edesc : EndpointDescriptor) : UsbHandle :=
  let uh :=
    if edesc.isIn
    then { uh with endPointAddress := uh.endPointAddress.set 0 edesc.bEndpointAddress }
    else { uh with endPointAddress := uh.endPointAddress.set 1 edesc.bEndpointAddress }
  if protocol = 0x01 then { uh with zeroMask := (edesc.wMaxPacketSize.toNat : Int) - 1 } else uh

-- Returns whether the loop has not been left early.
def checkEndpoints (protocol : UInt8) (uh : UsbHandle) : List EndpointDescriptor → Bool × UsbHandle
  | []          => (true, uh)
  | edesc :: es =>
    if !edesc.isBulk
    then (false, uh)
    else checkEndpoints protocol (saveEndpoint protocol uh edesc) es

def checkUsbInterface (interface : Interface) (desc : DeviceDescriptor) (uh : UsbHandle) :
    Int × UsbHandle :=
  match interface.altsetting with
  | []         => (-1, uh)
  | idesc :: _ =>
    if idesc.endpoint.length ≠ 2 then (-1, uh) else
      let (ok, uh) := checkEndpoints idesc.bInterfaceProtocol uh idesc.endpoint
      if !ok then (-1, uh)
      else if !isKgdbInterface desc.idVendor desc.idProduct idesc.bInterfaceClass
        idesc.bInterfaceSubClass idesc.bInterfaceProtocol then (-1, uh)
      else (1, uh)

-- The loop over the interfaces, the first of which has the given number.
def checkUsbInterfacesFrom (desc : DeviceDescriptor) :
    (i : Nat) → List Interface → UsbHandle → Int × UsbHandle
  | _, [], uh                      => (-1, uh)
  | i, interface :: interfaces, uh =>
    let (r, uh) := checkUsbInterface interface desc uh
    if r ≠ -1 then (i, uh) else checkUsbInterfacesFrom desc (i + 1) interfaces uh

def checkUsbInterfaces (interfaces : List Interface) (desc : DeviceDescriptor) (uh : UsbHandle) :
    Int × UsbHandle :=
  checkUsbInterfacesFrom desc 0 interfaces uh

end Interfaces

section Devices

-- A device that is attached, and the results of the calls which the scan makes for it: none or an
-- error stands for a failure.
structure Device where
  descriptor : Option DeviceDescriptor
  busNumber : UInt8
  deviceAddress : UInt8
  activeConfig : Except Int (Option ConfigDescriptor)
  openResult : Int
  claimResult : Int

-- The global variables, and the handles that are open, together with the interfaces that have
-- been claimed.
structure State where
  androidUh : UsbHandle := {}
  handleList : List UsbHandle := []
  handles : List Nat := []
  claimed : List (Nat × Int) := []
  fresh : Nat := 0
  deriving DecidableEq, Repr

-- The handle is only set if the call succeeds.
def libusbOpen (σ : State) (dev : Device) : Int × State :=
  if dev.openResult = 0 then
    (0, { σ with
      handles := σ.handles ++ [σ.fresh], fresh := σ.fresh + 1
      androidUh := { σ.androidUh with devh := some σ.fresh } })
  else (dev.openResult, σ)

def libusbClaimInterface (σ : State) (dev : Device) (devh : Nat) (interface : Int) : Int × State :=
  if dev.claimResult < 0 then (dev.claimResult, σ)
  else (dev.claimResult, { σ with claimed := σ.claimed ++ [(devh, interface)] })

def libusbClose (σ : State) (devh : Nat) : State :=
  { σ with
    handles := σ.handles.filter (· ≠ devh), claimed := σ.claimed.filter (·.1 ≠ devh) }

def alreadyRegistered (σ : State) (uh : UsbHandle) : Bool :=
  σ.handleList.any fun usb => usb.devBus = uh.devBus && usb.devAddr = uh.devAddr

-- From the call of `libusb_open` on.
def openDevice (σ : State) (dev : Device) (found : Int) : Int × State :=
  let (r, σ) := libusbOpen σ dev
  let found := if r ≠ 0 then -1 else found
  if 0 ≤ found then
    let σ := { σ with androidUh := { σ.androidUh with interface := found } }
    match σ.androidUh.devh with
    | none      => (-1, σ)
    | some devh =>
      let (r, σ) := libusbClaimInterface σ dev devh found
      if r < 0
      then (-1, { libusbClose σ devh with androidUh := { σ.androidUh with devh := none } })
      else (0, σ)
  else (1, σ)

def checkDevice (σ : State) (dev : Device) : Int × State :=
  match dev.descriptor with
  | none      => (-1, σ)
  | some desc =>
    if desc.idVendor = 0 ∧ desc.idProduct = 0 then (-1, σ)
    else if !isKgdbInterface desc.idVendor desc.idProduct KGDB_CLASS KGDB_SUBCLASS KGDB_PROTOCOL
    then (-1, σ) else
      let uh := { σ.androidUh with devBus := dev.busNumber, devAddr := dev.deviceAddress }
      let σ := { σ with androidUh := uh }
      if alreadyRegistered σ uh then (-1, σ) else
        match dev.activeConfig with
        | .error _        => (-1, σ)
        | .ok none        => (-1, σ)
        | .ok (some config) =>
          let (found, uh) :=
            match config.interface with
            | none            => (-1, uh)
            | some interfaces => checkUsbInterfaces interfaces desc uh
          openDevice { σ with androidUh := uh } dev found

-- The loop over the devices.
def scanDevices (σ : State) : List Device → Int × State
  | []          => (-1, σ)
  | dev :: devs =>
    let (r, σ) := checkDevice σ dev
    if r = 0 then (0, σ) else scanDevices σ devs

-- There is no list of devices if it can't be obtained.
def scanUsbDevices (σ : State) : Option (List Device) → Int × State
  | none      => (-1, σ)
  | some devs => scanDevices σ devs

-- A failure to initialise the library is only reported.
def usbPortopen (σ : State) (devs : Option (List Device)) : Int × State :=
  scanUsbDevices σ devs

end Devices

end Usb
