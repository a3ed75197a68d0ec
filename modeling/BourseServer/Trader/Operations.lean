import BourseServer.Protocol.Transfer

/-!
# The trader module

The functions of `trader.c`, access by access. A trader is passed as the address of its record.
Every mention of `all_traders[i]` in the source is a read of its own, since another thread can
write the slot between two of them.
-/
namespace BourseServer

open Concurrency Bytes

/-! ## References -/

def traderRef (a : Nat) : Code Nat :=
  scope (.ref a) (fun r => .trader (some r)) do
    lock a
    let ref ← load .ref a
    store .ref a (ref + 1)
    unlock a
    pure a

/-- `all_traders[i]->name` -/
def slotName (i : Nat) : Code CString := do
  let a ← deref (← slot i)
  load .name a

def removeTraderIfEmpty (a : Nat) : Code Unit := do
  let ref ← load .ref a
  if ref ≠ 0 then pure ()
  else do
    let _ ← Prog.search maxTraders fun i => do
      match ← slot i with
      | none => pure none
      | some _ => do
        if strcmpEq (← slotName i) (← load .name a) then do
          let name ← load .name a
          free (some name.block)
          freeTrader a
          setSlot i none
          pure (some ())
        else pure none
    pure ()

def traderUnref (a : Nat) : Code Unit :=
  scope (.unref a) (fun _ => .void) do
    lock a
    let ref ← load .ref a
    store .ref a (ref - 1)
    removeTraderIfEmpty a
    unlock a

/-! ## Login and logout -/

def checkOldTraderAndLogin (_fd : Int) (name : CString) : Code (Option Nat) :=
  Prog.search maxTraders fun i => do
    match ← slot i with
    | none => pure none
    | some _ => do
      if strcmpEq (← slotName i) name then do
        let a ← deref (← slot i)
        let _ ← traderRef a
        let a ← deref (← slot i)
        pure (some a)
      else pure none

def getFirstAvailableIndex : Code (Option Nat) :=
  Prog.search maxTraders fun i => do
    match ← slot i with
    | none => pure (some i)
    | some _ => pure none

def traderLogin (fd : Int) (name : CString) : Code (Option Nat) :=
  scope (.login fd name) .trader do
    match ← checkOldTraderAndLogin fd name with
    | some old => do
      let oldFd ← load .fd old
      if oldFd ≠ -1 then pure none
      else do
        store .fd old fd
        pure (some old)
    | none => do
      let total ← count
      if total ≥ maxTraders then pure none
      else do
        let total ← count
        setCount (total + 1)
        let trader ← mallocTrader
        let _ ← traderRef trader
        let _ ← traderRef trader
        store .fd trader fd
        store .balance trader 0
        store .inventory trader 0
        store .name trader name
        mutexInit trader
        match ← getFirstAvailableIndex with
        | none => pure none
        | some i => do
          setSlot i (some trader)
          pure (some trader)

def traderLogout (a : Nat) : Code Unit :=
  scope (.logout a) (fun _ => .void) do
    lock a
    let _ ← Prog.search maxTraders fun i => do
      match ← slot i with
      | none => pure none
      | some _ => do
        if strcmpEq (← slotName i) (← load .name a) then do
          traderUnref a
          store .fd a (-1)
          pure (some ())
        else pure none
    unlock a

/-! ## Sending -/

/-- The exit after a failed send does not release the mutex. -/
def traderSendPacket (a : Nat) (hdr : PacketHeader) (data : List UInt8) : Code Int :=
  scope (.sendPacket a hdr data) .int do
    lock a
    let fd ← load .fd a
    let (sent, _) ← protoSendPacket fd hdr data
    if sent = -1 then pure (-1)
    else do
      unlock a
      pure 0

def traderBroadcastPacket (hdr : PacketHeader) (data : List UInt8) : Code Int :=
  scope (.broadcast hdr data) .int do
    let _ ← Prog.search (α := Unit) maxTraders fun i => do
      match ← slot i with
      | none => pure none
      | some _ => do
        let a ← deref (← slot i)
        let _ ← traderSendPacket a hdr data
        pure none
    pure 0

/-- The header is a local variable, so its padding and time stamps start as stack memory. -/
def traderSendAck (a : Nat) (info : Option StatusInfo) : Code Int :=
  scope (.sendAck a info) .int do
    let junk ← uninit headerSize
    let hdr := { PacketHeader.ofBytes junk with type := PacketType.ack.code }
    match info with
    | none => do
      let _ ← traderSendPacket a { hdr with size := htons 0 } []
      pure 0
    | some info => do
      let hdr := { hdr with size := htons (UInt16.ofNat statusSize) }
      let balance ← load .balance a
      let info := { info with balance := htonl balance }
      let inventory ← load .inventory a
      let info := { info with inventory := htonl inventory }
      let _ ← traderSendPacket a hdr info.toBytes
      pure 0

def traderSendNack (a : Nat) : Code Int :=
  scope (.sendNack a) .int do
    let junk ← uninit headerSize
    let hdr := { PacketHeader.ofBytes junk with type := PacketType.nack.code, size := 0 }
    let _ ← traderSendPacket a hdr []
    pure 0

/-! ## Accounts -/

def loadAsset : Asset → Nat → Code UInt32
  | .balance, a => load .balance a
  | .inventory, a => load .inventory a

def storeAsset : Asset → Nat → UInt32 → Code Unit
  | .balance, a, v => store .balance a v
  | .inventory, a, v => store .inventory a v

/-- An increase has no bound: the sum wraps at `2 ^ 32`. -/
def increaseAsset (x : Asset) (a : Nat) (amount : UInt32) : Code Unit :=
  scope (.account a (.increase x amount)) (fun _ => .void) do
    lock a
    let value ← loadAsset x a
    storeAsset x a (value + amount)
    unlock a

/-- A decrease is refused when it exceeds what the account holds. -/
def decreaseAsset (x : Asset) (a : Nat) (amount : UInt32) : Code Int :=
  scope (.account a (.decrease x amount)) .int do
    lock a
    let value ← loadAsset x a
    if value ≥ amount then do
      let value ← loadAsset x a
      storeAsset x a (value - amount)
      unlock a
      pure 0
    else do
      unlock a
      pure (-1)

def traderIncreaseBalance (a : Nat) (amount : UInt32) : Code Unit :=
  increaseAsset .balance a amount

def traderDecreaseBalance (a : Nat) (amount : UInt32) : Code Int :=
  decreaseAsset .balance a amount

def traderIncreaseInventory (a : Nat) (quantity : UInt32) : Code Unit :=
  increaseAsset .inventory a quantity

def traderDecreaseInventory (a : Nat) (quantity : UInt32) : Code Int :=
  decreaseAsset .inventory a quantity

/-! ## The end of the module -/

/-- The loop reads `count` in each turn. Beyond the table lies memory that is not the module's.
The mutex is released after the record that holds it has been freed. -/
def traderFini : Code Unit := do
  let left ← Prog.search maxTraders fun i => do
    if i < (← count) then do
      match ← slot i with
      | none => pure none
      | some _ => do
        lock (← deref (← slot i))
        let name ← load .name (← deref (← slot i))
        free (some name.block)
        freeTrader (← deref (← slot i))
        unlock (← deref (← slot i))
        pure none
    else pure (some ())
  match left with
  | some () => pure ()
  | none => if maxTraders < (← count) then segfault else pure ()

/-! ## Calls from outside the module -/

/-- The trader that is passed to the call. -/
def ClientCall.trader : ClientCall → Option Nat
  | .ref a | .unref a | .sendPacket a .. | .sendAck a _ | .sendNack a | .account a _ => some a
  | .broadcast .. => none

/-- An account operation as a piece of code. -/
def runAccount (a : Nat) : AccountCall → Code Unit
  | .increase .balance n => traderIncreaseBalance a n
  | .increase .inventory n => traderIncreaseInventory a n
  | .decrease .balance n => do
    let _ ← traderDecreaseBalance a n
    pure ()
  | .decrease .inventory n => do
    let _ ← traderDecreaseInventory a n
    pure ()

def runClient : ClientCall → Code Unit
  | .ref a => do
    let _ ← traderRef a
    pure ()
  | .unref a => traderUnref a
  | .sendPacket a hdr data => do
    let _ ← traderSendPacket a hdr data
    pure ()
  | .broadcast hdr data => do
    let _ ← traderBroadcastPacket hdr data
    pure ()
  | .sendAck a info => do
    let _ ← traderSendAck a info
    pure ()
  | .sendNack a => do
    let _ ← traderSendNack a
    pure ()
  | .account a c => runAccount a c

end BourseServer
