import BourseServer.Trader.Operations
import BourseServer.Registry.Operations

/-!
# The service thread

`brs_client_service` of `server.c`. The functions of the exchange are not in the repository:
a call of one of them yields the trader calls it makes and its result, and the service thread
makes those trader calls before it goes on.
-/
namespace BourseServer

open Concurrency Bytes

/-! ## The exchange, as the service thread calls it -/

def runClients : List ClientCall → Code Unit
  | [] => pure ()
  | c :: cs => do
    runClient c
    runClients cs

/-- `exchange_get_status` writes the bid, ask and last fields of `*infop`. -/
def exchangeGetStatus (info : StatusInfo) : Code StatusInfo := do
  let (bid, ask, last) ← exchange .getStatus
  pure { info with bid := bid, ask := ask, last := last }

def exchangePostBuy (a : Nat) (quantity price : UInt32) : Code UInt32 := do
  let (calls, order) ← exchange (.postBuy a quantity price)
  runClients calls
  pure order

def exchangePostSell (a : Nat) (quantity price : UInt32) : Code UInt32 := do
  let (calls, order) ← exchange (.postSell a quantity price)
  runClients calls
  pure order

/-- The result and the quantity variable, which keeps its value `junk` unless it is written. -/
def exchangeCancel (a : Nat) (order junk : UInt32) : Code (Int × UInt32) := do
  let (calls, result, quantity) ← exchange (.cancel a order)
  runClients calls
  pure (result, quantity.getD junk)

/-! ## Requests -/

def alreadyRegistred (fd : Int) : Code Unit := do
  let junk ← uninit headerSize
  let hdr := { PacketHeader.ofBytes junk with type := PacketType.nack.code, size := htons 0 }
  let _ ← protoSendPacket fd hdr []
  pure ()

/-- The first `n` bytes that `payload` points to. What lies beyond the block, or where an
indeterminate pointer points to, is whatever memory holds there. -/
def loadPayload (payload : Option Payload) (n : Nat) : Code (List UInt8) := do
  let inside := (payload.elim [] Payload.bytes).take n
  if inside.length < n then do
    let rest ← beyond (n - inside.length)
    pure (inside ++ rest)
  else pure inside

/-- A `BRS_STATUS_INFO` local variable. -/
def localStatus : Code StatusInfo := do
  let junk ← uninit statusSize
  pure (StatusInfo.ofBytes junk)

/-- The reply to a request that can fail. -/
def replyIf (ok : Bool) (a : Nat) (info : StatusInfo) : Code Unit := do
  if ok then do
    let _ ← traderSendAck a (some info)
    pure ()
  else do
    let _ ← traderSendNack a
    pure ()

def statusRequest (a : Nat) : Code Unit := do
  let info ← localStatus
  let info ← exchangeGetStatus info
  replyIf true a info

/-- DEPOSIT and ESCROW. -/
def increaseRequest (x : Asset) (a : Nat) (payload : Option Payload) : Code Unit := do
  let bytes ← loadPayload payload 4
  increaseAsset x a (ntohl (fieldAt 0 bytes))
  let info ← localStatus
  let info ← exchangeGetStatus info
  replyIf true a info

/-- WITHDRAW and RELEASE. -/
def decreaseRequest (x : Asset) (a : Nat) (payload : Option Payload) : Code Unit := do
  let bytes ← loadPayload payload 4
  let whatHappened ← decreaseAsset x a (ntohl (fieldAt 0 bytes))
  let info ← localStatus
  let info ← exchangeGetStatus info
  replyIf (whatHappened = 0) a info

/-- BUY and SELL: the order id goes into the reply as the host has it. -/
def orderRequest (post : Nat → UInt32 → UInt32 → Code UInt32) (a : Nat)
    (payload : Option Payload) : Code Unit := do
  let bytes ← loadPayload payload 8
  let quantity := ntohl (fieldAt 0 bytes)
  let price := ntohl (fieldAt 4 bytes)
  let order ← post a quantity price
  let info ← localStatus
  let info := { info with orderid := order }
  let info ← exchangeGetStatus info
  replyIf (order ≠ 0) a info

/-- CANCEL: the quantity goes into the reply as the host has it. -/
def cancelRequest (a : Nat) (payload : Option Payload) : Code Unit := do
  let bytes ← loadPayload payload 4
  let junk ← uninit 4
  let (whatHappened, quantity) ← exchangeCancel a (ntohl (fieldAt 0 bytes)) (word32 junk)
  let info ← localStatus
  let info := { info with quantity := quantity }
  let info ← exchangeGetStatus info
  replyIf (whatHappened = 0) a info

/-- The requests of a logged-in client, by packet type; other types are ignored. -/
def serveRequest (a : Nat) (type : UInt8) (payload : Option Payload) : Code Unit :=
  if type = PacketType.status.code then statusRequest a
  else if type = PacketType.deposit.code then increaseRequest .balance a payload
  else if type = PacketType.withdraw.code then decreaseRequest .balance a payload
  else if type = PacketType.escrow.code then increaseRequest .inventory a payload
  else if type = PacketType.release.code then decreaseRequest .inventory a payload
  else if type = PacketType.buy.code then orderRequest exchangePostBuy a payload
  else if type = PacketType.sell.code then orderRequest exchangePostSell a payload
  else if type = PacketType.cancel.code then cancelRequest a payload
  else pure ()

/-! ## The service loop -/

/-- The LOGIN branch for a client that is not logged in. -/
def serveLogin (connfd : Int) (hdr : PacketHeader) (payload : Option Payload) :
    Code (Option Nat) := do
  let (block, _) ← malloc (hdr.payloadSize + 1)
  let bytes ← loadPayload payload hdr.payloadSize
  let thisTrader ← traderLogin connfd ⟨block, bytes ++ [0]⟩
  match thisTrader with
  | none => do
    alreadyRegistred connfd
    pure none
  | some a => do
    let _ ← traderSendAck a none
    pure (some a)

def serveLogout (l : Session) : Code Unit :=
  match l.thisTrader with
  | none => pure ()
  | some a => traderLogout a

/-- The end of the connection: whether `payload` is freed depends on the size field of the
header memory, not on whether this packet has set it. -/
def serveEnd (hdrBlock : Nat) (hdr : PacketHeader) (l : Session) : Code Unit := do
  if ntohs hdr.size > 0 then free (l.payload.map Payload.block) else pure ()
  free (some hdrBlock)
  serveLogout l

/-- What is done with a received packet. A `continue` of the source does not free the header. -/
def servePacket (connfd : Int) (hdrBlock : Nat) (hdr : PacketHeader) (l : Session) :
    Code Session := do
  if hdr.type = PacketType.noPkt.code then do
    free (some hdrBlock)
    pure l
  else if hdr.type = PacketType.login.code then
    match l.thisTrader with
    | some a => do
      let _ ← traderSendNack a
      pure l
    | none => do
      let thisTrader ← serveLogin connfd hdr l.payload
      free (some hdrBlock)
      pure { l with thisTrader := thisTrader }
  else
    match l.thisTrader with
    | none => pure l
    | some a => do
      serveRequest a hdr.type l.payload
      free (some hdrBlock)
      pure l

/-- One iteration of the service loop; no session means that the loop is left. -/
def serveNext (connfd : Int) (l : Session) : Code (Option Session) := do
  let (hdrBlock, _) ← malloc headerSize
  let (status, hdr, payload) ← protoRecvPacket connfd .zero l.payload
  let l := { l with payload := payload }
  if status = -1 then do
    serveEnd hdrBlock hdr l
    pure none
  else do
    let l ← servePacket connfd hdrBlock hdr l
    pure (some l)

def serviceLoop (connfd : Int) (l : Session) : Code Unit := do
  match ← serveNext connfd l with
  | some l => Prog.invoke (I := bourse) (.service connfd l)
  | none => pure ()

/-- The part of `brs_client_service` after the loop. -/
def brsClientLeave (connfd : Int) : Code Unit := do
  let unregistered ← cregUnregister connfd
  if unregistered = -1 then pure () else close connfd

def brsClientService (connfd : Int) : Code Unit := do
  let registered ← cregRegister connfd
  if registered = -1 then pure ()
  else do
    Prog.invoke (I := bourse) (.service connfd ⟨none, none⟩)
    brsClientLeave connfd

/-! ## The server -/

/-- The bodies of the loops. -/
def body : (p : Proc) → Code p.Result
  | .readn fd n nleft got => readnLoop fd n nleft got
  | .writen fd n rest => writenLoop fd n rest
  | .service connfd l => serviceLoop connfd l

/-- What the environment starts: a service thread for a connection that `accept` returns, with
the bytes its peer has sent and whether it has then closed, or another thread's trader call. A
peer that sends more bytes, or closes its end, makes no program run. -/
inductive Request where
  | accept (fd : Int) (input : List UInt8) (ended : Bool)
  | deliver (fd : Int) (bytes : List UInt8) (ended : Bool)
  | client (c : ClientCall)
  deriving DecidableEq, Repr

/-- The peer of a connection sends `bytes` and may close its end. -/
def Conn.deliver (c : Conn) (bytes : List UInt8) (ended : Bool) : Conn :=
  { c with input := c.input ++ bytes, ended := ended }

/-- `accept` returns a non-negative descriptor that is not open. -/
def launch {E : Exchange} (t : Nat) : Request → State E → Option (Code Unit × State E)
  | .accept fd input ended, s =>
    match s.conns fd with
    | some _ => none
    | none =>
      if 0 ≤ fd then
        some (brsClientService fd, s.setConn fd (some ⟨t, input, ended, false, []⟩))
      else none
  | .deliver fd bytes ended, s =>
    match s.conns fd with
    | some c =>
      if c.ended then none
      else some (pure (), s.setConn fd (some (c.deliver bytes ended)))
    | none => none
  | .client c, s => some (runClient c, s)

/-- The start of a program changes nothing but the connections. -/
theorem launch_state {E : Exchange} {t : Nat} {q : Request} {s s' : State E} {p : Code Unit}
    (h : launch t q s = some (p, s')) : ∃ conns, s' = { s with conns := conns } := by
  cases q with
  | client c =>
    cases h
    exact ⟨s.conns, rfl⟩
  | accept fd input ended =>
    simp only [launch] at h
    repeat' split at h
    all_goals cases h
    exact ⟨_, rfl⟩
  | deliver fd bytes ended =>
    simp only [launch] at h
    repeat' split at h
    all_goals cases h
    exact ⟨_, rfl⟩

/-- The machine that runs the server's code. -/
@[reducible] def machine (E : Exchange) : Machine bourse where
  State := State E
  Choice := Choice E
  exec := exec
  body := body

/-- The server: service threads, and threads that call the trader module. -/
@[reducible] def server (E : Exchange) : System bourse where
  toMachine := machine E
  Request := Request
  launch := launch

/-- The smooth course of events, as long as the steps satisfy `guard`. -/
def smoothly {E : Exchange} (x : E.Choice) (guard : Nat → Op → State E → Bool)
    (start : Nat → Request → State E → Bool) : Pool.Course (server E) where
  pick t o s := if guard t o s then some (.smooth x o s) else none
  start := start

/-- The smooth course of events. -/
def smoothCourse {E : Exchange} (x : E.Choice) : Pool.Course (server E) :=
  smoothly x (fun _ _ _ => true) fun _ _ _ => true

theorem smoothCourse_within {E : Exchange} (x : E.Choice) :
    (smoothCourse x).Within fun _ _ => True :=
  ⟨fun _ _ => trivial, fun _ => trivial, fun _ => trivial⟩

end BourseServer
