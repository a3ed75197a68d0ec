import BourseServer.Server.Service
import BourseServer.Trader.Accounts

/-!
# The account in an acknowledgement

`trader_send_ack` reads the balance and then the inventory of a trader without its mutex, which
the account operations of other threads take for each change. So the two quantities that it sends
need not have been there together. They have been if, between the two reads, the inventory is
changed only while the balance is still the one that has been read.
-/
namespace BourseServer

open Concurrency

variable {E : Exchange} {a : Nat} {info : StatusInfo} {k : Int → Code Unit} {s : State E}

/-! ## One step and an account -/

/-- The balance of a trader, if there is one. -/
def State.balance (s : State E) (a : Nat) : Option UInt32 := (s.accounts a).map Prod.fst

/-- The inventory of a trader, if there is one. -/
def State.inventory (s : State E) (a : Nat) : Option UInt32 := (s.accounts a).map Prod.snd

theorem State.accounts_eq_some_iff {b i : UInt32} :
    s.accounts a = some (b, i) ↔ s.balance a = some b ∧ s.inventory a = some i := by
  cases h : s.accounts a with
  | none => simp [balance, inventory, h]
  | some acc => simp [balance, inventory, h, Prod.ext_iff]

/-- While the record of a trader stays, an action changes at most one of its quantities. -/
theorem exec_balance {t : Nat} {o : Op} {e : Choice E} {s' : State E} {r : o.Reply}
    (h : exec t o e s = .done r s') {b i : UInt32} (hb : s.balance a = some b)
    (hi : s'.inventory a = some i) (hne : s'.inventory a ≠ s.inventory a) :
    s'.balance a = some b := by
  have hsame : s'.accounts ≠ s.accounts := by
    intro heq
    exact hne (by rw [State.inventory, heq, State.inventory])
  cases hp : o.plain || o.writesFrames with
  | true => exact absurd (exec_plain_accounts (by simpa using hp) h) hsame
  | false =>
    cases o <;> simp only [Op.plain, Op.writesFrames] at hp
    case exchange c =>
      have htr := (exec_frame h).traders rfl
      exact absurd (funext fun c => by simp [State.accounts, htr]) hsame
    case mallocTrader =>
      obtain ⟨hnone, acc, hacc⟩ := exec_mallocTrader_accounts h
      by_cases hr : a = r
      · simp [State.balance, hr, hnone] at hb
      · simp [State.inventory, hacc, hr] at hne
    case freeTrader c =>
      obtain ⟨tr, _, rfl⟩ := exec_freeTrader h
      by_cases hc : a = c
      · simp [State.inventory, State.accounts, State.setTrader, hc] at hi
      · simp [State.inventory, State.accounts, State.setTrader, hc] at hne
    case store f c v =>
      obtain ⟨tr, htr, rfl⟩ := exec_store h
      by_cases hc : a = c
      · subst hc
        cases f
        case balance => simp [State.inventory, State.accounts, State.setTrader, htr,
          Trader.set, Trader.account] at hne
        case inventory => simpa [State.balance, State.accounts, State.setTrader, htr,
          Trader.set, Trader.account] using hb
        all_goals simp at hp
      · simp [State.inventory, State.accounts, State.setTrader, hc] at hne
    all_goals simp at hp

/-- The same for a step of any thread, or of the environment. -/
theorem step_balance {d d' : Pool (server E)} {m : Move (server E)} (h : d.step m = some d')
    {b i : UInt32} (hb : d.state.balance a = some b) (hi : d'.state.inventory a = some i)
    (hne : d'.state.inventory a ≠ d.state.inventory a) : d'.state.balance a = some b := by
  rcases Pool.step_cases h with ⟨t, e, o, k, r, _, _, he, _⟩ | ⟨_, _, _, _, _, _, hs, _⟩ |
    ⟨t, q, p, _, _, hlaunch, _⟩
  · exact exec_balance he hb hi hne
  · exact absurd (by rw [hs]) hne
  · obtain ⟨conns, hs⟩ := launch_state hlaunch
    rw [hs] at hne
    exact absurd rfl hne

/-! ## The call -/

variable {β : Type}

/-- The acknowledgement with the account `(b, i)` is sent, and the thread goes on with `k`. -/
def sendsAck (a : Nat) (info : StatusInfo) (junk : List UInt8) (b i : UInt32)
    (k : Int → Code β) : Code β := do
  let hdr := { PacketHeader.ofBytes junk with
    type := PacketType.ack.code, size := htons (UInt16.ofNat statusSize) }
  let info := { info with balance := htonl b, inventory := htonl i }
  let _ ← traderSendPacket a hdr info.toBytes
  leave (.int 0)
  k 0

def readsInventory (a : Nat) (info : StatusInfo) (junk : List UInt8) (b : UInt32)
    (k : Int → Code β) : Code β := do
  let i ← load .inventory a
  sendsAck a info junk b i k

def readsBalance (a : Nat) (info : StatusInfo) (junk : List UInt8) (k : Int → Code β) :
    Code β := do
  let b ← load .balance a
  readsInventory a info junk b k

def makesHeader (a : Nat) (info : StatusInfo) (k : Int → Code β) : Code β := do
  let junk ← uninit headerSize
  readsBalance a info junk k

theorem traderSendAck_bind {k : Int → Code β} : traderSendAck a (some info) >>= k = (do
    enter (.sendAck a (some info))
    makesHeader a info k) := by
  simp only [traderSendAck, scope, makesHeader, readsBalance, readsInventory, sendsAck,
    Prog.bind_assoc, Prog.pure_eq, Prog.ret_bind]

/-- The account that the payload of an acknowledgement carries. -/
def carriedAccount (payload : List UInt8) : UInt32 × UInt32 :=
  let info := StatusInfo.ofBytes payload
  (ntohl info.balance, ntohl info.inventory)

theorem carriedAccount_of_sendsAck {k : Int → Code β} {junk data : List UInt8} {b i : UInt32}
    {hdr : PacketHeader} {f : Unit → Code β}
    (h : sendsAck a info junk b i k = .op (.enter (.sendPacket a hdr data)) f) :
    carriedAccount data = (b, i) := by
  have hop := (Prog.op.inj h).1
  have hdata := (Call.sendPacket.inj (Op.enter.inj hop)).2.2
  rw [← hdata]
  simp only [carriedAccount, StatusInfo.ofBytes_toBytes, ntohl_htonl]

/-! ## Where the code calls it -/

/-- The call of `trader_send_ack` for an account that an action begins. -/
def Op.beginsAck : Op → Option (Nat × StatusInfo)
  | .enter (.sendAck a (some info)) => some (a, info)
  | _ => none

/-- Wherever the program begins a call of `trader_send_ack`, the whole function follows. -/
def WholeAck {α : Type} : Code α → Prop
  | .ret _ => True
  | .op o f => (∀ a info, o.beginsAck = some (a, info) →
      ∃ k, Prog.op o f = traderSendAck a (some info) >>= k) ∧ ∀ r, WholeAck (f r)
  | .call _ f => ∀ r, WholeAck (f r)

namespace WholeAck

variable {α β : Type} {p : Code α}

theorem ret {x : α} : WholeAck (.ret x) := trivial

theorem bind {f : α → Code β} (hp : WholeAck p) (hf : ∀ x, WholeAck (f x)) :
    WholeAck (p >>= f) := by
  induction p with
  | ret x => exact hf x
  | op o g ih =>
    refine ⟨fun a info ho => ?_, fun r => ih r (hp.2 r)⟩
    obtain ⟨k, hk⟩ := hp.1 a info ho
    refine ⟨fun r => k r >>= f, ?_⟩
    rw [← Prog.bind_assoc, ← hk]
    rfl
  | call q g ih => exact fun r => ih r (hp r)

theorem act {o : Op} (h : o.beginsAck = none) : WholeAck (.act (I := bourse) o) :=
  ⟨fun a info ho => by simp [h] at ho, fun _ => ret⟩

theorem invoke {q : Proc} : WholeAck (.invoke (I := bourse) q) := fun _ => ret

theorem searchFrom {body : Nat → Code (Option α)} {n : Nat} (h : ∀ j, WholeAck (body j)) :
    ∀ {i : Nat}, WholeAck (.searchFrom body n i) := by
  induction n with
  | zero => exact ret
  | succ n ih =>
    intro i
    refine (h i).bind fun r => ?_
    cases r with
    | none => exact ih
    | some x => exact ret

theorem search {body : Nat → Code (Option α)} {n : Nat} (h : ∀ j, WholeAck (body j)) :
    WholeAck (.search n body) := searchFrom h

theorem scope {c : Call} {value : α → Value} (hc : (Op.enter c).beginsAck = none)
    (hp : WholeAck p) : WholeAck (scope c value p) :=
  (act hc).bind fun _ => hp.bind fun _ => (act rfl).bind fun _ => ret

end WholeAck

theorem wholeAck_deref (p : Option Nat) : WholeAck (deref p) := by
  cases p with
  | some a => exact .ret
  | none => exact ⟨nofun, nofun⟩

theorem wholeAck_slotName (i : Nat) : WholeAck (slotName i) :=
  .bind (.act rfl) fun p => .bind (wholeAck_deref p) fun _ => .act rfl

theorem wholeAck_traderRef (a : Nat) : WholeAck (traderRef a) :=
  .scope rfl (.bind (.act rfl) fun _ => .bind (.act rfl) fun _ => .bind (.act rfl) fun _ =>
    .bind (.act rfl) fun _ => .ret)

theorem wholeAck_traderUnref (a : Nat) : WholeAck (traderUnref a) := by
  refine .scope rfl (.bind (.act rfl) fun _ => .bind (.act rfl) fun _ => .bind (.act rfl) fun _ =>
    .bind (.bind (.act rfl) fun ref => ?_) fun _ => .act rfl)
  split_ifs
  · exact .ret
  · refine .bind (.search fun i => .bind (.act rfl) fun p => ?_) fun _ => .ret
    cases p with
    | none => exact .ret
    | some b =>
      refine .bind (wholeAck_slotName i) fun _ => .bind (.act rfl) fun _ => ?_
      split_ifs
      · exact .bind (.act rfl) fun _ => .bind (.act rfl) fun _ => .bind (.act rfl) fun _ =>
          .bind (.act rfl) fun _ => .ret
      · exact .ret

theorem wholeAck_traderLogin (fd : Int) (name : CString) : WholeAck (traderLogin fd name) := by
  have hold : WholeAck (checkOldTraderAndLogin fd name) := by
    refine .search fun i => .bind (.act rfl) fun p => ?_
    cases p with
    | none => exact .ret
    | some b =>
      refine .bind (wholeAck_slotName i) fun _ => ?_
      split_ifs
      · exact .bind (.act rfl) fun p => .bind (wholeAck_deref p) fun _ =>
          .bind (wholeAck_traderRef _) fun _ => .bind (.act rfl) fun p =>
          .bind (wholeAck_deref p) fun _ => .ret
      · exact .ret
  have hfirst : WholeAck getFirstAvailableIndex := by
    refine .search fun i => .bind (.act rfl) fun p => ?_
    cases p <;> exact .ret
  refine .scope rfl (.bind hold fun old => ?_)
  cases old with
  | some old =>
    refine .bind (.act rfl) fun oldFd => ?_
    split_ifs
    · exact .ret
    · exact .bind (.act rfl) fun _ => .ret
  | none =>
    refine .bind (.act rfl) fun total => ?_
    split_ifs
    · exact .ret
    · refine .bind (.act rfl) fun _ => .bind (.act rfl) fun _ => .bind (.act rfl) fun a =>
        .bind (wholeAck_traderRef a) fun _ => .bind (wholeAck_traderRef a) fun _ =>
        .bind (.act rfl) fun _ => .bind (.act rfl) fun _ => .bind (.act rfl) fun _ =>
        .bind (.act rfl) fun _ => .bind (.act rfl) fun _ => .bind hfirst fun i => ?_
      cases i with
      | none => exact .ret
      | some i => exact .bind (.act rfl) fun _ => .ret

theorem wholeAck_traderLogout (a : Nat) : WholeAck (traderLogout a) := by
  refine .scope rfl (.bind (.act rfl) fun _ => .bind (.search fun i => ?_) fun _ => .act rfl)
  refine .bind (.act rfl) fun p => ?_
  cases p with
  | none => exact .ret
  | some b =>
    refine .bind (wholeAck_slotName i) fun _ => .bind (.act rfl) fun _ => ?_
    split_ifs
    · exact .bind (wholeAck_traderUnref a) fun _ => .bind (.act rfl) fun _ => .ret
    · exact .ret

theorem wholeAck_protoSendPacket (fd : Int) (hdr : PacketHeader) (data : List UInt8) :
    WholeAck (protoSendPacket fd hdr data) := by
  refine .bind (.act rfl) fun _ => .bind .invoke fun r => ?_
  split_ifs
  · exact .ret
  · refine .bind .invoke fun r => ?_
    split_ifs <;> exact .ret
  · exact .ret

theorem wholeAck_traderSendPacket (a : Nat) (hdr : PacketHeader) (data : List UInt8) :
    WholeAck (traderSendPacket a hdr data) := by
  refine .scope rfl (.bind (.act rfl) fun _ => .bind (.act rfl) fun fd =>
    .bind (wholeAck_protoSendPacket fd hdr data) fun ⟨sent, _⟩ => ?_)
  dsimp only
  split_ifs
  · exact .ret
  · exact .bind (.act rfl) fun _ => .ret

theorem wholeAck_traderBroadcastPacket (hdr : PacketHeader) (data : List UInt8) :
    WholeAck (traderBroadcastPacket hdr data) := by
  refine .scope rfl (.bind (.search fun i => .bind (.act rfl) fun p => ?_) fun _ => .ret)
  cases p with
  | none => exact .ret
  | some b =>
    exact .bind (.act rfl) fun p => .bind (wholeAck_deref p) fun a =>
      .bind (wholeAck_traderSendPacket a hdr data) fun _ => .ret

/-- The function itself. -/
theorem wholeAck_traderSendAck (a : Nat) (info : Option StatusInfo) :
    WholeAck (traderSendAck a info) := by
  cases info with
  | none =>
    exact .scope rfl (.bind (.act rfl) fun _ => .bind (wholeAck_traderSendPacket a _ _) fun _ =>
      .ret)
  | some info =>
    have hrest : WholeAck (makesHeader a info .ret) := by
      refine .bind (.act rfl) fun _ => .bind (.act rfl) fun _ => .bind (.act rfl) fun _ =>
        .bind (wholeAck_traderSendPacket a _ _) fun _ => .bind (.act rfl) fun _ => ?_
      exact .ret
    rw [← Prog.bind_ret (traderSendAck a (some info)), traderSendAck_bind]
    refine ⟨fun b info' ho => ?_, fun _ => hrest⟩
    cases ho
    exact ⟨.ret, traderSendAck_bind.symm⟩

theorem wholeAck_traderSendNack (a : Nat) : WholeAck (traderSendNack a) :=
  .scope rfl (.bind (.act rfl) fun _ => .bind (wholeAck_traderSendPacket a _ _) fun _ => .ret)

theorem wholeAck_increaseAsset (x : Asset) (a : Nat) (n : UInt32) :
    WholeAck (increaseAsset x a n) := by
  cases x <;>
  exact .scope rfl (.bind (.act rfl) fun _ => .bind (.act rfl) fun _ => .bind (.act rfl) fun _ =>
    .act rfl)

theorem wholeAck_decreaseAsset (x : Asset) (a : Nat) (n : UInt32) :
    WholeAck (decreaseAsset x a n) := by
  cases x <;>
  · refine .scope rfl (.bind (.act rfl) fun _ => .bind (.act rfl) fun v => ?_)
    split_ifs
    · exact .bind (.act rfl) fun _ => .bind (.act rfl) fun _ => .bind (.act rfl) fun _ => .ret
    · exact .bind (.act rfl) fun _ => .ret

theorem wholeAck_runClient (c : ClientCall) : WholeAck (runClient c) := by
  cases c with
  | ref a => exact .bind (wholeAck_traderRef a) fun _ => .ret
  | unref a => exact wholeAck_traderUnref a
  | sendPacket a hdr data => exact .bind (wholeAck_traderSendPacket a hdr data) fun _ => .ret
  | broadcast hdr data => exact .bind (wholeAck_traderBroadcastPacket hdr data) fun _ => .ret
  | sendAck a info => exact .bind (wholeAck_traderSendAck a info) fun _ => .ret
  | sendNack a => exact .bind (wholeAck_traderSendNack a) fun _ => .ret
  | account a c =>
    cases c with
    | increase x n => cases x <;> exact wholeAck_increaseAsset _ a n
    | decrease x n => cases x <;> exact .bind (wholeAck_decreaseAsset _ a n) fun _ => .ret

theorem wholeAck_runClients (cs : List ClientCall) : WholeAck (runClients cs) := by
  induction cs with
  | nil => exact .ret
  | cons c cs ih => exact .bind (wholeAck_runClient c) fun _ => ih

theorem wholeAck_loadPayload (payload : Option Payload) (n : Nat) :
    WholeAck (loadPayload payload n) := by
  unfold loadPayload
  dsimp only
  split_ifs
  · exact .bind (.act rfl) fun _ => .ret
  · exact .ret

/-- The end of a request. -/
theorem wholeAck_reply (ack : Bool) (a : Nat) (f : StatusInfo → StatusInfo) : WholeAck (do
    let info ← localStatus
    let info ← exchangeGetStatus (f info)
    replyIf ack a info) := by
  refine .bind (.bind (.act rfl) fun _ => .ret) fun info =>
    .bind (.bind (.act rfl) fun _ => .ret) fun info => ?_
  cases ack with
  | true => exact .bind (wholeAck_traderSendAck a _) fun _ => .ret
  | false => exact .bind (wholeAck_traderSendNack a) fun _ => .ret

theorem wholeAck_orderRequest {post : Nat → UInt32 → UInt32 → Code UInt32} {a : Nat}
    (hpost : ∀ q p, WholeAck (post a q p)) (payload : Option Payload) :
    WholeAck (orderRequest post a payload) :=
  .bind (wholeAck_loadPayload payload 8) fun _ => .bind (hpost _ _) fun order =>
    wholeAck_reply _ a fun info => { info with orderid := order }

theorem wholeAck_serveRequest (a : Nat) (type : UInt8) (payload : Option Payload) :
    WholeAck (serveRequest a type payload) := by
  have hinc : ∀ x, WholeAck (increaseRequest x a payload) := fun x =>
    .bind (wholeAck_loadPayload payload 4) fun _ => .bind (wholeAck_increaseAsset x a _) fun _ =>
      wholeAck_reply true a id
  have hdec : ∀ x, WholeAck (decreaseRequest x a payload) := fun x =>
    .bind (wholeAck_loadPayload payload 4) fun _ => .bind (wholeAck_decreaseAsset x a _) fun _ =>
      wholeAck_reply _ a id
  have hcancel : WholeAck (cancelRequest a payload) :=
    .bind (wholeAck_loadPayload payload 4) fun _ => .bind (.act rfl) fun _ =>
      .bind (.bind (.act rfl) fun r => .bind (wholeAck_runClients r.1) fun _ => .ret)
        fun ⟨_, quantity⟩ => wholeAck_reply _ a fun info => { info with quantity := quantity }
  have hbuy : ∀ q p, WholeAck (exchangePostBuy a q p) := fun q p =>
    .bind (.act rfl) fun r => .bind (wholeAck_runClients r.1) fun _ => .ret
  have hsell : ∀ q p, WholeAck (exchangePostSell a q p) := fun q p =>
    .bind (.act rfl) fun r => .bind (wholeAck_runClients r.1) fun _ => .ret
  unfold serveRequest
  split_ifs
  · exact wholeAck_reply true a id
  · exact hinc .balance
  · exact hdec .balance
  · exact hinc .inventory
  · exact hdec .inventory
  · exact wholeAck_orderRequest hbuy payload
  · exact wholeAck_orderRequest hsell payload
  · exact hcancel
  · exact .ret

theorem wholeAck_serveEnd (block : Nat) (hdr : PacketHeader) (l : Session) :
    WholeAck (serveEnd block hdr l) := by
  have hlogout : WholeAck (do free (some block); serveLogout l) := by
    refine .bind (.act rfl) fun _ => ?_
    unfold serveLogout
    split
    · exact .ret
    · exact wholeAck_traderLogout _
  unfold serveEnd
  dsimp only
  split_ifs
  · exact .bind (.act rfl) fun _ => hlogout
  · exact hlogout

theorem wholeAck_servePacket (fd : Int) (block : Nat) (hdr : PacketHeader) (l : Session) :
    WholeAck (servePacket fd block hdr l) := by
  have hlogin : WholeAck (serveLogin fd hdr l.payload) := by
    refine .bind (.act rfl) fun ⟨block, _⟩ => .bind (wholeAck_loadPayload l.payload _) fun bytes =>
      .bind (wholeAck_traderLogin fd _) fun a => ?_
    cases a with
    | none =>
      exact .bind (.bind (.act rfl) fun _ => .bind (wholeAck_protoSendPacket fd _ _) fun _ => .ret)
        fun _ => .ret
    | some a => exact .bind (wholeAck_traderSendAck a none) fun _ => .ret
  unfold servePacket
  split_ifs
  · exact .bind (.act rfl) fun _ => .ret
  · split
    · exact .bind (wholeAck_traderSendNack _) fun _ => .ret
    · exact .bind hlogin fun _ => .bind (.act rfl) fun _ => .ret
  · split
    · exact .ret
    · exact .bind (wholeAck_serveRequest _ _ _) fun _ => .bind (.act rfl) fun _ => .ret

theorem wholeAck_protoRecvPacket (fd : Int) (hdr : PacketHeader) (payload : Option Payload) :
    WholeAck (protoRecvPacket fd hdr payload) := by
  refine .bind .invoke fun ⟨read, got⟩ => ?_
  dsimp only
  split_ifs
  · exact .ret
  · exact .ret
  · refine .bind (.act rfl) fun ⟨block, junk⟩ => .bind .invoke fun ⟨status, got⟩ => ?_
    dsimp only
    split_ifs <;> exact .ret
  · exact .ret

theorem wholeAck_cregRegister (fd : Int) : WholeAck (cregRegister fd) := by
  refine .bind (.act rfl) fun _ => .bind (.act rfl) fun _ => .bind ?_ fun index => ?_
  · refine .bind (.act rfl) fun n => .search fun i => .bind (.act rfl) fun cur => ?_
    split_ifs <;> exact .ret
  · cases index with
    | none => exact .ret
    | some i =>
      have hend : WholeAck (do semPost .mutex; semPost .items; pure (0 : Int)) :=
        .bind (.act rfl) fun _ => .bind (.act rfl) fun _ => .ret
      refine .bind (.act rfl) fun _ => .bind (.act rfl) fun _ => .bind (.act rfl) fun _ =>
        .bind (.act rfl) fun n => ?_
      dsimp only
      split_ifs
      · exact .bind (.act rfl) fun _ => hend
      · exact hend

theorem wholeAck_brsClientLeave (fd : Int) : WholeAck (brsClientLeave fd) := by
  have hunregister : WholeAck (cregUnregister fd) := by
    refine .bind (.act rfl) fun _ => .bind (.act rfl) fun _ => .bind (.act rfl) fun n =>
      .bind (.search fun i => .bind (.act rfl) fun cur => ?_) fun found => ?_
    · split_ifs
      · have hend : WholeAck (do semPost .mutex; semPost .slots; pure (some ())) :=
          .bind (.act rfl) fun _ => .bind (.act rfl) fun _ => .ret
        refine .bind (.act rfl) fun _ => .bind (.act rfl) fun _ => .bind (.act rfl) fun _ =>
          .bind (.act rfl) fun n => ?_
        dsimp only
        split_ifs
        · exact .bind (.act rfl) fun _ => hend
        · exact hend
      · exact .ret
    · cases found with
      | some _ => exact .ret
      | none => exact .bind (.act rfl) fun _ => .bind (.act rfl) fun _ => .ret
  refine .bind hunregister fun r => ?_
  split_ifs
  · exact .ret
  · exact .act rfl

theorem wholeAck_brsClientService (fd : Int) : WholeAck (brsClientService fd) := by
  refine .bind (wholeAck_cregRegister fd) fun r => ?_
  split_ifs
  · exact .ret
  · exact .bind .invoke fun _ => wholeAck_brsClientLeave fd

theorem wholeAck_body (q : Proc) : WholeAck (body q) := by
  cases q with
  | readn fd n nleft got =>
    change WholeAck (readnLoop fd n nleft got)
    unfold readnLoop
    split_ifs
    · refine .bind (.act rfl) fun r => ?_
      cases r with
      | interrupted => exact .invoke
      | failed => exact .ret
      | data bs =>
        dsimp only
        split_ifs
        · exact .ret
        · exact .invoke
    · exact .ret
  | writen fd n rest =>
    change WholeAck (writenLoop fd n rest)
    unfold writenLoop
    split_ifs
    · refine .bind (.act rfl) fun r => ?_
      cases r with
      | interrupted => exact .invoke
      | failed => exact .ret
      | wrote k => exact .invoke
    · exact .ret
  | service fd l =>
    refine .bind (.bind (.act rfl) fun ⟨block, _⟩ =>
      .bind (wholeAck_protoRecvPacket fd _ _) fun ⟨status, hdr, payload⟩ => ?_) fun l => ?_
    · dsimp only
      split_ifs
      · exact .bind (wholeAck_serveEnd _ _ _) fun _ => .ret
      · exact .bind (wholeAck_servePacket _ _ _ _) fun _ => .ret
    · cases l with
      | some l => exact .invoke
      | none => exact .ret

/-- In every run of the server, each thread that begins a call of `trader_send_ack` goes through
the whole function. -/
theorem wholeAck_of_reach {c d : Pool (server E)} (h : Pool.Reach c d)
    (hc : ∀ t, WholeAck (c.prog t)) : ∀ t, WholeAck (d.prog t) := by
  refine h.forall_prog ?_ ?_ ?_ hc
  · exact fun o f r hp => hp.2 r
  · exact fun q f hp => (wholeAck_body q).bind hp
  · intro t q p s s' hlaunch
    cases q with
    | client c =>
      cases hlaunch
      exact wholeAck_runClient c
    | accept fd input ended =>
      simp only [launch] at hlaunch
      repeat' split at hlaunch
      all_goals cases hlaunch
      exact wholeAck_brsClientService fd
    | deliver fd bytes ended =>
      simp only [launch] at hlaunch
      repeat' split at hlaunch
      all_goals cases hlaunch
      exact .ret

/-! ## What has been seen during the call -/

/-- How far a call of `trader_send_ack` has come, where `held` tells which quantities the account
has had at the same time. -/
inductive Acking (a : Nat) (info : StatusInfo) (k : Int → Code Unit)
    (held : UInt32 → UInt32 → Prop) (s : State E) : Code Unit → Prop where
  | called : Acking a info k held s (traderSendAck a (some info) >>= k)
  | entered : Acking a info k held s (makesHeader a info k)
  | header (junk : List UInt8) : Acking a info k held s (readsBalance a info junk k)
  | balance (junk : List UInt8) (b : UInt32) : (∀ i, s.inventory a = some i → held b i) →
      Acking a info k held s (readsInventory a info junk b k)
  | inventory (junk : List UInt8) (b i : UInt32) : held b i →
      Acking a info k held s (sendsAck a info junk b i k)

variable {held held' : UInt32 → UInt32 → Prop} {t : Nat} {p : Code Unit}

theorem Acking.exists_op (h : Acking a info k held s p) : ∃ o f, p = .op o f := by
  cases h with
  | called => exact ⟨_, _, rfl⟩
  | entered => exact ⟨_, _, rfl⟩
  | header junk => exact ⟨_, _, rfl⟩
  | balance junk b hb => exact ⟨_, _, rfl⟩
  | inventory junk b i hi => exact ⟨_, _, rfl⟩

/-- The thread itself goes on in its call. -/
theorem Acking.step_self {d d' : Pool (server E)} {e : Choice E}
    (h : Acking a info k held d.state (d.prog t)) (hs : d.step (.run t e) = some d')
    (hsend : ∀ hdr data f, d.prog t ≠ .op (.enter (.sendPacket a hdr data)) f)
    (hmono : ∀ b i, held b i → held' b i)
    (hnew : ∀ b i, d'.state.accounts a = some (b, i) → held' b i) :
    Acking a info k held' d'.state (d'.prog t) := by
  generalize hp : d.prog t = p at h
  cases h with
  | called =>
    rw [traderSendAck_bind] at hp
    obtain ⟨r, _, hprog⟩ := Pool.exec_of_step hs hp
    rw [hprog]
    exact .entered
  | entered =>
    obtain ⟨junk, _, hprog⟩ := Pool.exec_of_step hs hp
    rw [hprog]
    exact .header junk
  | header junk =>
    obtain ⟨b, he, hprog⟩ := Pool.exec_of_step hs hp
    obtain ⟨tr, htr, rfl, hsame⟩ := exec_load (t := t) (e := e) he
    rw [hprog]
    refine .balance junk _ fun i hi => hnew _ i (State.accounts_eq_some_iff.mpr ⟨?_, hi⟩)
    rw [hsame, State.balance, accounts_of_some htr]
    rfl
  | balance junk b hb =>
    obtain ⟨i, he, hprog⟩ := Pool.exec_of_step hs hp
    obtain ⟨tr, htr, rfl, _⟩ := exec_load (t := t) (e := e) he
    have hi : d.state.inventory a = some (tr.get .inventory) := by
      rw [State.inventory, accounts_of_some htr]
      rfl
    rw [hprog]
    exact .inventory junk b _ (hmono _ _ (hb _ hi))
  | inventory junk b i hi => exact absurd hp (hsend _ _ _)

/-- Another thread, or the environment, makes a step. -/
theorem Acking.step_other {d d' : Pool (server E)} {m : Move (server E)}
    (h : Acking a info k held d.state (d.prog t)) (hs : d.step m = some d')
    (hother : ∀ e, m ≠ .run t e)
    (hcareful : ∀ junk b, d.prog t = readsInventory a info junk b k →
      d'.state.inventory a ≠ d.state.inventory a → d.state.balance a = some b)
    (hmono : ∀ b i, held b i → held' b i)
    (hnew : ∀ b i, d'.state.accounts a = some (b, i) → held' b i) :
    Acking a info k held' d'.state (d'.prog t) := by
  obtain ⟨o, f, hop⟩ := h.exists_op
  have hstart : ∀ q, m ≠ .start t q := by
    rintro q rfl
    simp [Pool.step, hop] at hs
  rw [Pool.step_prog_of_ne hs hother hstart]
  generalize hp : d.prog t = p at h
  cases h with
  | called => exact .called
  | entered => exact .entered
  | header junk => exact .header junk
  | balance junk b hb =>
    refine .balance junk b fun i hi => ?_
    by_cases hsame : d'.state.inventory a = d.state.inventory a
    · exact hmono b i (hb i (hsame ▸ hi))
    · have hbal := step_balance hs (hcareful junk b hp hsame) hi hsame
      exact hnew b i (State.accounts_eq_some_iff.mpr ⟨hbal, hi⟩)
  | inventory junk b i hi => exact .inventory junk b i (hmono b i hi)

/-- Thread `t` has not yet come to the point where it sends the acknowledgement. -/
def NotYetSent (t a : Nat) (d : Pool (server E)) (m : Move (server E)) : Prop :=
  ∀ e hdr data f, m = .run t e → d.prog t ≠ .op (.enter (.sendPacket a hdr data)) f

/-- After thread `t` has read the balance `b`, and before it reads the inventory, a step changes
the inventory of trader `a` only if its balance is still `b`. -/
def Careful (t a : Nat) (d : Pool (server E)) (m : Move (server E)) : Prop :=
  ∀ info junk b k d', d.prog t = readsInventory a info junk b k → d.step m = some d' →
    d'.state.inventory a ≠ d.state.inventory a → d.state.balance a = some b

/-- What a run of careful steps passes is enough for what the acknowledgement carries. -/
theorem acking_of_passes {c d : Pool (server E)} {cs : List (Pool (server E))}
    (hc : c.prog t = traderSendAck a (some info) >>= k)
    (h : Pool.Passes (fun d m => NotYetSent t a d m ∧ Careful t a d m) c cs d) :
    Acking a info k (fun b i => ∃ e ∈ cs, e.state.accounts a = some (b, i)) d.state
      (d.prog t) := by
  induction h with
  | refl =>
    rw [hc]
    exact .called
  | @tail cs d d' _ hstep ih =>
    obtain ⟨m, ⟨hsend, hcareful⟩, hs⟩ := hstep
    have hmono : ∀ b i, (∃ e ∈ cs, e.state.accounts a = some (b, i)) →
        ∃ e ∈ d' :: cs, e.state.accounts a = some (b, i) := by
      rintro b i ⟨e, he, hacc⟩
      exact ⟨e, List.mem_cons_of_mem _ he, hacc⟩
    have hnew : ∀ b i, d'.state.accounts a = some (b, i) →
        ∃ e ∈ d' :: cs, e.state.accounts a = some (b, i) := fun b i hacc =>
      ⟨d', List.mem_cons_self, hacc⟩
    by_cases hm : ∃ e, m = .run t e
    · obtain ⟨e, rfl⟩ := hm
      exact ih.step_self hs (fun hdr data f => hsend e hdr data f rfl) hmono hnew
    · have hother : ∀ e, m ≠ .run t e := fun e he => hm ⟨e, he⟩
      exact ih.step_other hs hother (fun junk b hp => hcareful info junk b k d' hp hs) hmono hnew

/-- The balance and the inventory in an acknowledgement were those of the account at one moment
of the call, if between the two reads the inventory is changed only while the balance is the one
that has been read. -/
theorem ack_pair_held {x : E.State} {n : Nat} {c d : Pool (server E)}
    {cs : List (Pool (server E))} {f g : Unit → Code Unit} {hdr : PacketHeader}
    {data : List UInt8} (hreach : Pool.Reach (Pool.idle (State.init E x n)) c)
    (hc : c.prog t = .op (.enter (.sendAck a (some info))) f)
    (h : Pool.Passes (fun d m => NotYetSent t a d m ∧ Careful t a d m) c cs d)
    (hd : d.prog t = .op (.enter (.sendPacket a hdr data)) g) :
    ∃ e ∈ cs, e.state.accounts a = some (carriedAccount data) := by
  have hwhole : WholeAck (c.prog t) := wholeAck_of_reach hreach (fun _ => .ret) t
  rw [hc] at hwhole
  obtain ⟨k, hk⟩ := hwhole.1 a info rfl
  have hacking := acking_of_passes (hc.trans hk) h
  generalize d.prog t = p at hacking hd
  cases hacking with
  | called => cases (Prog.op.inj (traderSendAck_bind.symm.trans hd)).1
  | entered => cases (Prog.op.inj hd).1
  | header junk => cases (Prog.op.inj hd).1
  | balance junk b _ => cases (Prog.op.inj hd).1
  | inventory junk b i hheld =>
    rw [carriedAccount_of_sendsAck hd]
    exact hheld

/-! ## Two runs -/

/-- The packet that is sent to trader `a` passes the test. -/
def Op.sendsTo (a : Nat) (test : List UInt8 → Bool) : Op → Bool
  | .enter (.sendPacket b _ data) => b == a && test data
  | _ => false

theorem exists_of_sendsTo {test : List UInt8 → Bool} (h : p.atOp (Op.sendsTo a test) = true) :
    ∃ hdr data f, p = .op (.enter (.sendPacket a hdr data)) f ∧ test data = true := by
  obtain ⟨o, f, rfl, ho⟩ := Prog.exists_of_atOp h
  cases o with
  | enter c =>
    cases c with
    | sendPacket b hdr data =>
      obtain ⟨hb, htest⟩ := Bool.and_eq_true_iff.mp ho
      obtain rfl := beq_iff_eq.mp hb
      exact ⟨hdr, data, f, rfl, htest⟩
    | _ => cases ho
  | _ => cases ho

/-- The action begins a call of `trader_send_ack` for trader `a`. -/
def Op.asksStatus (a : Nat) (o : Op) : Bool := o.beginsAck.any fun q => q.1 == a

theorem exists_of_asksStatus (h : p.atOp (Op.asksStatus a) = true) :
    ∃ info f, p = .op (.enter (.sendAck a (some info))) f := by
  obtain ⟨o, f, rfl, ho⟩ := Prog.exists_of_atOp h
  cases o with
  | enter c =>
    cases c with
    | sendAck b info =>
      cases info with
      | none => cases ho
      | some info =>
        obtain rfl := beq_iff_eq.mp ho
        exact ⟨info, f, rfl⟩
    | _ => cases ho
  | _ => cases ho

/-- Client `a` logs in and asks for its status, so its service thread calls `trader_send_ack`. -/
def statusScript : List (Pool.Stage (server (.fixed 1 1))) :=
  [.start 0 (.accept 3 (packet .login [97] ++ packet .status []) false), .drive 0 130]

/-- A thread goes on by `n` actions that leave nothing open. -/
def ticks (t n : Nat) : List (Move (server (.fixed 1 1))) := List.replicate n (.run t .tick)

/-- The service thread comes to its second read. -/
def firstRead : List (Move (server (.fixed 1 1))) :=
  ticks 0 1 ++ [.run 0 (.memory (List.replicate headerSize 0))] ++ ticks 0 1

/-- Another thread increases one of the quantities. -/
def increases (x : Asset) (n : UInt32) : List (Move (server (.fixed 1 1))) :=
  .start 1 (.client (.account 0 (.increase x n))) :: ticks 1 6

def notSent (d : Pool (server (.fixed 1 1))) : Move (server (.fixed 1 1)) → Bool
  | .run 0 _ => !(d.prog 0).atOp (Op.sendsTo 0 fun _ => true)
  | _ => true

theorem notYetSent_of_notSent {d : Pool (server (.fixed 1 1))} {m : Move (server (.fixed 1 1))}
    (h : notSent d m = true) : NotYetSent 0 0 d m := by
  rintro e hdr data f rfl hp
  simp [notSent, hp, Prog.atOp, Op.sendsTo] at h

/-- The moves lead on from the call of `trader_send_ack` to the sending of a packet. -/
def leads (test : Pool (server (.fixed 1 1)) → Move (server (.fixed 1 1)) → Bool)
    (l : List (Move (server (.fixed 1 1))))
    (check : List (Pool (server (.fixed 1 1))) → UInt32 × UInt32 → Bool)
    (c : Pool (server (.fixed 1 1))) : Bool :=
  (c.prog 0).atOp (Op.asksStatus 0) &&
    (Pool.walk test l [c] c).any fun r =>
      (r.2.prog 0).atOp (Op.sendsTo 0 fun data => check r.1 (carriedAccount data))

theorem exists_of_leads {ok : Pool (server (.fixed 1 1)) → Move (server (.fixed 1 1)) → Prop}
    (test : Pool (server (.fixed 1 1)) → Move (server (.fixed 1 1)) → Bool)
    (htest : ∀ d m, test d m = true → ok d m) (l : List (Move (server (.fixed 1 1))))
    (check : List (Pool (server (.fixed 1 1))) → UInt32 × UInt32 → Bool)
    (h : (Pool.perform (smoothCourse ()) statusScript
      (Pool.idle (State.init _ () 4))).any (leads test l check) = true) :
    ∃ (c d : Pool (server (.fixed 1 1))) (cs : List (Pool (server (.fixed 1 1))))
      (info : StatusInfo) (hdr : PacketHeader) (data : List UInt8) (f g : Unit → Code Unit),
      Pool.Reach (Pool.idle (State.init _ () 4)) c ∧
      c.prog 0 = .op (.enter (.sendAck 0 (some info))) f ∧ Pool.Passes ok c cs d ∧
      d.prog 0 = .op (.enter (.sendPacket 0 hdr data)) g ∧
      check cs (carriedAccount data) = true := by
  obtain ⟨c, hreach, hc⟩ := Pool.exists_reach (smoothCourse_within ()) statusScript _ _ h
  obtain ⟨hbegins, hany⟩ := Bool.and_eq_true_iff.mp hc
  obtain ⟨⟨cs, d⟩, hwalk, hd⟩ := (Option.any_eq_true ..).mp hany
  obtain ⟨info, f, hf⟩ := exists_of_asksStatus hbegins
  obtain ⟨hdr, data, g, hg, hcheck⟩ := exists_of_sendsTo hd
  exact ⟨c, d, cs, info, hdr, data, f, g, hreach, hf, Pool.passes_of_walk htest .refl hwalk, hg,
    hcheck⟩

/-- The inventory stays as it is. -/
def inventoryKept (d : Pool (server (.fixed 1 1))) (m : Move (server (.fixed 1 1))) : Bool :=
  notSent d m && (d.step m).all fun d' => d'.state.inventory 0 == d.state.inventory 0

theorem careful_of_inventoryKept {d : Pool (server (.fixed 1 1))}
    {m : Move (server (.fixed 1 1))} (h : inventoryKept d m = true) :
    NotYetSent 0 0 d m ∧ Careful 0 0 d m := by
  obtain ⟨hsent, hkept⟩ := Bool.and_eq_true_iff.mp h
  refine ⟨notYetSent_of_notSent hsent, fun info junk b k d' _ hstep hne => ?_⟩
  rw [hstep] at hkept
  exact absurd (by simpa using hkept) hne

/-- The balance is increased between the two reads. -/
theorem ack_pair_held_credit : ∃ (cs : List (Pool (server (.fixed 1 1)))) (data : List UInt8),
    carriedAccount data = (0, 0) ∧ ∃ e ∈ cs, e.state.accounts 0 = some (carriedAccount data) := by
  obtain ⟨c, d, cs, info, hdr, data, f, g, hreach, hc, hpasses, hd, hzero⟩ :=
    exists_of_leads inventoryKept (fun _ _ => careful_of_inventoryKept)
      (firstRead ++ increases .balance 5 ++ ticks 0 1) (fun _ acc => acc == (0, 0))
      (by decide +kernel)
  exact ⟨cs, data, by simpa using hzero, ack_pair_held hreach hc hpasses hd⟩

/-- The balance and then the inventory are increased between the two reads. The acknowledgement
carries an account that has never been. -/
theorem ack_pair_never_held : ∃ (c d : Pool (server (.fixed 1 1)))
    (cs : List (Pool (server (.fixed 1 1)))) (info : StatusInfo) (hdr : PacketHeader)
    (data : List UInt8) (f g : Unit → Code Unit),
    Pool.Reach (Pool.idle (State.init _ () 4)) c ∧
      c.prog 0 = .op (.enter (.sendAck 0 (some info))) f ∧ Pool.Passes (NotYetSent 0 0) c cs d ∧
      d.prog 0 = .op (.enter (.sendPacket 0 hdr data)) g ∧
      ∀ e ∈ cs, e.state.accounts 0 ≠ some (carriedAccount data) := by
  obtain ⟨c, d, cs, info, hdr, data, f, g, hreach, hc, hpasses, hd, hnever⟩ :=
    exists_of_leads notSent (fun _ _ => notYetSent_of_notSent)
      (firstRead ++ increases .balance 5 ++ increases .inventory 7 ++ ticks 0 1)
      (fun cs acc => cs.all fun e => e.state.accounts 0 != some acc) (by decide +kernel)
  refine ⟨c, d, cs, info, hdr, data, f, g, hreach, hc, hpasses, hd, fun e he => ?_⟩
  simpa using List.all_eq_true.mp hnever e he

end BourseServer
