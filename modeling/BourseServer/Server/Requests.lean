import BourseServer.Protocol.RoundTrip
import BourseServer.Trader.Accounts

/-!
# What a request calls

The calls that a service thread makes for a request are a function of the request, of the bytes
it loads from its payload, of the account of the trader, and of what the exchange answers.
-/
namespace BourseServer

open Concurrency Bytes

variable {E : Exchange} {t : Nat}

/-- What the outside world decides about the requests of a run: the choices of the exchange, and
the content of fresh stack memory. -/
structure Surroundings (E : Exchange) where
  choose : ExchangeCall → E.State → E.Choice
  junk : Nat → List UInt8

/-- The steps taken in these surroundings, in which no read fails. -/
def Surroundings.Follow (w : Surroundings E) : Condition (machine E) := fun o e s =>
  match o with
  | .exchange c => e = .exchange (w.choose c s.exchange)
  | .uninit n => e = .memory (w.junk n)
  | .read .. => e ≠ .ioError
  | _ => True

namespace Surroundings

variable (w : Surroundings E)

/-- What the exchange answers, and its state afterwards. -/
def ask (c : ExchangeCall) (x : E.State) : c.Reply × E.State := E.act c (w.choose c x) x

/-- The status in the reply to a request. -/
def status (orderid quantity : Option UInt32) (x : E.State) : StatusInfo :=
  let info := StatusInfo.ofBytes (w.junk statusSize)
  let (bid, ask, last) := (w.ask .getStatus x).1
  { info with
    orderid := orderid.getD info.orderid
    quantity := quantity.getD info.quantity
    bid := bid, ask := ask, last := last }

end Surroundings

def ClientCall.toCall : ClientCall → Call
  | .ref a => .ref a
  | .unref a => .unref a
  | .sendPacket a hdr data => .sendPacket a hdr data
  | .broadcast hdr data => .broadcast hdr data
  | .sendAck a info => .sendAck a info
  | .sendNack a => .sendNack a
  | .account a c => .account a c

/-- The calls that end a request, newest first. -/
def replyCalls (ok : Bool) (a : Nat) (info : StatusInfo) : List (Call ⊕ ExchangeCall) :=
  [.inl (if ok then .sendAck a (some info) else .sendNack a), .inr .getStatus]

/-- The calls made for a request of trader `a`, newest first, when `bytes` are loaded from the
payload, `acc` is the account and `x` the exchange. -/
def requestCalls (w : Surroundings E) (a : Nat) (acc : UInt32 × UInt32) (type : UInt8)
    (bytes : List UInt8) (x : E.State) : List (Call ⊕ ExchangeCall) :=
  let increase (y : Asset) :=
    let n := ntohl (fieldAt 0 bytes)
    replyCalls true a (w.status none none x) ++ [.inl (.account a (.increase y n))]
  let decrease (y : Asset) :=
    let n := ntohl (fieldAt 0 bytes)
    replyCalls (n ≤ y.of acc) a (w.status none none x) ++ [.inl (.account a (.decrease y n))]
  let clients (calls : List ClientCall) := (calls.map fun c => Sum.inl c.toCall).reverse
  let quantity := ntohl (fieldAt 0 bytes)
  let price := ntohl (fieldAt 4 bytes)
  if type = PacketType.status.code then replyCalls true a (w.status none none x)
  else if type = PacketType.deposit.code then increase .balance
  else if type = PacketType.withdraw.code then decrease .balance
  else if type = PacketType.escrow.code then increase .inventory
  else if type = PacketType.release.code then decrease .inventory
  else if type = PacketType.buy.code then
    let ((calls, order), x) := w.ask (.postBuy a quantity price) x
    replyCalls (order ≠ 0) a (w.status (some order) none x) ++ clients calls ++
      [.inr (.postBuy a quantity price)]
  else if type = PacketType.sell.code then
    let ((calls, order), x) := w.ask (.postSell a quantity price) x
    replyCalls (order ≠ 0) a (w.status (some order) none x) ++ clients calls ++
      [.inr (.postSell a quantity price)]
  else if type = PacketType.cancel.code then
    let ((calls, result, canceled), x) := w.ask (.cancel a quantity) x
    replyCalls (result = 0) a
        (w.status none (some (canceled.getD (word32 (w.junk 4)))) x) ++ clients calls ++
      [.inr (.cancel a quantity)]
  else []

/-- The number of payload bytes that a request of this type loads. -/
def neededBytes (type : UInt8) : Nat :=
  if type = PacketType.deposit.code ∨ type = PacketType.withdraw.code ∨
    type = PacketType.escrow.code ∨ type = PacketType.release.code ∨
    type = PacketType.cancel.code then 4
  else if type = PacketType.buy.code ∨ type = PacketType.sell.code then 8
  else 0

/-! ## The code -/

variable {w : Surroundings E} {ok : Condition (machine E)}

/-- The bytes that are loaded from a payload: those of its block, and if it is short what a step
that satisfies `ok` finds in the memory beyond. -/
def Loaded (ok : Condition (machine E)) (payload : Option Payload) (n : Nat)
    (bytes : List UInt8) : Prop :=
  ∃ rest, bytes = (payload.elim [] Payload.bytes).take n ++ rest ∧
    rest.length = n - (payload.elim [] Payload.bytes).length ∧
    (rest ≠ [] → ∃ s, ok (.beyond rest.length) (.memory rest) s)

theorem Loaded.eq_take {payload : Option Payload} {n : Nat} {bytes : List UInt8}
    (h : Loaded ok payload n bytes) (hn : n ≤ (payload.elim [] Payload.bytes).length) :
    bytes = (payload.elim [] Payload.bytes).take n := by
  obtain ⟨rest, rfl, hlen, _⟩ := h
  have hnil : rest = [] := List.length_eq_zero_iff.mp (by omega)
  rw [hnil, List.append_nil]

theorem Loaded.nil {payload : Option Payload} : Loaded ok payload 0 [] :=
  ⟨[], rfl, (Nat.zero_sub _).symm, fun h => absurd rfl h⟩

/-- The thread is in no function, has made the calls `made`, and finds the exchange in `x`. -/
def At (t : Nat) (made : List (Call ⊕ ExchangeCall)) (x : E.State) (s : State E) : Prop :=
  s.calls t = ([], made, x)

variable {made : List (Call ⊕ ExchangeCall)} {x : E.State} {s : State E}

theorem partial_loadPayload {payload : Option Payload} {n : Nat} :
    Partial (machine E) ok t (loadPayload payload n)
      (fun bytes s' => s' = s ∧ Loaded ok payload n bytes) s := by
  unfold loadPayload
  dsimp only
  split_ifs with hlen
  · refine Partial.bind (Partial.act fun e r s' he ho => ?_)
    simp only [exec] at he
    split at he
    · split_ifs at he with hjunk
      cases he
      refine .ret ⟨rfl, _, rfl, ?_, fun _ => ⟨s, hjunk ▸ ho⟩⟩
      rw [hjunk, List.length_take]
      omega
    · cases he
  · refine .ret ⟨rfl, [], (List.append_nil _).symm, ?_, fun h => absurd rfl h⟩
    rw [List.length_take] at hlen
    rw [List.length_nil]
    omega

theorem partial_uninit (hok : ∀ o e s, ok o e s → w.Follow o e s) {n : Nat} :
    Partial (machine E) ok t (uninit n) (fun junk s' => s' = s ∧ junk = w.junk n) s := by
  refine Partial.act fun e r s' he ho => ?_
  have he' : e = .memory (w.junk n) := hok _ _ _ ho
  subst he'
  simp only [exec] at he
  split_ifs at he
  cases he
  exact ⟨rfl, rfl⟩

theorem partial_exchange (hok : ∀ o e s, ok o e s → w.Follow o e s) (h : At t made x s)
    {c : ExchangeCall} :
    Partial (machine E) ok t (exchange c) (fun r s' => r = (w.ask c x).1 ∧
      s'.accounts = s.accounts ∧ At t (.inr c :: made) (w.ask c x).2 s') s := by
  refine Partial.act fun e r s' he ho => ?_
  have he' : e = .exchange (w.choose c s.exchange) := hok _ _ _ ho
  subst he'
  cases he
  obtain ⟨hframes, hrest⟩ := Prod.mk.inj h
  obtain ⟨hmade, hx⟩ := Prod.mk.inj hrest
  subst hx
  refine ⟨rfl, rfl, Prod.ext hframes (Prod.ext ?_ rfl)⟩
  simp [State.calls, outerCalls, History.exchange, ← hmade]

theorem partial_call {α : Type} {p : Code α} {c : Call} (hp : InnerCall p c) (h : At t made x s) :
    Partial (machine E) ok t p (fun _ s' => At t (.inl c :: made) x s') s := by
  obtain ⟨hframes, hrest⟩ := Prod.mk.inj h
  obtain ⟨hmade, hx⟩ := Prod.mk.inj hrest
  subst hmade hx
  exact (hp.partial_calls hframes)

theorem partial_localStatus (hok : ∀ o e s, ok o e s → w.Follow o e s) :
    Partial (machine E) ok t localStatus
      (fun info s' => s' = s ∧ info = StatusInfo.ofBytes (w.junk statusSize)) s := by
  refine Partial.bind ((partial_uninit hok).mono ?_)
  rintro _ _ ⟨rfl, rfl⟩
  exact .ret ⟨rfl, rfl⟩

theorem partial_runClient {c : ClientCall} (h : At t made x s) :
    Partial (machine E) ok t (runClient c)
      (fun _ s' => At t (.inl c.toCall :: made) x s') s := by
  cases c with
  | ref a => exact Partial.bind ((partial_call (plainCall_traderRef a).inner h).mono
      fun _ _ h => .ret h)
  | unref a => exact partial_call (closingCall_traderUnref a).inner h
  | sendPacket a hdr data =>
    exact Partial.bind ((partial_call (plainCall_traderSendPacket a hdr data).inner h).mono
      fun _ _ h => .ret h)
  | broadcast hdr data =>
    exact Partial.bind ((partial_call (plainCall_traderBroadcastPacket hdr data).inner h).mono
      fun _ _ h => .ret h)
  | sendAck a info =>
    exact Partial.bind ((partial_call (plainCall_traderSendAck a info).inner h).mono
      fun _ _ h => .ret h)
  | sendNack a =>
    exact Partial.bind ((partial_call (plainCall_traderSendNack a).inner h).mono
      fun _ _ h => .ret h)
  | account a c =>
    cases c with
    | increase y n => cases y <;> exact partial_call (innerCall_increaseAsset _ a n) h
    | decrease y n =>
      cases y <;> exact Partial.bind ((partial_call (innerCall_decreaseAsset _ a n) h).mono
        fun _ _ h => .ret h)

theorem partial_runClients {cs : List ClientCall} :
    ∀ {made : List (Call ⊕ ExchangeCall)} {s : State E}, At t made x s →
      Partial (machine E) ok t (runClients cs) (fun _ s' =>
        At t ((cs.map fun c => Sum.inl c.toCall).reverse ++ made) x s') s := by
  induction cs with
  | nil => exact fun h => .ret h
  | cons c cs ih =>
    intro made s h
    refine Partial.bind ((partial_runClient h).mono fun _ s' h' => ?_)
    refine (ih h').mono fun _ s'' h'' => ?_
    simpa using h''

/-- The end of a request: the status of the exchange, and the reply. -/
theorem partial_reply (hok : ∀ o e s, ok o e s → w.Follow o e s) (h : At t made x s)
    (orderid quantity : Option UInt32) {b : Bool} {a : Nat} {info : StatusInfo}
    (hinfo : info = { StatusInfo.ofBytes (w.junk statusSize) with
      orderid := orderid.getD (StatusInfo.ofBytes (w.junk statusSize)).orderid
      quantity := quantity.getD (StatusInfo.ofBytes (w.junk statusSize)).quantity }) :
    Partial (machine E) ok t (do
      let info ← exchangeGetStatus info
      replyIf b a info) (fun _ s' => ∃ x',
        At t (replyCalls b a (w.status orderid quantity x) ++ made) x' s') s := by
  refine Partial.bind (Partial.bind ((partial_exchange hok h).mono ?_))
  rintro _ s₁ ⟨rfl, _, h₁⟩
  refine .ret ?_
  subst hinfo
  cases b with
  | true =>
    exact Partial.bind ((partial_call (plainCall_traderSendAck a _).inner h₁).mono
      fun _ _ h₂ => .ret ⟨_, h₂⟩)
  | false =>
    exact Partial.bind ((partial_call (plainCall_traderSendNack a).inner h₁).mono
      fun _ _ h₂ => .ret ⟨_, h₂⟩)

/-- The account of trader `a`; a trader that does not exist has an empty one. -/
def State.account (s : State E) (a : Nat) : UInt32 × UInt32 := (s.accounts a).getD (0, 0)

theorem State.account_eq {a : Nat} {acc : UInt32 × UInt32} (h : s.accounts a = some acc) :
    s.account a = acc := by
  rw [account, h]
  rfl

section requests

variable (hok : ∀ o e s, ok o e s → w.Follow o e s) (h : At t made x s) {a : Nat}
  {payload : Option Payload}

include hok h

theorem partial_increaseRequest {y : Asset} :
    Partial (machine E) ok t (increaseRequest y a payload) (fun _ s' => ∃ bytes x',
      Loaded ok payload 4 bytes ∧ At t (replyCalls true a (w.status none none x) ++
        [.inl (.account a (.increase y (ntohl (fieldAt 0 bytes))))] ++ made) x' s') s := by
  refine Partial.bind (partial_loadPayload.mono ?_)
  rintro bytes _ ⟨rfl, hbytes⟩
  refine Partial.bind ((partial_call (innerCall_increaseAsset y a _) h).mono fun _ s₁ h₁ => ?_)
  refine Partial.bind ((partial_localStatus hok).mono ?_)
  rintro _ _ ⟨rfl, rfl⟩
  refine (partial_reply hok h₁ none none rfl).mono
    fun _ s₂ ⟨x', h₂⟩ => ⟨bytes, x', hbytes, ?_⟩
  rwa [List.append_assoc]

theorem partial_decreaseRequest {y : Asset} :
    Partial (machine E) ok t (decreaseRequest y a payload) (fun _ s' => ∃ bytes x',
      Loaded ok payload 4 bytes ∧
      At t (replyCalls (ntohl (fieldAt 0 bytes) ≤ y.of (s.account a)) a (w.status none none x) ++
        [.inl (.account a (.decrease y (ntohl (fieldAt 0 bytes))))] ++ made) x' s') s := by
  refine Partial.bind (partial_loadPayload.mono ?_)
  rintro bytes s₀ ⟨rfl, hbytes⟩
  refine Partial.bind fun r s₁ hr => ?_
  have h₁ := partial_call (innerCall_decreaseAsset y a _) h _ _ hr
  obtain ⟨acc, hacc, hres, _⟩ := partial_decreaseAsset _ _ hr
  refine Partial.bind ((partial_localStatus hok).mono ?_)
  rintro _ _ ⟨rfl, rfl⟩
  have hack : decide (r = 0) = decide (ntohl (fieldAt 0 bytes) ≤ y.of (State.account s₀ a)) := by
    rw [State.account_eq hacc]
    by_cases hle : ntohl (fieldAt 0 bytes) ≤ y.of acc
    · rw [AccountCall.perform_of_le hle] at hres
      simp [Value.int.inj hres, hle]
    · rw [AccountCall.perform_of_not_le hle] at hres
      simp [Value.int.inj hres, hle]
  rw [hack]
  refine (partial_reply hok h₁ none none rfl).mono
    fun _ s₂ ⟨x', h₂⟩ => ⟨bytes, x', hbytes, ?_⟩
  rwa [List.append_assoc]

theorem partial_statusRequest :
    Partial (machine E) ok t (statusRequest a) (fun _ s' => ∃ x',
      At t (replyCalls true a (w.status none none x) ++ made) x' s') s := by
  refine Partial.bind ((partial_localStatus hok).mono ?_)
  rintro _ _ ⟨rfl, rfl⟩
  exact partial_reply hok h none none rfl

theorem partial_postBuy {quantity price : UInt32} :
    Partial (machine E) ok t (exchangePostBuy a quantity price) (fun order s' =>
      order = (w.ask (.postBuy a quantity price) x).1.2 ∧
      At t (((w.ask (.postBuy a quantity price) x).1.1.map fun c => Sum.inl c.toCall).reverse ++
        [.inr (.postBuy a quantity price)] ++ made)
        (w.ask (.postBuy a quantity price) x).2 s') s := by
  refine Partial.bind ((partial_exchange hok h).mono ?_)
  rintro _ s₁ ⟨rfl, _, h₁⟩
  refine Partial.bind ((partial_runClients h₁).mono fun _ s₂ h₂ => .ret ⟨rfl, ?_⟩)
  simpa using h₂

theorem partial_postSell {quantity price : UInt32} :
    Partial (machine E) ok t (exchangePostSell a quantity price) (fun order s' =>
      order = (w.ask (.postSell a quantity price) x).1.2 ∧
      At t (((w.ask (.postSell a quantity price) x).1.1.map fun c => Sum.inl c.toCall).reverse ++
        [.inr (.postSell a quantity price)] ++ made)
        (w.ask (.postSell a quantity price) x).2 s') s := by
  refine Partial.bind ((partial_exchange hok h).mono ?_)
  rintro _ s₁ ⟨rfl, _, h₁⟩
  refine Partial.bind ((partial_runClients h₁).mono fun _ s₂ h₂ => .ret ⟨rfl, ?_⟩)
  simpa using h₂

/-- A request to buy or to sell, from what posting the order is known to do. -/
theorem partial_orderRequest {post : Nat → UInt32 → UInt32 → Code UInt32}
    {order : UInt32 → UInt32 → UInt32} {calls : UInt32 → UInt32 → List (Call ⊕ ExchangeCall)}
    {after : UInt32 → UInt32 → E.State}
    (hpost : ∀ q p, Partial (machine E) ok t (post a q p) (fun r s' =>
      r = order q p ∧ At t (calls q p ++ made) (after q p) s') s) :
    Partial (machine E) ok t (orderRequest post a payload) (fun _ s' => ∃ bytes x',
      Loaded ok payload 8 bytes ∧
      let q := ntohl (fieldAt 0 bytes)
      let p := ntohl (fieldAt 4 bytes)
      At t (replyCalls (order q p ≠ 0) a (w.status (some (order q p)) none (after q p)) ++
        calls q p ++ made) x' s') s := by
  refine Partial.bind (partial_loadPayload.mono ?_)
  rintro bytes _ ⟨rfl, hbytes⟩
  refine Partial.bind ((hpost _ _).mono ?_)
  rintro _ s₁ ⟨rfl, h₁⟩
  refine Partial.bind ((partial_localStatus hok).mono ?_)
  rintro _ _ ⟨rfl, rfl⟩
  refine (partial_reply hok h₁ (some _) none rfl).mono
    fun _ s₂ ⟨x', h₂⟩ => ⟨bytes, x', hbytes, ?_⟩
  simpa using h₂

theorem partial_cancelRequest :
    Partial (machine E) ok t (cancelRequest a payload) (fun _ s' => ∃ bytes x',
      Loaded ok payload 4 bytes ∧
      let r := w.ask (.cancel a (ntohl (fieldAt 0 bytes))) x
      At t (replyCalls (r.1.2.1 = 0) a
          (w.status none (some (r.1.2.2.getD (word32 (w.junk 4)))) r.2) ++
        (r.1.1.map fun c => Sum.inl c.toCall).reverse ++
          [.inr (.cancel a (ntohl (fieldAt 0 bytes)))] ++ made) x' s') s := by
  refine Partial.bind (partial_loadPayload.mono ?_)
  rintro bytes _ ⟨rfl, hbytes⟩
  refine Partial.bind ((partial_uninit hok).mono ?_)
  rintro _ _ ⟨rfl, rfl⟩
  refine Partial.bind (Partial.bind ((partial_exchange hok h).mono ?_))
  rintro _ s₁ ⟨rfl, _, h₁⟩
  refine Partial.bind ((partial_runClients h₁).mono fun _ s₂ h₂ => .ret ?_)
  refine Partial.bind ((partial_localStatus hok).mono ?_)
  rintro _ _ ⟨rfl, rfl⟩
  refine (partial_reply hok h₂ none (some (Option.getD _ _)) rfl).mono
    fun _ s₃ ⟨x', h₃⟩ => ⟨bytes, x', hbytes, ?_⟩
  simpa only [List.append_assoc, List.singleton_append] using h₃

/-- The calls made for a request, from the bytes that are loaded from the payload. -/
theorem partial_serveRequest {type : UInt8} :
    Partial (machine E) ok t (serveRequest a type payload) (fun _ s' => ∃ bytes x',
      Loaded ok payload (neededBytes type) bytes ∧
      At t (requestCalls w a (s.account a) type bytes x ++ made) x' s') s := by
  unfold serveRequest
  split_ifs with h0 h1 h2 h3 h4 h5 h6 h7
  · subst h0
    exact (partial_statusRequest hok h).mono fun _ s' ⟨x', h'⟩ =>
      ⟨[], x', Loaded.nil, h'⟩
  · subst h1
    exact partial_increaseRequest hok h
  · subst h2
    exact partial_decreaseRequest hok h
  · subst h3
    exact partial_increaseRequest hok h
  · subst h4
    exact partial_decreaseRequest hok h
  · subst h5
    refine (partial_orderRequest hok h fun q p => partial_postBuy hok h).mono
      fun _ s' ⟨bytes, x', hb, h'⟩ => ⟨bytes, x', hb, ?_⟩
    dsimp only at h'
    rw [← List.append_assoc (replyCalls _ _ _)] at h'
    exact h'
  · subst h6
    refine (partial_orderRequest hok h fun q p => partial_postSell hok h).mono
      fun _ s' ⟨bytes, x', hb, h'⟩ => ⟨bytes, x', hb, ?_⟩
    dsimp only at h'
    rw [← List.append_assoc (replyCalls _ _ _)] at h'
    exact h'
  · subst h7
    exact partial_cancelRequest hok h
  · have hneeded : neededBytes type = 0 := by simp [neededBytes, h1, h2, h3, h4, h5, h6, h7]
    have hcalls : requestCalls w a (s.account a) type [] x = [] := by
      simp [requestCalls, h0, h1, h2, h3, h4, h5, h6, h7]
    rw [hneeded]
    refine .ret ⟨[], x, Loaded.nil, ?_⟩
    rw [hcalls]
    exact h

end requests

end BourseServer
