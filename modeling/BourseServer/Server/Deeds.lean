import BourseServer.Server.Replies

/-!
# What is done for a request

A request of a client that is logged in asks for one operation, and is then replied to: the status
of the exchange is fetched, and an ACK or a NACK goes to the client. The exchange may call the
trader module on the way, and so write to the client too, but not after the reply.
-/
namespace BourseServer

open Concurrency Bytes

variable {E : Exchange} {ok : Condition (machine E)} {t a : Nat} {fd : Int} {s s' : State E}

/-! ## Deeds -/

/-- What the thread does for a packet: its own calls, the calls that the exchange makes while it
is called, and a NACK packet that the thread writes without a trader. -/
inductive Deed where
  | call (c : Call) (v : Value)
  | exchange (c : ExchangeCall) (r : ExchangeResult)
  | client (c : ClientCall) (v : Value)
  | nack
  deriving DecidableEq, Repr

namespace Deed

/-- What is recorded of it. -/
def doing : Deed → Option Doing
  | .call c v => some (.call c v)
  | .exchange c r => some (.exchange c r)
  | .client c v => some (.call c.toCall v)
  | .nack => none

/-- The reply to the client: ACK or NACK. -/
def reply : Deed → Option Bool
  | .call (.sendAck _ _) _ => some true
  | .call (.sendNack _) _ => some false
  | .nack => some false
  | _ => none

/-- The call of the trader module that the exchange makes. -/
def clientCall : Deed → Option ClientCall
  | .client c _ => some c
  | _ => none

end Deed

/-- The requests of a logged-in client, STATUS to CANCEL. -/
def PacketType.request : PacketType → Bool
  | .status | .deposit | .withdraw | .escrow | .release | .buy | .sell | .cancel => true
  | _ => false

def ClientCall.deeds (cs : List (ClientCall × Value)) : List Deed :=
  cs.map fun c => .client c.1 c.2

/-- In state `x` the exchange can answer `r` to the call `c`. -/
def Exchange.Replies (E : Exchange) (x : E.State) (c : ExchangeCall) (r : c.Reply) : Prop :=
  ∃ e, (E.act c e x).1 = r

/-- What a request of the client of trader `a` asks for, when its payload is `bytes` and the
exchange is in state `x`, and whether it has succeeded. The calls of the trader module that are
made for an order are those that the exchange has answered. -/
inductive Transaction (x : E.State) (a : Nat) (bytes : List UInt8) :
    PacketType → List Deed → Bool → Prop where
  | status : Transaction x a bytes .status [] true
  | deposit (v : Value) : Transaction x a bytes .deposit
      [.call (.account a (.increase .balance (ntohl (fieldAt 0 bytes)))) v] true
  | escrow (v : Value) : Transaction x a bytes .escrow
      [.call (.account a (.increase .inventory (ntohl (fieldAt 0 bytes)))) v] true
  | withdraw (r : Int) : Transaction x a bytes .withdraw
      [.call (.account a (.decrease .balance (ntohl (fieldAt 0 bytes)))) (.int r)] (r = 0)
  | release (r : Int) : Transaction x a bytes .release
      [.call (.account a (.decrease .inventory (ntohl (fieldAt 0 bytes)))) (.int r)] (r = 0)
  | buy {order : UInt32} {cs : List (ClientCall × Value)} :
      E.Replies x (.postBuy a (ntohl (fieldAt 0 bytes)) (ntohl (fieldAt 4 bytes)))
        (cs.map Prod.fst, order) →
      Transaction x a bytes .buy
        (.exchange (.postBuy a (ntohl (fieldAt 0 bytes)) (ntohl (fieldAt 4 bytes)))
          (.order order) :: ClientCall.deeds cs) (order ≠ 0)
  | sell {order : UInt32} {cs : List (ClientCall × Value)} :
      E.Replies x (.postSell a (ntohl (fieldAt 0 bytes)) (ntohl (fieldAt 4 bytes)))
        (cs.map Prod.fst, order) →
      Transaction x a bytes .sell
        (.exchange (.postSell a (ntohl (fieldAt 0 bytes)) (ntohl (fieldAt 4 bytes)))
          (.order order) :: ClientCall.deeds cs) (order ≠ 0)
  | cancel {r : Int} {q : Option UInt32} {cs : List (ClientCall × Value)} :
      E.Replies x (.cancel a (ntohl (fieldAt 0 bytes))) (cs.map Prod.fst, r, q) →
      Transaction x a bytes .cancel
        (.exchange (.cancel a (ntohl (fieldAt 0 bytes))) (.canceled r q) ::
          ClientCall.deeds cs) (r = 0)

/-- The reply to a request. -/
def answer (a : Nat) (ok : Bool) (info : StatusInfo) : Call :=
  if ok then .sendAck a (some info) else .sendNack a

theorem Transaction.replies {x : E.State} {bytes : List UInt8} {type : PacketType}
    {ds : List Deed} {ok : Bool} (h : Transaction x a bytes type ds ok) :
    ds.filterMap Deed.reply = [] ∧ type.request = true := by
  have hclients : ∀ cs, (ClientCall.deeds cs).filterMap Deed.reply = [] := by
    intro cs
    simp [ClientCall.deeds, List.filterMap_map, Function.comp_def, Deed.reply]
  cases h with
  | buy => exact ⟨hclients _, rfl⟩
  | sell => exact ⟨hclients _, rfl⟩
  | cancel => exact ⟨hclients _, rfl⟩
  | _ => exact ⟨rfl, rfl⟩

/-- What has been recorded of these deeds, newest first. -/
def record (new : List Deed) : List Doing := (new.filterMap Deed.doing).reverse

theorem record_append (new new' : List Deed) :
    record (new ++ new') = record new' ++ record new := by
  simp [record, List.filterMap_append]

theorem record_cons (d : Deed) (new : List Deed) : record (d :: new) = record new ++ record [d] :=
  record_append [d] new

/-! ## The books -/

/-- The fields of a trader other than its mutex. -/
def Trader.fields (tr : Trader) : Int × Int × UInt32 × UInt32 × CString :=
  (tr.ref, tr.fd, tr.balance, tr.inventory, tr.name)

/-- The traders, the table, the exchange and the registry are as they were. -/
structure SameBooks (s s' : State E) : Prop where
  traders : ∀ a, (s'.traders a).map Trader.fields = (s.traders a).map Trader.fields
  table : s'.allTraders = s.allTraders
  count : s'.count = s.count
  exchange : s'.exchange = s.exchange
  registry : s'.registry = s.registry

theorem SameBooks.refl (s : State E) : SameBooks s s := ⟨fun _ => rfl, rfl, rfl, rfl, rfl⟩

theorem SameBooks.trans {s₁ s₂ s₃ : State E} (h : SameBooks s₁ s₂) (h' : SameBooks s₂ s₃) :
    SameBooks s₁ s₃ where
  traders a := (h'.traders a).trans (h.traders a)
  table := h'.table.trans h.table
  count := h'.count.trans h.count
  exchange := h'.exchange.trans h.exchange
  registry := h'.registry.trans h.registry

/-- The calls `cs` of the exchange, made when the traders and the table are those of `s`, write
`more` to connection `fd`. -/
def Wrote (t : Nat) (fd : Int) (s : State E) (cs : List ClientCall) (more : List UInt8) : Prop :=
  ∃ (x : E.State) (u u' : State E), SameBooks { s with exchange := x } u ∧
    u.output fd = s.output fd ∧ Runs (machine E) (reliable E).ok t (runClients cs) u () u' ∧
    u'.output fd = (u.output fd).map (· ++ more)

theorem wrote_nil : Wrote t fd s [] [] :=
  ⟨s.exchange, s, s, .refl s, rfl, .ret _ _, by simp⟩

theorem Wrote.of_same {s₁ : State E} {cs : List ClientCall} {more : List UInt8}
    (h : Wrote t fd s₁ cs more) (hbooks : SameBooks s s₁) (hout : s₁.output fd = s.output fd) :
    Wrote t fd s cs more := by
  obtain ⟨x, u, u', hu, hout', hruns, hmore⟩ := h
  have hx : SameBooks { s with exchange := x } { s₁ with exchange := x } :=
    { hbooks with exchange := rfl }
  exact ⟨x, u, u', hx.trans hu, hout'.trans hout, hruns, hmore⟩

/-! ## Calls and replies -/

/-- The thread is in no function, has done `ds`, and has written `out` to its client, who is
logged in as trader `a`. -/
structure Talks (t : Nat) (fd : Int) (a : Nat) (ds : List Doing) (out : List UInt8)
    (s : State E) : Prop where
  did : Did t ds s
  reach : Reaches fd a s
  output : s.output fd = some out

variable {ds : List Doing} {out : List UInt8}

theorem Talks.partial_answers {α : Type} {p : Code α} {c : Call} {value : α → Value}
    (hp : Answers (fun o => o.inner = true) p c value) (hc : Calm p) (h : Talks t fd a ds out s) :
    Partial (machine E) ok t p
      (fun r s' => Talks t fd a (.call c (value r) :: ds) out s') s := by
  refine (((hp.partial_did h.did).and (hc.partial_reaches h.reach)).and
    (hc.partial_output fd s)).mono ?_
  rintro r s' ⟨⟨hdid, hreach⟩, hout⟩
  exact ⟨hdid, hreach, hout.trans h.output⟩

theorem Talks.partial_calls {α : Type} {p : Code α} {c : Call} (hp : InnerCall p c) (hc : Calm p)
    (h : Talks t fd a ds out s) :
    Partial (machine E) ok t p (fun _ s' => ∃ v, Talks t fd a (.call c v :: ds) out s') s := by
  obtain ⟨value, body, rfl, hb⟩ := hp
  refine (h.partial_answers ⟨body, rfl, hb⟩ hc).mono ?_
  exact fun r s' h' => ⟨value r, h'⟩

/-- A call that may write to the client. -/
theorem Talks.partial_sends {α : Type} {p : Code α} {c : Call} (hp : InnerCall p c)
    (hs : Steady p) (h : Talks t fd a ds out s) :
    Partial (machine E) ok t p
      (fun _ s' => ∃ v more, Talks t fd a (.call c v :: ds) (out ++ more) s') s := by
  refine (((hp.partial_did h.did).and (hs.partial_reaches h.reach)).and
    (hs.partial_grows fd s)).mono ?_
  rintro r s' ⟨⟨⟨v, hdid⟩, hreach⟩, more, hout⟩
  refine ⟨v, more, hdid, hreach, ?_⟩
  rw [hout, h.output]
  rfl

theorem Talks.partial_of_calm {α : Type} {p : Code α} (hc : Calm p)
    (hp : p.Uses (fun o : Op => o.inner = true) Proc.Transfer) (h : Talks t fd a ds out s) :
    Partial (machine E) ok t p (fun _ s' => Talks t fd a ds out s') s := by
  refine (((partial_did_of_uses hp h.did).and (hc.partial_reaches h.reach)).and
    (hc.partial_output fd s)).mono ?_
  rintro r s' ⟨⟨hdid, hreach⟩, hout⟩
  exact ⟨hdid, hreach, hout.trans h.output⟩

/-- The exchange answers, and nothing else changes. -/
theorem partial_exchange_replies {c : ExchangeCall} :
    Partial (machine E) ok t (exchange c) (fun r s' => E.Replies s.exchange c r ∧
      SameBooks { s with exchange := s'.exchange } s') s := by
  apply Partial.act
  intro e r s' he _
  simp only [exec] at he
  split at he
  · cases he
    exact ⟨⟨_, rfl⟩, fun _ => rfl, rfl, rfl, rfl, rfl⟩
  · cases he

theorem Talks.partial_exchange {c : ExchangeCall} (h : Talks t fd a ds out s) :
    Partial (machine E) ok t (exchange c)
      (fun r s' => Talks t fd a (.exchange c (c.result r) :: ds) out s') s := by
  have hc : Calm (exchange c) := Prog.uses_act rfl
  refine (((partial_exchange_did h.did).and (hc.partial_reaches h.reach)).and
    (hc.partial_output fd s)).mono ?_
  rintro r s' ⟨⟨hdid, hreach⟩, hout⟩
  exact ⟨hdid, hreach, hout.trans h.output⟩

theorem Talks.partial_sendAck {info : Option StatusInfo} (h : Talks t fd a ds out s) :
    Partial (machine E) (reliable E).ok t (traderSendAck a info) (fun _ s' => ∃ v bytes,
      IsReply true bytes ∧ Talks t fd a (.call (.sendAck a info) v :: ds) (out ++ bytes) s') s := by
  refine ((((plainCall_traderSendAck a info).inner.partial_did h.did).and
    ((steady_traderSendAck info).partial_reaches h.reach)).and
    (partial_traderSendAck_reply h.reach h.output)).mono ?_
  rintro _ s' ⟨⟨⟨v, hdid⟩, hreach⟩, bytes, hbytes, hout⟩
  exact ⟨v, bytes, hbytes, hdid, hreach, hout⟩

theorem Talks.partial_sendNack (h : Talks t fd a ds out s) :
    Partial (machine E) (reliable E).ok t (traderSendNack a) (fun _ s' => ∃ v bytes,
      IsReply false bytes ∧ Talks t fd a (.call (.sendNack a) v :: ds) (out ++ bytes) s') s := by
  refine ((((plainCall_traderSendNack a).inner.partial_did h.did).and
    (steady_traderSendNack.partial_reaches h.reach)).and
    (partial_traderSendNack_reply h.reach h.output)).mono ?_
  rintro _ s' ⟨⟨⟨v, hdid⟩, hreach⟩, bytes, hbytes, hout⟩
  exact ⟨v, bytes, hbytes, hdid, hreach, hout⟩

/-- The end of a request. -/
theorem Talks.partial_answered (h : Talks t fd a ds out s) {f : StatusInfo → StatusInfo}
    {b : Bool} :
    Partial (machine E) (reliable E).ok t (do
      let info ← localStatus
      let info ← exchangeGetStatus (f info)
      replyIf b a info) (fun _ s' => ∃ info v bytes, IsReply b bytes ∧
        Talks t fd a (.call (answer a b info) v :: .exchange .getStatus .void :: ds)
          (out ++ bytes) s') s := by
  apply Partial.bind
  refine (h.partial_of_calm (p := localStatus) ⟨rfl, fun _ => trivial⟩
    ⟨rfl, fun _ => trivial⟩).mono ?_
  intro info s₁ h₁
  apply Partial.bind
  apply Partial.bind
  refine h₁.partial_exchange.mono ?_
  intro r s₂ h₂
  apply Partial.ret
  cases b with
  | true =>
    apply Partial.bind
    refine h₂.partial_sendAck.mono ?_
    rintro _ s₃ ⟨v, bytes, hbytes, h₃⟩
    exact .ret ⟨_, v, bytes, hbytes, h₃⟩
  | false =>
    apply Partial.bind
    refine h₂.partial_sendNack.mono ?_
    rintro _ s₃ ⟨v, bytes, hbytes, h₃⟩
    exact .ret ⟨f info, v, bytes, hbytes, h₃⟩

/-! ## The calls of the exchange -/

/-- The call of another part of the server is that of one function of the trader module. -/
theorem partial_runClient_of_call (c : ClientCall) {Q : State E → Prop}
    (h : ∀ {α : Type} {p : Code α}, InnerCall p c.toCall → Steady p →
      Partial (machine E) ok t p (fun _ s' => Q s') s) :
    Partial (machine E) ok t (runClient c) (fun _ s' => Q s') s := by
  cases c with
  | ref a =>
    exact Partial.bind ((h (plainCall_traderRef a).inner calm_traderRef.steady).mono
      fun _ _ h => .ret h)
  | unref a => exact h (closingCall_traderUnref a).inner calm_traderUnref.steady
  | sendPacket a hdr data =>
    exact Partial.bind ((h (plainCall_traderSendPacket a hdr data).inner
      (steady_traderSendPacket hdr data)).mono fun _ _ h => .ret h)
  | broadcast hdr data =>
    exact Partial.bind ((h (plainCall_traderBroadcastPacket hdr data).inner
      (steady_traderBroadcastPacket hdr data)).mono fun _ _ h => .ret h)
  | sendAck a info =>
    exact Partial.bind ((h (plainCall_traderSendAck a info).inner
      (steady_traderSendAck info)).mono fun _ _ h => .ret h)
  | sendNack a =>
    exact Partial.bind ((h (plainCall_traderSendNack a).inner steady_traderSendNack).mono
      fun _ _ h => .ret h)
  | account a c =>
    cases c with
    | increase y n =>
      cases y <;> exact h (innerCall_increaseAsset _ a n) calm_increaseAsset.steady
    | decrease y n =>
      cases y <;> exact Partial.bind ((h (innerCall_decreaseAsset _ a n)
        calm_decreaseAsset.steady).mono fun _ _ h => .ret h)

theorem Talks.partial_runClients {cs : List ClientCall} :
    ∀ {ds : List Doing} {out : List UInt8} {s : State E}, Talks t fd a ds out s →
      Partial (machine E) ok t (runClients cs) (fun _ s' => ∃ made more,
        made.map Prod.fst = cs ∧
          Talks t fd a (record (ClientCall.deeds made) ++ ds) (out ++ more) s') s := by
  induction cs with
  | nil =>
    intro ds out s h
    refine .ret ⟨[], [], rfl, ?_⟩
    rw [List.append_nil]
    exact h
  | cons c cs ih =>
    intro ds out s h
    apply Partial.bind
    refine Partial.mono (partial_runClient_of_call c fun hp hs => h.partial_sends hp hs) ?_
    rintro _ s₁ ⟨v, more, h₁⟩
    refine (ih h₁).mono ?_
    rintro _ s₂ ⟨made, more', hmade, h₂⟩
    refine ⟨(c, v) :: made, more ++ more', by rw [List.map_cons, hmade], ?_⟩
    rw [ClientCall.deeds, List.map_cons, record_cons, List.append_assoc, ← List.append_assoc out]
    exact h₂

/-- Posting or canceling an order: the call of the exchange, and the calls that it makes. -/
theorem Talks.partial_exchanged (h : Talks t fd a ds out s) {c : ExchangeCall} {β : Type}
    {f : c.Reply → β} {g : c.Reply → List ClientCall} :
    Partial (machine E) (reliable E).ok t (do
      let r ← exchange c
      runClients (g r)
      pure (f r)) (fun x s' => ∃ r made more, x = f r ∧ E.Replies s.exchange c r ∧
        made.map Prod.fst = g r ∧ Wrote t fd s (g r) more ∧
        Talks t fd a (record (.exchange c (c.result r) :: ClientCall.deeds made) ++ ds)
          (out ++ more) s') s := by
  apply Partial.bind
  refine (h.partial_exchange.and partial_exchange_replies).mono ?_
  rintro r s₁ ⟨h₁, hreplies, hbooks⟩
  apply Partial.bind
  refine (h₁.partial_runClients.and fun _ _ hr => hr).mono ?_
  rintro _ s₂ ⟨⟨made, more, hmade, h₂⟩, hruns⟩
  have hwrote : Wrote t fd s (g r) more := by
    refine ⟨s₁.exchange, s₁, s₂, hbooks, h₁.output.trans h.output.symm, hruns, ?_⟩
    rw [h₂.output, h₁.output]
    rfl
  refine .ret ⟨r, made, more, rfl, hreplies, hmade, hwrote, ?_⟩
  rw [record_cons, List.append_assoc]
  exact h₂

/-! ## Requests -/

/-- The thread has fulfilled a request that it has begun in state `s₀`. -/
def Transacted (t : Nat) (fd : Int) (a : Nat) (type : PacketType) (bytes : List UInt8)
    (ds : List Doing) (out : List UInt8) (s₀ : State E) (ok : Bool) (s : State E) : Prop :=
  ∃ new more, Transaction s₀.exchange a bytes type new ok ∧
    Wrote t fd s₀ (new.filterMap Deed.clientCall) more ∧
      Talks t fd a (record new ++ ds) (out ++ more) s

/-- The thread has fulfilled a request that it has begun in state `s₀`, and has replied. -/
def Fulfilled (t : Nat) (fd : Int) (a : Nat) (type : PacketType) (bytes : List UInt8)
    (ds : List Doing) (out : List UInt8) (s₀ s : State E) : Prop :=
  ∃ new b info v more reply, Transaction s₀.exchange a bytes type new b ∧
    Wrote t fd s₀ (new.filterMap Deed.clientCall) more ∧ IsReply b reply ∧
    Talks t fd a (record (new ++ [.exchange .getStatus .void, .call (answer a b info) v]) ++ ds)
      (out ++ (more ++ reply)) s

theorem Transacted.partial_fulfilled {type : PacketType} {bytes : List UInt8} {b : Bool}
    {f : StatusInfo → StatusInfo} {s₀ : State E} (h : Transacted t fd a type bytes ds out s₀ b s) :
    Partial (machine E) (reliable E).ok t (do
      let info ← localStatus
      let info ← exchangeGetStatus (f info)
      replyIf b a info) (fun _ s' => Fulfilled t fd a type bytes ds out s₀ s') s := by
  obtain ⟨new, more, hnew, hmore, h⟩ := h
  refine h.partial_answered.mono ?_
  rintro _ s' ⟨info, v, reply, hreply, h'⟩
  refine ⟨new, b, info, v, more, reply, hnew, hmore, hreply, ?_⟩
  rw [record_append, ← List.append_assoc out]
  exact h'

/-- An operation that does not call the exchange. -/
theorem transacted_of_talks {type : PacketType} {bytes : List UInt8} {new : List Deed} {b : Bool}
    {s₀ : State E} (hnew : Transaction s₀.exchange a bytes type new b)
    (hcalls : new.filterMap Deed.clientCall = []) (h : Talks t fd a (record new ++ ds) out s) :
    Transacted t fd a type bytes ds out s₀ b s :=
  ⟨new, [], hnew, hcalls ▸ wrote_nil, by rwa [List.append_nil]⟩

theorem filterMap_clientCall {made : List (ClientCall × Value)} {c : ExchangeCall}
    {r : ExchangeResult} :
    (Deed.exchange c r :: ClientCall.deeds made).filterMap Deed.clientCall = made.map Prod.fst := by
  rw [List.filterMap_cons_none rfl, ClientCall.deeds, List.filterMap_map]
  exact congrFun (List.filterMap_eq_map' (f := Prod.fst)) made

section requests

variable {payload : Option Payload} {b : List UInt8} (h : Talks t fd a ds out s)

include h

theorem partial_statusRequest_talks :
    Partial (machine E) (reliable E).ok t (statusRequest a)
      (fun _ s' => Fulfilled t fd a .status b ds out s s') s :=
  (transacted_of_talks .status rfl h).partial_fulfilled (f := id)

theorem partial_increaseRequest_talks {y : Asset} {type : PacketType}
    (hb : ∀ bytes, Loaded (reliable E).ok payload 4 bytes → bytes = b)
    (htype : ∀ v, Transaction s.exchange a b type
      [.call (.account a (.increase y (ntohl (fieldAt 0 b)))) v] true) :
    Partial (machine E) (reliable E).ok t (increaseRequest y a payload)
      (fun _ s' => Fulfilled t fd a type b ds out s s') s := by
  apply Partial.bind
  refine partial_loadPayload.mono ?_
  rintro bytes s₁ ⟨hs₁, hbytes⟩
  subst hs₁
  rw [hb bytes hbytes]
  apply Partial.bind
  refine (h.partial_calls (innerCall_increaseAsset y a _) calm_increaseAsset).mono ?_
  rintro _ s₂ ⟨v, h₂⟩
  exact (transacted_of_talks (htype v) rfl h₂).partial_fulfilled (f := id)

theorem partial_decreaseRequest_talks {y : Asset} {type : PacketType}
    (hb : ∀ bytes, Loaded (reliable E).ok payload 4 bytes → bytes = b)
    (htype : ∀ r : Int, Transaction s.exchange a b type
      [.call (.account a (.decrease y (ntohl (fieldAt 0 b)))) (.int r)] (r = 0)) :
    Partial (machine E) (reliable E).ok t (decreaseRequest y a payload)
      (fun _ s' => Fulfilled t fd a type b ds out s s') s := by
  apply Partial.bind
  refine partial_loadPayload.mono ?_
  rintro bytes s₁ ⟨hs₁, hbytes⟩
  subst hs₁
  rw [hb bytes hbytes]
  apply Partial.bind
  have hanswers : Answers (fun o => o.inner = true) (decreaseAsset y a (ntohl (fieldAt 0 b)))
      (.account a (.decrease y (ntohl (fieldAt 0 b)))) .int :=
    (answers_decreaseAsset y a _).mono fun o ho => (Bool.and_eq_true_iff.mp ho).1
  refine (h.partial_answers hanswers calm_decreaseAsset).mono ?_
  intro r s₂ h₂
  exact (transacted_of_talks (htype r) rfl h₂).partial_fulfilled (f := id)

theorem partial_orderRequest_talks {post : Nat → UInt32 → UInt32 → Code UInt32}
    {type : PacketType} (hb : ∀ bytes, Loaded (reliable E).ok payload 8 bytes → bytes = b)
    (hpost : Partial (machine E) (reliable E).ok t
      (post a (ntohl (fieldAt 0 b)) (ntohl (fieldAt 4 b)))
      (fun order s' => Transacted t fd a type b ds out s (order ≠ 0) s') s) :
    Partial (machine E) (reliable E).ok t (orderRequest post a payload)
      (fun _ s' => Fulfilled t fd a type b ds out s s') s := by
  apply Partial.bind
  refine partial_loadPayload.mono ?_
  rintro bytes s₁ ⟨hs₁, hbytes⟩
  subst hs₁
  rw [hb bytes hbytes]
  apply Partial.bind
  refine hpost.mono ?_
  intro order s₂ h₂
  exact h₂.partial_fulfilled (f := fun info => { info with orderid := order })

theorem partial_postBuy_talks :
    Partial (machine E) (reliable E).ok t
      (exchangePostBuy a (ntohl (fieldAt 0 b)) (ntohl (fieldAt 4 b)))
      (fun order s' => Transacted t fd a .buy b ds out s (order ≠ 0) s') s := by
  refine (h.partial_exchanged (c := .postBuy ..) (f := Prod.snd) (g := Prod.fst)).mono ?_
  rintro order s' ⟨⟨calls, order⟩, made, more, rfl, hreplies, rfl, hwrote, h'⟩
  exact ⟨_, more, .buy hreplies, by rwa [filterMap_clientCall], h'⟩

theorem partial_postSell_talks :
    Partial (machine E) (reliable E).ok t
      (exchangePostSell a (ntohl (fieldAt 0 b)) (ntohl (fieldAt 4 b)))
      (fun order s' => Transacted t fd a .sell b ds out s (order ≠ 0) s') s := by
  refine (h.partial_exchanged (c := .postSell ..) (f := Prod.snd) (g := Prod.fst)).mono ?_
  rintro order s' ⟨⟨calls, order⟩, made, more, rfl, hreplies, rfl, hwrote, h'⟩
  exact ⟨_, more, .sell hreplies, by rwa [filterMap_clientCall], h'⟩

theorem partial_cancelRequest_talks
    (hb : ∀ bytes, Loaded (reliable E).ok payload 4 bytes → bytes = b) :
    Partial (machine E) (reliable E).ok t (cancelRequest a payload)
      (fun _ s' => Fulfilled t fd a .cancel b ds out s s') s := by
  apply Partial.bind
  refine partial_loadPayload.mono ?_
  rintro bytes s₁ ⟨hs₁, hbytes⟩
  subst hs₁
  rw [hb bytes hbytes]
  apply Partial.bind
  refine partial_uninit_same.mono ?_
  rintro junk s rfl
  apply Partial.bind
  refine (h.partial_exchanged (c := .cancel ..) (f := fun r => (r.2.1, r.2.2.getD (word32 junk)))
    (g := fun r => r.1)).mono ?_
  rintro _ s₃ ⟨⟨calls, r, q⟩, made, more, rfl, hreplies, rfl, hwrote, h₃⟩
  have hdone : Transacted t fd a .cancel b ds out s (r = 0) s₃ := by
    refine ⟨_, more, .cancel (q := q) hreplies, ?_, h₃⟩
    rwa [filterMap_clientCall]
  exact hdone.partial_fulfilled (f := fun info => { info with quantity := q.getD (word32 junk) })

/-- A request is fulfilled and replied to, and nothing is done for any other packet. -/
theorem partial_serveRequest_talks {type : UInt8}
    (hb : neededBytes type ≠ 0 → ∀ bytes,
      Loaded (reliable E).ok payload (neededBytes type) bytes → bytes = b) :
    Partial (machine E) (reliable E).ok t (serveRequest a type payload) (fun _ s' =>
      (∃ kind : PacketType, type = kind.code ∧ Fulfilled t fd a kind b ds out s s') ∨
        (∀ kind : PacketType, kind.request = true → type ≠ kind.code) ∧ s' = s) s := by
  have hkind : ∀ (kind : PacketType) {p : Code Unit}, type = kind.code →
      Partial (machine E) (reliable E).ok t p (fun _ s' => Fulfilled t fd a kind b ds out s s') s →
      Partial (machine E) (reliable E).ok t p (fun _ s' =>
        (∃ kind : PacketType, type = kind.code ∧ Fulfilled t fd a kind b ds out s s') ∨
          (∀ kind : PacketType, kind.request = true → type ≠ kind.code) ∧ s' = s) s :=
    fun kind p htype hp => hp.mono fun _ s' h' => .inl ⟨kind, htype, h'⟩
  unfold serveRequest
  split_ifs with h0 h1 h2 h3 h4 h5 h6 h7
  · exact hkind .status h0 (partial_statusRequest_talks h)
  · subst h1
    exact hkind .deposit rfl (partial_increaseRequest_talks h (hb (by decide)) .deposit)
  · subst h2
    exact hkind .withdraw rfl (partial_decreaseRequest_talks h (hb (by decide)) .withdraw)
  · subst h3
    exact hkind .escrow rfl (partial_increaseRequest_talks h (hb (by decide)) .escrow)
  · subst h4
    exact hkind .release rfl (partial_decreaseRequest_talks h (hb (by decide)) .release)
  · subst h5
    exact hkind .buy rfl (partial_orderRequest_talks h (hb (by decide)) (partial_postBuy_talks h))
  · subst h6
    exact hkind .sell rfl
      (partial_orderRequest_talks h (hb (by decide)) (partial_postSell_talks h))
  · subst h7
    exact hkind .cancel rfl (partial_cancelRequest_talks h (hb (by decide)))
  · refine .ret (.inr ⟨?_, rfl⟩)
    intro kind hkind htype
    cases kind <;> contradiction

end requests

end BourseServer
