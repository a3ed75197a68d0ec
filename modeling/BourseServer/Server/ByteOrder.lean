import BourseServer.Server.PayloadOrigin

/-!
# The byte order of an acknowledgement

The balance and the inventory go into an acknowledgement in network byte order, while the order
id and the canceled quantity go into it as the host has them. A client that decodes all fields in
the same way learns the right id or quantity if its bytes read the same in both directions.
-/
namespace BourseServer

open Concurrency Bytes

variable {E : Exchange} {ok : Condition (machine E)} {G : Regime (machine E)} {t a : Nat}
  {fd : Int} {s : State E} {α : Type}

/-! ## What the exchange has answered -/

/-- The word in an answer that a client is to learn: an order id that is not 0, or the quantity
of a cancellation that succeeded. -/
def ExchangeResult.word : ExchangeResult → Option UInt32
  | .void => none
  | .order id => if id = 0 then none else some id
  | .canceled result quantity => if result = 0 then quantity else none

/-- The answers that the exchange has given to thread `t` and that have such a word, newest
first. -/
def answers (t : Nat) (events : List Event) : List ExchangeResult :=
  events.filterMap fun
    | .exchanged u _ x => if u = t ∧ x.word.isSome then some x else none
    | _ => none

theorem exec_answers {o : Op} {e : Choice E} {s s' : State E} {r : o.Reply}
    (ho : o.writesExchange = false) (h : exec t o e s = .done r s') :
    answers t s'.hist.events = answers t s.hist.events := by
  cases hw : o.writesEvents with
  | false => rw [(exec_frame h).events hw]
  | true =>
    cases o with
    | enter c =>
      cases h
      simp [History.enter, answers]
    | leave v =>
      cases h
      unfold History.leave
      split <;> simp [answers]
    | lock a =>
      obtain ⟨tr, m, _, _, rfl⟩ := exec_lock h
      simp [History.acquire, answers]
    | exchange c => cases ho
    | _ => cases hw

theorem Built.partial_answers {p : Code α} (hp : Inner p) (s : State E) :
    Partial (machine E) ok t p
      (fun _ s' => answers t s'.hist.events = answers t s.hist.events) s := by
  induction hp generalizing s with
  | leaf hu =>
    refine Partial.of_uses (I := bourse) (M := machine E)
      (R := fun s s' : State E => answers t s'.hist.events = answers t s.hist.events)
      (fun _ => rfl) (fun h h' => Eq.trans h' h) ?_ ?_ hu
    · exact fun p hp => uses_transfer hp (fun _ _ => rfl) fun _ _ => rfl
    · refine fun o e s r s' ho he _ => exec_answers (o := o) (e := e) ?_ he
      cases o <;> first | rfl | cases ho
  | bind _ _ ihp ihf =>
    exact Partial.bind ((ihp s).mono fun a s' h => (ihf a s').mono fun b s'' h' => h'.trans h)
  | @scope _ c value p _ ih =>
    refine Partial.scope ((ih _).mono fun r s' h => ?_)
    have henter := exec_answers (E := E) (t := t) (o := .enter c) (e := .tick) (s := s) rfl rfl
    have hleave := exec_answers (E := E) (t := t) (o := .leave (value r)) (e := .tick) (s := s')
      rfl rfl
    exact hleave.trans (h.trans henter)

/-! ## Sending -/

/-- No action opens a connection. -/
theorem exec_closed {o : Op} {e : Choice E} {s s' : State E} {r : o.Reply}
    (h : exec t o e s = .done r s') (hc : s.conns fd = none) : s'.conns fd = none := by
  have hother : ∀ {d : Int} {c : Conn} (v : Option Conn), s.conns d = some c →
      (s.setConn d v).conns fd = none := by
    intro d c v hd
    have hne : fd ≠ d := by
      rintro rfl
      rw [hc] at hd
      cases hd
    exact (Function.update_of_ne hne ..).trans hc
  cases o
  case read d n =>
    rcases execRead_conns h with rfl | ⟨c, k, hd, rfl⟩
    · exact hc
    · exact hother _ hd
  case write d bs =>
    rcases execWrite_conns h with rfl | ⟨c, k, hd, rfl⟩
    · exact hc
    · exact hother _ hd
  case close d =>
    simp only [exec] at h
    split at h
    · cases h
    · cases h
      exact hother _ (by assumption)
  case shutdown d =>
    simp only [exec] at h
    split at h
    · cases h
      exact hc
    · cases h
      exact hother _ (by assumption)
  all_goals
    have hframe := (exec_frame h).conns rfl
    rw [hframe, hc]

/-- A transfer leaves the traders alone and opens no connection. -/
theorem partial_protoSendPacket_frame {hdr : PacketHeader} {data : List UInt8} (d : Int) :
    Partial (machine E) ok t (protoSendPacket fd hdr data)
      (fun _ s' => s'.traders = s.traders ∧ (s.conns d = none → s'.conns d = none)) s := by
  refine (built_protoSendPacket (P := fun o => o.writesTraders = false) rfl fd hdr
    data).partial_of_step
      (R := fun s s' => s'.traders = s.traders ∧ (s.conns d = none → s'.conns d = none))
      (fun _ => ⟨rfl, id⟩) (fun h h' => ⟨h'.1.trans h.1, fun hc => h'.2 (h.2 hc)⟩)
      (fun _ _ => rfl) (fun _ _ => rfl) ?_ (fun _ _ => ⟨rfl, id⟩) s
  refine fun o e s r s' ho he _ => ⟨(exec_frame he).traders ?_, exec_closed he⟩
  rcases ho with ho | ho
  · exact ho
  · cases o <;> first | rfl | cases ho

/-- The last bytes that were sent to the client of trader `a` are `data`. -/
def Sent (a : Nat) (data : List UInt8) (s : State E) : Prop :=
  ∀ tr c, s.traders a = some tr → s.conns tr.fd = some c → ∃ front, c.output = front ++ data

theorem partial_traderSendPacket (hG : Sending G) {hdr : PacketHeader} {data : List UInt8}
    (hlen : data.length = hdr.payloadSize) :
    Partial (machine E) G.ok t (traderSendPacket a hdr data) (fun _ => Sent a data) s := by
  refine Partial.scope (Partial.bind fun _ s₁ _ => ?_)
  refine Partial.bind (Partial.act fun e r s₂ he _ => ?_)
  obtain ⟨tr₁, htr₁, rfl, rfl⟩ := exec_load (t := t) (e := e) he
  refine Partial.bind fun r s₃ hruns => ?_
  obtain ⟨htraders, hclosed⟩ := partial_protoSendPacket_frame tr₁.fd _ _ hruns
  have hsent : ∀ c, State.conns s₃ tr₁.fd = some c → ∃ front, c.output = front ++ data := by
    intro c hc
    cases hopen : State.conns s₂ tr₁.fd with
    | none =>
      rw [hclosed hopen] at hc
      cases hc
    | some c₀ =>
      obtain ⟨sec, nsec, _, rfl⟩ := (total_protoSendPacket hG hopen).of_runs hruns
      obtain rfl := Option.some.inj ((State.setConn_conns ..).symm.trans hc)
      exact ⟨_, by rw [List.take_of_length_le hlen.le, ← List.append_assoc]⟩
  obtain ⟨sent, hdr'⟩ := r
  have htr₃ : State.traders s₃ a = some tr₁ := by rw [htraders, htr₁]
  dsimp only
  split_ifs
  · refine .ret fun tr' c htr' hc => ?_
    obtain rfl := Option.some.inj (htr₃.symm.trans htr')
    exact hsent c hc
  · refine Partial.bind (Partial.act fun e r s₄ he _ => .ret fun tr' c htr' hc => ?_)
    obtain ⟨tr₄, htr₄, rfl⟩ := exec_unlock (t := t) (e := e) he
    obtain rfl := Option.some.inj (htr₃.symm.trans htr₄)
    obtain rfl : { tr₁ with mutex := tr₁.mutex.unlock t } = tr' := by
      simpa [State.setTrader] using htr'
    exact hsent c hc

/-- The last bytes that were sent to the client of trader `a` are the status `info` with the
balance and the inventory of the account. -/
def Acked (a : Nat) (info : StatusInfo) (s : State E) : Prop :=
  ∀ tr c, s.traders a = some tr → s.conns tr.fd = some c → ∃ front, c.output = front ++
    { info with balance := htonl tr.balance, inventory := htonl tr.inventory }.toBytes

theorem partial_traderSendAck (hG : Sending G) {info : StatusInfo} :
    Partial (machine E) G.ok t (traderSendAck a (some info)) (fun _ => Acked a info) s := by
  refine Partial.scope (Partial.bind (Partial.act fun e junk s₁ he _ => ?_))
  obtain rfl : s₁ = { s with hist := s.hist.enter t (.sendAck a (some info)) } := by
    simp only [exec] at he
    repeat' split at he
    all_goals cases he
    rfl
  refine Partial.bind (Partial.act fun e r s₂ he _ => ?_)
  obtain ⟨tr, htr, rfl, rfl⟩ := exec_load (t := t) (e := e) he
  refine Partial.bind (Partial.act fun e r s₂ he _ => ?_)
  obtain ⟨tr', htr', rfl, rfl⟩ := exec_load (t := t) (e := e) he
  obtain rfl := Option.some.inj (htr.symm.trans htr')
  refine Partial.bind ((Partial.and (partial_traderSendPacket hG ?_)
    ((plainCall_traderSendPacket a _ _).built.partial_accounts _)).mono ?_)
  · change _ = (ntohs (htons (UInt16.ofNat statusSize))).toNat
    rw [StatusInfo.length_toBytes, ntohs_htons]
    rfl
  · rintro _ s₃ ⟨hsent, hacc⟩
    refine .ret fun tr₃ c htr₃ hc => ?_
    have haccount : some tr₃.account = some tr.account := by
      have h := congrFun hacc a
      have htr₃' : State.traders s₃ a = some tr₃ := htr₃
      have htr' : s.traders a = some tr := htr
      rwa [State.accounts, State.accounts, htr₃', htr'] at h
    obtain ⟨hbalance, hinventory⟩ := Prod.mk.inj (Option.some.inj haccount)
    rw [hbalance, hinventory]
    exact hsent tr₃ c htr₃ hc

/-! ## Requests -/

/-- The field of the status that holds the word of an answer. -/
def StatusInfo.answer (info : StatusInfo) : ExchangeResult → UInt32
  | .void => 0
  | .order _ => info.orderid
  | .canceled .. => info.quantity

/-- Since the events `past`, every answer with a word has been followed by an acknowledgement
with that word as the host has it. -/
def Learns (t a : Nat) (past : List Event) (s : State E) : Prop :=
  ∃ new, answers t s.hist.events = new ++ answers t past ∧
    ∀ x ∈ new, ∃ info, x.word = some (info.answer x) ∧ Acked a info s

theorem learns_of_eq {past : List Event} (h : answers t s.hist.events = answers t past) :
    Learns t a past s :=
  ⟨[], h, fun _ hx => absurd hx List.not_mem_nil⟩

theorem partial_exchange_answers {c : ExchangeCall} :
    Partial (machine E) ok t (exchange c) (fun r s' => answers t s'.hist.events =
      (if (c.result r).word.isSome then [c.result r] else []) ++ answers t s.hist.events) s := by
  refine Partial.act fun e r s' he _ => ?_
  simp only [exec] at he
  split at he
  · cases he
    simp only [History.exchange, answers, List.filterMap_cons, true_and]
    split_ifs <;> simp
  · cases he

/-- The end of a request: the status is completed, and goes to the client of a request that has
succeeded. -/
theorem partial_reply_acked (hG : Sending G) {f : StatusInfo → StatusInfo} {b : Bool} :
    Partial (machine E) G.ok t (do
      let info ← localStatus
      let info ← exchangeGetStatus (f info)
      replyIf b a info) (fun _ s' => answers t s'.hist.events = answers t s.hist.events ∧
        (b = true → ∃ old info, info.orderid = (f old).orderid ∧
          info.quantity = (f old).quantity ∧ Acked a info s')) s := by
  refine Partial.bind ((plain_localStatus.inner.partial_answers s).mono fun old s₁ h₁ => ?_)
  refine Partial.bind (Partial.bind (partial_exchange_answers.mono ?_))
  rintro ⟨bid, ask, last⟩ s₂ h₂
  have h₂ : answers t (State.hist s₂).events = answers t s.hist.events := h₂.trans h₁
  refine .ret ?_
  cases b with
  | false =>
    refine Partial.bind (((plainCall_traderSendNack a).built.inner.partial_answers s₂).mono ?_)
    exact fun _ s₃ h₃ => .ret ⟨h₃.trans h₂, nofun⟩
  | true =>
    refine Partial.bind ((Partial.and (partial_traderSendAck hG)
      ((plainCall_traderSendAck a _).built.inner.partial_answers s₂)).mono ?_)
    rintro _ s₃ ⟨hack, h₃⟩
    refine .ret ⟨h₃.trans h₂, fun _ => ⟨old, _, ?_, ?_, hack⟩⟩ <;> rfl

section requests

variable (hG : Sending G) {payload : Option Payload}

include hG

theorem learns_reply {f : StatusInfo → StatusInfo} {b : Bool} {past : List Event}
    (h : answers t s.hist.events = answers t past) :
    Partial (machine E) G.ok t (do
      let info ← localStatus
      let info ← exchangeGetStatus (f info)
      replyIf b a info) (fun _ s' => Learns t a past s') s :=
  (partial_reply_acked hG).mono fun _ _ h' => learns_of_eq (h'.1.trans h)

theorem learns_increaseRequest {x : Asset} :
    Partial (machine E) G.ok t (increaseRequest x a payload)
      (fun _ s' => Learns t a s.hist.events s') s := by
  refine Partial.bind (((plain_loadPayload payload 4).inner.partial_answers s).mono
    fun _ s₁ h₁ => ?_)
  refine Partial.bind (((innerCall_increaseAsset x a _).built.partial_answers s₁).mono
    fun _ s₂ h₂ => ?_)
  exact learns_reply hG (f := id) (h₂.trans h₁)

theorem learns_decreaseRequest {x : Asset} :
    Partial (machine E) G.ok t (decreaseRequest x a payload)
      (fun _ s' => Learns t a s.hist.events s') s := by
  refine Partial.bind (((plain_loadPayload payload 4).inner.partial_answers s).mono
    fun _ s₁ h₁ => ?_)
  refine Partial.bind (((innerCall_decreaseAsset x a _).built.partial_answers s₁).mono
    fun _ s₂ h₂ => ?_)
  exact learns_reply hG (f := id) (h₂.trans h₁)

/-- BUY and SELL: the order id is the answer, and goes into the status. -/
theorem learns_orderRequest {post : Nat → UInt32 → UInt32 → Code UInt32}
    (hpost : ∀ q p (u : State E), Partial (machine E) G.ok t (post a q p) (fun order s' =>
      answers t s'.hist.events = (if order = 0 then [] else [.order order]) ++
        answers t u.hist.events) u) :
    Partial (machine E) G.ok t (orderRequest post a payload)
      (fun _ s' => Learns t a s.hist.events s') s := by
  refine Partial.bind (((plain_loadPayload payload 8).inner.partial_answers s).mono
    fun _ s₁ h₁ => ?_)
  refine Partial.bind ((hpost _ _ s₁).mono fun order s₂ h₂ => ?_)
  rw [h₁] at h₂
  refine (partial_reply_acked hG).mono ?_
  rintro _ s₃ ⟨h₃, hack⟩
  by_cases h0 : order = 0
  · rw [if_pos h0] at h₂
    exact learns_of_eq (h₃.trans h₂)
  · rw [if_neg h0] at h₂
    obtain ⟨old, info, horder, _, hacked⟩ := hack (by simpa using h0)
    refine ⟨[.order order], h₃.trans h₂, fun x hx => ⟨info, ?_, hacked⟩⟩
    obtain rfl := List.mem_singleton.mp hx
    rw [ExchangeResult.word, if_neg h0]
    exact congrArg some horder.symm

/-- CANCEL: the quantity is the answer, and goes into the status. -/
theorem learns_cancelRequest :
    Partial (machine E) G.ok t (cancelRequest a payload)
      (fun _ s' => Learns t a s.hist.events s') s := by
  refine Partial.bind (((plain_loadPayload payload 4).inner.partial_answers s).mono
    fun bytes s₁ h₁ => ?_)
  refine Partial.bind (((Built.act rfl : Inner (uninit 4)).partial_answers s₁).mono
    fun junk s₂ h₂ => ?_)
  refine Partial.bind (Partial.bind (partial_exchange_answers.mono ?_))
  rintro ⟨calls, result, quantity⟩ s₃ h₃
  refine Partial.bind (((inner_runClients calls).partial_answers s₃).mono fun _ s₄ h₄ => ?_)
  refine .ret ((partial_reply_acked hG).mono ?_)
  rintro _ s₅ ⟨h₅, hack⟩
  have hanswers := h₅.trans (h₄.trans (h₃.trans (congrArg _ (h₂.trans h₁))))
  refine ⟨_, hanswers, fun x hx => ?_⟩
  split_ifs at hx with hword
  · obtain rfl := List.mem_singleton.mp hx
    simp only [ExchangeCall.result, ExchangeResult.word] at hword ⊢
    split_ifs at hword with h0
    · obtain ⟨q, rfl⟩ := Option.isSome_iff_exists.mp hword
      obtain ⟨old, info, _, hquantity, hacked⟩ := hack (by simpa using h0)
      refine ⟨info, ?_, hacked⟩
      rw [if_pos h0]
      exact congrArg some hquantity.symm
    · cases hword
  · cases hx

theorem learns_serveRequest {type : UInt8} :
    Partial (machine E) G.ok t (serveRequest a type payload)
      (fun _ s' => Learns t a s.hist.events s') s := by
  have hbuy : ∀ q p (u : State E), Partial (machine E) G.ok t (exchangePostBuy a q p)
      (fun order s' => answers t s'.hist.events = (if order = 0 then [] else [.order order]) ++
        answers t u.hist.events) u := by
    intro q p u
    refine Partial.bind (partial_exchange_answers.mono ?_)
    rintro ⟨calls, order⟩ s₁ h₁
    refine Partial.bind (((inner_runClients calls).partial_answers s₁).mono fun _ s₂ h₂ => ?_)
    refine .ret (h₂.trans (h₁.trans ?_))
    by_cases h0 : order = 0 <;> simp [ExchangeCall.result, ExchangeResult.word, h0]
  have hsell : ∀ q p (u : State E), Partial (machine E) G.ok t (exchangePostSell a q p)
      (fun order s' => answers t s'.hist.events = (if order = 0 then [] else [.order order]) ++
        answers t u.hist.events) u := by
    intro q p u
    refine Partial.bind (partial_exchange_answers.mono ?_)
    rintro ⟨calls, order⟩ s₁ h₁
    refine Partial.bind (((inner_runClients calls).partial_answers s₁).mono fun _ s₂ h₂ => ?_)
    refine .ret (h₂.trans (h₁.trans ?_))
    by_cases h0 : order = 0 <;> simp [ExchangeCall.result, ExchangeResult.word, h0]
  unfold serveRequest
  split_ifs
  · exact learns_reply hG (f := id) rfl
  · exact learns_increaseRequest hG
  · exact learns_decreaseRequest hG
  · exact learns_increaseRequest hG
  · exact learns_decreaseRequest hG
  · exact learns_orderRequest hG hbuy
  · exact learns_orderRequest hG hsell
  · exact learns_cancelRequest hG
  · exact .ret (learns_of_eq rfl)

end requests

theorem learns_serveNext (hG : Sending G) {l : Session} (hl : l.thisTrader = some a) :
    Partial (machine E) G.ok t (serveNext fd l)
      (fun _ s' => Learns t a s.hist.events s') s := by
  refine Partial.bind (((Built.act rfl : Inner (malloc headerSize)).partial_answers s).mono ?_)
  rintro ⟨block, _⟩ s₁ h₁
  refine Partial.bind (((plain_protoRecvPacket fd _ _).inner.partial_answers s₁).mono ?_)
  rintro ⟨status, hdr, payload⟩ s₂ h₂
  have h₂ : answers t (State.hist s₂).events = answers t s.hist.events := h₂.trans h₁
  dsimp only
  split_ifs
  · refine Partial.bind
      (((closing_serveEnd block hdr _).inner_of_closing.partial_answers s₂).mono fun _ s₃ h₃ => ?_)
    exact .ret (learns_of_eq (h₃.trans h₂))
  · refine Partial.bind (Partial.mono (Q := fun _ => Learns t a s.hist.events) ?_
      fun _ _ h => .ret h)
    unfold servePacket
    simp only [hl]
    split_ifs
    · refine Partial.bind (((Built.act rfl : Inner (free (some block))).partial_answers s₂).mono
        fun _ s₃ h₃ => .ret (learns_of_eq (h₃.trans h₂)))
    · refine Partial.bind (((plainCall_traderSendNack a).built.inner.partial_answers s₂).mono
        fun _ s₃ h₃ => .ret (learns_of_eq (h₃.trans h₂)))
    · refine Partial.bind ((learns_serveRequest hG).mono fun _ s₃ h₃ => ?_)
      refine Partial.bind (Partial.act fun e r s₄ he _ => .ret ?_)
      obtain ⟨new, hnew, hacked⟩ := h₃
      simp only [exec] at he
      split_ifs at he
      cases he
      exact ⟨new, by rw [hnew, h₂], hacked⟩

/-! ## What a client decodes -/

/-- The fields of a status payload as a client decodes them. -/
def StatusInfo.decode (payload : List UInt8) : StatusInfo :=
  let i := ofBytes payload
  { balance := ntohl i.balance
    inventory := ntohl i.inventory
    bid := ntohl i.bid
    ask := ntohl i.ask
    last := ntohl i.last
    orderid := ntohl i.orderid
    quantity := ntohl i.quantity }

/-- A service thread that is logged in as trader `a` has served a packet while no write failed,
the exchange has given the answer `x`, and the status payload `payload` was sent last. -/
structure Answered (t a : Nat) (fd : Int) (l : Session) (s s' : State E) (x : ExchangeResult)
    (tr : Trader) (payload : List UInt8) : Prop where
  login : l.thisTrader = some a
  runs : ∃ r, Runs (machine E) (reliable E).ok t (serveNext fd l) s r s'
  answer : ∃ c new, s'.hist.events = new ++ s.hist.events ∧ .exchanged t c x ∈ new
  trader : s'.traders a = some tr
  sent : ∃ conn front, s'.conns tr.fd = some conn ∧ conn.output = front ++ payload
  length : payload.length = statusSize

/-- Every CANCEL of the client of trader `a` that carries `htonl` of the order id `decoded` makes
the service loop cancel the order `id`. -/
def Cancels (a : Nat) (decoded id : UInt32) : Prop :=
  ∀ (E : Exchange) (w : Surroundings E) (t : Nat) (fd : Int) (l : Session) (c : Pool (server E))
    (p : Packet) (calls : List (Call ⊕ ExchangeCall)),
    p.header.type = PacketType.cancel.code → p.payload = bytes32 (htonl decoded) →
    Arrived p t a fd l c → Makes w t fd l c calls → .inr (.cancel a id) ∈ calls

/-- The client learns the balance, the inventory and the word of the answer, and can cancel the
order it has placed. -/
structure Decodes (a : Nat) (tr : Trader) (x : ExchangeResult) (v : UInt32) (info : StatusInfo) :
    Prop where
  balance : info.balance = tr.balance
  inventory : info.inventory = tr.inventory
  answer : info.answer x = v
  cancel : ∀ id, x = .order id → Cancels a info.orderid id

theorem cancels_self (a : Nat) (id : UInt32) : Cancels a id id := by
  intro E w t fd l c p calls htype hpayload harr hmakes
  have hneeded : neededBytes p.header.type = 4 := by
    rw [htype]
    rfl
  have hlen : p.payload.length = 4 := by
    rw [hpayload, length_bytes32]
  have hcalls := harr.calls_of_le (by rw [hneeded, hlen]) hmakes
  have hfield : ntohl (fieldAt 0 (p.payload.take 4)) = id := by
    rw [fieldAt, List.drop_zero, List.take_take, Nat.min_self, hpayload,
      List.take_of_length_le (length_bytes32 _).le, word32_bytes32, ntohl_htonl]
  have hfirst : (packetCalls w a (c.state.account a) PacketType.cancel.code
      (p.payload.take 4) c.state.exchange).getLast? =
        some (.inr (.cancel a (ntohl (fieldAt 0 (p.payload.take 4))))) :=
    getLast_packetCalls (by decide)
  rw [hcalls, hneeded, htype]
  rw [hfield] at hfirst
  exact List.mem_of_getLast? hfirst

/-- The client decodes the answer if the bytes of its word read the same in both directions. -/
theorem ack_decoded_iff {t a : Nat} {fd : Int} {l : Session} {s s' : State E}
    {x : ExchangeResult} {tr : Trader} {payload : List UInt8} {v : UInt32}
    (h : Answered t a fd l s s' x tr payload) (hx : x.word = some v) :
    Decodes a tr x v (StatusInfo.decode payload) ↔ htonl v = v := by
  obtain ⟨r, hruns⟩ := h.runs
  obtain ⟨c, new, hnew, hmem⟩ := h.answer
  obtain ⟨conn, front, hconn, hout⟩ := h.sent
  obtain ⟨given, hgiven, hlearns⟩ := learns_serveNext sending_reliable h.login r s' hruns
  have hanswers : given = answers t new := by
    rw [hnew, answers, List.filterMap_append] at hgiven
    exact (List.append_cancel_right hgiven).symm
  have hxmem : x ∈ given := by
    rw [hanswers, answers, List.mem_filterMap]
    exact ⟨_, hmem, by simp [hx]⟩
  obtain ⟨info, hword, hacked⟩ := hlearns x hxmem
  obtain ⟨front', hout'⟩ := hacked tr conn h.trader hconn
  have hpayload : payload = { info with
      balance := htonl tr.balance, inventory := htonl tr.inventory }.toBytes := by
    refine (List.append_inj' (hout.symm.trans hout') ?_).2
    rw [h.length, StatusInfo.length_toBytes]
  have hv : info.answer x = v := Option.some.inj (hword.symm.trans hx)
  have hdecode : StatusInfo.decode payload = { info with
      balance := tr.balance, inventory := tr.inventory, bid := ntohl info.bid,
      ask := ntohl info.ask, last := ntohl info.last, orderid := ntohl info.orderid,
      quantity := ntohl info.quantity } := by
    rw [hpayload, StatusInfo.decode, StatusInfo.ofBytes_toBytes]
    simp
  have hfield : (StatusInfo.decode payload).answer x = htonl v := by
    rw [hdecode, ← hv]
    cases x with
    | void => cases hx
    | order id => rfl
    | canceled result quantity => rfl
  constructor
  · intro hdec
    exact hfield.symm.trans hdec.answer
  · intro hrev
    refine ⟨by rw [hdecode], by rw [hdecode], hfield.trans hrev, ?_⟩
    rintro id rfl
    have hid : id = v := by
      rw [ExchangeResult.word] at hx
      split_ifs at hx
      exact Option.some.inj hx
    have hdecoded : (StatusInfo.decode payload).orderid = id := by
      rw [hid]
      exact hfield.trans hrev
    rw [hdecoded]
    exact cancels_self a id

/-! ### Concrete orders -/

/-- Client `a` logs in and buys one share at a price of 1; the order gets the number `id`. -/
def buyOne (id : UInt32) : List (Pool.Stage (server (.fixed id 1))) :=
  [.start 0 (.accept 3 (packet .login [97] ++ packet .buy [0, 0, 0, 1, 0, 0, 0, 1]) false),
    .drive 0 123]

/-- The last 28 bytes that were sent on the connection. -/
def Conn.status (c : Conn) : List UInt8 := c.output.drop (c.output.length - statusSize)

/-- The order is answered by `id`, which the client decodes as `decoded`. -/
def decodesTo (id decoded : UInt32) (c : Pool (server (.fixed id 1))) : Bool :=
  (Pool.serving c 0).any fun (fd, l) => fd = 3 && l.thisTrader = some 0 &&
    match (machine (.fixed id 1)).drive (fun o s => some (.smooth () o s)) 0 400 (serveNext 3 l)
      c.state with
    | (.ret _, s') =>
      let new := s'.hist.events.take (s'.hist.events.length - c.state.hist.events.length)
      s'.hist.events = new ++ c.state.hist.events &&
      new.contains (.exchanged 0 (.postBuy 0 1 1) (.order id)) &&
      (s'.traders 0).any fun tr => (s'.conns tr.fd).any fun conn =>
        conn.status.length = statusSize && (StatusInfo.decode conn.status).orderid = decoded
    | _ => false

theorem exists_answered (id decoded : UInt32)
    (h : (Pool.perform (smoothCourse (E := .fixed id 1) ()) (buyOne id)
      (Pool.idle (State.init (.fixed id 1) () 4))).any (decodesTo id decoded) = true) :
    ∃ (c : Pool (server (.fixed id 1))) (l : Session) (s' : State (.fixed id 1)) (tr : Trader)
      (payload : List UInt8), Pool.Reach (Pool.idle (State.init _ () 4)) c ∧
      Answered 0 0 3 l c.state s' (.order id) tr payload ∧
      (StatusInfo.decode payload).orderid = decoded := by
  obtain ⟨c, hc, ht⟩ := Pool.exists_reach (smoothCourse_within (E := .fixed id 1) ())
    (buyOne id) (Pool.idle (State.init (.fixed id 1) () 4)) (decodesTo id decoded) h
  simp only [decodesTo, Option.any_eq_true, Bool.and_eq_true, decide_eq_true_eq] at ht
  obtain ⟨⟨fd, l⟩, _, ⟨rfl, hl⟩, hdrive⟩ := ht
  split at hdrive
  · rename_i r s' hdriven
    simp only [Bool.and_eq_true, decide_eq_true_eq, Option.any_eq_true] at hdrive
    obtain ⟨⟨hevents, hmem⟩, tr, htr, conn, hconn, hlen, hdecoded⟩ := hdrive
    have hruns : Runs (machine (.fixed id 1)) (reliable _).ok 0 (serveNext 3 l) c.state r s' :=
      Runs.of_drive (fun o u e he => by
        cases he
        cases o <;> simp [reliable, Choice.smooth]) hdriven
    exact ⟨c, l, s', tr, conn.status, hc, ⟨hl, ⟨r, hruns⟩,
      ⟨_, _, hevents, List.contains_iff_mem.mp hmem⟩, htr,
      ⟨conn, _, hconn, (List.take_append_drop _ _).symm⟩, hlen⟩, hdecoded⟩
  · cases hdrive

/-- The order number `0x01000001` arrives. -/
theorem ack_decoded_palindrome :
    ∃ (s s' : State (.fixed 16777217 1)) (l : Session) (tr : Trader) (payload : List UInt8),
      Answered 0 0 3 l s s' (.order 16777217) tr payload ∧
        Decodes 0 tr (.order 16777217) 16777217 (StatusInfo.decode payload) := by
  obtain ⟨c, l, s', tr, payload, _, h, _⟩ :=
    exists_answered 16777217 16777217 (by decide +kernel)
  have hword : (ExchangeResult.order 16777217).word = some 16777217 := by decide +kernel
  have hrev : htonl 16777217 = 16777217 := by decide +kernel
  exact ⟨c.state, s', l, tr, payload, h, (ack_decoded_iff h hword).mpr hrev⟩

/-- The client that places order 1 decodes its number as `0x01000000`. -/
theorem order_one_decoded :
    ∃ (c : Pool (server (.fixed 1 1))) (s' : State (.fixed 1 1)) (l : Session) (tr : Trader)
      (payload : List UInt8), Pool.Reach (Pool.idle (State.init _ () 4)) c ∧
      Answered 0 0 3 l c.state s' (.order 1) tr payload ∧
      (StatusInfo.decode payload).orderid = 16777216 ∧
      ¬ Decodes 0 tr (.order 1) 1 (StatusInfo.decode payload) := by
  obtain ⟨c, l, s', tr, payload, hc, h, hdecoded⟩ :=
    exists_answered 1 16777216 (by decide +kernel)
  refine ⟨c, s', l, tr, payload, hc, h, hdecoded, fun hdec => ?_⟩
  have hanswer : (StatusInfo.decode payload).orderid = 1 := hdec.answer
  rw [hdecoded] at hanswer
  exact absurd hanswer (by decide +kernel)

end BourseServer
