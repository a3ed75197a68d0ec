import BourseServer.Server.PayloadOrigin

/-!
# Accounts and acknowledgements

Service threads take turns: in a turn a client arrives, or a thread serves one packet, or it finds
its connection ended and leaves. A ledger adds up, for each trader, what its client was told to
have been done. As long as no increase takes a quantity to `2 ^ 32` the ledger is the account.
-/
namespace BourseServer

open Concurrency Bytes

variable {E : Exchange} {ok : Condition (machine E)} {t a : Nat} {fd : Int} {s s' : State E}
  {made : List (Call ⊕ ExchangeCall)} {x : E.State}

/-! ## Requests on an account -/

/-- The account operation that a request asks for. -/
def accountCall (type : UInt8) (bytes : List UInt8) : Option AccountCall :=
  let n := ntohl (fieldAt 0 bytes)
  if type = PacketType.deposit.code then some (.increase .balance n)
  else if type = PacketType.withdraw.code then some (.decrease .balance n)
  else if type = PacketType.escrow.code then some (.increase .inventory n)
  else if type = PacketType.release.code then some (.decrease .inventory n)
  else none

/-- Between the two states, thread `t` has sent an acknowledgement to the client of trader `a`. -/
def Acknowledged (t a : Nat) (s s' : State E) : Prop :=
  ∃ new info, outerCalls t s'.hist.events = new ++ outerCalls t s.hist.events ∧
    .inl (.sendAck a info) ∈ new

theorem acknowledged_iff {new : List (Call ⊕ ExchangeCall)}
    (h : outerCalls t s'.hist.events = new ++ outerCalls t s.hist.events) :
    Acknowledged t a s s' ↔ ∃ info, .inl (.sendAck a info) ∈ new := by
  constructor
  · rintro ⟨new', info, hnew', hmem⟩
    obtain rfl := List.append_cancel_right (h.symm.trans hnew')
    exact ⟨info, hmem⟩
  · rintro ⟨info, hmem⟩
    exact ⟨new, info, h, hmem⟩

/-- The operation has been performed on the account of trader `a`, and acknowledged unless it
was refused. -/
def Booked (t a : Nat) (c : AccountCall) (s s' : State E) : Prop :=
  ∃ acc, s.accounts a = some acc ∧
    s'.accounts = Function.update s.accounts a (some (c.perform acc).1) ∧
    (Acknowledged t a s s' ↔ c.refuses acc = false)

theorem partial_exchange_any (h : At t made x s) {c : ExchangeCall} :
    Partial (machine E) ok t (exchange c) (fun _ s' =>
      s'.accounts = s.accounts ∧ ∃ x', At t (.inr c :: made) x' s') s := by
  refine Partial.act fun e r s' he _ => ?_
  simp only [exec] at he
  split at he
  · cases he
    obtain ⟨hframes, hrest⟩ := Prod.mk.inj h
    obtain ⟨hmade, _⟩ := Prod.mk.inj hrest
    refine ⟨rfl, _, Prod.ext hframes (Prod.ext ?_ rfl)⟩
    simp [State.calls, outerCalls, History.exchange, ← hmade]
  · cases he

theorem partial_localStatus_any :
    Partial (machine E) ok t localStatus (fun _ s' => s' = s) s := by
  refine Partial.bind (Partial.act fun e r s' he _ => .ret ?_)
  simp only [exec] at he
  repeat' split at he
  all_goals cases he
  rfl

/-- The end of a request. -/
theorem partial_replied (h : At t made x s) {f : StatusInfo → StatusInfo} {b : Bool} :
    Partial (machine E) ok t (do
      let info ← localStatus
      let info ← exchangeGetStatus (f info)
      replyIf b a info) (fun _ s' => s'.accounts = s.accounts ∧ ∃ info x',
        At t (.inl (if b then .sendAck a (some info) else .sendNack a) :: .inr .getStatus :: made)
          x' s') s := by
  refine Partial.bind (partial_localStatus_any.mono ?_)
  rintro old _ rfl
  refine Partial.bind (Partial.bind ((partial_exchange_any h).mono ?_))
  rintro ⟨bid, ask, last⟩ s₁ ⟨hacc₁, x₁, h₁⟩
  refine .ret ?_
  cases b with
  | true =>
    refine Partial.bind fun _ s₂ h₂ => .ret ⟨?_, _, x₁,
      partial_call (plainCall_traderSendAck a _).inner h₁ _ _ h₂⟩
    exact ((plainCall_traderSendAck a _).built.partial_accounts _ _ _ h₂).trans hacc₁
  | false =>
    refine Partial.bind fun _ s₂ h₂ => .ret ⟨?_, f old, x₁,
      partial_call (plainCall_traderSendNack a).inner h₁ _ _ h₂⟩
    exact ((plainCall_traderSendNack a).built.partial_accounts _ _ _ h₂).trans hacc₁

/-- An operation and the reply to it. -/
theorem booked_of_replied {c : AccountCall} {s₁ s₂ : State E} {v : Value} {b : Bool}
    {info : StatusInfo} {x' : E.State} (h : At t made x s) (hperf : Performs a c s v s₁)
    (hb : b = true ↔ v ≠ .int (-1)) (hacc : s₂.accounts = s₁.accounts)
    (h₂ : At t (.inl (if b then .sendAck a (some info) else .sendNack a) :: .inr .getStatus ::
      .inl (.account a c) :: made) x' s₂) :
    Booked t a c s s₂ := by
  obtain ⟨acc, hold, hv, hnew⟩ := hperf
  refine ⟨acc, hold, hacc.trans hnew, ?_⟩
  have hcalls : outerCalls t s₂.hist.events =
      [.inl (if b then .sendAck a (some info) else .sendNack a), .inr .getStatus,
        .inl (.account a c)] ++ outerCalls t s.hist.events := by
    have hmade : outerCalls t s.hist.events = made := congrArg (fun r => r.2.1) h
    rw [hmade]
    exact congrArg (fun r => r.2.1) h₂
  rw [acknowledged_iff hcalls]
  have hrefuses : c.refuses acc = false ↔ b = true := by
    rw [hb, hv, AccountCall.refuses, decide_eq_false_iff_not]
  rw [hrefuses]
  cases b <;> simp

theorem partial_increaseRequest_booked (h : At t made x s) {y : Asset}
    {payload : Option Payload} :
    Partial (machine E) ok t (increaseRequest y a payload) (fun _ s' => ∃ bytes,
      Loaded ok payload 4 bytes ∧
        Booked t a (.increase y (ntohl (fieldAt 0 bytes))) s s') s := by
  refine Partial.bind (partial_loadPayload.mono ?_)
  rintro bytes _ ⟨rfl, hbytes⟩
  refine Partial.bind fun _ s₁ h₁ => ?_
  have hperf := partial_increaseAsset _ _ h₁
  have hat := partial_call (innerCall_increaseAsset y a _) h _ _ h₁
  refine (partial_replied (f := id) hat).mono ?_
  rintro _ s₂ ⟨hacc, info, x', h₂⟩
  exact ⟨bytes, hbytes, booked_of_replied h hperf (by simp) hacc h₂⟩

theorem partial_decreaseRequest_booked (h : At t made x s) {y : Asset}
    {payload : Option Payload} :
    Partial (machine E) ok t (decreaseRequest y a payload) (fun _ s' => ∃ bytes,
      Loaded ok payload 4 bytes ∧
        Booked t a (.decrease y (ntohl (fieldAt 0 bytes))) s s') s := by
  refine Partial.bind (partial_loadPayload.mono ?_)
  rintro bytes _ ⟨rfl, hbytes⟩
  refine Partial.bind fun r s₁ h₁ => ?_
  have hperf := partial_decreaseAsset _ _ h₁
  have hat := partial_call (innerCall_decreaseAsset y a _) h _ _ h₁
  refine (partial_replied (f := id) hat).mono ?_
  rintro _ s₂ ⟨hacc, info, x', h₂⟩
  have hres : r = 0 ∨ r = -1 := by
    obtain ⟨acc, _, hv, _⟩ := hperf
    by_cases hle : ntohl (fieldAt 0 bytes) ≤ y.of acc
    · rw [AccountCall.perform_of_le hle] at hv
      exact .inl (Value.int.inj hv)
    · rw [AccountCall.perform_of_not_le hle] at hv
      exact .inr (Value.int.inj hv)
  refine ⟨bytes, hbytes, booked_of_replied h hperf ?_ hacc h₂⟩
  rcases hres with rfl | rfl <;> simp

/-- Posts no order and cancels none. -/
def Orderless (type : UInt8) : Prop :=
  type ≠ PacketType.buy.code ∧ type ≠ PacketType.sell.code ∧ type ≠ PacketType.cancel.code

/-- What a packet of type `type` does to the accounts when `bytes` are loaded from its payload. -/
def Effect (t a : Nat) (type : UInt8) (bytes : List UInt8) (s s' : State E) : Prop :=
  match accountCall type bytes with
  | some c => Booked t a c s s'
  | none => s'.accounts = s.accounts

theorem partial_serveRequest_effect (h : At t made x s) {type : UInt8} (htype : Orderless type)
    {payload : Option Payload} :
    Partial (machine E) ok t (serveRequest a type payload) (fun _ s' => ∃ bytes,
      Loaded ok payload (neededBytes type) bytes ∧ Effect t a type bytes s s') s := by
  unfold serveRequest
  split_ifs with h0 h1 h2 h3 h4 h5 h6 h7
  · subst h0
    refine (partial_replied (f := id) h).mono ?_
    rintro _ s' ⟨hacc, _⟩
    exact ⟨[], Loaded.nil, hacc⟩
  · subst h1
    exact partial_increaseRequest_booked h
  · subst h2
    exact partial_decreaseRequest_booked h
  · subst h3
    exact partial_increaseRequest_booked h
  · subst h4
    exact partial_decreaseRequest_booked h
  · exact absurd h5 htype.1
  · exact absurd h6 htype.2.1
  · exact absurd h7 htype.2.2
  · have hneeded : neededBytes type = 0 := by simp [neededBytes, h1, h2, h3, h4, h5, h6, h7]
    have hcall : accountCall type [] = none := by simp [accountCall, h1, h2, h3, h4]
    rw [hneeded]
    refine .ret ⟨[], Loaded.nil, ?_⟩
    rw [Effect, hcall]

/-! ## Packets -/

theorem Effect.of_eq {s₀ s₁ : State E} {type : UInt8} {bytes : List UInt8}
    (h : Effect t a type bytes s₀ s₁) (hacc₀ : s₀.accounts = s.accounts)
    (hcalls₀ : outerCalls t s₀.hist.events = outerCalls t s.hist.events)
    (hacc₁ : s'.accounts = s₁.accounts)
    (hcalls₁ : outerCalls t s'.hist.events = outerCalls t s₁.hist.events) :
    Effect t a type bytes s s' := by
  unfold Effect at *
  split at h
  · unfold Booked Acknowledged at *
    rwa [hacc₀, hcalls₀, ← hacc₁, ← hcalls₁] at h
  · exact hacc₁.trans (h.trans hacc₀)

theorem effect_of_eq {type : UInt8} {bytes : List UInt8} (h : accountCall type bytes = none)
    (hacc : s'.accounts = s.accounts) : Effect t a type bytes s s' := by
  rw [Effect, h]
  exact hacc

theorem partial_servePacket_effect (h : At t made x s) {block : Nat} {hdr : PacketHeader}
    {new : Option Payload} (htype : Orderless hdr.type) :
    Partial (machine E) ok t (servePacket fd block hdr ⟨new, some a⟩) (fun _ s' => ∃ bytes,
      Loaded ok new (neededBytes hdr.type) bytes ∧ Effect t a hdr.type bytes s s') s := by
  unfold servePacket
  split_ifs with hno hlogin
  · refine Partial.bind fun _ s₁ h₁ => .ret ⟨[], ?_, effect_of_eq ?_ ?_⟩
    · rw [hno]
      exact Loaded.nil
    · rw [hno]
      rfl
    · exact runs_plain (o := .free (some block)) rfl h₁
  · refine Partial.bind fun _ s₁ h₁ => .ret ⟨[], ?_, effect_of_eq ?_ ?_⟩
    · rw [hlogin]
      exact Loaded.nil
    · rw [hlogin]
      rfl
    · exact (plainCall_traderSendNack a).built.partial_accounts _ _ _ h₁
  · refine Partial.bind ((partial_serveRequest_effect h htype).mono ?_)
    rintro _ s₁ ⟨bytes, hbytes, heffect⟩
    refine Partial.bind (Partial.act fun e r s₂ he _ => .ret ⟨bytes, hbytes, ?_⟩)
    simp only [exec] at he
    split_ifs at he
    cases he
    exact heffect.of_eq rfl rfl rfl rfl

/-- The steps in which no read fails. -/
def readable (E : Exchange) : Regime (machine E) where
  ok o e _ :=
    match o with
    | .read _ _ => e ≠ .ioError
    | _ => True
  again := Choice.isEintr

theorem receiving_readable : Receiving (readable E) := ⟨fun _ => rfl, Iff.rfl, trivial⟩

/-- A packet that has arrived completely, from a client that is logged in as trader `a`. -/
theorem partial_serveNext_effect {l : Session} {c : Conn} {p : Packet}
    (hframes : s.hist.frames t = []) (hl : l.thisTrader = some a) (hc : s.conns fd = some c)
    (hp : Packet.front c.input = some p) (htype : Orderless p.header.type)
    (hlen : neededBytes p.header.type ≤ p.payload.length) :
    Partial (machine E) (readable E).ok t (serveNext fd l) (fun _ s' =>
      Effect t a p.header.type (p.payload.take (neededBytes p.header.type)) s s') s := by
  refine Partial.serveNext receiving_readable hc hp fun block blocks conns new hnew _ => ?_
  have hat : At t (outerCalls t s.hist.events) s.exchange
      { s with blocks := blocks, conns := conns } := Prod.ext hframes rfl
  rw [hl]
  refine (partial_servePacket_effect hat htype).mono ?_
  rintro _ s' ⟨bytes, hbytes, heffect⟩
  rw [← hbytes.of_replaces hnew hlen]
  exact heffect.of_eq rfl rfl rfl rfl

/-- A packet from a client that is not logged in. -/
theorem partial_serveNext_opens {l : Session} {c : Conn} {p : Packet} (hl : l.thisTrader = none)
    (hc : s.conns fd = some c) (hp : Packet.front c.input = some p) :
    Partial (machine E) (readable E).ok t (serveNext fd l) (fun _ => Opens s) s := by
  refine Partial.serveNext receiving_readable hc hp fun block blocks conns new _ _ => ?_
  unfold servePacket
  simp only [hl]
  split_ifs
  · refine Partial.bind fun _ s₁ h₁ => ?_
    have hacc := runs_plain (o := .free (some block)) rfl h₁
    exact .ret (.inl hacc)
  · refine Partial.bind (Partial.bind fun r s₁ h₁ => Partial.bind fun bytes s₂ h₂ =>
      Partial.bind fun b s₃ h₃ => ?_)
    have hacc₂ := ((plain_loadPayload new _).partial_accounts _ _ _ h₂).trans
      (runs_plain (o := .malloc _) rfl h₁)
    have hopens : Opens s s₃ := by
      have h := partial_traderLogin_accounts _ _ h₃
      unfold Opens at h ⊢
      rwa [hacc₂] at h
    cases b with
    | none =>
      refine Partial.bind fun _ s₄ h₄ => .ret (Partial.bind fun _ s₅ h₅ => .ret ?_)
      have hacc := (runs_plain (o := .free (some block)) rfl h₅).trans
        ((plain_alreadyRegistred fd).partial_accounts _ _ _ h₄)
      unfold Opens at hopens ⊢
      rwa [hacc]
    | some b =>
      refine Partial.bind fun _ s₄ h₄ => .ret (Partial.bind fun _ s₅ h₅ => .ret ?_)
      have hacc := (runs_plain (o := .free (some block)) rfl h₅).trans
        ((plainCall_traderSendAck b none).built.partial_accounts _ _ _ h₄)
      unfold Opens at hopens ⊢
      rwa [hacc]
  · exact .ret (.inl rfl)

/-- The thread finds that its connection has ended. -/
theorem partial_serveNext_closes {l : Session} :
    Partial (machine E) ok t (serveNext fd l) (fun r s' => r = none → Closes s s') s := by
  refine Partial.bind fun b s₁ h₁ => Partial.bind fun r s₂ h₂ => ?_
  have hacc := ((plain_protoRecvPacket fd _ _).partial_accounts _ _ _ h₂).trans
    (runs_plain (o := .malloc _) rfl h₁)
  obtain ⟨status, hdr, payload⟩ := r
  dsimp only
  split_ifs
  · refine Partial.bind (((closing_serveEnd b.1 hdr _).partial_closes _).mono
      fun _ s₃ h₃ => .ret fun _ => ?_)
    exact (closes_of_eq hacc).trans h₃
  · exact Partial.bind fun _ _ _ => .ret nofun

/-! ## Turns -/

/-- A packet without an order, with a payload of the size that its type asks for. -/
structure Packet.WellFormed (p : Packet) : Prop where
  orderless : Orderless p.header.type
  length : neededBytes p.header.type ≠ 0 → p.payload.length = neededBytes p.header.type

def Packet.accountCall (p : Packet) : Option AccountCall :=
  BourseServer.accountCall p.header.type p.payload

/-- The state of the process, and the connection and the session of each service thread. -/
structure Desk (E : Exchange) where
  state : State E
  seat : Nat → Option (Int × Session)

/-- What a client has been told to have been done to the account of its trader. -/
abbrev Receipt := Option (Nat × AccountCall)

/-- One turn. The condition `allow` is on the state in which a packet is served. -/
inductive Turn (allow : State E → Session → Packet → Prop) : Desk E → Receipt → Desk E → Prop where
  | arrive {d : Desk E} {t : Nat} {fd : Int} {input : List UInt8} {ended : Bool} {p : Code Unit}
      {s s' : State E} {r : Int} :
      d.seat t = none → launch t (.accept fd input ended) d.state = some (p, s) →
      Runs (machine E) anyStep t (cregRegister fd) s r s' →
      Turn allow d none
        ⟨s', Function.update d.seat t (if r = -1 then none else some (fd, ⟨none, none⟩))⟩
  | deliver {d : Desk E} {t : Nat} {fd : Int} {bytes : List UInt8} {ended : Bool} {p : Code Unit}
      {s : State E} :
      launch t (.deliver fd bytes ended) d.state = some (p, s) → Turn allow d none ⟨s, d.seat⟩
  | serve {d : Desk E} {t : Nat} {fd : Int} {l l' : Session} {c : Conn} {p : Packet}
      {s' : State E} {receipt : Receipt} :
      d.seat t = some (fd, l) → d.state.conns fd = some c → Packet.front c.input = some p →
      p.WellFormed → allow d.state l p →
      Runs (machine E) (readable E).ok t (serveNext fd l) d.state (some l') s' →
      (∀ a c, receipt = some (a, c) ↔
        l.thisTrader = some a ∧ p.accountCall = some c ∧ Acknowledged t a d.state s') →
      Turn allow d receipt ⟨s', Function.update d.seat t (some (fd, l'))⟩
  | leave {d : Desk E} {t : Nat} {fd : Int} {l : Session} {s' s'' : State E} {u : Unit} :
      d.seat t = some (fd, l) → Runs (machine E) anyStep t (serveNext fd l) d.state none s' →
      Runs (machine E) anyStep t (brsClientLeave fd) s' u s'' →
      Turn allow d none ⟨s'', Function.update d.seat t none⟩

/-- For each trader and quantity, what was acknowledged since the trader was created. -/
abbrev Ledger := Nat → Asset → Int

def Ledger.after (L : Ledger) (s : State E) (r : Receipt) : Ledger := fun a y =>
  if (s.traders a).isNone then 0
  else L a y + r.elim 0 fun (b, c) => if b = a ∧ c.asset = y then c.change else 0

/-- A run of the server from its start, and its ledger. -/
inductive Books (allow : State E → Session → Packet → Prop) : Desk E → Ledger → Prop where
  | start (x : E.State) (n : Nat) : Books allow ⟨State.init E x n, fun _ => none⟩ fun _ _ => 0
  | turn {d d' : Desk E} {L : Ledger} {r : Receipt} :
      Books allow d L → Turn allow d r d' → Books allow d' (L.after d.state r)

/-- No increase takes a quantity to `2 ^ 32`. -/
def Room (s : State E) (l : Session) (p : Packet) : Prop :=
  ∀ a c, l.thisTrader = some a → p.accountCall = some c → c.Fits (s.account a)

/-- The ledger is the account. -/
def Exact (s : State E) (L : Ledger) : Prop :=
  ∀ a acc, s.accounts a = some acc → ∀ y : Asset, ((y.of acc).toNat : Int) = L a y

variable {L : Ledger} {allow : State E → Session → Packet → Prop}

theorem isNone_traders : (s.traders a).isNone = (s.accounts a).isNone := by
  rw [State.accounts, Option.isNone_map]

theorem Exact.of_closes (h : Exact s L) (hc : Closes s s') : Exact s' (L.after s none) := by
  intro a acc hacc y
  have hold : s.accounts a = some acc := by
    rcases hc a with heq | hnone
    · rwa [heq] at hacc
    · rw [hnone] at hacc
      cases hacc
  rw [h a acc hold y, Ledger.after, isNone_traders, hold]
  simp

theorem Exact.of_opens (h : Exact s L) (ho : Opens s s') : Exact s' (L.after s none) := by
  rcases ho with heq | ⟨b, hnone, heq⟩
  · exact h.of_closes (closes_of_eq heq)
  · intro a acc hacc y
    rw [heq] at hacc
    by_cases hab : a = b
    · subst hab
      rw [Function.update_self] at hacc
      obtain rfl := Option.some.inj hacc
      rw [Ledger.after, isNone_traders, hnone]
      cases y <;> rfl
    · rw [Function.update_of_ne hab] at hacc
      rw [h a acc hacc y, Ledger.after, isNone_traders, hacc]
      simp

/-- An operation that fits, with the receipt for it. -/
theorem Exact.of_booked (h : Exact s L) {b : Nat} {c : AccountCall} (hb : Booked t b c s s')
    (hfits : c.Fits (s.account b)) {r : Receipt}
    (hr : ∀ a c', r = some (a, c') ↔ a = b ∧ c' = c ∧ Acknowledged t b s s') :
    Exact s' (L.after s r) := by
  obtain ⟨old, hold, hnew, hack⟩ := hb
  rw [State.account_eq hold] at hfits
  have hreceipt : r = if c.refuses old then none else some (b, c) := by
    cases hrefuses : c.refuses old with
    | false => exact (hr b c).mpr ⟨rfl, rfl, hack.mpr hrefuses⟩
    | true =>
      cases hsome : r with
      | none => rfl
      | some r =>
        obtain ⟨rfl, rfl, hacked⟩ := (hr r.1 r.2).mp hsome
        rw [hack.mp hacked] at hrefuses
        cases hrefuses
  intro a acc hacc y
  rw [hnew] at hacc
  by_cases hab : a = b
  · subst hab
    rw [Function.update_self] at hacc
    obtain rfl := Option.some.inj hacc
    have hbefore := h a old hold y
    rw [Ledger.after, isNone_traders, hold, hreceipt, ← hbefore]
    by_cases hy : y = c.asset
    · subst hy
      rw [c.perform_exact hfits]
      cases c.refuses old <;> simp
    · rw [c.perform_of_ne hy]
      have hy' : ¬ c.asset = y := fun heq => hy heq.symm
      cases c.refuses old <;> simp [hy']
  · rw [Function.update_of_ne hab] at hacc
    rw [h a acc hacc y, Ledger.after, isNone_traders, hacc, hreceipt]
    have hab' : ¬ b = a := fun heq => hab heq.symm
    cases c.refuses old <;> simp [hab']

theorem accountCall_eq_none {type : UInt8} (h : neededBytes type = 0) (bytes : List UInt8) :
    accountCall type bytes = none := by
  have hno : ∀ p : PacketType, neededBytes p.code ≠ 0 → type ≠ p.code := by
    rintro p hp rfl
    exact hp h
  unfold accountCall
  rw [if_neg (hno .deposit (by decide)), if_neg (hno .withdraw (by decide)),
    if_neg (hno .escrow (by decide)), if_neg (hno .release (by decide))]

theorem Packet.WellFormed.accountCall_take {p : Packet} (h : p.WellFormed) :
    BourseServer.accountCall p.header.type (p.payload.take (neededBytes p.header.type)) =
      p.accountCall := by
  by_cases hneeded : neededBytes p.header.type = 0
  · rw [accountCall_eq_none hneeded, Packet.accountCall, accountCall_eq_none hneeded]
  · rw [← h.length hneeded, List.take_length, Packet.accountCall]

theorem Packet.WellFormed.le_length {p : Packet} (h : p.WellFormed) :
    neededBytes p.header.type ≤ p.payload.length := by
  by_cases hneeded : neededBytes p.header.type = 0
  · omega
  · exact (h.length hneeded).ge

/-- A packet served in a turn in which there is room for it. -/
theorem Exact.of_serve (h : Exact s L) {l l' : Session} {c : Conn} {p : Packet} {r : Receipt}
    (hframes : s.hist.frames t = []) (hc : s.conns fd = some c)
    (hp : Packet.front c.input = some p) (hwf : p.WellFormed) (hroom : Room s l p)
    (hruns : Runs (machine E) (readable E).ok t (serveNext fd l) s (some l') s')
    (hr : ∀ a c, r = some (a, c) ↔
      l.thisTrader = some a ∧ p.accountCall = some c ∧ Acknowledged t a s s') :
    Exact s' (L.after s r) := by
  have hnone : (∀ a c, ¬ (l.thisTrader = some a ∧ p.accountCall = some c)) → r = none := by
    intro hno
    cases hsome : r with
    | none => rfl
    | some ac =>
      obtain ⟨hl, hcall, _⟩ := (hr ac.1 ac.2).mp hsome
      exact absurd ⟨hl, hcall⟩ (hno _ _)
  cases hl : l.thisTrader with
  | none =>
    rw [hnone fun a c hac => by simp [hl] at hac]
    exact h.of_opens (partial_serveNext_opens hl hc hp _ _ hruns)
  | some a =>
    have heffect := partial_serveNext_effect hframes hl hc hp hwf.orderless hwf.le_length _ _ hruns
    unfold Effect at heffect
    rw [hwf.accountCall_take] at heffect
    cases hcall : p.accountCall with
    | none =>
      rw [hcall] at heffect
      rw [hnone fun a c hac => by simp [hcall] at hac]
      exact h.of_closes (closes_of_eq heffect)
    | some call =>
      rw [hcall] at heffect
      refine h.of_booked heffect (hroom a call hl hcall) fun b c => ?_
      rw [hr b c, hl, hcall]
      constructor
      · rintro ⟨hb, hc, hacked⟩
        cases hb
        cases hc
        exact ⟨rfl, rfl, hacked⟩
      · rintro ⟨rfl, rfl, hacked⟩
        exact ⟨rfl, rfl, hacked⟩

theorem turn_frames {d d' : Desk E} {r : Receipt} (h : Turn allow d r d') :
    d'.state.hist.frames = d.state.hist.frames := by
  cases h with
  | arrive _ hlaunch hreg =>
    obtain ⟨conns, rfl⟩ := launch_state hlaunch
    have hframes := (plain_cregRegister _).inner.framed.partial_frames _ _ _ hreg
    exact hframes
  | deliver hlaunch =>
    obtain ⟨conns, rfl⟩ := launch_state hlaunch
    rfl
  | serve _ _ _ _ _ hruns _ => exact (framed_serveNext _ _).partial_frames _ _ _ hruns
  | leave _ hruns hleave =>
    have hframes := (plain_brsClientLeave _).inner.framed.partial_frames _ _ _ hleave
    exact hframes.trans ((framed_serveNext _ _).partial_frames _ _ _ hruns)

theorem turn_exact {d d' : Desk E} {r : Receipt} (h : Exact d.state L)
    (hframes : ∀ t, d.state.hist.frames t = []) (hturn : Turn Room d r d') :
    Exact d'.state (L.after d.state r) := by
  cases hturn with
  | arrive _ hlaunch hreg =>
    have hacc := (plain_cregRegister _).partial_accounts _ _ _ hreg
    obtain ⟨conns, rfl⟩ := launch_state hlaunch
    exact h.of_closes (closes_of_eq hacc)
  | deliver hlaunch =>
    obtain ⟨conns, rfl⟩ := launch_state hlaunch
    exact h.of_closes (closes_of_eq rfl)
  | serve _ hc hp hwf hroom hruns hr => exact h.of_serve (hframes _) hc hp hwf hroom hruns hr
  | leave _ hruns hleave =>
    have hcloses := partial_serveNext_closes _ _ hruns rfl
    have hacc := (plain_brsClientLeave _).partial_accounts _ _ _ hleave
    exact h.of_closes (hcloses.trans (closes_of_eq hacc))

/-- The calls of `new` acknowledge a request to the client of trader `a`. -/
def hasAck (a : Nat) (new : List (Call ⊕ ExchangeCall)) : Bool :=
  new.any fun
    | .inl (.sendAck b _) => b = a
    | _ => false

theorem acknowledged_of_hasAck {new : List (Call ⊕ ExchangeCall)}
    (h : outerCalls t s'.hist.events = new ++ outerCalls t s.hist.events)
    (hack : hasAck a new = true) : Acknowledged t a s s' := by
  obtain ⟨c, hc, hmatch⟩ := List.any_eq_true.mp hack
  split at hmatch
  · obtain rfl := of_decide_eq_true hmatch
    exact ⟨new, _, h, hc⟩
  · cases hmatch

instance (p : Packet) : Decidable p.WellFormed :=
  decidable_of_iff ((p.header.type ≠ PacketType.buy.code ∧ p.header.type ≠ PacketType.sell.code ∧
    p.header.type ≠ PacketType.cancel.code) ∧
      (neededBytes p.header.type ≠ 0 → p.payload.length = neededBytes p.header.type))
    ⟨fun h => ⟨h.1, h.2⟩, fun h => ⟨h.orderless, h.length⟩⟩

/-- A client arrives on thread 0, and everything goes smoothly. -/
def Desk.connect (x : E.Choice) (fd : Int) (input : List UInt8) (d : Desk E) : Option (Desk E) :=
  match d.seat 0, launch 0 (.accept fd input false) d.state with
  | none, some (_, s) =>
    match (machine E).drive (fun o s => some (.smooth x o s)) 0 100 (cregRegister fd) s with
    | (.ret r, s') => some ⟨s', Function.update d.seat 0
        (if r = -1 then none else some (fd, ⟨none, none⟩))⟩
    | _ => none
  | _, _ => none

/-- Thread 0 serves a packet that passes `check` and is acknowledged if it is a request on an
account. -/
def Desk.next (x : E.Choice) (check : State E → Session → Packet → Bool) (d : Desk E) :
    Option (Desk E × Receipt) :=
  match d.seat 0 with
  | none => none
  | some (fd, l) =>
    match (d.state.conns fd).bind fun c => Packet.front c.input with
    | none => none
    | some p =>
      match (machine E).drive (fun o s => some (.smooth x o s)) 0 400 (serveNext fd l) d.state with
      | (.ret (some l'), s') =>
        let calls := outerCalls 0 s'.hist.events
        let past := outerCalls 0 d.state.hist.events
        let new := calls.take (calls.length - past.length)
        let d' : Desk E := ⟨s', Function.update d.seat 0 (some (fd, l'))⟩
        if p.WellFormed ∧ check d.state l p ∧ calls = new ++ past then
          match l.thisTrader, p.accountCall with
          | some a, some c => if hasAck a new then some (d', some (a, c)) else none
          | _, _ => some (d', none)
        else none
      | _ => none

theorem Desk.arrives {x : E.Choice} {d d' : Desk E} {input : List UInt8}
    (h : d.connect x fd input = some d') : Turn allow d none d' := by
  unfold connect at h
  split at h
  · rename_i p s hseat hlaunch
    split at h
    · rename_i r s' hdrive
      cases h
      exact .arrive hseat hlaunch (Runs.of_drive (fun _ _ _ _ => trivial) hdrive)
    · cases h
  · cases h

theorem Desk.serves {x : E.Choice} {check : State E → Session → Packet → Bool} {d d' : Desk E}
    {r : Receipt} (hcheck : ∀ s l p, check s l p = true → allow s l p)
    (h : d.next x check = some (d', r)) : Turn allow d r d' := by
  unfold next at h
  split at h
  · cases h
  · rename_i fd l hseat
    split at h
    · cases h
    · rename_i p hfront
      obtain ⟨c, hc, hp⟩ := Option.bind_eq_some_iff.mp hfront
      split at h
      · rename_i l' s' hdrive
        have hruns : Runs (machine E) (readable E).ok 0 (serveNext fd l) d.state (some l') s' := by
          refine Runs.of_drive (fun o u e he => ?_) hdrive
          cases he
          cases o <;> simp [readable, Choice.smooth]
        dsimp only at h
        split_ifs at h with hok
        obtain ⟨hwf, hroom, hcalls⟩ := hok
        split at h
        · rename_i a call hl hcall
          split_ifs at h with hack
          cases h
          refine .serve hseat hc hp hwf (hcheck _ _ _ hroom) hruns fun b c => ⟨?_, ?_⟩
          · intro hbc
            cases hbc
            exact ⟨hl, hcall, acknowledged_of_hasAck hcalls hack⟩
          · rintro ⟨hb, hc, _⟩
            rw [hl] at hb
            rw [hcall] at hc
            cases hb
            cases hc
            rfl
        · rename_i hno
          cases h
          refine .serve hseat hc hp hwf (hcheck _ _ _ hroom) hruns fun b c => ⟨nofun, ?_⟩
          rintro ⟨hb, hc, _⟩
          exact absurd hc (hno b c hb)
      · cases h

/-- Thread 0 serves `n` packets. -/
def Desk.play (x : E.Choice) (check : State E → Session → Packet → Bool) :
    Nat → Desk E × Ledger → Option (Desk E × Ledger)
  | 0, b => some b
  | n + 1, (d, L) =>
    match d.next x check with
    | some (d', r) => play x check n (d', L.after d.state r)
    | none => none

theorem Desk.books_of_play {x : E.Choice} {check : State E → Session → Packet → Bool} {n : Nat}
    {d d' : Desk E} {L L' : Ledger} (hcheck : ∀ s l p, check s l p = true → allow s l p)
    (hb : Books allow d L) (h : Desk.play x check n (d, L) = some (d', L')) :
    Books allow d' L' := by
  induction n generalizing d L with
  | zero =>
    cases h
    exact hb
  | succ n ih =>
    simp only [play] at h
    split at h
    · rename_i d₁ r hnext
      exact ih (hb.turn (serves hcheck hnext)) h
    · cases h

/-- Client `a` logs in and makes two deposits, in three turns. -/
def twoTurns (check : State (.fixed 1 1) → Session → Packet → Bool) (m n : List UInt8) :
    Option (Desk (.fixed 1 1) × Ledger) :=
  (Desk.connect (E := .fixed 1 1) () 3
    (packet .login [97] ++ packet .deposit m ++ packet .deposit n)
    ⟨State.init _ () 4, fun _ => none⟩).bind fun d =>
      Desk.play () check 3 (d, Ledger.after (fun _ _ => 0) (State.init (.fixed 1 1) () 4) none)

theorem exists_books (check : State (.fixed 1 1) → Session → Packet → Bool) {m n : List UInt8}
    {allow : State (.fixed 1 1) → Session → Packet → Prop} (balance : UInt32) (owed : Int)
    (hcheck : ∀ s l p, check s l p = true → allow s l p)
    (h : (twoTurns check m n).any (fun b => (b.1.state.traders 0).any fun tr =>
      tr.balance = balance && b.2 0 .balance = owed) = true) :
    ∃ d L tr, Books allow d L ∧ d.state.traders 0 = some tr ∧ tr.balance = balance ∧
      L 0 .balance = owed := by
  simp only [Option.any_eq_true, Bool.and_eq_true, decide_eq_true_eq] at h
  obtain ⟨⟨d, L⟩, hturns, tr, htr, hbalance, howed⟩ := h
  obtain ⟨d₀, hconnect, hplay⟩ := Option.bind_eq_some_iff.mp hturns
  refine ⟨d, L, tr, Desk.books_of_play hcheck ?_ hplay, htr, hbalance, howed⟩
  exact (Books.start () 4).turn (Desk.arrives hconnect)

/-- There is room for the packet. -/
def hasRoom (s : State E) (l : Session) (p : Packet) : Bool :=
  match l.thisTrader, p.accountCall with
  | some a, some c => ((c.asset.of (s.account a)).toNat : Int) + c.change < 2 ^ 32
  | _, _ => true

theorem room_of_hasRoom (s : State E) (l : Session) (p : Packet) (h : hasRoom s l p = true) :
    Room s l p := by
  intro a c hl hcall
  unfold hasRoom at h
  rw [hl, hcall] at h
  simpa [AccountCall.Fits] using h

end BourseServer
