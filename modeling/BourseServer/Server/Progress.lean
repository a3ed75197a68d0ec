import BourseServer.Trader.Completion

/-!
# Packets are served to the end

A service thread comes to the end of what it does for a packet: to the reply, if there is one. It
waits for the mutexes of traders only, so this holds in every state in which no other thread holds
one, as long as the outside world lets every system call succeed in the end and the exchange does
not release a trader that is in use. At the end of the connection the thread logs its client out
and leaves the loop.
-/
namespace BourseServer

open Concurrency Bytes

variable {E : Exchange} {G : Regime (machine E)} {t a b : Nat} {fd : Int} {s : State E}
  {ρ : Nat → Option Int} {slots : Nat → Option Nat} {blocks : List Nat} {l : Session} {c : Conn}
  {p : Packet}

/-! ## Requests -/

section request

variable (hG : Answering G)
include hG

theorem total_replyIf (h : Working t ρ slots blocks s) (ha : ρ a ≠ none) (ack : Bool)
    (info : StatusInfo) :
    Total G t (replyIf ack a info) (fun _ => Working t ρ slots blocks) s := by
  obtain ⟨r, hr⟩ := Option.ne_none_iff_exists'.mp ha
  cases ack with
  | true => exact Total.bind (total_traderSendAck hG h hr _) fun _ _ h' => .ret h'
  | false => exact Total.bind (total_traderSendNack hG h hr) fun _ _ h' => .ret h'

theorem total_loadPayload (payload : Option Payload) (n : Nat) :
    Total G t (loadPayload payload n) (fun _ s' => s' = s) s := by
  unfold loadPayload
  dsimp only
  split_ifs
  · refine Total.bind (Q := fun _ s' => s' = s) ?_ fun _ _ h => .ret h
    obtain ⟨junk, hlen, hok⟩ := hG.beyond (n - ((payload.elim [] Payload.bytes).take n).length) s
    refine Total.act ⟨.memory junk, junk, s, by simp [exec, hlen], hok, ?_⟩ fun e r s' he _ => ?_
    · rw [hG.again]
      rfl
    · simp only [exec] at he
      split at he
      · split_ifs at he
        cases he
        rfl
      · cases he
  · exact .ret rfl

theorem total_exchange (h : Working t ρ slots blocks s) (c : ExchangeCall) :
    Total G t (exchange c) (fun r s' => Working t ρ slots blocks s' ∧
      ∃ e, r = (E.act c e s.exchange).1) s := by
  obtain ⟨e, hok⟩ := hG.exchange c s
  refine Total.act ⟨.exchange e, _, _, rfl, hok, ?_⟩ fun e r s' he _ => ?_
  · rw [hG.again]
    rfl
  · simp only [exec] at he
    split at he
    · cases he
      exact ⟨⟨h.trader, h.table, h.blocks⟩, _, rfl⟩
    · cases he

/-- The end of a request: the status of the exchange, and the reply. -/
theorem total_reply (h : Working t ρ slots blocks s) (ha : ρ a ≠ none) (ack : Bool)
    (f : StatusInfo → StatusInfo) :
    Total G t (do
      let info ← localStatus
      let info ← exchangeGetStatus (f info)
      replyIf ack a info) (fun _ s' => s'.blocks = blocks) s := by
  refine Total.bind (Total.bind (total_uninit hG statusSize) ?_)
    (Q := fun _ => Working t ρ slots blocks) ?_
  · rintro junk _ ⟨rfl, _⟩
    exact .ret h
  · intro info s₁ h₁
    refine Total.bind (Total.bind (total_exchange hG h₁ .getStatus) fun r s₂ h₂ => .ret h₂.1) ?_
      (Q := fun _ => Working t ρ slots blocks)
    exact fun info s₂ h₂ => (total_replyIf hG h₂ ha ack info).mono fun _ _ h₃ => h₃.blocks

theorem total_orderRequest {post : Nat → UInt32 → UInt32 → Code UInt32}
    (hpost : ∀ q p, Total G t (post a q p) (fun _ s' => ∃ ρ', ρ' a ≠ none ∧
      Working t ρ' slots blocks s') s) (payload : Option Payload) :
    Total G t (orderRequest post a payload) (fun _ s' => s'.blocks = blocks) s := by
  refine Total.bind (total_loadPayload hG payload 8) ?_
  rintro bytes _ rfl
  refine Total.bind (hpost _ _) ?_
  rintro order s₁ ⟨ρ', ha, h₁⟩
  exact total_reply hG h₁ ha _ fun info => { info with orderid := order }

end request

/-! ## The exchange -/

/-- The trader calls that a function of the exchange makes. -/
def ExchangeCall.clients : (c : ExchangeCall) → c.Reply → List ClientCall
  | .getStatus, _ => []
  | .postBuy .., r => r.1
  | .postSell .., r => r.1
  | .cancel .., r => r.1

/-- The trader calls that the exchange makes next, whatever it is asked and answers, are harmless
where the traders in `ρ` have these counts and the slots are `slots`. -/
def Exchange.Polite (E : Exchange) (x : E.State) (ρ : Nat → Option Int)
    (slots : Nat → Option Nat) : Prop :=
  ∀ c e, Harmless slots ρ (ExchangeCall.clients c (E.act c e x).1)

/-- The exchange calls no function of the trader module. -/
def Exchange.Quiet (E : Exchange) : Prop := ∀ c e x, ExchangeCall.clients c (E.act c e x).1 = []

theorem quiet_fixed (order quantity : UInt32) : (Exchange.fixed order quantity).Quiet := by
  intro c e x
  cases c <;> rfl

theorem Exchange.Quiet.polite (hE : E.Quiet) {x : E.State} : E.Polite x ρ slots := by
  intro c e
  rw [hE c e x]
  trivial

section polite

variable (hG : Answering G) (h : Working t ρ slots blocks s) (hE : E.Polite s.exchange ρ slots)
  (ha : ρ a ≠ none)
include hG h hE ha

/-- A call of the exchange, and the trader calls that it makes. -/
theorem total_exchanged {c : ExchangeCall} {β : Type} {f : c.Reply → β}
    {g : c.Reply → List ClientCall} (hg : g = c.clients) :
    Total G t (do
      let r ← exchange c
      runClients (g r)
      pure (f r)) (fun _ s' => ∃ ρ', ρ' a ≠ none ∧ Working t ρ' slots blocks s') s := by
  refine Total.bind (total_exchange hG h c) ?_
  rintro _ s₁ ⟨h₁, e, rfl⟩
  rw [hg]
  refine Total.bind (total_runClients hG h₁ (hE c e)) ?_
  rintro _ s₂ ⟨ρ', hρ', h₂⟩
  exact .ret ⟨ρ', hρ' a ha, h₂⟩

theorem total_cancelRequest (payload : Option Payload) :
    Total G t (cancelRequest a payload) (fun _ s' => s'.blocks = blocks) s := by
  refine Total.bind (total_loadPayload hG payload 4) ?_
  rintro bytes _ rfl
  refine Total.bind (total_uninit hG 4) ?_
  rintro junk _ ⟨rfl, _⟩
  refine Total.bind (total_exchanged hG h hE ha (c := .cancel ..)
    (f := fun r => (r.2.1, r.2.2.getD (word32 junk))) (g := fun r => r.1) rfl) ?_
  rintro ⟨result, quantity⟩ s₁ ⟨ρ', ha', h₁⟩
  exact total_reply hG h₁ ha' _ fun info => { info with quantity := quantity }

theorem total_serveRequest (type : UInt8) (payload : Option Payload) :
    Total G t (serveRequest a type payload) (fun _ s' => s'.blocks = blocks) s := by
  obtain ⟨r, hr⟩ := Option.ne_none_iff_exists'.mp ha
  have hinc : ∀ x, Total G t (increaseRequest x a payload) (fun _ s' => s'.blocks = blocks) s := by
    intro x
    refine Total.bind (total_loadPayload hG payload 4) ?_
    rintro bytes _ rfl
    refine Total.bind (total_increaseAsset hG h hr x _) fun _ s₁ h₁ => ?_
    exact total_reply hG h₁ ha true id
  have hdec : ∀ x, Total G t (decreaseRequest x a payload) (fun _ s' => s'.blocks = blocks) s := by
    intro x
    refine Total.bind (total_loadPayload hG payload 4) ?_
    rintro bytes _ rfl
    refine Total.bind (total_decreaseAsset hG h hr x _) fun r s₁ h₁ => ?_
    exact total_reply hG h₁ ha _ id
  unfold serveRequest
  split_ifs
  · exact total_reply hG h ha true id
  · exact hinc .balance
  · exact hdec .balance
  · exact hinc .inventory
  · exact hdec .inventory
  · exact total_orderRequest hG (fun q p => total_exchanged hG h hE ha (c := .postBuy ..)
      (f := Prod.snd) (g := Prod.fst) rfl) payload
  · exact total_orderRequest hG (fun q p => total_exchanged hG h hE ha (c := .postSell ..)
      (f := Prod.snd) (g := Prod.fst) rfl) payload
  · exact total_cancelRequest hG h hE ha payload
  · exact .ret h.blocks

end polite

/-! ## Packets -/

theorem total_free (hG : Passive G) (h : b ∈ s.blocks) :
    Total G t (free (some b)) (fun _ s' => s' = { s with blocks := s.blocks.erase b }) s := by
  have he : exec t (.free (some b)) .tick s =
      .done () { s with blocks := s.blocks.erase b } := by
    simp [exec, h]
  exact hG.total_silent rfl he rfl

/-- What is done at the end of a packet. -/
theorem total_freed (hG : Passive G) {α : Type} {x : α} (h : b ∈ s.blocks) :
    Total G t (free (some b) >>= fun _ => .ret x) (fun _ _ => True) s :=
  Total.bind (total_free hG h) fun _ _ _ => .ret trivial

/-- A packet of a client that is logged in. -/
theorem total_servePacket_in (hG : Answering G) (h : Working t ρ slots blocks s)
    (hE : E.Polite s.exchange ρ slots) (ha : ρ a ≠ none) (hb : b ∈ blocks) (hdr : PacketHeader)
    (hl : l.thisTrader = some a) :
    Total G t (servePacket fd b hdr l) (fun _ _ => True) s := by
  have hfree : ∀ {s' : State E}, s'.blocks = blocks →
      Total G t (free (some b) >>= fun _ => .ret l) (fun _ _ => True) s' := by
    rintro s' rfl
    exact total_freed hG.passive hb
  obtain ⟨r, hr⟩ := Option.ne_none_iff_exists'.mp ha
  unfold servePacket
  simp only [hl]
  split_ifs
  · exact hfree h.blocks
  · exact Total.bind (total_traderSendNack hG h hr) fun _ _ _ => .ret trivial
  · exact Total.bind (total_serveRequest hG h hE ha _ _) fun _ s₁ h₁ => hfree h₁

/-- A packet of a client that is not logged in. -/
theorem total_servePacket_out (hE : Nonempty E.Choice) (h : Working t ρ slots blocks s)
    (hslots : ∀ {i b}, slots i = some b → ρ b ≠ none) (hroom : ∃ a, s.traders a = none)
    (hb : b ∈ blocks) (hdr : PacketHeader) (hl : l.thisTrader = none) :
    Total (civil E) t (servePacket fd b hdr l) (fun _ _ => True) s := by
  have hG := answering_civil hE
  have hfree : ∀ {s' : State E} {x : Session}, b ∈ s'.blocks →
      Total (civil E) t (free (some b) >>= fun _ => .ret x) (fun _ _ => True) s' :=
    fun h' => total_freed hG.passive h'
  unfold servePacket
  simp only [hl]
  split_ifs
  · exact hfree (h.blocks ▸ hb)
  · refine Total.bind (Q := fun _ (s' : State E) => b ∈ s'.blocks) ?_ fun _ _ h' => hfree h'
    refine Total.bind (total_malloc hG.toReceiving) ?_
    rintro ⟨block, _⟩ _ ⟨_, rfl⟩
    refine Total.bind (total_loadPayload hG _ _) ?_
    rintro bytes _ rfl
    have h₁ : Working t ρ slots (block :: blocks) { s with blocks := block :: s.blocks } :=
      ⟨h.trader, h.table, by rw [← h.blocks]⟩
    have hb₁ : b ∈ block :: blocks := List.mem_cons_of_mem _ hb
    refine Total.bind (total_traderLogin hE h₁ hslots hroom) ?_
    rintro v s₂ ⟨ρ', slots', h₂, hv⟩
    cases v with
    | none =>
      refine Total.bind (Total.bind (total_uninit hG headerSize) ?_)
        (Q := fun _ (s' : State E) => b ∈ s'.blocks) fun _ _ h' => .ret h'
      rintro junk _ ⟨rfl, _⟩
      refine Total.bind (total_protoSendPacket_any hG) ?_
      rintro _ _ ⟨conns, rfl⟩
      exact .ret (h₂.blocks ▸ hb₁)
    | some a =>
      obtain ⟨r, hr⟩ := Option.ne_none_iff_exists'.mp (hv a rfl)
      exact Total.bind (total_traderSendAck hG h₂ hr none) fun _ _ h' => .ret (h'.blocks ▸ hb₁)
  · exact .ret trivial

/-- A packet that has arrived completely is received, and what comes of it is up to
`servePacket`. -/
theorem Total.serveNext (hG : Receiving G) (hc : s.conns fd = some c)
    (hp : Packet.front c.input = some p)
    (h : ∀ block blocks conns payload, block ∈ blocks →
      Total G t (servePacket fd block p.header { l with payload := payload }) (fun _ _ => True)
        { s with blocks := blocks, conns := conns }) :
    Total G t (serveNext fd l) (fun r _ => r.isSome = true) s := by
  obtain ⟨hlen, hhdr, _⟩ := Packet.front_eq_some hp
  have hend : headerSize + (PacketHeader.received .zero c.input).payloadSize ≤ c.input.length := by
    rw [hhdr, ← Packet.length_toBytes]
    exact hlen
  refine Total.bind (total_malloc hG) ?_
  rintro ⟨b, _⟩ _ ⟨_, rfl⟩
  refine Total.bind (total_protoRecvPacket (s := { s with blocks := b :: s.blocks })
    hG hc (.inr hend)) ?_
  rintro r _ ⟨hr, blocks, hblocks, rfl⟩
  have hnil : c.input ≠ [] := by
    intro h
    rw [h, Packet.front_nil] at hp
    cases hp
  obtain ⟨payload, hr⟩ : ∃ payload, r = (0, p.header, payload) := by
    simp only [RecvResult, hnil, hhdr, if_false] at hr
    split_ifs at hr
    · exact ⟨_, hr⟩
    · obtain ⟨block, junk, _, hr⟩ := hr
      exact ⟨_, hr⟩
  subst hr
  dsimp only
  rw [if_neg (by omega)]
  exact Total.bind (h b blocks _ payload (hblocks b List.mem_cons_self)) fun _ _ _ => .ret rfl

/-- A service thread that is logged in serves a packet that has arrived completely. -/
theorem total_serveNext (hG : Answering G) (hE : E.Quiet) {tr : Trader}
    (hl : l.thisTrader = some a) (htr : s.traders a = some tr)
    (hm : tr.mutex.depth = 0 ∨ tr.mutex.owner = some t) (hc : s.conns fd = some c)
    (hp : Packet.front c.input = some p) :
    Total G t (serveNext fd l) (fun r _ => r.isSome = true) s := by
  have hlock : ∃ m, tr.mutex.lock t = some m := by
    unfold Mutex.lock
    by_cases h0 : tr.mutex.depth = 0
    · exact ⟨_, if_pos h0⟩
    · exact ⟨_, by rw [if_neg h0, if_pos (hm.resolve_left h0)]⟩
  have h : ∀ blocks conns, Working t (Function.update (fun _ => none) a (some tr.ref))
      s.allTraders blocks { s with blocks := blocks, conns := conns } := by
    refine fun blocks conns => ⟨fun {b r} hb => ?_, rfl, rfl⟩
    rw [Function.update_apply] at hb
    split_ifs at hb with hba
    subst hba
    exact ⟨tr, htr, Option.some.inj hb, hlock⟩
  refine Total.serveNext hG.toReceiving hc hp fun block blocks conns payload hblock => ?_
  exact total_servePacket_in hG (h blocks conns) hE.polite (by simp) hblock _ hl

/-! ## Every packet, and the end of the connection -/

/-- The traders, the table and the exchange are such that thread `t`, whose client is logged in as
`u`, does not have to wait for ever. -/
structure Unhindered (t : Nat) (u : Option Nat) (s : State E) : Prop where
  linked : s.Linked
  free : s.FreeFor t
  room : ∃ a, s.traders a = none
  bound : ∀ a, u = some a → ∃ tr, s.traders a = some tr
  returns : Nonempty E.Choice
  polite : E.Polite s.exchange s.refs s.allTraders

/-- A service thread serves any packet that has arrived completely. -/
theorem Unhindered.total_serveNext (h : Unhindered t l.thisTrader s) (hc : s.conns fd = some c)
    (hp : Packet.front c.input = some p) :
    Total (civil E) t (serveNext fd l) (fun r _ => r.isSome = true) s := by
  have hG := answering_civil h.returns
  refine Total.serveNext hG.toReceiving hc hp fun block blocks conns payload hblock => ?_
  have hworking : Working t s.refs s.allTraders blocks
      { s with blocks := blocks, conns := conns } := ⟨h.free.working.trader, rfl, rfl⟩
  cases hl : l.thisTrader with
  | none => exact total_servePacket_out h.returns hworking h.linked.refs h.room hblock _ rfl
  | some a =>
    obtain ⟨tr, htr⟩ := h.bound a hl
    have ha : s.refs a ≠ none := by simp [State.refs, htr]
    exact total_servePacket_in hG hworking h.polite ha hblock _ rfl

/-- The client of trader `a` is logged out: its descriptor is gone, and so is one reference. -/
def LoggedOut (a : Nat) (s s' : State E) : Prop :=
  ∀ i, i < maxTraders → s.allTraders i = some a → ∃ tr tr', s.traders a = some tr ∧
    s'.traders a = some tr' ∧ tr'.ref = tr.ref - 1 ∧ tr'.fd = -1

/-- When the connection has ended, the service thread logs out its client and leaves the loop. -/
theorem Unhindered.total_serveNext_end (h : Unhindered t l.thisTrader s) (hc : s.conns fd = some c)
    (hnil : c.input = []) (hended : c.ended = true)
    (hkept : ∀ a, l.thisTrader = some a → s.refs a ≠ some 1) :
    Total (civil E) t (serveNext fd l)
      (fun r s' => r = none ∧ ∀ a, l.thisTrader = some a → LoggedOut a s s') s := by
  have hG := answering_civil h.returns
  refine Total.bind (total_malloc hG.toReceiving) ?_
  rintro ⟨b, _⟩ _ ⟨_, rfl⟩
  refine Total.bind (total_protoRecvPacket (s := { s with blocks := b :: s.blocks })
    hG.toReceiving hc (.inl hended)) ?_
  rintro r _ ⟨hr, blocks, hblocks, rfl⟩
  simp only [RecvResult, hnil, if_true] at hr
  subst hr
  dsimp only
  rw [if_pos rfl]
  -- no header has come, so the payload stays
  refine Total.bind (Q := fun _ s' => ∀ a, l.thisTrader = some a → LoggedOut a s s') ?_
    fun _ _ h' => .ret ⟨rfl, h'⟩
  refine Total.bind (total_free hG.passive (hblocks b List.mem_cons_self)) ?_
  rintro _ _ rfl
  unfold serveLogout
  cases hl : l.thisTrader with
  | none => exact .ret (by simp)
  | some a =>
    obtain ⟨tr, htr⟩ := h.bound a hl
    have ha : s.refs a = some tr.ref := by simp [State.refs, htr]
    have hne : tr.ref ≠ 1 := fun href => hkept a hl (by rw [ha, href])
    have hworking : ∀ blocks conns, Working t s.refs s.allTraders blocks
        { s with blocks := blocks, conns := conns } :=
      fun _ _ => ⟨h.free.working.trader, rfl, rfl⟩
    refine (total_traderLogout hG.passive (hworking _ _) h.linked.refs ha hne).mono ?_
    rintro _ s' h' a' ha' i hi hslot
    obtain rfl := Option.some.inj ha'
    obtain ⟨tr', htr', hrest⟩ := h' i hi hslot
    exact ⟨tr, tr', htr, htr', hrest⟩

end BourseServer
