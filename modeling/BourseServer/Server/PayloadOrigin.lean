import BourseServer.Server.CallStack
import BourseServer.Server.Progress
import BourseServer.Server.Requests

/-!
# Where the arguments of a request come from

A request loads as many bytes as its payload struct has, whatever the size of the packet. So two
service threads that have served different packets, and find the same accounts and the same
exchange, make the same calls for the next packet if its payload is not too short. If it is too
short, the missing bytes are taken from the payload of an earlier packet or from beyond.
-/
namespace BourseServer

open Concurrency Bytes

variable {E : Exchange} {w : Surroundings E} {t a : Nat} {fd : Int} {l : Session} {s : State E}
  {p : Packet}

/-! ## The calls for a packet -/

/-- The calls for a packet of the client of trader `a`, newest first, when `bytes` are loaded
from the payload, `acc` is the account and `x` the exchange. -/
def packetCalls (w : Surroundings E) (a : Nat) (acc : UInt32 × UInt32) (type : UInt8)
    (bytes : List UInt8) (x : E.State) : List (Call ⊕ ExchangeCall) :=
  if type = PacketType.noPkt.code then []
  else if type = PacketType.login.code then [.inl (.sendNack a)]
  else requestCalls w a acc type bytes x

/-- The payload variable after `p` has been received: an empty payload leaves it as it was. -/
def Packet.Replaces (p : Packet) (old new : Option Payload) : Prop :=
  if p.header.payloadSize = 0 then new = old
  else ∃ block, new = some ⟨block, p.payload⟩

theorem Packet.exists_received {hdr : PacketHeader} {old : Option Payload} {input : List UInt8}
    {r : Int × PacketHeader × Option Payload} (hp : Packet.front input = some p)
    (hr : RecvResult hdr old input r) : ∃ new, r = (0, p.header, new) ∧ p.Replaces old new := by
  obtain ⟨_, hhdr, hpayload⟩ := Packet.front_eq_some hp
  have hnil : input ≠ [] := by
    rintro rfl
    rw [Packet.front_nil] at hp
    cases hp
  simp only [RecvResult, hnil, hhdr, if_false] at hr
  split_ifs at hr with hzero
  · exact ⟨old, hr, by rw [Packet.Replaces, if_pos hzero]⟩
  · obtain ⟨block, junk, hlen, hr⟩ := hr
    refine ⟨_, hr, ?_⟩
    rw [Packet.Replaces, if_neg hzero]
    refine ⟨block, ?_⟩
    rw [← hpayload, overlay_full]
    exact le_of_eq (hlen.trans p.length_payload.symm)

variable {made : List (Call ⊕ ExchangeCall)} {x : E.State} {ok : Condition (machine E)}

/-- A payload that is long enough is what is loaded. -/
theorem Loaded.of_replaces {old new : Option Payload} {bytes : List UInt8}
    (h : Loaded ok new (neededBytes p.header.type) bytes) (hnew : p.Replaces old new)
    (hlen : neededBytes p.header.type ≤ p.payload.length) :
    bytes = p.payload.take (neededBytes p.header.type) := by
  by_cases hzero : p.header.payloadSize = 0
  · have hneeded : neededBytes p.header.type = 0 := by
      have hpayload := p.length_payload
      omega
    rw [hneeded] at h ⊢
    exact h.eq_take (Nat.zero_le _)
  · rw [Packet.Replaces, if_neg hzero] at hnew
    obtain ⟨block, rfl⟩ := hnew
    exact h.eq_take hlen

theorem partial_free {b : Option Nat} (h : At t made x s) :
    Partial (machine E) ok t (free b) (fun _ s' => At t made x s') s := by
  refine Partial.act fun e r s' he _ => ?_
  exact (exec_inner_calls (o := .free b) (e := e) rfl he).trans h

/-- A client that is logged in has sent `p`, and the payload variable holds `new`. -/
theorem partial_servePacket (hok : ∀ o e s, ok o e s → w.Follow o e s) (h : At t made x s)
    {block : Nat} {new : Option Payload} :
    Partial (machine E) ok t (servePacket fd block p.header ⟨new, some a⟩) (fun _ s' =>
      ∃ bytes x', Loaded ok new (neededBytes p.header.type) bytes ∧
        At t (packetCalls w a (s.account a) p.header.type bytes x ++ made) x' s') s := by
  unfold servePacket
  split_ifs with hno hlogin
  · refine Partial.bind ((partial_free h).mono fun _ s' h' => .ret ⟨[], x, ?_, ?_⟩)
    · rw [hno]
      exact Loaded.nil
    · rwa [packetCalls, if_pos hno, List.nil_append]
  · refine Partial.bind ((partial_call (plainCall_traderSendNack a).inner h).mono
      fun _ s' h' => .ret ⟨[], x, ?_, ?_⟩)
    · rw [hlogin]
      exact Loaded.nil
    · rwa [packetCalls, if_neg hno, if_pos hlogin, List.singleton_append]
  · refine Partial.bind ((partial_serveRequest hok h).mono ?_)
    rintro _ s₁ ⟨bytes, x', hbytes, h₁⟩
    refine Partial.bind ((partial_free h₁).mono fun _ s' h' => .ret ⟨bytes, x', hbytes, ?_⟩)
    rwa [packetCalls, if_neg hno, if_neg hlogin]

/-- A packet that has arrived completely is received, and what comes of it is up to
`servePacket`. -/
theorem Partial.serveNext {G : Regime (machine E)} (hG : Receiving G) {c : Conn}
    (hc : s.conns fd = some c) (hp : Packet.front c.input = some p)
    {Q : Option Session → State E → Prop}
    (h : ∀ block blocks conns new, p.Replaces l.payload new →
      (∃ input, conns = Function.update s.conns fd (some { c with input := input })) →
      Partial (machine E) G.ok t (servePacket fd block p.header { l with payload := new })
        (fun l' => Q (some l')) { s with blocks := blocks, conns := conns }) :
    Partial (machine E) G.ok t (serveNext fd l) Q s := by
  obtain ⟨hlen, hhdr, _⟩ := Packet.front_eq_some hp
  have hend : headerSize + (PacketHeader.received .zero c.input).payloadSize ≤ c.input.length := by
    rw [hhdr, ← Packet.length_toBytes]
    exact hlen
  refine Partial.bind fun b s₁ h₁ => ?_
  obtain ⟨_, rfl⟩ := (total_malloc hG).of_runs h₁
  refine Partial.bind fun r s₂ h₂ => ?_
  obtain ⟨hr, blocks, _, rfl⟩ := (total_protoRecvPacket
    (s := { s with blocks := b.1 :: s.blocks }) hG hc (.inr hend)).of_runs h₂
  obtain ⟨new, rfl, hnew⟩ := Packet.exists_received hp hr
  dsimp only
  rw [if_neg (by omega)]
  exact Partial.bind ((h b.1 blocks _ new hnew ⟨_, rfl⟩).mono fun l' s' hQ => .ret hQ)

/-- The calls made for the packet that has arrived next, from the bytes that are loaded. -/
theorem partial_serveNext {G : Regime (machine E)} (hG : Receiving G)
    (hok : ∀ o e s, G.ok o e s → w.Follow o e s) (hl : l.thisTrader = some a)
    (hframes : s.hist.frames t = []) {c : Conn} (hc : s.conns fd = some c)
    (hp : Packet.front c.input = some p) :
    Partial (machine E) G.ok t (serveNext fd l) (fun _ s' => ∃ new bytes,
      p.Replaces l.payload new ∧ Loaded G.ok new (neededBytes p.header.type) bytes ∧
      outerCalls t s'.hist.events =
        packetCalls w a (s.account a) p.header.type bytes s.exchange ++
          outerCalls t s.hist.events) s := by
  refine Partial.serveNext hG hc hp fun block blocks conns new hnew _ => ?_
  have hat : At t (outerCalls t s.hist.events) s.exchange
      { s with blocks := blocks, conns := conns } := Prod.ext hframes rfl
  rw [hl]
  refine (partial_servePacket hok hat).mono ?_
  rintro _ s₃ ⟨bytes, x', hbytes, h₃⟩
  exact ⟨new, bytes, hnew, hbytes, congrArg (fun r => r.2.1) h₃⟩

/-! ## Two histories -/

/-- Thread `t` has served any packets while the other threads did anything, and is logged in as
trader `a`; now `p` has arrived on its connection. -/
structure Arrived (p : Packet) (t a : Nat) (fd : Int) (l : Session) (c : Pool (server E)) :
    Prop where
  reached : ∃ x n, Pool.Reach (Pool.idle (State.init E x n)) c
  next : ∃ k, c.prog t = .call (.service fd l) k
  login : l.thisTrader = some a
  front : ∃ conn, c.state.conns fd = some conn ∧ Packet.front conn.input = some p

/-- Serving the next packet can make the calls `calls`, newest first. -/
def Makes (w : Surroundings E) (t : Nat) (fd : Int) (l : Session) (c : Pool (server E))
    (calls : List (Call ⊕ ExchangeCall)) : Prop :=
  ∃ r s', Runs (machine E) w.Follow t (serveNext fd l) c.state r s' ∧
    outerCalls t s'.hist.events = calls ++ outerCalls t c.state.hist.events

/-- After any two histories that end with the same accounts and the same exchange, `p` makes the
service thread call the same functions with the same arguments. -/
def SameCalls (p : Packet) : Prop :=
  ∀ (E : Exchange) (w : Surroundings E) (a t₁ t₂ : Nat) (fd₁ fd₂ : Int) (l₁ l₂ : Session)
    (c₁ c₂ : Pool (server E)), Arrived p t₁ a fd₁ l₁ c₁ → Arrived p t₂ a fd₂ l₂ c₂ →
    c₁.state.accounts = c₂.state.accounts → c₁.state.exchange = c₂.state.exchange →
    ∀ calls₁ calls₂, Makes w t₁ fd₁ l₁ c₁ calls₁ → Makes w t₂ fd₂ l₂ c₂ calls₂ → calls₁ = calls₂

theorem Arrived.frames {c : Pool (server E)} (h : Arrived p t a fd l c) :
    c.state.hist.frames t = [] := by
  obtain ⟨x, n, hreach⟩ := h.reached
  obtain ⟨k, hk⟩ := h.next
  exact frames_of_service hreach hk

/-- In surroundings that are followed, reads are tried again when they are interrupted. -/
def Surroundings.regime (w : Surroundings E) : Regime (machine E) := ⟨w.Follow, Choice.isEintr⟩

theorem Surroundings.receiving (w : Surroundings E) : Receiving w.regime :=
  ⟨fun _ => rfl, Iff.rfl, trivial⟩

theorem Arrived.calls {c : Pool (server E)} (h : Arrived p t a fd l c) {G : Regime (machine E)}
    (hG : Receiving G) (hok : ∀ o e s, G.ok o e s → w.Follow o e s) :
    Partial (machine E) G.ok t (serveNext fd l) (fun _ s' => ∃ new bytes,
      p.Replaces l.payload new ∧ Loaded G.ok new (neededBytes p.header.type) bytes ∧
      outerCalls t s'.hist.events =
        packetCalls w a (c.state.account a) p.header.type bytes c.state.exchange ++
          outerCalls t c.state.hist.events) c.state := by
  obtain ⟨conn, hconn, hfront⟩ := h.front
  exact partial_serveNext hG hok h.login h.frames hconn hfront

/-- A payload that is long enough determines the calls. -/
theorem Arrived.calls_of_le {c : Pool (server E)} (h : Arrived p t a fd l c)
    (hlen : neededBytes p.header.type ≤ p.payload.length) {calls : List (Call ⊕ ExchangeCall)}
    (hmakes : Makes w t fd l c calls) :
    calls = packetCalls w a (c.state.account a) p.header.type
      (p.payload.take (neededBytes p.header.type)) c.state.exchange := by
  obtain ⟨r, s', hruns, hcalls⟩ := hmakes
  obtain ⟨new, bytes, hnew, hbytes, hmade⟩ :=
    h.calls (w := w) (G := w.regime) w.receiving (fun _ _ _ h => h) r s' hruns
  have heq := hbytes.of_replaces hnew hlen
  rw [← heq]
  exact List.append_cancel_right (hcalls.symm.trans hmade)

/-! ## Payloads that are too short -/

/-- The first of the calls for a request that loads bytes. -/
def firstCall (a : Nat) (type : UInt8) (bytes : List UInt8) : Call ⊕ ExchangeCall :=
  let n := ntohl (fieldAt 0 bytes)
  let price := ntohl (fieldAt 4 bytes)
  if type = PacketType.deposit.code then .inl (.account a (.increase .balance n))
  else if type = PacketType.withdraw.code then .inl (.account a (.decrease .balance n))
  else if type = PacketType.escrow.code then .inl (.account a (.increase .inventory n))
  else if type = PacketType.release.code then .inl (.account a (.decrease .inventory n))
  else if type = PacketType.buy.code then .inr (.postBuy a n price)
  else if type = PacketType.sell.code then .inr (.postSell a n price)
  else .inr (.cancel a n)

/-- The types of the requests that load bytes. -/
theorem neededBytes_cases {type : UInt8} (h : neededBytes type ≠ 0) :
    (neededBytes type = 4 ∧ (type = PacketType.deposit.code ∨ type = PacketType.withdraw.code ∨
      type = PacketType.escrow.code ∨ type = PacketType.release.code ∨
      type = PacketType.cancel.code)) ∨
    (neededBytes type = 8 ∧ (type = PacketType.buy.code ∨ type = PacketType.sell.code)) := by
  unfold neededBytes at *
  split_ifs at * with h4 h8
  · exact .inl ⟨rfl, h4⟩
  · exact .inr ⟨rfl, h8⟩
  · exact absurd rfl h

theorem getLast_packetCalls {type : UInt8} (h : neededBytes type ≠ 0) {acc : UInt32 × UInt32}
    {bytes : List UInt8} :
    (packetCalls w a acc type bytes x).getLast? = some (firstCall a type bytes) := by
  rcases neededBytes_cases h with ⟨_, rfl | rfl | rfl | rfl | rfl⟩ | ⟨_, rfl | rfl⟩ <;>
    exact List.getLast?_concat ..

theorem eq_of_fieldAt {off : Nat} {bs bs' : List UInt8} (h : off + 4 ≤ bs.length)
    (h' : off + 4 ≤ bs'.length) (heq : fieldAt off bs = fieldAt off bs') :
    (bs.drop off).take 4 = (bs'.drop off).take 4 := by
  have hlen : ((bs.drop off).take 4).length = 4 := by
    rw [List.length_take, List.length_drop]
    omega
  have hlen' : ((bs'.drop off).take 4).length = 4 := by
    rw [List.length_take, List.length_drop]
    omega
  have hbytes := congrArg bytes32 heq
  rwa [fieldAt, fieldAt, bytes32_word32 hlen, bytes32_word32 hlen'] at hbytes

/-- The arguments of the first call determine the bytes. -/
theorem firstCall_injective {type : UInt8} (h : neededBytes type ≠ 0) {bs bs' : List UInt8}
    (hbs : bs.length = neededBytes type) (hbs' : bs'.length = neededBytes type)
    (heq : firstCall a type bs = firstCall a type bs') : bs = bs' := by
  rcases neededBytes_cases h with ⟨hn, htype⟩ | ⟨hn, htype⟩
  · have hfield : ntohl (fieldAt 0 bs) = ntohl (fieldAt 0 bs') := by
      simp only [firstCall] at heq
      generalize ntohl (fieldAt 0 bs) = n, ntohl (fieldAt 0 bs') = n' at heq ⊢
      rcases htype with rfl | rfl | rfl | rfl | rfl <;>
      · cases heq
        rfl
    have htake := eq_of_fieldAt (by omega) (by omega) (swap32_injective hfield)
    rwa [List.drop_zero, List.drop_zero, List.take_of_length_le (by omega),
      List.take_of_length_le (by omega)] at htake
  · have hfields : ntohl (fieldAt 0 bs) = ntohl (fieldAt 0 bs') ∧
        ntohl (fieldAt 4 bs) = ntohl (fieldAt 4 bs') := by
      simp only [firstCall] at heq
      generalize ntohl (fieldAt 0 bs) = n, ntohl (fieldAt 0 bs') = n' at heq ⊢
      generalize ntohl (fieldAt 4 bs) = price, ntohl (fieldAt 4 bs') = price' at heq ⊢
      rcases htype with rfl | rfl <;>
      · cases heq
        exact ⟨rfl, rfl⟩
    have hfirst := eq_of_fieldAt (by omega) (by omega) (swap32_injective hfields.1)
    have hsecond := eq_of_fieldAt (by omega) (by omega) (swap32_injective hfields.2)
    rw [List.drop_zero, List.drop_zero] at hfirst
    rw [List.take_of_length_le (by simp; omega), List.take_of_length_le (by simp; omega)]
      at hsecond
    rw [← List.take_append_drop 4 bs, ← List.take_append_drop 4 bs', hfirst, hsecond]

/-- In the surroundings `w`, in which no system call fails and the memory that is read beyond a
payload is filled with `far`. -/
def Surroundings.around (w : Surroundings E) (far : UInt8) : Regime (machine E) where
  ok o e s := w.Follow o e s ∧
    match o with
    | .beyond n => e = .memory (List.replicate n far)
    | .write _ _ => e ≠ .ioError
    | _ => True
  again := Choice.isEintr

theorem Surroundings.answering (w : Surroundings E) (hw : ∀ n, (w.junk n).length = n)
    (far : UInt8) : Answering (w.around far) where
  again _ := rfl
  write := ⟨And.right, fun h => ⟨trivial, h⟩⟩
  clock := ⟨trivial, trivial⟩
  read := ⟨And.left, fun h => ⟨h, trivial⟩⟩
  malloc := ⟨trivial, trivial⟩
  silent {o s} ho := by
    cases o <;> first | exact ⟨trivial, trivial⟩ | cases ho
  uninit n _ := ⟨w.junk n, hw n, rfl, trivial⟩
  beyond n _ := ⟨List.replicate n far, List.length_replicate .., trivial, rfl⟩
  exchange c s := ⟨w.choose c s.exchange, rfl, trivial⟩

theorem Loaded.ends_with {far : UInt8} {new : Option Payload} {n : Nat} {bytes : List UInt8}
    (h : Loaded (w.around far).ok new n bytes)
    (hshort : (new.elim [] Payload.bytes).length < n) :
    bytes.length = n ∧ bytes.getLast? = some far := by
  obtain ⟨rest, rfl, hlen, hrest⟩ := h
  have hpos : 0 < rest.length := by omega
  obtain ⟨u, _, hmemory⟩ := hrest (List.ne_nil_of_length_pos hpos)
  obtain ⟨m, hm⟩ : ∃ m, rest.length = m + 1 := Nat.exists_eq_succ_of_ne_zero hpos.ne'
  have hfill : rest = List.replicate m far ++ [far] := by
    rw [← List.replicate_succ', ← hm]
    exact Choice.memory.inj hmemory
  constructor
  · rw [List.length_append, List.length_take]
    omega
  · rw [hfill, ← List.append_assoc, List.getLast?_concat]

/-- The thread can serve the packet, whatever lies beyond its payload. -/
theorem Arrived.exists_makes {c : Pool (server E)} (h : Arrived p t a fd l c) (hE : E.Quiet)
    (hw : ∀ n, (w.junk n).length = n) {tr : Trader} (htr : c.state.traders a = some tr)
    (hfree : tr.mutex.depth = 0) (far : UInt8) :
    ∃ new bytes, p.Replaces l.payload new ∧
      Loaded (w.around far).ok new (neededBytes p.header.type) bytes ∧
      Makes w t fd l c
        (packetCalls w a (c.state.account a) p.header.type bytes c.state.exchange) := by
  have hG := w.answering hw far
  obtain ⟨conn, hconn, hfront⟩ := h.front
  obtain ⟨r, s', hruns, _⟩ :=
    (total_serveNext hG hE h.login htr (.inl hfree) hconn hfront).exists_runs
  obtain ⟨new, bytes, hnew, hbytes, hcalls⟩ :=
    h.calls hG.toReceiving (fun _ _ _ h => h.1) r s' hruns
  exact ⟨new, bytes, hnew, hbytes, r, s', hruns.mono fun _ _ _ h => h.1, hcalls⟩

/-! ### Concrete histories -/

/-- The connection and the session of a thread that is about to receive a packet. -/
def Pool.serving (c : Pool (server E)) (t : Nat) : Option (Int × Session) :=
  match c.prog t with
  | .call (.service fd l) _ => some (fd, l)
  | _ => none

theorem Pool.prog_of_serving {c : Pool (server E)} (h : Pool.serving c t = some (fd, l)) :
    ∃ k, c.prog t = .call (.service fd l) k := by
  unfold Pool.serving at h
  split at h
  · rename_i k hk
    cases h
    exact ⟨k, hk⟩
  · cases h

/-- The program of the thread has ended. -/
def Pool.resting (c : Pool (server E)) (t : Nat) : Bool :=
  match c.prog t with
  | .ret _ => true
  | _ => false

theorem Pool.prog_of_resting {c : Pool (server E)} (h : Pool.resting c t = true) :
    ∃ u, c.prog t = .ret u := by
  unfold Pool.resting at h
  split at h
  · exact ⟨_, by assumption⟩
  · cases h

/-- An exchange without choices, and stack memory that is zero. -/
def still : Surroundings (.fixed 1 1) := ⟨fun _ _ => (), fun n => List.replicate n 0⟩

/-- Thread 0 is logged in as trader 0 and has the packets `input` before it. -/
def waiting (payload input : List UInt8) (c : Pool (server (.fixed 1 1))) : Bool :=
  ((Pool.serving c 0).any fun r => r.1 = 3 && r.2.thisTrader = some 0 &&
    r.2.payload.map Payload.bytes = some payload) &&
  ((c.state.conns 3).any fun conn => conn.input = input && !conn.ended) &&
  (c.state.traders 0).any fun tr => tr.fd = 3 && tr.mutex.depth = 0

theorem of_waiting {payload input : List UInt8} {c : Pool (server (.fixed 1 1))}
    (h : waiting payload input c = true) :
    ∃ l k conn tr, c.prog 0 = .call (.service 3 l) k ∧ l.thisTrader = some 0 ∧
      l.payload.map Payload.bytes = some payload ∧ c.state.conns 3 = some conn ∧
      conn.input = input ∧ conn.ended = false ∧ c.state.traders 0 = some tr ∧
      tr.mutex.depth = 0 := by
  simp only [waiting, Bool.and_eq_true, Option.any_eq_true, decide_eq_true_eq] at h
  obtain ⟨⟨⟨⟨fd, l⟩, hserving, ⟨rfl, hl⟩, hpayload⟩, conn, hconn, hinput, hended⟩,
    tr, htr, _, hm⟩ := h
  obtain ⟨k, hk⟩ := Pool.prog_of_serving hserving
  exact ⟨l, k, conn, tr, hk, hl, hpayload, hconn, hinput, by simpa using hended, htr, hm⟩

/-- A client that has logged in sends `p` next. -/
theorem exists_arrived (p : Packet) :
    ∃ (c : Pool (server (.fixed 1 1))) (l : Session) (tr : Trader), Arrived p 0 0 3 l c ∧
      (l.payload.elim [] Payload.bytes).length = 1 ∧ c.state.traders 0 = some tr ∧
      tr.mutex.depth = 0 := by
  obtain ⟨c, hc, ht⟩ := Pool.exists_reach (smoothCourse_within ())
    [.start 0 (.accept 3 (packet .login [97]) false), .drive 0 123]
    (Pool.idle (State.init _ () 4))
    (fun c => waiting [97] [] c && Pool.resting c 1) (by decide +kernel)
  rw [Bool.and_eq_true] at ht
  obtain ⟨l, k, conn, tr, hk, hl, hpayload, hconn, hinput, hended, htr, hm⟩ :=
    of_waiting ht.1
  obtain ⟨u, hu⟩ := Pool.prog_of_resting ht.2
  have hstep : c.step (.start 1 (.deliver 3 p.toBytes false)) =
      some ⟨c.state.setConn 3 (some (conn.deliver p.toBytes false)),
        Function.update c.prog 1 (.ret ())⟩ := by
    simp [Pool.step, hu, launch, hconn, hended]
  refine ⟨_, l, tr, ⟨⟨(), 4, hc.tail ⟨_, trivial, hstep⟩⟩, ⟨k, by simpa using hk⟩, hl, _,
    State.setConn_conns .., ?_⟩, ?_, htr, hm⟩
  · rw [Conn.deliver, hinput, List.nil_append, ← List.append_nil p.toBytes]
    exact Packet.front_append p []
  · cases hold : l.payload with
    | none => simp [hold] at hpayload
    | some old =>
      have hbytes : old.bytes = [97] := by simpa [hold] using hpayload
      simp [hbytes]

/-- The bytes a request needs are in its payload, or they do not come from it. -/
theorem sameCalls_iff (p : Packet) :
    SameCalls p ↔ neededBytes p.header.type ≤ p.payload.length := by
  constructor
  · intro hsame
    by_contra hshort
    obtain ⟨c, l, tr, harr, hold, htr, hm⟩ := exists_arrived p
    have hneeded : neededBytes p.header.type ≠ 0 := by omega
    have hmake : ∀ far, ∃ bytes, bytes.length = neededBytes p.header.type ∧
        bytes.getLast? = some far ∧ Makes still 0 3 l c
          (packetCalls still 0 (c.state.account 0) p.header.type bytes c.state.exchange) := by
      intro far
      obtain ⟨new, bytes, hnew, hbytes, hmakes⟩ := harr.exists_makes (w := still)
        (quiet_fixed 1 1) (fun n => List.length_replicate ..) htr hm far
      have hlen : (new.elim [] Payload.bytes).length < neededBytes p.header.type := by
        unfold Packet.Replaces at hnew
        split_ifs at hnew
        · rw [hnew, hold]
          rcases neededBytes_cases hneeded with ⟨h4, _⟩ | ⟨h8, _⟩ <;> omega
        · obtain ⟨block, rfl⟩ := hnew
          exact Nat.lt_of_not_le hshort
      obtain ⟨hn, hlast⟩ := hbytes.ends_with hlen
      exact ⟨bytes, hn, hlast, hmakes⟩
    obtain ⟨bytes, hn, hlast, hmakes⟩ := hmake 0
    obtain ⟨bytes', hn', hlast', hmakes'⟩ := hmake 1
    have hcalls := hsame _ _ _ _ _ _ _ _ _ _ _ harr harr rfl rfl _ _ hmakes hmakes'
    have hfirst := congrArg List.getLast? hcalls
    rw [getLast_packetCalls hneeded, getLast_packetCalls hneeded] at hfirst
    have hbytes := firstCall_injective hneeded hn hn' (Option.some.inj hfirst)
    rw [hbytes, hlast'] at hlast
    cases hlast
  · intro hlen E w a t₁ t₂ fd₁ fd₂ l₁ l₂ c₁ c₂ h₁ h₂ hacc hx calls₁ calls₂ hm₁ hm₂
    rw [h₁.calls_of_le hlen hm₁, h₂.calls_of_le hlen hm₂, State.account, State.account, hacc, hx]

/-! ### A stale payload -/

/-- A DEPOSIT without a payload. -/
def emptyDeposit : Packet := ⟨{ PacketHeader.zero with type := PacketType.deposit.code }, [], rfl⟩

/-- Only one trader is ever created, at address 0. -/
def OneTrader (_ : Pool (server E)) (m : Move (server E)) : Prop :=
  ∀ t a junk, m = .run t (.trader a junk) → a = 0

theorem exec_no_trader {o : Op} {e : Choice E} {s s' : State E} {r : o.Reply} {b : Nat}
    (h : exec t o e s = .done r s') (he : ∀ a junk, e = .trader a junk → a ≠ b)
    (hb : s.traders b = none) : s'.traders b = none := by
  have hother : ∀ {a : Nat} {tr : Trader} (v : Option Trader), s.traders a = some tr →
      (s.setTrader a v).traders b = none := by
    intro a tr v htr
    have hne : b ≠ a := by
      rintro rfl
      rw [hb] at htr
      cases htr
    exact (Function.update_of_ne hne ..).trans hb
  cases o
  case lock a =>
    obtain ⟨tr, m, htr, _, rfl⟩ := exec_lock h
    exact hother _ htr
  case unlock a =>
    obtain ⟨tr, htr, rfl⟩ := exec_unlock h
    exact hother _ htr
  case mutexInit a =>
    obtain ⟨tr, htr, rfl⟩ := exec_mutexInit h
    exact hother _ htr
  case freeTrader a =>
    obtain ⟨tr, htr, rfl⟩ := exec_freeTrader h
    exact hother _ htr
  case store f a v =>
    obtain ⟨tr, htr, rfl⟩ := exec_store h
    exact hother _ htr
  case mallocTrader =>
    obtain ⟨junk, rfl, _, rfl⟩ := exec_mallocTrader h
    exact (Function.update_of_ne (he r junk rfl).symm ..).trans hb
  all_goals
    have hframe := (exec_frame h).traders rfl
    rw [hframe, hb]

theorem no_other_trader {c c' : Pool (server E)} (h : Pool.ReachIf OneTrader c c')
    (hc : ∀ b, b ≠ 0 → c.state.traders b = none) : ∀ b, b ≠ 0 → c'.state.traders b = none := by
  intro b hb
  refine h.invariant (P := fun s : State E => s.traders b = none) ?_ ?_ (hc b hb)
  · intro d t e o k r s _ hm he hnone
    refine exec_no_trader he (fun a junk hjunk => ?_) hnone
    rw [hm t a junk (congrArg _ hjunk)]
    exact hb.symm
  · intro t q p s s' hlaunch hnone
    obtain ⟨conns, rfl⟩ := launch_state hlaunch
    exact hnone

/-- A trader that is created gets the address 0. -/
def createsFirst (o : Op) (s : State E) : Bool :=
  match o with
  | .mallocTrader => firstFree (fun a => (s.traders a).isSome) = 0
  | _ => true

/-- The smooth course of events, in which only the address 0 is given to a trader. -/
def oneTraderCourse : Pool.Course (server (.fixed 1 1)) :=
  smoothly () (fun _ => createsFirst) fun _ _ _ => true

theorem oneTraderCourse_within : oneTraderCourse.Within OneTrader where
  op {c t o k e} hp he := by
    intro u a junk hm
    obtain ⟨rfl, rfl⟩ := Move.run.inj hm
    simp only [oneTraderCourse, smoothly] at he
    split_ifs at he with hguard
    cases o <;> cases he
    simpa [createsFirst] using hguard
  call _ := by
    intro u a junk hm
    cases hm
  start _ := by
    intro u a junk hm
    cases hm

def deposit (n : UInt8) : List UInt8 := packet .deposit [0, 0, 0, n]

/-- Client `a` logs in, makes two deposits, and sends an empty one. -/
def twoDeposits (m n : UInt8) : List (Pool.Stage (server (.fixed 1 1))) :=
  [.start 0 (.accept 3 (packet .login [97] ++ deposit m ++ deposit n ++ emptyDeposit.toBytes)
    false), .drive 0 193]

/-- The account is 3, and the last deposit was `n`. -/
def deposited (n : UInt8) (c : Pool (server (.fixed 1 1))) : Bool :=
  waiting [0, 0, 0, n] emptyDeposit.toBytes c && c.state.accounts 0 = some (3, 0)

/-- The empty deposit is served as a deposit of `n`, the amount of the last one. -/
theorem stale_deposit {m n : UInt8}
    (h : (Pool.perform oneTraderCourse (twoDeposits m n) (Pool.idle (State.init _ () 4))).any
      (deposited n) = true) :
    ∃ c l, Arrived emptyDeposit 0 0 3 l c ∧
      c.state.accounts = (fun a => if a = 0 then some (3, 0) else none) ∧
      Makes still 0 3 l c
        (packetCalls still 0 (3, 0) PacketType.deposit.code [0, 0, 0, n] ()) := by
  obtain ⟨c, hc, ht⟩ := Pool.exists_reach oneTraderCourse_within _ _ _ h
  simp only [deposited, Bool.and_eq_true, decide_eq_true_eq] at ht
  obtain ⟨l, k, conn, tr, hk, hl, hpayload, hconn, hinput, hended, htr, hm⟩ :=
    of_waiting ht.1
  have harr : Arrived emptyDeposit 0 0 3 l c := by
    refine ⟨⟨(), 4, hc.mono fun _ _ _ => trivial⟩, ⟨k, hk⟩, hl, conn, hconn, ?_⟩
    rw [hinput, ← List.append_nil emptyDeposit.toBytes]
    exact Packet.front_append emptyDeposit []
  refine ⟨c, l, harr, ?_, ?_⟩
  · funext a
    by_cases ha : a = 0
    · rw [ha, ht.2, if_pos rfl]
    · rw [if_neg ha, State.accounts, no_other_trader hc (fun _ _ => rfl) a ha]
      rfl
  · obtain ⟨new, bytes, hnew, hbytes, hmakes⟩ := harr.exists_makes (w := still)
      (quiet_fixed 1 1) (fun n => List.length_replicate ..) htr hm 0
    obtain rfl : new = l.payload := hnew
    obtain ⟨old, hold, hbytes_old⟩ := Option.map_eq_some_iff.mp hpayload
    have heq := hbytes.eq_take (by rw [hold]; exact (congrArg List.length hbytes_old).ge)
    have hacc : c.state.account 0 = (3, 0) := by rw [State.account, ht.2]; rfl
    rw [hold] at heq
    rw [hacc, heq] at hmakes
    change Makes still 0 3 l c (packetCalls still 0 (3, 0) _ (old.bytes.take 4) ()) at hmakes
    rwa [hbytes_old] at hmakes

/-- After deposits of 1 and 2 an empty deposit is one of 2, and after deposits of 2 and 1 it is
one of 1. -/
theorem empty_deposit_depends_on_history : ¬ SameCalls emptyDeposit := by
  intro hsame
  obtain ⟨c, l, harr, hacc, hmakes⟩ := stale_deposit (m := 1) (n := 2) (by decide +kernel)
  obtain ⟨c', l', harr', hacc', hmakes'⟩ := stale_deposit (m := 2) (n := 1) (by decide +kernel)
  have hcalls := hsame _ _ _ _ _ _ _ _ _ _ _ harr harr' (hacc.trans hacc'.symm) rfl _ _ hmakes
    hmakes'
  have hneeded : neededBytes PacketType.deposit.code ≠ 0 := by decide
  have hfirst := (getLast_packetCalls hneeded).symm.trans
    ((congrArg List.getLast? hcalls).trans (getLast_packetCalls hneeded))
  have hbytes := firstCall_injective hneeded rfl rfl (Option.some.inj hfirst)
  cases hbytes

end BourseServer
