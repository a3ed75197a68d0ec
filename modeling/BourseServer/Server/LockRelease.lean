import BourseServer.Trader.LockBalance

/-!
# No thread keeps a trader's mutex

The service threads and the threads that call the trader module from outside run neutral code
only, so in a run in which the module's writes succeed a mutex is held by a thread that is
still inside the module. With a write that fails this is not so: a broadcast that reaches a
trader who has logged out keeps the mutex, and the trader cannot log in again.
-/
namespace BourseServer

open Concurrency

namespace LockBalance

variable {E : Exchange} {ok : List Call → Prop}

/-! ## The client registry -/

theorem neutral_searchForEmptySlot : Neutral E ok searchForEmptySlot fun _ => True := by
  refine Neutral.seq (neutral_step rfl nofun) fun n => neutral_search fun i => ?_
  refine Neutral.seq (neutral_step rfl nofun) fun fd => ?_
  split_ifs <;> exact neutral_ret trivial

theorem neutral_cregRegister {fd : Int} : Neutral E ok (cregRegister fd) fun _ => True := by
  refine Neutral.seq (neutral_step rfl nofun) fun _ => Neutral.seq (neutral_step rfl nofun)
    fun _ => Neutral.seq neutral_searchForEmptySlot fun i => ?_
  cases i with
  | none => exact neutral_ret trivial
  | some i =>
    have hend : Neutral E ok (do semPost .mutex; semPost .items; pure (0 : Int)) fun _ => True :=
      .seq (neutral_step rfl nofun) fun _ => .seq (neutral_step rfl nofun) fun _ =>
        neutral_ret trivial
    refine Neutral.seq (neutral_step rfl nofun) fun _ => Neutral.seq (neutral_step rfl nofun)
      fun _ => Neutral.seq (neutral_step rfl nofun) fun _ => Neutral.seq (neutral_step rfl nofun)
      fun n => ?_
    dsimp only
    split_ifs
    · exact .seq (neutral_step rfl nofun) fun _ => hend
    · exact hend

theorem neutral_cregUnregister {fd : Int} : Neutral E ok (cregUnregister fd) fun _ => True := by
  refine Neutral.seq (neutral_step rfl nofun) fun _ => Neutral.seq (neutral_step rfl nofun)
    fun _ => Neutral.seq (neutral_step rfl nofun) fun n =>
    Neutral.seq (neutral_search fun i => ?_) fun found => ?_
  · refine Neutral.seq (neutral_step rfl nofun) fun cur => ?_
    split_ifs
    · have hend : Neutral E ok (do semPost .mutex; semPost .slots; pure (some ()))
          fun _ => True :=
        .seq (neutral_step rfl nofun) fun _ => .seq (neutral_step rfl nofun) fun _ =>
          neutral_ret trivial
      refine Neutral.seq (neutral_step rfl nofun) fun _ => Neutral.seq (neutral_step rfl nofun)
        fun _ => Neutral.seq (neutral_step rfl nofun) fun _ =>
        Neutral.seq (neutral_step rfl nofun) fun n => ?_
      dsimp only
      split_ifs
      · exact .seq (neutral_step rfl nofun) fun _ => hend
      · exact hend
    · exact neutral_ret trivial
  · cases found with
    | some _ => exact neutral_ret trivial
    | none =>
      exact .seq (neutral_step rfl nofun) fun _ => .seq (neutral_step rfl nofun) fun _ =>
        neutral_ret trivial

/-! ## The service thread -/

theorem neutral_exchangeGetStatus {info : StatusInfo} :
    Neutral E ok (exchangeGetStatus info) fun _ => True :=
  .seq (neutral_step rfl nofun) fun _ => neutral_ret trivial

theorem neutral_exchangePostBuy {a : Nat} {quantity price : UInt32} :
    Neutral E ok (exchangePostBuy a quantity price) fun _ => True :=
  .seq (neutral_step rfl nofun) fun _ => .seq neutral_runClients fun _ => neutral_ret trivial

theorem neutral_exchangePostSell {a : Nat} {quantity price : UInt32} :
    Neutral E ok (exchangePostSell a quantity price) fun _ => True :=
  .seq (neutral_step rfl nofun) fun _ => .seq neutral_runClients fun _ => neutral_ret trivial

theorem neutral_exchangeCancel {a : Nat} {order junk : UInt32} :
    Neutral E ok (exchangeCancel a order junk) fun _ => True :=
  .seq (neutral_step rfl nofun) fun _ => .seq neutral_runClients fun _ => neutral_ret trivial

theorem neutral_alreadyRegistred {fd : Int} : Neutral E ok (alreadyRegistred fd) fun _ => True :=
  .seq (neutral_step rfl nofun) fun _ => .seq neutral_protoSendPacket fun _ =>
    neutral_ret trivial

theorem neutral_loadPayload {payload : Option Payload} {n : Nat} :
    Neutral E ok (loadPayload payload n) fun _ => True := by
  unfold loadPayload
  dsimp only
  split_ifs
  · exact .seq (neutral_step rfl nofun) fun _ => neutral_ret trivial
  · exact neutral_ret trivial

theorem neutral_localStatus : Neutral E ok localStatus fun _ => True :=
  .seq (neutral_step rfl nofun) fun _ => neutral_ret trivial

theorem neutral_replyIf {b : Bool} {a : Nat} {info : StatusInfo} :
    Neutral E ok (replyIf b a info) fun _ => True := by
  cases b with
  | true => exact .seq neutral_traderSendAck fun _ => neutral_ret trivial
  | false => exact .seq neutral_traderSendNack fun _ => neutral_ret trivial

theorem neutral_statusRequest {a : Nat} : Neutral E ok (statusRequest a) fun _ => True :=
  .seq neutral_localStatus fun _ => .seq neutral_exchangeGetStatus fun _ => neutral_replyIf

theorem neutral_increaseRequest {x : Asset} {a : Nat} {payload : Option Payload} :
    Neutral E ok (increaseRequest x a payload) fun _ => True :=
  .seq neutral_loadPayload fun _ => .seq neutral_increaseAsset fun _ =>
    .seq neutral_localStatus fun _ => .seq neutral_exchangeGetStatus fun _ => neutral_replyIf

theorem neutral_decreaseRequest {x : Asset} {a : Nat} {payload : Option Payload} :
    Neutral E ok (decreaseRequest x a payload) fun _ => True :=
  .seq neutral_loadPayload fun _ => .seq neutral_decreaseAsset fun _ =>
    .seq neutral_localStatus fun _ => .seq neutral_exchangeGetStatus fun _ => neutral_replyIf

theorem neutral_orderRequest {post : Nat → UInt32 → UInt32 → Code UInt32} {a : Nat}
    {payload : Option Payload} (h : ∀ q p, Neutral E ok (post a q p) fun _ => True) :
    Neutral E ok (orderRequest post a payload) fun _ => True :=
  .seq neutral_loadPayload fun _ => .seq (h _ _) fun _ =>
    .seq neutral_localStatus fun _ => .seq neutral_exchangeGetStatus fun _ => neutral_replyIf

theorem neutral_cancelRequest {a : Nat} {payload : Option Payload} :
    Neutral E ok (cancelRequest a payload) fun _ => True :=
  .seq neutral_loadPayload fun _ => .seq (neutral_step rfl nofun) fun _ =>
    .seq neutral_exchangeCancel fun _ => .seq neutral_localStatus fun _ =>
    .seq neutral_exchangeGetStatus fun _ => neutral_replyIf

theorem neutral_serveRequest {a : Nat} {type : UInt8} {payload : Option Payload} :
    Neutral E ok (serveRequest a type payload) fun _ => True := by
  unfold serveRequest
  split_ifs
  · exact neutral_statusRequest
  · exact neutral_increaseRequest
  · exact neutral_decreaseRequest
  · exact neutral_increaseRequest
  · exact neutral_decreaseRequest
  · exact neutral_orderRequest fun _ _ => neutral_exchangePostBuy
  · exact neutral_orderRequest fun _ _ => neutral_exchangePostSell
  · exact neutral_cancelRequest
  · exact neutral_ret trivial

theorem neutral_serveLogin {fd : Int} {hdr : PacketHeader} {payload : Option Payload} :
    Neutral E ok (serveLogin fd hdr payload) fun _ => True := by
  refine Neutral.seq (neutral_step rfl nofun) fun ⟨block, _⟩ => Neutral.seq neutral_loadPayload
    fun bytes => Neutral.seq neutral_traderLogin fun a => ?_
  cases a with
  | none => exact .seq neutral_alreadyRegistred fun _ => neutral_ret trivial
  | some a => exact .seq neutral_traderSendAck fun _ => neutral_ret trivial

theorem neutral_serveEnd {block : Nat} {hdr : PacketHeader} {l : Session} :
    Neutral E ok (serveEnd block hdr l) fun _ => True := by
  have hend : Neutral E ok (do free (some block); serveLogout l) fun _ => True := by
    refine Neutral.seq (neutral_step rfl nofun) fun _ => ?_
    unfold serveLogout
    split
    · exact neutral_ret trivial
    · exact neutral_traderLogout
  unfold serveEnd
  dsimp only
  split_ifs
  · exact .seq (neutral_step rfl nofun) fun _ => hend
  · exact hend

theorem neutral_servePacket {fd : Int} {block : Nat} {hdr : PacketHeader} {l : Session} :
    Neutral E ok (servePacket fd block hdr l) fun _ => True := by
  unfold servePacket
  split_ifs
  · exact .seq (neutral_step rfl nofun) fun _ => neutral_ret trivial
  · split
    · exact .seq neutral_traderSendNack fun _ => neutral_ret trivial
    · exact .seq neutral_serveLogin fun _ => .seq (neutral_step rfl nofun) fun _ =>
        neutral_ret trivial
  · split
    · exact neutral_ret trivial
    · exact .seq neutral_serveRequest fun _ => .seq (neutral_step rfl nofun) fun _ =>
        neutral_ret trivial

theorem neutral_serveNext {fd : Int} {l : Session} :
    Neutral E ok (serveNext fd l) fun _ => True := by
  refine Neutral.seq (neutral_step rfl nofun) fun ⟨block, _⟩ =>
    Neutral.seq neutral_protoRecvPacket fun ⟨status, hdr, payload⟩ => ?_
  dsimp only
  split_ifs
  · exact .seq neutral_serveEnd fun _ => neutral_ret trivial
  · exact .seq neutral_servePacket fun _ => neutral_ret trivial

theorem neutral_serviceLoop {fd : Int} {l : Session} :
    Neutral E ok (serviceLoop fd l) fun _ => True := by
  refine Neutral.seq neutral_serveNext fun l => ?_
  cases l with
  | some l => exact neutral_invoke
  | none => exact neutral_ret trivial

theorem neutral_brsClientService {fd : Int} :
    Neutral E ok (brsClientService fd) fun _ => True := by
  refine Neutral.seq neutral_cregRegister fun r => ?_
  split_ifs
  · exact neutral_ret trivial
  · refine Neutral.seq neutral_invoke fun _ => Neutral.seq neutral_cregUnregister fun r => ?_
    split_ifs
    · exact neutral_ret trivial
    · exact neutral_step rfl nofun

/-! ## All interleavings -/

theorem neutral_body {p : Proc} : Neutral E ok (body p) fun _ => True := by
  cases p with
  | readn fd n nleft got => exact neutral_readnLoop
  | writen fd n rest => exact neutral_writenLoop
  | service fd l => exact neutral_serviceLoop

theorem neutral_body_inside {p : Proc} : Neutral E Inside (body p) (Succeeds p) := by
  cases p with
  | readn fd n nleft got => exact neutral_readnLoop
  | writen fd n rest => exact neutral_writenLoop_inside
  | service fd l => exact neutral_serviceLoop

/-- A thread that has nothing to do may be given any neutral program. -/
theorem launch_neutral {t : Nat} {q : Request} {s s' : State E} {p : Code Unit}
    (h : launch t q s = some (p, s')) : Neutral E (fun _ => True) p fun _ => True := by
  cases q with
  | client c =>
    cases h
    exact neutral_runClient
  | accept fd input ended =>
    simp only [launch] at h
    repeat' split at h
    all_goals cases h
    exact neutral_brsClientService
  | deliver fd bytes ended =>
    simp only [launch] at h
    repeat' split at h
    all_goals cases h
    exact neutral_ret trivial

theorem verified : (discipline E).Verified fun _ _ _ => True where
  body t p w _ _ := by
    have hat : At t (w.state.hist.frames t) (w.state.depth t) w := ⟨rfl, fun _ => le_rfl⟩
    by_cases hin : w.state.hist.frames t = []
    · have hbody : Neutral E Anywhere (body p) fun _ => True := neutral_body
      refine Discipline.wp_mono (hbody t _ _ w trivial hat) ?_
      exact fun r w' _ h => ⟨⟨h.1.1, h.1.2⟩, fun hout => absurd hin hout⟩
    · refine Discipline.wp_mono (neutral_body_inside t _ _ w hin hat) ?_
      exact fun r w' _ h => ⟨⟨h.1.1, h.1.2⟩, fun _ => h.2⟩
  start t q w p s hi hidle h _ := by
    have hp := launch_neutral h
    obtain ⟨conns, rfl⟩ := launch_state h
    have hkept : ∀ u, Kept u w (w.after t { w.state with conns := conns } ()) := fun u =>
      ⟨rfl, fun a => le_rfl⟩
    refine ⟨(), ⟨⟨hi.idle, hi.owned⟩, fun u _ => hkept u⟩, ?_⟩
    · refine Discipline.wp_mono
        (hp t [] (w.state.depth t) _ trivial (At.kept ⟨hidle, fun _ => le_rfl⟩ (hkept t))) ?_
      exact fun _ _ _ h => h.1.1

end LockBalance

/-- Every write that a thread makes inside a function of the trader module succeeds: the
descriptor is open and the system reports no error. -/
def SendsSucceed {E : Exchange} (c : Pool (server E)) : Move (server E) → Prop
  | .run t e => ∀ fd bs k, c.prog t = .op (.write fd bs) k → c.state.hist.frames t ≠ [] →
      c.state.conns fd ≠ none ∧ e ≠ .ioError
  | .start _ _ => True

/-- A thread that is in no function of the trader module holds no trader's mutex, so whoever
has to wait for a mutex waits for another thread that is still inside the module. -/
theorem mutex_released {E : Exchange} {x : E.State} {n : Nat} {c : Pool (server E)}
    (h : Pool.ReachIf SendsSucceed (Pool.idle (State.init E x n)) c) :
    (∀ t, c.state.hist.frames t = [] → ∀ a, c.state.depth t a = 0) ∧
      ∀ t a tr, c.state.traders a = some tr → tr.mutex.initialised = true →
        tr.mutex.lock t = none →
          ∃ u, u ≠ t ∧ tr.mutex.owner = some u ∧ c.state.hist.frames u ≠ [] := by
  have hinit : (LockBalance.discipline E).Holds (Pool.idle (State.init E x n)) := by
    refine Discipline.holds_idle (g := fun _ => ()) ⟨fun t _ a => rfl, nofun⟩ ?_
    exact fun t w hk _ => hk.frames
  have hallowed : ∀ (d : Pool (server E)) m, SendsSucceed d m →
      (LockBalance.discipline E).Allowed (fun _ _ _ => True) d m := by
    intro d m hm
    cases m with
    | start t q => trivial
    | run t e =>
      intro o k hp
      cases o
      case write fd bs => exact hm fd bs k hp
      all_goals trivial
  obtain ⟨g, hi, _⟩ := Discipline.adequacy LockBalance.verified hinit (h.mono hallowed)
  refine ⟨hi.idle, fun t a tr htr hinitialised hwait => ?_⟩
  have hdepth : tr.mutex.depth ≠ 0 := by
    intro h0
    simp [Mutex.lock, h0] at hwait
  cases ho : tr.mutex.owner with
  | none => exact absurd (hi.owned a tr htr hinitialised ho) hdepth
  | some u =>
    have hne : u ≠ t := by
      rintro rfl
      simp [Mutex.lock, hdepth, ho] at hwait
    refine ⟨u, hne, rfl, fun hf => hdepth ?_⟩
    have h0 := hi.idle u hf a
    rwa [State.depth_of_some htr, Mutex.heldBy, if_pos ho] at h0

/-- Client `a` logs in on a connection, and perhaps ends it. -/
def session (t : Nat) (ended : Bool) : Pool.Stage (server (.fixed 1 1)) :=
  .start t (.accept 3 (packet .login [97]) ended)

def broadcast (t : Nat) : Pool.Stage (server (.fixed 1 1)) :=
  .start t (.client (.broadcast .zero []))

/-- The smooth course of events without a write to a closed connection. -/
def sendingCourse : Pool.Course (server (.fixed 1 1)) :=
  smoothly () (fun t o s =>
    match o with
    | .write fd _ => decide (s.hist.frames t = []) || (s.conns fd).isSome
    | _ => true) fun _ _ _ => true

theorem sendingCourse_within : sendingCourse.Within SendsSucceed where
  op {c t o k e} hp he := by
    intro fd bs k' hp' hf
    obtain ⟨rfl, _⟩ := Prog.op.inj (hp.symm.trans hp')
    simp only [sendingCourse, smoothly] at he
    split at he
    · rename_i hg
      obtain rfl := Option.some.inj he
      refine ⟨?_, by simp [Choice.smooth]⟩
      simpa [hf, Option.isSome_iff_ne_none] using hg
    · cases he
  call hp := by
    intro fd bs k' hp'
    rw [hp] at hp'
    cases hp'
  start _ := trivial

/-- A broadcast reaches the client that is logged in. -/
theorem mutex_released_after_broadcast :
    ∃ c : Pool (server (.fixed 1 1)), (c.state.conns 3).any (fun k => k.output.length = 24) = true ∧
      ∀ t, c.state.hist.frames t = [] → ∀ a, c.state.depth t a = 0 := by
  obtain ⟨c, hc, ht⟩ := Pool.exists_reach sendingCourse_within
    [session 0 false, .drive 0 500, broadcast 1, .drive 1 500] (Pool.idle (State.init _ () 4))
    (fun c => (c.state.conns 3).any fun k => k.output.length = 24) (by decide +kernel)
  exact ⟨c, ht, (mutex_released hc).1⟩

/-- Trader `a` logs in on one connection and leaves it, thread 1 broadcasts, and a second
connection asks for the same name. -/
def broadcastAfterLogout : List (Pool.Stage (server (.fixed 1 1))) :=
  [session 0 true, .drive 0 500, broadcast 1, .drive 1 500, session 2 true, .drive 2 500]

/-- Thread 1 has done its work and holds the mutex of trader 0, and thread 2 waits for it. -/
def mutexKept (c : Pool (server (.fixed 1 1))) : Bool :=
  decide (c.state.hist.frames 1 = []) && decide (c.state.depth 1 0 = 1) &&
    match c.prog 1, c.prog 2 with
    | .ret _, .op (.lock 0) _ => (c.state.traders 0).any fun tr => (tr.mutex.lock 2).isNone
    | _, _ => false

theorem mutex_kept_after_failed_send :
    ∃ c : Pool (server (.fixed 1 1)), Pool.Reach (Pool.idle (State.init _ () 4)) c ∧
      c.state.hist.frames 1 = [] ∧ c.state.depth 1 0 = 1 ∧ mutexKept c = true := by
  obtain ⟨c, hc, ht⟩ := Pool.exists_reach (smoothCourse_within ()) broadcastAfterLogout
    (Pool.idle (State.init _ () 4)) mutexKept (by decide +kernel)
  have h := ht
  simp only [mutexKept, Bool.and_eq_true, decide_eq_true_eq] at h
  exact ⟨c, hc, h.1.1, h.1.2, ht⟩

end BourseServer
