import BourseServer.Sessions.Login

/-!
# The service thread among threads

A service thread serves its connection, logged in or not, until it leaves the loop. It is logged
out before it unregisters the client and closes the connection.
-/
namespace BourseServer.Sessions

open Concurrency Bytes

variable {E : Exchange} {W : Watch} {t a : Nat} {h : Holdings} {F : Shared → Prop} {fd : Int}
  {u : Option Nat}

/-! ## The exchange -/

theorem triple_runClients {cs : List ClientCall} (hF : Lasts F)
    (hfair : ∀ v, F v → ∀ c ∈ cs, Fair W.whole v c) (hidle : h.sending = none) :
    (discipline E W).Triple t (At t [] h F) (runClients cs) fun _ => At t [] h F := by
  induction cs with
  | nil => exact .ret (stable_at hF.steady) fun _ _ hw => hw
  | cons c cs ih =>
    exact .bind (triple_runClient hF (fun v hv => hfair v hv c List.mem_cons_self) hidle)
      fun _ => ih fun v hv c hc => hfair v hv c (List.mem_cons_of_mem _ hc)

theorem triple_exchange {c : ExchangeCall} (hF : Lasts F) :
    (discipline E W).Triple t (At t [] h F) (exchange c)
      fun r => At t [] h fun v => F v ∧ ∀ q ∈ c.clients r, Fair W.whole v q := by
  have hQ : ∀ r : c.Reply, Lasts fun v => F v ∧ ∀ q ∈ c.clients r, Fair W.whole v q :=
    fun r => hF.and fun v v' hl hfair q hq => lasts_fair v v' hl (hfair q hq)
  refine triple_step hF.steady (fun r => (hQ r).steady) nofun ?_
  rintro s k hi rfl hframes hf e r s' he ha
  have hsame := exec_quiet rfl he
  simp only [exec] at he
  split at he
  · rename_i x
    rw [hsame, Census.set_of]
    refine ⟨hi, hframes, ⟨hf, ?_⟩, fun _ _ => .refl ..⟩
    cases he
    exact ha.prudent.fair c x rfl rfl
  · cases he

/-- A call of the exchange that makes trader calls on the way. -/
theorem triple_exchangeCalls {α : Type} {c : ExchangeCall} {f : c.Reply → α} (hF : Lasts F)
    (hidle : h.sending = none) :
    (discipline E W).Triple t (At t [] h F)
      (do
        let r ← exchange c
        runClients (c.clients r)
        pure (f r)) fun _ => At t [] h F := by
  refine .bind (triple_exchange hF) fun r => ?_
  have hQ : Lasts fun v => F v ∧ ∀ q ∈ c.clients r, Fair W.whole v q :=
    hF.and fun v v' hl hfair q hq => lasts_fair v v' hl (hfair q hq)
  refine .bind (triple_runClients hQ (fun v hv => hv.2) hidle) fun _ => ?_
  exact .ret (stable_at hQ.steady) fun _ _ hw => ⟨hw.frames, hw.ghost, hw.fact.1⟩

theorem triple_exchangeGetStatus {info : StatusInfo} (hF : Lasts F) :
    (discipline E W).Triple t (At t [] h F) (exchangeGetStatus info) fun _ => At t [] h F :=
  .bind (triple_skip rfl hF.steady) fun _ => .ret (stable_at hF.steady) fun _ _ hw => hw

/-! ## Requests -/

/-- What a login is rejected with goes to the thread's own connection. -/
theorem triple_alreadyRegistred (hF : Lasts F) (hs : h.Serves fd none) :
    (discipline E W).Triple t (At t [] h F) (alreadyRegistred fd) fun _ => At t [] h F := by
  have hret : (discipline E W).Triple t (At t [] h F) (.ret ()) fun _ => At t [] h F :=
    .ret (stable_at hF.steady) fun _ _ hw => hw
  have hzero : (ntohs (htons 0)).toNat = 0 := by decide
  refine .bind (triple_skip rfl hF.steady) fun junk => ?_
  refine .bind (triple_protoSendPacket hs.sending hF.steady ?_ (fun _ => hzero.le) ?_)
    fun _ => hret
  · exact fun v hframes _ => .inr ⟨hframes, hs.conn, hs.user⟩
  · rintro _ hne v c p hi hc hframes _ ⟨hheader, hpayload⟩
    refine ⟨hne, .inr ⟨hframes, ⟨?_, ?_⟩, ?_, ?_⟩⟩
    · rw [hheader]
    · rw [hpayload, List.take_nil]
    · exact (congrArg Holdings.conn hc).trans hs.conn
    · exact (congrArg Holdings.user hc).trans hs.user

theorem calm_loadPayload {payload : Option Payload} {n : Nat} : Calm (loadPayload payload n) := by
  unfold loadPayload
  dsimp only
  split
  · exact Prog.uses_step rfl fun _ => trivial
  · exact trivial

theorem calm_localStatus : Calm localStatus := Prog.uses_step rfl fun _ => trivial

section requests

variable (hF : Lasts F) (hst : ∀ v, F v → v.Stored a) (hidle : h.sending = none)
include hF hst hidle

theorem triple_replyIf {ok : Bool} {info : StatusInfo} :
    (discipline E W).Triple t (At t [] h F) (replyIf ok a info) fun _ => At t [] h F := by
  have hret : (discipline E W).Triple t (At t [] h F) (.ret ()) fun _ => At t [] h F :=
    .ret (stable_at hF.steady) fun _ _ hw => hw
  unfold replyIf
  split
  · exact .bind (triple_traderSendAck hF hst hidle) fun _ => hret
  · exact .bind (triple_traderSendNack hF hst hidle) fun _ => hret

/-- The end of a request: the status is fetched and sent. -/
theorem triple_reply {ok : Bool} {f : StatusInfo → StatusInfo} :
    (discipline E W).Triple t (At t [] h F)
      (do
        let info ← localStatus
        let info ← exchangeGetStatus (f info)
        replyIf ok a info) fun _ => At t [] h F :=
  .bind (triple_calm calm_localStatus (stable_at hF.steady)) fun _ =>
    .bind (triple_exchangeGetStatus hF) fun _ => triple_replyIf hF hst hidle

theorem triple_serveRequest {type : UInt8} {payload : Option Payload} :
    (discipline E W).Triple t (At t [] h F) (serveRequest a type payload)
      fun _ => At t [] h F := by
  have hstable : (discipline E W).Stable t (At t [] h F) := stable_at hF.steady
  have hload : ∀ n, (discipline E W).Triple t (At t [] h F) (loadPayload payload n)
      fun _ => At t [] h F := fun n => triple_calm calm_loadPayload hstable
  have hincrease : ∀ x, (discipline E W).Triple t (At t [] h F) (increaseRequest x a payload)
      fun _ => At t [] h F := fun x =>
    .bind (hload 4) fun _ => .bind (triple_increaseAsset hF hst hidle) fun _ =>
      triple_reply (f := id) hF hst hidle
  have hdecrease : ∀ x, (discipline E W).Triple t (At t [] h F) (decreaseRequest x a payload)
      fun _ => At t [] h F := fun x =>
    .bind (hload 4) fun _ => .bind (triple_decreaseAsset hF hst hidle) fun _ =>
      triple_reply (f := id) hF hst hidle
  have horder : ∀ post : Nat → UInt32 → UInt32 → Code UInt32,
      (∀ n m, (discipline E W).Triple t (At t [] h F) (post a n m) fun _ => At t [] h F) →
      (discipline E W).Triple t (At t [] h F) (orderRequest post a payload)
        fun _ => At t [] h F := fun post hpost =>
    .bind (hload 8) fun _ => .bind (hpost _ _) fun order =>
      triple_reply (f := fun info => { info with orderid := order }) hF hst hidle
  have hcancel : (discipline E W).Triple t (At t [] h F) (cancelRequest a payload)
      fun _ => At t [] h F := by
    refine .bind (hload 4) fun bytes => .bind (triple_skip rfl hF.steady) fun junk => ?_
    refine .bind (Q := fun _ => At t [] h F) ?_ fun r => ?_
    · exact triple_exchangeCalls (c := .cancel a _)
        (f := fun r => (r.2.1, r.2.2.getD (word32 junk))) hF hidle
    · exact triple_reply (f := fun info => { info with quantity := r.2 }) hF hst hidle
  unfold serveRequest
  split_ifs
  · exact triple_reply (f := id) hF hst hidle
  · exact hincrease .balance
  · exact hdecrease .balance
  · exact hincrease .inventory
  · exact hdecrease .inventory
  · exact horder exchangePostBuy fun n m =>
      triple_exchangeCalls (c := .postBuy a n m) (f := Prod.snd) hF hidle
  · exact horder exchangePostSell fun n m =>
      triple_exchangeCalls (c := .postSell a n m) (f := Prod.snd) hF hidle
  · exact hcancel
  · exact .ret hstable fun _ _ hw => hw

end requests

/-! ## The service loop -/

theorem triple_serving {α : Type} {p : Code α} {Q : α → World E → Prop}
    (hp : ∀ k : Holdings, k.Serves fd u → (discipline E W).Triple t (At t [] k F) p Q) :
    (discipline E W).Triple t (Serving t [] fd F u) p Q :=
  .exists_pre fun k => .fact_pre (hp k)

/-- The trader as which a thread is logged in is in the table. -/
theorem triple_servingAs {α : Type} {p : Code α} {Q : α → World E → Prop}
    (hp : ∀ k : Holdings, k.Serves fd (some a) →
      (discipline E W).Triple t (At t [] k fun v => F v ∧ v.Stored a) p Q) :
    (discipline E W).Triple t (Serving t [] fd F (some a)) p Q := by
  refine triple_serving fun k hk => (hp k hk).pre ?_
  rintro w hi ⟨hframes, hghost, hf⟩
  have huser : (census w.ghost).user t = some a := by
    change (w.ghost t).user = some a
    rw [hghost, hk.user]
  exact ⟨hframes, hghost, hf, (hi.user.mp huser).2⟩

/-- What a logged-in thread does for its trader. -/
theorem triple_serveAs {α : Type} {p : Code α} (hF : Lasts F)
    (hp : ∀ (k : Holdings) (G : Shared → Prop), Lasts G → (∀ v, G v → v.Stored a) →
      k.sending = none → (discipline E W).Triple t (At t [] k G) p fun _ => At t [] k G) :
    (discipline E W).Triple t (Serving t [] fd F (some a)) p
      fun _ => Serving t [] fd F (some a) :=
  triple_servingAs fun k hk =>
    (hp k (fun v => F v ∧ v.Stored a) (hF.and lasts_stored) (fun _ hv => hv.2) hk.sending).post
      fun _ _ _ hw => ⟨k, hk, hw.frames, hw.ghost, hw.fact.1⟩

theorem triple_serveLogin {hdr : PacketHeader} {payload : Option Payload} (hF : Lasts F) :
    (discipline E W).Triple t (Serving t [] fd F none) (serveLogin fd hdr payload)
      (Serving t [] fd F) := by
  have hstable : ∀ u, (discipline E W).Stable t (Serving t [] fd F u) :=
    fun u => stable_serving hF
  refine .bind (triple_idle rfl (hstable none)) fun b => ?_
  refine .bind (triple_calm calm_loadPayload (hstable none)) fun bytes => ?_
  refine .bind (triple_serving fun k hk => triple_traderLogin hF hk) fun r => ?_
  cases r with
  | none =>
    refine .bind (Q := fun _ => Serving t [] fd F none) ?_ fun _ => ?_
    · exact triple_serving fun k hk =>
        (triple_alreadyRegistred hF hk).post fun _ _ _ hw => ⟨k, hk, hw⟩
    · exact .ret (hstable none) fun _ _ hw => hw
  | some a =>
    refine .bind (triple_serveAs hF fun k G hG hst hidle => triple_traderSendAck hG hst hidle)
      fun _ => ?_
    exact .ret (hstable (some a)) fun _ _ hw => hw

theorem triple_serveLogout {l : Session} (hF : Lasts F) :
    (discipline E W).Triple t (Serving t [] fd F l.thisTrader) (serveLogout l)
      fun _ => Serving t [] fd F none := by
  unfold serveLogout
  cases hl : l.thisTrader with
  | none => exact .ret (stable_serving hF) fun _ _ hw => hw
  | some a =>
    refine triple_serving fun k hk => ?_
    refine (triple_traderLogout hF hk.sending hk.user (hk.token a rfl)).post fun _ w _ hw => ?_
    exact ⟨(k.setRef a (k.refs a - 1)).setUser none, ⟨rfl, hk.conn, hk.sending, nofun⟩, hw⟩

theorem triple_serveEnd {block : Nat} {hdr : PacketHeader} {l : Session} (hF : Lasts F) :
    (discipline E W).Triple t (Serving t [] fd F l.thisTrader) (serveEnd block hdr l)
      fun _ => Serving t [] fd F none := by
  have hstable : (discipline E W).Stable t (Serving t [] fd F l.thisTrader) := stable_serving hF
  have hlogout : (discipline E W).Triple t (Serving t [] fd F l.thisTrader)
      (do free (some block); serveLogout l) fun _ => Serving t [] fd F none :=
    .bind (triple_idle rfl hstable) fun _ => triple_serveLogout hF
  unfold serveEnd
  dsimp only
  split_ifs
  · exact .bind (triple_idle rfl hstable) fun _ => hlogout
  · exact hlogout

theorem triple_servePacket {block : Nat} {hdr : PacketHeader} {l : Session} (hF : Lasts F) :
    (discipline E W).Triple t (Serving t [] fd F l.thisTrader) (servePacket fd block hdr l)
      fun l' => Serving t [] fd F l'.thisTrader := by
  have hstable : ∀ u, (discipline E W).Stable t (Serving t [] fd F u) :=
    fun u => stable_serving hF
  have hend : ∀ l' : Session, (discipline E W).Triple t (Serving t [] fd F l'.thisTrader)
      (do free (some block); pure l' : Code Session) fun l' => Serving t [] fd F l'.thisTrader :=
    fun l' => .bind (triple_idle rfl (hstable _)) fun _ => .ret (hstable _) fun _ _ hw => hw
  unfold servePacket
  split
  · exact hend l
  · split
    · cases hl : l.thisTrader with
      | some a =>
        refine .bind (triple_serveAs hF fun k G hG hst hidle => triple_traderSendNack hG hst hidle)
          fun _ => ?_
        refine .ret (hstable (some a)) fun w _ hw => ?_
        rwa [hl]
      | none =>
        exact .bind (triple_serveLogin hF) fun u => hend { l with thisTrader := u }
    · cases hl : l.thisTrader with
      | none =>
        refine .ret (hstable none) fun w _ hw => ?_
        rwa [hl]
      | some a =>
        refine .bind (triple_serveAs hF fun k G hG hst hidle => triple_serveRequest hG hst hidle)
          fun _ => ?_
        rw [← hl]
        exact hend l

theorem triple_serveNext {l : Session} (hF : Lasts F) :
    (discipline E W).Triple t (Serving t [] fd F l.thisTrader) (serveNext fd l)
      fun r => Serving t [] fd F (r.elim none Session.thisTrader) := by
  have hstable : ∀ u, (discipline E W).Stable t (Serving t [] fd F u) :=
    fun u => stable_serving hF
  refine .bind (triple_idle rfl (hstable _)) fun b => ?_
  refine .bind (triple_calm calm_protoRecvPacket (hstable _)) fun r => ?_
  obtain ⟨status, hdr, payload⟩ := r
  dsimp only
  split
  · refine .bind (triple_serveEnd (l := { l with payload := payload }) hF) fun _ => ?_
    exact .ret (hstable none) fun _ _ hw => hw
  · refine .bind (triple_servePacket (l := { l with payload := payload }) hF) fun l' => ?_
    exact .ret (hstable _) fun _ _ hw => hw

/-- The rest of the loop, by its contract. -/
theorem triple_service {l : Session} (hF : Lasts F) :
    (discipline E W).Triple t (Serving t [] fd F l.thisTrader)
      (Prog.invoke (I := bourse) (.service fd l)) fun _ => Serving t [] fd F none := by
  refine .invoke (stable_serving hF) (fun _ => stable_serving hF) ?_ ?_
  · rintro w _ ⟨k, hk, hframes, rfl, _⟩
    exact ⟨hframes, hk⟩
  · rintro w _ w' _ ⟨k, _, _, _, hf⟩ ⟨⟨hframes, hserves⟩, hlasting⟩
    exact ⟨w'.ghost t, hserves, hframes, rfl, hF _ _ hlasting hf⟩

theorem triple_serviceLoop {l : Session} (hF : Lasts F) :
    (discipline E W).Triple t (Serving t [] fd F l.thisTrader) (serviceLoop fd l)
      fun _ => Serving t [] fd F none := by
  refine .bind (triple_serveNext hF) fun r => ?_
  cases r with
  | none => exact .ret (stable_serving hF) fun _ _ hw => hw
  | some l' => exact triple_service hF

/-! ## Registration -/

theorem calm_cregRegister : Calm (cregRegister fd) := by
  refine Prog.uses_step rfl fun _ => Prog.uses_step rfl fun _ => ?_
  refine Prog.Uses.bind (Prog.uses_step rfl fun n => Prog.uses_search fun i => ?_) fun r => ?_
  · refine Prog.uses_step rfl fun x => ?_
    split_ifs <;> exact trivial
  · have hend : Calm (do semPost .mutex; semPost .items; pure (0 : Int)) :=
      Prog.uses_step rfl fun _ => Prog.uses_step rfl fun _ => trivial
    cases r with
    | none => exact trivial
    | some i =>
      refine Prog.uses_step rfl fun _ => Prog.uses_step rfl fun n => Prog.uses_step rfl fun _ =>
        Prog.uses_step rfl fun m => ?_
      dsimp only
      split_ifs
      · exact Prog.uses_step rfl fun _ => hend
      · exact hend

theorem calm_cregUnregister : Calm (cregUnregister fd) := by
  refine Prog.uses_step rfl fun _ => Prog.uses_step rfl fun _ => Prog.uses_step rfl fun n => ?_
  refine Prog.Uses.bind (Prog.uses_search fun i => ?_) fun r => ?_
  · refine Prog.uses_step rfl fun x => ?_
    have hend : Calm (do semPost .mutex; semPost .slots; pure (some ())) :=
      Prog.uses_step rfl fun _ => Prog.uses_step rfl fun _ => trivial
    split_ifs
    · refine Prog.uses_step rfl fun _ => Prog.uses_step rfl fun m => Prog.uses_step rfl fun _ =>
        Prog.uses_step rfl fun m => ?_
      dsimp only
      split_ifs
      · exact Prog.uses_step rfl fun _ => hend
      · exact hend
    · exact trivial
  · cases r with
    | some _ => exact trivial
    | none => exact Prog.uses_step rfl fun _ => Prog.uses_step rfl fun _ => trivial

theorem rest_of_serving {w : World E} (hw : Serving t [] fd F none w) : Rest t w := by
  obtain ⟨k, hk, hframes, rfl, _⟩ := hw
  exact ⟨hframes, hk.user, hk.sending⟩

theorem stable_rest : (discipline E W).Stable t (Rest t) := by
  rintro w w' ⟨hg, hk⟩ _ ⟨hframes, huser, hsending⟩
  refine ⟨hk.frames.trans hframes, ?_, ?_⟩
  · rwa [hg]
  · rwa [hg]

theorem triple_brsClientLeave (hF : Lasts F) :
    (discipline E W).Triple t (Serving t [] fd F none) (brsClientLeave fd)
      fun _ => Rest t := by
  have hstable : (discipline E W).Stable t (Serving t [] fd F none) := stable_serving hF
  refine .bind (triple_calm calm_cregUnregister hstable) fun r => ?_
  split
  · exact .ret hstable fun _ _ hw => rest_of_serving hw
  · refine triple_serving fun k hk => ?_
    refine (triple_close (G := F) hk.conn hk.user hk.sending hF.steady hF.steady
      fun v hv => hF.same hv rfl rfl).post fun _ w _ hw => ?_
    refine ⟨hw.frames, ?_, ?_⟩
    · rw [hw.ghost]
      exact hk.user
    · rw [hw.ghost]
      exact hk.sending

theorem triple_brsClientService (hF : Lasts F) :
    (discipline E W).Triple t (Serving t [] fd F none) (brsClientService fd)
      fun _ => Rest t := by
  have hstable : (discipline E W).Stable t (Serving t [] fd F none) := stable_serving hF
  refine .bind (triple_calm calm_cregRegister hstable) fun r => ?_
  split
  · exact .ret hstable fun _ _ hw => rest_of_serving hw
  · refine .bind (triple_service (l := ⟨none, none⟩) hF) fun _ => ?_
    exact triple_brsClientLeave hF

end BourseServer.Sessions
