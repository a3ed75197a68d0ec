import BourseServer.Waiting.Held

/-!
# The code follows the typestate

The functions of the trader module that take a mutex give it back; what they call in between takes
at most the same mutex again. All other code is free of mutexes when it calls them. The two
functions of the registry take and give back a slot, and on the way the registry's mutex.
-/
namespace BourseServer.Waiting

open Concurrency Typestate

variable {P : Held → Prop} {α : Type} {a : Nat}

/-! ## Transfers -/

theorem keeps_readn {fd : Int} {n nleft : Nat} {got : List UInt8} :
    Keeps Held.Free (.invoke (I := bourse) (.readn fd n nleft got)) :=
  fun _ hh => follows_invoke hh fun _ _ hp => hp.1

theorem keeps_writen {fd : Int} {n : Nat} {rest : List UInt8} :
    Keeps P (.invoke (I := bourse) (.writen fd n rest)) :=
  fun _ _ => follows_invoke trivial fun _ _ hp => hp.1

theorem keeps_readnLoop {fd : Int} {n nleft : Nat} {got : List UInt8} :
    Keeps Held.Free (readnLoop fd n nleft got) := by
  unfold readnLoop
  split_ifs
  · refine Keeps.bind (keeps_free rfl) fun r => ?_
    cases r with
    | interrupted => exact keeps_readn
    | failed => exact keeps_ret
    | data bs =>
      dsimp only
      split_ifs
      · exact keeps_ret
      · exact keeps_readn
  · exact keeps_ret

/-- In the trader module the loop comes to its end. -/
theorem follows_writenLoop {fd : Int} {n : Nat} {rest : List UInt8} {h : Held} :
    locking.Follows (writenLoop fd n rest)
      (fun r h' => h' = h ∧ (0 < h.inside → 0 ≤ r)) h := by
  have hinvoke : ∀ rest, locking.Follows (.invoke (I := bourse) (.writen fd n rest))
      (fun r h' => h' = h ∧ (0 < h.inside → (0 : Int) ≤ r)) h :=
    fun _ => follows_invoke trivial fun _ _ hp => hp
  unfold writenLoop
  split_ifs
  · refine ⟨(fun hp => by cases hp), fun r h' hn => ?_⟩
    change (if r = .failed ∧ 0 < h.inside then Option.none else some h) = some h' at hn
    split_ifs at hn with hfail
    obtain rfl := Option.some.inj hn
    cases r with
    | interrupted => exact hinvoke rest
    | failed => exact ⟨rfl, fun hin => absurd ⟨rfl, hin⟩ hfail⟩
    | wrote k => exact hinvoke _
  · exact ⟨rfl, fun _ => Int.natCast_nonneg n⟩

theorem keeps_protoSendPacket {fd : Int} {hdr : PacketHeader} {payload : List UInt8} :
    Keeps P (protoSendPacket fd hdr payload) := by
  refine Keeps.bind (keeps_step rfl rfl) fun _ => Keeps.bind keeps_writen fun r => ?_
  split_ifs
  · exact keeps_ret
  · refine Keeps.bind keeps_writen fun r => ?_
    split_ifs <;> exact keeps_ret
  · exact keeps_ret

/-- A packet that is sent from inside the module is sent completely. -/
theorem follows_protoSendPacket {fd : Int} {hdr : PacketHeader} {payload : List UInt8} {h : Held}
    (hin : 0 < h.inside) :
    locking.Follows (protoSendPacket fd hdr payload) (fun r h' => h' = h ∧ r.1 ≠ -1) h := by
  have hsend : ∀ n rest, locking.Follows (.invoke (I := bourse) (.writen fd n rest))
      (fun r h' => h' = h ∧ (0 : Int) ≤ r) h :=
    fun _ _ => follows_invoke trivial fun _ _ hp => ⟨hp.1, hp.2 hin⟩
  refine follows_step h (fun hp => by cases hp) (fun _ => rfl) fun _ => ?_
  refine (hsend _ _).bind ?_
  rintro r _ ⟨rfl, hr⟩
  split_ifs with hfail
  · omega
  · refine (hsend _ _).bind ?_
    rintro r _ ⟨rfl, hr⟩
    split_ifs with hfail
    · omega
    · exact ⟨rfl, by simp⟩
  · exact ⟨rfl, by simp⟩

theorem keeps_protoRecvPacket {fd : Int} {hdr : PacketHeader} {payload : Option Payload} :
    Keeps Held.Free (protoRecvPacket fd hdr payload) := by
  refine Keeps.bind keeps_readn fun ⟨read, got⟩ => ?_
  dsimp only
  split_ifs
  · exact keeps_ret
  · exact keeps_ret
  · refine Keeps.bind (keeps_free rfl) fun ⟨block, junk⟩ =>
      Keeps.bind keeps_readn fun ⟨status, got⟩ => ?_
    dsimp only
    split_ifs <;> exact keeps_ret
  · exact keeps_ret

/-! ## The trader module -/

theorem keeps_traderRef : Keeps (Held.Only a) (traderRef a) :=
  keeps_locked <| .bind (keeps_step rfl rfl) fun _ => .bind (keeps_step rfl rfl) fun _ =>
    gives_unlock

theorem keeps_slotName {i : Nat} : Keeps P (slotName i) :=
  .bind (keeps_step rfl rfl) fun _ => .bind keeps_deref fun _ => keeps_step rfl rfl

theorem keeps_removeTraderIfEmpty : Keeps P (removeTraderIfEmpty a) := by
  refine Keeps.bind (keeps_step rfl rfl) fun ref => ?_
  split_ifs
  · exact keeps_ret
  · refine Keeps.bind (keeps_search fun i => ?_) fun _ => keeps_ret
    refine Keeps.bind (keeps_step rfl rfl) fun p => ?_
    cases p with
    | none => exact keeps_ret
    | some b =>
      refine Keeps.bind keeps_slotName fun _ => Keeps.bind (keeps_step rfl rfl) fun _ => ?_
      split_ifs
      · exact .bind (keeps_step rfl rfl) fun _ => .bind (keeps_step rfl rfl) fun _ =>
          .bind (keeps_step rfl rfl) fun _ => .bind (keeps_step rfl rfl) fun _ => keeps_ret
      · exact keeps_ret

theorem keeps_traderUnref : Keeps (Held.Only a) (traderUnref a) :=
  keeps_locked <| .bind (keeps_step rfl rfl) fun _ => .bind (keeps_step rfl rfl) fun _ =>
    .bind keeps_removeTraderIfEmpty fun _ => gives_last

theorem keeps_checkOldTraderAndLogin {fd : Int} {name : CString} :
    Keeps Held.Free (checkOldTraderAndLogin fd name) := by
  refine keeps_search fun i => Keeps.bind (keeps_step rfl rfl) fun p => ?_
  cases p with
  | none => exact keeps_ret
  | some b =>
    refine Keeps.bind keeps_slotName fun _ => ?_
    split_ifs
    · exact .bind (keeps_step rfl rfl) fun _ => .bind keeps_deref fun _ =>
        .bind keeps_traderRef.of_only fun _ => .bind (keeps_step rfl rfl) fun _ =>
          .bind keeps_deref fun _ => keeps_ret
    · exact keeps_ret

theorem keeps_getFirstAvailableIndex : Keeps P getFirstAvailableIndex := by
  refine keeps_search fun i => Keeps.bind (keeps_step rfl rfl) fun p => ?_
  cases p <;> exact keeps_ret

theorem keeps_traderLogin {fd : Int} {name : CString} :
    Keeps Held.Free (traderLogin fd name) := by
  refine Keeps.scope_free (Keeps.bind keeps_checkOldTraderAndLogin fun old => ?_)
  cases old with
  | some old =>
    refine Keeps.bind (keeps_step rfl rfl) fun oldFd => ?_
    split_ifs
    · exact keeps_ret
    · exact .bind (keeps_step rfl rfl) fun _ => keeps_ret
  | none =>
    refine Keeps.bind (keeps_step rfl rfl) fun total => ?_
    split_ifs
    · exact keeps_ret
    · refine Keeps.bind (keeps_step rfl rfl) fun _ => Keeps.bind (keeps_step rfl rfl) fun _ =>
        Keeps.bind (keeps_free rfl) fun _ => Keeps.bind keeps_traderRef.of_only fun _ =>
        Keeps.bind keeps_traderRef.of_only fun _ => Keeps.bind (keeps_step rfl rfl) fun _ =>
        Keeps.bind (keeps_step rfl rfl) fun _ => Keeps.bind (keeps_step rfl rfl) fun _ =>
        Keeps.bind (keeps_step rfl rfl) fun _ => Keeps.bind (keeps_step rfl rfl) fun _ =>
        Keeps.bind keeps_getFirstAvailableIndex fun i => ?_
      cases i with
      | none => exact keeps_ret
      | some i => exact .bind (keeps_step rfl rfl) fun _ => keeps_ret

/-- The nested `trader_unref` takes the same mutex again. -/
theorem keeps_traderLogout : Keeps (Held.Only a) (traderLogout a) := by
  refine keeps_locked (.bind (keeps_search fun i => ?_) fun _ => gives_last)
  refine Keeps.bind (keeps_step rfl rfl) fun p => ?_
  cases p with
  | none => exact keeps_ret
  | some b =>
    refine Keeps.bind keeps_slotName fun _ => Keeps.bind (keeps_step rfl rfl) fun _ => ?_
    split_ifs
    · exact .bind (keeps_traderUnref.mono fun _ hh => hh.only) fun _ =>
        .bind (keeps_step rfl rfl) fun _ => keeps_ret
    · exact keeps_ret

/-- The exit that keeps the mutex is not taken. -/
theorem keeps_traderSendPacket {hdr : PacketHeader} {data : List UInt8} :
    Keeps (Held.Only a) (traderSendPacket a hdr data) := by
  refine keeps_locked (.bind (keeps_step rfl rfl) fun fd h hh => ?_)
  refine (follows_protoSendPacket (h := h.take a) hh.inside).bind ?_
  rintro ⟨sent, _⟩ _ ⟨rfl, hsent⟩
  dsimp only at hsent ⊢
  rw [if_neg hsent]
  exact gives_unlock h hh

theorem keeps_traderBroadcastPacket {hdr : PacketHeader} {data : List UInt8} :
    Keeps Held.Free (traderBroadcastPacket hdr data) := by
  refine Keeps.scope_free (Keeps.bind (keeps_search fun i => ?_) fun _ => keeps_ret)
  refine Keeps.bind (keeps_step rfl rfl) fun p => ?_
  cases p with
  | none => exact keeps_ret
  | some b =>
    exact .bind (keeps_step rfl rfl) fun _ => .bind keeps_deref fun _ =>
      .bind keeps_traderSendPacket.of_only fun _ => keeps_ret

theorem keeps_traderSendAck {info : Option StatusInfo} :
    Keeps Held.Free (traderSendAck a info) := by
  refine Keeps.scope_free (Keeps.bind (keeps_free rfl) fun junk => ?_)
  cases info with
  | none => exact .bind keeps_traderSendPacket.of_only fun _ => keeps_ret
  | some info =>
    exact .bind (keeps_step rfl rfl) fun _ => .bind (keeps_step rfl rfl) fun _ =>
      .bind keeps_traderSendPacket.of_only fun _ => keeps_ret

theorem keeps_traderSendNack : Keeps Held.Free (traderSendNack a) :=
  .scope_free (.bind (keeps_free rfl) fun _ => .bind keeps_traderSendPacket.of_only fun _ =>
    keeps_ret)

theorem keeps_loadAsset {x : Asset} : Keeps P (loadAsset x a) := by
  cases x <;> exact keeps_step rfl rfl

theorem keeps_storeAsset {x : Asset} {v : UInt32} : Keeps P (storeAsset x a v) := by
  cases x <;> exact keeps_step rfl rfl

theorem keeps_increaseAsset {x : Asset} {n : UInt32} :
    Keeps (Held.Only a) (increaseAsset x a n) :=
  keeps_locked (.bind keeps_loadAsset fun _ => .bind keeps_storeAsset fun _ => gives_last)

theorem keeps_decreaseAsset {x : Asset} {n : UInt32} :
    Keeps (Held.Only a) (decreaseAsset x a n) := by
  refine keeps_locked (.bind keeps_loadAsset fun v => ?_)
  split_ifs
  · exact .bind keeps_loadAsset fun _ => .bind keeps_storeAsset fun _ => gives_unlock
  · exact gives_unlock

theorem keeps_runClient {c : ClientCall} : Keeps Held.Free (runClient c) := by
  cases c with
  | ref a => exact .bind keeps_traderRef.of_only fun _ => keeps_ret
  | unref a => exact keeps_traderUnref.of_only
  | sendPacket a hdr data => exact .bind keeps_traderSendPacket.of_only fun _ => keeps_ret
  | broadcast hdr data => exact .bind keeps_traderBroadcastPacket fun _ => keeps_ret
  | sendAck a info => exact .bind keeps_traderSendAck fun _ => keeps_ret
  | sendNack a => exact .bind keeps_traderSendNack fun _ => keeps_ret
  | account a c =>
    cases c with
    | increase x n => cases x <;> exact keeps_increaseAsset.of_only
    | decrease x n => cases x <;> exact .bind keeps_decreaseAsset.of_only fun _ => keeps_ret

theorem keeps_runClients {cs : List ClientCall} : Keeps Held.Free (runClients cs) := by
  induction cs with
  | nil => exact keeps_ret
  | cons c cs ih => exact .bind keeps_runClient fun _ => ih

/-! ## The service thread -/

theorem keeps_loadPayload {payload : Option Payload} {n : Nat} :
    Keeps Held.Free (loadPayload payload n) := by
  unfold loadPayload
  dsimp only
  split_ifs
  · exact .bind (keeps_free rfl) fun _ => keeps_ret
  · exact keeps_ret

theorem keeps_replyIf {b : Bool} {info : StatusInfo} : Keeps Held.Free (replyIf b a info) := by
  cases b with
  | true => exact .bind keeps_traderSendAck fun _ => keeps_ret
  | false => exact .bind keeps_traderSendNack fun _ => keeps_ret

/-- The end of a request: the local status, the exchange's part of it, and the reply. -/
theorem keeps_answer {f : StatusInfo → StatusInfo} {b : Bool} :
    Keeps Held.Free (do
      let info ← localStatus
      let info ← exchangeGetStatus (f info)
      replyIf b a info) := by
  refine Keeps.bind (Keeps.bind (keeps_free rfl) fun _ => keeps_ret) fun _ => ?_
  exact .bind (.bind (keeps_free rfl) fun _ => keeps_ret) fun _ => keeps_replyIf

theorem keeps_exchange {α : Type} {c : ExchangeCall} {calls : c.Reply → List ClientCall}
    {result : c.Reply → α} :
    Keeps Held.Free (do
      let r ← exchange c
      runClients (calls r)
      pure (result r)) :=
  .bind (keeps_free rfl) fun _ => .bind keeps_runClients fun _ => keeps_ret

theorem keeps_serveRequest {type : UInt8} {payload : Option Payload} :
    Keeps Held.Free (serveRequest a type payload) := by
  have hincrease : ∀ x, Keeps Held.Free (increaseRequest x a payload) := fun x =>
    .bind keeps_loadPayload fun _ => .bind keeps_increaseAsset.of_only fun _ =>
      keeps_answer (f := id)
  have hdecrease : ∀ x, Keeps Held.Free (decreaseRequest x a payload) := fun x =>
    .bind keeps_loadPayload fun _ => .bind keeps_decreaseAsset.of_only fun _ =>
      keeps_answer (f := id)
  unfold serveRequest
  split_ifs
  · exact keeps_answer (f := id)
  · exact hincrease _
  · exact hdecrease _
  · exact hincrease _
  · exact hdecrease _
  · exact .bind keeps_loadPayload fun _ => .bind keeps_exchange fun _ => keeps_answer
  · exact .bind keeps_loadPayload fun _ => .bind keeps_exchange fun _ => keeps_answer
  · exact .bind keeps_loadPayload fun _ => .bind (keeps_free rfl) fun _ =>
      .bind keeps_exchange fun _ => keeps_answer
  · exact keeps_ret

theorem keeps_serveLogin {fd : Int} {hdr : PacketHeader} {payload : Option Payload} :
    Keeps Held.Free (serveLogin fd hdr payload) := by
  refine Keeps.bind (keeps_free rfl) fun ⟨block, _⟩ => Keeps.bind keeps_loadPayload fun bytes =>
    Keeps.bind keeps_traderLogin fun a => ?_
  cases a with
  | none =>
    refine Keeps.bind (Keeps.bind (keeps_free rfl) fun _ => ?_) fun _ => keeps_ret
    exact .bind keeps_protoSendPacket fun _ => keeps_ret
  | some a => exact .bind keeps_traderSendAck fun _ => keeps_ret

theorem keeps_serveEnd {block : Nat} {hdr : PacketHeader} {l : Session} :
    Keeps Held.Free (serveEnd block hdr l) := by
  have hend : Keeps Held.Free (do free (some block); serveLogout l) := by
    refine Keeps.bind (keeps_step rfl rfl) fun _ => ?_
    unfold serveLogout
    split
    · exact keeps_ret
    · exact keeps_traderLogout.of_only
  unfold serveEnd
  dsimp only
  split_ifs
  · exact .bind (keeps_step rfl rfl) fun _ => hend
  · exact hend

theorem keeps_servePacket {fd : Int} {block : Nat} {hdr : PacketHeader} {l : Session} :
    Keeps Held.Free (servePacket fd block hdr l) := by
  unfold servePacket
  split_ifs
  · exact .bind (keeps_step rfl rfl) fun _ => keeps_ret
  · split
    · exact .bind keeps_traderSendNack fun _ => keeps_ret
    · exact .bind keeps_serveLogin fun _ => .bind (keeps_step rfl rfl) fun _ => keeps_ret
  · split
    · exact keeps_ret
    · exact .bind keeps_serveRequest fun _ => .bind (keeps_step rfl rfl) fun _ => keeps_ret

theorem keeps_service {fd : Int} {l : Session} :
    Keeps Held.Free (.invoke (I := bourse) (.service fd l)) :=
  fun _ hh => follows_invoke hh fun _ _ hp => hp.1

theorem keeps_serviceLoop {fd : Int} {l : Session} : Keeps Held.Free (serviceLoop fd l) := by
  have hnext : Keeps Held.Free (serveNext fd l) := by
    refine Keeps.bind (keeps_free rfl) fun ⟨block, _⟩ => Keeps.bind keeps_protoRecvPacket
      fun ⟨status, hdr, payload⟩ => ?_
    dsimp only
    split_ifs
    · exact .bind keeps_serveEnd fun _ => keeps_ret
    · exact .bind keeps_servePacket fun _ => keeps_ret
  refine Keeps.bind hnext fun l => ?_
  cases l with
  | some l => exact keeps_service
  | none => exact keeps_ret

/-- The bodies of the loops do what is said of the loops. -/
theorem follows_body (p : Proc) (h : Held) (hp : locking.pre p h) :
    locking.Follows (body p) (locking.post p h) h := by
  cases p with
  | readn fd n nleft got => exact (keeps_readnLoop h hp).mono fun _ _ h => ⟨h, trivial⟩
  | writen fd n rest => exact follows_writenLoop
  | service fd l => exact (keeps_serviceLoop h hp).mono fun _ _ h => ⟨h, trivial⟩

/-! ## The client registry -/

theorem keeps_searchForEmptySlot : Keeps P searchForEmptySlot := by
  refine Keeps.bind (keeps_step rfl rfl) fun n => keeps_search fun i => ?_
  refine Keeps.bind (keeps_step rfl rfl) fun fd => ?_
  split_ifs <;> exact keeps_ret

/-- The thread has its slot, unless the registry was full. -/
theorem follows_cregRegister {fd : Int} {h : Held} (hh : h.Free) (hfresh : h.fresh = true)
    (hslot : h.slot = false) (hfd : h.fd ≠ none) :
    locking.Follows (cregRegister fd) (fun r h' =>
      r = -1 ∧ h'.registry = true ∨ r = 0 ∧ h' = { h with fresh := false, slot := true }) h := by
  let full : Held := { h with fresh := false, slot := true }
  have hback : { full with registry := false } = full := by
    change Held.mk .. = Held.mk ..
    rw [hh.registry]
  have hstep : ∀ {β : Type} {o : Op} {f : o.Reply → Code β} {Q : β → Held → Prop},
      quiet o = true → o.patient = false →
      (∀ r, locking.Follows (f r) Q { full with registry := true }) →
      locking.Follows (.act (I := bourse) o >>= f) Q { full with registry := true } := by
    intro β o f Q ho hp hf
    refine (keeps_step (P := fun _ => True) ho hp _ trivial).bind ?_
    rintro r _ rfl
    exact hf r
  have hend : locking.Follows (do semPost .mutex; semPost .items; pure (0 : Int))
      (fun r h' => r = -1 ∧ h'.registry = true ∨ r = 0 ∧ h' = full)
      { full with registry := true } := by
    refine follows_step _ rfl (fun _ => rfl) fun _ => ?_
    exact follows_step _ (fun hp => by cases hp) (fun _ => rfl) fun _ => .inr ⟨rfl, hback⟩
  refine follows_step _ ⟨hh, hfresh, hslot, hfd⟩ (fun _ => rfl) fun _ => ?_
  refine follows_step _ ⟨hh.mutexes, hh.registry⟩ (fun _ => rfl) fun _ => ?_
  refine (keeps_searchForEmptySlot (P := fun _ => True) _ trivial).bind ?_
  rintro i _ rfl
  cases i with
  | none => exact .inl ⟨rfl, rfl⟩
  | some i =>
    refine hstep rfl rfl fun _ => hstep rfl rfl fun _ => hstep rfl rfl fun _ =>
      hstep rfl rfl fun n => ?_
    dsimp only
    split_ifs
    · exact follows_step _ (fun hp => by cases hp) (fun _ => rfl) fun _ => hend
    · exact hend

/-- The thread has given its slot back. -/
theorem follows_cregUnregister {fd : Int} {h : Held} (hh : h.Free) (hslot : h.slot = true) :
    locking.Follows (cregUnregister fd) (fun _ h' => h' = { h with slot := false }) h := by
  let inn : Held := { h with registry := true }
  have hend : ∀ {β : Type} (x : β), locking.Follows (do semPost .mutex; semPost .slots; pure x)
      (fun _ h' => h' = { h with slot := false }) inn := by
    intro β x
    refine follows_step _ rfl (fun _ => rfl) fun _ => ?_
    refine follows_step _ hslot (fun _ => rfl) fun _ => ?_
    change Held.mk .. = Held.mk ..
    rw [hh.registry]
  have hstep : ∀ {β : Type} {o : Op} {f : o.Reply → Code β} {Q : β → Held → Prop},
      quiet o = true → o.patient = false → (∀ r, locking.Follows (f r) Q inn) →
      locking.Follows (.act (I := bourse) o >>= f) Q inn := by
    intro β o f Q ho hp hf
    refine (keeps_step (P := fun _ => True) ho hp _ trivial).bind ?_
    rintro r _ rfl
    exact hf r
  refine follows_step _ hh (fun _ => rfl) fun _ => ?_
  refine follows_step _ hh (fun _ => rfl) fun _ => hstep rfl rfl fun n => ?_
  refine Follows.bind (Q := fun r h' => h' = r.elim inn fun _ => { h with slot := false }) ?_ ?_
  · refine follows_search (A := fun h' => h' = inn) rfl ?_ fun _ hA => hA
    rintro j _ rfl
    refine hstep rfl rfl fun cur => ?_
    split_ifs
    · refine hstep rfl rfl fun _ => hstep rfl rfl fun _ => hstep rfl rfl fun _ =>
        hstep rfl rfl fun n => ?_
      dsimp only
      split_ifs
      · refine follows_step _ (fun hp => by cases hp) (fun _ => rfl) fun _ => ?_
        exact hend (some ())
      · exact hend (some ())
    · exact rfl
  · rintro (_ | _) h' rfl
    · exact hend (-1 : Int)
    · exact rfl

/-- A service thread that has just been created. -/
theorem follows_brsClientService {fd : Int} {h : Held} (hh : h.Free) (hin : h.inside = 0)
    (hfresh : h.fresh = true) (hslot : h.slot = false) (hfd : h.fd = some fd) :
    locking.Follows (brsClientService fd) (fun _ => Held.Rests) h := by
  refine (follows_cregRegister hh hfresh hslot (by simp [hfd])).bind ?_
  rintro r h' (⟨rfl, hfull⟩ | ⟨rfl, rfl⟩)
  · exact .inl hfull
  have hfree : Held.Free { h with fresh := false, slot := true } := ⟨hh.mutexes, hh.registry⟩
  have hleft : Held.Free { h with fresh := false, slot := false } := ⟨hh.mutexes, hh.registry⟩
  refine (keeps_service _ hfree).bind ?_
  rintro _ _ rfl
  refine (follows_cregUnregister hfree rfl).bind ?_
  rintro r _ rfl
  split_ifs
  · exact .inr ⟨hleft, hin, rfl⟩
  · exact follows_step _ ⟨hfd, rfl⟩ (fun _ => rfl)
      fun _ => .inr ⟨⟨hh.mutexes, hh.registry⟩, hin, rfl⟩

end BourseServer.Waiting
