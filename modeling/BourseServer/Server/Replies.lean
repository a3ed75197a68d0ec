import BourseServer.Server.Doings

/-!
# What a client is sent

The descriptor of a trader changes only when a client logs in or out, and what has been written to
a connection stays. So a reply to a client goes to its connection, behind everything that has been
written to it before.
-/
namespace BourseServer

open Concurrency Bytes

variable {E : Exchange} {ok : Condition (machine E)} {t a : Nat} {fd : Int} {s s' : State E}

/-- The bytes that have been written to a connection. -/
def State.output (s : State E) (fd : Int) : Option (List UInt8) := (s.conns fd).map Conn.output

/-- The descriptor of trader `a`, if it exists, is `fd`. -/
def Reaches (fd : Int) (a : Nat) (s : State E) : Prop := ∀ tr, s.traders a = some tr → tr.fd = fd

theorem reaches_none : ∀ a, none = some a → Reaches fd a s := by
  intro a ha
  cases ha

namespace Op

/-- The actions that write no descriptor, create no trader and close no connection. -/
def steady : Op → Bool
  | .store .fd _ _ | .mallocTrader | .close _ => false
  | _ => true

/-- The steady actions that move no bytes either. -/
def mute (o : Op) : Bool := o.steady && !o.writesConns

end Op

theorem Reaches.setTrader (h : Reaches fd a s) {b : Nat} {tr tr' : Trader} (hist : History)
    (htr : s.traders b = some tr) (hfd : tr'.fd = tr.fd) :
    Reaches fd a { s.setTrader b (some tr') with hist := hist } := by
  intro u hu
  by_cases hab : a = b
  · subst hab
    obtain rfl : tr' = u := by simpa [State.setTrader] using hu
    exact hfd.trans (h tr htr)
  · have hold : s.traders a = some u := by simpa [State.setTrader, hab] using hu
    exact h u hold

theorem exec_steady_reaches {o : Op} {e : Choice E} {r : o.Reply} (ho : o.steady = true)
    (h : exec t o e s = .done r s') (hs : Reaches fd a s) : Reaches fd a s' := by
  cases hw : o.writesTraders with
  | false =>
    unfold Reaches
    rw [(exec_frame h).traders hw]
    exact hs
  | true =>
    cases o with
    | lock b =>
      obtain ⟨tr, m, htr, _, rfl⟩ := exec_lock h
      exact hs.setTrader _ htr rfl
    | unlock b =>
      obtain ⟨tr, htr, rfl⟩ := exec_unlock h
      exact hs.setTrader s.hist htr rfl
    | mutexInit b =>
      obtain ⟨tr, htr, rfl⟩ := exec_mutexInit h
      exact hs.setTrader s.hist htr rfl
    | freeTrader b =>
      obtain ⟨tr, htr, rfl⟩ := exec_freeTrader h
      intro u hu
      by_cases hab : a = b
      · subst hab
        simp [State.setTrader] at hu
      · exact hs u (by simpa [State.setTrader, hab] using hu)
    | store f b v =>
      obtain ⟨tr, htr, rfl⟩ := exec_store h
      refine hs.setTrader _ htr ?_
      cases f <;> first | rfl | cases ho
    | mallocTrader => cases ho
    | _ => cases hw

/-- Bytes have been written to the connection. -/
def Grows (fd : Int) (s s' : State E) : Prop :=
  ∃ more, s'.output fd = (s.output fd).map (· ++ more)

theorem Grows.of_eq (h : s'.output fd = s.output fd) : Grows fd s s' := by
  refine ⟨[], ?_⟩
  rw [h]
  cases s.output fd <;> simp

theorem Grows.trans {s₁ s₂ s₃ : State E} (h : Grows fd s₁ s₂) (h' : Grows fd s₂ s₃) :
    Grows fd s₁ s₃ := by
  obtain ⟨more, h⟩ := h
  obtain ⟨more', h'⟩ := h'
  exact ⟨more ++ more', by simp [h, h', Function.comp_def]⟩

theorem output_setConn {d : Int} {c c' : Conn} (hc : s.conns d = some c)
    (hout : c'.output = c.output) : (s.setConn d (some c')).output fd = s.output fd := by
  by_cases hd : fd = d
  · subst hd
    simp [State.output, hc, hout]
  · simp [State.output, State.setConn, hd]

theorem exec_steady_output {o : Op} {e : Choice E} {r : o.Reply} (ho : o.steady = true)
    (h : exec t o e s = .done r s') : Grows fd s s' := by
  cases hw : o.writesConns with
  | false =>
    apply Grows.of_eq
    rw [State.output, (exec_frame h).conns hw, State.output]
  | true =>
    cases o with
    | read d n =>
      rcases execRead_conns h with rfl | ⟨c, k, hc, rfl⟩
      · exact .of_eq rfl
      · exact .of_eq (output_setConn hc rfl)
    | write d bs =>
      rcases execWrite_conns h with rfl | ⟨c, k, hc, rfl⟩
      · exact .of_eq rfl
      · by_cases hd : fd = d
        · subst hd
          exact ⟨bs.take k, by simp [State.output, hc]⟩
        · exact .of_eq (by simp [State.output, State.setConn, hd])
    | shutdown d =>
      simp only [exec] at h
      split at h
      · cases h
        exact .of_eq rfl
      · rename_i c hc
        cases h
        exact .of_eq (output_setConn hc rfl)
    | close d => cases ho
    | _ => cases hw

/-! ## Steady code -/

/-- Code built from steady actions. -/
abbrev Steady {α : Type} (p : Code α) : Prop := Built (fun o => o.steady = true) p

theorem steady_of_writesFrames {o : Op} (ho : o.writesFrames = true) : o.steady = true := by
  cases o <;> first | rfl | cases ho

theorem Built.partial_reaches {α : Type} {p : Code α} (hp : Steady p) (h : Reaches fd a s) :
    Partial (machine E) ok t p (fun _ s' => Reaches fd a s') s := by
  have hkept : Partial (machine E) ok t p
      (fun _ s' => Reaches fd a s → Reaches fd a s') s := by
    apply hp.partial_of_step (R := fun s s' : State E => Reaches fd a s → Reaches fd a s')
    · exact fun _ => id
    · exact fun h h' => h' ∘ h
    · exact fun _ _ => rfl
    · exact fun _ _ => rfl
    · exact fun o e s r s' ho he _ =>
        exec_steady_reaches (ho.elim id steady_of_writesFrames) he
    · exact fun _ _ => id
  exact hkept.mono fun _ _ hs => hs h

theorem Built.partial_grows {α : Type} {p : Code α} (hp : Steady p) (fd : Int) (s : State E) :
    Partial (machine E) ok t p (fun _ s' => Grows fd s s') s := by
  apply hp.partial_of_step (R := fun s s' : State E => Grows fd s s')
  · exact fun _ => .of_eq rfl
  · exact Grows.trans
  · exact fun _ _ => rfl
  · exact fun _ _ => rfl
  · exact fun o e s r s' ho he _ =>
      exec_steady_output (ho.elim id steady_of_writesFrames) he
  · exact fun _ _ => .of_eq rfl

/-- Code that takes mute actions only. -/
abbrev Calm {α : Type} (p : Code α) : Prop := p.Uses (fun o : Op => o.mute = true) fun _ => False

theorem Calm.steady {α : Type} {p : Code α} (hp : Calm p) : Steady p :=
  .leaf (hp.of_none.mono fun _ ho => (Bool.and_eq_true_iff.mp ho).1)

theorem Calm.partial_output {α : Type} {p : Code α} (hp : Calm p) (fd : Int) (s : State E) :
    Partial (machine E) ok t p (fun _ s' => s'.output fd = s.output fd) s := by
  refine Partial.of_uses (I := bourse) (M := machine E) (P := fun o : Op => o.mute = true)
    (R := fun s s' : State E => s'.output fd = s.output fd) (fun _ => rfl)
    (fun h h' => h'.trans h) ?_ ?_ hp
  · exact fun _ hp => hp.elim
  · intro o e s r s' ho he _
    have hw : o.writesConns = false := by simpa using (Bool.and_eq_true_iff.mp ho).2
    rw [State.output, (exec_frame he).conns hw, State.output]

theorem Calm.partial_reaches {α : Type} {p : Code α} (hp : Calm p) (h : Reaches fd a s) :
    Partial (machine E) ok t p (fun _ s' => Reaches fd a s') s := hp.steady.partial_reaches h

/-! ## The functions of the server -/

theorem uses_scope {α : Type} {P : Op → Prop} {C : Proc → Prop} {c : Call} {value : α → Value}
    {p : Code α} (henter : P (.enter c)) (hleave : ∀ v, P (.leave v)) (hp : p.Uses P C) :
    (scope c value p).Uses P C :=
  Prog.uses_step henter fun _ => hp.bind fun _ => Prog.uses_step (hleave _) fun _ => trivial

theorem calm_deref (p : Option Nat) : Calm (deref p) := by
  cases p with
  | some a => trivial
  | none => exact ⟨rfl, nofun⟩

theorem calm_slotName (i : Nat) : Calm (slotName i) :=
  Prog.uses_step rfl fun p => (calm_deref p).bind fun _ => Prog.uses_act rfl

theorem calm_traderRef : Calm (traderRef a) := by
  refine uses_scope rfl (fun _ => rfl) ?_
  exact Prog.uses_step rfl fun _ => Prog.uses_step rfl fun _ => Prog.uses_step rfl fun _ =>
    Prog.uses_step rfl fun _ => trivial

theorem calm_getFirstAvailableIndex : Calm getFirstAvailableIndex := by
  apply Prog.uses_search
  intro i
  refine Prog.uses_step rfl fun p => ?_
  cases p <;> trivial

theorem calm_removeTraderIfEmpty : Calm (removeTraderIfEmpty a) := by
  refine Prog.uses_step rfl fun ref => ?_
  split_ifs
  · trivial
  · refine (Prog.uses_search fun i => ?_).bind fun _ => trivial
    refine Prog.uses_step rfl fun p => ?_
    cases p with
    | none => trivial
    | some b =>
      refine (calm_slotName i).bind fun _ => Prog.uses_step rfl fun _ => ?_
      split_ifs
      · exact Prog.uses_step rfl fun _ => Prog.uses_step rfl fun _ => Prog.uses_step rfl fun _ =>
          Prog.uses_step rfl fun _ => trivial
      · trivial

theorem calm_traderUnref : Calm (traderUnref a) := by
  refine uses_scope rfl (fun _ => rfl) ?_
  exact Prog.uses_step rfl fun _ => Prog.uses_step rfl fun _ => Prog.uses_step rfl fun _ =>
    calm_removeTraderIfEmpty.bind fun _ => Prog.uses_act rfl

theorem calm_loadAsset {x : Asset} : Calm (loadAsset x a) := by
  cases x <;> exact Prog.uses_act rfl

theorem calm_storeAsset {x : Asset} {v : UInt32} : Calm (storeAsset x a v) := by
  cases x <;> exact Prog.uses_act rfl

theorem calm_increaseAsset {x : Asset} {n : UInt32} : Calm (increaseAsset x a n) := by
  refine uses_scope rfl (fun _ => rfl) ?_
  exact Prog.uses_step rfl fun _ => calm_loadAsset.bind fun _ => calm_storeAsset.bind fun _ =>
    Prog.uses_act rfl

theorem calm_decreaseAsset {x : Asset} {n : UInt32} : Calm (decreaseAsset x a n) := by
  refine uses_scope rfl (fun _ => rfl) ?_
  refine Prog.uses_step rfl fun _ => calm_loadAsset.bind fun _ => ?_
  split_ifs
  · exact calm_loadAsset.bind fun _ => calm_storeAsset.bind fun _ =>
      Prog.uses_step rfl fun _ => trivial
  · exact Prog.uses_step rfl fun _ => trivial

theorem steady_traderSendPacket (hdr : PacketHeader) (data : List UInt8) :
    Steady (traderSendPacket a hdr data) := by
  refine .scope (.bind (.act rfl) fun _ => .bind (.act rfl) fun fd =>
    .bind (built_protoSendPacket (P := fun o => o.steady = true) rfl fd hdr data)
      fun ⟨sent, _⟩ => ?_)
  dsimp only
  split_ifs
  · exact .ret
  · exact .bind (.act rfl) fun _ => .ret

theorem steady_traderBroadcastPacket (hdr : PacketHeader) (data : List UInt8) :
    Steady (traderBroadcastPacket hdr data) := by
  refine .scope (.bind (.search fun i => .bind (.act rfl) fun p => ?_) fun _ => .ret)
  cases p with
  | none => exact .ret
  | some b =>
    exact .bind (.act rfl) fun p => .bind (calm_deref p).steady fun a =>
      .bind (steady_traderSendPacket hdr data) fun _ => .ret

theorem steady_traderSendAck (info : Option StatusInfo) : Steady (traderSendAck a info) := by
  refine .scope (.bind (.act rfl) fun junk => ?_)
  cases info with
  | none => exact .bind (steady_traderSendPacket _ _) fun _ => .ret
  | some info =>
    exact .bind (.act rfl) fun _ => .bind (.act rfl) fun _ =>
      .bind (steady_traderSendPacket _ _) fun _ => .ret

theorem steady_traderSendNack : Steady (traderSendNack a) :=
  .scope (.bind (.act rfl) fun _ => .bind (steady_traderSendPacket _ _) fun _ => .ret)

/-! ## Replies -/

/-- The bytes of an ACK or of a NACK packet. -/
def IsReply (ack : Bool) (bytes : List UInt8) : Prop :=
  ∃ q : Packet, q.header.type = (if ack then PacketType.ack else PacketType.nack).code ∧
    bytes = q.toBytes

theorem isReply_stamp {ack : Bool} {hdr : PacketHeader} {data : List UInt8} (sec nsec : UInt32)
    (htype : hdr.type = (if ack then PacketType.ack else PacketType.nack).code)
    (hlen : data.length = hdr.payloadSize) :
    IsReply ack ((hdr.stamp sec nsec).toBytes ++ data) :=
  ⟨⟨hdr.stamp sec nsec, data, hlen⟩, htype, rfl⟩

theorem payloadSize_of_size {hdr : PacketHeader} {n : UInt16} (h : hdr.size = htons n) :
    hdr.payloadSize = n.toNat := by
  rw [PacketHeader.payloadSize, h, ntohs_htons]

variable {out : List UInt8}

theorem exists_conn_of_output (h : s.output fd = some out) :
    ∃ c, s.conns fd = some c ∧ c.output = out := Option.map_eq_some_iff.mp h

theorem partial_protoSendPacket_reply (ack : Bool) {hdr : PacketHeader} {data : List UInt8}
    (hout : s.output fd = some out)
    (htype : hdr.type = (if ack then PacketType.ack else PacketType.nack).code)
    (hlen : data.length = hdr.payloadSize) :
    Partial (machine E) (reliable E).ok t (protoSendPacket fd hdr data)
      (fun _ s' => ∃ bytes, IsReply ack bytes ∧ s'.output fd = some (out ++ bytes)) s := by
  obtain ⟨c, hc, rfl⟩ := exists_conn_of_output hout
  intro r s' hr
  obtain ⟨sec, nsec, _, rfl⟩ := (total_protoSendPacket sending_reliable hc).of_runs hr
  refine ⟨_, isReply_stamp sec nsec htype hlen, ?_⟩
  simp [State.output, List.take_of_length_le hlen.le]

/-- A function that replies when it is entered with the trader's connection open. -/
theorem partial_scope_reply {α : Type} {c : Call} {value : α → Value} {p : Code α} {ack : Bool}
    (h : ∀ s : State E, Reaches fd a s → s.output fd = some out →
      Partial (machine E) ok t p
        (fun _ s' => ∃ bytes, IsReply ack bytes ∧ s'.output fd = some (out ++ bytes)) s)
    (hreach : Reaches fd a s) (hout : s.output fd = some out) :
    Partial (machine E) ok t (scope c value p)
      (fun _ s' => ∃ bytes, IsReply ack bytes ∧ s'.output fd = some (out ++ bytes)) s :=
  Partial.scope ((h { s with hist := s.hist.enter t c } hreach hout).mono fun _ _ h => h)

theorem partial_traderSendPacket_reply (ack : Bool) {hdr : PacketHeader} {data : List UInt8}
    (hreach : Reaches fd a s) (hout : s.output fd = some out)
    (htype : hdr.type = (if ack then PacketType.ack else PacketType.nack).code)
    (hlen : data.length = hdr.payloadSize) :
    Partial (machine E) (reliable E).ok t (traderSendPacket a hdr data)
      (fun _ s' => ∃ bytes, IsReply ack bytes ∧ s'.output fd = some (out ++ bytes)) s := by
  refine partial_scope_reply (fun s hreach hout => ?_) hreach hout
  apply Partial.bind
  apply Partial.act
  intro e r s₁ he _
  obtain ⟨tr, m, htr, _, hs₁⟩ := exec_lock (t := t) (e := e) he
  have hreach₁ : Reaches fd a s₁ := by
    rw [hs₁]
    exact hreach.setTrader _ htr rfl
  have hout₁ : State.output s₁ fd = some out := by
    rw [hs₁]
    exact hout
  apply Partial.bind
  apply Partial.act
  intro e d s₂ he _
  obtain ⟨tr₁, htr₁, hd, hs₂⟩ := exec_load (t := t) (e := e) he
  have hfd : d = fd := hd.trans (hreach₁ tr₁ htr₁)
  subst hfd hs₂
  apply Partial.bind
  refine (partial_protoSendPacket_reply ack hout₁ htype hlen).mono ?_
  rintro ⟨sent, hdr'⟩ s₃ hreply
  dsimp only
  split_ifs
  · exact .ret hreply
  · apply Partial.bind
    apply Partial.act
    intro e r s₄ he _
    obtain ⟨tr₃, _, rfl⟩ := exec_unlock (t := t) (e := e) he
    exact .ret hreply

/-- The start of a function whose header is a local variable. -/
theorem partial_uninit_same {n : Nat} :
    Partial (machine E) ok t (uninit n) (fun _ s' => s' = s) s := by
  apply Partial.act
  intro e r s' he _
  simp only [exec] at he
  repeat' split at he
  all_goals cases he
  rfl

theorem partial_load_same {f : Field} :
    Partial (machine E) ok t (load f a) (fun _ s' => s' = s) s := by
  apply Partial.act
  intro e r s' he _
  obtain ⟨tr, htr, rfl, rfl⟩ := exec_load (t := t) (e := e) he
  rfl

theorem partial_traderSendNack_reply (hreach : Reaches fd a s) (hout : s.output fd = some out) :
    Partial (machine E) (reliable E).ok t (traderSendNack a)
      (fun _ s' => ∃ bytes, IsReply false bytes ∧ s'.output fd = some (out ++ bytes)) s := by
  refine partial_scope_reply (fun s hreach hout => ?_) hreach hout
  apply Partial.bind
  refine partial_uninit_same.mono ?_
  rintro junk _ rfl
  apply Partial.bind
  refine (partial_traderSendPacket_reply false hreach hout ?_ ?_).mono ?_
  · rfl
  · exact (payloadSize_of_size (n := 0) (by rfl)).symm
  · exact fun _ s' h => .ret h

theorem partial_traderSendAck_reply {info : Option StatusInfo} (hreach : Reaches fd a s)
    (hout : s.output fd = some out) :
    Partial (machine E) (reliable E).ok t (traderSendAck a info)
      (fun _ s' => ∃ bytes, IsReply true bytes ∧ s'.output fd = some (out ++ bytes)) s := by
  refine partial_scope_reply (fun s hreach hout => ?_) hreach hout
  apply Partial.bind
  refine partial_uninit_same.mono ?_
  rintro junk _ rfl
  cases info with
  | none =>
    apply Partial.bind
    refine (partial_traderSendPacket_reply true hreach hout ?_ ?_).mono ?_
    · rfl
    · exact (payloadSize_of_size (n := 0) (by rfl)).symm
    · exact fun _ s' h => .ret h
  | some info =>
    apply Partial.bind
    refine partial_load_same.mono ?_
    rintro balance _ rfl
    apply Partial.bind
    refine partial_load_same.mono ?_
    rintro inventory _ rfl
    apply Partial.bind
    refine (partial_traderSendPacket_reply true hreach hout ?_ ?_).mono ?_
    · rfl
    · rw [StatusInfo.length_toBytes]
      exact (payloadSize_of_size (n := UInt16.ofNat statusSize) (by rfl)).symm
    · exact fun _ s' h => .ret h

/-! ## Login -/

/-- A client that has logged in is sent what is meant for its trader. -/
theorem partial_traderLogin_reaches {name : CString} :
    Partial (machine E) ok t (traderLogin fd name)
      (fun r s' => ∀ a, r = some a → Reaches fd a s') s := by
  have hcalm : ∀ {o : Op} {s : State E} {a : Nat}, o.mute = true → Reaches fd a s →
      Partial (machine E) ok t (.act (I := bourse) o) (fun _ s' => Reaches fd a s') s :=
    fun ho h => Calm.partial_reaches (Prog.uses_act ho) h
  have hstore : ∀ {s : State E} {a : Nat}, Partial (machine E) ok t (store .fd a fd)
      (fun _ s' => Reaches fd a s') s := by
    intro s a
    apply Partial.act
    intro e r s' he _
    obtain ⟨tr, htr, rfl⟩ := exec_store (t := t) (e := e) he
    intro tr' htr'
    obtain rfl : tr.set .fd fd = tr' := by simpa [State.setTrader] using htr'
    rfl
  apply Partial.scope
  apply Partial.bind
  intro old s₁ _
  cases old with
  | some old =>
    apply Partial.bind
    intro oldFd s₂ _
    split_ifs
    · exact .ret reaches_none
    · apply Partial.bind
      refine hstore.mono ?_
      intro _ s₃ h₃
      refine .ret fun a ha => ?_
      obtain rfl := Option.some.inj ha
      exact h₃
  | none =>
    apply Partial.bind
    intro total s₂ _
    split_ifs
    · exact .ret reaches_none
    · refine Partial.bind fun _ s₃ _ => Partial.bind fun _ s₄ _ => Partial.bind fun a s₅ _ => ?_
      refine Partial.bind fun _ s₆ _ => Partial.bind fun _ s₇ _ => Partial.bind ?_
      refine hstore.mono ?_
      intro _ s₈ h₈
      refine Partial.bind ((hcalm (o := .store .balance a 0) rfl h₈).mono fun _ s₉ h₉ => ?_)
      refine Partial.bind ((hcalm (o := .store .inventory a 0) rfl h₉).mono fun _ s₁₀ h₁₀ => ?_)
      refine Partial.bind ((hcalm (o := .store .name a name) rfl h₁₀).mono fun _ s₁₁ h₁₁ => ?_)
      refine Partial.bind ((hcalm (o := .mutexInit a) rfl h₁₁).mono fun _ s₁₂ h₁₂ => ?_)
      refine Partial.bind ((calm_getFirstAvailableIndex.partial_reaches h₁₂).mono ?_)
      intro i s₁₃ h₁₃
      cases i with
      | none => exact .ret reaches_none
      | some i =>
        refine Partial.bind ((hcalm (o := .setSlot i (some a)) rfl h₁₃).mono fun _ s₁₄ h₁₄ => ?_)
        refine .ret fun b hb => ?_
        obtain rfl := Option.some.inj hb
        exact h₁₄

end BourseServer
