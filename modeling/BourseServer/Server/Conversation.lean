import BourseServer.Protocol.Delivery
import BourseServer.Server.Deeds
import BourseServer.Server.Progress

/-!
# The conversation with one client

A service thread receives packets until the connection ends. `Handled` says what it does for one
packet, in order, and to which trader the connection is bound before and after it: which packets
are replied to, which reply it is, and which leave everything as it was. In a conversation each
packet of a sequence is handled so, and the thread gets to the end of each of them unless it has to
wait for a mutex.
-/
namespace BourseServer

open Concurrency Bytes

variable {E : Exchange} {t a : Nat} {fd : Int} {s s' : State E} {p : Packet}

/-! ## Specification -/

/-- What has been written to the connection ends with a reply, behind what was there and what the
exchange has sent in the meantime. -/
def Replied (fd : Int) (ack : Bool) (more : List UInt8) (s s' : State E) : Prop :=
  ∃ reply, IsReply ack reply ∧ s'.output fd = (s.output fd).map (· ++ (more ++ reply))

/-- Thread `t` has handled the packet `p` on connection `fd`: what it has done, and the trader that
the client is logged in as before and after it. -/
inductive Handled (t : Nat) (fd : Int) (p : Packet) (s s' : State E) :
    Option Nat → List Deed → Option Nat → Prop where
  | ignored : p.header.type ≠ PacketType.login.code → SameBooks s s' →
      s'.output fd = s.output fd → Handled t fd p s s' none [] none
  | accepted {name : CString} {a : Nat} {v : Value} : p.header.type = PacketType.login.code →
      name.chars = p.payload ++ [0] → Replied fd true [] s s' →
      Handled t fd p s s' none
        [.call (.login fd name) (.trader (some a)), .call (.sendAck a none) v] (some a)
  | rejected {name : CString} : p.header.type = PacketType.login.code →
      name.chars = p.payload ++ [0] → Replied fd false [] s s' →
      Handled t fd p s s' none [.call (.login fd name) (.trader none), .nack] none
  | again {a : Nat} {v : Value} : p.header.type = PacketType.login.code → SameBooks s s' →
      Replied fd false [] s s' → Handled t fd p s s' (some a) [.call (.sendNack a) v] (some a)
  | request {a : Nat} {type : PacketType} {ds : List Deed} {ok : Bool} {info : StatusInfo}
      {v : Value} {more : List UInt8} : p.header.type = type.code →
      Transaction s.exchange a p.payload type ds ok →
      Wrote t fd s (ds.filterMap Deed.clientCall) more → Replied fd ok more s s' →
      Handled t fd p s s' (some a)
        (ds ++ [.exchange .getStatus .void, .call (answer a ok info) v]) (some a)
  | other {a : Nat} : p.header.type ≠ PacketType.login.code →
      (∀ type : PacketType, type.request = true → p.header.type ≠ type.code) →
      SameBooks s s' → s'.output fd = s.output fd → Handled t fd p s s' (some a) [] (some a)

/-- A login gets one reply, an ACK if it is accepted; a request of a client that is logged in gets
one reply; and other packets get none. -/
theorem Handled.replies {u v : Option Nat} {new : List Deed} (h : Handled t fd p s s' u new v) :
    (p.header.type = PacketType.login.code →
      new.filterMap Deed.reply = [u.isNone && v.isSome]) ∧
    (∀ type : PacketType, type.request = true → p.header.type = type.code →
      if u.isSome then ∃ ok, new.filterMap Deed.reply = [ok] else new = []) ∧
    (p.header.type ≠ PacketType.login.code →
      (∀ type : PacketType, type.request = true → p.header.type ≠ type.code) → new = []) := by
  have hlogin : ∀ type : PacketType, type.request = true →
      type.code ≠ PacketType.login.code := by
    intro type htype
    cases type <;> first | decide | cases htype
  cases h with
  | ignored htype => exact ⟨fun h => absurd h htype, fun _ _ _ => rfl, fun _ _ => rfl⟩
  | other htype hkind =>
    exact ⟨fun h => absurd h htype, fun type ht h => absurd h (hkind type ht), fun _ _ => rfl⟩
  | accepted htype =>
    refine ⟨fun _ => rfl, fun type ht h => ?_, fun h => absurd htype h⟩
    exact absurd (h.symm.trans htype) (hlogin type ht)
  | rejected htype =>
    refine ⟨fun _ => rfl, fun type ht h => ?_, fun h => absurd htype h⟩
    exact absurd (h.symm.trans htype) (hlogin type ht)
  | again htype =>
    refine ⟨fun _ => rfl, fun type ht h => ?_, fun h => absurd htype h⟩
    exact absurd (h.symm.trans htype) (hlogin type ht)
  | @request a type ds ok info v more htype hds =>
    obtain ⟨hnone, hrequest⟩ := hds.replies
    refine ⟨fun h => ?_, fun _ _ _ => ⟨ok, ?_⟩, fun _ hkind => absurd htype (hkind type hrequest)⟩
    · exact absurd (htype.symm.trans h) (hlogin type hrequest)
    · rw [List.filterMap_append, hnone]
      cases ok <;> rfl

/-- From `s` to `s'`, thread `t` does `new`, called from outside of the trader module. -/
def Does (t : Nat) (new : List Deed) (s s' : State E) : Prop :=
  ∀ ds, Did t ds s → Did t (record new ++ ds) s'

/-- Thread `t` does nothing while other threads run, and nobody else changes the descriptor of the
trader that its client is logged in as. -/
structure Rests (t : Nat) (fd : Int) (u : Option Nat) (s s' : State E) : Prop where
  idle : Does t [] s s'
  reach : ∀ a, u = some a → Reaches fd a s → Reaches fd a s'

/-- What is done when the connection has ended. -/
inductive Farewell : Option Nat → List Deed → Prop where
  | stranger : Farewell none []
  | logout (a : Nat) (v : Value) : Farewell (some a) [.call (.logout a) v]

/-- A request carries a payload of the size of its struct. -/
def Packet.Sized (p : Packet) : Prop :=
  neededBytes p.header.type ≠ 0 → p.payload.length = neededBytes p.header.type

/-- A conversation: the packets `ps` come in one after the other, and then the connection ends.
Before each of them other threads may have done anything that leaves the client logged in. The
packet is handled, and if the state is `ready` for it the thread comes to the end of what it does
for it. When the connection has ended, the thread leaves the loop and logs its client out. -/
def Converses (ready : Option Nat → State E → Prop) (t : Nat) (fd : Int) :
    List Packet → State E → Session → Prop
  | [], s, l => ∀ s₁ c, Rests t fd l.thisTrader s s₁ → s₁.conns fd = some c → c.input = [] →
      c.ended = true →
      Partial (machine E) (reliable E).ok t (serveNext fd l) (fun r s₂ => r = none ∧
        ∃ new, Farewell l.thisTrader new ∧ Does t new s₁ s₂) s₁ ∧
      (ready l.thisTrader s₁ → (∀ a, l.thisTrader = some a → s₁.refs a ≠ some 1) →
        Total (civil E) t (serveNext fd l)
          (fun _ s₂ => ∀ a, l.thisTrader = some a → LoggedOut a s₁ s₂) s₁)
  | p :: ps, s, l => ∀ s₁ c, Rests t fd l.thisTrader s s₁ → s₁.conns fd = some c →
      Packet.front c.input = some p →
      Partial (machine E) (reliable E).ok t (serveNext fd l) (fun r s₂ => ∃ l₂ new,
        r = some l₂ ∧ Handled t fd p s₁ s₂ l.thisTrader new l₂.thisTrader ∧ Does t new s₁ s₂ ∧
          Converses ready t fd ps s₂ l₂) s₁ ∧
      (ready l.thisTrader s₁ →
        Total (civil E) t (serveNext fd l) (fun r _ => r.isSome = true) s₁)

variable {ok : Condition (machine E)} {ds : List Doing} {out : List UInt8}

/-! ## Login and rejection -/

/-- A change of the mutex of a trader. -/
theorem sameBooks_setTrader {tr : Trader} (htr : s.traders a = some tr) (m : Mutex)
    (hist : History) :
    SameBooks s { s.setTrader a (some { tr with mutex := m }) with hist := hist } where
  traders b := by
    by_cases hb : b = a
    · subst hb
      simp [State.setTrader, htr, Trader.fields]
    · simp [State.setTrader, hb]
  table := rfl
  count := rfl
  exchange := rfl
  registry := rfl

/-- The actions of a thread that sends a packet. -/
def Op.sends : Op → Bool
  | .enter _ | .leave _ | .lock _ | .unlock _ | .load .. | .uninit _ | .clock => true
  | .read .. | .write .. => true
  | _ => false

theorem exec_sends {o : Op} {e : Choice E} {r : o.Reply} (ho : o.sends = true)
    (h : exec t o e s = .done r s') : SameBooks s s' := by
  cases o
  case lock a =>
    obtain ⟨tr, m, htr, _, rfl⟩ := exec_lock h
    exact sameBooks_setTrader htr m _
  case unlock a =>
    obtain ⟨tr, htr, rfl⟩ := exec_unlock h
    exact sameBooks_setTrader htr _ s.hist
  all_goals first
    | exact
      { traders := fun a => by rw [(exec_frame h).traders rfl]
        table := (exec_frame h).table rfl
        count := (exec_frame h).count rfl
        exchange := (exec_frame h).exchange rfl
        registry := (exec_frame h).registry rfl }
    | cases ho

theorem uses_protoSendPacket {P : Op → Prop} (h : P .clock) (hdr : PacketHeader)
    (payload : List UInt8) : (protoSendPacket fd hdr payload).Uses P Proc.Transfer := by
  refine Prog.uses_step h fun _ => (Prog.uses_invoke trivial).bind fun r => ?_
  split_ifs
  · trivial
  · refine (Prog.uses_invoke trivial).bind fun r => ?_
    split_ifs <;> trivial
  · trivial

theorem uses_traderSendPacket (hdr : PacketHeader) (data : List UInt8) :
    (traderSendPacket a hdr data).Uses (fun o : Op => o.sends = true) Proc.Transfer := by
  refine uses_scope rfl (fun _ => rfl) ?_
  refine Prog.uses_step rfl fun _ => Prog.uses_step rfl fun fd => ?_
  have hsend : (protoSendPacket fd hdr data).Uses (fun o : Op => o.sends = true) Proc.Transfer :=
    uses_protoSendPacket (P := fun o : Op => o.sends = true) rfl hdr data
  refine hsend.bind fun sent => ?_
  dsimp only
  split_ifs
  · trivial
  · exact Prog.uses_step rfl fun _ => trivial

/-- A NACK changes nothing but the connection it is written to. -/
theorem partial_traderSendNack_books :
    Partial (machine E) ok t (traderSendNack a) (fun _ => SameBooks s) s := by
  have hnack : (traderSendNack a).Uses (fun o : Op => o.sends = true) Proc.Transfer := by
    refine uses_scope rfl (fun _ => rfl) ?_
    refine Prog.uses_step rfl fun _ => ?_
    exact (uses_traderSendPacket _ _).bind fun _ => trivial
  refine Partial.of_uses (I := bourse) (M := machine E) (P := fun o : Op => o.sends = true)
    (R := SameBooks) SameBooks.refl SameBooks.trans ?_ ?_ hnack
  · exact fun p hp => uses_transfer hp (fun _ _ => rfl) fun _ _ => rfl
  · exact fun o e s r s' ho he _ => exec_sends ho he

section login

/-- Code that moves no bytes. -/
abbrev Offline {α : Type} (p : Code α) : Prop :=
  p.Uses (fun o : Op => o.writesConns = false) fun _ => False

theorem offline_deref (p : Option Nat) : Offline (deref p) := by
  cases p with
  | some a => trivial
  | none => exact ⟨rfl, nofun⟩

theorem offline_traderRef : Offline (traderRef a) := by
  refine uses_scope rfl (fun _ => rfl) ?_
  exact Prog.uses_step rfl fun _ => Prog.uses_step rfl fun _ =>
    Prog.uses_step rfl fun _ => Prog.uses_step rfl fun _ => trivial

theorem offline_slotName (i : Nat) : Offline (slotName i) :=
  Prog.uses_step rfl fun p => (offline_deref p).bind fun _ => Prog.uses_act rfl

theorem offline_checkOldTraderAndLogin {name : CString} :
    Offline (checkOldTraderAndLogin fd name) := by
  apply Prog.uses_search
  intro i
  refine Prog.uses_step rfl fun p => ?_
  cases p with
  | none => trivial
  | some b =>
    refine (offline_slotName i).bind fun _ => ?_
    split_ifs
    · exact Prog.uses_step rfl fun p => (offline_deref p).bind fun _ =>
        offline_traderRef.bind fun _ => Prog.uses_step rfl fun p =>
        (offline_deref p).bind fun _ => trivial
    · trivial

theorem offline_getFirstAvailableIndex : Offline getFirstAvailableIndex := by
  apply Prog.uses_search
  intro i
  refine Prog.uses_step rfl fun p => ?_
  cases p <;> trivial

theorem offline_traderLogin {name : CString} : Offline (traderLogin fd name) := by
  refine uses_scope rfl (fun _ => rfl) ?_
  refine offline_checkOldTraderAndLogin.bind fun old => ?_
  cases old with
  | some old =>
    refine Prog.uses_step rfl fun oldFd => ?_
    split_ifs
    · trivial
    · exact Prog.uses_step rfl fun _ => trivial
  | none =>
    refine Prog.uses_step rfl fun total => ?_
    split_ifs
    · trivial
    · refine Prog.uses_step rfl fun _ => Prog.uses_step rfl fun _ =>
        Prog.uses_step rfl fun _ => offline_traderRef.bind fun _ =>
        offline_traderRef.bind fun _ => Prog.uses_step rfl fun _ =>
        Prog.uses_step rfl fun _ => Prog.uses_step rfl fun _ =>
        Prog.uses_step rfl fun _ => Prog.uses_step rfl fun _ =>
        offline_getFirstAvailableIndex.bind fun i => ?_
      cases i with
      | none => trivial
      | some i => exact Prog.uses_step rfl fun _ => trivial

theorem partial_traderLogin_conns {name : CString} :
    Partial (machine E) ok t (traderLogin fd name) (fun _ s' => s'.conns = s.conns) s := by
  refine Partial.of_uses (I := bourse) (M := machine E)
    (P := fun o : Op => o.writesConns = false)
    (R := fun s s' : State E => s'.conns = s.conns) (fun _ => rfl) (fun h h' => h'.trans h) ?_ ?_
    offline_traderLogin
  · exact fun p hp => hp.elim
  · exact fun o e s r s' ho he _ => (exec_frame he).conns ho

end login

/-! ## Packets -/

theorem does_of_did {new : List Deed} (h : Did t ds s) (h' : Did t (record new ++ ds) s') :
    Does t new s s' := by
  intro ds' h''
  obtain rfl : ds' = ds := h''.2.symm.trans h.2
  exact h'

/-- The NACK for a rejected login. -/
theorem partial_alreadyRegistred (hout : s.output fd = some out) :
    Partial (machine E) (reliable E).ok t (alreadyRegistred fd) (fun _ s' =>
      ∃ reply, IsReply false reply ∧ s'.output fd = some (out ++ reply)) s := by
  apply Partial.bind
  refine partial_uninit_same.mono ?_
  rintro junk _ rfl
  apply Partial.bind
  refine (partial_protoSendPacket_reply false hout ?_ ?_).mono ?_
  · rfl
  · exact (payloadSize_of_size (n := 0) (by rfl)).symm
  · exact fun _ s' h => .ret h

theorem partial_alreadyRegistred_did (h : Did t ds s) :
    Partial (machine E) ok t (alreadyRegistred fd) (fun _ s' => Did t ds s') s := by
  refine partial_did_of_uses ?_ h
  refine Prog.uses_step rfl fun _ => ?_
  refine Prog.Uses.bind ?_ fun _ => trivial
  exact uses_protoSendPacket (P := fun o : Op => o.inner = true) rfl _ []

theorem partial_free_did {b : Option Nat} (h : Did t ds s) :
    Partial (machine E) ok t (free b) (fun _ s' => Did t ds s' ∧ SameBooks s s' ∧
      s'.conns = s.conns) s := by
  apply Partial.act
  intro e r s' he _
  obtain ⟨hframes, hevents⟩ := exec_inner_doings (o := .free b) (t := t) (e := e) rfl he
  have hframe : Op.Frame (.free b) s s' := exec_frame (t := t) (e := e) he
  refine ⟨⟨hframes.trans h.1, (hevents none).trans h.2⟩, ?_, hframe.conns rfl⟩
  constructor
  · intro a
    rw [hframe.traders rfl]
  · exact hframe.table rfl
  · exact hframe.count rfl
  · exact hframe.exchange rfl
  · exact hframe.registry rfl

/-- Where the thread has come to with packet `p`, of a client that was logged in as `u`. -/
structure Handles (t : Nat) (fd : Int) (p : Packet) (s : State E) (u : Option Nat)
    (ds : List Doing) (s' : State E) (v : Option Nat) : Prop where
  handled : ∃ new, Handled t fd p s s' u new v ∧ Did t (record new ++ ds) s'
  reach : ∀ a, v = some a → Reaches fd a s'

/-- What happens before and after it may change neither the books nor the output. -/
theorem Handled.between {s₁ s₂ : State E} {u v : Option Nat} {new : List Deed}
    (h : Handled t fd p s₁ s₂ u new v) (hbefore : SameBooks s s₁)
    (hout : s₁.output fd = s.output fd) (hafter : SameBooks s₂ s')
    (hout' : s'.output fd = s₂.output fd) : Handled t fd p s s' u new v := by
  have hbooks : SameBooks s₁ s₂ → SameBooks s s' := fun hb => (hbefore.trans hb).trans hafter
  have hsame : s₂.output fd = s₁.output fd → s'.output fd = s.output fd :=
    fun ho => (hout'.trans ho).trans hout
  have hreplied : ∀ {ack : Bool} {more : List UInt8}, Replied fd ack more s₁ s₂ →
      Replied fd ack more s s' := by
    rintro ack more ⟨reply, hreply, ho⟩
    exact ⟨reply, hreply, hout ▸ hout'.trans ho⟩
  cases h with
  | ignored htype hb ho => exact .ignored htype (hbooks hb) (hsame ho)
  | accepted htype hname ho => exact .accepted htype hname (hreplied ho)
  | rejected htype hname ho => exact .rejected htype hname (hreplied ho)
  | again htype hb ho => exact .again htype (hbooks hb) (hreplied ho)
  | request htype hnew hwrote ho =>
    exact .request htype (hbefore.exchange ▸ hnew) (hwrote.of_same hbefore hout) (hreplied ho)
  | other htype hkind hb ho => exact .other htype hkind (hbooks hb) (hsame ho)

theorem Reaches.of_same {s s' : State E} (h : Reaches fd a s) (hbooks : SameBooks s s') :
    Reaches fd a s' := by
  intro tr htr
  have hfields := hbooks.traders a
  rw [htr] at hfields
  obtain ⟨tr', htr', heq⟩ := Option.map_eq_some_iff.mp hfields.symm
  have hfd : tr'.fd = tr.fd := congrArg (fun r => r.2.1) heq
  exact hfd.symm.trans (h tr' htr')

/-- Memory is freed after a packet has been handled. -/
theorem Handles.partial_free {s₁ : State E} {u v b : Option Nat}
    (h : Handles t fd p s u ds s₁ v) :
    Partial (machine E) ok t (free b) (fun _ s' => Handles t fd p s u ds s' v) s₁ := by
  obtain ⟨⟨new, hnew, hdid⟩, hreach⟩ := h
  refine (partial_free_did hdid).mono ?_
  rintro _ s' ⟨h', hbooks, hconns⟩
  have hout : s'.output fd = s₁.output fd := by rw [State.output, hconns, State.output]
  refine ⟨⟨new, hnew.between (.refl s) rfl hbooks hout, h'⟩, fun a ha => ?_⟩
  exact (hreach a ha).of_same hbooks

theorem Handles.ignored (htype : p.header.type ≠ PacketType.login.code) (h : Did t ds s) :
    Handles t fd p s none ds s none :=
  ⟨⟨[], .ignored htype (.refl s) rfl, h⟩, reaches_none⟩

theorem replied_of_output {ack : Bool} {more reply : List UInt8} (hreply : IsReply ack reply)
    (hout : s.output fd = some out) (hout' : s'.output fd = some (out ++ (more ++ reply))) :
    Replied fd ack more s s' :=
  ⟨reply, hreply, by rw [hout', hout]; rfl⟩

/-- A LOGIN packet of a client that is not logged in. -/
theorem partial_serveLogin_handles (h : Did t ds s) (hout : s.output fd = some out)
    (hlogin : p.header.type = PacketType.login.code) {payload : Option Payload}
    (hname : ∀ bytes, Loaded (reliable E).ok payload p.header.payloadSize bytes →
      bytes = p.payload) :
    Partial (machine E) (reliable E).ok t (serveLogin fd p.header payload)
      (fun u s' => Handles t fd p s none ds s' u) s := by
  apply Partial.bind
  refine fun r s₁ h₁ => ?_
  obtain ⟨hjunk, rfl⟩ := (total_malloc receiving_reliable).of_runs h₁
  apply Partial.bind
  refine partial_loadPayload.mono ?_
  rintro bytes s₂ ⟨hs₂, hbytes⟩
  subst hs₂
  rw [hname bytes hbytes]
  have hbefore : Did t ds ({ s with blocks := r.1 :: s.blocks } : State E) := h
  have hanswers : Answers (fun o => o.inner = true)
      (traderLogin fd ⟨r.1, p.payload ++ [0]⟩) (.login fd ⟨r.1, p.payload ++ [0]⟩) .trader :=
    (answers_traderLogin fd _).mono fun o ho => (Bool.and_eq_true_iff.mp ho).1
  apply Partial.bind
  refine (((hanswers.partial_did hbefore).and partial_traderLogin_conns).and
    partial_traderLogin_reaches).mono ?_
  rintro found s₃ ⟨⟨h₃, hconns⟩, hreach⟩
  have hout₃ : s₃.output fd = some out := by
    rw [State.output, hconns]
    exact hout
  cases found with
  | none =>
    apply Partial.bind
    refine ((partial_alreadyRegistred_did h₃).and (partial_alreadyRegistred hout₃)).mono ?_
    rintro _ s₄ ⟨h₄, reply, hreply, hout₄⟩
    exact .ret ⟨⟨_, .rejected hlogin rfl (replied_of_output hreply hout hout₄), h₄⟩,
      reaches_none⟩
  | some a =>
    apply Partial.bind
    have htalks : Talks t fd a _ out s₃ := ⟨h₃, hreach a rfl, hout₃⟩
    refine htalks.partial_sendAck.mono ?_
    rintro _ s₄ ⟨v, reply, hreply, h₄⟩
    refine .ret ⟨⟨_, .accepted hlogin rfl (replied_of_output hreply hout h₄.output), h₄.did⟩, ?_⟩
    intro b hb
    obtain rfl := Option.some.inj hb
    exact h₄.reach

/-- A packet of a client that is not logged in. -/
theorem partial_servePacket_out (h : Did t ds s) (hout : s.output fd = some out)
    {block : Nat} {new : Option Payload}
    (hname : ∀ bytes, Loaded (reliable E).ok new p.header.payloadSize bytes → bytes = p.payload) :
    Partial (machine E) (reliable E).ok t (servePacket fd block p.header ⟨new, none⟩)
      (fun l' s' => Handles t fd p s none ds s' l'.thisTrader) s := by
  unfold servePacket
  dsimp only
  split_ifs with hno hlogin
  · have hignored : p.header.type ≠ PacketType.login.code := by
      rw [hno]
      decide
    apply Partial.bind
    exact (Handles.ignored hignored h).partial_free.mono fun _ _ h' => .ret h'
  · apply Partial.bind
    refine (partial_serveLogin_handles h hout hlogin hname).mono fun u s₁ h₁ => ?_
    apply Partial.bind
    exact h₁.partial_free.mono fun _ _ h' => .ret h'
  · exact .ret (.ignored hlogin h)

/-- A packet of a client that is logged in. -/
theorem partial_servePacket_in (h : Talks t fd a ds out s) {block : Nat} {new : Option Payload}
    (hb : neededBytes p.header.type ≠ 0 → ∀ bytes,
      Loaded (reliable E).ok new (neededBytes p.header.type) bytes → bytes = p.payload) :
    Partial (machine E) (reliable E).ok t (servePacket fd block p.header ⟨new, some a⟩)
      (fun l' s' => Handles t fd p s (some a) ds s' l'.thisTrader) s := by
  have hbound : ∀ {s' : State E}, Reaches fd a s' → ∀ b, some a = some b → Reaches fd b s' := by
    rintro s' hreach b hb
    obtain rfl := Option.some.inj hb
    exact hreach
  have hother : p.header.type ≠ PacketType.login.code →
      (∀ kind : PacketType, kind.request = true → p.header.type ≠ kind.code) →
      Handles t fd p s (some a) ds s (some a) := fun hlogin hkind =>
    ⟨⟨[], .other hlogin hkind (.refl s) rfl, h.did⟩, hbound h.reach⟩
  unfold servePacket
  dsimp only
  split_ifs with hno hlogin
  · have hhandles : Handles t fd p s (some a) ds s (some a) := by
      apply hother
      · rw [hno]
        decide
      · rw [hno]
        intro kind hkind
        cases kind <;> first | decide | cases hkind
    apply Partial.bind
    exact hhandles.partial_free.mono fun _ _ h' => .ret h'
  · apply Partial.bind
    refine (h.partial_sendNack.and partial_traderSendNack_books).mono ?_
    rintro _ s' ⟨⟨v, reply, hreply, h'⟩, hbooks⟩
    refine .ret ⟨⟨_, .again hlogin hbooks ?_, h'.did⟩, hbound h'.reach⟩
    exact replied_of_output hreply h.output h'.output
  · apply Partial.bind
    refine (partial_serveRequest_talks h hb).mono ?_
    intro _ s₁ h₁
    apply Partial.bind
    have hhandles : Handles t fd p s (some a) ds s₁ (some a) := by
      rcases h₁ with ⟨kind, hkind, new, b, info, v, more, reply, hnew, hwrote, hreply, h₁⟩ |
        ⟨hkind, rfl⟩
      · refine ⟨⟨_, .request hkind hnew hwrote ?_, h₁.did⟩, hbound h₁.reach⟩
        exact replied_of_output hreply h.output h₁.output
      · exact hother hlogin hkind
    exact hhandles.partial_free.mono fun _ _ h' => .ret h'

/-- All of a payload is what is loaded. -/
theorem Loaded.eq_payload {old new : Option Payload} {bytes : List UInt8}
    (h : Loaded ok new p.header.payloadSize bytes) (hnew : p.Replaces old new) :
    bytes = p.payload := by
  have hlen := p.length_payload
  by_cases hzero : p.header.payloadSize = 0
  · rw [hzero] at h hlen
    rw [h.eq_take (Nat.zero_le _), List.take_zero, List.length_eq_zero_iff.mp hlen]
  · rw [Packet.Replaces, if_neg hzero] at hnew
    obtain ⟨block, rfl⟩ := hnew
    rw [h.eq_take (by simp [hlen])]
    simp [← hlen]

theorem Handles.of_same {s₁ : State E} {u v : Option Nat} (h : Handles t fd p s₁ u ds s' v)
    (hbooks : SameBooks s s₁) (hout : s₁.output fd = s.output fd) :
    Handles t fd p s u ds s' v := by
  obtain ⟨⟨new, hnew, hdid⟩, hreach⟩ := h
  exact ⟨⟨new, hnew.between hbooks hout (.refl s') rfl, hdid⟩, hreach⟩

/-- A packet that has arrived completely is handled. -/
theorem partial_serveNext_handles {l : Session} {c : Conn} (h : Did t ds s)
    (hreach : ∀ a, l.thisTrader = some a → Reaches fd a s) (hc : s.conns fd = some c)
    (hp : Packet.front c.input = some p) (hsized : p.Sized) :
    Partial (machine E) (reliable E).ok t (serveNext fd l)
      (fun r s' => ∃ l', r = some l' ∧ Handles t fd p s l.thisTrader ds s' l'.thisTrader) s := by
  refine Partial.serveNext receiving_reliable hc hp ?_
  rintro block blocks conns new hnew ⟨input, rfl⟩
  generalize hs₁ : ({ s with
    blocks := blocks
    conns := Function.update s.conns fd (some { c with input := input }) } : State E) = s₁
  have hconn : s₁.conns fd = some { c with input := input } := by
    rw [← hs₁]
    exact Function.update_self ..
  have hbooks : SameBooks s s₁ := by
    rw [← hs₁]
    exact ⟨fun _ => rfl, rfl, rfl, rfl, rfl⟩
  have hout : s₁.output fd = s.output fd := by
    rw [State.output, hconn, State.output, hc]
    rfl
  have hout₁ : s₁.output fd = some c.output := by
    rw [State.output, hconn]
    rfl
  have hdid : Did t ds s₁ := by
    rw [← hs₁]
    exact h
  cases hl : l.thisTrader with
  | none =>
    refine (partial_servePacket_out hdid hout₁ fun bytes hb => hb.eq_payload hnew).mono ?_
    exact fun l' s' hhandles => ⟨l', rfl, hhandles.of_same hbooks hout⟩
  | some a =>
    have hpayload : neededBytes p.header.type ≠ 0 → ∀ bytes,
        Loaded (reliable E).ok new (neededBytes p.header.type) bytes → bytes = p.payload := by
      intro hneeded bytes hb
      rw [hb.of_replaces hnew (hsized hneeded).ge, ← hsized hneeded, List.take_length]
    have htalks : Talks t fd a ds c.output s₁ := ⟨hdid, (hreach a hl).of_same hbooks, hout₁⟩
    refine (partial_servePacket_in htalks hpayload).mono ?_
    exact fun l' s' hhandles => ⟨l', rfl, hhandles.of_same hbooks hout⟩

/-! ## The end of the connection -/

theorem partial_serveLogout_did {l : Session} (h : Did t ds s) :
    Partial (machine E) ok t (serveLogout l) (fun _ s' =>
      ∃ new, Farewell l.thisTrader new ∧ Did t (record new ++ ds) s') s := by
  obtain ⟨payload, u⟩ := l
  cases u with
  | none => exact .ret ⟨[], .stranger, h⟩
  | some a =>
    refine ((closingCall_traderLogout a).inner.partial_did h).mono ?_
    rintro _ s' ⟨v, h'⟩
    exact ⟨_, .logout a v, h'⟩

theorem partial_serveEnd_did {block : Nat} {hdr : PacketHeader} {l : Session} (h : Did t ds s) :
    Partial (machine E) ok t (serveEnd block hdr l) (fun _ s' =>
      ∃ new, Farewell l.thisTrader new ∧ Did t (record new ++ ds) s') s := by
  have hrest : ∀ {s : State E}, Did t ds s → Partial (machine E) ok t (do
      free (some block)
      serveLogout l) (fun _ s' =>
        ∃ new, Farewell l.thisTrader new ∧ Did t (record new ++ ds) s') s := by
    intro s h
    apply Partial.bind
    refine (partial_free_did h).mono ?_
    rintro _ s' ⟨h', _, _⟩
    exact partial_serveLogout_did h'
  unfold serveEnd
  split_ifs
  · apply Partial.bind
    refine (partial_free_did h).mono ?_
    rintro _ s' ⟨h', _, _⟩
    exact hrest h'
  · exact hrest h

theorem uses_protoRecvPacket (hdr : PacketHeader) (payload : Option Payload) :
    (protoRecvPacket fd hdr payload).Uses (fun o : Op => o.inner = true) Proc.Transfer := by
  refine (Prog.uses_invoke trivial).bind fun ⟨read, got⟩ => ?_
  dsimp only
  split_ifs
  · trivial
  · trivial
  · refine Prog.uses_step rfl fun _ => (Prog.uses_invoke trivial).bind fun ⟨_, _⟩ => ?_
    dsimp only
    split_ifs <;> trivial
  · trivial

/-- The loop is left with a logout of the trader that the client is logged in as. -/
theorem partial_serveNext_ends {l : Session} (h : Did t ds s) :
    Partial (machine E) ok t (serveNext fd l) (fun r s' => r = none →
      ∃ new, Farewell l.thisTrader new ∧ Did t (record new ++ ds) s') s := by
  apply Partial.bind
  have hmalloc : (malloc headerSize).Uses (fun o : Op => o.inner = true) Proc.Transfer :=
    ⟨rfl, fun _ => trivial⟩
  refine (partial_did_of_uses hmalloc h).mono ?_
  intro b s₁ h₁
  apply Partial.bind
  refine (partial_did_of_uses (uses_protoRecvPacket .zero l.payload) h₁).mono ?_
  intro r s₂ h₂
  dsimp only
  split_ifs
  · apply Partial.bind
    refine (partial_serveEnd_did h₂).mono ?_
    exact fun _ s₃ h₃ => .ret fun _ => h₃
  · apply Partial.bind
    exact fun _ _ _ => .ret nofun

/-- At the end of its input, the loop is left. -/
theorem partial_serveNext_none {l : Session} {c : Conn} (hc : s.conns fd = some c)
    (hnil : c.input = []) (hended : c.ended = true) :
    Partial (machine E) (reliable E).ok t (serveNext fd l) (fun r _ => r = none) s := by
  apply Partial.bind
  intro b s₁ h₁
  obtain ⟨_, rfl⟩ := (total_malloc receiving_reliable).of_runs h₁
  apply Partial.bind
  intro r s₂ h₂
  obtain ⟨hr, _⟩ := (total_protoRecvPacket (s := { s with blocks := b.1 :: s.blocks })
    receiving_reliable hc (.inl hended)).of_runs h₂
  simp only [RecvResult, hnil, if_true] at hr
  subst hr
  dsimp only
  rw [if_pos rfl]
  apply Partial.bind
  exact fun _ _ _ => .ret rfl

/-! ## Conversations -/

/-- At the end of its input, the loop is left with a logout. -/
theorem partial_serveNext_leaves {l : Session} {c : Conn} (h : Did t ds s)
    (hc : s.conns fd = some c) (hnil : c.input = []) (hended : c.ended = true) :
    Partial (machine E) (reliable E).ok t (serveNext fd l) (fun r s' => r = none ∧
      ∃ new, Farewell l.thisTrader new ∧ Does t new s s') s := by
  refine ((partial_serveNext_none hc hnil hended).and (partial_serveNext_ends h)).mono ?_
  rintro r s' ⟨hr, hfarewell⟩
  obtain ⟨new, hnew, h'⟩ := hfarewell hr
  exact ⟨hr, new, hnew, does_of_did h h'⟩

theorem converses_of_reaches {ps : List Packet} (hps : ∀ p ∈ ps, p.Sized) :
    ∀ {s : State E} {l : Session}, s.hist.frames t = [] →
      (∀ a, l.thisTrader = some a → Reaches fd a s) → Converses (Unhindered t) t fd ps s l := by
  induction ps with
  | nil =>
    intro s l hframes hreach s₁ c hrests hc hnil hended
    have h₁ := hrests.idle _ ⟨hframes, rfl⟩
    refine ⟨partial_serveNext_leaves h₁ hc hnil hended, fun hfree hkept => ?_⟩
    exact (hfree.total_serveNext_end hc hnil hended hkept).mono fun _ _ h => h.2
  | cons p ps ih =>
    intro s l hframes hreach s₁ c hrests hc hp
    have h₁ := hrests.idle _ ⟨hframes, rfl⟩
    have hreach₁ : ∀ a, l.thisTrader = some a → Reaches fd a s₁ :=
      fun a ha => hrests.reach a ha (hreach a ha)
    refine ⟨?_, fun hfree => hfree.total_serveNext hc hp⟩
    refine (partial_serveNext_handles h₁ hreach₁ hc hp (hps p (by simp))).mono ?_
    rintro _ s₂ ⟨l₂, rfl, ⟨new, hnew, h₂⟩, hreach₂⟩
    refine ⟨l₂, new, rfl, hnew, does_of_did h₁ h₂, ?_⟩
    exact ih (fun q hq => hps q (by simp [hq])) h₂.1 hreach₂

/-- The packets have been handled one after the other. -/
inductive Handling (t : Nat) (fd : Int) :
    State E → Option Nat → List Packet → State E → Option Nat → Prop where
  | done {s : State E} {u : Option Nat} : Handling t fd s u [] s u
  | packet {s s₁ s' : State E} {u v w : Option Nat} {p : Packet} {ps : List Packet}
      {new : List Deed} : Handled t fd p s s₁ u new v → Does t new s s₁ →
      Handling t fd s₁ v ps s' w → Handling t fd s u (p :: ps) s' w

/-- Thread 0 serves the next packet, and everything goes smoothly. -/
def serveOne (x : E.Choice) (fd : Int) (b : State E × Session) :
    Option (Option Session × State E) :=
  (machine E).finish (fun o s => some (.smooth x o s)) 0 400 (serveNext fd b.2) b.1

theorem runs_of_serveOne {x : E.Choice} {b : State E × Session} {r : Option Session}
    (h : serveOne x fd b = some (r, s')) :
    Runs (machine E) (reliable E).ok 0 (serveNext fd b.2) b.1 r s' := by
  refine Runs.of_finish (fun o u e he => ?_) h
  cases he
  cases o <;> simp [reliable, Choice.smooth]

/-- Thread 0 serves one packet after the other. -/
def serveAll (x : E.Choice) (fd : Int) :
    List Packet → State E × Session → Option (State E × Session)
  | [], b => some b
  | p :: ps, b =>
    if (b.1.conns fd).bind (fun c => Packet.front c.input) = some p then
      match serveOne x fd b with
      | some (some l, s) => serveAll x fd ps (s, l)
      | _ => none
    else none

theorem Rests.refl (t : Nat) (fd : Int) (u : Option Nat) (s : State E) : Rests t fd u s s :=
  ⟨fun _ h => h, fun _ _ h => h⟩

theorem Converses.of_serveAll {ready : Option Nat → State E → Prop} {x : E.Choice}
    {ps : List Packet} {b b' : State E × Session} (h : Converses ready 0 fd ps b.1 b.2)
    (hall : serveAll x fd ps b = some b') :
    Handling 0 fd b.1 b.2.thisTrader ps b'.1 b'.2.thisTrader ∧
      Converses ready 0 fd [] b'.1 b'.2 := by
  induction ps generalizing b with
  | nil =>
    cases hall
    exact ⟨.done, h⟩
  | cons p ps ih =>
    simp only [serveAll] at hall
    split_ifs at hall with hfront
    obtain ⟨c, hc, hp⟩ := Option.bind_eq_some_iff.mp hfront
    split at hall
    · rename_i l s hone
      obtain ⟨l₂, new, hl₂, hnew, hdoes, hrest⟩ :=
        (h b.1 c (.refl ..) hc hp).1 _ _ (runs_of_serveOne hone)
      obtain rfl := Option.some.inj hl₂
      obtain ⟨hhandling, hend⟩ := ih hrest hall
      exact ⟨.packet hnew hdoes hhandling, hend⟩
    · cases hall

/-- A client deposits too early, logs in, deposits, and logs in again. -/
def fourPackets : List Packet := [depositPacket, loginPacket, depositPacket, loginPacket]

instance (p : Packet) : Decidable p.Sized :=
  inferInstanceAs (Decidable (neededBytes p.header.type ≠ 0 → _))

section held

variable {tr : Trader} (hslot : s.allTraders 0 = some a) (htr : s.traders a = some tr)
  (hm : tr.mutex.lock t = none)
include hslot htr hm

/-- A login does not return while another thread holds the mutex of the trader in the first slot,
if that trader has the name. -/
theorem partial_traderLogin_held {name : CString} (hname : strcmpEq tr.name name = true) :
    Partial (machine E) ok t (traderLogin fd name) (fun _ _ => False) s := by
  have hread : ∀ {s' : State E} {Q : Option Nat → State E → Prop}, s'.allTraders = s.allTraders →
      Q (some a) s' → Partial (machine E) ok t (slot 0) Q s' := by
    intro s' Q htable hQ
    refine Partial.act fun e r u he _ => ?_
    cases he
    rw [htable, hslot]
    exact hQ
  have hlock : ∀ {s' : State E} {Q : Unit → State E → Prop}, s'.traders = s.traders →
      Partial (machine E) ok t (lock a) Q s' := by
    intro s' Q htraders
    refine Partial.act fun e r u he _ => ?_
    obtain ⟨tr', m, htr', hm', _⟩ := exec_lock (e := e) he
    rw [htraders] at htr'
    obtain rfl := Option.some.inj (htr.symm.trans htr')
    rw [hm] at hm'
    cases hm'
  apply Partial.bind
  refine Partial.act fun e r s₁ he _ => ?_
  obtain rfl : { s with hist := s.hist.enter t (.login fd name) } = s₁ := (Outcome.done.inj he).2
  apply Partial.bind
  apply Partial.bind
  refine Partial.mono (Q := fun _ _ => False) ?_ fun _ _ h => h.elim
  refine Partial.searchFrom (fun i s' => i = 0 ∧
    s' = { s with hist := s.hist.enter t (.login fd name) }) ⟨rfl, rfl⟩ ?_ ?_
  · rintro _ _ _ _ ⟨rfl, rfl⟩
    apply Partial.bind
    refine hread rfl ?_
    dsimp only
    apply Partial.bind
    apply Partial.bind
    refine hread rfl ?_
    refine Partial.act fun e r u he _ => ?_
    simp only [exec, execTrader, htr] at he
    cases he
    change Partial (machine E) ok t (if strcmpEq tr.name name = true then _ else _) _ _
    rw [if_pos hname]
    apply Partial.bind
    refine hread rfl ?_
    apply Partial.bind
    refine Partial.ret ?_
    apply Partial.bind
    apply Partial.bind
    refine Partial.act fun e r u he _ => ?_
    cases he
    apply Partial.bind
    apply Partial.bind
    exact hlock rfl
  · rintro s' ⟨h, _⟩
    cases h

/-- So a LOGIN packet under this name is not served. -/
theorem partial_serveNext_held {l : Session} {c : Conn} (hl : l.thisTrader = none)
    (hc : s.conns fd = some c) (hp : Packet.front c.input = some p)
    (htype : p.header.type = PacketType.login.code)
    (hname : tr.name.text = CString.text ⟨0, p.payload ++ [0]⟩) :
    Partial (machine E) (reliable E).ok t (serveNext fd l) (fun _ _ => False) s := by
  refine Partial.serveNext receiving_reliable hc hp ?_
  rintro block blocks conns new hnew -
  unfold servePacket
  have hno : p.header.type ≠ PacketType.noPkt.code := by
    rw [htype]
    decide
  simp only [hl, if_neg hno, if_pos htype]
  apply Partial.bind
  apply Partial.bind
  refine fun r s₁ h₁ => ?_
  obtain ⟨_, rfl⟩ := (total_malloc receiving_reliable).of_runs h₁
  apply Partial.bind
  refine partial_loadPayload.mono ?_
  rintro bytes s₂ ⟨rfl, hbytes⟩
  rw [hbytes.eq_payload hnew]
  apply Partial.bind
  have hlogin : strcmpEq tr.name ⟨r.1, p.payload ++ [0]⟩ = true := strcmpEq_iff.mpr hname
  refine Partial.mono (Q := fun _ _ => False) ?_ fun _ _ h => h.elim
  refine partial_traderLogin_held (a := a) ?_ ?_ hm hlogin
  · exact hslot
  · exact htr

end held

/-- Trader 0, which is called like the client and not logged in, is locked by thread 1. -/
def heldState : State (.fixed 1 1) :=
  { connected 3 (Packet.encode [loginPacket]) with
    traders := fun a => if a = 0 then some ⟨1, -1, 0, 0, ⟨true, some 1, 1⟩, ⟨0, [97, 0]⟩⟩ else none
    allTraders := fun i => if i = 0 then some 0 else none
    count := 1 }

end BourseServer
