import BourseServer.Concurrency.Signals
import BourseServer.Server.Replies
import BourseServer.Trader.Broadcast

/-!
# SIGPIPE

A write to a connection whose reader is gone raises SIGPIPE. The server neither handles nor
ignores this signal, so it ends the process. A broadcast that comes to such a connection serves
the traders in the slots before, and nobody after.
-/
namespace BourseServer

open Concurrency

variable {E : Exchange} {F P : Int → Prop} {t a : Nat} {fd : Int} {s s' : State E} {tr : Trader}
  {p : Packet} {α : Type}

/-- A write to an open connection in `P` may raise SIGPIPE. -/
def sigpipe (E : Exchange) (P : Int → Prop) : Op → State E → Prop
  | .write fd _, s => P fd ∧ s.conns fd ≠ none
  | _, _ => False

/-- Thread `t` runs the code until SIGPIPE ends the process. Writes return errors on the
descriptors in `F`, and raise the signal on those in `P`. -/
abbrev Broken (F P : Int → Prop) (t : Nat) (p : Code α) (s s' : State E) : Prop :=
  Killed (machine E) (failsOnly E F).ok (sigpipe E P) t p s s'

theorem not_sigpipe {o : Op} (ho : o.silent = true) : ¬ sigpipe E P o s := by
  cases o <;> first | exact id | cases ho

/-- An action of the thread alone does not raise the signal. -/
theorem broken_silent {o : Op} (ho : o.silent = true) {r : o.Reply} {u : State E}
    (h : exec t o .tick s = .done r u) {f : o.Reply → Code α} :
    Broken F P t (Prog.act (I := bourse) o >>= f) s s' ↔ Broken F P t (f r) u s' := by
  refine Killed.bind_iff.trans ⟨?_, ?_⟩
  · rintro (hact | ⟨r', u', hrun, hk⟩)
    · exact absurd (Killed.act_iff.mp hact).1 (not_sigpipe ho)
    · obtain ⟨e, he, _⟩ := Runs.act_iff.mp hrun
      have he' : exec t o e s = .done r' u' := he
      rw [exec_silent ho, h] at he'
      cases he'
      exact hk
  · exact fun hk => .inr ⟨r, u, Runs.act_iff.mpr ⟨.tick, h, passive_failsOnly.silent ho⟩, hk⟩

theorem broken_scope {c : Call} {value : α → Value} {q : Code α} :
    Broken F P t (scope c value q) s s' ↔
      Broken F P t q { s with hist := s.hist.enter t c } s' := by
  refine (broken_silent rfl rfl).trans (Killed.bind_iff.trans (or_iff_left ?_))
  rintro ⟨r, u, _, hk⟩
  obtain hleave | ⟨_, _, _, hret⟩ := Killed.of_bind hk
  · exact (Killed.act_iff.mp hleave).1
  · exact Killed.not_ret hret

theorem broken_load {f : Field} {g : f.Ty → Code α} (htr : s.traders a = some tr) :
    Broken F P t (load f a >>= g) s s' ↔ Broken F P t (g (tr.get f)) s s' := by
  refine broken_silent (o := .load f a) (r := tr.get f) rfl ?_
  simp [exec, execTrader, htr]

/-! ## One trader -/

/-- The traders, the table and the connections other than `fd` are the same, and `fd` is open if
it was. -/
structure Elsewhere (fd : Int) (s s' : State E) : Prop where
  traders : s'.traders = s.traders
  table : s'.allTraders = s.allTraders
  conns : ∀ d, d ≠ fd → s'.conns d = s.conns d
  isOpen : s'.conns fd = none ↔ s.conns fd = none

theorem Elsewhere.refl (s : State E) : Elsewhere fd s s := ⟨rfl, rfl, fun _ _ => rfl, Iff.rfl⟩

theorem Elsewhere.trans {s₁ s₂ s₃ : State E} (h : Elsewhere fd s₁ s₂) (h' : Elsewhere fd s₂ s₃) :
    Elsewhere fd s₁ s₃ where
  traders := h'.traders.trans h.traders
  table := h'.table.trans h.table
  conns d hd := (h'.conns d hd).trans (h.conns d hd)
  isOpen := h'.isOpen.trans h.isOpen

/-- The actions of `proto_send_packet`. -/
def Op.SendsTo (fd : Int) (o : Op) : Prop := o = .clock ∨ ∃ bs, o = .write fd bs

theorem exec_sendsTo {o : Op} {e : Choice E} {r : o.Reply} (ho : o.SendsTo fd)
    (h : exec t o e s = .done r s') : Elsewhere fd s s' := by
  obtain rfl | ⟨bs, rfl⟩ := ho
  · have hframe := exec_frame h
    have hconns := hframe.conns rfl
    exact ⟨hframe.traders rfl, hframe.table rfl, fun d _ => congrFun hconns d, by rw [hconns]⟩
  · obtain rfl | ⟨c, k, hc, rfl⟩ := execWrite_conns h
    · exact .refl s'
    · refine ⟨rfl, rfl, fun d hd => Function.update_of_ne hd .., ?_⟩
      simp [hc]

/-- The write loop of `rio_writen`. -/
def Proc.WritesTo (fd : Int) (q : Proc) : Prop := ∃ n rest, q = .writen fd n rest

theorem uses_writesTo {q : Proc} (hq : q.WritesTo fd) :
    (body q).Uses (Op.SendsTo fd) (Proc.WritesTo fd) := by
  obtain ⟨n, rest, rfl⟩ := hq
  change (writenLoop fd n rest).Uses _ _
  unfold writenLoop
  split_ifs
  · refine Prog.uses_step (.inr ⟨rest, rfl⟩) fun r => ?_
    cases r with
    | interrupted => exact Prog.uses_invoke ⟨n, rest, rfl⟩
    | failed => trivial
    | wrote k => exact Prog.uses_invoke ⟨n, rest.drop k, rfl⟩
  · trivial

theorem sendsTo_protoSendPacket (hdr : PacketHeader) (payload : List UInt8) :
    (protoSendPacket fd hdr payload).Uses (Op.SendsTo fd) (Proc.WritesTo fd) := by
  refine Prog.uses_step (.inl rfl) fun _ => (Prog.uses_invoke ⟨_, _, rfl⟩).bind fun r => ?_
  split_ifs
  · trivial
  · refine (Prog.uses_invoke ⟨_, _, rfl⟩).bind fun r => ?_
    split_ifs <;> trivial
  · trivial

/-- If the signal ends the process during a send, the trader's connection is in `P`, and nothing
has been written elsewhere. -/
theorem Broken.of_protoSendPacket {hdr : PacketHeader} {payload : List UInt8}
    (h : Broken F P t (protoSendPacket fd hdr payload) s s') :
    P fd ∧ s.conns fd ≠ none ∧ Elsewhere fd s s' := by
  obtain ⟨o, rfl | ⟨bs, rfl⟩, hraise, hsame⟩ := Killed.of_uses (P := Op.SendsTo fd)
    (C := Proc.WritesTo fd) (R := Elsewhere fd) .refl .trans (fun _ => uses_writesTo)
    (fun _ _ _ _ _ ho he _ => exec_sendsTo ho he) (sendsTo_protoSendPacket hdr payload) h
  · cases hraise
  · exact ⟨hraise.1, fun hnone => hraise.2 (hsame.isOpen.mpr hnone), hsame⟩

/-- Only the write loop of a send can raise the signal. -/
theorem broken_traderSendPacket_iff {hdr : PacketHeader} {data : List UInt8} {m : Mutex}
    (htr : s.traders a = some tr) (hm : tr.mutex.lock t = some m) :
    Broken F P t (traderSendPacket a hdr data) s s' ↔
      Broken F P t (protoSendPacket tr.fd hdr data)
        { s.setTrader a (some { tr with mutex := m }) with
          hist := (s.hist.enter t (.sendPacket a hdr data)).acquire t a } s' := by
  have hlock : exec t (.lock a) .tick
      { s with hist := s.hist.enter t (.sendPacket a hdr data) } =
      .done () { s.setTrader a (some { tr with mutex := m }) with
        hist := (s.hist.enter t (.sendPacket a hdr data)).acquire t a } := by
    simp [exec, execTrader, htr, hm, State.setTrader]
  refine broken_scope.trans ((broken_silent rfl hlock).trans ?_)
  refine (broken_load (Function.update_self ..)).trans ?_
  refine Killed.bind_iff.trans (or_iff_left ?_)
  rintro ⟨⟨sent, hdr'⟩, s₂, _, h₂⟩
  dsimp only at h₂
  split_ifs at h₂
  · exact Killed.not_ret h₂
  · obtain hunlock | ⟨_, _, _, hret⟩ := Killed.of_bind h₂
    · exact (Killed.act_iff.mp hunlock).1
    · exact Killed.not_ret hret

/-- If the signal ends the process during the send to a trader, the trader's connection is in
`P`, and nothing has been written elsewhere. -/
theorem Broken.of_traderSendPacket {hdr : PacketHeader} {data : List UInt8}
    (htr : s.traders a = some tr) (hfree : s.FreeFor t)
    (h : Broken F P t (traderSendPacket a hdr data) s s') :
    P tr.fd ∧ s.conns tr.fd ≠ none ∧ s'.record = s.record ∧ s'.allTraders = s.allTraders ∧
      ∀ d, d ≠ tr.fd → s'.conns d = s.conns d := by
  obtain ⟨m, hm⟩ := hfree a tr htr
  obtain ⟨hP, hopen, hsame⟩ :=
    ((broken_traderSendPacket_iff htr hm).mp h).of_protoSendPacket
  refine ⟨hP, hopen, ?_, hsame.table, hsame.conns⟩
  rw [← State.record_setMutex htr m ((s.hist.enter t (.sendPacket a hdr data)).acquire t a)]
  unfold State.record
  rw [hsame.traders]

theorem broken_rioWriten {bs : List UInt8} (hpos : 0 < bs.length) (hP : P fd)
    (hopen : s.conns fd ≠ none) : Broken F P t (rioWriten fd bs) s s := by
  refine .call (Killed.bind_left (p := writenLoop fd bs.length bs) ?_)
  rw [writenLoop_eq fd bs.length bs hpos]
  exact .here ⟨hP, hopen⟩

/-- The signal can end the process at the first write. -/
theorem broken_traderSendPacket {hdr : PacketHeader} {data : List UInt8}
    (htr : s.traders a = some tr) (hfree : s.FreeFor t) (hP : P tr.fd)
    (hopen : s.conns tr.fd ≠ none) :
    ∃ u, Broken F P t (traderSendPacket a hdr data) s u ∧ u.conns = s.conns := by
  obtain ⟨m, hm⟩ := hfree a tr htr
  refine ⟨{ s.setTrader a (some { tr with mutex := m }) with
    hist := (s.hist.enter t (.sendPacket a hdr data)).acquire t a },
    (broken_traderSendPacket_iff htr hm).mpr ?_, rfl⟩
  refine Killed.bind_right (Runs.act_iff.mpr ⟨.time 0 0, rfl, fun _ _ h => by cases h⟩)
    (Killed.bind_left (broken_rioWriten ?_ hP ?_))
  · simp [headerSize]
  · exact hopen

/-! ## All slots -/

theorem broken_broadcastTurn {hdr : PacketHeader} {data : List UInt8} {i : Nat} :
    Broken F P t (broadcastTurn hdr data i) s s' ↔
      ∃ a, s.allTraders i = some a ∧ Broken F P t (traderSendPacket a hdr data) s s' := by
  refine (broken_silent (o := .slot i) rfl rfl).trans ?_
  cases hslot : s.allTraders i with
  | none => simpa using Killed.not_ret
  | some a =>
    refine (broken_silent (o := .slot i) rfl rfl).trans ?_
    rw [hslot]
    change Broken F P t (traderSendPacket a hdr data >>= fun _ => .ret none) s s' ↔ _
    refine Killed.bind_iff.trans ((or_iff_left ?_).trans ?_)
    · rintro ⟨_, _, _, hret⟩
      exact Killed.not_ret hret
    · simp

/-- The signal ends a broadcast at the trader of a slot, after the turns of the slots before. -/
theorem broken_traderBroadcastPacket_iff {hdr : PacketHeader} {data : List UInt8} :
    Broken F P t (traderBroadcastPacket hdr data) s s' ↔
      ∃ i u, i < maxTraders ∧
        Runs (machine E) (failsOnly E F).ok t (Prog.search i (broadcastTurn hdr data))
          { s with hist := s.hist.enter t (.broadcast hdr data) } none u ∧
        ∃ a, u.allTraders i = some a ∧ Broken F P t (traderSendPacket a hdr data) u s' := by
  rw [traderBroadcastPacket_eq]
  refine broken_scope.trans (Killed.bind_iff.trans ((or_iff_left ?_).trans ?_))
  · rintro ⟨_, _, _, hret⟩
    exact Killed.not_ret hret
  · refine Killed.searchFrom_iff.trans ?_
    simp only [Nat.zero_add]
    exact exists₂_congr fun i u => and_congr_right fun _ => and_congr_right fun _ =>
      broken_broadcastTurn

/-- A broadcast leaves the connections open that are open. -/
theorem SlotTurns.isOpen {n : Nat} {w : Nat → State E} (h : SlotTurns F p t n s s' w)
    (hlinked : s.Linked) (hfree : s.FreeFor t) (fd : Int) :
    s'.conns fd = none ↔ s.conns fd = none := by
  have hturns : ∀ i, i ≤ n → ((w i).conns fd = none ↔ s.conns fd = none) := by
    intro i hi
    induction i with
    | zero => rw [h.first]
    | succ i ih =>
      refine Iff.trans ?_ (ih (by omega))
      have hsame := h.unchanged hlinked hfree i (by omega)
      obtain ⟨_, hother, hcopy⟩ :=
        (h.turn i (by omega)).unchanged (hsame.linked hlinked) hsame.free
      by_cases hfd : (w i).SlotFd i fd
      · obtain ⟨u, ⟨_, _, _, rfl, _⟩, hconns⟩ := hcopy fd hfd
        rw [hconns, State.append_conns_eq_none]
      · rw [hother fd hfd]
  rw [← h.last]
  exact hturns n le_rfl

/-! ## Who is served -/

/-- The trader in slot `i` has an open connection on which a write may raise SIGPIPE. -/
def State.Gone (P : Int → Prop) (s : State E) (i : Nat) : Prop :=
  ∃ fd, s.SlotFd i fd ∧ P fd ∧ s.conns fd ≠ none

/-- The trader in slot `i` is logged in, and writes to its open connection succeed. -/
def State.Takes (F P : Int → Prop) (s : State E) (i : Nat) : Prop :=
  ∃ fd, s.SlotFd i fd ∧ fd ≠ -1 ∧ ¬ F fd ∧ ¬ P fd ∧ s.conns fd ≠ none

/-- A broadcast comes to its end and has served the clients whose writes succeed, and it has also
served them by the time at which SIGPIPE may end the process. -/
structure Broadcasts (F P : Int → Prop) (p : Packet) (t : Nat) (s : State E) : Prop where
  returns : Total (failsOnly E F) t (traderBroadcastPacket p.header p.payload)
    (fun r s' => r = 0 ∧ Delivered F p t s s') s
  broken : ∀ s', Broken F P t (traderBroadcastPacket p.header p.payload) s s' →
    Served (fun fd => F fd ∨ P fd) p s s'

theorem State.SlotFd.unique {i : Nat} {fd' : Int} (h : s.SlotFd i fd) (h' : s.SlotFd i fd') :
    fd' = fd := by
  obtain ⟨a, tr, hslot, htr, rfl⟩ := h
  obtain ⟨a', tr', hslot', htr', rfl⟩ := h'
  obtain rfl := Option.some.inj (hslot.symm.trans hslot')
  obtain rfl := Option.some.inj (htr.symm.trans htr')
  rfl

/-- The clients in the slots before the one whose connection raises the signal have their copy. -/
theorem Broken.served (hlinked : s.Linked) (hfree : s.FreeFor t) (hapart : s.Apart)
    (hlast : ∀ i j, i < j → j < maxTraders → s.Gone P i → ¬ s.Takes F P j)
    (h : Broken F P t (traderBroadcastPacket p.header p.payload) s s') :
    Served (fun fd => F fd ∨ P fd) p s s' := by
  obtain ⟨i, u, hi, hrun, a, hslot, hcut⟩ := broken_traderBroadcastPacket_iff.mp h
  obtain ⟨-, w, hw⟩ := (total_broadcastTurn (F := F) i
    (s := { s with hist := s.hist.enter t (.broadcast p.header p.payload) })
    hlinked hfree).of_runs hrun
  have hsame := hw.unchanged hlinked hfree i le_rfl
  rw [hw.last] at hsame
  obtain ⟨tr, htr⟩ := hsame.linked hlinked i a hslot
  obtain ⟨hP, hopen, hrecord, htable, hconns⟩ := hcut.of_traderSendPacket htr hsame.free
  have hfd : s.SlotFd i tr.fd := hsame.slotFd.mp ⟨a, tr, hslot, htr, rfl⟩
  have hgone : s.Gone P i := ⟨tr.fd, hfd, hP, mt (hw.isOpen hlinked hfree tr.fd).mpr hopen⟩
  refine ⟨?_, ?_, hrecord.trans hsame.record, htable.trans hsame.table⟩
  · intro k fd c hk hfdk hne hok hc
    obtain ⟨hF, hPk⟩ := not_or.mp hok
    have hle : ¬ i < k := fun hik =>
      hlast i k hik hk hgone ⟨fd, hfdk, hne, hF, hPk, by simp [hc]⟩
    have hother : fd ≠ tr.fd := fun heq => hPk (heq ▸ hP)
    have hki : k ≠ i := fun heq => hother (hfd.unique (heq ▸ hfdk))
    rw [hconns fd hother]
    exact hw.conns_copied hlinked hfree (by omega) hfdk
      (fun j hj hfdj => hapart j k fd (by omega) hk hne hfdj hfdk) hF hc
  · intro fd hno
    rw [hconns fd fun heq => hno i hi (heq ▸ hfd)]
    have hbefore := hw.conns_eq hlinked hfree fd (Nat.zero_le i) le_rfl
      fun k _ hk => hno k (by omega)
    rwa [hw.first, hw.last] at hbefore

/-- Nobody in a later slot is served. -/
theorem Broadcasts.not_takes (hlinked : s.Linked) (hfree : s.FreeFor t) (hapart : s.Apart)
    {i j : Nat} (hij : i < j) (hj : j < maxTraders) (hgone : s.Gone P i)
    (h : Broadcasts F P p t s) : ¬ s.Takes F P j := by
  rintro ⟨fd, hfd, hne, hF, hP, hopen⟩
  obtain ⟨c, hc⟩ := Option.ne_none_iff_exists'.mp hopen
  obtain ⟨fdi, hfdi, hPi, hopeni⟩ := hgone
  obtain ⟨r, u, hrun, rfl, w, hw⟩ := (total_broadcastTurn (F := F) (p := p) i
    (s := { s with hist := s.hist.enter t (.broadcast p.header p.payload) })
    hlinked hfree).exists_runs
  have hsame := hw.unchanged hlinked hfree i le_rfl
  rw [hw.last] at hsame
  obtain ⟨a, tr, hslot, htr, rfl⟩ := hsame.slotFd.mpr hfdi
  obtain ⟨v, hcut, hconns⟩ :
      ∃ v, Broken F P t (traderSendPacket a p.header p.payload) u v ∧ v.conns = u.conns :=
    broken_traderSendPacket htr hsame.free hPi (mt (hw.isOpen hlinked hfree tr.fd).mp hopeni)
  have hserved := h.broken v
    (broken_traderBroadcastPacket_iff.mpr ⟨i, u, by omega, hrun, a, hslot, hcut⟩)
  obtain ⟨sec, nsec, hcopy⟩ := hserved.copies j fd c hj hfd hne (not_or.mpr ⟨hF, hP⟩) hc
  have hbefore := hw.conns_eq hlinked hfree fd (Nat.zero_le i) le_rfl
    fun k _ hk hfdk => absurd (hapart k j fd (by omega) hj hne hfdk hfd) (by omega)
  rw [hw.first, hw.last] at hbefore
  rw [hconns, hbefore] at hcopy
  -- a copy is not empty
  have hlength := congrArg (fun x : Option Conn => (x.map fun c => c.output.length))
    (hc.symm.trans hcopy)
  simp [Packet.toBytes, headerSize] at hlength

/-- Whatever the writes on the descriptors in `F` do, a broadcast comes to its end, and all other
clients that are logged in receive the packet, unless SIGPIPE ends the process before. -/
theorem broadcast_delivered_iff (hlinked : s.Linked) (hfree : s.FreeFor t) (hapart : s.Apart) :
    Broadcasts F P p t s ↔
      ∀ i j, i < j → j < maxTraders → s.Gone P i → ¬ s.Takes F P j := by
  constructor
  · intro h i j hij hj hgone
    exact h.not_takes hlinked hfree hapart hij hj hgone
  · intro hlast
    exact ⟨total_traderBroadcastPacket_failsOnly hlinked hfree hapart,
      fun s' hbroken => hbroken.served hlinked hfree hapart hlast⟩

/-- Two traders on the descriptors 3 and 4, in the slots 0 and 2. The trader that was in slot 1
has been freed. -/
def twoSlots : State (.fixed 1 1) :=
  { State.init _ () 4 with
    traders := fun a => if a < 2 then some ⟨2, a + 3, 0, 0, .fresh, ⟨a, []⟩⟩ else none
    allTraders := fun i => if i = 0 then some 0 else if i = 2 then some 1 else none
    count := 3
    conns := fun fd => if fd = 3 ∨ fd = 4 then some ⟨0, [], false, false, []⟩ else none }

theorem twoSlots_slotFd {i : Nat} (h : twoSlots.SlotFd i fd) :
    (i = 0 ∧ fd = 3) ∨ (i = 2 ∧ fd = 4) := by
  obtain ⟨a, tr, hslot, htr, rfl⟩ := h
  simp only [twoSlots] at hslot htr
  split_ifs at hslot with h0 h2
  · cases hslot
    cases htr
    exact .inl ⟨h0, rfl⟩
  · cases hslot
    cases htr
    exact .inr ⟨h2, rfl⟩

theorem twoSlots_linked : twoSlots.Linked := by
  intro i a hslot
  simp only [twoSlots] at hslot
  split_ifs at hslot with h0 h2
  · cases hslot
    exact ⟨_, rfl⟩
  · cases hslot
    exact ⟨_, rfl⟩

theorem twoSlots_freeFor : twoSlots.FreeFor 0 := by
  intro a tr htr
  simp only [twoSlots] at htr
  split_ifs at htr
  cases htr
  exact ⟨_, if_pos rfl⟩

theorem twoSlots_apart : twoSlots.Apart := by
  intro i j fd _ _ _ hi hj
  have hi' := twoSlots_slotFd hi
  have hj' := twoSlots_slotFd hj
  omega

/-- The second client is served if writes to the first fail with an error, and the first is if
the second is gone. -/
theorem broadcast_delivered_twoSlots :
    Broadcasts (fun fd => fd = 3) (fun _ => False) ⟨.zero, [], rfl⟩ 0 twoSlots ∧
      Broadcasts (fun _ => False) (fun fd => fd = 4) ⟨.zero, [], rfl⟩ 0 twoSlots := by
  constructor
  · refine (broadcast_delivered_iff twoSlots_linked twoSlots_freeFor twoSlots_apart).mpr ?_
    rintro i j _ _ ⟨_, _, hP, _⟩
    exact hP.elim
  · refine (broadcast_delivered_iff twoSlots_linked twoSlots_freeFor twoSlots_apart).mpr ?_
    rintro i j hij _ ⟨fd, hfd, rfl, _⟩ ⟨fd', hfd', _⟩
    have hi := twoSlots_slotFd hfd
    have hj := twoSlots_slotFd hfd'
    omega

/-- The second client gets nothing if the first is gone. -/
theorem broadcast_cut_short :
    twoSlots.Linked ∧ twoSlots.FreeFor 0 ∧ twoSlots.Apart ∧
      ¬ Broadcasts (fun _ => False) (fun fd => fd = 3) ⟨.zero, [], rfl⟩ 0 twoSlots := by
  refine ⟨twoSlots_linked, twoSlots_freeFor, twoSlots_apart, fun h => ?_⟩
  refine h.not_takes twoSlots_linked twoSlots_freeFor twoSlots_apart (i := 0) (j := 2)
    (by decide) (by decide) ?_ ?_
  · exact ⟨3, ⟨0, _, rfl, rfl, rfl⟩, rfl, by decide⟩
  · exact ⟨4, ⟨1, _, rfl, rfl, rfl⟩, by decide, id, by decide, by decide⟩

end BourseServer
