import BourseServer.Trader.Completion
import BourseServer.Trader.FreedAccess

/-!
# Broadcasts

`trader_broadcast_packet` hands the packet to the trader in each slot in turn. Some descriptors
may refuse what is written to them, at any byte. A send that fails leaves the trader's mutex
locked and goes on to the next slot, so every other client still gets its copy.
-/
namespace BourseServer

open Concurrency

variable {E : Exchange} {F : Int → Prop} {t a : Nat} {fd : Int} {s s' : State E} {tr : Trader}
  {p : Packet}

/-! ## Writes that may fail -/

/-- Writes fail on the descriptors in `F` only. -/
def failsOnly (E : Exchange) (F : Int → Prop) : Regime (machine E) where
  ok o e _ := ∀ fd bs, o = .write fd bs → e = .ioError → F fd
  again := Choice.isEintr

theorem passive_failsOnly : Passive (failsOnly E F) where
  silent _ _ _ _ := nofun
  again := rfl

/-- More bytes have been written to a connection, if it is open. -/
def State.append (s : State E) (fd : Int) (bs : List UInt8) : State E :=
  s.setConn fd ((s.conns fd).map fun c => { c with output := c.output ++ bs })

@[simp] theorem State.append_none (h : s.conns fd = none) (bs : List UInt8) :
    s.append fd bs = s := by
  have hsame : Function.update s.conns fd none = s.conns := by
    rw [← h, Function.update_eq_self]
  simp only [append, setConn, h, Option.map_none, hsame]

theorem State.append_some {c : Conn} (h : s.conns fd = some c) (bs : List UInt8) :
    s.append fd bs = s.setConn fd (some { c with output := c.output ++ bs }) := by
  simp only [append, h, Option.map_some]

@[simp] theorem State.append_nil (s : State E) (fd : Int) : s.append fd [] = s := by
  cases h : s.conns fd with
  | none => exact append_none h []
  | some c =>
    rw [append_some h, List.append_nil]
    exact setConn_self h

@[simp] theorem State.append_append (s : State E) (fd : Int) (bs bs' : List UInt8) :
    (s.append fd bs).append fd bs' = s.append fd (bs ++ bs') := by
  cases h : s.conns fd <;> simp [append, h]

@[simp] theorem State.append_conns_eq_none {bs : List UInt8} :
    (s.append fd bs).conns fd = none ↔ s.conns fd = none := by
  simp [append]

/-- On a descriptor outside `F` that is open, everything is written. -/
theorem ends_writen_failsOnly {n : Nat} (m : Nat) (rest : List UInt8) {s : State E}
    {Q : Int → State E → Prop}
    (hfail : ∀ k, F fd ∨ s.conns fd = none → Q (-1) (s.append fd (rest.take k)))
    (hall : Q n (s.append fd rest)) :
    Ends (failsOnly E F) t Q m (.invoke (I := bourse) (.writen fd n rest)) s := by
  refine Ends.invoke (I := bourse) (M := machine E) (p := .writen fd n rest) ?_
  change Ends (failsOnly E F) t Q m (writenLoop fd n rest) s
  obtain hpos | hzero := Nat.eq_zero_or_pos rest.length |>.symm
  · rw [writenLoop_eq fd n rest hpos]
    cases hc : s.conns fd with
    | none =>
      have hret : ∀ m, Ends (failsOnly E F) t Q m (.ret (-1)) s := fun m => by
        refine .ret ?_
        have hfailed := hfail 0 (.inr hc)
        rwa [State.append_none hc] at hfailed
      refine .op ⟨.tick, .failed, s, by simp [exec, execWrite, hc], by simp [failsOnly],
        rfl⟩ ?_ ?_
      · intro e r s' he _ _
        simp only [exec, execWrite, hc] at he
        cases he
        exact hret m
      · intro e r s' m' he _ _ _
        simp only [exec, execWrite, hc] at he
        cases he
        exact hret m'
    | some c =>
      refine .op ⟨.transfer rest.length, _, _, by simp [exec, execWrite, hc]; exact ⟨rfl, rfl⟩,
        by simp [failsOnly], rfl⟩ ?_ ?_
      · intro e r s' he hok ha
        by_cases hio : e = .ioError
        · subst hio
          simp only [exec, execWrite, hc] at he
          cases he
          have hfailed := hfail 0 (.inl (hok fd rest rfl rfl))
          refine .ret ?_
          rwa [List.take_zero, State.append_nil] at hfailed
        · obtain ⟨k, rfl, rfl⟩ := execWrite_data hc he hio ha
          have hkpos : 0 < clamp k rest.length := clamp_pos hpos
          rw [← State.append_some hc]
          refine ends_writen_failsOnly m (rest.drop (clamp k rest.length)) ?_ ?_
          · intro j hj
            rw [State.append_append, ← List.take_add]
            exact hfail _ (hj.imp_right State.append_conns_eq_none.mp)
          · rwa [State.append_append, List.take_append_drop]
      · intro e r s' m' he hok ha hm
        subst hm
        cases e <;> cases ha
        simp only [exec, execWrite, hc] at he
        cases he
        exact ends_writen_failsOnly m' rest hfail hall
  · have hret : writenLoop fd n rest = .ret (n : Int) := by simp [writenLoop, hzero]
    rw [hret]
    have hnil : rest = [] := List.length_eq_zero_iff.mp hzero
    rw [hnil, State.append_nil] at hall
    exact .ret hall
termination_by (m, rest.length)

/-- The packet with the time stamps of `proto_send_packet`. -/
def Packet.stamp (p : Packet) (sec nsec : UInt32) : Packet :=
  ⟨p.header.stamp sec nsec, p.payload, p.length_payload⟩

/-- A part of a stamped copy of the packet has been written, and all of it unless writes to the
descriptor can fail. -/
def Copied (F : Int → Prop) (p : Packet) (fd : Int) (s s' : State E) : Prop :=
  ∃ sec nsec k, s' = s.append fd ((p.stamp sec nsec).toBytes.take k) ∧
    (F fd ∨ s.conns fd = none ∨ (p.stamp sec nsec).toBytes.length ≤ k)

theorem total_rioWriten_failsOnly (bs : List UInt8) :
    Total (failsOnly E F) t (rioWriten fd bs) (fun r s' =>
      (r = -1 ∧ (F fd ∨ s.conns fd = none) ∧ ∃ k, s' = s.append fd (bs.take k)) ∨
      (r = bs.length ∧ s' = s.append fd bs)) s :=
  fun m => ends_writen_failsOnly m bs (fun k hk => .inl ⟨rfl, hk, k, rfl⟩) (.inr ⟨rfl, rfl⟩)

theorem total_protoSendPacket_failsOnly :
    Total (failsOnly E F) t (protoSendPacket fd p.header p.payload)
      (fun _ s' => Copied F p fd s s') s := by
  refine Total.bind (Q := fun _ s' => s' = s) ?_ ?_
  · refine Total.act ⟨.time 0 0, (0, 0), s, rfl, nofun, rfl⟩ ?_
    intro e r s' he _
    simp only [exec] at he
    split at he <;> cases he
    rfl
  rintro ⟨sec, nsec⟩ _ rfl
  have hbytes : (p.stamp sec nsec).toBytes = (p.header.stamp sec nsec).toBytes ++ p.payload := rfl
  refine Total.bind (total_rioWriten_failsOnly _) ?_
  rintro r s₁ (⟨rfl, hfail, k, rfl⟩ | ⟨rfl, rfl⟩)
  · refine .ret ⟨sec, nsec, min k headerSize, ?_, hfail.imp_right .inl⟩
    rw [hbytes, ← List.take_take, List.take_left' (PacketHeader.length_toBytes _)]
    rfl
  · have hsent : ((p.header.stamp sec nsec).toBytes.length : Int) ≠ -1 := by simp
    change Total _ t (if ((p.header.stamp sec nsec).toBytes.length : Int) = -1 then _ else _) _ _
    rw [if_neg hsent]
    by_cases hsize : ntohs p.header.size = 0
    · have hnil : p.payload = [] := by
        rw [← List.length_eq_zero_iff, p.length_payload]
        exact PacketHeader.payloadSize_eq_zero.mpr hsize
      rw [if_neg (by simpa using hsize)]
      refine .ret ⟨sec, nsec, (p.stamp sec nsec).toBytes.length, ?_, .inr (.inr le_rfl)⟩
      rw [List.take_length, hbytes, hnil, List.append_nil]
      rfl
    · have htake : p.payload.take p.header.payloadSize = p.payload :=
        List.take_of_length_le p.length_payload.le
      rw [if_pos hsize]
      refine Total.bind (total_rioWriten_failsOnly _) ?_
      rintro r s₂ (⟨rfl, hfail, k, rfl⟩ | ⟨rfl, rfl⟩)
      · rw [State.append_conns_eq_none] at hfail
        refine .ret ⟨sec, nsec, (p.header.stamp sec nsec).toBytes.length + k, ?_,
          hfail.imp_right .inl⟩
        rw [State.append_append, hbytes, List.take_length_add_append]
        exact congrArg (fun l : List UInt8 =>
          State.append _ fd ((p.header.stamp sec nsec).toBytes ++ l.take k)) htake
      · rw [if_neg (by omega)]
        refine .ret ⟨sec, nsec, (p.stamp sec nsec).toBytes.length, ?_, .inr (.inr le_rfl)⟩
        rw [State.append_append, List.take_length, hbytes]
        exact congrArg (fun l : List UInt8 =>
          State.append _ fd ((p.header.stamp sec nsec).toBytes ++ l)) htake

/-! ## One trader -/

/-- The record of a trader, but for its mutex. -/
def State.record (s : State E) (a : Nat) : Option Trader :=
  (s.traders a).map fun tr => { tr with mutex := .fresh }

theorem State.exists_of_record (h : s'.record = s.record) (htr : s.traders a = some tr) :
    ∃ tr', s'.traders a = some tr' ∧ tr'.fd = tr.fd := by
  have hsame : s'.record a = some { tr with mutex := .fresh } := by
    rw [h, record, htr]
    rfl
  obtain ⟨tr', htr', heq⟩ := Option.map_eq_some_iff.mp hsame
  exact ⟨tr', htr', (Trader.mk.inj heq).2.1⟩

theorem State.FreeFor.setMutex {m m' : Mutex} (h : s.FreeFor t) (hm : m.lock t = some m')
    (hist : History) :
    State.FreeFor t { s.setTrader a (some { tr with mutex := m }) with hist := hist } := by
  intro b trb htrb
  have htrb' : Function.update s.traders a (some { tr with mutex := m }) b = some trb := htrb
  rw [Function.update_apply] at htrb'
  split_ifs at htrb' with hb
  · cases htrb'
    exact ⟨m', hm⟩
  · exact h b trb htrb'

theorem State.record_setMutex (htr : s.traders a = some tr) (m : Mutex) (hist : History) :
    State.record { s.setTrader a (some { tr with mutex := m }) with hist := hist } =
      s.record := by
  funext b
  by_cases hb : b = a
  · subst hb
    simp [record, setTrader, htr]
  · simp [record, setTrader, hb]

/-- The traders and the table are the same, and thread `t` can still lock each mutex. -/
structure Unchanged (t : Nat) (s s' : State E) : Prop where
  record : s'.record = s.record
  table : s'.allTraders = s.allTraders
  free : s'.FreeFor t

theorem Unchanged.trans {s₁ s₂ s₃ : State E} (h : Unchanged t s₁ s₂) (h' : Unchanged t s₂ s₃) :
    Unchanged t s₁ s₃ := ⟨h'.record.trans h.record, h'.table.trans h.table, h'.free⟩

/-- What a send to a trader with this descriptor changes. -/
structure Passed (F : Int → Prop) (p : Packet) (t : Nat) (fd : Int) (s s' : State E) : Prop
    extends Unchanged t s s' where
  conns : ∃ u, Copied F p fd s u ∧ s'.conns = u.conns

theorem Copied.unchanged (h : Copied F p fd s s') (hfree : s.FreeFor t) :
    Passed F p t fd s s' where
  record := by
    obtain ⟨_, _, _, rfl, _⟩ := h
    rfl
  table := by
    obtain ⟨_, _, _, rfl, _⟩ := h
    rfl
  free := by
    obtain ⟨_, _, _, rfl, _⟩ := h
    exact hfree
  conns := ⟨s', h, rfl⟩

theorem Copied.of_conns {s₁ u : State E} (h : Copied F p fd s₁ u) (hconns : s₁.conns = s.conns) :
    ∃ v, Copied F p fd s v ∧ u.conns = v.conns := by
  obtain ⟨sec, nsec, k, rfl, hk⟩ := h
  refine ⟨_, ⟨sec, nsec, k, rfl, ?_⟩, ?_⟩
  · rwa [hconns] at hk
  · simp [State.append, State.setConn, hconns]

theorem total_traderSendPacket_failsOnly (htr : s.traders a = some tr) (hfree : s.FreeFor t) :
    Total (failsOnly E F) t (traderSendPacket a p.header p.payload)
      (fun _ s' => Passed F p t tr.fd s s') s := by
  have hG : Passive (failsOnly E F) := passive_failsOnly
  obtain ⟨m, hm⟩ := hfree a tr htr
  obtain ⟨m', hm'⟩ := Mutex.lock_again hm
  refine hG.total_scope (Total.bind (Q := fun _ (s₁ : State E) => Unchanged t s s₁ ∧
    s₁.conns = s.conns ∧ s₁.traders a = some { tr with mutex := m }) ?_ ?_)
  · have hlock : exec t (.lock a) .tick
        { s with hist := s.hist.enter t (.sendPacket a p.header p.payload) } =
        .done () { s.setTrader a (some { tr with mutex := m }) with
          hist := (s.hist.enter t (.sendPacket a p.header p.payload)).acquire t a } := by
      simp [exec, execTrader, htr, hm, State.setTrader]
    refine hG.total_silent rfl hlock ⟨?_, rfl, Function.update_self ..⟩
    exact ⟨State.record_setMutex htr m _, rfl, hfree.setMutex hm' _⟩
  rintro _ s₁ ⟨h₁, hconns₁, htr₁⟩
  refine Total.bind (Q := fun fd s₂ => fd = tr.fd ∧ s₂ = s₁) ?_ ?_
  · refine hG.total_silent (o := .load .fd a) (r := tr.fd) rfl ?_ ⟨rfl, rfl⟩
    simp [exec, execTrader, htr₁, Trader.get]
  rintro _ _ ⟨rfl, rfl⟩
  refine Total.bind total_protoSendPacket_failsOnly ?_
  rintro ⟨sent, hdr⟩ s₂ hsent
  have h₂ : Passed F p t tr.fd s s₂ :=
    { h₁.trans (hsent.unchanged h₁.free).toUnchanged with conns := hsent.of_conns hconns₁ }
  -- a failed send returns without the unlock
  dsimp only
  by_cases hfail : sent = -1
  · rw [if_pos hfail]
    exact .ret ⟨⟨h₂.record, h₂.table, h₂.free⟩, h₂.conns⟩
  rw [if_neg hfail]
  have htr₂ : State.traders s₂ a = some { tr with mutex := m } := by
    obtain ⟨_, _, _, rfl, _⟩ := hsent
    exact htr₁
  obtain ⟨m₃, hm₃⟩ := Mutex.lock_unlock hm'
  refine Total.bind (Q := fun _ s₃ => Passed F p t tr.fd s s₃) ?_ fun _ s₃ h₃ => ?_
  · have hunlock : exec t (.unlock a) .tick s₂ =
        .done () (State.setTrader s₂ a (some { tr with mutex := m.unlock t })) := by
      simp [exec, execTrader, htr₂]
    refine hG.total_silent rfl hunlock ⟨⟨?_, h₂.table, h₂.free.setMutex hm₃ _⟩, h₂.conns⟩
    exact (State.record_setMutex htr₂ (m.unlock t) _).trans h₂.record
  · exact .ret ⟨⟨h₃.record, h₃.table, h₃.free⟩, h₃.conns⟩

/-! ## All slots -/

/-- The turn of the loop for slot `i`: nothing, or one call of `trader_send_packet`. -/
structure SlotTurn (F : Int → Prop) (p : Packet) (t i : Nat) (s s' : State E) : Prop where
  empty : s.allTraders i = none → s' = s
  send : ∀ a, s.allTraders i = some a →
    ∃ r, Runs (machine E) (failsOnly E F).ok t (traderSendPacket a p.header p.payload) s r s'

/-- In every state that operations lead to, the slots refer to traders that exist. -/
theorem Operated.linked (h : Operated (fun t c s => ¬ c.Frees t s) s) : s.Linked :=
  fun i a hslot => h.keeps.slots i a hslot

/-- The states between the turns of a broadcast. -/
structure SlotTurns (F : Int → Prop) (p : Packet) (t n : Nat) (s s' : State E) (w : Nat → State E) :
    Prop where
  first : w 0 = s
  last : w n = s'
  turn : ∀ i, i < n → SlotTurn F p t i (w i) (w (i + 1))

theorem Unchanged.linked (h : Unchanged t s s') (hlinked : s.Linked) : s'.Linked := by
  intro i a hslot
  rw [h.table] at hslot
  obtain ⟨tr, htr⟩ := hlinked i a hslot
  obtain ⟨tr', htr', _⟩ := State.exists_of_record h.record htr
  exact ⟨tr', htr'⟩

/-- The first turn, and then the others. -/
theorem SlotTurns.snoc {n : Nat} {s₁ : State E} {w : Nat → State E} (h : SlotTurns F p t n s s₁ w)
    (hturn : SlotTurn F p t n s₁ s') : ∃ w, SlotTurns F p t (n + 1) s s' w := by
  refine ⟨Function.update w (n + 1) s', ?_, Function.update_self .., fun i hi => ?_⟩
  · rw [Function.update_of_ne (by omega)]
    exact h.first
  · rw [Function.update_of_ne (by omega)]
    rcases Nat.lt_succ_iff_lt_or_eq.mp hi with hlt | rfl
    · rw [Function.update_of_ne (by omega)]
      exact h.turn i hlt
    · rw [Function.update_self, h.last]
      exact hturn

/-- The turn of the loop for slot `i`, as code. -/
def broadcastTurn (hdr : PacketHeader) (data : List UInt8) (i : Nat) : Code (Option Unit) := do
  match ← slot i with
  | none => pure none
  | some _ => do
    let a ← deref (← slot i)
    let _ ← traderSendPacket a hdr data
    pure none

theorem traderBroadcastPacket_eq (hdr : PacketHeader) (data : List UInt8) :
    traderBroadcastPacket hdr data = scope (.broadcast hdr data) .int
      (Prog.search maxTraders (broadcastTurn hdr data) >>= fun _ => .ret 0) := rfl

/-- Every turn comes to its end. -/
theorem total_broadcastTurn (n : Nat) (hlinked : s.Linked) (hfree : s.FreeFor t) :
    Total (failsOnly E F) t (Prog.search n (broadcastTurn p.header p.payload))
      (fun r u => r = none ∧ ∃ w, SlotTurns F p t n s u w) s := by
  have hG : Passive (failsOnly E F) := passive_failsOnly
  refine Total.searchFrom (fun i u => (∃ w, SlotTurns F p t i s u w) ∧ Unchanged t s u)
    ⟨⟨fun _ => _, rfl, rfl, fun _ h => absurd h (Nat.not_lt_zero _)⟩, rfl, rfl, hfree⟩ ?_ ?_
  · rintro i s₁ _ hi ⟨⟨w, hw⟩, hsame⟩
    refine Total.bind (Q := fun r u => r = State.allTraders s₁ i ∧ u = s₁)
      (hG.total_silent (o := .slot i) rfl rfl ⟨rfl, rfl⟩) ?_
    rintro r _ ⟨hr, rfl⟩
    cases r with
    | none =>
      refine .ret ⟨hw.snoc ⟨fun _ => rfl, fun a ha => ?_⟩, hsame⟩
      cases hr.trans ha
    | some a =>
      obtain ⟨tr, htr⟩ := hsame.linked hlinked i a hr.symm
      refine Total.bind (Q := fun r u => r = State.allTraders _ i ∧ u = _)
        (hG.total_silent (o := .slot i) rfl rfl ⟨rfl, rfl⟩) ?_
      rintro _ _ ⟨rfl, rfl⟩
      rw [← hr]
      refine Total.bind (Q := fun b u => b = a ∧ u = _) (.ret ⟨rfl, rfl⟩) ?_
      rintro _ _ ⟨rfl, rfl⟩
      have hsend := total_traderSendPacket_failsOnly (F := F) (p := p) htr hsame.free
      refine Total.bind hsend.with_runs ?_
      rintro r u ⟨hpassed, hrun⟩
      refine .ret ⟨hw.snoc ⟨fun hnone => ?_, fun b hb => ?_⟩, hsame.trans hpassed.toUnchanged⟩
      · cases hr.trans hnone
      · obtain rfl := Option.some.inj (hr.trans hb)
        exact ⟨r, hrun⟩
  · rintro u ⟨⟨w, hw⟩, _⟩
    exact ⟨rfl, w, by simpa using hw⟩

theorem total_traderBroadcastPacket_turns (hlinked : s.Linked) (hfree : s.FreeFor t) :
    Total (failsOnly E F) t (traderBroadcastPacket p.header p.payload) (fun r s' => r = 0 ∧
      ∃ w u, SlotTurns F p t maxTraders
        { s with hist := s.hist.enter t (.broadcast p.header p.payload) } u w ∧
        s' = { u with hist := u.hist.leave t (.int 0) }) s := by
  rw [traderBroadcastPacket_eq]
  refine passive_failsOnly.total_scope (Total.bind (total_broadcastTurn maxTraders ?_ ?_) ?_)
  · exact hlinked
  · exact hfree
  rintro _ u ⟨-, w, hw⟩
  exact .ret ⟨rfl, w, u, hw, rfl⟩

/-! ## What the connections have received -/

/-- The trader in slot `i` has this descriptor. -/
def State.SlotFd (s : State E) (i : Nat) (fd : Int) : Prop :=
  ∃ a tr, s.allTraders i = some a ∧ s.traders a = some tr ∧ tr.fd = fd

theorem Unchanged.slotFd (h : Unchanged t s s') {i : Nat} : s'.SlotFd i fd ↔ s.SlotFd i fd := by
  have hone : ∀ {s s' : State E}, s'.record = s.record → s'.allTraders = s.allTraders →
      s.SlotFd i fd → s'.SlotFd i fd := by
    rintro s s' hrecord htable ⟨a, tr, hslot, htr, hfd⟩
    obtain ⟨tr', htr', hfd'⟩ := State.exists_of_record hrecord htr
    exact ⟨a, tr', htable ▸ hslot, htr', hfd'.trans hfd⟩
  exact ⟨hone h.record.symm h.table.symm, hone h.record h.table⟩

theorem SlotTurn.unchanged {i : Nat} (h : SlotTurn F p t i s s') (hlinked : s.Linked)
    (hfree : s.FreeFor t) : Unchanged t s s' ∧
      (∀ d, ¬ s.SlotFd i d → s'.conns d = s.conns d) ∧
      ∀ d, s.SlotFd i d → ∃ u, Copied F p d s u ∧ s'.conns = u.conns := by
  cases hslot : s.allTraders i with
  | none =>
    obtain rfl := h.empty hslot
    refine ⟨⟨rfl, rfl, hfree⟩, fun _ _ => rfl, ?_⟩
    rintro d ⟨a, tr, ha, _⟩
    cases hslot.symm.trans ha
  | some a =>
    obtain ⟨tr, htr⟩ := hlinked i a hslot
    obtain ⟨r, hrun⟩ := h.send a hslot
    have hpassed := (total_traderSendPacket_failsOnly htr hfree).of_runs hrun
    refine ⟨hpassed.toUnchanged, fun d hd => ?_, ?_⟩
    · obtain ⟨_, ⟨_, _, _, rfl, _⟩, hconns⟩ := hpassed.conns
      have hne : d ≠ tr.fd := fun heq => hd ⟨a, tr, hslot, htr, heq.symm⟩
      rw [hconns]
      exact Function.update_of_ne hne ..
    · rintro d ⟨a', tr', ha', htr', rfl⟩
      obtain rfl := Option.some.inj (hslot.symm.trans ha')
      obtain rfl := Option.some.inj (htr.symm.trans htr')
      exact hpassed.conns

namespace SlotTurns

variable {n : Nat} {w : Nat → State E}

theorem unchanged (h : SlotTurns F p t n s s' w) (hlinked : s.Linked) (hfree : s.FreeFor t) :
    ∀ i, i ≤ n → Unchanged t s (w i) := by
  intro i hi
  induction i with
  | zero =>
    rw [h.first]
    exact ⟨rfl, rfl, hfree⟩
  | succ i ih =>
    have hsame := ih (by omega)
    have hturn := (h.turn i (by omega)).unchanged (hsame.linked hlinked) hsame.free
    exact hsame.trans hturn.1

/-- A connection is left alone as long as it is not the turn of its trader. -/
theorem conns_eq (h : SlotTurns F p t n s s' w) (hlinked : s.Linked) (hfree : s.FreeFor t)
    (fd : Int) {i j : Nat} (hij : i ≤ j) (hj : j ≤ n) (hno : ∀ k, i ≤ k → k < j → ¬ s.SlotFd k fd) :
    (w j).conns fd = (w i).conns fd := by
  induction j, hij using Nat.le_induction with
  | base => rfl
  | succ j hij ih =>
    have hsame := h.unchanged hlinked hfree j (by omega)
    have hturn := (h.turn j (by omega)).unchanged (hsame.linked hlinked) hsame.free
    have hother : ¬ (w j).SlotFd j fd := mt hsame.slotFd.mp (hno j hij (by omega))
    rw [hturn.2.1 fd hother]
    exact ih (by omega) fun k hk hkj => hno k hk (by omega)

/-- The connection of a trader that no other slot shares receives one copy. -/
theorem conns_copied (h : SlotTurns F p t n s s' w) (hlinked : s.Linked) (hfree : s.FreeFor t)
    {i : Nat} {c : Conn} (hi : i < n) (hfd : s.SlotFd i fd)
    (halone : ∀ j, j < n → s.SlotFd j fd → j = i) (hF : ¬ F fd) (hc : s.conns fd = some c) :
    ∃ sec nsec, s'.conns fd =
      some { c with output := c.output ++ (p.stamp sec nsec).toBytes } := by
  have hbefore : (w i).conns fd = s.conns fd := by
    have hsame := h.conns_eq hlinked hfree fd (Nat.zero_le i) hi.le fun k _ hk hfdk =>
      absurd (halone k (by omega) hfdk) hk.ne
    rwa [h.first] at hsame
  have hafter : s'.conns fd = (w (i + 1)).conns fd := by
    have hsame := h.conns_eq hlinked hfree fd (i := i + 1) (j := n) (by omega) le_rfl
      fun k hk hkn hfdk => absurd (halone k hkn hfdk) (by omega)
    rwa [h.last] at hsame
  have hsame := h.unchanged hlinked hfree i hi.le
  obtain ⟨_, _, hcopy⟩ := (h.turn i hi).unchanged (hsame.linked hlinked) hsame.free
  obtain ⟨u, ⟨sec, nsec, k, rfl, hk⟩, hconns⟩ := hcopy fd (hsame.slotFd.mpr hfd)
  have hopen : (w i).conns fd = some c := hbefore.trans hc
  have hfull : (p.stamp sec nsec).toBytes.length ≤ k := by
    rcases hk with hfail | hclosed | hfull
    · exact absurd hfail hF
    · cases hopen.symm.trans hclosed
    · exact hfull
  refine ⟨sec, nsec, ?_⟩
  rw [hafter, hconns, State.append_some hopen, List.take_of_length_le hfull]
  exact State.setConn_conns ..

end SlotTurns

/-- Each logged-in trader whose descriptor is open and takes what is written has received one
copy, no other connection has been touched, and the traders and the table are as they were. -/
structure Served (F : Int → Prop) (p : Packet) (s s' : State E) : Prop where
  copies : ∀ i fd c, i < maxTraders → s.SlotFd i fd → fd ≠ -1 → ¬ F fd → s.conns fd = some c →
    ∃ sec nsec, s'.conns fd =
      some { c with output := c.output ++ (p.stamp sec nsec).toBytes }
  others : ∀ fd, (∀ i, i < maxTraders → ¬ s.SlotFd i fd) → s'.conns fd = s.conns fd
  record : s'.record = s.record
  table : s'.allTraders = s.allTraders

/-- What a broadcast does. The run is made of the sends to the traders in the slots, in slot
order. -/
structure Delivered (F : Int → Prop) (p : Packet) (t : Nat) (s s' : State E) : Prop
    extends Served F p s s' where
  order : ∃ w u, SlotTurns F p t maxTraders
    { s with hist := s.hist.enter t (.broadcast p.header p.payload) } u w ∧
    s' = { u with hist := u.hist.leave t (.int 0) }

/-- The traders that are logged in have different descriptors. -/
def State.Apart (s : State E) : Prop :=
  ∀ i j fd, i < maxTraders → j < maxTraders → fd ≠ -1 → s.SlotFd i fd → s.SlotFd j fd → i = j

/-- Whatever the writes on the descriptors in `F` do, a broadcast comes to its end, and all other
clients that are logged in receive the packet. -/
theorem total_traderBroadcastPacket_failsOnly (hlinked : s.Linked) (hfree : s.FreeFor t)
    (hapart : s.Apart) :
    Total (failsOnly E F) t (traderBroadcastPacket p.header p.payload)
      (fun r s' => r = 0 ∧ Delivered F p t s s') s := by
  refine (total_traderBroadcastPacket_turns hlinked hfree).mono ?_
  rintro r s' ⟨rfl, w, u, hw, rfl⟩
  have hsame := hw.unchanged hlinked hfree maxTraders le_rfl
  rw [hw.last] at hsame
  refine ⟨rfl, ⟨?_, ?_, hsame.record, hsame.table⟩, w, u, hw, rfl⟩
  · intro i fd c hi hfd hne hF hc
    exact hw.conns_copied hlinked hfree hi hfd
      (fun j hj hfdj => hapart j i fd hj hi hne hfdj hfd) hF hc
  · intro fd hno
    have hconns := hw.conns_eq hlinked hfree fd (Nat.zero_le _) le_rfl
      fun k _ hk => hno k hk
    rwa [hw.first, hw.last] at hconns

end BourseServer
