import BourseServer.Sessions.Steps

/-!
# Packets on their way

The contracts of the two transfer loops, and the sending of a packet. When writes succeed, a
thread records the bytes of the packet that it has yet to write, from the time stamp on.
-/
namespace BourseServer.Sessions

open Concurrency

variable {E : Exchange} {W : Watch} {t : Nat} {fs : List Call} {h : Holdings}
  {F : Shared → Prop} {P : World E → Prop} {α : Type}

/-! ## Code that only reads -/

/-- Code of quiet actions, which may read from connections. -/
abbrev Calm (p : Code α) : Prop :=
  p.Uses (I := bourse) (fun o => o.quiet = true)
    fun q => ∃ fd n nleft got, q = .readn fd n nleft got

theorem triple_idle {o : Op} (ho : o.quiet = true) (hP : (discipline E W).Stable t P) :
    (discipline E W).Triple t P (.act (I := bourse) o) fun _ => P := by
  refine .act hP (fun _ => hP) ?_ ?_
  · rintro _ _ _ x bs rfl
    cases ho
  · intro w hi hw e r s he _
    have hsame := exec_quiet ho he
    have hinv : (discipline E W).inv (w.after t s (w.ghost t)) := by
      change Inv W s.shared (census (Function.update w.ghost t (w.ghost t)))
      rwa [Function.update_eq_self, hsame]
    have hkept : ∀ u, (discipline E W).rely u w (w.after t s (w.ghost t)) := by
      intro u
      constructor
      · by_cases hu : u = t
        · subst hu
          simp
        · exact World.after_ghost_of_ne _ _ _ hu
      · change Kept W u (w.ghost u) w.state.shared s.shared
        rw [hsame]
        exact .refl ..
    exact ⟨w.ghost t, ⟨hinv, fun u _ => hkept u⟩, hP _ _ (hkept t) hinv hw⟩

/-- What the other threads leave alone is left alone by such code. -/
theorem triple_calm {p : Code α} (hp : Calm p) (hP : (discipline E W).Stable t P) :
    (discipline E W).Triple t P p fun _ => P := by
  induction p with
  | ret a => exact .ret hP fun _ _ hw => hw
  | op o k ih => exact .bind (triple_idle hp.1 hP) fun r => ih r (hp.2 r)
  | call q k ih =>
    obtain ⟨⟨fd, n, nleft, got, rfl⟩, hk⟩ := hp
    refine .bind (p := .invoke (I := bourse) (.readn fd n nleft got)) (Q := fun _ => P) ?_
      fun r => ih r (hk r)
    exact .invoke hP (fun _ => hP) (fun _ _ _ => trivial) fun w r w' hi hw hpost =>
      hP w w' hpost hi hw

theorem calm_readnLoop {fd : Int} {n nleft : Nat} {got : List UInt8} :
    Calm (readnLoop fd n nleft got) := by
  unfold readnLoop
  split
  · refine Prog.uses_step rfl fun r => ?_
    cases r with
    | interrupted => exact Prog.uses_invoke ⟨_, _, _, _, rfl⟩
    | failed => exact trivial
    | data bs =>
      dsimp only
      split
      · exact trivial
      · exact Prog.uses_invoke ⟨_, _, _, _, rfl⟩
  · exact trivial

theorem calm_rioReadn {fd : Int} {n : Nat} : Calm (rioReadn fd n) :=
  Prog.uses_invoke ⟨_, _, _, _, rfl⟩

theorem calm_protoRecvPacket {fd : Int} {hdr : PacketHeader} {payload : Option Payload} :
    Calm (protoRecvPacket fd hdr payload) := by
  refine calm_rioReadn.bind fun r => ?_
  dsimp only
  split_ifs
  · exact trivial
  · exact trivial
  · refine Prog.uses_step rfl fun b => ?_
    refine calm_rioReadn.bind fun r' => ?_
    dsimp only
    split_ifs <;> exact trivial
  · exact trivial

/-! ## The loop of `rio_writen` -/

theorem MayWrite.rely {x : Int} {v v' : Shared} (hm : MayWrite t h x v) (hk : Kept W t h v v') :
    MayWrite t h x v' := by
  rcases hm with ⟨a, hdr, data, rest, hframes, hx⟩ | ⟨hframes, hconn, hout⟩
  · refine .inl ⟨a, hdr, data, rest, hk.frames.trans hframes, ?_⟩
    rcases hx with rfl | ⟨hl, hst, hx⟩
    · exact .inl rfl
    · by_cases hne : x = -1
      · exact .inl hne
      · refine .inr ⟨hl, hk.stored hst, ((hk.locked hl).2 ?_).trans hx⟩
        rw [hx]
        simpa using hne
  · exact .inr ⟨hk.frames.trans hframes, hconn, hout⟩

theorem Inv.addressed {v : Shared} {c : Census} {x : Int} (hi : Inv W v c)
    (hm : MayWrite t (c.of t) x v) : Addressed t x v := by
  rcases hm with ⟨a, hdr, data, rest, hframes, hx⟩ | ⟨hframes, hconn, _⟩
  · refine .inl ⟨a, hdr, data, rest, hframes, ?_⟩
    by_cases hne : x = -1
    · exact .inl hne
    · obtain ⟨_, hst, hfd⟩ := hx.resolve_left hne
      obtain ⟨u, hses, _, hown⟩ := hi.owner_of_fd hst hfd hne
      exact .inr ⟨u, hses, hown⟩
  · exact .inr ⟨hframes, hi.conn hconn⟩

def Holdings.setSending (h : Holdings) (m : Option Sending) : Holdings := { h with sending := m }

@[simp] theorem Holdings.setSending_self (h : Holdings) : h.setSending h.sending = h := rfl

theorem Census.set_setSending (c : Census) (t : Nat) (m : Option Sending) :
    c.set t ((c.of t).setSending m) =
      { c with sending := Function.update c.sending t m } := by
  simp [Census.set, Census.of, Holdings.setSending]

/-- What a write does to the packet that is being sent. -/
def Progress (W : Watch) (h : Holdings) (x : Int) (rest : List UInt8) (m : Option Sending) :
    WriteResult → Prop
  | .interrupted => m = h.sending
  | .failed => m = h.sending ∧ (W.whole → h.sending = none)
  | .wrote k => (h.sending = none ∧ m = none ∧ ¬ W.whole) ∨ ∃ sent after, W.whole ∧
    h.sending = some ⟨x, sent, rest ++ after⟩ ∧
      m = Sending.unless ⟨x, sent ++ rest.take k, rest.drop k ++ after⟩

theorem write_step {s s' : State E} {c : Census} {x : Int} {rest : List UInt8} {e : Choice E}
    {r : WriteResult} (hi : Inv W s.shared c) (hready : Ready W (c.of t) x rest)
    (hne : rest ≠ []) (he : exec t (.write x rest) e s = .done r s')
    (ha : Orderly W t (.write x rest) e s) :
    ∃ m, Inv W s'.shared (c.set t ((c.of t).setSending m)) ∧
      (∀ u k, Kept W u k s.shared s'.shared) ∧ Progress W (c.of t) x rest m r := by
  rcases exec_write_shared he with ⟨hsame, hr⟩ | ⟨k, out, rfl, hout, hs'⟩
  · refine ⟨(c.of t).sending, ?_, fun u k => ?_, ?_⟩
    · rwa [Holdings.setSending_self, Census.set_of, hsame]
    · rw [hsame]
      exact .refl ..
    · rcases hr with rfl | ⟨rfl, hno⟩
      · exact rfl
      · refine ⟨rfl, fun hw => ?_⟩
        rcases hready with ⟨hidle, _⟩ | ⟨_, sent, after, hsending⟩
        · exact hidle
        · obtain ⟨_, p, _, hsend⟩ := hi.sends hw hsending
          rcases hno with hclosed | hfail
          · exact absurd hclosed (hi.open_of_sends hsend)
          · exact absurd hfail (ha.whole hw x rest rfl)
  · have hkept : ∀ u k, Kept W u k s.shared s'.shared := by
      intro u k
      rw [hs']
      exact .of_eq rfl rfl rfl rfl rfl rfl
    rcases hready with ⟨hidle, hcase⟩ | ⟨hw, sent, after, hsending⟩
    · have hw : ¬ W.whole := by
        intro hw
        rcases hcase hw with rfl | hnil
        · obtain ⟨u, hu⟩ := exists_owner_of_output hout
          have hpos := hi.ports hu
          omega
        · exact hne hnil
      refine ⟨none, ?_, hkept, .inl ⟨hidle, rfl, hw⟩⟩
      rw [← hidle, Holdings.setSending_self, Census.set_of, hs']
      exact hi.wroteAside hw
    · have hsplit : (c.of t).sending = some ⟨x, sent, rest.take k ++ (rest.drop k ++ after)⟩ := by
        rw [hsending, ← List.append_assoc, List.take_append_drop]
      refine ⟨_, ?_, hkept, .inr ⟨sent, after, hw, hsending, rfl⟩⟩
      rw [Census.set_setSending, hs']
      exact hi.wrote hout hsplit

/-- The thread is ready for the rest after a write. -/
theorem Progress.ready {x : Int} {rest : List UInt8} {m : Option Sending} {k : Nat}
    (hp : Progress W h x rest m (.wrote k)) : Ready W (h.setSending m) x (rest.drop k) := by
  rcases hp with ⟨_, rfl, hw⟩ | ⟨sent, after, hw, _, rfl⟩
  · exact .inl ⟨rfl, fun h => absurd h hw⟩
  · by_cases hnil : rest.drop k ++ after = []
    · refine .inl ⟨if_pos hnil, fun _ => .inr (List.append_eq_nil_iff.mp hnil).1⟩
    · exact .inr ⟨hw, sent ++ rest.take k, after, if_neg hnil⟩

/-- A loop of writes that follows a write, seen as one loop. -/
theorem Progress.post {x : Int} {rest : List UInt8} {m : Option Sending} {k : Nat} {r : Int}
    {m' : Option Sending} (hp : Progress W h x rest m (.wrote k))
    (hnil : rest.drop k = [] → r ≠ -1) (hnone : m = none → m' = none)
    (hdone : W.whole → ∀ sent after, m = some ⟨x, sent, rest.drop k ++ after⟩ →
      r ≠ -1 ∧ m' = Sending.unless ⟨x, sent ++ rest.drop k, after⟩) :
    (h.sending = none → m' = none) ∧ (W.whole → ∀ sent after,
      h.sending = some ⟨x, sent, rest ++ after⟩ →
        r ≠ -1 ∧ m' = Sending.unless ⟨x, sent ++ rest, after⟩) := by
  rcases hp with ⟨hidle, rfl, hw⟩ | ⟨sent, after, hw, hsending, rfl⟩
  · exact ⟨fun _ => hnone rfl, fun h => absurd h hw⟩
  · refine ⟨fun hno => by simp [hsending] at hno, fun _ sent' after' hsending' => ?_⟩
    have heq : (⟨x, sent, rest ++ after⟩ : Sending) = ⟨x, sent', rest ++ after'⟩ :=
      Option.some.inj (hsending.symm.trans hsending')
    obtain ⟨rfl, hafter⟩ : sent = sent' ∧ rest ++ after = rest ++ after' := by simpa using heq
    obtain rfl := List.append_cancel_left hafter
    by_cases hend : rest.drop k ++ after = []
    · obtain ⟨hdrop, rfl⟩ := List.append_eq_nil_iff.mp hend
      exact ⟨hnil hdrop, (hnone (if_pos hend)).trans (if_pos rfl).symm⟩
    · obtain ⟨hr, hm⟩ := hdone hw _ _ (if_neg hend)
      rw [List.append_assoc, List.take_append_drop] at hm
      exact ⟨hr, hm⟩

theorem wp_writenLoop {x : Int} {n : Nat} {rest : List UInt8} {w : World E}
    (hi : (discipline E W).inv w) (hpre : callPre W t (.writen x n rest) w) :
    (discipline E W).wp t (writenLoop x n rest) (callPost W t (.writen x n rest) w) w := by
  unfold writenLoop
  split
  case isFalse hlen =>
    obtain rfl : rest = [] := List.length_eq_zero_iff.mp (by omega)
    have hn : (n : Int) ≠ -1 := by omega
    refine Discipline.wp_ret ?_
    rintro w' ⟨hg, hk⟩ _
    refine ⟨(w.ghost t).sending, hg, hk, fun _ => hn, id, fun hw sent after hsending => ?_⟩
    refine ⟨hn, hsending.trans (Eq.symm ?_)⟩
    have hne : after ≠ [] := by simpa using (hi.sends hw hsending).1
    simp [Sending.unless, hne]
  case isTrue hlen =>
    have hne : rest ≠ [] := List.ne_nil_of_length_pos hlen
    refine Discipline.wp_bind (Discipline.wp_act ?_ ?_)
    · rintro w₁ ⟨hg, hk⟩ hi₁ y bs hy
      cases hy
      have hmay : MayWrite t (w₁.ghost t) x w₁.state.shared := by
        rw [hg]
        exact hpre.1.rely hk
      exact hi₁.addressed hmay
    · rintro w₁ ⟨hg, hk⟩ hi₁ e r s he ha
      have hready : Ready W (w₁.ghost t) x rest := by
        rw [hg]
        exact hpre.2
      obtain ⟨m, hinv, hkept, hprog⟩ := write_step hi₁ hready hne he ha
      change Progress W (w₁.ghost t) x rest m r at hprog
      rw [hg] at hprog
      refine ⟨(w₁.ghost t).setSending m, ⟨?_, fun u hu => ?_⟩, ?_⟩
      · change Inv W s.shared (census (Function.update w₁.ghost t _))
        rw [census_update]
        exact hinv
      · exact ⟨World.after_ghost_of_ne _ _ _ hu, hkept ..⟩
      -- what is known after the step, and after what the other threads do then
      rintro w₂ ⟨hg₂, hk₂⟩ _
      have hghost : w₂.ghost t = (w.ghost t).setSending m := by
        rw [hg₂, World.after_ghost_self, hg]
      rw [World.after_ghost_self] at hk₂
      have hkept₂ : Kept W t (w.ghost t) w.state.shared w₂.state.shared := by
        refine hk.trans ((hkept t _).trans (hk₂.mono ?_ ?_))
        · intro a hl
          rwa [hg]
        · intro a hf
          rwa [hg]
      cases r with
      | interrupted =>
        obtain rfl : m = (w.ghost t).sending := hprog
        rw [Holdings.setSending_self] at hghost
        refine Discipline.wp_invoke ?_ ?_
        · rintro w₃ ⟨hg₃, hk₃⟩ _
          change MayWrite t (w₃.ghost t) x w₃.state.shared ∧ Ready W (w₃.ghost t) x rest
          rw [hghost] at hk₃
          rw [hg₃, hghost]
          exact ⟨(hpre.1.rely hkept₂).rely hk₃, hpre.2⟩
        · rintro w₃ ⟨hg₃, hk₃⟩ r w₄ ⟨m', hg₄, hk₄, hpost⟩ _ w₅ ⟨hg₅, hk₅⟩ _
          rw [hg₃, hghost] at hg₄ hk₄ hpost
          rw [hghost] at hk₃
          rw [hg₄] at hk₅
          exact ⟨m', hg₅.trans hg₄, hkept₂.trans (hk₃.trans (hk₄.trans (hk₅.mono id id))), hpost⟩
      | failed =>
        obtain ⟨rfl, hno⟩ := hprog
        rw [Holdings.setSending_self] at hghost
        refine Discipline.wp_ret ?_
        rintro w₃ ⟨hg₃, hk₃⟩ _
        rw [hghost] at hg₃ hk₃
        refine ⟨_, hg₃, hkept₂.trans hk₃, fun h => absurd h hne, id,
          fun hw sent after hsending => ?_⟩
        rw [hno hw] at hsending
        cases hsending
      | wrote k =>
        refine Discipline.wp_invoke ?_ ?_
        · rintro w₃ ⟨hg₃, hk₃⟩ _
          change MayWrite t (w₃.ghost t) x w₃.state.shared ∧ Ready W (w₃.ghost t) x (rest.drop k)
          rw [hghost] at hk₃
          rw [hg₃, hghost]
          refine ⟨?_, hprog.ready⟩
          exact (hpre.1.rely (hkept₂.trans (hk₃.mono id id)))
        · rintro w₃ ⟨hg₃, hk₃⟩ r w₄ ⟨m', hg₄, hk₄, hnil, hnone, hdone⟩ _ w₅ ⟨hg₅, hk₅⟩ _
          rw [hg₃, hghost] at hg₄ hk₄ hnone hdone
          rw [hghost] at hk₃
          rw [hg₄] at hk₅
          obtain ⟨hnone', hdone'⟩ := hprog.post hnil hnone hdone
          refine ⟨m', hg₅.trans hg₄, ?_, fun h => absurd h hne, hnone', hdone'⟩
          have hkept₅ : Kept W t ((w.ghost t).setSending m) w₂.state.shared w₅.state.shared :=
            hk₃.trans (hk₄.trans (hk₅.mono id id))
          exact hkept₂.trans (hkept₅.mono id id)

/-! ## Sending -/

/-- The bytes are a part of the packet that is being sent. -/
theorem triple_writePart {x : Int} {sent bs after : List UInt8} (hw : W.whole)
    (hsending : h.sending = some ⟨x, sent, bs ++ after⟩) (hF : Steady W t fs h F)
    (hmay : ∀ v, v.frames t = fs → F v → MayWrite t h x v) :
    (discipline E W).Triple t (At t fs h F) (rioWriten x bs) fun r w => r ≠ -1 ∧
      At t fs (h.setSending (Sending.unless ⟨x, sent ++ bs, after⟩)) F w := by
  have hF' : ∀ m, Steady W t fs (h.setSending m) F := fun m => hF.mono id id
  refine .invoke (stable_at hF) (fun r => .and (.const _) (stable_at (hF' _))) ?_ ?_
  · rintro w _ ⟨hframes, rfl, hf⟩
    exact ⟨hmay _ hframes hf, .inr ⟨hw, sent, after, hsending⟩⟩
  · rintro w r w' _ ⟨hframes, rfl, hf⟩ ⟨m, hg, hk, _, _, hdone⟩
    obtain ⟨hr, rfl⟩ := hdone hw sent after hsending
    exact ⟨hr, hk.frames.trans hframes, hg, hF _ _ hframes hk hf⟩

/-- The bytes are not looked at, or they are written to descriptor -1. -/
theorem triple_writeAside {x : Int} {bs : List UInt8} (hidle : h.sending = none)
    (haside : W.whole → x = -1) (hF : Steady W t fs h F)
    (hmay : ∀ v, v.frames t = fs → F v → MayWrite t h x v) :
    (discipline E W).Triple t (At t fs h F) (rioWriten x bs) fun _ => At t fs h F := by
  refine .invoke (stable_at hF) (fun _ => stable_at hF) ?_ ?_
  · rintro w _ ⟨hframes, rfl, hf⟩
    exact ⟨hmay _ hframes hf, .inl ⟨hidle, fun hw => .inl (haside hw)⟩⟩
  · rintro w r w' _ ⟨hframes, rfl, hf⟩ ⟨m, hg, hk, _, hnone, _⟩
    obtain rfl := hnone hidle
    refine ⟨hk.frames.trans hframes, hg.trans ?_, hF _ _ hframes hk hf⟩
    rw [← hidle]

/-- The packet that `proto_send_packet` makes at a time. -/
def stamped (hdr : PacketHeader) (data : List UInt8) (h : hdr.payloadSize ≤ data.length)
    (now : UInt32 × UInt32) : Packet where
  header := { hdr with timestampSec := htonl now.1, timestampNsec := htonl now.2 }
  payload := data.take hdr.payloadSize
  length_payload := by
    rw [List.length_take]
    exact Nat.min_eq_left h

theorem triple_clock {x : Int} {p : UInt32 × UInt32 → Packet} (hw : W.whole)
    (hidle : h.sending = none) (hF : Steady W t fs h F)
    (hsends : ∀ v c r, Inv W v c → c.of t = h → v.frames t = fs → F v → Sends v c t x (p r)) :
    (discipline E W).Triple t (At t fs h F) clock
      fun r => At t fs (h.setSending (some ⟨x, [], (p r).toBytes⟩)) F := by
  refine triple_step hF (fun r => hF.mono id id) nofun ?_
  rintro s c hi rfl hframes hf e r s' he _
  have hsame := exec_quiet rfl he
  rw [hsame, Census.set_setSending]
  exact ⟨hi.send hw (hsends _ c r hi rfl hframes hf) hidle, hframes, hf, fun u _ => .refl ..⟩

/-- The writes of `proto_send_packet`. -/
theorem triple_writePacket {x : Int} {p : Packet} (hw : W.whole) (hidle : h.sending = none)
    (hF : Steady W t fs h F) (hmay : ∀ v, v.frames t = fs → F v → MayWrite t h x v) :
    (discipline E W).Triple t (At t fs (h.setSending (some ⟨x, [], p.toBytes⟩)) F)
      (do
        let rioHdr ← rioWriten x p.header.toBytes
        if rioHdr = -1 then pure (-1, p.header)
        else if ntohs p.header.size ≠ 0 then do
          let rioPayload ← rioWriten x p.payload
          if rioPayload = -1 then pure (-1, p.header) else pure (0, p.header)
        else pure (0, p.header))
      fun _ => At t fs h F := by
  have hret : ∀ r : Int × PacketHeader, (discipline E W).Triple t (At t fs h F) (.ret r)
      fun _ => At t fs h F := fun r => .ret (stable_at hF) fun _ _ hw => hw
  have hlen : p.payload = [] ↔ ntohs p.header.size = 0 := by
    rw [← List.length_eq_zero_iff, p.length_payload, ← UInt16.toNat_inj]
    rfl
  refine .bind (triple_writePart hw rfl (hF.mono id id) hmay) fun r => ?_
  refine .fact_pre fun hr => ?_
  rw [if_neg hr]
  split
  · rename_i hsize
    have hpayload : p.payload ≠ [] := fun h => hsize (hlen.mp h)
    have hrest : Sending.unless ⟨x, [] ++ p.header.toBytes, p.payload⟩ =
        some ⟨x, p.header.toBytes, p.payload ++ []⟩ := by
      simp [Sending.unless, hpayload]
    have hdone : Sending.unless ⟨x, p.header.toBytes ++ p.payload, []⟩ = h.sending := by
      rw [hidle]
      exact if_pos rfl
    rw [hrest]
    refine .bind (triple_writePart hw rfl (hF.mono id id) hmay) fun r => ?_
    refine .fact_pre fun hr => ?_
    rw [if_neg hr, hdone]
    exact hret _
  · rename_i hsize
    have hdone : Sending.unless ⟨x, [] ++ p.header.toBytes, p.payload⟩ = h.sending := by
      rw [hidle, hlen.mpr (not_not.mp hsize)]
      exact if_pos rfl
    rw [hdone]
    exact hret _

theorem triple_protoSendPacket {x : Int} {hdr : PacketHeader} {data : List UInt8}
    (hidle : h.sending = none) (hF : Steady W t fs h F)
    (hmay : ∀ v, v.frames t = fs → F v → MayWrite t h x v)
    (hfits : W.whole → hdr.payloadSize ≤ data.length)
    (hsends : W.whole → x ≠ -1 → ∀ v c p, Inv W v c → c.of t = h → v.frames t = fs → F v →
      Carries p hdr data → Sends v c t x p) :
    (discipline E W).Triple t (At t fs h F) (protoSendPacket x hdr data)
      fun _ => At t fs h F := by
  have hret : ∀ r : Int × PacketHeader, (discipline E W).Triple t (At t fs h F) (.ret r)
      fun _ => At t fs h F := fun r => .ret (stable_at hF) fun _ _ hw => hw
  by_cases hw : W.whole ∧ x ≠ -1
  · obtain ⟨hwhole, hne⟩ := hw
    refine .bind (triple_clock (p := stamped hdr data (hfits hwhole)) hwhole hidle hF
      fun v c r hi hc hframes hf =>
        hsends hwhole hne v c _ hi hc hframes hf ⟨rfl, rfl⟩) fun now => ?_
    exact triple_writePacket (p := stamped hdr data (hfits hwhole) now) hwhole hidle hF hmay
  · have haside : W.whole → x = -1 := fun h => by_contra fun hne => hw ⟨h, hne⟩
    refine .bind (triple_skip rfl hF) fun now => ?_
    refine .bind (triple_writeAside hidle haside hF hmay) fun r => ?_
    split
    · exact hret _
    · split
      · refine .bind (triple_writeAside hidle haside hF hmay) fun r => ?_
        split <;> exact hret _
      · exact hret _

end BourseServer.Sessions
