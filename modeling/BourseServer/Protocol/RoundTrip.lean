import Mathlib.Data.Fintype.EquivFin
import BourseServer.Concurrency.Termination
import BourseServer.Protocol.Stream
import BourseServer.Server.Service

/-!
# Packets arrive as they are sent

The transfer loops of `csapp.c` move all bytes, however the system calls split the transfer and
however often they are interrupted, as long as the interruptions come to an end. A packet is
sent as its header followed by its payload, and since the header announces the length of the
payload, a sequence of packets is received as it was sent.
-/
namespace BourseServer

open Concurrency Bytes

variable {E : Exchange}

def Choice.isEintr : Choice E → Bool
  | .eintr => true
  | _ => false

/-- No system call reports an error other than `EINTR`, after which it is tried again. -/
def reliable (E : Exchange) : Regime (machine E) where
  ok _ e _ := e ≠ .ioError
  again := Choice.isEintr

/-- Reads are tried again when they are interrupted, and they do not fail otherwise. -/
structure Receiving (G : Regime (machine E)) : Prop where
  again : ∀ e, G.again e = Choice.isEintr e
  read : ∀ {fd n e s}, G.ok (.read fd n) e s ↔ e ≠ .ioError
  malloc : ∀ {n p junk s}, G.ok (.malloc n) (.block p junk) s

/-- Writes are tried again when they are interrupted, and they do not fail otherwise. -/
structure Sending (G : Regime (machine E)) : Prop where
  again : ∀ e, G.again e = Choice.isEintr e
  write : ∀ {fd bs e s}, G.ok (.write fd bs) e s ↔ e ≠ .ioError
  clock : ∀ {sec nsec s}, G.ok .clock (.time sec nsec) s

theorem receiving_reliable : Receiving (reliable E) :=
  ⟨fun _ => rfl, Iff.rfl, by simp [reliable]⟩

theorem sending_reliable : Sending (reliable E) :=
  ⟨fun _ => rfl, Iff.rfl, by simp [reliable]⟩

@[simp] theorem State.setConn_self {s : State E} {fd : Int} {c : Conn} (h : s.conns fd = some c) :
    s.setConn fd (some c) = s := by
  simp [State.setConn, ← h]

@[simp] theorem State.setConn_setConn (s : State E) (fd : Int) (c d : Option Conn) :
    (s.setConn fd c).setConn fd d = s.setConn fd d := by
  simp [State.setConn]

@[simp] theorem State.setConn_conns (s : State E) (fd : Int) (c : Option Conn) :
    (s.setConn fd c).conns fd = c := by
  simp [State.setConn]

theorem clamp_pos {k n : Nat} (h : 0 < n) : 0 < clamp k n := by
  unfold clamp
  omega

theorem clamp_le (k n : Nat) : clamp k n ≤ n := Nat.min_le_right ..

/-! ## The transfer loops -/

/-- What a read that neither fails nor is interrupted does. -/
theorem execRead_data {fd : Int} {n : Nat} {e : Choice E} {s s' : State E} {c : Conn}
    {r : ReadResult} (hc : s.conns fd = some c) (h : execRead fd n e s = .done r s')
    (hok : e ≠ .ioError) (he : e.isEintr = false) :
    (c.input = [] ∧ r = .data [] ∧ s' = s) ∨
      ∃ m, c.input ≠ [] ∧ m = clamp m (min n c.input.length) ∧ r = .data (c.input.take m) ∧
        s' = s.setConn fd (some { c with input := c.input.drop m }) := by
  simp only [execRead, hc] at h
  cases e with
  | transfer k =>
    dsimp only at h
    split_ifs at h with hnil hend
    · cases h
      exact .inl ⟨hnil, rfl, rfl⟩
    · cases h
      refine .inr ⟨_, hnil, ?_, rfl, rfl⟩
      unfold clamp
      omega
  | eintr => cases he
  | ioError => exact absurd rfl hok
  | _ => cases h

/-- What a write that neither fails nor is interrupted does. -/
theorem execWrite_data {fd : Int} {bs : List UInt8} {e : Choice E} {s s' : State E} {c : Conn}
    {r : WriteResult} (hc : s.conns fd = some c) (h : execWrite fd bs e s = .done r s')
    (hok : e ≠ .ioError) (he : e.isEintr = false) :
    ∃ k, r = .wrote (clamp k bs.length) ∧
      s' = s.setConn fd (some { c with output := c.output ++ bs.take (clamp k bs.length) }) := by
  simp only [execWrite, hc] at h
  cases e with
  | transfer k =>
    cases h
    exact ⟨k, rfl, rfl⟩
  | eintr => cases he
  | ioError => exact absurd rfl hok
  | _ => cases h

variable {G : Regime (machine E)}

theorem readnLoop_eq (fd : Int) (n nleft : Nat) (got : List UInt8) (h : 0 < nleft) :
    readnLoop fd n nleft got = .op (I := bourse) (.read fd nleft) fun r =>
      match r with
      | .interrupted => Prog.invoke (I := bourse) (.readn fd n nleft got)
      | .failed => .ret (-1, got)
      | .data bs =>
        if bs = [] then .ret (((n - nleft : Nat) : Int), got)
        else Prog.invoke (I := bourse) (.readn fd n (nleft - bs.length) (got ++ bs)) := by
  rw [readnLoop, if_pos h]
  refine congrArg (Prog.op (I := bourse) (.read fd nleft)) (funext fun r => ?_)
  cases r <;> rfl

/-- After an interruption the loop is where it was, and otherwise less is left to read. -/
theorem ends_readn (hG : Receiving G) {t : Nat} {fd : Int} {n : Nat} (m nleft : Nat)
    {got : List UInt8}
    {s : State E} {c : Conn} {Q : Int × List UInt8 → State E → Prop}
    (hc : s.conns fd = some c) (hend : c.ended = true ∨ nleft ≤ c.input.length) (hn : nleft ≤ n)
    (hQ : Q (((n - nleft + min nleft c.input.length : Nat) : Int), got ++ c.input.take nleft)
      (s.setConn fd (some { c with input := c.input.drop nleft }))) :
    Ends G t Q m (.invoke (I := bourse) (.readn fd n nleft got)) s := by
  refine Ends.invoke (I := bourse) (M := machine E) (p := .readn fd n nleft got) ?_
  change Ends G t Q m (readnLoop fd n nleft got) s
  obtain hpos | hzero := Nat.eq_zero_or_pos nleft |>.symm
  · rw [readnLoop_eq fd n nleft got hpos]
    refine .op ?_ ?_ ?_
    · refine ⟨.transfer nleft, ?_⟩
      by_cases hnil : c.input = []
      · have hended : c.ended = true := hend.resolve_right (by simp [hnil]; omega)
        exact ⟨.data [], s, by simp [exec, execRead, hc, hnil, hended],
          hG.read.mpr (by simp), hG.again _⟩
      · exact ⟨_, _, by simp [exec, execRead, hc, hnil]; exact ⟨rfl, rfl⟩,
          hG.read.mpr (by simp), hG.again _⟩
    · intro e r s' he hok ha
      rcases execRead_data hc he (hG.read.mp hok) ((hG.again e).symm.trans ha) with
        ⟨hnil, rfl, rfl⟩ | ⟨k, hnil, hk, rfl, rfl⟩
      · refine .ret ?_
        have hsame : { c with input := c.input.drop nleft } = c := by
          cases c
          simp_all
        rw [hsame, State.setConn_self hc] at hQ
        simpa [hnil] using hQ
      · have hlen : 0 < c.input.length := List.length_pos_iff.mpr hnil
        have hkpos : 0 < k := by
          rw [hk]
          exact clamp_pos (by omega)
        have hkle : k ≤ min nleft c.input.length := by
          rw [hk]
          exact clamp_le _ _
        have hlk : (c.input.take k).length = k := by
          rw [List.length_take]
          omega
        have htake : c.input.take k ≠ [] := by
          rw [← List.length_pos_iff, hlk]
          exact hkpos
        dsimp only
        rw [if_neg htake, hlk]
        refine ends_readn hG m (nleft - k) (State.setConn_conns s fd _) ?_ (by omega) ?_
        · exact hend.imp_right fun h => by simp; omega
        · have hcount : n - (nleft - k) + min (nleft - k) (c.input.drop k).length =
              n - nleft + min nleft c.input.length := by
            simp only [List.length_drop]
            omega
          have hbytes : c.input.take k ++ (c.input.drop k).take (nleft - k) =
              c.input.take nleft := by
            rw [← List.take_add, Nat.add_sub_cancel' (by omega)]
          have hdrop : (c.input.drop k).drop (nleft - k) = c.input.drop nleft := by
            rw [List.drop_drop, Nat.add_sub_cancel' (by omega)]
          rw [State.setConn_setConn, hcount, List.append_assoc, hbytes, hdrop]
          exact hQ
    · intro e r s' m' he hok ha hm
      subst hm
      rw [hG.again] at ha
      cases e <;> cases ha
      simp only [exec, execRead, hc] at he
      cases he
      exact ends_readn hG m' nleft hc hend hn hQ
  · subst hzero
    have hret : readnLoop fd n 0 got = .ret ((n : Int), got) := by simp [readnLoop]
    rw [hret]
    refine .ret ?_
    have hsame : { c with input := c.input.drop 0 } = c := by simp
    rw [hsame, State.setConn_self hc] at hQ
    simpa using hQ
termination_by (m, nleft)

theorem writenLoop_eq (fd : Int) (n : Nat) (rest : List UInt8) (h : 0 < rest.length) :
    writenLoop fd n rest = .op (I := bourse) (.write fd rest) fun r =>
      match r with
      | .interrupted => Prog.invoke (I := bourse) (.writen fd n rest)
      | .failed => .ret (-1)
      | .wrote k => Prog.invoke (I := bourse) (.writen fd n (rest.drop k)) := by
  rw [writenLoop, if_pos h]
  refine congrArg (Prog.op (I := bourse) (.write fd rest)) (funext fun r => ?_)
  cases r <;> rfl

theorem ends_writen (hG : Sending G) {t : Nat} {fd : Int} {n : Nat} (m : Nat)
    (rest : List UInt8) {s : State E}
    {c : Conn} {Q : Int → State E → Prop} (hc : s.conns fd = some c)
    (hQ : Q n (s.setConn fd (some { c with output := c.output ++ rest }))) :
    Ends G t Q m (.invoke (I := bourse) (.writen fd n rest)) s := by
  refine Ends.invoke (I := bourse) (M := machine E) (p := .writen fd n rest) ?_
  change Ends G t Q m (writenLoop fd n rest) s
  obtain hpos | hzero := Nat.eq_zero_or_pos rest.length |>.symm
  · rw [writenLoop_eq fd n rest hpos]
    refine .op ?_ ?_ ?_
    · exact ⟨.transfer rest.length, _, _, by simp [exec, execWrite, hc]; exact ⟨rfl, rfl⟩,
        hG.write.mpr (by simp), hG.again _⟩
    · intro e r s' he hok ha
      obtain ⟨k, rfl, rfl⟩ := execWrite_data hc he (hG.write.mp hok) ((hG.again e).symm.trans ha)
      have hkpos : 0 < clamp k rest.length := clamp_pos hpos
      refine ends_writen hG m (rest.drop (clamp k rest.length)) (State.setConn_conns s fd _) ?_
      rw [State.setConn_setConn, List.append_assoc, List.take_append_drop]
      exact hQ
    · intro e r s' m' he hok ha hm
      subst hm
      rw [hG.again] at ha
      cases e <;> cases ha
      simp only [exec, execWrite, hc] at he
      cases he
      exact ends_writen hG m' rest hc hQ
  · have hret : writenLoop fd n rest = .ret (n : Int) := by simp [writenLoop, hzero]
    rw [hret]
    refine .ret ?_
    have hnil : rest = [] := List.length_eq_zero_iff.mp hzero
    have hsame : { c with output := c.output ++ rest } = c := by simp [hnil]
    rwa [hsame, State.setConn_self hc] at hQ
termination_by (m, rest.length)

theorem total_rioReadn (hG : Receiving G) {t : Nat} {fd : Int} {n : Nat} {s : State E} {c : Conn}
    (hc : s.conns fd = some c) (hend : c.ended = true ∨ n ≤ c.input.length) :
    Total G t (rioReadn fd n) (fun r s' =>
      r = (((min n c.input.length : Nat) : Int), c.input.take n) ∧
        s' = s.setConn fd (some { c with input := c.input.drop n })) s :=
  fun m => ends_readn hG m n hc hend le_rfl (by simp)

theorem total_rioWriten (hG : Sending G) {t : Nat} {fd : Int} {buf : List UInt8} {s : State E}
    {c : Conn}
    (hc : s.conns fd = some c) :
    Total G t (rioWriten fd buf) (fun r s' =>
      r = buf.length ∧ s' = s.setConn fd (some { c with output := c.output ++ buf })) s :=
  fun m => ends_writen hG m buf hc ⟨rfl, rfl⟩

/-! ## The functions of the protocol -/

/-- A header with the time stamps of `proto_send_packet`. -/
def PacketHeader.stamp (h : PacketHeader) (sec nsec : UInt32) : PacketHeader :=
  { h with timestampSec := htonl sec, timestampNsec := htonl nsec }

@[simp] theorem PacketHeader.stamp_payloadSize (h : PacketHeader) (sec nsec : UInt32) :
    (h.stamp sec nsec).payloadSize = h.payloadSize := rfl

theorem PacketHeader.payloadSize_eq_zero {h : PacketHeader} :
    h.payloadSize = 0 ↔ ntohs h.size = 0 := by
  rw [payloadSize, ← UInt16.toNat_inj]
  rfl

/-- The packet is sent, stamped with the time. -/
theorem total_protoSendPacket (hG : Sending G) {t : Nat} {fd : Int} {hdr : PacketHeader}
    {payload : List UInt8}
    {s : State E} {c : Conn} (hc : s.conns fd = some c) :
    Total G t (protoSendPacket fd hdr payload) (fun r s' => ∃ sec nsec,
      r = (0, hdr.stamp sec nsec) ∧ s' = s.setConn fd (some { c with
        output := c.output ++ ((hdr.stamp sec nsec).toBytes ++ payload.take hdr.payloadSize) }))
      s := by
  refine Total.bind (Q := fun _ s' => s' = s) ?_ ?_
  · refine Total.act ⟨.time 0 0, (0, 0), s, rfl, hG.clock, hG.again _⟩ ?_
    intro e r s' he _
    simp only [exec] at he
    split at he <;> cases he
    rfl
  · rintro ⟨sec, nsec⟩ _ rfl
    refine Total.bind (total_rioWriten hG hc) ?_
    rintro _ _ ⟨rfl, rfl⟩
    have hlen : ((hdr.stamp sec nsec).toBytes.length : Int) ≠ -1 := by simp
    change Total G t (if ((hdr.stamp sec nsec).toBytes.length : Int) = -1 then _ else _)
      _ _
    rw [if_neg hlen]
    by_cases hsize : ntohs hdr.size = 0
    · have h0 : hdr.payloadSize = 0 := PacketHeader.payloadSize_eq_zero.mpr hsize
      rw [if_neg (by simpa using hsize)]
      exact .ret ⟨sec, nsec, rfl, by simp [h0, PacketHeader.stamp]⟩
    · rw [if_pos hsize]
      refine Total.bind (total_rioWriten hG (State.setConn_conns _ fd _)) ?_
      rintro _ _ ⟨rfl, rfl⟩
      rw [if_neg (by omega)]
      refine .ret ⟨sec, nsec, rfl, ?_⟩
      rw [State.setConn_setConn, List.append_assoc]
      rfl

/-- The header memory once the header of a packet has been read from `input`. -/
def PacketHeader.received (hdr : PacketHeader) (input : List UInt8) : PacketHeader :=
  hdr.fill (input.take headerSize)

theorem PacketHeader.received_nil (hdr : PacketHeader) : hdr.received [] = hdr := by
  simp [received, fill, overlay]

theorem PacketHeader.received_of_le {hdr : PacketHeader} {input : List UInt8}
    (h : headerSize ≤ input.length) : hdr.received input = ofBytes (input.take headerSize) := by
  rw [received, fill, overlay_full]
  rw [length_toBytes, List.length_take]
  omega

theorem Packet.front_eq_some {p : Packet} {input : List UInt8}
    (h : Packet.front input = some p) :
    p.toBytes.length ≤ input.length ∧ (∀ hdr, PacketHeader.received hdr input = p.header) ∧
      p.payload = (input.drop headerSize).take p.header.payloadSize := by
  have hlen := (Packet.length_of_front h).1
  have hle : headerSize ≤ input.length := by
    rw [Packet.length_toBytes] at hlen
    omega
  unfold Packet.front at h
  dsimp only at h
  split_ifs at h with hfit
  cases h
  exact ⟨hlen, fun hdr => PacketHeader.received_of_le hle, rfl⟩

/-- The result of `proto_recv_packet` on a stream that has ended or holds the whole packet. -/
def RecvResult (hdr : PacketHeader) (payload : Option Payload) (input : List UInt8)
    (r : Int × PacketHeader × Option Payload) : Prop :=
  let h := hdr.received input
  if input = [] then r = (-1, hdr, payload)
  else if h.payloadSize = 0 then r = (0, h, payload)
  else ∃ block junk, junk.length = h.payloadSize ∧
    r = (0, h, some ⟨block, overlay junk ((input.drop headerSize).take h.payloadSize)⟩)

theorem exists_execMalloc (n : Nat) (s : State E) :
    ∃ p junk r s', execMalloc n (.block p junk) s = .done r s' := by
  obtain ⟨p, hp⟩ := Infinite.exists_notMem_finset s.blocks.toFinset
  have hp' : p ∉ s.blocks := by simpa using hp
  exact ⟨p, List.replicate n 0, _, _, by simp [execMalloc, hp']; exact ⟨rfl, rfl⟩⟩

theorem total_malloc (hG : Receiving G) {t n : Nat} {s : State E} :
    Total G t (malloc n) (fun r s' => r.2.length = n ∧
      s' = { s with blocks := r.1 :: s.blocks }) s := by
  obtain ⟨p, junk, r, s', he⟩ := exists_execMalloc n s
  refine Total.act ⟨.block p junk, r, s', he, hG.malloc, hG.again _⟩ fun e r s' he _ => ?_
  simp only [exec, execMalloc] at he
  split at he
  · split_ifs at he with h
    cases he
    exact ⟨h.2, rfl⟩
  · cases he

theorem total_protoRecvPacket (hG : Receiving G) {t : Nat} {fd : Int} {hdr : PacketHeader}
    {payload : Option Payload} {s : State E} {c : Conn} (hc : s.conns fd = some c)
    (hend : c.ended = true ∨ headerSize + (hdr.received c.input).payloadSize ≤ c.input.length) :
    Total G t (protoRecvPacket fd hdr payload) (fun r s' =>
      RecvResult hdr payload c.input r ∧ ∃ blocks, (∀ b ∈ s.blocks, b ∈ blocks) ∧ s' = { s with
        blocks := blocks
        conns := Function.update s.conns fd (some { c with
          input := c.input.drop (headerSize + (hdr.received c.input).payloadSize) }) }) s := by
  refine Total.bind (total_rioReadn hG hc (hend.imp_right fun h => by omega)) ?_
  rintro _ _ ⟨rfl, rfl⟩
  have hget : hdr.fill (c.input.take headerSize) = hdr.received c.input := rfl
  dsimp only
  rw [hget]
  generalize hh : hdr.received c.input = h at *
  have hread : ((min headerSize c.input.length : Nat) : Int) ≠ -1 := by omega
  rw [if_neg hread]
  by_cases hnil : c.input = []
  · have hzero : ((min headerSize c.input.length : Nat) : Int) = 0 := by simp [hnil]
    rw [if_pos hzero]
    refine .ret ⟨?_, s.blocks, fun _ h => h, ?_⟩
    · have : hdr = h := by rw [← hh, hnil, PacketHeader.received_nil]
      simp [RecvResult, hnil, this]
    · simp [hnil, State.setConn]
  · have hlen : 0 < c.input.length := List.length_pos_iff.mpr hnil
    have hzero : ((min headerSize c.input.length : Nat) : Int) ≠ 0 := by
      simp only [headerSize]
      omega
    rw [if_neg hzero]
    by_cases hsize : ntohs h.size = 0
    · have h0 : h.payloadSize = 0 := PacketHeader.payloadSize_eq_zero.mpr hsize
      rw [if_neg (by simpa using hsize)]
      refine .ret ⟨by simp [RecvResult, hnil, hh, h0], s.blocks, fun _ h => h, ?_⟩
      simp [h0, State.setConn]
    · have h0 : h.payloadSize ≠ 0 := fun h0 => hsize (PacketHeader.payloadSize_eq_zero.mp h0)
      rw [if_pos hsize]
      refine Total.bind (total_malloc hG) ?_
      rintro ⟨block, junk⟩ _ ⟨hjunk, rfl⟩
      refine Total.bind (total_rioReadn hG (c := { c with input := c.input.drop headerSize })
        (State.setConn_conns s fd _) (hend.imp_right fun h => ?_)) ?_
      · rw [List.length_drop]
        omega
      rintro _ _ ⟨rfl, rfl⟩
      dsimp only
      rw [if_neg (by omega)]
      refine .ret ⟨?_, block :: s.blocks, fun _ h => List.mem_cons_of_mem _ h, ?_⟩
      · simp only [RecvResult, hnil, hh, h0, if_false]
        exact ⟨block, junk, hjunk, rfl⟩
      · simp [State.setConn]

end BourseServer
