import BourseServer.Protocol.RoundTrip

/-!
# Delivery of packet sequences

A sequence of packets that is sent packet by packet is received packet by packet. What is
received from a stream is what the stream is divided into, when it ends at the boundary of a
packet. When it ends with a fragment the fragment is accepted as one more packet, since a short
read is only noticed when nothing at all is read.
-/
namespace BourseServer

open Concurrency Bytes

variable {E : Exchange}

/-- Packets are sent one after the other. -/
def sendAll (fd : Int) : List Packet → Code (List (Int × PacketHeader))
  | [] => pure []
  | p :: ps => do
    let r ← protoSendPacket fd p.header p.payload
    let rs ← sendAll fd ps
    pure (r :: rs)

/-- `n` calls of `proto_recv_packet`. The `i`-th one finds the memory `mem i` in the header and
the payload variable. -/
def receiveAll (fd : Int) (mem : Nat → PacketHeader × Option Payload) :
    Nat → Nat → Code (List (Int × PacketHeader × Option Payload))
  | 0, _ => pure []
  | n + 1, i => do
    let r ← protoRecvPacket fd (mem i).1 (mem i).2
    let rs ← receiveAll fd mem n (i + 1)
    pure (r :: rs)

/-- The result of a call of `proto_recv_packet`, with the packet it accepts when this is 0. -/
def report : Int × PacketHeader × Option Payload → Int × Option (PacketHeader × List UInt8)
  | (status, hdr, payload) => (status,
    if status = 0 then
      some (hdr, if hdr.payloadSize = 0 then [] else payload.elim [] Payload.bytes)
    else none)

def Packet.parts (p : Packet) : PacketHeader × List UInt8 := (p.header, p.payload)

/-! ## One packet -/

variable {hdr : PacketHeader} {payload : Option Payload} {input : List UInt8}
  {r : Int × PacketHeader × Option Payload}

theorem RecvResult.report_front {p : Packet} (h : RecvResult hdr payload input r)
    (hp : Packet.front input = some p) : report r = (0, some p.parts) := by
  obtain ⟨hlen, hhdr, hpay⟩ := Packet.front_eq_some hp
  have hpos := (Packet.length_of_front hp).2
  have hnil : input ≠ [] := by
    rintro rfl
    rw [List.length_nil] at hlen
    omega
  simp only [RecvResult, hnil, hhdr, if_false] at h
  split_ifs at h with h0
  · subst h
    have : p.payload = [] := by
      rw [← List.length_eq_zero_iff, p.length_payload, h0]
    simp [report, h0, Packet.parts, this]
  · obtain ⟨block, junk, hjunk, rfl⟩ := h
    have hfull : overlay junk p.payload = p.payload :=
      overlay_full (by rw [hjunk, p.length_payload])
    simp [report, h0, Packet.parts, ← hpay, hfull]

theorem RecvResult.report_nil (h : RecvResult hdr payload [] r) : report r = (-1, none) := by
  simp only [RecvResult, if_true] at h
  subst h
  simp [report]

/-- Any bytes at all are accepted as a packet. -/
theorem RecvResult.report_isSome (h : RecvResult hdr payload input r) (hnil : input ≠ []) :
    (report r).2.isSome = true := by
  simp only [RecvResult, hnil, if_false] at h
  split_ifs at h with h0
  · subst h
    simp [report]
  · obtain ⟨block, junk, _, rfl⟩ := h
    simp [report]

/-! ## All packets -/

/-- The next call of `proto_recv_packet` goes on with what the first packet leaves. -/
theorem total_receiveAll_succ {t : Nat} {fd : Int} {mem : Nat → PacketHeader × Option Payload}
    {n i : Nat} {s : State E} {c : Conn}
    {Q : List (Int × PacketHeader × Option Payload) → State E → Prop}
    (hc : s.conns fd = some c) (hend : c.ended = true)
    (h : ∀ r s', RecvResult (mem i).1 (mem i).2 c.input r →
      s'.conns fd = some { c with
        input := c.input.drop (headerSize + ((mem i).1.received c.input).payloadSize) } →
      Total (reliable E) t (receiveAll fd mem n (i + 1)) (fun rs => Q (r :: rs)) s') :
    Total (reliable E) t (receiveAll fd mem (n + 1) i) Q s := by
  refine Total.bind (total_protoRecvPacket receiving_reliable hc (.inl hend)) ?_
  rintro r _ ⟨hr, blocks, _, rfl⟩
  exact (h r _ hr (by simp)).bind fun rs s' hrs => .ret hrs

/-- A stream without a fragment is received as its packets, and then the result is -1. -/
theorem total_receiveAll {t : Nat} {fd : Int} (mem : Nat → PacketHeader × Option Payload)
    (n : Nat) : ∀ {i : Nat} {s : State E} {c : Conn}, s.conns fd = some c → c.ended = true →
      (Packet.parse c.input).2 = [] →
      Total (reliable E) t (receiveAll fd mem n i) (fun rs _ => rs.map report =
        (((Packet.parse c.input).1.map fun p : Packet => (0, some p.parts)) ++
          List.replicate n (-1, none)).take n) s := by
  induction n with
  | zero => exact fun _ _ _ => .ret (by simp)
  | succ n ih =>
    intro i s c hc hend hrest
    refine total_receiveAll_succ hc hend fun r s' hr hc' => ?_
    have ih' := ih (i := i + 1) hc' hend
    cases hp : Packet.front c.input with
    | none =>
      have hnil : c.input = [] := by simpa [Packet.parse_of_front_eq_none hp] using hrest
      have hparse : Packet.parse [] = ([], []) := Packet.parse_of_front_eq_none Packet.front_nil
      simp only [hnil, List.drop_nil, hparse] at hr ih' ⊢
      refine (ih' trivial).mono fun rs _ hrs => ?_
      rw [List.map_cons, hrs, hr.report_nil]
      simp [List.replicate_succ]
    | some p =>
      obtain ⟨hlen, hhdr, _⟩ := Packet.front_eq_some hp
      rw [hhdr, ← Packet.length_toBytes] at ih'
      rw [Packet.parse_of_front_eq_some hp] at hrest ⊢
      refine (ih' hrest).mono fun rs _ hrs => ?_
      rw [List.map_cons, hrs, hr.report_front hp]
      simp [List.replicate_succ', ← List.append_assoc, List.take_append]

/-- When the packets of a stream have been received, its fragment is accepted as one more. -/
theorem total_receiveAll_fragment {t : Nat} {fd : Int}
    (mem : Nat → PacketHeader × Option Payload) {ps : List Packet} :
    ∀ {i : Nat} {s : State E} {c : Conn} {bs : List UInt8}, s.conns fd = some c →
      c.ended = true → Packet.parse c.input = (ps, bs) → bs ≠ [] →
      Total (reliable E) t (receiveAll fd mem (ps.length + 1) i) (fun rs _ =>
        (rs.filterMap fun r => (report r).2).length = ps.length + 1) s := by
  induction ps with
  | nil =>
    intro i s c bs hc hend hparse hnil
    have hinput : c.input ≠ [] := by
      intro h
      rw [h, Packet.parse_of_front_eq_none Packet.front_nil] at hparse
      exact hnil (Prod.mk.inj hparse).2.symm
    refine total_receiveAll_succ hc hend fun r s' hr _ => .ret ?_
    obtain ⟨x, hx⟩ := Option.isSome_iff_exists.mp (hr.report_isSome hinput)
    simp [hx]
  | cons p ps ih =>
    intro i s c bs hc hend hparse hnil
    refine total_receiveAll_succ hc hend fun r s' hr hc' => ?_
    cases hp : Packet.front c.input with
    | none => simp [Packet.parse_of_front_eq_none hp] at hparse
    | some q =>
      rw [Packet.parse_of_front_eq_some hp] at hparse
      obtain ⟨hps, hbs⟩ := Prod.mk.inj hparse
      obtain ⟨rfl, htail⟩ := List.cons.inj hps
      obtain ⟨_, hhdr, _⟩ := Packet.front_eq_some hp
      rw [hhdr, ← Packet.length_toBytes] at hc'
      refine (ih hc' hend (Prod.ext htail hbs) hnil).mono fun rs _ hrs => ?_
      simp [hr.report_front hp, hrs]

/-! ## Sending -/

/-- The packets `qs` are the packets `ps` with time stamps of the sender. -/
def Stamped : List Packet → List Packet → Prop :=
  List.Forall₂ fun p q =>
    q.payload = p.payload ∧ ∃ sec nsec, q.header = p.header.stamp sec nsec

theorem total_sendAll {t : Nat} {fd : Int} {ps : List Packet} :
    ∀ {s : State E} {c : Conn}, s.conns fd = some c →
      Total (reliable E) t (sendAll fd ps) (fun rs s' => ∃ qs, Stamped ps qs ∧
        rs = qs.map (fun q : Packet => (0, q.header)) ∧
        s' = s.setConn fd (some { c with output := c.output ++ Packet.encode qs })) s := by
  induction ps with
  | nil =>
    intro s c hc
    refine .ret ⟨[], .nil, rfl, ?_⟩
    simp [Packet.encode, State.setConn_self hc]
  | cons p ps ih =>
    intro s c hc
    refine Total.bind (total_protoSendPacket sending_reliable hc) ?_
    rintro _ _ ⟨sec, nsec, rfl, rfl⟩
    refine Total.bind (ih (State.setConn_conns s fd _)) ?_
    rintro _ _ ⟨qs, hqs, rfl, rfl⟩
    refine .ret ⟨⟨p.header.stamp sec nsec, p.payload, p.length_payload⟩ :: qs,
      .cons ⟨rfl, sec, nsec, rfl⟩ hqs, rfl, ?_⟩
    have htake : p.payload.take p.header.payloadSize = p.payload :=
      List.take_of_length_le (by rw [p.length_payload])
    rw [State.setConn_setConn, htake]
    simp [Packet.encode, Packet.toBytes]

/-- Packets that are sent one after the other, and then received from a stream that ends after
their bytes, arrive unchanged and in order, with the time stamps of the sender. -/
theorem packets_delivered {t : Nat} {fd : Int} (ps : List Packet) {s : State E} {c : Conn}
    (hc : s.conns fd = some c) :
    Total (reliable E) t (sendAll fd ps) (fun sent s' => ∃ qs out, Stamped ps qs ∧
      sent = qs.map (fun q : Packet => (0, q.header)) ∧
      s' = s.setConn fd (some { c with output := c.output ++ out }) ∧
      ∀ (u : Nat) (gd : Int) (r : State E) (d : Conn) (mem : Nat → PacketHeader × Option Payload),
        r.conns gd = some d → d.input = out → d.ended = true →
        Total (reliable E) u (receiveAll gd mem (ps.length + 1) 0) (fun rs _ =>
          rs.map report =
            (qs.map fun q : Packet => (0, some q.parts)) ++ [(-1, none)]) r) s := by
  refine (total_sendAll hc).mono ?_
  rintro sent s' ⟨qs, hqs, rfl, rfl⟩
  refine ⟨qs, Packet.encode qs, hqs, rfl, rfl, ?_⟩
  intro u gd r d mem hd hinput hend
  have hparse : Packet.parse d.input = (qs, []) := by rw [hinput, Packet.parse_encode]
  refine (total_receiveAll mem _ hd hend (by rw [hparse])).mono fun rs _ hrs => ?_
  rw [hrs, hparse, hqs.length_eq]
  simp [List.take_append]

/-- A process whose only connection is `fd`, with `input` to be read. -/
def connected (fd : Int) (input : List UInt8) : State (.fixed 1 1) :=
  (State.init _ () 4).setConn fd (some ⟨0, input, true, false, []⟩)

def loginPacket : Packet := ⟨⟨1, 0, htons 1, 0, 0⟩, [97], by decide⟩

def depositPacket : Packet := ⟨⟨PacketType.deposit.code, 0, htons 4, 0, 0⟩, [0, 0, 0, 5], by decide⟩

/-- Two packets are sent on one connection and received from another, with their payloads. -/
theorem login_and_deposit_delivered :
    ∃ sent s' out, Runs (machine (.fixed 1 1)) (reliable _).ok 0
        (sendAll 3 [loginPacket, depositPacket]) (connected 3 []) sent s' ∧
      (s'.conns 3).map Conn.output = some out ∧
      ∃ rs r', Runs (machine (.fixed 1 1)) (reliable _).ok 1
          (receiveAll 4 (fun _ => (.zero, none)) 3 0) (connected 4 out) rs r' ∧
        rs.map (fun r => ((report r).1, (report r).2.map Prod.snd)) =
          [(0, some [97]), (0, some [0, 0, 0, 5]), (-1, none)] := by
  obtain ⟨sent, s', hrun, qs, out, hqs, _, rfl, hrecv⟩ :=
    (packets_delivered (t := 0) [loginPacket, depositPacket]
      (show (connected 3 []).conns 3 = some _ from State.setConn_conns _ 3 _)).exists_runs
  obtain ⟨rs, r', hrun', hrs⟩ := (hrecv 1 4 (connected 4 out) _ (fun _ => (.zero, none))
    (State.setConn_conns _ 4 _) rfl rfl).exists_runs
  refine ⟨sent, _, out, hrun, by simp, rs, r', hrun', ?_⟩
  obtain ⟨q₁, rest, ⟨h₁, _⟩, hrest, rfl⟩ := List.forall₂_cons_left_iff.mp hqs
  obtain ⟨q₂, none, ⟨h₂, _⟩, hnone, rfl⟩ := List.forall₂_cons_left_iff.mp hrest
  obtain rfl := List.forall₂_nil_left_iff.mp hnone
  have hmap := congrArg (List.map fun x => (x.1, x.2.map Prod.snd)) hrs
  rw [List.map_map] at hmap
  refine hmap.trans ?_
  simp [Packet.parts, h₁, h₂, loginPacket, depositPacket]

/-! ## Streams that end in the middle of a packet -/

/-- All runs accept the packets of the stream and no others exactly if there is no fragment. -/
theorem accepted_iff {t : Nat} {fd : Int} {s : State E} {c : Conn} (hc : s.conns fd = some c)
    (hend : c.ended = true) :
    (∀ mem n rs s', Runs (machine E) (reliable E).ok t (receiveAll fd mem n 0) s rs s' →
      rs.filterMap (fun r => (report r).2) =
        ((Packet.parse c.input).1.take n).map Packet.parts) ↔ (Packet.parse c.input).2 = [] := by
  constructor
  · intro h
    by_contra hrest
    obtain ⟨rs, s', hrun, hlen⟩ := (total_receiveAll_fragment (t := t)
      (fun _ => (.zero, none)) (i := 0) hc hend rfl hrest).exists_runs
    rw [h _ _ _ _ hrun] at hlen
    simp at hlen
  · intro hrest mem n rs s' hrun
    have hrs := (total_receiveAll mem n hc hend hrest).of_runs hrun
    have hmap := congrArg (List.filterMap Prod.snd) hrs
    rw [List.filterMap_map] at hmap
    refine Eq.trans hmap ?_
    have hnone : ∀ m, (List.replicate m ((-1 : Int),
        (none : Option (PacketHeader × List UInt8)))).filterMap Prod.snd = [] := by simp
    rw [List.take_append, List.filterMap_append, ← List.map_take, List.filterMap_map,
      List.take_replicate, hnone, List.append_nil]
    exact congrFun (List.filterMap_eq_map (f := Packet.parts)) _

/-- A stream of one packet has no fragment, so the packet is all that is accepted. -/
theorem login_accepted :
    ∃ rs s', Runs (machine (.fixed 1 1)) (reliable _).ok 0
        (receiveAll 3 (fun _ => (.zero, none)) 2 0)
        (connected 3 (Packet.encode [loginPacket])) rs s' ∧
      rs.filterMap (fun r => (report r).2) = [loginPacket.parts] := by
  have hparse := Packet.parse_encode [loginPacket]
  have hconn : (connected 3 (Packet.encode [loginPacket])).conns 3 =
      some ⟨0, Packet.encode [loginPacket], true, false, []⟩ := State.setConn_conns _ 3 _
  obtain ⟨rs, s', hrun, _⟩ := (total_receiveAll (t := 0) (fun _ => (.zero, none)) 2 (i := 0)
    hconn rfl (by rw [hparse])).exists_runs
  have h := (accepted_iff hconn rfl).mpr (by rw [hparse]) _ _ _ _ hrun
  simp only [hparse] at h
  exact ⟨rs, s', hrun, h⟩

/-- The header of a deposit and two of its four bytes. -/
def truncatedDeposit : List UInt8 := (packet .deposit [0, 0, 0, 5]).take 14

/-- There is no complete packet in it, and one packet is accepted. -/
theorem truncated_deposit_accepted :
    ∃ rs s', Runs (machine (.fixed 1 1)) (reliable _).ok 0
        (receiveAll 3 (fun _ => (.zero, none)) 1 0) (connected 3 truncatedDeposit) rs s' ∧
      rs.filterMap (fun r => (report r).2) ≠
        ((Packet.parse truncatedDeposit).1.take 1).map Packet.parts := by
  have hparse : Packet.parse truncatedDeposit = ([], truncatedDeposit) :=
    Packet.parse_of_front_eq_none (by decide)
  obtain ⟨rs, s', hrun, hlen⟩ := (total_receiveAll_fragment (t := 0)
    (fun _ => (.zero, none)) (i := 0)
    (show (connected 3 truncatedDeposit).conns 3 = some _ from State.setConn_conns _ 3 _)
    rfl hparse (by decide)).exists_runs
  refine ⟨rs, s', hrun, fun h => ?_⟩
  rw [h, hparse] at hlen
  simp at hlen

end BourseServer
