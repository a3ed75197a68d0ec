import BourseServer.Sessions.Runs

/-!
# What clients are sent

A packet for a trader goes to the connection of the thread that has stored its descriptor in this
trader, and the packets on a connection are not mixed. Both rest on the reference counts: a trader
that is in the table is not freed. The count of a new trader is added to what `malloc` has left in
its memory. If this is negative, the trader of a client is freed when the client leaves, a thread
that waits for its mutex finds another trader at the same address, and two packets are mixed.
-/
namespace BourseServer

open Concurrency Bytes

/-! ## Packets -/

/-- The packet at the front of a stream of whole packets, of which the last one may be cut short,
is one of the whole packets. -/
theorem Packet.mem_of_front {p : Packet} {ps : List Packet} {part : List UInt8}
    (hp : front (encode ps ++ part) = some p)
    (hpart : part = [] ∨ ∃ q rest, toBytes q = part ++ rest ∧ rest ≠ []) : p ∈ ps := by
  cases ps with
  | cons q ps =>
    have hq : front (encode (q :: ps) ++ part) = some q := by
      rw [encode, List.flatMap_cons, List.append_assoc]
      exact front_append q _
    obtain rfl := Option.some.inj (hp.symm.trans hq)
    exact List.mem_cons_self
  | nil =>
    have hp : front part = some p := hp
    rcases hpart with rfl | ⟨q, rest, hq, hrest⟩
    · rw [front_nil] at hp
      cases hp
    · -- the first part of a packet begins with a whole packet only if it is all of it
      have hsplit : toBytes q = toBytes p ++ (part.drop p.toBytes.length ++ rest) := by
        rw [hq, ← List.append_assoc, append_of_front hp]
      have hsame : q = p := by
        have hfront := front_append q []
        rw [List.append_nil, hsplit, front_append] at hfront
        exact (Option.some.inj hfront).symm
      rw [hsame] at hsplit
      have hnil := List.append_right_eq_self.mp hsplit.symm
      exact absurd (List.append_eq_nil_iff.mp hnil).2 hrest

variable {E : Exchange} {c : Pool (server E)} {x : E.State} {n : Nat}

/-- `user` says which trader a thread is logged in as. What thread `t` is about to write to `fd`
is a packet for a trader, and `fd` is -1 or an open connection whose thread is logged in as this
trader. -/
def SentFor (user : Nat → Option Nat) (s : State E) (t : Nat) (fd : Int) : Prop :=
  ∃ a hdr data rest, s.hist.frames t = .sendPacket a hdr data :: rest ∧
    (fd = -1 ∨ ∃ conn, s.conns fd = some conn ∧ user conn.owner = some a)

namespace Sessions

/-- Every open connection carries whole packets, each of which was to be sent, and at most the
first part of one more, whose sender holds the mutex of the trader that it is for or is the thread
that serves the connection and has not logged in. -/
def Unmixed (s : State E) : Prop :=
  ∀ fd conn, s.conns fd = some conn →
    ∃ ps part, conn.output = Packet.encode ps ++ part ∧ (∀ p ∈ ps, Genuine s.shared p) ∧
      (part = [] ∨ ∃ u p rest, Packet.toBytes p = part ++ rest ∧ rest ≠ [] ∧
        Sender s.shared u fd p)

/-! ## Packets for traders -/

/-- A packet is broadcast while the first login has not returned yet. -/
def earlyNotice : List (Pool.Stage (server (.fixed 1 1))) :=
  [.start 0 (.accept 3 (packet .login [97]) false), .drive 0 109,
    .start 2 (.client (.broadcast notice [1, 2, 3, 4])), .drive 2 11]

/-- Logins are executed one at a time, writes do not fail, and calls from outside of the module are
about traders of the table, with payloads as long as their headers say. -/
def Serial (c : Pool (server E)) : Move (server E) → Prop
  | .run t e => ∀ o k, c.prog t = .op o k → OneLogin c.state o ∧ Unbroken o e ∧
    ∀ q y, o = .exchange q → e = .exchange y →
      ∀ call ∈ q.clients (E.act q y c.state.exchange).1, Fair True c.state.shared call
  | .start _ q => ∀ call, q = .client call → Fair True c.state.shared call

/-- The count in the memory of a new trader is not negative, no count leaves the range of `int`,
and a reference that is given back from outside of the module has been taken there. -/
def CountsSound (c : Pool (server E)) : Move (server E) → Prop
  | .run t e => ∀ o k, c.prog t = .op o k → (∀ a junk, e = .trader a junk → 0 ≤ junk.ref) ∧
    (∀ a v, o = .store .ref a v → FitsInt v) ∧
    ∀ a, o = .enter (.unref a) → c.state.hist.frames t = [] → 0 < c.state.hist.outstanding a
  | .start .. => True

theorem regular_iff {m : Move (server E)} :
    Regular ⟨True, True⟩ c m ↔ Serial c m ∧ CountsSound c m := by
  cases m with
  | run t e =>
    constructor
    · intro h
      refine ⟨fun o k hp => ?_, fun o k hp => ?_⟩
      · obtain ⟨hprudent, hone, _, hwhole⟩ := h o k hp
        exact ⟨hone trivial, hwhole trivial, hprudent.fair⟩
      · obtain ⟨hcount, hrange, hbalanced, _⟩ := (h o k hp).prudent
        exact ⟨hcount, hrange, hbalanced⟩
    · rintro ⟨hs, hm⟩ o k hp
      obtain ⟨hone, hwhole, hfair⟩ := hs o k hp
      obtain ⟨hcount, hrange, hbalanced⟩ := hm o k hp
      exact ⟨⟨hcount, hrange, hbalanced, hfair⟩, fun _ => hone, fun h => absurd trivial h,
        fun _ => hwhole⟩
  | start t q => exact ⟨fun h => ⟨h, trivial⟩, fun h => h.1⟩

/-- However the sends of any number of threads are interleaved, packets are not mixed as long as
the reference counts are in order. -/
theorem packets_unmixed
    (h : Pool.ReachIf (fun c m => Serial c m ∧ CountsSound c m) (Pool.idle (State.init E x n)) c) :
    Unmixed c.state := by
  have hregular : Pool.ReachIf (Regular ⟨True, True⟩) (Pool.idle (State.init E x n)) c :=
    h.mono fun _ _ hm => regular_iff.mpr hm
  obtain ⟨g, hi, _⟩ := (holds_of_reach hregular).safe
  exact fun _ _ => hi.stream trivial

/-- The first client has been sent its acknowledgement and the header of a broadcast. -/
theorem packets_unmixed_half : ∃ (c : Pool (server (.fixed 1 1))) (conn : Conn),
    c.state.conns 3 = some conn ∧ conn.output.length = 24 ∧ Unmixed c.state := by
  obtain ⟨c, hc, ht⟩ := exists_payloadDue
  simp only [payloadDue, Bool.and_eq_true] at ht
  obtain ⟨conn, hconn, hlen⟩ := (Option.any_eq_true ..).mp ht.1.2
  exact ⟨c, conn, hconn, of_decide_eq_true hlen,
    packets_unmixed (hc.mono fun _ _ hm => regular_iff.mp hm)⟩

/-- The count in the memory of a new trader is -1. -/
def negative : Choice E → Choice E
  | .trader a junk => .trader a { junk with ref := -1 }
  | e => e

def negativeCourse : Pool.Course (server (.fixed 1 1)) where
  pick t o s := if apart t o s then some (negative (.smooth () o s)) else none
  start _ q _ := servesOrSends q

theorem negativeCourse_within : negativeCourse.Within (AmongFew Serial) where
  op {c t o k e} hp he := by
    simp only [negativeCourse] at he
    split_ifs at he with hguard
    obtain rfl := Option.some.inj he
    refine ⟨fun hc o' k' hp' => ?_, fun u e o' k' hm hp' => ?_⟩
    · obtain ⟨rfl, _⟩ := Prog.op.inj (hp.symm.trans hp')
      refine ⟨(orderly_of_apart hguard hc).apart trivial, ?_, ?_⟩
      · rintro fd bs rfl heq
        cases heq
      · rintro q y rfl - call hcall
        cases q <;> cases hcall
    · cases hm
      exact of_decide_eq_true (Bool.and_eq_true_iff.mp hguard).1
  call {c t p k} hp := by
    refine ⟨fun _ o k' hp' => ?_, fun u e o k' hm hp' => ?_⟩
    · cases hp.symm.trans hp'
    · cases hm
      cases hp.symm.trans hp'
  start {c t q} hq := by
    refine ⟨fun _ => fair_of_servesOrSends hq, fun u e o k hm => ?_⟩
    cases hm

/-- A client logs in and leaves. Thread 2 has found its trader for a broadcast, and waits for the
mutex, when `trader_logout` frees the trader. The trader of the next client gets the same memory,
with a mutex that is free. Thread 2 has sent it the header of its packet when the login
initialises the mutex, and the acknowledgement of the login is sent next. -/
def reusedMemory : List (Pool.Stage (server (.fixed 1 1))) :=
  [.start 0 (.accept 3 (packet .login [97]) true), .drive 0 121,
    .start 2 (.client (.broadcast notice [1, 2, 3, 4])), .drive 2 4, .drive 0 26,
    .start 1 (.accept 4 (packet .login [98]) false), .drive 1 103, .drive 2 7, .drive 1 21]

/-- What the second client has been sent begins with a packet that was not to be sent. -/
def mixed (c : Pool (server (.fixed 1 1))) : Bool :=
  (c.state.conns 4).any fun conn => (Packet.front conn.output).any fun p =>
    p.header.type != PacketType.nack.code &&
      c.state.shared.sends.all fun q => p.payload != q.2.take q.1.payloadSize

/-- The acknowledgement is sent between the header and the payload of the other packet. -/
theorem packets_mixed : ∃ c : Pool (server (.fixed 1 1)),
    Pool.ReachIf Serial (Pool.idle (State.init _ () 4)) c ∧ ¬ Unmixed c.state := by
  obtain ⟨c, hc, ht⟩ := Pool.exists_reach negativeCourse_within reusedMemory
    (Pool.idle (State.init _ () 4)) mixed (by decide +kernel)
  simp only [mixed, Option.any_eq_true, Bool.and_eq_true, List.all_eq_true, bne_iff_ne] at ht
  obtain ⟨conn, hconn, p, hp, htype, hpayload⟩ := ht
  refine ⟨c, (reach_few hc fun _ _ => rfl).1, fun h => ?_⟩
  obtain ⟨ps, part, hout, hgenuine, hpart⟩ := h 4 conn hconn
  rw [hout] at hp
  have hmem : p ∈ ps := by
    refine Packet.mem_of_front hp (hpart.imp_right ?_)
    rintro ⟨_, q, rest, hq, hrest, _⟩
    exact ⟨q, rest, hq, hrest⟩
  rcases hgenuine p hmem with ⟨q, hq, _, hsame⟩ | ⟨hnack, _⟩
  · exact hpayload q hq hsame
  · exact htype hnack

end Sessions

end BourseServer
