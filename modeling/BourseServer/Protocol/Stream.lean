import BourseServer.Protocol.Packet

/-!
# The packets of a byte stream

A stream is divided from the front into complete packets, each a header followed by as many bytes
as the header announces, and a fragment that is not a complete packet. The encoding of a list of
packets is divided into these packets, and nothing is left.
-/
namespace BourseServer

open Bytes

/-- A header with as many payload bytes as it announces. -/
@[ext]
structure Packet where
  header : PacketHeader
  payload : List UInt8
  length_payload : payload.length = header.payloadSize
  deriving DecidableEq, Repr

namespace Packet

def toBytes (p : Packet) : List UInt8 := p.header.toBytes ++ p.payload

def encode (ps : List Packet) : List UInt8 := ps.flatMap toBytes

@[simp] theorem length_toBytes (p : Packet) :
    p.toBytes.length = headerSize + p.header.payloadSize := by
  simp [toBytes, p.length_payload]

/-- The packet at the front of the stream, if all its bytes are there. -/
def front (bs : List UInt8) : Option Packet :=
  let header := PacketHeader.ofBytes (bs.take headerSize)
  if h : headerSize + header.payloadSize ≤ bs.length then
    some ⟨header, (bs.drop headerSize).take header.payloadSize, by
      rw [List.length_take, List.length_drop]
      omega⟩
  else none

theorem length_of_front {bs : List UInt8} {p : Packet} (h : front bs = some p) :
    p.toBytes.length ≤ bs.length ∧ 0 < p.toBytes.length := by
  unfold front at h
  dsimp only at h
  split_ifs at h with hlen
  cases h
  simp only [length_toBytes, headerSize] at hlen ⊢
  omega

/-- The complete packets at the front of a stream, and the bytes after them. -/
def parse (bs : List UInt8) : List Packet × List UInt8 :=
  match _h : front bs with
  | none => ([], bs)
  | some p =>
    let r := parse (bs.drop p.toBytes.length)
    (p :: r.1, r.2)
termination_by bs.length
decreasing_by
  have := length_of_front _h
  rw [List.length_drop]
  omega

theorem parse_of_front_eq_none {bs : List UInt8} (h : front bs = none) : parse bs = ([], bs) := by
  rw [parse]
  split
  · rfl
  · simp_all

theorem parse_of_front_eq_some {bs : List UInt8} {p : Packet} (h : front bs = some p) :
    parse bs =
      (p :: (parse (bs.drop p.toBytes.length)).1, (parse (bs.drop p.toBytes.length)).2) := by
  rw [parse]
  split
  · simp_all
  · rename_i q hq
    obtain rfl : p = q := by simpa [h] using hq
    rfl

theorem front_append (p : Packet) (bs : List UInt8) : front (p.toBytes ++ bs) = some p := by
  have htake : (p.toBytes ++ bs).take headerSize = p.header.toBytes := by
    rw [toBytes, List.append_assoc, List.take_left' (by simp)]
  have hdrop : (p.toBytes ++ bs).drop headerSize = p.payload ++ bs := by
    rw [toBytes, List.append_assoc, List.drop_left' (by simp)]
  have hpay : (p.payload ++ bs).take p.header.payloadSize = p.payload :=
    List.take_left' p.length_payload
  simp [front, htake, hdrop, hpay, Nat.add_assoc]

theorem front_nil : front [] = none := by
  simp [front, headerSize]

/-- What is at the front of a stream is a part of it. -/
theorem append_of_front {bs : List UInt8} {p : Packet} (h : front bs = some p) :
    p.toBytes ++ bs.drop p.toBytes.length = bs := by
  unfold front at h
  dsimp only at h
  split_ifs at h with hlen
  cases h
  have hhead : (PacketHeader.ofBytes (bs.take headerSize)).toBytes = bs.take headerSize := by
    refine PacketHeader.toBytes_ofBytes ?_
    rw [List.length_take]
    omega
  rw [length_toBytes, toBytes, hhead, List.append_assoc]
  dsimp only
  rw [← List.drop_drop, List.take_append_drop, List.take_append_drop]

/-- The packets and the fragment make up the stream. -/
theorem encode_parse (bs : List UInt8) : encode (parse bs).1 ++ (parse bs).2 = bs := by
  induction bs using parse.induct with
  | case1 bs h => simp [parse_of_front_eq_none h, encode]
  | case2 bs p h ih =>
    rw [parse_of_front_eq_some h]
    simp only [encode, List.flatMap_cons, List.append_assoc] at ih ⊢
    rw [ih, append_of_front h]

/-- The encoding of packets is divided into these packets. -/
theorem parse_encode (ps : List Packet) : parse (encode ps) = (ps, []) := by
  induction ps with
  | nil => exact parse_of_front_eq_none front_nil
  | cons p ps ih =>
    have hfront : front (encode (p :: ps)) = some p := front_append p (encode ps)
    have hdrop : (encode (p :: ps)).drop p.toBytes.length = encode ps := by
      rw [encode, List.flatMap_cons, List.drop_left' rfl]
      rfl
    rw [parse_of_front_eq_some hfront, hdrop, ih]

theorem front_fragment (bs : List UInt8) : front (parse bs).2 = none := by
  induction bs using parse.induct with
  | case1 bs h => rwa [parse_of_front_eq_none h]
  | case2 bs p h ih => rwa [parse_of_front_eq_some h]

end Packet

end BourseServer
