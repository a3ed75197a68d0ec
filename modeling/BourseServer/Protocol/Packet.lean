import BourseServer.Bytes.Word

/-!
# Packets of the Bourse protocol

The structures of `protocol.h` with their layout in the memory of a little-endian host. A field
holds the bits that are in memory: a multi-byte field of a packet is in network byte order, so
its value on the host is what `ntohs` or `ntohl` makes of the field.
-/
namespace BourseServer

open Bytes

def htons (x : UInt16) : UInt16 := swap16 x
def ntohs (x : UInt16) : UInt16 := swap16 x
def htonl (x : UInt32) : UInt32 := swap32 x
def ntohl (x : UInt32) : UInt32 := swap32 x

@[simp] theorem ntohs_htons (x : UInt16) : ntohs (htons x) = x := swap16_swap16 x
@[simp] theorem htons_ntohs (x : UInt16) : htons (ntohs x) = x := swap16_swap16 x
@[simp] theorem ntohl_htonl (x : UInt32) : ntohl (htonl x) = x := swap32_swap32 x
@[simp] theorem htonl_ntohl (x : UInt32) : htonl (ntohl x) = x := swap32_swap32 x

/-- `BRS_PACKET_TYPE`, in the order of the enumeration. -/
inductive PacketType where
  | noPkt
  | login | status | deposit | withdraw | escrow | release | buy | sell | cancel
  | ack | nack
  | bought | sold | posted | canceled | traded
  deriving DecidableEq, Repr

def PacketType.code (p : PacketType) : UInt8 := UInt8.ofNat p.ctorIdx

/-- `BRS_PACKET_HEADER`. The compiler puts one byte of padding before the aligned size. -/
structure PacketHeader where
  type : UInt8
  pad : UInt8
  size : UInt16
  timestampSec : UInt32
  timestampNsec : UInt32
  deriving DecidableEq, Repr

/-- `sizeof(BRS_PACKET_HEADER)` -/
def headerSize : Nat := 12

namespace PacketHeader

/-- A header after `memset(hdr, 0, sizeof(BRS_PACKET_HEADER))`. -/
def zero : PacketHeader := ⟨0, 0, 0, 0, 0⟩

def toBytes (h : PacketHeader) : List UInt8 :=
  [h.type, h.pad] ++ bytes16 h.size ++ bytes32 h.timestampSec ++ bytes32 h.timestampNsec

def ofBytes (bs : List UInt8) : PacketHeader where
  type := bs.getD 0 0
  pad := bs.getD 1 0
  size := word16 ((bs.drop 2).take 2)
  timestampSec := word32 ((bs.drop 4).take 4)
  timestampNsec := word32 ((bs.drop 8).take 4)

@[simp] theorem length_toBytes (h : PacketHeader) : h.toBytes.length = headerSize := by
  simp [toBytes, headerSize]

@[simp] theorem ofBytes_toBytes (h : PacketHeader) : ofBytes h.toBytes = h := by
  cases h with
  | mk type pad size sec nsec =>
    simp [ofBytes, toBytes, List.drop_append, List.drop_of_length_le,
      List.take_of_length_le]

theorem toBytes_ofBytes {bs : List UInt8} (h : bs.length = headerSize) :
    (ofBytes bs).toBytes = bs := by
  match bs, h with
  | [b0, b1, b2, b3, b4, b5, b6, b7, b8, b9, b10, b11], _ =>
    simp [ofBytes, toBytes, bytes16_word16, bytes32_word32]

/-- The header after the first bytes of its memory have been read from a connection. -/
def fill (h : PacketHeader) (got : List UInt8) : PacketHeader := ofBytes (overlay h.toBytes got)

/-- The number of payload bytes the header announces. -/
def payloadSize (h : PacketHeader) : Nat := (ntohs h.size).toNat

end PacketHeader

/-- `BRS_STATUS_INFO` -/
structure StatusInfo where
  balance : UInt32
  inventory : UInt32
  bid : UInt32
  ask : UInt32
  last : UInt32
  orderid : UInt32
  quantity : UInt32
  deriving DecidableEq, Repr

/-- `sizeof(BRS_STATUS_INFO)` -/
def statusSize : Nat := 28

namespace StatusInfo

def toBytes (i : StatusInfo) : List UInt8 :=
  bytes32 i.balance ++ bytes32 i.inventory ++ bytes32 i.bid ++ bytes32 i.ask ++
    bytes32 i.last ++ bytes32 i.orderid ++ bytes32 i.quantity

def ofBytes (bs : List UInt8) : StatusInfo where
  balance := word32 (bs.take 4)
  inventory := word32 ((bs.drop 4).take 4)
  bid := word32 ((bs.drop 8).take 4)
  ask := word32 ((bs.drop 12).take 4)
  last := word32 ((bs.drop 16).take 4)
  orderid := word32 ((bs.drop 20).take 4)
  quantity := word32 ((bs.drop 24).take 4)

@[simp] theorem length_toBytes (i : StatusInfo) : i.toBytes.length = statusSize := by
  simp [toBytes, statusSize]

@[simp] theorem ofBytes_toBytes (i : StatusInfo) : ofBytes i.toBytes = i := by
  cases i with
  | mk balance inventory bid ask last orderid quantity =>
    simp [ofBytes, toBytes, List.drop_append, List.drop_of_length_le,
      List.take_of_length_le]

end StatusInfo

/-- A packet of type `p` as a client sends it. -/
def packet (p : PacketType) (payload : List UInt8) : List UInt8 :=
  { PacketHeader.zero with
    type := p.code
    size := htons (UInt16.ofNat payload.length) }.toBytes ++ payload

/-! ## Request payloads

`BRS_FUNDS_INFO`, `BRS_ESCROW_INFO` and `BRS_CANCEL_INFO` are one word, `BRS_ORDER_INFO` is two.
-/

/-- The four-byte field at offset `off` of a payload struct. -/
def fieldAt (off : Nat) (bs : List UInt8) : UInt32 := word32 ((bs.drop off).take 4)

end BourseServer
