import BourseServer.Machine.Exec

/-!
# Sending and receiving packets

The two transfer loops of `csapp.c` and the two functions of `protocol.c`. A buffer is passed by
value: a receiving function returns what it has stored, also when it fails half-way.
-/
namespace BourseServer

open Concurrency Bytes

/-! ## Robust I/O -/

/-- The loop of `rio_readn`: `got` is the part of the buffer before `bufp`. -/
def readnLoop (fd : Int) (n nleft : Nat) (got : List UInt8) : Code (Int × List UInt8) :=
  if nleft > 0 then do
    match ← read fd nleft with
    | .interrupted => Prog.invoke (I := bourse) (.readn fd n nleft got)
    | .failed => pure (-1, got)
    | .data bs =>
      if bs = [] then pure (((n - nleft : Nat) : Int), got)
      else Prog.invoke (I := bourse) (.readn fd n (nleft - bs.length) (got ++ bs))
  else pure (((n - nleft : Nat) : Int), got)

/-- The result of `rio_readn` and the bytes it has put into the buffer. -/
def rioReadn (fd : Int) (n : Nat) : Code (Int × List UInt8) :=
  Prog.invoke (I := bourse) (.readn fd n n [])

/-- The loop of `rio_writen`: `rest` is the buffer from `bufp` on, so `nleft` is its length.
`write` never returns 0 for a buffer that is not empty. -/
def writenLoop (fd : Int) (n : Nat) (rest : List UInt8) : Code Int :=
  if rest.length > 0 then do
    match ← write fd rest with
    | .interrupted => Prog.invoke (I := bourse) (.writen fd n rest)
    | .failed => pure (-1)
    | .wrote k => Prog.invoke (I := bourse) (.writen fd n (rest.drop k))
  else pure (n : Int)

def rioWriten (fd : Int) (buf : List UInt8) : Code Int :=
  Prog.invoke (I := bourse) (.writen fd buf.length buf)

/-! ## Packets -/

/-- `proto_send_packet`: stamp the header, send it, and send the payload if there is one. The
result comes with the stamped header. -/
def protoSendPacket (fd : Int) (hdr : PacketHeader) (payload : List UInt8) :
    Code (Int × PacketHeader) := do
  let (sec, nsec) ← clock
  let hdr := { hdr with timestampSec := htonl sec, timestampNsec := htonl nsec }
  let rioHdr ← rioWriten fd hdr.toBytes
  if rioHdr = -1 then pure (-1, hdr)
  else if ntohs hdr.size ≠ 0 then do
    let rioPayload ← rioWriten fd (payload.take hdr.payloadSize)
    if rioPayload = -1 then pure (-1, hdr) else pure (0, hdr)
  else pure (0, hdr)

/-- `proto_recv_packet`: the result, the header memory, and the payload variable. A short read
of the header is only recognised when nothing at all was read, and a short read of the payload
is not recognised, so that the rest of the header or of the block keeps its old content. -/
def protoRecvPacket (fd : Int) (hdr : PacketHeader) (payload : Option Payload) :
    Code (Int × PacketHeader × Option Payload) := do
  let (read, got) ← rioReadn fd headerSize
  let hdr := hdr.fill got
  if read = -1 then pure (-1, hdr, payload)
  else if read = 0 then pure (-1, hdr, payload)
  else if ntohs hdr.size ≠ 0 then do
    let (block, junk) ← malloc hdr.payloadSize
    let (readStatus, got) ← rioReadn fd hdr.payloadSize
    let payload := some ⟨block, overlay junk got⟩
    if readStatus = -1 then pure (-1, hdr, payload) else pure (0, hdr, payload)
  else pure (0, hdr, payload)

end BourseServer
