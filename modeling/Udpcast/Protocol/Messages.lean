import Udpcast.Fec.Codec
import Udpcast.Lib.Word
import Mathlib.Data.Finset.Basic

/-!
# Messages

The messages of `udpc-protoc.h` that travel during a transfer. Numbers in a message stand for
the values that `htonl` and `ntohl` carry across; the two numbers of a FEC block that go through
`htons` and `ntohs` are what is left of them in 16 bits.
-/

namespace Udpcast.Protocol

open Fec (Gf)

/-- `MAX_SLICE_SIZE`. -/
def maxSliceSize : ℕ := 1024

/-- `MAX_FEC_INTERLEAVE`. -/
def maxFecInterleave : ℕ := 256

/-- `MAX_CLIENTS`. -/
def maxClients : ℕ := 1024

/-- Messages from the sender to all receivers. -/
inductive ServerMsg
  /-- `CMD_DATA`. -/
  | data (sliceNo blockNo bytes : ℕ) (payload : List Gf)
  /-- `CMD_FEC`; `stripes` and `blockNo` have 16 bits. -/
  | fec (stripes sliceNo blockNo bytes : ℕ) (payload : List Gf)
  /-- `CMD_REQACK`. -/
  | reqack (sliceNo bytes rxmit : ℕ) (readySet : Finset ℕ)
  /-- `CMD_HELLO_STREAMING`. -/
  | hello

/-- Messages from a receiver to the sender. -/
inductive ClientMsg
  /-- `CMD_OK`. -/
  | ok (sliceNo : ℕ)
  /-- `CMD_RETRANSMIT`; `rxmit` is the number in network byte order. -/
  | retransmit (sliceNo : ℕ) (rxmit : UInt32) (map : ℕ → Bool)
  /-- `CMD_DISCONNECT`. -/
  | disconnect
  /-- Any other opcode. -/
  | other

/-- The four bytes of a number in the opposite order. -/
def byteSwap (x : UInt32) : UInt32 :=
  (x <<< 24) ||| ((x &&& (0xff00 : UInt32)) <<< 8) |||
    ((x >>> 8) &&& (0xff00 : UInt32)) ||| (x >>> 24)

/-- The `int` that a host finds in a field holding `x` in network byte order, when it
reads the field without `ntohl`. -/
def rawField (bigEndian : Bool) (x : UInt32) : Int32 :=
  (if bigEndian then x else byteSwap x).toInt32

end Udpcast.Protocol
