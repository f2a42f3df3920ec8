import Tickle.Tx.Walk

/-! # The send buffer

`struct tt_Context`'s tx_buffer: submessages are encoded one behind another behind the place of the
header, and a flush sends the first `len` bytes and moves the rest up. A datagram of one submessage to
everyone is sent in the single form, which is made in place over the buffer just before the send
(`toSingleForm`). Bytes at and past `tail` are whatever was there before.
-/

namespace Tickle

/-- What a context's sends depend on: `tt_MAX_BUFFER_LENGTH`, the node's limits, its byte order and id.
The bounds are the build's static assertions. -/
structure TxContext where
  node : Context
  maxBufferLength : Nat
  order : ByteOrder
  id : UInt8
  control_le : node.controlMax ≤ maxBufferLength
  buffer_le : maxBufferLength ≤ 65507

/-- How the sends of a datagram to its destinations went: whether any took it, and whether all did. -/
structure Sends where
  reached : Bool
  ok : Bool
  deriving DecidableEq, Repr

def Sends.fine : Sends := ⟨true, true⟩

structure TxBuffer where
  bytes : List UInt8
  tail : Nat
  deriving DecidableEq, Repr

/-- What a call on the buffer leaves: the buffer, the datagram its sends handed to the network, and
what it answers. -/
structure TxResult where
  tx : TxBuffer
  datagram : Option (List UInt8)
  ok : Bool
  deriving DecidableEq, Repr

/-- `memcpy(bytes + start, written, ...)`. -/
def overwrite (bytes : List UInt8) (start : Nat) (written : List UInt8) : List UInt8 :=
  bytes.take start ++ written ++ bytes.drop (start + written.length)

namespace TxContext

/-- `tt_TX_BUFFER_LENGTH`. -/
def txSize (ctx : TxContext) : Nat := ctx.maxBufferLength + ctx.node.maxSampleLength + 64

/-- `record_size_limit()`: a datagram's worth, or what the smallest slot among the destinations holds
when every one is a same-host peer with a segment (`slotBytes`, else 0). -/
def recordSizeLimit (ctx : TxContext) (slotBytes : Nat) : Nat :=
  max ctx.maxBufferLength (min slotBytes ctx.node.maxSampleLength)

end TxContext

/-- How `end_encode()` places the submessage it ends: padded into what is pending, at the end of it
without its padding, or padded behind it for the next datagram. -/
inductive Placing where
  | joins | unpadded | defers
  deriving DecidableEq, Repr

def TxContext.placing (ctx : TxContext) (base tail slotBytes : Nat) : Placing :=
  let padding := roundup (tail - base) - (tail - base)
  let limit := if base = headerLength then ctx.recordSizeLimit slotBytes else ctx.node.controlMax
  if tail + padding ≤ limit then .joins
  else if tail ≤ limit then .unpadded
  else .defers

namespace TxBuffer

/-- The buffer of a new context. -/
def create (ctx : TxContext) : TxBuffer := ⟨List.replicate ctx.txSize 0, headerLength⟩

/-- What is encoded and not sent. -/
def content (tx : TxBuffer) : List UInt8 := (tx.bytes.take tx.tail).drop headerLength

def rollback (tx : TxBuffer) (oldTail : Nat) : TxBuffer := { tx with tail := oldTail }

/-- `encode()` and what its caller writes into the room. -/
def encode (tx : TxBuffer) (ctx : TxContext) (written : List UInt8) : Option TxBuffer :=
  if ctx.txSize ≤ tx.tail + written.length then none
  else some ⟨overwrite tx.bytes tx.tail written, tx.tail + written.length⟩

def startEncode (tx : TxBuffer) (ctx : TxContext) (type receiver : UInt8) : Option TxBuffer :=
  tx.encode ctx [type, receiver, 0, 0]

/-- The condition of `to_single_form()` on the first `len` bytes. -/
def qualifies (order : ByteOrder) (framing : List UInt8) : Bool :=
  match framing.drop headerLength with
  | _ :: receiver :: a :: b :: _ =>
    receiver = toAll && order.read16 a b = framing.length - headerLength
  | _ => false

/-- `to_single_form()` over the buffer: the four bytes of the submessage header become the single
header, and the datagram starts there. -/
def toSingleForm (ctx : TxContext) (bytes : List UInt8) (len : Nat) : List UInt8 × Nat :=
  if qualifies ctx.order (bytes.take len) then
    (overwrite bytes headerLength
      [ctx.order.marker, bytes.getD 2 0, bytes.getD 3 0, bytes.getD headerLength 0], headerLength)
  else (bytes, 0)

def flushTx (tx : TxBuffer) (ctx : TxContext) (len slotBytes : Nat) (sends : Sends) : TxResult :=
  if len < headerLength + submessageHeaderLength then ⟨tx, none, true⟩
  else if ctx.recordSizeLimit slotBytes < len then ⟨{ tx with tail := headerLength }, none, false⟩
  else
    let bytes := overwrite tx.bytes 0 (packetHeader ctx.order ctx.id)
    let (bytes, skip) := toSingleForm ctx bytes len
    let datagram := if sends.reached then some ((bytes.take len).drop skip) else none
    if !sends.ok then ⟨{ tx with bytes := bytes }, datagram, false⟩
    else
      ⟨⟨overwrite bytes headerLength ((bytes.take tx.tail).drop len), headerLength + (tx.tail - len)⟩,
        datagram, true⟩

def setLength (tx : TxBuffer) (ctx : TxContext) (base length : Nat) : TxBuffer :=
  { tx with bytes := overwrite tx.bytes (base + 2) (ctx.order.put16 length) }

/-- `end_encode()` of the submessage that starts at `base`. -/
def endEncode (tx : TxBuffer) (ctx : TxContext) (base : Nat) (isFlush : Bool) (slotBytes : Nat)
    (sends : Sends) : TxResult :=
  let length := tx.tail - base
  let padding := roundup length - length
  if ctx.recordSizeLimit slotBytes < headerLength + roundup length then
    ⟨tx.rollback base, none, false⟩
  else
    let place := ctx.placing base tx.tail slotBytes
    let tx := { tx with bytes := overwrite tx.bytes tx.tail (List.replicate padding 0) }
    match place with
    | .joins =>
      let tx := { tx.setLength ctx base (length + padding) with tail := tx.tail + padding }
      if isFlush then tx.flushTx ctx tx.tail slotBytes sends else ⟨tx, none, true⟩
    | .unpadded => (tx.setLength ctx base length).flushTx ctx base slotBytes sends
    | .defers =>
      { tx.setLength ctx base (length + padding) with tail := tx.tail + padding }.flushTx ctx base
        slotBytes sends

/-- A submessage started, written and ended; a failure rolls back to `oldTail`. -/
def sendSubmessage (tx : TxBuffer) (ctx : TxContext) (oldTail : Nat) (type receiver : UInt8)
    (payload : List UInt8) (isFlush : Bool) (slotBytes : Nat) (sends : Sends) : TxResult :=
  match (tx.startEncode ctx type receiver).bind (·.encode ctx payload) with
  | none => ⟨tx.rollback oldTail, none, false⟩
  | some encoded =>
    let result := encoded.endEncode ctx tx.tail isFlush slotBytes sends
    if result.ok then result else { result with tx := result.tx.rollback oldTail }

/-- `send_tail_as_fragments()` of a sample encoded behind what is pending: that goes first, broadcast,
and the sample is taken out of the buffer, whose fragments are datagrams of their own. -/
def sendFragmented (tx : TxBuffer) (ctx : TxContext) (oldTail : Nat) (type : UInt8)
    (payload : List UInt8) (sends : Sends) : TxResult :=
  match (tx.startEncode ctx type toAll).bind (·.encode ctx payload) with
  | none => ⟨tx.rollback oldTail, none, false⟩
  | some encoded =>
    let length := encoded.tail - tx.tail
    let padding := roundup length - length
    let padded : TxBuffer :=
      ⟨overwrite encoded.bytes encoded.tail (List.replicate padding 0), encoded.tail + padding⟩
    if headerLength < tx.tail then
      let result := padded.flushTx ctx tx.tail 0 sends
      if result.ok then { result with tx := result.tx.rollback headerLength }
      else { result with tx := result.tx.rollback tx.tail }
    else ⟨padded.rollback tx.tail, none, true⟩

end TxBuffer

end Tickle
