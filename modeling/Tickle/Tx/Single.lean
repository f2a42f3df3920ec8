import Tickle.Tx.Walk
import Tickle.Discovery.Entity

/-! # The single-submessage form

A datagram of one submessage to everyone leaves with one header where the classic form has two. `process_packet()` takes
either form; what it does with the datagram's header and with each submessage is here in full, and the handlers of the
submessage types are a parameter. A context holds all that a datagram can change: `rest` is the part only the handlers know,
with what they sent and the callbacks they made.
-/

namespace Tickle

def ByteOrder.other : ByteOrder → ByteOrder
  | .little => .big
  | .big => .little

namespace Receive

/-! ## The receiving context -/

/-- What the build compiles in. -/
structure Options where
  contextIdClaim : Bool
  discoveryOptions : Bool
  segmentEnabled : Bool
  largeShm : Bool
  fragEnabled : Bool
  runsReceivable : Bool
  deriving DecidableEq, Repr

inductive Transport where
  | udp | shm
  deriving DecidableEq, Repr

/-- `enum tt_DiscoveryRange`. -/
inductive DiscoveryRange where
  | off | localhost | subnet
  deriving DecidableEq, Repr

/-- `struct _tt_Link`, as `sender_in_range()` reads it. -/
structure Link where
  resolved : Bool
  peer : Bool
  resolvedAddr : UInt32
  resolvedNetmask : UInt32
  deriving DecidableEq, Repr

/-- Where a datagram came from, and over what. -/
structure Origin where
  ip : UInt32
  port : UInt16
  transport : Transport
  deriving DecidableEq, Repr

/-- `struct tt_Header`. -/
structure Header where
  magic : List UInt8
  version : UInt8
  source : UInt8
  deriving DecidableEq, Repr

/-- `struct tt_Context`. -/
structure Context (σ : Type) where
  id : UInt8
  discoveryRange : DiscoveryRange
  links : List Link
  rxNow : Nat
  rxViaDataPort : Bool
  rxTargeted : Bool
  rxSelfSent : Nat
  rxSelfSentData : Nat
  rxSelfSentDataUnicast : Nat
  rxOutOfRange : Nat
  rxShmOnlyOnSocket : Nat
  rxMalformedDrops : Nat
  fragDropped : Nat
  fragLargeSkipped : Nat
  versionMismatchLogged : UInt8 → UInt8
  versionMismatchDrops : Nat
  idsSeen : UInt8 → Bool
  trafficLastSeen : UInt8 → Nat
  sourceLapsed : UInt8 → Bool
  rest : σ

/-- What a datagram's submessages are handed to, and what else `process_packet()` calls on. -/
structure Handlers (σ : Type) where
  host : ByteOrder
  isOwnAddress : Context σ → UInt32 → UInt16 → Bool
  handleIdCollision : UInt32 → UInt16 → Context σ → Context σ
  reviveLapsedEntities : UInt8 → Nat → Context σ → Context σ
  segmentFenceArrived : List UInt8 → Context σ → Context σ
  processData : Header → List UInt8 → Origin → Context σ → Context σ
  processAcknack : Header → List UInt8 → Origin → Context σ → Context σ
  processHeartbeat : Header → List UInt8 → Origin → Context σ → Context σ
  processCallrequest : Header → List UInt8 → Origin → Context σ → Context σ
  processCallresponse : Header → List UInt8 → Context σ → Context σ
  processFrag : Header → List UInt8 → UInt8 → Origin → Context σ → Context σ
  processFragLarge : Header → List UInt8 → UInt8 → Origin → Context σ → Context σ
  processFragRun : Header → List UInt8 → Origin → Context σ → Context σ
  processFragRunLarge : Header → List UInt8 → Origin → Context σ → Context σ
  processLargeRef : Header → List UInt8 → Origin → Context σ → Context σ

variable {σ : Type}

/-! ## A submessage -/

/-- `tt_SUBMESSAGE_TYPE_DATA`. -/
def typeData : UInt8 := 2
/-- `tt_SUBMESSAGE_TYPE_ACKNACK`. -/
def typeAcknack : UInt8 := 3
/-- `tt_SUBMESSAGE_TYPE_CALLREQUEST`. -/
def typeCallrequest : UInt8 := 4
/-- `tt_SUBMESSAGE_TYPE_CALLRESPONSE`. -/
def typeCallresponse : UInt8 := 5
/-- `tt_SUBMESSAGE_TYPE_HEARTBEAT`. -/
def typeHeartbeat : UInt8 := 6
/-- `tt_SUBMESSAGE_TYPE_FRAG_FIRST`. -/
def typeFragFirst : UInt8 := 8
/-- `tt_SUBMESSAGE_TYPE_FRAG_CONT`. -/
def typeFragCont : UInt8 := 9
/-- `tt_SUBMESSAGE_TYPE_SHM_DATA`. -/
def typeShmData : UInt8 := 10
/-- `tt_SUBMESSAGE_TYPE_FRAG_FIRST_L`. -/
def typeFragFirstL : UInt8 := 11
/-- `tt_SUBMESSAGE_TYPE_FRAG_CONT_L`. -/
def typeFragContL : UInt8 := 12
/-- `tt_SUBMESSAGE_TYPE_LARGE_REF`. -/
def typeLargeRef : UInt8 := 13
/-- `tt_SUBMESSAGE_TYPE_FRAG_RUN_L`. -/
def typeFragRunL : UInt8 := 14
/-- `tt_SUBMESSAGE_TYPE_FRAG_RUN`. -/
def typeFragRun : UInt8 := 15

/-- A submessage that names memory, refused from the socket. -/
def refuseShmOnly (node : Context σ) : Context σ :=
  { node with
    rxShmOnlyOnSocket := node.rxShmOnlyOnSocket + 1
    rxMalformedDrops := node.rxMalformedDrops + 1 }

/-- `process_run_submessage()`. -/
def processRunSubmessage (o : Options) (h : Handlers σ) (header : Header) (body : List UInt8) (type : UInt8)
    (origin : Origin) (selfSent : Bool) (node : Context σ) : Context σ :=
  if selfSent then node
  else if type = typeFragRunL then h.processFragRunLarge header body origin node
  else if o.fragEnabled then h.processFragRun header body origin node
  else node

/-- `run_not_receivable()`, and the unknown types that it passes on. -/
def runNotReceivable (o : Options) (type : UInt8) (selfSent : Bool) (node : Context σ) : Context σ :=
  if type ≠ typeFragRunL ∧ type ≠ typeFragRun then node
  else if selfSent then node
  else if type = typeFragRunL then { node with fragLargeSkipped := node.fragLargeSkipped + 1 }
  else if o.fragEnabled then { node with fragDropped := node.fragDropped + 1 }
  else node

/-- `process_large_ref_submessage()`. -/
def processLargeRefSubmessage (h : Handlers σ) (header : Header) (body : List UInt8) (origin : Origin)
    (selfSent : Bool) (node : Context σ) : Context σ :=
  if origin.transport ≠ .shm then refuseShmOnly node
  else if selfSent then node
  else h.processLargeRef header body origin node

/-- `process_submessage()`, which always returns true. -/
def processSubmessage (o : Options) (h : Handlers σ) (header : Header) (body : List UInt8) (type : UInt8)
    (origin : Origin) (selfSent : Bool) (node : Context σ) : Context σ :=
  if type = typeData then
    if selfSent then node else h.processData header body origin node
  else if type = typeAcknack then
    if selfSent then node else h.processAcknack header body origin node
  else if type = typeHeartbeat then
    if selfSent then node else h.processHeartbeat header body origin node
  else if type = typeCallrequest then h.processCallrequest header body origin node
  else if type = typeCallresponse then h.processCallresponse header body node
  else if type = typeFragFirst ∨ type = typeFragCont then
    if selfSent then node else h.processFrag header body type origin node
  else if type = typeFragFirstL ∨ type = typeFragContL then
    if selfSent then node else h.processFragLarge header body type origin node
  else if type = typeShmData then
    if origin.transport ≠ .shm then refuseShmOnly node else node
  else if o.largeShm ∧ type = typeLargeRef then
    processLargeRefSubmessage h header body origin selfSent node
  else if o.runsReceivable ∧ (type = typeFragRunL ∨ type = typeFragRun) then
    processRunSubmessage o h header body type origin selfSent node
  else runNotReceivable o type selfSent node

/-- `tt_is_reverse_endian()`. -/
def Header.isReverseEndian (host : ByteOrder) (header : Header) : Bool := header.magic = host.other.magic

/-- `data_is_announce()`: `endpoint_id` and `entity_id` of `struct tt_DataHeader`. -/
def dataIsAnnounce (host : ByteOrder) (header : Header) (body : List UInt8) : Bool :=
  16 ≤ body.length ∧ UpdateEntity.rd host (header.isReverseEndian host) (body.take 4) = 0 ∧
    UpdateEntity.rd host (header.isReverseEndian host) ((body.drop 12).take 4) = 2 ^ 32 - 1

/-- `dispatch_submessage()`. A node's own samples are counted before the receiver is looked at. -/
def dispatchSubmessage (o : Options) (h : Handlers σ) (header : Header) (origin : Origin) (selfSent : Bool)
    (submessage : Submessage) (node : Context σ) : Context σ :=
  let node :=
    if selfSent ∧ submessage.type = typeData ∧ dataIsAnnounce h.host header submessage.body = false then
      { node with
        rxSelfSentData := node.rxSelfSentData + 1
        rxSelfSentDataUnicast := node.rxSelfSentDataUnicast + if node.rxViaDataPort then 1 else 0 }
    else node
  let node := { node with rxTargeted := submessage.receiver = node.id }
  if submessage.receiver ≠ toAll ∧ submessage.receiver ≠ node.id then node
  else processSubmessage o h header submessage.body submessage.type origin selfSent node

/-! ## A datagram -/

/-- `validate_packet_header()`. -/
def validatePacketHeader (host : ByteOrder) (header : Header) (node : Context σ) : Bool × Context σ :=
  if header.magic ≠ host.magic ∧ header.magic ≠ host.other.magic then (false, node)
  else if header.version ≠ version then
    (false, { node with
      versionMismatchLogged := Function.update node.versionMismatchLogged header.source header.version
      versionMismatchDrops := node.versionMismatchDrops + 1 })
  else (true, node)

/-- `sender_in_range()`. -/
def senderInRange (node : Context σ) (ip : UInt32) : Bool :=
  node.discoveryRange ≠ .off ∧
    (ip >>> 24 = 127 ∨ node.links.any fun link =>
      link.resolved ∧
        if link.peer then ip &&& link.resolvedNetmask = link.resolvedAddr &&& link.resolvedNetmask
        else ip = link.resolvedAddr)

/-- What a packet that is taken leaves as evidence of its sender. -/
def noteTraffic (h : Handlers σ) (source : UInt8) (selfSent : Bool) (node : Context σ) : Context σ :=
  if selfSent then { node with rxSelfSent := node.rxSelfSent + 1 }
  else
    let node := { node with trafficLastSeen := Function.update node.trafficLastSeen source node.rxNow }
    if node.sourceLapsed source then h.reviveLapsedEntities source node.rxNow node else node

/-- `process_packet()` from where it has the header on: `submessages` is what it does with the rest of the datagram. -/
def meetPacket (o : Options) (h : Handlers σ) (header : Header) (origin : Origin)
    (submessages : Bool → Context σ → Bool × Context σ) (node : Context σ) : Bool × Context σ :=
  let valid := (validatePacketHeader h.host header node).1
  let node := (validatePacketHeader h.host header node).2
  if valid = false then (false, node)
  else if o.discoveryOptions ∧ node.discoveryRange ≠ .subnet ∧ senderInRange node origin.ip = false then
    (true, { node with rxOutOfRange := node.rxOutOfRange + 1 })
  else
    let selfSent : Bool := header.source = node.id
    if o.contextIdClaim ∧ selfSent ∧ h.isOwnAddress node origin.ip origin.port = false then
      (true, h.handleIdCollision origin.ip origin.port node)
    else
      let node :=
        if o.contextIdClaim then { node with idsSeen := Function.update node.idsSeen header.source true } else node
      submessages selfSent (noteTraffic h header.source selfSent node)

/-- The loop of `process_one_submessage()`: each is dispatched before the next is looked for. -/
def walkSubmessages (o : Options) (h : Handlers σ) (header : Header) (origin : Origin) (selfSent : Bool)
    (bytes : List UInt8) (node : Context σ) : Bool × Context σ :=
  match bytes with
  | type :: receiver :: a :: b :: rest =>
    let length := UpdateEntity.rd h.host (header.isReverseEndian h.host) [a, b]
    if length < submessageHeaderLength ∨ rest.length + submessageHeaderLength < length then (false, node)
    else
      walkSubmessages o h header origin selfSent (rest.drop (length - submessageHeaderLength))
        (dispatchSubmessage o h header origin selfSent ⟨type, receiver, rest.take (length - submessageHeaderLength)⟩ node)
  | _ => (true, node)
termination_by bytes.length
decreasing_by
  simp only [List.length_drop, List.length_cons]
  omega

/-- `read_single_header()`: the two classic headers, the submessage with the rest of the datagram. -/
def readSingleHeader (host : ByteOrder) (marker version source type : UInt8) (body : List UInt8) :
    Option (Header × Submessage) :=
  if 65535 - submessageHeaderLength < body.length then none
  else some (⟨if marker = host.marker then host.magic else host.other.magic, version, source⟩, ⟨type, toAll, body⟩)

/-- Whether `process_packet()` reads the datagram as the single form. -/
def IsSingle (bytes : List UInt8) : Prop :=
  bytes.head? = some (ByteOrder.marker .little) ∨ bytes.head? = some (ByteOrder.marker .big)

instance (bytes : List UInt8) : Decidable (IsSingle bytes) := inferInstanceAs (Decidable (_ ∨ _))

/-- `headerless_datagram()`. -/
def headerlessDatagram (o : Options) (h : Handlers σ) (bytes : List UInt8) (node : Context σ) : Bool × Context σ :=
  if o.segmentEnabled ∧ bytes.length = 3 ∧ bytes.head? = some 0x66 then (true, h.segmentFenceArrived bytes node)
  else (false, node)

/-- The single form's branch of `process_packet()`. -/
def processSingle (o : Options) (h : Handlers σ) (origin : Origin) (bytes : List UInt8) (node : Context σ) :
    Bool × Context σ :=
  match bytes with
  | marker :: version :: source :: type :: body =>
    match readSingleHeader h.host marker version source type body with
    | none => (false, node)
    | some single =>
      meetPacket o h single.1 origin
        (fun selfSent node => (true, dispatchSubmessage o h single.1 origin selfSent single.2 node)) node
  | _ => (false, node)

/-- The classic form's. -/
def processClassic (o : Options) (h : Handlers σ) (origin : Origin) (bytes : List UInt8) (node : Context σ) :
    Bool × Context σ :=
  match bytes with
  | first :: second :: version :: source :: rest =>
    meetPacket o h ⟨[first, second], version, source⟩ origin
      (fun selfSent node => walkSubmessages o h ⟨[first, second], version, source⟩ origin selfSent rest node) node
  | _ => headerlessDatagram o h bytes node

/-- `process_packet()`: what it returns and the context it leaves. -/
def processPacket (o : Options) (h : Handlers σ) (origin : Origin) (bytes : List UInt8) (node : Context σ) :
    Bool × Context σ :=
  if IsSingle bytes then processSingle o h origin bytes node else processClassic o h origin bytes node

end Receive

/-! ## The sender's side -/

/-- `to_single_form()`: the framing that goes in place of this one, `none` where the datagram stays classic. -/
def toSingleForm (order : ByteOrder) (framing : List UInt8) (bodyLength : Nat) : Option (List UInt8) :=
  match framing with
  | _ :: _ :: version :: source :: type :: receiver :: a :: b :: rest =>
    if receiver ≠ toAll ∨ order.load [a, b] ≠ framing.length + bodyLength - 4 then none
    else some (order.marker :: version :: source :: type :: rest)
  | _ => none

/-- What is flushed with one submessage to everyone in it leaves in the single form. -/
theorem toSingleForm_packet {order : ByteOrder} {s : Submessage} (short : s.length < 65536) (all : s.receiver = toAll)
    (source : UInt8) : toSingleForm order (packet order source [s]) 0 = some (singlePacket order source s) := by
  obtain ⟨a, b, put, read⟩ := ByteOrder.read_put16 order short
  have framed : packet order source [s] =
      order.magic ++ (version :: source :: s.type :: s.receiver :: a :: b :: s.body) := by
    simp [packet, packetHeader, Submessage.frames_singleton, Submessage.frame, put]
  have loads : order.load [a, b] = s.length := by
    rw [← read]
    cases order with
    | little => simp [ByteOrder.load, ByteOrder.read16, Cursor.value]
    | big =>
      simp [ByteOrder.load, ByteOrder.read16, Cursor.value]
      omega
  rw [framed]
  cases order <;>
    (simp [toSingleForm, ByteOrder.magic, loads, all, singlePacket, Submessage.length, submessageHeaderLength]; omega)

/-! ## Both forms are met alike -/

namespace Receive

variable {σ : Type} {o : Options} {h : Handlers σ} {origin : Origin}

/-- Two bytes of the sender's, read by any host under the sender's magic. -/
theorem rd_magic (host sender : ByteOrder) (version source a b : UInt8) :
    UpdateEntity.rd host (Header.isReverseEndian host ⟨sender.magic, version, source⟩) [a, b] =
      sender.load [a, b] := by
  have forth : Cursor.swap 2 (Cursor.value [a, b]) = Cursor.value [b, a] := Cursor.swap_value rfl
  have back : Cursor.swap 2 (Cursor.value [b, a]) = Cursor.value [a, b] := Cursor.swap_value rfl
  cases host <;> cases sender <;>
    simp [UpdateEntity.rd, Header.isReverseEndian, ByteOrder.other, ByteOrder.magic, ByteOrder.load, forth, back]

/-- The single header gives the classic one back. -/
theorem readSingleHeader_marker (host sender : ByteOrder) (version source type : UInt8) {body : List UInt8}
    (short : body.length + submessageHeaderLength < 65536) :
    readSingleHeader host sender.marker version source type body =
      some (⟨sender.magic, version, source⟩, ⟨type, toAll, body⟩) := by
  have room : ¬ 65535 - submessageHeaderLength < body.length := by omega
  unfold readSingleHeader
  rw [if_neg room]
  cases host <;> cases sender <;> rfl

/-- One submessage as long as the datagram says is all the walk finds. -/
theorem walkSubmessages_single {sender : ByteOrder} {version source type receiver a b : UInt8} {body : List UInt8}
    (whole : sender.load [a, b] = body.length + submessageHeaderLength) (selfSent : Bool) (node : Context σ) :
    walkSubmessages o h ⟨sender.magic, version, source⟩ origin selfSent (type :: receiver :: a :: b :: body) node =
      (true, dispatchSubmessage o h ⟨sender.magic, version, source⟩ origin selfSent ⟨type, receiver, body⟩ node) := by
  have legal : ¬ (body.length + submessageHeaderLength < submessageHeaderLength ∨
      body.length + submessageHeaderLength < body.length + submessageHeaderLength) := by omega
  rw [walkSubmessages]
  simp only [rd_magic, whole]
  rw [if_neg legal, Nat.add_sub_cancel, List.take_length, List.drop_length, walkSubmessages]
  simp

/-- No classic header starts with a marker, in either byte order. -/
theorem not_isSingle_magic (sender : ByteOrder) (rest : List UInt8) : ¬ IsSingle (sender.magic ++ rest) := by
  cases sender <;> simp [IsSingle, ByteOrder.magic, ByteOrder.marker]

theorem isSingle_marker (sender : ByteOrder) (rest : List UInt8) : IsSingle (sender.marker :: rest) := by
  cases sender <;> simp [IsSingle]

/-- The one submessage of a classic datagram is dispatched under its header. -/
theorem processPacket_classic {sender : ByteOrder} {version source type receiver a b : UInt8} {body : List UInt8}
    (whole : sender.load [a, b] = body.length + submessageHeaderLength) (node : Context σ) :
    processPacket o h origin (sender.magic ++ (version :: source :: type :: receiver :: a :: b :: body)) node =
      meetPacket o h ⟨sender.magic, version, source⟩ origin
        (fun selfSent node => (true, dispatchSubmessage o h ⟨sender.magic, version, source⟩ origin selfSent
          ⟨type, receiver, body⟩ node)) node := by
  have walked := fun selfSent node => @walkSubmessages_single σ o h origin sender version source type receiver a b body
    whole selfSent node
  unfold processPacket
  rw [if_neg (not_isSingle_magic sender _)]
  simp only [← walked]
  cases sender <;> rfl

/-- And so is that of a single one. -/
theorem processPacket_single {sender : ByteOrder} {version source type : UInt8} {body : List UInt8}
    (short : body.length + submessageHeaderLength < 65536) (node : Context σ) :
    processPacket o h origin (sender.marker :: version :: source :: type :: body) node =
      meetPacket o h ⟨sender.magic, version, source⟩ origin
        (fun selfSent node => (true, dispatchSubmessage o h ⟨sender.magic, version, source⟩ origin selfSent
          ⟨type, toAll, body⟩ node)) node := by
  unfold processPacket
  rw [if_pos (isSingle_marker sender _), processSingle, readSingleHeader_marker _ _ _ _ _ short]

end Receive

/-- A shortened framing, and the classic one it stands for. -/
theorem toSingleForm_some {order : ByteOrder} {framing short : List UInt8} {bodyLength : Nat}
    (own : framing.take 2 = order.magic) (shortens : toSingleForm order framing bodyLength = some short) :
    ∃ version source type a b rest,
      framing = order.magic ++ (version :: source :: type :: toAll :: a :: b :: rest) ∧
      order.load [a, b] = rest.length + bodyLength + submessageHeaderLength ∧
      short = order.marker :: version :: source :: type :: rest := by
  unfold toSingleForm at shortens
  split at shortens
  next first second version source type receiver a b rest =>
    split at shortens
    · contradiction
    · rename_i qualifies
      obtain ⟨all, whole⟩ : receiver = toAll ∧ order.load [a, b] = _ := by
        simpa only [not_or, not_not] using qualifies
      refine ⟨version, source, type, a, b, rest, ?_, ?_, (Option.some.inj shortens).symm⟩
      · rw [← own, all]
        rfl
      · rw [whole]
        simp only [List.length_cons, submessageHeaderLength]
        omega
  · contradiction

theorem load_lt (order : ByteOrder) (a b : UInt8) : order.load [a, b] < 65536 := by
  have low := a.toNat_lt
  have high := b.toNat_lt
  cases order <;> simp [ByteOrder.load, Cursor.value] <;> omega

/-- A datagram that is shortened is received as the classic one would be, whoever receives it and in whatever state; one
that is left as it is is not taken for the single form. -/
theorem single_form_received_alike {σ : Type} (o : Receive.Options) (h : Receive.Handlers σ) (origin : Receive.Origin)
    (node : Receive.Context σ) (order : ByteOrder) (framing body : List UInt8) (own : framing.take 2 = order.magic) :
    (∀ short, toSingleForm order framing body.length = some short →
      Receive.processPacket o h origin (short ++ body) node =
        Receive.processPacket o h origin (framing ++ body) node) ∧
    (toSingleForm order framing body.length = none → ¬ Receive.IsSingle (framing ++ body)) := by
  constructor
  · intro short shortens
    obtain ⟨version, source, type, a, b, rest, hframing, whole, hshort⟩ := toSingleForm_some own shortens
    have length : order.load [a, b] = (rest ++ body).length + submessageHeaderLength := by
      rw [whole, List.length_append]
    have bounded : (rest ++ body).length + submessageHeaderLength < 65536 := by
      rw [← length]
      exact load_lt order a b
    have classic := @Receive.processPacket_classic σ o h origin order version source type toAll a b _ length node
    have single := @Receive.processPacket_single σ o h origin order version source type _ bounded node
    rw [hframing, hshort]
    simp only [List.append_assoc, List.cons_append]
    rw [single, classic]
  · intro _
    have starts : framing ++ body = order.magic ++ (framing.drop 2 ++ body) := by
      rw [← own, ← List.append_assoc, List.take_append_drop]
    rw [starts]
    exact Receive.not_isSingle_magic order _

/-- A context whose handlers only keep the bodies they get, newest first. -/
def keepsBodies : Receive.Handlers (List (List UInt8)) :=
  let keep := fun (body : List UInt8) (node : Receive.Context (List (List UInt8))) => { node with rest := body :: node.rest }
  { host := .big
    isOwnAddress := fun _ _ _ => false
    handleIdCollision := fun _ _ => id
    reviveLapsedEntities := fun _ _ => id
    segmentFenceArrived := fun _ => id
    processData := fun _ body _ => keep body
    processAcknack := fun _ body _ => keep body
    processHeartbeat := fun _ body _ => keep body
    processCallrequest := fun _ body _ => keep body
    processCallresponse := fun _ body => keep body
    processFrag := fun _ body _ _ => keep body
    processFragLarge := fun _ body _ _ => keep body
    processFragRun := fun _ body _ => keep body
    processFragRunLarge := fun _ body _ => keep body
    processLargeRef := fun _ body _ => keep body }

def freshContext : Receive.Context (List (List UInt8)) :=
  { id := 1, discoveryRange := .subnet, links := [], rxNow := 5, rxViaDataPort := false, rxTargeted := false
    rxSelfSent := 0, rxSelfSentData := 0, rxSelfSentDataUnicast := 0, rxOutOfRange := 0, rxShmOnlyOnSocket := 0
    rxMalformedDrops := 0, fragDropped := 0, fragLargeSkipped := 0, versionMismatchLogged := fun _ => version
    versionMismatchDrops := 0, idsSeen := fun _ => false, trafficLastSeen := fun _ => 0, sourceLapsed := fun _ => false
    rest := [] }

/-- A continuation of 5 bytes from a little-endian host, read on a big-endian one. -/
theorem unpadded_fragment_received_alike :
    toSingleForm .little [0x4b, 0x54, 14, 7, 9, 0xff, 9, 0, 1, 2] 3 = some [0x6b, 14, 7, 9, 1, 2] ∧
    (Receive.processPacket ⟨true, true, true, true, true, true⟩ keepsBodies ⟨0, 0, .udp⟩ [0x6b, 14, 7, 9, 1, 2, 3, 4, 5]
      freshContext).2.rest = [[1, 2, 3, 4, 5]] ∧
    Receive.processPacket ⟨true, true, true, true, true, true⟩ keepsBodies ⟨0, 0, .udp⟩ [0x6b, 14, 7, 9, 1, 2, 3, 4, 5]
        freshContext =
      Receive.processPacket ⟨true, true, true, true, true, true⟩ keepsBodies ⟨0, 0, .udp⟩
        [0x4b, 0x54, 14, 7, 9, 0xff, 9, 0, 1, 2, 3, 4, 5] freshContext :=
  ⟨rfl, rfl, (single_form_received_alike ⟨true, true, true, true, true, true⟩ keepsBodies ⟨0, 0, .udp⟩ freshContext
    .little [0x4b, 0x54, 14, 7, 9, 0xff, 9, 0, 1, 2] [3, 4, 5] rfl).1 _ rfl⟩

end Tickle
