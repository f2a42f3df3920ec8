import Tickle.Discovery.Announce
import Tickle.Codec.Wire

/-! # An announced entity on the wire

Each entity of an announce is a fixed record and two strings. The record's integers are in the byte order of its sender; the
index of the entity's node has no field of its own and rides in the bits that `kind` and `qos` leave free. A string here has
one character for each byte.
-/

namespace Tickle

open Cursor

/-! ## The bits of `kind` and `qos` -/

namespace EntityKind

/-- `tt_KIND_*`. -/
def code : EntityKind → UInt8
  | .topicPublisher => 0x11
  | .topicSubscriber => 0x21
  | .serviceClient => 0x22
  | .serviceServer => 0x12
  | .node => 0x03

/-- The kind of a masked byte, where it is one. -/
def ofCode (code : UInt8) : Option EntityKind :=
  [topicPublisher, topicSubscriber, serviceClient, serviceServer, node].find? fun kind => kind.code = code

end EntityKind

/-- The bits of `endpoint_qos_bits()`. -/
def UpdateQos.bits (qos : UpdateQos) : UInt8 :=
  (if qos.reliable then 1 else 0) ||| (if qos.durable then 2 else 0) ||| (if qos.livelinessManual then 4 else 0) |||
    (if qos.keepAll then 8 else 0)

def UpdateQos.ofBits (bits : UInt8) : UpdateQos :=
  ⟨bits &&& 1 ≠ 0, bits &&& 2 ≠ 0, bits &&& 4 ≠ 0, bits &&& 8 ≠ 0⟩

namespace UpdateEntity

/-- `tt_UPDATE_KIND_MASK`. -/
def kindMask : UInt8 := 0x33

/-- `tt_UPDATE_QOS_MASK`. -/
def qosMask : UInt8 := 0x0F

/-- The high half of an index, over the bits of `kind` that are free. -/
def spreadHigh (high : UInt8) : UInt8 :=
  (if high &&& 1 ≠ 0 then 0x04 else 0) ||| (if high &&& 2 ≠ 0 then 0x08 else 0) |||
    (if high &&& 4 ≠ 0 then 0x40 else 0) ||| (if high &&& 8 ≠ 0 then 0x80 else 0)

/-- `node_index_kind_bits()`. -/
def nodeIndexKindBits (index : UInt8) : UInt8 := spreadHigh (index >>> 4)

/-- `node_index_qos_bits()`. -/
def nodeIndexQosBits (index : UInt8) : UInt8 := (index &&& qosMask) <<< 4

/-- The high half of the index, out of `kind`. -/
def nodeIndexHigh (kind : UInt8) : UInt8 :=
  (if kind &&& 0x04 ≠ 0 then 1 else 0) ||| (if kind &&& 0x08 ≠ 0 then 2 else 0) |||
    (if kind &&& 0x40 ≠ 0 then 4 else 0) ||| (if kind &&& 0x80 ≠ 0 then 8 else 0)

/-- `node_index_of_entry()`. -/
def nodeIndexOfEntry (kind qos : UInt8) : UInt8 := (nodeIndexHigh kind <<< 4) ||| (qos >>> 4)

theorem index_high (index : Fin 256) : UInt8.ofNat index >>> 4 = UInt8.ofNat (index / 16) := by
  revert index
  decide +kernel

theorem index_low (index : Fin 256) : UInt8.ofNat index &&& qosMask = UInt8.ofNat (index % 16) := by
  revert index
  decide +kernel

theorem kind_half (kind : EntityKind) (high : Fin 16) :
    EntityKind.ofCode ((kind.code ||| spreadHigh (UInt8.ofNat high)) &&& kindMask) = some kind ∧
      nodeIndexHigh (kind.code ||| spreadHigh (UInt8.ofNat high)) = UInt8.ofNat high := by
  revert high
  cases kind <;> decide +kernel

theorem qos_half (qos : UpdateQos) (low : Fin 16) :
    UpdateQos.ofBits ((qos.bits ||| UInt8.ofNat low <<< 4) &&& qosMask) = qos ∧
      (qos.bits ||| UInt8.ofNat low <<< 4) >>> 4 = UInt8.ofNat low := by
  obtain ⟨reliable, durable, manual, keepAll⟩ := qos
  revert reliable durable manual keepAll low
  decide +kernel

theorem kind_byte (kind : EntityKind) (index : Fin 256) :
    EntityKind.ofCode ((kind.code ||| nodeIndexKindBits (UInt8.ofNat index)) &&& kindMask) = some kind ∧
      nodeIndexHigh (kind.code ||| nodeIndexKindBits (UInt8.ofNat index)) = UInt8.ofNat (index / 16) := by
  unfold nodeIndexKindBits
  rw [index_high]
  exact kind_half kind ⟨index / 16, by omega⟩

theorem qos_byte (qos : UpdateQos) (index : Fin 256) :
    UpdateQos.ofBits ((qos.bits ||| nodeIndexQosBits (UInt8.ofNat index)) &&& qosMask) = qos ∧
      (qos.bits ||| nodeIndexQosBits (UInt8.ofNat index)) >>> 4 = UInt8.ofNat (index % 16) := by
  unfold nodeIndexQosBits
  rw [index_low]
  exact qos_half qos ⟨index % 16, Nat.mod_lt _ (by decide)⟩

theorem index_halves (index : Fin 256) :
    (UInt8.ofNat (index / 16) <<< 4 ||| UInt8.ofNat (index % 16)).toNat = index := by
  revert index
  decide +kernel

/-! ## Strings -/

/-- The bytes of a string, without the one that ends it. -/
def octetsOf (s : String) : Bytes := s.toList.map fun c => UInt8.ofNat c.toNat

def textOf (bytes : Bytes) : String := String.ofList (bytes.map fun b => Char.ofNat b.toNat)

/-- `tt_MAX_STRING_LENGTH`. -/
def maxStringLength : Nat := 65535

/-- `tt_MAX_NAME_LENGTH`. -/
def maxNameLength : Nat := 255

/-- The bytes of `tt_encode_string()`: a length that counts the 0, the bytes, the 0. -/
def stringImage (order : ByteOrder) (s : String) : Bytes :=
  let str := (octetsOf s).take maxStringLength
  order.store 2 (str.length + 1) ++ (str ++ [0])

/-- A framing integer: `rd16()`, `rd32()` and `rd64()`. -/
def rd (host : ByteOrder) (reverse : Bool) (bytes : Bytes) : Nat :=
  if reverse then swap bytes.length (host.load bytes) else host.load bytes

/-- `tt_decode_string()`, of the bytes up to the tail: the string's, the 0 that ends it among them, and what follows. -/
def decodeString (host : ByteOrder) (reverse : Bool) (bytes : Bytes) : Option (Bytes × Bytes) :=
  if bytes.length < 2 then none
  else
    let strLen := rd host reverse (bytes.take 2)
    let rest := bytes.drop 2
    if rest.length < strLen then none
    else if strLen = 0 ∨ rest[strLen - 1]? ≠ some 0 then none
    else some (rest.take strLen, rest.drop strLen)

/-- What the discovery table keeps of a string: `tt_MAX_NAME_LENGTH` bytes at most. -/
def kept (bytes : Bytes) : String := textOf ((bytes.takeWhile (· ≠ 0)).take maxNameLength)

/-! ## The record -/

/-- `sizeof(struct tt_UpdateEntity)`. -/
def recordSize : Nat := 40

/-- The record as `encode_update_entities()` fills it. -/
def recordImage (order : ByteOrder) (e : UpdateEntity) : Bytes :=
  order.store 4 e.endpointId ++ (order.store 4 e.entityId ++
    ([e.kind.code ||| nodeIndexKindBits (UInt8.ofNat e.nodeIndex)] ++
      ([e.qos.bits ||| nodeIndexQosBits (UInt8.ofNat e.nodeIndex)] ++ (order.store 2 e.trackingWords ++
        (order.store 8 e.deadlineDuration ++ (order.store 8 e.livelinessLeaseDuration ++
          (order.store 8 e.lifespanDuration ++ order.store 4 e.historyDepth)))))))

/-- The record as `decode_update_entities()` reads it; nothing for a kind no endpoint has. -/
def decodeRecord (host : ByteOrder) (reverse : Bool) (bytes : Bytes) : Option UpdateEntity := do
  let kindByte ← bytes[8]?
  let qosByte ← bytes[9]?
  let kind ← EntityKind.ofCode (kindByte &&& kindMask)
  return {
    endpointId := rd host reverse (bytes.take 4)
    entityId := rd host reverse ((bytes.drop 4).take 4)
    kind
    nodeIndex := (nodeIndexOfEntry kindByte qosByte).toNat
    qos := UpdateQos.ofBits (qosByte &&& qosMask)
    deadlineDuration := rd host reverse ((bytes.drop 12).take 8)
    livelinessLeaseDuration := rd host reverse ((bytes.drop 20).take 8)
    lifespanDuration := rd host reverse ((bytes.drop 28).take 8)
    historyDepth := rd host reverse ((bytes.drop 36).take 4)
    trackingWords := rd host reverse ((bytes.drop 10).take 2)
    type := ""
    name := "" }

/-- An entity whose fields the record can hold, and whose strings are C strings. -/
structure Encodable (e : UpdateEntity) : Prop where
  endpointId : e.endpointId < 2 ^ 32
  entityId : e.entityId < 2 ^ 32
  nodeIndex : e.nodeIndex < 256
  deadline : e.deadlineDuration < 2 ^ 64
  lease : e.livelinessLeaseDuration < 2 ^ 64
  lifespan : e.lifespanDuration < 2 ^ 64
  depth : e.historyDepth < 2 ^ 32
  words : e.trackingWords < 2 ^ 16
  type : ∀ c ∈ e.type.toList, 0 < c.toNat ∧ c.toNat < 256
  name : ∀ c ∈ e.name.toList, 0 < c.toNat ∧ c.toNat < 256

/-- The entity as its receiver records it. -/
def heard (e : UpdateEntity) : UpdateEntity :=
  { e with
    type := String.ofList (e.type.toList.take maxNameLength)
    name := String.ofList (e.name.toList.take maxNameLength) }

/-- An entity on the wire. -/
def image (order : ByteOrder) (e : UpdateEntity) : Bytes :=
  recordImage order e ++ (stringImage order e.type ++ stringImage order e.name)

/-- `decode_update_entities()`, of `entityCount` entities and the bytes up to the tail: the entities decoded and the one whose
strings do not. -/
def decodeEntities (host : ByteOrder) (reverse : Bool) : (entityCount : Nat) → Bytes →
    Option (List UpdateEntity × Option UpdateEntity)
  | 0, _ => some ([], none)
  | entityCount + 1, bytes =>
    if bytes.length ≤ recordSize + 4 then some ([], none)
    else do
      let e ← decodeRecord host reverse (bytes.take recordSize)
      match decodeString host reverse (bytes.drop recordSize) with
      | none => some ([], some e)
      | some (type, bytes) =>
        match decodeString host reverse bytes with
        | none => some ([], some e)
        | some (name, bytes) => do
          let following ← decodeEntities host reverse entityCount bytes
          some ({ e with type := kept type, name := kept name } :: following.1, following.2)

/-! ## What comes back -/

theorem rd_store (host sender : ByteOrder) {w n : Nat} (fits : n < 256 ^ w) :
    rd host (host ≠ sender) (sender.store w n) = n := by
  unfold rd
  by_cases same : host = sender
  · subst same
    rw [if_neg (by simp), ByteOrder.load_store, Nat.mod_eq_of_lt fits]
  · rw [if_pos (by simpa using same), ByteOrder.store_length, ByteOrder.swap_load_store same, Nat.mod_eq_of_lt fits]

@[simp] theorem recordImage_length (order : ByteOrder) (e : UpdateEntity) : (recordImage order e).length = recordSize := by
  simp [recordImage, recordSize]

theorem decodeRecord_image (host sender : ByteOrder) {e : UpdateEntity} (h : e.Encodable) :
    decodeRecord host (host ≠ sender) (recordImage sender e) = some { e with type := "", name := "" } := by
  have kindBits := kind_byte e.kind ⟨e.nodeIndex, h.nodeIndex⟩
  have qosBits := qos_byte e.qos ⟨e.nodeIndex, h.nodeIndex⟩
  have halves := index_halves ⟨e.nodeIndex, h.nodeIndex⟩
  have past : ∀ (w n k : Nat) (rest : Bytes), w ≤ k →
      (sender.store w n ++ rest).drop k = rest.drop (k - w) := by
    intro w n k rest beyond
    rw [List.drop_append, List.drop_eq_nil_of_le (by simpa using beyond), ByteOrder.store_length, List.nil_append]
  have front : ∀ (w n : Nat) (rest : Bytes), (sender.store w n ++ rest).take w = sender.store w n :=
    fun w n rest => List.take_left' (ByteOrder.store_length sender w n)
  have whole : ∀ w n : Nat, (sender.store w n).take w = sender.store w n :=
    fun w n => List.take_of_length_le (by simp)
  have read : ∀ w n : Nat, n < 2 ^ (8 * w) → rd host (!decide (host = sender)) (sender.store w n) = n := by
    intro w n fits
    rw [Nat.pow_mul] at fits
    simpa using rd_store host sender fits
  have index : (nodeIndexOfEntry (e.kind.code ||| nodeIndexKindBits (UInt8.ofNat e.nodeIndex))
      (e.qos.bits ||| nodeIndexQosBits (UInt8.ofNat e.nodeIndex))).toNat = e.nodeIndex := by
    unfold nodeIndexOfEntry
    rw [kindBits.2, qosBits.2]
    exact halves
  have kindAt : (recordImage sender e)[8]? = some (e.kind.code ||| nodeIndexKindBits (UInt8.ofNat e.nodeIndex)) := by
    simp [recordImage]
  have qosAt : (recordImage sender e)[9]? = some (e.qos.bits ||| nodeIndexQosBits (UInt8.ofNat e.nodeIndex)) := by
    simp [recordImage]
  unfold decodeRecord
  rw [kindAt, qosAt]
  simp (disch := omega) [recordImage, past, front, whole, kindBits.1, qosBits.1, index,
    read 4 _ h.endpointId, read 4 _ h.entityId, read 2 _ h.words, read 8 _ h.deadline, read 8 _ h.lease,
    read 8 _ h.lifespan, read 4 _ h.depth]

theorem decodeString_image (host sender : ByteOrder) {s : String} (short : s.toList.length < maxStringLength)
    (rest : Bytes) :
    decodeString host (host ≠ sender) (stringImage sender s ++ rest) = some (octetsOf s ++ [0], rest) := by
  have all : (octetsOf s).take maxStringLength = octetsOf s := List.take_of_length_le (by simp [octetsOf]; omega)
  have length : (octetsOf s).length = s.toList.length := List.length_map ..
  have fits : (octetsOf s).length + 1 < 256 ^ 2 := by
    unfold maxStringLength at short
    omega
  have front : (stringImage sender s ++ rest).take 2 = sender.store 2 ((octetsOf s).length + 1) := by
    rw [stringImage, all, List.append_assoc]
    exact List.take_left' (ByteOrder.store_length ..)
  have back : (stringImage sender s ++ rest).drop 2 = octetsOf s ++ [0] ++ rest := by
    rw [stringImage, all, List.append_assoc]
    exact List.drop_left' (ByteOrder.store_length ..)
  have wide : ¬ (stringImage sender s ++ rest).length < 2 := by
    simp only [stringImage, List.length_append, ByteOrder.store_length]
    omega
  unfold decodeString
  rw [if_neg wide, front, back, rd_store host sender fits]
  dsimp only
  rw [if_neg (by simp), if_neg (by simp)]
  have cut : (octetsOf s ++ [0]).length = (octetsOf s).length + 1 := by simp
  rw [List.take_left' cut, List.drop_left' cut]

theorem kept_octetsOf {s : String} (text : ∀ c ∈ s.toList, 0 < c.toNat ∧ c.toNat < 256) :
    kept (octetsOf s ++ [0]) = String.ofList (s.toList.take maxNameLength) := by
  have byte : ∀ c ∈ s.toList, (UInt8.ofNat c.toNat).toNat = c.toNat := fun c hc =>
    UInt8.toNat_ofNat_of_lt' (text c hc).2
  have unbroken : (octetsOf s ++ [0]).takeWhile (· ≠ 0) = octetsOf s := by
    rw [List.takeWhile_append_of_pos]
    · simp
    · intro b hb
      obtain ⟨c, hc, rfl⟩ := List.mem_map.mp hb
      have ends : UInt8.ofNat c.toNat ≠ 0 := by
        intro zero
        have := byte c hc
        rw [zero] at this
        exact absurd (text c hc).1 (by rw [← this]; decide)
      simpa using ends
  unfold kept textOf
  rw [unbroken, octetsOf, ← List.map_take, List.map_map]
  congr 1
  conv_rhs => rw [← List.map_id (s.toList.take maxNameLength)]
  apply List.map_congr_left
  intro c hc
  change Char.ofNat (UInt8.ofNat c.toNat).toNat = c
  rw [byte c (List.mem_of_mem_take hc), Char.ofNat_toNat]

/-- Both strings are shorter than a length on the wire can say. -/
def Short (e : UpdateEntity) : Prop :=
  e.type.toList.length < maxStringLength ∧ e.name.toList.length < maxStringLength

theorem image_length (order : ByteOrder) (e : UpdateEntity) :
    (e.image order).length = recordSize + 4 + (min maxStringLength e.type.toList.length + 1) +
      (min maxStringLength e.name.toList.length + 1) := by
  simp [image, stringImage, octetsOf]
  omega

/-- What an announce lists comes back, whatever follows it and whichever byte order either end has. -/
theorem decodeEntities_images (host sender : ByteOrder) {es : List UpdateEntity} (good : ∀ e ∈ es, e.Encodable)
    (short : ∀ e ∈ es, e.Short) (rest : Bytes) :
    decodeEntities host (host ≠ sender) es.length ((es.map (image sender)).flatten ++ rest) =
      some (es.map heard, none) := by
  induction es with
  | nil => rfl
  | cons e es ih =>
    obtain ⟨goodHead, goodRest⟩ := List.forall_mem_cons.mp good
    obtain ⟨shortHead, shortRest⟩ := List.forall_mem_cons.mp short
    have bytes : ((e :: es).map (image sender)).flatten ++ rest =
        recordImage sender e ++ (stringImage sender e.type ++ (stringImage sender e.name ++
          ((es.map (image sender)).flatten ++ rest))) := by
      simp only [List.map_cons, List.flatten_cons, image, List.append_assoc]
    have front : (((e :: es).map (image sender)).flatten ++ rest).take recordSize = recordImage sender e := by
      rw [bytes]
      exact List.take_left' (recordImage_length ..)
    have back : (((e :: es).map (image sender)).flatten ++ rest).drop recordSize =
        stringImage sender e.type ++ (stringImage sender e.name ++ ((es.map (image sender)).flatten ++ rest)) := by
      rw [bytes]
      exact List.drop_left' (recordImage_length ..)
    have long : ¬ (((e :: es).map (image sender)).flatten ++ rest).length ≤ recordSize + 4 := by
      have own := e.image_length sender
      rw [List.map_cons, List.flatten_cons, List.length_append, List.length_append, own]
      omega
    rw [List.length_cons, decodeEntities, if_neg long, front, back, decodeRecord_image host sender goodHead]
    simp only [Option.bind_eq_bind, Option.bind_some]
    rw [decodeString_image host sender shortHead.1]
    dsimp only
    rw [decodeString_image host sender shortHead.2]
    dsimp only
    rw [ih goodRest shortRest, kept_octetsOf goodHead.type, kept_octetsOf goodHead.name]
    rfl

end UpdateEntity

end Tickle
