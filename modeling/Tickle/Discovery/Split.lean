import Tickle.Discovery.Entity
import Tickle.Writer.Record

/-! # Announces in parts

An announce too large for one datagram is cut between entities. The plan goes over the endpoints once, in order, and says
where each part starts; an endpoint no datagram can carry is taken out of the list on the way, and a plan of too many parts is
given up. Whether a part fits is worked out from the sizes of the endpoints alone, before anything is encoded.
-/

namespace Tickle

namespace Update

/-- `update_entity_wire_size()`, of an endpoint that is there. -/
def entityWireSize (e : UpdateEntity) : Nat :=
  UpdateEntity.recordSize + 2 * 2 + (min UpdateEntity.maxStringLength e.type.toList.length + 1) +
    (min UpdateEntity.maxStringLength e.name.toList.length + 1)

/-- `submessage_bytes_fit_datagram()`. -/
def submessageBytesFitDatagram (node : Context) (bytes : Nat) : Bool := headerLength + roundup bytes ≤ node.controlMax

/-- `sizeof(struct tt_AnnounceHeader)`. -/
def announceHeaderLength : Nat := 7

/-- A submessage's header, `struct tt_DataHeader` and `struct tt_AnnounceHeader`. -/
def singleOverhead : Nat := 4 + 16 + announceHeaderLength

/-- With `struct tt_FragFirstHeader`: what every part is planned with. -/
def partOverhead : Nat := 4 + 17 + announceHeaderLength

/-- With `struct tt_FragContHeader`. -/
def contOverhead : Nat := 4 + 10 + announceHeaderLength

/-- `update_fits_single()`. -/
def updateFitsSingle (node : Context) (endpoints : List UpdateEntity) : Bool :=
  endpoints.length < 255 && submessageBytesFitDatagram node (singleOverhead + (endpoints.map entityWireSize).sum)

/-! ## The plan -/

/-- The locals of `plan_update_parts()`: the endpoints gone over, without those taken out, and where the parts so far
start. -/
structure Plan where
  endpoints : List (Option UpdateEntity)
  partStart : List Nat
  bytes : Nat
  entities : Nat

namespace Plan

def start : Plan := ⟨[], [0], partOverhead, 0⟩

/-- One round of the loop; nothing where it gives the plan up. -/
def step (node : Context) (plan : Plan) (e : UpdateEntity) : Option Plan :=
  let size := entityWireSize e
  if !submessageBytesFitDatagram node (partOverhead + size) then
    some { plan with endpoints := plan.endpoints ++ [none] }
  else if plan.entities = 255 || !submessageBytesFitDatagram node (plan.bytes + size) then
    if plan.partStart.length = updateMaxParts then none
    else some ⟨plan.endpoints ++ [some e], plan.partStart ++ [plan.endpoints.length], partOverhead + size, 1⟩
  else some ⟨plan.endpoints ++ [some e], plan.partStart, plan.bytes + size, plan.entities + 1⟩

end Plan

/-- `plan_update_parts()`: the endpoints left, and `part_start[]` up to the end of the last part. -/
def planUpdateParts (node : Context) (endpoints : List UpdateEntity) : Option (List (Option UpdateEntity) × List Nat) :=
  (endpoints.foldlM (Plan.step node) Plan.start).map fun plan =>
    (plan.endpoints, plan.partStart ++ [endpoints.length])

/-! ## The datagrams -/

/-- What `encode_string()` leaves in the buffer, where the string goes in. -/
def encodeString (order : ByteOrder) (room : Nat) (s : String) (done : Cursor.Bytes) : Option Cursor.Bytes :=
  let more := UpdateEntity.stringImage order s
  if done.length + more.length ≥ room then none else some (done ++ more)

/-- `encode_update_entities()`: `done` is what the submessage has so far, `room` the buffer's from its start. -/
def encodeUpdateEntities (order : ByteOrder) (room : Nat) :
    List (Option UpdateEntity) → (done : Cursor.Bytes) → (entityCount : Nat) → Option (Cursor.Bytes × Nat)
  | [], done, entityCount => some (done, entityCount)
  | none :: rest, done, entityCount => encodeUpdateEntities order room rest done entityCount
  | some e :: rest, done, entityCount =>
    if done.length + UpdateEntity.recordSize ≥ room then none
    else do
      let done ← encodeString order room e.type (done ++ UpdateEntity.recordImage order e)
      let done ← encodeString order room e.name done
      if entityCount + 1 = 255 then some (done, 255) else encodeUpdateEntities order room rest done (entityCount + 1)

/-- A datagram of an announce: what its headers say, and its entities. -/
structure Datagram where
  generation : Generation
  fragIndex : Nat
  fragCount : Nat
  entityCount : Nat
  overhead : Nat
  entities : Cursor.Bytes
  deriving DecidableEq

/-- What of the buffer the datagram takes, padding included. -/
def Datagram.length (d : Datagram) : Nat := headerLength + roundup (d.overhead + d.entities.length)

/-- One submessage: `overhead` bytes of headers, then the entities. -/
def encodeAnnounce (order : ByteOrder) (room : Nat) (generation : Generation) (fragIndex fragCount overhead : Nat)
    (endpoints : List (Option UpdateEntity)) : Option Datagram :=
  if overhead ≥ room then none
  else do
    let encoded ← encodeUpdateEntities order room endpoints (Cursor.zeros overhead) 0
    some ⟨generation, fragIndex, fragCount, encoded.2, overhead, encoded.1.drop overhead⟩

/-- `endpoints + part_start[p]`, up to `part_start[p + 1]`, for each part. -/
def partsOf {α : Type} (endpoints : List α) : List Nat → List (List α)
  | s :: t :: rest => (endpoints.drop s).take (t - s) :: partsOf endpoints (t :: rest)
  | _ => []

/-- `send_update_parts()`, of the parts: `room p` is what part `p` finds free in the buffer. -/
def sendUpdateParts (order : ByteOrder) (room : Nat → Nat) (generation : Generation)
    (parts : List (List (Option UpdateEntity))) : Option (List Datagram) :=
  parts.zipIdx.mapM fun part =>
    encodeAnnounce order (room part.2) generation part.2 parts.length (if part.2 = 0 then partOverhead else contOverhead)
      part.1

/-- `build_and_send_update_untagged()`: the datagrams of the announce; nothing where it fails. -/
def buildAndSendUpdate (node : Context) (order : ByteOrder) (room : Nat → Nat) (generation : Generation)
    (endpoints : List UpdateEntity) : Option (List Datagram) :=
  let whole (endpoints : List (Option UpdateEntity)) :=
    (encodeAnnounce order (room 0) generation 0 1 singleOverhead endpoints).map fun d => [d]
  if updateFitsSingle node endpoints then whole (endpoints.map some)
  else
    match planUpdateParts node endpoints with
    | none => none
    | some plan =>
      if plan.2.length - 1 ≥ 2 then sendUpdateParts order room generation (partsOf plan.1 plan.2)
      else whole plan.1

/-! ## Where the parts lie -/

/-- Where each of the parts starts, laid one behind the other from `base`, and where the last ends. -/
def starts {α : Type} (base : Nat) : List (List α) → List Nat
  | [] => [base]
  | part :: rest => base :: starts (base + part.length) rest

theorem starts_append {α : Type} (base : Nat) (parts : List (List α)) (part : List α) :
    starts base (parts ++ [part]) = starts base parts ++ [base + parts.flatten.length + part.length] := by
  induction parts generalizing base with
  | nil => simp [starts]
  | cons head rest ih =>
    simp only [List.cons_append, starts, ih, List.flatten_cons, List.length_append]
    congr 3
    omega

@[simp] theorem starts_length {α : Type} (base : Nat) (parts : List (List α)) :
    (starts base parts).length = parts.length + 1 := by
  induction parts generalizing base with
  | nil => rfl
  | cons head rest ih => simp [starts, ih]

theorem partsOf_starts {α : Type} (front : List α) (parts : List (List α)) :
    partsOf (front ++ parts.flatten) (starts front.length parts) = parts := by
  induction parts generalizing front with
  | nil => rfl
  | cons head rest ih =>
    have tail := ih (front ++ head)
    rw [List.length_append] at tail
    have cut : partsOf (front ++ (head :: rest).flatten) (starts front.length (head :: rest)) =
        ((front ++ (head :: rest).flatten).drop front.length).take head.length ::
          partsOf (front ++ (head :: rest).flatten) (starts (front.length + head.length) rest) := by
      cases rest with
      | nil => simp [starts, partsOf]
      | cons next rest => simp [starts, partsOf]
    rw [cut, List.drop_left, List.flatten_cons, List.take_left, ← List.append_assoc, tail]

/-! ## What is planned -/

/-- The endpoint fits a part of its own. -/
def fitsAlone (node : Context) (e : UpdateEntity) : Bool := submessageBytesFitDatagram node (partOverhead + entityWireSize e)

/-- What the endpoints of a part take in it. -/
def partSize (part : List (Option UpdateEntity)) : Nat := (part.reduceOption.map entityWireSize).sum

/-- A part with no more entities than its header can count, within a datagram. -/
structure FitsPart (node : Context) (part : List (Option UpdateEntity)) : Prop where
  count : part.reduceOption.length ≤ 255
  bytes : submessageBytesFitDatagram node (partOverhead + partSize part) = true

/-- The plan of the endpoints gone over: the parts closed, and the one under way. -/
structure Laid (node : Context) (gone : List UpdateEntity) (plan : Plan) (closed : List (List (Option UpdateEntity)))
    (current : List (Option UpdateEntity)) : Prop where
  endpoints : plan.endpoints = closed.flatten ++ current
  starts : plan.partStart = starts 0 closed
  closedFit : ∀ part ∈ closed, FitsPart node part
  currentFits : FitsPart node current
  bytes : plan.bytes = partOverhead + partSize current
  entities : plan.entities = current.reduceOption.length
  kept : plan.endpoints.reduceOption = gone.filter (fitsAlone node)
  gone : plan.endpoints.length = gone.length
  parts : closed.length < updateMaxParts

theorem empty_fits (node : Context) : FitsPart node [] := by
  have control := node.control_min
  refine ⟨by simp, ?_⟩
  simp [submessageBytesFitDatagram, partSize, partOverhead, headerLength, announceHeaderLength, roundup]
  omega

theorem start_laid (node : Context) : Laid node [] Plan.start [] [] where
  endpoints := rfl
  starts := rfl
  closedFit part hpart := absurd hpart List.not_mem_nil
  currentFits := empty_fits node
  bytes := rfl
  entities := rfl
  kept := rfl
  gone := rfl
  parts := by decide

variable {node : Context} {gone : List UpdateEntity} {plan plan' : Plan} {closed : List (List (Option UpdateEntity))}
  {current : List (Option UpdateEntity)} {e : UpdateEntity}

@[simp] theorem partSize_hole (part : List (Option UpdateEntity)) : partSize (part ++ [none]) = partSize part := by
  simp [partSize, List.reduceOption_append]

@[simp] theorem partSize_more (part : List (Option UpdateEntity)) (e : UpdateEntity) :
    partSize (part ++ [some e]) = partSize part + entityWireSize e := by
  simp [partSize, List.reduceOption_append]

theorem kept_hole {endpoints : List (Option UpdateEntity)}
    (kept : endpoints.reduceOption = gone.filter (fitsAlone node)) (large : fitsAlone node e = false) :
    (endpoints ++ [none]).reduceOption = (gone ++ [e]).filter (fitsAlone node) := by
  simp [List.reduceOption_append, kept, large]

theorem kept_more {endpoints : List (Option UpdateEntity)}
    (kept : endpoints.reduceOption = gone.filter (fitsAlone node)) (fits : fitsAlone node e = true) :
    (endpoints ++ [some e]).reduceOption = (gone ++ [e]).filter (fitsAlone node) := by
  simp [List.reduceOption_append, kept, fits]

theorem Laid.step (laid : Laid node gone plan closed current) (taken : plan.step node e = some plan') :
    ∃ closed' current', Laid node (gone ++ [e]) plan' closed' current' := by
  have counted : plan.partStart.length = closed.length + 1 := by rw [laid.starts, starts_length]
  unfold Plan.step at taken
  dsimp only at taken
  split at taken
  next large =>
    -- The endpoint leaves a hole in the part under way.
    cases taken
    have hole : fitsAlone node e = false := by simpa [fitsAlone] using large
    refine ⟨closed, current ++ [none], ?_⟩
    exact {
      endpoints := by rw [laid.endpoints, List.append_assoc]
      starts := laid.starts
      closedFit := laid.closedFit
      currentFits := ⟨by simpa [List.reduceOption_append] using laid.currentFits.count, by simpa using laid.currentFits.bytes⟩
      bytes := by rw [partSize_hole, laid.bytes]
      entities := by simp [List.reduceOption_append, laid.entities]
      kept := kept_hole laid.kept hole
      gone := by simp [laid.gone]
      parts := laid.parts }
  next alone =>
  have fits : fitsAlone node e = true := by simpa [fitsAlone] using alone
  split at taken
  next full =>
    split at taken
    · cases taken
    next room =>
    cases taken
    refine ⟨closed ++ [current], [some e], ?_⟩
    exact {
      endpoints := by simp [laid.endpoints]
      starts := by
        dsimp only
        rw [laid.starts, starts_append, laid.endpoints, List.length_append, Nat.zero_add]
      closedFit := by
        intro part hpart
        rcases List.mem_append.mp hpart with old | new
        · exact laid.closedFit part old
        · rw [List.mem_singleton.mp new]
          exact laid.currentFits
      currentFits := ⟨by simp, by simpa [partSize, fitsAlone] using fits⟩
      bytes := by simp [partSize]
      entities := by simp
      kept := kept_more laid.kept fits
      gone := by simp [laid.gone]
      parts := by
        have := laid.parts
        rw [List.length_append, List.length_singleton]
        omega }
  next more =>
    cases taken
    simp only [Bool.or_eq_true, decide_eq_true_eq, Bool.not_eq_true', not_or, Bool.not_eq_false] at more
    have count := laid.currentFits.count
    rw [laid.entities] at more
    refine ⟨closed, current ++ [some e], ?_⟩
    exact {
      endpoints := by rw [laid.endpoints, List.append_assoc]
      starts := laid.starts
      closedFit := laid.closedFit
      currentFits := by
        refine ⟨?_, ?_⟩
        · simp only [List.reduceOption_append, List.length_append]
          simp
          omega
        · rw [partSize_more, ← Nat.add_assoc, ← laid.bytes]
          exact more.2
      bytes := by rw [partSize_more, laid.bytes, Nat.add_assoc]
      entities := by simp [List.reduceOption_append, laid.entities]
      kept := kept_more laid.kept fits
      gone := by simp [laid.gone]
      parts := laid.parts }

theorem Laid.run {rest : List UpdateEntity} (laid : Laid node gone plan closed current)
    (planned : rest.foldlM (Plan.step node) plan = some plan') :
    ∃ closed' current', Laid node (gone ++ rest) plan' closed' current' := by
  induction rest generalizing gone plan closed current with
  | nil =>
    cases planned
    exact ⟨closed, current, by simpa using laid⟩
  | cons e rest ih =>
    rw [List.foldlM_cons] at planned
    obtain ⟨next, taken, following⟩ := Option.bind_eq_some_iff.mp planned
    obtain ⟨closed', current', laid'⟩ := laid.step taken
    obtain ⟨closed'', current'', laid''⟩ := ih laid' following
    exact ⟨closed'', current'', by simpa using laid''⟩

/-- What `plan_update_parts()` gives: the parts are the endpoints that fit a part of their own, in order, and every one is within
a datagram. -/
theorem planUpdateParts_spec {endpoints : List UpdateEntity} {planned : List (Option UpdateEntity)} {partStart : List Nat}
    (h : planUpdateParts node endpoints = some (planned, partStart)) :
    planned = (partsOf planned partStart).flatten ∧ planned.reduceOption = endpoints.filter (fitsAlone node) ∧
      (∀ part ∈ partsOf planned partStart, FitsPart node part) ∧
      partStart.length = (partsOf planned partStart).length + 1 ∧ 0 < (partsOf planned partStart).length ∧
      (partsOf planned partStart).length ≤ updateMaxParts := by
  unfold planUpdateParts at h
  obtain ⟨plan, run, same⟩ := Option.map_eq_some_iff.mp h
  cases same
  obtain ⟨closed, current, laid⟩ := (start_laid node).run run
  have total : (closed ++ [current]).flatten = plan.endpoints := by simp [laid.endpoints]
  have ends : plan.partStart ++ [endpoints.length] = starts 0 (closed ++ [current]) := by
    rw [starts_append, laid.starts]
    have len : endpoints.length = closed.flatten.length + current.length := by
      rw [← List.length_append, ← laid.endpoints, laid.gone, List.nil_append]
    rw [len, Nat.zero_add]
  have parts : partsOf plan.endpoints (plan.partStart ++ [endpoints.length]) = closed ++ [current] := by
    rw [ends, ← total]
    exact partsOf_starts [] (closed ++ [current])
  rw [parts]
  have few := laid.parts
  refine ⟨total.symm, by simpa using laid.kept, ?_, by rw [ends, starts_length], by simp, by simp; omega⟩
  intro part hpart
  rcases List.mem_append.mp hpart with old | new
  · exact laid.closedFit part old
  · rw [List.mem_singleton.mp new]
    exact laid.currentFits

/-! ## What is sent -/

/-- The entities on the wire, one behind the other. -/
def images (order : ByteOrder) (part : List UpdateEntity) : Cursor.Bytes := (part.map (UpdateEntity.image order)).flatten

theorem image_wireSize (order : ByteOrder) (e : UpdateEntity) : (e.image order).length = entityWireSize e :=
  UpdateEntity.image_length order e

theorem images_length (order : ByteOrder) (part : List UpdateEntity) :
    (images order part).length = (part.map entityWireSize).sum := by
  induction part with
  | nil => rfl
  | cons e rest ih =>
    have := image_wireSize order e
    simp only [images, List.map_cons, List.flatten_cons, List.length_append, List.sum_cons] at ih ⊢
    omega

/-- Planned sizes are the sizes encoded, so nothing planned runs out of room or of count. -/
theorem encodeUpdateEntities_spec (order : ByteOrder) {room : Nat} {part : List (Option UpdateEntity)}
    {done : Cursor.Bytes} {entityCount : Nat} (count : entityCount + part.reduceOption.length ≤ 255)
    (fits : done.length + partSize part < room) :
    encodeUpdateEntities order room part done entityCount =
      some (done ++ images order part.reduceOption, entityCount + part.reduceOption.length) := by
  induction part generalizing done entityCount with
  | nil => simp [encodeUpdateEntities, images]
  | cons entry rest ih =>
    cases entry with
    | none => exact ih count fits
    | some e =>
      have size : partSize (some e :: rest) = entityWireSize e + partSize rest := by simp [partSize]
      have whole : (e.image order).length = entityWireSize e := image_wireSize order e
      have record : (UpdateEntity.recordImage order e).length = UpdateEntity.recordSize :=
        UpdateEntity.recordImage_length order e
      have split : (e.image order).length = (UpdateEntity.recordImage order e).length +
          ((UpdateEntity.stringImage order e.type).length + (UpdateEntity.stringImage order e.name).length) := by
        rw [UpdateEntity.image, List.length_append, List.length_append]
      have typeFits : ¬ (done ++ UpdateEntity.recordImage order e).length +
          (UpdateEntity.stringImage order e.type).length ≥ room := by
        rw [List.length_append]
        omega
      have nameFits : ¬ (done ++ UpdateEntity.recordImage order e ++ UpdateEntity.stringImage order e.type).length +
          (UpdateEntity.stringImage order e.name).length ≥ room := by
        rw [List.length_append, List.length_append]
        omega
      have written : done ++ UpdateEntity.recordImage order e ++ UpdateEntity.stringImage order e.type ++
          UpdateEntity.stringImage order e.name = done ++ e.image order := by
        simp [UpdateEntity.image]
      rw [List.reduceOption_cons_of_some, List.length_cons] at count ⊢
      rw [encodeUpdateEntities, if_neg (by omega)]
      simp only [encodeString, if_neg typeFits, if_neg nameFits, Option.bind_eq_bind, Option.bind_some, written]
      split
      next last =>
        have none_ : rest.reduceOption = [] := List.length_eq_zero_iff.mp (by omega)
        simp [none_, images]
        omega
      next more =>
        rw [ih (by omega) (by rw [List.length_append]; omega)]
        simp [images, List.append_assoc]
        omega

theorem encodeAnnounce_spec (order : ByteOrder) {room overhead : Nat} {part : List (Option UpdateEntity)}
    (generation : Generation) (fragIndex fragCount : Nat) (count : part.reduceOption.length ≤ 255)
    (fits : overhead + partSize part < room) :
    encodeAnnounce order room generation fragIndex fragCount overhead part =
      some ⟨generation, fragIndex, fragCount, part.reduceOption.length, overhead, images order part.reduceOption⟩ := by
  have encoded := @encodeUpdateEntities_spec order room part (Cursor.zeros overhead) 0 (by omega) (by simpa using fits)
  rw [encodeAnnounce, if_neg (by omega), encoded]
  simp

/-- The endpoints an announce lists: all of them in one datagram, else those that fit a part of their own. -/
def announced (node : Context) (endpoints : List UpdateEntity) : List UpdateEntity :=
  if updateFitsSingle node endpoints then endpoints else endpoints.filter (fitsAlone node)

/-- The datagram carries these endpoints, as part `fragIndex` of `fragCount`, within the limit. -/
structure Datagram.Carries (node : Context) (order : ByteOrder) (generation : Generation) (fragIndex fragCount : Nat)
    (part : List UpdateEntity) (d : Datagram) : Prop where
  generation : d.generation = generation
  fragIndex : d.fragIndex = fragIndex
  fragCount : d.fragCount = fragCount
  entityCount : d.entityCount = part.length
  entities : d.entities = images order part
  limit : d.length ≤ node.controlMax

/-- A list of endpoints goes out in these datagrams: the parts are the list, in order, and each datagram carries its own. -/
structure Carried (node : Context) (order : ByteOrder) (generation : Generation) (list : List UpdateEntity)
    (parts : List (List UpdateEntity)) (datagrams : List Datagram) : Prop where
  list : parts.flatten = list
  some_ : 0 < parts.length
  few : parts.length ≤ updateMaxParts
  datagrams : List.Forall₂ (fun part d => Datagram.Carries node order generation part.2 parts.length part.1 d)
    parts.zipIdx datagrams

variable {order : ByteOrder} {room : Nat → Nat} {generation : Generation} {endpoints : List UpdateEntity}

theorem encode_carries {part : List (Option UpdateEntity)} {overhead space : Nat}
    (count : part.reduceOption.length ≤ 255)
    (bytes : submessageBytesFitDatagram node (overhead + partSize part) = true) (wide : node.controlMax ≤ space)
    (order : ByteOrder) (generation : Generation) (fragIndex fragCount : Nat) :
    ∃ d, encodeAnnounce order space generation fragIndex fragCount overhead part = some d ∧
      d.Carries node order generation fragIndex fragCount part.reduceOption := by
  simp only [submessageBytesFitDatagram, decide_eq_true_eq] at bytes
  have up := le_roundup (overhead + partSize part)
  have header : headerLength = 4 := rfl
  refine ⟨_, encodeAnnounce_spec order generation fragIndex fragCount count (by omega), rfl, rfl, rfl, rfl, rfl, ?_⟩
  unfold Datagram.length
  dsimp only
  rw [images_length]
  exact bytes

theorem FitsPart.encode {part : List (Option UpdateEntity)} (fits : FitsPart node part) {overhead space : Nat}
    (head : overhead ≤ partOverhead) (wide : node.controlMax ≤ space) (order : ByteOrder) (generation : Generation)
    (fragIndex fragCount : Nat) :
    ∃ d, encodeAnnounce order space generation fragIndex fragCount overhead part = some d ∧
      d.Carries node order generation fragIndex fragCount part.reduceOption := by
  have bytes := fits.bytes
  apply encode_carries fits.count _ wide
  simp only [submessageBytesFitDatagram, decide_eq_true_eq] at bytes ⊢
  have mono : roundup (overhead + partSize part) ≤ roundup (partOverhead + partSize part) := by
    unfold roundup
    omega
  omega

theorem mapM_each {α β : Type} {f : α → Option β} {good : α → β → Prop} {l : List α}
    (each : ∀ a ∈ l, ∃ b, f a = some b ∧ good a b) : ∃ bs, l.mapM f = some bs ∧ List.Forall₂ good l bs := by
  induction l with
  | nil => exact ⟨[], rfl, .nil⟩
  | cons a rest ih =>
    obtain ⟨b, found, goodHead⟩ := each a List.mem_cons_self
    obtain ⟨bs, others, goodRest⟩ := ih fun x hx => each x (List.mem_cons_of_mem _ hx)
    refine ⟨b :: bs, ?_, .cons goodHead goodRest⟩
    rw [List.mapM_cons, found, others]
    rfl

theorem sendUpdateParts_spec {parts : List (List (Option UpdateEntity))} (fits : ∀ part ∈ parts, FitsPart node part)
    (wide : ∀ p, node.controlMax ≤ room p) (order : ByteOrder) (generation : Generation) :
    ∃ datagrams, sendUpdateParts order room generation parts = some datagrams ∧
      List.Forall₂ (fun part d => Datagram.Carries node order generation part.2 parts.length part.1.reduceOption d)
        parts.zipIdx datagrams := by
  apply mapM_each
  intro part hpart
  have within := fits part.1 (List.fst_mem_of_mem_zipIdx hpart)
  apply within.encode _ (wide part.2)
  split
  · exact le_rfl
  · decide

theorem reduceOption_some {α : Type} (l : List α) : (l.map some).reduceOption = l := by
  induction l with
  | nil => rfl
  | cons a rest ih => rw [List.map_cons, List.reduceOption_cons_of_some, ih]

theorem reduceOption_flatten {α : Type} (parts : List (List (Option α))) :
    (parts.map List.reduceOption).flatten = parts.flatten.reduceOption := by
  induction parts with
  | nil => rfl
  | cons part rest ih => rw [List.map_cons, List.flatten_cons, ih, List.flatten_cons, List.reduceOption_append]

theorem Carried.single {list : List UpdateEntity} {d : Datagram} (carries : d.Carries node order generation 0 1 list) :
    Carried node order generation list [list] [d] where
  list := by simp
  some_ := by simp
  few := by
    change 1 ≤ updateMaxParts
    decide
  datagrams := .cons carries .nil

/-- An announce that fits, or that a plan of few enough parts fits, goes out whole. -/
theorem buildAndSendUpdate_sent (wide : ∀ p, node.controlMax ≤ room p) (order : ByteOrder) (generation : Generation)
    (possible : updateFitsSingle node endpoints = true ∨ planUpdateParts node endpoints ≠ none) :
    ∃ parts datagrams, buildAndSendUpdate node order room generation endpoints = some datagrams ∧
      Carried node order generation (announced node endpoints) parts datagrams := by
  unfold buildAndSendUpdate announced
  by_cases single : updateFitsSingle node endpoints = true
  · rw [if_pos single, if_pos single]
    have all : (endpoints.map some).reduceOption = endpoints := reduceOption_some endpoints
    simp only [updateFitsSingle, Bool.and_eq_true, decide_eq_true_eq] at single
    obtain ⟨d, encoded, carries⟩ := @encode_carries node (endpoints.map some) singleOverhead (room 0)
      (by rw [all]; omega) (by rw [partSize, all]; exact single.2) (wide 0) order generation 0 1
    rw [all] at carries
    exact ⟨[endpoints], [d], by simp [encoded], .single carries⟩
  · rw [if_neg single, if_neg single]
    obtain ⟨plan, planned⟩ := Option.ne_none_iff_exists'.mp (possible.resolve_left single)
    obtain ⟨whole, kept, fits, starts_, some_, few⟩ := planUpdateParts_spec planned
    rw [planned]
    dsimp only
    split
    next several =>
      obtain ⟨datagrams, sent, carries⟩ := sendUpdateParts_spec fits wide order generation
      refine ⟨(partsOf plan.1 plan.2).map List.reduceOption, datagrams, sent, ?_⟩
      refine ⟨?_, by simpa using some_, by simpa using few, ?_⟩
      · rw [reduceOption_flatten, ← whole, kept]
      · rw [List.zipIdx_map, List.forall₂_map_left_iff, List.length_map]
        exact carries
    next one =>
      have lone : (partsOf plan.1 plan.2).length = 1 := by omega
      obtain ⟨part, parts⟩ := List.length_eq_one_iff.mp lone
      have same : plan.1 = part := by
        rw [parts] at whole
        simpa using whole
      have within := fits part (by rw [parts]; exact List.mem_singleton_self _)
      obtain ⟨d, encoded, carries⟩ := within.encode (by decide : singleOverhead ≤ partOverhead) (wide 0) order generation 0 1
      rw [← same, kept] at carries
      refine ⟨[endpoints.filter (fitsAlone node)], [d], ?_, .single carries⟩
      rw [same, encoded]
      rfl

/-- Nothing goes out where neither is the case. -/
theorem buildAndSendUpdate_unsent (single : updateFitsSingle node endpoints = false)
    (given_up : planUpdateParts node endpoints = none) :
    buildAndSendUpdate node order room generation endpoints = none := by
  unfold buildAndSendUpdate
  rw [if_neg (by simp [single]), given_up]

end Update

end Tickle
