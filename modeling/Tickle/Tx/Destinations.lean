import Mathlib

/-! # Where a datagram goes

A flush addresses its datagram to the peers it is for, link by link: to each of a link's peers while they are few enough, with one
broadcast on that link once they are not. With no peer to address it is broadcast on every link.
-/

namespace Tickle

namespace Destinations

/-- `struct _tt_Link`: `unicastThreshold` is what `link_threshold()` makes of the configured one. -/
structure Link where
  resolved : Bool
  resolvedAddr : BitVec 32
  resolvedNetmask : BitVec 32
  resolvedBroadcast : BitVec 32
  unicastThreshold : Nat

structure Peer where
  contextId : BitVec 8
  ip : BitVec 32
  port : BitVec 16

structure TxDestination where
  ip : BitVec 32
  port : BitVec 16
  contextId : BitVec 8
  deriving DecidableEq, Repr

/-- The links of a context and the limits it is built with. A context with no link configured has the default one. -/
structure Net where
  links : List Link
  port : BitVec 16
  maxLinkCount : Nat
  maxPeerCount : Nat
  some_ : links ≠ []
  fits : links.length ≤ maxLinkCount

/-- `tt_CONTEXT_ID_INVALID`. -/
def contextIdInvalid : BitVec 8 := 0xFF

namespace Net

variable (net : Net)

/-- `TX_MAX_DESTINATIONS`. -/
def txMaxDestinations : Nat := if net.maxPeerCount < net.maxLinkCount then net.maxLinkCount else net.maxPeerCount

/-- The loop of `link_of_ip()`, from link `i` on. -/
def linkFrom (ip : BitVec 32) : (links : List Link) → (i : Nat) → (fallback : Option Nat) → Nat
  | [], _, fallback => fallback.getD 0
  | link :: links, i, fallback =>
    if link.resolved then
      if ip &&& link.resolvedNetmask = link.resolvedAddr &&& link.resolvedNetmask then i
      else linkFrom ip links (i + 1) fallback
    else linkFrom ip links (i + 1) (fallback.or (some i))

/-- `link_of_ip()`. -/
def linkOfIp (ip : BitVec 32) : Nat := linkFrom ip net.links 0 none

/-- The broadcast of a link: the HAL's own address when it is the only one. -/
def broadcastOf (link : Link) : TxDestination :=
  if net.links.length ≤ 1 then ⟨0, 0, contextIdInvalid⟩ else ⟨link.resolvedBroadcast, net.port, contextIdInvalid⟩

/-- `broadcast_destinations()`. -/
def broadcastDestinations : List TxDestination :=
  if net.links.length ≤ 1 then [⟨0, 0, contextIdInvalid⟩]
  else net.links.map fun link => ⟨link.resolvedBroadcast, net.port, contextIdInvalid⟩

/-- `on_link`: how many of the peers are on a link. -/
def onLink (peers : Nat → Peer) (peerCount link : Nat) : Nat :=
  (List.range peerCount).countP fun i => net.linkOfIp (peers i).ip = link

/-- The last loop of `link_destinations()`, over the peers still to look at. -/
def unicastTo (peers : Nat → Peer) (link : Nat) : List Nat → List TxDestination → List TxDestination
  | [], out => out
  | i :: rest, out =>
    if net.txMaxDestinations ≤ out.length then out
    else if net.linkOfIp (peers i).ip = link then
      unicastTo peers link rest (out ++ [⟨(peers i).ip, (peers i).port, (peers i).contextId⟩])
    else unicastTo peers link rest out

/-- `link_destinations()` of the link `index`: what is written to `out` after the entries already there. -/
def linkDestinations (peers : Nat → Peer) (peerCount : Nat) (out : List TxDestination) (index : Nat) (link : Link) :
    List TxDestination :=
  let onLink := net.onLink peers peerCount index
  if onLink = 0 then out
  else if link.unicastThreshold < onLink then out ++ [net.broadcastOf link]
  else net.unicastTo peers index (List.range peerCount) out

/-- The loop of `tx_destinations()`, from link `index` on. -/
def linksFrom (peers : Nat → Peer) (peerCount : Nat) : List Link → (index : Nat) → List TxDestination → List TxDestination
  | [], _, out => out
  | link :: links, index, out =>
    linksFrom peers peerCount links (index + 1) (net.linkDestinations peers peerCount out index link)

/-- `tx_destinations()`. -/
def txDestinations (peers : Nat → Peer) (peerCount : Nat) : List TxDestination :=
  if peerCount = 0 then net.broadcastDestinations else net.linksFrom peers peerCount net.links 0 []

/-! ## Who is covered -/

/-- The peers of a link, by their places in the table. -/
def peersOn (peers : Nat → Peer) (peerCount link : Nat) : List Nat :=
  (List.range peerCount).filter fun i => net.linkOfIp (peers i).ip = link

/-- The destination covers these peers: one by its own address, on a link with few of them, or all of a link with more. -/
inductive Covers (peers : Nat → Peer) (peerCount : Nat) : TxDestination → List Nat → Prop
  | own (i : Nat) (link : Link) (here : net.links[net.linkOfIp (peers i).ip]? = some link)
      (few : net.onLink peers peerCount (net.linkOfIp (peers i).ip) ≤ link.unicastThreshold) :
      Covers peers peerCount ⟨(peers i).ip, (peers i).port, (peers i).contextId⟩ [i]
  | all (index : Nat) (link : Link) (here : net.links[index]? = some link)
      (some_ : net.peersOn peers peerCount index ≠ [])
      (many : link.unicastThreshold < net.onLink peers peerCount index) :
      Covers peers peerCount (net.broadcastOf link) (net.peersOn peers peerCount index)

variable {net} {peers : Nat → Peer} {peerCount : Nat}

theorem linkFrom_lt (ip : BitVec 32) (links : List Link) (i : Nat) (fallback : Option Nat) :
    linkFrom ip links i fallback < i + links.length ∨ linkFrom ip links i fallback = fallback.getD 0 := by
  induction links generalizing i fallback with
  | nil => exact .inr rfl
  | cons link links ih =>
    unfold linkFrom
    rw [List.length_cons]
    split
    · split
      · exact .inl (by omega)
      · rcases ih (i + 1) fallback with before | same
        · exact .inl (by omega)
        · exact .inr same
    · rcases ih (i + 1) (fallback.or (some i)) with before | same
      · exact .inl (by omega)
      · cases fallback with
        | none =>
          have here : linkFrom ip links (i + 1) (Option.or none (some i)) = i := same
          exact .inl (by omega)
        | some first => exact .inr same

/-- An address is always on some link. -/
theorem linkOfIp_lt (ip : BitVec 32) : net.linkOfIp ip < net.links.length := by
  have some_ : 0 < net.links.length := List.length_pos_iff.mpr net.some_
  rcases linkFrom_lt ip net.links 0 none with before | same
  · unfold linkOfIp
    omega
  · unfold linkOfIp
    rw [same]
    exact some_

theorem onLink_eq (link : Nat) : net.onLink peers peerCount link = (net.peersOn peers peerCount link).length := by
  unfold onLink peersOn
  exact List.countP_eq_length_filter

/-- The room that is there is enough for the peers of the link, so that the check of the loop never stops it. -/
theorem unicastTo_eq (link : Nat) (rest : List Nat) (out : List TxDestination)
    (room : out.length + (rest.filter fun i => net.linkOfIp (peers i).ip = link).length ≤ net.txMaxDestinations) :
    net.unicastTo peers link rest out =
      out ++ (rest.filter fun i => net.linkOfIp (peers i).ip = link).map
        fun i => ⟨(peers i).ip, (peers i).port, (peers i).contextId⟩ := by
  induction rest generalizing out with
  | nil =>
    rw [List.filter_nil, List.map_nil, List.append_nil]
    rfl
  | cons i rest ih =>
    unfold unicastTo
    by_cases here : net.linkOfIp (peers i).ip = link
    · rw [List.filter_cons_of_pos (by simpa using here)] at room ⊢
      rw [List.length_cons] at room
      rw [if_neg (by omega), if_pos here, ih]
      · rw [List.map_cons, List.append_assoc, List.singleton_append]
      · rw [List.length_append, List.length_singleton]
        omega
    · rw [List.filter_cons_of_neg (by simpa using here)] at room ⊢
      rw [if_neg here, ih out room]
      by_cases full : net.txMaxDestinations ≤ out.length
      · have nobody : (rest.filter fun i => net.linkOfIp (peers i).ip = link) = [] := by
          apply List.eq_nil_of_length_eq_zero
          omega
        rw [if_pos full, nobody, List.map_nil, List.append_nil]
      · rw [if_neg full]

/-- What a link adds to the destinations, and the peers each of these covers. -/
theorem linkDestinations_covers {index : Nat} {link : Link} (here : net.links[index]? = some link) (out : List TxDestination)
    (room : out.length + (net.peersOn peers peerCount index).length ≤ net.txMaxDestinations) :
    ∃ added covered, net.linkDestinations peers peerCount out index link = out ++ added ∧
      List.Forall₂ (net.Covers peers peerCount) added covered ∧ covered.flatten = net.peersOn peers peerCount index ∧
      added.length ≤ (net.peersOn peers peerCount index).length := by
  unfold linkDestinations
  have counted := @onLink_eq net peers peerCount index
  by_cases nobody : net.onLink peers peerCount index = 0
  · have empty : net.peersOn peers peerCount index = [] := List.eq_nil_of_length_eq_zero (counted ▸ nobody)
    refine ⟨[], [], ?_, List.Forall₂.nil, empty.symm, Nat.zero_le _⟩
    simp only [nobody, if_true, List.append_nil]
  · have some_ : net.peersOn peers peerCount index ≠ [] := by
      intro empty
      apply nobody
      rw [counted, empty, List.length_nil]
    simp only [nobody, if_false]
    by_cases many : link.unicastThreshold < net.onLink peers peerCount index
    · refine ⟨[net.broadcastOf link], [net.peersOn peers peerCount index], ?_, ?_, ?_, ?_⟩
      · rw [if_pos many]
      · exact List.Forall₂.cons (.all index link here some_ many) List.Forall₂.nil
      · rw [List.flatten_cons, List.flatten_nil, List.append_nil]
      · exact List.length_pos_iff.mpr some_
    · rw [if_neg many]
      refine ⟨(net.peersOn peers peerCount index).map fun i => ⟨(peers i).ip, (peers i).port, (peers i).contextId⟩,
        (net.peersOn peers peerCount index).map fun i => [i], unicastTo_eq index _ out room, ?_, ?_, ?_⟩
      · rw [List.forall₂_map_left_iff, List.forall₂_map_right_iff, List.forall₂_same]
        intro i on
        have same : net.linkOfIp (peers i).ip = index := by simpa using (List.mem_filter.mp on).2
        exact .own i link (same.symm ▸ here) (same.symm ▸ not_lt.mp many)
      · induction net.peersOn peers peerCount index with
        | nil => rfl
        | cons i rest ih => rw [List.map_cons, List.flatten_cons, ih, List.singleton_append]
      · rw [List.length_map]

/-- The peers of the links from `index` on. -/
def peersFrom (net : Net) (peers : Nat → Peer) (peerCount index count : Nat) : List Nat :=
  (List.range' index count).flatMap fun link => net.peersOn peers peerCount link

/-- What the links from `index` on add, while there is room for all of their peers. -/
theorem linksFrom_covers (links : List Link) (index : Nat) (suffix : net.links.drop index = links) (out : List TxDestination)
    (room : out.length + (net.peersFrom peers peerCount index links.length).length ≤ net.txMaxDestinations) :
    ∃ added covered, net.linksFrom peers peerCount links index out = out ++ added ∧
      List.Forall₂ (net.Covers peers peerCount) added covered ∧
      covered.flatten = net.peersFrom peers peerCount index links.length ∧
      added.length ≤ (net.peersFrom peers peerCount index links.length).length := by
  induction links generalizing index out with
  | nil => exact ⟨[], [], (List.append_nil out).symm, List.Forall₂.nil, rfl, Nat.zero_le _⟩
  | cons link links ih =>
    have here : net.links[index]? = some link := by
      rw [← List.head?_drop, suffix]
      rfl
    have rest : net.links.drop (index + 1) = links := by
      rw [← List.tail_drop, suffix]
      rfl
    have split : net.peersFrom peers peerCount index (link :: links).length =
        net.peersOn peers peerCount index ++ net.peersFrom peers peerCount (index + 1) links.length := by
      unfold peersFrom
      rw [List.length_cons, List.range'_succ, List.flatMap_cons]
    rw [split] at room ⊢
    rw [List.length_append] at room ⊢
    obtain ⟨added, covered, same, covers, flat, fewer⟩ :=
      @linkDestinations_covers net peers peerCount index link here out (by omega)
    obtain ⟨added', covered', same', covers', flat', fewer'⟩ := ih (index + 1) rest (out ++ added)
      (by rw [List.length_append]; omega)
    refine ⟨added ++ added', covered ++ covered', ?_, List.rel_append covers covers', ?_, ?_⟩
    · unfold linksFrom
      rw [same, same', List.append_assoc]
    · rw [List.flatten_append, flat, flat']
    · rw [List.length_append]
      omega

/-- Every peer is on exactly one link. -/
theorem peersFrom_perm : (net.peersFrom peers peerCount 0 net.links.length).Perm (List.range peerCount) := by
  unfold peersFrom
  rw [List.perm_ext_iff_of_nodup]
  · intro i
    simp only [List.mem_flatMap, List.mem_range'_1, peersOn, List.mem_filter, decide_eq_true_eq, List.mem_range]
    constructor
    · rintro ⟨link, -, within, -⟩
      exact within
    · intro within
      exact ⟨net.linkOfIp (peers i).ip, ⟨Nat.zero_le _, by rw [Nat.zero_add]; exact linkOfIp_lt _⟩, within, rfl⟩
  · rw [List.nodup_flatMap]
    constructor
    · intro link _
      exact List.nodup_range.filter _
    · apply List.Nodup.pairwise_of_forall_ne List.nodup_range'
      intro one _ two _ differ i inOne inTwo
      have first : net.linkOfIp (peers i).ip = one := by simpa using (List.mem_filter.mp inOne).2
      have second : net.linkOfIp (peers i).ip = two := by simpa using (List.mem_filter.mp inTwo).2
      exact differ (first.symm.trans second)
  · exact List.nodup_range

theorem Covers.some {dest : TxDestination} {covered : List Nat} (covers : net.Covers peers peerCount dest covered) :
    covered ≠ [] := by
  cases covers with
  | own i => exact List.cons_ne_nil i []
  | all index link here some_ many => exact some_

theorem covers_some {dests : List TxDestination} {covered : List (List Nat)}
    (covers : List.Forall₂ (net.Covers peers peerCount) dests covered) : ∀ peers ∈ covered, peers ≠ [] := by
  induction covers with
  | nil => exact fun _ mem => absurd mem List.not_mem_nil
  | cons first _ ih => exact List.forall_mem_cons.mpr ⟨first.some, ih⟩

/-- The destinations cover each of the peers, every peer in one of them and nobody in none. -/
structure ReachesOnce (net : Net) (peers : Nat → Peer) (peerCount : Nat) (covered : List (List Nat)) : Prop where
  covers : List.Forall₂ (net.Covers peers peerCount) (net.txDestinations peers peerCount) covered
  once : covered.flatten.Perm (List.range peerCount)
  some_ : ∀ some_ ∈ covered, some_ ≠ []

theorem linksFrom_reaches (some_ : peerCount ≠ 0) (fits : peerCount ≤ net.txMaxDestinations) :
    (∃ covered, net.ReachesOnce peers peerCount covered) ∧ (net.txDestinations peers peerCount).length ≤ peerCount := by
  have perm := @peersFrom_perm net peers peerCount
  have total : (net.peersFrom peers peerCount 0 net.links.length).length = peerCount := by
    rw [perm.length_eq, List.length_range]
  obtain ⟨added, covered, same, covers, flat, fewer⟩ :=
    @linksFrom_covers net peers peerCount net.links 0 List.drop_zero [] (by rw [total, List.length_nil]; omega)
  have dests : net.txDestinations peers peerCount = added := by
    unfold txDestinations
    rw [if_neg some_, same, List.nil_append]
  rw [total] at fewer
  refine ⟨⟨covered, ?_, flat ▸ perm, covers_some covers⟩, dests ▸ fewer⟩
  rw [dests]
  exact covers

theorem maxPeerCount_le (net : Net) : net.maxPeerCount ≤ net.txMaxDestinations := by
  unfold txMaxDestinations
  split <;> omega

theorem maxLinkCount_le (net : Net) : net.maxLinkCount ≤ net.txMaxDestinations := by
  unfold txMaxDestinations
  split <;> omega

theorem broadcastDestinations_eq (net : Net) : net.broadcastDestinations = net.links.map net.broadcastOf := by
  unfold broadcastDestinations broadcastOf
  by_cases one : net.links.length ≤ 1
  · obtain ⟨link, only⟩ : ∃ link, net.links = [link] := by
      apply List.length_eq_one_iff.mp
      have := List.length_pos_iff.mpr net.some_
      omega
    simp only [only, List.length_singleton, Nat.le_refl, if_true, List.map_cons, List.map_nil]
  · simp only [one, if_false]

/-- A link with the default threshold, not resolved, as a context without configured links has it. -/
def defaultLink : Link := ⟨false, 0, 0, 0xFFFFFFFF#32, 2⟩

theorem defaultLink_some : [defaultLink] ≠ [] := List.cons_ne_nil defaultLink []

theorem defaultLink_fits : [defaultLink].length ≤ 4 := by decide

def defaultNet : Net := ⟨[defaultLink], 11311, 4, 8, defaultLink_some, defaultLink_fits⟩

/-- The peer 10.0.0.2. -/
def onePeer : Peer := ⟨2, 0x0A000002#32, 11311⟩

end Net

end Destinations

end Tickle
