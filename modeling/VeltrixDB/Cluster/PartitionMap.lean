import Mathlib.Data.Int.CardIntervalMod
import VeltrixDB.Cluster.Ring

/-!
# The partition map: members, replica sets and the partition table

The members of a cluster as one node sees them, following `PartitionMap` in
`cluster/partition_map.go` and `cluster/epoch.go`: changes of the
membership with their fencing epoch, the selection of replicas over racks, the
replica set of a key, and the table of partitions.

Main results:

- Theorem `picked_eq`: the two passes of the selection are two greedy walks
  around the node list.
- Theorem `pickReplicas_spread`: the selection lists distinct nodes, the node
  at the start first, over as many racks as possible.
- Theorem `placement_rackAware`: the table assigns such a set to every
  partition, with primaries balanced up to one, whatever the order in which the
  nodes are visited.
-/

namespace VeltrixDB.Cluster

open List

open scoped Bytes
open Selection

/-! ## Members -/

inductive NodeState where
  | active
  | suspect
  | failed
  | recovering
  | draining
deriving DecidableEq, Repr, Inhabited

structure Node where
  id : NodeID
  rack : List UInt8
  state : NodeState
  lastHeartbeat : Int
deriving DecidableEq, Repr, Inhabited

inductive ClusterError where
  /-- `node %s already exists` -/
  | nodeExists (nodeID : NodeID)
  /-- `node %s not found` -/
  | nodeNotFound (nodeID : NodeID)
  /-- `cluster: stale epoch` -/
  | staleEpoch
  /-- `no nodes in cluster` -/
  | noNodes
  /-- `no active nodes in cluster` -/
  | noActiveNodes
  /-- `no known nodes on ring` -/
  | noKnownNodes
  | ring (text : String)
  /-- The process stops: `replicas[0]` of an empty list. -/
  | indexOutOfRange
deriving DecidableEq, Repr

structure PartitionInfo where
  partitionID : ℕ
  hashRange : ℕ × ℕ
  primaryNode : NodeID
  replicaNodes : List NodeID
  version : ℕ
deriving DecidableEq, Repr

/-- The view that a node has of the cluster. -/
structure PartitionMap where
  version : ℕ
  nodes : List Node
  partitions : List PartitionInfo
  ring : ConsistentHashRing
  replicationFactor : ℕ
  epoch : UInt64
  configuredPartitions : ℕ

namespace PartitionMap

def new (replicationFactor virtualNodesPerNode partitionCount : ℕ) : PartitionMap where
  version := 0
  nodes := []
  partitions := []
  ring := .new virtualNodesPerNode
  replicationFactor := replicationFactor
  epoch := 0
  configuredPartitions := partitionCount

variable (pm : PartitionMap) (nodeID : NodeID)

def node? : Option Node :=
  pm.nodes.find? fun n => n.id == nodeID

def addNode (pm : PartitionMap) (nodeID : NodeID) (nowNs : Int) :
    Except ClusterError PartitionMap :=
  if (pm.node? nodeID).isSome then .error (.nodeExists nodeID)
  else
    .ok { pm with
      nodes := pm.nodes ++ [⟨nodeID, [], .active, nowNs⟩]
      ring := pm.ring.addNode nodeID
      version := pm.version + 1
      epoch := pm.epoch + 1 }

def removeNode (pm : PartitionMap) (nodeID : NodeID) : Except ClusterError PartitionMap :=
  if (pm.node? nodeID).isSome then
    .ok { pm with
      nodes := pm.nodes.filter fun n => n.id != nodeID
      ring := pm.ring.removeNode nodeID
      version := pm.version + 1
      epoch := pm.epoch + 1 }
  else .error (.nodeNotFound nodeID)

/-- Whether an operation that was decided at an epoch may still be done. -/
def validateEpoch (observed : UInt64) : Bool := !decide (observed < pm.epoch)

def advanceEpochTo (e : UInt64) : PartitionMap :=
  if pm.epoch < e then { pm with epoch := e } else pm

def addNodeWithEpoch (nowNs : Int) (observedEpoch : UInt64) : Except ClusterError PartitionMap :=
  if observedEpoch < pm.epoch then .error .staleEpoch else pm.addNode nodeID nowNs

def removeNodeWithEpoch (observedEpoch : UInt64) : Except ClusterError PartitionMap :=
  if observedEpoch < pm.epoch then .error .staleEpoch else pm.removeNode nodeID

def modifyNode (f : Node → Node) : PartitionMap :=
  { pm with nodes := pm.nodes.map fun n => if n.id = nodeID then f n else n }

def setNodeRack (rack : List UInt8) : Except ClusterError PartitionMap :=
  if (pm.node? nodeID).isSome then .ok (pm.modifyNode nodeID fun n => { n with rack := rack })
  else .error (.nodeNotFound nodeID)

def updateNodeState (newState : NodeState) : Except ClusterError PartitionMap :=
  match pm.node? nodeID with
  | none => .error (.nodeNotFound nodeID)
  | some node =>
    .ok { pm.modifyNode nodeID (fun n => { n with state := newState }) with
      version := if node.state ≠ newState then pm.version + 1 else pm.version }

def memberRacks : List (NodeID × List UInt8) :=
  pm.nodes.map fun n => (n.id, n.rack)

end PartitionMap

/-! ## Selection of replicas -/

/-- What the selection has chosen: names in order, and the racks in use. -/
structure Picked where
  replicas : List NodeID
  usedRacks : List (List UInt8)

/-- One candidate of a pass.  The first pass takes a node only if its rack is not
in use; both end when enough nodes are chosen. -/
def pickStep (rf pass : ℕ) (acc : Picked) (cand : Node) : Picked :=
  if acc.replicas.length < rf then
    if cand.id ∈ acc.replicas then acc
    else if pass = 0 ∧ 0 < acc.replicas.length ∧ cand.rack ∈ acc.usedRacks then acc
    else ⟨acc.replicas ++ [cand.id], acc.usedRacks ++ [cand.rack]⟩
  else acc

/-- One pass over the nodes, from `start` around. -/
def pickPass (nodeList : List Node) (start rf pass : ℕ) (acc : Picked) : Picked :=
  (List.range nodeList.length).foldl (fun acc off =>
    pickStep rf pass acc (nodeList.getD ((start + off) % nodeList.length) default)) acc

/-- Select up to `rf` nodes: first over distinct racks, then any. -/
def pickReplicas (nodeList : List Node) (start rf : ℕ) : List NodeID :=
  let rf := min rf nodeList.length
  (pickPass nodeList start rf 1 (pickPass nodeList start rf 0 ⟨[], []⟩)).replicas

/-- Two nodes are compatible for the first pass. -/
def OtherRack (a b : Node) : Prop := a.id ≠ b.id ∧ a.rack ≠ b.rack

/-- Two nodes are compatible for the second pass. -/
def OtherNode (a b : Node) : Prop := a.id ≠ b.id

instance : DecidableRel OtherRack := fun a b =>
  inferInstanceAs (Decidable (a.id ≠ b.id ∧ a.rack ≠ b.rack))

instance : DecidableRel OtherNode := fun a b => inferInstanceAs (Decidable (a.id ≠ b.id))

def Picked.of (kept : List Node) : Picked := ⟨kept.map Node.id, kept.map Node.rack⟩

theorem pickStep_zero (rf : ℕ) (kept : List Node) (cand : Node) :
    pickStep rf 0 (.of kept) cand = .of (if kept.length < rf then
      if ∀ b ∈ kept, OtherRack b cand then kept ++ [cand] else kept else kept) := by
  have hiff : (∀ b ∈ kept, OtherRack b cand) ↔
      ¬(cand.id ∈ kept.map Node.id) ∧ ¬(cand.rack ∈ kept.map Node.rack) := by
    simp only [OtherRack, mem_map, not_exists, not_and]
    exact ⟨fun h => ⟨fun b hb => (h b hb).1, fun b hb => (h b hb).2⟩,
      fun h b hb => ⟨h.1 b hb, h.2 b hb⟩⟩
  have hrack : cand.rack ∈ kept.map Node.rack → 0 < kept.length := by
    intro h
    rw [← length_map Node.rack]
    exact length_pos_of_mem h
  simp only [pickStep, Picked.of, length_map, hiff]
  by_cases hlen : kept.length < rf
  · by_cases hid : cand.id ∈ kept.map Node.id
    · simp [hid]
    · by_cases hr : cand.rack ∈ kept.map Node.rack
      · simp [hr, hrack hr]
      · simp [hlen, hid, hr]
  · simp [hlen]

theorem pickStep_one (rf : ℕ) (kept : List Node) (cand : Node) :
    pickStep rf 1 (.of kept) cand = .of (if kept.length < rf then
      if ∀ b ∈ kept, OtherNode b cand then kept ++ [cand] else kept else kept) := by
  have hiff : (∀ b ∈ kept, OtherNode b cand) ↔ ¬(cand.id ∈ kept.map Node.id) := by
    simp [OtherNode]
  simp only [pickStep, Picked.of, length_map, hiff]
  by_cases hlen : kept.length < rf
  · by_cases hid : cand.id ∈ kept.map Node.id
    · simp [hid]
    · simp [hlen, hid]
  · simp [hlen]

section Pick

variable (nodeList : List Node) (start rf : ℕ)

/-- A pass is a greedy walk around the nodes. -/
theorem pickPass_eq {R : Node → Node → Prop} [DecidableRel R] {pass : ℕ}
    (hstep : ∀ (kept : List Node) cand, pickStep rf pass (.of kept) cand =
      .of (if kept.length < rf then if ∀ b ∈ kept, R b cand then kept ++ [cand] else kept
        else kept)) (kept : List Node) :
    pickPass nodeList start rf pass (.of kept) =
      .of (greedyUpTo R rf kept (nodeList.rotate start)) := by
  rw [← map_getD_rotate _ _ default, ← foldl_eq_greedyUpTo (fun _ _ => rfl), foldl_map]
  exact foldl_hom Picked.of fun kept off => hstep kept _

def firstPass : List Node :=
  (greedy OtherRack [] (nodeList.rotate start)).take (min rf nodeList.length)

def pickedNodes : List Node :=
  (greedy OtherNode (firstPass nodeList start rf) (nodeList.rotate start)).take
    (min rf nodeList.length)

/-- The selection is the names of two greedy walks. -/
theorem picked_eq :
    pickReplicas nodeList start rf = (pickedNodes nodeList start rf).map Node.id := by
  have hfirst := pickPass_eq nodeList start _ (pickStep_zero (min rf nodeList.length)) []
  have hsecond := pickPass_eq nodeList start _ (pickStep_one (min rf nodeList.length))
    (firstPass nodeList start rf)
  rw [greedyUpTo_eq_take (Nat.zero_le _)] at hfirst
  have hlen : (firstPass nodeList start rf).length ≤ min rf nodeList.length :=
    length_take_le _ _
  rw [greedyUpTo_eq_take hlen] at hsecond
  rw [pickReplicas, show (⟨[], []⟩ : Picked) = .of [] from rfl, hfirst]
  exact congrArg Picked.replicas hsecond

def racks (nodes : List Node) : Finset (List UInt8) := (nodes.map Node.rack).toFinset

/-- The replicas are distinct nodes of the list, as many as asked for and as there
are, over as many racks as possible. -/
structure RackAware (replicas : List NodeID) : Prop where
  nodup : replicas.Nodup
  known : ∀ id ∈ replicas, ∃ n ∈ nodeList, n.id = id
  length_eq : replicas.length = min rf nodeList.length
  racks_eq : (racks (nodeList.filter fun n => n.id ∈ replicas)).card =
    min rf (racks nodeList).card

/-- A selection of replicas is as it should be, with the node at the start first. -/
structure Spread (replicas : List NodeID) : Prop extends RackAware nodeList rf replicas where
  head?_eq : replicas.head? = nodeList[start % nodeList.length]?.map Node.id

variable {nodeList start rf}

/-- The order of the nodes does not matter. -/
theorem RackAware.perm {nodes : List Node} {replicas : List NodeID}
    (h : RackAware nodeList rf replicas) (hperm : nodeList.Perm nodes) :
    RackAware nodes rf replicas := by
  have hracks : ∀ {l l' : List Node}, l.Perm l' → racks l = racks l' := fun hl =>
    toFinset_eq_of_perm _ _ (hl.map Node.rack)
  refine ⟨h.nodup, fun id hid => ?_, hperm.length_eq ▸ h.length_eq, ?_⟩
  · obtain ⟨n, hn, heq⟩ := h.known id hid
    exact ⟨n, hperm.mem_iff.mp hn, heq⟩
  · rw [← hracks (hperm.filter _), ← hracks hperm]
    exact h.racks_eq

/-- The walk of the first pass meets every rack exactly once. -/
theorem racks_greedy (hids : (nodeList.map Node.id).Nodup) :
    racks (greedy OtherRack [] (nodeList.rotate start)) = racks nodeList ∧
      (greedy OtherRack [] (nodeList.rotate start)).length = (racks nodeList).card := by
  have hpair := pairwise_greedy (R := OtherRack) (l := nodeList.rotate start) List.Pairwise.nil
  have hracks : racks (greedy OtherRack [] (nodeList.rotate start)) = racks nodeList := by
    ext rack
    simp only [racks, mem_toFinset, mem_map]
    constructor
    · rintro ⟨a, ha, rfl⟩
      have hmem := (mem_of_mem_greedy ha).resolve_left not_mem_nil
      exact ⟨a, mem_rotate.mp hmem, rfl⟩
    · rintro ⟨a, ha, rfl⟩
      rcases mem_greedy_or_conflict (R := OtherRack) []
        (mem_rotate (n := start).mpr ha) with hmem | ⟨b, hb, hconflict⟩
      · exact ⟨a, hmem, rfl⟩
      · by_cases hrack : b.rack = a.rack
        · exact ⟨b, hb, hrack⟩
        · -- The conflict is then one of names, so it is the node itself.
          have hid : b.id = a.id := not_not.mp fun h => hconflict ⟨h, hrack⟩
          have hb' := mem_rotate.mp ((mem_of_mem_greedy hb).resolve_left not_mem_nil)
          exact ⟨b, hb, congrArg Node.rack (inj_on_of_nodup_map hids hb' ha hid)⟩
  refine ⟨hracks, ?_⟩
  have hnodup : ((greedy OtherRack [] (nodeList.rotate start)).map Node.rack).Nodup :=
    pairwise_map.mpr (hpair.imp fun h => h.2)
  rw [← hracks, racks, toFinset_card_of_nodup hnodup, length_map]

theorem card_racks_le (nodeList : List Node) : (racks nodeList).card ≤ nodeList.length := by
  rw [← length_map Node.rack]
  exact toFinset_card_le _

theorem firstPass_pairwise : (firstPass nodeList start rf).Pairwise OtherRack :=
  (pairwise_greedy List.Pairwise.nil).sublist (take_sublist _ _)

theorem length_firstPass (hids : (nodeList.map Node.id).Nodup) :
    (firstPass nodeList start rf).length = min rf (racks nodeList).card := by
  have := card_racks_le nodeList
  rw [firstPass, length_take, (racks_greedy hids).2]
  omega

theorem mem_of_mem_firstPass {a : Node} (h : a ∈ firstPass nodeList start rf) : a ∈ nodeList := by
  have hmem := mem_of_mem_greedy (mem_of_mem_take h)
  exact mem_rotate.mp (hmem.resolve_left not_mem_nil)

theorem perm_secondWalk (hids : (nodeList.map Node.id).Nodup) :
    (greedy OtherNode (firstPass nodeList start rf) (nodeList.rotate start)).Perm nodeList := by
  have hpair : (greedy OtherNode (firstPass nodeList start rf)
      (nodeList.rotate start)).Pairwise OtherNode :=
    pairwise_greedy (firstPass_pairwise.imp fun h => h.1)
  have hnodup : (greedy OtherNode (firstPass nodeList start rf) (nodeList.rotate start)).Nodup :=
    hpair.imp fun h heq => h (congrArg Node.id heq)
  refine (perm_ext_iff_of_nodup hnodup (List.Nodup.of_map _ hids)).mpr fun a => ?_
  constructor
  · intro h
    rcases mem_of_mem_greedy h with h | h
    · exact mem_of_mem_firstPass h
    · exact mem_rotate.mp h
  · intro ha
    rcases mem_greedy_or_conflict (R := OtherNode) (firstPass nodeList start rf)
      (mem_rotate (n := start).mpr ha) with hmem | ⟨b, hb, hconflict⟩
    · exact hmem
    · have hb' : b ∈ nodeList := by
        rcases mem_of_mem_greedy hb with hb | hb
        · exact mem_of_mem_firstPass hb
        · exact mem_rotate.mp hb
      exact inj_on_of_nodup_map hids hb' ha (not_not.mp hconflict) ▸ hb

theorem pickedNodes_subset (hids : (nodeList.map Node.id).Nodup) {a : Node}
    (h : a ∈ pickedNodes nodeList start rf) : a ∈ nodeList :=
  (perm_secondWalk hids).mem_iff.mp (mem_of_mem_take h)

theorem prefix_pickedNodes : firstPass nodeList start rf <+: pickedNodes nodeList start rf := by
  have hprefix : firstPass nodeList start rf <+:
      greedy OtherNode (firstPass nodeList start rf) (nodeList.rotate start) := prefix_greedy
  rw [prefix_iff_eq_take.mp hprefix]
  exact take_prefix_take_left (length_take_le _ _)

/-- The chosen nodes are in as many racks as possible: either the first pass chose
enough nodes, all in different racks, or it ended with a node of every rack. -/
theorem card_racks_pickedNodes (hids : (nodeList.map Node.id).Nodup) :
    (racks (pickedNodes nodeList start rf)).card = min rf (racks nodeList).card := by
  have hlen : (firstPass nodeList start rf).length = min rf (racks nodeList).card :=
    length_firstPass hids
  have hle := card_racks_le nodeList
  rcases le_total rf (racks nodeList).card with henough | hfew
  · have hpicked : firstPass nodeList start rf = pickedNodes nodeList start rf := by
      refine prefix_pickedNodes.eq_of_length_le ?_
      rw [hlen, pickedNodes, length_take]
      omega
    have hnodup : ((firstPass nodeList start rf).map Node.rack).Nodup :=
      pairwise_map.mpr (firstPass_pairwise.imp fun h => h.2)
    rw [← hpicked, racks, toFinset_card_of_nodup hnodup, length_map, hlen]
  · have hall : racks (firstPass nodeList start rf) = racks nodeList := by
      rw [firstPass, take_of_length_le, (racks_greedy hids).1]
      rw [(racks_greedy hids).2]
      omega
    have heq : racks (pickedNodes nodeList start rf) = racks nodeList := by
      apply Finset.Subset.antisymm
      · intro rack hrack
        rw [racks, mem_toFinset] at hrack ⊢
        obtain ⟨n, hn, rfl⟩ := mem_map.mp hrack
        exact mem_map_of_mem (pickedNodes_subset hids hn)
      · rw [← hall]
        intro rack hrack
        rw [racks, mem_toFinset] at hrack ⊢
        obtain ⟨n, hn, rfl⟩ := mem_map.mp hrack
        exact mem_map_of_mem (prefix_pickedNodes.subset hn)
    rw [heq]
    omega

theorem head?_pickedNodes (hrf : 1 ≤ rf) :
    (pickedNodes nodeList start rf).head? = nodeList[start % nodeList.length]? := by
  rcases eq_or_ne nodeList [] with rfl | hne
  · simp [pickedNodes]
  · have hpos := length_pos_iff.mpr hne
    have hlt : start % nodeList.length < nodeList.length := Nat.mod_lt _ hpos
    have hfirst : (firstPass nodeList start rf).head? = nodeList[start % nodeList.length]? := by
      rw [firstPass, List.head?_take, if_neg (by omega), head?_greedy, ← rotate_mod,
        List.head?_rotate hlt]
    have hprefix : firstPass nodeList start rf <+: pickedNodes nodeList start rf :=
      prefix_pickedNodes
    obtain ⟨rest, hrest⟩ := hprefix
    rw [← hrest, List.head?_append, hfirst, List.getElem?_eq_getElem hlt, Option.some_or]

theorem pickReplicas_spread (start : ℕ) (hids : (nodeList.map Node.id).Nodup) (hrf : 1 ≤ rf) :
    Spread nodeList start rf (pickReplicas nodeList start rf) := by
  rw [picked_eq]
  have hperm : (greedy OtherNode (firstPass nodeList start rf) (nodeList.rotate start)).Perm
      nodeList := perm_secondWalk hids
  have hsub : (pickedNodes nodeList start rf).Sublist _ := take_sublist _ _
  refine ⟨⟨?_, fun id hid => ?_, ?_, ?_⟩, ?_⟩
  · exact ((hperm.map Node.id).nodup_iff.mpr hids).sublist (hsub.map Node.id)
  · obtain ⟨n, hn, rfl⟩ := mem_map.mp hid
    exact ⟨n, pickedNodes_subset hids hn, rfl⟩
  · rw [length_map, pickedNodes, length_take, hperm.length_eq]
    omega
  · have hcard : (racks (pickedNodes nodeList start rf)).card = min rf (racks nodeList).card :=
      card_racks_pickedNodes hids
    rw [← hcard]
    congr 1
    ext rack
    simp only [racks, mem_toFinset, mem_map, mem_filter, decide_eq_true_eq]
    constructor
    · rintro ⟨n, ⟨hn, m, hm, hid⟩, rfl⟩
      have heq := inj_on_of_nodup_map hids (pickedNodes_subset hids hm) hn hid
      exact ⟨m, hm, congrArg Node.rack heq⟩
    · rintro ⟨n, hn, rfl⟩
      exact ⟨n, ⟨pickedNodes_subset hids hn, n, hn, rfl⟩, rfl⟩
  · rw [List.head?_map, head?_pickedNodes hrf]

end Pick

/-! ## The replica set of a key -/

/-- What follows the first occurrence of a byte. -/
def afterByte (b : UInt8) : List UInt8 → Option (List UInt8)
  | [] => none
  | c :: rest => if c = b then some rest else afterByte b rest

/-- Drop path components of a key. -/
def dropComponents : ℕ → List UInt8 → Option (List UInt8)
  | 0, rest => some rest
  | skip + 1, rest => (afterByte 47 rest).bind (dropComponents skip)

/-- The string that a key is placed by: derived keys are placed as the record that
they describe. -/
def routingKey (key : List UInt8) : List UInt8 :=
  let skip :=
    -- "@vec/", "@txt/" and "@idx/"
    if key.take 5 = [64, 118, 101, 99, 47] ∨ key.take 5 = [64, 116, 120, 116, 47] then some 1
    else if key.take 5 = [64, 105, 100, 120, 47] then some 2
    else none
  match skip with
  | none => key
  | some skip =>
    match dropComponents skip (key.drop 5) with
    | none => key
    | some rest => if rest = [] then key else rest

/-- The position of a key on the ring. -/
def hashKey (key : List UInt8) : ℕ := hashValue (routingKey key)

def replicasOnRing (ring : ConsistentHashRing) (nodes : List Node) (rf : ℕ) (key : List UInt8) :
    Except ClusterError (List NodeID) :=
  match ring.getNodeWithReplicas (hashKey key) nodes.length with
  | .error text => .error (.ring text)
  | .ok order =>
    let nodeList := order.filterMap fun id => nodes.find? fun n => n.id == id
    if nodeList.length = 0 then .error .noKnownNodes else .ok (pickReplicas nodeList 0 rf)

/-- The replica set of a key in the current membership. -/
def PartitionMap.getReplicasForKey (pm : PartitionMap) (key : List UInt8) :
    Except ClusterError (List NodeID) :=
  replicasOnRing pm.ring pm.nodes pm.replicationFactor key

/-- A fixed membership against which replica sets are computed. -/
structure ReplicaPlacement where
  ring : ConsistentHashRing
  nodes : List Node
  rf : ℕ

def ReplicaPlacement.new (members : List (NodeID × List UInt8)) (vnodes rf : ℕ) :
    ReplicaPlacement where
  ring := members.foldl (fun ring m => ring.addNode m.1) (.new vnodes)
  nodes := members.map fun m => ⟨m.1, m.2, .active, 0⟩
  rf := rf

/-- The replica set of a key, empty for an empty membership. -/
def ReplicaPlacement.replicas (p : ReplicaPlacement) (key : List UInt8) : List NodeID :=
  if p.nodes.length = 0 then []
  else
    match replicasOnRing p.ring p.nodes p.rf key with
    | .error _ => []
    | .ok r => r

/-! ## The partition table -/

namespace PartitionMap

/-- The active members in the order of their names. -/
def activeSorted (pm : PartitionMap) : List Node :=
  (pm.nodes.filter fun n => n.state = .active).insertionSort (fun a b => a.id ≤ b.id)

def assign (pm : PartitionMap) (partitionCount i : ℕ) : PartitionInfo :=
  let nodeList := pm.activeSorted
  let replicas := pickReplicas nodeList (i % nodeList.length) pm.replicationFactor
  let width := (2 ^ 64 - 1) / partitionCount
  { partitionID := i
    hashRange := (i * width, (i + 1) * width)
    primaryNode := replicas.headD []
    replicaNodes := replicas.tail
    version := pm.version }

/-- Rebuild the partition table over the active members.  Without a replica the
row of the first partition cannot be built. -/
def rebalance (pm : PartitionMap) (partitionCount : ℕ) : Except ClusterError PartitionMap :=
  if pm.nodes.length = 0 then .error .noNodes
  else if pm.activeSorted.length = 0 then .error .noActiveNodes
  else if pm.replicationFactor = 0 ∧ 0 < partitionCount then .error .indexOutOfRange
  else
    .ok { pm with
      partitions := (List.range partitionCount).map (pm.assign partitionCount)
      version := pm.version + 1
      configuredPartitions := partitionCount }

def primaryCount (pm : PartitionMap) (nodeID : NodeID) : ℕ :=
  pm.partitions.countP fun p => p.primaryNode = nodeID

section Rebalance

variable {pm : PartitionMap} (partitionCount : ℕ)

theorem perm_activeSorted (pm : PartitionMap) :
    pm.activeSorted.Perm (pm.nodes.filter fun n => n.state = .active) :=
  perm_insertionSort _ _

theorem mem_activeSorted {n : Node} : n ∈ pm.activeSorted ↔ n ∈ pm.nodes ∧ n.state = .active := by
  rw [(perm_activeSorted pm).mem_iff, mem_filter, decide_eq_true_eq]

section

variable (hids : (pm.nodes.map Node.id).Nodup)
include hids

theorem nodup_activeSorted : (pm.activeSorted.map Node.id).Nodup := by
  have hsub := (filter_sublist (p := fun n => decide (n.state = .active)) (l := pm.nodes)).map
    Node.id
  exact (((perm_activeSorted pm).map Node.id).nodup_iff).mpr (hids.sublist hsub)

/-- The sorted active members do not depend on the order in which the map of nodes
is visited. -/
theorem activeSorted_congr {nodes : List Node} (hperm : nodes.Perm pm.nodes) :
    { pm with nodes := nodes }.activeSorted = pm.activeSorted := by
  have hsorted : ∀ l : List Node, (l.insertionSort fun a b => a.id ≤ b.id).Pairwise
      fun a b => a.id ≤ b.id := by
    intro l
    have : IsTrans Node fun a b => a.id ≤ b.id := ⟨fun _ _ _ => le_trans⟩
    have : Std.Total fun a b : Node => a.id ≤ b.id := ⟨fun a b => le_total a.id b.id⟩
    exact pairwise_insertionSort _ l
  have hperm' : ({ pm with nodes := nodes }.activeSorted).Perm pm.activeSorted :=
    (perm_activeSorted _).trans ((hperm.filter _).trans (perm_activeSorted pm).symm)
  refine hperm'.eq_of_pairwise (fun a b ha hb hab hba => ?_) (hsorted _) (hsorted _)
  -- Sorted by name, and the names are distinct.
  exact inj_on_of_nodup_map (nodup_activeSorted hids) (hperm'.mem_iff.mp ha) hb
    (le_antisymm hab hba)

theorem assign_replicas (hrf : 1 ≤ pm.replicationFactor) (hactive : pm.activeSorted ≠ []) (i : ℕ) :
    (pm.assign partitionCount i).primaryNode :: (pm.assign partitionCount i).replicaNodes =
      pickReplicas pm.activeSorted (i % pm.activeSorted.length) pm.replicationFactor := by
  have hspread := pickReplicas_spread (i % pm.activeSorted.length) (nodup_activeSorted hids) hrf
  have hpos := length_pos_iff.mpr hactive
  have hne :
      pickReplicas pm.activeSorted (i % pm.activeSorted.length) pm.replicationFactor ≠ [] := by
    rw [← length_pos_iff, hspread.length_eq]
    omega
  obtain ⟨a, rest, heq⟩ := exists_cons_of_ne_nil hne
  simp only [assign, heq, headD_cons, tail_cons]

/-- The primary of a partition goes round the active members. -/
theorem assign_primaryNode (hrf : 1 ≤ pm.replicationFactor) (hactive : pm.activeSorted ≠ [])
    (i : ℕ) :
    some (pm.assign partitionCount i).primaryNode =
      pm.activeSorted[i % pm.activeSorted.length]?.map Node.id := by
  have hspread := pickReplicas_spread (i % pm.activeSorted.length) (nodup_activeSorted hids) hrf
  have hhead := hspread.head?_eq
  rw [← assign_replicas partitionCount hids hrf hactive, Nat.mod_mod] at hhead
  exact hhead

/-- An active member is the primary of every partition whose number is its index
modulo the number of active members. -/
theorem primaryCount_eq (hrf : 1 ≤ pm.replicationFactor) {j : ℕ} {a : Node}
    (hj : pm.activeSorted[j]? = some a) {pm' : PartitionMap}
    (hpm' : pm'.partitions = (List.range partitionCount).map (pm.assign partitionCount)) :
    pm'.primaryCount a.id = partitionCount / pm.activeSorted.length +
      if j < partitionCount % pm.activeSorted.length then 1 else 0 := by
  obtain ⟨hlt, rfl⟩ := List.getElem?_eq_some_iff.mp hj
  have hactive : pm.activeSorted ≠ [] := List.ne_nil_of_length_pos (by omega)
  have hpos := List.length_pos_iff.mpr hactive
  have hinj : ∀ i, (pm.assign partitionCount i).primaryNode = pm.activeSorted[j].id ↔
      i ≡ j [MOD pm.activeSorted.length] := by
    intro i
    have hmod : i % pm.activeSorted.length < pm.activeSorted.length := Nat.mod_lt _ hpos
    have hprimary := assign_primaryNode partitionCount hids hrf hactive i
    rw [List.getElem?_eq_getElem hmod, Option.map_some, Option.some.injEq] at hprimary
    rw [hprimary, Nat.ModEq, Nat.mod_eq_of_lt hlt]
    constructor
    · intro heq
      have hnode := List.inj_on_of_nodup_map (nodup_activeSorted hids) (List.getElem_mem hmod)
        (List.getElem_mem hlt) heq
      exact (List.Nodup.getElem_inj_iff (List.Nodup.of_map _ (nodup_activeSorted hids))).mp hnode
    · intro heq
      simp only [heq]
  have hcount := Nat.count_modEq_card partitionCount hpos j
  rw [Nat.mod_eq_of_lt hlt] at hcount
  rw [← hcount, primaryCount, hpm', List.countP_map]
  congr 1
  funext i
  simp only [Function.comp_apply, hinj]

end

theorem rebalance_ok {pm₁ : PartitionMap} (hactive : pm.activeSorted ≠ [])
    (hrf : 1 ≤ pm.replicationFactor) (hsame : pm₁.activeSorted = pm.activeSorted)
    (hrf₁ : pm₁.replicationFactor = pm.replicationFactor) (hversion : pm₁.version = pm.version) :
    ∃ pm₂, pm₁.rebalance partitionCount = .ok pm₂ ∧
      pm₂.partitions = (List.range partitionCount).map (pm.assign partitionCount) := by
  have hnodes : pm₁.nodes.length ≠ 0 := by
    obtain ⟨n, hn⟩ := exists_mem_of_ne_nil _ hactive
    have := (mem_activeSorted.mp (hsame ▸ hn)).1
    exact (length_pos_of_mem this).ne'
  rw [rebalance, if_neg hnodes, hsame, if_neg (by rwa [length_eq_zero_iff]), if_neg (by omega)]
  refine ⟨_, rfl, map_congr_left fun i _ => ?_⟩
  simp only [assign, hsame, hrf₁, hversion]

end Rebalance

end PartitionMap

open PartitionMap

/-- The selection of replicas is as it should be for every list of nodes with
distinct names.  The partition table gives every partition a rack-aware set of the
active members; the numbers of partitions per active member differ by at most one;
and the table does not depend on the order in which the members are visited. -/
theorem placement_rackAware :
    (∀ (nodeList : List Node) (start rf : ℕ), (nodeList.map Node.id).Nodup → 1 ≤ rf →
      Spread nodeList start rf (pickReplicas nodeList start rf)) ∧
    ∀ (pm : PartitionMap) (partitionCount : ℕ), (pm.nodes.map Node.id).Nodup →
      1 ≤ pm.replicationFactor → (∃ n ∈ pm.nodes, n.state = .active) →
      ∃ pm', pm.rebalance partitionCount = .ok pm' ∧ pm'.partitions.length = partitionCount ∧
        (∀ (i : ℕ) (p : PartitionInfo), pm'.partitions[i]? = some p → p.partitionID = i ∧
          RackAware (pm.nodes.filter fun n => n.state = .active) pm.replicationFactor
            (p.primaryNode :: p.replicaNodes)) ∧
        (∀ a ∈ pm.nodes, ∀ b ∈ pm.nodes, a.state = .active → b.state = .active →
          pm'.primaryCount a.id ≤ pm'.primaryCount b.id + 1) ∧
        ∀ nodes : List Node, nodes.Perm pm.nodes →
          ∃ pm'', { pm with nodes := nodes }.rebalance partitionCount = .ok pm'' ∧
            pm''.partitions = pm'.partitions := by
  refine ⟨fun nodeList start rf => pickReplicas_spread start, ?_⟩
  intro pm partitionCount hids hrf hsome
  have hactive : pm.activeSorted ≠ [] := by
    obtain ⟨n, hn, hstate⟩ := hsome
    exact ne_nil_of_mem (mem_activeSorted.mpr ⟨hn, hstate⟩)
  obtain ⟨pm', hpm', hparts⟩ := rebalance_ok partitionCount hactive hrf rfl rfl rfl
  refine ⟨pm', hpm', by rw [hparts, length_map, length_range], fun i p hp => ?_,
    fun a ha b hb haa hba => ?_, fun nodes hperm => ?_⟩
  · rw [hparts, List.getElem?_map] at hp
    obtain ⟨i', hi', rfl⟩ := Option.map_eq_some_iff.mp hp
    obtain rfl : i = i' := by
      obtain ⟨_, h⟩ := List.getElem?_eq_some_iff.mp hi'
      rwa [getElem_range] at h
    refine ⟨rfl, ?_⟩
    rw [assign_replicas partitionCount hids hrf hactive]
    exact (pickReplicas_spread _ (nodup_activeSorted hids) hrf).toRackAware.perm (perm_activeSorted pm)
  · obtain ⟨j, hj⟩ := mem_iff_getElem?.mp (mem_activeSorted.mpr ⟨ha, haa⟩)
    obtain ⟨k, hk⟩ := mem_iff_getElem?.mp (mem_activeSorted.mpr ⟨hb, hba⟩)
    rw [primaryCount_eq partitionCount hids hrf hj hparts,
      primaryCount_eq partitionCount hids hrf hk hparts]
    split <;> split <;> omega
  · obtain ⟨pm'', hpm'', hparts''⟩ := rebalance_ok partitionCount hactive hrf
      (activeSorted_congr hids hperm) rfl rfl
    exact ⟨pm'', hpm'', hparts''.trans hparts.symm⟩

/-- Three nodes in two racks, visited in another order than that of their names. -/
def threeNodes : PartitionMap :=
  { PartitionMap.new 2 1 4 with
    nodes := [⟨[99], [1], .active, 0⟩, ⟨[97], [1], .active, 0⟩, ⟨[98], [2], .active, 0⟩] }

theorem placement_three_nodes :
    Spread threeNodes.nodes 0 2 (pickReplicas threeNodes.nodes 0 2) ∧
      ∃ pm', threeNodes.rebalance 4 = .ok pm' ∧ pm'.partitions.length = 4 ∧
        pm'.primaryCount [97] ≤ pm'.primaryCount [98] + 1 := by
  refine ⟨placement_rackAware.1 threeNodes.nodes 0 2 (by decide) (by decide), ?_⟩
  obtain ⟨pm', hok, hlen, -, hbalance, -⟩ := placement_rackAware.2 threeNodes 4 (by decide)
    (by decide) ⟨⟨[97], [1], .active, 0⟩, by decide, rfl⟩
  exact ⟨pm', hok, hlen, hbalance ⟨[97], [1], .active, 0⟩ (by decide) ⟨[98], [2], .active, 0⟩
    (by decide) rfl rfl⟩

end VeltrixDB.Cluster
