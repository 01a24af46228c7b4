import VeltrixDB.Cluster.PartitionMap

/-!
# Replica sets over whole histories

Nodes learn of joins, departures, racks, states and epochs in different orders, and
refuse some of them (`cluster/partition_map.go`, `cluster/epoch.go`).  Whatever the
history, the ring holds the members, so that the replica set of a key depends on the
members and their racks only, and migration can compute it for an earlier membership.

Main results:

- Theorem `PartitionMap.Sound.after`: ring and members go together.
- Theorem `replicas_of_history`: the replica set of a key.
- Theorem `placement_agrees`: it is the same for the same members and racks.
- Theorem `stale_after_change`: a change that was decided before another one is refused.
-/

namespace VeltrixDB.Cluster

open List Selection

/-! ## Histories -/

/-- What a partition map is told. -/
inductive MapOp where
  | addNode (nodeID : NodeID) (nowNs : Int)
  | addNodeWithEpoch (nodeID : NodeID) (nowNs : Int) (observedEpoch : UInt64)
  | removeNode (nodeID : NodeID)
  | removeNodeWithEpoch (nodeID : NodeID) (observedEpoch : UInt64)
  | setNodeRack (nodeID : NodeID) (rack : List UInt8)
  | updateNodeState (nodeID : NodeID) (newState : NodeState)
  | advanceEpochTo (e : UInt64)

namespace MapOp

def apply (pm : PartitionMap) : MapOp → Except ClusterError PartitionMap
  | addNode nodeID nowNs => pm.addNode nodeID nowNs
  | addNodeWithEpoch nodeID nowNs observedEpoch => pm.addNodeWithEpoch nodeID nowNs observedEpoch
  | removeNode nodeID => pm.removeNode nodeID
  | removeNodeWithEpoch nodeID observedEpoch => pm.removeNodeWithEpoch nodeID observedEpoch
  | setNodeRack nodeID rack => pm.setNodeRack nodeID rack
  | updateNodeState nodeID newState => pm.updateNodeState nodeID newState
  | advanceEpochTo e => .ok (pm.advanceEpochTo e)

/-- The node that may join. -/
def joining : MapOp → Option NodeID
  | addNode nodeID _ | addNodeWithEpoch nodeID _ _ => some nodeID
  | _ => none

/-- The operation changes the membership. -/
def isChange : MapOp → Bool
  | addNode .. | addNodeWithEpoch .. | removeNode .. | removeNodeWithEpoch .. => true
  | _ => false

theorem isChange_of_joining {op : MapOp} {nodeID : NodeID} (h : op.joining = some nodeID) :
    op.isChange = true := by
  cases op with
  | addNode | addNodeWithEpoch | removeNode | removeNodeWithEpoch => rfl
  | setNodeRack | updateNodeState | advanceEpochTo => cases h

end MapOp

/-- What an accepted operation can do. -/
inductive MapChange (pm : PartitionMap) (op : MapOp) : PartitionMap → Prop where
  | joined (nodeID : NodeID) (nowNs : Int) (hop : op.joining = some nodeID)
      (hnew : nodeID ∉ pm.nodes.map Node.id) :
      MapChange pm op { pm with
        nodes := pm.nodes ++ [⟨nodeID, [], .active, nowNs⟩]
        ring := pm.ring.addNode nodeID
        version := pm.version + 1
        epoch := pm.epoch + 1 }
  | left (nodeID : NodeID) (hop : op.isChange = true) :
      MapChange pm op { pm with
        nodes := pm.nodes.filter fun n => n.id != nodeID
        ring := pm.ring.removeNode nodeID
        version := pm.version + 1
        epoch := pm.epoch + 1 }
  | updated (pm' : PartitionMap) (hop : op.isChange = false)
      (hids : pm'.nodes.map Node.id = pm.nodes.map Node.id) (hring : pm'.ring = pm.ring)
      (hrf : pm'.replicationFactor = pm.replicationFactor) (hepoch : pm.epoch ≤ pm'.epoch) :
      MapChange pm op pm'

namespace PartitionMap

variable {all : Finset NodeID} {vnodes rf : ℕ} {pm pm' : PartitionMap} {op : MapOp} {nodeID : NodeID}

theorem node?_isSome : (pm.node? nodeID).isSome = true ↔ nodeID ∈ pm.nodes.map Node.id := by
  simp [node?]

theorem change_addNode {nowNs : Int} (hop : op.joining = some nodeID)
    (hok : pm.addNode nodeID nowNs = .ok pm') : MapChange pm op pm' := by
  rw [addNode] at hok
  split at hok
  · cases hok
  next hnew =>
    obtain rfl := Except.ok.inj hok
    rw [node?_isSome] at hnew
    exact .joined nodeID nowNs hop hnew

theorem change_removeNode (hop : op.isChange = true) (hok : pm.removeNode nodeID = .ok pm') :
    MapChange pm op pm' := by
  rw [removeNode] at hok
  split at hok
  · obtain rfl := Except.ok.inj hok
    exact .left nodeID hop
  · cases hok

theorem map_id_modifyNode {f : Node → Node} (hf : ∀ n, (f n).id = n.id) :
    (pm.modifyNode nodeID f).nodes.map Node.id = pm.nodes.map Node.id := by
  rw [modifyNode, map_map]
  refine map_congr_left fun n _ => ?_
  simp only [Function.comp_apply]
  split
  · exact hf n
  · rfl

theorem change_apply (hok : op.apply pm = .ok pm') : MapChange pm op pm' := by
  cases op with
  | addNode => exact change_addNode rfl hok
  | addNodeWithEpoch =>
    simp only [MapOp.apply, addNodeWithEpoch] at hok
    split at hok
    · cases hok
    · exact change_addNode rfl hok
  | removeNode => exact change_removeNode rfl hok
  | removeNodeWithEpoch =>
    simp only [MapOp.apply, removeNodeWithEpoch] at hok
    split at hok
    · cases hok
    · exact change_removeNode rfl hok
  | setNodeRack =>
    simp only [MapOp.apply, setNodeRack] at hok
    split at hok
    · obtain rfl := Except.ok.inj hok
      exact .updated _ rfl (map_id_modifyNode fun _ => rfl) rfl rfl UInt64.le_rfl
    · cases hok
  | updateNodeState nodeID newState =>
    simp only [MapOp.apply, updateNodeState] at hok
    split at hok
    · cases hok
    · obtain rfl := Except.ok.inj hok
      have hids : (pm.modifyNode nodeID fun n => { n with state := newState }).nodes.map Node.id = _ :=
        map_id_modifyNode fun _ => rfl
      exact .updated _ rfl hids rfl rfl UInt64.le_rfl
  | advanceEpochTo e =>
    simp only [MapOp.apply, advanceEpochTo] at hok
    obtain rfl := Except.ok.inj hok
    split
    next hlt => exact .updated _ rfl rfl rfl rfl (UInt64.le_of_lt hlt)
    · exact .updated _ rfl rfl rfl rfl UInt64.le_rfl

/-- An operation that is refused changes nothing. -/
def told (pm : PartitionMap) (op : MapOp) : PartitionMap :=
  match op.apply pm with
  | .ok pm' => pm'
  | .error _ => pm

def after (pm : PartitionMap) (ops : List MapOp) : PartitionMap :=
  ops.foldl told pm

/-! ## Ring and members -/

/-- The ring holds the members, which are among `all`. -/
structure Sound (all : Finset NodeID) (vnodes rf : ℕ) (pm : PartitionMap) : Prop where
  nodup : (pm.nodes.map Node.id).Nodup
  holds : pm.ring.Holds (pm.nodes.map Node.id).toFinset
  within : (pm.nodes.map Node.id).toFinset ⊆ all
  vnodes_eq : pm.ring.replicas = vnodes
  rf_eq : pm.replicationFactor = rf

theorem Sound.change (h : pm.Sound all vnodes rf) (hdist : DistinctHashes vnodes all)
    (hop : ∀ id ∈ op.joining, id ∈ all) (hchange : MapChange pm op pm') :
    pm'.Sound all vnodes rf := by
  cases hchange with
  | joined nodeID nowNs hjoin hnew =>
    have hset : ((pm.nodes ++ [(⟨nodeID, [], .active, nowNs⟩ : Node)]).map Node.id).toFinset =
        insert nodeID (pm.nodes.map Node.id).toFinset := by
      ext id
      simp
    have hsub : insert nodeID (pm.nodes.map Node.id).toFinset ⊆ all :=
      Finset.insert_subset (hop nodeID hjoin) h.within
    refine ⟨?_, ?_, hset ▸ hsub, h.vnodes_eq, h.rf_eq⟩
    · rw [map_append]
      exact (nodup_cons.mpr ⟨hnew, h.nodup⟩).perm (perm_append_singleton _ _).symm
    · rw [hset]
      exact h.holds.addNode (by rwa [mem_toFinset]) (h.vnodes_eq ▸ hdist.mono hsub)
  | left nodeID =>
    have hset : ((pm.nodes.filter fun n => n.id != nodeID).map Node.id).toFinset =
        (pm.nodes.map Node.id).toFinset.erase nodeID := by
      ext id
      simp only [mem_toFinset, mem_map, mem_filter, Finset.mem_erase, bne_iff_ne]
      constructor
      · rintro ⟨n, ⟨hn, hne⟩, rfl⟩
        exact ⟨hne, n, hn, rfl⟩
      · rintro ⟨hne, n, hn, rfl⟩
        exact ⟨n, ⟨hn, hne⟩, rfl⟩
    refine ⟨h.nodup.sublist (filter_sublist.map _), ?_, ?_, h.vnodes_eq, h.rf_eq⟩
    · rw [hset]
      exact h.holds.removeNode
    · rw [hset]
      exact (Finset.erase_subset _ _).trans h.within
  | updated pm' _ hids hring hrf _ =>
    constructor
    · rw [hids]
      exact h.nodup
    · rw [hids, hring]
      exact h.holds
    · rw [hids]
      exact h.within
    · rw [hring, h.vnodes_eq]
    · rw [hrf, h.rf_eq]

theorem Sound.after {ops : List MapOp} (h : pm.Sound all vnodes rf) (hdist : DistinctHashes vnodes all)
    (hops : ∀ op ∈ ops, ∀ id ∈ op.joining, id ∈ all) : (pm.after ops).Sound all vnodes rf := by
  induction ops generalizing pm with
  | nil => exact h
  | cons op ops ih =>
    refine ih ?_ fun op' hop' => hops op' (mem_cons_of_mem _ hop')
    rw [told]
    split
    next hok => exact h.change hdist (hops op mem_cons_self) (change_apply hok)
    · exact h

theorem sound_new (all : Finset NodeID) (vnodes rf partitionCount : ℕ) :
    (new rf vnodes partitionCount).Sound all vnodes rf :=
  ⟨nodup_nil, ConsistentHashRing.holds_new vnodes, Finset.empty_subset _, rfl, rfl⟩

end PartitionMap

/-! ## Replica sets -/

/-- Name and rack of a member. -/
def Node.member (n : Node) : NodeID × List UInt8 := (n.id, n.rack)

/-- The selection looks at names and racks only. -/
theorem pickReplicas_congr {nodeList nodeList' : List Node}
    (h : nodeList.map Node.member = nodeList'.map Node.member) (start rf : ℕ) :
    pickReplicas nodeList start rf = pickReplicas nodeList' start rf := by
  have hlen : nodeList.length = nodeList'.length := by simpa using congrArg length h
  have hpass : ∀ rf pass acc, pickPass nodeList start rf pass acc =
      pickPass nodeList' start rf pass acc := by
    intro rf pass acc
    have hstep : ∀ acc off, pickStep rf pass acc (nodeList.getD off default) =
        pickStep rf pass acc (nodeList'.getD off default) := by
      intro acc off
      have hat : (nodeList.getD off default).member = (nodeList'.getD off default).member := by
        have hget := congrArg (fun l => l.getD off (Node.member default)) h
        simpa only [getD_map] using hget
      rw [Node.member, Node.member, Prod.mk.injEq] at hat
      simp only [pickStep, hat.1, hat.2]
    simp only [pickPass, hlen, hstep]
  simp only [pickReplicas, hlen, hpass]

/-- Elements with different names are found wherever they stand. -/
theorem find?_name {α : Type} {name : α → NodeID} {l : List α} (hnd : (l.map name).Nodup) {id : NodeID}
    {a : α} : l.find? (fun x => name x == id) = some a ↔ a ∈ l ∧ name a = id := by
  constructor
  · intro h
    exact ⟨mem_of_find?_eq_some h, by simpa using find?_some h⟩
  · rintro ⟨ha, rfl⟩
    cases hfind : l.find? (fun x => name x == name a) with
    | none => exact absurd (find?_eq_none.mp hfind a ha) (by simp)
    | some x =>
      have hid : name x = name a := by simpa using find?_some hfind
      rw [inj_on_of_nodup_map hnd (mem_of_find?_eq_some hfind) ha hid]

/-- The members that the ring lists for a key, in its order. -/
def ringMembers (ring : ConsistentHashRing) (nodes : List Node) (key : List UInt8) : List Node :=
  (ring.listed (hashKey key) nodes.length).filterMap fun id => nodes.find? fun n => n.id == id

theorem map_member_ringMembers (ring : ConsistentHashRing) (nodes : List Node) (key : List UInt8) :
    (ringMembers ring nodes key).map Node.member =
      (ring.listed (hashKey key) (nodes.map Node.member).length).filterMap fun id =>
        (nodes.map Node.member).find? fun m => m.1 == id := by
  rw [ringMembers, map_filterMap, length_map]
  refine filterMap_congr fun id _ => ?_
  rw [find?_map]
  rfl

theorem ringMembers_congr (ring : ConsistentHashRing) {nodes nodes' : List Node}
    (hnd : (nodes.map Node.id).Nodup)
    (hperm : (nodes.map Node.member).Perm (nodes'.map Node.member)) (key : List UInt8) :
    (ringMembers ring nodes key).map Node.member = (ringMembers ring nodes' key).map Node.member := by
  have hnd' : ((nodes.map Node.member).map Prod.fst).Nodup := by
    rw [map_map]
    exact hnd
  rw [map_member_ringMembers, map_member_ringMembers, hperm.length_eq]
  refine filterMap_congr fun id _ => Option.ext fun m => ?_
  rw [find?_name hnd', find?_name (((hperm.map Prod.fst).nodup_iff).mp hnd'), hperm.mem_iff]

theorem replicasOnRing_congr {ring : ConsistentHashRing} {nodes nodes' : List Node}
    (hnd : (nodes.map Node.id).Nodup)
    (hperm : (nodes.map Node.member).Perm (nodes'.map Node.member)) (rf : ℕ) (key : List UInt8) :
    replicasOnRing ring nodes rf key = replicasOnRing ring nodes' rf key := by
  have hmap := ringMembers_congr ring hnd hperm key
  have hlen : nodes.length = nodes'.length := by simpa using hperm.length_eq
  unfold ringMembers ConsistentHashRing.listed at hmap
  unfold replicasOnRing
  rw [hlen] at hmap ⊢
  cases hlist : ring.getNodeWithReplicas (hashKey key) nodes'.length with
  | error text => rfl
  | ok order =>
    rw [hlist] at hmap
    have hcount := congrArg length hmap
    rw [length_map, length_map] at hcount
    simp only [pickReplicas_congr hmap, hcount]

theorem replicasOnRing_eq {ring : ConsistentHashRing} {nodes : List Node} {rf : ℕ} {key : List UInt8}
    (hne : ringMembers ring nodes key ≠ []) :
    replicasOnRing ring nodes rf key = .ok (pickReplicas (ringMembers ring nodes key) 0 rf) := by
  have hlen : (ringMembers ring nodes key).length ≠ 0 := fun h => hne (length_eq_zero_iff.mp h)
  unfold ringMembers ConsistentHashRing.listed at hlen ⊢
  unfold replicasOnRing
  cases hlist : ring.getNodeWithReplicas (hashKey key) nodes.length with
  | error text =>
    rw [hlist] at hlen
    exact absurd rfl hlen
  | ok order =>
    rw [hlist] at hlen
    simp only [if_neg hlen]

namespace PartitionMap

variable {all : Finset NodeID} {vnodes rf : ℕ} {pm : PartitionMap}

/-- The node that is responsible for a key. -/
def getNodeForKey (pm : PartitionMap) (key : List UInt8) : Except String NodeID :=
  pm.ring.getNode (hashKey key)

/-- The ring lists every member once, the owner of the key first. -/
theorem Sound.ringMembers (h : pm.Sound all vnodes rf) (hv : 0 < vnodes) (key : List UInt8) :
    (ringMembers pm.ring pm.nodes key).Perm pm.nodes ∧
      pm.getNodeForKey key = (((ringMembers pm.ring pm.nodes key).map Node.id).head?.map .ok).getD
        (.error "ring is empty") := by
  have hlisted : pm.ring.listed (hashKey key) pm.nodes.length =
      greedy (· ≠ ·) [] (pm.ring.walk (hashKey key)) := by
    rw [ConsistentHashRing.listed_eq]
    refine take_of_length_le ?_
    rw [length_greedy_ne, h.holds.card_walk]
    split
    · exact (toFinset_card_le _).trans (length_map _).le
    · exact Nat.zero_le _
  have hmem : ∀ id, id ∈ pm.ring.listed (hashKey key) pm.nodes.length ↔ id ∈ pm.nodes.map Node.id := by
    intro id
    rw [hlisted, mem_greedy_ne, h.holds.mem_walk, mem_toFinset, h.vnodes_eq, and_iff_left hv]
  have hids : (Cluster.ringMembers pm.ring pm.nodes key).map Node.id =
      pm.ring.listed (hashKey key) pm.nodes.length := by
    rw [Cluster.ringMembers, map_filterMap]
    refine (filterMap_congr (g := some) fun id hid => ?_).trans filterMap_some
    obtain ⟨n, hn, rfl⟩ := mem_map.mp ((hmem id).mp hid)
    rw [(find?_name h.nodup).mpr ⟨hn, rfl⟩]
    rfl
  refine ⟨?_, ?_⟩
  · have hnd : ((Cluster.ringMembers pm.ring pm.nodes key).map Node.id).Nodup := by
      rw [hids, hlisted]
      exact nodup_greedy_ne
    refine (perm_ext_iff_of_nodup (hnd.of_map _) (h.nodup.of_map _)).mpr fun n => ?_
    rw [Cluster.ringMembers, mem_filterMap]
    constructor
    · rintro ⟨id, -, hfind⟩
      exact mem_of_find?_eq_some hfind
    · intro hn
      exact ⟨n.id, (hmem n.id).mpr (mem_map_of_mem hn), (find?_name h.nodup).mpr ⟨hn, rfl⟩⟩
  · rw [hids, hlisted, getNodeForKey, ConsistentHashRing.getNode_eq (h.holds.sorted.imp le_of_lt),
      head?_greedy]

/-- The replica set of a key. -/
theorem Sound.getReplicasForKey (h : pm.Sound all vnodes rf) (hv : 0 < vnodes) (hne : pm.nodes ≠ [])
    (key : List UInt8) : pm.getReplicasForKey key =
      .ok (pickReplicas (Cluster.ringMembers pm.ring pm.nodes key) 0 rf) := by
  rw [PartitionMap.getReplicasForKey, h.rf_eq]
  refine replicasOnRing_eq fun hnil => hne ?_
  have hperm := (h.ringMembers hv key).1
  rw [hnil] at hperm
  exact hperm.symm.eq_nil

end PartitionMap

/-- After any history with a member left, every key has a replica set: distinct
members, as many as asked for and as there are, over as many racks as possible, and
the node that is responsible for the key first. -/
theorem replicas_of_history {all : Finset NodeID} {vnodes rf partitionCount : ℕ} {ops : List MapOp}
    (hdist : DistinctHashes vnodes all) (hops : ∀ op ∈ ops, ∀ id ∈ op.joining, id ∈ all)
    (hv : 0 < vnodes) (hrf : 1 ≤ rf)
    (hne : ((PartitionMap.new rf vnodes partitionCount).after ops).nodes ≠ []) (key : List UInt8) :
    ∃ order replicas,
      order.Perm ((PartitionMap.new rf vnodes partitionCount).after ops).nodes ∧
      ((PartitionMap.new rf vnodes partitionCount).after ops).getReplicasForKey key = .ok replicas ∧
      Spread order 0 rf replicas ∧
      ((PartitionMap.new rf vnodes partitionCount).after ops).getNodeForKey key =
        .ok (replicas.headD []) := by
  have h := (PartitionMap.sound_new all vnodes rf partitionCount).after hdist hops
  generalize (PartitionMap.new rf vnodes partitionCount).after ops = pm at h hne ⊢
  obtain ⟨hperm, hnode⟩ := h.ringMembers hv key
  have hspread : Spread (ringMembers pm.ring pm.nodes key) 0 rf
      (pickReplicas (ringMembers pm.ring pm.nodes key) 0 rf) :=
    pickReplicas_spread 0 ((hperm.map Node.id).nodup_iff.mpr h.nodup) hrf
  refine ⟨_, _, hperm, h.getReplicasForKey hv hne key, hspread, ?_⟩
  have hpos : 0 < (pickReplicas (ringMembers pm.ring pm.nodes key) 0 rf).length := by
    rw [hspread.length_eq, hperm.length_eq]
    exact Nat.lt_min.mpr ⟨hrf, length_pos_iff.mpr hne⟩
  have hhead := hspread.head?_eq
  rw [Nat.zero_mod, ← head?_eq_getElem?, ← head?_map] at hhead
  rw [hnode, ← hhead]
  cases hsel : pickReplicas (ringMembers pm.ring pm.nodes key) 0 rf with
  | nil => simp [hsel] at hpos
  | cons id rest => rfl

/-- Two members on two racks, one of which asked to join twice. -/
theorem replicas_of_history_two :
    ∃ replicas, ((PartitionMap.new 2 2 16).after [.addNode [97] 0, .addNode [98] 0, .addNode [97] 1,
        .setNodeRack [98] [114]]).getReplicasForKey [107] = .ok replicas ∧ replicas.length = 2 := by
  have hdist : DistinctHashes 2 {[97], [98]} := by unfold DistinctHashes; decide
  have hne : ((PartitionMap.new 2 2 16).after [.addNode [97] 0, .addNode [98] 0, .addNode [97] 1,
      .setNodeRack [98] [114]]).nodes ≠ [] := by decide
  obtain ⟨order, replicas, hperm, hget, hspread, -⟩ :=
    replicas_of_history hdist (by decide) (by decide) (by decide) hne [107]
  exact ⟨replicas, hget, by rw [hspread.length_eq, hperm.length_eq]; decide⟩

/-! ## Agreement -/

/-- Adding members one by one. -/
theorem holds_addAll {all nodes : Finset NodeID} {chr : ConsistentHashRing}
    {members : List (NodeID × List UInt8)} (hr : chr.Holds nodes)
    (hdist : DistinctHashes chr.replicas all) (hnodes : nodes ⊆ all)
    (hnd : (members.map Prod.fst).Nodup) (hnew : ∀ m ∈ members, m.1 ∉ nodes ∧ m.1 ∈ all) :
    (members.foldl (fun ring m => ring.addNode m.1) chr).Holds
        (nodes ∪ (members.map Prod.fst).toFinset) ∧
      (members.foldl (fun ring m => ring.addNode m.1) chr).replicas = chr.replicas := by
  induction members generalizing chr nodes with
  | nil => exact ⟨by simpa using hr, rfl⟩
  | cons m members ih =>
    rw [map_cons, nodup_cons] at hnd
    obtain ⟨hm, hall⟩ := hnew m mem_cons_self
    have hsub : insert m.1 nodes ⊆ all := Finset.insert_subset hall hnodes
    have hrest := ih (hr.addNode hm (hdist.mono hsub)) hdist hsub hnd.2 fun x hx => by
      refine ⟨fun hmem => ?_, (hnew x (mem_cons_of_mem _ hx)).2⟩
      rcases Finset.mem_insert.mp hmem with heq | hmem
      · exact hnd.1 (heq ▸ mem_map_of_mem hx)
      · exact (hnew x (mem_cons_of_mem _ hx)).1 hmem
    refine ⟨?_, hrest.2⟩
    rw [map_cons, toFinset_cons, Finset.union_insert, ← Finset.insert_union]
    exact hrest.1

theorem ReplicaPlacement.replicas_eq (p : ReplicaPlacement) (key : List UInt8) :
    p.replicas key = (replicasOnRing p.ring p.nodes p.rf key).toOption.getD [] := by
  rw [replicas]
  split
  next hnil =>
    -- without members there is nobody on the list
    rw [replicasOnRing, length_eq_zero_iff.mp hnil]
    cases p.ring.getNodeWithReplicas (hashKey key) 0 with
    | error => rfl
    | ok order => simp [Except.toOption]
  · cases replicasOnRing p.ring p.nodes p.rf key with
    | error => rfl
    | ok r => rfl

/-- Two nodes whose histories left the same members with the same racks agree on the
replica set of every key, and so does a placement that is computed from the members,
in whatever order they are visited. -/
theorem placement_agrees {all : Finset NodeID} {vnodes rf count count' : ℕ} {ops ops' : List MapOp}
    (hdist : DistinctHashes vnodes all) (hops : ∀ op ∈ ops, ∀ id ∈ op.joining, id ∈ all)
    (hops' : ∀ op ∈ ops', ∀ id ∈ op.joining, id ∈ all)
    (hsame : ((PartitionMap.new rf vnodes count).after ops).memberRacks.Perm
      ((PartitionMap.new rf vnodes count').after ops').memberRacks) (key : List UInt8) :
    ((PartitionMap.new rf vnodes count).after ops).getReplicasForKey key =
        ((PartitionMap.new rf vnodes count').after ops').getReplicasForKey key ∧
      ∀ members, members.Perm ((PartitionMap.new rf vnodes count).after ops).memberRacks →
        (ReplicaPlacement.new members vnodes rf).replicas key =
          (((PartitionMap.new rf vnodes count).after ops).getReplicasForKey key).toOption.getD [] := by
  have h := (PartitionMap.sound_new all vnodes rf count).after hdist hops
  have h' := (PartitionMap.sound_new all vnodes rf count').after hdist hops'
  generalize (PartitionMap.new rf vnodes count).after ops = pm at h hsame ⊢
  generalize (PartitionMap.new rf vnodes count').after ops' = pm' at h' hsame ⊢
  change (pm.nodes.map Node.member).Perm (pm'.nodes.map Node.member) at hsame
  have hfst : ∀ nodes : List Node, (nodes.map Node.member).map Prod.fst = nodes.map Node.id :=
    fun nodes => map_map
  constructor
  · have hring : pm.ring = pm'.ring := by
      refine h.holds.unique ?_ (h.vnodes_eq.trans h'.vnodes_eq.symm)
      rw [← hfst, toFinset_eq_of_perm _ _ (hsame.map Prod.fst), hfst]
      exact h'.holds
    rw [PartitionMap.getReplicasForKey, PartitionMap.getReplicasForKey, h.rf_eq, h'.rf_eq, hring]
    exact replicasOnRing_congr h.nodup hsame rf key
  · intro members hmembers
    change members.Perm (pm.nodes.map Node.member) at hmembers
    have hids := hmembers.map Prod.fst
    rw [hfst] at hids
    have hnodes : ((ReplicaPlacement.new members vnodes rf).nodes.map Node.member) = members := by
      rw [ReplicaPlacement.new, map_map]
      exact map_id members
    have hnd : ((ReplicaPlacement.new members vnodes rf).nodes.map Node.id).Nodup := by
      rw [← hfst, hnodes]
      exact hids.nodup_iff.mpr h.nodup
    have hring : (ReplicaPlacement.new members vnodes rf).ring = pm.ring := by
      obtain ⟨hholds, hreplicas⟩ := holds_addAll (ConsistentHashRing.holds_new vnodes) hdist
        (Finset.empty_subset all) (hids.nodup_iff.mpr h.nodup) fun m hm =>
          ⟨Finset.notMem_empty _, h.within (mem_toFinset.mpr (hids.subset (mem_map_of_mem hm)))⟩
      refine hholds.unique ?_ (hreplicas.trans h.vnodes_eq.symm)
      rw [Finset.empty_union, toFinset_eq_of_perm _ _ hids]
      exact h.holds
    rw [PartitionMap.getReplicasForKey, h.rf_eq, ← hring,
      ← replicasOnRing_congr hnd (hnodes.symm ▸ hmembers) rf key]
    exact ReplicaPlacement.replicas_eq _ key

/-- Two orders of joining, with a third member in one of them that has left again. -/
theorem placement_agrees_two :
    ((PartitionMap.new 2 2 16).after [.addNode [97] 0, .addNode [98] 0]).getReplicasForKey [107] =
      ((PartitionMap.new 2 2 8).after [.addNode [98] 0, .addNode [99] 1, .addNode [97] 2,
        .removeNodeWithEpoch [99] 3]).getReplicasForKey [107] := by
  have hdist : DistinctHashes 2 {[97], [98], [99]} := by unfold DistinctHashes; decide
  exact (placement_agrees hdist (by decide) (by decide) (by decide) [107]).1

/-! ## Fencing -/

namespace PartitionMap

/-- Along the history no change of the membership meets the greatest epoch, at which
the 64-bit counter would wrap around. -/
def Unwrapped (pm : PartitionMap) : List MapOp → Prop
  | [] => True
  | op :: ops => (op.isChange = true → pm.epoch.toNat + 1 < 2 ^ 64) ∧ (pm.told op).Unwrapped ops

/-- A change of the membership advances the epoch, and nothing else sets it back. -/
theorem epoch_apply {pm pm' : PartitionMap} {op : MapOp} (hok : op.apply pm = .ok pm')
    (hroom : op.isChange = true → pm.epoch.toNat + 1 < 2 ^ 64) :
    pm.epoch ≤ pm'.epoch ∧ (op.isChange = true → pm.epoch < pm'.epoch) := by
  have hlt : op.isChange = true → pm.epoch < pm.epoch + 1 := fun hchange => by
    have := hroom hchange
    rw [UInt64.lt_iff_toNat_lt, UInt64.toNat_add]
    simp only [UInt64.reduceToNat]
    omega
  cases change_apply hok with
  | joined nodeID nowNs hop =>
    have hchange := MapOp.isChange_of_joining hop
    exact ⟨UInt64.le_of_lt (hlt hchange), hlt⟩
  | left nodeID hchange => exact ⟨UInt64.le_of_lt (hlt hchange), hlt⟩
  | updated _ hop _ _ _ hepoch => exact ⟨hepoch, fun hchange => by simp [hop] at hchange⟩

theorem epoch_le_after {pm : PartitionMap} {ops : List MapOp} (hroom : pm.Unwrapped ops) :
    pm.epoch ≤ (pm.after ops).epoch := by
  induction ops generalizing pm with
  | nil => exact UInt64.le_rfl
  | cons op ops ih =>
    refine UInt64.le_trans ?_ (ih hroom.2)
    rw [told]
    split
    next hok => exact (epoch_apply hok hroom.1).1
    · exact UInt64.le_rfl

end PartitionMap

/-- A change of the membership that was decided at an epoch is refused once another
change has been accepted since, whatever else has happened, as long as the epoch has
not wrapped around.  A change that is accepted at the greatest epoch makes it zero,
and every decision is then accepted. -/
theorem stale_after_change {pm pm' : PartitionMap} {op : MapOp} (hchange : op.isChange = true)
    (hok : op.apply pm = .ok pm') :
    (∀ (observed : UInt64) (ops : List MapOp) (nodeID : NodeID) (nowNs : Int),
      observed ≤ pm.epoch → pm.Unwrapped (op :: ops) →
      (pm.after (op :: ops)).addNodeWithEpoch nodeID nowNs observed = .error .staleEpoch ∧
        (pm.after (op :: ops)).removeNodeWithEpoch nodeID observed = .error .staleEpoch ∧
        (pm.after (op :: ops)).validateEpoch observed = false) ∧
      (pm.epoch.toNat = 2 ^ 64 - 1 → ∀ observed, pm'.validateEpoch observed = true) := by
  constructor
  · intro observed ops nodeID nowNs hobserved hroom
    have htold : pm.told op = pm' := by rw [PartitionMap.told, hok]
    have hlt : observed < (pm.after (op :: ops)).epoch := by
      have hnow := (PartitionMap.epoch_apply hok hroom.1).2 hchange
      have hlater := PartitionMap.epoch_le_after hroom.2
      rw [htold] at hlater
      rw [PartitionMap.after, foldl_cons, htold]
      exact UInt64.lt_of_lt_of_le (UInt64.lt_of_le_of_lt hobserved hnow) hlater
    refine ⟨if_pos hlt, if_pos hlt, ?_⟩
    simpa [PartitionMap.validateEpoch] using hlt
  · intro hlast observed
    have hzero : pm'.epoch = 0 := by
      have hepoch : pm'.epoch = pm.epoch + 1 := by
        cases PartitionMap.change_apply hok with
        | joined | left => rfl
        | updated _ hop => simp [hop] at hchange
      rw [hepoch]
      apply UInt64.toNat_inj.mp
      simp [UInt64.toNat_add, hlast]
    simp [PartitionMap.validateEpoch, hzero]

/-- A departure that was decided before another node joined. -/
theorem stale_after_change_join :
    ((PartitionMap.new 2 2 16).after [.addNode [97] 0, .setNodeRack [97] [114]]).removeNodeWithEpoch
      [97] 0 = .error .staleEpoch := by
  have hroom : (PartitionMap.new 2 2 16).Unwrapped [.addNode [97] 0, .setNodeRack [97] [114]] :=
    ⟨fun _ => by decide, And.intro (fun hchange => by cases hchange) trivial⟩
  exact ((stale_after_change rfl rfl).1 0 _ [97] 0 UInt64.le_rfl hroom).2.1

end VeltrixDB.Cluster
