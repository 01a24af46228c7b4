import Mathlib.Data.Finset.Card
import Mathlib.Data.List.Sort
import VeltrixDB.Lib.ByteOrder
import VeltrixDB.Lib.Bytes
import VeltrixDB.Lib.Selection
import VeltrixDB.Lib.SortedTable

/-!
# The consistent hash ring

The ring of virtual nodes, following `ConsistentHashRing` in
`cluster/partition_map.go`: nodes are added and removed, a hash is looked up
by binary search with wrap-around, and the successors of a hash are collected
without repeating a node.

Main results:

- Theorem `ConsistentHashRing.Holds.unique`: a ring is determined by its
  nodes.
- Theorem `ConsistentHashRing.Holds.walk_removeNode`: the owners met on the
  way around after a node was removed are the other owners met before.
- Theorem `ringAfter_consistent`: after any sequence of additions and
  removals the ring depends on the node set only, a change moves keys only to or
  from the node that changed, and the successors of a hash are distinct nodes
  that keep their order.
-/

namespace VeltrixDB.Cluster

open List SortedTable

open scoped Bytes
open Bytes (fnv64a)
open Selection

abbrev NodeID := List UInt8

/-! ## Hashes -/

/-- The finalizer that spreads every input bit. -/
def fmix64 (k : UInt64) : UInt64 :=
  let k := k ^^^ (k >>> 33)
  let k := k * 0xff51afd7ed558ccd
  let k := k ^^^ (k >>> 33)
  let k := k * 0xc4ceb9fe1a85ec53
  k ^^^ (k >>> 33)

/-- The position of a string on the ring. -/
def hashValue (s : List UInt8) : ℕ := (fmix64 (fnv64a s)).toNat

def decimal (n : ℕ) : List UInt8 := (Nat.toDigits 10 n).map fun c => UInt8.ofNat c.toNat

/-- The position of a node's `i`-th virtual node: the hash of the name, a
colon and the number. -/
def virtualHash (nodeID : NodeID) (i : ℕ) : ℕ := hashValue (nodeID ++ [58] ++ decimal i)

/-! ## The ring -/

/-- Virtual nodes with their owners, and their positions in ascending order. -/
structure ConsistentHashRing where
  virtualNodes : SortedTable ℕ NodeID
  sortedKeys : List ℕ
  replicas : ℕ

namespace ConsistentHashRing

def new (virtualNodesPerNode : ℕ) : ConsistentHashRing where
  virtualNodes := .empty
  sortedKeys := []
  replicas := virtualNodesPerNode

variable (chr : ConsistentHashRing)

def hashes (nodeID : NodeID) : List ℕ :=
  (List.range chr.replicas).map (virtualHash nodeID)

/-- Add a node: its virtual nodes are entered one by one, then the positions are
sorted again. -/
def addNode (nodeID : NodeID) : ConsistentHashRing where
  virtualNodes := (chr.hashes nodeID).foldl (fun t h => t.put h nodeID) chr.virtualNodes
  sortedKeys := (chr.sortedKeys ++ chr.hashes nodeID).insertionSort (· ≤ ·)
  replicas := chr.replicas

def keysToRemove (nodeID : NodeID) : List ℕ :=
  chr.virtualNodes.keys.filter fun h => chr.virtualNodes.find h == some nodeID

/-- Remove a node: every position it owns is deleted, and the sorted positions
are rebuilt from what is left. -/
def removeNode (nodeID : NodeID) : ConsistentHashRing :=
  let virtualNodes := (chr.keysToRemove nodeID).foldl (fun t h => t.delete h) chr.virtualNodes
  { virtualNodes := virtualNodes
    sortedKeys := virtualNodes.keys.insertionSort (· ≤ ·)
    replicas := chr.replicas }

/-- The owner of a position; a position without owner has the empty name. -/
def owner (h : ℕ) : NodeID :=
  (chr.virtualNodes.find h).getD []

/-- Where the walk for a hash starts: the first position at or after it, or the
first one of all. -/
def startIndex (hash : ℕ) : ℕ :=
  wrap chr.sortedKeys.length (lowerBound chr.sortedKeys hash)

/-- The node that is responsible for a hash. -/
def getNode (hash : ℕ) : Except String NodeID :=
  if chr.sortedKeys.length = 0 then .error "ring is empty"
  else .ok (chr.owner (chr.sortedKeys.getD (chr.startIndex hash) 0))

/-- One round of the walk: the owner of the next position is added unless it was
met before or enough nodes were found. -/
def collect (idx count : ℕ) (replicas : List NodeID) (i : ℕ) : List NodeID :=
  if replicas.length < count then
    let nodeID := chr.owner (chr.sortedKeys.getD ((idx + i) % chr.sortedKeys.length) 0)
    if nodeID ∈ replicas then replicas else replicas ++ [nodeID]
  else replicas

/-- The first `count` nodes that are met from a hash on. -/
def getNodeWithReplicas (hash count : ℕ) : Except String (List NodeID) :=
  if chr.sortedKeys.length = 0 then .error "ring is empty"
  else
    .ok ((List.range chr.sortedKeys.length).foldl
      (chr.collect (chr.startIndex hash) count) [])

/-- What a lookup of several nodes lists; nothing when it fails. -/
def listed (hash count : ℕ) : List NodeID :=
  match chr.getNodeWithReplicas hash count with
  | .ok replicas => replicas
  | .error _ => []

end ConsistentHashRing

/-! ## The walk around the ring -/

section Walk

variable {chr : ConsistentHashRing}

/-- The owners in the order in which they are met from a hash on, with
repetitions. -/
def ConsistentHashRing.walk (chr : ConsistentHashRing) (hash : ℕ) : List NodeID :=
  (chr.sortedKeys.rotate (chr.startIndex hash)).map chr.owner

theorem ConsistentHashRing.startIndex_lt (h : chr.sortedKeys ≠ []) (hash : ℕ)
    (hsorted : chr.sortedKeys.Pairwise (· ≤ ·)) :
    chr.startIndex hash < chr.sortedKeys.length := by
  have hpos := length_pos_iff.mpr h
  have hle := (lowerBound_spec hsorted hash).1
  unfold startIndex wrap
  split
  · exact hpos
  · omega

/-- The lookup returns the first owner of the walk. -/
theorem ConsistentHashRing.getNode_eq (hsorted : chr.sortedKeys.Pairwise (· ≤ ·)) (hash : ℕ) :
    chr.getNode hash = ((chr.walk hash).head?.map .ok).getD (.error "ring is empty") := by
  unfold getNode walk
  by_cases hempty : chr.sortedKeys = []
  · simp [hempty]
  · have hlt := startIndex_lt hempty hash hsorted
    rw [if_neg (by rwa [length_eq_zero_iff]), List.head?_map, List.head?_rotate hlt,
      getD_eq_getElem _ _ hlt, List.getElem?_eq_getElem hlt]
    rfl

theorem ConsistentHashRing.listed_eq (hash count : ℕ) :
    chr.listed hash count = (greedy (· ≠ ·) [] (chr.walk hash)).take count := by
  unfold listed getNodeWithReplicas
  by_cases hempty : chr.sortedKeys = []
  · simp [hempty, walk, greedy]
  · rw [if_neg (by rwa [length_eq_zero_iff])]
    rw [← greedyUpTo_eq_take (by simp), walk, ← map_getD_rotate _ _ 0, map_map,
      ← foldl_eq_greedyUpTo (f := fun kept a =>
        if kept.length < count then if a ∈ kept then kept else kept ++ [a] else kept)]
    · rw [foldl_map]
      rfl
    · intro kept a
      have hnew : (∀ b ∈ kept, b ≠ a) ↔ a ∉ kept :=
        ⟨fun h ha => h a ha rfl, fun h b hb heq => h (heq ▸ hb)⟩
      simp only [hnew, ite_not]

end Walk

/-! ## What a ring holds -/

/-- The ring holds exactly the virtual nodes of the given nodes. -/
structure ConsistentHashRing.Holds (chr : ConsistentHashRing) (nodes : Finset NodeID) : Prop where
  find_iff : ∀ h id, chr.virtualNodes.find h = some id ↔ id ∈ nodes ∧ h ∈ chr.hashes id
  keys_eq : chr.sortedKeys = chr.virtualNodes.keys

/-- The virtual nodes of the nodes have pairwise distinct positions. -/
def DistinctHashes (replicas : ℕ) (nodes : Finset NodeID) : Prop :=
  ∀ a ∈ nodes, ∀ b ∈ nodes, ∀ i < replicas, ∀ j < replicas,
    virtualHash a i = virtualHash b j → a = b ∧ i = j

theorem DistinctHashes.mono {replicas : ℕ} {nodes nodes' : Finset NodeID}
    (h : DistinctHashes replicas nodes) (hsub : nodes' ⊆ nodes) :
    DistinctHashes replicas nodes' :=
  fun a ha b hb => h a (hsub ha) b (hsub hb)

section Table

variable {κ α : Type*} [LinearOrder κ] (t : SortedTable κ α)

theorem find_foldl_put (hs : List κ) (a : α) (k : κ) :
    (hs.foldl (fun t h => t.put h a) t).find k = if k ∈ hs then some a else t.find k := by
  induction hs generalizing t with
  | nil => simp
  | cons h hs ih =>
    rw [foldl_cons, ih]
    by_cases hk : k ∈ hs
    · simp [hk]
    · by_cases hkh : k = h
      · simp [hkh]
      · simp [hkh]

theorem find_foldl_delete (hs : List κ) (k : κ) :
    (hs.foldl (fun t h => t.delete h) t).find k = if k ∈ hs then none else t.find k := by
  induction hs generalizing t with
  | nil => simp
  | cons h hs ih =>
    rw [foldl_cons, ih]
    by_cases hk : k ∈ hs
    · simp [hk]
    · by_cases hkh : k = h
      · simp [hkh]
      · simp [hkh]

end Table

namespace ConsistentHashRing

variable {chr : ConsistentHashRing} {nodes : Finset NodeID} {x id : NodeID}

theorem mem_hashes {h : ℕ} : h ∈ chr.hashes id ↔ ∃ i < chr.replicas, virtualHash id i = h := by
  simp [hashes]

theorem Holds.sorted (hr : chr.Holds nodes) : chr.sortedKeys.Pairwise (· < ·) :=
  hr.keys_eq ▸ chr.virtualNodes.sorted

theorem Holds.mem_sortedKeys (hr : chr.Holds nodes) {h : ℕ} :
    h ∈ chr.sortedKeys ↔ ∃ id ∈ nodes, h ∈ chr.hashes id := by
  rw [hr.keys_eq, chr.virtualNodes.mem_keys, Option.isSome_iff_exists]
  simp only [hr.find_iff]

/-- The owner of a position on the ring is the node whose virtual node it is. -/
theorem Holds.owner_eq_iff (hr : chr.Holds nodes) {h : ℕ} (hh : h ∈ chr.sortedKeys) :
    chr.owner h = id ↔ chr.virtualNodes.find h = some id := by
  rw [hr.keys_eq, chr.virtualNodes.mem_keys, Option.isSome_iff_exists] at hh
  obtain ⟨a, ha⟩ := hh
  rw [owner, ha, Option.getD_some, Option.some.injEq]

theorem holds_new (replicas : ℕ) : (new replicas).Holds ∅ where
  find_iff := by simp [new, empty]
  keys_eq := rfl

theorem insertionSort_keys {α : Type*} (t : SortedTable ℕ α) :
    t.keys.insertionSort (· ≤ ·) = t.keys :=
  (t.sorted.imp fun h => h.le).insertionSort_eq

theorem find_addNode (h : ℕ) : (chr.addNode x).virtualNodes.find h =
    if h ∈ chr.hashes x then some x else chr.virtualNodes.find h :=
  find_foldl_put _ _ _ _

theorem find_removeNode (h : ℕ) : (chr.removeNode x).virtualNodes.find h =
    if chr.virtualNodes.find h = some x then none else chr.virtualNodes.find h := by
  have hmem : h ∈ chr.keysToRemove x ↔ chr.virtualNodes.find h = some x := by
    rw [keysToRemove, mem_filter, chr.virtualNodes.mem_keys, beq_iff_eq]
    constructor
    · exact And.right
    · intro hx
      exact ⟨by rw [hx]; rfl, hx⟩
  rw [← ite_congr (propext hmem) (fun _ => rfl) fun _ => rfl]
  exact find_foldl_delete _ _ _

theorem Holds.addNode (hr : chr.Holds nodes) (hx : x ∉ nodes)
    (hdist : DistinctHashes chr.replicas (insert x nodes)) :
    (chr.addNode x).Holds (insert x nodes) := by
  have hfresh : ∀ h ∈ chr.hashes x, ∀ id ∈ nodes, h ∉ chr.hashes id := by
    intro h hh id hid hh'
    obtain ⟨i, hi, rfl⟩ := mem_hashes.mp hh
    obtain ⟨j, hj, heq⟩ := mem_hashes.mp hh'
    have := (hdist id (Finset.mem_insert_of_mem hid) x (Finset.mem_insert_self x nodes) j hj i hi
      heq).1
    exact hx (this ▸ hid)
  have hfind : ∀ h id, (chr.addNode x).virtualNodes.find h = some id ↔
      id ∈ insert x nodes ∧ h ∈ chr.hashes id := by
    intro h id
    rw [find_addNode, Finset.mem_insert]
    split
    next hh =>
      rw [Option.some.injEq]
      constructor
      · rintro rfl
        exact ⟨.inl rfl, hh⟩
      · rintro ⟨rfl | hid, hid'⟩
        · rfl
        · exact absurd hid' (hfresh h hh id hid)
    next hh =>
      rw [hr.find_iff]
      constructor
      · rintro ⟨hid, hid'⟩
        exact ⟨.inr hid, hid'⟩
      · rintro ⟨rfl | hid, hid'⟩
        · exact absurd hid' hh
        · exact ⟨hid, hid'⟩
  refine ⟨hfind, ?_⟩
  -- Both lists are ascending without repetition and have the same members.
  have hnodup : (chr.sortedKeys ++ chr.hashes x).Nodup := by
    refine List.Nodup.append (hr.sorted.imp ne_of_lt) ?_ ?_
    · refine List.Nodup.map_on (fun i hi j hj heq => ?_) nodup_range
      have hxx := Finset.mem_insert_self x nodes
      exact (hdist x hxx x hxx i (mem_range.mp hi) j (mem_range.mp hj) heq).2
    · intro h hh hh'
      obtain ⟨id, hid, hid'⟩ := hr.mem_sortedKeys.mp hh
      exact hfresh h hh' id hid hid'
  refine eq_of_mem_iff ?_ (chr.addNode x).virtualNodes.sorted fun h => ?_
  · have hle := pairwise_insertionSort (· ≤ ·) (chr.sortedKeys ++ chr.hashes x)
    have hne := (perm_insertionSort (· ≤ ·) _).nodup_iff.mpr hnodup
    exact hle.imp₂ (fun _ _ => lt_of_le_of_ne) hne
  · rw [(chr.addNode x).virtualNodes.mem_keys, Option.isSome_iff_exists]
    simp only [hfind]
    rw [show (chr.addNode x).sortedKeys =
      (chr.sortedKeys ++ chr.hashes x).insertionSort (· ≤ ·) from rfl, mem_insertionSort,
      mem_append, hr.mem_sortedKeys]
    simp [or_comm]

theorem Holds.removeNode (hr : chr.Holds nodes) : (chr.removeNode x).Holds (nodes.erase x) where
  find_iff := by
    intro h id
    rw [find_removeNode, Finset.mem_erase]
    split
    next hx =>
      simp only [reduceCtorEq, false_iff, not_and]
      intro hid hh
      have := hx.symm.trans ((hr.find_iff h id).mpr ⟨hid.2, hh⟩)
      exact hid.1 (Option.some.inj this).symm
    next hx =>
      rw [hr.find_iff]
      constructor
      · rintro ⟨hid, hh⟩
        refine ⟨⟨?_, hid⟩, hh⟩
        rintro rfl
        exact hx ((hr.find_iff h id).mpr ⟨hid, hh⟩)
      · rintro ⟨⟨-, hid⟩, hh⟩
        exact ⟨hid, hh⟩
  keys_eq := insertionSort_keys _

/-- A ring is determined by its nodes and the number of virtual nodes of each. -/
theorem Holds.unique {chr' : ConsistentHashRing} (hr : chr.Holds nodes) (hr' : chr'.Holds nodes)
    (hreplicas : chr.replicas = chr'.replicas) : chr = chr' := by
  have hhashes : ∀ id, chr.hashes id = chr'.hashes id := by
    intro id
    rw [hashes, hashes, hreplicas]
  have hfind : chr.virtualNodes.find = chr'.virtualNodes.find := by
    funext h
    apply Option.ext
    intro id
    rw [hr.find_iff, hr'.find_iff, hhashes]
  have hkeys : chr.virtualNodes.keys = chr'.virtualNodes.keys := by
    apply eq_of_mem_iff chr.virtualNodes.sorted chr'.virtualNodes.sorted
    intro h
    rw [chr.virtualNodes.mem_keys, chr'.virtualNodes.mem_keys, hfind]
  have hsorted : chr.sortedKeys = chr'.sortedKeys := by rw [hr.keys_eq, hr'.keys_eq, hkeys]
  obtain ⟨⟨keys, find, _, _⟩, sortedKeys, replicas⟩ := chr
  subst hfind hkeys hsorted hreplicas
  rfl

/-! ## Changing a node -/

section

variable (hr : chr.Holds nodes)
include hr

theorem Holds.walk_eq (hash : ℕ) : chr.walk hash =
    (chr.sortedKeys.filter (hash ≤ ·) ++ chr.sortedKeys.filter (· < hash)).map chr.owner := by
  rw [walk, startIndex, rotate_search (hr.sorted.imp le_of_lt)]

theorem Holds.mem_walk {hash : ℕ} : id ∈ chr.walk hash ↔ id ∈ nodes ∧ 0 < chr.replicas := by
  rw [walk, mem_map]
  simp only [mem_rotate]
  constructor
  · rintro ⟨h, hh, rfl⟩
    have hfind := (hr.owner_eq_iff hh).mp rfl
    obtain ⟨hid, hh'⟩ := (hr.find_iff _ _).mp hfind
    obtain ⟨i, hi, -⟩ := mem_hashes.mp hh'
    exact ⟨hid, by omega⟩
  · rintro ⟨hid, hpos⟩
    have hh : virtualHash id 0 ∈ chr.hashes id := mem_hashes.mpr ⟨0, hpos, rfl⟩
    have hmem := hr.mem_sortedKeys.mpr ⟨id, hid, hh⟩
    exact ⟨_, hmem, (hr.owner_eq_iff hmem).mpr ((hr.find_iff _ _).mpr ⟨hid, hh⟩)⟩

/-- The owners met on the way around after a node was removed are the other
owners met before. -/
theorem Holds.walk_removeNode (hash : ℕ) :
    (chr.removeNode x).walk hash = (chr.walk hash).filter (· ≠ x) := by
  have hr' := hr.removeNode (x := x)
  have hkeys : (chr.removeNode x).sortedKeys =
      chr.sortedKeys.filter (fun h => chr.owner h ≠ x) := by
    refine eq_of_mem_iff hr'.sorted (hr.sorted.filter _) fun h => ?_
    rw [List.mem_filter, hr'.keys_eq, hr.keys_eq, SortedTable.mem_keys, SortedTable.mem_keys,
      find_removeNode, owner]
    cases hfind : chr.virtualNodes.find h with
    | none => simp
    | some id => by_cases hid : id = x <;> simp [hid]
  have howner : ∀ h ∈ (chr.removeNode x).sortedKeys, (chr.removeNode x).owner h = chr.owner h := by
    intro h hh
    have hne := (List.mem_filter.mp (hkeys ▸ hh)).2
    rw [owner, owner, find_removeNode]
    split
    next hx => simp [owner, hx] at hne
    · rfl
  rw [hr'.walk_eq, hr.walk_eq]
  rw [List.map_congr_left fun h hh => howner h ?_]
  · rw [hkeys, List.filter_map]
    rw [List.filter_append, List.filter_filter, List.filter_filter, List.filter_filter,
      List.filter_filter]
    simp only [Bool.and_comm, Function.comp_apply]
  · rcases List.mem_append.mp hh with hh | hh
    · exact (List.mem_filter.mp hh).1
    · exact (List.mem_filter.mp hh).1

theorem Holds.getNode_removeNode {hash : ℕ} (h : chr.getNode hash ≠ .ok x) :
    (chr.removeNode x).getNode hash = chr.getNode hash := by
  have hr' := hr.removeNode (x := x)
  rw [getNode_eq (hr.sorted.imp le_of_lt)] at h ⊢
  rw [getNode_eq (hr'.sorted.imp le_of_lt), hr.walk_removeNode]
  cases hwalk : chr.walk hash with
  | nil => rfl
  | cons a =>
    have ha : a ≠ x := by
      rintro rfl
      rw [hwalk] at h
      exact h rfl
    rw [filter_cons_of_pos (by simpa using ha)]
    rfl

theorem Holds.card_walk (hash : ℕ) :
    (chr.walk hash).dedup.length = if 0 < chr.replicas then nodes.card else 0 := by
  have hset : (chr.walk hash).toFinset = if 0 < chr.replicas then nodes else ∅ := by
    ext id
    rw [mem_toFinset, hr.mem_walk]
    split
    next hpos => simp [hpos]
    next hpos => simp [hpos]
  rw [← card_toFinset, hset]
  split
  · rfl
  · rfl

end

end ConsistentHashRing

/-! ## Histories of changes -/

inductive RingOp where
  | add (nodeID : NodeID)
  | remove (nodeID : NodeID)

def RingOp.nodeID : RingOp → NodeID
  | .add nodeID => nodeID
  | .remove nodeID => nodeID

def RingOp.apply (chr : ConsistentHashRing) : RingOp → ConsistentHashRing
  | .add nodeID => chr.addNode nodeID
  | .remove nodeID => chr.removeNode nodeID

def RingOp.nodes (nodes : Finset NodeID) : RingOp → Finset NodeID
  | .add nodeID => insert nodeID nodes
  | .remove nodeID => nodes.erase nodeID

def ringAfter (replicas : ℕ) (ops : List RingOp) : ConsistentHashRing :=
  ops.foldl RingOp.apply (.new replicas)

def nodesAfter (ops : List RingOp) : Finset NodeID := ops.foldl RingOp.nodes ∅

def AddsAbsent : Finset NodeID → List RingOp → Prop
  | _, [] => True
  | nodes, .add nodeID :: ops => nodeID ∉ nodes ∧ AddsAbsent (insert nodeID nodes) ops
  | nodes, .remove nodeID :: ops => AddsAbsent (nodes.erase nodeID) ops

def involved (ops : List RingOp) : Finset NodeID := (ops.map RingOp.nodeID).toFinset

/-- A legal history whose virtual nodes do not meet. -/
structure RingHistory (replicas : ℕ) (ops : List RingOp) : Prop where
  addsAbsent : AddsAbsent ∅ ops
  distinct : DistinctHashes replicas (involved ops)

theorem replicas_foldl_apply (ops : List RingOp) (chr : ConsistentHashRing) :
    (ops.foldl RingOp.apply chr).replicas = chr.replicas := by
  induction ops generalizing chr with
  | nil => rfl
  | cons op ops ih =>
    rw [foldl_cons, ih]
    cases op <;> rfl

/-- Every change keeps the ring in step with the nodes. -/
theorem holds_foldl {ops : List RingOp} {chr : ConsistentHashRing} {nodes all : Finset NodeID}
    (hr : chr.Holds nodes) (hlegal : AddsAbsent nodes ops) (hsub : nodes ⊆ all)
    (hops : ∀ op ∈ ops, op.nodeID ∈ all) (hdist : DistinctHashes chr.replicas all) :
    (ops.foldl RingOp.apply chr).Holds (ops.foldl RingOp.nodes nodes) := by
  induction ops generalizing chr nodes with
  | nil => exact hr
  | cons op ops ih =>
    have hops' : ∀ op' ∈ ops, op'.nodeID ∈ all :=
      fun op' h => hops op' (mem_cons_of_mem op h)
    have hop := hops op mem_cons_self
    cases op with
    | add nodeID =>
      have hsub' : insert nodeID nodes ⊆ all := Finset.insert_subset hop hsub
      exact ih (hr.addNode hlegal.1 (hdist.mono hsub')) hlegal.2 hsub' hops' hdist
    | remove nodeID =>
      exact ih hr.removeNode hlegal ((Finset.erase_subset nodeID nodes).trans hsub) hops' hdist

open ConsistentHashRing

theorem RingHistory.holds {replicas : ℕ} {ops : List RingOp} (h : RingHistory replicas ops) :
    (ringAfter replicas ops).Holds (nodesAfter ops) := by
  refine holds_foldl (holds_new replicas) h.addsAbsent (Finset.empty_subset _)
    (fun op hop => ?_) h.distinct
  rw [involved, mem_toFinset]
  exact mem_map_of_mem hop

theorem addsAbsent_append {nodes : Finset NodeID} {ops ops' : List RingOp} :
    AddsAbsent nodes (ops ++ ops') ↔
      AddsAbsent nodes ops ∧ AddsAbsent (ops.foldl RingOp.nodes nodes) ops' := by
  induction ops generalizing nodes with
  | nil => simp [AddsAbsent]
  | cons op ops ih =>
    cases op with
    | add => simp only [cons_append, AddsAbsent, ih, and_assoc]; rfl
    | remove => exact ih

section History

variable {replicas : ℕ} {ops : List RingOp} {x : NodeID}

theorem ringAfter_append (op : RingOp) :
    ringAfter replicas (ops ++ [op]) = op.apply (ringAfter replicas ops) := by
  rw [ringAfter, foldl_append]
  rfl

theorem replicas_ringAfter : (ringAfter replicas ops).replicas = replicas :=
  replicas_foldl_apply ops _

theorem RingHistory.getNode_add (h : RingHistory replicas ops)
    (h' : RingHistory replicas (ops ++ [.add x])) (hash : ℕ) :
    (ringAfter replicas (ops ++ [.add x])).getNode hash = (ringAfter replicas ops).getNode hash ∨
      (ringAfter replicas (ops ++ [.add x])).getNode hash = .ok x := by
  have hx : x ∉ nodesAfter ops := (addsAbsent_append.mp h'.addsAbsent).2.1
  have hr' := h'.holds
  have hnodes : nodesAfter (ops ++ [.add x]) = insert x (nodesAfter ops) := by
    rw [nodesAfter, foldl_append]
    rfl
  rw [ringAfter_append] at hr' ⊢
  have hundo : ((ringAfter replicas ops).addNode x).removeNode x = ringAfter replicas ops := by
    rw [hnodes] at hr'
    have hback := hr'.removeNode (x := x)
    rw [Finset.erase_insert hx] at hback
    exact hback.unique h.holds rfl
  refine or_iff_not_imp_right.mpr fun hne => ?_
  have hstay := hr'.getNode_removeNode hne
  rw [show (RingOp.add x).apply (ringAfter replicas ops) = (ringAfter replicas ops).addNode x from
    rfl] at hstay ⊢
  rw [← hstay, hundo]

/-- The successors of a hash: distinct, as many as asked for and as there are, the
owner first. -/
theorem RingHistory.listed_spec (h : RingHistory replicas ops) (hash n : ℕ) :
    ((ringAfter replicas ops).listed hash n).Nodup ∧
      (∀ id ∈ (ringAfter replicas ops).listed hash n, id ∈ nodesAfter ops) ∧
      ((ringAfter replicas ops).listed hash n).length =
        min n (if 0 < replicas then (nodesAfter ops).card else 0) ∧
      (0 < n → (ringAfter replicas ops).getNode hash =
        (((ringAfter replicas ops).listed hash n).head?.map .ok).getD
          (.error "ring is empty")) := by
  rw [listed_eq]
  refine ⟨nodup_greedy_ne.sublist (take_sublist _ _), fun id hid => ?_, ?_, fun hn => ?_⟩
  · have hmem := mem_greedy_ne.mp (mem_of_mem_take hid)
    exact (h.holds.mem_walk.mp hmem).1
  · rw [length_take, length_greedy_ne, h.holds.card_walk, replicas_ringAfter]
  · obtain ⟨n, rfl⟩ := Nat.exists_eq_succ_of_ne_zero hn.ne'
    rw [getNode_eq (h.holds.sorted.imp le_of_lt), List.head?_take,
      if_neg (Nat.succ_ne_zero n), head?_greedy]

theorem RingHistory.listed_remove (h : RingHistory replicas ops) (hash : ℕ) {n : ℕ}
    (hn : (nodesAfter ops).card ≤ n) :
    (ringAfter replicas (ops ++ [.remove x])).listed hash n =
      ((ringAfter replicas ops).listed hash n).filter (· ≠ x) := by
  have hfull : (greedy (· ≠ ·) [] ((ringAfter replicas ops).walk hash)).length ≤ n := by
    rw [length_greedy_ne, h.holds.card_walk]
    split
    · exact hn
    · exact Nat.zero_le n
  have hfilter := greedy_ne_filter (l := (ringAfter replicas ops).walk hash)
    (fun id => decide (id ≠ x)) []
  rw [filter_nil] at hfilter
  rw [ringAfter_append, listed_eq, listed_eq, take_of_length_le hfull]
  show (greedy _ [] (((ringAfter replicas ops).removeNode x).walk hash)).take n = _
  rw [h.holds.walk_removeNode, hfilter]
  exact take_of_length_le ((length_filter_le _ _).trans hfull)

end History

/-- After any history of additions and removals the ring depends on the resulting
nodes only.  Adding a node changes the owner of a hash only to the new node, and
removing one changes it only where it was the removed one.  The successors of a
hash are as many distinct nodes as asked for and as there are, the owner first;
removing a node deletes it from the full list. -/
theorem ringAfter_consistent {replicas : ℕ} {ops : List RingOp} (h : RingHistory replicas ops) :
    (∀ ops', RingHistory replicas ops' → nodesAfter ops' = nodesAfter ops →
      ringAfter replicas ops' = ringAfter replicas ops) ∧
    (∀ x, RingHistory replicas (ops ++ [.add x]) → ∀ hash,
      (ringAfter replicas (ops ++ [.add x])).getNode hash = (ringAfter replicas ops).getNode hash ∨
        (ringAfter replicas (ops ++ [.add x])).getNode hash = .ok x) ∧
    (∀ x hash, (ringAfter replicas (ops ++ [.remove x])).getNode hash =
        (ringAfter replicas ops).getNode hash ∨
      (ringAfter replicas ops).getNode hash = .ok x) ∧
    (∀ hash n, ((ringAfter replicas ops).listed hash n).Nodup ∧
      (∀ id ∈ (ringAfter replicas ops).listed hash n, id ∈ nodesAfter ops) ∧
      ((ringAfter replicas ops).listed hash n).length =
        min n (if 0 < replicas then (nodesAfter ops).card else 0) ∧
      (0 < n → (ringAfter replicas ops).getNode hash =
        (((ringAfter replicas ops).listed hash n).head?.map .ok).getD
          (.error "ring is empty"))) ∧
    ∀ x hash n, (nodesAfter ops).card ≤ n →
      (ringAfter replicas (ops ++ [.remove x])).listed hash n =
        ((ringAfter replicas ops).listed hash n).filter (· ≠ x) := by
  refine ⟨fun ops' h' heq => ?_, fun x h' => h.getNode_add h', fun x hash => ?_, h.listed_spec,
    fun x hash n => h.listed_remove hash⟩
  · have hr' := h'.holds
    rw [heq] at hr'
    exact hr'.unique h.holds (replicas_ringAfter.trans replicas_ringAfter.symm)
  · refine or_iff_not_imp_right.mpr fun hne => ?_
    rw [ringAfter_append]
    exact h.holds.getNode_removeNode hne

/-- Two nodes with two virtual nodes each, of which the first is removed again. -/
theorem ringAfter_consistent_two :
    RingHistory 2 [.add [97], .add [98], .remove [97]] ∧
      (ringAfter 2 [.add [97], .add [98], .remove [97]] = ringAfter 2 [.add [98]]) := by
  have hlong : RingHistory 2 [.add [97], .add [98], .remove [97]] :=
    ⟨by simp [AddsAbsent], by unfold DistinctHashes; decide⟩
  have hshort : RingHistory 2 [.add [98]] :=
    ⟨by simp [AddsAbsent], by unfold DistinctHashes; decide⟩
  exact ⟨hlong, (ringAfter_consistent hshort).1 _ hlong (by decide)⟩

end VeltrixDB.Cluster
