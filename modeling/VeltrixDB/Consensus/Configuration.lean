import VeltrixDB.Consensus.Entry

/-!
# Cluster configurations

The membership record of `consensus/membership.go`: voting servers,
non-voting learners and member addresses.  Lists are kept as lists, because
the source counts list entries when it forms a quorum.

Main definitions:

- `Configuration` with the membership tests of the source.
- `CommandCodec`: what the protocol needs to know of command payloads.
-/

namespace VeltrixDB.Consensus

structure Configuration (ι : Type) where
  servers : List ι
  learners : List ι
  addrs : List (ι × String)
deriving DecidableEq, Repr

namespace Configuration

variable {ι : Type} [DecidableEq ι]

def empty : Configuration ι := { servers := [], learners := [], addrs := [] }

variable (c : Configuration ι) (id : ι)

def contains : Bool :=
  c.servers.any (· == id)

def isLearner : Bool :=
  c.learners.any (· == id)

def isMember : Bool :=
  c.contains id || c.isLearner id

def members : List ι :=
  c.servers ++ c.learners

def addr : String :=
  (c.addrs.lookup id).getD ""

def setAddr (a : String) : Configuration ι :=
  { c with addrs := (id, a) :: c.addrs.filter (fun p => p.1 ≠ id) }

/-- The list without every occurrence of `id`. -/
def removeID (ids : List ι) (id : ι) : List ι :=
  ids.filter (· ≠ id)

def quorumSize : Nat :=
  c.servers.length / 2 + 1

theorem contains_iff : c.contains id = true ↔ id ∈ c.servers := by
  simp [contains]

theorem isLearner_iff : c.isLearner id = true ↔ id ∈ c.learners := by
  simp [isLearner]

theorem isMember_iff : c.isMember id = true ↔ id ∈ c.servers ∨ id ∈ c.learners := by
  simp [isMember, contains_iff, isLearner_iff]

end Configuration

/-- What the protocol needs to know of command payloads: their length, the nil
command of a leader's no-op, and the encoding of configurations. -/
class CommandCodec (ι κ : Type) where
  len : κ → Nat
  nilCommand : κ
  len_nilCommand : len nilCommand = 0
  encodeConfiguration : Configuration ι → κ
  decodeConfiguration : κ → Option (Configuration ι)
  decode_encode : ∀ c, decodeConfiguration (encodeConfiguration c) = some c

/-- Structured payloads: byte-string commands, and configurations carried as
such. -/
inductive Payload (ι : Type) where
  | bytes (b : List UInt8)
  | configuration (c : Configuration ι)
deriving DecidableEq, Repr

instance Payload.instCommandCodec (ι : Type) : CommandCodec ι (Payload ι) where
  len
    | .bytes b => b.length
    | .configuration c => 1 + c.servers.length + c.learners.length
  nilCommand := .bytes []
  len_nilCommand := rfl
  encodeConfiguration := .configuration
  decodeConfiguration
    | .bytes _ => none
    | .configuration c => some c
  decode_encode _ := rfl

end VeltrixDB.Consensus
