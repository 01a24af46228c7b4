import VeltrixDB.Lib.ByteOrder
import VeltrixDB.Storage.Slots

/-!
# Keys that are derived from other keys

Secondary indexes, vectors, documents and index definitions are kept under
reserved keys (`storage/secondary_index.go`, `storage/field_index.go`,
`storage/search_hooks.go`, `storage/vector_index.go`,
`storage/text_index.go`).  This module has their names and the registry of
rules, definitions and search namespaces.  What the search indexes hold in memory is
left out; parsing of JSON is a parameter.

Main results:

- Theorem `isInternalIndexKey_of_mem_secondaryKeysFor`: an index entry is not
  indexed itself, and no search index follows it.
-/

namespace VeltrixDB.Storage

open List

open scoped Bytes

/-! ## Reserved keys -/

/-- `@idx/`. -/
def secondaryIndexPrefix : Key := ['@', 'i', 'd', 'x', '/'].map ascii

/-- `@vec/`. -/
def vectorKeyPrefix : Key := ['@', 'v', 'e', 'c', '/'].map ascii

/-- `@txt/`. -/
def textKeyPrefix : Key := ['@', 't', 'x', 't', '/'].map ascii

/-- `@vecns/`. -/
def vectorNSConfigPrefix : Key := ['@', 'v', 'e', 'c', 'n', 's', '/'].map ascii

/-- `@idxdef/`. -/
def indexDefPrefix : Key := ['@', 'i', 'd', 'x', 'd', 'e', 'f', '/'].map ascii

def isInternalIndexKey (key : Key) : Bool :=
  secondaryIndexPrefix.isPrefixOf key || vectorKeyPrefix.isPrefixOf key ||
    textKeyPrefix.isPrefixOf key || vectorNSConfigPrefix.isPrefixOf key ||
    indexDefPrefix.isPrefixOf key

def isSearchKey (key : Key) : Bool :=
  decide (5 < key.length) && (vectorKeyPrefix.isPrefixOf key || textKeyPrefix.isPrefixOf key ||
    vectorNSConfigPrefix.isPrefixOf key || indexDefPrefix.isPrefixOf key)

def vectorPersistKey (ns id : List UInt8) : Key := vectorKeyPrefix ++ ns ++ ascii '/' :: id

def textPersistKey (ns id : List UInt8) : Key := textKeyPrefix ++ ns ++ ascii '/' :: id

def nsKey (ns key : List UInt8) : Key := ns ++ 0 :: key

def hashFieldKey (key field : List UInt8) : Key := key ++ 1 :: field

/-- `splitVectorKey` and `splitTextKey` after the prefix: a namespace and
an id, neither empty. -/
def splitSearchKey (rest : List UInt8) : Option (List UInt8 × List UInt8) :=
  match rest.dropWhile (· ≠ ascii '/') with
  | _ :: id =>
    if rest.takeWhile (· ≠ ascii '/') = [] ∨ id = [] then none
    else some (rest.takeWhile (· ≠ ascii '/'), id)
  | [] => none

/-! ## Index rules -/

/-- `IndexRule`: the texts under which a value is found.  No value has none. -/
structure IndexRule where
  name : List UInt8
  extract : List UInt8 → List (List UInt8)
  extract_nil : extract [] = []

/-- `escape`: a slash separates the parts of an index key. -/
def escape (s : List UInt8) : List UInt8 :=
  s.flatMap fun b =>
    if b = ascii '/' then ['%', '2', 'F'].map ascii
    else if b = ascii '%' then ['%', '2', '5'].map ascii
    else [b]

def secondaryKey (name text primary : List UInt8) : Key :=
  secondaryIndexPrefix ++ name ++ ascii '/' :: escape text ++ ascii '/' :: primary

def secondaryKeysFor (rules : List IndexRule) (primary value : List UInt8) : List Key :=
  rules.flatMap fun r => (r.extract value).map fun text => secondaryKey r.name text primary

structure FieldIndexDef where
  name : List UInt8
  field : List UInt8
deriving DecidableEq, Repr

/-- `vectorNSConfig` with its words in lower case. -/
structure VectorNSConfig where
  dim : Int
  quant : List UInt8
  pqM : Int
  pqTrainAt : Int
  graph : List UInt8

/-- What `json.Unmarshal` makes of values. -/
structure JsonParser where
  object : List UInt8 → Option (List UInt8 → Option (List UInt8))
  nsConfig : List UInt8 → Option VectorNSConfig

def isPairDelimiter (b : UInt8) : Bool := b = ascii ',' || b = ascii ';' || b = ascii ' '

/-- The first position from `start` on at which `pat` stands. -/
def indexFrom (pat s : List UInt8) (start : Nat) : Option Nat :=
  ((List.range s.length).filter fun p => decide (start ≤ p)).find? fun p =>
    pat.isPrefixOf (s.drop p)

/-- The loop of `extractFieldValue` over pairs: a match inside a word is passed
over. -/
def pairValue (field s : List UInt8) : Nat → Nat → Option (List UInt8)
  | 0, _ => none
  | fuel + 1, start =>
    match indexFrom (field ++ [ascii '=']) s start with
    | none => none
    | some pos =>
      if 0 < pos ∧ ((s.drop (pos - 1)).head?.any fun b => !isPairDelimiter b) = true then
        pairValue field s fuel (pos + field.length + 1)
      else
        let v := (s.drop (pos + field.length + 1)).takeWhile fun b => !isPairDelimiter b
        if v = [] then none else some v

variable (json : JsonParser)

def extractFieldValue (value field : List UInt8) : Option (List UInt8) :=
  if value = [] ∨ field = [] then none
  else
    match json.object value with
    | some obj => obj field
    | none => pairValue field value (value.length + 1) 0

/-- The rule of a definition, `makeFieldExtractor`. -/
def FieldIndexDef.rule (d : FieldIndexDef) : IndexRule where
  name := d.name
  extract := fun value => (extractFieldValue json value d.field).toList
  extract_nil := rfl

/-! ## The registry -/

/-- The rules, the definitions and the search namespaces of an engine. -/
structure Registry where
  rules : List IndexRule
  fieldIdxDefs : List FieldIndexDef
  vectors : List (List UInt8 × Nat)
  texts : List (List UInt8)

variable (g : Registry)

def Registry.registerIndexRule (r : IndexRule) : Registry :=
  if g.rules.any (fun r' => decide (r'.name = r.name)) then
    { g with rules := g.rules.replaceF fun r' => if r'.name = r.name then some r else none }
  else { g with rules := g.rules ++ [r] }

def Registry.unregisterIndexRule (name : List UInt8) : Registry :=
  { g with rules := g.rules.eraseP fun r => decide (r.name = name) }

def Registry.dim (ns : List UInt8) : Option Nat :=
  (g.vectors.find? fun v => decide (v.1 = ns)).map Prod.snd

def validateVectorNS (ns : List UInt8) (dim : Int) : Bool :=
  decide (0 < dim ∧ dim ≤ 4096) && decide (ns ≠ [] ∧ ascii '/' ∉ ns)

inductive ApplyError where
  | keyNotFound
  | keyExpired
  | txnConflict
  /-- A transaction with an operation that is none of `SET`, `SETIF`,
  `DEL`. -/
  | unknownTxnOp (op : List UInt8)
  | notAnInt64 (op : List UInt8) (value : List UInt8)
  | emptyIndexName
  | invalidIndexName (name field : List UInt8)
  | indexExists (name field : List UInt8)
  | indexNotFound (name : List UInt8)
  | vectorDimRange (dim : Int)
  | vectorNamespace (ns : List UInt8)
  | vectorDimMismatch (ns : List UInt8) (dim got : Nat)
  | emptyVectorId
  | zeroVector
deriving DecidableEq, Repr

def Registry.registerVectorNamespace (ns : List UInt8) (dim : Nat) : Registry × Option ApplyError :=
  if ¬ (0 < dim ∧ dim ≤ 4096) then (g, some (.vectorDimRange dim))
  else if ns = [] ∨ ascii '/' ∈ ns then (g, some (.vectorNamespace ns))
  else
    match g.dim ns with
    | some d => (g, if d = dim then none else some (.vectorDimMismatch ns d dim))
    | none => ({ g with vectors := g.vectors ++ [(ns, dim)] }, none)

/-- `LoadVectorBlob`: the length of a value gives the dimension of a new
namespace. -/
def Registry.loadVectorBlob (key value : List UInt8) : Registry :=
  match splitSearchKey (key.drop vectorKeyPrefix.length) with
  | none => g
  | some (ns, _) =>
    if value = [] ∨ value.length % 4 ≠ 0 then g
    else (g.registerVectorNamespace ns (value.length / 4)).1

def Registry.loadTextDoc (key : List UInt8) : Registry :=
  match splitSearchKey (key.drop textKeyPrefix.length) with
  | none => g
  | some (ns, _) => if ns ∈ g.texts then g else { g with texts := g.texts ++ [ns] }

def pqMinTrainN : Int := 256

/-- `normalize` accepts the settings. -/
def VectorNSConfig.normalizes (c : VectorNSConfig) : Bool :=
  decide (c.quant ∈ [[], ['n', 'o', 'n', 'e'].map ascii, ['i', 'n', 't', '8'].map ascii,
    ['p', 'q'].map ascii]) &&
  decide (c.graph ∈ [[], ['m', 'e', 'm', 'o', 'r', 'y'].map ascii, ['d', 'i', 's', 'k'].map ascii]) &&
  (decide (c.quant ≠ ['p', 'q'].map ascii) ||
    (decide (c.pqM = 0 ∨ (1 ≤ c.pqM ∧ c.pqM ≤ c.dim)) &&
      decide (c.pqTrainAt = 0 ∨ pqMinTrainN ≤ c.pqTrainAt)))

/-- `applyVectorNSConfig`.  Settings of a namespace that exists change its index
in memory only. -/
def Registry.applyVectorNSConfig (g : Registry) (ns value : List UInt8) : Registry :=
  match json.nsConfig value with
  | none => g
  | some c =>
    if validateVectorNS ns c.dim && c.normalizes && (g.dim ns).isNone then
      { g with vectors := g.vectors ++ [(ns, c.dim.toNat)] }
    else g

/-- Why `CreateFieldIndex` refuses a definition, or that it is there already. -/
def Registry.checkFieldIndex (d : FieldIndexDef) : Except ApplyError Bool :=
  if d.name = [] ∨ d.field = [] then .error .emptyIndexName
  else if (d.name.any fun b => b = ascii '/' || b = ascii ' ' || b = 0) ∨
      (d.field.any fun b => b = ascii ' ' || b = 0) then
    .error (.invalidIndexName d.name d.field)
  else
    match g.fieldIdxDefs.find? fun d' => decide (d'.name = d.name) with
    | some d' => if d'.field = d.field then .ok true else .error (.indexExists d.name d'.field)
    | none => .ok false

def Registry.addFieldIndex (g : Registry) (d : FieldIndexDef) : Registry :=
  { g with fieldIdxDefs := g.fieldIdxDefs ++ [d] }.registerIndexRule (d.rule json)

def Registry.hasFieldIndex (name : List UInt8) : Bool :=
  g.fieldIdxDefs.any fun d => decide (d.name = name)

def Registry.dropFieldIndex (name : List UInt8) : Registry :=
  { g with fieldIdxDefs := g.fieldIdxDefs.eraseP fun d => decide (d.name = name)
    }.unregisterIndexRule name

/-! ## Index entries are plain -/

theorem isInternalIndexKey_of_secondaryIndexPrefix {key : Key}
    (h : secondaryIndexPrefix.isPrefixOf key = true) :
    isInternalIndexKey key = true ∧ isSearchKey key = false := by
  obtain ⟨rest, rfl⟩ := isPrefixOf_iff_prefix.mp h
  constructor
  · rfl
  · exact Bool.and_false _

theorem mem_secondaryKeysFor {rules : List IndexRule} {primary value : List UInt8} {key : Key} :
    key ∈ secondaryKeysFor rules primary value ↔
      ∃ r ∈ rules, ∃ text ∈ r.extract value, secondaryKey r.name text primary = key := by
  unfold secondaryKeysFor
  simp only [mem_flatMap, mem_map]

/-- An index entry is not indexed itself, and no search index follows it. -/
theorem isInternalIndexKey_of_mem_secondaryKeysFor {rules : List IndexRule}
    {primary value : List UInt8} {key : Key} (h : key ∈ secondaryKeysFor rules primary value) :
    isInternalIndexKey key = true ∧ isSearchKey key = false := by
  obtain ⟨r, -, text, -, rfl⟩ := mem_secondaryKeysFor.mp h
  apply isInternalIndexKey_of_secondaryIndexPrefix
  apply isPrefixOf_iff_prefix.mpr
  exact ⟨_, by unfold secondaryKey; simp only [append_assoc]; rfl⟩

end VeltrixDB.Storage
