import StrataDb.Joins

/-!
# The grace hash join (`crates/strata-db/src/query/volcano/join/grace.rs`)

Both inputs are partitioned by the hash of their keys; then, pair by pair, a table is built of the
smaller bucket and probed with the larger one. A bucket too large to build is partitioned again. A
hash table is an association list, in the order its keys came; the source leaves it open.
-/

namespace StrataDb.Sql

open ByteCodec
open Filesystem (FileWorkspace FsError)

def MAX_REPARTITION_LEVELS : Nat := 2

/-- The seed of the first level. -/
def BUCKET_SEED : UInt64 := 0xdeadbeefcafebabe

/-- A bucket is a workspace in a file. -/
abbrev Bucket (ctx : QueryContext) :=
  FileWorkspace (FileWorkspace.framesOf ctx.joinConfig.partitionMemory)

/-- The key's bytes; a `NULL` joins nothing and has none. -/
def keyBytes (value : Value) : Outcome (Option Bytes) :=
  if value.isNull then .ok none
  else
    match value.encodeKey with
    | .ok bytes => .ok (some bytes)
    | .error .nullKey => typeError "cannot hash this join key: NullKey"

/-- The join's settings: its type, and for the left and the right side the key, the width
    and the schema. -/
structure HashJoinParams where
  joinType : JoinType
  leftKey : Nat
  rightKey : Nat
  leftWidth : Nat
  rightWidth : Nat
  leftSchema : Schema
  rightSchema : Schema

namespace HashJoinParams

/-- The schema and the key of the side the table is built of. -/
def buildOf (params : HashJoinParams) (buildIsLeft : Bool) : Schema × Nat :=
  if buildIsLeft then (params.leftSchema, params.leftKey) else (params.rightSchema, params.rightKey)

def probeOf (params : HashJoinParams) (buildIsLeft : Bool) : Schema × Nat :=
  if buildIsLeft then (params.rightSchema, params.rightKey) else (params.leftSchema, params.leftKey)

end HashJoinParams

section Partitioning

variable (ctx : QueryContext)

/-- Every level has a seed of its own. -/
def bucketOf (key : Bytes) (level : Nat) : Outcome Nat :=
  if ctx.joinConfig.hashPartitions = 0 then
    panicked "attempt to calculate the remainder with a divisor of zero"
  else
    let seed := BUCKET_SEED ^^^ (UInt64.ofNat level * 0x9e3779b97f4a7c15)
    .ok ((ctx.xxh3 key seed).toNat % ctx.joinConfig.hashPartitions)

/-- Empty buckets. -/
def newBuckets : Nat → Outcome (List (Bucket ctx))
  | 0 => .ok []
  | count + 1 => do
    let part ← (FileWorkspace.new ctx.joinConfig.partitionMemory
      ctx.joinConfig.partitionDisk).mapError
      fun
        | .error e => .error (.internal ("hash join bucket: " ++ e.text))
        | .panicked msg => .panicked msg
    return part :: (← newBuckets count)

/-- Appends to one bucket. -/
def spillTo (parts : List (Bucket ctx)) (i : Nat) (bytes : Bytes) : Outcome (List (Bucket ctx)) :=
  match parts[i]? with
  | none =>
    panicked ("index out of bounds: the len is " ++ toString parts.length ++ " but the index is "
      ++ toString i)
  | some part =>
    match part.append ctx.crc ctx.hash bytes with
    | (.error e, _) => internalError ("hash join spill: " ++ e.text)
    | (.ok _, part) => .ok (parts.set i part)

/-- The rows of an input go to their buckets; those with a `NULL` key are kept apart. -/
def partitionInput (key : Nat) (schema : Schema) :
    RowStream → List (Bucket ctx) → List Tuple → Outcome (List (Bucket ctx) × List Tuple)
  | [], parts, nulls => .ok (parts, nulls)
  | row :: rows, parts, nulls => do
    let tuple ← row
    match ← keyBytes (← keyAt tuple key) with
    | none => partitionInput key schema rows parts (nulls ++ [tuple])
    | some k =>
      let i ← bucketOf ctx k 0
      let bytes ← schema.encode ctx.runtime tuple
      partitionInput key schema rows (← spillTo ctx parts i bytes) nulls

def spilledKey (tuple : Tuple) (key : Nat) : Outcome Bytes := do
  match ← keyBytes (← keyAt tuple key) with
  | some k => return k
  | none => panicked "null keys never partition"

/-- The rows of a bucket go to the buckets of the next level. -/
def repartitionTuples (key : Nat) (schema : Schema) (level : Nat) :
    List Bytes → List (Bucket ctx) → Outcome (List (Bucket ctx))
  | [], parts => .ok parts
  | bytes :: rest, parts => do
    let tuple ← decodeRow ctx.runtime schema bytes
    let k ← spilledKey tuple key
    let i ← bucketOf ctx k level
    repartitionTuples key schema level rest (← spillTo ctx parts i bytes)

def repartition (src : Bucket ctx) (key : Nat) (schema : Schema) (level : Nat) :
    Outcome (List (Bucket ctx)) := do
  let parts ← newBuckets ctx ctx.joinConfig.hashPartitions
  repartitionTuples ctx key schema level (src.tuples ctx.crc ctx.hash).1 parts

end Partitioning

/-! ### Building -/

/-- A row of the table, and whether it found a partner. -/
structure BuildEntry where
  row : Tuple
  matched : Bool

abbrev HashTable := List (Bytes × List BuildEntry)

namespace HashTable

def insert (key : Bytes) (entry : BuildEntry) : HashTable → HashTable
  | [] => [(key, [entry])]
  | (k, entries) :: table =>
    if k = key then (k, entries ++ [entry]) :: table else (k, entries) :: insert key entry table

/-- Flags all entries of a key. -/
def mark (key : Bytes) (table : HashTable) : HashTable :=
  table.map fun p =>
    if p.1 = key then (p.1, p.2.map fun entry => { entry with matched := true }) else p

end HashTable

section Joining

variable (ctx : QueryContext)

/-- The rows by their keys, or nothing if they are more bytes than the cap. -/
def buildTable (schema : Schema) (key : Nat) (cap : Option Nat) :
    List Bytes → Nat → HashTable → Outcome (Option HashTable)
  | [], _, table => .ok (some table)
  | bytes :: rest, used, table =>
    let used := used + bytes.length
    if cap.any (· < used) then .ok none
    else do
      let tuple ← decodeRow ctx.runtime schema bytes
      let k ← spilledKey tuple key
      buildTable schema key cap rest used (table.insert k ⟨tuple, false⟩)

variable (params : HashJoinParams)

/-! ### Probing -/

/-- One row, with its partners or without any. -/
def probeOne (buildIsLeft : Bool) (table : HashTable) (bytes : Bytes) :
    Outcome (List Tuple × HashTable) := do
  let (schema, key) := params.probeOf buildIsLeft
  let probe ← decodeRow ctx.runtime schema bytes
  let k ← spilledKey probe key
  let entries := (table.lookup k).getD []
  if entries.isEmpty then
    -- kept only by the outer side it belongs to
    if buildIsLeft then
      return (if params.joinType.keepsRight then [padLeft params.leftWidth probe] else [], table)
    else
      return (if params.joinType.keepsLeft then [padRight probe params.rightWidth] else [], table)
  else
    return (entries.map (fun entry =>
      if buildIsLeft then concat entry.row probe else concat probe entry.row), table.mark k)

/-- Rows that were given before the outcome. -/
abbrev Emitted (α : Type) := List Tuple × Outcome α

def probeAll (buildIsLeft : Bool) : List Bytes → HashTable → Emitted HashTable
  | [], table => ([], .ok table)
  | bytes :: cursor, table =>
    match probeOne ctx params buildIsLeft table bytes with
    | .error f => ([], .error f)
    | .ok (out, table) =>
      let (rest, result) := probeAll buildIsLeft cursor table
      (out ++ rest, result)

/-- The entries without a flag, padded. -/
def unmatchedBuildTail (buildIsLeft : Bool) (table : HashTable) : List Tuple :=
  let keepsUnmatched :=
    if buildIsLeft then params.joinType.keepsLeft else params.joinType.keepsRight
  if keepsUnmatched then
    ((table.flatMap Prod.snd).filter (fun entry => !entry.matched)).map fun entry =>
      if buildIsLeft then padRight entry.row params.rightWidth else padLeft params.leftWidth
        entry.row
  else []

def emitAll {α : Type} (emit : α → Emitted Unit) : List α → Emitted Unit
  | [] => ([], .ok ())
  | a :: as =>
    match emit a with
    | (out, .error f) => (out, .error f)
    | (out, .ok ()) =>
      let (rest, result) := emitAll emit as
      (out ++ rest, result)

def probePair (buildIsLeft : Bool) (table : HashTable) (probe : Bucket ctx) : Emitted Unit :=
  match probeAll ctx params buildIsLeft (probe.tuples ctx.crc ctx.hash).1 table with
  | (out, .error f) => (out, .error f)
  | (out, .ok table) => (out ++ unmatchedBuildTail params buildIsLeft table, .ok ())

/-- Both sides of a pair, partitioned once more; the pairs of parts in the order they are
    taken, last first. -/
def repartitionPair (buildIsLeft : Bool) (build probe : Bucket ctx) (level : Nat) :
    Outcome (List (Bucket ctx × Bucket ctx)) := do
  let (buildSchema, buildKey) := params.buildOf buildIsLeft
  let (probeSchema, probeKey) := params.probeOf buildIsLeft
  let buildSub ← repartition ctx build buildKey buildSchema level
  let probeSub ← repartition ctx probe probeKey probeSchema level
  return (if buildIsLeft then buildSub.zip probeSub else probeSub.zip buildSub).reverse

/-- Builds of the smaller bucket, or partitions both again. -/
def joinPair : Nat → Bucket ctx × Bucket ctx → Emitted Unit
  | levels, (left, right) =>
    let buildIsLeft : Bool := left.used ≤ right.used
    let (build, probe) := if buildIsLeft then (left, right) else (right, left)
    let (schema, key) := params.buildOf buildIsLeft
    match levels with
    | 0 =>
      match buildTable ctx schema key none (build.tuples ctx.crc ctx.hash).1 0 [] with
      | .error f => ([], .error f)
      | .ok table => probePair ctx params buildIsLeft (table.getD []) probe
    | levels + 1 =>
      match buildTable ctx schema key (some ctx.joinConfig.buildBudget)
          (build.tuples ctx.crc ctx.hash).1 0 [] with
      | .error f => ([], .error f)
      | .ok (some table) => probePair ctx params buildIsLeft table probe
      | .ok none =>
        match repartitionPair ctx params buildIsLeft build probe
          (MAX_REPARTITION_LEVELS - levels) with
        | .error f => ([], .error f)
        | .ok pairs => emitAll (joinPair levels) pairs

def nullTail (leftNulls rightNulls : List Tuple) : List Tuple :=
  (if params.joinType.keepsLeft then leftNulls.map (padRight · params.rightWidth) else [])
    ++ (if params.joinType.keepsRight then rightNulls.map (padLeft params.leftWidth) else [])

end Joining

/-- `GraceHash`. -/
def graceHashJoin (ctx : QueryContext) (on : Option Expr) (joinType : JoinType)
    (leftSchema rightSchema : Schema) (leftNode rightNode : PlanNode)
    (left right : Outcome RowStream) : Outcome RowStream := do
  let (leftKey, rightKey) ← equiKeys on leftNode
  let params : HashJoinParams :=
    ⟨joinType, leftKey, rightKey, outputArity leftNode, outputArity rightNode, leftSchema,
      rightSchema⟩
  let leftParts ← newBuckets ctx ctx.joinConfig.hashPartitions
  let rightParts ← newBuckets ctx ctx.joinConfig.hashPartitions
  let (leftParts, leftNulls) ← partitionInput ctx leftKey leftSchema (← left) leftParts []
  let (rightParts, rightNulls) ← partitionInput ctx rightKey rightSchema (← right) rightParts []
  -- the work list is a stack, so the last pair is the first
  match emitAll (joinPair ctx params MAX_REPARTITION_LEVELS) (leftParts.zip rightParts).reverse with
  | (out, .error f) => return RowStream.ofRows out ++ [.error f]
  | (out, .ok ()) => return .ofRows (out ++ nullTail params leftNulls rightNulls)

end StrataDb.Sql
