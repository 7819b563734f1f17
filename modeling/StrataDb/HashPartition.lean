import StrataDb.HashKeys
import StrataDb.NestedLoops
import StrataDb.Sort

/-!
# Partitioning keeps every row, and rows that join together

A row is sent to the bucket of its key bytes' hash (`routeOf`), so rows that join go to buckets of
one number under every seed. The buckets store the rows sent to them, in order (`PartsHold`), if
each has room for them (`Roomy`).
-/

namespace StrataDb.Sql

open ByteCodec EquiJoin
open Filesystem (FileWorkspace PAGE_SIZE maxTuple packPages packTuple packPages_concat
  flatten_packPages length_packPages_le length_packPages_le_length)
open Runs (bind_eq_ok)

/-! ### Rows and their keys -/

def joinKey (key : Nat) (row : Tuple) : Option Bytes :=
  match keyBytes (rowKey key row) with
  | .ok k => k
  | .error _ => none

def sameKey (leftKey rightKey : Nat) (l r : Tuple) : Bool :=
  (joinKey leftKey l).isSome && joinKey leftKey l == joinKey rightKey r

theorem sameKey_iff {leftKey rightKey : Nat} {l r : Tuple} :
    sameKey leftKey rightKey l r = true
      ↔ ∃ k, joinKey leftKey l = some k ∧ joinKey rightKey r = some k := by
  rw [sameKey, Bool.and_eq_true, beq_iff_eq, Option.isSome_iff_exists]
  constructor
  · rintro ⟨⟨k, hk⟩, heq⟩
    exact ⟨k, hk, heq ▸ hk⟩
  · rintro ⟨k, hl, hr⟩
    exact ⟨⟨k, hl⟩, hl.trans hr.symm⟩

theorem sameKey_comm (leftKey rightKey : Nat) (l r : Tuple) :
    sameKey rightKey leftKey r l = sameKey leftKey rightKey l r := by
  rw [Bool.eq_iff_iff, sameKey_iff, sameKey_iff]
  exact exists_congr fun k => and_comm

def rowBytes (rt : Runtime) (schema : Schema) (row : Tuple) : Bytes :=
  match schema.encode rt row with
  | .ok bytes => bytes
  | .error _ => []

section Rows

variable {rt : Runtime} {schema : Schema} {key : Nat} {t : Tuple}

/-- A row that a page can take and that is read back from it. -/
structure Storable (rt : Runtime) (schema : Schema) (t : Tuple) : Prop where
  typed : Typed rt schema.fields t
  width : schema.encodedSize t ≤ maxTuple

theorem encode_rowBytes (laws : rt.CodecLaws) (h : Typed rt schema.fields t) :
    schema.encode rt t = .ok (rowBytes rt schema t) := by
  obtain ⟨bytes, henc, -⟩ := Schema.encode_ok laws h.fitting
  rw [rowBytes, henc]

theorem Storable.decodeRow (laws : rt.CodecLaws) (h : Storable rt schema t) :
    decodeRow rt schema (rowBytes rt schema t) = .ok t :=
  (decodeRow_of_encode laws h.typed h.width (encode_rowBytes laws h.typed)).1

theorem Storable.length_le (laws : rt.CodecLaws) (h : Storable rt schema t) :
    (rowBytes rt schema t).length ≤ maxTuple :=
  (decodeRow_of_encode laws h.typed h.width (encode_rowBytes laws h.typed)).2

theorem keyBytes_rowKey (h : Typed rt schema.fields t) (hkey : key < schema.fields.length) :
    keyBytes (rowKey key t) = .ok (joinKey key t) := by
  have hlen : key < t.length := h.length_eq ▸ hkey
  have hfits : (rowKey key t).fits schema.fields[key].ty = true := by
    rw [rowKey, List.getElem?_eq_getElem hlen]
    exact (h.get hkey hlen).1
  rw [Value.fits, Bool.or_eq_true] at hfits
  rw [joinKey]
  rcases hfits with hnull | htype
  · rw [keyBytes_null hnull]
  · obtain ⟨k, hk⟩ := encodeKey_of_hasType _ _ htype
    rw [keyBytes_of_encodeKey hk]

theorem keyAt_rowKey (h : Typed rt schema.fields t) (hkey : key < schema.fields.length) :
    keyAt t key = .ok (rowKey key t) :=
  keyAt_eq (h.length_eq ▸ hkey)

theorem spilledKey_eq (h : Typed rt schema.fields t) (hkey : key < schema.fields.length) {k : Bytes}
    (hk : joinKey key t = some k) : spilledKey t key = .ok k := by
  rw [spilledKey, keyAt_rowKey h hkey]
  show (keyBytes (rowKey key t) >>= _) = _
  rw [keyBytes_rowKey h hkey, hk]
  rfl

end Rows

section Buckets

variable {ctx : QueryContext} {schema : Schema} {key n : Nat} {rows done : List Tuple} {t : Tuple}

structure BucketHolds (ctx : QueryContext) (schema : Schema) (bucket : Bucket ctx)
    (rows : List Tuple) : Prop where
  packs : FileWorkspace.Packs ctx.crc bucket (packPages (rows.map (rowBytes ctx.runtime schema)))
  maxPages : bucket.maxPages = ctx.joinConfig.partitionDisk / PAGE_SIZE

def Roomy (ctx : QueryContext) (schema : Schema) (rows : List Tuple) : Prop :=
  (packPages (rows.map (rowBytes ctx.runtime schema))).length * PAGE_SIZE
    ≤ ctx.joinConfig.partitionDisk

theorem Roomy.sublist {part whole : List Tuple} (h : Roomy ctx schema whole)
    (hsub : part.Sublist whole) : Roomy ctx schema part :=
  (Nat.mul_le_mul_right _ (length_packPages_le (hsub.map _))).trans h

theorem Roomy.of_length (h : rows.length * PAGE_SIZE ≤ ctx.joinConfig.partitionDisk) :
    Roomy ctx schema rows := by
  have hpages := length_packPages_le_length (rows.map (rowBytes ctx.runtime schema))
  rw [List.length_map] at hpages
  exact (Nat.mul_le_mul_right _ hpages).trans h

theorem Roomy.pages_le (h : Roomy ctx schema rows) :
    (packPages (rows.map (rowBytes ctx.runtime schema))).length
    ≤ ctx.joinConfig.partitionDisk / PAGE_SIZE :=
  (Nat.le_div_iff_mul_le (by decide)).mpr h

theorem BucketHolds.tuples {bucket : Bucket ctx} (h : BucketHolds ctx schema bucket rows) :
    (bucket.tuples ctx.crc ctx.hash).1 = rows.map (rowBytes ctx.runtime schema) := by
  obtain ⟨ws, hrun, -⟩ := h.packs.stores.tuples ctx.hash (FileWorkspace.framesOf_pos _)
  rw [hrun, flatten_packPages]

structure PartsHold (ctx : QueryContext) (schema : Schema) (route : Tuple → Nat)
    (parts : List (Bucket ctx))
    (rows : List Tuple) : Prop where
  length : parts.length = ctx.joinConfig.hashPartitions
  holds : ∀ i part, parts[i]? = some part → BucketHolds ctx schema part (rows.filter (route · = i))

theorem newBuckets_eq {ctx : QueryContext} (hpage : PAGE_SIZE ≤ ctx.joinConfig.partitionDisk)
    (count : Nat) :
    ∃ parts, newBuckets ctx count = .ok parts ∧ parts.length = count
      ∧ ∀ part ∈ parts, ∀ schema, BucketHolds ctx schema part [] := by
  induction count with
  | zero => exact ⟨[], rfl, rfl, by simp⟩
  | succ count ih =>
    obtain ⟨parts, hrun, hlen, hparts⟩ := ih
    obtain ⟨part, hnew, hpacks, hmax⟩ :=
      FileWorkspace.packs_new ctx.crc ctx.joinConfig.partitionMemory hpage
    refine ⟨part :: parts, ?_, by rw [List.length_cons, hlen], ?_⟩
    · refine bind_eq_ok.mpr ⟨part, ?_, bind_eq_ok.mpr ⟨parts, hrun, rfl⟩⟩
      rw [hnew]
      rfl
    · intro p hp schema
      rcases List.mem_cons.mp hp with rfl | hp
      · exact ⟨hpacks, hmax⟩
      · exact hparts p hp schema

theorem partsHold_new {ctx : QueryContext} (hpage : PAGE_SIZE ≤ ctx.joinConfig.partitionDisk)
    (schema : Schema) (route : Tuple → Nat) :
    ∃ parts, newBuckets ctx ctx.joinConfig.hashPartitions = .ok parts
      ∧ PartsHold ctx schema route parts [] := by
  obtain ⟨parts, hrun, hlen, hparts⟩ := newBuckets_eq hpage ctx.joinConfig.hashPartitions
  exact ⟨parts, hrun, hlen, fun i part hpart => hparts part (List.mem_of_getElem? hpart) schema⟩

/-- **A row is sent to its bucket**, and the others are as they were. -/
theorem PartsHold.spillTo (hscratch : Scratch ctx) {route : Tuple → Nat} {parts : List (Bucket ctx)}
    (h : PartsHold ctx schema route parts done) (hroute : route t < ctx.joinConfig.hashPartitions)
    (ht : Storable ctx.runtime schema t)
    (hroom : Roomy ctx schema ((done ++ [t]).filter (route · = route t))) :
    ∃ parts', spillTo ctx parts (route t) (rowBytes ctx.runtime schema t) = .ok parts'
      ∧ PartsHold ctx schema route parts' (done ++ [t]) := by
  have hlt : route t < parts.length := h.length ▸ hroute
  have hget := List.getElem?_eq_getElem hlt
  have hpart := h.holds _ _ hget
  have hmine : (done ++ [t]).filter (route · = route t) = done.filter (route · = route t)
    ++ [t] := by
    simp [List.filter_append]
  have hpages :
      packPages (((done ++ [t]).filter (route · = route t)).map (rowBytes ctx.runtime schema))
      = packTuple (packPages ((done.filter (route · = route t)).map (rowBytes ctx.runtime schema)))
        (rowBytes ctx.runtime schema t) := by
    rw [hmine, List.map_append, List.map_singleton, packPages_concat]
  have hfits := hroom.pages_le
  rw [hpages, ← hpart.maxPages] at hfits
  obtain ⟨loc, part', happend, hpacks, hmax⟩ :=
    hpart.packs.append ctx.hash (FileWorkspace.framesOf_pos _)
    hscratch.zeroed (ht.length_le hscratch.codec) hfits
  refine ⟨parts.set (route t) part', ?_, ?_, ?_⟩
  · rw [StrataDb.Sql.spillTo, hget]
    simp only [happend]
  · rw [List.length_set, h.length]
  · intro i part hi
    rw [List.getElem?_set] at hi
    split_ifs at hi with heq
    · -- the bucket of the row has grown by it
      obtain rfl := Option.some.inj hi
      subst heq
      exact ⟨by rw [hpages]; exact hpacks, hmax.trans hpart.maxPages⟩
    · have hother : (done ++ [t]).filter (route · = i) = done.filter (route · = i) := by
        simp [List.filter_append, heq]
      rw [hother]
      exact h.holds i part hi

end Buckets

section Partitioning

variable {ctx : QueryContext} {schema : Schema} {key level : Nat} {rows done : List Tuple}
  {t : Tuple}

def routeOf (ctx : QueryContext) (key level : Nat) (row : Tuple) : Nat :=
  match joinKey key row with
  | some k => (ctx.xxh3 k (BUCKET_SEED ^^^ (UInt64.ofNat level * 0x9e3779b97f4a7c15))).toNat
      % ctx.joinConfig.hashPartitions
  | none => 0

theorem routeOf_lt (hparts : 0 < ctx.joinConfig.hashPartitions) (key level : Nat) (row : Tuple) :
    routeOf ctx key level row < ctx.joinConfig.hashPartitions := by
  rw [routeOf]
  split
  · exact Nat.mod_lt _ hparts
  · exact hparts

theorem bucketOf_eq (hparts : 0 < ctx.joinConfig.hashPartitions) {k : Bytes}
    (hk : joinKey key t = some k) (level : Nat) :
    bucketOf ctx k level = .ok (routeOf ctx key level t) := by
  rw [bucketOf, if_neg (Nat.pos_iff_ne_zero.mp hparts), routeOf, hk]

/-- **Rows that join are sent to buckets of one number.** -/
theorem routeOf_eq {leftKey rightKey : Nat} {l r : Tuple} (h : sameKey leftKey rightKey l r = true)
    (level : Nat) : routeOf ctx leftKey level l = routeOf ctx rightKey level r := by
  obtain ⟨k, hl, hr⟩ := sameKey_iff.mp h
  rw [routeOf, routeOf, hl, hr]

/-- **The first partitioning**: rows with a `NULL` key are set aside. -/
theorem partitionInput_eq (hscratch : Scratch ctx) (hparts : 0 < ctx.joinConfig.hashPartitions)
    (hkey : key < schema.fields.length) (hrows : ∀ t ∈ rows, Storable ctx.runtime schema t)
    {parts : List (Bucket ctx)} (h : PartsHold ctx schema (routeOf ctx key 0) parts done)
    (hroom : ∀ i, Roomy ctx schema ((done ++ rows.filter (fun t => (joinKey key t).isSome)).filter
      (routeOf ctx key 0 · = i)))
    (nulls : List Tuple) :
    ∃ parts', partitionInput ctx key schema (.ofRows rows) parts nulls
        = .ok (parts', nulls ++ rows.filter (fun t => !(joinKey key t).isSome))
      ∧ PartsHold ctx schema (routeOf ctx key 0) parts'
        (done ++ rows.filter (fun t => (joinKey key t).isSome)) := by
  induction rows generalizing parts done nulls with
  | nil => exact ⟨parts, by simp [partitionInput, RowStream.ofRows], by simpa using h⟩
  | cons t rows ih =>
    have ht := hrows t List.mem_cons_self
    have hrest : ∀ t ∈ rows, Storable ctx.runtime schema t :=
      fun t ht => hrows t (List.mem_cons_of_mem _ ht)
    have hat := keyAt_rowKey ht.typed hkey
    have hbytes := keyBytes_rowKey ht.typed hkey
    cases hk : joinKey key t with
    -- a `NULL` key equals nothing, so the row goes to no bucket
    | none =>
      have hkept : (t :: rows).filter (fun t => (joinKey key t).isSome)
          = rows.filter (fun t => (joinKey key t).isSome) := List.filter_cons_of_neg (by simp [hk])
      have haside : (t :: rows).filter (fun t => !(joinKey key t).isSome)
          = t :: rows.filter (fun t => !(joinKey key t).isSome) :=
            List.filter_cons_of_pos (by simp [hk])
      simp only [hkept] at hroom ⊢
      rw [haside]
      obtain ⟨parts', hrun, hholds⟩ := ih hrest h hroom (nulls ++ [t])
      refine ⟨parts', ?_, hholds⟩
      rw [List.append_assoc] at hrun
      refine bind_eq_ok.mpr ⟨t, rfl, bind_eq_ok.mpr ⟨_, hat, bind_eq_ok.mpr ⟨none, ?_, hrun⟩⟩⟩
      rw [hbytes, hk]
    | some k =>
      have hkept : (t :: rows).filter (fun t => (joinKey key t).isSome)
          = t :: rows.filter (fun t => (joinKey key t).isSome) :=
            List.filter_cons_of_pos (by simp [hk])
      have haside : (t :: rows).filter (fun t => !(joinKey key t).isSome)
          = rows.filter (fun t => !(joinKey key t).isSome) := List.filter_cons_of_neg (by simp [hk])
      simp only [hkept, List.append_cons done t (rows.filter _)] at hroom ⊢
      rw [haside]
      obtain ⟨parts₁, hspill, hholds₁⟩ := h.spillTo hscratch (routeOf_lt hparts key 0 t) ht
        ((hroom _).sublist ((List.sublist_append_left _ _).filter _))
      obtain ⟨parts', hrun, hholds⟩ := ih hrest hholds₁ hroom nulls
      refine ⟨parts', ?_, hholds⟩
      refine bind_eq_ok.mpr
        ⟨t, rfl, bind_eq_ok.mpr ⟨_, hat, bind_eq_ok.mpr ⟨some k, by rw [hbytes, hk], ?_⟩⟩⟩
      exact bind_eq_ok.mpr ⟨_, bucketOf_eq hparts hk 0,
        bind_eq_ok.mpr ⟨_, encode_rowBytes hscratch.codec ht.typed,
        bind_eq_ok.mpr ⟨parts₁, hspill, hrun⟩⟩⟩

theorem repartitionTuples_eq (hscratch : Scratch ctx) (hparts : 0 < ctx.joinConfig.hashPartitions)
    (hkey : key < schema.fields.length) (hrows : ∀ t ∈ rows, Storable ctx.runtime schema t)
    (hkeyed : ∀ t ∈ rows, (joinKey key t).isSome = true) {parts : List (Bucket ctx)}
    (h : PartsHold ctx schema (routeOf ctx key level) parts done)
    (hroom : ∀ i, Roomy ctx schema ((done ++ rows).filter (routeOf ctx key level · = i))) :
    ∃ parts', repartitionTuples ctx key schema level (rows.map (rowBytes ctx.runtime schema)) parts
      = .ok parts'
      ∧ PartsHold ctx schema (routeOf ctx key level) parts' (done ++ rows) := by
  induction rows generalizing parts done with
  | nil => exact ⟨parts, rfl, by simpa using h⟩
  | cons t rows ih =>
    have ht := hrows t List.mem_cons_self
    obtain ⟨k, hk⟩ := Option.isSome_iff_exists.mp (hkeyed t List.mem_cons_self)
    simp only [List.append_cons done t rows] at hroom ⊢
    obtain ⟨parts₁, hspill, hholds₁⟩ := h.spillTo hscratch (routeOf_lt hparts key level t) ht
      ((hroom _).sublist ((List.sublist_append_left _ _).filter _))
    obtain ⟨parts', hrun, hholds⟩ := ih (fun t ht => hrows t (List.mem_cons_of_mem _ ht))
      (fun t ht => hkeyed t (List.mem_cons_of_mem _ ht)) hholds₁ hroom
    refine ⟨parts', ?_, hholds⟩
    exact bind_eq_ok.mpr ⟨t, ht.decodeRow hscratch.codec,
      bind_eq_ok.mpr ⟨k, spilledKey_eq ht.typed hkey hk,
      bind_eq_ok.mpr ⟨_, bucketOf_eq hparts hk level, bind_eq_ok.mpr ⟨parts₁, hspill, hrun⟩⟩⟩⟩

structure Spillable (ctx : QueryContext) (schema : Schema) (key : Nat)
    (rows : List Tuple) : Prop where
  key_lt : key < schema.fields.length
  storable : ∀ t ∈ rows, Storable ctx.runtime schema t
  keyed : ∀ t ∈ rows, (joinKey key t).isSome = true
  page : PAGE_SIZE ≤ ctx.joinConfig.partitionDisk
  room : Roomy ctx schema rows

theorem Spillable.filter (h : Spillable ctx schema key rows) (p : Tuple → Bool) :
    Spillable ctx schema key (rows.filter p) where
  key_lt := h.key_lt
  storable t ht := h.storable t (List.mem_of_mem_filter ht)
  keyed t ht := h.keyed t (List.mem_of_mem_filter ht)
  page := h.page
  room := h.room.sublist List.filter_sublist

/-- **A bucket is spread over fresh ones**, under any seed. -/
theorem repartition_eq (hscratch : Scratch ctx) (hparts : 0 < ctx.joinConfig.hashPartitions)
    (hrows : Spillable ctx schema key rows) {src : Bucket ctx} (h : BucketHolds ctx schema src rows)
    (level : Nat) :
    ∃ parts, repartition ctx src key schema level = .ok parts
      ∧ PartsHold ctx schema (routeOf ctx key level) parts rows := by
  obtain ⟨parts, hnew, hempty⟩ := partsHold_new hrows.page schema (routeOf ctx key level)
  obtain ⟨parts', hrun, hholds⟩ :=
    repartitionTuples_eq hscratch hparts hrows.key_lt hrows.storable hrows.keyed
    hempty fun i => hrows.room.sublist List.filter_sublist
  refine ⟨parts', bind_eq_ok.mpr ⟨parts, hnew, ?_⟩, hholds⟩
  rw [h.tuples]
  exact hrun

end Partitioning

end StrataDb.Sql
