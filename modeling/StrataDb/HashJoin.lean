import StrataDb.HashProbe

/-!
# The grace hash join computes the join of its inputs

Buckets are joined pair by pair (`EquiJoin.outerJoin_classes`), and so are the parts of a pair
that is partitioned again, whichever bucket the table is built of.
-/

namespace StrataDb.Sql

open ByteCodec EquiJoin
open Filesystem (PAGE_SIZE)
open Runs (bind_eq_ok)

/-! ### Pairs of buckets -/

section Pairs

variable {ctx : QueryContext} {params : HashJoinParams} {L R : List Tuple}

def HashJoinParams.joined (params : HashJoinParams) (L R : List Tuple) : List Tuple :=
  joinRows (sameKey params.leftKey params.rightKey) params.joinType params.leftWidth
    params.rightWidth L R

theorem probeOf_build_left (params : HashJoinParams) :
    params.probeOf true = (params.rightSchema, params.rightKey) := rfl

theorem probeOf_build_right (params : HashJoinParams) :
    params.probeOf false = (params.leftSchema, params.leftKey) := rfl

theorem joined_of_build_left (params : HashJoinParams) (L R : List Tuple) :
    (outerJoin (sameKey params.rightKey params.leftKey) (combine true) (keepProbe params true)
      (keepBuild params true) R L).Perm (params.joined L R) := by
  have hsame : sameKey params.rightKey params.leftKey = fun r l => sameKey params.leftKey
    params.rightKey l r := by
    funext r l
    exact sameKey_comm ..
  rw [hsame]
  exact outerJoin_swap ..

theorem joined_classes (params : HashJoinParams) {g g' : Tuple → Nat} {n : Nat}
    (h : ∀ l r, sameKey params.leftKey params.rightKey l r = true → g l = g' r) (hg : ∀ l, g l < n)
    (hg' : ∀ r, g' r < n) (L R : List Tuple) :
    ((List.range n).flatMap fun i => params.joined (L.filter (g · = i)) (R.filter (g' · = i))).Perm
      (params.joined L R) := by
  unfold HashJoinParams.joined joinRows
  exact outerJoin_classes (fun l _ r _ => h l r) (fun l _ => hg l) (fun r _ => hg' r)

theorem emitAll_eq {α : Type} {emit : α → Emitted Unit} {as : List α} {specs : List (List Tuple)}
    (h : List.Forall₂ (fun a rows => ∃ out, emit a = (out, .ok ()) ∧ out.Perm rows) as specs) :
    ∃ out, emitAll emit as = (out, .ok ()) ∧ out.Perm specs.flatten := by
  induction h with
  | nil => exact ⟨[], rfl, List.Perm.refl _⟩
  | cons hhead htail ih =>
    obtain ⟨out, hemit, hout⟩ := hhead
    obtain ⟨rest, hall, hrest⟩ := ih
    refine ⟨out ++ rest, ?_, hout.append hrest⟩
    rw [emitAll, hemit]
    simp only [hall]

/-- What joins any pair of buckets joins the rows of one bucket each. -/
def JoinsBuckets (ctx : QueryContext) (params : HashJoinParams)
    (emit : Bucket ctx × Bucket ctx → Emitted Unit) : Prop :=
  ∀ {left right L R}, Spillable ctx params.leftSchema params.leftKey L →
    Spillable ctx params.rightSchema params.rightKey R → BucketHolds ctx params.leftSchema left L →
    BucketHolds ctx params.rightSchema right R →
    ∃ out, emit (left, right) = (out, .ok ()) ∧ out.Perm (params.joined L R)

theorem JoinsBuckets.emitAll {emit : Bucket ctx × Bucket ctx → Emitted Unit}
    (hemit : JoinsBuckets ctx params emit)
    (hparts : 0 < ctx.joinConfig.hashPartitions) {level : Nat} {lefts rights : List (Bucket ctx)}
    (hlefts : PartsHold ctx params.leftSchema (routeOf ctx params.leftKey level) lefts L)
    (hrights : PartsHold ctx params.rightSchema (routeOf ctx params.rightKey level) rights R)
    (hL : ∀ i, Spillable ctx params.leftSchema params.leftKey
      (L.filter (routeOf ctx params.leftKey level · = i)))
    (hR : ∀ i, Spillable ctx params.rightSchema params.rightKey
      (R.filter (routeOf ctx params.rightKey level · = i))) :
    ∃ out, emitAll emit (lefts.zip rights).reverse = (out, .ok ())
      ∧ out.Perm (params.joined L R) := by
  have hpairs : List.Forall₂ (fun a rows => ∃ out, emit a = (out, .ok ()) ∧ out.Perm rows)
    (lefts.zip rights)
      ((List.range ctx.joinConfig.hashPartitions).map fun i => params.joined
        (L.filter (routeOf ctx params.leftKey level · = i))
        (R.filter (routeOf ctx params.rightKey level · = i))) := by
    refine List.forall₂_iff_get.mpr ⟨by simp [hlefts.length, hrights.length], fun i hi _ => ?_⟩
    rw [List.length_zip, lt_min_iff] at hi
    have hleft := hlefts.holds i _ (List.getElem?_eq_getElem hi.1)
    have hright := hrights.holds i _ (List.getElem?_eq_getElem hi.2)
    simpa using hemit (hL i) (hR i) hleft hright
  obtain ⟨out, hrun, hout⟩ := emitAll_eq (List.forall₂_reverse_iff.mpr hpairs)
  have hclasses := joined_classes params (fun l r hj => @routeOf_eq ctx _ _ l r hj level)
    (fun l => routeOf_lt hparts params.leftKey level l)
      (fun r => routeOf_lt hparts params.rightKey level r) L R
  rw [List.flatMap_def] at hclasses
  exact ⟨out, hrun, hout.trans ((List.reverse_perm _).flatten.trans hclasses)⟩

/-- The sides of a pair as a join takes them: the bucket to build from and the one to probe. -/
def sidesOf (buildIsLeft : Bool) (left right : Bucket ctx) : Bucket ctx × Bucket ctx :=
  if buildIsLeft then (left, right) else (right, left)

section Sides

variable {left right build probe : Bucket ctx} {buildIsLeft : Bool}

theorem repartitionPair_eq (hscratch : Scratch ctx) (hparts : 0 < ctx.joinConfig.hashPartitions)
    (hL : Spillable ctx params.leftSchema params.leftKey L)
    (hR : Spillable ctx params.rightSchema params.rightKey R)
    (hleft : BucketHolds ctx params.leftSchema left L)
    (hright : BucketHolds ctx params.rightSchema right R)
    (hsides : sidesOf buildIsLeft left right = (build, probe)) (level : Nat) :
    ∃ lefts rights, PartsHold ctx params.leftSchema (routeOf ctx params.leftKey level) lefts L
      ∧ PartsHold ctx params.rightSchema (routeOf ctx params.rightKey level) rights R
      ∧ repartitionPair ctx params buildIsLeft build probe level
        = .ok (lefts.zip rights).reverse := by
  obtain ⟨lefts, hl, hlefts⟩ := repartition_eq hscratch hparts hL hleft level
  obtain ⟨rights, hr, hrights⟩ := repartition_eq hscratch hparts hR hright level
  refine ⟨lefts, rights, hlefts, hrights, ?_⟩
  cases buildIsLeft <;> obtain ⟨rfl, rfl⟩ := Prod.mk.inj hsides
  · exact bind_eq_ok.mpr ⟨rights, hr, bind_eq_ok.mpr ⟨lefts, hl, rfl⟩⟩
  · exact bind_eq_ok.mpr ⟨lefts, hl, bind_eq_ok.mpr ⟨rights, hr, rfl⟩⟩

theorem buildProbe_cases (laws : ctx.runtime.CodecLaws) {buildSchema probeSchema : Schema}
    {buildKey probeKey : Nat} (hprobe : params.probeOf buildIsLeft = (probeSchema, probeKey))
    {B P : List Tuple} (hB : Spillable ctx buildSchema buildKey B)
    (hP : Spillable ctx probeSchema probeKey P) (hbuild : BucketHolds ctx buildSchema build B)
    (hholds : BucketHolds ctx probeSchema probe P) (cap : Option Nat) :
    (cap.isSome = true
        ∧ buildTable ctx buildSchema buildKey cap (build.tuples ctx.crc ctx.hash).1 0 [] = .ok none)
      ∨ ∃ table out,
        buildTable ctx buildSchema buildKey cap (build.tuples ctx.crc ctx.hash).1 0 []
          = .ok (some table)
        ∧ probePair ctx params buildIsLeft table probe = (out, .ok ())
        ∧ out.Perm (outerJoin (sameKey probeKey buildKey) (combine buildIsLeft)
            (keepProbe params buildIsLeft) (keepBuild params buildIsLeft) P B) := by
  rw [hbuild.tuples]
  rcases buildTable_cases laws hB.key_lt hB.storable hB.keyed (HashTable.indexed_nil buildKey) cap 0
    with hfull | ⟨table, htable, hindexed, hentries⟩
  · exact Or.inl hfull
  · obtain ⟨out, hout, hperm⟩ :=
      probePair_eq laws hprobe hP.key_lt hP.storable hP.keyed hholds hindexed hentries
    exact Or.inr ⟨table, out, htable, hout, hperm⟩

/-- **One side is built and the other probes it**, whichever is the smaller: the pair is joined,
    unless the side that is built is over the cap. -/
theorem buildProbe_joined (laws : ctx.runtime.CodecLaws)
    (hL : Spillable ctx params.leftSchema params.leftKey L)
    (hR : Spillable ctx params.rightSchema params.rightKey R)
    (hleft : BucketHolds ctx params.leftSchema left L)
    (hright : BucketHolds ctx params.rightSchema right R)
    (hsides : sidesOf buildIsLeft left right = (build, probe)) (cap : Option Nat) :
    (cap.isSome = true
        ∧ buildTable ctx (params.buildOf buildIsLeft).1 (params.buildOf buildIsLeft).2 cap
          (build.tuples ctx.crc ctx.hash).1 0 [] = .ok none)
      ∨ ∃ table out,
        buildTable ctx (params.buildOf buildIsLeft).1 (params.buildOf buildIsLeft).2 cap
          (build.tuples ctx.crc ctx.hash).1 0 [] = .ok (some table)
        ∧ probePair ctx params buildIsLeft table probe = (out, .ok ())
        ∧ out.Perm (params.joined L R) := by
  cases buildIsLeft <;> obtain ⟨rfl, rfl⟩ := Prod.mk.inj hsides
  · exact buildProbe_cases laws (probeOf_build_right params) hR hL hright hleft cap
  · refine (buildProbe_cases laws (probeOf_build_left params) hL hR hleft hright cap).imp_right ?_
    rintro ⟨table, out, htable, hprobe, hperm⟩
    exact ⟨table, out, htable, hprobe, hperm.trans (joined_of_build_left ..)⟩

end Sides

/-- **A pair of buckets is joined**, however often it may be partitioned again. -/
theorem joinPair_eq (hscratch : Scratch ctx) (hparts : 0 < ctx.joinConfig.hashPartitions)
    (levels : Nat) : JoinsBuckets ctx params (joinPair ctx params levels) := by
  induction levels with
  | zero =>
    intro left right L R hL hR hleft hright
    obtain ⟨⟨build, probe⟩, hsides⟩ : ∃ sides, sidesOf (left.used ≤ right.used) left right
      = sides :=
      ⟨_, rfl⟩
    rcases buildProbe_joined hscratch.codec hL hR hleft hright hsides none with
      ⟨hcap, -⟩ | ⟨table, out, hbuild, hprobe, hperm⟩
    · cases hcap
    · rw [sidesOf] at hsides
      simp only [joinPair, hsides, hbuild, Option.getD_some]
      exact ⟨out, hprobe, hperm⟩
  | succ levels ih =>
    intro left right L R hL hR hleft hright
    obtain ⟨⟨build, probe⟩, hsides⟩ : ∃ sides, sidesOf (left.used ≤ right.used) left right
      = sides :=
      ⟨_, rfl⟩
    have hbuilt := buildProbe_joined hscratch.codec hL hR hleft hright hsides
      (some ctx.joinConfig.buildBudget)
    obtain ⟨lefts, rights, hlefts, hrights, hpairs⟩ :=
      repartitionPair_eq hscratch hparts hL hR hleft hright hsides (MAX_REPARTITION_LEVELS - levels)
    rw [sidesOf] at hsides
    simp only [joinPair, hsides]
    rcases hbuilt with ⟨-, hfull⟩ | ⟨table, out, hbuild, hprobe, hperm⟩
    · simp only [hfull, hpairs]
      exact ih.emitAll hparts hlefts hrights (fun i => hL.filter _) (fun i => hR.filter _)
    · simp only [hbuild]
      exact ⟨out, hprobe, hperm⟩

end Pairs

/-! ### The whole join -/

def withKey (key : Nat) (rows : List Tuple) :
    List Tuple := rows.filter fun t => (joinKey key t).isSome

def withoutKey (key : Nat) (rows : List Tuple) :
    List Tuple := rows.filter fun t => !(joinKey key t).isSome

/-- A side of the join: rows of the schema that fit a page, and buckets with room for those
    that are sent to them. -/
structure Partitionable (ctx : QueryContext) (schema : Schema) (key : Nat)
    (rows : List Tuple) : Prop where
  key_lt : key < schema.fields.length
  typed : ∀ t ∈ rows, Typed ctx.runtime schema.fields t
  width : ∀ t ∈ rows, schema.encodedSize t ≤ Filesystem.maxTuple
  -- the source refuses a bucket of less than a page
  page : PAGE_SIZE ≤ ctx.joinConfig.partitionDisk
  room : ∀ i, Roomy ctx schema ((withKey key rows).filter (routeOf ctx key 0 · = i))

section Whole

variable {ctx : QueryContext} {schema : Schema} {key : Nat} {rows : List Tuple}

theorem Partitionable.spillable (h : Partitionable ctx schema key rows) (i : Nat) :
    Spillable ctx schema key ((withKey key rows).filter (routeOf ctx key 0 · = i)) where
  key_lt := h.key_lt
  storable t ht :=
    have hmem := List.mem_of_mem_filter (List.mem_of_mem_filter ht)
    ⟨h.typed t hmem, h.width t hmem⟩
  keyed _ ht := (List.mem_filter.mp (List.mem_of_mem_filter ht)).2
  page := h.page
  room := h.room i

theorem Partitionable.partitionInput (h : Partitionable ctx schema key rows)
    (hscratch : Scratch ctx) (hparts : 0 < ctx.joinConfig.hashPartitions) :
    ∃ fresh parts, newBuckets ctx ctx.joinConfig.hashPartitions = .ok fresh
      ∧ partitionInput ctx key schema (.ofRows rows) fresh [] = .ok (parts, withoutKey key rows)
      ∧ PartsHold ctx schema (routeOf ctx key 0) parts (withKey key rows) := by
  obtain ⟨fresh, hnew, hempty⟩ := partsHold_new h.page schema (routeOf ctx key 0)
  obtain ⟨parts, hrun, hholds⟩ := partitionInput_eq hscratch hparts h.key_lt
    (fun t ht => ⟨h.typed t ht, h.width t ht⟩) hempty h.room []
  exact ⟨fresh, parts, hnew, hrun, hholds⟩

theorem sameKey_withoutKey {leftKey rightKey : Nat} {L : List Tuple} :
    ∀ l ∈ withoutKey leftKey L, ∀ r, sameKey leftKey rightKey l r = false := by
  intro l hl r
  rw [withoutKey, List.mem_filter, Bool.not_eq_true'] at hl
  rw [sameKey, hl.2, Bool.false_and]

theorem joined_split (params : HashJoinParams) (L R : List Tuple) :
    (params.joined (withKey params.leftKey L) (withKey params.rightKey R)
      ++ nullTail params (withoutKey params.leftKey L) (withoutKey params.rightKey R)).Perm
      (params.joined L R) := by
  have hright : ∀ l, ∀ r ∈ withoutKey params.rightKey R, sameKey params.leftKey params.rightKey l r
    = false :=
    fun l r hr => (sameKey_comm ..).trans (sameKey_withoutKey r hr l)
  have hnulls : params.joined (withoutKey params.leftKey L) (withoutKey params.rightKey R)
      = nullTail params (withoutKey params.leftKey L) (withoutKey params.rightKey R) := by
    rw [HashJoinParams.joined, joinRows,
      outerJoin_apart (fun l hl r _ => sameKey_withoutKey l hl r), flatMap_keepLeft,
      flatMap_keepRight, nullTail]
  rw [← hnulls]
  exact (outerJoin_append (fun l _ r hr => hright l r hr)
    (fun l hl r _ => sameKey_withoutKey l hl r)).symm.trans
    (outerJoin_perm (List.filter_append_perm ..) (List.filter_append_perm ..))

end Whole

/-- **The grace hash join is correct for every partitioning.**  Over inputs of its schemas
    whose rows fit a page it gives, in some order, the pairs with the same key bytes and, for
    the outer sides, the rows without a partner; whatever the hash function, the number of
    buckets and the budget are. -/
theorem grace_hash_join_is_join {ctx : QueryContext} (hscratch : Scratch ctx)
    (hparts : 0 < ctx.joinConfig.hashPartitions) {on : Option Expr} {leftNode rightNode : PlanNode}
    {leftKey rightKey : Nat} (hkeys : equiKeys on leftNode = .ok (leftKey, rightKey))
    (joinType : JoinType) {leftSchema rightSchema : Schema} {L R : List Tuple}
    (hL : Partitionable ctx leftSchema leftKey L) (hR : Partitionable ctx rightSchema rightKey R) :
    ∃ rows, graceHashJoin ctx on joinType leftSchema rightSchema leftNode rightNode
      (.ok (.ofRows L))
        (.ok (.ofRows R)) = .ok (.ofRows rows)
      ∧ rows.Perm (joinRows (sameKey leftKey rightKey) joinType (outputArity leftNode)
        (outputArity rightNode)
          L R) := by
  let params : HashJoinParams :=
    ⟨joinType, leftKey, rightKey, outputArity leftNode, outputArity rightNode, leftSchema,
      rightSchema⟩
  obtain ⟨freshl, lefts, hnewl, hrunl, hlefts⟩ := hL.partitionInput hscratch hparts
  obtain ⟨freshr, rights, hnewr, hrunr, hrights⟩ := hR.partitionInput hscratch hparts
  obtain ⟨out, hall, hout⟩ :=
    (@joinPair_eq ctx params hscratch hparts MAX_REPARTITION_LEVELS).emitAll hparts
    hlefts hrights hL.spillable hR.spillable
  refine ⟨out ++ nullTail params (withoutKey leftKey L) (withoutKey rightKey R), ?_,
    (hout.append_right _).trans (joined_split params L R)⟩
  refine bind_eq_ok.mpr ⟨(leftKey, rightKey), hkeys, bind_eq_ok.mpr ⟨freshl, hnewl,
    bind_eq_ok.mpr ⟨freshr, hnewr, bind_eq_ok.mpr ⟨_, rfl, bind_eq_ok.mpr ⟨_, hrunl,
      bind_eq_ok.mpr ⟨_, rfl, bind_eq_ok.mpr ⟨_, hrunr, ?_⟩⟩⟩⟩⟩⟩⟩
  dsimp only
  rw [hall]
  rfl

def spillingContext : QueryContext :=
  { emptyContext with joinConfig := ⟨0, 3 * PAGE_SIZE, 0, 2⟩, xxh3 :=
    fun key seed => seed + key.length.toUInt64 }

theorem partitionable_spillingContext {rows : List Tuple}
    (hrows : ∀ t ∈ rows, ∃ v, t = [Value.int32 v] ∨ t = [.null]) (hlen : rows.length ≤ 3) :
    Partitionable spillingContext (keySchema .int32) 0 rows where
  key_lt := Nat.zero_lt_one
  typed t ht := by
    obtain ⟨v, rfl | rfl⟩ := hrows t ht <;> exact .cons ⟨rfl, trivial⟩ .nil
  width t ht := by
    obtain ⟨v, rfl | rfl⟩ := hrows t ht
    · exact (by decide : (keySchema .int32).encodedSize [.int32 0] ≤ Filesystem.maxTuple)
    · decide
  page := by decide
  room i := Roomy.of_length <| Nat.mul_le_mul_right _ <|
    ((List.filter_sublist.trans List.filter_sublist).length_le).trans hlen

theorem scratch_spillingContext : Scratch spillingContext :=
  ⟨scratch_emptyContext.codec, scratch_emptyContext.zeroed⟩

/-- A full join with two equal keys, one `NULL` and one without a partner on either side. -/
theorem grace_hash_join_is_join_full :
    ∃ rows, graceHashJoin spillingContext (some (.binary .eq (.column 0) (.column 1))) .full
      (keySchema .int32)
        (keySchema .int32) (.values [[.null]]) (.values [[.null]])
        (.ok (.ofRows [[.int32 1], [.null], [.int32 1]])) (.ok (.ofRows [[.int32 1], [.int32 2]]))
        = .ok (.ofRows rows)
      ∧ rows.Perm [[.int32 1, .int32 1], [.int32 1, .int32 1], [.null, .null],
        [.null, .int32 2]] := by
  have hrows : joinRows (sameKey 0 0) .full 1 1 [[.int32 1], [.null], [.int32 1]]
    [[.int32 1], [.int32 2]]
      = [[.int32 1, .int32 1], [.int32 1, .int32 1], [.null, .null], [.null, .int32 2]] := by
    rfl
  rw [← hrows]
  exact grace_hash_join_is_join scratch_spillingContext Nat.zero_lt_two rfl .full
    (partitionable_spillingContext (fun t ht => by fin_cases ht <;> simp) (by decide))
    (partitionable_spillingContext (fun t ht => by fin_cases ht <;> simp) (by decide))

end StrataDb.Sql
