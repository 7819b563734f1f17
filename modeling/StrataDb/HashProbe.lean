import StrataDb.HashPartition

/-!
# A table that is built of one bucket and probed with the other joins them

No key comes twice in a table, and the entries of a key have that key (`Indexed`). Probing gives
each row's partners and flags them; in the end the entries without a flag join nothing (`Probed`).
-/

namespace StrataDb.Sql

open ByteCodec EquiJoin
open Runs (bind_eq_ok)
open List (append_assoc map_congr_left map_cons map_map mem_cons mem_cons_of_mem mem_cons_self
  nodup_cons)
open List.Perm (of_eq refl)

/-! ### The table -/

namespace HashTable

def entries (table : HashTable) : List BuildEntry := table.flatMap Prod.snd

structure Indexed (key : Nat) (table : HashTable) : Prop where
  nodup : (table.map Prod.fst).Nodup
  keyed : ∀ p ∈ table, ∀ e ∈ p.2, joinKey key e.row = some p.1

variable {key : Nat} {table : HashTable} {k k' : Bytes} {es : List BuildEntry}

theorem indexed_nil (key : Nat) : Indexed key [] := ⟨List.nodup_nil, by simp⟩

theorem Indexed.tail (h : Indexed key ((k, es) :: table)) : Indexed key table :=
  ⟨h.nodup.of_cons, fun p hp => h.keyed p (mem_cons_of_mem _ hp)⟩

theorem entries_cons (k : Bytes) (es : List BuildEntry) (table : HashTable) :
    entries ((k, es) :: table) = es ++ entries table := rfl

theorem Indexed.notMem_entries (h : Indexed key table) (hk : k ∉ table.map Prod.fst) :
    ∀ e ∈ table.entries, joinKey key e.row ≠ some k := by
  intro e he heq
  obtain ⟨p, hp, hep⟩ := List.mem_flatMap.mp he
  obtain rfl : p.1 = k := Option.some.inj ((h.keyed p hp e hep).symm.trans heq)
  exact hk (List.mem_map_of_mem hp)

theorem Indexed.lookup_eq (h : Indexed key table) (k : Bytes) :
    (table.lookup k).getD [] = table.entries.filter (fun e => joinKey key e.row = some k) := by
  induction table with
  | nil => rfl
  | cons p table ih =>
    obtain ⟨k', es⟩ := p
    have hes : ∀ e ∈ es, joinKey key e.row = some k' := h.keyed _ mem_cons_self
    rw [List.lookup_cons, entries_cons, List.filter_append]
    by_cases hk : k = k'
    · -- a key has one bucket
      subst hk
      have hrest : (entries table).filter (fun e => joinKey key e.row = some k) = [] :=
        List.filter_eq_nil_iff.mpr fun e he => by
          simpa using h.tail.notMem_entries (nodup_cons.mp h.nodup).1 e he
      have hall : es.filter (fun e => joinKey key e.row = some k) = es :=
        List.filter_eq_self.mpr fun e he => decide_eq_true (hes e he)
      rw [hrest, hall, List.append_nil, beq_self_eq_true]
      rfl
    · have hnone : es.filter (fun e => joinKey key e.row = some k) = [] :=
        List.filter_eq_nil_iff.mpr fun e he heq =>
          hk (Option.some.inj ((of_decide_eq_true heq).symm.trans (hes e he)))
      rw [hnone, List.nil_append, beq_false_of_ne hk]
      exact ih h.tail

theorem mem_keys_insert (k : Bytes) (e : BuildEntry) (table : HashTable) :
    ∀ k' ∈ (table.insert k e).map Prod.fst, k' = k ∨ k' ∈ table.map Prod.fst := by
  induction table with
  | nil => simp [insert]
  | cons p table ih =>
    obtain ⟨k₀, es⟩ := p
    intro k' hk'
    rw [insert] at hk'
    split_ifs at hk' with heq
    · exact Or.inr hk'
    · rcases mem_cons.mp hk' with rfl | hk'
      · exact Or.inr mem_cons_self
      · exact (ih k' hk').imp_right (mem_cons_of_mem _)

theorem Indexed.insert (h : Indexed key table) {e : BuildEntry} (he : joinKey key e.row = some k) :
    Indexed key (table.insert k e) := by
  induction table with
  | nil => exact ⟨by simp [HashTable.insert], by simpa [HashTable.insert] using he⟩
  | cons p table ih =>
    obtain ⟨k₀, es⟩ := p
    have hes : ∀ e ∈ es, joinKey key e.row = some k₀ := h.keyed _ mem_cons_self
    rw [HashTable.insert]
    split_ifs with heq
    · subst heq
      refine ⟨h.nodup, fun p hp => ?_⟩
      rcases mem_cons.mp hp with rfl | hp
      · intro e' he'
        rcases List.mem_append.mp he' with he' | he'
        · exact hes e' he'
        · exact (List.mem_singleton.mp he') ▸ he
      · exact h.keyed p (mem_cons_of_mem _ hp)
    · have hrest := ih h.tail
      refine ⟨nodup_cons.mpr ⟨fun hmem => ?_, hrest.nodup⟩, fun p hp => ?_⟩
      · rcases mem_keys_insert k e table _ hmem with hk | hk
        · exact heq hk
        · exact (nodup_cons.mp h.nodup).1 hk
      · rcases mem_cons.mp hp with rfl | hp
        · exact hes
        · exact hrest.keyed p hp

theorem entries_insert (k : Bytes) (e : BuildEntry) (table : HashTable) :
    (table.insert k e).entries.Perm (table.entries ++ [e]) := by
  induction table with
  | nil => exact refl _
  | cons p table ih =>
    obtain ⟨k₀, es⟩ := p
    rw [insert]
    split_ifs with heq
    · rw [entries_cons, entries_cons, append_assoc, append_assoc]
      exact List.perm_append_comm.append_left es
    · rw [entries_cons, entries_cons, append_assoc]
      exact ih.append_left es

theorem Indexed.entries_mark (h : Indexed key table) (k : Bytes) :
    (table.mark k).entries
      = table.entries.map fun e => if joinKey key e.row = some k then
        { e with matched := true } else e := by
  rw [entries, mark, entries, List.flatMap_map, List.map_flatMap]
  apply List.flatMap_congr
  intro p hp
  split_ifs with hk
  · apply map_congr_left
    intro e he
    rw [if_pos (hk ▸ h.keyed p hp e he)]
  · refine (List.map_id _).symm.trans (map_congr_left fun e he => ?_)
    rw [if_neg fun heq => hk (Option.some.inj ((h.keyed p hp e he).symm.trans heq))]
    rfl

theorem Indexed.mark (h : Indexed key table) (k : Bytes) : Indexed key (table.mark k) := by
  constructor
  · have hkeys : (table.mark k).map Prod.fst = table.map Prod.fst := by
      rw [HashTable.mark, map_map]
      apply map_congr_left
      intro p _
      show (if p.1 = k then _ else p).1 = p.1
      split_ifs <;> rfl
    rw [hkeys]
    exact h.nodup
  · intro p hp e he
    obtain ⟨q, hq, rfl⟩ := List.mem_map.mp hp
    split_ifs at he ⊢ with hk
    · obtain ⟨e', he', rfl⟩ := List.mem_map.mp he
      exact h.keyed q hq e' he'
    · exact h.keyed q hq e he

end HashTable

theorem buildTable_cases {ctx : QueryContext} {schema : Schema} {key : Nat}
    (laws : ctx.runtime.CodecLaws) (hkey : key < schema.fields.length) {rows : List Tuple}
    (hrows : ∀ t ∈ rows, Storable ctx.runtime schema t)
    (hkeyed : ∀ t ∈ rows, (joinKey key t).isSome = true) {table : HashTable} (h : table.Indexed key)
    (cap : Option Nat) (used : Nat) :
    (cap.isSome = true
        ∧ buildTable ctx schema key cap (rows.map (rowBytes ctx.runtime schema)) used table
          = .ok none)
      ∨ ∃ table', buildTable ctx schema key cap (rows.map (rowBytes ctx.runtime schema)) used table
            = .ok (some table')
          ∧ table'.Indexed key ∧ table'.entries.Perm (table.entries ++ rows.map (⟨·, false⟩)) := by
  induction rows generalizing table used with
  | nil => exact Or.inr ⟨table, rfl, h, by simp⟩
  | cons t rows ih =>
    have ht := hrows t mem_cons_self
    obtain ⟨k, hk⟩ := Option.isSome_iff_exists.mp (hkeyed t mem_cons_self)
    rw [map_cons, buildTable]
    split_ifs with hcap
    · exact Or.inl ⟨by cases cap <;> simp_all, rfl⟩
    · have hstep : ∀ rest used, (do
            let tuple ← decodeRow ctx.runtime schema (rowBytes ctx.runtime schema t)
            let k ← spilledKey tuple key
            buildTable ctx schema key cap rest used (table.insert k ⟨tuple, false⟩))
          = buildTable ctx schema key cap rest used (table.insert k ⟨t, false⟩) := by
        intro rest used
        rw [ht.decodeRow laws]
        show (spilledKey t key >>= _) = _
        rw [spilledKey_eq ht.typed hkey hk]
        rfl
      rw [hstep]
      rcases ih (fun t ht => hrows t (mem_cons_of_mem _ ht))
        (fun t ht => hkeyed t (mem_cons_of_mem _ ht))
        (@HashTable.Indexed.insert _ _ _ h ⟨t, false⟩ hk)
          (used + (rowBytes ctx.runtime schema t).length) with hfull | ⟨table', hrun, hind, hperm⟩
      · exact Or.inl hfull
      · refine Or.inr ⟨table', hrun, hind, hperm.trans ?_⟩
        rw [map_cons, List.append_cons]
        exact (HashTable.entries_insert k _ table).append_right _

section Probing

variable (params : HashJoinParams) (buildIsLeft : Bool)

def combine (probe build : Tuple) : Tuple :=
  if buildIsLeft then concat build probe else concat probe build

def keepProbe (probe : Tuple) : List Tuple :=
  if buildIsLeft then keepRight params.joinType params.leftWidth probe
  else keepLeft params.joinType params.rightWidth probe

def keepBuild (build : Tuple) : List Tuple :=
  if buildIsLeft then keepLeft params.joinType params.rightWidth build
  else keepRight params.joinType params.leftWidth build

structure Probed (probeKey buildKey : Nat) (P B : List Tuple) (table : HashTable) : Prop where
  indexed : table.Indexed buildKey
  flagged : table.entries.Perm (B.map fun b => ⟨b, P.any (sameKey probeKey buildKey · b)⟩)

variable {params buildIsLeft} {ctx : QueryContext} {schema : Schema} {probeKey buildKey : Nat}
  {P B : List Tuple} {table : HashTable} {t : Tuple}

theorem sameKey_eq {k : Bytes} (hk : joinKey probeKey t = some k) (b : Tuple) :
    sameKey probeKey buildKey t b = decide (joinKey buildKey b = some k) := by
  rw [Bool.eq_iff_iff, sameKey_iff, decide_eq_true_iff, hk]
  constructor
  · rintro ⟨k', hl, hr⟩
    exact hr.trans hl.symm
  · exact fun hb => ⟨k, rfl, hb⟩

theorem Probed.lookup (h : Probed probeKey buildKey P B table) {k : Bytes}
    (hk : joinKey probeKey t = some k) :
    ((table.lookup k).getD []).Perm ((B.filter (sameKey probeKey buildKey t)).map
      fun b => ⟨b, P.any (sameKey probeKey buildKey · b)⟩) := by
  rw [h.indexed.lookup_eq k]
  refine (h.flagged.filter _).trans (of_eq ?_)
  rw [List.filter_map]
  refine congrArg _ (List.filter_congr fun b _ => ?_)
  exact (sameKey_eq hk b).symm

theorem Probed.mark (h : Probed probeKey buildKey P B table) {k : Bytes}
    (hk : joinKey probeKey t = some k) : Probed probeKey buildKey (P ++ [t]) B (table.mark k) := by
  refine ⟨h.indexed.mark k, ?_⟩
  rw [h.indexed.entries_mark k]
  refine (h.flagged.map _).trans (of_eq ?_)
  rw [map_map]
  apply map_congr_left
  intro b _
  rw [List.any_append, List.any_cons, List.any_nil, Bool.or_false, sameKey_eq hk b]
  by_cases hb : joinKey buildKey b = some k <;> simp [hb]

theorem Probed.miss (h : Probed probeKey buildKey P B table)
    (hmiss : ∀ b ∈ B, sameKey probeKey buildKey t b = false) :
    Probed probeKey buildKey (P ++ [t]) B table := by
  refine ⟨h.indexed, h.flagged.trans (of_eq (map_congr_left fun b hb => ?_))⟩
  rw [List.any_append, List.any_cons, List.any_nil, Bool.or_false, hmiss b hb, Bool.or_false]

theorem probeOne_eq (laws : ctx.runtime.CodecLaws)
    (hprobe : params.probeOf buildIsLeft = (schema, probeKey))
    (hkey : probeKey < schema.fields.length) (ht : Storable ctx.runtime schema t)
    (hkeyed : (joinKey probeKey t).isSome = true) (h : Probed probeKey buildKey P B table) :
    ∃ out table', probeOne ctx params buildIsLeft table (rowBytes ctx.runtime schema t)
      = .ok (out, table')
      ∧ out.Perm (joinOne (sameKey probeKey buildKey) (combine buildIsLeft)
        (keepProbe params buildIsLeft) B t)
      ∧ Probed probeKey buildKey (P ++ [t]) B table' := by
  obtain ⟨k, hk⟩ := Option.isSome_iff_exists.mp hkeyed
  have hfound := h.lookup hk
  simp only [probeOne, hprobe, ht.decodeRow laws, spilledKey_eq ht.typed hkey hk, bind, Except.bind]
  by_cases hempty : ((table.lookup k).getD []).isEmpty = true
  · have hnone : B.filter (sameKey probeKey buildKey t) = [] := by
      rw [List.isEmpty_iff.mp hempty] at hfound
      exact List.map_eq_nil_iff.mp hfound.nil_eq.symm
    have hmiss : ∀ b ∈ B, sameKey probeKey buildKey t b = false := fun b hb => by
      simpa using List.filter_eq_nil_iff.mp hnone b hb
    refine ⟨keepProbe params buildIsLeft t, table, ?_, ?_, h.miss hmiss⟩
    · rw [if_pos hempty]
      cases buildIsLeft <;> rfl
    · rw [joinOne, hnone, List.any_eq_false.mpr (by simpa using hmiss)]
      exact refl _
  · have hsome : B.any (sameKey probeKey buildKey t) = true := by
      by_contra hany
      have hnone : B.filter (sameKey probeKey buildKey t) = [] :=
        List.filter_eq_nil_iff.mpr fun b hb hj => hany (List.any_eq_true.mpr ⟨b, hb, hj⟩)
      rw [hnone] at hfound
      exact hempty (List.isEmpty_iff.mpr hfound.eq_nil)
    refine ⟨_, table.mark k, by rw [if_neg hempty]; rfl, ?_, h.mark hk⟩
    refine (hfound.map _).trans (of_eq ?_)
    rw [joinOne, hsome, if_pos rfl, List.append_nil, map_map]
    rfl

theorem probeAll_eq (laws : ctx.runtime.CodecLaws)
    (hprobe : params.probeOf buildIsLeft = (schema, probeKey))
    (hkey : probeKey < schema.fields.length) {rows : List Tuple}
    (hrows : ∀ t ∈ rows, Storable ctx.runtime schema t)
    (hkeyed : ∀ t ∈ rows, (joinKey probeKey t).isSome = true)
    (h : Probed probeKey buildKey P B table) :
    ∃ out table', probeAll ctx params buildIsLeft (rows.map (rowBytes ctx.runtime schema)) table
        = (out, .ok table')
      ∧ out.Perm (rows.flatMap
          (joinOne (sameKey probeKey buildKey) (combine buildIsLeft)
            (keepProbe params buildIsLeft) B))
      ∧ Probed probeKey buildKey (P ++ rows) B table' := by
  induction rows generalizing P table with
  | nil => exact ⟨[], table, rfl, refl _, by simpa using h⟩
  | cons t rows ih =>
    obtain ⟨out, table₁, hone, hout, h₁⟩ := probeOne_eq laws hprobe hkey (hrows t mem_cons_self)
      (hkeyed t mem_cons_self) h
    obtain ⟨rest, table', hall, hrest, h'⟩ := ih (fun t ht => hrows t (mem_cons_of_mem _ ht))
      (fun t ht => hkeyed t (mem_cons_of_mem _ ht)) h₁
    refine ⟨out ++ rest, table', ?_, hout.append hrest, by rwa [List.append_cons]⟩
    rw [map_cons, probeAll, hone]
    simp only [hall]

theorem unmatchedBuildTail_eq (params : HashJoinParams) (buildIsLeft : Bool) (table : HashTable) :
    unmatchedBuildTail params buildIsLeft table
      = ((table.entries.filter (fun e => !e.matched)).map BuildEntry.row).flatMap
          (keepBuild params buildIsLeft) := by
  cases buildIsLeft with
  | true =>
    have hkeep : keepBuild params true = keepLeft params.joinType params.rightWidth := rfl
    rw [hkeep, flatMap_keepLeft, map_map]
    rfl
  | false =>
    have hkeep : keepBuild params false = keepRight params.joinType params.leftWidth := rfl
    rw [hkeep, flatMap_keepRight, map_map]
    rfl

/-- Behind the last probe, the entries without a flag are the rows that join nothing. -/
theorem Probed.unmatchedBuildTail (h : Probed probeKey buildKey P B table) :
    (unmatchedBuildTail params buildIsLeft table).Perm
      ((alone (fun b p => sameKey probeKey buildKey p b) B P).flatMap
        (keepBuild params buildIsLeft)) := by
  rw [unmatchedBuildTail_eq]
  refine List.Perm.flatMap_right _ (((h.flagged.filter _).map _).trans (of_eq ?_))
  rw [List.filter_map, map_map]
  exact List.map_id _

theorem probePair_eq (laws : ctx.runtime.CodecLaws)
    (hprobe : params.probeOf buildIsLeft = (schema, probeKey))
    (hkey : probeKey < schema.fields.length) (hP : ∀ t ∈ P, Storable ctx.runtime schema t)
    (hkeyed : ∀ t ∈ P, (joinKey probeKey t).isSome = true) {probe : Bucket ctx}
    (hholds : BucketHolds ctx schema probe P) (hindexed : table.Indexed buildKey)
    (hentries : table.entries.Perm (B.map (⟨·, false⟩))) :
    ∃ out, probePair ctx params buildIsLeft table probe = (out, .ok ())
      ∧ out.Perm (outerJoin (sameKey probeKey buildKey) (combine buildIsLeft)
        (keepProbe params buildIsLeft)
          (keepBuild params buildIsLeft) P B) := by
  have hfresh : Probed probeKey buildKey [] B table := ⟨hindexed, hentries⟩
  obtain ⟨out, table', hrun, hout, hprobed⟩ := probeAll_eq laws hprobe hkey hP hkeyed hfresh
  refine ⟨out ++ StrataDb.Sql.unmatchedBuildTail params buildIsLeft table', ?_, ?_⟩
  · rw [probePair, hholds.tuples, hrun]
  · rw [outerJoin, ← append_assoc]
    exact (hout.trans (flatMap_joinOne ..)).append hprobed.unmatchedBuildTail

end Probing

end StrataDb.Sql
