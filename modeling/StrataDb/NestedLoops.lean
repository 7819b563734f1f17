import StrataDb.EquiJoin
import StrataDb.Joins

/-!
# The two nested-loop joins compute one join

`joinRows` says what a join is to give. The nested loop lists it row by row of the left side, the
block nested loop block by block. Either fails only because an input does or the predicate does on
two rows, and they meet those rows in different orders.
-/

namespace StrataDb.Sql

open ByteCodec EquiJoin
open Filesystem (MemoryWorkspace Holds PAGE_SIZE maxTuple packTuple packPages packPages_concat
  flatten_packPages length_packPages_le)
open Runs (bind_eq_ok)
open List (Forall₂ any_nil map_map mem_cons mem_cons_of_mem mem_cons_self replicate)
open RowStream (collect_eq_ok collect_ofRows error_notMem_ofRows mem_ofRows ofRows ofRows_inj)

def keepLeft (joinType : JoinType) (rightWidth : Nat) (l : Tuple) : List Tuple :=
  if joinType.keepsLeft then [padRight l rightWidth] else []

def keepRight (joinType : JoinType) (leftWidth : Nat) (r : Tuple) : List Tuple :=
  if joinType.keepsRight then [padLeft leftWidth r] else []

def joinRows (joins : Tuple → Tuple → Bool) (joinType : JoinType) (leftWidth rightWidth : Nat)
    (L R : List Tuple) : List Tuple :=
  outerJoin joins concat (keepLeft joinType rightWidth) (keepRight joinType leftWidth) L R

theorem flatMap_keepLeft (joinType : JoinType) (rightWidth : Nat) (L : List Tuple) :
    L.flatMap (keepLeft joinType rightWidth)
      = if joinType.keepsLeft then L.map (padRight · rightWidth) else [] := by
  unfold keepLeft
  cases joinType.keepsLeft with
  | false => simp
  | true => exact List.map_eq_flatMap.symm

theorem flatMap_keepRight (joinType : JoinType) (leftWidth : Nat) (R : List Tuple) :
    R.flatMap (keepRight joinType leftWidth)
      = if joinType.keepsRight then R.map (padLeft leftWidth) else [] := by
  unfold keepRight
  cases joinType.keepsRight with
  | false => simp
  | true => exact List.map_eq_flatMap.symm

def rowKey (key : Nat) (row : Tuple) : Value := row[key]?.getD .null

theorem keyAt_eq {key : Nat} {row : Tuple} (h : key < row.length) :
    keyAt row key = .ok (rowKey key row) := by
  rw [keyAt, rowKey, List.getElem?_eq_getElem h]
  rfl

section Flags

variable {α : Type} {flag more : α → Bool} {xs : List α} {flags : List Bool}

theorem pick_map (flag : α → Bool) (xs : List α) : pick (xs.map flag) xs = xs.filter flag := by
  induction xs with
  | nil => rfl
  | cons x xs ih => rw [List.map_cons, pick, List.filter_cons, ih]

theorem pickNot_map (flag : α → Bool) (xs : List α) :
    pickNot (xs.map flag) xs = xs.filter (fun x => !flag x) := by
  rw [pickNot, map_map]
  exact pick_map _ xs

theorem orFlags_map (flag more : α → Bool) (xs : List α) :
    orFlags (xs.map flag) (xs.map more) = xs.map fun x => flag x || more x := by
  rw [orFlags, List.zipWith_map, List.zipWith_self]

theorem replicate_false (xs : List α) : replicate xs.length false = xs.map fun _ => false :=
  List.map_const'.symm

end Flags

/-! ### The predicate -/

section Predicate

variable {rt : Runtime} {on : Option Expr} {combine : Tuple → Tuple} {rows : List Tuple}

def joinsOn (rt : Runtime) (on : Option Expr) (l r : Tuple) : Bool :=
  match joinMatches rt on (concat l r) with
  | .ok flag => flag
  | .error _ => false

def Evaluates (rt : Runtime) (on : Option Expr) (L R : List Tuple) : Prop :=
  ∀ l ∈ L, ∀ r ∈ R, joinMatches rt on (concat l r) = .ok (joinsOn rt on l r)

theorem joinMatches_cases (rt : Runtime) (on : Option Expr) (l r : Tuple) :
    joinMatches rt on (concat l r) = .ok (joinsOn rt on l r)
      ∨ ∃ f, joinMatches rt on (concat l r) = .error f := by
  unfold joinsOn
  cases joinMatches rt on (concat l r) with
  | ok flag => exact Or.inl rfl
  | error f => exact Or.inr ⟨f, rfl⟩

theorem matchRows_eq {flag : Tuple → Bool}
    (h : ∀ row ∈ rows, joinMatches rt on (combine row) = .ok (flag row)) :
    matchRows rt on combine rows = .ok (rows.map flag) := by
  induction rows with
  | nil => rfl
  | cons row rows ih =>
    have hrest := ih fun row hrow => h row (mem_cons_of_mem _ hrow)
    exact bind_eq_ok.mpr ⟨_, h row mem_cons_self, bind_eq_ok.mpr ⟨_, hrest, rfl⟩⟩

theorem matchRows_cases {flag : Tuple → Bool}
    (h : ∀ row ∈ rows, joinMatches rt on (combine row) = .ok (flag row)
      ∨ ∃ f, joinMatches rt on (combine row) = .error f) :
    (∀ row ∈ rows, joinMatches rt on (combine row) = .ok (flag row))
      ∨ ∃ row ∈ rows, ∃ f, joinMatches rt on (combine row) = .error f
        ∧ matchRows rt on combine rows = .error f := by
  induction rows with
  | nil => exact Or.inl nofun
  | cons row rows ih =>
    rcases h row mem_cons_self with hrow | ⟨f, hrow⟩
    · rcases ih fun row hrow => h row (mem_cons_of_mem _ hrow) with hrows | ⟨row', hmem, f,
        hfail, hrun⟩
      · refine Or.inl ?_
        intro row' hmem
        rcases mem_cons.mp hmem with rfl | hmem
        · exact hrow
        · exact hrows row' hmem
      · refine Or.inr ⟨row', mem_cons_of_mem _ hmem, f, hfail, ?_⟩
        rw [matchRows, hrow, hrun]
        rfl
    · refine Or.inr ⟨row, mem_cons_self, f, hrow, ?_⟩
      rw [matchRows, hrow]
      rfl

end Predicate

/-! ### The nested loop -/

section NestedLoop

variable {rt : Runtime} {on : Option Expr} {joins : Tuple → Tuple → Bool} {joinType : JoinType}
  {width : Nat} {L R : List Tuple}

theorem nestedLoop_eq (h : ∀ l ∈ L, ∀ r ∈ R, joinMatches rt on (concat l r) = .ok (joins l r))
    (matched : Tuple → Bool) :
    nestedLoop rt on joinType width R L (R.map matched)
      = .ok (L.flatMap (joinOne joins concat (keepLeft joinType width) R),
        R.map fun r => matched r || L.any (joins · r)) := by
  induction L generalizing matched with
  | nil =>
    simp only [any_nil, Bool.or_false]
    rfl
  | cons l L ih =>
    have hflags := matchRows_eq (h l mem_cons_self)
    have hrest := ih (fun l hl => h l (mem_cons_of_mem _ hl)) (fun r => matched r || joins l r)
    rw [← orFlags_map] at hrest
    refine bind_eq_ok.mpr ⟨_, hflags, bind_eq_ok.mpr ⟨_, hrest, ?_⟩⟩
    -- an outer row without a partner is padded, if the join keeps it
    have hkept :
        (if !(R.map (joins l)).any id && joinType.keepsLeft then [padRight l width] else [])
        = if R.any (joins l) then [] else keepLeft joinType width l := by
      rw [List.any_map, Function.id_comp, keepLeft]
      cases R.any (joins l) <;> cases joinType.keepsLeft <;> rfl
    simp only [hkept, pick_map, List.flatMap_cons, List.any_cons, Bool.or_assoc, joinOne]
    rfl

theorem nestedLoop_cases (rt : Runtime) (on : Option Expr) (joinType : JoinType) (width : Nat)
    (L R : List Tuple) (matched : List Bool) :
    Evaluates rt on L R ∨ ∃ l ∈ L, ∃ r ∈ R, ∃ f, joinMatches rt on (concat l r) = .error f
      ∧ nestedLoop rt on joinType width R L matched = .error f := by
  induction L generalizing matched with
  | nil => exact Or.inl nofun
  | cons l L ih =>
    rcases @matchRows_cases rt on (concat l) R _ fun r _ => joinMatches_cases rt on l r with
      hrow | ⟨r, hr, f, hfail, hrun⟩
    · rcases ih (orFlags matched (R.map (joinsOn rt on l))) with hrows | ⟨l', hl', r, hr, f,
        hfail, hrun⟩
      · refine Or.inl ?_
        intro l' hl'
        rcases mem_cons.mp hl' with rfl | hl'
        · exact hrow
        · exact hrows l' hl'
      · refine Or.inr ⟨l', mem_cons_of_mem _ hl', r, hr, f, hfail, ?_⟩
        rw [nestedLoop, matchRows_eq hrow]
        show (nestedLoop rt on joinType width R L _ >>= _) = _
        rw [hrun]
        rfl
    · refine Or.inr ⟨l, mem_cons_self, r, hr, f, hfail, ?_⟩
      rw [nestedLoop, hrun]
      rfl

/-- What can go wrong in a join: an input, or the predicate on two of its rows.  The room for
    inner rows may be short before an error among them is met. -/
inductive JoinFault (rt : Runtime) (on : Option Expr) (left right : Outcome RowStream) : Fault →
    Prop
  | left {f : Fault} (fails : left = .error f) : JoinFault rt on left right f
  | right {f : Fault} (fails : right = .error f) : JoinFault rt on left right f
  | leftRow {f : Fault} {stream : RowStream} (input : left = .ok stream) (mem : .error f ∈ stream) :
      JoinFault rt on left right f
  | rightRow {f : Fault} {stream : RowStream} (input : right = .ok stream)
    (mem : .error f ∈ stream) :
      JoinFault rt on left right f
  | predicate {f : Fault} {lefts rights : RowStream} {l r : Tuple} (inputs : left = .ok lefts
    ∧ right = .ok rights)
      (mem : .ok l ∈ lefts ∧ .ok r ∈ rights) (fails : joinMatches rt on (concat l r) = .error f) :
      JoinFault rt on left right f
  | room {stream : RowStream} {g : Fault} (input : right = .ok stream) (mem : .error g ∈ stream)
      (msg : String) : JoinFault rt on left right (.error (.internal msg))

structure Joinable (rt : Runtime) (on : Option Expr) (left right : Outcome RowStream)
    (L R : List Tuple) :
    Prop where
  left : left = .ok (.ofRows L)
  right : right = .ok (.ofRows R)
  evaluates : Evaluates rt on L R

theorem nestedLoopJoin_eq {leftWidth : Nat}
    (h : ∀ l ∈ L, ∀ r ∈ R, joinMatches rt on (concat l r) = .ok (joins l r)) :
    nestedLoopJoin rt on joinType leftWidth width (.ok (.ofRows L)) (.ok (.ofRows R))
      = .ok (.ofRows (L.flatMap (joinOne joins concat (keepLeft joinType width) R)
        ++ (alone (fun r l => joins l r) R L).flatMap (keepRight joinType leftWidth))) := by
  have hloop := @nestedLoop_eq rt on joins joinType width L R h fun _ => false
  rw [← replicate_false] at hloop
  refine bind_eq_ok.mpr ⟨_, rfl, bind_eq_ok.mpr ⟨L, collect_ofRows L, ?_⟩⟩
  refine bind_eq_ok.mpr ⟨_, rfl, bind_eq_ok.mpr ⟨R, collect_ofRows R, ?_⟩⟩
  refine bind_eq_ok.mpr ⟨_, hloop, ?_⟩
  simp only [Bool.false_or, pickNot_map, flatMap_keepRight]
  rfl

/-- **The nested loop gives the join of its inputs**, or fails as one of them or the
    predicate does. -/
theorem nestedLoopJoin_cases (rt : Runtime) (on : Option Expr) (joinType : JoinType)
    (leftWidth rightWidth : Nat) (left right : Outcome RowStream) :
    (∃ L R, Joinable rt on left right L R
        ∧ ∃ rows, nestedLoopJoin rt on joinType leftWidth rightWidth left right = .ok (.ofRows rows)
          ∧ rows.Perm (joinRows (joinsOn rt on) joinType leftWidth rightWidth L R))
      ∨ ∃ f, nestedLoopJoin rt on joinType leftWidth rightWidth left right = .error f
        ∧ JoinFault rt on left right f := by
  cases hleft : left with
  | error f => exact Or.inr ⟨f, rfl, .left rfl⟩
  | ok lefts =>
    cases hlefts : lefts.collect with
    | error f =>
      refine Or.inr ⟨f, ?_, .leftRow rfl (RowStream.mem_of_collect_error hlefts)⟩
      show (lefts.collect >>= _) = _
      rw [hlefts]
      rfl
    | ok L =>
      obtain rfl := collect_eq_ok.mp hlefts
      cases hright : right with
      | error f =>
        refine Or.inr ⟨f, ?_, .right rfl⟩
        show ((ofRows L).collect >>= _) = _
        rw [hlefts]
        rfl
      | ok rights =>
        cases hrights : rights.collect with
        | error f =>
          refine Or.inr ⟨f, ?_, .rightRow rfl (RowStream.mem_of_collect_error hrights)⟩
          show ((ofRows L).collect >>= fun _ => rights.collect >>= _) = _
          rw [hlefts, hrights]
          rfl
        | ok R =>
          obtain rfl := collect_eq_ok.mp hrights
          rcases nestedLoop_cases rt on joinType rightWidth L R (replicate R.length false) with
            heval | ⟨l, hl, r, hr, f, hfail, hrun⟩
          · refine Or.inl ⟨L, R, ⟨rfl, rfl, heval⟩, _, nestedLoopJoin_eq heval, ?_⟩
            rw [joinRows, outerJoin, ← List.append_assoc]
            exact (flatMap_joinOne ..).append_right _
          · refine Or.inr ⟨f, ?_, .predicate ⟨rfl, rfl⟩
              ⟨mem_ofRows.mpr hl, mem_ofRows.mpr hr⟩ hfail⟩
            show ((ofRows L).collect >>= fun _ => (ofRows R).collect >>= _) = _
            rw [hlefts, hrights]
            show (nestedLoop rt on joinType rightWidth R L _ >>= _) = _
            rw [hrun]
            rfl

end NestedLoop

/-! ### The inner rows -/

section Inner

variable {rt : Runtime} {schema : Schema} {inner : List Bytes} {R : List Tuple}

abbrev Encoded (rt : Runtime) (schema : Schema) (rows : List Tuple) (bss : List Bytes) : Prop :=
  Forall₂ (fun row bytes => schema.encode rt row = .ok bytes) rows bss

abbrev Decodes (rt : Runtime) (schema : Schema) (bss : List Bytes) (rows : List Tuple) : Prop :=
  Forall₂ (fun bytes row => decodeRow rt schema bytes = .ok row) bss rows

theorem exists_encoded (laws : rt.CodecLaws) (htyped : ∀ t ∈ R, Typed rt schema.fields t) :
    ∃ bss, Encoded rt schema R bss := by
  induction R with
  | nil => exact ⟨[], .nil⟩
  | cons r R ih =>
    obtain ⟨bytes, henc, -⟩ := Schema.encode_ok laws (htyped r mem_cons_self).fitting
    obtain ⟨bss, hbss⟩ := ih fun t ht => htyped t (mem_cons_of_mem _ ht)
    exact ⟨bytes :: bss, .cons henc hbss⟩

theorem decodeRow_of_encode (laws : rt.CodecLaws) {t : Tuple} (htyped : Typed rt schema.fields t)
    (hwidth : schema.encodedSize t ≤ maxTuple) {bytes : Bytes}
    (henc : schema.encode rt t = .ok bytes) :
    decodeRow rt schema bytes = .ok t ∧ bytes.length ≤ maxTuple := by
  obtain ⟨bytes', henc', hsize⟩ := Schema.encode_ok laws htyped.fitting
  obtain rfl := Except.ok.inj (henc'.symm.trans henc)
  have hmax : maxTuple < 2 ^ 32 := by decide
  refine ⟨?_, hsize ▸ hwidth⟩
  rw [decodeRow, Schema.decode_encode_of_length laws htyped henc (by omega)]
  rfl

theorem decodes_of_encoded (laws : rt.CodecLaws) {bss : List Bytes} (h : Encoded rt schema R bss)
    (htyped : ∀ t ∈ R, Typed rt schema.fields t) (hwidth : ∀ t ∈ R, schema.encodedSize t
      ≤ maxTuple) :
    Decodes rt schema bss R := by
  induction h with
  | nil => exact .nil
  | cons henc _ ih =>
    have hrow := decodeRow_of_encode laws (htyped _ mem_cons_self) (hwidth _ mem_cons_self) henc
    exact .cons hrow.1 (ih (fun t ht => htyped t (mem_cons_of_mem _ ht))
      fun t ht => hwidth t (mem_cons_of_mem _ ht))

theorem materialize_full {t : Tuple} {rest : RowStream} {ws ws' : MemoryWorkspace} {bytes : Bytes}
    {e : Filesystem.FsError} (henc : schema.encode rt t = .ok bytes)
    (happend : ws.append bytes = (.error e, ws')) (count : Nat) :
    materialize rt schema (.ok t :: rest) ws count = internalError
      ("join workspace: " ++ e.text) := by
  simp only [materialize, bind, Except.bind, henc, happend]

theorem materialize_cons {t : Tuple} {rest : RowStream} {ws ws' : MemoryWorkspace} {bytes : Bytes}
    {loc : Filesystem.WorkspaceLoc} (henc : schema.encode rt t = .ok bytes)
    (happend : ws.append bytes = (.ok loc, ws')) (count : Nat) :
    materialize rt schema (.ok t :: rest) ws count = materialize rt schema rest ws'
      (count + 1) := by
  simp only [materialize, bind, Except.bind, henc, happend]

/-- **The inner rows are stored**, while there is room for their pages. -/
theorem materialize_eq (laws : rt.CodecLaws) {bss ts : List Bytes} (h : Encoded rt schema R bss)
    (htyped : ∀ t ∈ R, Typed rt schema.fields t) (hwidth : ∀ t ∈ R, schema.encodedSize t ≤ maxTuple)
    {ws : MemoryWorkspace} (hws : Forall₂ Holds ws.blocks (packPages ts))
    (hroom : (packPages (ts ++ bss)).length * PAGE_SIZE ≤ ws.capacity) (count : Nat) :
    ∃ ws', materialize rt schema (.ofRows R) ws count = .ok (ws', count + R.length)
      ∧ ws'.tuples = ts ++ bss := by
  induction h generalizing ts ws count with
  | nil =>
    refine ⟨ws, rfl, ?_⟩
    rw [MemoryWorkspace.tuples_of_holds hws, flatten_packPages, List.append_nil]
  | @cons r bytes R bss henc hrest ih =>
    have hlen := (decodeRow_of_encode laws (htyped r mem_cons_self) (hwidth r mem_cons_self) henc).2
    have hsub : (ts ++ [bytes]).Sublist (ts ++ bytes :: bss) :=
      (List.singleton_sublist.mpr mem_cons_self).append_left ts
    -- a part of the rows takes no more pages than all of them
    have hpages : (packTuple (packPages ts) bytes).length * PAGE_SIZE ≤ ws.capacity := by
      rw [← packPages_concat]
      exact (Nat.mul_le_mul_right _ (length_packPages_le hsub)).trans hroom
    obtain ⟨loc, ws₁, happend, hws₁, hcap⟩ := MemoryWorkspace.append_packs hws hlen hpages
    rw [← packPages_concat] at hws₁
    rw [← hcap, List.append_cons] at hroom
    obtain ⟨ws', hrun, htuples⟩ := ih (fun t ht => htyped t (mem_cons_of_mem _ ht))
      (fun t ht => hwidth t (mem_cons_of_mem _ ht)) hws₁ hroom (count + 1)
    refine ⟨ws', ?_, ?_⟩
    · rw [List.length_cons, Nat.add_comm R.length, ← Nat.add_assoc]
      exact (materialize_cons henc happend count).trans hrun
    · rw [htuples, List.append_assoc]
      rfl

theorem materialize_fails (laws : rt.CodecLaws) {stream : RowStream}
    (htyped : ∀ t, .ok t ∈ stream → Typed rt schema.fields t) {g : Fault} (hg : .error g ∈ stream)
    (ws : MemoryWorkspace) (count : Nat) :
    ∃ f, materialize rt schema stream ws count = .error f
      ∧ (.error f ∈ stream ∨ ∃ msg, f = .error (.internal msg)) := by
  induction stream generalizing ws count with
  | nil => cases hg
  | cons item rest ih =>
    cases item with
    | error f => exact ⟨f, rfl, Or.inl mem_cons_self⟩
    | ok t =>
      obtain ⟨bytes, henc, -⟩ := Schema.encode_ok laws (htyped t mem_cons_self).fitting
      rcases happend : ws.append bytes with ⟨e | loc, ws'⟩
      · exact ⟨_, materialize_full henc happend count, Or.inr ⟨_, rfl⟩⟩
      · rw [materialize_cons henc happend count]
        obtain ⟨f, hrun, hfault⟩ := ih (fun t ht => htyped t (mem_cons_of_mem _ ht))
          ((mem_cons.mp hg).resolve_left (by simp)) ws' (count + 1)
        exact ⟨f, hrun, hfault.imp_left (mem_cons_of_mem _)⟩

end Inner

/-! ### The block nested loop -/

section Blocks

variable {rt : Runtime} {on : Option Expr} {joins : Tuple → Tuple → Bool} {schema : Schema}
  {block L R : List Tuple} {inner : List Bytes}

theorem fillBlock_cases (n : Nat) (stream : RowStream) :
    (∃ block rest, fillBlock n stream = .ok (block, rest) ∧ stream = .ofRows block ++ rest
        ∧ (block = [] → n = 0 ∨ stream = []))
      ∨ ∃ f, fillBlock n stream = .error f ∧ .error f ∈ stream := by
  induction n generalizing stream with
  | zero => exact Or.inl ⟨[], stream, rfl, rfl, fun _ => Or.inl rfl⟩
  | succ n ih =>
    cases stream with
    | nil => exact Or.inl ⟨[], [], rfl, rfl, fun _ => Or.inr rfl⟩
    | cons item stream =>
      cases item with
      | error f => exact Or.inr ⟨f, rfl, mem_cons_self⟩
      | ok t =>
        rcases ih stream with ⟨block, rest, hrun, rfl, -⟩ | ⟨f, hrun, hmem⟩
        · exact Or.inl ⟨t :: block, rest, bind_eq_ok.mpr ⟨t, rfl, bind_eq_ok.mpr ⟨_, hrun, rfl⟩⟩,
            rfl, nofun⟩
        · refine Or.inr ⟨f, ?_, mem_cons_of_mem _ hmem⟩
          show (fillBlock n stream >>= _) = _
          rw [hrun]
          rfl

theorem scanInner_eq (hinner : Decodes rt schema inner R)
    (h : ∀ l ∈ block, ∀ r ∈ R, joinMatches rt on (concat l r) = .ok (joins l r))
    (matched : Tuple → Bool) :
    scanInner rt on schema block inner (block.map matched)
      = .ok (pairs (fun r l => joins l r) (fun r l => concat l r) R block,
        block.map (fun l => matched l || R.any (joins l)),
          R.map fun r => block.any (joins · r)) := by
  induction hinner generalizing matched with
  | nil =>
    simp only [any_nil, Bool.or_false]
    rfl
  | @cons bytes r inner R hdec hrest ih =>
    have hflags : matchRows rt on (fun l => concat l r) block = .ok (block.map (joins · r)) :=
      matchRows_eq fun l hl => h l hl r mem_cons_self
    have hscan :=
      ih (fun l hl r hr => h l hl r (mem_cons_of_mem _ hr)) fun l => matched l || joins l r
    rw [← orFlags_map] at hscan
    refine bind_eq_ok.mpr ⟨r, hdec, bind_eq_ok.mpr ⟨_, hflags, bind_eq_ok.mpr ⟨_, hscan, ?_⟩⟩⟩
    simp only [pick_map, List.any_map, List.any_cons, Bool.or_assoc, List.map_cons]
    rfl

theorem scanInner_cases (hinner : Decodes rt schema inner R) (block : List Tuple)
    (blockMatched : List Bool) :
    Evaluates rt on block R ∨ ∃ l ∈ block, ∃ r ∈ R, ∃ f, joinMatches rt on (concat l r) = .error f
      ∧ scanInner rt on schema block inner blockMatched = .error f := by
  induction hinner generalizing blockMatched with
  | nil => exact Or.inl fun _ _ => nofun
  | @cons bytes r inner R hdec hrest ih =>
    rcases @matchRows_cases rt on (fun l => concat l r) block _ fun l _ => joinMatches_cases rt on
      l r with
      hrow | ⟨l, hl, f, hfail, hrun⟩
    · rcases ih (orFlags blockMatched (block.map (joinsOn rt on · r))) with hrows | ⟨l, hl, r', hr',
        f, hfail, hrun⟩
      · refine Or.inl ?_
        intro l hl r' hr'
        rcases mem_cons.mp hr' with rfl | hr'
        · exact hrow l hl
        · exact hrows l hl r' hr'
      · refine Or.inr ⟨l, hl, r', mem_cons_of_mem _ hr', f, hfail, ?_⟩
        rw [scanInner, hdec]
        show (matchRows rt on _ block >>= _) = _
        rw [matchRows_eq hrow]
        show (scanInner rt on schema block inner _ >>= _) = _
        rw [hrun]
        rfl
    · refine Or.inr ⟨l, hl, r, mem_cons_self, f, hfail, ?_⟩
      rw [scanInner, hdec]
      show (matchRows rt on _ block >>= _) = _
      rw [hrun]
      rfl

theorem joinBlocks_block (hinner : Decodes rt schema inner R) {stream rest : RowStream}
    (hfill : fillBlock OUTER_BLOCK_TUPLES stream = .ok (block, rest)) (hblock : block ≠ [])
    (h : ∀ l ∈ block, ∀ r ∈ R, joinMatches rt on (concat l r) = .ok (joins l r))
    (joinType : JoinType) (width fuel : Nat) (matched : Tuple → Bool) :
    joinBlocks rt on joinType width schema inner (fuel + 1) stream (R.map matched)
      = (joinBlocks rt on joinType width schema inner fuel rest
          (R.map fun r => matched r || block.any (joins · r))).map fun p =>
        (pairs (fun r l => joins l r) (fun r l => concat l r) R block
          ++ (alone joins block R).flatMap (keepLeft joinType width) ++ p.1, p.2) := by
  have hscan := scanInner_eq hinner h fun _ => false
  simp only [← replicate_false, Bool.false_or] at hscan
  have hbool : block.isEmpty = false := List.isEmpty_eq_false_iff.mpr hblock
  rw [joinBlocks, hfill]
  simp only [bind, Except.bind, hbool, Bool.false_eq_true, if_false, hscan, orFlags_map,
    pickNot_map, flatMap_keepLeft]
  cases joinBlocks rt on joinType width schema inner fuel rest _ <;> rfl

/-- **The loop over the blocks** gives the pairs of all outer rows and what is kept of
    them, and flags the inner rows that any block met. -/
theorem joinBlocks_cases (hinner : Decodes rt schema inner R) (joinType : JoinType) (width : Nat)
    {fuel : Nat} {stream : RowStream} (hfuel : stream.length < fuel) (matched : Tuple → Bool) :
    (∃ L, stream = .ofRows L ∧ Evaluates rt on L R
        ∧ ∃ out, joinBlocks rt on joinType width schema inner fuel stream (R.map matched)
            = .ok (out, R.map fun r => matched r || L.any (joinsOn rt on · r))
          ∧ out.Perm (pairs (joinsOn rt on) concat L R
            ++ (alone (joinsOn rt on) L R).flatMap (keepLeft joinType width)))
      ∨ ∃ f, joinBlocks rt on joinType width schema inner fuel stream (R.map matched) = .error f
        ∧ (.error f ∈ stream ∨ ∃ l r, .ok l ∈ stream ∧ r ∈ R ∧ joinMatches rt on (concat l r)
          = .error f) := by
  induction fuel generalizing stream matched with
  | zero => exact absurd hfuel (Nat.not_lt_zero _)
  | succ fuel ih =>
    rcases fillBlock_cases OUTER_BLOCK_TUPLES stream with ⟨block, rest, hfill, rfl, hend⟩ | ⟨f,
      hfill, hmem⟩
    · by_cases hblock : block = []
      · -- the outer rows are drained
        subst hblock
        obtain rfl : rest = [] := (hend rfl).resolve_left (by decide)
        refine Or.inl ⟨[], rfl, nofun, [], ?_, .refl _⟩
        rw [joinBlocks, hfill]
        simp only [any_nil, Bool.or_false]
        rfl
      · rcases @scanInner_cases rt on schema R inner hinner block
          (replicate block.length false) with
          heval | ⟨l, hl, r, hr, f, hfail, hrun⟩
        · have hstep := joinBlocks_block hinner hfill hblock heval joinType width fuel matched
          have hshort : rest.length < fuel := by
            rw [List.length_append, ofRows, List.length_map] at hfuel
            have := List.length_pos_iff.mpr hblock
            omega
          rcases ih hshort (fun r => matched r || block.any (joinsOn rt on · r)) with
            ⟨L, rfl, hevals, out, hrun, hperm⟩ | ⟨f, hrun, hfault⟩
          · rw [hrun] at hstep
            simp only [Except.map, Bool.or_assoc, ← List.any_append] at hstep
            refine Or.inl ⟨block ++ L, (List.map_append ..).symm, ?_, _, hstep, ?_⟩
            · intro l hl
              exact (List.mem_append.mp hl).elim (heval l) (hevals l)
            · rw [pairs_append_left, alone_append, List.flatMap_append]
              refine (hperm.append_left _).trans ?_
              have hswap := Multiset.coe_eq_coe.mpr (pairs_swap (joinsOn rt on) concat block R)
              simp only [← Multiset.coe_eq_coe, ← Multiset.coe_add, hswap]
              abel
          · rw [hrun] at hstep
            refine Or.inr ⟨f, hstep, hfault.imp (List.mem_append_right _) ?_⟩
            rintro ⟨l, r, hl, hr, hfail⟩
            exact ⟨l, r, List.mem_append_right _ hl, hr, hfail⟩
        · refine Or.inr
            ⟨f, ?_, Or.inr ⟨l, r, List.mem_append_left _ (mem_ofRows.mpr hl), hr, hfail⟩⟩
          have hbool : block.isEmpty = false := List.isEmpty_eq_false_iff.mpr hblock
          rw [joinBlocks, hfill]
          simp only [bind, Except.bind, hbool, Bool.false_eq_true, if_false, hrun]
    · refine Or.inr ⟨f, ?_, Or.inl hmem⟩
      rw [joinBlocks, hfill]
      rfl

theorem padInner_eq (hinner : Decodes rt schema inner R) (leftWidth : Nat) :
    padInner rt leftWidth schema inner = .ok (R.map (padLeft leftWidth)) := by
  induction hinner with
  | nil => rfl
  | cons hdec _ ih => exact bind_eq_ok.mpr ⟨_, hdec, bind_eq_ok.mpr ⟨_, ih, rfl⟩⟩

theorem forall₂_pick {α β : Type} {P : α → β → Prop} {xs : List α} {ys : List β}
    (h : Forall₂ P xs ys) (flags : List Bool) :
    Forall₂ P (pick flags xs) (pick flags ys) := by
  induction h generalizing flags with
  | nil => cases flags <;> exact .nil
  | cons hxy _ ih =>
    cases flags with
    | nil => exact .nil
    | cons flag flags =>
      cases flag with
      | true => exact .cons hxy (ih flags)
      | false => exact ih flags

/-- The inner rows, appended one after the other, take no more pages than the budget has. -/
def FitsInner (rt : Runtime) (schema : Schema) (right : Outcome RowStream) : Prop :=
  ∀ R bss, right = .ok (.ofRows R) → Encoded rt schema R bss →
    (packPages bss).length * PAGE_SIZE ≤ INNER_WORKSPACE_BUDGET

/-- **The block nested loop gives the join of its inputs**, or fails as one of them or the
    predicate does. -/
theorem blockNestedLoopJoin_cases (laws : rt.CodecLaws) (on : Option Expr) (joinType : JoinType)
    (leftWidth rightWidth : Nat) (left : Outcome RowStream) {right : Outcome RowStream}
    (htyped : ∀ stream t, right = .ok stream → .ok t ∈ stream → Typed rt schema.fields t)
    (hwidth : ∀ stream t, right = .ok stream → .ok t ∈ stream → schema.encodedSize t ≤ maxTuple)
    (hroom : FitsInner rt schema right) :
    (∃ L R, Joinable rt on left right L R
        ∧ ∃ rows, blockNestedLoopJoin rt on joinType leftWidth rightWidth schema left right
          = .ok (.ofRows rows)
          ∧ rows.Perm (joinRows (joinsOn rt on) joinType leftWidth rightWidth L R))
      ∨ ∃ f, blockNestedLoopJoin rt on joinType leftWidth rightWidth schema left right = .error f
        ∧ JoinFault rt on left right f := by
  cases hright : right with
  | error f => exact Or.inr ⟨f, rfl, .right rfl⟩
  | ok rights =>
    rcases RowStream.ofRows_or_error rights with ⟨R, rfl⟩ | ⟨g, hg⟩
    · have htypedR : ∀ t ∈ R, Typed rt schema.fields t :=
        fun t ht => htyped _ t hright (mem_ofRows.mpr ht)
      have hwidthR : ∀ t ∈ R, schema.encodedSize t ≤ maxTuple :=
        fun t ht => hwidth _ t hright (mem_ofRows.mpr ht)
      obtain ⟨bss, hbss⟩ := exists_encoded laws htypedR
      -- the inner side is stored before the outer side is looked at
      obtain ⟨ws, hmat, htuples⟩ := @materialize_eq rt schema R laws bss [] hbss htypedR hwidthR
        (MemoryWorkspace.new INNER_WORKSPACE_BUDGET) .nil (hroom R bss hright hbss) 0
      have hinner : Decodes rt schema ws.tuples R := by
        rw [htuples]
        exact decodes_of_encoded laws hbss htypedR hwidthR
      rw [Nat.zero_add] at hmat
      cases hleft : left with
      | error f =>
        refine Or.inr ⟨f, ?_, .left rfl⟩
        show (materialize rt schema (.ofRows R) _ 0 >>= _) = _
        rw [hmat]
        rfl
      | ok lefts =>
        have hblocks := @joinBlocks_cases rt on schema R ws.tuples hinner joinType rightWidth
          (lefts.length + 1) lefts (Nat.lt_succ_self _) fun _ => false
        simp only [← replicate_false, Bool.false_or] at hblocks
        rcases hblocks with ⟨L, rfl, heval, out, hrun, hperm⟩ | ⟨f, hrun, hfault⟩
        · refine Or.inl ⟨L, R, ⟨rfl, rfl, heval⟩,
            out ++ (alone (fun r l => joinsOn rt on l r) R L).flatMap
              (keepRight joinType leftWidth), ?_, ?_⟩
          · have hpad := padInner_eq (forall₂_pick hinner
              ((R.map fun r => L.any (joinsOn rt on · r)).map (!·))) leftWidth
            refine bind_eq_ok.mpr ⟨_, rfl, bind_eq_ok.mpr ⟨_, hmat, bind_eq_ok.mpr ⟨_, rfl,
              bind_eq_ok.mpr ⟨_, hrun, ?_⟩⟩⟩⟩
            rw [flatMap_keepRight]
            cases joinType.keepsRight with
            | false =>
              simp only [Bool.false_eq_true, if_false, List.append_nil]
              rfl
            | true =>
              rw [map_map, pick_map] at hpad
              exact bind_eq_ok.mpr ⟨_, by rw [pickNot, map_map]; exact hpad, rfl⟩
          · rw [joinRows, outerJoin, ← List.append_assoc]
            exact hperm.append_right _
        · refine Or.inr ⟨f, ?_, ?_⟩
          · show (materialize rt schema (.ofRows R) _ 0 >>= _) = _
            rw [hmat]
            show (joinBlocks rt on joinType rightWidth schema ws.tuples _ lefts _ >>= _) = _
            rw [hrun]
            rfl
          · rcases hfault with hmem | ⟨l, r, hl, hr, hfail⟩
            · exact .leftRow rfl hmem
            · exact .predicate ⟨rfl, rfl⟩ ⟨hl, mem_ofRows.mpr hr⟩ hfail
    · obtain ⟨f, hrun, hfault⟩ := materialize_fails laws (fun t => htyped rights t hright) hg
        (MemoryWorkspace.new INNER_WORKSPACE_BUDGET) 0
      refine Or.inr ⟨f, ?_, ?_⟩
      · show (materialize rt schema rights _ 0 >>= _) = _
        rw [hrun]
        rfl
      · rcases hfault with hmem | ⟨msg, rfl⟩
        · exact .rightRow rfl hmem
        · exact .room rfl hg msg

end Blocks

/-! ### One in place of the other -/

theorem Joinable.no_fault {rt : Runtime} {on : Option Expr} {left right : Outcome RowStream}
    {L R : List Tuple} (h : Joinable rt on left right L R) {f : Fault} :
    ¬ JoinFault rt on left right f := by
  obtain ⟨rfl, rfl, heval⟩ := h
  intro hf
  cases hf with
  | left fails => cases fails
  | right fails => cases fails
  | leftRow input mem =>
    cases input
    exact error_notMem_ofRows mem
  | rightRow input mem =>
    cases input
    exact error_notMem_ofRows mem
  | predicate inputs mem fails =>
    cases inputs.1
    cases inputs.2
    rw [heval _ (mem_ofRows.mp mem.1) _ (mem_ofRows.mp mem.2)] at fails
    cases fails
  | room input mem =>
    cases input
    exact error_notMem_ofRows mem

theorem JoinFault.is_error {rt : Runtime} {on : Option Expr} {left right : Outcome RowStream}
    {f : Fault} (h : JoinFault rt on left right f)
    (hcalm : ∀ msg, ¬ JoinFault rt on left right (.panicked msg)) : ∃ e, f = .error e := by
  cases f with
  | error e => exact ⟨e, rfl⟩
  | panicked msg => exact absurd h (hcalm msg)

/-- **The block nested loop in place of the nested loop**: both give the same rows in some
    order, or both fail.  If nothing that they evaluate panics, one of them returns an
    error when the other does. -/
theorem block_nested_loop_join_replaces_nested_loop (rt : Runtime) (laws : rt.CodecLaws)
    (on : Option Expr) (joinType : JoinType) (leftWidth rightWidth : Nat) (schema : Schema)
    (left right : Outcome RowStream)
    (htyped : ∀ stream t, right = .ok stream → .ok t ∈ stream → Typed rt schema.fields t)
    (hwidth : ∀ stream t, right = .ok stream → .ok t ∈ stream → schema.encodedSize t ≤ maxTuple)
    (hroom : FitsInner rt schema right) :
    ((∃ rows rows', nestedLoopJoin rt on joinType leftWidth rightWidth left right
      = .ok (.ofRows rows)
          ∧ blockNestedLoopJoin rt on joinType leftWidth rightWidth schema left right
            = .ok (.ofRows rows')
          ∧ rows'.Perm rows)
        ∨ ∃ f f', nestedLoopJoin rt on joinType leftWidth rightWidth left right = .error f
          ∧ blockNestedLoopJoin rt on joinType leftWidth rightWidth schema left right = .error f')
      ∧ ((∀ msg, ¬ JoinFault rt on left right (.panicked msg)) →
        ((∃ e, blockNestedLoopJoin rt on joinType leftWidth rightWidth schema left right = .error
          (.error e))
          ↔ ∃ e, nestedLoopJoin rt on joinType leftWidth rightWidth left right = .error
            (.error e))) := by
  have hblock :=
    blockNestedLoopJoin_cases laws on joinType leftWidth rightWidth left htyped hwidth hroom
  rcases nestedLoopJoin_cases rt on joinType leftWidth rightWidth left right with
    ⟨L, R, hjoin, rows, hrun, hperm⟩ | ⟨f, hrun, hfault⟩
  · rcases hblock with ⟨L', R', hjoin', rows', hrun', hperm'⟩ | ⟨f', -, hfault'⟩
    · obtain rfl : L' = L := ofRows_inj (Except.ok.inj (hjoin'.left.symm.trans hjoin.left))
      obtain rfl : R' = R := ofRows_inj (Except.ok.inj (hjoin'.right.symm.trans hjoin.right))
      refine ⟨Or.inl ⟨rows, rows', hrun, hrun', hperm'.trans hperm.symm⟩, fun _ => ?_⟩
      rw [hrun, hrun']
      exact iff_of_false (by simp) (by simp)
    · exact absurd hfault' hjoin.no_fault
  · rcases hblock with ⟨L', R', hjoin', -⟩ | ⟨f', hrun', hfault'⟩
    · exact absurd hfault hjoin'.no_fault
    · refine ⟨Or.inr ⟨f, f', hrun, hrun'⟩, fun hcalm => ?_⟩
      obtain ⟨e, rfl⟩ := hfault.is_error hcalm
      obtain ⟨e', rfl⟩ := hfault'.is_error hcalm
      exact iff_of_true ⟨e', hrun'⟩ ⟨e, hrun⟩

/-- A full join of three rows, one of them with a partner on either side. -/
theorem block_nested_loop_join_replaces_nested_loop_full :
    ∃ rows rows', nestedLoopJoin default (some (.binary .eq (.column 0) (.column 1))) .full 1 1
          (.ok (.ofRows [[.int64 1], [.int64 2]])) (.ok (.ofRows [[.int64 1]])) = .ok (.ofRows rows)
      ∧ blockNestedLoopJoin default (some (.binary .eq (.column 0) (.column 1))) .full 1 1
        ⟨[⟨"k", .int64, true, none⟩]⟩
          (.ok (.ofRows [[.int64 1], [.int64 2]])) (.ok (.ofRows [[.int64 1]]))
          = .ok (.ofRows rows')
      ∧ rows'.Perm rows := by
  have hrows : ∀ stream t, Except.ok (ofRows [[.int64 1]])
    = (Except.ok stream : Outcome RowStream) →
      .ok t ∈ stream → t = [.int64 1] := by
    rintro stream t hstream ht
    cases hstream
    exact List.mem_singleton.mp (mem_ofRows.mp ht)
  have hboth := block_nested_loop_join_replaces_nested_loop default codecLaws_default
    (some (.binary .eq (.column 0) (.column 1))) .full 1 1 ⟨[⟨"k", .int64, true, none⟩]⟩
    (.ok (.ofRows [[.int64 1], [.int64 2]])) (.ok (.ofRows [[.int64 1]]))
    (fun stream t hstream ht => hrows stream t hstream ht ▸ .cons ⟨rfl, trivial⟩ .nil)
    (fun stream t hstream ht => hrows stream t hstream ht ▸ by decide) ?_
  · refine hboth.1.resolve_right ?_
    rintro ⟨f, f', hnested, -⟩
    cases hnested
  · rintro R bss hR hbss
    obtain rfl : R = [[.int64 1]] := (ofRows_inj (Except.ok.inj hR)).symm
    obtain ⟨bytes, rest, henc, hrest, rfl⟩ := List.forall₂_cons_left_iff.mp hbss
    obtain rfl := List.forall₂_nil_left_iff.mp hrest
    have hpages : (packPages [bytes]).length = 1 := rfl
    rw [hpages]
    decide

def divideOrRepeat : Expr :=
  .case [(.binary .eq (.column 0) (.literal (.int64 0)),
      .binary .eq (.binary .div (.literal (.int64 1)) (.column 1)) (.literal (.int64 0)))]
    (some (.binary .eq (.call .repeat [.literal (.text "ab"), .column 1]) (.literal (.text ""))))

/-- **The order of the pairs decides what is met first.**  On the rows `0`, `1` and
    `9223372036854775807`, `0` the nested loop divides by zero on its second pair and returns
    the error; the block nested loop takes the pair of the second outer row before and
    panics. -/
theorem block_nested_loop_join_panics_first :
    (∃ e, nestedLoopJoin default (some divideOrRepeat) .inner 1 1
      (.ok (.ofRows [[.int64 0], [.int64 1]]))
        (.ok (.ofRows [[.int64 Int64.maxValue], [.int64 0]])) = .error (.error e))
      ∧ blockNestedLoopJoin default (some divideOrRepeat) .inner 1 1 ⟨[⟨"k", .int64, true, none⟩]⟩
        (.ok (.ofRows [[.int64 0], [.int64 1]]))
        (.ok (.ofRows [[.int64 Int64.maxValue], [.int64 0]]))
        = panicked "capacity overflow" := by
  refine ⟨⟨_, rfl⟩, ?_⟩
  have htyped : ∀ t ∈ [[Value.int64 Int64.maxValue], [.int64 0]],
      Typed default [⟨"k", .int64, true, none⟩] t := by
    intro t ht
    fin_cases ht <;> exact .cons ⟨rfl, trivial⟩ .nil
  have hbss : Encoded default ⟨[⟨"k", .int64, true, none⟩]⟩ [[.int64 Int64.maxValue],
    [.int64 0]] _ :=
    .cons rfl (.cons rfl .nil)
  obtain ⟨ws, hmat, htuples⟩ :=
    @materialize_eq default ⟨[⟨"k", .int64, true, none⟩]⟩ _ codecLaws_default _ []
    hbss htyped (by decide) (MemoryWorkspace.new INNER_WORKSPACE_BUDGET) .nil (by decide) 0
  have hinner := decodes_of_encoded codecLaws_default hbss htyped (by decide)
  rw [← List.nil_append [_, _], ← htuples] at hinner
  obtain ⟨bytes, rest, hdec, -, hws⟩ := List.forall₂_cons_right_iff.mp hinner
  have hfill : fillBlock OUTER_BLOCK_TUPLES (.ofRows [[.int64 0], [.int64 1]])
      = .ok ([[.int64 0], [.int64 1]], []) := rfl
  -- the first inner row meets both outer rows before the second one is read
  have hflags : matchRows default (some divideOrRepeat) (fun l => concat l [.int64 Int64.maxValue])
      [[.int64 0], [.int64 1]] = panicked "capacity overflow" := rfl
  have hscan : ∀ flags, scanInner default (some divideOrRepeat) ⟨[⟨"k", .int64, true, none⟩]⟩
      [[.int64 0], [.int64 1]] ws.tuples flags = panicked "capacity overflow" := by
    intro flags
    rw [hws, scanInner, hdec]
    simp only [bind, Except.bind, hflags]
    rfl
  have hblocks : ∀ fuel flags, joinBlocks default (some divideOrRepeat) .inner 1
    ⟨[⟨"k", .int64, true, none⟩]⟩
      ws.tuples (fuel + 1) (.ofRows [[.int64 0], [.int64 1]]) flags = panicked
        "capacity overflow" := by
    intro fuel flags
    rw [joinBlocks, hfill]
    simp only [bind, Except.bind, hscan]
    rfl
  rw [blockNestedLoopJoin]
  simp only [bind, Except.bind, hmat, hblocks]
  rfl

end StrataDb.Sql
