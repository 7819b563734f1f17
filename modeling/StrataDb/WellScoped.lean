import StrataDb.BindInsert
import StrataDb.BindQuery
import StrataDb.BindSafety
import StrataDb.MergeJoin

/-!
# Bound `SELECT`s are well scoped at run time

The binder, lowering and the executor each compute the widths of rows. They agree: every row of a
bound plan is typed by the scope's schema (`Yields`), through padding, sorting and spilling, and
whatever fails, it is not a position or a width (`Fault.OutOfScope`).
-/

namespace StrataDb.Sql

open ByteCodec
open Filesystem (MemoryWorkspace FsError maxTuple)
open Runs (bind_eq_ok)
open List (mem_append mem_cons mem_cons_of_mem mem_cons_self mem_map mem_singleton rel_append)
open LogicalNode (lower)

/-! ### Faults of scoping -/

/-- The failures of a plan whose parties disagree about the rows: a column reference or a
    join key past the end of the row, a row of another width than the schema it is encoded
    with, and spilled bytes that are no row of the schema. -/
def Fault.OutOfScope : Fault → Prop
  | .error (.internal msg) => "column index ".toList <+: msg.toList
  | .error (.codec (.decode _)) => True
  | .error _ => False
  | .panicked msg => "index out of bounds: ".toList <+: msg.toList
    ∨ "tuple length must match schema field count ".toList <+: msg.toList

/-- A value with `P`, or a failure that is none of scoping. -/
def Clean {α : Type} (x : Outcome α) (P : α → Prop) : Prop :=
  match x with
  | .ok a => P a
  | .error f => ¬ f.OutOfScope

section Clean

variable {α β : Type} {x : Outcome α} {f : α → Outcome β} {P P' : α → Prop} {Q : β → Prop}

theorem Clean.bind (hx : Clean x P) (hf : ∀ a, P a → Clean (f a) Q) : Clean (x >>= f) Q := by
  match x, hx with
  | .ok a, ha => exact hf a ha
  | .error _, h => exact h

theorem clean_typeError (msg : String) : Clean (typeError msg) P := id

theorem Clean.of_keeps {p : Promise} (hp : p.inScope) (h : Keeps p x) : Clean x fun _ => True := by
  match x, h with
  | .ok _, _ => trivial
  | .error (.error e), h =>
    intro hout
    have hin : e.InScope p.inScope := h
    cases e with
    | internal msg => exact hin hp hout
    | codec e =>
      cases e with
      | decode e => exact hin hp
      | _ => exact hout
    | _ => exact hout
  | .error (.panicked msg), h =>
    have hnone : ∀ s ∈ evalPanics, ¬ (Fault.panicked s).OutOfScope := by
      unfold Fault.OutOfScope
      decide
    exact hnone msg h.2

end Clean

section Expressions

variable {rt : Runtime} {arity : Nat} {tuple : Tuple}

theorem clean_eval {e : Expr} (hb : e.Bound arity) (hwide : arity ≤ tuple.length) :
    Clean (e.eval rt tuple) fun _ => True :=
  have hkeeps : KeepsWhen ⟨False, True⟩ (e.eval rt tuple) (e.Safe rt tuple) :=
    keepsWhen_eval (fun _ => hwide) e hb
  Clean.of_keeps trivial (hkeeps.mpr False.elim)

theorem clean_evalRow {es : List Expr} (hb : ∀ e ∈ es, e.Bound arity)
    (hwide : arity ≤ tuple.length) : Clean (evalRow rt tuple es) fun _ => True := by
  induction es with
  | nil => trivial
  | cons e es ih =>
    refine (clean_eval (hb e mem_cons_self) hwide).bind fun v _ => ?_
    exact (ih fun e he => hb e (mem_cons_of_mem _ he)).bind fun vs _ => trivial

def OnBound (arity : Nat) (on : Option Expr) : Prop :=
  ∀ e, on = some e → e.Bound arity

theorem clean_joinMatches {on : Option Expr} (hb : OnBound arity on)
    (hwide : arity ≤ tuple.length) :
    Clean (joinMatches rt on tuple) fun _ => True := by
  cases on with
  | none => trivial
  | some e =>
    refine (clean_eval (hb e rfl) hwide).bind fun v _ => ?_
    split <;> trivial

theorem clean_sortKeyBytes {keys : List SortKey} (hb : ∀ key ∈ keys, key.expr.Bound arity)
    (hwide : arity ≤ tuple.length) : Clean (sortKeyBytes rt tuple keys) fun _ => True := by
  induction keys with
  | nil => trivial
  | cons key keys ih =>
    have hpart : ∀ v, Clean (key.part v) fun _ => True := by
      intro v
      unfold SortKey.part
      split
      · trivial
      · split
        · trivial
        · exact clean_typeError _
    refine (clean_eval (hb key mem_cons_self) hwide).bind fun v _ => ?_
    refine (hpart v).bind fun part _ => ?_
    exact (ih fun key hkey => hb key (mem_cons_of_mem _ hkey)).bind fun parts _ => trivial

end Expressions

/-! ### Streams of typed rows -/

/-- Every item is a row of the fields, or a failure that is none of scoping. -/
def Streams (rt : Runtime) (fields : List Field) (stream : RowStream) : Prop :=
  ∀ item ∈ stream, Clean item (Typed rt fields)

/-- The outcome of building a plan whose rows have these fields. -/
def Yields (rt : Runtime) (fields : List Field) (x : Outcome RowStream) : Prop :=
  Clean x (Streams rt fields)

section Streams

variable {rt : Runtime} {fields : List Field} {stream : RowStream}

theorem streams_ofRows {rows : List Tuple} (h : ∀ t ∈ rows, Typed rt fields t) :
    Streams rt fields (.ofRows rows) := by
  intro item hitem
  obtain ⟨t, ht, rfl⟩ := mem_map.mp hitem
  exact h t ht

theorem Streams.typed (h : Streams rt fields stream) {t : Tuple} (ht : .ok t ∈ stream) :
    Typed rt fields t :=
  h _ ht

theorem Streams.filter (h : Streams rt fields stream) {predicate : Expr}
    (hb : predicate.Bound fields.length) : Streams rt fields (filter rt predicate stream) := by
  intro item hitem
  rcases mem_filter hitem with hitem | ⟨tuple, f, htuple, heval, rfl⟩
  · exact h item hitem
  · have hclean := @clean_eval rt _ _ _ hb (h.typed htuple).length_eq.le
    rw [heval] at hclean
    exact hclean

theorem Streams.collect (h : Streams rt fields stream) :
    Clean (RowStream.collect stream) fun rows => ∀ t ∈ rows, Typed rt fields t := by
  cases hcollect : RowStream.collect stream with
  | ok rows =>
    rw [RowStream.collect_eq_ok] at hcollect
    intro t ht
    exact h.typed (hcollect ▸ List.mem_map_of_mem ht)
  | error f => exact h _ (RowStream.mem_of_collect_error hcollect)

/-- **A sort** gives rows of the same fields, and fails only as its input, a key, or for
    want of room. -/
theorem Streams.sort {ctx : QueryContext} (hscratch : Scratch ctx) {schema : Schema}
    {keys : List SortKey} (h : Streams ctx.runtime schema.fields stream)
    (hb : ∀ key ∈ keys, key.expr.Bound schema.fields.length) :
    Yields ctx.runtime schema.fields (sort ctx keys schema stream) := by
  rcases @sort_cases ctx keys schema stream hscratch fun t ht => h.typed ht with
    ⟨rows, hrows, hsort⟩ | ⟨f, hsort, hfault⟩
  · rw [hsort]
    apply streams_ofRows
    intro t ht
    obtain ⟨p, hp, rfl⟩ := mem_map.mp ht
    obtain ⟨item, hitem, rfl, -⟩ :=
      exists_of_forall₂ hrows ((StableSort.stableSort_perm _ _).mem_iff.mp hp)
    exact h.typed hitem
  · rw [hsort]
    cases hfault with
    | input mem => exact h _ mem
    | @key t mem fails =>
      have hclean := @clean_sortKeyBytes ctx.runtime _ _ _ hb (h.typed mem).length_eq.le
      rw [fails] at hclean
      exact hclean
    | @width t mem wide =>
      obtain ⟨bytes, -, -, rfl⟩ := wide
      simp [Yields, Clean, Fault.OutOfScope, spillError]

end Streams

/-! ### Joined rows -/

section Joined

variable {rt : Runtime} {leftFields rightFields : List Field} {l r : Tuple}

theorem typed_concat (hl : Typed rt leftFields l) (hr : Typed rt rightFields r) :
    Typed rt (leftFields ++ rightFields) (concat l r) := rel_append hl hr

theorem typed_nulls (rt : Runtime) (fields : List Field) :
    Typed rt fields (List.replicate fields.length .null) := by
  induction fields with
  | nil => exact .nil
  | cons field fields ih => exact .cons ⟨rfl, trivial⟩ ih

theorem typed_padRight (hl : Typed rt leftFields l) :
    Typed rt (leftFields ++ rightFields) (padRight l rightFields.length) :=
  rel_append hl (typed_nulls rt rightFields)

theorem typed_padLeft (hr : Typed rt rightFields r) :
    Typed rt (leftFields ++ rightFields) (padLeft leftFields.length r) :=
  rel_append (typed_nulls rt leftFields) hr

theorem mem_of_mem_pick {α : Type} {flags : List Bool} {xs : List α} {x : α}
    (h : x ∈ pick flags xs) :
    x ∈ xs := by
  induction flags generalizing xs with
  | nil => cases h
  | cons flag flags ih =>
    cases xs with
    | nil => cases h
    | cons y ys =>
      rw [pick] at h
      split at h
      · exact (mem_cons.mp h).elim (fun hx => hx ▸ mem_cons_self)
          fun hx => mem_cons_of_mem _ (ih hx)
      · exact mem_cons_of_mem _ (ih h)

end Joined

/-! ### The block nested loop -/

section BlockNestedLoop

variable {rt : Runtime} {on : Option Expr} {leftFields : List Field} {schema : Schema}

/-- Spilled bytes that read back as a row of the schema. -/
def Readable (rt : Runtime) (schema : Schema) (bytes : Bytes) : Prop :=
  ∃ t, decodeRow rt schema bytes = .ok t ∧ Typed rt schema.fields t

theorem readable_of_encode (laws : rt.CodecLaws) {t : Tuple} (ht : Typed rt schema.fields t)
    {bytes : Bytes} (henc : schema.encode rt t = .ok bytes) (hfits : bytes.length ≤ maxTuple) :
    Readable rt schema bytes := by
  have hmax : maxTuple < 2 ^ 32 := by decide
  refine ⟨t, ?_, ht⟩
  rw [decodeRow, Schema.decode_encode_of_length laws ht henc (by omega)]
  rfl

theorem clean_materialize (laws : rt.CodecLaws) {stream : RowStream}
    (h : Streams rt schema.fields stream) {ws : MemoryWorkspace} {ts : List Bytes}
    (hws : ws.Stores ts) (hts : ∀ b ∈ ts, Readable rt schema b) (count : Nat) :
    Clean (materialize rt schema stream ws count) fun out => ∀ b ∈ out.1.tuples,
      Readable rt schema b := by
  induction stream generalizing ws ts count with
  | nil =>
    intro b hb
    rw [hws.tuples] at hb
    exact hts b hb
  | cons item rest ih =>
    refine (h item mem_cons_self).bind fun t ht => ?_
    obtain ⟨bytes, henc, -⟩ := Schema.encode_ok laws ht.fitting
    rw [henc]
    have happend : MemoryWorkspace.Appended ws ts bytes (ws.append bytes) := hws.append
    simp only [bind, Except.bind]
    generalize ws.append bytes = result at happend
    cases happend with
    | ok stores fits =>
      refine ih (fun item hitem => h item (mem_cons_of_mem _ hitem)) stores ?_ _
      intro b hb
      rcases mem_append.mp hb with hb | hb
      · exact hts b hb
      · rw [mem_singleton.mp hb]
        exact readable_of_encode laws ht henc fits
    | full => simp [Clean, Fault.OutOfScope, internalError]
    | tooLarge => simp [Clean, Fault.OutOfScope, internalError]

theorem clean_matchRows {arity : Nat} (hon : OnBound arity on) {combine : Tuple → Tuple}
    {rows : List Tuple} (h : ∀ row ∈ rows, arity ≤ (combine row).length) :
    Clean (matchRows rt on combine rows) fun _ => True := by
  induction rows with
  | nil => trivial
  | cons row rows ih =>
    refine (clean_joinMatches hon (h row mem_cons_self)).bind fun flag _ => ?_
    exact (ih fun row hrow => h row (mem_cons_of_mem _ hrow)).bind fun flags _ => trivial

variable (hon : OnBound (leftFields ++ schema.fields).length on)

include hon

variable {inner : List Bytes}

theorem clean_scanInner {block : List Tuple} (hblock : ∀ l ∈ block, Typed rt leftFields l)
    (hinner : ∀ b ∈ inner, Readable rt schema b) (blockMatched : List Bool) :
    Clean (scanInner rt on schema block inner blockMatched)
      fun out => ∀ t ∈ out.1, Typed rt (leftFields ++ schema.fields) t := by
  induction inner generalizing blockMatched with
  | nil => exact fun _ ht => absurd ht List.not_mem_nil
  | cons bytes inner ih =>
    obtain ⟨r, hdecode, hr⟩ := hinner bytes mem_cons_self
    have hjoined : ∀ l ∈ block, Typed rt (leftFields ++ schema.fields) (concat l r) :=
      fun l hl => typed_concat (hblock l hl) hr
    rw [scanInner, hdecode]
    refine (clean_matchRows hon fun l hl => (hjoined l hl).length_eq.le).bind fun flags _ => ?_
    refine (ih (fun b hb => hinner b (mem_cons_of_mem _ hb)) _).bind fun rest hrest => ?_
    intro t ht
    rcases mem_append.mp ht with ht | ht
    · obtain ⟨l, hl, rfl⟩ := mem_map.mp ht
      exact hjoined l (mem_of_mem_pick hl)
    · exact hrest t ht

omit hon in
theorem clean_fillBlock (n : Nat) {outer : RowStream} (h : Streams rt leftFields outer) :
    Clean (fillBlock n outer) fun out => (∀ l ∈ out.1, Typed rt leftFields l)
      ∧ Streams rt leftFields out.2 := by
  induction n generalizing outer with
  | zero => exact ⟨nofun, h⟩
  | succ n ih =>
    cases outer with
    | nil => exact ⟨nofun, nofun⟩
    | cons item rest =>
      refine (h item mem_cons_self).bind fun t ht => ?_
      refine (ih fun item hitem => h item (mem_cons_of_mem _ hitem)).bind fun ⟨block, outer⟩
        hrest => ?_
      refine ⟨fun l hl => ?_, hrest.2⟩
      exact (mem_cons.mp hl).elim (fun heq => heq ▸ ht) (hrest.1 l)

theorem clean_joinBlocks (joinType : JoinType) (hinner : ∀ b ∈ inner, Readable rt schema b)
    (fuel : Nat) {outer : RowStream} (h : Streams rt leftFields outer) (innerMatched : List Bool) :
    Clean (joinBlocks rt on joinType schema.fields.length schema inner fuel outer innerMatched)
      fun out => ∀ t ∈ out.1, Typed rt (leftFields ++ schema.fields) t := by
  induction fuel generalizing outer innerMatched with
  | zero => exact nofun
  | succ fuel ih =>
    refine (clean_fillBlock OUTER_BLOCK_TUPLES h).bind fun ⟨block, outer⟩ hfill => ?_
    show Clean (if block.isEmpty then pure ([], innerMatched) else _) _
    split
    · exact nofun
    refine (clean_scanInner hon hfill.1 hinner _).bind fun ⟨pairs, blockMatched, matched⟩
      hpairs => ?_
    refine (ih hfill.2 _).bind fun ⟨out, _⟩ hout => ?_
    intro t ht
    rcases mem_append.mp ht with ht | ht
    · rcases mem_append.mp ht with ht | ht
      · exact hpairs t ht
      · split at ht
        · obtain ⟨l, hl, rfl⟩ := mem_map.mp ht
          exact typed_padRight (hfill.1 l (mem_of_mem_pick hl))
        · cases ht
    · exact hout t ht

omit hon in
theorem clean_padInner (hinner : ∀ b ∈ inner, Readable rt schema b) :
    Clean (padInner rt leftFields.length schema inner)
      fun rows => ∀ t ∈ rows, Typed rt (leftFields ++ schema.fields) t := by
  induction inner with
  | nil => exact nofun
  | cons bytes inner ih =>
    obtain ⟨r, hdecode, hr⟩ := hinner bytes mem_cons_self
    rw [padInner, hdecode]
    refine (ih fun b hb => hinner b (mem_cons_of_mem _ hb)).bind fun rows hrows => ?_
    intro t ht
    exact (mem_cons.mp ht).elim (fun heq => heq ▸ typed_padLeft hr) (hrows t)

theorem yields_blockNestedLoopJoin (laws : rt.CodecLaws) (joinType : JoinType)
    {left right : Outcome RowStream} (hleft : Yields rt leftFields left)
    (hright : Yields rt schema.fields right) :
    Yields rt (leftFields ++ schema.fields)
      (blockNestedLoopJoin rt on joinType leftFields.length schema.fields.length schema left
        right) := by
  refine Clean.bind hright fun rightStream hrights => ?_
  refine (clean_materialize laws hrights (MemoryWorkspace.stores_new _) nofun 0).bind
    fun ⟨inner, innerCount⟩ hinner => ?_
  refine Clean.bind hleft fun outer houter => ?_
  refine (clean_joinBlocks hon joinType hinner _ houter _).bind fun ⟨out, innerMatched⟩ hout => ?_
  show Clean (if joinType.keepsRight then _ else _) _
  split
  · refine (clean_padInner fun b hb => hinner b (mem_of_mem_pick hb)).bind fun unmatched
      hunmatched => ?_
    exact streams_ofRows fun t ht => (mem_append.mp ht).elim (hout t) (hunmatched t)
  · exact streams_ofRows hout

end BlockNestedLoop

/-! ### The merge -/

section SortMerge

variable {rt : Runtime} {leftFields rightFields : List Field} {leftKey rightKey : Nat}

theorem clean_cmpValues (u v : Value) : Clean (cmpValues rt u v) fun _ => True :=
  Clean.of_keeps (p := ⟨False, True⟩) trivial (keeps_cmpValues u v)

theorem clean_keyAt {fields : List Field} {key : Nat} {row : Tuple} (hrow : Typed rt fields row)
    (hkey : key < fields.length) : Clean (keyAt row key) fun _ => True := by
  rw [keyAt, List.getElem?_eq_getElem (hrow.length_eq ▸ hkey)]
  trivial

theorem clean_takeGroup {fields : List Field} {key : Nat} {rows : List Tuple}
    (h : ∀ t ∈ rows, Typed rt fields t) (hkey : key < fields.length) (k : Value) :
    Clean (takeGroup rt key k rows) fun out => ∀ t, t ∈ out.1 ∨ t ∈ out.2 → Typed rt fields t := by
  induction rows with
  | nil => exact fun t ht => nomatch ht
  | cons row rows ih =>
    refine (clean_keyAt (h row mem_cons_self) hkey).bind fun v _ => ?_
    refine (clean_cmpValues v k).bind fun ord _ => ?_
    split
    · refine (ih fun t ht => h t (mem_cons_of_mem _ ht)).bind fun ⟨group, rest⟩ hgroup => ?_
      rintro t (ht | ht)
      · exact (mem_cons.mp ht).elim (fun heq => heq ▸ h row mem_cons_self)
          fun ht => hgroup t (.inl ht)
      · exact hgroup t (.inr ht)
    · exact fun t ht => h t (ht.resolve_left nofun)

theorem clean_mergeRows (hleft : leftKey < leftFields.length)
    (hright : rightKey < rightFields.length) (fuel : Nat) {L R : List Tuple}
    (hL : ∀ t ∈ L, Typed rt leftFields t) (hR : ∀ t ∈ R, Typed rt rightFields t) :
    Clean (mergeRows rt leftKey rightKey fuel L R)
      fun rows => ∀ t ∈ rows, Typed rt (leftFields ++ rightFields) t := by
  induction fuel generalizing L R with
  | zero =>
    cases L with
    | nil => exact fun t ht => by cases ht
    | cons l L =>
      cases R with
      | nil => exact fun t ht => by cases ht
      | cons r R => simp [mergeRows, panicked, Clean, Fault.OutOfScope]
  | succ fuel ih =>
    cases L with
    | nil => exact fun t ht => by cases ht
    | cons l L =>
      cases R with
      | nil => exact fun t ht => by cases ht
      | cons r R =>
        have hL' : ∀ t ∈ L, Typed rt leftFields t := fun t ht => hL t (mem_cons_of_mem _ ht)
        have hR' : ∀ t ∈ R, Typed rt rightFields t := fun t ht => hR t (mem_cons_of_mem _ ht)
        refine (clean_keyAt (hL l mem_cons_self) hleft).bind fun lk _ => ?_
        refine (clean_keyAt (hR r mem_cons_self) hright).bind fun rk _ => ?_
        -- rows whose key is `NULL` are skipped
        split
        · exact ih hL' hR
        split
        · exact ih hL hR'
        refine (clean_cmpValues lk rk).bind fun ord _ => ?_
        cases ord with
        | lt => exact ih hL' hR
        | gt => exact ih hL hR'
        | eq =>
          refine (clean_takeGroup hL hleft lk).bind fun lg hlg => ?_
          refine (clean_takeGroup hR hright rk).bind fun rg hrg => ?_
          refine (ih (fun t ht => hlg t (.inr ht)) fun t ht => hrg t (.inr ht)).bind fun out
            hout => ?_
          intro t ht
          rcases mem_append.mp ht with ht | ht
          · obtain ⟨l', hl', ht⟩ := List.mem_flatMap.mp ht
            obtain ⟨r', hr', rfl⟩ := mem_map.mp ht
            exact typed_concat (hlg l' (.inl hl')) (hrg r' (.inl hr'))
          · exact hout t ht

theorem yields_sortMergeJoin {on : Option Expr} {node : PlanNode}
    (hkeys : equiKeys on node = .ok (leftKey, rightKey)) (hleft : leftKey < leftFields.length)
    (hright : rightKey < rightFields.length) {left right : Outcome RowStream}
    (hL : Yields rt leftFields left) (hR : Yields rt rightFields right) :
    Yields rt (leftFields ++ rightFields) (sortMergeJoin rt on node left right) := by
  rw [sortMergeJoin, hkeys]
  refine Clean.bind (P := (· = (leftKey, rightKey))) rfl fun _ hpair => ?_
  subst hpair
  refine Clean.bind hL fun leftStream hlefts => hlefts.collect.bind fun leftRows hleftRows => ?_
  refine Clean.bind hR fun rightStream hrights => hrights.collect.bind fun rightRows
    hrightRows => ?_
  exact (clean_mergeRows hleft hright _ hleftRows hrightRows).bind fun out hout =>
    streams_ofRows hout

end SortMerge

/-! ### Plans -/

/-- At every sort-merge join the executor finds the keys that lowering found, and the
    inputs are sorted on them. -/
def PlanNode.JoinKeysAgree : PlanNode → Prop
  | .join left right on _ leftSchema rightSchema strategy =>
    left.JoinKeysAgree ∧ right.JoinKeysAgree ∧ (strategy = .sortMerge → ∃ leftKey rightKey l r,
      equiJoinKeys on leftSchema.fields.length = some (leftKey, rightKey)
        ∧ equiKeys on left = .ok (leftKey, rightKey)
        ∧ left = sortOn l leftKey leftSchema ∧ right = sortOn r rightKey rightSchema)
  | .filter input _ | .project input _ | .limit input _ | .offset input _ | .sort input _ _
  | .insert _ input | .delete _ input => input.JoinKeysAgree
  | .seqScan _ | .systemScan _ | .values _ | .createTable _ _ _ _ _ | .createDataset _ _ _ => True

/-- A plan whose rows have these fields, for all who ask. -/
structure Planned (ctx : QueryContext) (node : LogicalNode) (fields : List Field) : Prop where
  arity : outputArity node.lower = fields.length
  yields : Yields ctx.runtime fields (build ctx node.lower)
  keys : node.lower.JoinKeysAgree

section Plans

variable {ctx : QueryContext} {node left right : LogicalNode} {fields : List Field}

theorem planned_values : Planned ctx (.values [[]]) [] where
  arity := rfl
  yields := streams_ofRows fun t ht => by
    rw [mem_singleton.mp ht]
    exact .nil
  keys := trivial

theorem Planned.filter (h : Planned ctx node fields) {predicate : Expr}
    (hb : predicate.Bound fields.length) : Planned ctx (.filter node predicate) fields where
  arity := h.arity
  yields := Clean.bind h.yields fun _ hstream => hstream.filter hb
  keys := h.keys

theorem Planned.sort (hscratch : Scratch ctx) {schema : Schema} (h : Planned ctx node schema.fields)
    {keys : List SortKey} (hb : ∀ key ∈ keys, key.expr.Bound schema.fields.length) :
    Planned ctx (.sort node keys schema) schema.fields where
  arity := h.arity
  yields := Clean.bind h.yields fun _ hstream => hstream.sort hscratch hb
  keys := h.keys

/-- A join is lowered to sorts and a merge, or to a block nested loop. -/
theorem lowerJoin_cases (left right : PlanNode) (on : Option Expr) (joinType : JoinType)
    (leftSchema rightSchema : Schema) :
    (∃ leftKey rightKey, equiJoinKeys on leftSchema.fields.length = some (leftKey, rightKey)
        ∧ lowerJoin left right on joinType leftSchema rightSchema
          = .join (sortOn left leftKey leftSchema) (sortOn right rightKey rightSchema) on joinType
            leftSchema rightSchema .sortMerge)
      ∨ lowerJoin left right on joinType leftSchema rightSchema
        = .join left right on joinType leftSchema rightSchema .blockNestedLoop := by
  unfold lowerJoin
  split
  · exact Or.inl ⟨_, _, by assumption, rfl⟩
  · exact Or.inr rfl

theorem rightKey_lt {on : Option Expr} {leftKey rightKey leftArity rightArity : Nat}
    (hkeys : equiJoinKeys on leftArity = some (leftKey, rightKey))
    (hon : OnBound (leftArity + rightArity) on) : leftKey < leftArity ∧ rightKey < rightArity := by
  obtain ⟨a, b, rfl, hsplit⟩ := equiJoinKeys_cases hkeys
  obtain ⟨hleft, hab⟩ := splitKeys_cases hsplit
  obtain ⟨-, ha, hb⟩ := hon _ rfl
  have ha : a < leftArity + rightArity := ha
  have hb : b < leftArity + rightArity := hb
  omega

theorem Planned.join (hscratch : Scratch ctx) {leftSchema rightSchema : Schema}
    (hleft : Planned ctx left leftSchema.fields) (hright : Planned ctx right rightSchema.fields)
    {on : Option Expr} (hon : OnBound (leftSchema.fields ++ rightSchema.fields).length on)
    (joinType : JoinType) :
    Planned ctx (.join left right on joinType leftSchema rightSchema)
      (leftSchema.fields ++ rightSchema.fields) := by
  have harity : outputArity left.lower + outputArity right.lower
      = (leftSchema.fields ++ rightSchema.fields).length := by
    rw [hleft.arity, hright.arity, List.length_append]
  -- two sorts and a merge where there are equi-join keys, the block nested loop elsewhere
  rcases lowerJoin_cases left.lower right.lower on joinType leftSchema rightSchema with
    ⟨leftKey, rightKey, hkeys, hlower⟩ | hlower
  · obtain ⟨hleftKey, hrightKey⟩ := rightKey_lt hkeys (List.length_append ▸ hon)
    have hsortKey : ∀ {arity key : Nat}, key < arity →
        ∀ k ∈ [joinSortKey key], k.expr.Bound arity := by
      intro arity key hkey k hk
      rw [mem_singleton.mp hk]
      exact hkey
    have hsortl := hleft.sort hscratch (hsortKey hleftKey)
    have hsortr := hright.sort hscratch (hsortKey hrightKey)
    have hequi : equiKeys on (sortOn left.lower leftKey leftSchema) = .ok (leftKey, rightKey) :=
      equiKeys_of_equiJoinKeys hkeys hsortl.arity
    refine ⟨?_, ?_, ?_⟩
    · rw [lower, hlower]
      exact harity
    · rw [lower, hlower]
      exact yields_sortMergeJoin hequi hleftKey hrightKey hsortl.yields hsortr.yields
    · rw [lower, hlower]
      exact ⟨hleft.keys, hright.keys, fun _ => ⟨_, _, _, _, hkeys, hequi, rfl, rfl⟩⟩
  · refine ⟨?_, ?_, ?_⟩
    · rw [lower, hlower]
      exact harity
    · rw [lower, hlower, build, buildJoin, hleft.arity, hright.arity]
      exact yields_blockNestedLoopJoin hon hscratch.codec joinType hleft.yields hright.yields
    · rw [lower, hlower]
      refine ⟨hleft.keys, hright.keys, fun hmerge => ?_⟩
      cases hmerge

/-- A plan that fails only in ways that are none of scoping. -/
structure Executes (ctx : QueryContext) (node : LogicalNode) : Prop where
  faults : Clean (build ctx node.lower) fun stream => ∀ f, .error f ∈ stream → ¬ f.OutOfScope
  keys : node.lower.JoinKeysAgree

theorem Planned.project (h : Planned ctx node fields) {expressions : List Expr}
    (hb : ∀ e ∈ expressions, e.Bound fields.length) : Executes ctx (.project node expressions) where
  faults := Clean.bind h.yields fun stream hstream f hf => by
    obtain ⟨item, hitem, heq⟩ := mem_map.mp hf
    have hclean : Clean (item >>= fun t => evalRow ctx.runtime t expressions) fun _ => True :=
      (hstream item hitem).bind fun t ht => clean_evalRow hb ht.length_eq.le
    rw [heq] at hclean
    exact hclean
  keys := h.keys

theorem Executes.limit (h : Executes ctx node) (count : Nat) :
    Executes ctx (.limit node count) where
  faults := Clean.bind h.faults fun _ hstream f hf => hstream f (List.mem_of_mem_take hf)
  keys := h.keys

theorem Executes.offset (h : Executes ctx node) (count : Nat) :
    Executes ctx (.offset node count) where
  faults := Clean.bind h.faults fun _ hstream f hf => hstream f (mem_offset hf)
  keys := h.keys

theorem Executes.drain (h : Executes ctx node) : Clean (drain ctx node.lower) fun _ => True := by
  refine Clean.bind h.faults fun stream hstream => ?_
  cases hcollect : RowStream.collect stream with
  | ok rows => trivial
  | error f => exact hstream f (RowStream.mem_of_collect_error hcollect)

end Plans

/-! ### What the binder plans -/

/-- The stored rows conform to the schemas of the tables they are read for, their documents
    are read from their texts, and what else can fail is the storage or the catalog. -/
structure ConformingData (ctx : QueryContext) (resolveTable : String → String → String →
    Outcome Table) :
    Prop where
  scan : ∀ project dataset name table, resolveTable project dataset name = .ok table →
    ∀ item ∈ ctx.scan table,
      (∃ t, item = .ok t ∧ Restorable ctx.runtime table.schema t)
        ∨ ∃ e, item = .error (.error (.storage e))
  catalog : ctx.catalog.Fails fun f => ∃ e, f = .error (.catalog e)

section Binding

variable {ctx : QueryContext} {resolveTable : String → String → String → Outcome Table}
  {node : LogicalNode} {scope : Scope}

theorem schema_forRelation (relation : Option String) (schema : Schema) :
    (Scope.forRelation relation schema).schema.fields = schema.fields := by
  simp [Scope.schema, Scope.forRelation, Function.comp_def]

theorem schema_concat (a b : Scope) :
    (a.concat b).schema.fields = a.schema.fields ++ b.schema.fields :=
  List.map_append

theorem bound_in_scope {rt : Runtime} {ast : AstExpr} {e : Expr}
    (h : ast.bind rt (some scope) = .ok e) : e.Bound scope.schema.fields.length := by
  have hlen : scope.schema.fields.length = scopeLen (some scope) := List.length_map ..
  rw [hlen]
  exact bound_of_bind h

variable (hdata : ConformingData ctx resolveTable)

include hdata

theorem planned_scan {project dataset name : String} {table : Table}
    (h : resolveTable project dataset name = .ok table) :
    Planned ctx (.scan table) table.schema.fields where
  arity := rfl
  yields := fun item hitem => by
    rcases hdata.scan _ _ _ _ h item hitem with ⟨t, rfl, ht⟩ | ⟨e, rfl⟩
    · exact ht.typed
    · exact nofun
  keys := trivial

theorem planned_systemScan (relation : SystemRelation) :
    Planned ctx (.systemScan relation) relation.schema.fields where
  arity := rfl
  yields := by
    have hrows := typed_rows ctx.runtime hdata.catalog relation
    show Clean (relation.rows ctx.catalog >>= fun rows => pure (RowStream.ofRows rows)) _
    cases h : relation.rows ctx.catalog with
    | ok rows =>
      rw [h] at hrows
      exact streams_ofRows hrows
    | error f =>
      rw [h] at hrows
      obtain ⟨e, rfl⟩ := hrows
      exact nofun
  keys := trivial

theorem planned_bindTableFactor {factor : TableFactor}
    (h : bindTableFactor resolveTable factor = .ok (node, scope)) :
    Planned ctx node scope.schema.fields := by
  cases factor with
  | other debug => cases h
  | table name alias_ =>
    obtain ⟨⟨dataset, leaf⟩, -, h⟩ := bind_eq_ok.mp h
    dsimp only at h
    split at h
    · cases h
      rw [schema_forRelation]
      exact planned_systemScan hdata _
    · obtain ⟨⟨project, dataset, tableName⟩, -, h⟩ := bind_eq_ok.mp h
      obtain ⟨table, htable, h⟩ := bind_eq_ok.mp h
      cases h
      rw [schema_forRelation]
      exact planned_scan hdata htable

variable (hscratch : Scratch ctx)

include hscratch

variable {node' : LogicalNode}

theorem planned_bindJoins {joins : List Join} {scope' : Scope}
    (hplan : Planned ctx node scope.schema.fields)
    (h : bindJoins ctx.runtime resolveTable node scope joins = .ok (node', scope')) :
    Planned ctx node' scope'.schema.fields := by
  induction joins generalizing node scope with
  | nil =>
    cases h
    exact hplan
  | cons join joins ih =>
    obtain ⟨⟨rnode, rscope⟩, hfactor, h⟩ := bind_eq_ok.mp h
    obtain ⟨⟨joinType, constraint⟩, -, h⟩ := bind_eq_ok.mp h
    obtain ⟨on, hon, h⟩ := bind_eq_ok.mp h
    refine ih ?_ h
    have hbound : OnBound (scope.concat rscope).schema.fields.length on := by
      rintro e rfl
      cases constraint with
      | none => cases hon
      | some ast =>
        obtain ⟨e', he', hreturn⟩ := bind_eq_ok.mp hon
        cases hreturn
        exact bound_in_scope he'
    rw [schema_concat] at hbound ⊢
    exact hplan.join hscratch (planned_bindTableFactor hdata hfactor) hbound joinType

theorem planned_bindTableWithJoins {twj : TableWithJoins}
    (h : bindTableWithJoins ctx.runtime resolveTable twj = .ok (node, scope)) :
    Planned ctx node scope.schema.fields := by
  obtain ⟨⟨first, firstScope⟩, hfactor, h⟩ := bind_eq_ok.mp h
  exact planned_bindJoins hdata hscratch (planned_bindTableFactor hdata hfactor) h

theorem planned_bindItems {items : List TableWithJoins} {scope' : Scope}
    (hplan : Planned ctx node scope.schema.fields)
    (h : bindItems ctx.runtime resolveTable node scope items = .ok (node', scope')) :
    Planned ctx node' scope'.schema.fields := by
  induction items generalizing node scope with
  | nil =>
    cases h
    exact hplan
  | cons item items ih =>
    obtain ⟨⟨rnode, rscope⟩, hitem, h⟩ := bind_eq_ok.mp h
    refine ih ?_ h
    rw [schema_concat]
    have hcross : OnBound (scope.schema.fields ++ rscope.schema.fields).length none := by
      rintro e ⟨⟩
    exact hplan.join hscratch (planned_bindTableWithJoins hdata hscratch hitem) hcross .inner

theorem planned_bindFrom {from_ : List TableWithJoins}
    (h : bindFrom ctx.runtime resolveTable from_ = .ok (node, scope)) :
    Planned ctx node scope.schema.fields := by
  cases from_ with
  | nil =>
    cases h
    exact planned_values
  | cons first rest =>
    obtain ⟨⟨firstNode, firstScope⟩, hfirst, h⟩ := bind_eq_ok.mp h
    exact planned_bindItems hdata hscratch (planned_bindTableWithJoins hdata hscratch hfirst) h

omit hdata hscratch in
theorem bound_bindSortKeys {os : List OrderByExpr} {keys : List SortKey}
    (h : bindSortKeys ctx.runtime scope os = .ok keys) :
    ∀ key ∈ keys, key.expr.Bound scope.schema.fields.length := by
  induction os generalizing keys with
  | nil =>
    cases h
    exact nofun
  | cons o os ih =>
    obtain ⟨e, he, h⟩ := bind_eq_ok.mp h
    obtain ⟨rest, hrest, h⟩ := bind_eq_ok.mp h
    cases h
    intro key hkey
    rcases mem_cons.mp hkey with rfl | hkey
    · exact bound_in_scope he
    · exact ih hrest key hkey

omit hdata hscratch in
theorem bound_bindProjection {items : List SelectItem} {exprs : List Expr}
    (h : bindProjection ctx.runtime scope items = .ok exprs) :
    ∀ e ∈ exprs, e.Bound scope.schema.fields.length := by
  induction items generalizing exprs with
  | nil =>
    cases h
    exact nofun
  | cons item items ih =>
    obtain ⟨front, hfront, h⟩ := bind_eq_ok.mp h
    obtain ⟨rest, hrest, h⟩ := bind_eq_ok.mp h
    cases h
    intro e he
    rcases mem_append.mp he with he | he
    · cases item with
      | unnamedExpr ast | exprWithAlias ast =>
        obtain ⟨e', he', hreturn⟩ := bind_eq_ok.mp hfront
        cases hreturn
        rw [mem_singleton.mp he]
        exact bound_in_scope he'
      -- `*` stands for every column of the scope
      | wildcard =>
        cases hfront
        obtain ⟨i, hi, rfl⟩ := mem_map.mp he
        have hlen : scope.schema.fields.length = scope.len := List.length_map ..
        rw [hlen]
        exact List.mem_range.mp hi
      | other debug => cases hfront
    · exact ih hrest e he

theorem executes_bindSelect {select : Select} {orderBy : Option (List OrderByExpr)}
    (h : bindSelect ctx.runtime resolveTable select orderBy = .ok node) : Executes ctx node := by
  obtain ⟨-, -, h⟩ := bind_eq_ok.mp h
  obtain ⟨-, -, h⟩ := bind_eq_ok.mp h
  obtain ⟨-, -, h⟩ := bind_eq_ok.mp h
  obtain ⟨⟨source, scope⟩, hfrom, h⟩ := bind_eq_ok.mp h
  obtain ⟨afterWhere, hwhere, h⟩ := bind_eq_ok.mp h
  obtain ⟨afterOrder, horder, h⟩ := bind_eq_ok.mp h
  obtain ⟨exprs, hexprs, h⟩ := bind_eq_ok.mp h
  cases h
  have hsource := planned_bindFrom hdata hscratch hfrom
  have hfiltered : Planned ctx afterWhere scope.schema.fields := by
    cases hselection : select.selection with
    | none =>
      rw [hselection] at hwhere
      cases hwhere
      exact hsource
    | some pred =>
      rw [hselection] at hwhere
      obtain ⟨e, he, hreturn⟩ := bind_eq_ok.mp hwhere
      cases hreturn
      exact hsource.filter (bound_in_scope he)
  have hordered : Planned ctx afterOrder scope.schema.fields := by
    cases orderBy with
    | none =>
      cases horder
      exact hfiltered
    | some terms =>
      obtain ⟨keys, hkeys, hreturn⟩ := bind_eq_ok.mp horder
      cases hreturn
      exact hfiltered.sort hscratch (bound_bindSortKeys hkeys)
  exact hordered.project (bound_bindProjection hexprs)

omit hdata hscratch in
theorem executes_bindCounted {what : String} {wrap : LogicalNode → Nat → LogicalNode}
    (hwrap : ∀ node count, Executes ctx node → Executes ctx (wrap node count))
    (hnode : Executes ctx node) {count : Option AstExpr}
    (h : bindCounted ctx.runtime what wrap node count = .ok node') : Executes ctx node' := by
  cases count with
  | none =>
    cases h
    exact hnode
  | some e =>
    obtain ⟨n, -, hreturn⟩ := bind_eq_ok.mp h
    cases hreturn
    exact hwrap node n hnode

omit hdata hscratch in
theorem executes_bindLimit (hnode : Executes ctx node) {clause : Option LimitClause}
    (h : bindLimit ctx.runtime node clause = .ok node') : Executes ctx node' := by
  rcases clause with _ | ⟨limit, offset, limitBy⟩ | _
  · cases h
    exact hnode
  · obtain ⟨-, -, h⟩ := bind_eq_ok.mp h
    obtain ⟨skipped, hskipped, h⟩ := bind_eq_ok.mp h
    have hoffset := executes_bindCounted (fun _ count h => h.offset count) hnode hskipped
    exact executes_bindCounted (fun _ count h => h.limit count) hoffset h
  · cases h

end Binding

/-- **Bound `SELECT`s are well scoped.**  Executing one never meets a column, a join key or
    a row width that does not fit, every spilled row reads back, and the join keys that
    lowering chose are those the executor finds. -/
theorem bound_select_well_scoped (ctx : QueryContext) (hscratch : Scratch ctx)
    (resolveTable : String → String → String → Outcome Table)
    (hdata : ConformingData ctx resolveTable) (query : Query) (plan : LogicalNode)
    (hbind : query.bind ctx.runtime resolveTable = .ok plan) :
    plan.lower.JoinKeysAgree ∧ ∀ f, drain ctx plan.lower = .error f → ¬ f.OutOfScope := by
  obtain ⟨-, -, h⟩ := bind_eq_ok.mp hbind
  obtain ⟨orderBy, -, h⟩ := bind_eq_ok.mp h
  cases hbody : query.body with
  | other debug =>
    rw [hbody] at h
    cases h
  | select select =>
    rw [hbody] at h
    obtain ⟨node, hselect, h⟩ := bind_eq_ok.mp h
    have hexec := executes_bindLimit (executes_bindSelect hdata hscratch hselect) h
    refine ⟨hexec.keys, fun f hf => ?_⟩
    have hdrain := hexec.drain
    rw [hf] at hdrain
    exact hdrain

/-- `SELECT * FROM t JOIN t AS u ON t.a = u.a`. -/
def selfJoin : Query where
  body := .select
    { distinct := false
      projection := [.wildcard]
      from_ := [⟨.table ⟨[some "t"], "t"⟩ none, [⟨.table ⟨[some "t"], "t"⟩ (some "u"),
        .join (.on (.binaryOp .eq (.compoundIdentifier ["t", "a"] "t.a")
          (.compoundIdentifier ["u", "a"] "u.a")))⟩]⟩]
      selection := none
      groupBy := false
      having := false }
  orderBy := none
  limitClause := none
  fetch := false

def oneRowContext : QueryContext := { emptyContext with scan := fun _ => [.ok [.int32 7]] }

theorem bound_select_well_scoped_self_join :
    ∃ plan, selfJoin.bind oneRowContext.runtime (fun _ _ _ => .ok (oneColumnTable .int32))
      = .ok plan
      ∧ plan.lower.JoinKeysAgree ∧ ∀ f, drain oneRowContext plan.lower = .error f →
        ¬ f.OutOfScope := by
  have hscratch : Scratch oneRowContext := ⟨scratch_emptyContext.codec, scratch_emptyContext.zeroed⟩
  refine ⟨_, rfl, bound_select_well_scoped oneRowContext hscratch
    (fun _ _ _ => .ok (oneColumnTable .int32))
    ⟨?_, ?_⟩ selfJoin _ rfl⟩
  · intro project dataset name table htable item hitem
    cases htable
    exact Or.inl ⟨_, mem_singleton.mp hitem, .cons (.inr rfl) .nil, trivial, trivial⟩
  · exact ⟨nofun, nofun, nofun, nofun, nofun⟩

end StrataDb.Sql
