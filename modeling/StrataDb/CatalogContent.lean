import StrataDb.StorageLaws
import Mathlib

/-!
# What the catalog's functions read and write

A database is four maps of metadata by key and the rows of the users' tables. `Represents D m`:
the engine's map `m` holds `D`, each metadata row as JSON that reads back. Every function is a
function of `D` and a list of writes, each of which happens or is refused (`Performs`).
-/

namespace StrataDb.Sql

open ByteCodec OrderedMap
open Commands
open Filesystem (Block Crc32c Verifies maxTuple)
open Store (DiskEngine)
open Lsm (FastBloom)
open Runs (bind_eq_ok)
open Function (update_apply update_of_ne update_self)

section Entries

variable {α : Type} {T : Bytes → Option α} {start : Bytes} {es es' : List (Bytes × α)}

structure Lists (T : Bytes → Option α) (start : Bytes) (es : List (Bytes × α)) : Prop where
  sorted : es.Pairwise (fun a b => a.1 < b.1)
  mem : ∀ key a, (key, a) ∈ es ↔ start <+: key ∧ T key = some a

theorem Lists.unique (h : Lists T start es) (h' : Lists T start es') : es = es' :=
  Lsm.pairs_unique h.sorted h'.sorted fun e => (h.mem e.1 e.2).trans (h'.mem e.1 e.2).symm

noncomputable def entries (T : Bytes → Option α) (start : Bytes) : List (Bytes × α) :=
  Classical.epsilon (Lists T start)

theorem Lists.lists_entries (h : Lists T start es) : Lists T start (entries T start) :=
  Classical.epsilon_spec (p := Lists T start) ⟨es, h⟩

theorem Lists.eq_entries (h : Lists T start es) : es = entries T start :=
  h.unique h.lists_entries

theorem Lists.erase (h : Lists T start es) (key : Bytes) :
    Lists (Function.update T key none) start (es.filter (·.1 ≠ key)) where
  sorted := h.sorted.filter _
  mem u a := by
    rw [List.mem_filter, h.mem, update_apply]
    split_ifs with hu
    · simp [hu]
    · simp [hu]

theorem Lists.insert (h : Lists T start es) {key : Bytes} (hkey : start <+: key) (a : α) :
    Lists (Function.update T key (some a)) start
      (es.filter (·.1 < key) ++ (key, a) :: es.filter (key < ·.1)) where
  sorted := by
    refine List.pairwise_append.mpr ⟨h.sorted.filter _,
      List.pairwise_cons.mpr ⟨?_, h.sorted.filter _⟩, ?_⟩
    · intro e he
      simpa using (List.mem_filter.mp he).2
    · intro e he e' he'
      have hlt : e.1 < key := by simpa using (List.mem_filter.mp he).2
      rcases List.mem_cons.mp he' with rfl | he'
      · exact hlt
      · exact hlt.trans (by simpa using (List.mem_filter.mp he').2)
  mem u b := by
    rw [List.mem_append, List.mem_cons, List.mem_filter, List.mem_filter, h.mem, update_apply]
    rcases lt_trichotomy u key with hu | rfl | hu
    · simp [hu, hu.ne, hu.not_gt]
    · simp [hkey, eq_comm]
    · simp [hu, hu.ne', hu.not_gt]

theorem Lists.update (h : Lists T start es) (key : Bytes) (value : Option α) :
    Lists (Function.update T key value) start (entries (Function.update T key value) start) := by
  cases value with
  | none => exact (h.erase key).lists_entries
  | some a =>
    by_cases hkey : start <+: key
    · exact (h.insert hkey a).lists_entries
    · have hsame : Lists (Function.update T key (some a)) start es := by
        refine ⟨h.sorted, fun u b => (h.mem u b).trans (and_congr_right fun hu => ?_)⟩
        have hne : u ≠ key := by
          rintro rfl
          exact hkey hu
        rw [update_of_ne hne]
      exact hsame.lists_entries

end Entries

/-! ### System tables -/

inductive SystemTable where
  | projects
  | datasets
  | tables
  | columns
deriving DecidableEq

namespace SystemTable

@[reducible] def Meta : SystemTable → Type
  | projects => ProjectMeta
  | datasets => DatasetMeta
  | tables => TableMeta
  | columns => ColumnMeta

def table : SystemTable → Table
  | projects => projectsMetaTable
  | datasets => datasetsMetaTable
  | tables => tablesMetaTable
  | columns => columnsMetaTable

def serde (serde : MetaSerde) : (t : SystemTable) → ValueSerde t.Meta
  | projects => serde.project
  | datasets => serde.dataset
  | tables => serde.table
  | columns => serde.column

abbrev handle (t : SystemTable) : TableHandle :=
  .new t.table

@[simp] theorem projectId_handle (t : SystemTable) : t.handle.projectId = SYSTEM_PROJECT_ID := by
  cases t <;> rfl

@[simp] theorem schema_handle (t : SystemTable) : t.handle.schema = systemTableSchema := by
  cases t <;> rfl

theorem identity_inj {t t' : SystemTable} (h : t.handle.identity = t'.handle.identity) :
    t = t' := by
  have hid : t.table.id = t'.table.id := congrArg (·.2.2.1) h
  cases t <;> cases t' <;> first | rfl | (exact absurd hid (by decide))

end SystemTable

section Metadata

variable {rt : Runtime} {α : Type} {serde : ValueSerde α}

def readMeta (rt : Runtime) (serde : ValueSerde α) (bytes : Bytes) : Outcome α := do
  tupleToMeta serde (← decodeRow rt systemTableSchema bytes)

theorem readMeta_encodeRow (laws : rt.CodecLaws) {h : TableHandle}
    (hschema : h.schema = systemTableSchema) {key : Bytes} {info : α}
    (hreads : serde.ReadsBack rt info) {tuple : Tuple}
    (htuple : metaToTuple serde key info = .ok tuple) {u bytes : Bytes}
    (henc : h.encodeRow rt tuple = .ok (u, bytes)) (hfits : bytes.length ≤ maxTuple) :
    u = key ∧ readMeta rt serde bytes = .ok info := by
  obtain ⟨json, hto, htext, hfrom⟩ := hreads
  rw [metaToTuple, hto] at htuple
  obtain rfl := Except.ok.inj htuple
  rw [TableHandle.encodeRow] at henc
  obtain ⟨-, -, henc⟩ := bind_eq_ok.mp henc
  obtain ⟨key', hkey, henc⟩ := bind_eq_ok.mp henc
  obtain ⟨bytes', henc', hpair⟩ := bind_eq_ok.mp henc
  obtain ⟨rfl, rfl⟩ := Prod.mk.inj (Except.ok.inj hpair)
  cases hkey
  have hmax : maxTuple < 2 ^ 32 := by decide
  have htyped : Typed rt h.schema.fields [.bytes key, .json json] := by
    rw [hschema]
    exact .cons ⟨rfl, trivial⟩ (.cons ⟨rfl, htext⟩ .nil)
  have hdecode := Schema.decode_encode_of_length laws htyped henc' (by omega)
  refine ⟨rfl, ?_⟩
  rw [hschema] at hdecode
  simp only [readMeta, decodeRow, hdecode, Except.mapError, bind, Except.bind, tupleToMeta, hfrom]

end Metadata

/-! ### Databases -/

abbrev Identity := ProjectId × DatasetId × TableId × TruncationId

/-- A database: the metadata by key, and the rows of each table outside of the system's
    project. -/
structure Database where
  metas : (t : SystemTable) → Bytes → Option t.Meta
  rows : Identity → Bytes → Option Bytes

def Database.empty : Database := ⟨fun _ _ => none, fun _ _ => none⟩

inductive DatabaseWrite where
  | info (t : SystemTable) (key : Bytes) (value : Option t.Meta)
  | row (identity : Identity) (key : Bytes) (value : Option Bytes)

def DatabaseWrite.cost : DatabaseWrite → Nat
  | .info _ _ value => if value.isSome then 1 else 0
  | .row _ _ value => if value.isSome then 1 else 0

theorem DatabaseWrite.cost_le_one (w : DatabaseWrite) : w.cost ≤ 1 := by
  cases w with
  | info t key value => cases value <;> simp [cost]
  | row identity key value => cases value <;> simp [cost]

def Database.write (D : Database) : DatabaseWrite → Database
  | .info t key value =>
    { D with metas := Function.update D.metas t (Function.update (D.metas t) key value) }
  | .row identity key value =>
    { D with rows := Function.update D.rows identity (Function.update (D.rows identity) key value) }

namespace Database

variable {D : Database} {t t' : SystemTable} {key : Bytes} {value : Option t.Meta}
  {identity : Identity}
  {bytes : Option Bytes}

@[simp] theorem metas_info :
    (D.write (.info t key value)).metas t = Function.update (D.metas t) key value :=
  update_self ..

theorem metas_info_of_ne (h : t' ≠ t) : (D.write (.info t key value)).metas t' = D.metas t' :=
  update_of_ne h ..

@[simp] theorem rows_info : (D.write (.info t key value)).rows = D.rows := rfl

@[simp] theorem metas_row : (D.write (.row identity key bytes)).metas = D.metas := rfl

@[simp] theorem rows_row :
    (D.write (.row identity key bytes)).rows identity = Function.update (D.rows identity) key
    bytes :=
  update_self ..

theorem rows_row_of_ne {identity' : Identity} (h : identity' ≠ identity) :
    (D.write (.row identity key bytes)).rows identity' = D.rows identity' :=
  update_of_ne h ..

end Database

structure Represents (rt : Runtime) (serde : MetaSerde) (D : Database)
    (m : Bytes → Option Bytes) : Prop where
  metas : ∀ t key, (t.handle.content m key).map (readMeta rt (t.serde serde))
    = (D.metas t key).map .ok
  rows : ∀ h : TableHandle, h.projectId ≠ SYSTEM_PROJECT_ID → h.content m = D.rows h.identity

section Represents

variable {rt : Runtime} {serde : MetaSerde} {D : Database} {m : Bytes → Option Bytes}

theorem Represents.info (h : Represents rt serde D m) {t : SystemTable} {value : Option t.Meta}
    {bytes : Option Bytes} (hread : bytes.map (readMeta rt (t.serde serde)) = value.map .ok)
    (key : Bytes) :
    Represents rt serde (D.write (.info t key value))
      (Function.update m (t.handle.rowKey key) bytes) where
  metas t' key' := by
    rw [TableHandle.content_update]
    by_cases ht : t' = t
    · subst ht
      rw [if_pos rfl, Database.metas_info, update_apply, update_apply]
      split_ifs with hkey
      · exact hread
      · exact h.metas t' key'
    · rw [if_neg fun hid => ht (SystemTable.identity_inj hid).symm, Database.metas_info_of_ne ht]
      exact h.metas t' key'
  rows h' hproject := by
    rw [TableHandle.content_update, if_neg ?_, Database.rows_info]
    · exact h.rows h' hproject
    · intro hid
      exact hproject ((congrArg Prod.fst hid).symm.trans t.projectId_handle)

theorem Represents.row (h : Represents rt serde D m) {handle : TableHandle}
    (hproject : handle.projectId ≠ SYSTEM_PROJECT_ID) (key : Bytes) (value : Option Bytes) :
    Represents rt serde (D.write (.row handle.identity key value))
      (Function.update m (handle.rowKey key) value) where
  metas t key' := by
    rw [TableHandle.content_update, if_neg ?_, Database.metas_row]
    · exact h.metas t key'
    · intro hid
      exact hproject ((congrArg Prod.fst hid).trans t.projectId_handle)
  rows h' hproject' := by
    rw [TableHandle.content_update]
    split_ifs with hid
    · rw [hid, Database.rows_row, h.rows h' hproject']
    · rw [Database.rows_row_of_ne (Ne.symm hid)]
      exact h.rows h' hproject'

end Represents

def Represented (rt : Runtime) (serde : MetaSerde) {σ : Type}
    (Holds : Nat → (Bytes → Option Bytes) → σ → Prop) (room : Nat) (D : Database) (s : σ) : Prop :=
  ∃ m, Holds room m s ∧ Represents rt serde D m

/-- The command does the writes to the database, as far as it is not refused one. -/
abbrev Does {α : Type} (rt : Runtime) (serde : MetaSerde) {σ : Type}
    (Holds : Nat → (Bytes → Option Bytes) → σ → Prop) (D : Database) (c : Command σ Fault α)
    (ws : List DatabaseWrite) (r : Outcome α) : Prop :=
  Performs Database.write DatabaseWrite.cost Fault.FromStorage (Represented rt serde Holds) D c ws r

/-! ### Rows of system tables -/

theorem Represents.exists_meta {rt : Runtime} {serde : MetaSerde} {D : Database}
    {m : Bytes → Option Bytes} (h : Represents rt serde D m) {t : SystemTable} {key bytes : Bytes}
    (hbytes : t.handle.content m key = some bytes) :
    ∃ tuple info, decodeRow rt t.handle.schema bytes = .ok tuple ∧ tupleToMeta (t.serde serde) tuple
      = .ok info
      ∧ D.metas t key = some info := by
  have hmeta := h.metas t key
  rw [hbytes] at hmeta
  cases hinfo : D.metas t key with
  | none =>
    rw [hinfo] at hmeta
    cases hmeta
  | some info =>
    rw [hinfo] at hmeta
    obtain ⟨tuple, hdecode, hread⟩ := bind_eq_ok.mp (Option.some.inj hmeta)
    rw [← t.schema_handle] at hdecode
    exact ⟨tuple, info, hdecode, hread, rfl⟩

theorem mapM_rows {rt : Runtime} {serde : MetaSerde} {D : Database} {t : SystemTable}
    (rows : List (Bytes × Bytes))
    (h : ∀ row ∈ rows, ∃ tuple info, decodeRow rt t.handle.schema row.2 = .ok tuple
      ∧ tupleToMeta (t.serde serde) tuple = .ok info ∧ D.metas t row.1 = some info) :
    ∃ es : List (Bytes × t.Meta), es.map Prod.fst = rows.map Prod.fst
      ∧ (∀ e ∈ es, D.metas t e.1 = some e.2)
      ∧ ((rows.map fun row => decodeRow rt t.handle.schema row.2).mapM fun row =>
          row >>= tupleToMeta (t.serde serde)) = .ok (es.map Prod.snd) := by
  induction rows with
  | nil => exact ⟨[], rfl, fun _ he => absurd he List.not_mem_nil, rfl⟩
  | cons row rows ih =>
    obtain ⟨tuple, info, hdecode, hread, hinfo⟩ := h row List.mem_cons_self
    obtain ⟨es, hkeys, hes, hmap⟩ := ih fun r hr => h r (List.mem_cons_of_mem row hr)
    refine ⟨(row.1, info) :: es, congrArg (row.1 :: ·) hkeys, ?_, ?_⟩
    · intro e he
      rcases List.mem_cons.mp he with rfl | he
      · exact hinfo
      · exact hes e he
    · rw [List.map_cons, List.mapM_cons, hdecode, hmap]
      simp only [bind, Except.bind, hread]
      rfl

section Rows

variable {rt : Runtime} {serde : MetaSerde} {σ : Type} {S : TableStorage σ}
  {Holds : Nat → (Bytes → Option Bytes) → σ → Prop} {D : Database} {room : Nat}

theorem StorageLaws.relaxes_represented (storage : StorageLaws rt S Holds) :
    Relaxes (Represented rt serde Holds) := by
  rintro n n' D s hle ⟨m, hs, hrep⟩
  exact ⟨m, storage.relaxes n n' m s hle hs, hrep⟩

theorem lookupMeta_observes (storage : ReadLaws rt S Holds) (t : SystemTable) (key : Bytes) :
    Observes (Represented rt serde Holds room D) (lookupMeta (t.serde serde) S t.table key)
      (.ok (D.metas t key)) := by
  rintro s ⟨m, hs, hrep⟩
  obtain ⟨s', hget, hs'⟩ := storage.get t.handle (.bytes key) s hs
  refine ⟨s', ?_, m, hs', hrep⟩
  cases hbytes : t.handle.content m key with
  | none =>
    have hlookup : t.handle.lookup rt (t.handle.content m) (.bytes key) = .ok none := by
      rw [TableHandle.lookup_bytes, hbytes]
      rfl
    have hmeta := hrep.metas t key
    rw [hbytes, eq_comm, Option.map_none, Option.map_eq_none_iff] at hmeta
    rw [lookupMeta, bind_apply_ok (hget.trans (by rw [hlookup])), hmeta]
    rfl
  | some bytes =>
    obtain ⟨tuple, info, hdecode, hread, hinfo⟩ := hrep.exists_meta hbytes
    have hlookup : t.handle.lookup rt (t.handle.content m) (.bytes key) = .ok (some tuple) := by
      rw [TableHandle.lookup_bytes, hbytes, Option.elim_some, hdecode]
      rfl
    rw [lookupMeta, bind_apply_ok (hget.trans (by rw [hlookup])), hinfo]
    dsimp only
    rw [hread]
    rfl

theorem ReadLaws.scan_metas (storage : ReadLaws rt S Holds) {m : Bytes → Option Bytes} {s : σ}
    (hs : Holds room m s) (hrep : Represents rt serde D m) (t : SystemTable) {start : Bytes}
    (hstart : start ≠ []) :
    ∃ rows s', S.scan t.handle (ScanOptions.withPrefix {} start) s = (.ok rows, s')
      ∧ Holds room m s'
      ∧ ∃ es, Lists (D.metas t) start es
        ∧ (rows.mapM fun row => row >>= tupleToMeta (t.serde serde)) = .ok (es.map Prod.snd) := by
  obtain ⟨hrange, hin⟩ := withPrefix_range {} hstart
  obtain ⟨rows, s', hscan, hs', hlisted⟩ := storage.scan t.handle hrange hs
  obtain ⟨es, hkeys, hes, hmap⟩ := mapM_rows rows fun row hrow =>
    hrep.exists_meta ((hlisted.mem row.1 row.2).mp hrow).2
  refine ⟨_, s', hscan, hs', es, ⟨?_, fun key info => ⟨fun he => ?_, fun ⟨hstarts, hinfo⟩ => ?_⟩⟩,
    hmap⟩
  · rw [← List.pairwise_map, hkeys, List.pairwise_map]
    exact hlisted.sorted
  · have hkey : key ∈ rows.map Prod.fst := hkeys ▸ List.mem_map_of_mem he
    obtain ⟨row, hrow, rfl⟩ := List.mem_map.mp hkey
    exact ⟨(hin row.1).mp ((hlisted.mem row.1 row.2).mp hrow).1, hes (row.1, info) he⟩
  · -- an entry has a stored row, and so is one of those listed
    have hmeta := hrep.metas t key
    rw [hinfo, Option.map_some, Option.map_eq_some_iff] at hmeta
    obtain ⟨bytes, hbytes, -⟩ := hmeta
    have hrow : (key, bytes) ∈ rows := (hlisted.mem key bytes).mpr ⟨(hin key).mpr hstarts, hbytes⟩
    have hkey : key ∈ es.map Prod.fst := hkeys ▸ List.mem_map_of_mem hrow
    obtain ⟨e, he, rfl⟩ := List.mem_map.mp hkey
    obtain rfl := Option.some.inj (hinfo.symm.trans (hes e he))
    exact he

theorem listMetas_observes (storage : ReadLaws rt S Holds) (t : SystemTable) {start : Bytes}
    (hstart : start ≠ []) :
    Observes (Represented rt serde Holds room D) (listMetas (t.serde serde) S t.table start)
      (.ok ((entries (D.metas t) start).map Prod.snd)) := by
  rintro s ⟨m, hs, hrep⟩
  obtain ⟨rows, s', hscan, hs', es, hlists, hmap⟩ := storage.scan_metas hs hrep t hstart
  refine ⟨s', ?_, m, hs', hrep⟩
  rw [listMetas, bind_apply_ok hscan, ← hlists.eq_entries, ← hmap]
  rfl

def Database.Listable (D : Database) : Prop :=
  ∀ (t : SystemTable) {start : Bytes}, start ≠ [] → Lists (D.metas t) start
    (entries (D.metas t) start)

theorem Database.Listable.write (h : D.Listable) (w : DatabaseWrite) : (D.write w).Listable := by
  intro t start hstart
  cases w with
  | row identity key bytes => exact h t hstart
  | info t' key value =>
    by_cases ht : t = t'
    · subst ht
      rw [Database.metas_info]
      exact (h t hstart).update key value
    · rw [Database.metas_info_of_ne ht]
      exact h t hstart

theorem writeMeta_performs (storage : StorageLaws rt S Holds) (laws : rt.CodecLaws)
    (t : SystemTable) (key : Bytes) {info : t.Meta} (hreads : (t.serde serde).ReadsBack rt info) :
    Does rt serde Holds D (writeMeta (t.serde serde) S t.table key info) [.info t key (some info)]
      (.ok ()) := by
  rintro room s ⟨m, hs, hrep⟩
  obtain ⟨json, hto, -⟩ := id hreads
  have htuple : metaToTuple (t.serde serde) key info = .ok [.bytes key, .json json] := by
    rw [metaToTuple, hto]
    rfl
  obtain ⟨r, s', hput, hcases⟩ := storage.put t.handle [.bytes key, .json json] hs
  have hrun : writeMeta (t.serde serde) S t.table key info s = (r, s') := by
    rw [writeMeta, htuple]
    exact hput
  rcases hcases with ⟨rfl, u, bytes, henc, hfits, hs'⟩ | ⟨⟨f, hf, rfl⟩, hs'⟩
  · obtain ⟨rfl, hread⟩ := readMeta_encodeRow laws t.schema_handle hreads htuple henc hfits
    have hstored : (some bytes).map (readMeta rt (t.serde serde)) = (some info).map .ok :=
      congrArg some hread
    exact ⟨_, .ok (), s', hrun, List.prefix_rfl, ⟨_, hs', hrep.info hstored u⟩, Or.inl ⟨rfl, rfl⟩⟩
  · exact ⟨[], .error f, s', hrun, List.nil_prefix, ⟨m, hs', hrep⟩, Or.inr ⟨f, hf, rfl⟩⟩

theorem removeMeta_performs (storage : StorageLaws rt S Holds) (t : SystemTable) (key : Bytes) :
    Does rt serde Holds D (removeMeta S t.table key) [.info t key none] (.ok ()) := by
  rintro room s ⟨m, hs, hrep⟩
  obtain ⟨r, s', hdelete, hcases⟩ := storage.delete t.handle (.bytes key) hs
  rcases hcases with ⟨rfl, u, hu, hs'⟩ | ⟨⟨f, hf, rfl⟩, hs'⟩
  · cases hu
    have hgone : (none : Option Bytes).map (readMeta rt (t.serde serde))
      = (none : Option t.Meta).map .ok := rfl
    exact ⟨_, .ok (), s', hdelete, List.prefix_rfl, ⟨_, hs', hrep.info hgone key⟩,
      Or.inl ⟨rfl, rfl⟩⟩
  · exact ⟨[], .error f, s', hdelete, List.nil_prefix, ⟨m, hs', hrep⟩, Or.inr ⟨f, hf, rfl⟩⟩

end Rows

/-! ### A serializer

Each value is written as its number. -/

instance encodableUInt8 : Encodable UInt8 := .ofLeftInverse UInt8.toNat UInt8.ofNat fun _ => by simp
instance encodableUInt32 : Encodable UInt32 :=
  .ofLeftInverse UInt32.toNat UInt32.ofNat fun _ => by simp
instance encodableUInt64 : Encodable UInt64 :=
  .ofLeftInverse UInt64.toNat UInt64.ofNat fun _ => by simp
instance encodableChar : Encodable Char := .ofLeftInverse Char.toNat Char.ofNat Char.ofNat_toNat
instance encodableString : Encodable String :=
  .ofLeftInverse String.toList String.ofList fun _ => String.ofList_toList

instance encodableUuid : Encodable Uuid :=
  .ofLeftInjection Uuid.bytes (fun bs => if h : bs.length = 16 then some ⟨bs, h⟩ else none)
    fun u => dif_pos u.length_eq

deriving instance Encodable for ProjectId, DatasetId, TableId, TruncationId, LogicalType, Index
deriving instance Encodable for ProjectMeta, DatasetMeta, TableMeta, ColumnMeta

/-- The numeral of a natural number. -/
def numeralOfNat (n : Nat) : SerdeJson.Numeral where
  text := n.repr
  spelled := by
    refine ⟨by simp [Nat.repr], List.all_eq_true.mpr fun c hc => ?_⟩
    have hdigit : c.isDigit = true := by
      refine @Nat.isDigit_of_mem_toDigits 10 n c (by decide) (by decide) ?_
      simpa [Nat.repr] using hc
    simp [SerdeJson.isNumeral, hdigit]

/-- A document that is the number of the value. -/
def ValueSerde.numbering (α : Type) [Encodable α] : ValueSerde α where
  toValue a := .ok (.number (numeralOfNat (Encodable.encode a)))
  fromValue json :=
    match json with
    | .number n =>
      match n.text.toNat? >>= Encodable.decode with
      | some a => .ok a
      | none => .error "no value"
    | _ => .error "no number"

theorem parseJson_default (n : SerdeJson.Numeral) :
    (default : Runtime).parseJson (SerdeJson.Doc.number n).text = some (.number n) := by
  have htext : (SerdeJson.Doc.number n).text = n.text := String.ofList_toList
  rw [htext]
  exact congrArg (Option.map _) n.ofText_text

theorem readsBack_numbering {α : Type} [Encodable α] (a : α) :
    (ValueSerde.numbering α).ReadsBack default a := by
  refine ⟨.number (numeralOfNat (Encodable.encode a)), rfl, parseJson_default _, ?_⟩
  simp [ValueSerde.numbering, numeralOfNat, Nat.toNat?_repr]

/-- All metadata as numbers. -/
def MetaSerde.numbering : MetaSerde :=
  ⟨.numbering _, .numbering _, .numbering _, .numbering _⟩

end StrataDb.Sql
