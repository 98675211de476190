import Scriba.Lib.WriteBack
import Scriba.Server.Registry

/-! # Files in memory and in the database

The map of a file is loaded when the first worker opens it, changed in memory, written to the
database by the timer and with the last worker that leaves, and dropped then. In well-formed
sessions each file is a store that writes back later: its map is the result of all operations on
the file, wherever it is kept. -/

namespace Scriba.Server

open Scriba.Utility Scriba.Lib

/-! ## Maps that can be written -/

namespace SymbolMap

variable {symbols : SymbolMap} {s : Symbol} {vec : List Symbol}

/-- Each symbol is kept at its own position and has numbers that are `int`s. -/
def Kept (symbols : SymbolMap) : Prop :=
  ∀ (k : QString) (s : Symbol), symbols[k]? = some s → k = s.positionString ∧ s.InRange

theorem kept_empty : Kept ∅ := by
  intro k s h
  simp at h

theorem Kept.insertSymbol (h : symbols.Kept) (hs : s.InRange) : (symbols.insertSymbol s).Kept := by
  intro k r hr
  rw [getElem?_insertSymbol] at hr
  split_ifs at hr with hk
  · cases hr
    exact ⟨hk, hs⟩
  · exact h k r hr

theorem Kept.removeSymbol (h : symbols.Kept) : (symbols.removeSymbol s).Kept := by
  intro k r hr
  rw [getElem?_removeSymbol] at hr
  split_ifs at hr
  exact h k r hr

theorem Kept.insertAll (h : symbols.Kept) (hs : ∀ s ∈ vec, s.InRange) :
    (vec.foldl SymbolMap.insertSymbol symbols).Kept := by
  induction vec generalizing symbols with
  | nil => exact h
  | cons s vec ih =>
    exact ih (h.insertSymbol (hs s (by simp))) fun r hr => hs r (by simp [hr])

theorem Kept.removeAll (h : symbols.Kept) : (vec.foldl SymbolMap.removeSymbol symbols).Kept := by
  induction vec generalizing symbols with
  | nil => exact h
  | cons s vec ih => exact ih h.removeSymbol

theorem kept_storeSymbols (hs : ∀ s ∈ vec, s.InRange) : (storeSymbolsServerMemory vec).Kept :=
  kept_empty.insertAll hs

theorem Kept.contains (h : symbols.Kept) :
    symbols.Contains fun s => symbols[s.positionString]? = some s := by
  intro k s
  refine ⟨fun hs => ?_, fun ⟨hk, hs⟩ => hk ▸ hs⟩
  obtain ⟨rfl, -⟩ := h k s hs
  exact ⟨rfl, hs⟩

theorem Kept.inRange (h : symbols.Kept) (hs : s ∈ symbols.values) : s.InRange :=
  (h _ s (h.contains.mem_values.mp hs)).2

/-- **A map is its values**, up to the shape of the tree. -/
theorem Kept.store_values (h : symbols.Kept) :
    (storeSymbolsServerMemory symbols.values).Equiv symbols := by
  refine .of_forall_constGet?_eq fun k => Option.ext fun s => ?_
  have hstore := contains_storeSymbols h.contains.values_nodup
  show (storeSymbolsServerMemory symbols.values)[k]? = some s ↔ symbols[k]? = some s
  rw [hstore k s, h.contains k s]
  exact and_congr_right fun _ => h.contains.mem_values

end SymbolMap

namespace Operation

variable {op : Operation} {a b : SymbolMap}

/-- The symbols of the operation have numbers that are `int`s. -/
def InRange (op : Operation) : Prop := ∀ s ∈ op.symbols, s.InRange

theorem apply_kept (h : a.Kept) (hop : op.InRange) : (op.apply a).Kept := by
  cases op with
  | store vec => exact h.insertAll hop
  | remove vec => exact h.removeAll

theorem apply_equiv (op : Operation) (h : a.Equiv b) : (op.apply a).Equiv (op.apply b) := by
  cases op with
  | store vec =>
    induction vec generalizing a b with
    | nil => exact h
    | cons s vec ih => exact ih (h.insert _ _)
  | remove vec =>
    induction vec generalizing a b with
    | nil => exact h
    | cons s vec ih => exact ih (h.erase _)

theorem ofJson_inRange (doc : QJsonObject) : (ofJson doc).InRange := by
  unfold ofJson
  split <;> simp [InRange, symbols, Symbol.fromJson_inRange]

theorem ofBulk_inRange {doc : QJsonObject} {f : List Symbol → Operation}
    (h : ofBulk doc = some f) (data : QByteArray) : (f (readSymbols data)).InRange := by
  have hread : ∀ s ∈ readSymbols data, s.InRange := fun s hs => (readSymbols_storable hs).toInRange
  unfold ofBulk at h
  split at h <;> cases h <;> exact hread

end Operation

/-! ## Well-formed sessions -/

/-- A worker opens or creates a file only when it has none open, and opens only existing files. What
is refused does not count. -/
structure WellFormed (s : Server) (i : Input) : Prop where
  opens : ∀ w sender doc filename, Asks s i.event w sender .fileToOpen doc →
    sendFileField doc = .ok filename → sender.filename = [] ∧ filename ∈ s.db.bucket
  creates : ∀ w sender doc username filename db', Asks s i.event w sender .newFile doc →
    createNewFileFields doc = .ok (username, filename) →
    Granted i.driver s.db username filename db' → fileKey filename username ∉ s.db.bucket →
    sender.filename = []

/-- The files in memory are those that workers have open, they are in the bucket, and their maps can
be written. -/
structure Files (s : Server) : Prop where
  registry : Registry s
  inBucket : ∀ f : QString, f ∈ s.symbolsList → f ∈ s.db.bucket
  kept : ∀ (f : QString) (symbols : SymbolMap), s.symbolsList[f]? = some symbols → symbols.Kept

theorem Files.orderly {s : Server} {i : Input} (h : Files s) (hw : WellFormed s i) :
    Orderly s i where
  opens w sender doc filename ha hf := (hw.opens w sender doc filename ha hf).1
  creates w sender doc username filename db' ha hf hg hb :=
    ⟨hw.creates w sender doc username filename db' ha hf hg hb,
      fun hm => hb (h.inBucket _ ((h.registry.keys _).mpr hm))⟩

/-! ## A file as a store -/

/-- The symbols that a file has in the database. -/
def decoded (z : Codec) (db : Database) (f : QString) : SymbolMap :=
  SymbolMap.storeSymbolsServerMemory
    (((db.bucket[f]?).map fun content => readSymbols (z.qUncompress content)).getD [])

/-- What a file is to the server: the map in the database, and the one in memory with its flag. -/
def fileStore (z : Codec) (s : Server) (f : QString) : WriteBack SymbolMap where
  stored := decoded z s.db f
  memory := (s.symbolsList[f]?).map fun symbols => (symbols, decide (s.changed[f]? = some true))

/-- The operation on a file that an event brings. -/
def operationOn (z : Codec) (s : Server) (e : Event) (f : QString) : Option Operation :=
  (operationOf z s e).bind fun t => if t.filename = f then some t.operation else none

/-- A step of a store of symbols. -/
abbrev FileStep (r : SymbolMap → SymbolMap → Prop) :
    WriteBack SymbolMap → Option Operation → WriteBack SymbolMap → Prop :=
  WriteBack.Step r fun op symbols => op.apply symbols

/-- The relation between a map that was written and what is read back. -/
def Reads (z : Codec) (r : SymbolMap → SymbolMap → Prop) : Prop :=
  ∀ symbols : SymbolMap, symbols.Kept → (writeSymbols symbols.values).length < 2 ^ 31 →
    r (SymbolMap.storeSymbolsServerMemory
      (readSymbols (z.qUncompress (z.qCompress (writeSymbols symbols.values))))) symbols

/-- **What is written is read back**, if compressing loses nothing. -/
theorem reads_equiv {z : Codec} (hz : ∀ data, z.qUncompress (z.qCompress data) = data) :
    Reads z Std.TreeMap.Equiv := by
  intro symbols hk hlen
  obtain ⟨hcount, hstorable⟩ := storable_of_length (fun r hr => hk.inRange hr) hlen
  rw [hz, readSymbols_write hcount hstorable]
  exact hk.store_values

theorem reads_any (z : Codec) : Reads z fun _ _ => True := fun _ _ _ => trivial

section FileStep

variable {z : Codec} {d : Driver} {s s' : Server} {e : Event} {w : WorkerId}
  {sender : ServerWorker} {outs : List Output} {f : QString} {r : SymbolMap → SymbolMap → Prop}

theorem decoded_congr {db db' : Database} (h : db'.bucket[f]? = db.bucket[f]?) :
    decoded z db' f = decoded z db f := by
  rw [decoded, h, decoded]

/-- A file that is not in the bucket has no symbols. -/
theorem decoded_of_not_mem {db : Database} (h : f ∉ db.bucket) : decoded z db f = ∅ := by
  rw [decoded, Table.not_mem_iff.mp h]
  rfl

theorem decoded_kept (z : Codec) (db : Database) (f : QString) : (decoded z db f).Kept := by
  refine SymbolMap.kept_storeSymbols ?_
  intro s hs
  cases hb : db.bucket[f]? with
  | none => simp [hb] at hs
  | some content =>
    rw [hb] at hs
    exact (readSymbols_storable hs).toInRange

theorem fileStore_congr (hb : s'.db.bucket[f]? = s.db.bucket[f]?)
    (hm : s'.symbolsList[f]? = s.symbolsList[f]?) (hc : s'.changed[f]? = s.changed[f]?) :
    fileStore z s' f = fileStore z s f := by
  rw [fileStore, decoded_congr hb, hm, hc, fileStore]

/-- An event that leaves a file alone. -/
theorem FileStep.same (hb : s'.db.bucket[f]? = s.db.bucket[f]?)
    (hm : s'.symbolsList[f]? = s.symbolsList[f]?) (hc : s'.changed[f]? = s.changed[f]?) :
    FileStep r (fileStore z s f) none (fileStore z s' f) := by
  rw [fileStore_congr hb hm hc]
  exact .keep _

theorem fileStore_none (h : f ∉ s.symbolsList) : fileStore z s f = ⟨decoded z s.db f, none⟩ := by
  rw [fileStore, Table.not_mem_iff.mp h, Option.map_none]

theorem fileStore_some {symbols : SymbolMap} (h : s.symbolsList[f]? = some symbols) :
    fileStore z s f =
      ⟨decoded z s.db f, some (symbols, decide (s.changed[f]? = some true))⟩ := by
  rw [fileStore, h, Option.map_some]

/-- A save is through with all files. -/
theorem Saved.content (h : Saved z s s') (f : QString) :
    s'.db.bucket[f]? = savedContent z s f := by
  rw [h.bucket f, if_neg (by simp)]

theorem Saved.content_of_not_mem (h : Saved z s s') (hm : s.symbolsList[f]? = none) :
    s'.db.bucket[f]? = s.db.bucket[f]? := by
  rw [h.content f, savedContent, hm]

/-- A save leaves what is read back of the map in memory. -/
theorem Saved.saves (hr : Reads z r) (h : Saved z s s') {symbols : SymbolMap}
    (hm : s.symbolsList[f]? = some symbols) (hk : symbols.Kept) (hb : f ∈ s.db.bucket) :
    WriteBack.Saves r (decoded z s.db f) symbols (decide (s.changed[f]? = some true))
      (decoded z s'.db f) := by
  have hbucket := h.content f
  rw [savedContent, hm] at hbucket
  unfold WriteBack.Saves
  by_cases hc : s.changed[f]? = some true
  · simp only [hc, hb, and_self, if_true] at hbucket
    rw [if_pos (by simp [hc]), decoded, hbucket]
    exact hr symbols hk (h.small f symbols hm (by simp) hc)
  · rw [if_neg (by simp [hc])]
    refine decoded_congr ?_
    rw [hbucket]
    simp [hc]

/-- A save, seen from one file. -/
theorem Saved.fileStep (hr : Reads z r) (h : Saved z s s')
    (hb : f ∈ s.symbolsList → f ∈ s.db.bucket)
    (hk : ∀ symbols : SymbolMap, s.symbolsList[f]? = some symbols → symbols.Kept) :
    FileStep r (fileStore z s f) none (fileStore z s' f) := by
  have hchanged := h.changed f
  cases hm : s.symbolsList[f]? with
  | none =>
    have hout : f ∉ s.symbolsList := Table.not_mem_iff.mpr hm
    exact .same (h.content_of_not_mem hm) (by rw [h.symbolsList])
      (by rw [hchanged, if_neg fun hin => hout hin.1])
  | some symbols =>
    have hin : f ∈ s.symbolsList := Table.mem_of_getElem? hm
    have hm' : s'.symbolsList[f]? = some symbols := by rw [h.symbolsList, hm]
    rw [fileStore_some hm, fileStore_some hm', hchanged, if_pos ⟨hin, by simp⟩]
    exact .save (h.saves hr hm (hk symbols hm) (hb hin))

/-- A worker leaves its file, seen from one file. -/
theorem Leaves.fileStep (hr : Reads z r)
    (h : Leaves z s w sender sender.filename s' outs)
    (hb : f ∈ s.symbolsList → f ∈ s.db.bucket)
    (hk : ∀ symbols : SymbolMap, s.symbolsList[f]? = some symbols → symbols.Kept) :
    FileStep r (fileStore z s f) none (fileStore z s' f) := by
  cases h with
  | @others => exact .same rfl rfl rfl
  | @last workers s1 hl hin he hsaved =>
    by_cases hf : f = sender.filename
    · have hout : f ∉ s1.symbolsList.erase sender.filename := fun h => (Table.mem_erase.mp h).1 hf
      rw [fileStore_none (s := { s1 with
        symbolsList := s1.symbolsList.erase sender.filename
        changed := s1.changed.erase sender.filename }) hout]
      cases hm : s.symbolsList[f]? with
      | none =>
        rw [fileStore_none (Table.not_mem_iff.mpr hm),
          decoded_congr (hsaved.content_of_not_mem hm)]
        exact .keep _
      | some symbols =>
        rw [fileStore_some hm]
        exact .evict (hsaved.saves hr hm (hk symbols hm) (hb (Table.mem_of_getElem? hm)))
    · have hstep := hsaved.fileStep (f := f) hr hb hk
      have hsame : fileStore z { s1 with
          symbolsList := s1.symbolsList.erase sender.filename
          changed := s1.changed.erase sender.filename } f = fileStore z s1 f :=
        fileStore_congr rfl (by simp only [Table.getElem?_erase, if_neg hf])
          (by simp only [Table.getElem?_erase, if_neg hf])
      rw [hsame]
      exact hstep

theorem Operation.apply_of_symbols_eq_nil {op : Operation} (h : op.symbols = [])
    (symbols : SymbolMap) : op.apply symbols = symbols := by
  cases op <;> cases h <;> rfl

/-- The map of the file after the operation. -/
theorem Operated.lookup {op : Operation} {packet : Packet} {symbols : SymbolMap}
    (h : Operated s w f op packet s' outs) (hm : s.symbolsList[f]? = some symbols) :
    s'.symbolsList[f]? = some (op.apply symbols) := by
  rcases h.memory with ⟨hop, hs⟩ | ⟨symbols', hm', hs⟩
  · rw [hs, hm, Operation.apply_of_symbols_eq_nil hop]
  · cases hm.symm.trans hm'
    rw [hs, Table.getElem?_insert, if_pos rfl]

theorem Operated.lookup_ne {op : Operation} {packet : Packet} {g : QString}
    (h : Operated s w g op packet s' outs) (hf : f ≠ g) :
    s'.symbolsList[f]? = s.symbolsList[f]? := by
  rcases h.memory with ⟨-, hs⟩ | ⟨symbols, -, hs⟩
  · rw [hs]
  · rw [hs, Table.getElem?_insert, if_neg hf]

/-- An operation, seen from one file. -/
theorem Operated.fileStep {op : Operation} {packet : Packet} {g : QString}
    (h : Operated s w g op packet s' outs) (hs : Files s) (f : QString) :
    FileStep r (fileStore z s f) (if g = f then some op else none) (fileStore z s' f) := by
  split
  case isTrue hf =>
    subst hf
    obtain ⟨list, hl⟩ := h.outs
    obtain ⟨symbols, hm⟩ := Table.exists_of_mem
      ((hs.registry.keys g).mpr (Table.mem_of_getElem? hl.entry))
    rw [fileStore_some hm, fileStore_some (h.lookup hm), h.db, h.changed, Table.getElem?_insert,
      if_pos rfl]
    exact .apply _ _ _ _
  case isFalse hf =>
    refine .same (by rw [h.db]) (h.lookup_ne (Ne.symm hf)) ?_
    rw [h.changed, Table.getElem?_insert, if_neg (Ne.symm hf)]

/-- A new file, seen from one file: the map in memory is empty, as the file is in the bucket. -/
theorem Created.fileStep {key : QString} (h : Created s w sender key s') (hs : key ∉ s.symbolsList)
    (f : QString) : FileStep r (fileStore z s f) none (fileStore z s' f) := by
  rcases h.memory with ⟨hin, -⟩ | ⟨-, hm, hch⟩
  · exact absurd hin hs
  · by_cases hf : f = key
    · subst hf
      have hm' : s'.symbolsList[f]? = some ∅ := by
        rw [hm, Table.getElem?_insert, if_pos rfl]
      rw [fileStore_none hs, fileStore_some hm', decoded_of_not_mem h.fresh, hch,
        Table.getElem?_insert, if_pos rfl]
      exact .load nofun
    · refine .same ?_ (by rw [hm, Table.getElem?_insert, if_neg hf])
        (by rw [hch, Table.getElem?_insert, if_neg hf])
      rw [h.db, Table.getElem?_insert, if_neg hf]

/-- A file that is opened, seen from one file: its map is there, or is loaded. -/
theorem Opened.fileStep {filename : QString} {content : Option (List Symbol)}
    (h : Opened z s w sender filename content s') (f : QString) :
    FileStep r (fileStore z s f) none (fileStore z s' f) := by
  rcases h.memory with ⟨symbols, -, -, hm, hch⟩ | ⟨hnone, rfl, hm, hch⟩
  · exact .same (by rw [h.db]) (by rw [hm]) (by rw [hch])
  · by_cases hf : f = filename
    · subst hf
      have hm' : s'.symbolsList[f]? = some (decoded z s.db f) := by
        rw [hm, Table.getElem?_insert, if_pos rfl, decoded]
      rw [fileStore_none (Table.not_mem_iff.mpr hnone), fileStore_some hm', h.db, hch,
        Table.getElem?_insert, if_pos rfl]
      exact .load fun _ => rfl
    · exact .same (by rw [h.db]) (by rw [hm, Table.getElem?_insert, if_neg hf])
        (by rw [hch, Table.getElem?_insert, if_neg hf])

theorem Stores.bucket {db : Database} (h : Stores z s e db) : db.bucket = s.db.bucket := by
  cases h <;> rfl

/-- **Each event is a step of each file.** -/
theorem Effect.fileStep (hr : Reads z r) (he : Effect z d s e s' outs) (hs : Files s)
    (f : QString) :
    FileStep r (fileStore z s f) (operationOn z s e f) (fileStore z s' f) := by
  have hb := hs.inBucket f
  have hk := hs.kept f
  unfold operationOn
  cases ht : operationOf z s e with
  | some t =>
    rw [Option.bind_some]
    exact (he.operated_of ht).fileStep hs f
  | none =>
    rw [Option.bind_none]
    cases he with
    | connected | answered | loggedIn | disconnected => exact .same rfl rfl rfl
    | stored _ hst => exact .same (by rw [hst.bucket]) rfl rfl
    | renamed _ _ hdb => exact .same (by rcases hdb with rfl | rfl <;> rfl) rfl rfl
    | operated ht' => cases ht.symm.trans ht'
    | @created w sender doc message username filename db' s' ha hfields hg hc =>
      -- what the user lists is granted first, and changes no file
      have hsame : fileStore z { s with db := db' } f = fileStore z s f :=
        fileStore_congr (by rw [hg.bucket]) rfl rfl
      rw [← hsame]
      exact hc.fileStep (mt (hs.inBucket _) (hg.bucket ▸ hc.fresh)) f
    | opened _ _ ho => exact ho.fileStep f
    | @closed w sender doc message filename s1 outs ha _ hl =>
      obtain rfl := hs.registry.own_of_leaves hl ha.worker
      have hstep := hl.fileStep (f := f) hr hb hk
      exact hstep
    | @left w sender s' outs _ _ _ hl =>
      have hstep := hl.fileStep (f := f) hr hb hk
      exact hstep
    | saved _ hsaved => exact hsaved.fileStep hr hb hk

theorem Saved.mem_bucket (h : Saved z s s') (hf : f ∈ s.db.bucket) : f ∈ s'.db.bucket := by
  have hbucket := h.content f
  obtain ⟨content, hc⟩ := Table.exists_of_mem hf
  unfold savedContent at hbucket
  split at hbucket
  · exact Table.mem_of_getElem? (hbucket.trans hc)
  · split at hbucket
    · exact Table.mem_of_getElem? hbucket
    · exact Table.mem_of_getElem? (hbucket.trans hc)

theorem Leaves.inBucket {g : QString} (h : Leaves z s w sender g s' outs)
    (hb : ∀ f : QString, f ∈ s.symbolsList → f ∈ s.db.bucket) (hf : f ∈ s'.symbolsList) :
    f ∈ s'.db.bucket := by
  cases h with
  | last _ _ _ hsaved =>
    have hin := (Table.mem_erase.mp hf).2
    rw [hsaved.symbolsList] at hin
    exact hsaved.mem_bucket (hb f hin)
  | others => exact hb f hf

/-- Files in memory are in the bucket. -/
theorem Effect.inBucket (he : Effect z d s e s' outs) (hs : Files s) (hw : WellFormed s ⟨e, d⟩)
    {f : QString} (hf : f ∈ s'.symbolsList) : f ∈ s'.db.bucket := by
  cases he with
  | connected | answered | loggedIn | disconnected => exact hs.inBucket f hf
  | stored _ hst => exact hst.bucket ▸ hs.inBucket f hf
  | renamed _ _ hdb => rcases hdb with rfl | rfl <;> exact hs.inBucket f hf
  | operated _ hop =>
    rw [hop.db]
    rcases hop.memory with ⟨-, hm⟩ | ⟨symbols, hsym, hm⟩
    · exact hs.inBucket f (hm ▸ hf)
    · rw [hm, Table.mem_insert] at hf
      rcases hf with rfl | hf
      · exact hs.inBucket _ (Table.mem_of_getElem? hsym)
      · exact hs.inBucket f hf
  | created ha hfields hg hc =>
    rw [hc.db, Table.mem_insert, hg.bucket]
    rcases hc.memory with ⟨-, hm, -⟩ | ⟨-, hm, -⟩
    · exact .inr (hs.inBucket f (hm ▸ hf))
    · rw [hm, Table.mem_insert] at hf
      exact hf.imp_right (hs.inBucket f)
  | opened ha hfield ho =>
    rw [ho.db]
    rcases ho.memory with ⟨symbols, -, -, hm, -⟩ | ⟨-, -, hm, -⟩
    · exact hs.inBucket f (hm ▸ hf)
    · rw [hm, Table.mem_insert] at hf
      rcases hf with rfl | hf
      · exact (hw.opens _ _ _ _ ha hfield).2
      · exact hs.inBucket f hf
  | closed _ _ hl => exact hl.inBucket hs.inBucket hf
  | left _ _ _ hl => exact hl.inBucket hs.inBucket hf
  | saved _ hsaved => exact hsaved.mem_bucket (hs.inBucket f (hsaved.symbolsList ▸ hf))

theorem operationOf_inRange {t : Taken} (h : operationOf z s e = some t) :
    t.operation.InRange := by
  cases sends_of_operationOf h with
  | json => exact Operation.ofJson_inRange _
  | byteArray _ _ hop => exact Operation.ofBulk_inRange hop _

theorem operationOn_eq_some {op : Operation} : operationOn z s e f = some op ↔
    ∃ t, operationOf z s e = some t ∧ t.filename = f ∧ t.operation = op := by
  simp [operationOn, Option.bind_eq_some_iff]

/-- **Every well-formed event keeps the files.** -/
theorem Files.step (hs : Files s) (hp : e.Possible s) (hw : WellFormed s ⟨e, d⟩)
    (he : Effect z d s e s' outs) : Files s' := by
  refine ⟨hs.registry.step hp (hs.orderly hw) he, fun f hf => he.inBucket hs hw hf,
    fun f symbols hm => ?_⟩
  refine (he.fileStep (reads_any z) hs f).forall (P := SymbolMap.Kept) (decoded_kept z s.db f)
    ?_ ?_ symbols (decide (s'.changed[f]? = some true)) ?_
  · intro m dirty hmem
    obtain ⟨m', hm', he⟩ := Option.map_eq_some_iff.mp hmem
    cases he
    exact hs.kept f m hm'
  · intro op hop m hm
    obtain ⟨t, ht, -, rfl⟩ := operationOn_eq_some.mp hop
    exact Operation.apply_kept hm (operationOf_inRange ht)
  · rw [fileStore_some hm]

end FileStep

/-! ## Runs of well-formed sessions -/

section Runs

variable {z : Codec} {db : Database} {h : History} {s : Server}

/-- The operations on a file, in the order of the server. -/
def operationsOn (z : Codec) (f : QString) (h : History) : List Operation :=
  h.filterMap fun e => operationOn z e.before e.input.event f

/-- What the operations make of a map. -/
def replayed (symbols : SymbolMap) (ops : List Operation) : SymbolMap :=
  ops.foldl Operation.apply symbols

/-- Some worker has the file open. -/
def IsOpen (s : Server) (f : QString) : Prop := f ≠ [] ∧ ∃ w, FileOf s w f

theorem replayed_snoc (symbols : SymbolMap) (f : QString) (h : History) (e : Entry) :
    replayed symbols (operationsOn z f (h ++ [e])) =
      (operationOn z e.before e.input.event f).elim (replayed symbols (operationsOn z f h))
        fun op => op.apply (replayed symbols (operationsOn z f h)) := by
  rw [operationsOn, List.filterMap_append, replayed, List.foldl_append]
  cases ho : operationOn z e.before e.input.event f <;> simp [ho] <;> rfl

theorem Files.isOpen_iff (hs : Files s) (f : QString) : IsOpen s f ↔ f ∈ s.symbolsList := by
  rw [hs.registry.keys]
  constructor
  · intro h
    obtain ⟨hne, w, hw⟩ := h
    obtain ⟨list, hl, -⟩ := hs.registry.once w f hw hne
    exact Table.mem_of_getElem? hl
  · intro hin
    obtain ⟨list, hl⟩ := Table.exists_of_mem hin
    obtain ⟨w, hw⟩ := List.exists_mem_of_ne_nil list (hs.registry.nonempty f list hl)
    obtain ⟨hne, hown⟩ := hs.registry.own f list w hl hw
    exact ⟨hne, w, hown⟩

theorem files_start (db : Database) : Files (Server.start db) := by
  refine ⟨registry_start db, fun f hf => ?_, fun f symbols hm => ?_⟩
  · simp [Server.start] at hf
  · simp [Server.start] at hm

/-- The files, and what each of them is worth, after a run. -/
theorem durable_of_run (hz : ∀ data, z.qUncompress (z.qCompress data) = data)
    (hrun : ServerRun z db h s) (hw : ∀ e ∈ h, WellFormed e.before e.input) :
    Files s ∧ ∀ f, WriteBack.Durable Std.TreeMap.Equiv
      (replayed (decoded z db f) (operationsOn z f h)) (fileStore z s f) := by
  refine hrun.invariant (I := fun h s => Files s ∧ ∀ f, WriteBack.Durable Std.TreeMap.Equiv
      (replayed (decoded z db f) (operationsOn z f h)) (fileStore z s f)) hw
    ⟨files_start db, fun f => ?_⟩ fun h s i outs s' ⟨hs, hd⟩ hw hstep =>
      ⟨hs.step hstep.1 hw hstep.effect, fun f => ?_⟩
  · rw [fileStore_none (files_start db |>.isOpen_iff f |>.not.mp ?_)]
    · exact .rfl
    · intro hex
      obtain ⟨-, w, worker, hw, -⟩ := hex
      simp [Server.start] at hw
  · rw [replayed_snoc]
    exact (hd f).step ⟨fun _ => .rfl, .symm, .trans⟩ (fun op _ _ hab => op.apply_equiv hab)
      (hstep.effect.fileStep (reads_equiv hz) hs f)

/-- The map of the file, in memory while the file is open and in the database while it is not, is
the result of all operations on it; a map in memory that is not marked as changed is the one in
the database. -/
structure NothingLost (z : Codec) (db : Database) (h : History) (s : Server) (f : QString) :
    Prop where
  opened : IsOpen s f → ∃ symbols, s.symbolsList[f]? = some symbols ∧
    symbols.Equiv (replayed (decoded z db f) (operationsOn z f h))
  closed : ¬ IsOpen s f →
    (decoded z s.db f).Equiv (replayed (decoded z db f) (operationsOn z f h))
  saved : ∀ symbols : SymbolMap, s.symbolsList[f]? = some symbols → s.changed[f]? = some false →
    (decoded z s.db f).Equiv symbols

/-- **No operation is lost.** In every run of well-formed sessions, for every file. -/
theorem nothing_lost (hz : ∀ data, z.qUncompress (z.qCompress data) = data)
    (hrun : ServerRun z db h s) (hw : ∀ e ∈ h, WellFormed e.before e.input) (f : QString) :
    NothingLost z db h s f := by
  obtain ⟨hs, hd⟩ := durable_of_run hz hrun hw
  have hd := hd f
  refine ⟨fun hf => ?_, fun hf => ?_, fun symbols hm hc => ?_⟩
  · obtain ⟨symbols, hm⟩ := Table.exists_of_mem ((hs.isOpen_iff f).mp hf)
    rw [fileStore_some hm] at hd
    exact ⟨symbols, hm, hd.1⟩
  · rw [fileStore_none (mt (hs.isOpen_iff f).mpr hf)] at hd
    exact hd
  · rw [fileStore_some hm, hc] at hd
    exact hd.2 (by simp)

/-- Well-formed sessions can be told. -/
def wellFormedCheck (s : Server) (i : Input) : Bool :=
  onRequest s i.event .fileToOpen (fun sender doc =>
    match sendFileField doc with
    | .ok filename => sender.filename = [] ∧ filename ∈ s.db.bucket
    | .error _ => true) &&
  onRequest s i.event .newFile fun sender doc =>
    match createNewFileFields doc with
    | .ok (username, filename) => fileKey filename username ∈ s.db.bucket ∨ sender.filename = []
    | .error _ => true

theorem wellFormed_of_check {s : Server} {i : Input} (h : wellFormedCheck s i = true) :
    WellFormed s i := by
  rw [wellFormedCheck, Bool.and_eq_true] at h
  constructor
  · intro w sender doc filename ha hf
    simpa [hf] using ha.of_onRequest h.1
  · intro w sender doc username filename db' ha hf _ hb
    simpa [hf, hb] using ha.of_onRequest h.2

def newFileDoc (filename author : String) : QJsonObject :=
  object [("type", text "new_file"), ("filename", text filename), ("author", text author)]

def closeDoc (filename username : String) : QJsonObject :=
  object [("type", text "close"), ("filename", text filename), ("username", text username),
    ("nickname", text username)]

/-- A character that is inserted. -/
def insertDoc (value : String) (digit site : Rat) : QJsonObject :=
  object [("type", text "operation"), ("operation_type", .double 0),
    ("symbol", .object (object [("value", text value),
      ("position", .array [.object (object [("digit", .double digit), ("site", .double site)])])]))]

/-- A user creates a file, writes a character, closes the file and opens it again. -/
theorem nothing_lost_reopened : ∃ h s, ServerRun .plain (.ofNames ["u"]) h s ∧ h.length = 7 ∧
    NothingLost .plain (.ofNames ["u"]) h s (QString.of "f,u") := by
  obtain ⟨h, s, hrun, hP⟩ := exists_run .plain (.ofNames ["u"])
    (inputs [.incomingConnection 0, .jsonReceived 0 (loginDoc "u"),
      .jsonReceived 0 (newFileDoc "f" "u"), .jsonReceived 0 (insertDoc "a" 1 1), .timeout,
      .jsonReceived 0 (closeDoc "f,u" "u"), .jsonReceived 0 (openDoc "f,u")])
    (P := fun h _ => h.length = 7 ∧ h.all fun e => wellFormedCheck e.before e.input)
    (by decide +kernel)
  simp only [Bool.decide_and, Bool.and_eq_true, decide_eq_true_eq, List.all_eq_true] at hP
  exact ⟨h, s, hrun, hP.1,
    nothing_lost (fun _ => rfl) hrun (fun e he => wellFormed_of_check (hP.2 e he)) _⟩

end Runs

end Scriba.Server
