import Mathlib.Logic.Relation
import Scriba.Server.Registry

/-! # Saving, step by step

`saveFile` as the steps of the database that it takes. A process that stops, or a call that throws
(nobody catches it), leaves the database of a point that is passed on the way. At all of these
every file has its old or its new content, but one that is being replaced: it is deleted before
the upload, and only the end of the upload puts it back. -/

namespace Scriba.Server

open Scriba.Utility Scriba.Lib

/-- Where `Mongo::saveFile` is with a file, and the bytes it was given. -/
inductive Phase where
  | ready
  | found (filename : QString) (data : QByteArray)
  | deleted (filename : QString) (data : QByteArray)
  | opened (filename : QString) (data : QByteArray)
  | written (filename : QString) (data : QByteArray)
deriving DecidableEq

/-- The file that is deleted and not uploaded yet, with what will be. -/
def Phase.missing? : Phase → Option (QString × QByteArray)
  | .ready | .found _ _ => none
  | .deleted filename data | .opened filename data | .written filename data =>
    some (filename, data)

structure SavePoint where
  server : Server
  phase : Phase
  todo : List (QString × SymbolMap)

namespace SavePoint

/-- Before the first file. -/
def initial (s : Server) : SavePoint := ⟨s, .ready, s.symbolsList.toList⟩

/-- `changed.insert(filename, false)`. -/
def reset (s : Server) (filename : QString) : Server :=
  { s with changed := s.changed.insert filename false }

/-- `delete_file`. -/
def deleteFile (s : Server) (filename : QString) : Server :=
  { s with db := { s.db with bucket := s.db.bucket.erase filename } }

/-- `close`, of an upload. -/
def putFile (s : Server) (filename : QString) (data : QByteArray) : Server :=
  { s with db := { s.db with bucket := s.db.bucket.insert filename data } }

/-- The bytes that are stored for some symbols. -/
def contentOf (z : Codec) (symbols : SymbolMap) : QByteArray :=
  z.qCompress (writeSymbols symbols.values)

/-- One step, if there is any: no array has 2^31 bytes. -/
def step (z : Codec) : SavePoint → Option SavePoint
  | ⟨_, .ready, []⟩ => none
  | ⟨s, .ready, (filename, symbols) :: todo⟩ =>
    if s.changed[filename]? = some true then
      if 2 ^ 31 ≤ (writeSymbols symbols.values).length then none
      else if s.db.bucket.contains filename then
        some ⟨s, .found filename (contentOf z symbols), todo⟩
      else some ⟨reset s filename, .ready, todo⟩
    else some ⟨reset s filename, .ready, todo⟩
  | ⟨s, .found filename data, todo⟩ => some ⟨deleteFile s filename, .deleted filename data, todo⟩
  | ⟨s, .deleted filename data, todo⟩ => some ⟨s, .opened filename data, todo⟩
  | ⟨s, .opened filename data, todo⟩ => some ⟨s, .written filename data, todo⟩
  | ⟨s, .written filename data, todo⟩ =>
    some ⟨reset (putFile s filename data) filename, .ready, todo⟩

/-- Some steps after each other. -/
abbrev Reaches (z : Codec) : SavePoint → SavePoint → Prop :=
  Relation.ReflTransGen fun c c' => step z c = some c'

end SavePoint

open SavePoint

/-- The file has the content it had, or what a save of `s` stores for it. -/
def Kept (z : Codec) (s : Server) (db : Database) (filename : QString) : Prop :=
  db.bucket[filename]? = s.db.bucket[filename]? ∨
    ∃ symbols, s.symbolsList[filename]? = some symbols ∧ s.changed[filename]? = some true ∧
      db.bucket[filename]? = some (contentOf z symbols)

/-- Every file has. -/
def Intact (z : Codec) (s : Server) (db : Database) : Prop := ∀ filename, Kept z s db filename

variable {z : Codec} {s s1 s2 : Server} {c c' : SavePoint} {filename : QString}
  {symbols : SymbolMap} {todo : List (QString × SymbolMap)}

/-! ## Every point -/

/-- A file that is next and will be replaced, in the state `s1` before it is. -/
structure Due (z : Codec) (s : Server) (filename : QString) (symbols : SymbolMap)
    (todo : List (QString × SymbolMap)) (s1 : Server) : Prop where
  saving : Saving z s ((filename, symbols) :: todo) s1
  changed : s1.changed[filename]? = some true
  small : (writeSymbols symbols.values).length < 2 ^ 31
  stored : filename ∈ s1.db.bucket

/-- What holds at every point of a save of `s`. -/
inductive SavingFrom (z : Codec) (s : Server) : SavePoint → Prop
  | ready {s1 : Server} {todo : List (QString × SymbolMap)} : Saving z s todo s1 →
      SavingFrom z s ⟨s1, .ready, todo⟩
  | found {s1 : Server} {filename : QString} {symbols : SymbolMap}
      {todo : List (QString × SymbolMap)} : Due z s filename symbols todo s1 →
      SavingFrom z s ⟨s1, .found filename (contentOf z symbols), todo⟩
  | missing {s1 : Server} {filename : QString} {symbols : SymbolMap} {phase : Phase}
      {todo : List (QString × SymbolMap)} : Due z s filename symbols todo s1 →
      phase.missing? = some (filename, contentOf z symbols) →
      SavingFrom z s ⟨deleteFile s1 filename, phase, todo⟩

/-- A save looks at the bucket by names only. -/
theorem Saving.congr_bucket (h : Saving z s todo s1) {bucket : Std.TreeMap QString QByteArray}
    (hb : ∀ key : QString, bucket[key]? = s1.db.bucket[key]?) :
    Saving z s todo { s1 with db := { s1.db with bucket } } :=
  { h with bucket := fun key => (hb key).trans (h.bucket key) }

/-- A round of `saveFile` in which nothing throws. -/
theorem saveEntry_plain (z : Codec) (s1 : Server) (filename : QString)
    (hsmall : (writeSymbols symbols.values).length < 2 ^ 31) :
    s1.saveEntry z .plain (filename, symbols) =
      if s1.changed[filename]? = some true ∧ filename ∈ s1.db.bucket then
        .ok (reset (putFile s1 filename (contentOf z symbols)) filename)
      else .ok (reset s1 filename) := by
  have hlen : ¬ 2 ^ 31 ≤ (writeSymbols symbols.values).length := by omega
  have hplain : ¬ Driver.plain.fails .bucket = true := by decide
  unfold saveEntry saveSymbols Mongo.saveFile
  simp only [hlen, hplain, if_false, Std.TreeMap.contains_iff_mem]
  by_cases hc : s1.changed[filename]? = some true
  · by_cases hb : filename ∈ s1.db.bucket
    · simp only [hc, hb, if_true, and_self]
      rfl
    · simp only [hc, hb, if_true, if_false, and_false]
      rfl
  · simp only [hc, if_false, false_and]
    rfl

/-- A file that need not be saved. -/
theorem Saving.skip (h : Saving z s ((filename, symbols) :: todo) s1)
    (hskip : s1.changed[filename]? = some true →
      (writeSymbols symbols.values).length < 2 ^ 31 ∧ filename ∉ s1.db.bucket) :
    Saving z s todo (reset s1 filename) := by
  refine h.step (d := .plain) ?_
  by_cases hc : s1.changed[filename]? = some true
  · rw [saveEntry_plain z _ _ (hskip hc).1, if_neg fun hb => (hskip hc).2 hb.2]
  · unfold saveEntry saveSymbols
    simp only [hc, if_false]
    rfl

/-- A file that is there again. -/
theorem Due.close (h : Due z s filename symbols todo s1) :
    Saving z s todo (reset (putFile (deleteFile s1 filename) filename (contentOf z symbols))
      filename) := by
  have hsaved := saveEntry_plain z s1 filename h.small
  rw [if_pos ⟨h.changed, h.stored⟩] at hsaved
  refine (h.saving.step hsaved).congr_bucket ?_
  intro key
  simp only [reset, putFile, deleteFile, Table.getElem?_insert, Table.getElem?_erase]
  split_ifs <;> rfl

/-- **One step.** -/
theorem SavingFrom.step (h : SavingFrom z s c) (hs : SavePoint.step z c = some c') :
    SavingFrom z s c' := by
  cases h with
  | @ready s1 todo h =>
    cases todo with
    | nil => cases hs
    | cons e todo =>
      obtain ⟨filename, symbols⟩ := e
      simp only [SavePoint.step] at hs
      split_ifs at hs with hc hlen hb
      · cases hs
        exact .found ⟨h, hc, by omega, Std.TreeMap.contains_iff_mem.mp hb⟩
      · cases hs
        exact .ready (h.skip fun _ =>
          ⟨by omega, fun hm => hb (Std.TreeMap.contains_iff_mem.mpr hm)⟩)
      · cases hs
        exact .ready (h.skip fun hch => absurd hch hc)
  | found h =>
    cases hs
    exact .missing h rfl
  | @missing s1 filename symbols phase todo h hm =>
    cases phase with
    | ready => cases hm
    | found => cases hm
    | deleted =>
      cases hs
      exact .missing h hm
    | opened =>
      cases hs
      exact .missing h hm
    | written =>
      cases hs
      cases hm
      exact .ready h.close

/-- **All points.** -/
theorem savingFrom (h : Reaches z (initial s) c) : SavingFrom z s c := by
  induction h with
  | refl => exact .ready (Saving.start z s)
  | tail _ hs ih => exact ih.step hs

/-- Between two files, and at the end. -/
theorem saving_of_reaches (h : Reaches z (initial s) ⟨s1, .ready, todo⟩) : Saving z s todo s1 := by
  cases savingFrom h with
  | ready h => exact h
  | missing _ hm => cases hm

/-- The next file is as it was at the start. -/
theorem Saving.head (h : Saving z s ((filename, symbols) :: todo) s1) :
    s.symbolsList[filename]? = some symbols ∧ s1.changed[filename]? = s.changed[filename]? ∧
      s1.db.bucket[filename]? = s.db.bucket[filename]? := by
  refine ⟨h.listed (filename, symbols) (by simp), ?_, ?_⟩
  · rw [h.changed filename, if_neg (by simp)]
  · rw [h.bucket filename, if_pos (by simp)]

/-! ## Old and new contents -/

theorem kept_of_saving (h : Saving z s todo s1) (filename : QString) :
    Kept z s s1.db filename := by
  have hb := h.bucket filename
  by_cases hm : filename ∈ todo.map Prod.fst
  · rw [if_pos hm] at hb
    exact .inl hb
  · rw [if_neg hm, savedContent] at hb
    cases hs : s.symbolsList[filename]? with
    | none =>
      simp only [hs] at hb
      exact .inl hb
    | some symbols =>
      simp only [hs] at hb
      split_ifs at hb with hc
      · exact .inr ⟨symbols, hs, hc.1, hb⟩
      · exact .inl hb

/-- A file that is missing was there before. -/
theorem Due.not_kept (h : Due z s filename symbols todo s1) :
    ¬ Kept z s (deleteFile s1 filename).db filename := by
  have hnone : (deleteFile s1 filename).db.bucket[filename]? = none := by
    rw [deleteFile, Table.getElem?_erase, if_pos rfl]
  have hold := h.saving.head.2.2
  obtain ⟨content, hcontent⟩ := Table.exists_of_mem h.stored
  intro hor
  rcases hor with hsame | ⟨symbols', -, -, hnew⟩
  · rw [hnone, ← hold, hcontent] at hsame
    cases hsame
  · rw [hnone] at hnew
    cases hnew

/-! ## Every save passes such points -/

/-- One file after the other. -/
theorem reaches_next (z : Codec) (s1 : Server) (filename : QString) (symbols : SymbolMap)
    (todo : List (QString × SymbolMap))
    (hfit : s1.changed[filename]? = some true → (writeSymbols symbols.values).length < 2 ^ 31) :
    ∃ s2, Reaches z ⟨s1, .ready, (filename, symbols) :: todo⟩ ⟨s2, .ready, todo⟩ := by
  by_cases hc : s1.changed[filename]? = some true
  · have hlen : ¬ 2 ^ 31 ≤ (writeSymbols symbols.values).length := by
      have := hfit hc
      omega
    by_cases hb : s1.db.bucket.contains filename
    · have hfind : SavePoint.step z ⟨s1, .ready, (filename, symbols) :: todo⟩ =
          some ⟨s1, .found filename (contentOf z symbols), todo⟩ := by
        simp only [SavePoint.step, hc, hlen, hb, if_true, if_false]
      exact ⟨_, .head hfind <| .head rfl <| .head rfl <| .head rfl <| .single rfl⟩
    · have hreset : SavePoint.step z ⟨s1, .ready, (filename, symbols) :: todo⟩ =
          some ⟨reset s1 filename, .ready, todo⟩ := by
        simp only [SavePoint.step, hc, hlen, hb, if_true, if_false, Bool.false_eq_true]
      exact ⟨_, .single hreset⟩
  · exact ⟨reset s1 filename, .single (by simp [SavePoint.step, hc])⟩

/-- What has changed fits into an array. -/
def AllFit (s : Server) : Prop := ∀ (filename : QString) (symbols : SymbolMap),
  s.symbolsList[filename]? = some symbols → s.changed[filename]? = some true →
    (writeSymbols symbols.values).length < 2 ^ 31

theorem reaches_todo (hfit : AllFit s) (htodo : todo <:+ s.symbolsList.toList) :
    ∃ s1, Reaches z (initial s) ⟨s1, .ready, todo⟩ := by
  obtain ⟨done, hdone⟩ := htodo
  induction done using List.reverseRecOn generalizing todo with
  | nil => exact ⟨s, by rw [initial, ← hdone]; exact .refl⟩
  | append_singleton done e ih =>
    obtain ⟨filename, symbols⟩ := e
    have hprev : done ++ (filename, symbols) :: todo = s.symbolsList.toList := by
      simpa using hdone
    obtain ⟨s1, hs1⟩ := ih hprev
    obtain ⟨hlisted, hchanged, -⟩ := (saving_of_reaches hs1).head
    obtain ⟨s2, hs2⟩ := reaches_next z s1 filename symbols todo fun hc =>
      hfit filename symbols hlisted (hchanged ▸ hc)
    exact ⟨s2, hs1.trans hs2⟩

/-- What `saveFile` does in one go. -/
theorem saveFile_reaches {d : Driver} (h : s.saveFile z d = .ok s1) :
    ∃ s2, Reaches z (initial s) ⟨s2, .ready, []⟩ ∧ Saved z s s1 ∧ Saved z s s2 := by
  have hs1 := saveFile_ok h
  obtain ⟨s2, hs2⟩ := reaches_todo (z := z) (s := s)
    (fun filename symbols hs hc => hs1.small filename symbols hs (by simp) hc) List.nil_suffix
  exact ⟨s2, hs2, hs1, saving_of_reaches hs2⟩

/-- Every save of a file that has changed and is stored. -/
theorem exists_missing (hfit : AllFit s) (hs : s.symbolsList[filename]? = some symbols)
    (hc : s.changed[filename]? = some true) (hb : filename ∈ s.db.bucket) :
    ∃ s1 todo, Reaches z (initial s)
        ⟨deleteFile s1 filename, .deleted filename (contentOf z symbols), todo⟩ ∧
      Due z s filename symbols todo s1 := by
  obtain ⟨done, todo, hlist⟩ := List.append_of_mem (Table.mem_toList.mpr hs)
  obtain ⟨s1, hs1⟩ := reaches_todo (z := z) hfit ⟨done, hlist.symm⟩
  have hsaving := saving_of_reaches hs1
  obtain ⟨-, hchanged, hbucket⟩ := hsaving.head
  obtain ⟨content, hcontent⟩ := Table.exists_of_mem hb
  have hstored : filename ∈ s1.db.bucket := Table.mem_of_getElem? (hbucket.trans hcontent)
  have hsmall := hfit filename symbols hs hc
  have hfind : SavePoint.step z ⟨s1, .ready, (filename, symbols) :: todo⟩ =
      some ⟨s1, .found filename (contentOf z symbols), todo⟩ := by
    have hlen : ¬ 2 ^ 31 ≤ (writeSymbols symbols.values).length := by omega
    have hcontains := Std.TreeMap.contains_iff_mem.mpr hstored
    simp only [SavePoint.step, hchanged.trans hc, hlen, hcontains, if_true, if_false]
  exact ⟨s1, todo, (hs1.tail hfind).tail rfl, hsaving, hchanged.trans hc, hsmall, hstored⟩

/-! ## Where it may be cut off -/

theorem SavingFrom.intact_iff (h : SavingFrom z s c) :
    Intact z s c.server.db ↔ c.phase.missing? = none := by
  cases h with
  | ready hs => exact ⟨fun _ => rfl, fun _ => kept_of_saving hs⟩
  | found hd => exact ⟨fun _ => rfl, fun _ => kept_of_saving hd.saving⟩
  | missing hd hm =>
    exact ⟨fun hintact => absurd (hintact _) hd.not_kept, fun hnone => by simp [hnone] at hm⟩

/-- **Only a save that replaces nothing** is safe wherever it is cut off. -/
theorem always_intact_iff (hfit : AllFit s) :
    (∀ c, Reaches z (initial s) c → Intact z s c.server.db) ↔
      ∀ (filename : QString) (symbols : SymbolMap), s.symbolsList[filename]? = some symbols →
        s.changed[filename]? = some true → filename ∉ s.db.bucket := by
  constructor
  · intro hintact filename symbols hs hc hb
    obtain ⟨s1, todo, hreach, hdue⟩ := exists_missing hfit hs hc hb
    exact hdue.not_kept (hintact _ hreach filename)
  · intro hnew c hreach
    have hfrom := savingFrom hreach
    refine hfrom.intact_iff.mpr ?_
    cases hfrom with
    | ready => rfl
    | found => rfl
    | @missing s1 filename symbols _ _ hdue _ =>
      obtain ⟨hs, hchanged, hbucket⟩ := hdue.saving.head
      obtain ⟨content, hcontent⟩ := Table.exists_of_mem hdue.stored
      exact absurd (Table.mem_of_getElem? (hbucket.symm.trans hcontent))
        (hnew filename symbols hs (hchanged.symm.trans hdue.changed))

/-- **Saving is safe** at every point but between the deletion of a file and the end of its
upload. -/
theorem saving_intact_iff (h : Reaches z (initial s) c) :
    Intact z s c.server.db ↔ c.phase.missing? = none :=
  (savingFrom h).intact_iff

/-- A server with one file, which is stored and has changed. -/
def oneChanged : Server :=
  { Server.start { Database.empty with
      bucket := (∅ : Std.TreeMap QString QByteArray).insert [70] [0] } with
    symbolsList := (∅ : Std.TreeMap QString SymbolMap).insert [70] ∅
    changed := (∅ : Std.TreeMap QString Bool).insert [70] true }

theorem oneChanged_allFit : AllFit oneChanged := by
  intro filename symbols hs _
  simp only [oneChanged, Table.getElem?_insert] at hs
  split_ifs at hs
  · cases hs
    decide
  · simp at hs

/-- When the one file has been found. -/
theorem saving_intact_found : Intact .plain oneChanged oneChanged.db :=
  (saving_intact_iff (c := ⟨oneChanged, .found [70] (contentOf .plain ∅), []⟩)
    (.single rfl)).mpr rfl

/-- If the server stops after the deletion, the file is gone. -/
theorem file_lost : ∃ c, Reaches .plain (initial oneChanged) c ∧
    ¬ Intact .plain oneChanged c.server.db := by
  have hlisted : oneChanged.symbolsList[([70] : QString)]? = some ∅ := by
    simp only [oneChanged, Table.getElem?_insert, if_true]
  have hchanged : oneChanged.changed[([70] : QString)]? = some true := by
    simp only [oneChanged, Table.getElem?_insert, if_true]
  have hstored : ([70] : QString) ∈ oneChanged.db.bucket := Table.mem_insert.mpr (.inl rfl)
  obtain ⟨s1, todo, hreach, hdue⟩ :=
    exists_missing (z := .plain) oneChanged_allFit hlisted hchanged hstored
  exact ⟨_, hreach, fun hintact => hdue.not_kept (hintact _)⟩

end Scriba.Server
