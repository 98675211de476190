import Scriba.Server.Effects

/-! # Who has which file open

Three members of the server say which files are open: the filename of each worker, the lists of
`mapFileWorkers` and the keys of `symbols_list`. `Registry` is what they have to agree on. The
handlers for new and opened files do not look whether the worker has a file open already, or
the file a worker; as long as no request makes a difference there (`Orderly`), every event keeps
the registry. -/

namespace Scriba.Server

open Scriba.Utility Scriba.Lib

/-! ## Runs -/

/-- An event, and what happens outside of the server while it is handled. -/
structure Input where
  event : Event
  driver : Driver

def Step (z : Codec) (s : Server) (i : Input) (outs : List Output) (s' : Server) : Prop :=
  i.event.Possible s ∧ s.handle z i.driver i.event = .ok (s', outs)

abbrev Entry := Run.Entry Server Input (List Output)
abbrev History := List Entry

/-- The runs of a server from its start. -/
abbrev ServerRun (z : Codec) (db : Database) : History → Server → Prop :=
  Run (Step z) (Server.start db)

theorem Step.effect {z : Codec} {s s' : Server} {i : Input} {outs : List Output}
    (h : Step z s i outs s') : Effect z i.driver s i.event s' outs :=
  handle_effect h.2

/-! ## The registry -/

/-- The worker is there and has that filename. -/
def FileOf (s : Server) (w : WorkerId) (filename : QString) : Prop :=
  ∃ worker, s.clients[w]? = some worker ∧ worker.filename = filename

/-- Each worker with an open file is once in the list of this file and in no other; the lists have
only such workers, and there is no empty list; the files with a list are those in memory. -/
structure Registry (s : Server) : Prop where
  once : ∀ (w : WorkerId) (f : QString), FileOf s w f → f ≠ [] →
    ∃ list, s.mapFileWorkers[f]? = some list ∧ list.count w = 1
  own : ∀ (f : QString) (list : List WorkerId) (w : WorkerId),
    s.mapFileWorkers[f]? = some list → w ∈ list → f ≠ [] ∧ FileOf s w f
  nonempty : ∀ (f : QString) (list : List WorkerId), s.mapFileWorkers[f]? = some list → list ≠ []
  keys : ∀ f : QString, f ∈ s.symbolsList ↔ f ∈ s.mapFileWorkers

section FileOf

variable {s s' : Server} {w v : WorkerId} {worker : ServerWorker} {f g : QString}

theorem fileOf_insert (worker : ServerWorker) (h : s'.clients = s.clients.insert w worker) :
    FileOf s' v g ↔ if v = w then worker.filename = g else FileOf s v g := by
  simp only [FileOf, h, Table.getElem?_insert]
  split_ifs <;> simp

theorem fileOf_erase (h : s'.clients = s.clients.erase w) :
    FileOf s' v g ↔ v ≠ w ∧ FileOf s v g := by
  simp only [FileOf, h, Table.getElem?_erase]
  split_ifs with hv <;> simp [hv]

theorem fileOf_unique (h : FileOf s w f) (hg : FileOf s w g) : f = g := by
  obtain ⟨x, hx, rfl⟩ := h
  obtain ⟨y, hy, rfl⟩ := hg
  cases hx.symm.trans hy
  rfl

end FileOf

section Steps

variable {s s' : Server} {w : WorkerId} {f : QString}

theorem registry_start (db : Database) : Registry (Server.start db) := by
  constructor <;> simp [Server.start, FileOf]

theorem Registry.congr (h : Registry s) (hfile : ∀ v g, FileOf s' v g ↔ FileOf s v g)
    (hmap : s'.mapFileWorkers = s.mapFileWorkers)
    (hkeys : ∀ g : QString, g ∈ s'.symbolsList ↔ g ∈ s.symbolsList) : Registry s' where
  once v g hv hg := hmap ▸ h.once v g ((hfile v g).mp hv) hg
  own g list v hg hv :=
    have ho := h.own g list v (hmap ▸ hg) hv
    ⟨ho.1, (hfile v g).mpr ho.2⟩
  nonempty g list hg := h.nonempty g list (hmap ▸ hg)
  keys g := by rw [hkeys, hmap, h.keys]

/-- A worker without a file is in no list. -/
theorem Registry.not_mem (h : Registry s) (hw : FileOf s w []) {g : QString}
    {list : List WorkerId} (hg : s.mapFileWorkers[g]? = some list) : w ∉ list := fun hin =>
  have ho := h.own g list w hg hin
  ho.1 (fileOf_unique ho.2 hw)

/-- **A worker without a file gets one.** -/
theorem Registry.enter (h : Registry s) (hw : FileOf s w []) (hf : f ≠ [])
    (hfile : ∀ v g, FileOf s' v g ↔ if v = w then f = g else FileOf s v g)
    (hmap : s'.mapFileWorkers =
      s.mapFileWorkers.insert f ((s.mapFileWorkers[f]?).getD [] ++ [w]))
    (hkeys : ∀ g : QString, g ∈ s'.symbolsList ↔ g = f ∨ g ∈ s.symbolsList) : Registry s' := by
  have hold : w ∉ (s.mapFileWorkers[f]?).getD [] := by
    cases hl : s.mapFileWorkers[f]? with
    | none => simp
    | some list => exact h.not_mem hw hl
  have hlookup : ∀ g : QString, s'.mapFileWorkers[g]? =
      if g = f then some ((s.mapFileWorkers[f]?).getD [] ++ [w]) else s.mapFileWorkers[g]? :=
    fun g => by rw [hmap, Table.getElem?_insert]
  refine ⟨fun v g hv hg => ?_, fun g list v hg hv => ?_, fun g list hg => ?_, fun g => ?_⟩
  · rw [hlookup]
    by_cases hvw : v = w
    · subst hvw
      obtain rfl : f = g := by simpa using (hfile v g).mp hv
      exact ⟨_, if_pos rfl, by simp [List.count_eq_zero_of_not_mem hold]⟩
    · have hv : FileOf s v g := by simpa [hvw] using (hfile v g).mp hv
      obtain ⟨list, hl, hc⟩ := h.once v g hv hg
      by_cases hgf : g = f
      · subst hgf
        exact ⟨_, if_pos rfl, by simpa [hl, List.count_singleton, Ne.symm hvw] using hc⟩
      · exact ⟨list, by rw [if_neg hgf, hl], hc⟩
  · rw [hlookup] at hg
    by_cases hgf : g = f
    · subst hgf
      obtain rfl := Option.some.inj ((if_pos rfl).symm.trans hg)
      refine ⟨hf, (hfile v g).mpr ?_⟩
      split_ifs with hvw
      · rfl
      · cases hl : s.mapFileWorkers[g]? with
        | none => simp [hl, hvw] at hv
        | some list => exact (h.own g list v hl (by simpa [hl, hvw] using hv)).2
    · rw [if_neg hgf] at hg
      obtain ⟨hne, ho⟩ := h.own g list v hg hv
      refine ⟨hne, (hfile v g).mpr ?_⟩
      rwa [if_neg]
      rintro rfl
      exact h.not_mem hw hg hv
  · rw [hlookup] at hg
    split_ifs at hg
    · obtain rfl := Option.some.inj hg
      simp
    · exact h.nonempty g list hg
  · rw [hkeys, h.keys, hmap, Table.mem_insert]

/-- **A worker leaves its file.** -/
theorem Registry.leave (h : Registry s) (hw : FileOf s w f) {workers : List WorkerId}
    (hl : s.mapFileWorkers[f]? = some workers)
    (hfile : ∀ v g, g ≠ [] → (FileOf s' v g ↔ v ≠ w ∧ FileOf s v g))
    (hmap : ∀ g : QString, s'.mapFileWorkers[g]? =
      if g = f then (if workers.erase w = [] then none else some (workers.erase w))
      else s.mapFileWorkers[g]?)
    (hkeys : ∀ g : QString, g ∈ s'.symbolsList ↔
      g ∈ s.symbolsList ∧ ¬ (g = f ∧ workers.erase w = [])) : Registry s' := by
  have hmem : ∀ v ∈ workers, v ≠ w → v ∈ workers.erase w := fun v hv hne =>
    (List.mem_erase_of_ne hne).mpr hv
  have hnin : f ≠ [] → w ∉ workers.erase w := by
    intro hf hin
    obtain ⟨list, hl', hc⟩ := h.once w f hw hf
    cases hl.symm.trans hl'
    rw [← List.count_pos_iff, List.count_erase_self, hc] at hin
    omega
  refine ⟨fun v g hv hg => ?_, fun g list v hg hv => ?_, fun g list hg => ?_, fun g => ?_⟩
  · obtain ⟨hvw, hv⟩ := (hfile v g hg).mp hv
    obtain ⟨list, hl', hc⟩ := h.once v g hv hg
    rw [hmap]
    by_cases hgf : g = f
    · subst hgf
      cases hl.symm.trans hl'
      have hin : v ∈ workers.erase w := hmem v (List.count_pos_iff.mp (by omega)) hvw
      rw [if_pos rfl, if_neg (List.ne_nil_of_mem hin)]
      exact ⟨_, rfl, by rw [List.count_erase_of_ne hvw, hc]⟩
    · exact ⟨list, by rw [if_neg hgf, hl'], hc⟩
  · rw [hmap] at hg
    by_cases hgf : g = f
    · subst hgf
      rw [if_pos rfl] at hg
      split_ifs at hg
      obtain rfl := Option.some.inj hg
      have ho := h.own g workers v hl (List.mem_of_mem_erase hv)
      refine ⟨ho.1, (hfile v g ho.1).mpr ⟨?_, ho.2⟩⟩
      rintro rfl
      exact hnin ho.1 hv
    · rw [if_neg hgf] at hg
      have ho := h.own g list v hg hv
      refine ⟨ho.1, (hfile v g ho.1).mpr ⟨?_, ho.2⟩⟩
      rintro rfl
      exact hgf (fileOf_unique ho.2 hw)
  · rw [hmap] at hg
    split_ifs at hg with hgf he
    · obtain rfl := Option.some.inj hg
      exact he
    · exact h.nonempty g list hg
  · have hmem' : g ∈ s'.mapFileWorkers ↔
        g ∈ s.mapFileWorkers ∧ ¬ (g = f ∧ workers.erase w = []) := by
      rw [Std.TreeMap.mem_iff_isSome_getElem?, Std.TreeMap.mem_iff_isSome_getElem?, hmap]
      by_cases hgf : g = f
      · subst hgf
        by_cases he : workers.erase w = [] <;> simp [he, hl]
      · simp [hgf]
    rw [hkeys, hmem', h.keys]

end Steps

/-! ## Orderly requests -/

/-- The event does not open or create a file for a worker that has one open, and does not create a
file that some worker has open. What is refused does not count. -/
structure Orderly (s : Server) (i : Input) : Prop where
  opens : ∀ w sender doc filename, Asks s i.event w sender .fileToOpen doc →
    sendFileField doc = .ok filename → sender.filename = []
  creates : ∀ w sender doc username filename db', Asks s i.event w sender .newFile doc →
    createNewFileFields doc = .ok (username, filename) →
    Granted i.driver s.db username filename db' → fileKey filename username ∉ s.db.bucket →
    sender.filename = [] ∧ fileKey filename username ∉ s.mapFileWorkers

/-- Orderly requests can be told. -/
def orderlyCheck (s : Server) (i : Input) : Bool :=
  onRequest s i.event .fileToOpen (fun sender doc =>
    match sendFileField doc with
    | .ok _ => sender.filename = []
    | .error _ => true) &&
  onRequest s i.event .newFile fun sender doc =>
    match createNewFileFields doc with
    | .ok (username, filename) =>
      fileKey filename username ∈ s.db.bucket ∨
        sender.filename = [] ∧ fileKey filename username ∉ s.mapFileWorkers
    | .error _ => true

theorem orderly_of_check {s : Server} {i : Input} (h : orderlyCheck s i = true) : Orderly s i := by
  rw [orderlyCheck, Bool.and_eq_true] at h
  constructor
  · intro w sender doc filename ha hf
    simpa [hf] using ha.of_onRequest h.1
  · intro w sender doc username filename db' ha hf _ hb
    simpa [hf, hb] using ha.of_onRequest h.2

theorem textField_ne_nil {doc : QJsonObject} {key wrongFormat empty : String} {field : QString}
    (h : textField doc key wrongFormat empty = .ok field) : field ≠ [] := by
  unfold textField at h
  dsimp only at h
  split at h
  · cases h
  · split at h <;> cases h
    assumption

theorem fileKey_ne_nil (filename username : QString) : fileKey filename username ≠ [] := by
  simp [fileKey]

section Step

variable {z : Codec} {d : Driver} {s s' s1 : Server} {e : Event} {w : WorkerId}
  {sender : ServerWorker} {f : QString} {outs : List Output}

/-- What is left of the maps when a worker leaves its file. -/
theorem Leaves.maps (h : Leaves z s w sender f s1 outs) :
    ∃ workers, s.mapFileWorkers[f]? = some workers ∧ w ∈ workers ∧ s1.clients = s.clients ∧
      (∀ g : QString, s1.mapFileWorkers[g]? =
        if g = f then (if workers.erase w = [] then none else some (workers.erase w))
        else s.mapFileWorkers[g]?) ∧
      ∀ g : QString, g ∈ s1.symbolsList ↔
        g ∈ s.symbolsList ∧ ¬ (g = sender.filename ∧ workers.erase w = []) := by
  cases h with
  | @last workers s2 hl hin he hsaved =>
    refine ⟨workers, hl, hin, hsaved.clients, fun g => ?_, fun g => ?_⟩
    · simp only [hsaved.mapFileWorkers, Table.getElem?_erase, he, if_true]
    · simp only [hsaved.symbolsList, Table.mem_erase, he]
      tauto
  | @others workers list notice outs hl hin he =>
    refine ⟨workers, hl, hin, rfl, fun g => ?_, fun g => ?_⟩
    · simp only [Table.getElem?_insert, if_neg he]
    · simp only [he]
      tauto

/-- The file that a worker is registered with is its own. -/
theorem Registry.own_of_leaves (h : Registry s) (hl : Leaves z s w sender f s1 outs)
    (hw : s.clients[w]? = some sender) : sender.filename = f := by
  obtain ⟨workers, hf, hin, -⟩ := hl.maps
  exact fileOf_unique ⟨sender, hw, rfl⟩ (h.own f workers w hf hin).2

theorem Registry.setWorker (h : Registry s) {worker : ServerWorker} (db : Database)
    (hw : s.clients[w]? = some sender) (hf : worker.filename = sender.filename) :
    Registry { s.setWorker w worker with db } := by
  refine h.congr (fun v g => ?_) rfl fun _ => Iff.rfl
  rw [fileOf_insert (w := w) worker rfl]
  split_ifs with hv
  · subst hv
    rw [hf]
    simp [FileOf, hw]
  · rfl

theorem Granted.bucket {db db' : Database} {username filename : QString}
    (h : Granted d db username filename db') : db'.bucket = db.bucket := by
  obtain ⟨r, link, h, -⟩ := h
  rcases Mongo.newFile_db h with rfl | ⟨file, rfl⟩ <;> rfl

/-- A new worker has no file. -/
theorem Registry.connect (h : Registry s) (hw : w ∉ s.clients) :
    Registry (s.setWorker w .fresh) := by
  have hnew : ∀ g, ¬ FileOf s w g := fun g ⟨x, hx, _⟩ => hw (Table.mem_of_getElem? hx)
  have hfile : ∀ v g, FileOf (s.setWorker w .fresh) v g ↔
      if v = w then ServerWorker.fresh.filename = g else FileOf s v g :=
    fun v g => fileOf_insert _ rfl
  refine ⟨fun v g hv hg => ?_, fun g list v hg hv => ?_, h.nonempty, h.keys⟩
  · rw [hfile] at hv
    split_ifs at hv
    · exact absurd hv.symm hg
    · exact h.once v g hv hg
  · obtain ⟨hne, hown⟩ := h.own g list v hg hv
    refine ⟨hne, (hfile v g).mpr ?_⟩
    rwa [if_neg]
    rintro rfl
    exact hnew g hown

/-- A worker without a file goes. -/
theorem Registry.disconnect (h : Registry s) (hw : FileOf s w []) :
    Registry { s with clients := s.clients.erase w } := by
  refine ⟨fun v g hv hg => ?_, fun g list v hg hv => ?_, h.nonempty, h.keys⟩
  · exact h.once v g ((fileOf_erase (w := w) rfl).mp hv).2 hg
  · obtain ⟨hne, ho⟩ := h.own g list v hg hv
    refine ⟨hne, (fileOf_erase (w := w) rfl).mpr ⟨?_, ho⟩⟩
    rintro rfl
    exact hne (fileOf_unique ho hw)

/-- **Every orderly event keeps the registry.** -/
theorem Registry.step (h : Registry s) (hp : e.Possible s) (ho : Orderly s ⟨e, d⟩)
    (he : Effect z d s e s' outs) : Registry s' := by
  cases he with
  | connected he =>
    subst he
    exact h.connect hp
  | answered => exact h
  | stored => exact h.congr (fun _ _ => Iff.rfl) rfl fun _ => Iff.rfl
  | loggedIn he hw => exact h.setWorker s.db hw rfl
  | renamed ha => exact h.setWorker _ ha.worker rfl
  | @operated t s' outs _ hop =>
    refine h.congr (fun v g => by simp only [FileOf, hop.clients]) hop.mapFileWorkers fun g => ?_
    rcases hop.memory with ⟨-, hm⟩ | ⟨symbols, hs, hm⟩
    · rw [hm]
    · rw [hm, Table.mem_insert, or_iff_right_of_imp]
      rintro rfl
      exact Table.mem_of_getElem? hs
  | @created w sender doc message username filename db' s' ha hfields hgr hc =>
    have hfresh : fileKey filename username ∉ s.db.bucket := hgr.bucket ▸ hc.fresh
    obtain ⟨hfile, hmap⟩ := ho.creates w sender doc username filename db' ha hfields hgr hfresh
    have hm := hc.mapFileWorkers
    rw [← List.nil_append [w]] at hm
    refine h.enter ⟨sender, ha.worker, hfile⟩ (fileKey_ne_nil filename username)
      (fun v g => fileOf_insert _ hc.clients) ?_ fun g => ?_
    · rw [hm, Table.not_mem_iff.mp hmap]
      rfl
    · rcases hc.memory with ⟨hin, -⟩ | ⟨-, hsym, -⟩
      · exact absurd ((h.keys _).mp hin) hmap
      · rw [hsym, Table.mem_insert]
  | @opened w sender doc filename content s' outs ha hfield hopen =>
    refine h.enter ⟨sender, ha.worker, ho.opens w sender doc filename ha hfield⟩
      (textField_ne_nil hfield) (fun v g => fileOf_insert _ hopen.clients) hopen.mapFileWorkers
      fun g => ?_
    rcases hopen.memory with ⟨symbols, hs, -, hm, -⟩ | ⟨-, -, hm, -⟩
    · rw [hm, iff_or_self]
      rintro rfl
      exact Table.mem_of_getElem? hs
    · rw [hm, Table.mem_insert]
  | @closed w sender doc message filename s1 outs ha _ hl =>
    have hown := h.own_of_leaves hl ha.worker
    obtain ⟨workers, hf, -, hcl, hmap, hkeys⟩ := hl.maps
    refine h.leave ⟨sender, ha.worker, hown⟩ hf (fun v g hg => ?_) hmap (hown ▸ hkeys)
    rw [fileOf_insert (w := w) { sender with filename := [] }
      (by rw [Server.setWorker, hcl])]
    split_ifs with hv
    · simpa [hv] using hg.symm
    · simp [hv, FileOf, hcl]
  | @disconnected w sender _ hw hn =>
    have hnil : sender.filename = [] := by
      by_contra hne
      obtain ⟨list, hl, hc⟩ := h.once w sender.filename ⟨sender, hw, rfl⟩ hne
      exact hn.elim hne fun hr => hr ⟨list, hl, List.count_pos_iff.mp (by omega)⟩
    exact h.disconnect ⟨sender, hw, hnil⟩
  | @left w sender s' outs _ hw hne hl =>
    obtain ⟨workers, hf, -, hcl, hmap, hkeys⟩ := hl.maps
    exact h.leave ⟨sender, hw, rfl⟩ hf (fun v g _ => fileOf_erase hcl) hmap hkeys
  | saved _ hs =>
    refine h.congr (fun v g => by simp only [FileOf, hs.clients]) hs.mapFileWorkers fun g => ?_
    rw [hs.symbolsList]

/-! ## Delivery -/

/-- The operation goes once to each other worker of which the file is that of the sender, and to
nobody else. -/
structure Delivered (s : Server) (t : Taken) (outs : List Output) : Prop where
  sender : FileOf s t.sender t.filename
  packets : ∀ o ∈ outs, o.packet = t.packet
  nodup : (outs.map Output.destination).Nodup
  others : ∀ v, v ∈ outs.map Output.destination ↔ v ≠ t.sender ∧ FileOf s v t.filename

theorem fileOf_of_operationOf {t : Taken} (h : operationOf z s e = some t) :
    FileOf s t.sender t.filename := by
  cases sends_of_operationOf h with
  | json hw | byteArray hw => exact ⟨_, hw, rfl⟩

theorem Registry.nodup (h : Registry s) {list : List WorkerId}
    (hl : s.mapFileWorkers[f]? = some list) : list.Nodup := by
  refine List.nodup_iff_count_le_one.mpr ?_
  intro v
  by_cases hv : v ∈ list
  · obtain ⟨hne, hown⟩ := h.own f list v hl hv
    obtain ⟨list', hl', hc⟩ := h.once v f hown hne
    cases hl.symm.trans hl'
    exact hc.le
  · rw [List.count_eq_zero_of_not_mem hv]
    exact Nat.zero_le 1

theorem Registry.mem_iff (h : Registry s) {list : List WorkerId}
    (hl : s.mapFileWorkers[f]? = some list) (v : WorkerId) : v ∈ list ↔ FileOf s v f := by
  refine ⟨fun hv => (h.own f list v hl hv).2, fun hv => ?_⟩
  obtain ⟨u, hu⟩ := List.exists_mem_of_ne_nil list (h.nonempty f list hl)
  obtain ⟨list', hl', hc⟩ := h.once v f hv (h.own f list u hl hu).1
  cases hl.symm.trans hl'
  exact List.count_pos_iff.mp (by omega)

theorem Registry.delivered (h : Registry s) {t : Taken} (ht : operationOf z s e = some t)
    (hop : Operated s t.sender t.filename t.operation t.packet s' outs) : Delivered s t outs := by
  obtain ⟨list, hf⟩ := hop.outs
  have hdest : outs.map Output.destination = list.filter (· ≠ t.sender) := by
    rw [hf.outs, List.map_map]
    exact List.map_id _
  refine ⟨fileOf_of_operationOf ht, fun o ho => ?_, ?_, fun v => ?_⟩
  · rw [hf.outs] at ho
    obtain ⟨v, -, rfl⟩ := List.mem_map.mp ho
    rfl
  · rw [hdest]
    exact (h.nodup hf.entry).filter _
  · rw [hdest, List.mem_filter, h.mem_iff hf.entry, and_comm, decide_eq_true_eq]

/-- An operation has no other effect than to be carried out. -/
theorem Effect.operated_of {t : Taken} (ht : operationOf z s e = some t)
    (h : Effect z d s e s' outs) :
    Operated s t.sender t.filename t.operation t.packet s' outs := by
  have hnone : operationOf z s e ≠ none := by rw [ht]; nofun
  cases h with
  | connected he => exact absurd (he ▸ rfl) hnone
  | answered hn => exact absurd hn hnone
  | stored hn => exact absurd hn hnone
  | loggedIn he hw hn => exact absurd (he ▸ operationOf_loggedOut hw hn) hnone
  | renamed ha => exact absurd (ha.operationOf nofun) hnone
  | operated ht' hop =>
    cases ht.symm.trans ht'
    exact hop
  | created ha => exact absurd (ha.operationOf nofun) hnone
  | opened ha => exact absurd (ha.operationOf nofun) hnone
  | closed ha => exact absurd (ha.operationOf nofun) hnone
  | disconnected he => exact absurd (he ▸ rfl) hnone
  | left he => exact absurd (he ▸ rfl) hnone
  | saved he => exact absurd (he ▸ rfl) hnone

end Step

/-! ## Replaying a run -/

instance (s : Server) (e : Event) : Decidable (e.Possible s) := by
  cases e <;> unfold Event.Possible <;> infer_instance

/-- The step that an input leads to, if there is one. -/
def attempt (z : Codec) (s : Server) (i : Input) : Option (List Output × Server) :=
  if i.event.Possible s then (s.handle z i.driver i.event).toOption.map Prod.swap else none

theorem serverRun_of_replay {z : Codec} {db : Database} {is : List Input} {h : History} {s : Server}
    (hr : Run.replay (attempt z) (Server.start db) is = some (h, s)) : ServerRun z db h s := by
  refine Run.of_replay (fun s i outs s' hs => ?_) hr
  unfold attempt at hs
  split at hs
  case isFalse => cases hs
  case isTrue hp =>
    refine ⟨hp, ?_⟩
    cases hh : s.handle z i.driver i.event with
    | error f => simp [hh, Except.toOption] at hs
    | ok r => simpa [hh, Except.toOption, Prod.ext_iff, and_comm] using hs

/-- What can be computed of a replay holds of a run. -/
theorem exists_run (z : Codec) (db : Database) (is : List Input) {P : History → Server → Bool}
    (hr : (Run.replay (attempt z) (Server.start db) is).any (fun r => P r.1 r.2) = true) :
    ∃ h s, ServerRun z db h s ∧ P h s = true := by
  obtain ⟨⟨h, s⟩, hr, hP⟩ := (Option.any_eq_true _ _).mp hr
  exact ⟨h, s, serverRun_of_replay hr, hP⟩

section Inputs

/-- Nothing fails, and passwords are kept as they are. -/
def Driver.plain : Driver :=
  ⟨fun _ => false, true, some, fun stored password => stored = password,
    [QString.of "x", QString.of "y"]⟩

/-- Bytes are kept as they are, and no bytes are JSON. -/
def Codec.plain : Codec := ⟨id, id, fun _ => .error⟩

/-- Some users with the password `pw`. -/
def Database.ofNames (names : List String) : Database where
  users := names.foldl (fun users name => users.insert (QString.of name)
    ⟨QString.of name, QString.of "pw", [], []⟩) ∅
  images := ∅
  bucket := ∅

def loginDoc (username : String) : QJsonObject :=
  object [("type", text "login"), ("username", text username), ("password", text "pw")]

def openDoc (filename : String) : QJsonObject :=
  object [("type", text "file_to_open"), ("filename", text filename)]

def renameDoc (username nickname : String) : QJsonObject :=
  object [("type", text "nickname"), ("username", text username), ("nickname", text nickname)]

def inputs (events : List Event) : List Input := events.map (⟨·, .plain⟩)

end Inputs

/-! ## Runs of orderly requests -/

section Runs

variable {z : Codec} {db : Database} {h : History} {s : Server}

theorem registry_of_run (hrun : ServerRun z db h s)
    (ho : ∀ e ∈ h, Orderly e.before e.input) : Registry s :=
  hrun.invariant (I := fun _ s => Registry s) ho (registry_start db)
    fun _ _ _ _ _ hreg ho hstep => hreg.step hstep.1 ho hstep.effect

/-- **The registry, and exact delivery.** In every run of orderly requests. -/
theorem registry_kept (hrun : ServerRun z db h s)
    (ho : ∀ e ∈ h, Orderly e.before e.input) :
    Registry s ∧ ∀ e ∈ h, ∀ t, operationOf z e.before e.input.event = some t →
      Delivered e.before t e.output := by
  refine ⟨registry_of_run hrun ho, fun e he t ht => ?_⟩
  obtain ⟨hstep, a, b, rfl, ha⟩ := hrun.entry he
  have hreg := registry_of_run ha fun e' he' => ho e' (by simp [he'])
  exact hreg.delivered ht (hstep.effect.operated_of ht)

/-- Two users have a file open, and one of them sends a cursor. -/
theorem registry_kept_cursor : ∃ h s, ServerRun .plain (.ofNames ["u", "v"]) h s ∧
    h.length = 7 ∧ Registry s ∧ ∀ e ∈ h, ∀ t, operationOf .plain e.before e.input.event = some t →
      Delivered e.before t e.output := by
  obtain ⟨h, s, hrun, hP⟩ := exists_run .plain (.ofNames ["u", "v"])
    (inputs [.incomingConnection 0, .incomingConnection 1, .jsonReceived 0 (loginDoc "u"),
      .jsonReceived 1 (loginDoc "v"), .jsonReceived 0 (openDoc "f,u"),
      .jsonReceived 1 (openDoc "f,u"), .jsonReceived 1 (object [("type", text "operation"),
        ("operation_type", .double 5)])])
    (P := fun h _ => h.length = 7 ∧ h.all fun e => orderlyCheck e.before e.input)
    (by decide +kernel)
  simp only [Bool.decide_and, Bool.and_eq_true, decide_eq_true_eq, List.all_eq_true]
    at hP
  have hkept := registry_kept hrun fun e he => orderly_of_check (hP.2 e he)
  exact ⟨h, s, hrun, hP.1, hkept⟩

/-- **A worker that opens a second file stays in the list of the first.** -/
theorem not_registry_second_file : ¬ ∀ z db h s, ServerRun z db h s → Registry s ∧
    ∀ e ∈ h, ∀ t, operationOf z e.before e.input.event = some t →
      Delivered e.before t e.output := by
  intro hall
  obtain ⟨h, s, hrun, hP⟩ := exists_run .plain (.ofNames ["u"])
    (inputs [.incomingConnection 0, .jsonReceived 0 (loginDoc "u"),
      .jsonReceived 0 (openDoc "f,u"), .jsonReceived 0 (openDoc "g,u")])
    (P := fun _ s => s.mapFileWorkers[QString.of "f,u"]? = some [0] ∧
      (s.clients[0]?).map ServerWorker.filename = some (QString.of "g,u"))
    (by decide +kernel)
  simp only [Bool.decide_and, Bool.and_eq_true, decide_eq_true_eq] at hP
  obtain ⟨hlist, hfile⟩ := hP
  obtain ⟨worker, hw, hg⟩ := Option.map_eq_some_iff.mp hfile
  have hown := ((hall _ _ h s hrun).1.own _ _ 0 hlist (by simp)).2
  exact absurd (fileOf_unique hown ⟨worker, hw, hg⟩) (by decide +kernel)

end Runs

end Scriba.Server
