import Scriba.Server.Storage
import Scriba.System.Packets

/-! # What the server does for its clients

For each message of a client: what becomes of the files and of the workers, and what each client is
sent (`Serves`). What is kept of a file that is not open reads as the values of its map. -/

namespace Scriba.System

open Scriba.Utility Scriba.Client Scriba.Server Scriba.Lib

/-! ## Stored symbols -/

/-- The symbols of the file are stored in the order of their keys. -/
def Written (z : Codec) (db : Database) (f : QString) : Prop :=
  ∃ content, db.bucket[f]? = some content ∧
    readSymbols (z.qUncompress content) = (decoded z db f).values

section Written

variable {z : Codec} {d : Driver} {s s' : Server} {e : Server.Event} {outs : List Output}
  {f : QString}

theorem values_of_equiv {a b : SymbolMap} (h : a.Equiv b) : a.values = b.values := by
  rw [SymbolMap.values, SymbolMap.values, h.toList_eq]

theorem Written.congr {db db' : Database} (h : Written z db f)
    (hb : db'.bucket[f]? = db.bucket[f]?) : Written z db' f := by
  obtain ⟨content, hc, hv⟩ := h
  exact ⟨content, hb.trans hc, by rw [decoded_congr hb, hv]⟩

theorem Written.mem (h : Written z s.db f) : f ∈ s.db.bucket :=
  Table.mem_of_getElem? h.choose_spec.1

/-- A save writes the values of a map. -/
theorem Written.saved (hz : ∀ data, z.qUncompress (z.qCompress data) = data)
    (hk : ∀ symbols : SymbolMap, s.symbolsList[f]? = some symbols → symbols.Kept)
    (h : Written z s.db f) (hs : Saved z s s') : Written z s'.db f := by
  have hcontent := hs.content f
  rw [savedContent] at hcontent
  split at hcontent
  · exact h.congr hcontent
  case h_2 symbols hm =>
    split at hcontent
    case isTrue hc =>
      have hlen := hs.small f symbols hm (by simp) hc.1
      obtain ⟨hcount, hstorable⟩ := storable_of_length (fun r hr => (hk symbols hm).inRange hr) hlen
      have hread : readSymbols (z.qUncompress (z.qCompress (writeSymbols symbols.values))) =
          symbols.values := by
        rw [hz, readSymbols_write hcount hstorable]
      refine ⟨_, hcontent, hread.trans ?_⟩
      rw [decoded, hcontent, Option.map_some, Option.getD_some, hread]
      exact values_of_equiv (hk symbols hm).store_values.symm
    case isFalse => exact h.congr hcontent

theorem Written.leaves {w : WorkerId} {sender : ServerWorker} {g : QString}
    (hz : ∀ data, z.qUncompress (z.qCompress data) = data)
    (hk : ∀ symbols : SymbolMap, s.symbolsList[f]? = some symbols → symbols.Kept)
    (h : Written z s.db f) (hl : Leaves z s w sender g s' outs) : Written z s'.db f := by
  cases hl with
  | @last workers s1 _ _ _ hsaved =>
    have h1 : Written z s1.db f :=
      Written.saved (s := { s with mapFileWorkers := s.mapFileWorkers.erase g }) hz hk h hsaved
    exact h1
  | others => exact h

/-- **Every event keeps what is stored in order.** -/
theorem Written.effect (hz : ∀ data, z.qUncompress (z.qCompress data) = data) (hs : Files s)
    (h : Written z s.db f) (he : Effect z d s e s' outs) : Written z s'.db f := by
  have hk := hs.kept f
  cases he with
  | connected | answered | loggedIn | disconnected => exact h
  | stored _ hst => exact h.congr (by rw [hst.bucket])
  | renamed _ _ hdb => rcases hdb with rfl | rfl <;> exact h
  | operated _ hop => exact h.congr (by rw [hop.db])
  | @created w sender doc message username filename db' s' _ _ hg hc =>
    refine h.congr ?_
    have hne : f ≠ fileKey filename username := by
      rintro rfl
      exact hc.fresh (hg.bucket ▸ h.mem)
    rw [hc.db, Table.getElem?_insert, if_neg hne, hg.bucket]
  | opened _ _ ho => exact h.congr (by rw [ho.db])
  | @closed w sender doc message filename s1 outs _ _ hl =>
    have h1 : Written z s1.db f := h.leaves hz hk hl
    exact h1
  | @left w sender s' outs _ _ _ hl =>
    exact Written.leaves (s := { s with clients := s.clients.erase w }) hz hk h hl
  | saved _ hsaved => exact h.saved hz hk hsaved

/-- The content that is sent of a file is that of its map. -/
theorem opened_content {w : WorkerId} {sender : ServerWorker} {content : Option (List Symbol)}
    (h : Written z s.db f) (ho : Opened z s w sender f content s') :
    ∃ symbols, s'.symbolsList[f]? = some symbols ∧ content = some symbols.values := by
  rcases ho.memory with ⟨symbols, hm, hc, hs, -⟩ | ⟨-, hc, hs, -⟩
  · exact ⟨symbols, by rw [hs, hm], hc⟩
  · obtain ⟨data, hdata, hv⟩ := h
    have hc' : content = some (decoded z s.db f).values := by
      rw [hc, hdata, Option.map_some, hv]
    refine ⟨decoded z s.db f, ?_, hc'⟩
    rw [hs, Table.getElem?_insert, if_pos rfl, hc, hdata, decoded, hdata]

end Written

/-! ## Serving -/

/-- The worker is logged in, and has the file. -/
def LoggedIn (s : Server) (w : WorkerId) (f : QString) : Prop :=
  ∃ worker, s.clients[w]? = some worker ∧ worker.nickname ≠ [] ∧ worker.filename = f

/-- A message of the worker is handled. The operation in it is carried out on the file of the
worker, and goes once to each other worker that has this file; of the others nobody else is sent
one. -/
structure Serves (z : Codec) (toJson : QJsonObject → QByteArray) (s : Server) (w : WorkerId)
    (o : Option Message) (s' : Server) (outs : List Output) : Prop where
  files : Files s'
  workers : ∀ v, v ≠ w → s'.clients[v]? = s.clients[v]?
  durable : ∀ f symbols, WriteBack.Durable Std.TreeMap.Equiv symbols (fileStore z s f) →
    WriteBack.Durable Std.TreeMap.Equiv
      (if fileOf s w = f then o.elim symbols (SymbolMap.store symbols) else symbols)
      (fileStore z s' f)
  written : ∀ f, Written z s.db f → Written z s'.db f
  others : ∀ v, v ≠ w → v ∈ s.clients →
    Bring z toJson (addressed outs v) (if fileOf s v = fileOf s w then o.toList else [])

section Addressed

variable {s : Server} {v w : WorkerId} {f : QString} {packet : Packet} {outs : List Output}

theorem addressed_append (outs' : List Output) (v : WorkerId) :
    addressed (outs ++ outs') v = addressed outs v ++ addressed outs' v := by
  simp [addressed]

theorem addressed_eq_nil (h : ∀ o ∈ outs, o.destination ≠ v) : addressed outs v = [] := by
  rw [addressed, List.filter_eq_nil_iff.mpr fun o ho => by simpa using h o ho]
  rfl

theorem mem_addressed : packet ∈ addressed outs v ↔ ⟨v, packet⟩ ∈ outs := by
  simp only [addressed, List.mem_map, List.mem_filter, decide_eq_true_eq]
  constructor
  · intro h
    obtain ⟨⟨_, _⟩, ⟨ho, rfl⟩, rfl⟩ := h
    exact ho
  · exact fun h => ⟨_, ⟨h, rfl⟩, rfl⟩

theorem addressed_forward {list : List WorkerId} (h : list.Nodup) (v : WorkerId) :
    addressed (list.map fun u => ⟨u, packet⟩) v = if v ∈ list then [packet] else [] := by
  induction list with
  | nil => rfl
  | cons u list ih =>
    obtain ⟨hu, hlist⟩ := List.nodup_cons.mp h
    have hrest := ih hlist
    rw [addressed] at hrest ⊢
    by_cases hv : u = v
    · subst hv
      simp [hrest, hu]
    · simpa [hv, Ne.symm hv] using hrest

theorem LoggedIn.fileOf_eq (h : LoggedIn s w f) : fileOf s w = f := by
  obtain ⟨worker, hw, -, hf⟩ := h
  rw [fileOf, hw]
  exact hf

theorem LoggedIn.mem (h : LoggedIn s w f) : w ∈ s.clients :=
  Table.mem_of_getElem? h.choose_spec.1

theorem fileOf_iff (h : v ∈ s.clients) : FileOf s v f ↔ fileOf s v = f := by
  obtain ⟨worker, hw⟩ := Table.exists_of_mem h
  simp [FileOf, fileOf, hw]

theorem fileOf_congr {s' : Server} (h : s'.clients[v]? = s.clients[v]?) :
    fileOf s' v = fileOf s v := by
  rw [fileOf, h, fileOf]

theorem LoggedIn.congr {s' : Server} (h : LoggedIn s v f)
    (hc : s'.clients[v]? = s.clients[v]?) : LoggedIn s' v f := by
  obtain ⟨worker, hw, hn, hf⟩ := h
  exact ⟨worker, hc.trans hw, hn, hf⟩

end Addressed

section Serves

variable {z : Codec} {toJson : QJsonObject → QByteArray} {d : Driver} {s s' : Server}
  {w : WorkerId} {sender : ServerWorker} {outs : List Output} {m : Message} {doc : QJsonObject}

/-- An event without an operation, in terms of its packets. -/
theorem serves_quiet {e : Server.Event} (hz : ∀ data, z.qUncompress (z.qCompress data) = data)
    (hs : Files s) (hp : e.Possible s) (hw : WellFormed s ⟨e, d⟩)
    (hop : operationOf z s e = none) (h : s.handle z d e = .ok (s', outs))
    (hworkers : ∀ v, v ≠ w → s'.clients[v]? = s.clients[v]?)
    (hquiet : ∀ v, v ≠ w → ∀ packet ∈ addressed outs v, Brings z toJson packet none) :
    Serves z toJson s w none s' outs := by
  have he : Effect z d s e s' outs := handle_effect h
  refine ⟨hs.step hp hw he, hworkers, fun f symbols hd => ?_, fun f hf => hf.effect hz hs he,
    fun v hv _ => ?_⟩
  · have hstep := he.fileStep (reads_equiv hz) hs f
    rw [operationOn, hop] at hstep
    have hnext := hd.step ⟨fun _ => .rfl, .symm, .trans⟩ (fun op _ _ hab => op.apply_equiv hab)
      hstep
    simpa using hnext
  · simpa using Bring.of_none (hquiet v hv)

/-- An operation, in terms of its packet. -/
theorem serves_operated {f : QString} {op : Operation} {packet : Packet} {o : Option Message}
    {e : Server.Event} (hz : ∀ data, z.qUncompress (z.qCompress data) = data) (hs : Files s)
    (hp : e.Possible s) (hwf : WellFormed s ⟨e, d⟩) (hw : LoggedIn s w f)
    (h : s.handle z d e = .ok (s', outs)) (hop : Operated s w f op packet s' outs)
    (happly : ∀ symbols, op.apply symbols = o.elim symbols (SymbolMap.store symbols))
    (hb : Brings z toJson packet o) :
    Serves z toJson s w o s' outs ∧ LoggedIn s' w f ∧ addressed outs w = [] := by
  have he : Effect z d s e s' outs := handle_effect h
  obtain ⟨list, hl⟩ := hop.outs
  have hnd : (list.filter (· ≠ w)).Nodup := (hs.registry.nodup hl.entry).filter _
  refine ⟨⟨hs.step hp hwf he, fun v _ => by rw [hop.clients], fun g symbols hd => ?_,
    fun g hg => hg.effect hz hs he, fun v hv hin => ?_⟩, hw.congr (by rw [hop.clients]), ?_⟩
  · have hstep := hop.fileStep (r := Std.TreeMap.Equiv) (z := z) hs g
    have hnext := hd.step ⟨fun _ => .rfl, .symm, .trans⟩ (fun op _ _ hab => op.apply_equiv hab)
      hstep
    rw [hw.fileOf_eq, ← happly]
    split_ifs at hnext ⊢ with hg
    · exact hnext
    · exact hnext
  · rw [hl.outs, addressed_forward hnd, hw.fileOf_eq]
    have hmem : v ∈ list.filter (· ≠ w) ↔ fileOf s v = f := by
      rw [List.mem_filter, hs.registry.mem_iff hl.entry, fileOf_iff hin]
      simp [hv]
    simp only [hmem]
    split_ifs
    · cases o with
      | none => exact .other hb .nil
      | some m => exact .operation hb .nil
    · exact .nil
  · rw [hl.outs, addressed_forward hnd, if_neg (by simp)]

/-- Only requests for files can be ill-formed. -/
theorem wellFormed_of_request {r : LoggedInRequest}
    (hr : LoggedInRequest.of doc = some r) (hopen : r ≠ .fileToOpen)
    (hnew : r ≠ .newFile) : WellFormed s ⟨.jsonReceived w doc, d⟩ := by
  constructor
  · intro v sender doc' filename ha _
    cases ha.event
    exact absurd (Option.some.inj (hr.symm.trans ha.request)) hopen
  · intro v sender doc' username filename db' ha _ _ _
    cases ha.event
    exact absurd (Option.some.inj (hr.symm.trans ha.request)) hnew

theorem wellFormed_byteArray {data : QByteArray} :
    WellFormed s ⟨.byteArrayReceived w data, d⟩ := by
  constructor
  · intro v sender doc filename ha _
    cases ha.event
  · intro v sender doc username filename db' ha _ _ _
    cases ha.event

theorem wellFormed_operation (siteId : Int) (m : Message) :
    WellFormed s ⟨eventOf w (Client.payload toJson (m.parts siteId)), d⟩ := by
  have hjson : ∀ type r, WellFormed s ⟨.jsonReceived w (symbolMessage siteId type r), d⟩ :=
    fun type r => wellFormed_of_request (r := .operation)
      (requestOf_of_hasType (hasType_symbolMessage type r) rfl) (by simp) (by simp)
  cases m with
  | insert r | align r | changeSymbol r => exact hjson _ r
  | paste | change | erase => exact wellFormed_byteArray

theorem possible_payload (hw : w ∈ s.clients) (callback : Callback QJsonObject) :
    (eventOf w callback).Possible s := by
  cases callback <;> exact hw

/-- **An operation** of a client. -/
theorem serves_operation (hz : ∀ data, z.qUncompress (z.qCompress data) = data) (hs : Files s)
    {f : QString} (hw : LoggedIn s w f) {siteId : Int} (hm : heard m = [m])
    (hr : ∀ r ∈ carried m, r.InRange) (hl : Legible z toJson siteId m)
    (h : s.handle z d (eventOf w (Client.payload toJson (m.parts siteId))) = .ok (s', outs)) :
    Serves z toJson s w (some m) s' outs ∧ LoggedIn s' w f ∧ addressed outs w = [] := by
  obtain ⟨operation, packet, ht⟩ := exists_travels hr hl
  obtain ⟨sender, hsender, hn, hf⟩ := id hw
  have hop := operate_ok ((ht.handled d s w sender hsender hn).symm.trans h)
  rw [hf] at hop
  refine serves_operated hz hs (possible_payload hw.mem _) (wellFormed_operation siteId m) hw h hop
    ht.stored fun c => ?_
  obtain ⟨signals, hrec, hops, hopened, hchosen⟩ := ht.heard c
  exact ⟨c.files, signals, hrec, hops.trans hm, hopened, hchosen⟩

variable (toJson) in
/-- A cursor. -/
theorem serves_cursor (hz : ∀ data, z.qUncompress (z.qCompress data) = data) (hs : Files s)
    {f : QString} (hw : LoggedIn s w f) {siteId : Int} {r : Symbol}
    (h : s.handle z d (.jsonReceived w (symbolMessage siteId .cursor r)) = .ok (s', outs)) :
    Serves z toJson s w none s' outs ∧ LoggedIn s' w f ∧ addressed outs w = [] := by
  obtain ⟨sender, hsender, hn, hf⟩ := id hw
  have hop := operate_ok ((handle_symbolMessage .cursor r hsender hn).symm.trans h)
  rw [hf] at hop
  have hnone : Operation.ofJson (symbolMessage siteId .cursor r) = .store [] := by
    rw [Operation.ofJson, operationType_symbolMessage]
  have hwf : WellFormed s ⟨.jsonReceived w (symbolMessage siteId .cursor r), d⟩ :=
    wellFormed_of_request (r := .operation)
      (requestOf_of_hasType (hasType_symbolMessage .cursor r) rfl) (by simp) (by simp)
  exact serves_operated hz hs (possible_payload hw.mem (.jsonReceived _)) hwf hw h hop
    (fun symbols => by rw [hnone]; rfl) (brings_cursor siteId r)

/-- The requests that only have a reply in JSON. -/
def askedRequests : List LoggedInRequest :=
  [.nickname, .password, .checkOldPassword, .listFiles, .listSharedFiles]

theorem asked_ok {request : LoggedInRequest} (hreq : LoggedInRequest.of doc = some request)
    (hmem : request ∈ askedRequests) (h : s.jsonFromLoggedIn z d w sender doc = .ok (s', outs)) :
    (s'.clients = s.clients ∨
      ∃ nickname, nickname ≠ [] ∧ s'.clients = s.clients.insert w { sender with nickname }) ∧
    ∃ message type, outs = [⟨w, .json message⟩] ∧ message.value "type" = text type ∧
      type ∈ ["nickname", "password", "old_password_checked", "list_files", "close",
        "disconnection"] := by
  simp only [jsonFromLoggedIn, hreq] at h
  simp only [askedRequests, List.mem_cons, List.not_mem_nil, or_false] at hmem
  rcases hmem with rfl | rfl | rfl | rfl | rfl
  · obtain ⟨⟨s1, message⟩, hu, h⟩ := map_eq_ok.mp h
    cases h
    rcases updateNick_ok hu with ⟨-, rfl, hm⟩ | ⟨u, n, r, db', hf, -, rfl, hm⟩
    · exact ⟨.inl rfl, _, _, rfl, hm.type, by simp⟩
    · obtain ⟨u', -, hf⟩ := bind_eq_ok.mp hf
      obtain ⟨n', hn', hf⟩ := bind_eq_ok.mp hf
      cases hf
      exact ⟨.inr ⟨n, textField_ne_nil hn', rfl⟩, _, _, rfl, hm.type, by simp⟩
  · obtain ⟨⟨s1, message⟩, hu, h⟩ := map_eq_ok.mp h
    cases h
    rcases updatePass_ok hu with ⟨-, rfl, hm⟩ | ⟨u, o, n, r, db', -, -, rfl, hm⟩
    · exact ⟨.inl rfl, _, _, rfl, hm.type, by simp⟩
    · exact ⟨.inl rfl, _, _, rfl, hm.type, by simp⟩
  · cases h
    rcases checkOldPass_isReply d s doc with hm | ⟨u, o, hf, hm⟩
    · exact ⟨.inl rfl, _, _, rfl, hm.type, by simp⟩
    · exact ⟨.inl rfl, _, _, rfl, hm.type, by simp⟩
  all_goals
    cases h
    rcases getFiles_isReply d s doc _ with ⟨-, hm⟩ | ⟨u, hf, hm⟩
    · exact ⟨.inl rfl, _, _, rfl, hm.type, by simp⟩
    · exact ⟨.inl rfl, _, _, rfl, hm.type, by simp⟩

variable (toJson) in
/-- **A request that is not about a file.** -/
theorem serves_ask (hz : ∀ data, z.qUncompress (z.qCompress data) = data) (hs : Files s)
    {f : QString} (hw : LoggedIn s w f) {request : LoggedInRequest}
    (hreq : LoggedInRequest.of doc = some request) (hmem : request ∈ askedRequests)
    (h : s.handle z d (.jsonReceived w doc) = .ok (s', outs)) :
    Serves z toJson s w none s' outs ∧ LoggedIn s' w f ∧
      ∀ packet ∈ addressed outs w, Brings z toJson packet none := by
  obtain ⟨sender, hsender, hn, hf⟩ := id hw
  have hasked : s.jsonFromLoggedIn z d w sender doc = .ok (s', outs) := by
    rw [← h, Server.handle, withWorker, hsender]
    dsimp only
    rw [Server.jsonReceived, if_neg hn]
  obtain ⟨hclients, message, type, rfl, htype, hin⟩ := asked_ok hreq hmem hasked
  have ha : Asks s (.jsonReceived w doc) w sender request doc := ⟨rfl, hsender, hn, hreq⟩
  have hne : request ≠ .fileToOpen ∧ request ≠ .newFile ∧ request ≠ .operation := by
    simp only [askedRequests, List.mem_cons, List.not_mem_nil, or_false] at hmem
    rcases hmem with rfl | rfl | rfl | rfl | rfl <;> simp
  refine ⟨serves_quiet hz hs (possible_payload hw.mem (.jsonReceived doc))
    (wellFormed_of_request hreq hne.1 hne.2.1) (ha.operationOf hne.2.2) h (fun v hv => ?_)
    fun v hv packet hp => ?_, ?_, fun packet hp => ?_⟩
  · rcases hclients with hc | ⟨nickname, -, hc⟩
    · rw [hc]
    · rw [hc, Table.getElem?_insert, if_neg hv]
  · exact absurd (congrArg Output.destination (List.mem_singleton.mp (mem_addressed.mp hp))) hv
  · rcases hclients with hc | ⟨nickname, hnick, hc⟩
    · exact hw.congr (by rw [hc])
    · exact ⟨{ sender with nickname }, by rw [hc, Table.getElem?_insert, if_pos rfl], hnick, hf⟩
  · cases List.mem_singleton.mp (mem_addressed.mp hp)
    exact brings_json htype hin

/-! ## Opening -/

/-- The reply to a file that is opened. -/
theorem sendFile_reply (h : s.sendFile z d w sender doc = .ok (s', outs)) {f : QString}
    (hf : sendFileField doc = .ok f) : ∃ message vec images others,
      outs = ⟨w, .fileContentImage message vec images⟩ :: others ∧
      ((∃ users sharedLink, message = accept "file_to_open" [("filename", .string f),
        ("tot_symbols", .double vec.length), ("users", .array users),
        ("shared_link", .string sharedLink)]) ∨ IsReply "file_to_open" false message) := by
  unfold sendFile at h
  rw [hf] at h
  obtain ⟨users, -, h⟩ := bind_eq_ok.mp h
  obtain ⟨content, -, h⟩ := bind_eq_ok.mp h
  obtain ⟨image, -, h⟩ := bind_eq_ok.mp h
  obtain ⟨others, -, h⟩ := bind_eq_ok.mp h
  cases h
  refine ⟨_, _, _, _, rfl, ?_⟩
  cases content with
  | none => exact .inr (isReply_refuse _ _)
  | some vec => exact .inl ⟨_, _, rfl⟩

/-- **A file that is opened.** The client is sent the symbols of its map. -/
theorem serves_open (hz : ∀ data, z.qUncompress (z.qCompress data) = data) (hs : Files s)
    {f : QString} (hw : LoggedIn s w []) (hfield : sendFileField (openFileMessage f) = .ok f)
    (hf : Written z s.db f)
    (h : s.handle z d (.jsonReceived w (openFileMessage f)) = .ok (s', outs))
    (hr : ∀ o ∈ outs, Readable z toJson o.packet)
    (hne : ∀ symbols : SymbolMap, s'.symbolsList[f]? = some symbols → symbols.values ≠ []) :
    Serves z toJson s w none s' outs ∧ LoggedIn s' w f ∧ ∃ symbols reply,
      s'.symbolsList[f]? = some symbols ∧ addressed outs w = [reply] ∧
      Replies z toJson reply f symbols.values := by
  obtain ⟨sender, hsender, hn, hnil⟩ := id hw
  have htype : HasType (openFileMessage f) "file_to_open" := ⟨_, rfl, by decide⟩
  have hreq : LoggedInRequest.of (openFileMessage f) = some .fileToOpen :=
    requestOf_of_hasType htype rfl
  have ha : Asks s (.jsonReceived w (openFileMessage f)) w sender .fileToOpen (openFileMessage f) :=
    ⟨rfl, hsender, hn, hreq⟩
  have hsend : s.sendFile z d w sender (openFileMessage f) = .ok (s', outs) := by
    rw [← h, Server.handle, withWorker, hsender]
    dsimp only
    rw [Server.jsonReceived, if_neg hn, jsonFromLoggedIn, hreq]
  obtain ⟨message, vec, images, others, hreply, hmessage⟩ := sendFile_reply hsend hfield
  rcases sendFile_ok hsend with ⟨⟨reason, hreason⟩, -⟩ | ⟨f', content, hf', ho, hann⟩
  · cases hfield.symm.trans hreason
  cases hfield.symm.trans hf'
  obtain ⟨symbols, hm, rfl⟩ := opened_content hf ho
  obtain ⟨message', images', notice, image, others', houts, hok, hnotice, hothers⟩ := hann.sent
  obtain ⟨hhead, htail⟩ := List.cons.inj (hreply.symm.trans houts)
  cases hhead
  have hwf : WellFormed s ⟨.jsonReceived w (openFileMessage f), d⟩ := by
    constructor
    · intro v sender' doc' g ha' hg
      cases ha'.event
      cases hsender.symm.trans ha'.worker
      cases hfield.symm.trans hg
      exact ⟨hnil, hf.mem⟩
    · intro v sender' doc' username g db' ha'
      cases ha'.event
      cases hreq.symm.trans ha'.request
  have hserves : Serves z toJson s w none s' outs := by
    refine serves_quiet hz hs (possible_payload hw.mem (.jsonReceived _)) hwf
      (ha.operationOf (by simp)) h (fun v hv => ?_) fun v hv packet hp => ?_
    · rw [ho.clients, Table.getElem?_insert, if_neg hv]
    · have hin := mem_addressed.mp hp
      have hread := hr _ hin
      rw [houts] at hin
      rcases List.mem_cons.mp hin with he | hin
      · exact absurd (congrArg Output.destination he) hv
      · obtain ⟨u, -, he⟩ := List.mem_map.mp hin
        cases he
        exact brings_connection hnotice hread
  refine ⟨hserves, ⟨{ sender with filename := f },
    by rw [ho.clients, Table.getElem?_insert, if_pos rfl], hn, rfl⟩, symbols,
    .fileContentImage message symbols.values images, hm, ?_, ?_⟩
  · have hrest : addressed (others'.map fun v => ⟨v, .byteArray notice image⟩) w = [] := by
      refine addressed_eq_nil fun o ho' => ?_
      obtain ⟨u, hu, rfl⟩ := List.mem_map.mp ho'
      rw [hothers] at hu
      exact of_decide_eq_true (List.mem_filter.mp hu).2
    rw [houts, ← List.singleton_append, addressed_append, hrest, List.append_nil]
    simp [addressed]
  · rcases hmessage with ⟨users, sharedLink, rfl⟩ | hfalse
    · refine replies_file (hne symbols hm) (fun r hr' =>
        (hserves.files.kept f symbols hm).inRange hr') ?_
      exact hr _ (houts ▸ List.mem_cons_self)
    · have htrue := hok.success.symm.trans hfalse.success
      simp at htrue

/-! ## Leaving -/

variable (toJson) in
/-- Those who stay are told in JSON. -/
theorem Leaves.quiet {f : QString} (h : Leaves z s w sender f s' outs) :
    ∀ o ∈ outs, o.destination ≠ w ∧ Brings z toJson o.packet none := by
  cases h with
  | last => simp
  | others _ _ _ hnotice hl =>
    intro o ho
    rw [hl.outs] at ho
    obtain ⟨v, hv, rfl⟩ := List.mem_map.mp ho
    exact ⟨of_decide_eq_true (List.mem_filter.mp hv).2, brings_json hnotice (by simp)⟩

theorem closeFile_leaves {f : QString} (hf : closeFileField doc = .ok f)
    (hreg : Registered s w f) (h : s.closeFile z d w sender doc = .ok (s', outs)) :
    ∃ s1 outs1, Leaves z s w sender f s1 outs1 ∧
      s' = s1.setWorker w { sender with filename := [] } ∧
      outs = outs1 ++ [⟨w, .json (accept "close" [])⟩] := by
  unfold closeFile at h
  rw [hf] at h
  obtain ⟨result, hr, h⟩ := bind_eq_ok.mp h
  rcases leave_ok hr with ⟨-, hn⟩ | ⟨s1, outs1, rfl, hl⟩
  · exact absurd hreg hn
  · cases h
    exact ⟨s1, outs1, hl, rfl, rfl⟩

theorem Files.registered (hs : Files s) {f : QString} (hw : LoggedIn s w f) (hf : f ≠ []) :
    Registered s w f := by
  obtain ⟨sender, hsender, -, hfile⟩ := hw
  obtain ⟨list, hl, hc⟩ := hs.registry.once w f ⟨sender, hsender, hfile⟩ hf
  exact ⟨list, hl, List.count_pos_iff.mp (by omega)⟩

variable (toJson) in
/-- **A file that is closed.** -/
theorem serves_close (hz : ∀ data, z.qUncompress (z.qCompress data) = data) (hs : Files s)
    {f openfile username nickname : QString} (hw : LoggedIn s w f) (hf : f ≠ [])
    (hfield : closeFileField (closeFileMessage openfile username nickname) = .ok f)
    (h : s.handle z d (.jsonReceived w (closeFileMessage openfile username nickname)) =
      .ok (s', outs)) :
    Serves z toJson s w none s' outs ∧ LoggedIn s' w [] ∧
      ∀ packet ∈ addressed outs w, Brings z toJson packet none := by
  obtain ⟨sender, hsender, hn, hfile⟩ := id hw
  have htype : HasType (closeFileMessage openfile username nickname) "close" :=
    ⟨_, rfl, by decide⟩
  have hreq : LoggedInRequest.of (closeFileMessage openfile username nickname) = some .close :=
    requestOf_of_hasType htype rfl
  have ha : Asks s (.jsonReceived w (closeFileMessage openfile username nickname)) w sender .close
      (closeFileMessage openfile username nickname) := ⟨rfl, hsender, hn, hreq⟩
  have hclose : s.closeFile z d w sender (closeFileMessage openfile username nickname) =
      .ok (s', outs) := by
    rw [← h, Server.handle, withWorker, hsender]
    dsimp only
    rw [Server.jsonReceived, if_neg hn, jsonFromLoggedIn, hreq]
  obtain ⟨s1, outs1, hl, rfl, rfl⟩ := closeFile_leaves hfield (Files.registered hs hw hf) hclose
  obtain ⟨workers, -, -, hclients, -⟩ := hl.maps
  have hquiet := Leaves.quiet toJson hl
  have hreply : Brings z toJson (.json (accept "close" [])) none :=
    brings_json (isReply_accept "close" []).type (by simp)
  refine ⟨serves_quiet hz hs (possible_payload hw.mem (.jsonReceived _))
    (wellFormed_of_request hreq (by simp) (by simp)) (ha.operationOf (by simp)) h (fun v hv => ?_)
    fun v hv packet hp => ?_, ⟨{ sender with filename := [] }, ?_, hn, rfl⟩, fun packet hp => ?_⟩
  · simp only [Server.setWorker, Table.getElem?_insert, if_neg hv, hclients]
  · rcases List.mem_append.mp (mem_addressed.mp hp) with hin | hin
    · exact (hquiet _ hin).2
    · cases List.mem_singleton.mp hin
      exact hreply
  · simp only [Server.setWorker, Table.getElem?_insert, if_pos]
  · rcases List.mem_append.mp (mem_addressed.mp hp) with hin | hin
    · exact (hquiet _ hin).2
    · cases List.mem_singleton.mp hin
      exact hreply

variable (toJson) in
/-- **A client that goes.** -/
theorem serves_disconnect (hz : ∀ data, z.qUncompress (z.qCompress data) = data) (hs : Files s)
    {f : QString} (hw : LoggedIn s w f) (h : s.handle z d (.userDisconnected w) = .ok (s', outs)) :
    Serves z toJson s w none s' outs := by
  obtain ⟨sender, hsender, hn, -⟩ := id hw
  have hgone : s.userDisconnected z d w sender = .ok (s', outs) := by
    rw [← h, Server.handle, withWorker, hsender]
  have hwf : WellFormed s ⟨.userDisconnected w, d⟩ := by
    constructor
    · intro v sender' doc' g ha
      cases ha.event
    · intro v sender' doc' username g db' ha
      cases ha.event
  rcases userDisconnected_ok hgone with ⟨-, hs', houts⟩ | ⟨-, hl⟩
  · refine serves_quiet (e := .userDisconnected w) hz hs hw.mem hwf rfl h (fun v hv => ?_)
      fun v hv packet hp => ?_
    · rw [hs', Table.getElem?_erase, if_neg hv]
    · rw [houts] at hp
      cases hp
  · obtain ⟨workers, -, -, hclients, -⟩ := hl.maps
    refine serves_quiet (e := .userDisconnected w) hz hs hw.mem hwf rfl h (fun v hv => ?_)
      fun v hv packet hp => ?_
    · rw [hclients, Table.getElem?_erase, if_neg hv]
    · exact (Leaves.quiet toJson hl _ (mem_addressed.mp hp)).2

variable (toJson) in
/-- **The timer.** Nobody is sent anything. -/
theorem serves_timeout (hz : ∀ data, z.qUncompress (z.qCompress data) = data) (hs : Files s)
    (w : WorkerId) (h : s.handle z d .timeout = .ok (s', outs)) :
    Serves z toJson s w none s' outs ∧ s'.clients = s.clients ∧ outs = [] := by
  have hwf : WellFormed s ⟨.timeout, d⟩ := by
    constructor
    · intro v sender' doc' g ha
      cases ha.event
    · intro v sender' doc' username g db' ha
      cases ha.event
  obtain ⟨s1, hsave, h1⟩ := bind_eq_ok.mp h
  cases h1
  have hclients := (saveFile_ok hsave).clients
  have hquiet : ∀ v, v ≠ w → ∀ packet ∈ addressed [] v, Brings z toJson packet none := by
    intro v _ packet hp
    cases hp
  exact ⟨serves_quiet (e := .timeout) hz hs trivial hwf rfl h (fun v _ => by rw [hclients]) hquiet,
    hclients, rfl⟩

end Serves

end Scriba.System
