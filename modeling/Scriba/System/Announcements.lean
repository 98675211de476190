import Scriba.Server.Joining
import Scriba.Server.Notices
import Scriba.System.Serving

/-! # What those who have a file open are told

Whatever the server does, a worker that keeps its file open is told once of each worker that opens
or leaves the file, and of nobody else; all other packets for it say nothing about who is there
(`Hears`). -/

namespace Scriba.System

open Scriba.Utility Scriba.Client Scriba.Server Scriba.Lib

/-- What the others are told of a worker. -/
def nameOf (worker : ServerWorker) : QString × QString := (worker.username, worker.nickname)

/-- The others who have the file open, in the order in which they opened it. -/
def peers (s : Server) (w : WorkerId) (f : QString) : List (QString × QString) :=
  (((s.mapFileWorkers[f]?).getD []).filter (· ≠ w)).filterMap fun v => (s.clients[v]?).map nameOf

/-- The packet is an operation or a reply that says nothing about who is there. -/
inductive Mild : Packet → Prop
  | reply {message : QJsonObject} {type : String} {ok : Bool} : IsReply type ok message →
      type ∈ ["password", "old_password_checked", "list_files", "filename_from_sharedLink", "close",
        "signup"] → Mild (.json message)
  | refused {message : QJsonObject} : IsReply "new_file" false message → Mild (.json message)
  | refusal (reason : String) : Mild (.json (refuseUntyped reason))
  | operation {doc : QJsonObject} : HasType doc "operation" → Mild (.json doc)
  | operations {doc : QJsonObject} (content : QByteArray) : HasType doc "operation" →
      Mild (.byteArray doc content)

/-- What a worker is told of a file that it has open, by who had it open before and after. -/
inductive Hears (f : QString) (before after : List (QString × QString)) : List Packet → Prop
  | joined {worker : ServerWorker} (image : QByteArray) : after = before ++ [nameOf worker] →
      Hears f before after [.byteArray (connectionNotice f worker) image]
  | left {worker : ServerWorker} {xs ys : List (QString × QString)} :
      before = xs ++ nameOf worker :: ys → after = xs ++ ys →
      Hears f before after [.json (disconnectionNotice f worker)]
  | other {packets : List Packet} : after = before → (∀ p ∈ packets, Mild p) →
      Hears f before after packets

/-- A worker with an open file takes no other nickname and asks for no other file. -/
structure Attends (s : Server) (i : Input) : Prop where
  nickname : ∀ v sender doc, Asks s i.event v sender .nickname doc → sender.filename = []
  fileToOpen : ∀ v sender doc, Asks s i.event v sender .fileToOpen doc → sender.filename = []

def attendsCheck (s : Server) (i : Input) : Bool :=
  onRequest s i.event .nickname (fun sender _ => sender.filename = []) &&
    onRequest s i.event .fileToOpen fun sender _ => sender.filename = []

theorem attends_of_check {s : Server} {i : Input} (h : attendsCheck s i = true) : Attends s i := by
  rw [attendsCheck, Bool.and_eq_true] at h
  constructor
  · intro v sender doc ha
    simpa using ha.of_onRequest h.1
  · intro v sender doc ha
    simpa using ha.of_onRequest h.2

/-! ## Open files and nicknames -/

/-- Only workers with a nickname have a file open. -/
def Seated (s : Server) : Prop :=
  ∀ (w : WorkerId) (worker : ServerWorker), s.clients[w]? = some worker → worker.filename ≠ [] →
    worker.nickname ≠ []

section Seated

variable {z : Codec} {d : Driver} {s s' : Server} {e : Server.Event} {u : WorkerId}
  {worker : ServerWorker} {outs : List Output}

theorem Seated.insert (h : Seated s) (hc : s'.clients = s.clients.insert u worker)
    (hu : worker.filename ≠ [] → worker.nickname ≠ []) : Seated s' := by
  intro v x hv
  rw [hc, Table.getElem?_insert] at hv
  split_ifs at hv
  · obtain rfl := Option.some.inj hv
    exact hu
  · exact h v x hv

theorem Seated.erase (h : Seated s) (hc : s'.clients = s.clients.erase u) : Seated s' := by
  intro v x hv
  rw [hc, Table.getElem?_erase] at hv
  split_ifs at hv
  exact h v x hv

theorem Effect.seated (he : Effect z d s e s' outs) (h : Seated s) : Seated s' := by
  cases he with
  | connected => exact h.insert rfl fun hne => absurd rfl hne
  | answered | stored => exact h
  | loggedIn _ hw hn => exact h.insert rfl fun hne => absurd hn (h _ _ hw hne)
  | @renamed w sender doc username nickname db' outs ha hf =>
    have hnew : nickname ≠ [] := Renames.nickname_ne_nil ⟨w, sender, doc, ha, hf⟩
    exact (h.insert rfl fun _ => hnew : Seated (s.setWorker w { sender with nickname }))
  | operated _ hop => exact fun v x hv => h v x (hop.clients ▸ hv)
  | created ha _ _ hc => exact h.insert hc.clients fun _ => ha.nickname
  | opened ha _ ho => exact h.insert ho.clients fun _ => ha.nickname
  | @closed w sender doc message filename s1 outs ha _ hl =>
    have hc : (s1.setWorker w { sender with filename := [] }).clients =
        s.clients.insert w { sender with filename := [] } := by
      rw [Server.setWorker, hl.accounts.1]
    exact h.insert hc fun hne => absurd rfl hne
  | disconnected => exact h.erase rfl
  | left _ _ _ hl => exact h.erase hl.accounts.1
  | saved _ hs => exact fun v x hv => h v x (hs.clients ▸ hv)

end Seated

/-! ## Who is there -/

section Peers

variable {z : Codec} {s s' : Server} {u v w : WorkerId} {f : QString} {sender : ServerWorker}
  {outs : List Output} {packet : Packet}

theorem fileOf_of_listed (h : Registry s) (hv : v ∈ (s.mapFileWorkers[f]?).getD []) :
    FileOf s v f := by
  cases hl : s.mapFileWorkers[f]? with
  | none => simp [hl] at hv
  | some list => exact (h.own f list v hl (by simpa [hl] using hv)).2

theorem peers_congr (hmap : s'.mapFileWorkers[f]? = s.mapFileWorkers[f]?)
    (hc : ∀ v ∈ (s.mapFileWorkers[f]?).getD [], s'.clients[v]? = s.clients[v]?) :
    peers s' w f = peers s w f := by
  rw [peers, peers, hmap]
  refine List.filterMap_congr fun v hv => ?_
  rw [hc v (List.mem_of_mem_filter hv)]

/-- What happens to a worker without the file. -/
theorem peers_apart (hs : Registry s) (hu : ¬ FileOf s u f)
    (hmap : s'.mapFileWorkers[f]? = s.mapFileWorkers[f]?)
    (hc : ∀ v, v ≠ u → s'.clients[v]? = s.clients[v]?) : peers s' w f = peers s w f := by
  refine peers_congr hmap fun v hv => hc v ?_
  rintro rfl
  exact hu (fileOf_of_listed hs hv)

/-- A worker opens the file. -/
theorem peers_join (hs : Registry s) (hu : ¬ FileOf s u f) (huw : u ≠ w)
    (hmap : s'.mapFileWorkers[f]? = some ((s.mapFileWorkers[f]?).getD [] ++ [u]))
    (hc : s'.clients = s.clients.insert u { sender with filename := f }) :
    peers s' w f = peers s w f ++ [nameOf sender] := by
  have hlookup : ∀ v, s'.clients[v]? =
      if v = u then some { sender with filename := f } else s.clients[v]? := fun v => by
    rw [hc, Table.getElem?_insert]
  have hold : (((s.mapFileWorkers[f]?).getD []).filter (· ≠ w)).filterMap
      (fun v => (s'.clients[v]?).map nameOf) = peers s w f := by
    refine List.filterMap_congr fun v hv => ?_
    rw [hlookup, if_neg]
    rintro rfl
    exact hu (fileOf_of_listed hs (List.mem_of_mem_filter hv))
  rw [peers, hmap, Option.getD_some, List.filter_append, List.filterMap_append, hold]
  simp [huw, hlookup, nameOf]

/-- A worker leaves it. -/
theorem peers_leave (hs : Registry s) (huw : u ≠ w) (hu : s.clients[u]? = some sender)
    {workers : List WorkerId} (hl : s.mapFileWorkers[f]? = some workers) (hin : u ∈ workers)
    (hmap : s'.mapFileWorkers[f]? =
      if workers.erase u = [] then none else some (workers.erase u))
    (hc : ∀ v, v ≠ u → s'.clients[v]? = s.clients[v]?) : ∃ xs ys,
      peers s w f = xs ++ nameOf sender :: ys ∧ peers s' w f = xs ++ ys := by
  obtain ⟨l, r, rfl⟩ := List.append_of_mem hin
  have hnodup := hs.nodup hl
  obtain ⟨-, hr, hlr⟩ := List.nodup_append.mp hnodup
  have hul : u ∉ l := fun hul => hlr u hul u (by simp) rfl
  have hur : u ∉ r := (List.nodup_cons.mp hr).1
  have herase : (l ++ u :: r).erase u = l ++ r := by
    rw [List.erase_append_right _ hul, List.erase_cons_head]
  have hget : (s'.mapFileWorkers[f]?).getD [] = l ++ r := by
    rw [hmap, herase]
    split_ifs with he
    · exact he.symm
    · rfl
  have hsame : ∀ xs : List WorkerId, u ∉ xs →
      (xs.filter (· ≠ w)).filterMap (fun v => (s'.clients[v]?).map nameOf) =
        (xs.filter (· ≠ w)).filterMap (fun v => (s.clients[v]?).map nameOf) := by
    intro xs hxs
    refine List.filterMap_congr fun v hv => ?_
    rw [hc v]
    rintro rfl
    exact hxs (List.mem_of_mem_filter hv)
  refine ⟨(l.filter (· ≠ w)).filterMap fun v => (s.clients[v]?).map nameOf,
    (r.filter (· ≠ w)).filterMap fun v => (s.clients[v]?).map nameOf, ?_, ?_⟩
  · rw [peers, hl, Option.getD_some, List.filter_append, List.filterMap_append,
      List.filter_cons_of_pos (by simpa using huw), List.filterMap_cons, hu]
    rfl
  · rw [peers, hget, List.filter_append, List.filterMap_append, hsame l hul, hsame r hur]

end Peers

/-! ## Events -/

section Events

variable {z : Codec} {d : Driver} {s s' : Server} {u w : WorkerId} {f : QString}
  {sender : ServerWorker} {doc : QJsonObject} {outs : List Output} {packet : Packet}

/-- The worker keeps the file that it has open. -/
structure Keeps (s s' : Server) (w : WorkerId) (f : QString) : Prop where
  open_ : f ≠ []
  before : FileOf s w f
  after : FileOf s' w f

theorem addressed_other (h : u ≠ w) : addressed [⟨u, packet⟩] w = [] :=
  addressed_eq_nil (by simpa using h)

/-- A reply. -/
theorem hears_reply (hpeers : peers s' w f = peers s w f) (hp : u = w → Mild packet) :
    Hears f (peers s w f) (peers s' w f) (addressed [⟨u, packet⟩] w) := by
  refine .other hpeers fun p hp' => ?_
  obtain ⟨rfl, rfl⟩ := Output.mk.inj (List.mem_singleton.mp (mem_addressed.mp hp'))
  exact hp rfl

/-- A reply that leaves the workers as they are. -/
theorem hears_replied (hc : s'.clients = s.clients) (hm : s'.mapFileWorkers = s.mapFileWorkers)
    (hp : Mild packet) : Hears f (peers s w f) (peers s' w f) (addressed [⟨u, packet⟩] w) :=
  hears_reply (peers_congr (by rw [hm]) fun _ _ => by rw [hc]) fun _ => hp

/-- An operation. -/
theorem hears_operated {g : QString} {op : Operation} (hop : Operated s u g op packet s' outs)
    (hp : Mild packet) : Hears f (peers s w f) (peers s' w f) (addressed outs w) := by
  obtain ⟨list, hl⟩ := hop.outs
  refine .other (peers_congr (by rw [hop.mapFileWorkers]) fun _ _ => by rw [hop.clients])
    fun p hp' => ?_
  rw [mem_addressed, hl.outs] at hp'
  obtain ⟨v, -, he⟩ := List.mem_map.mp hp'
  obtain ⟨-, rfl⟩ := Output.mk.inj he
  exact hp

/-- A file is opened. -/
theorem hears_opened {g : QString} (hs : Registry s) (hk : Keeps s s' w f)
    (hu : s.clients[u]? = some sender) (hnil : sender.filename = [])
    (hg : sendFileField doc = .ok g) (h : s.sendFile z d u sender doc = .ok (s', outs)) :
    Hears f (peers s w f) (peers s' w f) (addressed outs w) := by
  obtain ⟨message, symbols, images, image, rfl, -⟩ := sendFile_notices h hg
  rcases sendFile_ok h with ⟨⟨reason, hreason⟩, -⟩ | ⟨g', content, hg', ho, -⟩
  · cases hg.symm.trans hreason
  cases hg.symm.trans hg'
  have huf : ∀ {x}, x ≠ [] → ¬ FileOf s u x := fun hx hux =>
    hx ((fileOf_unique ⟨sender, hu, hnil⟩ hux).symm)
  have huw : u ≠ w := by
    rintro rfl
    exact huf hk.open_ hk.before
  have hlist : (((s.mapFileWorkers[g]?).getD []).filter (· ≠ u)).Nodup := by
    cases hl : s.mapFileWorkers[g]? with
    | none => simp
    | some list => exact (hs.nodup hl).filter _
  rw [← List.singleton_append, addressed_append, addressed_forward hlist,
    addressed_other huw, List.nil_append]
  have hlisted : w ∈ ((s.mapFileWorkers[g]?).getD []).filter (· ≠ u) ↔ g = f := by
    constructor
    · intro hin
      exact fileOf_unique (fileOf_of_listed hs (List.mem_of_mem_filter hin)) hk.before
    · rintro rfl
      obtain ⟨list, hl, hcount⟩ := hs.once w g hk.before hk.open_
      rw [hl, Option.getD_some, List.mem_filter]
      exact ⟨List.count_pos_iff.mp (by omega), by simpa using huw.symm⟩
  by_cases hgf : g = f
  · subst hgf
    rw [if_pos (hlisted.mpr rfl)]
    refine .joined image (peers_join hs (huf hk.open_) huw ?_ ho.clients)
    rw [ho.mapFileWorkers, Table.getElem?_insert, if_pos rfl]
  · rw [if_neg (mt hlisted.mp hgf)]
    refine .other (peers_apart hs (huf hk.open_) ?_ fun v hv => ?_) (by simp)
    · rw [ho.mapFileWorkers, Table.getElem?_insert, if_neg (Ne.symm hgf)]
    · rw [ho.clients, Table.getElem?_insert, if_neg hv]

/-- A file is left. -/
theorem hears_left {g : QString} {s0 : Server} {result : Server × List Output}
    (hs : Registry s) (hk : Keeps s s' w f) (hu : s.clients[u]? = some sender)
    (hg : sender.filename = g) (huw : u ≠ w) (hmap : s0.mapFileWorkers = s.mapFileWorkers)
    (h : s0.udpateSymbolListAndCommunicateDisconnection z d g u sender = .ok (some result))
    (hmap' : s'.mapFileWorkers = result.1.mapFileWorkers)
    (hc : ∀ v, v ≠ u → s'.clients[v]? = s.clients[v]?) :
    Hears f (peers s w f) (peers s' w f) (addressed result.2 w) := by
  obtain ⟨workers, hl, houts⟩ := leave_notices h hg
  obtain ⟨s1, outs1⟩ := result
  dsimp only at hmap' houts
  rcases leave_ok h with ⟨hnone, -⟩ | ⟨s2, outs2, he, hleaves⟩
  · cases hnone
  obtain ⟨rfl, rfl⟩ := Prod.mk.inj (Option.some.inj he)
  obtain ⟨workers', hl', hin, -, hmaps, -⟩ := hleaves.maps
  cases hl.symm.trans hl'
  rw [hmap] at hl hmaps
  have hnodup := hs.nodup hl
  have hlisted : w ∈ (workers.erase u).filter (· ≠ u) ↔ g = f := by
    rw [List.mem_filter, List.mem_erase_of_ne huw.symm, hs.mem_iff hl]
    constructor
    · exact fun hw => fileOf_unique hw.1 hk.before
    · rintro rfl
      exact ⟨hk.before, by simpa using huw.symm⟩
  rw [houts, addressed_forward ((hnodup.erase u).filter _)]
  have hlookup := hmaps f
  rw [← hmap'] at hlookup
  by_cases hgf : g = f
  · subst hgf
    rw [if_pos rfl] at hlookup
    rw [if_pos (hlisted.mpr rfl)]
    obtain ⟨xs, ys, hbefore, hafter⟩ := peers_leave hs huw hu hl hin hlookup hc
    exact .left hbefore hafter
  · rw [if_neg (Ne.symm hgf)] at hlookup
    rw [if_neg (mt hlisted.mp hgf)]
    refine .other (peers_apart hs ?_ hlookup hc) (by simp)
    exact fun huf => hgf (fileOf_unique ⟨sender, hu, hg⟩ huf)

/-- A file is closed, or this is refused. -/
theorem hears_closed (hs : Registry s) (hk : Keeps s s' w f) (hu : s.clients[u]? = some sender)
    (h : s.closeFile z d u sender doc = .ok (s', outs)) :
    Hears f (peers s w f) (peers s' w f) (addressed outs w) := by
  unfold closeFile at h
  split at h
  · cases h
    exact hears_replied rfl rfl (.reply (isReply_refuse _ _) (by simp))
  case h_2 g hg =>
    obtain ⟨result, hresult, h⟩ := bind_eq_ok.mp h
    rcases leave_ok hresult with ⟨rfl, -⟩ | ⟨s1, outs1, rfl, hl⟩ <;> cases h
    · exact hears_replied rfl rfl (.reply (isReply_refuse _ _) (by simp))
    obtain ⟨-, -, -, hclients, -⟩ := hl.maps
    have hlookup : ∀ v, (s1.setWorker u { sender with filename := [] }).clients[v]? =
        if v = u then some { sender with filename := [] } else s.clients[v]? := fun v => by
      rw [Server.setWorker, Table.getElem?_insert, hclients]
    have huw : u ≠ w := by
      rintro rfl
      obtain ⟨worker, hworker, hfile⟩ := hk.after
      rw [hlookup, if_pos rfl] at hworker
      obtain rfl := Option.some.inj hworker
      exact hk.open_ hfile.symm
    rw [addressed_append, addressed_other huw, List.append_nil]
    exact hears_left hs hk hu (hs.own_of_leaves hl hu) huw rfl hresult rfl
      fun v hv => by rw [hlookup, if_neg hv]

theorem hasType_of_requestOf {α : Type} {names : List (String × α)} {x : α}
    (hnames : ∀ name, (name, x) ∈ names → name = "operation") (h : requestOf names doc = some x) :
    HasType doc "operation" := by
  obtain ⟨type, name, ht, hm, hn⟩ := requestOf_some h
  obtain rfl := hnames name hm
  exact ⟨type, ht, hn⟩

/-- **A request** of a worker with a nickname. -/
theorem hears_request (hs : Files s) (hk : Keeps s s' w f) (hu : s.clients[u]? = some sender)
    (hn : sender.nickname ≠ []) (hwf : WellFormed s ⟨.jsonReceived u doc, d⟩)
    (hat : Attends s ⟨.jsonReceived u doc, d⟩)
    (h : s.jsonFromLoggedIn z d u sender doc = .ok (s', outs)) :
    Hears f (peers s w f) (peers s' w f) (addressed outs w) := by
  have hapart : sender.filename = [] → u ≠ w ∧ ¬ FileOf s u f := by
    intro hnil
    have hnot : ¬ FileOf s u f := fun huf => hk.open_ (fileOf_unique huf ⟨sender, hu, hnil⟩)
    exact ⟨fun he => hnot (he ▸ hk.before), hnot⟩
  cases hr : LoggedInRequest.of doc with
  | none =>
    simp only [jsonFromLoggedIn, hr] at h
    cases h
    exact .other rfl (by simp [addressed])
  | some request =>
    have ha : Asks s (.jsonReceived u doc) u sender request doc := ⟨rfl, hu, hn, hr⟩
    simp only [jsonFromLoggedIn, hr] at h
    cases request with
    | nickname =>
      obtain ⟨huw, huf⟩ := hapart (hat.nickname u sender doc ha)
      obtain ⟨⟨s1, message⟩, hup, h⟩ := map_eq_ok.mp h
      cases h
      refine hears_reply ?_ fun he => absurd he huw
      rcases updateNick_ok hup with ⟨-, rfl, -⟩ | ⟨u', n, r, db', -, -, rfl, -⟩
      · rfl
      · refine peers_apart hs.registry huf rfl fun v hv => ?_
        rw [Server.setWorker, Table.getElem?_insert, if_neg hv]
    | password =>
      obtain ⟨⟨s1, message⟩, hup, h⟩ := map_eq_ok.mp h
      cases h
      rcases updatePass_ok hup with ⟨-, rfl, hm⟩ | ⟨u', o, n, r, db', -, -, rfl, hm⟩
      · exact hears_replied rfl rfl (.reply hm (by simp))
      · exact hears_replied rfl rfl (.reply hm (by simp))
    | checkOldPassword =>
      cases h
      rcases checkOldPass_isReply d s doc with hm | ⟨u', o, -, hm⟩
      · exact hears_replied rfl rfl (.reply hm (by simp))
      · exact hears_replied rfl rfl (.reply hm (by simp))
    | listFiles | listSharedFiles =>
      cases h
      rcases getFiles_isReply d s doc _ with ⟨-, hm⟩ | ⟨u', -, hm⟩
      · exact hears_replied rfl rfl (.reply hm (by simp))
      · exact hears_replied rfl rfl (.reply hm (by simp))
    | operation =>
      exact hears_operated (operate_ok h) (.operation (hasType_of_requestOf (by simp) hr))
    | newFile =>
      obtain ⟨⟨s1, message⟩, hc, h⟩ := map_eq_ok.mp h
      cases h
      rcases createNewFile_ok hc with ⟨-, rfl, hm⟩ |
        ⟨u', g, r, link, db', hfields, hdb, ⟨-, rfl, hm⟩ | ⟨hr', hcr, hm⟩⟩
      · exact hears_replied rfl rfl (.refused hm)
      · exact hears_replied rfl rfl (.refused hm)
      have hg : Granted d s.db u' g db' := ⟨r, link, hdb, hr'⟩
      have hfresh : fileKey g u' ∉ s.db.bucket := hg.bucket ▸ hcr.fresh
      obtain ⟨huw, huf⟩ := hapart (hwf.creates u sender doc u' g db' ha hfields hg hfresh)
      refine hears_reply (peers_apart hs.registry huf ?_ fun v hv => ?_) fun he => absurd he huw
      · rw [hcr.mapFileWorkers, Table.getElem?_insert, if_neg]
        rintro rfl
        exact hfresh (hs.inBucket _ ((hs.isOpen_iff _).mp ⟨hk.open_, w, hk.before⟩))
      · rw [hcr.clients, Table.getElem?_insert, if_neg hv]
    | fileToOpen =>
      have hnil := hat.fileToOpen u sender doc ha
      cases hg : sendFileField doc with
      | ok g => exact hears_opened hs.registry hk hu hnil hg h
      | error reason =>
        rcases sendFile_ok h with ⟨-, rfl, message, rfl, -⟩ | ⟨g, content, hg', -⟩
        · exact hears_reply rfl fun he => absurd he (hapart hnil).1
        · cases hg.symm.trans hg'
    | close => exact hears_closed hs.registry hk hu h
    | filenameFromSharedLink =>
      obtain ⟨⟨s1, message⟩, hg, h⟩ := map_eq_ok.mp h
      cases h
      rcases getFilenameFromSharedLink_ok hg with ⟨rfl, hm⟩ | ⟨l, r, g, db', -, -, rfl, hm⟩
      · exact hears_replied rfl rfl (.reply hm (by simp))
      · exact hears_replied rfl rfl (.reply hm (by simp))

/-- A message of a worker without a nickname. -/
theorem hears_loggedOut (hs : Registry s) (hseated : Seated s) (hk : Keeps s s' w f)
    (hu : s.clients[u]? = some sender) (hn : sender.nickname = [])
    (h : s.jsonFromLoggedOut d u sender doc = .ok (s', outs)) :
    Hears f (peers s w f) (peers s' w f) (addressed outs w) := by
  have hnil : sender.filename = [] := by
    by_contra hne
    exact hseated u sender hu hne hn
  have huf : ¬ FileOf s u f := fun huf => hk.open_ (fileOf_unique huf ⟨sender, hu, hnil⟩)
  have huw : u ≠ w := by
    rintro rfl
    exact huf hk.before
  unfold jsonFromLoggedOut at h
  split at h
  · obtain ⟨image, -, h⟩ := bind_eq_ok.mp h
    cases h
    refine hears_reply ?_ fun he => absurd he huw
    rcases checkCredentials_cases rfl with ⟨hs1, -⟩ | ⟨name, p, n, -, -, -, -, hs1, -⟩
    · rw [hs1]
    · rw [hs1]
      refine peers_apart hs huf rfl fun v hv => ?_
      rw [Server.setWorker, Table.getElem?_insert, if_neg hv]
  · obtain ⟨⟨s1, message⟩, hc, h⟩ := map_eq_ok.mp h
    cases h
    obtain ⟨rfl, -⟩ := checkAlreadyExistingUsername_ok hc
    exact hears_reply rfl fun he => absurd he huw
  · cases h
    exact .other rfl (by simp [addressed])

/-- An array of bytes. -/
theorem hears_byteArray {data : QByteArray}
    (h : s.handleSignupUpdateImageBulkOperation z d u sender data = .ok (s', outs)) :
    Hears f (peers s w f) (peers s' w f) (addressed outs w) := by
  unfold handleSignupUpdateImageBulkOperation at h
  split at h
  case h_2 =>
    cases h
    exact hears_replied rfl rfl (.refusal _)
  case h_1 doc hz =>
    dsimp only at h
    split at h
    · cases h
      exact hears_replied rfl rfl (.refusal _)
    · split at h
      case h_1 hr =>
        obtain ⟨⟨s1, message⟩, hup, h⟩ := map_eq_ok.mp h
        cases h
        rcases signup_ok hup with ⟨-, rfl, ⟨reason, rfl⟩ | hm⟩ |
          ⟨p, r, db', -, -, -, ⟨-, rfl, hm⟩ | ⟨-, -, ⟨db2, -, rfl⟩, hm⟩⟩
        · exact hears_replied rfl rfl (.refusal _)
        all_goals exact hears_replied rfl rfl (.reply hm (by simp))
      case h_2 hr =>
        obtain ⟨s1, hup, h⟩ := bind_eq_ok.mp h
        cases h
        have hsame : s'.clients = s.clients ∧ s'.mapFileWorkers = s.mapFileWorkers := by
          rcases updateImage_ok hup with rfl | ⟨-, -, image, rfl⟩ <;> exact ⟨rfl, rfl⟩
        refine .other (peers_congr (by rw [hsame.2]) fun _ _ => by rw [hsame.1]) ?_
        simp [addressed]
      case h_3 hr =>
        rcases bulkOperation_ok h with ⟨rfl, -, reason, rfl⟩ | ⟨op, -, -, hop⟩
        · exact hears_replied rfl rfl (.refusal _)
        · exact hears_operated hop (.operations _ (hasType_of_requestOf (by simp) hr))
      case h_4 hr =>
        cases h
        exact .other rfl (by simp [addressed])

/-- A connection that ends. -/
theorem hears_disconnected (hs : Registry s) (hk : Keeps s s' w f)
    (hu : s.clients[u]? = some sender) (h : s.userDisconnected z d u sender = .ok (s', outs)) :
    Hears f (peers s w f) (peers s' w f) (addressed outs w) := by
  have hgone : s'.clients = s.clients.erase u := by
    rcases userDisconnected_ok h with ⟨-, rfl, -⟩ | ⟨-, hl⟩
    · rfl
    · obtain ⟨-, -, -, hclients, -⟩ := hl.maps
      exact hclients
  have hc : ∀ v, v ≠ u → s'.clients[v]? = s.clients[v]? := fun v hv => by
    rw [hgone, Table.getElem?_erase, if_neg hv]
  have huw : u ≠ w := by
    rintro rfl
    obtain ⟨worker, hworker, -⟩ := hk.after
    rw [hgone, Table.getElem?_erase, if_pos rfl] at hworker
    cases hworker
  unfold userDisconnected at h
  dsimp only at h
  split at h
  case isTrue hnil =>
    cases h
    refine .other (peers_apart hs ?_ rfl hc) (by simp [addressed])
    exact fun huf => hk.open_ (fileOf_unique huf ⟨sender, hu, hnil⟩)
  case isFalse hne =>
    obtain ⟨result, hresult, h⟩ := bind_eq_ok.mp h
    cases result with
    | none =>
      rcases leave_ok hresult with ⟨-, hnot⟩ | ⟨s1, outs1, he, -⟩
      · obtain ⟨list, hl, hcount⟩ := hs.once u sender.filename ⟨sender, hu, rfl⟩ hne
        exact absurd ⟨list, hl, List.count_pos_iff.mp (by omega)⟩ hnot
      · cases he
    | some result =>
      obtain ⟨s1, outs1⟩ := result
      cases h
      refine hears_left hs hk hu rfl huw ?_ hresult ?_ hc
      · rfl
      · rfl

/-- **What a worker is told** while it keeps its file open. -/
theorem hears_step {i : Input} (hstep : Server.Step z s i outs s') (hs : Files s)
    (hseated : Seated s) (hwf : WellFormed s i) (hat : Attends s i) (hk : Keeps s s' w f) :
    Hears f (peers s w f) (peers s' w f) (addressed outs w) := by
  obtain ⟨hp, h⟩ := hstep
  obtain ⟨e, d⟩ := i
  cases e with
  | incomingConnection u =>
    cases h
    refine .other (peers_apart (u := u) hs.registry ?_ rfl fun v hv => ?_) (by simp [addressed])
    · exact fun huf => hp (Table.mem_of_getElem? huf.choose_spec.1)
    · rw [Server.setWorker, Table.getElem?_insert, if_neg hv]
  | jsonReceived u doc =>
    obtain ⟨sender, hu, h⟩ := withWorker_ok h
    unfold jsonReceived at h
    split at h
    case isTrue hn => exact hears_loggedOut hs.registry hseated hk hu hn h
    case isFalse hn => exact hears_request hs hk hu hn hwf hat h
  | byteArrayReceived u data =>
    obtain ⟨sender, hu, h⟩ := withWorker_ok h
    exact hears_byteArray h
  | userDisconnected u =>
    obtain ⟨sender, hu, h⟩ := withWorker_ok h
    exact hears_disconnected hs.registry hk hu h
  | timeout =>
    obtain ⟨s1, hsave, h⟩ := bind_eq_ok.mp h
    cases h
    have hsaved := saveFile_ok hsave
    refine .other (peers_congr (by rw [hsaved.mapFileWorkers]) fun _ _ => by rw [hsaved.clients]) ?_
    simp [addressed]

end Events

/-! ## Opening a file -/

/-- What a worker gets that creates or opens a file, by who has it open then. -/
inductive Welcomes (e : Entry) (w : WorkerId) (f : QString) (after : List (QString × QString)) :
    List Packet → Prop
  | created {sender : ServerWorker} {doc message : QJsonObject} :
      Asks e.before e.input.event w sender .newFile doc → IsReply "new_file" true message →
      after = [] → Welcomes e w f after [.json message]
  | opened {sender : ServerWorker} {doc : QJsonObject} {sharedLink : QString}
      {users : List ServerWorker} {symbols : List Symbol} {images : List QByteArray} :
      Asks e.before e.input.event w sender .fileToOpen doc → users.map nameOf = after →
      Welcomes e w f after
        [.fileContentImage (fileReply f sharedLink symbols.length users) symbols images]

section Opening

variable {z : Codec} {s s' : Server} {w : WorkerId} {f : QString} {sender : ServerWorker}
  {doc : QJsonObject} {outs : List Output} {h : History}

theorem request_of_asks {d : Driver} {e : Server.Event} {request : LoggedInRequest}
    (ha : Asks s e w sender request doc) (hh : s.handle z d e = .ok (s', outs)) :
    s.jsonFromLoggedIn z d w sender doc = .ok (s', outs) := by
  obtain ⟨rfl, hw, hn, -⟩ := ha
  obtain ⟨sender', hw', hh⟩ := withWorker_ok hh
  obtain rfl := Option.some.inj (hw.symm.trans hw')
  rwa [jsonReceived, if_neg hn] at hh

/-- The users that are sent are the others. -/
theorem map_nameOf_users {list : List WorkerId} {username : QString}
    (hu : ∀ v ∈ list, ∀ x, s.clients[v]? = some x → (x.username = username ↔ v = w)) :
    ((list.filterMap (s.clients[·]?)).filter (·.username ≠ username)).map nameOf =
      (list.filter (· ≠ w)).filterMap fun v => (s.clients[v]?).map nameOf := by
  induction list with
  | nil => rfl
  | cons v list ih =>
    rw [List.forall_mem_cons] at hu
    have hrest := ih hu.2
    by_cases hv : v = w
    · rw [List.filter_cons_of_neg (by simpa using hv), ← hrest, List.filterMap_cons]
      cases hx : s.clients[v]? with
      | none => rfl
      | some x =>
        dsimp only
        rw [List.filter_cons_of_neg (by simpa using (hu.1 x hx).mpr hv)]
    · rw [List.filter_cons_of_pos (by simpa using hv), List.filterMap_cons, List.filterMap_cons]
      cases hx : s.clients[v]? with
      | none => exact hrest
      | some x =>
        dsimp only
        rw [List.filter_cons_of_pos (by simpa using mt (hu.1 x hx).mp hv), List.map_cons, hrest]
        rfl

/-- **A worker gets a file.** -/
theorem welcomed {i : Input} (hstep : Server.Step z s i outs s') (hs : Files s)
    (hsessions : Sessions h s') (hwf : WellFormed s i) (hf : f ≠ []) (hout : ¬ FileOf s w f)
    (hin : FileOf s' w f) :
    Welcomes ⟨s, i, outs, s'⟩ w f (peers s' w f) (addressed outs w) := by
  obtain ⟨-, snapshot, -, hjoins, -⟩ := hstep.effect.joins hs hwf hf hout hin
  cases hjoins with
  | @created sender doc message username filename ha hfields hkey hmem hm =>
    obtain ⟨⟨s1, message'⟩, hc, hr⟩ := map_eq_ok.mp
      (show reply w <$> s.createNewFile i.driver w sender doc = .ok (s', outs) by
        simpa only [jsonFromLoggedIn, ha.request] using request_of_asks ha hstep.2)
    obtain ⟨rfl, rfl⟩ := Prod.mk.inj hr
    obtain ⟨-, he⟩ := Output.mk.inj (List.mem_singleton.mp hmem)
    obtain rfl := Packet.json.inj he
    have hsingle : addressed [⟨w, .json message⟩] w = [.json message] := by simp [addressed]
    rw [hsingle]
    have hfalse : ¬ IsReply "new_file" false message := fun hm' => by
      cases hm.success.symm.trans hm'.success
    rcases createNewFile_ok hc with ⟨-, -, hm'⟩ |
      ⟨u, g, r, link, db', hg, -, ⟨-, -, hm'⟩ | ⟨-, hcr, -⟩⟩
    · exact absurd hm' hfalse
    · exact absurd hm' hfalse
    · cases hfields.symm.trans hg
      refine .created ha hm ?_
      rw [peers, hcr.mapFileWorkers, Table.getElem?_insert, if_pos hkey.symm]
      simp
  | @opened sender doc message _ images ha hfield hmem hm =>
    have hsend : s.sendFile z i.driver w sender doc = .ok (s', outs) := by
      simpa only [jsonFromLoggedIn, ha.request] using request_of_asks ha hstep.2
    obtain ⟨message', symbols', images', image, houts, hreply⟩ := sendFile_notices hsend hfield
    have hothers : addressed ((((s.mapFileWorkers[f]?).getD []).filter (· ≠ w)).map fun v =>
        ⟨v, .byteArray (connectionNotice f sender) image⟩) w = [] := by
      refine addressed_eq_nil fun o ho => ?_
      obtain ⟨v, hv, rfl⟩ := List.mem_map.mp ho
      exact of_decide_eq_true (List.mem_filter.mp hv).2
    have haddressed : addressed outs w = [.fileContentImage message' symbols' images'] := by
      rw [houts, ← List.singleton_append, addressed_append, hothers]
      simp [addressed]
    have hhead : Packet.fileContentImage message snapshot images =
        .fileContentImage message' symbols' images' := by
      have hin' := mem_addressed.mpr hmem
      rwa [haddressed, List.mem_singleton] at hin'
    obtain ⟨rfl, rfl, rfl⟩ := Packet.fileContentImage.inj hhead
    obtain ⟨users, sharedLink, rfl, husers⟩ := hreply hm
    rw [haddressed]
    refine .opened ha ?_
    rcases sendFile_ok hsend with ⟨⟨reason, hreason⟩, -⟩ | ⟨g, content, hg, ho, -⟩
    · cases hfield.symm.trans hreason
    cases hfield.symm.trans hg
    have hself : s'.clients[w]? = some { sender with filename := f } := by
      rw [ho.clients, Table.getElem?_insert, if_pos rfl]
    have hmap : s'.mapFileWorkers[f]? = some ((s.mapFileWorkers[f]?).getD [] ++ [w]) := by
      rw [ho.mapFileWorkers, Table.getElem?_insert, if_pos rfl]
    have hne : sender.username ≠ [] := by
      rcases hsessions.session w _ hself with ⟨-, hn⟩ | ⟨hu, -⟩
      · exact absurd hn ha.nickname
      · exact hu
    rw [husers, peers, hmap, Option.getD_some]
    refine map_nameOf_users fun v _ x hx => ?_
    constructor
    · exact fun he => (hsessions.unique w v _ x hself hx hne he.symm).symm
    · rintro rfl
      obtain rfl := Option.some.inj (hself.symm.trans hx)
      rfl

end Opening

end Scriba.System
