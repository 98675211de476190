import Scriba.Server.Registry

/-! # What replies say

Which refusals leave all as it was, and which successes are worth what they say. The nickname of
a worker is set before the database is asked, and a worker is registered with a file before the
file is looked for. Some results of the database are not looked at. -/

namespace Scriba.Server

open Scriba.Utility Scriba.Lib

/-- A request is of one worker, with one document, of one kind. -/
theorem Asks.unique {s : Server} {e : Event} {w v : WorkerId} {sender worker : ServerWorker}
    {request other : LoggedInRequest} {doc doc' : QJsonObject}
    (h : Asks s e w sender request doc) (h' : Asks s e v worker other doc') :
    w = v ∧ sender = worker ∧ request = other ∧ doc = doc' := by
  obtain ⟨rfl, hw, -, hr⟩ := h
  obtain ⟨he, hv, -, hr'⟩ := h'
  cases he
  cases hw.symm.trans hv
  cases hr.symm.trans hr'
  exact ⟨rfl, rfl, rfl, rfl⟩

/-! ## Refusals -/

/-- The worker and the maps of files are as they were, and nobody else hears of the request. -/
structure Unchanged (s : Server) (w : WorkerId) (s' : Server) (outs : List Output) : Prop where
  worker : s'.clients[w]? = s.clients[w]?
  mapFileWorkers : s'.mapFileWorkers = s.mapFileWorkers
  symbolsList : s'.symbolsList = s.symbolsList
  changed : s'.changed = s.changed
  outs : ∀ o ∈ outs, o.destination = w

/-- A new nickname that the database does not take, and a file that is nowhere. -/
inductive HalfApplied (d : Driver) (s : Server) (e : Event) : Prop
  | nickname {w : WorkerId} {sender : ServerWorker} {doc : QJsonObject}
      {username nickname : QString} : Asks s e w sender .nickname doc →
      updateNickFields doc = .ok (username, nickname) → nickname ≠ sender.nickname →
      (d.fails .find ∨ username ∉ s.db.users ∨ d.fails .update ∨ d.fails .commit) →
      HalfApplied d s e
  | fileToOpen {w : WorkerId} {sender : ServerWorker} {doc : QJsonObject} {filename : QString} :
      Asks s e w sender .fileToOpen doc → sendFileField doc = .ok filename →
      filename ∉ s.symbolsList → filename ∉ s.db.bucket → HalfApplied d s e

/-- All that the worker is told as a refusal has this property. -/
def Refusals (w : WorkerId) (outs : List Output) (P : Prop) : Prop :=
  ∀ packet, ⟨w, packet⟩ ∈ outs → successIs false packet.message → P

section Refusals

variable {d : Driver} {z : Codec} {s s' : Server} {e : Event} {w : WorkerId}
  {sender : ServerWorker} {doc : QJsonObject} {outs : List Output} {P : Prop}

theorem Refusals.single {packet : Packet} :
    Refusals w [⟨w, packet⟩] P ↔ (successIs false packet.message → P) := by
  simp [Refusals]

/-- Others are told what they are told. -/
theorem Refusals.cons {packet : Packet} (h : ∀ o ∈ outs, o.destination ≠ w) :
    Refusals w (⟨w, packet⟩ :: outs) P ↔ (successIs false packet.message → P) := by
  constructor
  · exact fun hr => hr packet (by simp)
  · intro hp packet' hin
    rcases List.mem_cons.mp hin with he | hin
    · cases he
      exact hp
    · exact absurd rfl (h _ hin)

theorem not_halfApplied (hn : ∀ {v worker doc'}, ¬ Asks s e v worker .nickname doc')
    (ho : ∀ {v worker doc'}, ¬ Asks s e v worker .fileToOpen doc') : ¬ HalfApplied d s e := by
  intro hor
  rcases hor with ⟨h⟩ | ⟨h⟩
  · exact hn h
  · exact ho h

theorem Asks.not_halfApplied {request : LoggedInRequest} (h : Asks s e w sender request doc)
    (hr : request ∉ [.nickname, .fileToOpen]) : ¬ HalfApplied d s e := by
  refine Server.not_halfApplied (fun h' => hr ?_) fun h' => hr ?_
  · simp [(h.unique h').2.2.1]
  · simp [(h.unique h').2.2.1]

theorem Asks.halfApplied_nickname_iff (h : Asks s e w sender .nickname doc) :
    HalfApplied d s e ↔ ∃ username nickname, updateNickFields doc = .ok (username, nickname) ∧
      nickname ≠ sender.nickname ∧
      (d.fails .find ∨ username ∉ s.db.users ∨ d.fails .update ∨ d.fails .commit) := by
  constructor
  · intro hor
    rcases hor with ⟨h', hf, hne, hd⟩ | ⟨h'⟩
    · obtain ⟨rfl, rfl, -, rfl⟩ := h.unique h'
      exact ⟨_, _, hf, hne, hd⟩
    · cases (h.unique h').2.2.1
  · intro hex
    obtain ⟨username, nickname, hf, hne, hd⟩ := hex
    exact .nickname h hf hne hd

theorem Asks.halfApplied_fileToOpen_iff (h : Asks s e w sender .fileToOpen doc) :
    HalfApplied d s e ↔ ∃ filename, sendFileField doc = .ok filename ∧
      filename ∉ s.symbolsList ∧ filename ∉ s.db.bucket := by
  constructor
  · intro hor
    rcases hor with ⟨h'⟩ | ⟨h', hf, hm, hb⟩
    · cases (h.unique h').2.2.1
    · obtain ⟨rfl, rfl, -, rfl⟩ := h.unique h'
      exact ⟨_, hf, hm, hb⟩
  · intro hex
    obtain ⟨filename, hf, hm, hb⟩ := hex
    exact .fileToOpen h hf hm hb

theorem Unchanged.refl {packet : Packet} : Unchanged s w s [⟨w, packet⟩] :=
  ⟨rfl, rfl, rfl, rfl, by simp⟩

theorem Unchanged.database {db : Database} {packet : Packet} :
    Unchanged s w { s with db } [⟨w, packet⟩] :=
  ⟨rfl, rfl, rfl, rfl, by simp⟩

theorem jsonFromLoggedOut_refusals (h : s.jsonFromLoggedOut d w sender doc = .ok (s', outs)) :
    Refusals w outs (Unchanged s w s' outs) := by
  unfold jsonFromLoggedOut at h
  split at h
  · generalize hc : s.checkCredentials d w sender doc = result at h
    obtain ⟨s1, message⟩ := result
    obtain ⟨image, hi, h⟩ := bind_eq_ok.mp h
    cases h
    rw [Refusals.single]
    rcases checkCredentials_cases hc with ⟨rfl, hm⟩ | ⟨u, p, n, -, -, -, -, rfl, hm⟩
    · exact fun _ => .refl
    · intro hf
      cases (hm.successIs false).symm.trans hf
  · obtain ⟨⟨s1, message⟩, hc, h⟩ := map_eq_ok.mp h
    cases h
    obtain ⟨rfl, -⟩ := checkAlreadyExistingUsername_ok hc
    exact Refusals.single.mpr fun _ => .refl
  · cases h
    exact nofun

theorem updateNick_refusals_iff {message : QJsonObject} (ha : Asks s e w sender .nickname doc)
    (h : s.updateNick d w sender doc = .ok (s', message)) :
    Refusals w [⟨w, .json message⟩] (Unchanged s w s' [⟨w, .json message⟩]) ↔
      ¬ HalfApplied d s e := by
  rw [Refusals.single, ha.halfApplied_nickname_iff]
  rcases updateNick_ok h with ⟨⟨reason, hf⟩, rfl, hm⟩ | ⟨u, n, r, db', hf, hdb, rfl, hm⟩
  · refine iff_of_true (fun _ => .refl) ?_
    intro hex
    obtain ⟨u, n, hf', -⟩ := hex
    cases hf.symm.trans hf'
  · have hfailed : r ≠ .success ↔
        d.fails .find ∨ u ∉ s.db.users ∨ d.fails .update ∨ d.fails .commit := by
      rw [ne_eq, Mongo.updateNickname_success_iff hdb]
      simp only [not_and_or, not_not]
    have hfail : successIs false message ↔
        d.fails .find ∨ u ∉ s.db.users ∨ d.fails .update ∨ d.fails .commit := by
      rw [hm.successIs, ← hfailed]
      simp
    have hworker : Unchanged s w { s.setWorker w { sender with nickname := n } with db := db' }
        [⟨w, .json message⟩] ↔ n = sender.nickname := by
      refine ⟨fun hu => ?_, fun hn => ⟨?_, rfl, rfl, rfl, by simp⟩⟩
      · have hl := hu.worker
        rw [ha.worker] at hl
        simp only [Server.setWorker, Table.getElem?_insert, if_true, Option.some.injEq] at hl
        exact congrArg ServerWorker.nickname hl
      · subst hn
        simp [Server.setWorker, ha.worker]
    show (successIs false message → _) ↔ _
    rw [hfail, hworker]
    constructor
    · intro hu hex
      obtain ⟨u', n', hf', hne, hd⟩ := hex
      cases hf.symm.trans hf'
      exact hne (hu hd)
    · intro hn hd
      by_contra hne
      exact hn ⟨u, n, hf, hne, hd⟩

theorem createNewFile_refusals {message : QJsonObject}
    (h : s.createNewFile d w sender doc = .ok (s', message)) :
    Refusals w [⟨w, .json message⟩] (Unchanged s w s' [⟨w, .json message⟩]) := by
  rw [Refusals.single]
  rcases createNewFile_ok h with ⟨-, rfl, -⟩ |
    ⟨u, f, r, link, db', -, -, ⟨-, rfl, -⟩ | ⟨-, -, hm⟩⟩
  · exact fun _ => .refl
  · exact fun _ => .database
  · intro hf
    cases (hm.successIs false).symm.trans hf

/-- A file that is neither in memory nor in the database has no content. -/
theorem Opened.content_eq_none_iff {filename : QString} {content : Option (List Symbol)}
    (h : Opened z s w sender filename content s') :
    content = none ↔ filename ∉ s.symbolsList ∧ filename ∉ s.db.bucket := by
  rcases h.memory with ⟨symbols, hs, rfl, -⟩ | ⟨hs, rfl, -⟩
  · simpa using fun hn => absurd (Table.mem_of_getElem? hs) hn
  · rw [Option.map_eq_none_iff, Table.not_mem_iff, Table.not_mem_iff, hs]
    simp

theorem Opened.mapFileWorkers_ne {filename : QString} {content : Option (List Symbol)}
    (h : Opened z s w sender filename content s') : s'.mapFileWorkers ≠ s.mapFileWorkers := by
  intro he
  have hl : s'.mapFileWorkers[filename]? = s.mapFileWorkers[filename]? := by rw [he]
  rw [h.mapFileWorkers, Table.getElem?_insert, if_pos rfl] at hl
  cases hf : s.mapFileWorkers[filename]? <;> simp [hf] at hl

theorem sendFile_refusals_iff (ha : Asks s e w sender .fileToOpen doc)
    (h : s.sendFile z d w sender doc = .ok (s', outs)) :
    Refusals w outs (Unchanged s w s' outs) ↔ ¬ HalfApplied d s e := by
  rw [ha.halfApplied_fileToOpen_iff]
  rcases sendFile_ok h with ⟨⟨reason, hf⟩, rfl, message, rfl, -⟩ |
    ⟨filename, content, hf, ho, ⟨message, images, notice, image, others, rfl, hm, -, rfl⟩⟩
  · refine iff_of_true (Refusals.single.mpr fun _ => .refl) ?_
    intro hex
    obtain ⟨filename, hf', -⟩ := hex
    cases hf.symm.trans hf'
  · have hfail : successIs false message ↔ content = none := by
      rw [hm.successIs]
      cases content <;> simp
    rw [Refusals.cons]
    · show (successIs false message → _) ↔ _
      rw [hfail, ho.content_eq_none_iff]
      constructor
      · intro hu hex
        obtain ⟨filename', hf', hnot⟩ := hex
        cases hf.symm.trans hf'
        exact ho.mapFileWorkers_ne (hu hnot).mapFileWorkers
      · intro hn hnot
        exact absurd ⟨filename, hf, hnot⟩ hn
    · intro o hin
      obtain ⟨v, hv, rfl⟩ := List.mem_map.mp hin
      simpa using (List.mem_filter.mp hv).2

/-- The notice that a worker leaves goes to others. -/
theorem Leaves.destination {filename : QString} (h : Leaves z s w sender filename s' outs) :
    ∀ o ∈ outs, o.destination ≠ w := by
  cases h with
  | last => simp
  | others _ _ _ _ hf =>
    intro o hin
    rw [hf.outs] at hin
    obtain ⟨v, hv, rfl⟩ := List.mem_map.mp hin
    simpa using (List.mem_filter.mp hv).2

theorem closeFile_refusals (h : s.closeFile z d w sender doc = .ok (s', outs)) :
    Refusals w outs (Unchanged s w s' outs) := by
  rcases closeFile_ok h with ⟨rfl, message, rfl, -⟩ |
    ⟨filename, s1, outs1, message, -, hl, -, rfl, hm⟩
  · exact Refusals.single.mpr fun _ => .refl
  · intro packet hin hf
    rcases List.mem_append.mp hin with hin | hin
    · exact absurd rfl (hl.destination _ hin)
    · cases List.mem_singleton.mp hin
      cases (hm.successIs false).symm.trans hf

/-- The refusals of a worker that has no nickname yet. -/
theorem jsonReceived_loggedOut_refusals (hw : s.clients[w]? = some sender)
    (hn : sender.nickname = []) (h : s.jsonFromLoggedOut d w sender doc = .ok (s', outs)) :
    Refusals w outs (Unchanged s w s' outs) ↔ ¬ HalfApplied d s (.jsonReceived w doc) := by
  have hout : ∀ {v worker request doc'},
      ¬ Asks s (.jsonReceived w doc) v worker request doc' := by
    intro v worker request doc' hex
    obtain ⟨he, hv, hne, -⟩ := hex
    cases he
    cases hw.symm.trans hv
    exact hne hn
  exact iff_of_true (jsonFromLoggedOut_refusals h) (not_halfApplied hout hout)

/-- The refusals of a worker that has one, request by request. -/
theorem jsonFromLoggedIn_refusals_iff {request : LoggedInRequest}
    (ha : Asks s (.jsonReceived w doc) w sender request doc)
    (h : s.jsonFromLoggedIn z d w sender doc = .ok (s', outs)) :
    Refusals w outs (Unchanged s w s' outs) ↔ ¬ HalfApplied d s (.jsonReceived w doc) := by
  simp only [jsonFromLoggedIn, ha.request] at h
  cases request with
  | nickname =>
    obtain ⟨⟨s1, message⟩, hu, h⟩ := map_eq_ok.mp h
    cases h
    exact updateNick_refusals_iff ha hu
  | password =>
    obtain ⟨⟨s1, message⟩, hu, h⟩ := map_eq_ok.mp h
    cases h
    refine iff_of_true (Refusals.single.mpr fun _ => ?_) (ha.not_halfApplied (by decide))
    rcases updatePass_ok hu with ⟨-, rfl, -⟩ | ⟨u, o, n, r, db', -, -, rfl, -⟩
    · exact .refl
    · exact .database
  | checkOldPassword | listFiles | listSharedFiles =>
    cases h
    exact iff_of_true (Refusals.single.mpr fun _ => .refl) (ha.not_halfApplied (by decide))
  | operation =>
    obtain ⟨list, hf⟩ := (operate_ok h).outs
    refine iff_of_true (fun packet hin => ?_) (ha.not_halfApplied (by decide))
    -- the worker itself is sent nothing
    rw [hf.outs] at hin
    obtain ⟨v, hv, he⟩ := List.mem_map.mp hin
    cases he
    simp at hv
  | newFile =>
    obtain ⟨⟨s1, message⟩, hc, h⟩ := map_eq_ok.mp h
    cases h
    exact iff_of_true (createNewFile_refusals hc) (ha.not_halfApplied (by decide))
  | fileToOpen => exact sendFile_refusals_iff ha h
  | close => exact iff_of_true (closeFile_refusals h) (ha.not_halfApplied (by decide))
  | filenameFromSharedLink =>
    obtain ⟨⟨s1, message⟩, hg, h⟩ := map_eq_ok.mp h
    cases h
    refine iff_of_true (Refusals.single.mpr fun _ => ?_) (ha.not_halfApplied (by decide))
    rcases getFilenameFromSharedLink_ok hg with ⟨rfl, -⟩ | ⟨l, r, f, db', -, -, rfl, -⟩
    · exact .refl
    · exact .database

end Refusals

/-- **Which refusals change nothing.** In every state, for each request in JSON: all but those that
are half applied. -/
theorem refused_unchanged_iff {z : Codec} {d : Driver} {s s' : Server} {w : WorkerId}
    {doc : QJsonObject} {outs : List Output}
    (h : s.handle z d (.jsonReceived w doc) = .ok (s', outs)) :
    (∀ packet, ⟨w, packet⟩ ∈ outs → successIs false packet.message → Unchanged s w s' outs) ↔
      ¬ HalfApplied d s (.jsonReceived w doc) := by
  show Refusals w outs _ ↔ _
  obtain ⟨sender, hw, h⟩ := withWorker_ok h
  unfold jsonReceived at h
  split at h
  case isTrue hn => exact jsonReceived_loggedOut_refusals hw hn h
  case isFalse hn =>
    cases hr : LoggedInRequest.of doc with
    | some request => exact jsonFromLoggedIn_refusals_iff ⟨rfl, hw, hn, hr⟩ h
    | none =>
      simp only [jsonFromLoggedIn, hr] at h
      cases h
      have hout : ∀ {v worker request doc'},
          ¬ Asks s (.jsonReceived w doc) v worker request doc' := by
        intro v worker request doc' hex
        obtain ⟨he, -, -, hr'⟩ := hex
        cases he
        cases hr.symm.trans hr'
      exact iff_of_true (by simp [Refusals]) (not_halfApplied hout hout)

/-- The answer to an event, for the computation. -/
def answer (z : Codec) (d : Driver) (s : Server) (e : Event) : Option (Server × List Output) :=
  (s.handle z d e).toOption

theorem handle_of_answer {z : Codec} {d : Driver} {s : Server} {e : Event}
    {P : Server × List Output → Bool} (h : (answer z d s e).any P = true) :
    ∃ s' outs, s.handle z d e = .ok (s', outs) ∧ P (s', outs) = true := by
  unfold answer at h
  cases hh : s.handle z d e with
  | error f => simp [hh, Except.toOption] at h
  | ok result => exact ⟨result.1, result.2, rfl, by simpa [hh, Except.toOption] using h⟩

/-- A login that is refused. -/
theorem refused_unchanged_login : ∃ h s s' outs, ServerRun .plain (.ofNames ["u"]) h s ∧
    outs.length = 1 ∧
    ((∀ packet, ⟨0, packet⟩ ∈ outs → successIs false packet.message → Unchanged s 0 s' outs) ↔
      ¬ HalfApplied .plain s (.jsonReceived 0 (loginDoc "v"))) := by
  obtain ⟨h, s, hrun, hP⟩ := exists_run .plain (.ofNames ["u"])
    (inputs [.incomingConnection 0])
    (P := fun _ s => (answer .plain .plain s (.jsonReceived 0 (loginDoc "v"))).any fun result =>
      result.2.length = 1)
    (by decide +kernel)
  obtain ⟨s', outs, hh, hlen⟩ := handle_of_answer hP
  exact ⟨h, s, s', outs, hrun, by simpa using hlen, refused_unchanged_iff hh⟩

/-- The requests that change what a worker is called or has open. -/
def changesSession (doc : QJsonObject) : Prop :=
  LoggedOutRequest.of doc = some .login ∨ LoggedInRequest.of doc = some .nickname ∨
    LoggedInRequest.of doc = some .newFile ∨ LoggedInRequest.of doc = some .fileToOpen ∨
    LoggedInRequest.of doc = some .close

/-- **A nickname that is refused stays with the worker.** -/
theorem not_unchanged_nickname : ¬ ∀ z db h s, ServerRun z db h s →
    ∀ d w doc s' outs, changesSession doc → s.handle z d (.jsonReceived w doc) = .ok (s', outs) →
      ∀ packet, ⟨w, packet⟩ ∈ outs → successIs false packet.message → Unchanged s w s' outs := by
  intro hall
  obtain ⟨h, s, hrun, hP⟩ := exists_run .plain (.ofNames ["u"])
    (inputs [.incomingConnection 0, .jsonReceived 0 (loginDoc "u")])
    (P := fun _ s => (s.clients[0]?).map ServerWorker.nickname = some (QString.of "u") ∧
      (answer .plain .plain s (.jsonReceived 0 (renameDoc "x" "n"))).any fun result =>
        (result.1.clients[0]?).map ServerWorker.nickname = some (QString.of "n") ∧
          result.2.any fun o => o.destination = 0 ∧ successIs false o.packet.message)
    (by decide +kernel)
  simp only [Bool.decide_and, Bool.and_eq_true, decide_eq_true_eq, Bool.decide_eq_true] at hP
  obtain ⟨s', outs, hh, hP'⟩ := handle_of_answer hP.2
  simp only [Bool.and_eq_true, decide_eq_true_eq, List.any_eq_true] at hP'
  obtain ⟨hnew, ⟨w, packet⟩, hin, rfl, hf⟩ := hP'
  have hu := hall _ _ h s hrun .plain 0 _ s' outs (.inr (.inl (by decide +kernel))) hh packet hin hf
  rw [hu.worker, hP.1] at hnew
  exact absurd hnew (by decide +kernel)

/-! ## Successes -/

/-- A call of the database layer. -/
inductive DatabaseCall where
  | signup (username password : QString)
  | login (username password : QString)
  | updateNickname (username nickname : QString)
  | updatePassword (username oldpass newpass : QString)
  | checkOldPassword (username oldpass : QString)
  | getFiles (username : QString) (shared : Bool)
  | newFile (username filename : QString)
  | getFilenameFromSharedLink (sharedLink username : QString)
deriving DecidableEq

namespace DatabaseCall

/-- What it returns. -/
def result (d : Driver) (db : Database) : DatabaseCall → Except Fault DatabaseError
  | signup username password => Prod.fst <$> Mongo.signup d db username password
  | login username password => pure (Mongo.login d db username password).1
  | updateNickname username nickname => Prod.fst <$> Mongo.updateNickname d db username nickname
  | updatePassword username oldpass newpass =>
    Prod.fst <$> Mongo.updatePassword d db username oldpass newpass
  | checkOldPassword username oldpass => pure (Mongo.checkOldPassword d db username oldpass)
  | getFiles username shared => pure (Mongo.getFiles d db username shared).1
  | newFile username filename => (·.1.1) <$> Mongo.newFile d db username filename
  | getFilenameFromSharedLink sharedLink username =>
    (·.1.1) <$> Mongo.getFilenameFromSharedLink d db sharedLink username

end DatabaseCall

section Truthful

variable {d : Driver} {z : Codec} {s s' : Server} {db db' : Database} {w : WorkerId}
  {sender : ServerWorker} {doc : QJsonObject} {packet : Packet} {call : Option DatabaseCall}
  {c : DatabaseCall} {r : DatabaseError}

end Truthful

end Scriba.Server
