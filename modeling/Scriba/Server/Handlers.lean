import Scriba.Server.Server

/-! # What each handler does

For each handler that returns: the state it leaves, the answer it gives, and which result of the
database led to it. The faults are not in here, apart from which handlers can run into an entry
that is missing. -/

namespace Scriba.Server

open Scriba.Utility Scriba.Lib

/-! ## Replies -/

/-- A message of some type that tells success or failure. -/
structure IsReply (type : String) (ok : Bool) (message : QJsonObject) : Prop where
  type : message.value "type" = text type
  success : message.value "success" = .bool ok

theorem isReply_refuse (type reason : String) : IsReply type false (refuse type reason) :=
  ⟨rfl, rfl⟩

theorem isReply_refuse_append (type reason : String) (members : QJsonObject) :
    IsReply type false (refuse type reason ++ members) :=
  ⟨rfl, rfl⟩

theorem isReply_accept (type : String) (members : List (String × QJsonValue)) :
    IsReply type true (accept type members) :=
  ⟨rfl, rfl⟩

theorem IsReply.successIs {type : String} {ok : Bool} {message : QJsonObject}
    (h : IsReply type ok message) (b : Bool) : successIs b message = decide (b = ok) := by
  rw [Server.successIs, h.success]

variable {d : Driver} {z : Codec} {s s' : Server} {w : WorkerId} {sender : ServerWorker}
  {doc message : QJsonObject} {outs : List Output}

/-! ## Accounts -/

theorem checkCredentials_cases (h : s.checkCredentials d w sender doc = (s', message)) :
    s' = s ∧ IsReply "login" false message ∨
    ∃ username password nickname, emailField doc = .ok username ∧
      passwordField doc = .ok password ∧ (∀ worker ∈ s.clients.values, worker.username ≠ username) ∧
      Mongo.login d s.db username password = (.success, nickname) ∧
      s' = s.setWorker w { sender with username, nickname } ∧ IsReply "login" true message := by
  unfold checkCredentials at h
  split at h
  · cases h
    exact .inl ⟨rfl, isReply_refuse _ _⟩
  case h_2 username hu =>
    split at h
    · cases h
      exact .inl ⟨rfl, isReply_refuse _ _⟩
    case isFalse hne =>
      split at h
      · cases h
        exact .inl ⟨rfl, isReply_refuse _ _⟩
      case h_2 password hp =>
        split at h <;> cases h
        case h_1 nickname hl =>
          refine .inr ⟨username, password, nickname, hu, hp, ?_, hl, rfl, isReply_accept _ _⟩
          simpa using hne
        all_goals exact .inl ⟨rfl, isReply_refuse _ _⟩

theorem checkAlreadyExistingUsername_ok
    (h : s.checkAlreadyExistingUsername d doc = .ok (s', message)) :
    s' = s ∧ ∃ ok, IsReply "check_username" ok message := by
  unfold checkAlreadyExistingUsername at h
  split at h
  · cases h
    exact ⟨rfl, false, isReply_refuse _ _⟩
  · obtain ⟨⟨r, db'⟩, hdb, h⟩ := bind_eq_ok.mp h
    obtain rfl := Mongo.checkAlreadyExistingUsername_db hdb
    dsimp only at h
    split at h <;> cases h
    · exact ⟨rfl, false, isReply_refuse _ _⟩
    · exact ⟨rfl, false, isReply_refuse _ _⟩
    · exact ⟨rfl, false, isReply_refuse_append _ _ _⟩
    · exact ⟨rfl, true, isReply_accept _ _⟩

theorem updateNick_ok (h : s.updateNick d w sender doc = .ok (s', message)) :
    (∃ reason, updateNickFields doc = .error reason) ∧ s' = s ∧
      IsReply "nickname" false message ∨
    ∃ username nickname r db', updateNickFields doc = .ok (username, nickname) ∧
      Mongo.updateNickname d s.db username nickname = .ok (r, db') ∧
      s' = { s.setWorker w { sender with nickname } with db := db' } ∧
      IsReply "nickname" (decide (r = .success)) message := by
  unfold updateNick at h
  split at h
  case h_1 reason hf =>
    cases h
    exact .inl ⟨⟨reason, hf⟩, rfl, isReply_refuse _ _⟩
  case h_2 username nickname hf =>
    obtain ⟨⟨r, db'⟩, hdb, h⟩ := bind_eq_ok.mp h
    refine .inr ⟨username, nickname, r, db', hf, hdb, ?_⟩
    dsimp only at h
    rcases Mongo.updateNickname_result hdb with rfl | rfl | rfl <;> cases h
    · exact ⟨rfl, isReply_refuse _ _⟩
    · exact ⟨rfl, isReply_refuse _ _⟩
    · exact ⟨rfl, isReply_accept _ _⟩

/-- A query that failed and a password that could not be hashed count as a success. -/
theorem updatePass_ok (h : s.updatePass d doc = .ok (s', message)) :
    (∃ reason, updatePassFields doc = .error reason) ∧ s' = s ∧
      IsReply "password" false message ∨
    ∃ username oldpass newpass r db', updatePassFields doc = .ok (username, oldpass, newpass) ∧
      Mongo.updatePassword d s.db username oldpass newpass = .ok (r, db') ∧
      s' = { s with db := db' } ∧
      IsReply "password" (decide (r ≠ .nonExistingUser ∧ r ≠ .wrongPassword)) message := by
  unfold updatePass at h
  split at h
  case h_1 reason hf =>
    cases h
    exact .inl ⟨⟨reason, hf⟩, rfl, isReply_refuse _ _⟩
  case h_2 username oldpass newpass hf =>
    obtain ⟨⟨r, db'⟩, hdb, h⟩ := bind_eq_ok.mp h
    refine .inr ⟨username, oldpass, newpass, r, db', hf, hdb, ?_⟩
    dsimp only at h
    rcases Mongo.updatePassword_result hdb with rfl | rfl | rfl | rfl | rfl <;> cases h
    · exact ⟨rfl, isReply_accept _ _⟩
    · exact ⟨rfl, isReply_accept _ _⟩
    · exact ⟨rfl, isReply_refuse _ _⟩
    · exact ⟨rfl, isReply_refuse _ _⟩
    · exact ⟨rfl, isReply_accept _ _⟩

theorem checkOldPass_isReply (d : Driver) (s : Server) (doc : QJsonObject) :
    IsReply "old_password_checked" false (s.checkOldPass d doc) ∨
    ∃ username oldpass, checkOldPassFields doc = .ok (username, oldpass) ∧
      IsReply "old_password_checked"
        (decide (Mongo.checkOldPassword d s.db username oldpass = .success))
        (s.checkOldPass d doc) := by
  unfold checkOldPass
  split
  · exact .inl (isReply_refuse _ _)
  case h_2 username oldpass hf =>
    refine .inr ⟨username, oldpass, hf, ?_⟩
    rcases Mongo.checkOldPassword_result d s.db username oldpass with hr | hr | hr | hr <;>
      rw [hr]
    · exact isReply_refuse _ _
    · exact isReply_refuse _ _
    · exact isReply_refuse _ _
    · exact isReply_accept _ _

/-! ## Lists of files -/

/-- A user that does not exist counts as one with a list. -/
theorem getFiles_isReply (d : Driver) (s : Server) (doc : QJsonObject) (shared : Bool) :
    (∃ reason, usernameField doc = .error reason) ∧
      IsReply "list_files" false (s.getFiles d doc shared) ∨
    ∃ username, usernameField doc = .ok username ∧
      IsReply "list_files"
        (decide ((Mongo.getFiles d s.db username shared).1 = .success ∨
          (Mongo.getFiles d s.db username shared).1 = .nonExistingUser))
        (s.getFiles d doc shared) := by
  unfold getFiles
  split
  case h_1 reason hf => exact .inl ⟨⟨reason, hf⟩, isReply_refuse _ _⟩
  case h_2 username hf =>
    refine .inr ⟨username, hf, ?_⟩
    dsimp only
    rcases Mongo.getFiles_result d s.db username shared with hr | hr | hr | hr <;> rw [hr]
    · exact isReply_refuse _ _
    · exact isReply_accept _ _
    · exact isReply_refuse _ _
    · exact isReply_accept _ _

theorem getFilenameFromSharedLink_ok
    (h : s.getFilenameFromSharedLink d sender doc = .ok (s', message)) :
    s' = s ∧ IsReply "filename_from_sharedLink" false message ∨
    ∃ sharedLink r filename db', sharedLinkField doc = .ok sharedLink ∧
      Mongo.getFilenameFromSharedLink d s.db sharedLink sender.username =
        .ok ((r, filename), db') ∧
      s' = { s with db := db' } ∧
      IsReply "filename_from_sharedLink" (decide (r = .success)) message := by
  unfold getFilenameFromSharedLink at h
  split at h
  · cases h
    exact .inl ⟨rfl, isReply_refuse _ _⟩
  case h_2 sharedLink hf =>
    obtain ⟨⟨⟨r, filename⟩, db'⟩, hdb, h⟩ := bind_eq_ok.mp h
    refine .inr ⟨sharedLink, r, filename, db', hf, hdb, ?_⟩
    dsimp only at h
    rcases Mongo.getFilenameFromSharedLink_result hdb with rfl | rfl | rfl <;> cases h
    · exact ⟨rfl, isReply_refuse _ _⟩
    · exact ⟨rfl, isReply_refuse _ _⟩
    · exact ⟨rfl, isReply_accept _ _⟩

/-! ## Creating a file -/

/-- The worker has a new file, the only one of its list. The database had none under that name. -/
structure Created (s : Server) (w : WorkerId) (sender : ServerWorker) (key : QString)
    (s' : Server) : Prop where
  fresh : key ∉ s.db.bucket
  clients : s'.clients = s.clients.insert w { sender with filename := key }
  mapFileWorkers : s'.mapFileWorkers = s.mapFileWorkers.insert key [w]
  memory : key ∈ s.symbolsList ∧ s'.symbolsList = s.symbolsList ∧ s'.changed = s.changed ∨
    key ∉ s.symbolsList ∧ s'.symbolsList = s.symbolsList.insert key ∅ ∧
      s'.changed = s.changed.insert key true
  db : s'.db = { s.db with bucket := s.db.bucket.insert key [] }

theorem insertNewFile_ok {db db' : Database} {key : QString} {inserted : Bool}
    (h : Mongo.insertNewFile d db key = .ok (inserted, db')) :
    inserted = true → key ∉ db.bucket ∧ db' = { db with bucket := db.bucket.insert key [] } := by
  unfold Mongo.insertNewFile at h
  split at h
  · cases h
  · split at h
    case isTrue hb =>
      cases h
      exact nofun
    case isFalse hb =>
      cases h
      exact fun _ => ⟨fun hk => hb (Std.TreeMap.contains_iff_mem.mpr hk), rfl⟩

theorem registerNewFile_ok {key : QString} (h : s.registerNewFile d w sender key = .ok s') :
    Created s w sender key s' := by
  obtain ⟨⟨inserted, db'⟩, hi, h⟩ := bind_eq_ok.mp h
  dsimp only at h
  split at h
  case isFalse => cases h
  case isTrue hin =>
    obtain ⟨hfresh, rfl⟩ := insertNewFile_ok hi hin
    split at h <;> cases h
    case isTrue hm =>
      exact ⟨hfresh, rfl, rfl, .inl ⟨Std.TreeMap.contains_iff_mem.mp hm, rfl, rfl⟩, rfl⟩
    case isFalse hm =>
      exact ⟨hfresh, rfl, rfl,
        .inr ⟨fun hk => hm (Std.TreeMap.contains_iff_mem.mpr hk), rfl, rfl⟩, rfl⟩

theorem createNewFile_ok (h : s.createNewFile d w sender doc = .ok (s', message)) :
    (∃ reason, createNewFileFields doc = .error reason) ∧ s' = s ∧
      IsReply "new_file" false message ∨
    ∃ username filename r link db', createNewFileFields doc = .ok (username, filename) ∧
      Mongo.newFile d s.db username filename = .ok ((r, link), db') ∧
      ((r = .queryError ∨ r = .alreadyExistingFile) ∧ s' = { s with db := db' } ∧
          IsReply "new_file" false message ∨
        (r = .nonExistingUser ∨ r = .success) ∧
          Created { s with db := db' } w sender (fileKey filename username) s' ∧
          IsReply "new_file" true message) := by
  unfold createNewFile at h
  split at h
  case h_1 reason hf =>
    cases h
    exact .inl ⟨⟨reason, hf⟩, rfl, isReply_refuse _ _⟩
  case h_2 username filename hf =>
    obtain ⟨⟨⟨r, link⟩, db'⟩, hdb, h⟩ := bind_eq_ok.mp h
    refine .inr ⟨username, filename, r, link, db', hf, hdb, ?_⟩
    dsimp only at h
    rcases Mongo.newFile_result hdb with rfl | rfl | rfl | rfl
    · cases h
      exact .inl ⟨.inl rfl, rfl, isReply_refuse _ _⟩
    · cases h
      exact .inl ⟨.inr rfl, rfl, isReply_refuse _ _⟩
    all_goals
      obtain ⟨s1, hreg, h⟩ := bind_eq_ok.mp h
      cases h
      exact .inr ⟨by simp, registerNewFile_ok hreg, isReply_accept _ _⟩

/-! ## Forwarding -/

/-- What a broadcast sends. -/
structure Forwarded (s : Server) (w : WorkerId) (filename : QString) (packet : Packet)
    (outs : List Output) (list : List WorkerId) : Prop where
  entry : s.mapFileWorkers[filename]? = some list
  alive : ∀ v ∈ list, v ≠ w → v ∈ s.clients
  outs : outs = (list.filter (· ≠ w)).map fun v => ⟨v, packet⟩

theorem broadcast_ok {filename : QString} {packet : Packet}
    (h : s.broadcast w filename packet = .ok outs) :
    ∃ list, Forwarded s w filename packet outs list := by
  unfold broadcast at h
  split at h
  · cases h
  case h_2 list hl =>
    dsimp only at h
    split at h <;> cases h
    case isTrue hall =>
      refine ⟨list, hl, fun v hv hne => ?_, rfl⟩
      simp only [List.all_eq_true, Std.TreeMap.contains_iff_mem] at hall
      exact hall v (List.mem_filter.mpr ⟨hv, by simpa using hne⟩)

/-- The symbols of the file are updated; `filename` has to be in memory if there are any to
update. -/
structure Operated (s : Server) (w : WorkerId) (filename : QString) (op : Operation)
    (packet : Packet) (s' : Server) (outs : List Output) : Prop where
  memory : op.symbols = [] ∧ s'.symbolsList = s.symbolsList ∨
    ∃ symbols, s.symbolsList[filename]? = some symbols ∧
      s'.symbolsList = s.symbolsList.insert filename (op.apply symbols)
  changed : s'.changed = s.changed.insert filename true
  clients : s'.clients = s.clients
  mapFileWorkers : s'.mapFileWorkers = s.mapFileWorkers
  db : s'.db = s.db
  outs : ∃ list, Forwarded s w filename packet outs list

theorem operate_ok {filename : QString} {op : Operation} {packet : Packet}
    (h : s.operate w filename op packet = .ok (s', outs)) :
    Operated s w filename op packet s' outs := by
  obtain ⟨s1, hu, h⟩ := bind_eq_ok.mp h
  obtain ⟨outs1, hb, h⟩ := bind_eq_ok.mp h
  cases h
  obtain ⟨list, hl⟩ := broadcast_ok hb
  unfold updateSymbols at hu
  split at hu
  case isTrue hop =>
    cases hu
    exact ⟨.inl ⟨hop, rfl⟩, rfl, rfl, rfl, rfl, list, hl.entry, hl.alive, hl.outs⟩
  case isFalse =>
    split at hu
    · cases hu
    case h_2 symbols hs =>
      cases hu
      exact ⟨.inr ⟨symbols, hs, rfl⟩, rfl, rfl, rfl, rfl, list, hl.entry, hl.alive, hl.outs⟩

/-! ## Opening a file -/

/-- The worker is at the end of the list of the file, and the file is in memory. `content` is what
was found of it, in memory or in the database. -/
structure Opened (z : Codec) (s : Server) (w : WorkerId) (sender : ServerWorker)
    (filename : QString) (content : Option (List Symbol)) (s' : Server) : Prop where
  clients : s'.clients = s.clients.insert w { sender with filename }
  mapFileWorkers : s'.mapFileWorkers =
    s.mapFileWorkers.insert filename ((s.mapFileWorkers[filename]?).getD [] ++ [w])
  memory : (∃ symbols, s.symbolsList[filename]? = some symbols ∧ content = some symbols.values ∧
      s'.symbolsList = s.symbolsList ∧ s'.changed = s.changed) ∨
    s.symbolsList[filename]? = none ∧
      content = (s.db.bucket[filename]?).map (fun data => readSymbols (z.qUncompress data)) ∧
      s'.symbolsList =
        s.symbolsList.insert filename (SymbolMap.storeSymbolsServerMemory (content.getD [])) ∧
      s'.changed = s.changed.insert filename false
  db : s'.db = s.db

/-- What is sent then: the content to the worker, a notice to the others. -/
structure Announced (s : Server) (w : WorkerId) (sender : ServerWorker) (filename : QString)
    (content : Option (List Symbol)) (outs : List Output) : Prop where
  sent : ∃ message images notice image others, outs =
      ⟨w, .fileContentImage message (content.getD []) images⟩ ::
        others.map (fun v => ⟨v, .byteArray notice image⟩) ∧
    IsReply "file_to_open" content.isSome message ∧ notice.value "type" = text "connection" ∧
    others = ((s.mapFileWorkers[filename]?).getD []).filter (· ≠ w)

theorem retrieveFile_ok {db : Database} {filename : QString} {content : Option (List Symbol)}
    (h : Mongo.retrieveFile z d db filename = .ok content) :
    content = (db.bucket[filename]?).map fun data => readSymbols (z.qUncompress data) := by
  unfold Mongo.retrieveFile at h
  split at h <;> cases h
  rfl

theorem sendFile_ok (h : s.sendFile z d w sender doc = .ok (s', outs)) :
    (∃ reason, sendFileField doc = .error reason) ∧ s' = s ∧
      (∃ message, outs = [⟨w, .jsonImage message []⟩] ∧ IsReply "file_to_open" false message) ∨
    ∃ filename content, sendFileField doc = .ok filename ∧
      Opened z s w sender filename content s' ∧ Announced s w sender filename content outs := by
  unfold sendFile at h
  split at h
  case h_1 reason hf =>
    cases h
    exact .inl ⟨⟨reason, hf⟩, rfl, _, rfl, isReply_refuse _ _⟩
  case h_2 filename hf =>
    obtain ⟨users, hu, h⟩ := bind_eq_ok.mp h
    obtain ⟨content, hc, h⟩ := bind_eq_ok.mp h
    obtain ⟨image, hi, h⟩ := bind_eq_ok.mp h
    obtain ⟨others, hb, h⟩ := bind_eq_ok.mp h
    obtain ⟨list, hl⟩ := broadcast_ok hb
    cases h
    refine .inr ⟨filename, content, hf, ?_, ?_⟩
    · have hm : (s.registerWorker w sender filename).symbolsList.contains filename = true ↔
          filename ∈ s.symbolsList := Std.TreeMap.contains_iff_mem
      unfold fileContent at hc
      split at hc
      case h_1 symbols hs =>
        cases hc
        rw [if_pos (hm.mpr (Lib.Table.mem_of_getElem? hs))]
        exact ⟨rfl, rfl, .inl ⟨symbols, hs, rfl, rfl, rfl⟩, rfl⟩
      case h_2 hs =>
        rw [if_neg fun hin => Lib.Table.not_mem_iff.mpr hs (hm.mp hin)]
        refine ⟨rfl, rfl, .inr ⟨hs, retrieveFile_ok hc, ?_, rfl⟩, rfl⟩
        have hnone : ((s.registerWorker w sender filename).symbolsList)[filename]? = none := hs
        simp only [storeSymbolsServerMemory, hnone]
        rfl
    · obtain rfl : (s.mapFileWorkers[filename]?).getD [] ++ [w] = list := by
        simpa [registerWorker, Lib.Table.getElem?_insert] using hl.entry
      refine ⟨_, _, _, _, _, by rw [hl.outs], ?_, rfl, ?_⟩
      · cases content with
        | none => exact isReply_refuse _ _
        | some symbols => exact isReply_accept _ _
      · simp

/-! ## Saving -/

/-- What is stored under a name after all that changed was saved. Only files of the bucket are. -/
def savedContent (z : Codec) (s : Server) (key : QString) : Option QByteArray :=
  match s.symbolsList[key]? with
  | none => s.db.bucket[key]?
  | some symbols =>
    if s.changed[key]? = some true ∧ key ∈ s.db.bucket then
      some (z.qCompress (writeSymbols symbols.values))
    else s.db.bucket[key]?

/-- Saved but for the entries that are left. -/
structure Saving (z : Codec) (s : Server) (left : List (QString × SymbolMap)) (s' : Server) :
    Prop where
  clients : s'.clients = s.clients
  mapFileWorkers : s'.mapFileWorkers = s.mapFileWorkers
  symbolsList : s'.symbolsList = s.symbolsList
  users : s'.db.users = s.db.users
  images : s'.db.images = s.db.images
  nodup : (left.map Prod.fst).Nodup
  listed : ∀ e ∈ left, s.symbolsList[e.1]? = some e.2
  changed : ∀ key, s'.changed[key]? =
    if key ∈ s.symbolsList ∧ key ∉ left.map Prod.fst then some false else s.changed[key]?
  bucket : ∀ key, s'.db.bucket[key]? =
    if key ∈ left.map Prod.fst then s.db.bucket[key]? else savedContent z s key
  small : ∀ key symbols, s.symbolsList[key]? = some symbols → key ∉ left.map Prod.fst →
    s.changed[key]? = some true → (writeSymbols symbols.values).length < 2 ^ 31

/-- All that changed is saved. -/
abbrev Saved (z : Codec) (s s' : Server) : Prop := Saving z s [] s'

theorem Saving.start (z : Codec) (s : Server) : Saving z s s.symbolsList.toList s := by
  have hkey : ∀ {key symbols}, s.symbolsList[key]? = some symbols →
      key ∈ s.symbolsList.toList.map Prod.fst := fun h =>
    List.mem_map_of_mem (Lib.Table.mem_toList.mpr h)
  refine ⟨rfl, rfl, rfl, rfl, rfl, Lib.Table.nodup_keys _, fun e he => Lib.Table.mem_toList.mp he,
    fun key => ?_, fun key => ?_, fun key symbols hs hn => absurd (hkey hs) hn⟩
  · rw [if_neg]
    intro hex
    obtain ⟨hm, hn⟩ := hex
    obtain ⟨symbols, hs⟩ := Lib.Table.exists_of_mem hm
    exact hn (hkey hs)
  · split_ifs with hm
    · rfl
    · rw [savedContent]
      cases hs : s.symbolsList[key]? with
      | none => rfl
      | some symbols => exact absurd (hkey hs) hm

theorem saveFile_db {db db' : Database} {key : QString} {data : QByteArray}
    (h : Mongo.saveFile d db key data = .ok db') : db'.users = db.users ∧
      db'.images = db.images ∧ ∀ k, db'.bucket[k]? =
        if k = key ∧ key ∈ db.bucket then some data else db.bucket[k]? := by
  unfold Mongo.saveFile at h
  split at h
  · cases h
  · split at h
    case isTrue hm =>
      cases h
      have hm := Std.TreeMap.contains_iff_mem.mp hm
      exact ⟨rfl, rfl, fun k => by simp [Lib.Table.getElem?_insert, hm]⟩
    case isFalse hm =>
      cases h
      have hm : key ∉ db.bucket := fun h => hm (Std.TreeMap.contains_iff_mem.mpr h)
      exact ⟨rfl, rfl, fun k => by simp [hm]⟩

theorem saveSymbols_ok {key : QString} {symbols : SymbolMap} {db' : Database}
    (h : s.saveSymbols z d key symbols = .ok db') : db'.users = s.db.users ∧
      db'.images = s.db.images ∧
      (s.changed[key]? = some true → (writeSymbols symbols.values).length < 2 ^ 31) ∧
      ∀ k, db'.bucket[k]? =
        if k = key ∧ s.changed[key]? = some true ∧ key ∈ s.db.bucket then
          some (z.qCompress (writeSymbols symbols.values))
        else s.db.bucket[k]? := by
  unfold saveSymbols at h
  split at h
  case isTrue hc =>
    dsimp only at h
    split at h
    · cases h
    case isFalse hlen =>
      obtain ⟨hu, hi, hb⟩ := saveFile_db h
      exact ⟨hu, hi, fun _ => by omega, fun k => by rw [hb k]; simp [hc]⟩
  case isFalse hc =>
    cases h
    exact ⟨rfl, rfl, fun h => absurd h hc, fun k => by simp [hc]⟩

theorem Saving.step {entry : QString × SymbolMap} {left : List (QString × SymbolMap)}
    {s1 s2 : Server} (h : Saving z s (entry :: left) s1)
    (hs : s1.saveEntry z d entry = .ok s2) : Saving z s left s2 := by
  obtain ⟨key, symbols⟩ := entry
  obtain ⟨db', hdb, h2⟩ := bind_eq_ok.mp hs
  cases h2
  obtain ⟨hu, hi, hlen, hb⟩ := saveSymbols_ok hdb
  have hmem : s.symbolsList[key]? = some symbols := h.listed (key, symbols) (by simp)
  obtain ⟨hout, hnodup⟩ := List.nodup_cons.mp h.nodup
  -- the entry of this round is still as it was at the start
  have hch : s1.changed[key]? = s.changed[key]? := by rw [h.changed key, if_neg (by simp)]
  have hbk : s1.db.bucket[key]? = s.db.bucket[key]? := by rw [h.bucket key, if_pos (by simp)]
  have hin : key ∈ s1.db.bucket ↔ key ∈ s.db.bucket := by
    simp only [Std.TreeMap.mem_iff_isSome_getElem?, hbk]
  have hleft : ∀ k, k ≠ key →
      (k ∈ ((key, symbols) :: left).map Prod.fst ↔ k ∈ left.map Prod.fst) := by
    intro k hk
    rw [List.map_cons, List.mem_cons, or_iff_right hk]
  refine { h with
    users := hu.trans h.users, images := hi.trans h.images, nodup := hnodup
    listed := fun e he => h.listed e (List.mem_cons_of_mem _ he)
    changed := fun k => ?_, bucket := fun k => ?_, small := fun k symbols' hs' hn hc => ?_ }
  · rw [Lib.Table.getElem?_insert]
    by_cases hk : k = key
    · subst hk
      rw [if_pos rfl, if_pos ⟨Lib.Table.mem_of_getElem? hmem, hout⟩]
    · rw [if_neg hk, h.changed k]
      simp only [hleft k hk]
  · rw [hb k]
    by_cases hk : k = key
    · subst hk
      rw [if_neg hout, savedContent, hmem]
      simp only [hch, hin, hbk, true_and]
    · rw [if_neg (by tauto), h.bucket k]
      simp only [hleft k hk]
  · by_cases hk : k = key
    · subst hk
      cases hs'.symm.trans hmem
      exact hlen (hch.trans hc)
    · exact h.small k symbols' hs' (mt (hleft k hk).mp hn) hc

theorem saveFile_ok (h : s.saveFile z d = .ok s') : Saved z s s' :=
  foldlM_rest (Saving z s) (fun _ _ _ _ hI hs => hI.step hs) (Saving.start z s) h

/-! ## Leaving a file -/

/-- The worker is off the list of the file. With the last one of the list all is saved, and the
entries under the name that the sender has are gone. -/
inductive Leaves (z : Codec) (s : Server) (w : WorkerId) (sender : ServerWorker)
    (filename : QString) : Server → List Output → Prop
  | last {workers : List WorkerId} {s1 : Server} :
      s.mapFileWorkers[filename]? = some workers → w ∈ workers → workers.erase w = [] →
      Saved z { s with mapFileWorkers := s.mapFileWorkers.erase filename } s1 →
      Leaves z s w sender filename
        { s1 with
          symbolsList := s1.symbolsList.erase sender.filename
          changed := s1.changed.erase sender.filename } []
  | others {workers list : List WorkerId} {notice : QJsonObject} {outs : List Output} :
      s.mapFileWorkers[filename]? = some workers → w ∈ workers → workers.erase w ≠ [] →
      notice.value "type" = text "disconnection" →
      Forwarded { s with mapFileWorkers := s.mapFileWorkers.insert filename (workers.erase w) }
        w sender.filename (.json notice) outs list →
      Leaves z s w sender filename
        { s with mapFileWorkers := s.mapFileWorkers.insert filename (workers.erase w) } outs

/-- The worker is on the list of the file. -/
def Registered (s : Server) (w : WorkerId) (filename : QString) : Prop :=
  ∃ list, s.mapFileWorkers[filename]? = some list ∧ w ∈ list

theorem leave_ok {filename : QString} {result : Option (Server × List Output)}
    (h : s.udpateSymbolListAndCommunicateDisconnection z d filename w sender = .ok result) :
    result = none ∧ ¬ Registered s w filename ∨
    ∃ s' outs, result = some (s', outs) ∧ Leaves z s w sender filename s' outs := by
  unfold udpateSymbolListAndCommunicateDisconnection at h
  split at h
  case h_1 hn =>
    cases h
    refine .inl ⟨rfl, ?_⟩
    intro hex
    obtain ⟨list, hl, -⟩ := hex
    cases hl.symm.trans hn
  case h_2 workers hw =>
    split at h
    case isTrue hout =>
      cases h
      refine .inl ⟨rfl, ?_⟩
      intro hex
      obtain ⟨list, hl, hin⟩ := hex
      cases hl.symm.trans hw
      exact hout hin
    case isFalse hin =>
      split at h
      case isTrue he =>
        obtain ⟨s1, hsave, h⟩ := bind_eq_ok.mp h
        cases h
        exact .inr ⟨_, _, rfl, .last hw (not_not.mp hin) he (saveFile_ok hsave)⟩
      case isFalse he =>
        obtain ⟨outs, hb, h⟩ := bind_eq_ok.mp h
        cases h
        obtain ⟨list, hl⟩ := broadcast_ok hb
        exact .inr ⟨_, _, rfl, .others hw (not_not.mp hin) he rfl hl⟩

theorem closeFile_ok (h : s.closeFile z d w sender doc = .ok (s', outs)) :
    s' = s ∧ (∃ message, outs = [⟨w, .json message⟩] ∧ IsReply "close" false message) ∨
    ∃ filename s1 outs1 message, closeFileField doc = .ok filename ∧
      Leaves z s w sender filename s1 outs1 ∧
      s' = s1.setWorker w { sender with filename := [] } ∧
      outs = outs1 ++ [⟨w, .json message⟩] ∧ IsReply "close" true message := by
  unfold closeFile at h
  split at h
  · cases h
    exact .inl ⟨rfl, _, rfl, isReply_refuse _ _⟩
  case h_2 filename hf =>
    obtain ⟨result, hr, h⟩ := bind_eq_ok.mp h
    rcases leave_ok hr with ⟨rfl, -⟩ | ⟨s1, outs1, rfl, hl⟩ <;> cases h
    · exact .inl ⟨rfl, _, rfl, isReply_refuse _ _⟩
    · exact .inr ⟨filename, s1, outs1, _, hf, hl, rfl, rfl, isReply_accept _ _⟩

theorem userDisconnected_ok (h : s.userDisconnected z d w sender = .ok (s', outs)) :
    (sender.filename = [] ∨ ¬ Registered s w sender.filename) ∧
      s' = { s with clients := s.clients.erase w } ∧ outs = [] ∨
    sender.filename ≠ [] ∧
      Leaves z { s with clients := s.clients.erase w } w sender sender.filename s' outs := by
  unfold userDisconnected at h
  dsimp only at h
  split at h
  case isTrue hf =>
    cases h
    exact .inl ⟨.inl hf, rfl, rfl⟩
  case isFalse hf =>
    obtain ⟨result, hr, h⟩ := bind_eq_ok.mp h
    rcases leave_ok hr with ⟨rfl, hn⟩ | ⟨s1, outs1, rfl, hl⟩ <;> cases h
    · exact .inl ⟨.inr hn, rfl, rfl⟩
    · exact .inr ⟨hf, hl⟩

/-! ## Arrays of bytes -/

theorem storeImage_ok {db db' : Database} {username : QString} {rest : QByteArray}
    (h : storeImage d db username rest = .ok db') :
    db' = db ∨ leadingSize rest ≠ 0 ∧
      ∃ image, db' = { db with images := db.images.insert (imageKey username) image } := by
  unfold storeImage at h
  split at h
  · cases h
    exact .inl rfl
  case isFalse hsize =>
    unfold Mongo.upsertImage at h
    split at h <;> cases h
    exact .inr ⟨hsize, _, rfl⟩

/-- The name of the user in a message that comes as an array of bytes. -/
def imageUsername (doc : QJsonObject) : QString := (doc.value "username").toString.simplified

/-- A name that is not empty is a string. -/
theorem isString_of_imageUsername (h : imageUsername doc ≠ []) :
    ((doc.value "username").isNull || ! (doc.value "username").isString) = false := by
  unfold imageUsername at h
  cases hv : doc.value "username" with
  | string => rfl
  | _ => exact absurd (by rw [hv]; rfl) h

/-- A password that could not be hashed counts as a success. -/
theorem signup_ok {rest : QByteArray} (h : s.signup d doc rest = .ok (s', message)) :
    (imageUsername doc = [] ∨ ∃ reason, passwordField doc = .error reason) ∧ s' = s ∧
      ((∃ reason, message = refuseUntyped reason) ∨ IsReply "signup" false message) ∨
    ∃ password r db', imageUsername doc ≠ [] ∧ passwordField doc = .ok password ∧
      Mongo.signup d s.db (imageUsername doc) password = .ok (r, db') ∧
      ((r = .queryError ∨ r = .alreadyExistingUser) ∧ s' = { s with db := db' } ∧
          IsReply "signup" false message ∨
        (r = .success ∨ r = .cryptoError) ∧ imageUsername doc ∉ s.db.users ∧
          (∃ db2, storeImage d db' (imageUsername doc) rest = .ok db2 ∧ s' = { s with db := db2 }) ∧
          IsReply "signup" true message) := by
  unfold signup at h
  dsimp only at h
  split at h
  case isTrue he =>
    cases h
    exact .inl ⟨.inl he, rfl, .inl ⟨_, rfl⟩⟩
  case isFalse hne =>
    rw [if_neg (by rw [isString_of_imageUsername hne]; nofun)] at h
    split at h
    case h_1 reason hp =>
      cases h
      exact .inl ⟨.inr ⟨reason, hp⟩, rfl, .inr (isReply_refuse _ _)⟩
    case h_2 password hp =>
      obtain ⟨⟨r, db'⟩, hdb, h⟩ := bind_eq_ok.mp h
      refine .inr ⟨password, r, db', hne, hp, hdb, ?_⟩
      dsimp only at h
      rcases Mongo.signup_result hdb with rfl | rfl | ⟨hfresh, rfl | rfl⟩
      · cases h
        exact .inl ⟨.inl rfl, rfl, isReply_refuse _ _⟩
      · cases h
        exact .inl ⟨.inr rfl, rfl, isReply_refuse _ _⟩
      all_goals
        obtain ⟨db2, hi, h⟩ := bind_eq_ok.mp h
        cases h
        exact .inr ⟨by simp, hfresh, ⟨db2, hi, rfl⟩, isReply_accept _ _⟩

theorem updateImage_ok {rest : QByteArray} (h : s.updateImage d doc rest = .ok s') :
    s' = s ∨ imageUsername doc ≠ [] ∧ leadingSize rest ≠ 0 ∧ ∃ image, s' = { s with db :=
      { s.db with images := s.db.images.insert (imageKey (imageUsername doc)) image } } := by
  unfold updateImage at h
  dsimp only at h
  split at h
  · cases h
    exact .inl rfl
  case isFalse hne =>
    obtain ⟨db', hi, h⟩ := bind_eq_ok.mp h
    cases h
    rcases storeImage_ok hi with rfl | ⟨hsize, image, rfl⟩
    · exact .inl rfl
    · exact .inr ⟨hne, hsize, image, rfl⟩

theorem bulkOperation_ok {rest : QByteArray}
    (h : s.bulkOperation w sender doc rest = .ok (s', outs)) :
    s' = s ∧ (Operation.ofBulk doc = none ∨ (doc.value "operation_type").isNull) ∧
      (∃ reason, outs = [⟨w, .json (refuseUntyped reason)⟩]) ∨
    ∃ op, Operation.ofBulk doc = some op ∧ leadingSize rest ≠ 0 ∧
      Operated s w sender.filename (op (readSymbols (block rest))) (.byteArray doc (block rest))
        s' outs := by
  unfold bulkOperation at h
  split at h
  case isTrue hnull =>
    cases h
    exact .inl ⟨rfl, .inr hnull, _, rfl⟩
  case isFalse hnull =>
    split at h
    case h_1 hop =>
      cases h
      exact .inl ⟨rfl, .inl hop, _, rfl⟩
    case h_2 op hop =>
      split at h
      · cases h
      case isFalse hsize => exact .inr ⟨op, hop, hsize, operate_ok h⟩

end Scriba.Server
