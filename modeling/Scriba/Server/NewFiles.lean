import Scriba.Server.Accounts
import Scriba.Server.Storage

/-! # New files

A file is listed by its user and stored in the bucket under its name with that of its author. The
first keeps the names of one user apart. `createNewFile` takes it that the second does so too, and
it does as long as new files have authors who exist, and no two files the same name with author. -/

namespace Scriba.Server

open Scriba.Utility Scriba.Lib

/-- The user lists a file of that name. -/
def Owns (db : Database) (username filename : QString) : Prop :=
  ∃ user, db.users[username]? = some user ∧ ∃ file ∈ user.files, file.name = filename

/-- Each file of the bucket is listed by its author. -/
def Stocked (db : Database) : Prop :=
  ∀ key ∈ db.bucket, ∃ username filename, Owns db username filename ∧
    key = fileKey filename username

/-- A request for a new file has an author who exists, unless the search for the author throws;
no file of another user has its name with author. -/
structure Attributed (s : Server) (i : Input) : Prop where
  author : ∀ w sender doc username filename, Asks s i.event w sender .newFile doc →
    createNewFileFields doc = .ok (username, filename) →
    i.driver.fails .find ∨ username ∈ s.db.users
  alone : ∀ w sender doc username filename, Asks s i.event w sender .newFile doc →
    createNewFileFields doc = .ok (username, filename) →
    ∀ owner name, Owns s.db owner name → fileKey name owner = fileKey filename username →
      owner = username

/-- A new file that is granted is none of the bucket, and the handler returns unless the bucket
fails. -/
def Creates (z : Codec) (s : Server) (i : Input) : Prop :=
  ∀ w sender doc username filename db', Asks s i.event w sender .newFile doc →
    createNewFileFields doc = .ok (username, filename) →
    Granted i.driver s.db username filename db' →
    fileKey filename username ∉ s.db.bucket ∧
      (¬ i.driver.fails .bucket → ∃ r, s.handle z i.driver i.event = .ok r)

section Owns

variable {db : Database} {username filename v : QString} {f : User → User}

theorem Owns.congr {db' : Database} (h : Owns db username filename) (hu : db'.users = db.users) :
    Owns db' username filename := by
  rwa [Owns, hu]

/-- No update takes a file from a list. -/
theorem Owns.modify {db' : Database} (h : Owns db username filename)
    (hu : db'.users = db.users.modify v f) (hf : ∀ user, user.files ⊆ (f user).files) :
    Owns db' username filename := by
  obtain ⟨user, huser, file, hfile, hname⟩ := h
  have hlookup : db'.users[username]? =
      some (if username = v then f user else user) := by
    rw [hu, Table.getElem?_modify]
    split_ifs with hv
    · rw [← hv, huser, Option.map_some]
    · exact huser
  refine ⟨_, hlookup, file, ?_, hname⟩
  split_ifs
  · exact hf user hfile
  · exact hfile

theorem addShared_files (file : SharedFile) (user : User) :
    (user.addShared file).files = user.files := by
  unfold User.addShared
  split <;> rfl

end Owns

section Steps

variable {z : Codec} {d : Driver} {s s' : Server} {db db' : Database} {e : Event} {w : WorkerId}
  {sender : ServerWorker} {doc : QJsonObject} {outs : List Output}
  {username filename key : QString}

theorem Stores.owns (h : Stores z s e db') (ho : Owns s.db username filename) :
    Owns db' username filename := by
  cases h with
  | password => exact ho.modify rfl fun _ _ h => h
  | shared => exact ho.modify rfl fun user _ h => by rwa [addShared_files]
  | refused => exact ho.modify rfl fun _ _ h => List.mem_append_left _ h
  | @signedUp _ _ doc _ _ _ _ _ hfresh =>
    obtain ⟨user, huser, hfile⟩ := ho
    refine ⟨user, ?_, hfile⟩
    rw [Table.getElem?_insert, if_neg, huser]
    rintro rfl
    exact hfresh (Table.mem_of_getElem? huser)
  | image => exact ho.congr rfl

/-- **Listed files stay listed.** -/
theorem Effect.owns (he : Effect z d s e s' outs) (ho : Owns s.db username filename) :
    Owns s'.db username filename := by
  rcases he.accounts with ⟨hu, -⟩ | ⟨db', hs, hu, -⟩ | ⟨v, nickname, -, hu, -⟩
  · exact ho.congr hu
  · exact (hs.owns ho).congr hu
  · exact ho.modify hu fun _ _ h => h

theorem Saved.of_mem_bucket (h : Saved z s s') (hk : key ∈ s'.db.bucket) : key ∈ s.db.bucket := by
  obtain ⟨content, hc⟩ := Table.exists_of_mem hk
  rw [h.content key, savedContent] at hc
  cases hs : s.symbolsList[key]? with
  | none =>
    simp only [hs] at hc
    exact Table.mem_of_getElem? hc
  | some symbols =>
    simp only [hs] at hc
    split_ifs at hc with hcond
    · exact hcond.2
    · exact Table.mem_of_getElem? hc

theorem Leaves.of_mem_bucket (h : Leaves z s w sender filename s' outs)
    (hk : key ∈ s'.db.bucket) : key ∈ s.db.bucket := by
  cases h with
  | last _ _ _ hsaved => exact hsaved.of_mem_bucket hk
  | others => exact hk

/-- **What comes into the bucket** is a new file. -/
theorem Effect.of_mem_bucket (he : Effect z d s e s' outs) (hk : key ∈ s'.db.bucket) :
    key ∈ s.db.bucket ∨ ∃ w sender doc username filename db',
      Asks s e w sender .newFile doc ∧ createNewFileFields doc = .ok (username, filename) ∧
      Granted d s.db username filename db' ∧ s'.db.users = db'.users ∧
      key = fileKey filename username := by
  cases he with
  | connected | answered | loggedIn | disconnected => exact .inl hk
  | stored _ hst => exact .inl (hst.bucket ▸ hk)
  | renamed _ _ hdb => exact .inl (by rcases hdb with rfl | rfl <;> exact hk)
  | operated _ hop => exact .inl (hop.db ▸ hk)
  | @created w sender doc message username filename db' s' ha hf hg hc =>
    rw [hc.db] at hk
    rcases Table.mem_insert.mp hk with rfl | hk
    · exact .inr ⟨w, sender, doc, username, filename, db', ha, hf, hg, by rw [hc.db], rfl⟩
    · exact .inl (hg.bucket ▸ hk)
  | opened _ _ ho => exact .inl (ho.db ▸ hk)
  | closed _ _ hl => exact .inl (hl.of_mem_bucket hk)
  | left _ _ _ hl => exact .inl (hl.of_mem_bucket hk)
  | saved _ hsaved => exact .inl (hsaved.of_mem_bucket hk)

/-- What is granted to a user is listed then, and was not before. -/
theorem Mongo.newFile_owns {link : QString}
    (h : Mongo.newFile d db username filename = .ok ((.success, link), db')) :
    ¬ Owns db username filename ∧ Owns db' username filename := by
  obtain ⟨hu, rfl⟩ := Mongo.newFile_success h
  obtain ⟨user, huser⟩ := Table.exists_of_mem hu
  constructor
  · intro hex
    obtain ⟨user', huser', hfile⟩ := hex
    have hs := transaction_ok h
    cases hc : d.fails .commit <;> grind [settle_ok, settle_error, settle_commit]
  · refine ⟨user.pushFile ⟨filename, link⟩, ?_, ⟨filename, link⟩, by simp [User.pushFile], rfl⟩
    rw [Database.updateUser, Table.getElem?_modify, if_pos rfl, huser, Option.map_some]

/-- Nothing is written for an author who does not exist. -/
theorem Mongo.newFile_stranger (hs : ¬ d.fails .startSession) (hfind : ¬ d.fails .find)
    (hu : username ∉ db.users) :
    Mongo.newFile d db username filename = .ok ((.nonExistingUser, []), db) := by
  simp only [newFile, transaction, hs, hfind, Table.not_mem_iff.mp hu]
  rfl

theorem Mongo.newFile_session {r : (DatabaseError × QString) × Database}
    (h : Mongo.newFile d db username filename = .ok r) : ¬ d.fails .startSession := by
  intro hs
  simp only [newFile, transaction, hs, if_true] at h
  cases h

/-- The author of a file that is granted exists. -/
theorem Granted.success {i : Input} (hg : Granted i.driver s.db username filename db')
    (hat : Attributed s i) (ha : Asks s i.event w sender .newFile doc)
    (hf : createNewFileFields doc = .ok (username, filename)) :
    ∃ link, Mongo.newFile i.driver s.db username filename = .ok ((.success, link), db') := by
  obtain ⟨r, link, hnew, rfl | rfl⟩ := hg
  · obtain ⟨hfind, hu⟩ := (Mongo.newFile_nonExistingUser_iff hnew).mp rfl
    rcases hat.author _ _ _ _ _ ha hf with hfails | hmem
    · exact absurd hfails hfind
    · exact absurd hmem hu
  · exact ⟨link, hnew⟩

/-- **Each step keeps the bucket stocked.** -/
theorem Stocked.step {i : Input} (hs : Stocked s.db) (hat : Attributed s i)
    (he : Effect z i.driver s i.event s' outs) : Stocked s'.db := by
  intro key hk
  rcases he.of_mem_bucket hk with hk |
    ⟨w, sender, doc, username, filename, db', ha, hf, hg, hu, rfl⟩
  · obtain ⟨username, filename, ho, rfl⟩ := hs key hk
    exact ⟨username, filename, he.owns ho, rfl⟩
  · obtain ⟨link, hnew⟩ := hg.success hat ha hf
    exact ⟨username, filename, (Mongo.newFile_owns hnew).2.congr hu, rfl⟩

/-- Only a file of that name stops a new one. -/
theorem registerNewFile_returns_iff (hb : ¬ d.fails .bucket) :
    (∃ s', s.registerNewFile d w sender key = .ok s') ↔ key ∉ s.db.bucket := by
  constructor
  · intro hex
    obtain ⟨s', h⟩ := hex
    exact (registerNewFile_ok h).fresh
  · intro hfresh
    have hcontains : ¬ s.db.bucket.contains key := mt Std.TreeMap.contains_iff_mem.mp hfresh
    have hinsert : Mongo.insertNewFile d s.db key =
        .ok (true, { s.db with bucket := s.db.bucket.insert key [] }) := by
      rw [Mongo.insertNewFile, if_neg hb, if_neg hcontains]
      rfl
    by_cases hm : s.symbolsList.contains key
    · exact ⟨_, bind_eq_ok.mpr ⟨_, hinsert, if_pos hm⟩⟩
    · exact ⟨_, bind_eq_ok.mpr ⟨_, hinsert, if_neg hm⟩⟩

theorem Asks.handle_newFile (ha : Asks s e w sender .newFile doc) :
    s.handle z d e = reply w <$> s.createNewFile d w sender doc := by
  rw [ha.event]
  simp only [handle, withWorker, ha.worker, jsonReceived, ha.nickname, if_false,
    jsonFromLoggedIn, ha.request]

/-- The handler, when the file is granted. -/
theorem Asks.returns_iff {i : Input} (ha : Asks s i.event w sender .newFile doc)
    (hf : createNewFileFields doc = .ok (username, filename))
    (hg : Granted i.driver s.db username filename db') (hb : ¬ i.driver.fails .bucket) :
    (∃ r, s.handle z i.driver i.event = .ok r) ↔ fileKey filename username ∉ s.db.bucket := by
  have hregister : (∃ s', ({ s with db := db' } : Server).registerNewFile i.driver w sender
      (fileKey filename username) = .ok s') ↔ fileKey filename username ∉ db'.bucket :=
    registerNewFile_returns_iff hb
  rw [ha.handle_newFile, ← hg.bucket, ← hregister]
  obtain ⟨r, link, hnew, hr⟩ := hg
  have hcreate : s.createNewFile i.driver w sender doc = (do
      let s ← { s with db := db' }.registerNewFile i.driver w sender (fileKey filename username)
      pure (s, accept "new_file" [("shared_link", .string link)])) := by
    rw [createNewFile, hf]
    dsimp only
    rw [hnew]
    rcases hr with rfl | rfl <;> rfl
  rw [hcreate]
  constructor
  · intro hex
    obtain ⟨r, h⟩ := hex
    obtain ⟨a, h, -⟩ := map_eq_ok.mp h
    obtain ⟨s1, h, -⟩ := bind_eq_ok.mp h
    exact ⟨s1, h⟩
  · intro hex
    obtain ⟨s1, h⟩ := hex
    exact ⟨_, map_eq_ok.mpr ⟨_, bind_eq_ok.mpr ⟨s1, h, rfl⟩, rfl⟩⟩

/-- A stocked bucket has no file that is granted. -/
theorem Stocked.creates {i : Input} (hs : Stocked s.db) (hat : Attributed s i) : Creates z s i := by
  intro w sender doc username filename db' ha hf hg
  have hfresh : fileKey filename username ∉ s.db.bucket := by
    intro hk
    obtain ⟨owner, name, ho, hkey⟩ := hs _ hk
    obtain rfl := hat.alone _ _ _ _ _ ha hf owner name ho hkey.symm
    obtain ⟨link, hnew⟩ := hg.success hat ha hf
    have hname : filename = name := List.append_cancel_right (List.append_cancel_right hkey)
    exact (Mongo.newFile_owns hnew).1 (hname ▸ ho)
  exact ⟨hfresh, fun hb => (ha.returns_iff hf hg hb).mpr hfresh⟩

/-- **The second new file without an author.** If one such request is handled, another one like it
is granted a file that is in the bucket. -/
theorem Asks.not_creates_again {i : Input} (ha : Asks s i.event w sender .newFile doc)
    (hf : createNewFileFields doc = .ok (username, filename)) (hfind : ¬ i.driver.fails .find)
    (hu : username ∉ s.db.users) (hstep : Step z s i outs s') : ¬ Creates z s' i := by
  have hhandled := hstep.2
  rw [ha.handle_newFile] at hhandled
  obtain ⟨⟨s1, message⟩, hcreate, hreply⟩ := map_eq_ok.mp hhandled
  cases hreply
  rcases createNewFile_ok hcreate with ⟨⟨reason, he⟩, -⟩ |
    ⟨username', filename', r, link, db', hf', hnew, hcases⟩
  · cases hf.symm.trans he
  · cases hf.symm.trans hf'
    have hstart := Mongo.newFile_session hnew
    cases hnew.symm.trans (Mongo.newFile_stranger hstart hfind hu)
    rcases hcases with ⟨hr, -⟩ | ⟨-, hc, -⟩
    · rcases hr with hr | hr <;> cases hr
    have ha' : Asks s1 i.event w { sender with filename := fileKey filename username } .newFile
        doc := by
      refine ⟨ha.event, ?_, ha.nickname, ha.request⟩
      rw [hc.clients, Table.getElem?_insert, if_pos rfl]
    have hu' : username ∉ s1.db.users := by
      rw [hc.db]
      exact hu
    have hg : Granted i.driver s1.db username filename s1.db :=
      ⟨_, _, Mongo.newFile_stranger hstart hfind hu', .inl rfl⟩
    intro hcreates
    refine (hcreates _ _ _ _ _ _ ha' hf hg).1 ?_
    rw [hc.db]
    exact Table.mem_insert.mpr (.inl rfl)

end Steps

section Runs

variable {z : Codec} {db : Database} {h : History} {s : Server} {i : Input}

/-- **New files are new.** In every run of requests whose new files have an author and a name with
author of their own, for every next one. -/
theorem new_files_created (hdb : Stocked db) (hrun : ServerRun z db h s)
    (hh : ∀ e ∈ h, Attributed e.before e.input) (hi : Attributed s i) : Creates z s i := by
  have hs : Stocked s.db := hrun.invariant (I := fun _ s => Stocked s.db) hh hdb
    fun _ _ _ _ _ hs hat hstep => hs.step hat hstep.effect
  exact hs.creates hi

/-- New files that are attributed can be told. -/
def attributedCheck (s : Server) (i : Input) : Bool :=
  onRequest s i.event .newFile fun _ doc =>
    match createNewFileFields doc with
    | .ok (username, filename) => s.db.users.contains username &&
      s.db.users.toList.all fun (owner, user) => user.files.all fun file =>
        fileKey file.name owner = fileKey filename username → owner = username
    | .error _ => true

theorem attributed_of_check (h : attributedCheck s i = true) : Attributed s i := by
  constructor
  · intro w sender doc username filename ha hf
    have hcheck := ha.of_onRequest h
    simp only [hf, Bool.and_eq_true] at hcheck
    exact .inr (Std.TreeMap.contains_iff_mem.mp hcheck.1)
  · intro w sender doc username filename ha hf owner name ho hkey
    have hcheck := ha.of_onRequest h
    simp only [hf, Bool.and_eq_true, List.all_eq_true, decide_eq_true_eq] at hcheck
    obtain ⟨user, huser, file, hfile, rfl⟩ := ho
    exact hcheck.2 (owner, user) (Table.mem_toList.mpr huser) file hfile hkey

theorem stocked_ofNames (names : List String) : Stocked (.ofNames names) := by
  intro key hk
  simp [Database.ofNames] at hk

/-- Two users have a new file of the same name each; one of them asks for another. -/
theorem new_files_created_two : ∃ h s, ServerRun .plain (.ofNames ["u", "v"]) h s ∧
    h.length = 6 ∧ Creates .plain s ⟨.jsonReceived 0 (newFileDoc "g" "u"), .plain⟩ := by
  obtain ⟨h, s, hrun, hP⟩ := exists_run .plain (.ofNames ["u", "v"])
    (inputs [.incomingConnection 0, .incomingConnection 1, .jsonReceived 0 (loginDoc "u"),
      .jsonReceived 1 (loginDoc "v"), .jsonReceived 0 (newFileDoc "f" "u"),
      .jsonReceived 1 (newFileDoc "f" "v")])
    (P := fun h s => h.length = 6 ∧ (h.all fun e => attributedCheck e.before e.input) ∧
      attributedCheck s ⟨.jsonReceived 0 (newFileDoc "g" "u"), .plain⟩)
    (by decide +kernel)
  simp only [Bool.decide_and, Bool.and_eq_true, decide_eq_true_eq, List.all_eq_true] at hP
  obtain ⟨hlen, hall, hnext⟩ := hP
  exact ⟨h, s, hrun, hlen, new_files_created (stocked_ofNames _) hrun
    (fun e he => attributed_of_check (hall e he)) (attributed_of_check hnext)⟩

/-- A new file that is granted although it is in the bucket. -/
def clashes (s : Server) (i : Input) : Bool :=
  ! onRequest s i.event .newFile fun _ doc =>
    match createNewFileFields doc with
    | .ok (username, filename) =>
      match Mongo.newFile i.driver s.db username filename with
      | .ok ((r, _), _) => ! (r = .nonExistingUser || r = .success) ||
        ! s.db.bucket.contains (fileKey filename username)
      | .error _ => true
    | .error _ => true

theorem not_creates_of_clashes (h : clashes s i = true) : ¬ Creates z s i := by
  intro hcreates
  unfold clashes onRequest at h
  split at h
  case h_1 w doc hevent =>
    split at h
    case h_1 => cases h
    case h_2 sender hw =>
      split_ifs at h with hr
      case neg => cases h
      have ha : Asks s i.event w sender .newFile doc := ⟨hevent, hw, hr.1, hr.2⟩
      dsimp only at h
      split at h
      case h_1 username filename hf =>
        split at h
        case h_1 r link db' hnew =>
          have hgranted : (r = .nonExistingUser ∨ r = .success) ∧
              fileKey filename username ∈ s.db.bucket := by
            simpa [or_iff_not_imp_left] using h
          exact (hcreates _ _ _ _ _ _ ha hf ⟨r, link, hnew, hgranted.1⟩).1 hgranted.2
        case h_2 => cases h
      case h_2 => cases h
  case h_2 => cases h

/-- **A new file for an author who does not exist is granted twice.** -/
theorem new_file_exists : ¬ ∀ z db h s i, Stocked db → ServerRun z db h s → Creates z s i := by
  intro hall
  obtain ⟨h, s, hrun, hP⟩ := exists_run .plain (.ofNames ["u"])
    (inputs [.incomingConnection 0, .jsonReceived 0 (loginDoc "u"),
      .jsonReceived 0 (newFileDoc "f" "n")])
    (P := fun _ s => clashes s ⟨.jsonReceived 0 (newFileDoc "f" "n"), .plain⟩)
    (by decide +kernel)
  exact not_creates_of_clashes hP (hall .plain _ h s _ (stocked_ofNames _) hrun)

/-- With a comma in a name, two files of two users have one name with author. -/
theorem new_file_exists_comma : ∃ h s, ServerRun .plain (.ofNames ["u", "a,u"]) h s ∧
    ¬ Creates .plain s ⟨.jsonReceived 0 (newFileDoc "f" "a,u"), .plain⟩ := by
  obtain ⟨h, s, hrun, hP⟩ := exists_run .plain (.ofNames ["u", "a,u"])
    (inputs [.incomingConnection 0, .jsonReceived 0 (loginDoc "u"),
      .jsonReceived 0 (newFileDoc "f,a" "u")])
    (P := fun _ s => clashes s ⟨.jsonReceived 0 (newFileDoc "f" "a,u"), .plain⟩)
    (by decide +kernel)
  exact ⟨h, s, hrun, not_creates_of_clashes hP⟩

end Runs

end Scriba.Server
