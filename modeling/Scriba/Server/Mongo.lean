import Scriba.Lib.Run
import Scriba.Lib.Table
import Scriba.Utility.SymbolStream

/-! # The database layer

`Server/mongo.cpp`. The users are documents with a unique name, the profile images are documents
of their own, and the files are kept in a GridFS bucket under the name and the author. What
the driver, the hashing of passwords and the random numbers do is given with each request
(`Driver`). A transaction that is not committed leaves the users as they were; an exception
inside of one is caught, any other leaves the slot and ends the server. -/

namespace Scriba.Server

open Scriba.Utility Scriba.Lib

inductive DatabaseError where
  | nonExistingUser | alreadyExistingUser | wrongPassword | queryError | connectionError
  | nonExistingFile | alreadyExistingFile | noFilesAvailable | cryptoError | success
deriving DecidableEq

/-- What ends the server: the null pointer for an entry that is missing, a worker that is gone, an
exception that nobody catches. -/
inductive Fault where
  | missingEntry
  | danglingWorker
  | exception
deriving DecidableEq

/-! ## Documents -/

structure FileEntry where
  name : QString
  link : QString
deriving DecidableEq

structure SharedFile where
  filename : QString
  owner : QString
deriving DecidableEq

structure User where
  nickname : QString
  password : QString
  files : List FileEntry
  sharedWithMe : List SharedFile
deriving DecidableEq

/-- `$set` of the nickname. -/
def User.setNickname (nickname : QString) (user : User) : User := { user with nickname }

/-- `$set` of the hashed password. -/
def User.setPassword (password : QString) (user : User) : User := { user with password }

/-- `$push` to the files. -/
def User.pushFile (file : FileEntry) (user : User) : User :=
  { user with files := user.files ++ [file] }

/-- `$addToSet` of the shared files. -/
def User.addShared (file : SharedFile) (user : User) : User :=
  if file ∈ user.sharedWithMe then user
  else { user with sharedWithMe := user.sharedWithMe ++ [file] }

structure Database where
  users : Std.TreeMap QString User
  images : Std.TreeMap QString QByteArray
  bucket : Std.TreeMap QString QByteArray

/-- Before the first signup. -/
def Database.empty : Database := ⟨∅, ∅, ∅⟩

/-- `update_one` of the user with that name, if there is one. -/
def Database.updateUser (db : Database) (username : QString) (f : User → User) : Database :=
  { db with users := db.users.modify username f }

/-- Images are found by the name with each dot replaced. -/
def imageKey (email : QString) : QString :=
  email.map fun c => if c = QChar.of '.' then QChar.of '!' else c

/-- The first run of characters other than `@`, if there is any. -/
def signupNickname (username : QString) : QString :=
  let cap := (username.dropWhile (· = QChar.of '@')).takeWhile (· ≠ QChar.of '@')
  if cap = [] then username else cap

/-! ## The driver -/

/-- Calls of the driver that can throw. -/
inductive Call where
  | startSession | find | findFile | findLink | update | commit | abort
  | images | bucket
deriving DecidableEq

/-- What happens outside of the source while a request is handled. A commit that throws may have
taken effect (`committed`). `draws` are the random links that are drawn before the search for
one throws. -/
structure Driver where
  fails : Call → Bool
  committed : Bool
  hash : QString → Option QString
  verify : QString → QString → Bool
  draws : List QString

/-- `qCompress` and `qUncompress`, and `QJsonDocument::fromJson`. -/
structure Codec where
  qCompress : QByteArray → QByteArray
  qUncompress : QByteArray → QByteArray
  fromJson : QByteArray → Parsed QJsonObject

namespace Mongo

/-- The `try` of a session. Its body either returns or leaves the database in some state when a
call throws; the handler then aborts. -/
def transaction {α : Type} (d : Driver) (queryError : α) (body : Except Database (α × Database)) :
    Except Fault (α × Database) :=
  if d.fails .startSession then throw .exception
  else match body with
    | .ok result => pure result
    | .error db => if d.fails .abort then throw .exception else pure (queryError, db)

/-- `commit_transaction` and the result after it. -/
def commit {α : Type} (d : Driver) (db db' : Database) (success : α) :
    Except Database (α × Database) :=
  if d.fails .commit then .error (if d.committed then db' else db) else .ok (success, db')

/-! ## Users -/

def signup (d : Driver) (db : Database) (username password : QString) :
    Except Fault (DatabaseError × Database) :=
  transaction d .queryError <|
    if d.fails .find then .error db
    else if db.users.contains username then .ok (.alreadyExistingUser, db)
    else match d.hash password with
      | none => .ok (.cryptoError, db)
      | some hashed =>
        if d.fails .update then .error db
        else
          let user := ⟨signupNickname username, hashed, [], []⟩
          commit d db { db with users := db.users.insert username user } .success

/-- The result and the nickname. -/
def login (d : Driver) (db : Database) (username password : QString) : DatabaseError × QString :=
  if d.fails .find then (.queryError, [])
  else match db.users[username]? with
    | none => (.nonExistingUser, [])
    | some user =>
      if d.verify user.password password then (.success, user.nickname) else (.wrongPassword, [])

def updateNickname (d : Driver) (db : Database) (username nickname : QString) :
    Except Fault (DatabaseError × Database) :=
  transaction d .queryError <|
    if d.fails .find then .error db
    else if ¬ db.users.contains username then .ok (.nonExistingUser, db)
    else if d.fails .update then .error db
    else commit d db (db.updateUser username (.setNickname nickname)) .success

def updatePassword (d : Driver) (db : Database) (username oldpass newpass : QString) :
    Except Fault (DatabaseError × Database) :=
  transaction d .queryError <|
    if d.fails .find then .error db
    else match db.users[username]? with
      | none => .ok (.nonExistingUser, db)
      | some user =>
        if ¬ d.verify user.password oldpass then .ok (.wrongPassword, db)
        else match d.hash newpass with
          | none => .ok (.cryptoError, db)
          | some hashed =>
            if d.fails .update then .error db
            else commit d db (db.updateUser username (.setPassword hashed)) .success

def checkOldPassword (d : Driver) (db : Database) (username oldpass : QString) : DatabaseError :=
  if d.fails .find then .queryError
  else match db.users[username]? with
    | none => .nonExistingUser
    | some user => if d.verify user.password oldpass then .success else .wrongPassword

def checkAlreadyExistingUsername (d : Driver) (db : Database) (username : QString) :
    Except Fault (DatabaseError × Database) :=
  transaction d .queryError <|
    if d.fails .find then .error db
    else if db.users.contains username then .ok (.alreadyExistingUser, db)
    else .ok (.success, db)

/-! ## Lists of files -/

/-- The result and the names with their owners. -/
def getFiles (d : Driver) (db : Database) (username : QString) (shared : Bool) :
    DatabaseError × List (QString × QString) :=
  if d.fails .find then (.queryError, [])
  else match db.users[username]? with
    | none => (.nonExistingUser, [])
    | some user =>
      let files := if shared then user.sharedWithMe.map fun file => (file.filename, file.owner)
        else user.files.map fun file => (file.name, username)
      if files = [] then (.noFilesAvailable, []) else (.success, files)

/-- Some user has a file with that link. -/
def linkExists (db : Database) (link : QString) : Bool :=
  db.users.toList.any fun (_, user) => user.files.any (·.link = link)

/-- The result and the shared link, the first one drawn that no file has. -/
def newFile (d : Driver) (db : Database) (username filename : QString) :
    Except Fault ((DatabaseError × QString) × Database) :=
  transaction d (.queryError, []) <|
    if d.fails .find then .error db
    else match db.users[username]? with
      | none => .ok ((.nonExistingUser, []), db)
      | some user =>
        if d.fails .findFile then .error db
        else if user.files.any (·.name = filename) then .ok ((.alreadyExistingFile, []), db)
        else match d.draws.find? fun link => ! linkExists db link with
          | none => .error db
          | some sharedLink =>
            if d.fails .update then .error db
            else commit d db (db.updateUser username (.pushFile ⟨filename, sharedLink⟩))
              (.success, sharedLink)

def getSharedLink (d : Driver) (db : Database) (author filename : QString) : QString :=
  if d.fails .findLink then QString.of "ERROR"
  else match (db.users[author]?).bind fun user => user.files.find? (·.name = filename) with
    | none => QString.of "ERROR"
    | some file => file.link

/-- The result and the file's name with its owner. -/
def getFilenameFromSharedLink (d : Driver) (db : Database) (sharedLink user : QString) :
    Except Fault ((DatabaseError × QString) × Database) :=
  transaction d (.queryError, []) <|
    if d.fails .find then .error db
    else
      let found := db.users.toList.findSome? fun (username, u) =>
        (u.files.find? (·.link = sharedLink)).map fun file => (file.name, username)
      match found with
      | none => .ok ((.nonExistingFile, QString.of "ERROR"), db)
      | some (name, owner) =>
        if d.fails .update then .error db
        else commit d db (db.updateUser user (.addShared ⟨name, owner⟩))
          (.success, name ++ [QChar.of ','] ++ owner)

/-! ## Images and contents -/

def upsertImage (d : Driver) (db : Database) (email : QString) (image : QByteArray) :
    Except Fault Database :=
  if d.fails .images then throw .exception
  else pure { db with images := db.images.insert (imageKey email) image }

/-- The image, if there is one. -/
def retrieveImage (d : Driver) (db : Database) (email : QString) :
    Except Fault (Option QByteArray) :=
  if d.fails .images then throw .exception else pure db.images[imageKey email]?

/-- Whether the file was inserted. -/
def insertNewFile (d : Driver) (db : Database) (filename : QString) :
    Except Fault (Bool × Database) :=
  if d.fails .bucket then throw .exception
  else if db.bucket.contains filename then pure (false, db)
  else pure (true, { db with bucket := db.bucket.insert filename [] })

/-- A file that is not in the bucket is not saved. -/
def saveFile (d : Driver) (db : Database) (filename : QString) (symbols : QByteArray) :
    Except Fault Database :=
  if d.fails .bucket then throw .exception
  else if db.bucket.contains filename then
    pure { db with bucket := db.bucket.insert filename symbols }
  else pure db

/-- The symbols of the file, if it is in the bucket. -/
def retrieveFile (z : Codec) (d : Driver) (db : Database) (filename : QString) :
    Except Fault (Option (List Symbol)) :=
  if d.fails .bucket then throw .exception
  else pure ((db.bucket[filename]?).map fun content => readSymbols (z.qUncompress content))

/-! ## What a call can end with -/

/-- What a session ends with unless it throws. -/
def settle {α : Type} (queryError : α) : Except Database (α × Database) → α × Database
  | .ok result => result
  | .error db => (queryError, db)

section Settle

variable {α : Type} (d : Driver) (queryError success : α)

@[simp] theorem settle_ok (result : α × Database) : settle queryError (.ok result) = result := rfl

@[simp] theorem settle_error (db : Database) : settle queryError (.error db) = (queryError, db) :=
  rfl

@[simp] theorem settle_commit (db db' : Database) : settle queryError (commit d db db' success) =
    (if d.fails .commit then queryError else success,
      if d.fails .commit ∧ ¬ d.committed then db else db') := by
  unfold commit
  split_ifs <;> simp_all

variable {d queryError}

theorem transaction_ok {body : Except Database (α × Database)} {result : α × Database}
    (h : transaction d queryError body = .ok result) : result = settle queryError body := by
  unfold transaction at h
  split at h
  · cases h
  · split at h
    · cases h
      rfl
    · split at h <;> cases h
      rfl

/-- Only what nobody catches gets out of a session. -/
theorem transaction_spares (body : Except Database (α × Database)) {f : Fault}
    (hf : .exception ≠ f) : Spares f (transaction d queryError body) := by
  unfold transaction
  split
  · exact .throw hf
  · split
    · exact .pure _
    · split
      · exact .throw hf
      · exact .pure _

end Settle

section Results

variable {d : Driver} {db db' : Database} {username : QString} {r : DatabaseError}

theorem signup_db {password : QString} (h : signup d db username password = .ok (r, db')) :
    db' = db ∨ ∃ hashed, username ∉ db.users ∧ db' =
      { db with users := db.users.insert username ⟨signupNickname username, hashed, [], []⟩ } := by
  have hs := transaction_ok h
  cases hp : d.hash password <;> grind [settle_ok, settle_error, settle_commit]

theorem signup_result {password : QString} (h : signup d db username password = .ok (r, db')) :
    r = .queryError ∨ r = .alreadyExistingUser ∨
      username ∉ db.users ∧ (r = .success ∨ r = .cryptoError) := by
  have hs := transaction_ok h
  cases hp : d.hash password <;> grind [settle_ok, settle_error, settle_commit]

theorem login_success_iff {password nickname : QString} :
    login d db username password = (.success, nickname) ↔ ¬ d.fails .find ∧
      ∃ user, db.users[username]? = some user ∧ d.verify user.password password ∧
        nickname = user.nickname := by
  unfold login
  grind

theorem updateNickname_db {nickname : QString}
    (h : updateNickname d db username nickname = .ok (r, db')) :
    db' = db ∨ db' = db.updateUser username (.setNickname nickname) := by
  have hs := transaction_ok h
  grind [settle_ok, settle_error, settle_commit]

theorem updateNickname_result {nickname : QString}
    (h : updateNickname d db username nickname = .ok (r, db')) :
    r = .queryError ∨ r = .nonExistingUser ∨ r = .success := by
  have hs := transaction_ok h
  grind [settle_ok, settle_error, settle_commit]

theorem updateNickname_success_iff {nickname : QString}
    (h : updateNickname d db username nickname = .ok (r, db')) :
    r = .success ↔ ¬ d.fails .find ∧ username ∈ db.users ∧ ¬ d.fails .update ∧
      ¬ d.fails .commit := by
  have hs := transaction_ok h
  grind [settle_ok, settle_error, settle_commit]

theorem updatePassword_db {oldpass newpass : QString}
    (h : updatePassword d db username oldpass newpass = .ok (r, db')) :
    db' = db ∨ ∃ password, db' = db.updateUser username (.setPassword password) := by
  have hs := transaction_ok h
  grind [settle_ok, settle_error, settle_commit]

theorem updatePassword_result {oldpass newpass : QString}
    (h : updatePassword d db username oldpass newpass = .ok (r, db')) :
    r = .queryError ∨ r = .cryptoError ∨ r = .nonExistingUser ∨ r = .wrongPassword ∨
      r = .success := by
  have hs := transaction_ok h
  grind [settle_ok, settle_error, settle_commit]

theorem checkOldPassword_result (d : Driver) (db : Database) (username oldpass : QString) :
    checkOldPassword d db username oldpass = .queryError ∨
      checkOldPassword d db username oldpass = .nonExistingUser ∨
      checkOldPassword d db username oldpass = .wrongPassword ∨
      checkOldPassword d db username oldpass = .success := by
  unfold checkOldPassword
  grind

theorem getFiles_result (d : Driver) (db : Database) (username : QString) (shared : Bool) :
    (getFiles d db username shared).1 = .queryError ∨
      (getFiles d db username shared).1 = .nonExistingUser ∨
      (getFiles d db username shared).1 = .noFilesAvailable ∨
      (getFiles d db username shared).1 = .success := by
  unfold getFiles
  grind

theorem checkAlreadyExistingUsername_db
    (h : checkAlreadyExistingUsername d db username = .ok (r, db')) : db' = db := by
  have hs := transaction_ok h
  grind [settle_ok, settle_error]

theorem newFile_db {filename link : QString}
    (h : newFile d db username filename = .ok ((r, link), db')) :
    db' = db ∨ ∃ file, db' = db.updateUser username (.pushFile file) := by
  have hs := transaction_ok h
  grind [settle_ok, settle_error, settle_commit]

theorem newFile_result {filename link : QString}
    (h : newFile d db username filename = .ok ((r, link), db')) :
    r = .queryError ∨ r = .alreadyExistingFile ∨ r = .nonExistingUser ∨ r = .success := by
  have hs := transaction_ok h
  grind [settle_ok, settle_error, settle_commit]

theorem newFile_nonExistingUser_iff {filename link : QString}
    (h : newFile d db username filename = .ok ((r, link), db')) :
    r = .nonExistingUser ↔ ¬ d.fails .find ∧ username ∉ db.users := by
  have hs := transaction_ok h
  cases hc : d.fails .commit <;> grind [settle_ok, settle_error, settle_commit]

theorem getFilenameFromSharedLink_db {sharedLink filename : QString}
    (h : getFilenameFromSharedLink d db sharedLink username = .ok ((r, filename), db')) :
    db' = db ∨ ∃ file, db' = db.updateUser username (.addShared file) := by
  have hs := transaction_ok h
  grind [settle_ok, settle_error, settle_commit]

theorem getFilenameFromSharedLink_result {sharedLink filename : QString}
    (h : getFilenameFromSharedLink d db sharedLink username = .ok ((r, filename), db')) :
    r = .queryError ∨ r = .nonExistingFile ∨ r = .success := by
  have hs := transaction_ok h
  grind [settle_ok, settle_error, settle_commit]

end Results

/-! ## What a success is worth -/

section Success

variable {d : Driver} {db db' : Database} {username : QString}

theorem newFile_success {filename link : QString}
    (h : newFile d db username filename = .ok ((.success, link), db')) :
    username ∈ db.users ∧ db' = db.updateUser username (.pushFile ⟨filename, link⟩) := by
  have hs := transaction_ok h
  cases hc : d.fails .commit <;> grind [settle_ok, settle_error, settle_commit]

theorem getFilenameFromSharedLink_success {sharedLink filename : QString}
    (h : getFilenameFromSharedLink d db sharedLink username = .ok ((.success, filename), db')) :
    ∃ owner user file, db.users[owner]? = some user ∧ file ∈ user.files ∧
      file.link = sharedLink ∧ db' = db.updateUser username (.addShared ⟨file.name, owner⟩) := by
  have hs := transaction_ok h
  dsimp only at hs
  generalize hfound : List.findSome? _ _ = found at hs
  cases found with
  | none => grind [settle_ok, settle_error]
  | some result =>
    obtain ⟨name, owner⟩ := result
    obtain ⟨⟨owner', user⟩, hu, hf⟩ := List.exists_of_findSome?_eq_some hfound
    obtain ⟨file, hfile, he⟩ := Option.map_eq_some_iff.mp hf
    cases he
    exact ⟨owner', user, file, Table.mem_toList.mp hu, List.mem_of_find?_eq_some hfile,
      by simpa using List.find?_some hfile, by grind [settle_error, settle_commit]⟩

end Success

end Mongo

end Scriba.Server
