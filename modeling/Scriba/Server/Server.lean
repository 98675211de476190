import Scriba.Server.Requests

/-! # The server

`Server/server.cpp`. Every handler runs to its end before the next one starts. It takes the state
and, where there is one, the sender of the message with the fields it has, and returns the state
after it and what is sent, or the fault that ends the server. Packets are kept as what they
are made of. -/

namespace Scriba

open Scriba.Utility Scriba.Server

namespace Server

/-- The pointer to a worker. -/
abbrev WorkerId := Nat

structure ServerWorker where
  username : QString
  nickname : QString
  filename : QString
deriving DecidableEq

/-- A worker that has just been created. -/
def ServerWorker.fresh : ServerWorker := ⟨[], [], []⟩

end Server

/-- `m_clients` with the workers it points to, and the other members. -/
structure Server where
  clients : Std.TreeMap WorkerId ServerWorker
  mapFileWorkers : Std.TreeMap QString (List WorkerId)
  symbolsList : Std.TreeMap QString SymbolMap
  changed : Std.TreeMap QString Bool
  db : Database

/-- A server that has just been started. -/
def Server.start (db : Database) : Server := ⟨∅, ∅, ∅, ∅, db⟩

namespace Server

/-- What the functions `sendJson`, `createByteArrayJsonImage`, `createByteArrayFileContentImage`
and `broadcastByteArray` send. -/
inductive Packet where
  | json (message : QJsonObject)
  | jsonImage (message : QJsonObject) (images : List QByteArray)
  | fileContentImage (message : QJsonObject) (content : List Symbol) (images : List QByteArray)
  | byteArray (message : QJsonObject) (content : QByteArray)

def Packet.message : Packet → QJsonObject
  | .json message | .jsonImage message _ | .fileContentImage message _ _
  | .byteArray message _ => message

structure Output where
  destination : WorkerId
  packet : Packet

def setWorker (s : Server) (w : WorkerId) (worker : ServerWorker) : Server :=
  { s with clients := s.clients.insert w worker }

/-- The call with the worker that the pointer leads to. -/
def withWorker {α : Type} (s : Server) (w : WorkerId) (call : ServerWorker → Except Fault α) :
    Except Fault α :=
  match s.clients[w]? with
  | none => throw .danglingWorker
  | some sender => call sender

/-! ## Sending -/

/-- `broadcast` and `broadcastByteArray`: to each entry of the list of the file but the
excluded one. -/
def broadcast (s : Server) (exclude : WorkerId) (filename : QString) (packet : Packet) :
    Except Fault (List Output) :=
  match s.mapFileWorkers[filename]? with
  | none => throw .missingEntry
  | some activeClients =>
    let others := activeClients.filter (· ≠ exclude)
    if others.all (s.clients.contains ·) then pure (others.map fun v => ⟨v, packet⟩)
    else throw .danglingWorker

/-! ## Accounts -/

def checkCredentials (d : Driver) (s : Server) (w : WorkerId) (sender : ServerWorker)
    (doc : QJsonObject) : Server × QJsonObject :=
  match emailField doc with
  | .error reason => (s, refuse "login" reason)
  | .ok username =>
    if s.clients.values.any (·.username = username) then
      (s, refuse "login" "Already connected from another device")
    else match passwordField doc with
      | .error reason => (s, refuse "login" reason)
      | .ok password =>
        match Mongo.login d s.db username password with
        | (.success, nickname) =>
          (s.setWorker w { sender with username, nickname },
            accept "login" [("username", .string username), ("nickname", .string nickname)])
        | (.nonExistingUser, _) | (.wrongPassword, _) =>
          (s, refuse "login" "Invalid username and/or password")
        | _ => (s, refuse "login" "Database error")

def checkAlreadyExistingUsername (d : Driver) (s : Server) (doc : QJsonObject) :
    Except Fault (Server × QJsonObject) :=
  match usernameField doc with
  | .error reason => pure (s, refuse "check_username" reason)
  | .ok username => do
    let (result, db) ← Mongo.checkAlreadyExistingUsername d s.db username
    let s := { s with db }
    match result with
    | .connectionError | .queryError => pure (s, refuse "check_username" "Database error")
    | .alreadyExistingUser =>
      pure (s, refuse "check_username" "The username already exists" ++
        object [("username", .string username)])
    | _ => pure (s, accept "check_username" [("username", .string username)])

/-- The nickname of the worker is set before that in the database. -/
def updateNick (d : Driver) (s : Server) (w : WorkerId) (sender : ServerWorker)
    (doc : QJsonObject) : Except Fault (Server × QJsonObject) :=
  match updateNickFields doc with
  | .error reason => pure (s, refuse "nickname" reason)
  | .ok (username, nickname) => do
    let (result, db) ← Mongo.updateNickname d s.db username nickname
    let s := { s.setWorker w { sender with nickname } with db }
    match result with
    | .connectionError | .queryError => pure (s, refuse "nickname" "Database error")
    | .nonExistingUser => pure (s, refuse "nickname" "The username doens't exists")
    | _ => pure (s, accept "nickname" [])

def updatePass (d : Driver) (s : Server) (doc : QJsonObject) :
    Except Fault (Server × QJsonObject) :=
  match updatePassFields doc with
  | .error reason => pure (s, refuse "password" reason)
  | .ok (username, oldpassword, newpassword) => do
    let (result, db) ← Mongo.updatePassword d s.db username oldpassword newpassword
    let s := { s with db }
    match result with
    | .nonExistingUser => pure (s, refuse "password" "No account found for this username")
    | .wrongPassword => pure (s, refuse "password" "Wrong password")
    | _ => pure (s, accept "password" [])

def checkOldPass (d : Driver) (s : Server) (doc : QJsonObject) : QJsonObject :=
  match checkOldPassFields doc with
  | .error reason => refuse "old_password_checked" reason
  | .ok (username, oldPassword) =>
    match Mongo.checkOldPassword d s.db username oldPassword with
    | .connectionError | .queryError => refuse "old_password_checked" "Database error"
    | .nonExistingUser => refuse "old_password_checked" "The username doens't exists"
    | .wrongPassword => refuse "old_password_checked" "Wrong password"
    | _ => accept "old_password_checked" []

/-! ## Lists of files -/

def getFiles (d : Driver) (s : Server) (doc : QJsonObject) (shared : Bool) : QJsonObject :=
  match usernameField doc with
  | .error reason => refuse "list_files" reason
  | .ok username =>
    let (result, files) := Mongo.getFiles d s.db username shared
    match result with
    | .connectionError | .queryError => refuse "list_files" "Database error."
    | .noFilesAvailable => refuse "list_files" "You don't have files yet."
    | _ =>
      accept "list_files"
        [("shared", .bool shared),
          ("files", .array (files.map fun (name, owner) =>
            .object (object [("name", .string name), ("owner", .string owner)])))]

def getFilenameFromSharedLink (d : Driver) (s : Server) (sender : ServerWorker)
    (doc : QJsonObject) : Except Fault (Server × QJsonObject) :=
  match sharedLinkField doc with
  | .error reason => pure (s, refuse "filename_from_sharedLink" reason)
  | .ok sharedLink => do
    let ((result, filename), db) ←
      Mongo.getFilenameFromSharedLink d s.db sharedLink sender.username
    let s := { s with db }
    match result with
    | .connectionError | .queryError =>
      pure (s, refuse "filename_from_sharedLink" "Database error.")
    | .nonExistingFile =>
      pure (s, refuse "filename_from_sharedLink" "No file corresponding to shared link.")
    | _ => pure (s, accept "filename_from_sharedLink" [("filename", .string filename)])

/-! ## Files -/

/-- The name of a file with that of its author. -/
def fileKey (filename username : QString) : QString := filename ++ [QChar.of ','] ++ username

/-- What `createNewFile` does once the database has granted the file. -/
def registerNewFile (d : Driver) (s : Server) (w : WorkerId) (sender : ServerWorker)
    (key : QString) : Except Fault Server := do
  let s := s.setWorker w { sender with filename := key }
  let (inserted, db) ← Mongo.insertNewFile d s.db key
  if inserted then
    let s := { s with db, mapFileWorkers := s.mapFileWorkers.insert key [w] }
    if s.symbolsList.contains key then pure s
    else
      pure { s with
        symbolsList := s.symbolsList.insert key ∅
        changed := s.changed.insert key true }
  else throw .exception

def createNewFile (d : Driver) (s : Server) (w : WorkerId) (sender : ServerWorker)
    (doc : QJsonObject) : Except Fault (Server × QJsonObject) :=
  match createNewFileFields doc with
  | .error reason => pure (s, refuse "new_file" reason)
  | .ok (username, filename) => do
    let ((result, sharedLink), db) ← Mongo.newFile d s.db username filename
    let s := { s with db }
    match result with
    | .connectionError | .queryError => pure (s, refuse "new_file" "Database error.")
    | .alreadyExistingFile =>
      pure (s, refuse "new_file" "This file already exists. Please enter a new filename.")
    | _ =>
      let s ← s.registerNewFile d w sender (fileKey filename username)
      pure (s, accept "new_file" [("shared_link", .string sharedLink)])

/-- The map in memory, if there is none yet, gets what was read. -/
def storeSymbolsServerMemory (s : Server) (filename : QString) (array : List Symbol) : Server :=
  let symbols := (s.symbolsList[filename]?).getD ∅
  { s with
    symbolsList := s.symbolsList.insert filename (array.foldl SymbolMap.insertSymbol symbols)
    changed := s.changed.insert filename false }

/-- The workers of a list other than those of a user, with their images. -/
def connectedUsers (d : Driver) (s : Server) (username : QString) :
    List WorkerId → Except Fault (List (ServerWorker × QByteArray))
  | [] => pure []
  | v :: list =>
    match s.clients[v]? with
    | none => throw .danglingWorker
    | some worker =>
      if worker.username = username then connectedUsers d s username list
      else do
        let image ← Mongo.retrieveImage d s.db worker.username
        let rest ← connectedUsers d s username list
        pure ((worker, image.getD []) :: rest)

/-- The username and the nickname of a worker. -/
def userObject (worker : ServerWorker) : List (String × QJsonValue) :=
  [("username", .string worker.username), ("nickname", .string worker.nickname)]

/-- The symbols of a file, from memory or else from the database, where it may be missing. -/
def fileContent (z : Codec) (d : Driver) (s : Server) (filename : QString) :
    Except Fault (Option (List Symbol)) :=
  match s.symbolsList[filename]? with
  | some symbols => pure (some symbols.values)
  | none => Mongo.retrieveFile z d s.db filename

/-- The file of the sender is set, and the sender added to the clients that use it. -/
def registerWorker (s : Server) (w : WorkerId) (sender : ServerWorker) (filename : QString) :
    Server where
  clients := s.clients.insert w { sender with filename }
  mapFileWorkers := s.mapFileWorkers.insert filename
    ((s.mapFileWorkers[filename]?).getD [] ++ [w])
  symbolsList := s.symbolsList
  changed := s.changed
  db := s.db

/-- The sender is registered before the file is looked for, and whatever the answer is. -/
def sendFile (z : Codec) (d : Driver) (s : Server) (w : WorkerId) (sender : ServerWorker)
    (doc : QJsonObject) : Except Fault (Server × List Output) :=
  match sendFileField doc with
  | .error reason => pure (s, [⟨w, .jsonImage (refuse "file_to_open" reason) []⟩])
  | .ok filename => do
    let (file, author) := filename.splitAtLast (QChar.of ',')
    let s := s.registerWorker w sender filename
    let list := (s.mapFileWorkers[filename]?).getD []
    let users ← s.connectedUsers d sender.username list
    let content ← s.fileContent z d filename
    let symbols := content.getD []
    let sharedLink := Mongo.getSharedLink d s.db author file
    let message :=
      if content.isSome then
        accept "file_to_open"
          [("filename", .string filename), ("tot_symbols", .double symbols.length),
            ("users", .array (users.map fun (worker, _) => .object (object (userObject worker)))),
            ("shared_link", .string sharedLink)]
      else refuse "file_to_open" "File content different form json array"
    let connection :=
      object (("type", text "connection") :: ("filename", .string filename) :: userObject sender)
    let image ← Mongo.retrieveImage d s.db sender.username
    let others ← s.broadcast w filename (.byteArray connection (image.getD []))
    let s :=
      if s.symbolsList.contains filename then s else s.storeSymbolsServerMemory filename symbols
    pure (s, ⟨w, .fileContentImage message symbols (users.map Prod.snd)⟩ :: others)

/-! ## Saving and closing -/

/-- The database after a file was saved, if it has changed. An array cannot have more than
2^31 - 1 bytes. -/
def saveSymbols (z : Codec) (d : Driver) (s : Server) (filename : QString) (symbols : SymbolMap) :
    Except Fault Database :=
  if s.changed[filename]? = some true then
    let data := writeSymbols symbols.values
    if 2 ^ 31 ≤ data.length then throw .exception
    else Mongo.saveFile d s.db filename (z.qCompress data)
  else pure s.db

/-- One round of the loop of `saveFile`. -/
def saveEntry (z : Codec) (d : Driver) (s : Server) (entry : QString × SymbolMap) :
    Except Fault Server := do
  let db ← s.saveSymbols z d entry.1 entry.2
  pure { s with db, changed := s.changed.insert entry.1 false }

def saveFile (z : Codec) (d : Driver) (s : Server) : Except Fault Server :=
  s.symbolsList.toList.foldlM (saveEntry z d) s

/-- `none` where the source returns false. The entries of the file are removed under the name that
the sender has. -/
def udpateSymbolListAndCommunicateDisconnection (z : Codec) (d : Driver) (s : Server)
    (filename : QString) (w : WorkerId) (sender : ServerWorker) :
    Except Fault (Option (Server × List Output)) :=
  match s.mapFileWorkers[filename]? with
  | none => pure none
  | some workers =>
    if w ∉ workers then pure none
    else if workers.erase w = [] then do
      let s ← saveFile z d { s with mapFileWorkers := s.mapFileWorkers.erase filename }
      pure (some
        ({ s with
          symbolsList := s.symbolsList.erase sender.filename
          changed := s.changed.erase sender.filename }, []))
    else do
      let s := { s with mapFileWorkers := s.mapFileWorkers.insert filename (workers.erase w) }
      let outputs ← s.broadcast w sender.filename
        (.json (object [("type", text "disconnection"), ("filename", .string filename),
          ("user", .string sender.username), ("nickname", .string sender.nickname)]))
      pure (some (s, outputs))

def closeFile (z : Codec) (d : Driver) (s : Server) (w : WorkerId) (sender : ServerWorker)
    (doc : QJsonObject) : Except Fault (Server × List Output) :=
  match closeFileField doc with
  | .error reason => pure (s, [⟨w, .json (refuse "close" reason)⟩])
  | .ok filename => do
    match ← s.udpateSymbolListAndCommunicateDisconnection z d filename w sender with
    | none => pure (s, [⟨w, .json (refuse "close" "File not exist")⟩])
    | some (s, outputs) =>
      pure (s.setWorker w { sender with filename := [] },
        outputs ++ [⟨w, .json (accept "close" [])⟩])

/-! ## Operations -/

/-- `symbols_list.value(filename)->insert` or `remove`, for each symbol. -/
def updateSymbols (s : Server) (filename : QString) (op : Operation) : Except Fault Server :=
  if op.symbols = [] then pure s
  else match s.symbolsList[filename]? with
    | none => throw .missingEntry
    | some symbols =>
      pure { s with symbolsList := s.symbolsList.insert filename (op.apply symbols) }

/-- The symbols are updated, then the operation is forwarded. -/
def operate (s : Server) (w : WorkerId) (filename : QString) (op : Operation) (packet : Packet) :
    Except Fault (Server × List Output) := do
  let s ← s.updateSymbols filename op
  let s := { s with changed := s.changed.insert filename true }
  let outputs ← s.broadcast w filename packet
  pure (s, outputs)

/-! ## Messages -/

/-- A handler that only replies. -/
def reply (w : WorkerId) (result : Server × QJsonObject) : Server × List Output :=
  (result.1, [⟨w, .json result.2⟩])

/-- The image that comes with the reply to a login. -/
def loginImage (d : Driver) (s : Server) (w : WorkerId) (message : QJsonObject) :
    Except Fault (Option QByteArray) :=
  if successIs true message then
    s.withWorker w fun sender => Mongo.retrieveImage d s.db sender.username
  else pure none

def jsonFromLoggedOut (d : Driver) (s : Server) (w : WorkerId) (sender : ServerWorker)
    (doc : QJsonObject) : Except Fault (Server × List Output) :=
  match LoggedOutRequest.of doc with
  | some .login => do
    let (s, message) := s.checkCredentials d w sender doc
    let image ← s.loginImage d w message
    pure (s, [⟨w, .jsonImage message image.toList⟩])
  | some .checkUsername => reply w <$> s.checkAlreadyExistingUsername d doc
  | none => pure (s, [])

def jsonFromLoggedIn (z : Codec) (d : Driver) (s : Server) (w : WorkerId) (sender : ServerWorker)
    (doc : QJsonObject) : Except Fault (Server × List Output) :=
  match LoggedInRequest.of doc with
  | some .nickname => reply w <$> s.updateNick d w sender doc
  | some .password => reply w <$> s.updatePass d doc
  | some .checkOldPassword => pure (reply w (s, s.checkOldPass d doc))
  | some .listFiles => pure (reply w (s, s.getFiles d doc false))
  | some .listSharedFiles => pure (reply w (s, s.getFiles d doc true))
  | some .operation => s.operate w sender.filename (.ofJson doc) (.json doc)
  | some .newFile => reply w <$> s.createNewFile d w sender doc
  | some .fileToOpen => s.sendFile z d w sender doc
  | some .close => s.closeFile z d w sender doc
  | some .filenameFromSharedLink => reply w <$> s.getFilenameFromSharedLink d sender doc
  | none => pure (s, [])

def jsonReceived (z : Codec) (d : Driver) (s : Server) (w : WorkerId) (sender : ServerWorker)
    (doc : QJsonObject) : Except Fault (Server × List Output) :=
  if sender.nickname = [] then s.jsonFromLoggedOut d w sender doc
  else s.jsonFromLoggedIn z d w sender doc

/-- The image that follows a message, unless it is empty. -/
def storeImage (d : Driver) (db : Database) (username : QString) (rest : QByteArray) :
    Except Fault Database :=
  if leadingSize rest = 0 then pure db else Mongo.upsertImage d db username (block rest)

def signup (d : Driver) (s : Server) (doc : QJsonObject) (rest : QByteArray) :
    Except Fault (Server × QJsonObject) :=
  let user := doc.value "username"
  let username := user.toString.simplified
  if username = [] then pure (s, refuseUntyped "Empty email")
  else if user.isNull || ! user.isString then pure (s, refuse "signup" "Wrong username format")
  else match passwordField doc with
    | .error reason => pure (s, refuse "signup" reason)
    | .ok password => do
      let (result, db) ← Mongo.signup d s.db username password
      match result with
      | .connectionError | .queryError => pure ({ s with db }, refuse "signup" "Database error")
      | .alreadyExistingUser => pure ({ s with db }, refuse "signup" "The username already exists")
      | _ =>
        let db ← storeImage d db username rest
        pure ({ s with db }, accept "signup" [])

def updateImage (d : Driver) (s : Server) (doc : QJsonObject) (rest : QByteArray) :
    Except Fault Server :=
  let username := (doc.value "username").toString.simplified
  if username = [] then pure s
  else do
    let db ← storeImage d s.db username rest
    pure { s with db }

def bulkOperation (s : Server) (w : WorkerId) (sender : ServerWorker) (doc : QJsonObject)
    (rest : QByteArray) : Except Fault (Server × List Output) :=
  if (doc.value "operation_type").isNull then
    pure (reply w (s, refuseUntyped "Wrong format"))
  else match Operation.ofBulk doc with
    | none => pure (reply w (s, refuseUntyped "Wrong format"))
    | some op =>
      if leadingSize rest = 0 then throw .exception
      else
        let content := block rest
        s.operate w sender.filename (op (readSymbols content)) (.byteArray doc content)

def handleSignupUpdateImageBulkOperation (z : Codec) (d : Driver) (s : Server) (w : WorkerId)
    (sender : ServerWorker) (jsonData : QByteArray) : Except Fault (Server × List Output) :=
  match z.fromJson (block jsonData) with
  | .object doc =>
    let rest := afterBlock jsonData
    if ¬ (doc.value "type").isString then pure (reply w (s, refuseUntyped "Wrong format"))
    else match ByteArrayRequest.of doc with
      | some .signup => reply w <$> s.signup d doc rest
      | some .updateImage => do
        let s ← s.updateImage d doc rest
        pure (s, [])
      | some .operation => s.bulkOperation w sender doc rest
      | none => pure (s, [])
  | _ => pure (reply w (s, refuseUntyped "JSON error"))

def userDisconnected (z : Codec) (d : Driver) (s : Server) (w : WorkerId)
    (sender : ServerWorker) : Except Fault (Server × List Output) := do
  let s := { s with clients := s.clients.erase w }
  if sender.filename = [] then pure (s, [])
  else
    let result ← s.udpateSymbolListAndCommunicateDisconnection z d sender.filename w sender
    pure (result.getD (s, []))

/-! ## Events -/

/-- What the event loop calls the server for. -/
inductive Event where
  | incomingConnection (w : WorkerId)
  | jsonReceived (w : WorkerId) (json : QJsonObject)
  | byteArrayReceived (w : WorkerId) (data : QByteArray)
  | userDisconnected (w : WorkerId)
  | timeout

/-- A new worker is none of the connected ones; only these send messages and disconnect. -/
def Event.Possible (s : Server) : Event → Prop
  | .incomingConnection w => w ∉ s.clients
  | .jsonReceived w _ | .byteArrayReceived w _ | .userDisconnected w => w ∈ s.clients
  | .timeout => True

def handle (z : Codec) (d : Driver) (s : Server) :
    Event → Except Fault (Server × List Output)
  | .incomingConnection w => pure (s.setWorker w .fresh, [])
  | .jsonReceived w json => s.withWorker w fun sender => s.jsonReceived z d w sender json
  | .byteArrayReceived w data =>
    s.withWorker w fun sender => s.handleSignupUpdateImageBulkOperation z d w sender data
  | .userDisconnected w => s.withWorker w fun sender => s.userDisconnected z d w sender
  | .timeout => do
    let s ← s.saveFile z d
    pure (s, [])

end Server

end Scriba
