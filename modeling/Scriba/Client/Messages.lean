import Scriba.Client.Receiving
import Scriba.Utility.SymbolCodecs

/-! # Messages of a client

What `CRDT` hands to `Client` for an operation, as a message in JSON or as an array of bytes, and
`on_jsonReceived` of `Client/client.cpp`, which takes the messages in JSON. Of the arrays of bytes
`Client.Receiving` has the slot. The members of a message come in the order of their keys. -/

namespace Scriba.Server

/-- The number of an enumerator. -/
def OperationType.toInt : OperationType → Int
  | .insertSymbol => 0
  | .deleteSymbol => 1
  | .change => 2
  | .align => 3
  | .paste => 4
  | .cursor => 5

theorem OperationType.ofInt_toInt (type : OperationType) : ofInt type.toInt = some type := by
  cases type <;> rfl

end Scriba.Server

namespace Scriba.Client

open Scriba.Utility Scriba.Server

/-! ## Operations -/

/-- An operation with one symbol. -/
def symbolMessage (siteId : Int) (type : OperationType) (s : Symbol) : QJsonObject :=
  object [("editorId", .double siteId), ("operation_type", .double type.toInt),
    ("symbol", .object s.toJson), ("type", text "operation")]

/-- An operation that comes before its symbols, with their number. -/
def symbolsMessage (siteId : Int) (type : OperationType) (totSymbols : Nat) : QJsonObject :=
  object [("editorId", .double siteId), ("operation_type", .double type.toInt),
    ("tot_symbols", .double totSymbols), ("type", text "operation")]

/-- `localErase` leaves the number out. -/
def eraseMessage (siteId : Int) : QJsonObject :=
  object [("editorId", .double siteId),
    ("operation_type", .double OperationType.deleteSymbol.toInt), ("type", text "operation")]

/-- The message of an operation, and the symbols that come after it. -/
def Message.parts (siteId : Int) : Message → QJsonObject × Option (List Symbol)
  | .insert s => (symbolMessage siteId .insertSymbol s, none)
  | .align s => (symbolMessage siteId .align s, none)
  | .changeSymbol s => (symbolMessage siteId .change s, none)
  | .paste symbols => (symbolsMessage siteId .paste symbols.length, some symbols)
  | .change symbols => (symbolsMessage siteId .change symbols.length, some symbols)
  | .erase symbols => (eraseMessage siteId, some symbols)

/-- What is sent: `sendJson(message)`, or `createByteArrayFileContent(message, symbols)` as an
array. -/
def payload (toJson : QJsonObject → QByteArray) (parts : QJsonObject × Option (List Symbol)) :
    Callback QJsonObject :=
  match parts with
  | (message, none) => .jsonReceived message
  | (message, some symbols) =>
    .byteArrayReceived (createByteArrayFileContent toJson message symbols)

/-- `cursorPositionChanged`. -/
def cursorPositionChanged (c : CRDT) (line index : Nat) : Except Fault QJsonObject := do
  let s ← QVector.get (← QVector.get c.symbols line) index
  pure (symbolMessage c.siteId .cursor s)

/-! ## Messages in JSON -/

/-- The signals of the slot, and the request that it makes itself. -/
inductive JsonSignal where
  | signedUp
  | signupError (reason : QString)
  | correctOldPassword
  | wrongOldPassword (reason : QString)
  | successUsernameCheck (username : QString)
  | existingUsername (username : QString)
  | remoteInsert (s : Symbol)
  | remoteAlignChange (s : Symbol)
  | remoteCursor (editorId : Int) (s : Symbol)
  | filesReceived (shared : Bool)
  | openFilesError (reason : QString)
  | addCRDTterminator
  | correctNewFile
  | wrongNewFile (reason : QString)
  | userDisconnected (username nickname : QString)
  | openFile (filename : QString)
  | wrongSharedLink (reason : QString)
  | successUpdatePassword
  | failedUpdatePassword (reason : QString)

/-- The members that the slot reads or sets. -/
structure Members where
  state : ClientState
  files : List (QString × QString)

/-- What comes in JSON from the server. -/
inductive JsonMessage where
  | signup | oldPasswordChecked | checkUsername | operation | listFiles | newFile | disconnection
  | filenameFromSharedLink | password
deriving DecidableEq

def JsonMessage.of : QJsonObject → Option JsonMessage :=
  requestOf [("signup", .signup), ("old_password_checked", .oldPasswordChecked),
    ("check_username", .checkUsername), ("operation", .operation), ("list_files", .listFiles),
    ("new_file", .newFile), ("disconnection", .disconnection),
    ("filename_from_sharedlink", .filenameFromSharedLink), ("password", .password)]

/-- The signal for success, or that for failure with its reason. Nothing without a result. -/
def onResult (docObj : QJsonObject) (success : JsonSignal) (failure : QString → JsonSignal) :
    List JsonSignal :=
  match docObj.value "success" with
  | .bool true => [success]
  | .bool false => [failure (docObj.value "reason").toString]
  | _ => []

def usernameChecked (docObj : QJsonObject) : List JsonSignal :=
  match docObj.value "success", docObj.value "username" with
  | .bool true, .string username => [.successUsernameCheck username]
  | .bool false, .string username => [.existingUsername username]
  | _, _ => []

/-- An operation with one symbol. There is no case for a CHANGE. -/
def remoteOperation (docObj : QJsonObject) : List JsonSignal :=
  let s := Symbol.fromJson (docObj.value "symbol").toObject
  match operationType docObj with
  | some .insertSymbol => [.remoteInsert s]
  | some .align => [.remoteAlignChange s]
  | some .cursor => [.remoteCursor (docObj.value "editorId").toInt s]
  | _ => []

def listFiles (c : Members) (docObj : QJsonObject) : Members × List JsonSignal :=
  match docObj.value "success" with
  | .bool true =>
    match docObj.value "files" with
    | .array files =>
      let c := { c with files := files.map fun v =>
        ((v.toObject.value "name").toString, (v.toObject.value "owner").toString) }
      match docObj.value "shared" with
      | .bool shared => (c, [.filesReceived shared])
      | _ => (c, [])
    | _ => (c, [])
  | .bool false => (c, [.openFilesError (docObj.value "reason").toString])
  | _ => (c, [])

def newFileReply (c : Members) (docObj : QJsonObject) : Members × List JsonSignal :=
  match docObj.value "success" with
  | .bool true =>
    ({ c with state := { c.state with sharedLink := (docObj.value "shared_link").toString } },
      [.addCRDTterminator, .correctNewFile])
  | .bool false => (c, [.wrongNewFile (docObj.value "reason").toString])
  | _ => (c, [])

def disconnection (c : Members) (docObj : QJsonObject) : List JsonSignal :=
  match docObj.value "filename", docObj.value "user", docObj.value "nickname" with
  | .string file, .string name, .string nickname =>
    if file = c.state.openfile then [.userDisconnected name nickname] else []
  | _, _, _ => []

def filenameFromSharedLink (docObj : QJsonObject) : List JsonSignal :=
  match docObj.value "success" with
  | .bool true => [.openFile (docObj.value "filename").toString]
  | .bool false => [.wrongSharedLink (docObj.value "reason").toString]
  | _ => []

def onJsonReceived (c : Members) (docObj : QJsonObject) : Members × List JsonSignal :=
  match JsonMessage.of docObj with
  | some .signup =>
    (c, if c.state.loggedIn then [] else onResult docObj .signedUp .signupError)
  | some .oldPasswordChecked => (c, onResult docObj .correctOldPassword .wrongOldPassword)
  | some .checkUsername => (c, usernameChecked docObj)
  | some .operation => (c, remoteOperation docObj)
  | some .listFiles => listFiles c docObj
  | some .newFile => newFileReply c docObj
  | some .disconnection => (c, disconnection c docObj)
  | some .filenameFromSharedLink => (c, filenameFromSharedLink docObj)
  | some .password => (c, onResult docObj .successUpdatePassword .failedUpdatePassword)
  | none => (c, [])

/-! ## Operations that are handled -/

/-- The operation that a signal has `CRDT` handle. -/
def JsonSignal.operation : JsonSignal → Option Message
  | .remoteInsert s => some (.insert s)
  | .remoteAlignChange s => some (.align s)
  | _ => none

def ClientSignal.operation : ClientSignal → Option Message
  | .remoteInsert s => some (.insert s)
  | .remoteAlignChange s => some (.align s)
  | .remotePaste symbols => some (.paste symbols)
  | .remoteChange symbols => some (.change symbols)
  | .remoteErase symbols => some (.erase symbols)
  | _ => none

end Scriba.Client
