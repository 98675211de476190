import Scriba.Server.Envelopes

/-! # What a client receives

`on_byteArrayReceived` of `Client/client.cpp`: the files that are opened, the users who come, the
login and the operations on many symbols. A message in JSON comes first, and the bytes that belong
to it are taken off what follows, block by block. A handler returns the members that it sets and
the signals that it emits; the progress dialog is left out. -/

namespace Scriba.Client

open Scriba.Utility Scriba.Server

/-- A picture, by where it is loaded from: `:/images/anonymous`, or the bytes of an image. -/
inductive Pixmap where
  | anonymous
  | data (image : QByteArray)
deriving DecidableEq

/-- A user of the file that is open. -/
structure ConnectedUser where
  username : QString
  nickname : QString
  picture : Pixmap
deriving DecidableEq

inductive ClientSignal where
  | remoteInsert (s : Symbol)
  | remoteAlignChange (s : Symbol)
  | remotePaste (symbols : List Symbol)
  | remoteChange (symbols : List Symbol)
  | remoteErase (symbols : List Symbol)
  | usersConnectedReceived (users : List ConnectedUser)
  | correctOpenedFile
  | wrongListFiles (reason : QString)
  | loggedIn
  | loginError (reason : QString)

/-- The members of `Client` that the handlers read or set. -/
structure ClientState where
  loggedIn : Bool
  username : QString
  nickname : QString
  profile : Pixmap
  openfile : QString
  sharedLink : QString

/-- What the slot throws: "Empty content received." and "Invalid json received." -/
inductive ReceiveFault where
  | emptyContent
  | invalidJson
deriving DecidableEq

abbrev Received := Except ReceiveFault (ClientState × List ClientSignal)

/-! ## Opening a file -/

/-- The loop over the symbols, from the last to the first. -/
def loadSignals (vec : List Symbol) : List ClientSignal :=
  vec.reverse.flatMap fun s =>
    if s.value = QChar.newline ∨ s.value = QChar.null then [.remoteInsert s, .remoteAlignChange s]
    else [.remoteInsert s]

/-- Users do not send their image if it is the default one. -/
def pictureOf (array : QByteArray) : Pixmap :=
  if leadingSize array ≠ 0 then .data (block array) else .anonymous

def connectedUser (v : QJsonValue) (picture : Pixmap) : ConnectedUser where
  username := (v.toObject.value "username").toString
  nickname := (v.toObject.value "nickname").toString
  picture

/-- The loop over the users, with their images. -/
def retrieveConnected : List QJsonValue → QByteArray → List ConnectedUser
  | [], _ => []
  | v :: users, array =>
    connectedUser v (pictureOf array) :: retrieveConnected users (afterBlock array)

/-- What is set and emitted after the symbols, as far as the members of the object go. -/
def openedFile (c : ClientState) (docObj : QJsonObject) (images : QByteArray) :
    ClientState × List ClientSignal :=
  match docObj.value "filename" with
  | .string name =>
    let c := { c with openfile := name }
    match docObj.value "shared_link" with
    | .string link =>
      let c := { c with sharedLink := link }
      match docObj.value "users" with
      | .array users =>
        (c, [.usersConnectedReceived (retrieveConnected users images), .correctOpenedFile])
      | _ => (c, [])
    | _ => (c, [])
  | _ => (c, [])

def fileToOpen (c : ClientState) (docObj : QJsonObject) (array : QByteArray) : Received :=
  match docObj.value "success" with
  | .bool true =>
    if (docObj.value "tot_symbols").isNull ∨ (docObj.value "tot_symbols").toInt = 0 then
      pure (c, [])
    else if leadingSize array = 0 then throw .emptyContent
    else
      let vec := readSymbols (block array)
      let (c, signals) := openedFile c docObj (afterBlock array)
      pure (c, loadSignals vec ++ signals)
  | .bool false =>
    pure ({ c with openfile := [] }, [.wrongListFiles (docObj.value "reason").toString])
  | _ => pure (c, [])

/-! ## Other messages -/

/-- Somebody has opened the file. -/
def connection (c : ClientState) (docObj : QJsonObject) (array : QByteArray) :
    ClientState × List ClientSignal :=
  match docObj.value "filename", docObj.value "username" with
  | .string file, .string _ =>
    if file = c.openfile then
      let picture := if leadingSize array = 0 then .anonymous else .data (mid array 4 (-1))
      (c, [.usersConnectedReceived [connectedUser (.object docObj) picture]])
    else (c, [])
  | _, _ => (c, [])

def login (c : ClientState) (docObj : QJsonObject) (array : QByteArray) :
    ClientState × List ClientSignal :=
  if c.loggedIn then (c, [])
  else match docObj.value "success" with
    | .bool true =>
      match docObj.value "username", docObj.value "nickname" with
      | .string user, .string nick =>
        if user.simplified = [] ∨ nick.simplified = [] then (c, [])
        else
          ({ c with
            username := user.simplified
            nickname := nick.simplified
            profile := if leadingSize array ≠ 0 then .data (mid array 4 (-1)) else c.profile
            loggedIn := true }, [.loggedIn])
      | _, _ => (c, [])
    | .bool false => (c, [.loginError (docObj.value "reason").toString])
    | _ => (c, [])

/-- The signal for the symbols of an operation. Other types are ignored. -/
def remoteSignal (docObj : QJsonObject) : Option (List Symbol → ClientSignal) :=
  match operationType docObj with
  | some .paste => some .remotePaste
  | some .change => some .remoteChange
  | some .deleteSymbol => some .remoteErase
  | _ => none

/-- `vec(tot_symbols)` is replaced by what is read. -/
def operation (c : ClientState) (docObj : QJsonObject) (array : QByteArray) : Received :=
  if (docObj.value "operation_type").isNull then pure (c, [])
  else match remoteSignal docObj with
    | none => pure (c, [])
    | some signal =>
      if (docObj.value "tot_symbols").isNull then pure (c, [])
      else if leadingSize array = 0 then throw .emptyContent
      else pure (c, [signal (readSymbols (block array))])

/-! ## The slot -/

/-- What comes as an array of bytes from the server. -/
inductive ByteArrayMessage where
  | fileToOpen | connection | login | operation
deriving DecidableEq

def ByteArrayMessage.of : QJsonObject → Option ByteArrayMessage :=
  requestOf [("file_to_open", .fileToOpen), ("connection", .connection), ("login", .login),
    ("operation", .operation)]

def onByteArrayReceived (z : Codec) (c : ClientState) (doc : QByteArray) : Received :=
  match z.fromJson (block doc) with
  | .object docObj =>
    match ByteArrayMessage.of docObj with
    | some .fileToOpen => fileToOpen c docObj (afterBlock doc)
    | some .connection => pure (connection c docObj (afterBlock doc))
    | some .login => pure (login c docObj (afterBlock doc))
    | some .operation => operation c docObj (afterBlock doc)
    | none => pure (c, [])
  | .other => pure (c, [])
  | .error => throw .invalidJson

/-! ## Sending -/

def createByteArrayFileContent (toJson : QJsonObject → QByteArray) (message : QJsonObject)
    (c : List Symbol) : QByteArray :=
  sized (toJson message) ++ sized (writeSymbols c)

end Scriba.Client
