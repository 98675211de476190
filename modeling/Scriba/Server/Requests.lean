import Scriba.Server.Mongo
import Scriba.Server.SymbolMap

/-! # Requests and replies

What `Server/server.cpp` reads of a message before it acts on it, and the messages it answers
with. The type of a request is compared without regard to case. The text fields of a request
are checked one after the other: each has to be a string that is not just white space. -/

namespace Scriba.Server

open Scriba.Utility Scriba.Lib

/-! ## Types of requests -/

/-- What a client can ask for before it has a nickname. -/
inductive LoggedOutRequest where
  | login | checkUsername
deriving DecidableEq

/-- What a client can ask for once it has a nickname. -/
inductive LoggedInRequest where
  | nickname | password | checkOldPassword | listFiles | listSharedFiles | operation | newFile
  | fileToOpen | close | filenameFromSharedLink
deriving DecidableEq

/-- What comes as an array of bytes, from whoever is connected. -/
inductive ByteArrayRequest where
  | signup | updateImage | operation
deriving DecidableEq

/-- The first of some requests of which the name is the type of the message. -/
def requestOf {α : Type} (names : List (String × α)) (doc : QJsonObject) : Option α :=
  match doc.value "type" with
  | .string type => (names.find? fun (name, _) => type.equalsIgnoringCase name).map Prod.snd
  | _ => none

def LoggedOutRequest.of : QJsonObject → Option LoggedOutRequest :=
  requestOf [("login", .login), ("check_username", .checkUsername)]

def LoggedInRequest.of : QJsonObject → Option LoggedInRequest :=
  requestOf [("nickname", .nickname), ("password", .password),
    ("check_old_password", .checkOldPassword), ("list_files", .listFiles),
    ("list_shared_files", .listSharedFiles), ("operation", .operation), ("new_file", .newFile),
    ("file_to_open", .fileToOpen), ("close", .close),
    ("filename_from_sharedlink", .filenameFromSharedLink)]

def ByteArrayRequest.of : QJsonObject → Option ByteArrayRequest :=
  requestOf [("signup", .signup), ("update_image", .updateImage), ("operation", .operation)]

/-! ## Replies -/

/-- An object with some members. -/
def object (members : List (String × QJsonValue)) : QJsonObject :=
  members.map fun (key, value) => (QString.of key, value)

def text (s : String) : QJsonValue := .string (QString.of s)

/-- `success` is false, for a reason. -/
def refuse (type reason : String) : QJsonObject :=
  object [("type", text type), ("success", .bool false), ("reason", text reason)]

/-- A refusal before the type of the reply is set. -/
def refuseUntyped (reason : String) : QJsonObject :=
  object [("success", .bool false), ("reason", text reason)]

/-- `success` is true, with what was asked for. -/
def accept (type : String) (members : List (String × QJsonValue)) : QJsonObject :=
  object (("type", text type) :: ("success", .bool true) :: members)

/-- `message.value("success") == b`. -/
def successIs (b : Bool) (message : QJsonObject) : Bool :=
  match message.value "success" with
  | .bool c => b = c
  | _ => false

/-! ## Fields -/

/-- A text field, or the reason for a refusal. -/
def textField (doc : QJsonObject) (key wrongFormat empty : String) :
    Except String QString :=
  let value := doc.value key
  if value.isNull || ! value.isString then throw wrongFormat
  else if value.toString.simplified = [] then throw empty
  else pure value.toString.simplified

/-- The username of a `nickname`, a `password` or a `check_old_password`. -/
def emailField (doc : QJsonObject) : Except String QString :=
  textField doc "username" "Wrong username format" "Empty email"

def usernameField (doc : QJsonObject) : Except String QString :=
  textField doc "username" "Wrong username format" "Empty username"

def passwordField (doc : QJsonObject) : Except String QString :=
  textField doc "password" "Wrong password format" "Empty password"

def nicknameField (doc : QJsonObject) : Except String QString :=
  textField doc "nickname" "Wrong nickname format" "Empty nickname"

def updateNickFields (doc : QJsonObject) : Except String (QString × QString) := do
  let username ← emailField doc
  let nickname ← nicknameField doc
  pure (username, nickname)

def updatePassFields (doc : QJsonObject) : Except String (QString × QString × QString) := do
  let username ← emailField doc
  let oldpassword ← textField doc "oldpass" "Wrong old password format" "Empty old password"
  let newpassword ← textField doc "newpass" "Wrong new password format" "Empty new password"
  pure (username, oldpassword, newpassword)

def checkOldPassFields (doc : QJsonObject) : Except String (QString × QString) := do
  let username ← emailField doc
  let oldPassword ← textField doc "old_password" "Wrong password format" "Empty password"
  pure (username, oldPassword)

def sharedLinkField (doc : QJsonObject) : Except String QString :=
  textField doc "sharedLink" "Wrong shared link format" "Empty shared link"

/-- The author and the name of a new file. -/
def createNewFileFields (doc : QJsonObject) : Except String (QString × QString) := do
  let username ← textField doc "author" "Wrong username format" "Empty username"
  let filename ← textField doc "filename" "Wrong filename format" "Empty old password"
  pure (username, filename)

def sendFileField (doc : QJsonObject) : Except String QString :=
  textField doc "filename" "Wrong filename format" "Empty filename"

/-- The file to close; the username and the nickname only have to be there. -/
def closeFileField (doc : QJsonObject) : Except String QString := do
  let filename ← textField doc "filename" "Wrong filename format" "Empty old password"
  let _ ← usernameField doc
  let _ ← nicknameField doc
  pure filename

/-! ## Operations -/

/-- What an operation does to the symbols of a file. -/
inductive Operation where
  | store (symbols : List Symbol)
  | remove (symbols : List Symbol)

namespace Operation

def symbols : Operation → List Symbol
  | .store symbols | .remove symbols => symbols

def apply (map : SymbolMap) : Operation → SymbolMap
  | .store symbols => symbols.foldl SymbolMap.insertSymbol map
  | .remove symbols => symbols.foldl SymbolMap.removeSymbol map

variable {symbols : List Symbol} {map : SymbolMap} {p : Position}

theorem insertAll_of_ne (h : ∀ s ∈ symbols, s.position ≠ p) :
    (symbols.foldl SymbolMap.insertSymbol map)[Symbol.keyOf p]? = map[Symbol.keyOf p]? := by
  induction symbols generalizing map with
  | nil => rfl
  | cons s symbols ih =>
    rw [List.forall_mem_cons] at h
    rw [List.foldl_cons, ih h.2, SymbolMap.getElem?_insertSymbol, if_neg]
    exact fun he => h.1 (keyOf_injective he).symm

theorem removeAll_of_ne (h : ∀ s ∈ symbols, s.position ≠ p) :
    (symbols.foldl SymbolMap.removeSymbol map)[Symbol.keyOf p]? = map[Symbol.keyOf p]? := by
  induction symbols generalizing map with
  | nil => rfl
  | cons s symbols ih =>
    rw [List.forall_mem_cons] at h
    rw [List.foldl_cons, ih h.2, SymbolMap.getElem?_removeSymbol, if_neg]
    exact fun he => h.1 (keyOf_injective he).symm

/-- **The keys are faithful.** Two positions have one key only if they are the same; an insertion,
a change or a removal touches the entries of its own symbols' positions and no other. -/
theorem keys_faithful :
    (∀ p q : Position, Symbol.keyOf p = Symbol.keyOf q ↔ p = q) ∧
    (∀ (map : SymbolMap) (s : Symbol) (p : Position),
      (map.insertSymbol s)[Symbol.keyOf p]? =
          (if p = s.position then some s else map[Symbol.keyOf p]?) ∧
        (map.removeSymbol s)[Symbol.keyOf p]? =
          if p = s.position then none else map[Symbol.keyOf p]?) ∧
    ∀ (op : Operation) (map : SymbolMap) (p : Position), (∀ s ∈ op.symbols, s.position ≠ p) →
      (op.apply map)[Symbol.keyOf p]? = map[Symbol.keyOf p]? := by
  refine ⟨fun p q => keyOf_injective.eq_iff, ?_, ?_⟩
  · intro map s p
    rw [SymbolMap.getElem?_insertSymbol, SymbolMap.getElem?_removeSymbol, Symbol.positionString]
    simp only [keyOf_injective.eq_iff, and_self]
  · intro op map p h
    cases op with
    | store symbols => exact insertAll_of_ne h
    | remove symbols => exact removeAll_of_ne h

/-- A digit 1 of the site -23 and a digit 12 of the site 3: a symbol at the one and its removal
leave the other alone. -/
theorem keys_faithful_minus :
    Symbol.keyOf [⟨1, -23⟩] ≠ Symbol.keyOf [⟨12, 3⟩] ∧
      ((Operation.remove [⟨65, [⟨1, -23⟩], 1, default⟩]).apply
        (SymbolMap.insertSymbol ∅ ⟨66, [⟨12, 3⟩], 1, default⟩))[Symbol.keyOf [⟨12, 3⟩]]? =
        some ⟨66, [⟨12, 3⟩], 1, default⟩ := by
  obtain ⟨hkeys, hone, hall⟩ := keys_faithful
  refine ⟨fun h => absurd ((hkeys _ _).mp h) (by decide), ?_⟩
  rw [hall _ _ _ (by simp [Operation.symbols]), (hone _ _ _).1, if_pos rfl]

end Operation

/-- The enumerators of `OperationType`. -/
inductive OperationType where
  | insertSymbol | deleteSymbol | change | align | paste | cursor
deriving DecidableEq

/-- `none` for a number that is no enumerator. -/
def OperationType.ofInt (n : Int) : Option OperationType :=
  if n < 0 then none
  else [insertSymbol, deleteSymbol, change, align, paste, cursor][n.toNat]?

/-- The type of an operation. Without one, or with one that is no number, it is 0. -/
def operationType (doc : QJsonObject) : Option OperationType :=
  OperationType.ofInt (doc.value "operation_type").toInt

/-- What the server does with an operation that comes as an object: those other than an insertion
and an alignment it forwards only. -/
def Operation.ofJson (doc : QJsonObject) : Operation :=
  match operationType doc with
  | some .insertSymbol | some .align => .store [.fromJson (doc.value "symbol").toObject]
  | _ => .store []

/-- What it does with the symbols of an operation that comes as an array of bytes. Other types are
refused. -/
def Operation.ofBulk (doc : QJsonObject) : Option (List Symbol → Operation) :=
  match operationType doc with
  | some .deleteSymbol => some .remove
  | some .paste | some .change => some .store
  | _ => none

/-! ## Arrays of bytes -/

/-- `mid(pos, len)`. -/
def mid (data : QByteArray) (pos len : Int) : QByteArray :=
  if data.length < pos then []
  else if pos < 0 then
    if len < 0 ∨ data.length ≤ len + pos then data else data.take (len + pos).toNat
  else if len < 0 then data.drop pos.toNat
  else (data.drop pos.toNat).take len.toNat

/-- The number in little endian that the first four bytes are. Bytes that are missing count as
0. -/
def leadingSize (data : QByteArray) : UInt32 :=
  UInt32.ofNat (BigEndian.value ((data.take 4).rightpad 4 0).reverse)

/-- What comes after the size, as long as it says. -/
def block (data : QByteArray) : QByteArray := mid data 4 (leadingSize data).toInt32.toInt

/-- What comes after the block. -/
def afterBlock (data : QByteArray) : QByteArray :=
  mid data (4 + leadingSize data).toInt32.toInt (-1)

end Scriba.Server
