import Scriba.Server.Handlers

/-! # What an event does

`Effect` lists what the server can do with one event, and `handle_effect` says that there is
nothing else. The invariants of the server are checked against this list. -/

namespace Scriba.Server

open Scriba.Utility Scriba.Lib

/-! ## Requests and operations -/

/-- The event is a request, in JSON, of a worker that has a nickname. -/
structure Asks (s : Server) (e : Event) (w : WorkerId) (sender : ServerWorker)
    (request : LoggedInRequest) (doc : QJsonObject) : Prop where
  event : e = .jsonReceived w doc
  worker : s.clients[w]? = some sender
  nickname : sender.nickname ≠ []
  request : LoggedInRequest.of doc = some request

/-- What holds of each request of a kind, for the computation. -/
def onRequest (s : Server) (e : Event) (request : LoggedInRequest)
    (check : ServerWorker → QJsonObject → Bool) : Bool :=
  match e with
  | .jsonReceived w doc =>
    match s.clients[w]? with
    | none => true
    | some sender =>
      if sender.nickname ≠ [] ∧ LoggedInRequest.of doc = some request then check sender doc
      else true
  | _ => true

theorem Asks.of_onRequest {s : Server} {e : Event} {request : LoggedInRequest}
    {check : ServerWorker → QJsonObject → Bool} {w : WorkerId} {sender : ServerWorker}
    {doc : QJsonObject} (h : Asks s e w sender request doc)
    (hc : onRequest s e request check = true) : check sender doc = true := by
  obtain ⟨rfl, hw, hn, hr⟩ := h
  simpa [onRequest, hw, hn, hr] using hc

/-- The event is a request that came as an array of bytes. -/
structure Uploads (z : Codec) (s : Server) (e : Event) (w : WorkerId) (sender : ServerWorker)
    (request : ByteArrayRequest) (doc : QJsonObject) (rest : QByteArray) : Prop where
  event : ∃ data, e = .byteArrayReceived w data ∧ z.fromJson (block data) = .object doc ∧
    rest = afterBlock data
  worker : s.clients[w]? = some sender
  request : ByteArrayRequest.of doc = some request

/-- An operation that the server takes, the file of its sender, and what it forwards. -/
structure Taken where
  sender : WorkerId
  filename : QString
  operation : Operation
  packet : Packet

/-- Operations come in JSON from workers with a nickname, and as arrays of bytes. -/
def operationOf (z : Codec) (s : Server) : Event → Option Taken
  | .jsonReceived w doc => do
    let sender ← s.clients[w]?
    if sender.nickname ≠ [] ∧ LoggedInRequest.of doc = some .operation then
      some ⟨w, sender.filename, .ofJson doc, .json doc⟩
    else none
  | .byteArrayReceived w data => do
    let sender ← s.clients[w]?
    match z.fromJson (block data) with
    | .object doc =>
      let rest := afterBlock data
      let op ← Operation.ofBulk doc
      if ByteArrayRequest.of doc = some .operation ∧ leadingSize rest ≠ 0 then
        some ⟨w, sender.filename, op (readSymbols (block rest)), .byteArray doc (block rest)⟩
      else none
    | _ => none
  | _ => none

/-- The two ways in which an operation comes. -/
inductive Sends (z : Codec) (s : Server) : Event → Taken → Prop
  | json {w : WorkerId} {sender : ServerWorker} {doc : QJsonObject} :
      s.clients[w]? = some sender → sender.nickname ≠ [] →
      LoggedInRequest.of doc = some .operation →
      Sends z s (.jsonReceived w doc) ⟨w, sender.filename, .ofJson doc, .json doc⟩
  | byteArray {w : WorkerId} {sender : ServerWorker} {data : QByteArray} {doc : QJsonObject}
      {op : List Symbol → Operation} : s.clients[w]? = some sender →
      z.fromJson (block data) = .object doc → Operation.ofBulk doc = some op →
      ByteArrayRequest.of doc = some .operation → leadingSize (afterBlock data) ≠ 0 →
      Sends z s (.byteArrayReceived w data) ⟨w, sender.filename,
        op (readSymbols (block (afterBlock data))), .byteArray doc (block (afterBlock data))⟩

theorem sends_of_operationOf {z : Codec} {s : Server} {e : Event} {t : Taken}
    (h : operationOf z s e = some t) : Sends z s e t := by
  unfold operationOf at h
  split at h
  case h_1 w doc =>
    obtain ⟨sender, hw, h⟩ := Option.bind_eq_some_iff.mp h
    split_ifs at h with hr
    cases h
    exact .json hw hr.1 hr.2
  case h_2 w data =>
    obtain ⟨sender, hw, h⟩ := Option.bind_eq_some_iff.mp h
    split at h
    case h_1 doc hz =>
      obtain ⟨op, hop, h⟩ := Option.bind_eq_some_iff.mp h
      split_ifs at h with hr
      cases h
      exact .byteArray hw hz hop hr.1 hr.2
    case h_2 => cases h
  case h_3 => cases h

/-- The type of the message is that of an operation. -/
def isOperation (message : QJsonObject) : Bool :=
  match message.value "type" with
  | .string type => type.equalsIgnoringCase "operation"
  | _ => false

/-- Only the worker is answered, and not with an operation. -/
def Answers (w : WorkerId) (outs : List Output) : Prop :=
  ∀ o ∈ outs, o.destination = w ∧ isOperation o.packet.message = false

/-! ## Effects -/

/-- What requests other than a change of the nickname write to the database. -/
inductive Stores (z : Codec) (s : Server) (e : Event) : Database → Prop
  | password {w : WorkerId} {sender : ServerWorker} {doc : QJsonObject}
      {username password : QString} : Asks s e w sender .password doc →
      Stores z s e (s.db.updateUser username (.setPassword password))
  | shared {w : WorkerId} {sender : ServerWorker} {doc : QJsonObject} {file : SharedFile} :
      Asks s e w sender .filenameFromSharedLink doc →
      Stores z s e (s.db.updateUser sender.username (.addShared file))
  | refused {w : WorkerId} {sender : ServerWorker} {doc : QJsonObject}
      {username filename : QString} {file : FileEntry} : Asks s e w sender .newFile doc →
      createNewFileFields doc = .ok (username, filename) →
      Stores z s e (s.db.updateUser username (.pushFile file))
  | signedUp {w : WorkerId} {sender : ServerWorker} {doc : QJsonObject} {rest : QByteArray}
      {hashed : QString} {images : Std.TreeMap QString QByteArray} :
      Uploads z s e w sender .signup doc rest → imageUsername doc ≠ [] →
      imageUsername doc ∉ s.db.users →
      (images = s.db.images ∨ leadingSize rest ≠ 0 ∧
        ∃ image, images = s.db.images.insert (imageKey (imageUsername doc)) image) →
      Stores z s e
        { s.db with
          users := s.db.users.insert (imageUsername doc)
            ⟨signupNickname (imageUsername doc), hashed, [], []⟩
          images }
  | image {w : WorkerId} {sender : ServerWorker} {request : ByteArrayRequest}
      {doc : QJsonObject} {rest image : QByteArray} :
      Uploads z s e w sender request doc rest →
      (request = .updateImage ∨ request = .signup ∧ imageUsername doc ∉ s.db.users) →
      leadingSize rest ≠ 0 → Stores z s e
        { s.db with images := s.db.images.insert (imageKey (imageUsername doc)) image }

/-- The new file was granted. -/
def Granted (d : Driver) (db : Database) (username filename : QString) (db' : Database) : Prop :=
  ∃ r link, Mongo.newFile d db username filename = .ok ((r, link), db') ∧
    (r = .nonExistingUser ∨ r = .success)

inductive Effect (z : Codec) (d : Driver) (s : Server) (e : Event) : Server → List Output → Prop
  | connected {w : WorkerId} : e = .incomingConnection w →
      Effect z d s e (s.setWorker w .fresh) []
  | answered {w : WorkerId} {outs : List Output} : operationOf z s e = none →
      Answers w outs → Effect z d s e s outs
  | stored {w : WorkerId} {db' : Database} {outs : List Output} : operationOf z s e = none →
      Stores z s e db' → Answers w outs → Effect z d s e { s with db := db' } outs
  | loggedIn {w : WorkerId} {sender : ServerWorker} {doc : QJsonObject}
      {username password nickname : QString} {outs : List Output} :
      e = .jsonReceived w doc → s.clients[w]? = some sender → sender.nickname = [] →
      emailField doc = .ok username → passwordField doc = .ok password →
      (∀ worker ∈ s.clients.values, worker.username ≠ username) →
      Mongo.login d s.db username password = (.success, nickname) → Answers w outs →
      Effect z d s e (s.setWorker w { sender with username, nickname }) outs
  | renamed {w : WorkerId} {sender : ServerWorker} {doc : QJsonObject}
      {username nickname : QString} {db' : Database} {outs : List Output} :
      Asks s e w sender .nickname doc → updateNickFields doc = .ok (username, nickname) →
      (db' = s.db ∨ db' = s.db.updateUser username (.setNickname nickname)) → Answers w outs →
      Effect z d s e { s.setWorker w { sender with nickname } with db := db' } outs
  | operated {t : Taken} {s' : Server} {outs : List Output} : operationOf z s e = some t →
      Operated s t.sender t.filename t.operation t.packet s' outs → Effect z d s e s' outs
  | created {w : WorkerId} {sender : ServerWorker} {doc message : QJsonObject}
      {username filename : QString} {db' : Database} {s' : Server} :
      Asks s e w sender .newFile doc → createNewFileFields doc = .ok (username, filename) →
      Granted d s.db username filename db' →
      Created { s with db := db' } w sender (fileKey filename username) s' →
      IsReply "new_file" true message → Effect z d s e s' [⟨w, .json message⟩]
  | opened {w : WorkerId} {sender : ServerWorker} {doc : QJsonObject} {filename : QString}
      {content : Option (List Symbol)} {s' : Server} {outs : List Output} :
      Asks s e w sender .fileToOpen doc → sendFileField doc = .ok filename →
      Opened z s w sender filename content s' → Announced s w sender filename content outs →
      Effect z d s e s' outs
  | closed {w : WorkerId} {sender : ServerWorker} {doc message : QJsonObject} {filename : QString}
      {s1 : Server} {outs : List Output} :
      Asks s e w sender .close doc → closeFileField doc = .ok filename →
      Leaves z s w sender filename s1 outs → IsReply "close" true message →
      Effect z d s e (s1.setWorker w { sender with filename := [] }) (outs ++ [⟨w, .json message⟩])
  | disconnected {w : WorkerId} {sender : ServerWorker} :
      e = .userDisconnected w → s.clients[w]? = some sender →
      (sender.filename = [] ∨ ¬ Registered s w sender.filename) →
      Effect z d s e { s with clients := s.clients.erase w } []
  | left {w : WorkerId} {sender : ServerWorker} {s' : Server} {outs : List Output} :
      e = .userDisconnected w → s.clients[w]? = some sender → sender.filename ≠ [] →
      Leaves z { s with clients := s.clients.erase w } w sender sender.filename s' outs →
      Effect z d s e s' outs
  | saved {s' : Server} : e = .timeout → Saved z s s' → Effect z d s e s' []

/-! ## Types of messages -/

section Types

variable {α : Type} {names : List (String × α)} {doc message : QJsonObject}

theorem requestOf_some {x : α} (h : requestOf names doc = some x) :
    ∃ type name, doc.value "type" = .string type ∧ (name, x) ∈ names ∧
      type.equalsIgnoringCase name := by
  unfold requestOf at h
  split at h
  case h_2 => cases h
  case h_1 type ht =>
    obtain ⟨⟨name, y⟩, hf, rfl⟩ := Option.map_eq_some_iff.mp h
    have hp := List.find?_some hf
    exact ⟨type, name, ht, List.mem_of_find?_eq_some hf, hp⟩

theorem isOperation_of_request {x : α} (hnames : ∀ name, (name, x) ∈ names → name = "operation")
    (h : requestOf names doc = some x) : isOperation doc = true := by
  obtain ⟨type, name, ht, hm, hn⟩ := requestOf_some h
  obtain rfl := hnames name hm
  rw [isOperation, ht]
  exact hn

theorem isOperation_of_loggedIn (h : LoggedInRequest.of doc = some .operation) :
    isOperation doc = true :=
  isOperation_of_request (by simp) h

theorem isOperation_of_byteArray (h : ByteArrayRequest.of doc = some .operation) :
    isOperation doc = true :=
  isOperation_of_request (by simp) h

/-- The types of what the server sends on its own. -/
def replyTypes : List String :=
  ["login", "check_username", "nickname", "password", "old_password_checked", "list_files",
    "filename_from_sharedLink", "new_file", "file_to_open", "close", "signup", "connection",
    "disconnection"]

theorem isOperation_of_type {type : String} (ht : type ∈ replyTypes)
    (h : message.value "type" = text type) : isOperation message = false := by
  have hall : ∀ t ∈ replyTypes, (QString.of t).equalsIgnoringCase "operation" = false := by
    decide +kernel
  rw [isOperation, h]
  exact hall type ht

theorem isOperation_refuseUntyped (reason : String) :
    isOperation (refuseUntyped reason) = false := rfl

theorem Answers.single {w : WorkerId} {packet : Packet} (h : isOperation packet.message = false) :
    Answers w [⟨w, packet⟩] := by
  intro o ho
  obtain rfl := List.mem_singleton.mp ho
  exact ⟨rfl, h⟩

theorem Answers.nil {w : WorkerId} : Answers w [] := nofun

theorem Answers.reply {w : WorkerId} {type : String} {ok : Bool} {message : QJsonObject}
    (ht : type ∈ replyTypes) (h : IsReply type ok message) : Answers w [⟨w, .json message⟩] :=
  .single (isOperation_of_type ht h.type)

end Types

/-! ## The list is complete -/

section Complete

variable {z : Codec} {d : Driver} {s s' : Server} {w : WorkerId} {sender : ServerWorker}
  {doc : QJsonObject} {outs : List Output}

theorem operationOf_loggedOut (hw : s.clients[w]? = some sender) (hn : sender.nickname = []) :
    operationOf z s (.jsonReceived w doc) = none := by
  simp [operationOf, hw, hn]

theorem Asks.operationOf {e : Event} {request : LoggedInRequest}
    (h : Asks s e w sender request doc) (hr : request ≠ .operation) :
    operationOf z s e = none := by
  obtain ⟨rfl, hw, -, hreq⟩ := h
  simp [Server.operationOf, hw, hreq, hr]

theorem jsonFromLoggedOut_effect (hw : s.clients[w]? = some sender) (hn : sender.nickname = [])
    (h : s.jsonFromLoggedOut d w sender doc = .ok (s', outs)) :
    Effect z d s (.jsonReceived w doc) s' outs := by
  have hop : operationOf z s (.jsonReceived w doc) = none := operationOf_loggedOut hw hn
  unfold jsonFromLoggedOut at h
  split at h
  · obtain ⟨image, hi, h⟩ := bind_eq_ok.mp h
    cases h
    have hanswers : ∀ ok message, IsReply "login" ok message →
        Answers w [⟨w, .jsonImage message image.toList⟩] := fun ok message hm =>
      .single (isOperation_of_type (by simp [replyTypes]) hm.type)
    rcases checkCredentials_cases rfl with ⟨hs, hm⟩ | ⟨u, p, n, hu, hp, hne, hl, hs, hm⟩ <;> rw [hs]
    · exact .answered hop (hanswers _ _ hm)
    · exact .loggedIn rfl hw hn hu hp hne hl (hanswers _ _ hm)
  · obtain ⟨⟨s1, message⟩, hc, h⟩ := map_eq_ok.mp h
    cases h
    obtain ⟨rfl, ok, hm⟩ := checkAlreadyExistingUsername_ok hc
    exact .answered hop (.reply (by simp [replyTypes]) hm)
  · cases h
    exact .answered (w := w) hop .nil

theorem jsonFromLoggedIn_effect (hw : s.clients[w]? = some sender) (hn : sender.nickname ≠ [])
    (h : s.jsonFromLoggedIn z d w sender doc = .ok (s', outs)) :
    Effect z d s (.jsonReceived w doc) s' outs := by
  cases hr : LoggedInRequest.of doc with
  | none =>
    simp only [jsonFromLoggedIn, hr] at h
    cases h
    exact .answered (w := w) (by simp [operationOf, hw, hr]) .nil
  | some request =>
    have ha : Asks s (.jsonReceived w doc) w sender request doc := ⟨rfl, hw, hn, hr⟩
    have hop := ha.operationOf (z := z)
    simp only [jsonFromLoggedIn, hr] at h
    cases request with
    | nickname =>
      obtain ⟨⟨s1, message⟩, hu, h⟩ := map_eq_ok.mp h
      cases h
      rcases updateNick_ok hu with ⟨-, rfl, hm⟩ | ⟨u, n, r, db', hf, hdb, rfl, hm⟩
      · exact .answered (hop nofun) (.reply (by simp [replyTypes]) hm)
      · exact .renamed ha hf (Mongo.updateNickname_db hdb) (.reply (by simp [replyTypes]) hm)
    | password =>
      obtain ⟨⟨s1, message⟩, hu, h⟩ := map_eq_ok.mp h
      cases h
      rcases updatePass_ok hu with ⟨-, rfl, hm⟩ | ⟨u, o, n, r, db', hf, hdb, rfl, hm⟩
      · exact .answered (hop nofun) (.reply (by simp [replyTypes]) hm)
      · rcases Mongo.updatePassword_db hdb with rfl | ⟨p, rfl⟩
        · exact .answered (hop nofun) (.reply (by simp [replyTypes]) hm)
        · exact .stored (hop nofun) (.password ha) (.reply (by simp [replyTypes]) hm)
    | checkOldPassword =>
      cases h
      rcases checkOldPass_isReply d s doc with hm | ⟨u, o, hf, hm⟩ <;>
        exact .answered (hop nofun) (.reply (by simp [replyTypes]) hm)
    | listFiles =>
      cases h
      rcases getFiles_isReply d s doc false with ⟨-, hm⟩ | ⟨u, hf, hm⟩ <;>
        exact .answered (hop nofun) (.reply (by simp [replyTypes]) hm)
    | listSharedFiles =>
      cases h
      rcases getFiles_isReply d s doc true with ⟨-, hm⟩ | ⟨u, hf, hm⟩ <;>
        exact .answered (hop nofun) (.reply (by simp [replyTypes]) hm)
    | operation =>
      exact .operated (t := ⟨w, sender.filename, .ofJson doc, .json doc⟩)
        (by simp [operationOf, hw, hn, hr]) (operate_ok h)
    | newFile =>
      obtain ⟨⟨s1, message⟩, hc, h⟩ := map_eq_ok.mp h
      cases h
      rcases createNewFile_ok hc with ⟨-, rfl, hm⟩ |
        ⟨u, f, r, link, db', hf, hdb, ⟨-, rfl, hm⟩ | ⟨hr', hcr, hm⟩⟩
      · exact .answered (hop nofun) (.reply (by simp [replyTypes]) hm)
      · rcases Mongo.newFile_db hdb with rfl | ⟨file, rfl⟩
        · exact .answered (hop nofun) (.reply (by simp [replyTypes]) hm)
        · exact .stored (hop nofun) (.refused ha hf) (.reply (by simp [replyTypes]) hm)
      · exact .created ha hf ⟨r, link, hdb, hr'⟩ hcr hm
    | fileToOpen =>
      rcases sendFile_ok h with ⟨-, rfl, message, rfl, hm⟩ | ⟨filename, content, hf, ho, hann⟩
      · exact .answered (hop nofun) (.single (isOperation_of_type (by simp [replyTypes]) hm.type))
      · exact .opened ha hf ho hann
    | close =>
      rcases closeFile_ok h with ⟨rfl, message, rfl, hm⟩ |
        ⟨filename, s1, outs1, message, hf, hl, rfl, rfl, hm⟩
      · exact .answered (hop nofun) (.reply (by simp [replyTypes]) hm)
      · exact .closed ha hf hl hm
    | filenameFromSharedLink =>
      obtain ⟨⟨s1, message⟩, hg, h⟩ := map_eq_ok.mp h
      cases h
      rcases getFilenameFromSharedLink_ok hg with ⟨rfl, hm⟩ | ⟨l, r, f, db', hf, hdb, rfl, hm⟩
      · exact .answered (hop nofun) (.reply (by simp [replyTypes]) hm)
      · rcases Mongo.getFilenameFromSharedLink_db hdb with rfl | ⟨file, rfl⟩
        · exact .answered (hop nofun) (.reply (by simp [replyTypes]) hm)
        · exact .stored (hop nofun) (.shared ha) (.reply (by simp [replyTypes]) hm)

/-- Arrays of bytes that are no operation. -/
theorem operationOf_byteArray {data : QByteArray}
    (h : ∀ doc, z.fromJson (block data) = .object doc →
      ByteArrayRequest.of doc = some .operation → Operation.ofBulk doc = none) :
    operationOf z s (.byteArrayReceived w data) = none := by
  simp only [operationOf]
  cases s.clients[w]? with
  | none => rfl
  | some sender =>
    simp only [Option.bind_eq_bind, Option.bind_some]
    split
    case h_2 => rfl
    case h_1 doc hz =>
      cases hop : Operation.ofBulk doc with
      | none => rfl
      | some op =>
        rw [Option.bind_some, if_neg]
        intro hex
        obtain ⟨hr, -⟩ := hex
        cases (h doc hz hr).symm.trans hop

/-- An operation of which the type is null has no type of a group. -/
theorem ofBulk_of_isNull (h : (doc.value "operation_type").isNull) :
    Operation.ofBulk doc = none := by
  unfold Operation.ofBulk operationType
  cases hv : doc.value "operation_type" with
  | null => rfl
  | _ => simp [hv, QJsonValue.isNull] at h

theorem signup_effect {rest : QByteArray} {message : QJsonObject} {e : Event}
    (hu : Uploads z s e w sender .signup doc rest) (hop : operationOf z s e = none)
    (h : s.signup d doc rest = .ok (s', message)) : Effect z d s e s' [⟨w, .json message⟩] := by
  rcases signup_ok h with ⟨-, rfl, ⟨reason, rfl⟩ | hm⟩ |
    ⟨p, r, db', hne, hp, hdb, ⟨-, rfl, hm⟩ | ⟨-, hfresh, ⟨db2, hi, rfl⟩, hm⟩⟩
  · exact .answered hop (.single (isOperation_refuseUntyped _))
  · exact .answered hop (.reply (by simp [replyTypes]) hm)
  · have hanswers := Answers.reply (w := w) (by simp [replyTypes]) hm
    rcases Mongo.signup_db hdb with rfl | ⟨hashed, hfresh, rfl⟩
    · exact .answered hop hanswers
    · exact .stored hop (.signedUp hu hne hfresh (.inl rfl)) hanswers
  · have hanswers := Answers.reply (w := w) (by simp [replyTypes]) hm
    rcases Mongo.signup_db hdb with rfl | ⟨hashed, hfresh, rfl⟩ <;>
      rcases storeImage_ok hi with rfl | ⟨hsize, image, rfl⟩
    · exact .answered hop hanswers
    · exact .stored hop (.image hu (.inr ⟨rfl, hfresh⟩) hsize) hanswers
    · exact .stored hop (.signedUp hu hne hfresh (.inl rfl)) hanswers
    · exact .stored hop (.signedUp hu hne hfresh (.inr ⟨hsize, image, rfl⟩)) hanswers

theorem byteArrayReceived_effect {data : QByteArray} (hw : s.clients[w]? = some sender)
    (h : s.handleSignupUpdateImageBulkOperation z d w sender data = .ok (s', outs)) :
    Effect z d s (.byteArrayReceived w data) s' outs := by
  unfold handleSignupUpdateImageBulkOperation at h
  split at h
  case h_2 hz =>
    cases h
    exact .answered (operationOf_byteArray fun doc hd => absurd hd (hz doc))
      (.single (isOperation_refuseUntyped _))
  case h_1 doc hz =>
    have huploads : ∀ {request}, ByteArrayRequest.of doc = some request →
        Uploads z s (.byteArrayReceived w data) w sender request doc (afterBlock data) :=
      fun hr => ⟨⟨data, rfl, hz, rfl⟩, hw, hr⟩
    have hother : ByteArrayRequest.of doc ≠ some .operation →
        operationOf z s (.byteArrayReceived w data) = none := fun hr =>
      operationOf_byteArray fun doc' hd hr' => by
        cases hz.symm.trans hd
        exact absurd hr' hr
    dsimp only at h
    split at h
    case isTrue htype =>
      cases h
      refine .answered (hother fun hr => htype ?_) (.single (isOperation_refuseUntyped _))
      obtain ⟨type, -, ht, -, -⟩ := requestOf_some hr
      rw [ht]
      rfl
    case isFalse =>
      split at h
      case h_1 hr =>
        obtain ⟨⟨s1, message⟩, hs, h⟩ := map_eq_ok.mp h
        cases h
        exact signup_effect (huploads hr) (hother (by rw [hr]; nofun)) hs
      case h_2 hr =>
        have hop := hother (by rw [hr]; nofun)
        obtain ⟨s1, hu, h⟩ := bind_eq_ok.mp h
        cases h
        rcases updateImage_ok hu with rfl | ⟨-, hsize, image, rfl⟩
        · exact .answered (w := w) hop .nil
        · exact .stored (w := w) hop (.image (huploads hr) (.inl rfl) hsize) .nil
      case h_3 hr =>
        rcases bulkOperation_ok h with ⟨rfl, hn, reason, rfl⟩ | ⟨op, hop, hsize, ho⟩
        · refine .answered (operationOf_byteArray fun doc' hd _ => ?_)
            (.single (isOperation_refuseUntyped _))
          cases hz.symm.trans hd
          exact hn.elim id ofBulk_of_isNull
        · refine .operated (t := ⟨w, sender.filename, _, _⟩) ?_ ho
          simp [operationOf, hw, hz, hop, hr, hsize]
      case h_4 hr =>
        cases h
        exact .answered (w := w) (hother (by rw [hr]; nofun)) .nil

theorem withWorker_ok {α : Type} {call : ServerWorker → Except Fault α} {a : α}
    (h : s.withWorker w call = .ok a) :
    ∃ sender, s.clients[w]? = some sender ∧ call sender = .ok a := by
  unfold withWorker at h
  split at h
  · cases h
  case h_2 sender hs => exact ⟨sender, hs, h⟩

/-- **What the server can do with an event.** -/
theorem handle_effect {e : Event} (h : s.handle z d e = .ok (s', outs)) :
    Effect z d s e s' outs := by
  cases e with
  | incomingConnection w =>
    cases h
    exact .connected rfl
  | jsonReceived w doc =>
    obtain ⟨sender, hw, h⟩ := withWorker_ok h
    unfold jsonReceived at h
    split at h
    case isTrue hn => exact jsonFromLoggedOut_effect hw hn h
    case isFalse hn => exact jsonFromLoggedIn_effect hw hn h
  | byteArrayReceived w data =>
    obtain ⟨sender, hw, h⟩ := withWorker_ok h
    exact byteArrayReceived_effect hw h
  | userDisconnected w =>
    obtain ⟨sender, hw, h⟩ := withWorker_ok h
    rcases userDisconnected_ok h with ⟨hf, rfl, rfl⟩ | ⟨hf, hl⟩
    · exact .disconnected rfl hw hf
    · exact .left rfl hw hf hl
  | timeout =>
    obtain ⟨s1, hs, h⟩ := bind_eq_ok.mp h
    cases h
    exact .saved rfl (saveFile_ok hs)

end Complete

end Scriba.Server
