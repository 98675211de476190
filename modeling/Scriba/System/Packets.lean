import Scriba.System.Deployment
import Scriba.Client.Loading

/-! # What clients make of packets

A packet brings a client an operation, or the file it has asked for, or neither. This is so whatever
the state of the client. What is read of a message in an array of bytes need not be the message: the
members of an object may come in another order. -/

namespace Scriba.System

open Scriba.Utility Scriba.Client Scriba.Server Scriba.Lib

/-! ## Reading messages -/

/-- The value is the other one. Of arrays no more is asked than that both are. -/
def Alike (a b : QJsonValue) : Prop :=
  a = b ∨ ∃ as bs, a = .array as ∧ b = .array bs

/-- The message is read as an object with the same members. -/
def ReadsAs (z : Codec) (toJson : QJsonObject → QByteArray) (message : QJsonObject) : Prop :=
  ∃ o, z.fromJson (toJson message) = .object o ∧ ∀ key, Alike (o.value key) (message.value key)

/-- If the packet is sent as an array of bytes, its message can be read. -/
def Readable (z : Codec) (toJson : QJsonObject → QByteArray) (packet : Packet) : Prop :=
  ∀ data, packet.bytes toJson = some data →
    ReadsAs z toJson packet.message ∧ data.length < 2 ^ 31

theorem Alike.eq {a b : QJsonValue} (h : Alike a b) (hb : ∀ bs, b ≠ .array bs) : a = b :=
  h.elim id fun ⟨_, bs, _, he⟩ => absurd he (hb bs)

theorem Alike.array {a : QJsonValue} {bs : List QJsonValue} (h : Alike a (.array bs)) :
    ∃ as, a = .array as := by
  rcases h with h | ⟨as, _, h, -⟩
  · exact ⟨bs, h⟩
  · exact ⟨as, h⟩

section Same

mutual

/-- Whether two values are the same. -/
def same : QJsonValue → QJsonValue → Bool
  | .undefined, .undefined => true
  | .null, .null => true
  | .bool a, .bool b => a = b
  | .double a, .double b => a = b
  | .string a, .string b => a = b
  | .array as, .array bs => sameValues as bs
  | .object as, .object bs => sameMembers as bs
  | _, _ => false

def sameValues : List QJsonValue → List QJsonValue → Bool
  | [], [] => true
  | a :: as, b :: bs => same a b && sameValues as bs
  | _, _ => false

def sameMembers : QJsonObject → QJsonObject → Bool
  | [], [] => true
  | (k, a) :: as, (l, b) :: bs => k = l && same a b && sameMembers as bs
  | _, _ => false

end

mutual

theorem eq_of_same : ∀ {a b : QJsonValue}, same a b = true → a = b
  | .array as, b, h => by
    cases b with
    | array bs => exact congrArg QJsonValue.array (eq_of_sameValues h)
    | _ => simp [same] at h
  | .object as, b, h => by
    cases b with
    | object bs => exact congrArg QJsonValue.object (eq_of_sameMembers h)
    | _ => simp [same] at h
  | .undefined, b, h | .null, b, h | .bool _, b, h | .double _, b, h | .string _, b, h => by
    cases b <;> simp_all [same]

theorem eq_of_sameValues : ∀ {as bs : List QJsonValue}, sameValues as bs = true → as = bs
  | [], [], _ => rfl
  | [], _ :: _, h | _ :: _, [], h => by simp [sameValues] at h
  | a :: as, b :: bs, h => by
    simp only [sameValues, Bool.and_eq_true] at h
    rw [eq_of_same h.1, eq_of_sameValues h.2]

theorem eq_of_sameMembers : ∀ {as bs : QJsonObject}, sameMembers as bs = true → as = bs
  | [], [], _ => rfl
  | [], _ :: _, h | _ :: _, [], h => by simp [sameMembers] at h
  | (k, a) :: as, (l, b) :: bs, h => by
    simp only [sameMembers, Bool.and_eq_true, decide_eq_true_eq] at h
    rw [h.1.1, eq_of_same h.1.2, eq_of_sameMembers h.2]

end

def alikeCheck : QJsonValue → QJsonValue → Bool
  | .array _, .array _ => true
  | a, b => same a b

theorem alike_of_check {a b : QJsonValue} (h : alikeCheck a b = true) : Alike a b := by
  unfold alikeCheck at h
  split at h
  · exact .inr ⟨_, _, rfl, rfl⟩
  · exact .inl (eq_of_same h)

/-- A message that is read with its members, in whatever order, can be told. -/
def readableCheck (z : Codec) (toJson : QJsonObject → QByteArray) (packet : Packet) : Bool :=
  match packet.bytes toJson with
  | none => true
  | some data =>
    data.length < 2 ^ 31 &&
      match z.fromJson (toJson packet.message) with
      | .object o => (o ++ packet.message).all fun (key, _) =>
        alikeCheck ((o.lookup key).getD .undefined) ((packet.message.lookup key).getD .undefined)
      | _ => false

theorem lookup_eq_none {o : QJsonObject} {key : QString} (h : ∀ v, (key, v) ∉ o) :
    o.lookup key = none := by
  refine List.lookup_eq_none_iff.mpr fun p hp => ?_
  obtain ⟨k, v⟩ := p
  simp only [bne_iff_ne]
  rintro rfl
  exact h v hp

theorem readable_of_check {z : Codec} {toJson : QJsonObject → QByteArray} {packet : Packet}
    (h : readableCheck z toJson packet = true) : Readable z toJson packet := by
  intro data hdata
  rw [readableCheck, hdata] at h
  simp only [Bool.and_eq_true, decide_eq_true_eq] at h
  obtain ⟨hlen, h⟩ := h
  split at h
  case h_1 o ho =>
    refine ⟨⟨o, ho, fun key => ?_⟩, hlen⟩
    rw [List.all_eq_true] at h
    by_cases hin : ∃ v, (QString.of key, v) ∈ o ++ packet.message
    · obtain ⟨v, hv⟩ := hin
      exact alike_of_check (h _ hv)
    · have hnot : ∀ v, (QString.of key, v) ∉ o ++ packet.message := fun v hv => hin ⟨v, hv⟩
      refine .inl ?_
      rw [QJsonObject.value, QJsonObject.value,
        lookup_eq_none fun v hv => hnot v (List.mem_append_left _ hv),
        lookup_eq_none fun v hv => hnot v (List.mem_append_right _ hv)]
  case h_2 => cases h

end Same

/-! ## Packets -/

/-- The packet has the client handle the operation, or none. It may set the list of files. -/
def Brings (z : Codec) (toJson : QJsonObject → QByteArray) (packet : Packet)
    (o : Option Message) : Prop :=
  ∀ c : Members, ∃ files signals, received z toJson c packet = .ok ({ c with files }, signals) ∧
    signals.operations = o.toList ∧ signals.opened = false ∧ signals.chosen = []

/-- The packets bring the operations. -/
inductive Bring (z : Codec) (toJson : QJsonObject → QByteArray) :
    List Packet → List Message → Prop
  | nil : Bring z toJson [] []
  | other {packet : Packet} {ps : List Packet} {ms : List Message} :
      Brings z toJson packet none → Bring z toJson ps ms → Bring z toJson (packet :: ps) ms
  | operation {packet : Packet} {m : Message} {ps : List Packet} {ms : List Message} :
      Brings z toJson packet (some m) → Bring z toJson ps ms →
      Bring z toJson (packet :: ps) (m :: ms)

/-- The packet opens a file with these symbols at the client. -/
def Replies (z : Codec) (toJson : QJsonObject → QByteArray) (packet : Packet)
    (filename : QString) (vec : List Symbol) : Prop :=
  ∃ sharedLink, ∀ c : Members, ∃ users, received z toJson c packet =
    .ok ({ c with state := { c.state with openfile := filename, sharedLink } },
      ⟨[], loadSignals vec ++ [.usersConnectedReceived users, .correctOpenedFile]⟩)

section Bring

variable {z : Codec} {toJson : QJsonObject → QByteArray} {packet : Packet}
  {ps qs : List Packet} {ms ns : List Message}

theorem Bring.append (h : Bring z toJson ps ms) (h' : Bring z toJson qs ns) :
    Bring z toJson (ps ++ qs) (ms ++ ns) := by
  induction h with
  | nil => exact h'
  | other hb _ ih => exact .other hb ih
  | operation hb _ ih => exact .operation hb ih

theorem Bring.cons_inv (h : Bring z toJson (packet :: ps) ms) :
    ∃ o ms', Brings z toJson packet o ∧ Bring z toJson ps ms' ∧ ms = o.toList ++ ms' := by
  cases h with
  | other hb h => exact ⟨none, _, hb, h, rfl⟩
  | operation hb h => exact ⟨some _, _, hb, h, rfl⟩

theorem Bring.brings (h : Bring z toJson ps ms) (hp : packet ∈ ps) :
    ∃ o, Brings z toJson packet o := by
  induction h with
  | nil => cases hp
  | other hb _ ih =>
    rcases List.mem_cons.mp hp with rfl | hp
    · exact ⟨_, hb⟩
    · exact ih hp
  | operation hb _ ih =>
    rcases List.mem_cons.mp hp with rfl | hp
    · exact ⟨_, hb⟩
    · exact ih hp

theorem Bring.of_none (h : ∀ packet ∈ ps, Brings z toJson packet none) : Bring z toJson ps [] := by
  induction ps with
  | nil => exact .nil
  | cons packet ps ih =>
    exact .other (h packet (by simp)) (ih fun p hp => h p (by simp [hp]))

end Bring

/-! ## Packets without an operation -/

section Replies

variable {z : Codec} {toJson : QJsonObject → QByteArray} {message : QJsonObject}

/-- A signal that is none of an operation and asks for no file. -/
def Silent (g : JsonSignal) : Prop :=
  g.operation = none ∧ ∀ filename, g ≠ .openFile filename

theorem brings_of_silent {c : Members} (files : List (QString × QString))
    {signals : List JsonSignal} (h : onJsonReceived c message = ({ c with files }, signals))
    (hs : ∀ g ∈ signals, Silent g) : ∃ files signals,
      received z toJson c (.json message) = .ok ({ c with files }, signals) ∧
      signals.operations = (none : Option Message).toList ∧ signals.opened = false ∧
      signals.chosen = [] := by
  refine ⟨files, ⟨signals, []⟩, ?_, ?_, rfl, ?_⟩
  · simp only [received, Packet.bytes, Packet.message, h]
    rfl
  · rw [Signals.operations, List.filterMap_nil, List.append_nil]
    exact List.filterMap_eq_nil_iff.mpr fun g hg => (hs g hg).1
  · refine List.filterMap_eq_nil_iff.mpr fun g hg => ?_
    have hne := (hs g hg).2
    cases g with
    | openFile filename => exact absurd rfl (hne filename)
    | _ => rfl

theorem silent_onResult {doc : QJsonObject} {success : JsonSignal}
    {failure : QString → JsonSignal} (hs : Silent success) (hf : ∀ r, Silent (failure r)) :
    ∀ g ∈ onResult doc success failure, Silent g := by
  unfold onResult
  split
  · simpa using hs
  · simpa using hf _
  · simp

theorem silent_listFiles (c : Members) (doc : QJsonObject) :
    ∃ files signals, listFiles c doc = ({ c with files }, signals) ∧ ∀ g ∈ signals, Silent g := by
  unfold listFiles
  split
  · split
    · split
      · exact ⟨_, _, rfl, by simp [Silent, JsonSignal.operation]⟩
      · exact ⟨_, _, rfl, by simp⟩
    · exact ⟨c.files, _, rfl, by simp⟩
  · exact ⟨c.files, _, rfl, by simp [Silent, JsonSignal.operation]⟩
  · exact ⟨c.files, _, rfl, by simp⟩

theorem silent_disconnection (c : Members) (doc : QJsonObject) :
    ∀ g ∈ disconnection c doc, Silent g := by
  unfold disconnection
  split
  · split <;> simp [Silent, JsonSignal.operation]
  · simp

/-- **Replies and notices in JSON** bring no operation. -/
theorem brings_json {type : String} (h : message.value "type" = text type)
    (ht : type ∈ ["nickname", "password", "old_password_checked", "list_files", "close",
      "disconnection"]) : Brings z toJson (.json message) none := by
  intro c
  have hof : JsonMessage.of message =
      requestOf [("signup", .signup), ("old_password_checked", .oldPasswordChecked),
        ("check_username", .checkUsername), ("operation", .operation),
        ("list_files", .listFiles), ("new_file", .newFile), ("disconnection", .disconnection),
        ("filename_from_sharedlink", .filenameFromSharedLink), ("password", .password)]
        (object [("type", text type)]) := by
    rw [JsonMessage.of, requestOf, requestOf, h]
    rfl
  simp only [List.mem_cons, List.not_mem_nil, or_false] at ht
  rcases ht with rfl | rfl | rfl | rfl | rfl | rfl
  · have hnone : JsonMessage.of message = none := hof.trans (by decide +kernel)
    exact brings_of_silent c.files (by rw [onJsonReceived, hnone]) (by simp)
  · have hsome : JsonMessage.of message = some .password := hof.trans (by decide +kernel)
    exact brings_of_silent c.files (by rw [onJsonReceived, hsome])
      (silent_onResult (by simp [Silent, JsonSignal.operation])
        (by simp [Silent, JsonSignal.operation]))
  · have hsome : JsonMessage.of message = some .oldPasswordChecked :=
      hof.trans (by decide +kernel)
    exact brings_of_silent c.files (by rw [onJsonReceived, hsome])
      (silent_onResult (by simp [Silent, JsonSignal.operation])
        (by simp [Silent, JsonSignal.operation]))
  · have hsome : JsonMessage.of message = some .listFiles := hof.trans (by decide +kernel)
    obtain ⟨files, signals, hl, hs⟩ := silent_listFiles c message
    exact brings_of_silent files (by rw [onJsonReceived, hsome]; exact hl) hs
  · have hnone : JsonMessage.of message = none := hof.trans (by decide +kernel)
    exact brings_of_silent c.files (by rw [onJsonReceived, hnone]) (by simp)
  · have hsome : JsonMessage.of message = some .disconnection := hof.trans (by decide +kernel)
    exact brings_of_silent c.files (by rw [onJsonReceived, hsome])
      (silent_disconnection c message)

/-- A cursor that moves is shown only. -/
theorem brings_cursor (siteId : Int) (r : Symbol) :
    Brings z toJson (.json (symbolMessage siteId .cursor r)) none := by
  intro c
  have htype : JsonMessage.of (symbolMessage siteId .cursor r) = some .operation :=
    requestOf_of_hasType (hasType_symbolMessage .cursor r) rfl
  refine brings_of_silent c.files (by rw [onJsonReceived, htype]) ?_
  rw [remoteOperation, operationType_symbolMessage]
  simp [Silent, JsonSignal.operation]

/-- Who opens a file is shown only. -/
theorem brings_connection {content : QByteArray} (h : message.value "type" = text "connection")
    (hr : Readable z toJson (.byteArray message content)) :
    Brings z toJson (.byteArray message content) none := by
  intro c
  obtain ⟨⟨o, ho, hvalue⟩, hlen⟩ := hr _ rfl
  simp only [Packet.message] at ho hvalue
  have htype : HasType o "connection" :=
    ⟨_, ((hvalue "type").eq (by rw [h]; simp [text])).trans h, by decide⟩
  have hof : ByteArrayMessage.of o = some .connection := requestOf_of_hasType htype rfl
  have hblock : block (broadcastBytes toJson message content) = toJson message := by
    rw [broadcastBytes, List.length_append, length_sized] at hlen
    exact block_sized (by omega)
  obtain ⟨signals, hsignals, hnone⟩ : ∃ signals, connection c.state o
      (afterBlock (broadcastBytes toJson message content)) = (c.state, signals) ∧
      ∀ g ∈ signals, ∃ users, g = .usersConnectedReceived users := by
    unfold connection
    split
    · split
      · exact ⟨_, rfl, by simp⟩
      · exact ⟨_, rfl, by simp⟩
    · exact ⟨_, rfl, by simp⟩
  refine ⟨c.files, ⟨[], signals⟩, ?_, ?_, ?_, rfl⟩
  · simp only [received, Packet.bytes, onByteArrayReceived, hblock, ho, hof, hsignals]
    rfl
  · refine List.filterMap_eq_nil_iff.mpr fun g hg => ?_
    obtain ⟨users, rfl⟩ := hnone g hg
    rfl
  · refine List.any_eq_false.mpr fun g hg => ?_
    obtain ⟨users, rfl⟩ := hnone g hg
    simp

end Replies

/-! ## The file that was asked for -/

section Opening

variable {z : Codec} {toJson : QJsonObject → QByteArray} {vec : List Symbol}
  {filename sharedLink : QString} {users : List QJsonValue}

theorem length_le_writeSymbols (vec : List Symbol) :
    vec.length ≤ (writeSymbols vec).length := by
  have hle : vec.length ≤ (vec.flatMap Symbol.write).length :=
    length_le_length_flatMap fun s _ => by
      rw [Symbol.write, List.length_append, QDataStream.writeUshort, BigEndian.length_bytes]
      omega
  rw [writeSymbols, QDataStream.writeVector, List.length_append]
  omega

/-- **The reply to a file that is opened**, when the file has symbols. -/
theorem replies_file {images : List QByteArray} (hne : vec ≠ []) (hr : ∀ s ∈ vec, s.InRange)
    (h : Readable z toJson (.fileContentImage (accept "file_to_open"
      [("filename", .string filename), ("tot_symbols", .double vec.length),
        ("users", .array users), ("shared_link", .string sharedLink)]) vec images)) :
    Replies z toJson (.fileContentImage (accept "file_to_open"
      [("filename", .string filename), ("tot_symbols", .double vec.length),
        ("users", .array users), ("shared_link", .string sharedLink)]) vec images)
      filename vec := by
  obtain ⟨⟨o, ho, hvalue⟩, hlen⟩ := h _ rfl
  rw [createByteArrayFileContentImage, List.append_assoc, List.length_append, List.length_append,
    length_sized, length_sized] at hlen
  have hvec : vec.length < 2 ^ 31 := by
    have hle := length_le_writeSymbols vec
    omega
  have hm : OpensFile _ filename sharedLink users := opensFile_accept hne hvec
  simp only [Packet.message] at ho hvalue
  have hopens : ∃ users, OpensFile o filename sharedLink users := by
    obtain ⟨type, htype, hname⟩ := hm.type
    obtain ⟨as, has⟩ := Alike.array (hm.users ▸ hvalue "users")
    refine ⟨as, ⟨type, ((hvalue "type").eq (by rw [htype]; simp)).trans htype, hname⟩, ?_, ?_, ?_,
      has, ?_⟩
    · exact ((hvalue "success").eq (by rw [hm.success]; simp)).trans hm.success
    · rw [(hvalue "tot_symbols").eq (by intro bs hbs; cases hbs)]
      exact hm.totSymbols
    · exact ((hvalue "filename").eq (by rw [hm.filename]; simp)).trans hm.filename
    · exact ((hvalue "shared_link").eq (by rw [hm.sharedLink]; simp)).trans hm.sharedLink
  obtain ⟨users', ho'⟩ := hopens
  have hof : ByteArrayMessage.of o = some .fileToOpen := requestOf_of_hasType ho'.type rfl
  refine ⟨sharedLink, fun c => ⟨retrieveConnected users' (imageBlocks images), ?_⟩⟩
  have hread : onByteArrayReceived z c.state (createByteArrayFileContentImage toJson (accept
      "file_to_open" [("filename", .string filename), ("tot_symbols", .double vec.length),
        ("users", .array users), ("shared_link", .string sharedLink)]) vec images) =
      .ok ({ c.state with openfile := filename, sharedLink },
        loadSignals vec ++ [.usersConnectedReceived
          (retrieveConnected users' (imageBlocks images)), .correctOpenedFile]) := by
    rw [createByteArrayFileContentImage, List.append_assoc, onByteArrayReceived,
      block_sized (by omega), ho, afterBlock_sized (by omega)]
    dsimp only
    rw [hof]
    dsimp only
    rw [fileToOpen_sized ho' hr (by omega)]
  simp only [received, Packet.bytes, hread]
  rfl

/-! ## The symbols of the file -/

theorem handleAll_cons {c c1 c2 : CRDT} {m : Message} {ms : List Message} {g1 g2 : List Signal}
    (h1 : c.handle m = .ok (c1, g1)) (h2 : c1.handleAll ms = .ok (c2, g2)) :
    c.handleAll (m :: ms) = .ok (c2, g1 ++ g2) := by
  rw [CRDT.handleAll]
  exact bind_eq_ok.mpr ⟨_, h1, bind_eq_ok.mpr ⟨_, h2, rfl⟩⟩

theorem handleAll_append {c c1 c2 : CRDT} {ms ns : List Message} {g1 g2 : List Signal}
    (h1 : c.handleAll ms = .ok (c1, g1)) (h2 : c1.handleAll ns = .ok (c2, g2)) :
    c.handleAll (ms ++ ns) = .ok (c2, g1 ++ g2) := by
  induction ms generalizing c g1 with
  | nil =>
    obtain ⟨rfl, rfl⟩ := Prod.mk.inj (Except.ok.inj h1)
    exact h2
  | cons m ms ih =>
    obtain ⟨⟨c', g⟩, hm, h1⟩ := bind_eq_ok.mp h1
    obtain ⟨⟨c'', g'⟩, hms, h1⟩ := bind_eq_ok.mp h1
    obtain ⟨rfl, rfl⟩ := Prod.mk.inj (Except.ok.inj h1)
    rw [List.cons_append, List.append_assoc]
    exact handleAll_cons hm (ih hms)

/-- The operations of one round of the loop over the symbols. -/
def loadOperations (vec : List Symbol) : List Message :=
  vec.reverse.flatMap fun s =>
    if s.value = QChar.newline ∨ s.value = QChar.null then [.insert s, .align s] else [.insert s]

theorem operations_loadSignals (vec : List Symbol) (users : List ConnectedUser) :
    Signals.operations
      ⟨[], loadSignals vec ++ [.usersConnectedReceived users, .correctOpenedFile]⟩ =
      loadOperations vec := by
  have htail : [ClientSignal.usersConnectedReceived users, .correctOpenedFile].filterMap
      ClientSignal.operation = [] := rfl
  rw [Signals.operations, List.filterMap_nil, List.nil_append, List.filterMap_append, htail,
    List.append_nil, loadSignals, loadOperations, List.filterMap_flatMap]
  refine List.flatMap_congr fun s _ => ?_
  split <;> rfl

/-- **Loading a file** is handling these operations. -/
theorem handleAll_loadOperations {a a' : Screen} (h : a.load vec = .ok a') :
    ∃ signals, a.crdt.handleAll (loadOperations vec) = .ok (a'.crdt, signals) := by
  induction vec generalizing a' with
  | nil =>
    obtain rfl := Except.ok.inj h
    exact ⟨[], rfl⟩
  | cons s vec ih =>
    obtain ⟨a1, hload, hadd⟩ := bind_eq_ok.mp h
    obtain ⟨g1, h1⟩ := ih hload
    have hops : loadOperations (s :: vec) = loadOperations vec ++
        if s.value = QChar.newline ∨ s.value = QChar.null then [.insert s, .align s]
        else [.insert s] := by
      simp [loadOperations]
    obtain ⟨⟨c2, g2⟩, hins, hadd⟩ := bind_eq_ok.mp hadd
    have hinsert : a1.crdt.handle (.insert s) = .ok (c2, g2) := hins
    rw [hops]
    dsimp only at hadd
    split at hadd
    case isTrue hend =>
      obtain ⟨⟨c3, g3⟩, hal, hadd⟩ := bind_eq_ok.mp hadd
      obtain rfl := Except.ok.inj hadd
      have halign : c2.handle (.align s) = .ok (c3, g3) := hal
      rw [if_pos hend]
      exact ⟨_, handleAll_append h1 (handleAll_cons hinsert (handleAll_cons halign rfl))⟩
    case isFalse hend =>
      obtain rfl := Except.ok.inj hadd
      rw [if_neg hend]
      exact ⟨_, handleAll_append h1 (handleAll_cons hinsert rfl)⟩

end Opening

end Scriba.System
