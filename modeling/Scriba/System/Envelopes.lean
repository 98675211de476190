import Scriba.Client.Receiving
import Scriba.Utility.SymbolCodecs

/-! # Envelopes round trip

Both sides put together and take apart arrays of bytes on their own. What the server sends when a
file is opened, and what a client sends for an operation and the server forwards, is read as it was
written: the message, the symbols and the images. The arrays have fewer than 2^31 bytes. -/

namespace Scriba.System

open Scriba.Utility Scriba.Client Scriba.Server Scriba.Lib

/-- `QJsonDocument::fromJson` reads what `toJson` writes for the object. -/
def ReadsBack (z : Codec) (toJson : QJsonObject → QByteArray) (message : QJsonObject) : Prop :=
  z.fromJson (toJson message) = .object message

/-- The type of the message, in any case. -/
def HasType (message : QJsonObject) (name : String) : Prop :=
  ∃ type, message.value "type" = .string type ∧ type.equalsIgnoringCase name

/-- A file was opened, in which there are symbols. -/
structure OpensFile (message : QJsonObject) (filename sharedLink : QString)
    (users : List QJsonValue) : Prop where
  type : HasType message "file_to_open"
  success : message.value "success" = .bool true
  totSymbols : (message.value "tot_symbols").toInt ≠ 0
  filename : message.value "filename" = .string filename
  users : message.value "users" = .array users
  sharedLink : message.value "shared_link" = .string sharedLink

/-- An operation on many symbols. The number of symbols may be left out. -/
structure IsBulk (message : QJsonObject) : Prop where
  type : HasType message "operation"
  kind : ∃ kind ∈ [OperationType.deleteSymbol, .change, .paste],
    operationType message = some kind
  totSymbols : (message.value "tot_symbols").isNull = false

/-- The picture of a user. -/
def pictureFor (image : QByteArray) : Pixmap := if image = [] then .anonymous else .data image

section Blocks

variable {message : QJsonObject} {data rest : QByteArray} {images : List QByteArray}
  {vec : List Symbol}

theorem requestOf_of_hasType {α : Type} {names : List (String × α)} {name : String} {a : α}
    (h : HasType message name)
    (hfind : (names.find? fun n => QString.of name = QString.of n.1).map Prod.snd = some a) :
    requestOf names message = some a := by
  obtain ⟨type, htype, hname⟩ := h
  have hfold : type.map QChar.foldCase = QString.of name := by
    simpa [QString.equalsIgnoringCase] using hname
  rw [requestOf, htype]
  simp only [QString.equalsIgnoringCase, hfold]
  exact hfind

theorem leadingSize_symbols (h : (writeSymbols vec).length < 2 ^ 31) :
    leadingSize (sized (writeSymbols vec) ++ rest) ≠ 0 := by
  rw [leadingSize_sized, ne_eq, ofNat_length_eq_zero (by omega)]
  exact List.append_ne_nil_of_left_ne_nil (by simp [QDataStream.writeQuint32, BigEndian.bytes]) _

/-- Symbols are read back from their block. -/
theorem readSymbols_block (hr : ∀ s ∈ vec, s.InRange) (h : (writeSymbols vec).length < 2 ^ 31) :
    readSymbols (block (sized (writeSymbols vec) ++ rest)) = vec := by
  rw [block_sized h]
  obtain ⟨hlen, hs⟩ := storable_of_length hr h
  exact readSymbols_write hlen hs

theorem imageBlocks_eq (hne : images ≠ []) (h : ∀ a ∈ images, a.length < 2 ^ 31) :
    imageBlocks images = images.flatMap sized := by
  have hlen : images.length ≠ 0 := by simpa using hne
  rw [imageBlocks, if_neg hlen, List.nil_append]
  refine List.flatMap_congr ?_
  intro a ha
  have hlt := h a ha
  by_cases hempty : a = []
  · rw [hempty]
    rfl
  · have hsize := mt (ofNat_length_eq_zero (by omega)).mp hempty
    simp only [ne_eq, hsize, not_false_eq_true, if_true, sized]

theorem pictureOf_sized (h : data.length < 2 ^ 31) :
    pictureOf (sized data ++ rest) = pictureFor data := by
  have hsize : UInt32.ofNat data.length = 0 ↔ data = [] := ofNat_length_eq_zero (by omega)
  rw [pictureOf, pictureFor, leadingSize_sized, block_sized h]
  by_cases hempty : data = []
  · rw [if_neg (not_not.mpr (hsize.mpr hempty)), if_pos hempty]
  · rw [if_pos (mt hsize.mp hempty), if_neg hempty]

/-- **The loop over the images** gives each user the own one. -/
theorem retrieveConnected_images {users : List QJsonValue} (hlen : images.length = users.length)
    (h : ∀ a ∈ images, 4 + a.length < 2 ^ 31) :
    retrieveConnected users (images.flatMap sized) =
      List.zipWith (fun v image => connectedUser v (pictureFor image)) users images := by
  induction images generalizing users with
  | nil =>
    obtain rfl := List.length_eq_zero_iff.mp hlen.symm
    rfl
  | cons a images ih =>
    obtain ⟨v, users, rfl⟩ := List.exists_cons_of_length_pos (l := users) (by simp [← hlen])
    have ha := h a List.mem_cons_self
    rw [List.flatMap_cons, retrieveConnected, pictureOf_sized (by omega), afterBlock_sized ha,
      ih (by simpa using hlen) fun b hb => h b (List.mem_cons_of_mem a hb), List.zipWith_cons_cons]

end Blocks

/-! ## A file that is opened -/

section Opened

variable {z : Codec} {toJson : QJsonObject → QByteArray} {message : QJsonObject}
  {filename sharedLink : QString} {users : List QJsonValue} {images : List QByteArray}
  {vec : List Symbol}

/-- What a client makes of the bytes of a file that is opened. -/
structure ReadsFile (z : Codec) (data : QByteArray) (message : QJsonObject)
    (filename sharedLink : QString) (vec : List Symbol) (users : List ConnectedUser) : Prop where
  message : z.fromJson (block data) = .object message
  symbols : readSymbols (block (afterBlock data)) = vec
  received : ∀ c, onByteArrayReceived z c data =
    .ok ({ c with openfile := filename, sharedLink },
      loadSignals vec ++ [.usersConnectedReceived users, .correctOpenedFile])

/-- The users of the message, each with the own image. -/
def withPictures (users : List QJsonValue) (images : List QByteArray) : List ConnectedUser :=
  List.zipWith (fun v image => connectedUser v (pictureFor image)) users images

theorem retrieveConnected_imageBlocks (hlen : images.length = users.length)
    (h : ∀ a ∈ images, 4 + a.length < 2 ^ 31) :
    retrieveConnected users (imageBlocks images) = withPictures users images := by
  by_cases hne : images = []
  · subst hne
    obtain rfl := List.length_eq_zero_iff.mp hlen.symm
    rfl
  · rw [imageBlocks_eq hne fun a ha => by have := h a ha; omega]
    exact retrieveConnected_images hlen h

/-- The handler of the message. -/
theorem fileToOpen_sized (hm : OpensFile message filename sharedLink users)
    (hr : ∀ s ∈ vec, s.InRange) (hvec : 4 + (writeSymbols vec).length < 2 ^ 31)
    (c : ClientState) (rest : QByteArray) :
    fileToOpen c message (sized (writeSymbols vec) ++ rest) =
      .ok ({ c with openfile := filename, sharedLink },
        loadSignals vec ++
          [.usersConnectedReceived (retrieveConnected users rest), .correctOpenedFile]) := by
  have hcount : ¬ ((message.value "tot_symbols").isNull ∨
      (message.value "tot_symbols").toInt = 0) := by
    intro h
    rcases h with hnull | hzero
    · refine hm.totSymbols ?_
      cases hv : message.value "tot_symbols" <;> simp_all [QJsonValue.isNull, QJsonValue.toInt]
    · exact hm.totSymbols hzero
  rw [fileToOpen, hm.success]
  dsimp only
  rw [if_neg hcount, if_neg (leadingSize_symbols (by omega)), afterBlock_sized hvec,
    readSymbols_block hr (by omega), openedFile, hm.filename]
  dsimp only
  rw [hm.sharedLink]
  dsimp only
  rw [hm.users]
  rfl

/-- **Opened files are read as they were written.** -/
theorem readsFile (hz : ReadsBack z toJson message)
    (hm : OpensFile message filename sharedLink users) (hlen : images.length = users.length)
    (hr : ∀ s ∈ vec, s.InRange) (himages : ∀ a ∈ images, a.length < 2 ^ 31)
    (hfits : (createByteArrayFileContentImage toJson message vec images).length < 2 ^ 31) :
    ReadsFile z (createByteArrayFileContentImage toJson message vec images) message filename
      sharedLink vec (withPictures users images) := by
  have hdata : createByteArrayFileContentImage toJson message vec images =
      sized (toJson message) ++ (sized (writeSymbols vec) ++ imageBlocks images) :=
    List.append_assoc _ _ _
  rw [hdata, List.length_append, List.length_append, length_sized, length_sized] at hfits
  have hsmall : ∀ a ∈ images, 4 + a.length < 2 ^ 31 := by
    intro a ha
    have hle : (sized a).length ≤ (images.flatMap sized).length := length_le_flatMap ha
    rw [length_sized, ← imageBlocks_eq (List.ne_nil_of_mem ha) himages] at hle
    omega
  have hblock : z.fromJson (block (createByteArrayFileContentImage toJson message vec images)) =
      .object message := by
    rw [hdata, block_sized (by omega)]
    exact hz
  have hafter : afterBlock (createByteArrayFileContentImage toJson message vec images) =
      sized (writeSymbols vec) ++ imageBlocks images := by
    rw [hdata, afterBlock_sized (by omega)]
  have htype : ByteArrayMessage.of message = some .fileToOpen :=
    requestOf_of_hasType hm.type rfl
  refine ⟨hblock, ?_, fun c => ?_⟩
  · rw [hafter, readSymbols_block hr (by omega)]
  · rw [onByteArrayReceived, hblock]
    dsimp only
    rw [htype, hafter]
    dsimp only
    rw [fileToOpen_sized hm hr (by omega), retrieveConnected_imageBlocks hlen hsmall]

/-- The message of the server, when the file has symbols. -/
theorem opensFile_accept (hne : vec ≠ []) (hlen : vec.length < 2 ^ 31) :
    OpensFile (accept "file_to_open" [("filename", .string filename),
      ("tot_symbols", .double vec.length), ("users", .array users),
      ("shared_link", .string sharedLink)]) filename sharedLink users where
  type := ⟨_, rfl, rfl⟩
  success := rfl
  totSymbols := by
    have hvalue : (QJsonValue.double (vec.length : Int)).toInt = vec.length :=
      QJsonValue.toInt_double (by omega)
    have hpos := List.length_pos_of_ne_nil hne
    intro h0
    have hzero : (QJsonValue.double (vec.length : Int)).toInt = 0 := h0
    omega
  filename := rfl
  users := rfl
  sharedLink := rfl

end Opened

/-! ## An operation that is forwarded -/

section Forwarded

variable {z : Codec} {toJson : QJsonObject → QByteArray} {message : QJsonObject}
  {vec : List Symbol}

theorem IsBulk.operation_type (hm : IsBulk message) :
    (message.value "operation_type").isNull = false := by
  obtain ⟨kind, hkind, htype⟩ := hm.kind
  cases hv : message.value "operation_type" with
  | null =>
    rw [operationType, hv] at htype
    cases htype
    simp at hkind
  | _ => rfl

/-- Both sides know what to do with it. -/
theorem IsBulk.known (hm : IsBulk message) :
    (∃ operation, Operation.ofBulk message = some operation) ∧
      ∃ signal, remoteSignal message = some signal := by
  obtain ⟨kind, hkind, htype⟩ := hm.kind
  simp only [Operation.ofBulk, remoteSignal, htype]
  simp only [List.mem_cons, List.not_mem_nil, or_false] at hkind
  rcases hkind with rfl | rfl | rfl
  · exact ⟨⟨_, rfl⟩, _, rfl⟩
  · exact ⟨⟨_, rfl⟩, _, rfl⟩
  · exact ⟨⟨_, rfl⟩, _, rfl⟩

theorem HasType.isString {name : String} (h : HasType message name) :
    (message.value "type").isString = true := by
  obtain ⟨type, htype, -⟩ := h
  rw [htype]
  rfl

/-- The two blocks of an operation. -/
theorem blocks_createByteArrayFileContent
    (hfits : (createByteArrayFileContent toJson message vec).length < 2 ^ 31) :
    block (createByteArrayFileContent toJson message vec) = toJson message ∧
      afterBlock (createByteArrayFileContent toJson message vec) = sized (writeSymbols vec) ++ [] ∧
      (writeSymbols vec).length < 2 ^ 31 := by
  rw [createByteArrayFileContent, List.length_append, length_sized, length_sized] at hfits
  rw [createByteArrayFileContent, block_sized (by omega), afterBlock_sized (by omega),
    List.append_nil]
  exact ⟨rfl, rfl, by omega⟩

/-- **Operations are read as they were written** by the server. -/
theorem server_reads (hz : ReadsBack z toJson message) (hm : IsBulk message)
    (hr : ∀ s ∈ vec, s.InRange)
    (hfits : (createByteArrayFileContent toJson message vec).length < 2 ^ 31) :
    ∃ operation, Operation.ofBulk message = some operation ∧ ∀ d (s : Server) w sender,
      s.handleSignupUpdateImageBulkOperation z d w sender
          (createByteArrayFileContent toJson message vec) =
        s.operate w sender.filename (operation vec) (.byteArray message (writeSymbols vec)) := by
  obtain ⟨operation, hop⟩ := hm.known.1
  obtain ⟨hblock, hafter, hsmall⟩ := blocks_createByteArrayFileContent hfits
  have htype : ByteArrayRequest.of message = some .operation :=
    requestOf_of_hasType hm.type rfl
  refine ⟨operation, hop, fun d s w sender => ?_⟩
  rw [handleSignupUpdateImageBulkOperation, hblock, hz]
  dsimp only
  rw [if_neg (not_not.mpr hm.type.isString), htype]
  dsimp only
  rw [bulkOperation, if_neg (by simp [hm.operation_type]), hop]
  dsimp only
  rw [hafter, if_neg (leadingSize_symbols hsmall), readSymbols_block hr hsmall,
    block_sized hsmall]

/-- What the server forwards is what it got. -/
theorem broadcastBytes_writeSymbols :
    broadcastBytes toJson message (writeSymbols vec) =
      createByteArrayFileContent toJson message vec := by
  have hlen : (writeSymbols vec).length ≠ 0 := by
    simp [writeSymbols, QDataStream.writeVector, QDataStream.writeQuint32]
  rw [broadcastBytes, if_pos hlen, createByteArrayFileContent]

/-- **And by the clients** to which it forwards them. -/
theorem client_reads (hz : ReadsBack z toJson message) (hm : IsBulk message)
    (hr : ∀ s ∈ vec, s.InRange)
    (hfits : (createByteArrayFileContent toJson message vec).length < 2 ^ 31) :
    ∃ signal, remoteSignal message = some signal ∧
      z.fromJson (block (broadcastBytes toJson message (writeSymbols vec))) = .object message ∧
      ∀ c, onByteArrayReceived z c (broadcastBytes toJson message (writeSymbols vec)) =
        .ok (c, [signal vec]) := by
  obtain ⟨signal, hsignal⟩ := hm.known.2
  obtain ⟨hblock, hafter, hsmall⟩ := blocks_createByteArrayFileContent hfits
  have htype : ByteArrayMessage.of message = some .operation :=
    requestOf_of_hasType hm.type rfl
  rw [broadcastBytes_writeSymbols, hblock, hz]
  refine ⟨signal, hsignal, rfl, fun c => ?_⟩
  rw [onByteArrayReceived, hblock, hz]
  dsimp only
  rw [htype, hafter]
  dsimp only
  rw [operation, if_neg (by simp [hm.operation_type]), hsignal]
  dsimp only
  rw [if_neg (by simp [hm.totSymbols]), if_neg (leadingSize_symbols hsmall),
    readSymbols_block hr hsmall]
  rfl

end Forwarded

/-! ## Both -/

/-- **Envelopes round trip.** -/
theorem envelopes_round_trip {z : Codec} {toJson : QJsonObject → QByteArray} :
    (∀ message filename sharedLink users images vec, ReadsBack z toJson message →
      OpensFile message filename sharedLink users → images.length = users.length →
      (∀ s ∈ vec, s.InRange) → (∀ a ∈ images, a.length < 2 ^ 31) →
      (createByteArrayFileContentImage toJson message vec images).length < 2 ^ 31 →
      ReadsFile z (createByteArrayFileContentImage toJson message vec images) message filename
        sharedLink vec (withPictures users images)) ∧
    ∀ message vec, ReadsBack z toJson message → IsBulk message → (∀ s ∈ vec, s.InRange) →
      (createByteArrayFileContent toJson message vec).length < 2 ^ 31 →
      (∃ operation, Operation.ofBulk message = some operation ∧ ∀ d (s : Server) w sender,
        s.handleSignupUpdateImageBulkOperation z d w sender
            (createByteArrayFileContent toJson message vec) =
          s.operate w sender.filename (operation vec) (.byteArray message (writeSymbols vec))) ∧
      ∃ signal, remoteSignal message = some signal ∧
        z.fromJson (block (broadcastBytes toJson message (writeSymbols vec))) = .object message ∧
        ∀ c, onByteArrayReceived z c (broadcastBytes toJson message (writeSymbols vec)) =
          .ok (c, [signal vec]) :=
  ⟨fun _ _ _ _ _ _ hz hm hlen hr himages hfits => readsFile hz hm hlen hr himages hfits,
    fun _ _ hz hm hr hfits => ⟨server_reads hz hm hr hfits, client_reads hz hm hr hfits⟩⟩

/-- A file with one symbol, which two users have open. -/
def openedExample : QJsonObject :=
  object [("filename", text "f,u"), ("shared_link", text "x"), ("success", .bool true),
    ("tot_symbols", .double 1), ("type", text "file_to_open"),
    ("users", .array [.object (object [("nickname", text "n"), ("username", text "u")]),
      .object (object [("nickname", text "m"), ("username", text "v")])])]

/-- One pasted symbol. -/
def pastedExample : QJsonObject :=
  object [("editorId", .double 1), ("operation_type", .double 4), ("tot_symbols", .double 1),
    ("type", text "operation")]

def asciiBytes (lines : List String) : QByteArray :=
  lines.flatMap fun line => line.toList.map (fun c => UInt8.ofNat c.toNat) ++ [10]

/-- The two objects as they are written. -/
def openedText : QByteArray :=
  asciiBytes ["\x7b", "    \"filename\": \"f,u\",", "    \"shared_link\": \"x\",",
    "    \"success\": true,", "    \"tot_symbols\": 1,", "    \"type\": \"file_to_open\",",
    "    \"users\": [", "        \x7b", "            \"nickname\": \"n\",",
    "            \"username\": \"u\"", "        \x7d,", "        \x7b",
    "            \"nickname\": \"m\",", "            \"username\": \"v\"", "        \x7d",
    "    ]", "\x7d"]

def pastedText : QByteArray :=
  asciiBytes ["\x7b", "    \"editorId\": 1,", "    \"operation_type\": 4,",
    "    \"tot_symbols\": 1,", "    \"type\": \"operation\"", "\x7d"]

/-- Both objects are written, and read back. -/
def exampleToJson (message : QJsonObject) : QByteArray :=
  if (message.value "success").toBool then openedText else pastedText

def exampleCodec : Codec where
  qCompress := id
  qUncompress := id
  fromJson data :=
    if data = openedText then .object openedExample
    else if data = pastedText then .object pastedExample
    else .error

theorem envelopes_round_trip_examples :
    ReadsFile exampleCodec
      (createByteArrayFileContentImage exampleToJson openedExample [betweenExample] [[], [1, 2]])
      openedExample (QString.of "f,u") (QString.of "x") [betweenExample]
      [⟨QString.of "u", QString.of "n", .anonymous⟩,
        ⟨QString.of "v", QString.of "m", .data [1, 2]⟩] ∧
    ∀ c, onByteArrayReceived exampleCodec c
        (broadcastBytes exampleToJson pastedExample (writeSymbols [betweenExample])) =
      .ok (c, [.remotePaste [betweenExample]]) := by
  have hr : ∀ s ∈ [betweenExample], s.InRange := by
    intro s hs
    rw [List.mem_singleton.mp hs]
    exact ⟨by decide, by decide, by decide, by decide⟩
  have hopened : ReadsBack exampleCodec exampleToJson openedExample := by
    have htext : exampleToJson openedExample = openedText := if_pos (by decide)
    simp only [ReadsBack, htext, exampleCodec, if_true]
  have hpasted : ReadsBack exampleCodec exampleToJson pastedExample := by
    have htext : exampleToJson pastedExample = pastedText := if_neg (by decide)
    have hne : pastedText ≠ openedText := by decide +kernel
    simp only [ReadsBack, htext, exampleCodec, hne, if_true, if_false]
  obtain ⟨hfile, hbulk⟩ := @envelopes_round_trip exampleCodec exampleToJson
  refine ⟨hfile _ _ _ _ _ _ hopened ⟨⟨_, rfl, rfl⟩, rfl, by decide, rfl, rfl, rfl⟩ rfl hr
    (by decide) (by decide +kernel), ?_⟩
  obtain ⟨-, signal, hsignal, -, hreceived⟩ := hbulk pastedExample _ hpasted
    ⟨⟨_, rfl, rfl⟩, ⟨.paste, by decide, rfl⟩, rfl⟩ hr (by decide +kernel)
  cases hsignal
  exact hreceived

end Scriba.System
