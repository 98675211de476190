import Scriba.Client.PeerBar
import Scriba.System.Announcements
import Scriba.System.SharedFiles

/-! # Who has the file open

The list at the side of the editor and the list of the server. A client that has a file open takes
what it is sent, packet by packet; the server registers who opens the file and who leaves it. When
the client has taken all that it was sent since it opened the file, its list shows those who have
the file open at the server, and nobody else. -/

namespace Scriba.System

open Scriba.Utility Scriba.Client Scriba.Server Scriba.Lib

/-! ## Taking packets -/

section Taking

variable (z : Codec) (toJson : QJsonObject → QByteArray) (n : Naming)

/-- A client takes a packet. -/
def takePacket (random : Nat → Nat) (c : Members) (b : PeerBar) (packet : Packet) :
    Except ReceiveFault (Members × PeerBar) := do
  let (c, signals) ← received z toJson c packet
  let b := signals.json.foldl (PeerBar.onJsonSignal n c.state) b
  pure (c, signals.byteArray.foldl (PeerBar.onClientSignal n random c.state) b)

/-- A client takes packets, one after the other. -/
def takePackets (random : Nat → Nat → Nat) (c : Members) (b : PeerBar) :
    List Packet → Except ReceiveFault (Members × PeerBar)
  | [] => pure (c, b)
  | packet :: packets => do
    let (c, b) ← takePacket z toJson n (random 0) c b packet
    takePackets (fun k => random (k + 1)) c b packets

/-- The client can take the packets, and has then what is said. -/
def Ends (P : Members → PeerBar → Prop) (c : Members) (b : PeerBar) (packets : List Packet) :
    Prop :=
  ∀ random, ∃ c' b', takePackets z toJson n random c b packets = .ok (c', b') ∧ P c' b'

end Taking

/-- The username and the nickname in the object of a user. -/
def userName (v : QJsonValue) : QString × QString :=
  ((v.toObject.value "username").toString, (v.toObject.value "nickname").toString)

/-- The packet can be read. An operation on many symbols has some bytes for them; a file that is
sent has symbols, and the users that come with it are read by their names. -/
structure Deliverable (z : Codec) (toJson : QJsonObject → QByteArray) (packet : Packet) : Prop where
  readable : Readable z toJson packet
  content : ∀ doc content, packet = .byteArray doc content → isOperation doc = true → content ≠ []
  symbols : ∀ message symbols images, packet = .fileContentImage message symbols images →
    symbols ≠ []
  users : ∀ message symbols images, packet = .fileContentImage message symbols images →
    ∀ o, z.fromJson (toJson message) = .object o →
      (o.value "users").toArray.map userName = (message.value "users").toArray.map userName

/-- What the client shows of those who have the file open. -/
structure Displays (n : Naming) (f : QString) (own : ClientState)
    (names : List (QString × QString)) (c : Members) (b : PeerBar) : Prop where
  openfile : c.state.openfile = f
  seats : b.Seats n own.username names
  mine : b.mine own.username = [PeerBar.you own]

section Reading

variable {z : Codec} {toJson : QJsonObject → QByteArray} {n : Naming} {c : Members} {b : PeerBar}
  {packet : Packet} {packets qs : List Packet} {P Q : Members → PeerBar → Prop}
  {message : QJsonObject}

theorem takePackets_append (random : Nat → Nat → Nat) :
    takePackets z toJson n random c b (packets ++ qs) =
      takePackets z toJson n random c b packets >>= fun r =>
        takePackets z toJson n (fun k => random (k + packets.length)) r.1 r.2 qs := by
  induction packets generalizing random c b with
  | nil => rfl
  | cons packet packets ih =>
    rw [List.cons_append, takePackets, takePackets, bind_assoc]
    cases takePacket z toJson n (random 0) c b packet with
    | error e => rfl
    | ok r =>
      refine (ih _).trans ?_
      simp only [List.length_cons, Nat.add_assoc]
      rfl

theorem Ends.append (h : Ends z toJson n P c b packets)
    (hq : ∀ c b, P c b → Ends z toJson n Q c b qs) : Ends z toJson n Q c b (packets ++ qs) := by
  intro random
  obtain ⟨c1, b1, h1, hP⟩ := h random
  obtain ⟨c2, b2, h2, hQ⟩ := hq c1 b1 hP fun k => random (k + packets.length)
  refine ⟨c2, b2, ?_, hQ⟩
  rw [takePackets_append, h1]
  exact h2

theorem Ends.single {signals : Signals} {c' : Members}
    (h : received z toJson c packet = .ok (c', signals))
    (hP : ∀ random, P c' (signals.byteArray.foldl (PeerBar.onClientSignal n random c'.state)
      (signals.json.foldl (PeerBar.onJsonSignal n c'.state) b))) :
    Ends z toJson n P c b [packet] := by
  intro random
  refine ⟨_, _, ?_, hP (random 0)⟩
  rw [takePackets, takePacket, h]
  rfl

theorem Ends.nil (h : P c b) : Ends z toJson n P c b [] := fun _ => ⟨c, b, rfl, h⟩

/-! ## Packets that say nothing of users -/

theorem onResult_quiet {doc : QJsonObject} {success : JsonSignal}
    {failure : QString → JsonSignal} (hs : success.Quiet) (hf : ∀ r, (failure r).Quiet) :
    ∀ g ∈ onResult doc success failure, g.Quiet := by
  unfold onResult
  split
  · simpa using hs
  · simpa using hf _
  · simp

/-- A message in JSON. -/
theorem onJsonReceived_quiet (hd : JsonMessage.of message ≠ some .disconnection)
    (hn : JsonMessage.of message = some .newFile → message.value "success" ≠ .bool true)
    (c : Members) : (onJsonReceived c message).1.state.openfile = c.state.openfile ∧
      ∀ g ∈ (onJsonReceived c message).2, g.Quiet := by
  unfold onJsonReceived
  cases hm : JsonMessage.of message with
  | none => exact ⟨rfl, by simp⟩
  | some kind =>
    cases kind with
    | signup =>
      refine ⟨rfl, ?_⟩
      dsimp only
      split_ifs
      · simp
      · exact onResult_quiet trivial fun _ => trivial
    | oldPasswordChecked | password => exact ⟨rfl, onResult_quiet trivial fun _ => trivial⟩
    | checkUsername =>
      refine ⟨rfl, ?_⟩
      dsimp only
      unfold usernameChecked
      split <;> simp [JsonSignal.Quiet]
    | operation =>
      refine ⟨rfl, ?_⟩
      dsimp only
      unfold remoteOperation
      dsimp only
      split <;> simp [JsonSignal.Quiet]
    | listFiles =>
      obtain ⟨files, signals, hl, hs⟩ : ∃ files signals, listFiles c message =
          ({ c with files }, signals) ∧ ∀ g ∈ signals, g.Quiet := by
        unfold listFiles
        split
        · split
          · split
            · exact ⟨_, _, rfl, by simp [JsonSignal.Quiet]⟩
            · exact ⟨_, _, rfl, by simp⟩
          · exact ⟨c.files, _, rfl, by simp⟩
        · exact ⟨c.files, _, rfl, by simp [JsonSignal.Quiet]⟩
        · exact ⟨c.files, _, rfl, by simp⟩
      dsimp only
      rw [hl]
      exact ⟨rfl, hs⟩
    | newFile =>
      dsimp only
      unfold newFileReply
      split
      case h_1 htrue => exact absurd htrue (hn hm)
      · exact ⟨rfl, by simp [JsonSignal.Quiet]⟩
      · exact ⟨rfl, by simp⟩
    | disconnection => exact absurd hm hd
    | filenameFromSharedLink =>
      refine ⟨rfl, ?_⟩
      dsimp only
      unfold filenameFromSharedLink
      split <;> simp [JsonSignal.Quiet]

theorem of_eq_of_type {type : String} (h : message.value "type" = text type) :
    JsonMessage.of message = JsonMessage.of (object [("type", text type)]) := by
  rw [JsonMessage.of, requestOf, requestOf, h]
  rfl

/-- The signals of a packet that says nothing of users. -/
structure Spares (c c' : Members) (signals : Signals) : Prop where
  openfile : c'.state.openfile = c.state.openfile
  json : ∀ g ∈ signals.json, g.Quiet
  byteArray : ∀ g ∈ signals.byteArray, g.Quiet

theorem spares_json (hd : JsonMessage.of message ≠ some .disconnection)
    (hn : JsonMessage.of message = some .newFile → message.value "success" ≠ .bool true)
    (c : Members) : ∃ c' signals,
      received z toJson c (.json message) = .ok (c', signals) ∧ Spares c c' signals :=
  ⟨_, _, rfl, (onJsonReceived_quiet hd hn c).1, (onJsonReceived_quiet hd hn c).2, by simp⟩

/-- What is read of a message that comes before some bytes. -/
theorem read_byteArray {content : QByteArray} (hr : Readable z toJson (.byteArray message content))
    {name : String} (ht : HasType message name) : ∃ o,
      z.fromJson (toJson message) = .object o ∧ HasType o name ∧
      (∀ key, Alike (o.value key) (message.value key)) ∧
      block (broadcastBytes toJson message content) = toJson message ∧
      (content ≠ [] → afterBlock (broadcastBytes toJson message content) = sized content ∧
        content.length < 2 ^ 31) := by
  obtain ⟨⟨o, ho, hvalue⟩, hlen⟩ := hr _ rfl
  simp only [Packet.message] at ho hvalue
  obtain ⟨type, htype, hname⟩ := ht
  rw [broadcastBytes, List.length_append, length_sized] at hlen
  refine ⟨o, ho, ⟨type, ((hvalue "type").eq (by rw [htype]; simp)).trans htype, hname⟩, hvalue, ?_,
    fun hne => ?_⟩
  · rw [broadcastBytes]
    exact block_sized (by omega)
  · have hpos : content.length ≠ 0 := fun h0 => hne (List.length_eq_zero_iff.mp h0)
    rw [if_pos hpos, length_sized] at hlen
    rw [broadcastBytes, if_pos hpos]
    exact ⟨afterBlock_sized (by omega), by omega⟩

/-- **A packet that says nothing of users** is taken. -/
theorem Mild.received (h : Mild packet) (hd : Deliverable z toJson packet) (c : Members) :
    ∃ c' signals, received z toJson c packet = .ok (c', signals) ∧ Spares c c' signals := by
  cases h with
  | @reply message type ok hm ht =>
    have hall : ∀ t ∈ ["password", "old_password_checked", "list_files",
        "filename_from_sharedLink", "close", "signup"],
        JsonMessage.of (object [("type", text t)]) ≠ some .disconnection ∧
          JsonMessage.of (object [("type", text t)]) ≠ some .newFile := by
      decide +kernel
    obtain ⟨hne, hnew⟩ := hall type ht
    rw [← of_eq_of_type hm.type] at hne hnew
    exact spares_json hne (fun he => absurd he hnew) c
  | @refused message hm =>
    have hnew : JsonMessage.of message = some .newFile :=
      (of_eq_of_type hm.type).trans (by decide +kernel)
    refine spares_json (by rw [hnew]; simp) (fun _ htrue => ?_) c
    cases htrue.symm.trans hm.success
  | refusal reason =>
    have hnone : JsonMessage.of (refuseUntyped reason) = none := rfl
    exact spares_json (by rw [hnone]; simp) (by rw [hnone]; simp) c
  | @operation doc ht =>
    have hop : JsonMessage.of doc = some .operation := requestOf_of_hasType ht rfl
    exact spares_json (by rw [hop]; simp) (by rw [hop]; simp) c
  | @operations doc content ht =>
    obtain ⟨o, ho, hto, -, hblock, hrest⟩ := read_byteArray hd.readable ht
    have hof : ByteArrayMessage.of o = some .operation := requestOf_of_hasType hto rfl
    have hisop : isOperation doc = true := by
      obtain ⟨type, htype, hname⟩ := ht
      rw [isOperation, htype]
      exact hname
    have hne := hd.content doc content rfl hisop
    obtain ⟨hafter, hlen⟩ := hrest hne
    have hsize : leadingSize (sized content) ≠ 0 := by
      have hleading : leadingSize (sized content ++ []) = UInt32.ofNat content.length :=
        leadingSize_sized []
      rw [List.append_nil] at hleading
      rw [hleading]
      exact mt (ofNat_length_eq_zero (by omega)).mp hne
    obtain ⟨signals, hsignals, hq⟩ : ∃ signals, Client.operation c.state o (sized content) =
        .ok (c.state, signals) ∧ ∀ g ∈ signals, g.Quiet := by
      unfold Client.operation
      split
      · exact ⟨_, rfl, by simp⟩
      · split
        · exact ⟨_, rfl, by simp⟩
        case h_2 signal hsignal =>
          split
          · exact ⟨_, rfl, by simp⟩
          · refine ⟨_, rfl, ?_⟩
            unfold remoteSignal at hsignal
            split at hsignal <;> cases hsignal <;> simp [ClientSignal.Quiet]
    refine ⟨c, ⟨[], signals⟩, ?_, rfl, by simp, hq⟩
    simp only [System.received, Packet.bytes, onByteArrayReceived, hblock, ho, hof, hafter,
      hsignals]
    rfl

/-! ## Packets about users -/

section Displays

variable {f : QString} {own : ClientState} {names before after : List (QString × QString)}
  {worker : ServerWorker} {image : QByteArray}

/-- **Somebody has opened the file.** -/
theorem Displays.joined (h : Displays n f own names c b)
    (ht : PeerBar.Told n own.username (names ++ [nameOf worker]))
    (hr : Readable z toJson (.byteArray (connectionNotice f worker) image)) :
    Ends z toJson n (Displays n f own (names ++ [nameOf worker])) c b
      [.byteArray (connectionNotice f worker) image] := by
  have htype : HasType (connectionNotice f worker) "connection" := ⟨_, rfl, by decide⟩
  obtain ⟨o, ho, hto, hvalue, hblock, -⟩ := read_byteArray hr htype
  have hof : ByteArrayMessage.of o = some .connection := requestOf_of_hasType hto rfl
  have hfile : o.value "filename" = .string f :=
    (hvalue "filename").eq fun bs he => by cases he
  have huser : o.value "username" = .string worker.username :=
    (hvalue "username").eq fun bs he => by cases he
  have hnick : o.value "nickname" = .string worker.nickname :=
    (hvalue "nickname").eq fun bs he => by cases he
  obtain ⟨picture, hconnection⟩ : ∃ picture, connection c.state o
      (afterBlock (broadcastBytes toJson (connectionNotice f worker) image)) = (c.state,
        [.usersConnectedReceived [⟨worker.username, worker.nickname, picture⟩]]) := by
    have hobject : (QJsonValue.object o).toObject = o := rfl
    simp only [connection, hfile, huser, h.openfile, if_true, connectedUser, hobject, hnick]
    exact ⟨_, rfl⟩
  have hread : received z toJson c (.byteArray (connectionNotice f worker) image) =
      .ok (c, ⟨[], [.usersConnectedReceived [⟨worker.username, worker.nickname, picture⟩]]⟩) := by
    simp only [received, Packet.bytes, onByteArrayReceived, hblock, ho, hof, hconnection]
    rfl
  let user : ConnectedUser := ⟨worker.username, worker.nickname, picture⟩
  have ht' : PeerBar.Told n own.username
      (names ++ [user].map fun u => (u.username, u.nickname)) := ht
  refine .single hread fun random => ?_
  obtain ⟨hseats, hmine⟩ := h.seats.addUsers ht' random
  exact ⟨h.openfile, hseats, hmine.trans h.mine⟩

/-- **Somebody has left it.** -/
theorem Displays.left {xs ys : List (QString × QString)}
    (h : Displays n f own (xs ++ nameOf worker :: ys) c b)
    (ht : PeerBar.Told n own.username (xs ++ nameOf worker :: ys)) :
    Ends z toJson n (Displays n f own (xs ++ ys)) c b [.json (disconnectionNotice f worker)] := by
  have hof : JsonMessage.of (disconnectionNotice f worker) = some .disconnection := rfl
  have hfile : (disconnectionNotice f worker).value "filename" = .string f := rfl
  have huser : (disconnectionNotice f worker).value "user" = .string worker.username := rfl
  have hnick : (disconnectionNotice f worker).value "nickname" = .string worker.nickname := rfl
  have hread : received z toJson c (.json (disconnectionNotice f worker)) =
      .ok (c, ⟨[.userDisconnected worker.username worker.nickname], []⟩) := by
    simp only [received, Packet.bytes, Packet.message, onJsonReceived, hof, disconnection, hfile,
      huser, hnick, h.openfile, if_true]
    rfl
  refine .single hread fun random => ?_
  obtain ⟨hseats, hmine⟩ := h.seats.removeUser ht
  exact ⟨h.openfile, hseats, hmine.trans h.mine⟩

theorem Displays.mild (h : Displays n f own names c b) {packets : List Packet}
    (hm : ∀ p ∈ packets, Mild p) (hd : ∀ p ∈ packets, Deliverable z toJson p) :
    Ends z toJson n (Displays n f own names) c b packets := by
  induction packets generalizing c b with
  | nil => exact .nil h
  | cons packet packets ih =>
    rw [List.forall_mem_cons] at hm hd
    obtain ⟨c', signals, hread, hs⟩ := hm.1.received hd.1 c
    have hfirst : Ends z toJson n (Displays n f own names) c b [packet] := by
      refine .single hread fun random => ?_
      obtain ⟨hseats, hmine⟩ := h.seats.json (c := c'.state) hs.json
      rw [PeerBar.foldl_quiet random hs.byteArray]
      exact ⟨hs.openfile.trans h.openfile, hseats, hmine.trans h.mine⟩
    exact hfirst.append fun c b h => ih h hm.2 hd.2

/-- **What a worker hears** keeps its list up to date. -/
theorem Displays.hears (h : Displays n f own before c b) (hh : Hears f before after packets)
    (hbefore : PeerBar.Told n own.username before) (hafter : PeerBar.Told n own.username after)
    (hd : ∀ p ∈ packets, Deliverable z toJson p) :
    Ends z toJson n (Displays n f own after) c b packets := by
  cases hh with
  | joined image he =>
    subst he
    exact h.joined hafter (hd _ (by simp)).readable
  | left he he' =>
    subst he he'
    exact h.left hbefore
  | other he hm =>
    subst he
    exact h.mild hm hd

theorem map_retrieveConnected (users : List QJsonValue) (images : QByteArray) :
    (retrieveConnected users images).map (fun u => (u.username, u.nickname)) =
      users.map userName := by
  induction users generalizing images with
  | nil => rfl
  | cons v users ih => rw [retrieveConnected, List.map_cons, List.map_cons, ih]; rfl

theorem loadSignals_quiet (symbols : List Symbol) : ∀ g ∈ loadSignals symbols, g.Quiet := by
  intro g hg
  obtain ⟨r, -, hr⟩ := List.mem_flatMap.mp hg
  split at hr
  · rcases List.mem_cons.mp hr with rfl | hr
    · trivial
    · rw [List.mem_singleton.mp hr]
      trivial
  · rw [List.mem_singleton.mp hr]
    trivial

/-- What is read of the file, whatever its symbols are. -/
theorem received_file {users : List ServerWorker} {sharedLink : QString} {symbols : List Symbol}
    {images : List QByteArray} (hd : Deliverable z toJson
      (.fileContentImage (fileReply f sharedLink symbols.length users) symbols images)) :
    ∃ signals connected, received z toJson c
        (.fileContentImage (fileReply f sharedLink symbols.length users) symbols images) =
        .ok ({ c with state := { c.state with openfile := f, sharedLink } },
          ⟨[], signals ++ [.usersConnectedReceived connected, .correctOpenedFile]⟩) ∧
      (∀ g ∈ signals, g.Quiet) ∧
      connected.map (fun u => (u.username, u.nickname)) = users.map nameOf := by
  obtain ⟨⟨o, ho, hvalue⟩, hlen⟩ := hd.readable _ rfl
  have hnames := hd.users _ _ _ rfl o ho
  have hne := hd.symbols _ _ _ rfl
  rw [createByteArrayFileContentImage, List.append_assoc, List.length_append, List.length_append,
    length_sized, length_sized] at hlen
  have hcount : symbols.length < 2 ^ 31 := by
    have hle := length_le_writeSymbols symbols
    omega
  simp only [Packet.message] at ho hvalue
  have htype : HasType o "file_to_open" :=
    ⟨_, (hvalue "type").eq (fun bs he => by cases he), by decide⟩
  have hof : ByteArrayMessage.of o = some .fileToOpen := requestOf_of_hasType htype rfl
  have hsuccess : o.value "success" = .bool true :=
    (hvalue "success").eq fun bs he => by cases he
  have htot : o.value "tot_symbols" = .double symbols.length :=
    (hvalue "tot_symbols").eq fun bs he => by cases he
  have hfile : o.value "filename" = .string f :=
    (hvalue "filename").eq fun bs he => by cases he
  have hlink : o.value "shared_link" = .string sharedLink :=
    (hvalue "shared_link").eq fun bs he => by cases he
  obtain ⟨us, hus⟩ : ∃ us, o.value "users" = .array us := (hvalue "users").array
  have htoInt : (QJsonValue.double symbols.length).toInt = symbols.length :=
    QJsonValue.toInt_double (by omega)
  have hnonzero : ¬ ((QJsonValue.double symbols.length).isNull = true ∨
      (QJsonValue.double symbols.length).toInt = 0) := by
    have hpos := List.length_pos_of_ne_nil hne
    rw [htoInt]
    simp only [QJsonValue.isNull, Bool.false_eq_true, false_or]
    omega
  let content := readSymbols (block (sized (writeSymbols symbols) ++ imageBlocks images))
  refine ⟨loadSignals content, retrieveConnected us (imageBlocks images), ?_,
    loadSignals_quiet content, ?_⟩
  · have hread : onByteArrayReceived z c.state (createByteArrayFileContentImage toJson
        (fileReply f sharedLink symbols.length users) symbols images) =
        .ok ({ c.state with openfile := f, sharedLink }, loadSignals content ++
          [.usersConnectedReceived (retrieveConnected us (imageBlocks images)),
            .correctOpenedFile]) := by
      rw [createByteArrayFileContentImage, List.append_assoc, onByteArrayReceived,
        block_sized (by omega), ho, afterBlock_sized (by omega)]
      dsimp only
      rw [hof]
      dsimp only
      rw [fileToOpen, hsuccess]
      dsimp only
      rw [htot, if_neg hnonzero, if_neg (leadingSize_symbols (by omega)),
        afterBlock_sized (by omega), openedFile, hfile]
      dsimp only
      rw [hlink]
      dsimp only
      rw [hus]
      rfl
    simp only [received, Packet.bytes, hread]
    rfl
  · rw [hus] at hnames
    refine (map_retrieveConnected us _).trans (hnames.trans ?_)
    show (users.map fun worker => QJsonValue.object (object (userObject worker))).map userName = _
    rw [List.map_map]
    rfl

/-- **The reply with the file.** -/
theorem displays_file {users : List ServerWorker} {sharedLink : QString} {symbols : List Symbol}
    {images : List QByteArray} (hb : b.Ready n c.state)
    (ht : PeerBar.Told n c.state.username (users.map nameOf))
    (hd : Deliverable z toJson
      (.fileContentImage (fileReply f sharedLink symbols.length users) symbols images)) :
    Ends z toJson n (Displays n f c.state (users.map nameOf)) c b
      [.fileContentImage (fileReply f sharedLink symbols.length users) symbols images] := by
  obtain ⟨signals, connected, hread, hq, hnames⟩ := received_file (c := c) hd
  refine .single hread fun random => ?_
  rw [← hnames] at ht ⊢
  rw [List.foldl_append, List.foldl_nil, PeerBar.foldl_quiet random hq]
  obtain ⟨hseats, hmine⟩ := hb.1.addUsers ht random
  obtain ⟨hseats', hmine'⟩ := hseats.peerYou
  refine ⟨rfl, hseats', hmine'.trans ?_⟩
  rw [hmine, hb.2]
  rfl

/-- **The reply to a new file.** -/
theorem displays_created (hb : b.Ready n c.state) (hf : c.state.openfile = f)
    (hm : IsReply "new_file" true message) :
    Ends z toJson n (Displays n f c.state []) c b [.json message] := by
  have hof : JsonMessage.of message = some .newFile :=
    (of_eq_of_type hm.type).trans (by decide +kernel)
  have hread : received z toJson c (.json message) =
      .ok ({ c with state := { c.state with
          sharedLink := (message.value "shared_link").toString } },
        ⟨[.addCRDTterminator, .correctNewFile], []⟩) := by
    simp only [received, Packet.bytes, Packet.message, onJsonReceived, hof, newFileReply,
      hm.success]
    rfl
  refine .single hread fun random => ?_
  obtain ⟨hseats, hmine⟩ := hb.1.peerYou
  refine ⟨hf, hseats, hmine.trans ?_⟩
  rw [hb.2]
  rfl

end Displays

end Reading

/-! ## Runs -/

/-- Users who have the same file open have different numbers. -/
def TellsApart (n : Naming) (s : Server) : Prop :=
  ∀ (v u : WorkerId) (x y : ServerWorker), s.clients[v]? = some x → s.clients[u]? = some y →
    x.filename ≠ [] → x.filename = y.filename → n.hash x.username = n.hash y.username →
    x.username = y.username

/-- What has happened since a worker got the file that it has. -/
structure Since (h : History) (w : WorkerId) (f : QString) (opening : Entry) (since : History) :
    Prop where
  history : ∃ earlier, h = earlier ++ opening :: since
  before : ¬ FileOf opening.before w f
  after : FileOf opening.after w f
  stays : ∀ e ∈ since, FileOf e.before w f

theorem Since.append {h since : History} {w : WorkerId} {f : QString} {opening e : Entry}
    (hs : Since h w f opening since) (he : FileOf e.before w f) :
    Since (h ++ [e]) w f opening (since ++ [e]) := by
  obtain ⟨⟨earlier, rfl⟩, hbefore, hafter, hstays⟩ := hs
  refine ⟨⟨earlier, by simp⟩, hbefore, hafter, fun e' he' => ?_⟩
  rcases List.mem_append.mp he' with he' | he'
  · exact hstays e' he'
  · exact List.mem_singleton.mp he' ▸ he

/-- The worker has created the file. -/
def Creates (e : Entry) (w : WorkerId) : Prop :=
  ∃ sender doc, Asks e.before e.input.event w sender .newFile doc

section Runs

variable {z : Codec} {toJson : QJsonObject → QByteArray} {n : Naming} {db : Database}
  {h : History} {s s' : Server} {w : WorkerId} {f : QString} {i : Input} {outs : List Output}

/-- What is known of the server. -/
structure Ordered (n : Naming) (h : History) (s : Server) : Prop where
  files : Files s
  sessions : Sessions h s
  named : s.db.Named
  seated : Seated s
  apart : TellsApart n s

theorem Ordered.step (ho : Ordered n h s) (hstep : Server.Step z s i outs s')
    (hwf : WellFormed s i) (ha : TellsApart n s') : Ordered n (h ++ [⟨s, i, outs, s'⟩]) s' where
  files := ho.files.step hstep.1 hwf hstep.effect
  sessions := ho.sessions.step ho.named hstep.1 hstep.effect
  named := hstep.effect.named ho.named
  seated := Effect.seated hstep.effect ho.seated
  apart := ha

theorem ordered_start (n : Naming) (hdb : db.Named) : Ordered n [] (Server.start db) where
  files := files_start db
  sessions := ⟨by simp [Server.start], by simp [Server.start]⟩
  named := hdb
  seated := by simp [Seated, Server.start]
  apart := by simp [TellsApart, Server.start]

/-- Workers with the same file have different numbers. -/
theorem Ordered.hash_ne (ho : Ordered n h s) (hf : f ≠ []) {v u : WorkerId} {x y : ServerWorker}
    (hx : s.clients[v]? = some x) (hy : s.clients[u]? = some y) (hxf : x.filename = f)
    (hyf : y.filename = f) (hne : v ≠ u) : n.hash x.username ≠ n.hash y.username := by
  intro he
  have hfile : x.filename ≠ [] := hxf ▸ hf
  have hname : x.username ≠ [] := by
    rcases ho.sessions.session v x hx with ⟨-, hn⟩ | ⟨hu, -⟩
    · exact absurd hn (ho.seated v x hx hfile)
    · exact hu
  exact hne (ho.sessions.unique v u x y hx hy hname
    (ho.apart v u x y hx hy hfile (hxf.trans hyf.symm) he))

/-- Who has the file open is told apart by the numbers. -/
theorem Ordered.told (ho : Ordered n h s) (hf : f ≠ []) {own : ServerWorker}
    (hw : s.clients[w]? = some own) (hown : own.filename = f) :
    PeerBar.Told n own.username (peers s w f) := by
  have hlist : ∀ v ∈ ((s.mapFileWorkers[f]?).getD []).filter (· ≠ w), ∀ p,
      (s.clients[v]?).map nameOf = some p →
      v ≠ w ∧ ∃ x, s.clients[v]? = some x ∧ x.filename = f ∧ p.1 = x.username := by
    intro v hv p hp
    obtain ⟨hin, hne⟩ := List.mem_filter.mp hv
    obtain ⟨x, hx, rfl⟩ := Option.map_eq_some_iff.mp hp
    obtain ⟨x', hx', hfile⟩ := fileOf_of_listed ho.files.registry hin
    obtain rfl := Option.some.inj (hx.symm.trans hx')
    exact ⟨of_decide_eq_true hne, x, hx, hfile, rfl⟩
  have hnodup : ((s.mapFileWorkers[f]?).getD []).Nodup := by
    cases hl : s.mapFileWorkers[f]? with
    | none => simp
    | some list => exact ho.files.registry.nodup hl
  refine List.nodup_cons.mpr ⟨fun hin => ?_, ?_⟩
  · obtain ⟨p, hp, he⟩ := List.mem_map.mp hin
    obtain ⟨v, hv, hp⟩ := List.mem_filterMap.mp hp
    obtain ⟨hne, x, hx, hfile, hname⟩ := hlist v hv p hp
    exact ho.hash_ne hf hx hw hfile hown hne (hname ▸ he)
  · rw [List.nodup_iff_pairwise_ne, List.pairwise_map, peers, List.pairwise_filterMap]
    refine (hnodup.filter _).imp_of_mem fun {v u} hv hu hne p hp q hq => ?_
    obtain ⟨-, x, hx, hxf, hxname⟩ := hlist v hv p hp
    obtain ⟨-, y, hy, hyf, hyname⟩ := hlist u hu q hq
    rw [hxname, hyname]
    exact ho.hash_ne hf hx hy hxf hyf hne

/-- The username of a worker stays while it has a file open. -/
theorem Ordered.username (ho : Ordered n h s) (hstep : Server.Step z s i outs s') (hf : f ≠ [])
    (hw : FileOf s w f) {own : ServerWorker} (hown : s'.clients[w]? = some own) :
    ∃ old, s.clients[w]? = some old ∧ old.filename = f ∧ old.username = own.username := by
  obtain ⟨worker, hworker, rfl⟩ := hw
  refine ⟨worker, hworker, rfl, ?_⟩
  rcases hstep.effect.sessionStep hstep.1 hown with ⟨he, -⟩ | ⟨hold, hu, -⟩ | ⟨hold, hn, -⟩
  · exact absurd he (hstep.1.old hworker)
  · obtain rfl := Option.some.inj (hworker.symm.trans hold)
    exact hu.symm
  · obtain rfl := Option.some.inj (hworker.symm.trans hold)
    exact absurd hn (ho.seated w worker hworker hf)

/-- A client that is ready and takes what it was sent shows who has the file open. -/
def Watched (z : Codec) (toJson : QJsonObject → QByteArray) (n : Naming) (s : Server)
    (w : WorkerId) (f : QString) (opening : Entry) (since : History) : Prop :=
  ∀ (own : ServerWorker) (c : Members) (b : PeerBar), s.clients[w]? = some own →
    c.state.username = own.username → b.Ready n c.state →
    (Creates opening w → c.state.openfile = f) →
    Ends z toJson n (Displays n f c.state (peers s w f)) c b
      ((opening :: since).flatMap fun e => addressed e.output w)

theorem watched_opening (ho : Ordered n h s) (ho' : Ordered n (h ++ [⟨s, i, outs, s'⟩]) s')
    (hstep : Server.Step z s i outs s') (hwf : WellFormed s i) (hf : f ≠ [])
    (hout : ¬ FileOf s w f) (hin : FileOf s' w f)
    (hd : ∀ p ∈ addressed outs w, Deliverable z toJson p) :
    Watched z toJson n s' w f ⟨s, i, outs, s'⟩ [] := by
  intro own c b hown hname hb hcreates
  obtain ⟨worker, hworker, hfile⟩ := hin
  obtain rfl := Option.some.inj (hown.symm.trans hworker)
  have ht := ho'.told hf hown hfile
  rw [← hname] at ht
  have hw := welcomed hstep ho.files ho'.sessions hwf hf hout ⟨own, hown, hfile⟩
  rw [List.flatMap_cons, List.flatMap_nil, List.append_nil]
  generalize addressed outs w = packets at hw hd
  cases hw with
  | @created sender doc message ha hm he =>
    rw [he]
    exact displays_created hb (hcreates ⟨sender, doc, ha⟩) hm
  | opened ha he =>
    rw [← he] at ht ⊢
    exact displays_file hb ht (hd _ (by simp))

theorem Watched.step {opening : Entry} {since : History}
    (h0 : Watched z toJson n s w f opening since) (ho : Ordered n h s)
    (ho' : Ordered n (h ++ [⟨s, i, outs, s'⟩]) s') (hstep : Server.Step z s i outs s')
    (hwf : WellFormed s i) (hat : Attends s i) (hf : f ≠ []) (hbefore : FileOf s w f)
    (hafter : FileOf s' w f) (hd : ∀ p ∈ addressed outs w, Deliverable z toJson p) :
    Watched z toJson n s' w f opening (since ++ [⟨s, i, outs, s'⟩]) := by
  intro own c b hown hname hb hcreates
  obtain ⟨old, hold, holdfile, hsame⟩ := ho.username hstep hf hbefore hown
  obtain ⟨worker, hworker, hfile⟩ := hafter
  obtain rfl := Option.some.inj (hown.symm.trans hworker)
  have hlist : (opening :: (since ++ [(⟨s, i, outs, s'⟩ : Entry)])).flatMap
      (fun e => addressed e.output w) =
      ((opening :: since).flatMap fun e => addressed e.output w) ++ addressed outs w := by
    simp
  rw [hlist]
  refine (h0 old c b hold (hname.trans hsame.symm) hb hcreates).append fun c' b' hshow => ?_
  have hh := hears_step hstep ho.files ho.seated hwf hat ⟨hf, hbefore, own, hown, hfile⟩
  have ht := ho.told hf hold holdfile
  have ht' := ho'.told hf hown hfile
  rw [hsame, ← hname] at ht
  rw [← hname] at ht'
  exact hshow.hears hh ht ht' hd

/-- A step of a run in which the list is shown. -/
structure GoesWell (z : Codec) (toJson : QJsonObject → QByteArray) (n : Naming) (w : WorkerId)
    (f : QString) (e : Entry) : Prop where
  wellFormed : WellFormed e.before e.input
  attends : Attends e.before e.input
  apart : TellsApart n e.after
  deliverable : FileOf e.after w f → ∀ p ∈ addressed e.output w, Deliverable z toJson p

/-- What is known of the server, and of the client when it has the file open. -/
structure Displaying (z : Codec) (toJson : QJsonObject → QByteArray) (n : Naming) (w : WorkerId)
    (f : QString) (h : History) (s : Server) : Prop where
  ordered : Ordered n h s
  watched : FileOf s w f → ∃ opening since, Since h w f opening since ∧
    Watched z toJson n s w f opening since

theorem displaying_start (hdb : db.Named) : Displaying z toJson n w f [] (Server.start db) where
  ordered := ordered_start n hdb
  watched := by
    rintro ⟨worker, hworker, -⟩
    simp [Server.start] at hworker

theorem Displaying.step (hk : Displaying z toJson n w f h s) (hf : f ≠ [])
    (hr : GoesWell z toJson n w f ⟨s, i, outs, s'⟩) (hstep : Server.Step z s i outs s') :
    Displaying z toJson n w f (h ++ [⟨s, i, outs, s'⟩]) s' := by
  have ho' := hk.ordered.step hstep hr.wellFormed hr.apart
  refine ⟨ho', fun hafter => ?_⟩
  have hd := hr.deliverable hafter
  by_cases hbefore : FileOf s w f
  · obtain ⟨opening, since, hsince, hwatched⟩ := hk.watched hbefore
    exact ⟨opening, since ++ [⟨s, i, outs, s'⟩], hsince.append hbefore,
      hwatched.step hk.ordered ho' hstep hr.wellFormed hr.attends hf hbefore hafter hd⟩
  · exact ⟨⟨s, i, outs, s'⟩, [], ⟨⟨h, rfl⟩, hbefore, hafter, by simp⟩,
      watched_opening hk.ordered ho' hstep hr.wellFormed hf hbefore hafter hd⟩

/-- **The list shows who has the file open.** In every run of well-formed sessions in which a worker
with a file open asks for no other file and takes no other nickname, a client whose list was as
`exit` leaves it when it got its file, and that has taken what it was sent from then on, lists those
who have it open at the server, in the order in which they opened it, and itself; with the colours
in which what they have written and their cursors are shown. -/
theorem peers_shown (hdb : db.Named) (hrun : ServerRun z db h s)
    (hwf : ∀ e ∈ h, WellFormed e.before e.input) (hat : ∀ e ∈ h, Attends e.before e.input)
    (hapart : ∀ e ∈ h, TellsApart n e.after) (hf : f ≠ [])
    (hd : ∀ e ∈ h, FileOf e.after w f → ∀ p ∈ addressed e.output w, Deliverable z toJson p)
    (hw : FileOf s w f) : ∃ opening since, Since h w f opening since ∧
      Watched z toJson n s w f opening since := by
  have hwell : ∀ e ∈ h, GoesWell z toJson n w f e := fun e he =>
    ⟨hwf e he, hat e he, hapart e he, hd e he⟩
  have hdisplaying : Displaying z toJson n w f h s :=
    hrun.invariant hwell (displaying_start hdb) fun _ _ _ _ _ hk hr hstep => hk.step hf hr hstep
  exact hdisplaying.watched hw

end Runs

/-! ## Two users -/

section Checks

variable {z : Codec} {toJson : QJsonObject → QByteArray} {n : Naming} {s : Server}
  {packet : Packet}

/-- Whether users have different numbers can be told. -/
def tellsApartCheck (n : Naming) (s : Server) : Bool :=
  s.clients.toList.all fun p => s.clients.toList.all fun q =>
    p.2.filename = [] || p.2.filename ≠ q.2.filename ||
      n.hash p.2.username ≠ n.hash q.2.username || p.2.username = q.2.username

theorem tellsApart_of_check (h : tellsApartCheck n s = true) : TellsApart n s := by
  intro v u x y hx hy hne hfile hhash
  have hrow := List.all_eq_true.mp h (v, x) (Table.mem_toList.mpr hx)
  simpa [hne, hfile ▸ hne, hfile, hhash] using
    List.all_eq_true.mp hrow (u, y) (Table.mem_toList.mpr hy)

/-- Whether a packet that is not a file can be taken can be told. -/
def deliverableCheck (z : Codec) (toJson : QJsonObject → QByteArray) (packet : Packet) : Bool :=
  readableCheck z toJson packet && match packet with
    | .json _ | .jsonImage .. => true
    | .byteArray doc content => ! isOperation doc || content ≠ []
    | .fileContentImage .. => false

theorem deliverable_of_check (h : deliverableCheck z toJson packet = true) :
    Deliverable z toJson packet := by
  obtain ⟨hread, hkind⟩ := Bool.and_eq_true_iff.mp h
  refine ⟨readable_of_check hread, ?_, ?_, ?_⟩
  · rintro doc content rfl hop
    simpa [hop] using hkind
  · rintro message symbols images rfl
    cases hkind
  · rintro message symbols images rfl
    cases hkind

end Checks

/-- A client that has left the editor and creates the file. -/
def sharedMembers : Members :=
  ⟨⟨true, QString.of "u", QString.of "u", .anonymous, QString.of "f,u", []⟩, []⟩

/-- The first bytes of the digests of two names. -/
def sharedNaming : Naming where
  hash name :=
    if name = QString.of "u" then 2071416575 else if name = QString.of "v" then -1640601135 else 0
  caseFolded := id

/-- A user creates a file, another one opens it, writes in it, closes it and opens it again. -/
theorem peers_shown_two : ∃ h s opening since, ServerRun sharedCodec (.ofNames ["u", "v"]) h s ∧
    h.length = 9 ∧ Since h 0 (QString.of "f,u") opening since ∧
    Ends sharedCodec sharedToJson sharedNaming (Displays sharedNaming (QString.of "f,u")
        sharedMembers.state [(QString.of "v", QString.of "v")]) sharedMembers
      (PeerBar.start.exit sharedNaming sharedMembers.state)
      ((opening :: since).flatMap fun e => addressed e.output 0) := by
  obtain ⟨h, s, hrun, hP⟩ := exists_run sharedCodec (.ofNames ["u", "v"])
    (inputs [.incomingConnection 0, .incomingConnection 1, .jsonReceived 0 (loginDoc "u"),
      .jsonReceived 1 (loginDoc "v"), .jsonReceived 0 (newFileDoc "f" "u"),
      .jsonReceived 1 (openDoc "f,u"), .jsonReceived 1 (insertDoc "a" 1 2),
      .jsonReceived 1 (closeDoc "f,u" "v"), .jsonReceived 1 (openDoc "f,u")])
    (P := fun h s => h.length = 9 ∧ (h.all fun e => wellFormedCheck e.before e.input &&
        attendsCheck e.before e.input && tellsApartCheck sharedNaming e.after &&
        ((e.after.clients[0]?).all (·.filename = []) ||
          (addressed e.output 0).all (deliverableCheck sharedCodec sharedToJson))) ∧
      peers s 0 (QString.of "f,u") = [(QString.of "v", QString.of "v")] ∧
      s.clients[0]? = some ⟨QString.of "u", QString.of "u", QString.of "f,u"⟩)
    (by decide +kernel)
  simp only [Bool.decide_and, Bool.and_eq_true, decide_eq_true_eq, List.all_eq_true] at hP
  obtain ⟨hlen, hcheck, hpeers, hw⟩ := hP
  have hne : QString.of "f,u" ≠ [] := by decide +kernel
  have hall : ∀ e ∈ h, FileOf e.after 0 (QString.of "f,u") → ∀ p ∈ addressed e.output 0,
      deliverableCheck sharedCodec sharedToJson p = true := by
    rintro e he ⟨worker, hworker, hfile⟩
    have hrow := (hcheck e he).2
    rw [hworker, Bool.or_eq_true, Option.all_some] at hrow
    refine List.all_eq_true.mp (hrow.resolve_left fun hnil => hne ?_)
    exact hfile.symm.trans (of_decide_eq_true hnil)
  obtain ⟨opening, since, hsince, hwatched⟩ : ∃ opening since,
      Since h 0 (QString.of "f,u") opening since ∧
      Watched sharedCodec sharedToJson sharedNaming s 0 (QString.of "f,u") opening since :=
    peers_shown (named_of_all (by decide +kernel)) hrun
      (fun e he => wellFormed_of_check (hcheck e he).1.1.1)
      (fun e he => attends_of_check (hcheck e he).1.1.2)
      (fun e he => tellsApart_of_check (hcheck e he).1.2) hne
      (fun e he hin p hp => deliverable_of_check (hall e he hin p hp)) ⟨_, hw, rfl⟩
  refine ⟨h, s, opening, since, hrun, hlen, hsince, ?_⟩
  rw [← hpeers]
  exact hwatched _ sharedMembers _ hw rfl (PeerBar.ready_exit _ _ _) fun _ => rfl

end Scriba.System
