import Scriba.System.Sharing

/-! # Whoever has a file open

In every run (`Works`) from where the clients are at their lists of files (`Starts`), each document
is worth the operations that the server took for it, on disk or in memory, and a client that has it
open and has nothing under way holds just what the server has (`files_shared`). Clients open, leave
and open again as they like, move their cursors, lose their connection, and the server saves when it
will. -/

namespace Scriba.System

open Scriba.Utility Scriba.Client Scriba.Server Scriba.Lib Scriba.Lib.Relay

/-- Each client that is there is at its list of files, nothing is under way, and the documents are
stored. -/
structure Starts (z : Codec) (documents : QString → Option Lines) (D : Deployment) : Prop where
  files : Files D.server
  site : ∀ w, (D.site w).page = .home ∧ (D.site w).Cleared ∧ LoggedIn D.server w [] ∨
    (D.site w).page = .gone ∧ w ∉ D.server.clients
  named : ∀ w, Named (D.site w)
  up : ∀ w, D.up w = []
  down : ∀ w, D.down w = []
  order : ∀ f, D.order f = []
  stored : ∀ f ls, documents f = some ls → ∃ content, D.server.db.bucket[f]? = some content ∧
    readSymbols (z.qUncompress content) = (SymbolMap.storeSymbolsServerMemory ls.flatten).values

/-- No operation of the client or for it is under way. -/
structure Settled (z : Codec) (toJson : QJsonObject → QByteArray) (D : Deployment)
    (i : WorkerId) : Prop where
  up : ∀ r ∈ D.up i, r.Idle
  down : ∀ packet ∈ D.down i, Brings z toJson packet none

/-- What is promised of a file that had the lines `ls`. -/
structure Shared (z : Codec) (toJson : QJsonObject → QByteArray) (f : QString) (ls : Lines)
    (D : Deployment) : Prop where
  durable : ∃ symbols : SymbolMap, symbols.Contains (Holds ls.flatten (D.order f)) ∧
    WriteBack.Durable Std.TreeMap.Equiv symbols (fileStore z D.server f)
  valid : ∀ i, (D.site i).page = .editor f → ValidDocument (D.site i).crdt.symbols
  server : ∀ i, (D.site i).page = .editor f → Settled z toJson D i →
    ∃ symbols : SymbolMap, D.server.symbolsList[f]? = some symbols ∧
      ∀ y, y ∈ (D.site i).crdt.symbols.flatten ↔ y ∈ symbols.values
  alike : ∀ i j, (D.site i).page = .editor f → (D.site j).page = .editor f →
    Settled z toJson D i → Settled z toJson D j →
    (D.site i).crdt.symbols = (D.site j).crdt.symbols

section Runs

variable {z : Codec} {toJson : QJsonObject → QByteArray} {documents : QString → Option Lines}
  {D D' : Deployment} {f : QString} {ls : Lines} {t : Symbol} {w : Clients WorkerId}

/-! ## The start -/

/-- What is stored is worth the document. -/
theorem Starts.decoded (h : Starts z documents D) (hd : Documented documents)
    (hf : documents f = some ls) :
    (decoded z D.server.db f).Equiv (SymbolMap.storeSymbolsServerMemory ls.flatten) := by
  obtain ⟨content, hc, hread⟩ := h.stored f ls hf
  have hdecoded : Scriba.Server.decoded z D.server.db f =
      SymbolMap.storeSymbolsServerMemory
        (SymbolMap.storeSymbolsServerMemory ls.flatten).values := by
    rw [Scriba.Server.decoded, hc, Option.map_some, Option.getD_some, hread]
  have hnd := (hd.valid f ls hf).ordered.nodup
  have hr : ∀ s ∈ ls.flatten, s.InRange := fun s hs => by
    have hin : s ∈ readSymbols (z.qUncompress content) := by
      rw [hread]
      exact (SymbolMap.contains_storeSymbols hnd).mem_values.mpr hs
    exact (readSymbols_storable hin).toInRange
  rw [hdecoded]
  exact (SymbolMap.kept_storeSymbols hr).store_values

theorem Starts.fileOf (h : Starts z documents D) (i : WorkerId) : fileOf D.server i = [] := by
  rcases h.site i with ⟨-, -, hlog⟩ | ⟨-, hnot⟩
  · exact hlog.fileOf_eq
  · rw [Scriba.System.fileOf, Table.not_mem_iff.mp hnot]
    rfl

theorem Starts.sound (h : Starts z documents D) (hd : Documented documents) :
    Sound z toJson documents D := by
  refine ⟨h.files, fun f ls hf => ?_, h.named, fun i r hr => ?_, fun i hpage => ?_, fun i => ?_⟩
  · obtain ⟨content, hc, hread⟩ := h.stored f ls hf
    exact ⟨content, hc, hread.trans (values_of_equiv (h.decoded hd hf)).symm⟩
  · rw [h.up i] at hr
    cases hr
  · rw [h.fileOf i]
    rcases h.site i with ⟨-, -, hlog⟩ | ⟨hgone, -⟩
    · exact hlog
    · exact absurd hgone hpage
  · rw [h.fileOf i, h.up i, h.down i]
    rcases h.site i with ⟨hpage, hclear, -⟩ | ⟨hgone, -⟩
    · exact .home hpage hclear .nil plain_nil
    · exact .gone hgone rfl

/-- No worker has a file open. -/
theorem Starts.closed (h : Starts z documents D) (f : QString) : f ∉ D.server.symbolsList := by
  refine fun hin => ?_
  obtain ⟨hne, i, hi⟩ := (h.files.isOpen_iff f).mpr hin
  obtain ⟨worker, hw, hf⟩ := hi
  have hnil := h.fileOf i
  rw [Scriba.System.fileOf, hw] at hnil
  exact hne (hf.symm.trans hnil)

theorem Starts.tracks (h : Starts z documents D) (hd : Documented documents)
    (hf : documents f = some ls) (ht : ls.flatten.getLast? = some t) :
    Tracks z toJson f ls t D
      (.init (fun _ => CRDT.opened 0 ls) (SymbolMap.storeSymbolsServerMemory ls.flatten)) := by
  refine ⟨⟨fun _ => rfl, fun _ => rfl⟩, meeting_init (hd.valid f ls hf) (fun _ => rfl) ht, ?_,
    fun i m hm => ?_, (h.order f).symm, fun i => ?_⟩
  · rw [fileStore_none (h.closed f)]
    exact h.decoded hd hf
  · cases hm
  · refine .of_page (fun _ => by rw [h.up i]; rfl) (fun hedits => ?_) (h.down i ▸ plain_nil)
    rcases h.site i with ⟨hpage, -⟩ | ⟨hpage, -⟩ <;> rw [hpage] at hedits <;> cases hedits

/-! ## Runs -/

/-- **One step**, seen from all files. -/
theorem works_step (hz : ∀ data, z.qUncompress (z.qCompress data) = data)
    (hd : Documented documents) (hs : Sound z toJson documents D)
    (h : Works z toJson documents D D') :
    Sound z toJson documents D' ∧ ∀ f ls t w, documents f = some ls →
      ls.flatten.getLast? = some t → Tracks z toJson f ls t D w →
      ∃ w', Tracks z toJson f ls t D' w' := by
  obtain ⟨a, hc, hstep⟩ := h
  cases a with
  | perform i op =>
    exact ⟨sound_perform hs hc hstep, fun f ls t w hf _ hw => tracks_perform hs hf hw hc hstep⟩
  | moveCursor i line index =>
    obtain ⟨hpage, r, rfl⟩ := moveCursor_cases hstep
    exact ⟨sound_idle hs ⟨_, r, rfl⟩ trivial hpage, fun f ls t w _ _ hw =>
      ⟨w, tracks_idle hw trivial⟩⟩
  | choose i g =>
    rw [Deployment.step] at hstep
    split_ifs at hstep with hpage
    cases hstep
    exact ⟨sound_choose hs hpage hc, fun f ls t w _ _ hw => ⟨w, tracks_choose hs hw hpage⟩⟩
  | exit i =>
    exact ⟨sound_exit hd hs hstep, fun f ls t w _ _ hw => ⟨w, tracks_exit hw hstep⟩⟩
  | ask i doc =>
    obtain ⟨hpage, rfl⟩ := ask_cases hstep
    exact ⟨sound_idle hs hc trivial hpage, fun f ls t w _ _ hw => ⟨w, tracks_idle hw trivial⟩⟩
  | deliver i =>
    exact ⟨sound_deliver hs hc hstep, fun f ls t w _ _ hw => tracks_deliver hs hw hc hstep⟩
  | process i d =>
    obtain ⟨r, rest, outs, hp⟩ := processed_of_process hz hd hs hc hstep
    exact ⟨hp.sound hs, fun f ls t w hf ht hw => hp.tracks hd hs hf ht hw⟩
  | disconnect i d =>
    obtain ⟨hs', hall⟩ := sound_disconnect hz hs hstep
    exact ⟨hs', fun f ls t w _ _ hw => ⟨w, hall f ls t w hw⟩⟩
  | timeout d =>
    obtain ⟨hs', hall⟩ := sound_timeout hz hs hstep
    exact ⟨hs', fun f ls t w _ _ hw => ⟨w, hall f ls t w hw⟩⟩

/-- A run, seen from a file, is one of the relay. -/
theorem works_run (hz : ∀ data, z.qUncompress (z.qCompress data) = data)
    (hd : Documented documents) (h0 : Starts z documents D)
    (h : Relation.ReflTransGen (Works z toJson documents) D D') (hf : documents f = some ls)
    (ht : ls.flatten.getLast? = some t) :
    Sound z toJson documents D' ∧ ∃ w, Tracks z toJson f ls t D' w := by
  induction h with
  | refl => exact ⟨h0.sound hd, _, h0.tracks hd hf ht⟩
  | tail _ hstep ih =>
    obtain ⟨hs, w, hw⟩ := ih
    obtain ⟨hs', hall⟩ := works_step hz hd hs hstep
    exact ⟨hs', hall f ls t w hf ht hw⟩

/-! ## What is promised -/

theorem Bring.eq_nil {ps : List Packet} {ms : List Message} (h : Bring z toJson ps ms)
    (c : Members) (hn : ∀ packet ∈ ps, Brings z toJson packet none) : ms = [] := by
  induction h with
  | nil => rfl
  | other _ _ ih => exact ih fun packet hp => hn packet (List.mem_cons_of_mem _ hp)
  | @operation packet m ps ms hb _ _ =>
    obtain ⟨files, signals, hrec, hops, -⟩ := hb c
    obtain ⟨files', signals', hrec', hops', -⟩ := hn packet List.mem_cons_self c
    obtain ⟨-, rfl⟩ := Prod.mk.inj (Except.ok.inj (hrec.symm.trans hrec'))
    cases hops.symm.trans hops'

/-- A client with nothing under way has nothing under way in the relay. -/
theorem Tracks.settled (hw : Tracks z toJson f ls t D w) {i : WorkerId}
    (hpage : (D.site i).page = .editor f) (hs : Settled z toJson D i) :
    w.client i = (D.site i).crdt ∧ w.up i = [] ∧ w.down i = [] := by
  have hi := hw.follows i
  obtain ⟨hclient, hbring⟩ := hi.editing hpage
  exact ⟨hclient, (hi.up (by rw [hpage]; nofun)).trans (bound_idle hs.up),
    hbring.eq_nil (D.site i).members hs.down⟩

theorem Tracks.shared (hw : Tracks z toJson f ls t D w) (hs : Sound z toJson documents D)
    (hd : Documented documents) (hf : documents f = some ls) : Shared z toJson f ls D := by
  have hagrees : ∀ i, (D.site i).page = .editor f → Settled z toJson D i →
      ∀ y, y ∈ (w.client i).symbols.flatten ↔ y ∈ w.server.values := fun i hpage hsettled y => by
    obtain ⟨-, hup, hdown⟩ := hw.settled hpage hsettled
    exact hw.meeting.agrees hw.fifo hup hdown
  refine ⟨⟨w.server, hw.order ▸ hw.meeting.server, hw.server⟩, fun i hpage => ?_,
    fun i hpage hsettled => ?_, fun i j hi hj hsi hsj => ?_⟩
  · rw [← ((hw.follows i).editing hpage).1]
    exact (hw.meeting.document i).valid
  · have hfile : fileOf D.server i = f := (hs.phase i).file_eq (.inl hpage)
    have hlog := hs.loggedIn i (by rw [hpage]; nofun)
    obtain ⟨symbols, hm⟩ := Table.exists_of_mem ((hs.files.isOpen_iff f).mp
      ⟨(hd.named f ls hf).1, i, (fileOf_iff hlog.mem).mpr hfile⟩)
    have hdurable := hw.server
    rw [fileStore_some hm] at hdurable
    refine ⟨symbols, hm, fun y => ?_⟩
    rw [values_of_equiv hdurable.1, ← (hw.settled hpage hsettled).1]
    exact hagrees i hpage hsettled y
  · rw [← (hw.settled hi hsi).1, ← (hw.settled hj hsj).1]
    exact hw.meeting.alike (hagrees i hi hsi) (hagrees j hj hsj)

/-- **Files are shared.** In every run as it is considered each document is worth the operations
that the server took for it; whoever has it open and is settled holds just the symbols that the
server has, and all who are have the same lines. -/
theorem files_shared (hz : ∀ data, z.qUncompress (z.qCompress data) = data)
    (hd : Documented documents) (h0 : Starts z documents D)
    (h : Relation.ReflTransGen (Works z toJson documents) D D') (hf : documents f = some ls) :
    Shared z toJson f ls D' := by
  obtain ⟨xs, t, hxs, -⟩ := (hd.valid f ls hf).terminated
  obtain ⟨hs, w, hw⟩ := works_run hz hd h0 h hf (by rw [hxs, List.getLast?_concat])
  exact hw.shared hs hd hf

/-! ## Runs that can be computed -/

instance (s : Symbol) : Decidable s.InRange :=
  decidable_of_iff ((∀ i ∈ s.position, -2 ^ 31 ≤ i.digit ∧ i.digit < 2 ^ 31) ∧
      (∀ i ∈ s.position, -2 ^ 31 ≤ i.site ∧ i.site < 2 ^ 31) ∧
      (-2 ^ 31 ≤ s.counter ∧ s.counter < 2 ^ 31) ∧
      (-2 ^ 31 ≤ s.format.size ∧ s.format.size < 2 ^ 31))
    ⟨fun ⟨digit, site, counter, size⟩ => ⟨digit, site, counter, size⟩,
      fun h => ⟨h.digit, h.site, h.counter, h.size⟩⟩

/-- Whether a message that goes with an array of symbols can be read back can be told. -/
def legibleCheck (z : Codec) (toJson : QJsonObject → QByteArray) (siteId : Int) (m : Message) :
    Bool :=
  (m.parts siteId).2.all fun symbols =>
    (createByteArrayFileContent toJson (m.parts siteId).1 symbols).length < 2 ^ 31 &&
      match z.fromJson (toJson (m.parts siteId).1) with
      | .object o => sameMembers o (m.parts siteId).1
      | _ => false

theorem legible_of_check {siteId : Int} {m : Message} (h : legibleCheck z toJson siteId m = true) :
    Legible z toJson siteId m := by
  intro symbols hs
  rw [legibleCheck, hs, Option.all_some, Bool.and_eq_true] at h
  obtain ⟨hlen, h⟩ := h
  refine ⟨?_, of_decide_eq_true hlen⟩
  split at h
  case h_1 o ho => exact ho.trans (congrArg _ (eq_of_sameMembers h))
  case h_2 => cases h

/-- An edit at a symbol, with positions that are not used. -/
def performCheck (z : Codec) (toJson : QJsonObject → QByteArray)
    (documents : QString → Option Lines) (D : Deployment) (i : WorkerId) (op : LocalOp) : Bool :=
  op.IsEdit && op.Legal (D.site i).crdt.symbols &&
    match (D.site i).page, op.perform (D.site i).crdt with
    | .editor f, .ok (_, m) =>
      (carried m).all (fun s => s.InRange) && legibleCheck z toJson (D.site i).crdt.siteId m &&
        (documents f).all fun ls => m.inserted.all fun s =>
          (ls.flatten.all fun y => y.position ≠ s.position) &&
            (D.sent f).all fun n => n.inserted.all fun y => y.position ≠ s.position
    | _, _ => true

/-- A packet that opens a file, brings nothing, or brings to the editor what it can do. -/
def deliverCheck (z : Codec) (toJson : QJsonObject → QByteArray) (D : Deployment)
    (i : WorkerId) : Bool :=
  match D.down i with
  | [] => true
  | packet :: _ =>
    match received z toJson (D.site i).members packet with
    | .error _ => true
    | .ok (_, signals) => signals.opened || signals.operations.isEmpty ||
      match (D.site i).page with
      | .editor _ => signals.operations.all (asMeantCheck (D.site i).crdt)
      | _ => false

/-- A file that is sent can be read and loaded. -/
def processCheck (z : Codec) (toJson : QJsonObject → QByteArray) (D : Deployment) (i : WorkerId)
    (d : Driver) : Bool :=
  match D.up i with
  | .openFile f :: _ =>
    match D.server.handle z d (.jsonReceived i (openFileMessage f)) with
    | .error _ => true
    | .ok (server, outs) => outs.all (readableCheck z toJson ∘ Output.packet) &&
      (server.symbolsList[f]?).all fun symbols => decide (Loadable symbols.values)
  | _ => true

theorem perform_of_check {i : WorkerId} {op : LocalOp}
    (h : performCheck z toJson documents D i op = true) :
    Considered z toJson documents D (.perform i op) := by
  rw [performCheck, Bool.and_eq_true, Bool.and_eq_true] at h
  obtain ⟨⟨hedit, hlegal⟩, h⟩ := h
  refine ⟨of_decide_eq_true hedit, of_decide_eq_true hlegal, fun f crdt m hpage hp => ?_⟩
  rw [hpage, hp] at h
  simp only [Bool.and_eq_true, List.all_eq_true, decide_eq_true_eq, Option.all_eq_true] at h
  obtain ⟨⟨hr, hlegible⟩, hunused⟩ := h
  refine ⟨hr, legible_of_check hlegible, fun ls hls s hs => ?_⟩
  obtain ⟨hnew, hsent⟩ := hunused ls hls s hs
  simp only [List.mem_map, not_exists, not_and]
  exact ⟨hnew, hsent⟩

theorem deliver_of_check {i : WorkerId} (h : deliverCheck z toJson D i = true) :
    Considered z toJson documents D (.deliver i) := by
  intro packet rest members signals hdown hrec
  simp only [deliverCheck, hdown, hrec, Bool.or_eq_true, List.isEmpty_iff] at h
  rcases h with (ho | hnil) | h
  · exact .inr (.inl ho)
  · exact .inr (.inr hnil)
  · split at h
    case h_1 f hpage =>
      exact .inl ⟨⟨f, hpage⟩, fun m hm => asMeant_of_check (List.all_eq_true.mp h m hm)⟩
    case h_2 => cases h

theorem process_of_check {i : WorkerId} {d : Driver} (h : processCheck z toJson D i d = true) :
    Considered z toJson documents D (.process i d) := by
  intro f rest server outs hup hh
  simp only [processCheck, hup, hh, Bool.and_eq_true, List.all_eq_true, Function.comp] at h
  refine ⟨fun o ho => readable_of_check (h.1 o ho), fun symbols hm => ?_⟩
  rw [hm] at h
  exact of_decide_eq_true h.2

/-- A step that can be told to be one of those considered. -/
def checked (z : Codec) (toJson : QJsonObject → QByteArray) (documents : QString → Option Lines)
    (D : Deployment) (a : Action) : Option Deployment :=
  let considered :=
    match a with
    | .perform i op => performCheck z toJson documents D i op
    | .deliver i => deliverCheck z toJson D i
    | .process i d => processCheck z toJson D i d
    | .choose _ f => (documents f).isSome
    | .ask .. => false
    | .moveCursor .. | .exit _ | .disconnect .. | .timeout _ => true
  if considered then D.step z toJson a else none

theorem works_of_checked {a : Action} (h : checked z toJson documents D a = some D') :
    Works z toJson documents D D' := by
  unfold checked at h
  dsimp only at h
  split_ifs at h with hc
  refine ⟨a, ?_, h⟩
  cases a with
  | perform i op => exact perform_of_check hc
  | deliver i => exact deliver_of_check hc
  | process i d => exact process_of_check hc
  | choose i f => exact Option.isSome_iff_exists.mp hc
  | ask => cases hc
  | moveCursor | exit | disconnect | timeout => trivial

theorem works_of_actions {actions : List Action}
    (h : actions.foldlM (checked z toJson documents) D = some D') :
    Relation.ReflTransGen (Works z toJson documents) D D' := by
  induction actions generalizing D with
  | nil =>
    obtain rfl := Option.some.inj h
    exact .refl
  | cons a actions ih =>
    rw [List.foldlM_cons] at h
    obtain ⟨D1, h1, h⟩ := Option.bind_eq_some_iff.mp h
    exact .head (works_of_checked h1) (ih h)

end Runs

/-! ## A file that two clients have open -/

/-- The file of the first client, with a terminator. -/
def sharedDocuments (f : QString) : Option Lines :=
  if f = QString.of "f,u" then some [[plain QChar.null [⟨5, 1⟩]]] else none

/-- The messages that are sent in arrays of bytes: the file, to the first and to the second of its
clients, and the news of the second. -/
def firstReply : QJsonObject :=
  object [("filename", text "f,u"), ("shared_link", text "x"), ("success", .bool true),
    ("tot_symbols", .double 1), ("type", text "file_to_open"), ("users", .array [])]

def secondReply : QJsonObject :=
  object [("filename", text "f,u"), ("shared_link", text "x"), ("success", .bool true),
    ("tot_symbols", .double 1), ("type", text "file_to_open"),
    ("users", .array [.object (object [("nickname", text "u"), ("username", text "u")])])]

def connectionNews : QJsonObject :=
  object [("filename", text "f,u"), ("nickname", text "v"), ("type", text "connection"),
    ("username", text "v")]

/-- The messages as they are written. -/
def firstText : QByteArray :=
  asciiBytes ["\x7b", "    \"filename\": \"f,u\",", "    \"shared_link\": \"x\",",
    "    \"success\": true,", "    \"tot_symbols\": 1,", "    \"type\": \"file_to_open\",",
    "    \"users\": [", "    ]", "\x7d"]

def secondText : QByteArray :=
  asciiBytes ["\x7b", "    \"filename\": \"f,u\",", "    \"shared_link\": \"x\",",
    "    \"success\": true,", "    \"tot_symbols\": 1,", "    \"type\": \"file_to_open\",",
    "    \"users\": [", "        \x7b", "            \"nickname\": \"u\",",
    "            \"username\": \"u\"", "        \x7d", "    ]", "\x7d"]

def newsText : QByteArray :=
  asciiBytes ["\x7b", "    \"filename\": \"f,u\",", "    \"nickname\": \"v\",",
    "    \"type\": \"connection\",", "    \"username\": \"v\"", "\x7d"]

/-- The message of an erasure, which comes before its symbols. -/
def erasureText : QByteArray :=
  asciiBytes ["\x7b", "    \"editorId\": 1,", "    \"operation_type\": 1,",
    "    \"type\": \"operation\"", "\x7d"]

def sharedToJson (message : QJsonObject) : QByteArray :=
  if (message.value "editorId").toInt = 1 then erasureText
  else if ! (message.value "success").toBool then newsText
  else if (message.value "users").toArray.isEmpty then firstText else secondText

def sharedCodec : Codec where
  qCompress := id
  qUncompress := id
  fromJson data :=
    if data = firstText then .object firstReply
    else if data = secondText then .object secondReply
    else if data = newsText then .object connectionNews
    else if data = erasureText then .object (eraseMessage 1)
    else .error

def sharedSite (siteId : Int) (name : String) (page : Page) : Site :=
  ⟨CRDT.clear siteId, ⟨⟨true, QString.of name, QString.of name, .anonymous, [], []⟩, []⟩, page⟩

/-- Two clients are there. -/
def sharedStart : Deployment where
  server :=
    { Server.start
        { Database.ofNames ["u", "v"] with
          users := (Database.ofNames ["u", "v"]).users.modify (QString.of "u")
            (User.pushFile ⟨QString.of "f", QString.of "x"⟩)
          bucket := (∅ : Std.TreeMap QString QByteArray).insert (QString.of "f,u")
            (writeSymbols [plain QChar.null [⟨5, 1⟩]]) } with
      clients := ((∅ : Std.TreeMap WorkerId ServerWorker).insert 0
        ⟨QString.of "u", QString.of "u", []⟩).insert 1 ⟨QString.of "v", QString.of "v", []⟩ }
  site w :=
    if w = 0 then sharedSite 1 "u" .home
    else if w = 1 then sharedSite 2 "v" .home
    else sharedSite 0 "w" .gone
  up _ := []
  down _ := []
  sent _ := []
  order _ := []

/-- Both clients open the file and type a letter; the first one erases its own, and the file is
saved. -/
def sharedActions : List Action :=
  [.choose 0 (QString.of "f,u"), .choose 1 (QString.of "f,u"), .process 0 .plain,
    .process 1 .plain, .deliver 0, .deliver 1,
    .perform 0 (.insert 0 0 (QChar.of 'a') default default Qt.AlignLeft ⟨⟨true, 0⟩, .alignLeft⟩),
    .deliver 0, .process 0 .plain, .deliver 1,
    .perform 1 (.insert 0 1 (QChar.of 'b') default default Qt.AlignLeft ⟨⟨true, 0⟩, .alignLeft⟩),
    .perform 0 (.erase 0 0 1), .process 0 .plain, .process 1 .plain, .timeout .plain,
    .deliver 0, .deliver 1]

theorem sharedDocuments_eq {f : QString} {ls : Lines} (h : sharedDocuments f = some ls) :
    f = QString.of "f,u" ∧ ls = [[plain QChar.null [⟨5, 1⟩]]] := by
  unfold sharedDocuments at h
  split_ifs at h with hf
  exact ⟨hf, (Option.some.inj h).symm⟩

theorem sharedDocuments_documented : Documented sharedDocuments := by
  constructor
  · intro f ls h
    obtain ⟨-, rfl⟩ := sharedDocuments_eq h
    exact newFile_opened.valid
  · intro f ls h
    obtain ⟨rfl, -⟩ := sharedDocuments_eq h
    decide +kernel

/-- A server whose workers have no file open. -/
theorem files_of_closed {s : Server} (hc : ∀ w f, FileOf s w f → f = [])
    (hw : s.mapFileWorkers = ∅) (hs : s.symbolsList = ∅) : Files s := by
  refine ⟨⟨fun w f hf hne => absurd (hc w f hf) hne, fun f list w hl _ => ?_, fun f list hl => ?_,
    fun f => ?_⟩, fun f hf => ?_, fun f symbols hm => ?_⟩
  · simp [hw] at hl
  · simp [hw] at hl
  · simp [hw, hs]
  · simp [hs] at hf
  · simp [hs] at hm

theorem sharedStart_clients (w : WorkerId) : sharedStart.server.clients[w]? =
    if w = 1 then some ⟨QString.of "v", QString.of "v", []⟩
    else if w = 0 then some ⟨QString.of "u", QString.of "u", []⟩ else none := by
  show (((∅ : Std.TreeMap WorkerId ServerWorker).insert 0 _).insert 1 _)[w]? = _
  rw [Table.getElem?_insert, Table.getElem?_insert]
  simp

theorem sharedStart_starts : Starts sharedCodec sharedDocuments sharedStart := by
  refine ⟨files_of_closed (fun w f hf => ?_) rfl rfl, fun w => ?_, fun w => ?_, fun _ => rfl,
    fun _ => rfl, fun _ => rfl, fun f ls h => ?_⟩
  · obtain ⟨worker, hw, rfl⟩ := hf
    rw [sharedStart_clients] at hw
    split_ifs at hw <;> cases hw <;> rfl
  · by_cases h0 : w = 0
    · subst h0
      exact .inl ⟨rfl, rfl, _, sharedStart_clients 0, by decide, rfl⟩
    · by_cases h1 : w = 1
      · subst h1
        exact .inl ⟨rfl, rfl, _, sharedStart_clients 1, by decide, rfl⟩
      · refine .inr ⟨by simp [sharedStart, sharedSite, h0, h1], ?_⟩
        rw [Table.not_mem_iff, sharedStart_clients, if_neg h1, if_neg h0]
  · show Named (if w = 0 then _ else if w = 1 then _ else _)
    split_ifs <;> exact ⟨by decide, by decide⟩
  · obtain ⟨rfl, rfl⟩ := sharedDocuments_eq h
    exact ⟨writeSymbols [plain QChar.null [⟨5, 1⟩]], by decide +kernel, by decide +kernel⟩

/-- Both have the letter of the second client. -/
theorem files_shared_edited : ∃ D,
    Relation.ReflTransGen (Works sharedCodec sharedToJson sharedDocuments) sharedStart D ∧
    (∀ i ∈ [0, 1], (D.site i).page = .editor (QString.of "f,u") ∧
      (D.site i).crdt.symbols.map (List.map Symbol.value) = [[QChar.of 'b', QChar.null]]) ∧
    Shared sharedCodec sharedToJson (QString.of "f,u") [[plain QChar.null [⟨5, 1⟩]]] D := by
  have hrun : (sharedActions.foldlM (checked sharedCodec sharedToJson sharedDocuments)
      sharedStart).any (fun D => [0, 1].all fun i =>
        (D.site i).page = .editor (QString.of "f,u") &&
          (D.site i).crdt.symbols.map (List.map Symbol.value) = [[QChar.of 'b', QChar.null]]) =
        true := by
    decide +kernel
  obtain ⟨D, hD, hP⟩ := (Option.any_eq_true _ _).mp hrun
  have hworks := works_of_actions hD
  refine ⟨D, hworks, fun i hi => ?_, files_shared (fun _ => rfl) sharedDocuments_documented
    sharedStart_starts hworks rfl⟩
  simpa using List.all_eq_true.mp hP i hi

end Scriba.System
