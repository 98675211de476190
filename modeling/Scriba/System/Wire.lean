import Scriba.Client.Messages
import Scriba.System.Envelopes

/-! # Operations on the wire

An operation leaves a client as a message in JSON or as an array of bytes, is taken apart and put
together again by the server, and taken apart by the other clients. What the server stores and what
the others handle is the operation that was performed (`operation_travels`); the one that
`localChange` sends is neither stored nor handled. -/

namespace Scriba.System

open Scriba.Utility Scriba.Client Scriba.Server Scriba.Lib

/-- The event that a message of a worker leads to. -/
def eventOf (w : WorkerId) : Callback QJsonObject → Server.Event
  | .jsonReceived o => .jsonReceived w o
  | .byteArrayReceived data => .byteArrayReceived w data

/-- What the slots of a client emit. -/
structure Signals where
  json : List JsonSignal
  byteArray : List ClientSignal

/-- A client gets what the server sent. -/
def received (z : Codec) (toJson : QJsonObject → QByteArray) (c : Members) (packet : Packet) :
    Except ReceiveFault (Members × Signals) :=
  match packet.bytes toJson with
  | none =>
    let (c, signals) := onJsonReceived c packet.message
    pure (c, ⟨signals, []⟩)
  | some data => do
    let (state, signals) ← onByteArrayReceived z c.state data
    pure ({ c with state }, ⟨[], signals⟩)

/-- The operations that `CRDT` is to handle. -/
def Signals.operations (signals : Signals) : List Message :=
  signals.json.filterMap JsonSignal.operation ++
    signals.byteArray.filterMap ClientSignal.operation

/-- The file was opened. -/
def Signals.opened (signals : Signals) : Bool :=
  signals.byteArray.any fun
    | .correctOpenedFile => true
    | _ => false

/-- The files that the slot for JSON asks for on its own. -/
def Signals.chosen (signals : Signals) : List QString :=
  signals.json.filterMap fun
    | .openFile filename => some filename
    | _ => none

/-- The symbols in the message of an operation. -/
def carried : Message → List Symbol
  | .insert s | .align s | .changeSymbol s => [s]
  | .paste symbols | .change symbols | .erase symbols => symbols

/-- What others make of an operation. -/
def heard : Message → List Message
  | .changeSymbol _ => []
  | m => [m]

section Wire

variable {z : Codec} {toJson : QJsonObject → QByteArray} {d : Driver} {s : Server} {w : WorkerId}
  {sender : ServerWorker} {siteId : Int} {m : Message}

/-- The array of the operation, if it is one, can be read. -/
def Legible (z : Codec) (toJson : QJsonObject → QByteArray) (siteId : Int) (m : Message) : Prop :=
  ∀ symbols, (m.parts siteId).2 = some symbols →
    ReadsBack z toJson (m.parts siteId).1 ∧
      (createByteArrayFileContent toJson (m.parts siteId).1 symbols).length < 2 ^ 31

theorem operationType_of_value {doc : QJsonObject} {type : OperationType}
    (h : doc.value "operation_type" = .double type.toInt) : operationType doc = some type := by
  rw [operationType, h, QJsonValue.toInt_double (by cases type <;> decide),
    OperationType.ofInt_toInt]

theorem operationType_symbolMessage (siteId : Int) (type : OperationType) (s : Symbol) :
    operationType (symbolMessage siteId type s) = some type :=
  operationType_of_value rfl

theorem hasType_symbolMessage (type : OperationType) (r : Symbol) :
    HasType (symbolMessage siteId type r) "operation" :=
  ⟨_, rfl, rfl⟩

theorem isBulk_symbolsMessage {type : OperationType} (n : Nat)
    (h : type ∈ [OperationType.deleteSymbol, .change, .paste]) :
    IsBulk (symbolsMessage siteId type n) :=
  ⟨⟨_, rfl, rfl⟩, ⟨type, h, operationType_of_value rfl⟩, rfl⟩

theorem isBulk_eraseMessage (siteId : Int) : IsBulk (eraseMessage siteId) :=
  ⟨⟨_, rfl, rfl⟩, ⟨.deleteSymbol, by decide, operationType_of_value rfl⟩, rfl⟩

/-- What an operation is to the server and to the other clients. -/
structure Travels (z : Codec) (toJson : QJsonObject → QByteArray) (siteId : Int) (m : Message)
    (operation : Operation) (packet : Packet) : Prop where
  stored : ∀ symbols, operation.apply symbols = SymbolMap.store symbols m
  handled : ∀ d (s : Server) w sender, s.clients[w]? = some sender → sender.nickname ≠ [] →
    s.handle z d (eventOf w (payload toJson (m.parts siteId))) =
      s.operate w sender.filename operation packet
  heard : ∀ c, ∃ signals, received z toJson c packet = .ok (c, signals) ∧
    signals.operations = heard m ∧ signals.opened = false ∧ signals.chosen = []

/-- The server on a message in JSON with one symbol. -/
theorem handle_symbolMessage (type : OperationType) (r : Symbol) (hw : s.clients[w]? = some sender)
    (hn : sender.nickname ≠ []) :
    s.handle z d (.jsonReceived w (symbolMessage siteId type r)) =
      s.operate w sender.filename (.ofJson (symbolMessage siteId type r))
        (.json (symbolMessage siteId type r)) := by
  have htype : LoggedInRequest.of (symbolMessage siteId type r) = some .operation :=
    requestOf_of_hasType (hasType_symbolMessage type r) rfl
  simp only [Server.handle, withWorker, hw, Server.jsonReceived, if_neg hn, jsonFromLoggedIn, htype]

/-- The other clients on it. -/
theorem received_symbolMessage (type : OperationType) (r : Symbol) (c : Members) :
    received z toJson c (.json (symbolMessage siteId type r)) =
      .ok (c, ⟨remoteOperation (symbolMessage siteId type r), []⟩) := by
  have htype : JsonMessage.of (symbolMessage siteId type r) = some .operation :=
    requestOf_of_hasType (hasType_symbolMessage type r) rfl
  simp only [received, Packet.bytes, Packet.message, onJsonReceived, htype]
  rfl

/-- It has no case that asks for a file. -/
theorem chosen_remoteOperation (doc : QJsonObject) :
    Signals.chosen ⟨remoteOperation doc, []⟩ = [] := by
  unfold remoteOperation
  dsimp only
  split <;> rfl

/-- A message in JSON. -/
theorem travels_symbol {type : OperationType} {r : Symbol}
    (hm : m.parts siteId = (symbolMessage siteId type r, none))
    (hstored : ∀ symbols, (Operation.ofJson (symbolMessage siteId type r)).apply symbols =
      SymbolMap.store symbols m)
    (hheard : (remoteOperation (symbolMessage siteId type r)).filterMap JsonSignal.operation =
      heard m) :
    Travels z toJson siteId m (.ofJson (symbolMessage siteId type r))
      (.json (symbolMessage siteId type r)) := by
  refine ⟨hstored, fun d s w sender hw hn => ?_, fun c =>
    ⟨_, received_symbolMessage type r c, ?_, rfl, chosen_remoteOperation _⟩⟩
  · rw [hm]
    exact handle_symbolMessage type r hw hn
  · rw [Signals.operations, hheard]
    exact List.append_nil _

/-- An array of bytes. -/
theorem travels_byteArray {message : QJsonObject} {symbols : List Symbol}
    {operation : List Symbol → Operation} {signal : List Symbol → ClientSignal}
    (hm : m.parts siteId = (message, some symbols)) (hl : Legible z toJson siteId m)
    (hbulk : IsBulk message) (hr : ∀ r ∈ symbols, r.InRange)
    (hop : Operation.ofBulk message = some operation)
    (hsignal : remoteSignal message = some signal)
    (hstored : ∀ map, (operation symbols).apply map = SymbolMap.store map m)
    (hheard : (signal symbols).operation = some m) (hself : heard m = [m]) :
    Travels z toJson siteId m (operation symbols) (.byteArray message (writeSymbols symbols)) := by
  obtain ⟨hz, hfits⟩ := hl symbols (congrArg Prod.snd hm)
  rw [hm] at hz hfits
  obtain ⟨operation', hop', hserver⟩ := server_reads hz hbulk hr hfits
  obtain ⟨signal', hsignal', -, hclient⟩ := client_reads hz hbulk hr hfits
  obtain rfl := Option.some.inj (hop.symm.trans hop')
  obtain rfl := Option.some.inj (hsignal.symm.trans hsignal')
  refine ⟨hstored, fun d s w sender hw _ => ?_, fun c =>
    ⟨⟨[], [signal symbols]⟩, ?_, ?_, ?_, rfl⟩⟩
  · rw [hm]
    simp only [payload, eventOf, Server.handle, withWorker, hw, hserver]
  · simp only [received, Packet.bytes, hclient]
    rfl
  · simp [Signals.operations, hheard, hself]
  · cases hs : signal symbols with
    | correctOpenedFile =>
      rw [hs] at hheard
      cases hheard
    | _ => simp [Signals.opened]

theorem exists_travels (hr : ∀ r ∈ carried m, r.InRange) (hl : Legible z toJson siteId m) :
    ∃ operation packet, Travels z toJson siteId m operation packet := by
  have hread : ∀ type (r : Symbol), r.InRange →
      Symbol.fromJson ((symbolMessage siteId type r).value "symbol").toObject = r :=
    fun _ _ => Symbol.fromJson_toJson
  cases m with
  | insert r =>
    have hr := hr r (by simp [carried])
    refine ⟨_, _, travels_symbol rfl (fun symbols => ?_) ?_⟩
    · simp only [Operation.ofJson, operationType_symbolMessage, hread _ r hr]
      rfl
    · simp only [remoteOperation, operationType_symbolMessage, hread _ r hr]
      rfl
  | align r =>
    have hr := hr r (by simp [carried])
    refine ⟨_, _, travels_symbol rfl (fun symbols => ?_) ?_⟩
    · simp only [Operation.ofJson, operationType_symbolMessage, hread _ r hr]
      rfl
    · simp only [remoteOperation, operationType_symbolMessage, hread _ r hr]
      rfl
  | changeSymbol r =>
    refine ⟨_, _, travels_symbol rfl (fun symbols => ?_) ?_⟩
    · simp only [Operation.ofJson, operationType_symbolMessage]
      rfl
    · simp only [remoteOperation, operationType_symbolMessage]
      rfl
  | paste symbols =>
    have htype : operationType (symbolsMessage siteId .paste symbols.length) = some .paste :=
      operationType_of_value rfl
    exact ⟨_, _, travels_byteArray rfl hl (isBulk_symbolsMessage _ (by decide)) hr
      (by rw [Operation.ofBulk, htype]) (by rw [remoteSignal, htype]) (fun _ => rfl) rfl rfl⟩
  | change symbols =>
    have htype : operationType (symbolsMessage siteId .change symbols.length) = some .change :=
      operationType_of_value rfl
    exact ⟨_, _, travels_byteArray rfl hl (isBulk_symbolsMessage _ (by decide)) hr
      (by rw [Operation.ofBulk, htype]) (by rw [remoteSignal, htype]) (fun _ => rfl) rfl rfl⟩
  | erase symbols =>
    have htype : operationType (eraseMessage siteId) = some .deleteSymbol :=
      operationType_of_value rfl
    exact ⟨_, _, travels_byteArray rfl hl (isBulk_eraseMessage siteId) hr
      (by rw [Operation.ofBulk, htype]) (by rw [remoteSignal, htype]) (fun _ => rfl) rfl rfl⟩

/-- **An operation travels.** The server stores what was performed, whoever sent it while logged in,
and sends on a packet in which every client finds the operation. -/
theorem operation_travels (hr : ∀ r ∈ carried m, r.InRange) (hl : Legible z toJson siteId m) :
    ∃ operation packet, Travels z toJson siteId m operation packet :=
  exists_travels hr hl

end Wire

/-- One pasted symbol of the site 1. -/
theorem operation_travels_pasted : ∃ operation packet,
    Travels exampleCodec exampleToJson 1 (.paste [betweenExample]) operation packet := by
  have hmessage : symbolsMessage 1 .paste 1 = pastedExample := rfl
  refine operation_travels ?_ ?_
  · intro r hr
    rw [List.mem_singleton.mp hr]
    exact ⟨by decide, by decide, by decide, by decide⟩
  · intro symbols hs
    obtain rfl : [betweenExample] = symbols := Option.some.inj hs
    have htext : exampleToJson pastedExample = pastedText := if_neg (by decide)
    have hne : pastedText ≠ openedText := by decide +kernel
    refine ⟨?_, ?_⟩
    · show ReadsBack exampleCodec exampleToJson (symbolsMessage 1 .paste 1)
      simp only [hmessage, ReadsBack, htext, exampleCodec, hne, if_true, if_false]
    · show (createByteArrayFileContent exampleToJson (symbolsMessage 1 .paste 1) _).length < _
      rw [hmessage]
      decide +kernel

end Scriba.System
