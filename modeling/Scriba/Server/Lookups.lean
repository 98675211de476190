import Scriba.Server.Registry

/-! # Entries that are looked up

`symbols_list.value(filename)` and `mapFileWorkers->value(filename)` are null pointers when there is
no such entry, and the server dereferences them without a check. With a registry that holds,
only an operation of a worker without an open file runs into this. -/

namespace Scriba.Server

open Scriba.Utility Scriba.Lib

/-- Every entry that is dereferenced is there. -/
abbrev Finds {α : Type} (x : Except Fault α) : Prop := Spares .missingEntry x

section Database

variable {d : Driver} {db : Database}

theorem transaction_finds {α : Type} {queryError : α} {body : Except Database (α × Database)} :
    Finds (Mongo.transaction d queryError body) :=
  Mongo.transaction_spares body nofun

theorem retrieveImage_finds (email : QString) : Finds (Mongo.retrieveImage d db email) := by
  unfold Mongo.retrieveImage
  split
  · exact .throw nofun
  · exact .pure _

theorem upsertImage_finds (email : QString) (image : QByteArray) :
    Finds (Mongo.upsertImage d db email image) := by
  unfold Mongo.upsertImage
  split
  · exact .throw nofun
  · exact .pure _

theorem insertNewFile_finds (filename : QString) :
    Finds (Mongo.insertNewFile d db filename) := by
  unfold Mongo.insertNewFile
  split
  · exact .throw nofun
  · split <;> exact .pure _

theorem mongoSaveFile_finds (filename : QString) (data : QByteArray) :
    Finds (Mongo.saveFile d db filename data) := by
  unfold Mongo.saveFile
  split
  · exact .throw nofun
  · split <;> exact .pure _

theorem retrieveFile_finds (z : Codec) (filename : QString) :
    Finds (Mongo.retrieveFile z d db filename) := by
  unfold Mongo.retrieveFile
  split
  · exact .throw nofun
  · exact .pure _

end Database

section Handlers

variable {z : Codec} {d : Driver} {s : Server} {w : WorkerId} {sender : ServerWorker}
  {doc : QJsonObject} {f : QString}

theorem broadcast_finds {packet : Packet} (h : f ∈ s.mapFileWorkers) :
    Finds (s.broadcast w f packet) := by
  obtain ⟨list, hl⟩ := Table.exists_of_mem h
  unfold broadcast
  simp only [hl]
  split
  · exact .pure _
  · exact .throw nofun

theorem connectedUsers_finds (username : QString) (list : List WorkerId) :
    Finds (s.connectedUsers d username list) := by
  induction list with
  | nil => exact .pure _
  | cons v list ih =>
    unfold connectedUsers
    split
    · exact .throw nofun
    · split
      · exact ih
      · exact (retrieveImage_finds _).bind fun _ _ => ih.bind fun _ _ => .pure _

theorem saveFile_finds : Finds (s.saveFile z d) := by
  refine .foldlM (fun s entry => .bind ?_ fun _ _ => .pure _) _ s
  unfold saveSymbols
  split
  · dsimp only
    split
    · exact .throw nofun
    · exact mongoSaveFile_finds _ _
  · exact .pure _

/-- A worker leaves the file it has. -/
theorem leave_finds (h : Registered s w f → sender.filename = f) :
    Finds (s.udpateSymbolListAndCommunicateDisconnection z d f w sender) := by
  unfold udpateSymbolListAndCommunicateDisconnection
  split
  · exact .pure _
  case h_2 workers hl =>
    split
    · exact .pure _
    case isFalse hin =>
      split
      · exact saveFile_finds.bind fun _ _ => .pure _
      · refine .bind (broadcast_finds ?_) fun _ _ => .pure _
        rw [h ⟨workers, hl, not_not.mp hin⟩]
        exact Table.mem_insert.mpr (.inl rfl)

theorem registerNewFile_finds : Finds (s.registerNewFile d w sender f) := by
  unfold registerNewFile
  refine (insertNewFile_finds _).bind fun ⟨inserted, db⟩ _ => ?_
  dsimp only
  split
  · split <;> exact .pure _
  · exact .throw nofun

theorem createNewFile_finds : Finds (s.createNewFile d w sender doc) := by
  unfold createNewFile
  split
  · exact .pure _
  · refine transaction_finds.bind fun ⟨⟨result, link⟩, db⟩ _ => ?_
    dsimp only
    split
    · exact .pure _
    · exact .pure _
    · exact .pure _
    · exact registerNewFile_finds.bind fun _ _ => .pure _

theorem sendFile_finds : Finds (s.sendFile z d w sender doc) := by
  unfold sendFile
  split
  · exact .pure _
  case h_2 filename _ =>
    refine (connectedUsers_finds _ _).bind fun users _ => .bind ?_ fun content _ =>
      (retrieveImage_finds _).bind fun image _ => .bind (broadcast_finds ?_) fun _ _ => .pure _
    · unfold fileContent
      split
      · exact .pure _
      · exact retrieveFile_finds _ _
    · exact Table.mem_insert.mpr (.inl rfl)

theorem closeFile_finds (h : ∀ f, Registered s w f → sender.filename = f) :
    Finds (s.closeFile z d w sender doc) := by
  unfold closeFile
  split
  · exact .pure _
  · refine .bind (leave_finds (h _)) ?_
    intro r _
    split <;> exact .pure _

theorem userDisconnected_finds : Finds (s.userDisconnected z d w sender) := by
  unfold userDisconnected
  dsimp only
  split
  · exact .pure _
  · exact .bind (leave_finds fun _ => rfl) fun _ _ => .pure _

/-- Requests of workers that are logged in, apart from operations. -/
theorem jsonFromLoggedIn_finds (h : ∀ f, Registered s w f → sender.filename = f)
    (hr : LoggedInRequest.of doc ≠ some .operation) :
    Finds (s.jsonFromLoggedIn z d w sender doc) := by
  unfold jsonFromLoggedIn
  split
  case h_6 hop => exact absurd hop hr
  case h_7 => exact createNewFile_finds.map
  case h_8 => exact sendFile_finds
  case h_9 => exact closeFile_finds h
  case h_3 => exact .pure _
  case h_4 => exact .pure _
  case h_5 => exact .pure _
  case h_11 => exact .pure _
  all_goals
    refine .map ?_
    first | unfold updateNick | unfold updatePass | unfold getFilenameFromSharedLink
    split
    · exact .pure _
    · refine transaction_finds.bind fun ⟨result, db⟩ _ => ?_
      dsimp only
      split <;> exact .pure _

theorem withWorker_finds {α : Type} {call : ServerWorker → Except Fault α}
    (h : ∀ sender, s.clients[w]? = some sender → Finds (call sender)) :
    Finds (s.withWorker w call) := by
  unfold withWorker
  split
  · exact .throw nofun
  case h_2 sender hw => exact h sender hw

theorem loginImage_finds {message : QJsonObject} : Finds (s.loginImage d w message) := by
  unfold loginImage
  split
  · exact withWorker_finds fun _ _ => retrieveImage_finds _
  · exact .pure _

theorem jsonFromLoggedOut_finds : Finds (s.jsonFromLoggedOut d w sender doc) := by
  unfold jsonFromLoggedOut
  split
  · exact loginImage_finds.bind fun _ _ => .pure _
  · refine .map ?_
    unfold checkAlreadyExistingUsername
    split
    · exact .pure _
    · refine transaction_finds.bind fun ⟨result, db⟩ _ => ?_
      dsimp only
      split <;> exact .pure _
  · exact .pure _

theorem storeImage_finds {db : Database} {username : QString} {rest : QByteArray} :
    Finds (storeImage d db username rest) := by
  unfold storeImage
  split
  · exact .pure _
  · exact upsertImage_finds _ _

theorem signup_finds {rest : QByteArray} : Finds (s.signup d doc rest) := by
  unfold signup
  dsimp only
  split
  · exact .pure _
  · split
    · exact .pure _
    · split
      · exact .pure _
      · refine transaction_finds.bind fun ⟨result, db⟩ _ => ?_
        dsimp only
        split
        · exact .pure _
        · exact .pure _
        · exact .pure _
        · exact storeImage_finds.bind fun _ _ => .pure _

/-- Arrays of bytes that are no operation. -/
theorem byteArrayReceived_finds {data : QByteArray} (hw : s.clients[w]? = some sender)
    (hop : operationOf z s (.byteArrayReceived w data) = none) :
    Finds (s.handleSignupUpdateImageBulkOperation z d w sender data) := by
  unfold handleSignupUpdateImageBulkOperation
  split
  case h_2 => exact .pure _
  case h_1 doc hz =>
    dsimp only
    split
    · exact .pure _
    · split
      · exact signup_finds.map
      · refine .bind ?_ fun _ _ => .pure _
        unfold updateImage
        dsimp only
        split
        · exact .pure _
        · exact storeImage_finds.bind fun _ _ => .pure _
      case h_3 hr =>
        unfold bulkOperation
        split
        · exact .pure _
        · split
          · exact .pure _
          case h_2 op ho =>
            split
            · exact .throw nofun
            case isFalse hsize => simp [operationOf, hw, hz, ho, hr, hsize] at hop
      · exact .pure _

end Handlers

section Events

variable {z : Codec} {d : Driver} {s : Server} {e : Event}

/-- What is done with an operation. -/
theorem handle_operation {t : Taken} (h : operationOf z s e = some t) :
    s.handle z d e = s.operate t.sender t.filename t.operation t.packet := by
  cases sends_of_operationOf h with
  | json hw hn hr =>
    simp only [handle, withWorker, hw, jsonReceived, if_neg hn, jsonFromLoggedIn, hr]
  | @byteArray w sender data doc op hw hz hop hr hsize =>
    obtain ⟨type, -, ht, -, -⟩ := requestOf_some hr
    have hnull : ¬ (doc.value "operation_type").isNull := fun hn => by
      cases (ofBulk_of_isNull hn).symm.trans hop
    simp only [handle, withWorker, hw, handleSignupUpdateImageBulkOperation, hz, ht,
      QJsonValue.isString, hr, bulkOperation, if_neg hnull, hop, if_neg hsize]
    rfl

/-- No operation is done on a file without entries. -/
theorem operate_unlisted {w : WorkerId} {f : QString} {op : Operation} {packet : Packet}
    (hm : f ∉ s.symbolsList) (hl : f ∉ s.mapFileWorkers) :
    s.operate w f op packet = .error .missingEntry := by
  have hm := Table.not_mem_iff.mp hm
  have hl := Table.not_mem_iff.mp hl
  unfold operate updateSymbols
  split
  · simp only [bind, Except.bind, pure, Except.pure, broadcast, hl]
    rfl
  · simp only [hm]
    rfl

/-- With a registry that holds, an event finds its entries unless it is an operation of a worker
that has no file open. -/
theorem Registry.finds_iff (h : Registry s) : Finds (s.handle z d e) ↔
    ∀ t, operationOf z s e = some t → t.filename ≠ [] := by
  have hnil : [] ∉ s.mapFileWorkers := by
    intro hin
    obtain ⟨list, hl⟩ := Table.exists_of_mem hin
    obtain ⟨v, hv⟩ := List.exists_mem_of_ne_nil list (h.nonempty [] list hl)
    exact (h.own [] list v hl hv).1 rfl
  constructor
  · intro hfinds t ht hf
    rw [handle_operation ht, hf] at hfinds
    exact hfinds (operate_unlisted (mt (h.keys []).mp hnil) hnil)
  · intro hop
    cases ht : operationOf z s e with
    | some t =>
      obtain ⟨list, hl, -⟩ := h.once _ _ (fileOf_of_operationOf ht) (hop t ht)
      have hin : t.filename ∈ s.mapFileWorkers := Table.mem_of_getElem? hl
      obtain ⟨symbols, hs⟩ := Table.exists_of_mem ((h.keys _).mpr hin)
      rw [handle_operation ht]
      refine .bind ?_ fun s' hs' => .bind (broadcast_finds ?_) fun _ _ => .pure _
      · unfold updateSymbols
        simp only [hs]
        split <;> exact .pure _
      · unfold updateSymbols at hs'
        simp only [hs] at hs'
        split at hs' <;> cases hs' <;> exact hin
    | none =>
      cases e with
      | incomingConnection w => exact .pure _
      | jsonReceived w doc =>
        refine withWorker_finds ?_
        intro sender hw
        unfold jsonReceived
        split
        · exact jsonFromLoggedOut_finds
        case isFalse hn =>
          refine jsonFromLoggedIn_finds (fun f ⟨list, hl, hin⟩ => ?_) fun hr => ?_
          · exact fileOf_unique ⟨sender, hw, rfl⟩ (h.own f list w hl hin).2
          · simp [operationOf, hw, hn, hr] at ht
      | byteArrayReceived w data =>
        exact withWorker_finds fun sender hw => byteArrayReceived_finds hw ht
      | userDisconnected w => exact withWorker_finds fun _ _ => userDisconnected_finds
      | timeout => exact saveFile_finds.bind fun _ _ => .pure _

end Events

/-- **Which messages find their entries.** After any run of orderly requests these are all but the
operations of workers that have no file open. -/
theorem handle_finds_iff {z : Codec} {db : Database} {h : History} {s : Server}
    (hrun : ServerRun z db h s) (ho : ∀ e ∈ h, Orderly e.before e.input) (d : Driver) (e : Event) :
    Finds (s.handle z d e) ↔ ∀ t, operationOf z s e = some t → t.filename ≠ [] :=
  (registry_of_run hrun ho).finds_iff

/-- The cursor of a worker that has a file open. -/
def cursorDoc : QJsonObject := object [("type", text "operation"), ("operation_type", .double 5)]

theorem handle_finds_iff_opened : ∃ h s, ServerRun .plain (.ofNames ["u"]) h s ∧ h.length = 3 ∧
    (Finds (s.handle .plain .plain (.jsonReceived 0 cursorDoc)) ↔
      ∀ t, operationOf .plain s (.jsonReceived 0 cursorDoc) = some t → t.filename ≠ []) := by
  obtain ⟨h, s, hrun, hP⟩ := exists_run .plain (.ofNames ["u"])
    (inputs [.incomingConnection 0, .jsonReceived 0 (loginDoc "u"),
      .jsonReceived 0 (openDoc "f,u")])
    (P := fun h _ => h.length = 3 ∧ h.all fun e => orderlyCheck e.before e.input)
    (by decide +kernel)
  simp only [Bool.decide_and, Bool.and_eq_true, decide_eq_true_eq, List.all_eq_true] at hP
  exact ⟨h, s, hrun, hP.1, handle_finds_iff hrun (fun e he => orderly_of_check (hP.2 e he)) _ _⟩

/-- **A worker that has just logged in can send an operation.** -/
theorem not_finds_without_file : ¬ ∀ z db h s, ServerRun z db h s →
    ∀ d e, e.Possible s → Finds (s.handle z d e) := by
  intro hall
  obtain ⟨h, s, hrun, hP⟩ := exists_run .plain (.ofNames ["u"])
    (inputs [.incomingConnection 0, .jsonReceived 0 (loginDoc "u")])
    (P := fun _ s => 0 ∈ s.clients ∧ ¬ Finds (s.handle .plain .plain (.jsonReceived 0 cursorDoc)))
    (by decide +kernel)
  simp only [Bool.decide_and, Bool.and_eq_true, decide_eq_true_eq] at hP
  exact hP.2 (hall _ _ h s hrun .plain (.jsonReceived 0 cursorDoc) hP.1)

end Scriba.Server
