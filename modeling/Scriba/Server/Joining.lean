import Scriba.Server.Storage

/-! # Joining a file

A worker that opens a file is sent a snapshot, and from then on each operation on the file that it
has not sent itself. Registration, snapshot and notices are one handler, so no operation falls in
between: in well-formed sessions the snapshot, and what the worker has learned since, make the
map of the server. -/

namespace Scriba.Server

open Scriba.Utility Scriba.Lib

/-! ## Operations that are forwarded -/

/-- The operation that a client reads from a packet. -/
def Packet.operation : Packet → Option Operation
  | .json doc => some (.ofJson doc)
  | .byteArray doc content => (Operation.ofBulk doc).map fun op => op (readSymbols content)
  | _ => none

/-- The packets with operations that are sent to a worker. -/
def operationPackets (w : WorkerId) (outs : List Output) : List Packet :=
  (outs.filter fun o => o.destination = w ∧ isOperation o.packet.message).map Output.packet

/-- The packet of the operation on a file that the event is, for a worker that is not its sender. -/
def forwarded (z : Codec) (s : Server) (e : Event) (w : WorkerId) (f : QString) : List Packet :=
  match operationOf z s e with
  | none => []
  | some t => if t.filename = f ∧ t.sender ≠ w then [t.packet] else []

/-- What a worker learns when an event is handled: its own operation, or those it is sent. -/
def learned (z : Codec) (w : WorkerId) (e : Entry) : List Operation :=
  (match operationOf z e.before e.input.event with
    | none => []
    | some t => if t.sender = w then [t.operation] else []) ++
  (operationPackets w e.output).filterMap Packet.operation

section Forwarded

variable {z : Codec} {d : Driver} {s s' : Server} {e : Event} {w a : WorkerId}
  {sender : ServerWorker} {outs : List Output} {f : QString} {t : Taken} {packet : Packet}

theorem operation_of_operationOf (h : operationOf z s e = some t) :
    t.packet.operation = some t.operation ∧ isOperation t.packet.message = true := by
  cases sends_of_operationOf h with
  | json _ _ hr => exact ⟨rfl, isOperation_of_loggedIn hr⟩
  | byteArray _ _ hop hr =>
    exact ⟨by rw [Packet.operation, hop, Option.map_some], isOperation_of_byteArray hr⟩

/-- Nothing is an operation in what is sent. -/
theorem operationPackets_eq_nil (h : ∀ o ∈ outs, isOperation o.packet.message = false) :
    operationPackets w outs = [] := by
  rw [operationPackets, List.map_eq_nil_iff, List.filter_eq_nil_iff]
  intro o ho
  simp [h o ho]

/-- An operation that goes to all but one of some workers. -/
theorem operationPackets_forwarded {list : List WorkerId} (hn : list.Nodup)
    (hp : isOperation packet.message = true) :
    operationPackets w ((list.filter (· ≠ a)).map fun v => ⟨v, packet⟩) =
      if w ∈ list ∧ w ≠ a then [packet] else [] := by
  have hfilter : (list.filter (· ≠ a)).filter (· == w) =
      List.replicate ((list.filter (· ≠ a)).count w) w := List.filter_beq _
  have hcount : (list.filter (· ≠ a)).count w = if w ∈ list ∧ w ≠ a then 1 else 0 := by
    rw [(hn.filter _).count]
    simp [List.mem_filter]
  have hpred : ((fun o : Output => decide (o.destination = w ∧ isOperation o.packet.message)) ∘
      fun v => ⟨v, packet⟩) = (· == w) := by
    funext v
    simp [hp, beq_eq_decide]
  rw [operationPackets, List.filter_map, List.map_map, hpred, hfilter, hcount]
  split_ifs <;> rfl

theorem Leaves.noOperation {g : QString} (h : Leaves z s w sender g s' outs) :
    ∀ o ∈ outs, isOperation o.packet.message = false := by
  cases h with
  | last => simp
  | others _ _ _ hnotice hf =>
    intro o ho
    rw [hf.outs] at ho
    obtain ⟨v, -, rfl⟩ := List.mem_map.mp ho
    exact isOperation_of_type (by simp [replyTypes]) hnotice

/-- What is sent because of any other event is not an operation. -/
theorem Effect.noOperation (he : Effect z d s e s' outs) (hn : operationOf z s e = none) :
    ∀ o ∈ outs, isOperation o.packet.message = false := by
  cases he with
  | connected | disconnected | saved => simp
  | answered _ ha | stored _ _ ha => exact fun o ho => (ha o ho).2
  | loggedIn _ _ _ _ _ _ _ ha => exact fun o ho => (ha o ho).2
  | renamed _ _ _ ha => exact fun o ho => (ha o ho).2
  | operated ht => cases hn.symm.trans ht
  | created _ _ _ _ hm =>
    intro o ho
    obtain rfl := List.mem_singleton.mp ho
    exact isOperation_of_type (by simp [replyTypes]) hm.type
  | opened _ _ _ ha =>
    obtain ⟨message, images, notice, image, others, rfl, hm, hnotice, -⟩ := ha
    intro o ho
    rcases List.mem_cons.mp ho with rfl | ho
    · exact isOperation_of_type (by simp [replyTypes]) hm.type
    · obtain ⟨v, -, rfl⟩ := List.mem_map.mp ho
      exact isOperation_of_type (by simp [replyTypes]) hnotice
  | closed _ _ hl hm =>
    intro o ho
    rcases List.mem_append.mp ho with ho | ho
    · exact hl.noOperation o ho
    · obtain rfl := List.mem_singleton.mp ho
      exact isOperation_of_type (by simp [replyTypes]) hm.type
  | left _ _ _ hl => exact hl.noOperation

/-- **What a worker with an open file is sent.** -/
theorem Effect.forwarded (he : Effect z d s e s' outs) (hs : Registry s) (hw : FileOf s w f) :
    operationPackets w outs = Server.forwarded z s e w f := by
  unfold Server.forwarded
  cases ht : operationOf z s e with
  | none => exact operationPackets_eq_nil (he.noOperation ht)
  | some t =>
    obtain ⟨list, hl⟩ := (he.operated_of ht).outs
    have hmem : w ∈ list ↔ t.filename = f := by
      rw [hs.mem_iff hl.entry]
      exact ⟨fun h => fileOf_unique h hw, fun h => h ▸ hw⟩
    rw [hl.outs, operationPackets_forwarded (hs.nodup hl.entry) (operation_of_operationOf ht).2]
    exact if_congr (and_congr hmem ne_comm) rfl rfl

/-- It learns each operation on its file, and no other. -/
theorem Effect.learned {i : Input} (he : Effect z i.driver s i.event s' outs) (hs : Registry s)
    (hw : FileOf s w f) :
    Server.learned z w ⟨s, i, outs, s'⟩ = (operationOn z s i.event f).toList := by
  rw [Server.learned, he.forwarded hs hw, Server.forwarded, operationOn]
  cases ht : operationOf z s i.event with
  | none => rfl
  | some t =>
    have hop := (operation_of_operationOf ht).1
    by_cases hsend : t.sender = w
    · have hfile : t.filename = f := fileOf_unique (hsend ▸ fileOf_of_operationOf ht) hw
      simp [hsend, hfile]
    · by_cases hfile : t.filename = f <;> simp [hsend, hfile, hop]

end Forwarded

/-! ## Joining -/

/-- The worker opens or creates the file, and is sent these symbols; none with a file that it
creates. -/
inductive Joins (e : Entry) (w : WorkerId) (f : QString) : List Symbol → Prop
  | opened {sender : ServerWorker} {doc message : QJsonObject} {symbols : List Symbol}
      {images : List QByteArray} : Asks e.before e.input.event w sender .fileToOpen doc →
      sendFileField doc = .ok f → ⟨w, .fileContentImage message symbols images⟩ ∈ e.output →
      IsReply "file_to_open" true message → Joins e w f symbols
  | created {sender : ServerWorker} {doc message : QJsonObject} {username filename : QString} :
      Asks e.before e.input.event w sender .newFile doc →
      createNewFileFields doc = .ok (username, filename) → fileKey filename username = f →
      ⟨w, .json message⟩ ∈ e.output → IsReply "new_file" true message → Joins e w f []

/-- What is known of a worker that has a file open: where in the history it joined, what it was sent
then and has been sent since, and what this makes of the snapshot. -/
structure Joined (z : Codec) (h : History) (s : Server) (w : WorkerId) (f : QString)
    (earlier : History) (opening : Entry) (snapshot : List Symbol) (since : History) : Prop where
  history : h = earlier ++ opening :: since
  joins : Joins opening w f snapshot
  opening : operationPackets w opening.output = []
  stays : ∀ e ∈ since, FileOf e.before w f
  forwarded : ∀ e ∈ since,
    operationPackets w e.output = forwarded z e.before e.input.event w f
  learned : since.flatMap (learned z w) = operationsOn z f since
  current : ∃ symbols, s.symbolsList[f]? = some symbols ∧ symbols.Equiv
    (replayed (SymbolMap.storeSymbolsServerMemory snapshot) (since.flatMap (Server.learned z w)))

section Joined

variable {z : Codec} {d : Driver} {s s' : Server} {e : Event} {w v : WorkerId}
  {sender : ServerWorker} {outs : List Output} {f : QString} {h : History}

/-- **A worker that has a file open from now on joins it.** -/
theorem Effect.joins {i : Input} (he : Effect z i.driver s i.event s' outs) (hs : Files s)
    (hwf : WellFormed s i) (hf : f ≠ []) (hout : ¬ FileOf s w f) (hin : FileOf s' w f) :
    operationOf z s i.event = none ∧ ∃ snapshot symbols, Joins ⟨s, i, outs, s'⟩ w f snapshot ∧
      s'.symbolsList[f]? = some symbols ∧
      symbols.Equiv (SymbolMap.storeSymbolsServerMemory snapshot) := by
  have hcongr : s'.clients = s.clients → False := fun hc =>
    hout (by simpa only [FileOf, hc] using hin)
  have herase : ∀ v, s'.clients = s.clients.erase v → False := fun v hc =>
    hout ((fileOf_erase hc).mp hin).2
  -- a worker gets a file, or keeps the one it has
  have hinsert : ∀ {v : WorkerId} (worker : ServerWorker), s'.clients = s.clients.insert v worker →
      w = v ∧ worker.filename = f := by
    intro v worker hc
    have hfile := (fileOf_insert worker hc).mp hin
    split_ifs at hfile with hwv
    · exact ⟨hwv, hfile⟩
    · exact absurd hfile hout
  have hkeep : ∀ {v : WorkerId} {old worker : ServerWorker}, s.clients[v]? = some old →
      s'.clients = s.clients.insert v worker → worker.filename = old.filename → False := by
    intro v old worker hv hc hsame
    obtain ⟨rfl, rfl⟩ := hinsert _ hc
    exact hout ⟨old, hv, hsame.symm⟩
  cases he with
  | connected => exact absurd (hinsert _ rfl).2.symm hf
  | answered | stored => exact (hcongr rfl).elim
  | loggedIn _ hv => exact (hkeep hv rfl rfl).elim
  | renamed ha => exact (hkeep ha.worker rfl rfl).elim
  | operated _ hop => exact (hcongr hop.clients).elim
  | @created v sender doc message username filename db' s' ha hfields hg hc hm =>
    obtain ⟨rfl, rfl⟩ := hinsert _ hc.clients
    have hfresh : fileKey filename username ∉ s.symbolsList := fun hmem =>
      hc.fresh (hg.bucket ▸ hs.inBucket _ hmem)
    refine ⟨ha.operationOf (by simp), [], ∅, .created ha hfields rfl (by simp) hm, ?_, .rfl⟩
    rcases hc.memory with ⟨hmem, -⟩ | ⟨-, hmem, -⟩
    · exact absurd hmem hfresh
    · rw [hmem, Table.getElem?_insert, if_pos rfl]
  | @opened v sender doc filename content s' outs ha hfield ho hann =>
    obtain ⟨rfl, rfl⟩ := hinsert _ ho.clients
    have hbucket := (hwf.opens _ _ _ _ ha hfield).2
    obtain ⟨message, images, notice, image, others, rfl, hm, -⟩ := hann
    refine ⟨ha.operationOf (by simp), content.getD [], ?_⟩
    rcases ho.memory with ⟨symbols, hsym, rfl, hmem, -⟩ | ⟨-, rfl, hmem, -⟩
    · exact ⟨symbols, .opened ha hfield List.mem_cons_self hm, by rw [hmem, hsym],
        (hs.kept _ symbols hsym).store_values.symm⟩
    · obtain ⟨data, hdata⟩ := Table.exists_of_mem hbucket
      rw [hdata] at hm hmem ⊢
      exact ⟨_, .opened ha hfield List.mem_cons_self hm,
        by rw [hmem, Table.getElem?_insert, if_pos rfl], .rfl⟩
  | @closed v sender doc message filename s1 outs ha _ hl =>
    obtain ⟨workers, -, -, hcl, -⟩ := hl.maps
    refine absurd (hinsert (v := v) { sender with filename := [] } ?_).2.symm hf
    rw [Server.setWorker, hcl]
  | disconnected => exact (herase _ rfl).elim
  | left _ _ _ hl =>
    obtain ⟨workers, -, -, hcl, -⟩ := hl.maps
    exact (herase _ hcl).elim
  | saved _ hsaved => exact (hcongr hsaved.clients).elim

/-- Without an operation on the file, and with one, the map of a file that stays open. -/
theorem Effect.memory {i : Input} (he : Effect z i.driver s i.event s' outs) (hs : Files s)
    {symbols symbols' : SymbolMap} (hm : s.symbolsList[f]? = some symbols)
    (hm' : s'.symbolsList[f]? = some symbols') :
    symbols' = replayed symbols (operationOn z s i.event f).toList := by
  have hstep := he.fileStep (reads_any z) hs f
  rw [fileStore_some hm, fileStore_some hm'] at hstep
  rw [hstep.memory]
  cases operationOn z s i.event f <;> rfl

theorem replayed_equiv {a b : SymbolMap} (hab : a.Equiv b) (ops : List Operation) :
    (replayed a ops).Equiv (replayed b ops) := by
  induction ops generalizing a b with
  | nil => exact hab
  | cons op ops ih => exact ih (op.apply_equiv hab)

theorem replayed_append (symbols : SymbolMap) (ops ops' : List Operation) :
    replayed symbols (ops ++ ops') = replayed (replayed symbols ops) ops' :=
  List.foldl_append

theorem operationsOn_snoc (f : QString) (h : History) (e : Entry) :
    operationsOn z f (h ++ [e]) =
      operationsOn z f h ++ (operationOn z e.before e.input.event f).toList := by
  rw [operationsOn, List.filterMap_append]
  cases ho : operationOn z e.before e.input.event f <;> simp [operationsOn, ho]

/-- **Each event keeps a worker that stays joined.** -/
theorem Joined.step {i : Input} {earlier since : History} {opening : Entry}
    {snapshot : List Symbol} (hj : Joined z h s w f earlier opening snapshot since)
    (he : Effect z i.driver s i.event s' outs) (hs : Files s) (hw : FileOf s w f)
    (hopen : f ∈ s'.symbolsList) :
    Joined z (h ++ [⟨s, i, outs, s'⟩]) s' w f earlier opening snapshot
      (since ++ [⟨s, i, outs, s'⟩]) := by
  have hlist : (since ++ [(⟨s, i, outs, s'⟩ : Entry)]).flatMap (Server.learned z w) =
      since.flatMap (Server.learned z w) ++ (operationOn z s i.event f).toList := by
    rw [List.flatMap_append, List.flatMap_singleton, he.learned hs.registry hw]
  refine ⟨by simp [hj.history], hj.joins, hj.opening, fun e' he' => ?_, fun e' he' => ?_, ?_, ?_⟩
  · rcases List.mem_append.mp he' with he' | he'
    · exact hj.stays e' he'
    · obtain rfl := List.mem_singleton.mp he'
      exact hw
  · rcases List.mem_append.mp he' with he' | he'
    · exact hj.forwarded e' he'
    · obtain rfl := List.mem_singleton.mp he'
      exact he.forwarded hs.registry hw
  · rw [hlist, operationsOn_snoc, hj.learned]
  · obtain ⟨symbols, hm, heq⟩ := hj.current
    obtain ⟨symbols', hm'⟩ := Table.exists_of_mem hopen
    refine ⟨symbols', hm', ?_⟩
    rw [he.memory hs hm hm', hlist, replayed_append]
    exact replayed_equiv heq _

end Joined

section Runs

variable {z : Codec} {db : Database} {h : History} {s : Server}

/-- **Joining misses and repeats nothing.** In every run of well-formed sessions, for every worker
that has a file open. -/
theorem joined_of_run (hrun : ServerRun z db h s)
    (hw : ∀ e ∈ h, WellFormed e.before e.input) : ∀ w f, f ≠ [] → FileOf s w f →
      ∃ earlier opening snapshot since, Joined z h s w f earlier opening snapshot since := by
  suffices hall : Files s ∧ ∀ w f, f ≠ [] → FileOf s w f →
      ∃ earlier opening snapshot since, Joined z h s w f earlier opening snapshot since from hall.2
  refine hrun.invariant (I := fun h s => Files s ∧ ∀ w f, f ≠ [] → FileOf s w f →
      ∃ earlier opening snapshot since, Joined z h s w f earlier opening snapshot since) hw
    ⟨files_start db, fun w f _ hw => ?_⟩ fun h s i outs s' ⟨hs, hj⟩ hw hstep =>
      ⟨hs.step hstep.1 hw hstep.effect, fun w f hf hin => ?_⟩
  · obtain ⟨worker, hw, -⟩ := hw
    simp [Server.start] at hw
  · by_cases hold : FileOf s w f
    · obtain ⟨earlier, opening, snapshot, since, hjoined⟩ := hj w f hf hold
      have hopen := ((hs.step hstep.1 hw hstep.effect).isOpen_iff f).mp ⟨hf, w, hin⟩
      exact ⟨_, _, _, _, hjoined.step hstep.effect hs hold hopen⟩
    · obtain ⟨hnone, snapshot, symbols, hjoins, hm, heq⟩ :=
        hstep.effect.joins hs hw hf hold hin
      refine ⟨h, ⟨s, i, outs, s'⟩, snapshot, [], rfl, hjoins, ?_, by simp, by simp, rfl, symbols,
        hm, heq⟩
      exact operationPackets_eq_nil (hstep.effect.noOperation hnone)

/-- A user creates a file and writes; another one opens it, and both write. -/
theorem joined_of_run_second : ∃ h s, ServerRun .plain (.ofNames ["u", "v"]) h s ∧
    h.length = 9 ∧ ∃ earlier opening snapshot since,
      Joined .plain h s 1 (QString.of "f,u") earlier opening snapshot since := by
  obtain ⟨h, s, hrun, hP⟩ := exists_run .plain (.ofNames ["u", "v"])
    (inputs [.incomingConnection 0, .incomingConnection 1, .jsonReceived 0 (loginDoc "u"),
      .jsonReceived 1 (loginDoc "v"), .jsonReceived 0 (newFileDoc "f" "u"),
      .jsonReceived 0 (insertDoc "a" 1 1), .jsonReceived 1 (openDoc "f,u"),
      .jsonReceived 0 (insertDoc "b" 2 1), .jsonReceived 1 (insertDoc "c" 3 2)])
    (P := fun h s => h.length = 9 ∧ (h.all fun e => wellFormedCheck e.before e.input) ∧
      (s.clients[1]?).map ServerWorker.filename = some (QString.of "f,u"))
    (by decide +kernel)
  simp only [Bool.decide_and, Bool.and_eq_true, decide_eq_true_eq, List.all_eq_true] at hP
  obtain ⟨hlen, hcheck, hfile⟩ := hP
  obtain ⟨worker, hw, hf⟩ := Option.map_eq_some_iff.mp hfile
  exact ⟨h, s, hrun, hlen, joined_of_run hrun (fun e he => wellFormed_of_check (hcheck e he)) 1
    (QString.of "f,u") (by decide +kernel) ⟨worker, hw, hf⟩⟩

end Runs

end Scriba.Server
