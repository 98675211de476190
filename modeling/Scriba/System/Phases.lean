import Scriba.System.Serving
import Scriba.System.Visits

/-! # The phases of a client

Which files a client has asked for, left and opened shows in the requests and packets that are
under way. In a run as it is considered here a client chooses one of some documents, it edits, no
operation reaches it while it has no file open, and what is sent of a file can be read and loaded
(`Considered`). Client and server then agree at each moment on the file that the client has
(`Sound`). -/

namespace Scriba.System

open Scriba.Utility Scriba.Client Scriba.Server Scriba.Lib

/-! ## Runs -/

/-- No symbol that is inserted has the position of one that was there before. -/
def Unused (xs : List Symbol) (ms : List Message) (m : Message) : Prop :=
  ∀ s ∈ m.inserted, s.position ∉ xs.map Symbol.position ∧
    ∀ n ∈ ms, s.position ∉ n.inserted.map Symbol.position

/-- The actions of the runs that are considered. -/
def Considered (z : Codec) (toJson : QJsonObject → QByteArray) (documents : QString → Option Lines)
    (D : Deployment) : Action → Prop
  | .perform w op => op.IsEdit ∧ op.Legal (D.site w).crdt.symbols ∧
    ∀ f crdt m, (D.site w).page = .editor f → op.perform (D.site w).crdt = .ok (crdt, m) →
      (∀ r ∈ carried m, r.InRange) ∧ Legible z toJson (D.site w).crdt.siteId m ∧
      ∀ ls, documents f = some ls → Unused ls.flatten (D.sent f) m
  | .choose _ f => ∃ ls, documents f = some ls
  | .ask _ doc => ∃ request ∈ askedRequests, LoggedInRequest.of doc = some request
  | .deliver w => ∀ packet rest members signals, D.down w = packet :: rest →
    received z toJson (D.site w).members packet = .ok (members, signals) →
    ((∃ f, (D.site w).page = .editor f) ∧ ∀ m ∈ signals.operations, AsMeant (D.site w).crdt m) ∨
      signals.opened = true ∨ signals.operations = []
  | .process w d => ∀ f rest server outs, D.up w = .openFile f :: rest →
    D.server.handle z d (.jsonReceived w (openFileMessage f)) = .ok (server, outs) →
    (∀ o ∈ outs, Readable z toJson o.packet) ∧
      ∀ symbols : SymbolMap, server.symbolsList[f]? = some symbols → Loadable symbols.values
  | .moveCursor .. | .exit _ | .disconnect .. | .timeout _ => True

/-- A step of such a run. -/
def Works (z : Codec) (toJson : QJsonObject → QByteArray) (documents : QString → Option Lines)
    (D D' : Deployment) : Prop :=
  ∃ a, Considered z toJson documents D a ∧ D.step z toJson a = some D'

/-! ## Requests under way -/

/-- The request is about no file. -/
def Request.Idle : Request → Prop
  | .cursor _ | .ask _ => True
  | _ => False

/-- The request leaves the worker at its file. -/
def Request.Stays : Request → Prop
  | .operation .. | .cursor _ | .ask _ => True
  | _ => False

theorem Request.Idle.stays {r : Request} (h : r.Idle) : r.Stays := by
  cases r with
  | cursor | ask => trivial
  | operation | openFile | closeFile => exact h.elim

/-- The request is one that a client makes. -/
def Made (z : Codec) (toJson : QJsonObject → QByteArray) : Request → Prop
  | .operation siteId m => heard m = [m] ∧ (∀ r ∈ carried m, r.InRange) ∧ Legible z toJson siteId m
  | .cursor message => ∃ siteId r, message = symbolMessage siteId .cursor r
  | .ask doc => ∃ request ∈ askedRequests, LoggedInRequest.of doc = some request
  | .openFile _ | .closeFile .. => True

/-- The worker has the file, and none after the requests. -/
inductive Settles : QString → List Request → Prop
  | nil : Settles [] []
  | stay {f : QString} {r : Request} {up : List Request} : r.Stays → Settles f up →
      Settles f (r :: up)
  | close {f openfile username nickname : QString} {up : List Request} : f ≠ [] →
      closeFileField (closeFileMessage openfile username nickname) = .ok f → Settles [] up →
      Settles f (.closeFile openfile username nickname :: up)

section Settles

variable {f : QString} {r : Request} {up : List Request}

theorem Settles.append_stay (h : Settles f up) (hr : r.Stays) : Settles f (up ++ [r]) := by
  induction h with
  | nil => exact .stay hr .nil
  | stay hs _ ih => exact .stay hs ih
  | close hne hf _ ih => exact .close hne hf ih

theorem settles_close {openfile username nickname : QString} (hf : f ≠ [])
    (hfield : closeFileField (closeFileMessage openfile username nickname) = .ok f)
    (h : ∀ r ∈ up, r.Stays) : Settles f (up ++ [.closeFile openfile username nickname]) := by
  induction up with
  | nil => exact .close hf hfield .nil
  | cons r up ih => exact .stay (h r (by simp)) (ih fun r' hr => h r' (by simp [hr]))

end Settles

/-! ## Phases -/

/-- The packets bring operations or nothing. -/
def Plain (z : Codec) (toJson : QJsonObject → QByteArray) (ps : List Packet) : Prop :=
  ∀ packet ∈ ps, ∃ o, Brings z toJson packet o

/-- `CRDT::clear` was called. -/
def Site.Cleared (site : Site) : Prop := site.crdt = CRDT.clear site.crdt.siteId

/-- What the client shows, the requests and the packets under way and the file that the server has
for it go together. -/
inductive Phase (z : Codec) (toJson : QJsonObject → QByteArray)
    (documents : QString → Option Lines) (g : QString) (site : Site) (up : List Request)
    (down : List Packet) : Prop
  | home : site.page = .home → site.Cleared → Settles g up → Plain z toJson down →
      Phase z toJson documents g site up down
  | asking {f : QString} {a b : List Request} : site.page = .awaiting f →
      (∃ ls, documents f = some ls) → site.Cleared → up = a ++ .openFile f :: b → Settles g a →
      (∀ r ∈ b, r.Idle) → Plain z toJson down → Phase z toJson documents g site up down
  | answered {vec : List Symbol} {pre post : List Packet} {reply : Packet} :
      site.page = .awaiting g → (∃ ls, documents g = some ls) → site.Cleared →
      (∀ r ∈ up, r.Idle) → down = pre ++ reply :: post → Plain z toJson pre →
      Plain z toJson post → Replies z toJson reply g vec →
      Phase z toJson documents g site up down
  | editing : site.page = .editor g → (∃ ls, documents g = some ls) →
      site.members.state.openfile = g → (∀ r ∈ up, r.Stays) → Plain z toJson down →
      Phase z toJson documents g site up down
  | gone : site.page = .gone → up = [] → Phase z toJson documents g site up down

section Phase

variable {z : Codec} {toJson : QJsonObject → QByteArray} {documents : QString → Option Lines}
  {f g : QString} {site : Site} {up rest : List Request} {down ps qs : List Packet} {r : Request}

theorem Plain.append (h : Plain z toJson ps) (h' : Plain z toJson qs) :
    Plain z toJson (ps ++ qs) := List.forall_mem_append.mpr ⟨h, h'⟩

theorem Plain.of_none (h : ∀ packet ∈ ps, Brings z toJson packet none) : Plain z toJson ps :=
  fun packet hp => ⟨none, h packet hp⟩

theorem plain_nil : Plain z toJson [] := by
  intro packet hp
  cases hp

theorem Bring.plain {ms : List Message} (h : Bring z toJson ps ms) : Plain z toJson ps :=
  fun _ hp => h.brings hp

/-- More packets that are plain change nothing. -/
theorem Phase.more (h : Phase z toJson documents g site up down) (hp : Plain z toJson ps) :
    Phase z toJson documents g site up (down ++ ps) := by
  cases h with
  | home hpage hclear hs hd => exact .home hpage hclear hs (hd.append hp)
  | asking hpage hdoc hclear hup ha hb hd =>
    exact .asking hpage hdoc hclear hup ha hb (hd.append hp)
  | answered hpage hdoc hclear hup hd hpre hpost hr =>
    exact .answered hpage hdoc hclear hup (by rw [hd, List.append_assoc]; rfl) hpre
      (hpost.append hp) hr
  | editing hpage hdoc ho hup hd => exact .editing hpage hdoc ho hup (hd.append hp)
  | gone hpage hup => exact .gone hpage hup

/-- Nor does a request that is about no file. -/
theorem Phase.send_idle (h : Phase z toJson documents g site up down) (hr : r.Idle)
    (hpage : site.page ≠ .gone) : Phase z toJson documents g site (up ++ [r]) down := by
  have hall : ∀ {l : List Request}, (∀ r ∈ l, r.Idle) → ∀ x ∈ l ++ [r], x.Idle := fun hl =>
    List.forall_mem_append.mpr ⟨hl, by simpa using hr⟩
  cases h with
  | home hpage hclear hs hd => exact .home hpage hclear (hs.append_stay hr.stays) hd
  | asking hpage hdoc hclear hup ha hb hd =>
    exact .asking hpage hdoc hclear (by rw [hup, List.append_assoc]; rfl) ha (hall hb) hd
  | answered hpage hdoc hclear hup hd hpre hpost hr =>
    exact .answered hpage hdoc hclear (hall hup) hd hpre hpost hr
  | editing hpage hdoc ho hup hd =>
    exact .editing hpage hdoc ho (List.forall_mem_append.mpr ⟨hup, by simpa using hr.stays⟩) hd
  | gone hgone => exact absurd hgone hpage

/-- The server takes a request that leaves the worker at its file. -/
theorem Phase.take_stays (h : Phase z toJson documents g site (r :: rest) down) (hr : r.Stays) :
    Phase z toJson documents g site rest down := by
  cases h with
  | home hpage hclear hs hd =>
    cases hs with
    | stay _ hs => exact .home hpage hclear hs hd
    | close => exact hr.elim
  | @asking f a b hpage hdoc hclear hup ha hb hd =>
    cases a with
    | nil =>
      obtain ⟨rfl, -⟩ := List.cons.inj hup
      exact hr.elim
    | cons r' a =>
      obtain ⟨rfl, hrest⟩ := List.cons.inj hup
      cases ha with
      | stay _ ha => exact .asking hpage hdoc hclear hrest ha hb hd
      | close => exact hr.elim
  | answered hpage hdoc hclear hup hd hpre hpost hreply =>
    exact .answered hpage hdoc hclear (fun r hr => hup r (List.mem_cons_of_mem _ hr)) hd hpre
      hpost hreply
  | editing hpage hdoc ho hup hd =>
    exact .editing hpage hdoc ho (fun r hr => hup r (List.mem_cons_of_mem _ hr)) hd
  | gone _ hup => cases hup

/-- The server takes a request to close the file. -/
theorem Phase.take_close {openfile username nickname : QString}
    (h : Phase z toJson documents g site (.closeFile openfile username nickname :: rest) down) :
    g ≠ [] ∧ closeFileField (closeFileMessage openfile username nickname) = .ok g ∧
      Phase z toJson documents [] site rest down := by
  cases h with
  | home hpage hclear hs hd =>
    cases hs with
    | stay hr => exact hr.elim
    | close hne hf hs => exact ⟨hne, hf, .home hpage hclear hs hd⟩
  | @asking f a b hpage hdoc hclear hup ha hb hd =>
    cases a with
    | nil => cases hup
    | cons r' a =>
      obtain ⟨rfl, hrest⟩ := List.cons.inj hup
      cases ha with
      | stay hr => exact hr.elim
      | close hne hf ha => exact ⟨hne, hf, .asking hpage hdoc hclear hrest ha hb hd⟩
  | answered _ _ _ hup => exact (hup _ List.mem_cons_self).elim
  | editing _ _ _ hup => exact (hup _ List.mem_cons_self).elim
  | gone _ hup => cases hup

/-- The server takes a request to open a file, and replies. -/
theorem Phase.take_open (h : Phase z toJson documents g site (.openFile f :: rest) down) :
    g = [] ∧ (∃ ls, documents f = some ls) ∧ (∀ r ∈ rest, r.Idle) ∧
      site.page = .awaiting f ∧ Plain z toJson down ∧ ∀ reply vec, Replies z toJson reply f vec →
        Phase z toJson documents f site rest (down ++ [reply]) := by
  cases h with
  | home _ _ hs =>
    cases hs with
    | stay hr => exact hr.elim
  | @asking f' a b hpage hdoc hclear hup ha hb hd =>
    cases a with
    | nil =>
      cases ha
      cases hup
      exact ⟨rfl, hdoc, hb, hpage, hd, fun reply vec hr =>
        .answered hpage hdoc hclear hb rfl hd plain_nil hr⟩
    | cons r' a =>
      obtain ⟨rfl, hrest⟩ := List.cons.inj hup
      cases ha with
      | stay hr => exact hr.elim
  | answered _ _ _ hup => exact (hup _ List.mem_cons_self).elim
  | editing _ _ _ hup => exact (hup _ List.mem_cons_self).elim
  | gone _ hup => cases hup

/-- Only the reply opens the file. -/
theorem Replies.not_brings {packet : Packet} {vec : List Symbol} {o : Option Message}
    (h : Replies z toJson packet f vec) (c : Members) : ¬ Brings z toJson packet o := by
  intro hb
  obtain ⟨sharedLink, h⟩ := h
  obtain ⟨users, hrec⟩ := h c
  obtain ⟨files, signals, hrec', -, hopened, -⟩ := hb c
  obtain ⟨-, rfl⟩ := Prod.mk.inj (Except.ok.inj (hrec.symm.trans hrec'))
  simp [Signals.opened] at hopened

/-- The first packet brings no file, or it is the reply that the client awaits, and opens it. -/
theorem Phase.first {packet : Packet} (h : Phase z toJson documents g site up (packet :: ps))
    (hpage : site.page ≠ .gone) : (∃ o, Brings z toJson packet o) ∨
      ∃ vec, site.page = .awaiting g ∧ site.Cleared ∧ Replies z toJson packet g vec ∧
        ∀ (crdt : CRDT) (members : Members), members.state.openfile = g →
          Phase z toJson documents g ⟨crdt, members, .editor g⟩ up ps := by
  cases h with
  | home _ _ _ hd => exact .inl (List.forall_mem_cons.mp hd).1
  | asking _ _ _ _ _ _ hd => exact .inl (List.forall_mem_cons.mp hd).1
  | @answered vec pre post reply hawait hdoc hclear hup hd hpre hpost hr =>
    cases pre with
    | nil =>
      obtain ⟨rfl, rfl⟩ := List.cons.inj hd
      exact .inr ⟨vec, hawait, hclear, hr, fun crdt members hopen =>
        .editing rfl hdoc hopen (fun r hr => (hup r hr).stays) hpost⟩
    | cons p pre =>
      obtain ⟨rfl, -⟩ := List.cons.inj hd
      exact .inl (List.forall_mem_cons.mp hpre).1
  | editing _ _ _ _ hd => exact .inl (List.forall_mem_cons.mp hd).1
  | gone hgone => exact absurd hgone hpage

/-- The client takes a packet without a file. Only in the editor does its replica change. -/
theorem Phase.take_brings {packet : Packet} {o : Option Message} {crdt : CRDT}
    {files : List (QString × QString)} (h : Phase z toJson documents g site up (packet :: ps))
    (hb : Brings z toJson packet o) (hcrdt : (∃ f, site.page = .editor f) ∨ crdt = site.crdt) :
    Phase z toJson documents g ⟨crdt, { site.members with files }, site.page⟩ up ps := by
  have hkept : (∀ f, site.page ≠ .editor f) → site.Cleared →
      (⟨crdt, { site.members with files }, site.page⟩ : Site).Cleared := fun hne hclear => by
    rwa [Site.Cleared, hcrdt.resolve_left fun ⟨f, hf⟩ => hne f hf]
  cases h with
  | home hpage hclear hs hd =>
    exact .home hpage (hkept (by simp [hpage]) hclear) hs (List.forall_mem_cons.mp hd).2
  | asking hpage hdoc hclear hup ha hidle hd =>
    exact .asking hpage hdoc (hkept (by simp [hpage]) hclear) hup ha hidle
      (List.forall_mem_cons.mp hd).2
  | @answered vec pre post reply hpage hdoc hclear hup hd hpre hpost hr =>
    cases pre with
    | nil =>
      obtain ⟨rfl, -⟩ := List.cons.inj hd
      exact absurd hb (hr.not_brings site.members)
    | cons p pre =>
      obtain ⟨rfl, hrest⟩ := List.cons.inj hd
      exact .answered hpage hdoc (hkept (by simp [hpage]) hclear) hup hrest
        (List.forall_mem_cons.mp hpre).2 hpost hr
  | editing hpage hdoc hopen hstays hd =>
    exact .editing hpage hdoc hopen hstays (List.forall_mem_cons.mp hd).2
  | gone hpage hup => exact .gone hpage hup

/-- Who has the file open, or is about to, has it at the server. -/
theorem Phase.file_eq (h : Phase z toJson documents g site up down)
    (hf : site.page = .editor f ∨ site.page = .awaiting f ∧
      ∃ packet ∈ down, ∃ vec, Replies z toJson packet f vec) : g = f := by
  cases h with
  | home hpage => simp [hpage] at hf
  | @asking f' a b hpage _ _ _ _ _ hd =>
    rcases hf with hf | ⟨-, packet, hp, vec, hr⟩
    · simp [hpage] at hf
    · obtain ⟨o, ho⟩ := hd packet hp
      exact absurd ho (hr.not_brings site.members)
  | answered hpage =>
    rcases hf with hf | ⟨hf, -⟩
    · simp [hpage] at hf
    · simpa [hpage] using hf
  | editing hpage => simpa [hpage] using hf
  | gone hpage => simp [hpage] at hf

end Phase

/-! ## Client and server -/

/-- The documents, each under a name that the server finds it by. -/
structure Documented (documents : QString → Option Lines) : Prop where
  valid : ∀ f ls, documents f = some ls → ValidDocument ls
  named : ∀ f ls, documents f = some ls → f ≠ [] ∧ f.simplified = f

/-- The user has a name and a nickname. -/
def Named (site : Site) : Prop :=
  site.members.state.username.simplified ≠ [] ∧ site.members.state.nickname.simplified ≠ []

/-- What holds throughout a run. -/
structure Sound (z : Codec) (toJson : QJsonObject → QByteArray)
    (documents : QString → Option Lines) (D : Deployment) : Prop where
  files : Files D.server
  written : ∀ f ls, documents f = some ls → Written z D.server.db f
  named : ∀ w, Named (D.site w)
  made : ∀ w, ∀ r ∈ D.up w, Made z toJson r
  loggedIn : ∀ w, (D.site w).page ≠ .gone → LoggedIn D.server w (fileOf D.server w)
  phase : ∀ w, Phase z toJson documents (fileOf D.server w) (D.site w) (D.up w) (D.down w)

/-- Apart from one client, not more than plain packets have come. -/
structure Apart (z : Codec) (toJson : QJsonObject → QByteArray) (w : WorkerId)
    (D D' : Deployment) : Prop where
  site : ∀ v, v ≠ w → D'.site v = D.site v
  up : ∀ v, v ≠ w → D'.up v = D.up v
  workers : ∀ v, v ≠ w → D'.server.clients[v]? = D.server.clients[v]?
  down : ∀ v, v ≠ w → (D.site v).page ≠ .gone →
    ∃ ps, D'.down v = D.down v ++ ps ∧ Plain z toJson ps

section Sound

variable {z : Codec} {toJson : QJsonObject → QByteArray} {documents : QString → Option Lines}
  {D D' : Deployment} {w : WorkerId}

/-- **One client at a time.** -/
theorem Sound.of_apart (h : Sound z toJson documents D) (ha : Apart z toJson w D D')
    (hfiles : Files D'.server)
    (hwritten : ∀ f, Written z D.server.db f → Written z D'.server.db f)
    (hnamed : Named (D'.site w)) (hmade : ∀ r ∈ D'.up w, Made z toJson r)
    (hlog : (D'.site w).page ≠ .gone → LoggedIn D'.server w (fileOf D'.server w))
    (hphase : Phase z toJson documents (fileOf D'.server w) (D'.site w) (D'.up w) (D'.down w)) :
    Sound z toJson documents D' := by
  refine ⟨hfiles, fun f ls hf => hwritten f (h.written f ls hf), fun v => ?_, fun v => ?_,
    fun v hv => ?_, fun v => ?_⟩
  all_goals by_cases hvw : v = w
  · exact hvw ▸ hnamed
  · exact ha.site v hvw ▸ h.named v
  · exact hvw ▸ hmade
  · exact ha.up v hvw ▸ h.made v
  · subst hvw
    exact hlog hv
  · rw [fileOf_congr (ha.workers v hvw)]
    exact (h.loggedIn v (ha.site v hvw ▸ hv)).congr (ha.workers v hvw)
  · subst hvw
    exact hphase
  · rw [fileOf_congr (ha.workers v hvw), ha.site v hvw, ha.up v hvw]
    by_cases hgone : (D.site v).page = .gone
    · cases h.phase v with
      | gone hpage hup => exact .gone hpage hup
      | home hpage | asking hpage | answered hpage | editing hpage =>
        rw [hpage] at hgone
        cases hgone
    · obtain ⟨ps, hps, hplain⟩ := ha.down v hvw hgone
      rw [hps]
      exact (h.phase v).more hplain

/-- A client step: nothing comes to the others. -/
theorem Apart.of_server (hserver : D'.server = D.server)
    (hsite : ∀ v, v ≠ w → D'.site v = D.site v) (hup : ∀ v, v ≠ w → D'.up v = D.up v)
    (hdown : ∀ v, v ≠ w → D'.down v = D.down v) : Apart z toJson w D D' :=
  ⟨hsite, hup, fun _ _ => by rw [hserver], fun v hv _ =>
    ⟨[], by rw [hdown v hv, List.append_nil], plain_nil⟩⟩

/-- What the server does comes to the others as plain packets. -/
theorem Apart.of_serves {o : Option Message} {outs : List Output}
    (h : Sound z toJson documents D) (hserves : Serves z toJson D.server w o D'.server outs)
    (hsite : ∀ v, v ≠ w → D'.site v = D.site v) (hup : ∀ v, v ≠ w → D'.up v = D.up v)
    (hdown : ∀ v, v ≠ w → D'.down v = D.down v ++ addressed outs v) : Apart z toJson w D D' :=
  ⟨hsite, hup, hserves.workers, fun v hv hpage =>
    ⟨_, hdown v hv, (hserves.others v hv (h.loggedIn v hpage).mem).plain⟩⟩

end Sound

end Scriba.System
