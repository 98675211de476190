import Scriba.Server.Registry

/-! # Accounts and sessions

A worker logs in once, while no other worker has the username, and from then on the nickname is
not empty. The requests to change an account carry a username of their own, and nothing ties it to
the session; accounts are isolated as long as no request names another user. -/

namespace Scriba.Server

open Scriba.Utility Scriba.Lib

/-! ## What an event does to the users -/

section Users

variable {z : Codec} {d : Driver} {s s' : Server} {e : Event} {w : WorkerId}
  {sender : ServerWorker} {outs : List Output}

theorem Leaves.accounts {filename : QString} (h : Leaves z s w sender filename s' outs) :
    s'.clients = s.clients ∧ s'.db.users = s.db.users ∧ s'.db.images = s.db.images := by
  cases h with
  | last _ _ _ hsaved => exact ⟨hsaved.clients, hsaved.users, hsaved.images⟩
  | others => exact ⟨rfl, rfl, rfl⟩

/-- A request of a worker with a nickname to change a nickname. -/
def Renames (s : Server) (e : Event) (username nickname : QString) : Prop :=
  ∃ w sender doc, Asks s e w sender .nickname doc ∧
    updateNickFields doc = .ok (username, nickname)

/-- **What an event does to the users and their images.** -/
theorem Effect.accounts (h : Effect z d s e s' outs) :
    s'.db.users = s.db.users ∧ s'.db.images = s.db.images ∨
    (∃ db', Stores z s e db' ∧ s'.db.users = db'.users ∧ s'.db.images = db'.images) ∨
    ∃ username nickname, Renames s e username nickname ∧
      s'.db.users = s.db.users.modify username (.setNickname nickname) ∧
      s'.db.images = s.db.images := by
  cases h with
  | connected | answered | loggedIn | disconnected => exact .inl ⟨rfl, rfl⟩
  | stored _ hs => exact .inr (.inl ⟨_, hs, rfl, rfl⟩)
  | @renamed w sender doc username nickname db' outs ha hf hdb =>
    rcases hdb with rfl | rfl
    · exact .inl ⟨rfl, rfl⟩
    · exact .inr (.inr ⟨username, nickname, ⟨w, sender, doc, ha, hf⟩, rfl, rfl⟩)
  | operated _ hop => exact .inl ⟨by rw [hop.db], by rw [hop.db]⟩
  | created ha hf hgr hc =>
    obtain ⟨r, link, hnew, -⟩ := hgr
    rcases Mongo.newFile_db hnew with rfl | ⟨file, rfl⟩
    · exact .inl ⟨by rw [hc.db], by rw [hc.db]⟩
    · exact .inr (.inl ⟨_, .refused ha hf, by rw [hc.db], by rw [hc.db]⟩)
  | opened _ _ hopen => exact .inl ⟨by rw [hopen.db], by rw [hopen.db]⟩
  | closed _ _ hl | left _ _ _ hl => exact .inl hl.accounts.2
  | saved _ hs => exact .inl ⟨hs.users, hs.images⟩

end Users

/-! ## Sessions -/

/-- No user has an empty nickname. -/
def Database.Named (db : Database) : Prop :=
  ∀ (username : QString) (user : User), db.users[username]? = some user → user.nickname ≠ []

theorem signupNickname_ne_nil {username : QString} (h : username ≠ []) :
    signupNickname username ≠ [] := by
  unfold signupNickname
  dsimp only
  split <;> assumption

theorem Renames.nickname_ne_nil {s : Server} {e : Event} {username nickname : QString}
    (h : Renames s e username nickname) : nickname ≠ [] := by
  obtain ⟨w, sender, doc, -, hf⟩ := h
  obtain ⟨u, -, hf⟩ := bind_eq_ok.mp hf
  obtain ⟨n, hn, hf⟩ := bind_eq_ok.mp hf
  cases hf
  exact textField_ne_nil hn

section Named

variable {z : Codec} {d : Driver} {s s' : Server} {db : Database} {e : Event}
  {outs : List Output} {username : QString} {f : User → User}

theorem Database.Named.modify (h : db.Named) {users : Std.TreeMap QString User}
    (hu : users = db.users.modify username f) (hf : ∀ user, user.nickname ≠ [] →
      (f user).nickname ≠ []) (v : QString) (user : User) (hv : users[v]? = some user) :
    user.nickname ≠ [] := by
  rw [hu, Table.getElem?_modify] at hv
  split_ifs at hv
  · obtain ⟨user', hu', rfl⟩ := Option.map_eq_some_iff.mp hv
    exact hf user' (h _ _ hu')
  · exact h _ _ hv

theorem Stores.named (hs : Stores z s e db) (h : s.db.Named) : db.Named := by
  cases hs with
  | password => exact h.modify rfl fun _ hn => hn
  | shared =>
    refine h.modify rfl ?_
    intro user hn
    unfold User.addShared
    split <;> exact hn
  | refused => exact h.modify rfl fun _ hn => hn
  | @signedUp w sender doc rest hashed images hup hne =>
    intro v user hv
    rw [Table.getElem?_insert] at hv
    split_ifs at hv
    · cases hv
      exact signupNickname_ne_nil hne
    · exact h v user hv
  | image => exact h

/-- Every nickname that is stored is some nickname. -/
theorem Effect.named (he : Effect z d s e s' outs) (h : s.db.Named) : s'.db.Named := by
  rcases he.accounts with ⟨hu, -⟩ | ⟨db', hs, hu, -⟩ | ⟨username, nickname, hr, hu, -⟩
  · exact fun v user hv => h v user (hu ▸ hv)
  · exact fun v user hv => hs.named h v user (hu ▸ hv)
  · exact h.modify hu fun _ _ => hr.nickname_ne_nil

end Named

/-- The worker logs in: the database layer returns a success. -/
def LogsIn (s : Server) (i : Input) (w : WorkerId) (username nickname : QString) : Prop :=
  ∃ doc password, i.event = .jsonReceived w doc ∧ emailField doc = .ok username ∧
    passwordField doc = .ok password ∧
    Mongo.login i.driver s.db username password = (.success, nickname)

/-- The worker has logged in with that name, and is still the same connection. -/
def LoggedInBy (h : History) (w : WorkerId) (username : QString) : Prop :=
  ∃ a e b nickname, h = a ++ e :: b ∧ LogsIn e.before e.input w username nickname ∧
    ∀ e' ∈ b, e'.input.event ≠ .incomingConnection w

/-- Each worker is logged out, with both names empty, or logged in, with none of them empty; no two
workers are logged in with the same username. -/
structure Sessions (h : History) (s : Server) : Prop where
  session : ∀ w worker, s.clients[w]? = some worker →
    worker.username = [] ∧ worker.nickname = [] ∨
      worker.username ≠ [] ∧ worker.nickname ≠ [] ∧ LoggedInBy h w worker.username
  unique : ∀ (w v : WorkerId) (a b : ServerWorker), s.clients[w]? = some a →
    s.clients[v]? = some b → a.username ≠ [] → a.username = b.username → w = v

/-- **What an event does to a session.** The worker is new, or has the username it had and a
nickname if it had one, or logs in. -/
inductive SessionStep (s : Server) (i : Input) (v : WorkerId) (worker : ServerWorker) : Prop
  | connected : i.event = .incomingConnection v → worker = .fresh → SessionStep s i v worker
  | kept {old : ServerWorker} : s.clients[v]? = some old → worker.username = old.username →
      (worker.nickname = [] ↔ old.nickname = []) → i.event ≠ .incomingConnection v →
      SessionStep s i v worker
  | loggedIn {old : ServerWorker} : s.clients[v]? = some old → old.nickname = [] →
      worker.username ≠ [] → (∀ other ∈ s.clients.values, other.username ≠ worker.username) →
      LogsIn s i v worker.username worker.nickname → SessionStep s i v worker

section Sessions

variable {z : Codec} {d : Driver} {s s' : Server} {e : Event} {w v : WorkerId}
  {sender worker : ServerWorker} {outs : List Output} {h : History}

theorem Event.Possible.old (hp : e.Possible s) (hv : s.clients[v]? = some worker) :
    e ≠ .incomingConnection v := by
  rintro rfl
  exact hp (Table.mem_of_getElem? hv)

/-- A worker of which at most the file or the nickname changes. -/
theorem SessionStep.insert (new : ServerWorker) (hp : e.Possible s)
    (hw : s.clients[w]? = some sender) (hc : s'.clients = s.clients.insert w new)
    (hu : new.username = sender.username) (hn : new.nickname = [] ↔ sender.nickname = [])
    (hv : s'.clients[v]? = some worker) : SessionStep s ⟨e, d⟩ v worker := by
  rw [hc, Table.getElem?_insert] at hv
  split_ifs at hv with hvw
  · subst hvw
    cases hv
    exact .kept hw hu hn (hp.old hw)
  · exact .kept hv rfl Iff.rfl (hp.old hv)

theorem Effect.sessionStep (h : Effect z d s e s' outs) (hp : e.Possible s)
    (hv : s'.clients[v]? = some worker) : SessionStep s ⟨e, d⟩ v worker := by
  have hkept : s'.clients = s.clients → SessionStep s ⟨e, d⟩ v worker := fun hc =>
    .kept (hc ▸ hv) rfl Iff.rfl (hp.old (hc ▸ hv))
  have herased : ∀ w, s'.clients = s.clients.erase w → SessionStep s ⟨e, d⟩ v worker := by
    intro w hc
    rw [hc, Table.getElem?_erase] at hv
    split_ifs at hv
    exact .kept hv rfl Iff.rfl (hp.old hv)
  cases h with
  | @connected w he =>
    simp only [Server.setWorker, Table.getElem?_insert] at hv
    split_ifs at hv with hvw
    · cases hv
      exact .connected (hvw ▸ he) rfl
    · exact .kept hv rfl Iff.rfl (hp.old hv)
  | answered | stored => exact hkept rfl
  | @loggedIn w sender doc username password nickname outs he hw hn hu hpw hne hl =>
    simp only [Server.setWorker, Table.getElem?_insert] at hv
    split_ifs at hv with hvw
    · subst hvw
      cases hv
      exact .loggedIn hw hn (textField_ne_nil hu) hne ⟨doc, password, he, hu, hpw, hl⟩
    · exact .kept hv rfl Iff.rfl (hp.old hv)
  | @renamed w sender doc username nickname db' outs ha hf =>
    have hnick := Renames.nickname_ne_nil ⟨w, sender, doc, ha, hf⟩
    exact .insert { sender with nickname } hp ha.worker rfl rfl
      (iff_of_false hnick ha.nickname) hv
  | operated _ hop => exact hkept hop.clients
  | created ha _ _ hc => exact .insert _ hp ha.worker hc.clients rfl Iff.rfl hv
  | opened ha _ ho => exact .insert _ hp ha.worker ho.clients rfl Iff.rfl hv
  | @closed w sender doc message filename s1 outs ha _ hl =>
    have hc : (s1.setWorker w { sender with filename := [] }).clients =
        s.clients.insert w { sender with filename := [] } := by
      rw [Server.setWorker, hl.accounts.1]
    exact .insert _ hp ha.worker hc rfl Iff.rfl hv
  | disconnected => exact herased _ rfl
  | left _ _ _ hl => exact herased _ hl.accounts.1
  | saved _ hs => exact hkept hs.clients

theorem LoggedInBy.snoc {username : QString} (hl : LoggedInBy h w username) {entry : Entry}
    (he : entry.input.event ≠ .incomingConnection w) : LoggedInBy (h ++ [entry]) w username := by
  obtain ⟨a, e, b, nickname, rfl, hlog, hb⟩ := hl
  refine ⟨a, e, b ++ [entry], nickname, by simp, hlog, fun e' he' => ?_⟩
  rcases List.mem_append.mp he' with he' | he'
  · exact hb e' he'
  · rw [List.mem_singleton.mp he']
    exact he

/-- **Every event keeps the sessions.** -/
theorem Sessions.step (hs : Sessions h s) (hdb : s.db.Named) {i : Input} (hp : i.event.Possible s)
    (he : Effect z i.driver s i.event s' outs) : Sessions (h ++ [⟨s, i, outs, s'⟩]) s' := by
  constructor
  · intro w worker hw
    rcases he.sessionStep hp hw with ⟨-, rfl⟩ | ⟨hold, hu, hn, hne⟩ | ⟨hold, hn, hu, -, hlog⟩
    · exact .inl ⟨rfl, rfl⟩
    · rw [hu]
      rcases hs.session _ _ hold with ⟨hu', hn'⟩ | ⟨hu', hn', hl⟩
      · exact .inl ⟨hu', hn.mpr hn'⟩
      · exact .inr ⟨hu', mt hn.mp hn', hl.snoc hne⟩
    · refine .inr ⟨hu, ?_, h, _, [], _, rfl, hlog, nofun⟩
      obtain ⟨doc, password, -, -, -, hlogin⟩ := hlog
      obtain ⟨-, user, huser, -, hnick⟩ := Mongo.login_success_iff.mp hlogin
      rw [hnick]
      exact hdb _ _ huser
  · intro w v a b hw hv hne hab
    -- a worker that logs in takes a name that no other worker has
    have hnew : ∀ {w v : WorkerId} {a b old : ServerWorker}, s.clients[v]? = some old →
        b.username = old.username → (∀ other ∈ s.clients.values, other.username ≠ a.username) →
        a.username ≠ b.username := fun hold hu hall heq =>
      hall _ (Table.mem_values.mpr ⟨_, hold⟩) (hu.symm.trans heq.symm)
    have hevent : ∀ {u : WorkerId} {c : ServerWorker}, LogsIn s i u c.username c.nickname →
        ∃ doc, i.event = .jsonReceived u doc := fun ⟨doc, _, hev, _⟩ => ⟨doc, hev⟩
    rcases he.sessionStep hp hw with ⟨-, rfl⟩ | ⟨hw', hu, -, -⟩ | ⟨hw', -, -, hall, hlog⟩
    · exact absurd rfl hne
    · rcases he.sessionStep hp hv with ⟨-, rfl⟩ | ⟨hv', hu', -, -⟩ | ⟨hv', -, -, hall, hlog⟩
      · exact absurd hab hne
      · exact hs.unique w v _ _ hw' hv' (hu ▸ hne) (by rw [← hu, ← hu', hab])
      · exact absurd hab.symm (hnew (w := v) (v := w) hw' hu hall)
    · rcases he.sessionStep hp hv with ⟨-, rfl⟩ | ⟨hv', hu', -, -⟩ | ⟨hv', -, -, hall', hlog'⟩
      · exact absurd hab hne
      · exact absurd hab (hnew (w := w) hv' hu' hall)
      · obtain ⟨doc, hev⟩ := hevent hlog
        obtain ⟨doc', hev'⟩ := hevent hlog'
        cases hev.symm.trans hev'
        rfl

end Sessions

section Runs

variable {z : Codec} {db : Database} {h : History} {s : Server}

/-- **Session integrity.** In every run, from a database that has no empty nickname. -/
theorem session_integrity (hdb : db.Named) (hrun : ServerRun z db h s) :
    Sessions h s ∧ s.db.Named := by
  refine hrun.invariant (I := fun h s => Sessions h s ∧ s.db.Named) (P := fun _ => True)
    (fun _ _ => trivial) ⟨⟨?_, ?_⟩, hdb⟩ fun h s i outs s' ⟨hs, hn⟩ _ hstep =>
      ⟨hs.step hn hstep.1 hstep.effect, hstep.effect.named hn⟩
  · simp [Server.start]
  · simp [Server.start]

theorem named_of_all (h : db.users.toList.all fun (_, user) => user.nickname ≠ []) : db.Named := by
  intro username user hu
  simpa using List.all_eq_true.mp h (username, user) (Table.mem_toList.mpr hu)

/-- Two users log in, one of them after a login under the name of the other was refused; one takes
another nickname, the other leaves. -/
theorem session_integrity_two : ∃ h s, ServerRun .plain (.ofNames ["u", "v"]) h s ∧
    h.length = 7 ∧ Sessions h s ∧ s.db.Named := by
  obtain ⟨h, s, hrun, hP⟩ := exists_run .plain (.ofNames ["u", "v"])
    (inputs [.incomingConnection 0, .incomingConnection 1, .jsonReceived 0 (loginDoc "u"),
      .jsonReceived 1 (loginDoc "u"), .jsonReceived 1 (loginDoc "v"),
      .jsonReceived 0 (renameDoc "u" "n"), .userDisconnected 1])
    (P := fun h _ => h.length = 7)
    (by decide +kernel)
  exact ⟨h, s, hrun, by simpa using hP, session_integrity (named_of_all (by decide +kernel)) hrun⟩

end Runs

/-! ## Isolation -/

/-- What a user sees of the own account. -/
def User.account (user : User) : QString × List FileEntry × List SharedFile :=
  (user.nickname, user.files, user.sharedWithMe)

/-- The account of the user and the image are as they were. -/
structure Isolated (db db' : Database) (username : QString) : Prop where
  account : (db'.users[username]?).map User.account = (db.users[username]?).map User.account
  image : db'.images[imageKey username]? = db.images[imageKey username]?

/-- The worker that an event is a message of. -/
def Event.sender : Event → Option WorkerId
  | .jsonReceived w _ | .byteArrayReceived w _ | .userDisconnected w => some w
  | .incomingConnection _ | .timeout => none

/-- The event is a message of a worker that is logged in as the user. -/
def ByUser (s : Server) (e : Event) (username : QString) : Prop :=
  ∃ w worker, e.sender = some w ∧ s.clients[w]? = some worker ∧ worker.nickname ≠ [] ∧
    worker.username = username

/-- The message names a user, as whom its worker is not logged in: a nickname, a new file, or a
signup or an update that brings an image, under the name of the user or under one whose image is
kept in the same place. -/
inductive Trespass (z : Codec) (s : Server) (e : Event) : Prop
  | nickname {username nickname : QString} : Renames s e username nickname →
      username ∈ s.db.users → ¬ ByUser s e username → Trespass z s e
  | newFile {w : WorkerId} {sender : ServerWorker} {doc : QJsonObject}
      {username filename : QString} : Asks s e w sender .newFile doc →
      createNewFileFields doc = .ok (username, filename) → username ∈ s.db.users →
      ¬ ByUser s e username → Trespass z s e
  | image {w : WorkerId} {sender : ServerWorker} {request : ByteArrayRequest} {doc : QJsonObject}
      {rest : QByteArray} {username : QString} : Uploads z s e w sender request doc rest →
      (request = .updateImage ∨ request = .signup ∧ imageUsername doc ∉ s.db.users) →
      leadingSize rest ≠ 0 → username ∈ s.db.users →
      imageKey username = imageKey (imageUsername doc) → ¬ ByUser s e username → Trespass z s e

section Isolation

variable {z : Codec} {d : Driver} {s s' : Server} {db : Database} {e : Event}
  {outs : List Output} {username v : QString} {f : User → User}

theorem Isolated.congr {db' db'' : Database} (h : Isolated db db' v) (hu : db''.users = db'.users)
    (hi : db''.images = db'.images) : Isolated db db'' v :=
  ⟨by rw [hu, h.account], by rw [hi, h.image]⟩

/-- Another user, or a change that is not of the account. -/
theorem Isolated.updateUser (h : v = username → ∀ user, (f user).account = user.account) :
    Isolated db (db.updateUser username f) v := by
  refine ⟨?_, rfl⟩
  simp only [Database.updateUser, Table.getElem?_modify]
  split_ifs with hv
  · subst hv
    cases db.users[v]? with
    | none => rfl
    | some user => exact congrArg some (h rfl user)
  · rfl

theorem Isolated.insertImage {image : QByteArray} (h : imageKey v ≠ imageKey username) :
    Isolated db { db with images := db.images.insert (imageKey username) image } v :=
  ⟨rfl, by simp only [Table.getElem?_insert, if_neg h]⟩

theorem Asks.byUser {w : WorkerId} {sender : ServerWorker} {request : LoggedInRequest}
    {doc : QJsonObject} (h : Asks s e w sender request doc) : ByUser s e sender.username := by
  obtain ⟨rfl, hw, hn, -⟩ := h
  exact ⟨w, sender, rfl, hw, hn, rfl⟩

theorem Stores.isolated (hs : Stores z s e db) (ht : ¬ Trespass z s e) (hv : v ∈ s.db.users)
    (hby : ¬ ByUser s e v) : Isolated s.db db v := by
  cases hs with
  | password => exact .updateUser fun _ _ => rfl
  | shared ha =>
    refine .updateUser ?_
    rintro rfl
    exact absurd ha.byUser hby
  | refused ha hf =>
    refine .updateUser ?_
    rintro rfl
    exact absurd (.newFile ha hf hv hby) ht
  | @signedUp w sender doc rest hashed images hup _ hfresh himages =>
    have hne : v ≠ imageUsername doc := fun h => hfresh (h ▸ hv)
    refine ⟨by simp only [Table.getElem?_insert, if_neg hne], ?_⟩
    rcases himages with rfl | ⟨hsize, image, rfl⟩
    · rfl
    · have hkey : imageKey v ≠ imageKey (imageUsername doc) := fun h =>
        ht (.image hup (.inr ⟨rfl, hfresh⟩) hsize hv h hby)
      simp only [Table.getElem?_insert, if_neg hkey]
  | image hup hr hsize => exact .insertImage fun h => ht (.image hup hr hsize hv h hby)

/-- **An event without a trespass changes only the account of its sender.** -/
theorem Effect.isolated (he : Effect z d s e s' outs) (ht : ¬ Trespass z s e)
    (hv : v ∈ s.db.users) (hby : ¬ ByUser s e v) : Isolated s.db s'.db v := by
  rcases he.accounts with ⟨hu, hi⟩ | ⟨db', hs, hu, hi⟩ | ⟨username, nickname, hr, hu, hi⟩
  · exact ⟨by rw [hu], by rw [hi]⟩
  · exact (hs.isolated ht hv hby).congr hu hi
  · have hset : Isolated s.db (s.db.updateUser username (.setNickname nickname)) v := by
      refine .updateUser ?_
      rintro rfl
      exact absurd (.nickname hr hv hby) ht
    exact hset.congr hu hi

/-- **Account isolation.** In every run of messages that do not trespass, for each of its steps: an
account changes only with a message of a worker that is logged in as its user. -/
theorem accounts_isolated {h : History} (hrun : ServerRun z db h s)
    (ho : ∀ e ∈ h, ¬ Trespass z e.before e.input.event) : ∀ e ∈ h, ∀ v ∈ e.before.db.users,
      ¬ ByUser e.before e.input.event v → Isolated e.before.db e.after.db v := fun e he _ hv hby =>
  (hrun.entry he).1.effect.isolated (ho e he) hv hby

/-- A message, other than an array of bytes, that names its sender if it names a user. -/
def namesOwn (s : Server) (e : Event) : Bool :=
  (match e with
    | .byteArrayReceived _ _ => false
    | _ => true) &&
  onRequest s e .nickname (fun sender doc =>
    match updateNickFields doc with
    | .ok (username, _) => username = sender.username
    | .error _ => true) &&
  onRequest s e .newFile fun sender doc =>
    match createNewFileFields doc with
    | .ok (username, _) => username = sender.username
    | .error _ => true

theorem not_trespass_of_check (h : namesOwn s e = true) : ¬ Trespass z s e := by
  unfold namesOwn at h
  rw [Bool.and_eq_true, Bool.and_eq_true] at h
  obtain ⟨⟨hbytes, hnick⟩, hnew⟩ := h
  intro hor
  rcases hor with ⟨⟨w, sender, doc, ha, hf⟩, -, hby⟩ | ⟨ha, hf, -, hby⟩ | ⟨hup⟩
  · have hu := ha.of_onRequest hnick
    simp only [hf, decide_eq_true_eq] at hu
    exact hby (hu ▸ ha.byUser)
  · have hu := ha.of_onRequest hnew
    simp only [hf, decide_eq_true_eq] at hu
    exact hby (hu ▸ ha.byUser)
  · obtain ⟨data, rfl, -⟩ := hup.event
    cases hbytes

/-- A user takes another nickname and creates a file while another one is logged in. -/
theorem accounts_isolated_two : ∃ h s, ServerRun .plain (.ofNames ["u", "v"]) h s ∧
    h.length = 6 ∧ ∀ e ∈ h, ∀ v ∈ e.before.db.users, ¬ ByUser e.before e.input.event v →
      Isolated e.before.db e.after.db v := by
  obtain ⟨h, s, hrun, hP⟩ := exists_run .plain (.ofNames ["u", "v"])
    (inputs [.incomingConnection 0, .incomingConnection 1, .jsonReceived 0 (loginDoc "u"),
      .jsonReceived 1 (loginDoc "v"), .jsonReceived 0 (renameDoc "u" "n"),
      .jsonReceived 0 (object [("type", text "new_file"), ("author", text "u"),
        ("filename", text "f")])])
    (P := fun h _ => h.length = 6 ∧ h.all fun e => namesOwn e.before e.input.event)
    (by decide +kernel)
  simp only [Bool.decide_and, Bool.and_eq_true, decide_eq_true_eq, List.all_eq_true] at hP
  exact ⟨h, s, hrun, hP.1, accounts_isolated hrun fun e he => not_trespass_of_check (hP.2 e he)⟩

/-- **A user can change the nickname of another.** -/
theorem not_isolated_nickname : ¬ ∀ z db h s, ServerRun z db h s →
    ∀ e ∈ h, ∀ v ∈ e.before.db.users, ¬ ByUser e.before e.input.event v →
      Isolated e.before.db e.after.db v := by
  intro hall
  obtain ⟨h, s, hrun, hP⟩ := exists_run .plain (.ofNames ["u", "v"])
    (inputs [.incomingConnection 0, .jsonReceived 0 (loginDoc "v"),
      .jsonReceived 0 (renameDoc "u" "n")])
    (P := fun h _ => (h.getLast?).any fun e =>
      e.input.event.sender = some 0 ∧
      (e.before.clients[0]?).map ServerWorker.username = some (QString.of "v") ∧
      ((e.before.db.users[QString.of "u"]?).map User.nickname = some (QString.of "u") ∧
      (e.after.db.users[QString.of "u"]?).map User.nickname = some (QString.of "n")))
    (by decide +kernel)
  obtain ⟨e, hlast, hP⟩ := (Option.any_eq_true _ _).mp hP
  simp only [Bool.decide_and, Bool.and_eq_true, decide_eq_true_eq] at hP
  obtain ⟨hsender, hw, hold, hnew⟩ := hP
  obtain ⟨user, hu, hn⟩ := Option.map_eq_some_iff.mp hold
  obtain ⟨user', hu', hn'⟩ := Option.map_eq_some_iff.mp hnew
  have hother : ¬ ByUser e.before e.input.event (QString.of "u") := by
    intro hex
    obtain ⟨w, worker, hs, hw', -, hname⟩ := hex
    cases hsender.symm.trans hs
    rw [hw', Option.map_some, hname] at hw
    exact absurd hw (by decide +kernel)
  have haccount := (hall _ _ h s hrun e (List.mem_of_getLast? hlast) _
    (Table.mem_of_getElem? hu) hother).account
  rw [hu, hu', Option.map_some, Option.map_some, Option.some.injEq] at haccount
  have hnick := congrArg Prod.fst haccount
  simp only [User.account, hn, hn'] at hnick
  exact absurd hnick (by decide +kernel)

end Isolation

end Scriba.Server
