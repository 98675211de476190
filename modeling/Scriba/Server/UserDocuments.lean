import Scriba.Lib.Collection
import Scriba.Server.Registry

/-! # User documents

The collection of the users as `Server/mongo.cpp` finds it: a list of documents, in which nothing
but the queries keeps names and links apart. A signup, a new file and a link that is resolved are
transactions on it; what `find_one_and_update` sets there is a lock that nothing reads. After a
result other than a success, nobody reads the text that comes with it. -/

namespace Scriba.Server

open Scriba.Utility Scriba.Lib Scriba.Lib.Collection

/-! ## Documents -/

structure UserDocument extends User where
  username : QString
deriving DecidableEq

namespace UserDocument

def pushFile (file : FileEntry) (user : UserDocument) : UserDocument :=
  { user with files := push file user.files }

def addShared (file : SharedFile) (user : UserDocument) : UserDocument :=
  { user with sharedWithMe := addToSet file user.sharedWithMe }

def links (user : UserDocument) : List QString := user.files.map FileEntry.link

end UserDocument

/-- The documents of `editor.users`. -/
abbrev Users := List UserDocument

theorem addShared_toUser {file : SharedFile} {user : UserDocument} :
    (user.addShared file).toUser = user.toUser.addShared file := by
  unfold UserDocument.addShared User.addShared addToSet
  split_ifs <;> rfl

namespace Users

/-! ## Transactions -/

/-- The `try` of a session, with the state after it. Its body either returns or leaves some state
when a call throws; the handler then aborts. -/
def transaction {α σ : Type} (d : Driver) (queryError : α) (start : σ) (body : Except σ (α × σ)) :
    Except Fault α × σ :=
  if d.fails .startSession then (.error .exception, start)
  else match body with
    | .ok (result, s) => (.ok result, s)
    | .error s => (if d.fails .abort then .error .exception else .ok queryError, s)

/-- `commit_transaction` and the result after it. -/
def commit {α σ : Type} (d : Driver) (s s' : σ) (success : α) : Except σ (α × σ) :=
  if d.fails .commit then .error (if d.committed then s' else s) else .ok (success, s')

/-! ## Calls -/

def named (username : QString) (user : UserDocument) : Bool := user.username = username

/-- `$elemMatch` of the name. -/
def hasFile (filename : QString) (user : UserDocument) : Bool :=
  user.files.any (·.name = filename)

/-- `$elemMatch` of the link. -/
def hasLink (link : QString) (user : UserDocument) : Bool := user.files.any (·.link = link)

def signup (d : Driver) (users : Users) (username password : QString) :
    Except Fault DatabaseError × Users :=
  transaction d .queryError users <|
    if d.fails .find then .error users
    else if (findOne (named username) users).isSome then .ok (.alreadyExistingUser, users)
    else match d.hash password with
      | none => .ok (.cryptoError, users)
      | some hashed =>
        if d.fails .update then .error users
        else
          let user := ⟨⟨signupNickname username, hashed, [], []⟩, username⟩
          commit d users (users ++ [user]) .success

/-- The result and the shared link, the first one drawn that no file has. -/
def newFile (d : Driver) (users : Users) (username filename : QString) :
    Except Fault (DatabaseError × QString) × Users :=
  transaction d (.queryError, []) users <|
    if d.fails .find then .error users
    else if (findOne (named username) users).isNone then .ok ((.nonExistingUser, []), users)
    else if d.fails .findFile then .error users
    else if (findOne (fun user => named username user && hasFile filename user) users).isSome then
      .ok ((.alreadyExistingFile, []), users)
    else match d.draws.find? fun link => (findOne (hasLink link) users).isNone with
      | none => .error users
      | some sharedLink =>
        if d.fails .update then .error users
        else commit d users (updateOne (named username) (.pushFile ⟨filename, sharedLink⟩) users)
          (.success, sharedLink)

/-- The projection keeps the first file of that name. -/
def getSharedLink (d : Driver) (users : Users) (author filename : QString) :
    DatabaseError × QString :=
  if d.fails .findLink then (.queryError, QString.of "ERROR")
  else match findOne (fun user => named author user && hasFile filename user) users with
    | none => (.nonExistingFile, QString.of "ERROR")
    | some user =>
      match user.files.find? (·.name = filename) with
      | none => (.queryError, QString.of "ERROR")
      | some file => (.success, file.link)

/-- The result and the file's name with its owner. The projection keeps the first file with that
link. -/
def getFilenameFromSharedLink (d : Driver) (users : Users) (sharedLink user : QString) :
    Except Fault (DatabaseError × QString) × Users :=
  transaction d (.queryError, []) users <|
    if d.fails .find then .error users
    else match findOne (hasLink sharedLink) users with
      | none => .ok ((.nonExistingFile, QString.of "ERROR"), users)
      | some owner =>
        match owner.files.find? (·.link = sharedLink) with
        | none => .error users
        | some file =>
          if d.fails .update then .error users
          else commit d users
            (updateOne (named user) (.addShared ⟨file.name, owner.username⟩) users)
            (.success, file.name ++ [QChar.of ','] ++ owner.username)

inductive Request where
  | signup (username password : QString)
  | newFile (username filename : QString)
  | getFilenameFromSharedLink (sharedLink user : QString)
deriving DecidableEq

/-- A call, and what happens outside of the source during it. -/
structure Query where
  request : Request
  driver : Driver

/-- The result of a call, with a text if there is one. -/
abbrev Answer := Except Fault (DatabaseError × QString)

def call (users : Users) (q : Query) : Answer × Users :=
  match q.request with
  | .signup username password =>
    let (result, users) := signup q.driver users username password
    (result.map (·, []), users)
  | .newFile username filename => newFile q.driver users username filename
  | .getFilenameFromSharedLink sharedLink user =>
    getFilenameFromSharedLink q.driver users sharedLink user

/-! ## What a call writes -/

section Writes

variable {d : Driver} {users users' : Users} {username filename link : QString}

/-- What is in the collection after a call, whether or not the caller learns of it. -/
inductive Writes (users : Users) : Request → Users → Prop
  | nothing {r : Request} : Writes users r users
  | signup {username password hashed : QString} : username ∉ users.map UserDocument.username →
      Writes users (.signup username password)
        (users ++ [⟨⟨signupNickname username, hashed, [], []⟩, username⟩])
  | newFile {username filename link : QString} : username ∈ users.map UserDocument.username →
      (∀ user ∈ users, user.username = username → filename ∉ user.files.map FileEntry.name) →
      link ∉ users.flatMap UserDocument.links →
      Writes users (.newFile username filename)
        (updateOne (named username) (.pushFile ⟨filename, link⟩) users)
  | shared {owner : UserDocument} {file : FileEntry} {sharedLink user : QString} :
      owner ∈ users → file ∈ owner.files → file.link = sharedLink →
      Writes users (.getFilenameFromSharedLink sharedLink user)
        (updateOne (named user) (.addShared ⟨file.name, owner.username⟩) users)

/-- The state that a body ends with. -/
def left {α σ : Type} : Except σ (α × σ) → σ
  | .ok (_, s) => s
  | .error s => s

@[simp] theorem left_ok {α σ : Type} (a : α) (s : σ) : left (.ok (a, s)) = s := rfl

@[simp] theorem left_error {α σ : Type} (s : σ) : left (.error s : Except σ (α × σ)) = s := rfl

theorem left_commit {α σ : Type} {s s' : σ} {a : α} :
    left (commit d s s' a) = s ∨ left (commit d s s' a) = s' := by
  unfold commit
  split_ifs <;> simp

theorem transaction_left {α σ : Type} {queryError : α} {s : σ} {body : Except σ (α × σ)} :
    (transaction d queryError s body).2 = s ∨
      (transaction d queryError s body).2 = left body := by
  unfold transaction
  split
  · exact .inl rfl
  · exact .inr (by cases body <;> rfl)

/-- A result that is no error of the session is that of its body. -/
theorem of_transaction {α σ : Type} {queryError a : α} {s : σ} {body : Except σ (α × σ)}
    (h : (transaction d queryError s body).1 = .ok a) (ha : a ≠ queryError) :
    body = .ok (a, (transaction d queryError s body).2) := by
  unfold transaction at h ⊢
  grind

theorem of_commit {α σ : Type} {s s' t : σ} {a success : α}
    (h : commit d s s' success = .ok (a, t)) : a = success ∧ t = s' := by
  unfold commit at h
  grind

theorem findOne_named : (findOne (named username) users).isSome ↔
    username ∈ users.map UserDocument.username := by
  simp [findOne_isSome, named]

theorem findOne_hasLink : (findOne (hasLink link) users).isSome ↔
    link ∈ users.flatMap UserDocument.links := by
  simp [findOne_isSome, hasLink, UserDocument.links]

theorem findOne_hasFile :
    (findOne (fun user => named username user && hasFile filename user) users).isSome ↔
      ∃ user ∈ users, user.username = username ∧ filename ∈ user.files.map FileEntry.name := by
  simp [findOne_isSome, hasFile, named]

theorem signup_writes (d : Driver) (users : Users) (username password : QString) :
    Writes users (.signup username password) (signup d users username password).2 := by
  unfold signup
  rcases transaction_left with h | h <;> rw [h]
  · exact .nothing
  · cases d.hash password with
    | none => split_ifs <;> exact .nothing
    | some hashed =>
      split_ifs with _ hu
      · exact .nothing
      · exact .nothing
      · exact .nothing
      · rcases left_commit with h | h <;> rw [h]
        · exact .nothing
        · exact .signup (mt findOne_named.mpr hu)

theorem newFile_writes (d : Driver) (users : Users) (username filename : QString) :
    Writes users (.newFile username filename) (newFile d users username filename).2 := by
  unfold newFile
  rcases transaction_left with h | h <;> rw [h]
  · exact .nothing
  · cases hlink : d.draws.find? fun link => (findOne (hasLink link) users).isNone with
    | none => split_ifs <;> exact .nothing
    | some link =>
      split_ifs with _ hu _ hf
      · exact .nothing
      · exact .nothing
      · exact .nothing
      · exact .nothing
      · exact .nothing
      · rcases left_commit with h | h <;> rw [h]
        · exact .nothing
        · refine .newFile (findOne_named.mp ?_) (fun user huser hn hfile => hf ?_) fun hl => ?_
          · simpa [Option.isSome_iff_ne_none] using hu
          · exact findOne_hasFile.mpr ⟨user, huser, hn, hfile⟩
          · have hnone := List.find?_some hlink
            have hsome := findOne_hasLink.mpr hl
            simp [Option.isNone_iff_eq_none.mp hnone] at hsome

theorem getFilenameFromSharedLink_writes (d : Driver) (users : Users) (sharedLink user : QString) :
    Writes users (.getFilenameFromSharedLink sharedLink user)
      (getFilenameFromSharedLink d users sharedLink user).2 := by
  unfold getFilenameFromSharedLink
  rcases transaction_left with h | h <;> rw [h]
  · exact .nothing
  · cases hfound : findOne (hasLink sharedLink) users with
    | none => split_ifs <;> exact .nothing
    | some owner =>
      cases hfile : owner.files.find? (·.link = sharedLink) with
      | none =>
        simp only [hfile]
        split_ifs <;> exact .nothing
      | some file =>
        simp only [hfile]
        split_ifs
        · exact .nothing
        · exact .nothing
        · rcases left_commit with h | h <;> rw [h]
          · exact .nothing
          · exact .shared (mem_of_findOne hfound) (List.mem_of_find?_eq_some hfile)
              (by simpa using List.find?_some hfile)

theorem call_writes (users : Users) (q : Query) : Writes users q.request (call users q).2 := by
  obtain ⟨request, d⟩ := q
  cases request with
  | signup username password => exact signup_writes d users username password
  | newFile username filename => exact newFile_writes d users username filename
  | getFilenameFromSharedLink sharedLink user =>
    exact getFilenameFromSharedLink_writes d users sharedLink user

end Writes

/-! ## What holds of the collection -/

/-- No two users have one name, no two files of a user, no two files one link. What is shared is a
file of its owner, and each user has it once. -/
structure Consistent (users : Users) : Prop where
  usernames : (users.map UserDocument.username).Nodup
  filenames : ∀ user ∈ users, (user.files.map FileEntry.name).Nodup
  links : (users.flatMap UserDocument.links).Nodup
  shared : ∀ user ∈ users, user.sharedWithMe.Nodup
  owned : ∀ user ∈ users, ∀ file ∈ user.sharedWithMe, ∃ owner ∈ users,
    owner.username = file.owner ∧ file.filename ∈ owner.files.map FileEntry.name

/-- The user has that file. -/
def Has (users : Users) (username : QString) (file : FileEntry) : Prop :=
  ∃ user ∈ users, user.username = username ∧ file ∈ user.files

/-- The file is shared with the user. -/
def SharedWith (users : Users) (username : QString) (file : SharedFile) : Prop :=
  ∃ user ∈ users, user.username = username ∧ file ∈ user.sharedWithMe

section Consistent

variable {users users' : Users} {username v link : QString} {file : FileEntry}
  {item : SharedFile} {user : UserDocument} {r : Request}

theorem consistent_nil : Consistent [] := by
  constructor <;> simp

theorem usernames_updateOne {p : UserDocument → Bool} {f : UserDocument → UserDocument}
    (hf : ∀ a, (f a).username = a.username) :
    (updateOne p f users).map UserDocument.username = users.map UserDocument.username :=
  map_updateOne fun a _ => hf a

theorem links_updateOne {p : UserDocument → Bool} {f : UserDocument → UserDocument}
    (hf : ∀ a, (f a).files = a.files) :
    (updateOne p f users).flatMap UserDocument.links = users.flatMap UserDocument.links :=
  flatMap_updateOne fun a _ => by rw [UserDocument.links, UserDocument.links, hf]

/-- The documents after an update of a user. -/
theorem Consistent.mem_updateOne (h : Consistent users) {f : UserDocument → UserDocument} :
    user ∈ updateOne (named username) f users ↔
      ∃ old ∈ users, (if old.username = username then f old else old) = user := by
  unfold named
  rw [updateOne_key h.usernames, List.mem_map]

theorem Consistent.eq_of_username (h : Consistent users) {a b : UserDocument} (ha : a ∈ users)
    (hb : b ∈ users) (hab : a.username = b.username) : a = b :=
  eq_of_key h.usernames ha hb hab

/-- What holds of a document before an update, and survives it. -/
theorem Consistent.exists_updateOne (h : Consistent users) {P : UserDocument → Prop}
    {f : UserDocument → UserDocument} (hf : ∀ a, P a → P (f a)) (hp : ∃ user ∈ users, P user) :
    ∃ user ∈ updateOne (named username) f users, P user := by
  obtain ⟨user, hin, hp⟩ := hp
  refine ⟨_, h.mem_updateOne.mpr ⟨user, hin, rfl⟩, ?_⟩
  split_ifs
  · exact hf user hp
  · exact hp

theorem Consistent.signup {new : UserDocument} (h : Consistent users)
    (hu : new.username ∉ users.map UserDocument.username) (hfiles : new.files = [])
    (hshared : new.sharedWithMe = []) : Consistent (users ++ [new]) where
  usernames := nodup_key_append h.usernames hu
  filenames user hin := by
    rcases List.mem_append.mp hin with hin | hin
    · exact h.filenames user hin
    · rw [List.mem_singleton.mp hin, hfiles]
      exact .nil
  links := by
    rw [List.flatMap_append, List.flatMap_singleton, UserDocument.links, hfiles]
    simpa using h.links
  shared user hin := by
    rcases List.mem_append.mp hin with hin | hin
    · exact h.shared user hin
    · rw [List.mem_singleton.mp hin, hshared]
      exact .nil
  owned user hin item hitem := by
    rcases List.mem_append.mp hin with hin | hin
    · obtain ⟨owner, ho, hn⟩ := h.owned user hin item hitem
      exact ⟨owner, List.mem_append_left _ ho, hn⟩
    · rw [List.mem_singleton.mp hin, hshared] at hitem
      cases hitem

theorem Consistent.newFile (h : Consistent users)
    (hu : username ∈ users.map UserDocument.username)
    (hf : ∀ user ∈ users, user.username = username →
      file.name ∉ user.files.map FileEntry.name)
    (hl : file.link ∉ users.flatMap UserDocument.links) :
    Consistent (updateOne (named username) (.pushFile file) users) where
  usernames := by
    rw [usernames_updateOne (f := UserDocument.pushFile file) fun _ => rfl]
    exact h.usernames
  filenames user hin := by
    obtain ⟨old, hold, rfl⟩ := h.mem_updateOne.mp hin
    split_ifs with hn
    · exact nodup_key_append (h.filenames old hold) (hf old hold hn)
    · exact h.filenames old hold
  links := by
    have hperm : ((updateOne (named username) (.pushFile file) users).flatMap
        UserDocument.links).Perm (file.link :: users.flatMap UserDocument.links) := by
      refine flatMap_updateOne_perm (findOne_isSome.mp (findOne_named.mpr hu)) ?_
      intro user _
      rw [UserDocument.links, UserDocument.pushFile, push, List.map_append]
      exact List.perm_append_singleton _ _
    exact hperm.nodup_iff.mpr (List.nodup_cons.mpr ⟨hl, h.links⟩)
  shared user hin := by
    obtain ⟨old, hold, rfl⟩ := h.mem_updateOne.mp hin
    split_ifs <;> exact h.shared old hold
  owned user hin item hitem := by
    refine h.exists_updateOne (fun owner ho => ⟨ho.1, ?_⟩) ?_
    · exact List.map_subset _ (List.subset_append_left _ _) ho.2
    obtain ⟨old, hold, rfl⟩ := h.mem_updateOne.mp hin
    split_ifs at hitem <;> exact h.owned old hold item hitem

theorem Consistent.addShared (h : Consistent users) (hi : ∃ owner ∈ users,
      owner.username = item.owner ∧ item.filename ∈ owner.files.map FileEntry.name) :
    Consistent (updateOne (named username) (.addShared item) users) where
  usernames := by
    rw [usernames_updateOne (f := UserDocument.addShared item) fun _ => rfl]
    exact h.usernames
  filenames user hin := by
    obtain ⟨old, hold, rfl⟩ := h.mem_updateOne.mp hin
    split_ifs <;> exact h.filenames old hold
  links := by
    rw [links_updateOne (f := UserDocument.addShared item) fun _ => rfl]
    exact h.links
  shared user hin := by
    obtain ⟨old, hold, rfl⟩ := h.mem_updateOne.mp hin
    split_ifs
    · exact nodup_addToSet (h.shared old hold)
    · exact h.shared old hold
  owned user hin item' hitem := by
    refine h.exists_updateOne (fun owner ho => ho) ?_
    obtain ⟨old, hold, rfl⟩ := h.mem_updateOne.mp hin
    split_ifs at hitem
    · rcases mem_addToSet.mp hitem with hitem | rfl
      · exact h.owned old hold item' hitem
      · exact hi
    · exact h.owned old hold item' hitem

/-- **Each call keeps the collection consistent.** -/
theorem Consistent.step (h : Consistent users) (hw : Writes users r users') :
    Consistent users' := by
  cases hw with
  | nothing => exact h
  | signup hu => exact h.signup hu rfl rfl
  | newFile hu hf hl => exact h.newFile hu hf hl
  | @shared owner file _ _ ho hfile _ =>
    exact h.addShared ⟨owner, ho, rfl, List.mem_map_of_mem hfile⟩

/-! ## One file -/

/-- What is true of some document stays so, if no file that is added changes it. -/
theorem Writes.keeps (hw : Writes users r users') (h : Consistent users) {P : UserDocument → Prop}
    (hpush : ∀ file a, P a → P (a.pushFile file)) (hshare : ∀ item a, P a → P (a.addShared item))
    (hp : ∃ user ∈ users, P user) : ∃ user ∈ users', P user := by
  cases hw with
  | nothing => exact hp
  | signup =>
    obtain ⟨user, hin, hp⟩ := hp
    exact ⟨user, List.mem_append_left _ hin, hp⟩
  | newFile => exact h.exists_updateOne (hpush _) hp
  | shared => exact h.exists_updateOne (hshare _) hp

theorem Has.step (hh : Has users username file) (h : Consistent users)
    (hw : Writes users r users') : Has users' username file :=
  hw.keeps h (fun _ _ ha => ⟨ha.1, List.mem_append_left _ ha.2⟩) (fun _ _ ha => ha) hh

theorem SharedWith.step (hs : SharedWith users username item) (h : Consistent users)
    (hw : Writes users r users') : SharedWith users' username item :=
  hw.keeps h (fun _ _ ha => ha) (fun _ _ ha => ⟨ha.1, mem_addToSet.mpr (.inl ha.2)⟩) hs

/-- A link leads to one file. -/
theorem Has.eq_of_link {owner : UserDocument} {other : FileEntry} (hh : Has users username file)
    (h : Consistent users) (ho : owner ∈ users) (hother : other ∈ owner.files)
    (hl : other.link = file.link) : owner.username = username ∧ other = file := by
  obtain ⟨user, hu, rfl, hfile⟩ := hh
  have hlink : file.link ∈ user.links := List.mem_map_of_mem hfile
  obtain rfl : owner = user :=
    eq_of_mem_flatMap h.links ho hu (hl ▸ List.mem_map_of_mem hother) hlink
  exact ⟨rfl, eq_of_key ((List.nodup_flatMap.mp h.links).1 owner ho) hother hfile hl⟩

/-- So does a name of a user. -/
theorem Has.eq_of_name {owner : UserDocument} {other : FileEntry} (hh : Has users username file)
    (h : Consistent users) (ho : owner ∈ users) (hu : owner.username = username)
    (hother : other ∈ owner.files) (hn : other.name = file.name) : other = file := by
  obtain ⟨user, huser, rfl, hfile⟩ := hh
  obtain rfl := h.eq_of_username ho huser hu
  exact eq_of_key (h.filenames owner ho) hother hfile hn

/-- **Only its link shares a file.** -/
theorem not_sharedWith_step (h : Consistent users) (hw : Writes users r users')
    (hh : Has users username file) (hs : ¬ SharedWith users v ⟨file.name, username⟩)
    (hr : r ≠ .getFilenameFromSharedLink file.link v) :
    ¬ SharedWith users' v ⟨file.name, username⟩ := by
  intro hex
  obtain ⟨user, hin, rfl, hshared⟩ := hex
  cases hw with
  | nothing => exact hs ⟨user, hin, rfl, hshared⟩
  | signup =>
    rcases List.mem_append.mp hin with hin | hin
    · exact hs ⟨user, hin, rfl, hshared⟩
    · rw [List.mem_singleton.mp hin] at hshared
      cases hshared
  | newFile =>
    obtain ⟨old, hold, rfl⟩ := h.mem_updateOne.mp hin
    split_ifs at hshared hs <;> exact hs ⟨old, hold, rfl, hshared⟩
  | @shared owner other sharedLink v ho hother hl =>
    obtain ⟨old, hold, rfl⟩ := h.mem_updateOne.mp hin
    split_ifs at hshared hs hr with hv
    · rcases mem_addToSet.mp hshared with hshared | he
      · exact hs ⟨old, hold, rfl, hshared⟩
      · injection he with hname howner
        obtain rfl := hh.eq_of_name h ho howner.symm hother hname.symm
        exact hr (by rw [← hl, ← hv]; rfl)
    · exact hs ⟨old, hold, rfl, hshared⟩

/-- Nobody shares a file that is new. -/
theorem not_sharedWith_newFile (h : Consistent users)
    (hf : ∀ user ∈ users, user.username = username →
      file.name ∉ user.files.map FileEntry.name) :
    ¬ SharedWith (updateOne (named username) (.pushFile file) users) v ⟨file.name, username⟩ := by
  intro hex
  obtain ⟨user, hin, -, hshared⟩ := hex
  obtain ⟨old, hold, rfl⟩ := h.mem_updateOne.mp hin
  have hitem : ⟨file.name, username⟩ ∈ old.sharedWithMe := by
    split_ifs at hshared <;> exact hshared
  obtain ⟨owner, ho, hu, hname⟩ := h.owned old hold _ hitem
  exact hf owner ho hu hname

theorem has_newFile (h : Consistent users) (hu : username ∈ users.map UserDocument.username) :
    Has (updateOne (named username) (.pushFile file) users) username file := by
  obtain ⟨user, huser, rfl⟩ := List.mem_map.mp hu
  refine ⟨_, h.mem_updateOne.mpr ⟨user, huser, rfl⟩, ?_⟩
  rw [if_pos rfl]
  exact ⟨rfl, by simp [UserDocument.pushFile, push]⟩

theorem sharedWith_addShared (h : Consistent users)
    (hv : v ∈ users.map UserDocument.username) :
    SharedWith (updateOne (named v) (.addShared item) users) v item := by
  obtain ⟨user, huser, rfl⟩ := List.mem_map.mp hv
  refine ⟨_, h.mem_updateOne.mpr ⟨user, huser, rfl⟩, ?_⟩
  rw [if_pos rfl]
  exact ⟨rfl, mem_addToSet.mpr (.inr rfl)⟩

end Consistent

/-! ## Answers -/

section Answers

variable {d : Driver} {users users' : Users} {username filename link v name : QString}
  {file : FileEntry}

/-- A new file that is reported is written. -/
theorem newFile_success (h : newFile d users username filename = (.ok (.success, link), users')) :
    username ∈ users.map UserDocument.username ∧
      (∀ user ∈ users, user.username = username → filename ∉ user.files.map FileEntry.name) ∧
      users' = updateOne (named username) (.pushFile ⟨filename, link⟩) users := by
  have hb := of_transaction (congrArg Prod.fst h) (by simp)
  rw [← newFile, h] at hb
  cases hlink : d.draws.find? fun link => (findOne (hasLink link) users).isNone with
  | none =>
    simp only [hlink] at hb
    split_ifs at hb <;> cases hb
  | some sharedLink =>
    simp only [hlink] at hb
    split_ifs at hb with _ hu _ hf <;> try cases hb
    obtain ⟨he, rfl⟩ := of_commit hb
    cases he
    refine ⟨findOne_named.mp ?_, fun user huser hn hfile => hf ?_, rfl⟩
    · simpa [Option.isSome_iff_ne_none] using hu
    · exact findOne_hasFile.mpr ⟨user, huser, hn, hfile⟩

/-- So is a file that is shared. -/
theorem getFilenameFromSharedLink_success
    (h : getFilenameFromSharedLink d users link v = (.ok (.success, name), users')) :
    ∃ owner ∈ users, ∃ file ∈ owner.files, file.link = link ∧
      name = file.name ++ [QChar.of ','] ++ owner.username ∧
      users' = updateOne (named v) (.addShared ⟨file.name, owner.username⟩) users := by
  have hb := of_transaction (congrArg Prod.fst h) (by simp)
  rw [← getFilenameFromSharedLink, h] at hb
  cases hfound : findOne (hasLink link) users with
  | none =>
    simp only [hfound] at hb
    split_ifs at hb
    cases hb
  | some owner =>
    cases hfile : owner.files.find? (·.link = link) with
    | none =>
      simp only [hfound, hfile] at hb
      split_ifs at hb
    | some file =>
      simp only [hfound, hfile] at hb
      split_ifs at hb
      obtain ⟨he, rfl⟩ := of_commit hb
      cases he
      exact ⟨owner, mem_of_findOne hfound, file, List.mem_of_find?_eq_some hfile,
        by simpa using List.find?_some hfile, rfl, rfl⟩

/-- The queries find the file of a link. -/
theorem Has.found (hh : Has users username file) (h : Consistent users) :
    ∃ owner, findOne (hasLink file.link) users = some owner ∧ owner.username = username ∧
      owner.files.find? (·.link = file.link) = some file := by
  obtain ⟨user, hu, rfl, hfile⟩ := hh
  have hmatches : hasLink file.link user = true := by
    simpa [hasLink] using ⟨file, hfile, rfl⟩
  refine ⟨user, findOne_of_unique hu hmatches fun other ho hm => ?_, rfl, ?_⟩
  · obtain ⟨otherFile, hof, hl⟩ : ∃ f ∈ other.files, f.link = file.link := by
      simpa [hasLink] using hm
    exact h.eq_of_username ho hu (Has.eq_of_link ⟨user, hu, rfl, hfile⟩ h ho hof hl).1
  · exact findOne_of_unique hfile (by simp) fun other ho hl =>
      (Has.eq_of_link ⟨user, hu, rfl, hfile⟩ h hu ho (by simpa using hl)).2

/-- **What a link resolves to.** -/
theorem Has.resolves (hh : Has users username file) (h : Consistent users)
    (hstart : ¬ d.fails .startSession) (hfind : ¬ d.fails .find) (hupdate : ¬ d.fails .update)
    (hcommit : ¬ d.fails .commit) :
    (getFilenameFromSharedLink d users file.link v).1 =
      .ok (.success, file.name ++ [QChar.of ','] ++ username) := by
  obtain ⟨owner, hfound, rfl, hfile⟩ := hh.found h
  unfold getFilenameFromSharedLink transaction commit
  simp only [hstart, hfind, hupdate, hcommit, hfound, hfile, Bool.false_eq_true, if_false]

/-- It resolves to nothing else. -/
theorem Has.resolves_only {r : DatabaseError} (hh : Has users username file)
    (h : Consistent users)
    (hr : (getFilenameFromSharedLink d users file.link v).1 = .ok (r, name)) :
    r = .queryError ∨ r = .success ∧ name = file.name ++ [QChar.of ','] ++ username := by
  by_cases hq : ((r, name) : DatabaseError × QString) = (.queryError, [])
  · exact .inl (congrArg Prod.fst hq)
  · have hb := of_transaction hr hq
    obtain ⟨owner, hfound, rfl, hfile⟩ := hh.found h
    simp only [hfound, hfile] at hb
    split_ifs at hb
    obtain ⟨he, -⟩ := of_commit hb
    cases he
    exact .inr ⟨rfl, rfl⟩

/-- **The link of a file.** -/
theorem Has.sharedLink (hh : Has users username file) (h : Consistent users)
    (hlink : ¬ d.fails .findLink) :
    getSharedLink d users username file.name = (.success, file.link) := by
  have hfiles := hh
  obtain ⟨user, hu, rfl, hfile⟩ := hfiles
  have hmatches : (named user.username user && hasFile file.name user) = true := by
    simpa [named, hasFile] using ⟨file, hfile, rfl⟩
  have hfound : findOne (fun other => named user.username other && hasFile file.name other) users =
      some user := by
    refine findOne_of_unique hu hmatches ?_
    intro other ho hm
    have hn : named user.username other = true := by simp_all
    exact h.eq_of_username ho hu (by simpa [named] using hn)
  have hfirst : user.files.find? (·.name = file.name) = some file :=
    findOne_of_unique hfile (by simp) fun other ho hn =>
      hh.eq_of_name h hu rfl ho (by simpa using hn)
  rw [getSharedLink, if_neg hlink, hfound]
  simp only [hfirst]

end Answers

end Users

end Scriba.Server
