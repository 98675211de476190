import Scriba.Server.UserDocuments

/-! # Shared links

In every sequence of signups, new files and links that are resolved, each link resolves to the
file that was created with it, and is the one that its owner is told. The map of users that the
other modules work with stands for the documents: the calls agree on it. -/

namespace Scriba.Server

open Scriba.Utility Scriba.Lib Scriba.Lib.Collection

namespace Users

/-! ## Runs -/

abbrev CallEntry := Run.Entry Users Query Answer

/-- Some calls after each other. -/
abbrev CallRun (start : Users) : List CallEntry → Users → Prop :=
  Run (fun users q answer users' => call users q = (answer, users')) start

/-- The call created the file of the user, and gave the link. -/
def Created (e : CallEntry) (username filename link : QString) : Prop :=
  e.input.request = .newFile username filename ∧ e.output = .ok (.success, link)

/-- The call resolved the link for a user there is. -/
def Resolved (e : CallEntry) (link v : QString) : Prop :=
  e.input.request = .getFilenameFromSharedLink link v ∧
    (∃ name, e.output = .ok (.success, name)) ∧ v ∈ e.before.map UserDocument.username

/-- What the calls make of a file of a user after they created it. -/
structure Kept (users : Users) (username filename link : QString) (since : List CallEntry) :
    Prop where
  has : Has users username ⟨filename, link⟩
  shared : ∀ e ∈ since, ∀ v, Resolved e link v → SharedWith users v ⟨filename, username⟩
  unshared : ∀ v, (∀ e ∈ since, e.input.request ≠ .getFilenameFromSharedLink link v) →
    ¬ SharedWith users v ⟨filename, username⟩

section Runs

variable {users0 users users' : Users} {h : List CallEntry} {q : Query} {answer : Answer}
  {username filename link : QString} {since : List CallEntry}

theorem Kept.created (hc : Consistent users) (hcall : call users q = (answer, users'))
    (hcreated : Created ⟨users, q, answer, users'⟩ username filename link) :
    Kept users' username filename link [] := by
  obtain ⟨request, d⟩ := q
  obtain ⟨rfl, rfl⟩ := hcreated
  obtain ⟨hu, hf, rfl⟩ := newFile_success hcall
  exact ⟨has_newFile hc hu, nofun, fun v _ => not_sharedWith_newFile hc hf⟩

/-- **Each call keeps a file that was created.** -/
theorem Kept.step (hk : Kept users username filename link since) (hc : Consistent users)
    (hcall : call users q = (answer, users')) :
    Kept users' username filename link (since ++ [⟨users, q, answer, users'⟩]) := by
  have hw : Writes users q.request users' := by
    have hw := call_writes users q
    rwa [hcall] at hw
  refine ⟨hk.has.step hc hw, fun e he v hr => ?_, fun v hr => ?_⟩
  · rcases List.mem_append.mp he with he | he
    · exact (hk.shared e he v hr).step hc hw
    · obtain rfl := List.mem_singleton.mp he
      obtain ⟨hreq, ⟨name, hanswer⟩, hv⟩ := hr
      obtain ⟨request, d⟩ := q
      dsimp only at hreq hanswer hv
      subst hreq hanswer
      obtain ⟨owner, ho, file, hfile, hl, -, rfl⟩ := getFilenameFromSharedLink_success hcall
      obtain ⟨rfl, rfl⟩ := hk.has.eq_of_link hc ho hfile hl
      exact sharedWith_addShared hc hv
  · exact not_sharedWith_step hc hw hk.has
      (hk.unshared v fun e he => hr e (List.mem_append_left _ he))
      (hr _ (List.mem_append_right _ (List.mem_singleton_self _)))

/-- **All calls.** -/
theorem kept_of_run (h0 : Consistent users0) (hrun : CallRun users0 h users) :
    Consistent users ∧ ∀ earlier e since username filename link, h = earlier ++ e :: since →
      Created e username filename link → Kept users username filename link since := by
  refine hrun.invariant (I := fun h users => Consistent users ∧
    ∀ earlier e since username filename link, h = earlier ++ e :: since →
      Created e username filename link → Kept users username filename link since)
    (P := fun _ => True) (fun _ _ => trivial) ⟨h0, by simp⟩ ?_
  intro h users q answer users' ⟨hc, hkept⟩ _ hcall
  refine ⟨?_, fun earlier e since username filename link hsplit hcreated => ?_⟩
  · have hw := call_writes users q
    rw [hcall] at hw
    exact hc.step hw
  · rcases List.eq_nil_or_concat since with rfl | ⟨init, last, rfl⟩
    · obtain ⟨-, he⟩ := List.append_inj' hsplit rfl
      cases he
      exact .created hc hcall hcreated
    · rw [List.concat_eq_append, ← List.cons_append, ← List.append_assoc] at hsplit
      obtain ⟨hinit, he⟩ := List.append_inj' hsplit rfl
      cases he
      rw [List.concat_eq_append]
      exact (hkept earlier e init username filename link hinit hcreated).step hc hcall

/-- What the calls give for a file of a user, and how often it is shared. -/
structure Resolving (users : Users) (username filename link : QString) (since : List CallEntry) :
    Prop where
  resolves : ∀ d v, ¬ d.fails .startSession → ¬ d.fails .find → ¬ d.fails .update →
    ¬ d.fails .commit → (getFilenameFromSharedLink d users link v).1 =
      .ok (.success, filename ++ [QChar.of ','] ++ username)
  nothingElse : ∀ d v r name, (getFilenameFromSharedLink d users link v).1 = .ok (r, name) →
    r = .queryError ∨ r = .success ∧ name = filename ++ [QChar.of ','] ++ username
  sharedLink : ∀ d, ¬ d.fails .findLink →
    getSharedLink d users username filename = (.success, link)
  once : ∀ user ∈ users, (∃ e ∈ since, Resolved e link user.username) →
    user.sharedWithMe.count ⟨filename, username⟩ = 1
  never : ∀ user ∈ users, (∀ e ∈ since,
      e.input.request ≠ .getFilenameFromSharedLink link user.username) →
    user.sharedWithMe.count ⟨filename, username⟩ = 0

theorem Kept.resolving (hk : Kept users username filename link since) (hc : Consistent users) :
    Resolving users username filename link since where
  resolves d v := hk.has.resolves hc
  nothingElse d v r name := hk.has.resolves_only hc
  sharedLink d := hk.has.sharedLink hc
  once user hu := by
    intro h
    obtain ⟨e, he, hr⟩ := h
    obtain ⟨other, ho, hn, hshared⟩ := hk.shared e he _ hr
    obtain rfl := hc.eq_of_username ho hu hn
    exact List.count_eq_one_of_mem (hc.shared other hu) hshared
  never user hu hr :=
    List.count_eq_zero.mpr fun hshared => hk.unshared _ hr ⟨user, hu, rfl, hshared⟩

/-- **Shared links resolve to their file.** In every sequence of calls from a consistent
collection, the empty one for instance. -/
theorem shared_links_resolve (h0 : Consistent users0) (hrun : CallRun users0 h users) :
    Consistent users ∧ ∀ earlier e since username filename link, h = earlier ++ e :: since →
      Created e username filename link → Resolving users username filename link since := by
  obtain ⟨hc, hkept⟩ := kept_of_run h0 hrun
  exact ⟨hc, fun earlier e since username filename link hsplit hcreated =>
    (hkept earlier e since username filename link hsplit hcreated).resolving hc⟩

/-- A user creates a file, and another one resolves its link twice. -/
theorem shared_links_resolve_twice : ∃ h users earlier e since, CallRun [] h users ∧
    h = earlier ++ e :: since ∧ earlier.length = 2 ∧ since.length = 2 ∧
    Created e [117] [102] (QString.of "x") ∧ Consistent users ∧
    Resolving users [117] [102] (QString.of "x") since := by
  obtain ⟨a, b, e, c, d, users, hr, hcreated⟩ : ∃ a b e c d users,
      Run.replay (fun users q => some (call users q)) []
        ([.signup [117] [112], .signup [118] [112], .newFile [117] [102],
          .getFilenameFromSharedLink (QString.of "x") [118],
          .getFilenameFromSharedLink (QString.of "x") [118]].map (⟨·, .plain⟩)) =
        some ([a, b, e, c, d], users) ∧ Created e [117] [102] (QString.of "x") :=
    ⟨_, _, _, _, _, _, rfl, rfl, rfl⟩
  have hrun : CallRun [] [a, b, e, c, d] users :=
    Run.of_replay (fun _ _ _ _ h => Option.some.inj h) hr
  obtain ⟨hc, hall⟩ := shared_links_resolve consistent_nil hrun
  exact ⟨_, users, [a, b], e, [c, d], hrun, rfl, rfl, rfl, hcreated, hc,
    hall [a, b] e [c, d] _ _ _ rfl hcreated⟩

end Runs

/-! ## The map of the users -/

/-- The map of the database is made of the documents. -/
structure Represents (db : Database) (users : Users) : Prop where
  usernames : (users.map UserDocument.username).Nodup
  lookup : ∀ username : QString,
    db.users[username]? = (findOne (named username) users).map UserDocument.toUser

/-- Two bodies of a transaction that do the same. -/
inductive Alike {α : Type} : Except Database (α × Database) → Except Users (α × Users) → Prop
  | ok {a : α} {db : Database} {users : Users} : Represents db users →
      Alike (.ok (a, db)) (.ok (a, users))
  | error {db : Database} {users : Users} : Represents db users → Alike (.error db) (.error users)

/-- Two calls that do the same. After an exception there is no state of the server. -/
def Agrees {α : Type} : Except Fault (α × Database) → Except Fault α × Users → Prop
  | .ok (a, db), (result, users) => result = .ok a ∧ Represents db users
  | .error f, (result, _) => result = .error f

section Represents

variable {α : Type} {d : Driver} {db db' : Database} {users users' : Users} {username : QString}

theorem transaction_agrees {queryError : α} {body : Except Database (α × Database)}
    {body' : Except Users (α × Users)} (h : Alike body body') :
    Agrees (Mongo.transaction d queryError body) (transaction d queryError users body') := by
  unfold Mongo.transaction transaction
  split
  · rfl
  · cases h with
    | ok hr => exact ⟨rfl, hr⟩
    | error hr =>
      dsimp only
      split
      · rfl
      · exact ⟨rfl, hr⟩

theorem commit_alike {a : α} (h : Represents db users) (h' : Represents db' users') :
    Alike (Mongo.commit d db db' a) (commit d users users' a) := by
  unfold Mongo.commit commit
  split_ifs
  · exact .error h'
  · exact .error h
  · exact .ok h'

theorem Represents.mem_iff (h : Represents db users) :
    username ∈ db.users ↔ (findOne (named username) users).isSome := by
  rw [Std.TreeMap.mem_iff_isSome_getElem?, h.lookup, Option.isSome_map]

theorem Represents.find (h : Represents db users) {user : UserDocument} (hu : user ∈ users) :
    db.users[user.username]? = some user.toUser := by
  have hfound : findOne (named user.username) users = some user := findOne_key h.usernames hu
  rw [h.lookup, hfound, Option.map_some]

theorem Represents.exists_user (h : Represents db users) {user : User}
    (hu : db.users[username]? = some user) :
    ∃ doc ∈ users, doc.username = username ∧ doc.toUser = user := by
  rw [h.lookup] at hu
  obtain ⟨doc, hdoc, rfl⟩ := Option.map_eq_some_iff.mp hu
  exact ⟨doc, mem_of_findOne hdoc, by simpa [named] using of_findOne hdoc, rfl⟩

theorem Represents.updateUser (h : Represents db users) {f : User → User}
    {g : UserDocument → UserDocument} (hu : ∀ a, (g a).username = a.username)
    (hg : ∀ a, (g a).toUser = f a.toUser) :
    Represents (db.updateUser username f) (updateOne (named username) g users) where
  usernames := by
    rw [usernames_updateOne hu]
    exact h.usernames
  lookup v := by
    have hfind : findOne (named v) (updateOne (named username) g users) =
        if v = username then (findOne (named username) users).map g
        else findOne (named v) users := findOne_updateOne hu
    rw [hfind, Database.updateUser, Table.getElem?_modify]
    split_ifs
    · rw [h.lookup, Option.map_map, Option.map_map]
      congr 1
      funext a
      exact (hg a).symm
    · exact h.lookup v

theorem Represents.insert (h : Represents db users) {new : UserDocument}
    (hu : new.username ∉ users.map UserDocument.username)
    (hdb : db'.users = db.users.insert new.username new.toUser) :
    Represents db' (users ++ [new]) where
  usernames := nodup_key_append h.usernames hu
  lookup v := by
    have happend : findOne (named v) (users ++ [new]) =
        (findOne (named v) users).or (findOne (named v) [new]) := List.find?_append
    rw [hdb, Table.getElem?_insert, h.lookup, happend]
    split_ifs with hv
    · have hnone : findOne (named v) users = none := by
        rw [← Option.not_isSome_iff_eq_none, findOne_named, hv]
        exact hu
      rw [hnone]
      simp [findOne, named, hv]
    · simp [findOne, named, Ne.symm hv]

/-- **Signups agree.** -/
theorem signup_agrees {password : QString} (h : Represents db users) :
    Agrees (Mongo.signup d db username password) (signup d users username password) := by
  refine transaction_agrees ?_
  have hcontains : db.users.contains username = (findOne (named username) users).isSome := by
    rw [Bool.eq_iff_iff, Std.TreeMap.contains_iff_mem, h.mem_iff]
  rw [hcontains]
  cases d.hash password with
  | none =>
    split_ifs
    · exact .error h
    · exact .ok h
    · exact .ok h
    · exact .ok h
  | some hashed =>
    split_ifs with _ hu
    · exact .error h
    · exact .ok h
    · exact .error h
    · exact commit_alike h (h.insert (mt findOne_named.mpr hu) rfl)

theorem Represents.hasLink_iff {link : QString} (h : Represents db users) :
    Mongo.linkExists db link = (findOne (hasLink link) users).isSome := by
  rw [Bool.eq_iff_iff, findOne_hasLink, Mongo.linkExists, List.any_eq_true, List.mem_flatMap]
  constructor
  · intro hex
    obtain ⟨⟨username, user⟩, hin, hl⟩ := hex
    obtain ⟨doc, hdoc, -, rfl⟩ := h.exists_user (Table.mem_toList.mp hin)
    exact ⟨doc, hdoc, by simpa [UserDocument.links] using hl⟩
  · intro hex
    obtain ⟨doc, hdoc, hl⟩ := hex
    exact ⟨(doc.username, doc.toUser), Table.mem_toList.mpr (h.find hdoc),
      by simpa [UserDocument.links] using hl⟩

theorem Represents.hasFile_iff {filename : QString} (h : Represents db users) :
    (findOne (fun user => named username user && hasFile filename user) users).isSome ↔
      ∃ user, db.users[username]? = some user ∧ user.files.any (·.name = filename) := by
  rw [findOne_hasFile]
  constructor
  · intro hex
    obtain ⟨doc, hdoc, rfl, hname⟩ := hex
    exact ⟨doc.toUser, h.find hdoc, by simpa using hname⟩
  · intro hex
    obtain ⟨user, hu, hname⟩ := hex
    obtain ⟨doc, hdoc, rfl, rfl⟩ := h.exists_user hu
    exact ⟨doc, hdoc, rfl, by simpa using hname⟩

/-- **New files agree.** -/
theorem newFile_agrees {filename : QString} (h : Represents db users) :
    Agrees (Mongo.newFile d db username filename) (newFile d users username filename) := by
  refine transaction_agrees ?_
  have hlinks : (fun link => ! Mongo.linkExists db link) =
      fun link => (findOne (hasLink link) users).isNone := by
    funext link
    rw [h.hasLink_iff, Option.not_isSome]
  rw [hlinks]
  have hlookup := h.lookup username
  have hfile := @Represents.hasFile_iff _ _ username filename h
  cases hu : db.users[username]? with
  | none =>
    have hnone : (findOne (named username) users).isNone := by
      rw [hu] at hlookup
      simpa using hlookup.symm
    simp only [hnone, if_true]
    split_ifs
    · exact .error h
    · exact .ok h
  | some user =>
    have hsome : (findOne (named username) users).isNone = false := by
      rw [← Option.not_isSome, ← Option.isSome_map (f := UserDocument.toUser), ← hlookup, hu]
      rfl
    have hlists : (findOne (fun user => named username user && hasFile filename user)
        users).isSome = user.files.any (·.name = filename) := by
      rw [Bool.eq_iff_iff, hfile, hu]
      simp
    simp only [hsome, hlists, Bool.false_eq_true, if_false]
    cases d.draws.find? fun link => (findOne (hasLink link) users).isNone with
    | none =>
      split_ifs
      · exact .error h
      · exact .error h
      · exact .ok h
      · exact .error h
      · exact .error h
    | some link =>
      split_ifs
      · exact .error h
      · exact .error h
      · exact .ok h
      · exact .error h
      · exact commit_alike h (h.updateUser (fun _ => rfl) fun _ => rfl)

/-- **Shared links agree**, in a consistent collection. -/
theorem getFilenameFromSharedLink_agrees {link : QString} (h : Represents db users)
    (hc : Consistent users) :
    Agrees (Mongo.getFilenameFromSharedLink d db link username)
      (getFilenameFromSharedLink d users link username) := by
  refine transaction_agrees ?_
  dsimp only
  cases hfound : findOne (hasLink link) users with
  | none =>
    cases hres : db.users.toList.findSome? _ with
    | none =>
      split_ifs
      · exact .error h
      · exact .ok h
      · exact .ok h
    | some result =>
      obtain ⟨⟨name, user⟩, hin, hmap⟩ := List.exists_of_findSome?_eq_some hres
      obtain ⟨doc, hdoc, -, rfl⟩ := h.exists_user (Table.mem_toList.mp hin)
      obtain ⟨file, hfile, -⟩ := Option.map_eq_some_iff.mp hmap
      have hlink := findOne_none.mp hfound doc hdoc
      have hnone : doc.files.find? (·.link = link) = none := by simpa [hasLink] using hlink
      cases hnone.symm.trans hfile
  | some owner =>
    obtain ⟨file, hfile, rfl⟩ : ∃ file ∈ owner.files, file.link = link := by
      simpa [hasLink] using of_findOne hfound
    have hh : Has users owner.username file := ⟨owner, mem_of_findOne hfound, rfl, hfile⟩
    obtain ⟨other, hother, -, hfirst⟩ := hh.found hc
    cases hother.symm.trans hfound
    cases hres : db.users.toList.findSome? _ with
    | none =>
      have hin : (owner.username, owner.toUser) ∈ db.users.toList :=
        Table.mem_toList.mpr (h.find (mem_of_findOne hfound))
      have hnone := List.findSome?_eq_none_iff.mp hres _ hin
      simp [hfirst] at hnone
    | some result =>
      obtain ⟨⟨name, user⟩, hu, hmap⟩ := List.exists_of_findSome?_eq_some hres
      obtain ⟨doc, hdoc, rfl, rfl⟩ := h.exists_user (Table.mem_toList.mp hu)
      obtain ⟨entry, hentry, rfl⟩ := Option.map_eq_some_iff.mp hmap
      obtain ⟨hn, rfl⟩ := hh.eq_of_link hc hdoc (List.mem_of_find?_eq_some hentry)
        (by simpa using List.find?_some hentry)
      simp only [hfirst, hn]
      split_ifs
      · exact .error h
      · exact .error h
      · exact commit_alike h (h.updateUser (fun _ => rfl) fun _ => addShared_toUser)

/-- **So do the links of files.** -/
theorem getSharedLink_agrees {filename : QString} (h : Represents db users)
    (hc : Consistent users) :
    Mongo.getSharedLink d db username filename = (getSharedLink d users username filename).2 := by
  by_cases hlink : d.fails .findLink
  · rw [Mongo.getSharedLink, getSharedLink, if_pos hlink, if_pos hlink]
  · rw [Mongo.getSharedLink, if_neg hlink]
    cases hfound : (db.users[username]?).bind fun user => user.files.find? (·.name = filename) with
    | none =>
      have hnone : findOne (fun user => named username user && hasFile filename user) users =
          none := by
        rw [← Option.not_isSome_iff_eq_none, h.hasFile_iff]
        intro hex
        obtain ⟨user, hu, hname⟩ := hex
        rw [hu, Option.bind_some, List.find?_eq_none] at hfound
        obtain ⟨file, hfile, hmatch⟩ := List.any_eq_true.mp hname
        exact hfound file hfile hmatch
      rw [getSharedLink, if_neg hlink, hnone]
    | some file =>
      obtain ⟨user, hu, hfile⟩ := Option.bind_eq_some_iff.mp hfound
      obtain ⟨doc, hdoc, hn, rfl⟩ := h.exists_user hu
      have hh : Has users username file :=
        ⟨doc, hdoc, hn, List.mem_of_find?_eq_some hfile⟩
      obtain rfl : file.name = filename := by simpa using List.find?_some hfile
      rw [hh.sharedLink hc hlink]

end Represents

end Users

end Scriba.Server
