import Scriba.System.Phases

/-! # Files that are shared

Seen from one file, a deployment is a relay whose clients come and go: a client that opens the file
joins with what it will load from the reply, and the operations under way for the file are those
that the server will take for it (`bound`) and those that the packets bring. What holds of the
relay then holds of the deployment: whoever has the file open, and has nothing under way, holds
what the server keeps. -/

namespace Scriba.System

open Scriba.Utility Scriba.Client Scriba.Server Scriba.Lib Scriba.Lib.Relay

/-! ## Operations under way -/

/-- The operations that the server will take for the file `f`, if the worker has the file `g`. -/
def bound (f : QString) : QString → List Request → List Message
  | _, [] => []
  | g, .operation _ m :: up => if g = f then m :: bound f g up else bound f g up
  | _, .openFile g :: up => bound f g up
  | _, .closeFile .. :: up => bound f [] up
  | g, .cursor _ :: up | g, .ask _ :: up => bound f g up

section Bound

variable {f g : QString} {up : List Request} {r : Request} {m : Message} {n : Int}

theorem bound_append (h : ∀ n m, r ≠ .operation n m) : bound f g (up ++ [r]) = bound f g up := by
  induction up generalizing g with
  | nil =>
    cases r with
    | operation n m => exact absurd rfl (h n m)
    | _ => rfl
  | cons r' up ih => cases r' <;> simp [bound, ih]

theorem bound_append_operation (h : ∀ r ∈ up, r.Stays) :
    bound f g (up ++ [.operation n m]) = bound f g up ++ if g = f then [m] else [] := by
  induction up with
  | nil => by_cases hg : g = f <;> simp [bound, hg]
  | cons r' up ih =>
    have hup := ih fun r hr => h r (by simp [hr])
    have hr' := h r' (by simp)
    cases r' with
    | operation n' m' =>
      by_cases hg : g = f
      · subst hg
        simpa [bound] using hup
      · simpa [bound, hg] using hup
    | cursor | ask => simpa [bound] using hup
    | openFile | closeFile => exact hr'.elim

theorem bound_idle (h : ∀ r ∈ up, r.Idle) : bound f g up = [] := by
  induction up with
  | nil => rfl
  | cons r' up ih =>
    have hup := ih fun r hr => h r (by simp [hr])
    have hr' := h r' (by simp)
    cases r' with
    | cursor | ask => exact hup
    | operation | openFile | closeFile => exact hr'.elim

end Bound

/-! ## The relay of a file -/

/-- A client of the relay is the client, as far as it has the file open or will have it with the
reply under way. -/
structure Follows (z : Codec) (toJson : QJsonObject → QByteArray) (f g : QString) (site : Site)
    (up : List Request) (down : List Packet) (client : CRDT) (wup wdown : List Message) :
    Prop where
  up : site.page ≠ .gone → wup = bound f g up
  editing : site.page = .editor f → client = site.crdt ∧ Bring z toJson down wdown
  answered : site.page = .awaiting f → (∃ packet ∈ down, ∃ vec, Replies z toJson packet f vec) →
    ∃ pre reply post vec a, down = pre ++ reply :: post ∧ Plain z toJson pre ∧
      Replies z toJson reply f vec ∧ Bring z toJson post wdown ∧
      (Screen.clear site.crdt.siteId).load vec = .ok a ∧ a.crdt = client

/-- The deployment, seen from the file `f`, is the relay `w`. -/
structure Tracks (z : Codec) (toJson : QJsonObject → QByteArray) (f : QString) (ls : Lines)
    (t : Symbol) (D : Deployment) (w : Clients WorkerId) : Prop where
  fifo : Fifo w
  meeting : Meeting ls.flatten t w
  server : WriteBack.Durable Std.TreeMap.Equiv w.server (fileStore z D.server f)
  sent : ∀ i, ∀ m ∈ w.sent i, m ∈ D.sent f
  order : w.order.map Prod.snd = D.order f
  follows : ∀ i, Follows z toJson f (fileOf D.server i) (D.site i) (D.up i) (D.down i)
    (w.client i) (w.up i) (w.down i)

section Follows

variable {z : Codec} {toJson : QJsonObject → QByteArray} {documents : QString → Option Lines}
  {f g : QString} {site : Site} {up : List Request} {down ps : List Packet} {client : CRDT}
  {wup wdown ms : List Message}

/-- More operations come down. -/
theorem Follows.more (h : Follows z toJson f g site up down client wup wdown)
    (hb : Bring z toJson ps ms) :
    Follows z toJson f g site up (down ++ ps) client wup (wdown ++ ms) := by
  refine ⟨h.up, fun hpage => ?_, fun hpage hex => ?_⟩
  · obtain ⟨hc, hd⟩ := h.editing hpage
    exact ⟨hc, hd.append hb⟩
  · obtain ⟨packet, hp, vec, hr⟩ := hex
    have hin : packet ∈ down := by
      rcases List.mem_append.mp hp with hp | hp
      · exact hp
      · obtain ⟨o, ho⟩ := hb.brings hp
        exact absurd ho (hr.not_brings site.members)
    obtain ⟨pre, reply, post, vec, a, rfl, hpre, hr, hpost, ha, hc⟩ :=
      h.answered hpage ⟨packet, hin, vec, hr⟩
    exact ⟨pre, reply, post ++ ps, vec, a, by rw [List.append_assoc]; rfl, hpre, hr,
      hpost.append hb, ha, hc⟩

/-- Who has not this file at the server has not got it open either. -/
theorem Follows.of_ne (h : Phase z toJson documents g site up down) (hg : g ≠ f)
    (hup : site.page ≠ .gone → wup = bound f g up) :
    Follows z toJson f g site up down client wup wdown :=
  ⟨hup, fun hpage => absurd (h.file_eq (.inl hpage)) hg,
    fun hpage hex => absurd (h.file_eq (.inr ⟨hpage, hex⟩)) hg⟩

/-- Away from the file. -/
theorem Follows.of_page (hup : site.page ≠ .gone → wup = bound f g up)
    (heditor : site.page ≠ .editor f) (hplain : Plain z toJson down) :
    Follows z toJson f g site up down client wup wdown := by
  refine ⟨hup, fun hpage => absurd hpage heditor, fun _ hex => ?_⟩
  obtain ⟨packet, hp, vec, hr⟩ := hex
  obtain ⟨o, ho⟩ := hplain packet hp
  exact absurd ho (hr.not_brings site.members)

end Follows

/-! ## Steps of a client -/

section Client

variable {z : Codec} {toJson : QJsonObject → QByteArray} {documents : QString → Option Lines}
  {D D' : Deployment} {i : WorkerId} {f : QString} {ls : Lines} {t : Symbol}
  {w : Clients WorkerId}

/-- What the client `i` does on its own is not seen by the others. -/
theorem Tracks.of_client (h : Tracks z toJson f ls t D w) (hserver : D'.server = D.server)
    (hsent : D'.sent f = D.sent f) (horder : D'.order f = D.order f)
    (hothers : ∀ v, v ≠ i → D'.site v = D.site v ∧ D'.up v = D.up v ∧ D'.down v = D.down v)
    (hfollows : Follows z toJson f (fileOf D.server i) (D'.site i) (D'.up i) (D'.down i)
      (w.client i) (w.up i) (w.down i)) : Tracks z toJson f ls t D' w := by
  refine ⟨h.fifo, h.meeting, hserver ▸ h.server, fun v m hm => hsent ▸ h.sent v m hm,
    h.order.trans horder.symm, fun v => ?_⟩
  rw [hserver]
  by_cases hv : v = i
  · exact hv ▸ hfollows
  · obtain ⟨hsite, hup, hdown⟩ := hothers v hv
    rw [hsite, hup, hdown]
    exact h.follows v

theorem heard_of_isEdit {m : Message} (h : m.IsEdit) : heard m = [m] := by
  cases m with
  | insert | paste | erase => rfl
  | changeSymbol | change | align => exact h.elim

theorem perform_cases {op : LocalOp} (h : D.perform i op = some D') : ∃ f crdt m,
    (D.site i).page = .editor f ∧ op.perform (D.site i).crdt = .ok (crdt, m) ∧
    D'.server = D.server ∧ D'.down = D.down ∧ D'.order = D.order ∧
    D'.site = Function.update D.site i { D.site i with crdt } ∧
    D'.up = Function.update D.up i (D.up i ++ [.operation (D.site i).crdt.siteId m]) ∧
    D'.sent = Function.update D.sent f (D.sent f ++ [m]) := by
  unfold Deployment.perform at h
  dsimp only at h
  split at h
  case h_1 f hpage =>
    split at h
    · cases h
    case h_2 crdt m hp =>
      cases h
      exact ⟨f, crdt, m, hpage, hp, rfl, rfl, rfl, rfl, rfl, rfl⟩
  case h_2 => cases h

/-- **An operation is performed.** -/
theorem sound_perform {op : LocalOp} (hs : Sound z toJson documents D)
    (hc : Considered z toJson documents D (.perform i op)) (h : D.perform i op = some D') :
    Sound z toJson documents D' := by
  obtain ⟨g, crdt, m, hpage, hp, hserver, hdown, -, hsite, hup, -⟩ := perform_cases h
  obtain ⟨hedit, -, hc⟩ := hc
  obtain ⟨hr, hl, -⟩ := hc g crdt m hpage hp
  have hsame : ∀ v, v ≠ i → D'.site v = D.site v := fun v hv => by
    rw [hsite, Function.update_of_ne hv]
  have hupi : D'.up i = D.up i ++ [.operation (D.site i).crdt.siteId m] := by
    rw [hup, Function.update_self]
  have hsitei : D'.site i = { D.site i with crdt } := by rw [hsite, Function.update_self]
  refine hs.of_apart (w := i) (.of_server hserver hsame
    (fun v hv => by rw [hup, Function.update_of_ne hv]) fun v _ => by rw [hdown])
    (hserver ▸ hs.files) (fun f hf => hserver ▸ hf) (hsitei ▸ hs.named i) ?_ ?_ ?_
  · rw [hupi]
    exact List.forall_mem_append.mpr ⟨hs.made i, by
      simpa [Made] using ⟨heard_of_isEdit (isEdit_of_perform hedit hp), hr, hl⟩⟩
  · intro _
    rw [hserver]
    exact hs.loggedIn i (by rw [hpage]; nofun)
  · rw [hserver, hupi, hsitei, hdown]
    cases hs.phase i with
    | editing hpage' hdoc ho hstay hd =>
      exact .editing hpage' hdoc ho
        (List.forall_mem_append.mpr ⟨hstay, by simp [Request.Stays]⟩) hd
    | home hpage' | asking hpage' | answered hpage' | gone hpage' =>
      rw [hpage'] at hpage
      cases hpage

theorem tracks_perform {op : LocalOp} (hs : Sound z toJson documents D)
    (hf : documents f = some ls) (hw : Tracks z toJson f ls t D w)
    (hc : Considered z toJson documents D (.perform i op)) (h : D.perform i op = some D') :
    ∃ w', Tracks z toJson f ls t D' w' := by
  obtain ⟨g, crdt, m, hpage, hp, hserver, hdown, horder, hsite, hup, hsent⟩ := perform_cases h
  obtain ⟨hedit, hlegal, hc⟩ := hc
  obtain ⟨-, -, hunused⟩ := hc g crdt m hpage hp
  have hfile : fileOf D.server i = g := (hs.phase i).file_eq (.inl hpage)
  have hstays : ∀ r ∈ D.up i, r.Stays := by
    cases hs.phase i with
    | editing _ _ _ hstay => exact hstay
    | home hpage' | asking hpage' | answered hpage' | gone hpage' =>
      rw [hpage'] at hpage
      cases hpage
  have hsitei : D'.site i = { D.site i with crdt } := by rw [hsite, Function.update_self]
  have hupi : D'.up i = D.up i ++ [.operation (D.site i).crdt.siteId m] := by
    rw [hup, Function.update_self]
  have hothers : ∀ v, v ≠ i → D'.site v = D.site v ∧ D'.up v = D.up v ∧ D'.down v = D.down v :=
    fun v hv => ⟨by rw [hsite, Function.update_of_ne hv], by rw [hup, Function.update_of_ne hv],
      by rw [hdown]⟩
  have hbound := (hw.follows i).up (by rw [hpage]; nofun)
  by_cases hg : g = f
  · -- the relay takes the same step
    subst hg
    obtain ⟨hclient, hbring⟩ := (hw.follows i).editing hpage
    have hstep : Step (network LocalOp.IsEdit (NeverTwice ls.flatten) AsMeant) w _ :=
      .perform i ⟨op, hedit, hclient ▸ hlegal, hclient ▸ hp⟩ fun r hr =>
        ⟨(hunused ls hf r hr).1, fun k n hn => (hunused ls hf r hr).2 n (hw.sent k n hn)⟩
    refine ⟨_, hw.fifo.step hstep, hw.meeting.step hw.fifo hstep, hserver ▸ hw.server,
      fun v n hn => ?_, by rw [horder]; exact hw.order, fun v => ?_⟩
    · rw [hsent, Function.update_self, List.mem_append]
      by_cases hv : v = i
      · subst hv
        have hn' : n ∈ w.sent v ∨ n = m := by simpa using hn
        exact hn'.imp (hw.sent v n) List.mem_singleton.mpr
      · exact .inl (hw.sent v n (by simpa [hv] using hn))
    · rw [hserver]
      by_cases hv : v = i
      · subst hv
        rw [hsitei, hupi, hdown]
        simp only [Function.update_self]
        refine ⟨fun _ => ?_, fun _ => ⟨rfl, hbring⟩, fun hawait => ?_⟩
        · rw [bound_append_operation hstays, hfile, if_pos rfl, hbound, hfile]
        · rw [hpage] at hawait
          cases hawait
      · obtain ⟨hsv, huv, hdv⟩ := hothers v hv
        rw [hsv, huv, hdv]
        simp only [Function.update_of_ne hv]
        exact hw.follows v
  · refine ⟨w, hw.of_client hserver (by rw [hsent, Function.update_of_ne (Ne.symm hg)])
      (by rw [horder]) hothers ?_⟩
    rw [hsitei, hupi, hdown]
    refine ⟨fun _ => ?_, fun hedits => ?_, fun hawait => ?_⟩
    · rw [bound_append_operation hstays, hfile, if_neg hg, List.append_nil, hbound, hfile]
    · rw [hpage] at hedits
      exact absurd (Page.editor.inj hedits) hg
    · rw [hpage] at hawait
      cases hawait

/-- **A request is sent** that carries no operation. -/
theorem sound_send {r : Request} (site : Site) (hs : Sound z toJson documents D)
    (hr : Made z toJson r) (hnamed : Named site)
    (hgone : site.page ≠ .gone → (D.site i).page ≠ .gone)
    (hphase : Phase z toJson documents (fileOf D.server i) site (D.up i ++ [r]) (D.down i)) :
    Sound z toJson documents ((D.setSite i site).send i r) := by
  have hsite : ((D.setSite i site).send i r).site i = site := by
    simp [Deployment.setSite, Deployment.send]
  have hup : ((D.setSite i site).send i r).up i = D.up i ++ [r] := by
    simp [Deployment.setSite, Deployment.send]
  refine hs.of_apart (w := i) (.of_server rfl
    (fun v hv => by simp [Deployment.setSite, Deployment.send, hv])
    (fun v hv => by simp [Deployment.setSite, Deployment.send, hv]) fun v _ => rfl) hs.files
    (fun f hf => hf) (by rw [hsite]; exact hnamed) ?_ ?_ ?_
  · rw [hup]
    exact List.forall_mem_append.mpr ⟨hs.made i, by simpa using hr⟩
  · rw [hsite]
    exact fun hpage => hs.loggedIn i (hgone hpage)
  · rw [hsite, hup]
    exact hphase

theorem tracks_send {r : Request} (site : Site) (hw : Tracks z toJson f ls t D w)
    (hr : ∀ n m, r ≠ .operation n m) (hgone : site.page ≠ .gone → (D.site i).page ≠ .gone)
    (heditor : site.page = .editor f →
      (D.site i).page = .editor f ∧ site.crdt = (D.site i).crdt)
    (hawait : site.page = .awaiting f →
      (∃ packet ∈ D.down i, ∃ vec, Replies z toJson packet f vec) →
      (D.site i).page = .awaiting f ∧ site.crdt = (D.site i).crdt) :
    Tracks z toJson f ls t ((D.setSite i site).send i r) w := by
  have hi := hw.follows i
  refine hw.of_client (i := i) rfl rfl rfl (fun v hv => ?_) ?_
  · simp [Deployment.setSite, Deployment.send, hv]
  · simp only [Deployment.setSite, Deployment.send, Function.update_self]
    refine ⟨fun hpage => ?_, fun hpage => ?_, fun hpage hex => ?_⟩
    · rw [bound_append hr]
      exact hi.up (hgone hpage)
    · obtain ⟨hedits, hcrdt⟩ := heditor hpage
      exact hcrdt ▸ hi.editing hedits
    · obtain ⟨hawaits, hcrdt⟩ := hawait hpage hex
      exact hcrdt ▸ hi.answered hawaits hex

/-- A request that is about no file. -/
theorem sound_idle {r : Request} (hs : Sound z toJson documents D) (hr : Made z toJson r)
    (hidle : r.Idle) (hpage : (D.site i).page ≠ .gone) :
    Sound z toJson documents (D.send i r) := by
  have h := sound_send (D.site i) hs hr (hs.named i) id
    ((hs.phase i).send_idle hidle hpage)
  rwa [Deployment.setSite, Function.update_eq_self] at h

theorem tracks_idle {r : Request} (hw : Tracks z toJson f ls t D w) (hidle : r.Idle) :
    Tracks z toJson f ls t (D.send i r) w := by
  have h := tracks_send (D.site i) hw (i := i) (r := r)
    (fun n m => by rintro rfl; exact hidle) id (fun h => ⟨h, rfl⟩) fun h _ => ⟨h, rfl⟩
  rwa [Deployment.setSite, Function.update_eq_self] at h

theorem moveCursor_cases {line index : Nat} (h : D.moveCursor i line index = some D') :
    (D.site i).page ≠ .gone ∧ ∃ r, D' = D.send i (.cursor (symbolMessage (D.site i).crdt.siteId
      .cursor r)) := by
  unfold Deployment.moveCursor at h
  split at h
  · cases h
  case h_2 hpage =>
    split at h
    · cases h
    case h_2 message hm =>
      obtain ⟨l, -, hm⟩ := bind_eq_ok.mp hm
      obtain ⟨r, -, hm⟩ := bind_eq_ok.mp hm
      cases hm
      cases h
      exact ⟨hpage, r, rfl⟩

theorem ask_cases {doc : QJsonObject} (h : D.ask i doc = some D') :
    (D.site i).page ≠ .gone ∧ D' = D.send i (.ask doc) := by
  unfold Deployment.ask at h
  split at h
  · cases h
  case h_2 hpage =>
    cases h
    exact ⟨hpage, rfl⟩

/-- **A file is chosen.** -/
theorem sound_choose {g : QString} (hs : Sound z toJson documents D)
    (hpage : (D.site i).page = .home) (hdoc : ∃ ls, documents g = some ls) :
    Sound z toJson documents (D.choose i g) := by
  refine sound_send _ hs trivial (hs.named i) (fun _ => by rw [hpage]; nofun) ?_
  cases hs.phase i with
  | home _ hclear hsettles hd =>
    exact .asking rfl hdoc hclear rfl hsettles (by simp) hd
  | asking hpage' | answered hpage' | editing hpage' | gone hpage' =>
    rw [hpage'] at hpage
    cases hpage

theorem tracks_choose {g : QString} (hs : Sound z toJson documents D)
    (hw : Tracks z toJson f ls t D w) (hpage : (D.site i).page = .home) :
    Tracks z toJson f ls t (D.choose i g) w := by
  refine tracks_send _ hw nofun (fun _ => by rw [hpage]; nofun) nofun fun _ hex => ?_
  obtain ⟨packet, hp, vec, hr⟩ := hex
  cases hs.phase i with
  | home _ _ _ hd =>
    obtain ⟨o, ho⟩ := hd packet hp
    exact absurd ho (hr.not_brings (D.site i).members)
  | asking hpage' | answered hpage' | editing hpage' | gone hpage' =>
    rw [hpage'] at hpage
    cases hpage

theorem exit_cases (h : D.exit i = some D') : ∃ g, (D.site i).page = .editor g ∧
    D' = (D.setSite i { D.site i with
      crdt := CRDT.clear (D.site i).crdt.siteId, page := .home }).send i
        (.closeFile (D.site i).members.state.openfile (D.site i).members.state.username
          (D.site i).members.state.nickname) := by
  unfold Deployment.exit at h
  dsimp only at h
  split at h
  case h_1 g hpage =>
    cases h
    exact ⟨g, hpage, rfl⟩
  case h_2 => cases h

/-- **The editor is left.** -/
theorem sound_exit (hd : Documented documents) (hs : Sound z toJson documents D)
    (h : D.exit i = some D') : Sound z toJson documents D' := by
  obtain ⟨g, hpage, rfl⟩ := exit_cases h
  refine sound_send _ hs trivial (hs.named i) (fun _ => by rw [hpage]; nofun) ?_
  cases hs.phase i with
  | editing _ hdoc hopen hstays hplain =>
    obtain ⟨ls, hdoc⟩ := hdoc
    obtain ⟨hne, hsimp⟩ := hd.named _ _ hdoc
    obtain ⟨huser, hnick⟩ := hs.named i
    refine .home rfl rfl (settles_close hne ?_ hstays) hplain
    rw [closeFileField_message (by rwa [hopen, hsimp]) huser hnick, hopen, hsimp]
  | home hpage' | asking hpage' | answered hpage' | gone hpage' =>
    rw [hpage'] at hpage
    cases hpage

theorem tracks_exit (hw : Tracks z toJson f ls t D w) (h : D.exit i = some D') :
    Tracks z toJson f ls t D' w := by
  obtain ⟨g, hpage, rfl⟩ := exit_cases h
  exact tracks_send _ hw nofun (fun _ => by rw [hpage]; nofun) nofun nofun

/-! ## Packets that are taken -/

theorem packet_of_deliver (h : D.deliver z toJson i = some D') : ∃ packet rest,
    D.down i = packet :: rest ∧ (D.site i).page ≠ .gone := by
  unfold Deployment.deliver at h
  dsimp only at h
  split at h
  · cases h
  · cases h
  case h_3 packet rest hdown hpage => exact ⟨packet, rest, hdown, hpage⟩

/-- A packet without a file. -/
theorem deliver_brings {packet : Packet} {rest : List Packet} {o : Option Message}
    (h : D.deliver z toJson i = some D') (hdown : D.down i = packet :: rest)
    (hb : Brings z toJson packet o) : ∃ files crdt signals,
      (D.site i).crdt.handleAll o.toList = .ok (crdt, signals) ∧
      D' = { D with down := Function.update D.down i rest }.setSite i
        ⟨crdt, { (D.site i).members with files }, (D.site i).page⟩ := by
  obtain ⟨files, signals, hrec, hops, hopened, hchosen⟩ := hb (D.site i).members
  unfold Deployment.deliver at h
  dsimp only at h
  split at h
  · cases h
  · cases h
  case h_3 p ps hd _ =>
    cases hdown.symm.trans hd
    rw [hrec] at h
    dsimp only at h
    rw [hops, hopened, hchosen] at h
    split at h
    · cases h
    case h_2 crdt g hall =>
      cases h
      exact ⟨files, crdt, g, hall, rfl⟩

/-- The file that was asked for. -/
theorem deliver_reply {packet : Packet} {rest : List Packet} {g : QString} {vec : List Symbol}
    (h : D.deliver z toJson i = some D') (hdown : D.down i = packet :: rest)
    (hr : Replies z toJson packet g vec) : ∃ sharedLink crdt signals,
      (D.site i).crdt.handleAll (loadOperations vec) = .ok (crdt, signals) ∧
      D' = { D with down := Function.update D.down i rest }.setSite i
        ⟨crdt, { (D.site i).members with
          state := { (D.site i).members.state with openfile := g, sharedLink } }, .editor g⟩ := by
  obtain ⟨sharedLink, hr⟩ := hr
  obtain ⟨users, hrec⟩ := hr (D.site i).members
  unfold Deployment.deliver at h
  dsimp only at h
  split at h
  · cases h
  · cases h
  case h_3 p ps hd _ =>
    cases hdown.symm.trans hd
    rw [hrec] at h
    dsimp only at h
    rw [operations_loadSignals] at h
    split at h
    · cases h
    case h_2 crdt signals hall =>
      have hopened : Signals.opened ⟨[], loadSignals vec ++
          [.usersConnectedReceived users, .correctOpenedFile]⟩ = true := by
        simp [Signals.opened]
      rw [hopened] at h
      cases h
      exact ⟨sharedLink, crdt, signals, hall, rfl⟩

/-- Only in the editor does a packet bring an operation. -/
theorem considered_brings {packet : Packet} {rest : List Packet} {o : Option Message}
    (hc : Considered z toJson documents D (.deliver i)) (hdown : D.down i = packet :: rest)
    (hb : Brings z toJson packet o) :
    ((∃ f, (D.site i).page = .editor f) ∧ ∀ m ∈ o, AsMeant (D.site i).crdt m) ∨ o = none := by
  obtain ⟨files, signals, hrec, hops, hopened, -⟩ := hb (D.site i).members
  rcases hc packet rest _ signals hdown hrec with ⟨hpage, hall⟩ | ho | hnil
  · rw [hops] at hall
    exact .inl ⟨hpage, fun m hm => hall m (Option.mem_toList.mpr hm)⟩
  · rw [hopened] at ho
    cases ho
  · rw [hops] at hnil
    exact .inr (Option.toList_eq_nil_iff.mp hnil)

/-- **A packet is taken.** -/
theorem sound_deliver (hs : Sound z toJson documents D)
    (hc : Considered z toJson documents D (.deliver i)) (h : D.deliver z toJson i = some D') :
    Sound z toJson documents D' := by
  obtain ⟨packet, rest, hdown, hgone⟩ := packet_of_deliver h
  have hphase := hs.phase i
  rw [hdown] at hphase
  -- all that is new is the site and what is left of the packets
  have hnext : ∀ site : Site, Named site →
      Phase z toJson documents (fileOf D.server i) site (D.up i) rest →
      Sound z toJson documents
        ({ D with down := Function.update D.down i rest }.setSite i site) := by
    intro site hnamed hp
    refine hs.of_apart (w := i) (.of_server rfl
      (fun v hv => by simp [Deployment.setSite, hv]) (fun v _ => rfl)
      fun v hv => by simp [Deployment.setSite, hv]) hs.files (fun f hf => hf) ?_ (hs.made i)
      (fun _ => hs.loggedIn i hgone) ?_
    · simpa [Deployment.setSite] using hnamed
    · simpa [Deployment.setSite] using hp
  rcases hphase.first hgone with ⟨o, hb⟩ | ⟨vec, -, -, hr, hopens⟩
  · obtain ⟨files, crdt, signals, hall, rfl⟩ := deliver_brings h hdown hb
    refine hnext _ (hs.named i) (hphase.take_brings hb ?_)
    rcases considered_brings hc hdown hb with ⟨hpage, -⟩ | rfl
    · exact .inl hpage
    · exact .inr (Prod.mk.inj (Except.ok.inj hall)).1.symm
  · obtain ⟨sharedLink, crdt, signals, -, rfl⟩ := deliver_reply h hdown hr
    exact hnext _ (hs.named i) (hopens crdt _ rfl)

theorem onReceived_of_isEdit {c : CRDT} {m : Message} (h : m.IsEdit) :
    c.onReceived m = c.handle m := by
  cases m with
  | insert | paste | erase => rfl
  | changeSymbol | change | align => exact h.elim

/-- A packet without an operation for the file that is looked at. -/
theorem tracks_brings {packet : Packet} {rest : List Packet} {o : Option Message}
    (hw : Tracks z toJson f ls t D w)
    (hc : Considered z toJson documents D (.deliver i)) (h : D.deliver z toJson i = some D')
    (hdown : D.down i = packet :: rest) (hb : Brings z toJson packet o)
    (hpage : (D.site i).page ≠ .editor f) : Tracks z toJson f ls t D' w := by
  obtain ⟨files, crdt, signals, hall, rfl⟩ := deliver_brings h hdown hb
  have hi := hw.follows i
  refine hw.of_client (i := i) rfl rfl rfl (fun v hv => ?_) ?_
  · simp [Deployment.setSite, hv]
  · simp only [Deployment.setSite, Function.update_self]
    refine ⟨hi.up, fun hedits => absurd hedits hpage, fun hawait hex => ?_⟩
    obtain ⟨packet', hp, vec, hr⟩ := hex
    obtain ⟨pre, reply, post, vec, a, hd, hpre, hr, hpost, ha, hclient⟩ :=
      hi.answered hawait ⟨packet', hdown ▸ List.mem_cons_of_mem _ hp, vec, hr⟩
    cases pre with
    | nil =>
      obtain ⟨rfl, -⟩ := List.cons.inj (hdown.symm.trans hd)
      exact absurd hb (hr.not_brings (D.site i).members)
    | cons p pre =>
      obtain ⟨rfl, hrest⟩ := List.cons.inj (hdown.symm.trans hd)
      have hcrdt : crdt.siteId = (D.site i).crdt.siteId := by
        rcases considered_brings hc hdown hb with ⟨⟨g, hg⟩, -⟩ | rfl
        · rw [hawait] at hg
          cases hg
        · rw [(Prod.mk.inj (Except.ok.inj hall)).1]
      exact ⟨pre, reply, post, vec, a, hrest, (List.forall_mem_cons.mp hpre).2, hr, hpost,
        hcrdt ▸ ha, hclient⟩

/-- What a packet brings to the client that has the file open, the relay delivers. -/
theorem tracks_editing {packet : Packet} {rest : List Packet} (hw : Tracks z toJson f ls t D w)
    (hc : Considered z toJson documents D (.deliver i)) (h : D.deliver z toJson i = some D')
    (hdown : D.down i = packet :: rest) (hpage : (D.site i).page = .editor f) :
    ∃ w', Tracks z toJson f ls t D' w' := by
  have hi := hw.follows i
  obtain ⟨hclient, hbring⟩ := hi.editing hpage
  obtain ⟨o, ms, hb, hrest, hms⟩ := (hdown ▸ hbring).cons_inv
  obtain ⟨files, crdt, signals, hall, rfl⟩ := deliver_brings h hdown hb
  have hawaits : (D.site i).page ≠ .awaiting f := by simp [hpage]
  cases o with
  | none =>
    refine ⟨w, hw.of_client (i := i) rfl rfl rfl (fun v hv => ?_) ?_⟩
    · simp [Deployment.setSite, hv]
    · simp only [Deployment.setSite, Function.update_self]
      refine ⟨hi.up, fun _ => ⟨?_, by rw [hms]; exact hrest⟩, fun hawait => absurd hawait hawaits⟩
      rw [hclient]
      exact (Prod.mk.inj (Except.ok.inj hall)).1
  | some m =>
    have hd : w.down i = m :: ms := hms
    obtain ⟨hclean, hmeant⟩ | hnone := considered_brings hc hdown hb
    case inr => cases hnone
    have hedit : m.IsEdit := (hw.meeting.carries.down i m (by simp [hd])).edit
    obtain ⟨⟨c, g⟩, hm, hnil⟩ := bind_eq_ok.mp hall
    obtain ⟨rfl, -⟩ := Prod.mk.inj (Except.ok.inj hnil)
    have hstep : Step (network LocalOp.IsEdit (NeverTwice ls.flatten) AsMeant) w _ :=
      .deliver i hd ⟨hclient ▸ hmeant m rfl, g, by
        rw [hclient, onReceived_of_isEdit hedit]
        exact hm⟩
    refine ⟨_, hw.fifo.step hstep, hw.meeting.step hw.fifo hstep, hw.server, hw.sent, hw.order,
      fun v => ?_⟩
    by_cases hv : v = i
    · subst hv
      simp only [Deployment.setSite, Function.update_self]
      exact ⟨hi.up, fun _ => ⟨rfl, hrest⟩, fun hawait => absurd hawait hawaits⟩
    · simp only [Deployment.setSite, Function.update_of_ne hv]
      exact hw.follows v

/-- The reply that comes first loads as the relay's client. -/
theorem Follows.replied {reply : Packet} {rest : List Packet} {vec : List Symbol} {site : Site}
    {up : List Request} {client : CRDT} {wup wdown : List Message}
    (h : Follows z toJson f f site up (reply :: rest) client wup wdown)
    (hawait : site.page = .awaiting f) (hr : Replies z toJson reply f vec) :
    ∃ vec a, Replies z toJson reply f vec ∧ Bring z toJson rest wdown ∧
      (Screen.clear site.crdt.siteId).load vec = .ok a ∧ a.crdt = client := by
  obtain ⟨pre, reply', post, vec', a, hd, hpre, hr', hpost, ha, hclient⟩ :=
    h.answered hawait ⟨reply, by simp, vec, hr⟩
  cases pre with
  | nil =>
    obtain ⟨rfl, rfl⟩ := List.cons.inj hd
    exact ⟨vec', a, hr', hpost, ha, hclient⟩
  | cons p pre =>
    obtain ⟨rfl, -⟩ := List.cons.inj hd
    obtain ⟨⟨o, hb⟩, -⟩ := List.forall_mem_cons.mp hpre
    exact absurd hb (hr.not_brings site.members)

/-- The client loads what the relay has given it when the server took the request. -/
theorem tracks_reply {reply : Packet} {rest : List Packet} {vec : List Symbol}
    (hw : Tracks z toJson f ls t D w) (h : D.deliver z toJson i = some D')
    (hdown : D.down i = reply :: rest) (hawait : (D.site i).page = .awaiting (fileOf D.server i))
    (hclear : (D.site i).Cleared) (hr : Replies z toJson reply (fileOf D.server i) vec) :
    Tracks z toJson f ls t D' w := by
  have hi := hw.follows i
  have hup := hi.up (by simp [hawait])
  by_cases hg : fileOf D.server i = f
  · subst hg
    obtain ⟨vec', a, hr', hbring, ha, hclient⟩ := (hdown ▸ hi).replied hawait hr
    obtain ⟨sharedLink, crdt, signals, hall, rfl⟩ := deliver_reply h hdown hr'
    obtain ⟨g, hload⟩ := handleAll_loadOperations ha
    have hcrdt : a.crdt = crdt := by
      rw [Site.Cleared] at hclear
      rw [hclear] at hall
      exact (Prod.mk.inj (Except.ok.inj (hload.symm.trans hall))).1
    refine hw.of_client (i := i) rfl rfl rfl (fun v hv => ?_) ?_
    · simp [Deployment.setSite, hv]
    · simp only [Deployment.setSite, Function.update_self]
      exact ⟨fun _ => hup, fun _ => ⟨hclient.symm.trans hcrdt, hbring⟩, fun hpage => by cases hpage⟩
  · obtain ⟨sharedLink, crdt, signals, -, rfl⟩ := deliver_reply h hdown hr
    refine hw.of_client (i := i) rfl rfl rfl (fun v hv => ?_) ?_
    · simp [Deployment.setSite, hv]
    · simp only [Deployment.setSite, Function.update_self]
      exact ⟨fun _ => hup, fun hedits => absurd (Page.editor.inj hedits) hg,
        fun hpage => by cases hpage⟩

theorem tracks_deliver (hs : Sound z toJson documents D) (hw : Tracks z toJson f ls t D w)
    (hc : Considered z toJson documents D (.deliver i)) (h : D.deliver z toJson i = some D') :
    ∃ w', Tracks z toJson f ls t D' w' := by
  obtain ⟨packet, rest, hdown, hpage⟩ := packet_of_deliver h
  by_cases heditor : (D.site i).page = .editor f
  · exact tracks_editing hw hc h hdown heditor
  · rcases (hdown ▸ hs.phase i).first hpage with ⟨o, hb⟩ | ⟨vec, hawait, hclear, hr, -⟩
    · exact ⟨w, tracks_brings hw hc h hdown hb heditor⟩
    · exact ⟨w, tracks_reply hw h hdown hawait hclear hr⟩

end Client

/-! ## Steps of the server -/

/-- The operation in a request. -/
def Request.message : Request → Option Message
  | .operation _ m => some m
  | _ => none

/-- The file of a worker after a request. -/
def Request.after (g : QString) : Request → QString
  | .openFile f => f
  | .closeFile .. => []
  | _ => g

theorem bound_cons (f g : QString) (r : Request) (up : List Request) :
    bound f g (r :: up) = (if g = f then r.message.toList else []) ++ bound f (r.after g) up := by
  cases r with
  | operation n m => by_cases hg : g = f <;> simp [bound, Request.message, Request.after, hg]
  | _ => simp [bound, Request.message, Request.after]

section Serving

variable {z : Codec} {toJson : QJsonObject → QByteArray} {documents : QString → Option Lines}
  {D D' : Deployment} {i : WorkerId} {f : QString} {ls : Lines} {t : Symbol}
  {w : Clients WorkerId} {d : Driver} {server : Server} {outs : List Output}

theorem serve_cases {e : Server.Event} (h : D.serve z d e = some D') : ∃ server outs,
    D.server.handle z d e = .ok (server, outs) ∧
    D' = { D with server, down := fun v => D.down v ++ addressed outs v } := by
  unfold Deployment.serve at h
  split at h
  · cases h
  case h_2 server outs hh =>
    cases h
    exact ⟨server, outs, hh, rfl⟩

theorem process_cases (h : D.process z toJson d i = some D') : ∃ r rest server outs,
    D.up i = r :: rest ∧
    D.server.handle z d (eventOf i (r.payload toJson)) = .ok (server, outs) ∧
    D'.server = server ∧ D'.site = D.site ∧ D'.up = Function.update D.up i rest ∧
    D'.down = (fun v => D.down v ++ addressed outs v) ∧ D'.sent = D.sent ∧
    ∀ f, D'.order f = D.order f ++ if fileOf D.server i = f then r.message.toList else [] := by
  unfold Deployment.process at h
  split at h
  · cases h
  case h_2 r rest hup =>
    obtain ⟨server, outs, hh, rfl⟩ := serve_cases h
    refine ⟨r, rest, server, outs, hup, hh, rfl, rfl, rfl, rfl, rfl, fun f => ?_⟩
    cases r with
    | operation n m =>
      by_cases hf : fileOf D.server i = f
      · subst hf
        simp [Request.message]
      · simp [hf, Function.update_of_ne (Ne.symm hf)]
    | _ => simp [Request.message]

/-- What becomes of a request. -/
structure Taken (z : Codec) (toJson : QJsonObject → QByteArray)
    (documents : QString → Option Lines) (D : Deployment) (i : WorkerId) (r : Request)
    (rest : List Request) (server : Server) (outs : List Output) : Prop where
  serves : Serves z toJson D.server i r.message server outs
  loggedIn : LoggedIn server i (r.after (fileOf D.server i))
  phase : Phase z toJson documents (r.after (fileOf D.server i)) (D.site i) rest
    (D.down i ++ addressed outs i)
  replies : (∀ f, r ≠ .openFile f) → ∀ packet ∈ addressed outs i, Brings z toJson packet none
  opens : ∀ f, r = .openFile f → (∀ r ∈ rest, r.Idle) ∧ Plain z toJson (D.down i) ∧
    (D.site i).page = .awaiting f ∧ ∃ symbols reply, server.symbolsList[f]? = some symbols ∧
      addressed outs i = [reply] ∧ Replies z toJson reply f symbols.values ∧
      Loadable symbols.values

theorem page_of_up {r : Request} {rest : List Request} (hs : Sound z toJson documents D)
    (hup : D.up i = r :: rest) : (D.site i).page ≠ .gone := by
  cases hs.phase i with
  | gone _ hnil =>
    rw [hup] at hnil
    cases hnil
  | home hpage | asking hpage | answered hpage | editing hpage =>
    rw [hpage]
    nofun

/-- **Each request is taken** as it was meant. -/
theorem taken_of_process (hz : ∀ data, z.qUncompress (z.qCompress data) = data)
    (hd : Documented documents) (hs : Sound z toJson documents D)
    (hc : Considered z toJson documents D (.process i d)) {r : Request} {rest : List Request}
    (hup : D.up i = r :: rest)
    (h : D.server.handle z d (eventOf i (r.payload toJson)) = .ok (server, outs)) :
    Taken z toJson documents D i r rest server outs := by
  have hlog := hs.loggedIn i (page_of_up hs hup)
  have hmade := hs.made i r (by simp [hup])
  have hphase := hs.phase i
  rw [hup] at hphase
  cases r with
  | operation n m =>
    obtain ⟨hm, hr, hl⟩ := hmade
    obtain ⟨hserves, hlog', hnil⟩ := serves_operation hz hs.files hlog hm hr hl h
    refine ⟨hserves, hlog', ?_, fun _ packet hp => ?_, nofun⟩
    · rw [hnil, List.append_nil]
      exact hphase.take_stays trivial
    · rw [hnil] at hp
      cases hp
  | cursor message =>
    obtain ⟨n, x, rfl⟩ := hmade
    obtain ⟨hserves, hlog', hnil⟩ := serves_cursor toJson hz hs.files hlog h
    refine ⟨hserves, hlog', ?_, fun _ packet hp => ?_, nofun⟩
    · rw [hnil, List.append_nil]
      exact hphase.take_stays trivial
    · rw [hnil] at hp
      cases hp
  | ask doc =>
    obtain ⟨request, hmem, hreq⟩ := hmade
    obtain ⟨hserves, hlog', hnone⟩ := serves_ask toJson hz hs.files hlog hreq hmem h
    exact ⟨hserves, hlog', (hphase.take_stays trivial).more (.of_none hnone), fun _ => hnone, nofun⟩
  | closeFile openfile username nickname =>
    obtain ⟨hne, hfield, hafter⟩ := hphase.take_close
    obtain ⟨hserves, hlog', hnone⟩ :=
      serves_close toJson hz hs.files hlog hne hfield h
    exact ⟨hserves, hlog', hafter.more (.of_none hnone), fun _ => hnone, nofun⟩
  | openFile g =>
    obtain ⟨hnil, ⟨ls, hdoc⟩, hidle, hpage, hplain, hafter⟩ := hphase.take_open
    obtain ⟨hne, hsimp⟩ := hd.named g ls hdoc
    have hfield : sendFileField (openFileMessage g) = .ok g := by
      rw [sendFileField, textField_string (s := g) rfl (by rwa [hsimp]), hsimp]
    obtain ⟨hread, hload⟩ := hc g rest server outs hup h
    rw [hnil] at hlog
    obtain ⟨hserves, hlog', symbols, reply, hm, haddr, hr⟩ := serves_open hz hs.files hlog hfield
      (hs.written g ls hdoc) h hread fun symbols hm => by
        obtain ⟨x, hx, -⟩ := (hload symbols hm).first
        exact List.ne_nil_of_mem hx
    refine ⟨hserves, hlog', ?_, fun hno => absurd rfl (hno g), fun f hf => ?_⟩
    · rw [haddr]
      exact hafter reply _ hr
    · cases hf
      exact ⟨hidle, hplain, hpage, symbols, reply, hm, haddr, hr, hload symbols hm⟩

/-- The server has taken the request `r`, the next one of the client `i`. -/
structure Processed (z : Codec) (toJson : QJsonObject → QByteArray)
    (documents : QString → Option Lines) (D : Deployment) (i : WorkerId) (r : Request)
    (rest : List Request) (outs : List Output) (D' : Deployment) : Prop where
  next : D.up i = r :: rest
  taken : Taken z toJson documents D i r rest D'.server outs
  site : D'.site = D.site
  up : D'.up = Function.update D.up i rest
  down : D'.down = fun v => D.down v ++ addressed outs v
  sent : D'.sent = D.sent
  order : ∀ f, D'.order f =
    D.order f ++ if fileOf D.server i = f then r.message.toList else []

theorem processed_of_process (hz : ∀ data, z.qUncompress (z.qCompress data) = data)
    (hd : Documented documents) (hs : Sound z toJson documents D)
    (hc : Considered z toJson documents D (.process i d))
    (h : D.process z toJson d i = some D') :
    ∃ r rest outs, Processed z toJson documents D i r rest outs D' := by
  obtain ⟨r, rest, server, outs, hup, hh, rfl, hsite, hup', hdown, hsent, horder⟩ :=
    process_cases h
  exact ⟨r, rest, outs, hup, taken_of_process hz hd hs hc hup hh, hsite, hup', hdown, hsent,
    horder⟩

/-- **A request is taken.** -/
theorem Processed.sound {r : Request} {rest : List Request}
    (h : Processed z toJson documents D i r rest outs D') (hs : Sound z toJson documents D) :
    Sound z toJson documents D' := by
  have ht := h.taken
  have hfile := ht.loggedIn.fileOf_eq
  refine hs.of_apart (w := i) (.of_serves hs ht.serves (fun v _ => by rw [h.site])
    (fun v hv => by rw [h.up, Function.update_of_ne hv]) fun v _ => by rw [h.down])
    ht.serves.files ht.serves.written (h.site ▸ hs.named i) ?_ ?_ ?_
  · rw [h.up, Function.update_self]
    exact fun r hr => hs.made i r (by rw [h.next]; exact List.mem_cons_of_mem _ hr)
  · intro _
    rw [hfile]
    exact ht.loggedIn
  · rw [hfile, h.site, h.up, h.down, Function.update_self]
    exact ht.phase

/-- What comes to another client, seen from the file `f`. -/
theorem Follows.served {o : Option Message} (hs : Sound z toJson documents D)
    (hs' : Sound z toJson documents D') (hserves : Serves z toJson D.server i o D'.server outs)
    {v : WorkerId} (hv : v ≠ i) (hsite : D'.site v = D.site v) (hup : D'.up v = D.up v)
    (hdown : D'.down v = D.down v ++ addressed outs v) {client : CRDT} {wup wdown : List Message}
    (h : Follows z toJson f (fileOf D.server v) (D.site v) (D.up v) (D.down v) client wup wdown) :
    Follows z toJson f (fileOf D'.server v) (D'.site v) (D'.up v) (D'.down v) client wup
      (wdown ++ if fileOf D.server i = f then o.toList else []) := by
  have hfile := fileOf_congr (hserves.workers v hv)
  by_cases hg : fileOf D.server v = f
  · by_cases hgone : (D.site v).page = .gone
    · rw [hsite]
      refine ⟨fun hpage => absurd hgone hpage, fun hpage => ?_, fun hpage => ?_⟩
      · rw [hgone] at hpage
        cases hpage
      · rw [hgone] at hpage
        cases hpage
    · rw [hfile, hsite, hup, hdown]
      have hb := hserves.others v hv (hs.loggedIn v hgone).mem
      simp only [hg, eq_comm (a := f)] at hb
      exact h.more hb
  · refine .of_ne (hs'.phase v) (hfile ▸ hg) ?_
    rw [hfile, hsite, hup]
    exact h.up

theorem load_siteId {a a' : Screen} {vec : List Symbol} (h : a.load vec = .ok a') :
    a'.crdt.siteId = a.crdt.siteId := by
  induction vec generalizing a' with
  | nil =>
    obtain rfl := Except.ok.inj h
    rfl
  | cons s vec ih =>
    obtain ⟨a1, hload, hadd⟩ := bind_eq_ok.mp h
    obtain ⟨⟨c2, g2⟩, hins, hadd⟩ := bind_eq_ok.mp hadd
    have hany : ∀ c : CRDT, AllPositions (fun _ => True) c.symbols := fun c l _ y _ => trivial
    have hinsert : Handles a1.crdt (.insert s) c2 := ⟨g2, hins⟩
    have hsite := (hinsert.facts (hany _) trivial fun _ _ => trivial).2
    dsimp only at hadd
    split at hadd
    · obtain ⟨⟨c3, g3⟩, hal, hadd⟩ := bind_eq_ok.mp hadd
      obtain rfl := Except.ok.inj hadd
      exact (handleRemoteAlignChange_all (hany c2) hal).2.trans (hsite.trans (ih hload))
    · obtain rfl := Except.ok.inj hadd
      exact hsite.trans (ih hload)

/-- What can be loaded, loads. -/
theorem exists_loaded {symbols : SymbolMap} {P : Symbol → Prop} (hs : symbols.Contains P)
    (h : Loadable symbols.values) (siteId : Int) :
    ∃ a, (Screen.clear siteId).load symbols.values = .ok a ∧ Loaded symbols a.crdt := by
  have hload : ∃ a, (Screen.clear siteId).load symbols.values = .ok a := by
    have hkey := hs.values_pairwise
    have hnd := hs.values_nodup
    generalize symbols.values = vec at h hkey hnd
    obtain ⟨s, hin, -⟩ := h.first
    obtain ⟨vec, s, rfl⟩ := (List.eq_nil_or_concat' vec).resolve_left (List.ne_nil_of_mem hin)
    obtain ⟨hn, haw, -⟩ := (loadable_iff (fun _ => Iff.rfl) hkey).mp h
    obtain ⟨a, ha, -⟩ := exists_load siteId hn hnd haw
    exact ⟨a, ha⟩
  obtain ⟨a, ha⟩ := hload
  have hsite : a.crdt.siteId = siteId := load_siteId ha
  exact ⟨a, ha, h, a, by rw [hsite]; exact ha, rfl⟩

section Processed

variable {r : Request} {rest : List Request}

/-- What is under way for the file. -/
theorem Processed.bound_eq (h : Processed z toJson documents D i r rest outs D')
    (hs : Sound z toJson documents D) (hw : Tracks z toJson f ls t D w) :
    w.up i = (if fileOf D.server i = f then r.message.toList else []) ++
      bound f (r.after (fileOf D.server i)) rest := by
  rw [← bound_cons, ← h.next]
  exact (hw.follows i).up (page_of_up hs h.next)

theorem Processed.others (h : Processed z toJson documents D i r rest outs D')
    (hs : Sound z toJson documents D) (hw : Tracks z toJson f ls t D w) {v : WorkerId}
    (hv : v ≠ i) : Follows z toJson f (fileOf D'.server v) (D'.site v) (D'.up v) (D'.down v)
      (w.client v) (w.up v)
      (w.down v ++ if fileOf D.server i = f then r.message.toList else []) :=
  (hw.follows v).served hs (h.sound hs) h.taken.serves hv (by rw [h.site])
    (by rw [h.up, Function.update_of_ne hv]) (by rw [h.down])

/-- The client itself gets no operation, unless it opens a file. -/
theorem Processed.self (h : Processed z toJson documents D i r rest outs D')
    (hw : Tracks z toJson f ls t D w) (hno : ∀ g, r ≠ .openFile g) :
    Follows z toJson f (fileOf D'.server i) (D'.site i) (D'.up i) (D'.down i) (w.client i)
      (bound f (r.after (fileOf D.server i)) rest) (w.down i) := by
  have hmore := (hw.follows i).more (Bring.of_none (h.taken.replies hno))
  rw [List.append_nil] at hmore
  rw [h.taken.loggedIn.fileOf_eq, h.site, h.up, h.down, Function.update_self]
  exact ⟨fun _ => rfl, hmore.editing, hmore.answered⟩

/-- The relay takes an operation on the file. -/
theorem Processed.operation {m : Message} (h : Processed z toJson documents D i r rest outs D')
    (hs : Sound z toJson documents D) (hw : Tracks z toJson f ls t D w)
    (hg : fileOf D.server i = f) (hm : r.message = some m) :
    ∃ w', Tracks z toJson f ls t D' w' := by
  have hdurable := h.taken.serves.durable f w.server hw.server
  have hbound := h.bound_eq hs hw
  rw [if_pos hg, hm] at hdurable hbound
  have hstep : Step (network LocalOp.IsEdit (NeverTwice ls.flatten) AsMeant) w _ :=
    .process i hbound
  refine ⟨_, hw.fifo.step hstep, hw.meeting.step hw.fifo hstep, hdurable,
    fun v n hn => h.sent ▸ hw.sent v n hn, ?_, fun v => ?_⟩
  · rw [h.order, if_pos hg, hm, ← hw.order, List.map_append]
    rfl
  · by_cases hv : v = i
    · subst hv
      simp only [Function.update_self, if_true]
      refine h.self hw fun g he => ?_
      rw [he] at hm
      cases hm
    · have hothers := h.others hs hw hv
      rw [if_pos hg, hm] at hothers
      simp only [Function.update_of_ne hv, if_neg hv]
      exact hothers

/-- Without an operation on the file, what the relay's server has stays what the file is. -/
theorem Processed.durable (h : Processed z toJson documents D i r rest outs D')
    (hw : Tracks z toJson f ls t D w)
    (hnone : (if fileOf D.server i = f then r.message.toList else []) = []) :
    WriteBack.Durable Std.TreeMap.Equiv w.server (fileStore z D'.server f) := by
  have hdurable := h.taken.serves.durable f w.server hw.server
  split_ifs at hdurable hnone with hg
  · rwa [Option.toList_eq_nil_iff.mp hnone] at hdurable
  · exact hdurable

/-- The client joins with what it will load. -/
theorem Processed.joins (h : Processed z toJson documents D i (.openFile f) rest outs D')
    (hd : Documented documents) (hs : Sound z toJson documents D) (hf : documents f = some ls)
    (ht : ls.flatten.getLast? = some t) (hw : Tracks z toJson f ls t D w) :
    ∃ w', Tracks z toJson f ls t D' w' := by
  obtain ⟨hidle, hplain, hpage, symbols, reply, hm, haddr, hr, hload⟩ := h.taken.opens f rfl
  have hnone : (if fileOf D.server i = f then (Request.openFile f).message.toList else []) = [] :=
    ite_self _
  have hserver := h.durable hw hnone
  have hup : w.up i = [] := by
    rw [h.bound_eq hs hw, hnone, List.nil_append]
    exact bound_idle hidle
  have hequiv : symbols.Equiv w.server := by
    rw [fileStore_some hm] at hserver
    exact hserver.1
  rw [values_of_equiv hequiv] at hr hload
  obtain ⟨a, ha, hloaded⟩ := exists_loaded hw.meeting.server hload (D.site i).crdt.siteId
  refine ⟨w.rejoin i a.crdt, hw.fifo.rejoin i a.crdt,
    hw.meeting.rejoin hw.fifo (hd.valid f ls hf) ht hup hloaded, hserver,
    fun v n hn => h.sent ▸ hw.sent v n hn, ?_, fun v => ?_⟩
  · rw [h.order, hnone, List.append_nil]
    exact hw.order
  · by_cases hv : v = i
    · subst hv
      rw [h.taken.loggedIn.fileOf_eq, h.site, h.up, h.down]
      simp only [World.rejoin, Function.update_self, haddr]
      refine ⟨fun _ => hup.trans (bound_idle hidle).symm, fun hedits => ?_, fun _ _ =>
        ⟨D.down v, reply, [], _, a, rfl, hplain, hr, .nil, ha, rfl⟩⟩
      rw [hpage] at hedits
      cases hedits
    · have hothers := h.others hs hw hv
      rw [hnone, List.append_nil] at hothers
      simpa only [World.rejoin, Function.update_of_ne hv] using hothers

/-- The relay does nothing at any other request. -/
theorem Processed.passes (h : Processed z toJson documents D i r rest outs D')
    (hs : Sound z toJson documents D) (hw : Tracks z toJson f ls t D w)
    (hnone : (if fileOf D.server i = f then r.message.toList else []) = [])
    (hopen : r ≠ .openFile f) : Tracks z toJson f ls t D' w := by
  have hbound := h.bound_eq hs hw
  rw [hnone, List.nil_append] at hbound
  refine ⟨hw.fifo, hw.meeting, h.durable hw hnone, fun v n hn => h.sent ▸ hw.sent v n hn, ?_,
    fun v => ?_⟩
  · rw [h.order, hnone, List.append_nil]
    exact hw.order
  · by_cases hv : v = i
    · subst hv
      by_cases hno : ∀ g, r ≠ .openFile g
      · exact hbound ▸ h.self hw hno
      · -- another file is opened
        obtain ⟨g, hg⟩ := not_forall.mp hno
        obtain rfl := not_not.mp hg
        have hfile := h.taken.loggedIn.fileOf_eq
        refine .of_ne ((h.sound hs).phase v) (fun he => hopen ?_) fun _ => ?_
        · rw [hfile] at he
          exact congrArg Request.openFile he
        · rw [hfile, h.up, Function.update_self]
          exact hbound
    · have hothers := h.others hs hw hv
      rwa [hnone, List.append_nil] at hothers

/-- **The relay takes what the server takes.** -/
theorem Processed.tracks (h : Processed z toJson documents D i r rest outs D')
    (hd : Documented documents) (hs : Sound z toJson documents D) (hf : documents f = some ls)
    (ht : ls.flatten.getLast? = some t) (hw : Tracks z toJson f ls t D w) :
    ∃ w', Tracks z toJson f ls t D' w' := by
  by_cases hop : fileOf D.server i = f ∧ ∃ m, r.message = some m
  · obtain ⟨hg, m, hm⟩ := hop
    exact h.operation hs hw hg hm
  · have hnone : (if fileOf D.server i = f then r.message.toList else []) = [] := by
      split_ifs with hg
      · rw [Option.toList_eq_nil_iff, Option.eq_none_iff_forall_ne_some]
        exact fun m hm => hop ⟨hg, m, hm⟩
      · rfl
    by_cases hopen : r = .openFile f
    · subst hopen
      exact h.joins hd hs hf ht hw
    · exact ⟨w, h.passes hs hw hnone hopen⟩

end Processed

/-! ## The other steps -/

theorem disconnect_cases (h : D.disconnect z d i = some D') : ∃ server outs,
    (D.site i).page ≠ .gone ∧ D.server.handle z d (.userDisconnected i) = .ok (server, outs) ∧
    D'.server = server ∧ D'.sent = D.sent ∧ D'.order = D.order ∧ (D'.site i).page = .gone ∧
    (D'.site i).members = (D.site i).members ∧ D'.up i = [] ∧
    ∀ v, v ≠ i → D'.site v = D.site v ∧ D'.up v = D.up v ∧
      D'.down v = D.down v ++ addressed outs v := by
  unfold Deployment.disconnect at h
  split at h
  · cases h
  case h_2 hpage =>
    obtain ⟨server, outs, hh, rfl⟩ := serve_cases h
    refine ⟨server, outs, hpage, hh, rfl, rfl, rfl, ?_, ?_, ?_, fun v hv => ?_⟩
    all_goals simp [Deployment.setSite]
    simp [hv]

/-- **A client goes.** -/
theorem sound_disconnect (hz : ∀ data, z.qUncompress (z.qCompress data) = data)
    (hs : Sound z toJson documents D) (h : D.disconnect z d i = some D') :
    Sound z toJson documents D' ∧
      (∀ f ls t w, Tracks z toJson f ls t D w → Tracks z toJson f ls t D' w) := by
  obtain ⟨server, outs, hpage, hh, rfl, hsent, horder, hgone, hmembers, hup, hothers⟩ :=
    disconnect_cases h
  have hserves := serves_disconnect toJson hz hs.files (hs.loggedIn i hpage) hh
  have hs' : Sound z toJson documents D' := by
    refine hs.of_apart (w := i) (.of_serves hs hserves (fun v hv => (hothers v hv).1)
      (fun v hv => (hothers v hv).2.1) fun v hv => (hothers v hv).2.2) hserves.files
      hserves.written ?_ (by simp [hup]) (fun hp => absurd hgone hp) (.gone hgone hup)
    rw [Named, hmembers]
    exact hs.named i
  refine ⟨hs', fun f ls t w hw => ⟨hw.fifo, hw.meeting, ?_, fun v n hn => hsent ▸ hw.sent v n hn,
    by rw [horder]; exact hw.order, fun v => ?_⟩⟩
  · have hdurable := hserves.durable f w.server hw.server
    split_ifs at hdurable <;> exact hdurable
  · by_cases hv : v = i
    · subst hv
      refine ⟨fun hp => absurd hgone hp, fun hp => ?_, fun hp => ?_⟩
      · rw [hgone] at hp
        cases hp
      · rw [hgone] at hp
        cases hp
    · obtain ⟨hsite, hup', hdown⟩ := hothers v hv
      have hv' := (hw.follows v).served hs hs' hserves hv hsite hup' hdown
      simpa using hv'

/-- **The files are saved.** -/
theorem sound_timeout (hz : ∀ data, z.qUncompress (z.qCompress data) = data)
    (hs : Sound z toJson documents D) (h : D.serve z d .timeout = some D') :
    Sound z toJson documents D' ∧
      (∀ f ls t w, Tracks z toJson f ls t D w → Tracks z toJson f ls t D' w) := by
  obtain ⟨server, outs, hh, rfl⟩ := serve_cases h
  obtain ⟨hserves, hclients, rfl⟩ := serves_timeout toJson hz hs.files 0 hh
  have hfile : ∀ v, fileOf server v = fileOf D.server v := fun v =>
    fileOf_congr (by rw [hclients])
  have hdown : ∀ v, D.down v ++ addressed [] v = D.down v := fun v => List.append_nil _
  refine ⟨⟨hserves.files, fun f ls hf => hserves.written f (hs.written f ls hf), hs.named, hs.made,
    fun v hv => ?_, fun v => ?_⟩, fun f ls t w hw => ⟨hw.fifo, hw.meeting, ?_, hw.sent, hw.order,
      fun v => ?_⟩⟩
  · simp only [hfile]
    exact (hs.loggedIn v hv).congr (by rw [hclients])
  · simp only [hfile, hdown]
    exact hs.phase v
  · have hdurable := hserves.durable f w.server hw.server
    split_ifs at hdurable <;> exact hdurable
  · simp only [hfile, hdown]
    exact hw.follows v

end Serving

end Scriba.System
