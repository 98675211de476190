import Scriba.Client.Attribution
import Scriba.Client.Messages
import Scriba.Client.RemoteCursors

/-! # The users at the side

`addUsers`, `removeUser` and `peerYou` of `Client/editor.cpp`, and what calls them. The highlighter
is asked whether a user is new. The item of a user who goes is looked for by the nickname, without
regard to case, and then told by the username. Of the cursors of the others only the colours are
kept here; where they stand is in `Client.RemoteCursors`. -/

namespace Scriba.Client

open Scriba.Utility Scriba.Lib Scriba.Lib.Lines

/-- What is made of names: `fromStringToIntegerHash`, the first bytes of a digest, and the case
folding that `Qt::MatchFixedString` compares. -/
structure Naming where
  hash : QString → Int
  caseFolded : QString → QString

/-- A username and a nickname are what `removeUser` looks for. -/
def Naming.finds (n : Naming) (username nickname : QString) (name : QString × QString) : Bool :=
  n.caseFolded name.2 = n.caseFolded nickname && name.1 = username

/-- An item of the list. Its icon is the picture in a ring of the colour. -/
structure PeerItem where
  text : QString
  username : QString
  picture : Pixmap
  color : QColor

structure PeerBar where
  listWidget : List PeerItem
  highlighter : Highlighter
  cursorColors : Std.TreeMap Int QColor

namespace PeerItem

def name (i : PeerItem) : QString × QString := (i.username, i.text)

/-- The item is one that `removeUser` takes off. -/
def isOf (n : Naming) (username nickname : QString) (i : PeerItem) : Bool :=
  n.finds username nickname i.name

end PeerItem

namespace PeerBar

/-! ## Calls -/

def start : PeerBar := ⟨[], .start, ∅⟩

/-- One round of the loop of `addUsers`. -/
def addUser (n : Naming) (b : PeerBar) (user : ConnectedUser) (random : Nat) : PeerBar :=
  let id := n.hash user.username
  let (highlighter, new) := b.highlighter.addClient id random
  if new then
    let color := highlighter.getColor id
    { listWidget := b.listWidget ++ [⟨user.nickname, user.username, user.picture, color⟩]
      highlighter
      cursorColors :=
        if id ∈ b.cursorColors then b.cursorColors.insert id color else b.cursorColors }
  else { b with highlighter }

/-- `random` is what `rand()` returns, call by call. -/
def addUsers (n : Naming) (random : Nat → Nat) (b : PeerBar) : List ConnectedUser → PeerBar
  | [] => b
  | user :: users => addUsers n (fun k => random (k + 1)) (b.addUser n user (random 0)) users

def removeUser (n : Naming) (b : PeerBar) (username nickname : QString) : PeerBar :=
  if b.listWidget.any (·.isOf n username nickname) then
    { listWidget := b.listWidget.eraseP (·.isOf n username nickname)
      highlighter := b.highlighter.freeColor (n.hash username)
      cursorColors := b.cursorColors.erase (n.hash username) }
  else b

/-- The user's own item. -/
def you (c : ClientState) : PeerItem :=
  ⟨c.nickname ++ QString.of " (You)", c.username, c.profile, .rgb 0 136 86⟩

def peerYou (b : PeerBar) (c : ClientState) : PeerBar :=
  { b with listWidget := b.listWidget ++ [you c] }

def clear (b : PeerBar) : PeerBar := ⟨[], b.highlighter.freeAll, ∅⟩

def addLocal (n : Naming) (b : PeerBar) (c : ClientState) : PeerBar :=
  { b with highlighter := b.highlighter.addLocal (n.hash c.username) }

def exit (n : Naming) (b : PeerBar) (c : ClientState) : PeerBar := b.clear.addLocal n c

/-- `on_remoteCursor`: a new cursor gets the colour of its user. -/
def onRemoteCursor (b : PeerBar) (editorId : Int) : PeerBar :=
  if editorId ∈ b.cursorColors then b
  else
    { b with cursorColors := b.cursorColors.insert editorId (b.highlighter.getColor editorId) }

/-! ## Slots -/

def onJsonSignal (n : Naming) (c : ClientState) (b : PeerBar) : JsonSignal → PeerBar
  | .userDisconnected username nickname => b.removeUser n username nickname
  | .correctNewFile => b.peerYou c
  | .remoteCursor editorId _ => b.onRemoteCursor editorId
  | _ => b

/-- Before the editor is shown, `on_changeWidget` calls `peerYou`. -/
def onClientSignal (n : Naming) (random : Nat → Nat) (c : ClientState) (b : PeerBar) :
    ClientSignal → PeerBar
  | .usersConnectedReceived users => b.addUsers n random users
  | .correctOpenedFile => b.peerYou c
  | .loggedIn => b.addLocal n c
  | _ => b

end PeerBar

/-! ## Who is in the list -/

namespace Highlighter

variable {h : Highlighter} {id a : Int}

theorem addClient_new (h : Highlighter) (hid : id ∉ h.users) (random : Nat) : ∃ i colors,
    h.addClient id random = (⟨h.users.insert id i, colors⟩, true) :=
  ⟨_, _, if_neg hid⟩

theorem getColor_eq (hid : id ∈ h.users) : h.getColor id = h.background id := by
  obtain ⟨i, hi⟩ := Table.exists_of_mem hid
  rw [getColor, background, hi]
  rfl

theorem background_insert {i : Int} {colors : Colors} (hne : a ≠ id) :
    (⟨h.users.insert id i, colors⟩ : Highlighter).background a = h.background a := by
  rw [background, Table.getElem?_insert, if_neg hne, background]

theorem background_freeColor (hne : a ≠ id) : (h.freeColor id).background a = h.background a := by
  rw [background, freeColor, Table.getElem?_erase, if_neg hne, background]

end Highlighter

namespace PeerBar

/-- The numbers of the user and of the others are different. -/
def Told (n : Naming) (own : QString) (names : List (QString × QString)) : Prop :=
  (n.hash own :: names.map fun p => n.hash p.1).Nodup

/-- The list shows the names, apart from the items of the user; every item, and every cursor of a
user who is there, has the colour of what its owner has written. -/
structure Seats (n : Naming) (own : QString) (names : List (QString × QString)) (b : PeerBar) :
    Prop where
  others : (b.listWidget.filter (·.username ≠ own)).map PeerItem.name = names
  users : ∀ id, id ∈ b.highlighter.users ↔ id = n.hash own ∨ ∃ p ∈ names, id = n.hash p.1
  localUser : b.highlighter.users[n.hash own]? = some (-1)
  items : ∀ i ∈ b.listWidget, i.color = b.highlighter.background (n.hash i.username)
  cursors : ∀ id ∈ b.highlighter.users, ∀ color, b.cursorColors[id]? = some color →
    color = b.highlighter.background id

/-- The items of the user. -/
def mine (own : QString) (b : PeerBar) : List PeerItem := b.listWidget.filter (·.username = own)

section Seats

variable {n : Naming} {own : QString} {names ns : List (QString × QString)} {b : PeerBar}
  {c : ClientState}

theorem Told.hash_ne (h : Told n own names) {p : QString × QString} (hp : p ∈ names) :
    n.hash p.1 ≠ n.hash own := by
  rintro he
  exact (List.nodup_cons.mp h).1 (he ▸ List.mem_map_of_mem (f := fun p => n.hash p.1) hp)

theorem Told.username_ne (h : Told n own names) {p : QString × QString} (hp : p ∈ names) :
    p.1 ≠ own := fun he => h.hash_ne hp (congrArg n.hash he)

theorem Told.hash_ne_last {p q : QString × QString} (h : Told n own (names ++ [p]))
    (hq : q ∈ names) : n.hash q.1 ≠ n.hash p.1 := by
  have hnodup := (List.nodup_cons.mp h).2
  rw [List.map_append, List.nodup_append] at hnodup
  exact hnodup.2.2 _ (List.mem_map_of_mem hq) _ (by simp)

/-- Whoever has an item is there. -/
theorem Seats.user_mem (h : Seats n own names b) {i : PeerItem} (hi : i ∈ b.listWidget) :
    n.hash i.username ∈ b.highlighter.users := by
  refine (h.users _).mpr ?_
  by_cases he : i.username = own
  · exact .inl (congrArg n.hash he)
  · refine .inr ⟨i.name, ?_, rfl⟩
    rw [← h.others]
    exact List.mem_map_of_mem (List.mem_filter.mpr ⟨hi, by simpa using he⟩)

/-- **A user comes.** -/
theorem Seats.addUser (h : Seats n own names b) {user : ConnectedUser}
    (ht : Told n own (names ++ [(user.username, user.nickname)])) (random : Nat) :
    Seats n own (names ++ [(user.username, user.nickname)]) (b.addUser n user random) ∧
      (b.addUser n user random).mine own = b.mine own := by
  have hlast := List.mem_append_right names
    (List.mem_singleton_self (user.username, user.nickname))
  have hown : user.username ≠ own := ht.username_ne hlast
  have hid : n.hash user.username ∉ b.highlighter.users := by
    intro hin
    rcases (h.users _).mp hin with he | ⟨q, hq, he⟩
    · exact ht.hash_ne hlast he
    · exact ht.hash_ne_last hq he.symm
  obtain ⟨i, colors, hadd⟩ := b.highlighter.addClient_new hid random
  rw [PeerBar.addUser, hadd]
  dsimp only
  rw [if_pos rfl]
  -- the colours of those who were there stay
  have hold : ∀ id ∈ b.highlighter.users,
      (⟨b.highlighter.users.insert (n.hash user.username) i, colors⟩ :
        Highlighter).background id = b.highlighter.background id := fun id hin =>
    Highlighter.background_insert fun he => hid (he ▸ hin)
  have hcolor := Highlighter.getColor_eq
    (h := ⟨b.highlighter.users.insert (n.hash user.username) i, colors⟩)
    (Table.mem_insert.mpr (.inl (Eq.refl (n.hash user.username))))
  refine ⟨⟨?_, fun id => ?_, ?_, fun item hitem => ?_, fun id hin color hc => ?_⟩, ?_⟩
  · rw [List.filter_append, List.map_append, h.others]
    simp [hown, PeerItem.name]
  · simp only [Table.mem_insert, h.users, List.mem_append, List.mem_singleton, or_and_right,
      exists_or, exists_eq_left]
    exact or_comm.trans or_assoc
  · rw [Table.getElem?_insert, if_neg (ht.hash_ne hlast).symm]
    exact h.localUser
  · rcases List.mem_append.mp hitem with hitem | hitem
    · exact (h.items item hitem).trans (hold _ (h.user_mem hitem)).symm
    · obtain rfl := List.mem_singleton.mp hitem
      exact hcolor
  · dsimp only at hc hin ⊢
    rcases Table.mem_insert.mp hin with rfl | hin
    · split_ifs at hc with hthere
      · rw [Table.getElem?_insert, if_pos rfl] at hc
        exact (Option.some.inj hc).symm.trans hcolor
      · exact absurd (Table.mem_of_getElem? hc) hthere
    · have hne : id ≠ n.hash user.username := fun he => hid (he ▸ hin)
      rw [hold id hin]
      refine h.cursors id hin color ?_
      split_ifs at hc
      · rwa [Table.getElem?_insert, if_neg hne] at hc
      · exact hc
  · rw [mine, mine, List.filter_append]
    simp [hown]

/-- **Users come.** -/
theorem Seats.addUsers (h : Seats n own names b) {users : List ConnectedUser}
    (ht : Told n own (names ++ users.map fun u => (u.username, u.nickname)))
    (random : Nat → Nat) :
    Seats n own (names ++ users.map fun u => (u.username, u.nickname)) (b.addUsers n random users) ∧
      (b.addUsers n random users).mine own = b.mine own := by
  induction users generalizing names b random with
  | nil => exact ⟨by simpa [PeerBar.addUsers] using h, rfl⟩
  | cons user users ih =>
    rw [List.map_cons, List.append_cons] at ht ⊢
    have hfirst : Told n own (names ++ [(user.username, user.nickname)]) := by
      refine List.Nodup.sublist ?_ ht
      exact ((List.sublist_append_left _ _).map _).cons_cons _
    obtain ⟨hseats, hmine⟩ := h.addUser hfirst (random 0)
    obtain ⟨hrest, hmine'⟩ := ih hseats ht fun k => random (k + 1)
    exact ⟨hrest, hmine'.trans hmine⟩

section Leaving

variable {names' : List (QString × QString)} {username nickname : QString}

theorem PeerItem.isOf_username {i : PeerItem} (h : i.isOf n username nickname = true) :
    i.username = username := by
  simp only [PeerItem.isOf, Naming.finds, Bool.and_eq_true, decide_eq_true_eq] at h
  exact h.2

/-- The others have other numbers than one of them. -/
theorem Told.hash_ne_mid (h : Told n own (names ++ (username, nickname) :: names'))
    {q : QString × QString} (hq : q ∈ names ++ names') : n.hash q.1 ≠ n.hash username := by
  have hnodup := (List.nodup_cons.mp h).2
  rw [List.map_append, List.map_cons, List.nodup_append, List.nodup_cons] at hnodup
  obtain ⟨-, ⟨hafter, -⟩, hbefore⟩ := hnodup
  intro he
  rcases List.mem_append.mp hq with hq | hq
  · exact hbefore _ (List.mem_map_of_mem hq) _ (by simp) he
  · exact hafter (he ▸ List.mem_map_of_mem (f := fun p => n.hash p.1) hq)

/-- One item of the others is taken off. -/
theorem others_eraseP (h : (b.listWidget.filter (·.username ≠ own)).map PeerItem.name =
      names ++ (username, nickname) :: names') (hown : username ≠ own)
    (hne : ∀ q ∈ names, q.1 ≠ username) :
    ((b.listWidget.eraseP (·.isOf n username nickname)).filter (·.username ≠ own)).map
      PeerItem.name = names ++ names' := by
  have hfilter : (b.listWidget.eraseP (·.isOf n username nickname)).filter (·.username ≠ own) =
      (b.listWidget.filter (·.username ≠ own)).eraseP (·.isOf n username nickname) := by
    rw [List.eraseP_filter]
    congr 2
    funext i
    cases hi : i.isOf n username nickname with
    | false => rfl
    | true => simp [PeerItem.isOf_username hi, hown]
  have hmap : ((b.listWidget.filter (·.username ≠ own)).eraseP
      (·.isOf n username nickname)).map PeerItem.name =
      (names ++ (username, nickname) :: names').eraseP (n.finds username nickname) := by
    rw [← h, List.eraseP_map]
    rfl
  rw [hfilter, hmap, List.eraseP_append_right, List.eraseP_cons_of_pos (by simp [Naming.finds])]
  intro q hq hf
  simp only [Naming.finds, Bool.and_eq_true, decide_eq_true_eq] at hf
  exact hne q hq hf.2

/-- The items of the user stay. -/
theorem mine_eraseP (hown : username ≠ own) :
    (b.listWidget.eraseP (·.isOf n username nickname)).filter (·.username = own) =
      b.listWidget.filter (·.username = own) := by
  by_cases hany : ∃ i ∈ b.listWidget, i.isOf n username nickname = true
  · obtain ⟨i, hi, hof⟩ := hany
    obtain ⟨item, l, r, -, hitem, hl, hr⟩ := List.exists_of_eraseP hi hof
    rw [hr, hl]
    simp [PeerItem.isOf_username hitem, hown]
  · rw [List.eraseP_of_forall_not fun i hi hof => hany ⟨i, hi, hof⟩]

/-- Who is there when a user has gone. -/
theorem Seats.users_freeColor (h : Seats n own (names ++ (username, nickname) :: names') b)
    (ht : Told n own (names ++ (username, nickname) :: names')) (id : Int) :
    id ∈ (b.highlighter.freeColor (n.hash username)).users ↔
      id = n.hash own ∨ ∃ p ∈ names ++ names', id = n.hash p.1 := by
  rw [Highlighter.freeColor, Table.mem_erase, h.users]
  constructor
  · rintro ⟨hne, rfl | ⟨q, hq, rfl⟩⟩
    · exact .inl rfl
    · refine .inr ⟨q, ?_, rfl⟩
      simp only [List.mem_append, List.mem_cons] at hq ⊢
      rcases hq with hq | rfl | hq
      · exact .inl hq
      · exact absurd rfl hne
      · exact .inr hq
  · rintro (rfl | ⟨q, hq, rfl⟩)
    · exact ⟨(ht.hash_ne (List.mem_append_right _ List.mem_cons_self)).symm, .inl rfl⟩
    · refine ⟨ht.hash_ne_mid hq, .inr ⟨q, ?_, rfl⟩⟩
      exact List.mem_append.mpr ((List.mem_append.mp hq).imp_right (List.mem_cons_of_mem _))

/-- **A user goes.** -/
theorem Seats.removeUser (h : Seats n own (names ++ (username, nickname) :: names') b)
    (ht : Told n own (names ++ (username, nickname) :: names')) :
    Seats n own (names ++ names') (b.removeUser n username nickname) ∧
      (b.removeUser n username nickname).mine own = b.mine own := by
  have hown : username ≠ own := ht.username_ne (List.mem_append_right _ List.mem_cons_self)
  obtain ⟨i, hi, hname⟩ : ∃ i ∈ b.listWidget, i.name = (username, nickname) := by
    have hin : (username, nickname) ∈
        (b.listWidget.filter (·.username ≠ own)).map PeerItem.name :=
      h.others ▸ List.mem_append_right _ List.mem_cons_self
    obtain ⟨i, hi, hname⟩ := List.mem_map.mp hin
    exact ⟨i, List.mem_of_mem_filter hi, hname⟩
  have hany : b.listWidget.any (·.isOf n username nickname) = true :=
    List.any_eq_true.mpr ⟨i, hi, by simp [PeerItem.isOf, hname, Naming.finds]⟩
  have hothers := others_eraseP (n := n) h.others hown fun q hq he =>
    ht.hash_ne_mid (List.mem_append_left _ hq) (congrArg n.hash he)
  have husers := h.users_freeColor ht
  have hstay : ∀ id ∈ (b.highlighter.freeColor (n.hash username)).users,
      id ≠ n.hash username ∧ id ∈ b.highlighter.users := fun id hin => by
    rwa [Highlighter.freeColor, Table.mem_erase] at hin
  rw [PeerBar.removeUser, if_pos hany]
  refine ⟨⟨hothers, husers, ?_, fun item hitem => ?_, fun id hin color hc => ?_⟩,
    mine_eraseP hown⟩
  · have hself := (hstay _ ((husers _).mpr (.inl rfl))).1
    rw [Highlighter.freeColor, Table.getElem?_erase, if_neg hself]
    exact h.localUser
  · have hin : n.hash item.username ∈ (b.highlighter.freeColor (n.hash username)).users := by
      refine (husers _).mpr ?_
      by_cases he : item.username = own
      · exact .inl (congrArg n.hash he)
      · refine .inr ⟨item.name, ?_, rfl⟩
        rw [← hothers]
        exact List.mem_map_of_mem (List.mem_filter.mpr ⟨hitem, by simpa using he⟩)
    exact (h.items item (List.mem_of_mem_eraseP hitem)).trans
      (Highlighter.background_freeColor (hstay _ hin).1).symm
  · obtain ⟨hne, hold⟩ := hstay id hin
    rw [Table.getElem?_erase, if_neg hne] at hc
    exact (h.cursors id hold color hc).trans (Highlighter.background_freeColor hne).symm

end Leaving

/-- **A cursor.** -/
theorem Seats.onRemoteCursor (h : Seats n own names b) (editorId : Int) :
    Seats n own names (b.onRemoteCursor editorId) := by
  rw [PeerBar.onRemoteCursor]
  split_ifs with hin
  · exact h
  · refine { h with cursors := fun id hid color hc => ?_ }
    rw [Table.getElem?_insert] at hc
    split_ifs at hc with he
    · obtain rfl := Option.some.inj hc
      rw [← he]
      exact Highlighter.getColor_eq hid
    · exact h.cursors id hid color hc

theorem Seats.peerYou (h : Seats n c.username names b) :
    Seats n c.username names (b.peerYou c) ∧
      (b.peerYou c).mine c.username = b.mine c.username ++ [you c] := by
  refine ⟨{ h with others := ?_, items := fun i hi => ?_ }, ?_⟩
  · rw [PeerBar.peerYou, List.filter_append, List.map_append, h.others]
    simp [you]
  · rcases List.mem_append.mp hi with hi | hi
    · exact h.items i hi
    · obtain rfl := List.mem_singleton.mp hi
      show QColor.rgb 0 136 86 = b.highlighter.background (n.hash c.username)
      rw [Highlighter.background, h.localUser]
      rfl
  · rw [mine, PeerBar.peerYou, List.filter_append]
    simp [mine, you]

/-- Before a file is opened. -/
def Ready (n : Naming) (c : ClientState) (b : PeerBar) : Prop :=
  Seats n c.username [] b ∧ b.mine c.username = []

/-- The list is ready when the editor has been left. -/
theorem ready_exit (n : Naming) (b : PeerBar) (c : ClientState) : Ready n c (b.exit n c) := by
  have hnone : n.hash c.username ∉ b.highlighter.freeAll.users := by simp [Highlighter.freeAll]
  have husers : (b.exit n c).highlighter.users =
      (∅ : Std.TreeMap Int Int).insert (n.hash c.username) (-1) := by
    rw [exit, addLocal, clear, Highlighter.addLocal, if_neg hnone, Highlighter.freeAll]
  refine ⟨⟨rfl, fun id => ?_, ?_, by simp [exit, clear, addLocal], fun id _ color hc => ?_⟩, rfl⟩
  · rw [husers, Table.mem_insert]
    simp
  · rw [husers, Table.getElem?_insert, if_pos rfl]
  · simp [exit, clear, addLocal] at hc

end Seats

end PeerBar

/-! ## Signals -/

/-- The signal adds nobody to the list and takes nobody off. -/
def JsonSignal.Quiet : JsonSignal → Prop
  | .userDisconnected .. | .correctNewFile => False
  | _ => True

def ClientSignal.Quiet : ClientSignal → Prop
  | .usersConnectedReceived _ | .correctOpenedFile | .loggedIn => False
  | _ => True

section Quiet

variable {n : Naming} {own : QString} {names : List (QString × QString)} {b : PeerBar}
  {c : ClientState}

theorem PeerBar.Seats.json (h : Seats n own names b) {signals : List JsonSignal}
    (hq : ∀ g ∈ signals, g.Quiet) : Seats n own names (signals.foldl (onJsonSignal n c) b) ∧
      (signals.foldl (onJsonSignal n c) b).mine own = b.mine own := by
  induction signals generalizing b with
  | nil => exact ⟨h, rfl⟩
  | cons g signals ih =>
    rw [List.forall_mem_cons] at hq
    have hstep : Seats n own names (b.onJsonSignal n c g) ∧
        (b.onJsonSignal n c g).mine own = b.mine own := by
      cases g with
      | userDisconnected | correctNewFile => exact hq.1.elim
      | remoteCursor editorId s =>
        refine ⟨h.onRemoteCursor editorId, ?_⟩
        rw [onJsonSignal, PeerBar.onRemoteCursor]
        split_ifs <;> rfl
      | _ => exact ⟨h, rfl⟩
    obtain ⟨hseats, hmine⟩ := ih hstep.1 hq.2
    exact ⟨hseats, hmine.trans hstep.2⟩

theorem PeerBar.foldl_quiet (random : Nat → Nat) {signals : List ClientSignal}
    (hq : ∀ g ∈ signals, g.Quiet) : signals.foldl (onClientSignal n random c) b = b := by
  induction signals with
  | nil => rfl
  | cons g signals ih =>
    rw [List.forall_mem_cons] at hq
    rw [List.foldl_cons]
    have hstep : b.onClientSignal n random c g = b := by
      cases g with
      | usersConnectedReceived | correctOpenedFile | loggedIn => exact hq.1.elim
      | _ => rfl
    rw [hstep, ih hq.2]

end Quiet

end Scriba.Client
