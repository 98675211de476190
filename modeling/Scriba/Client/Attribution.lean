import Scriba.Client.Freshness
import Scriba.Client.Editor
import Scriba.Client.Highlighter

/-! # Who wrote what

`highlightBlock` of `Client/highlighter.cpp` reads off the position of a symbol who has written it:
the last identifier is that of the site that generated it. In every run, with messages received in
any order, each character has the colour that the highlighter keeps for its author, or the one for
users who are not there. -/

namespace Scriba.Utility

/-- The site of the last identifier. -/
def Symbol.getUsername (s : Symbol) : Except Client.Fault Int :=
  match s.position.getLast? with
  | some i => .ok i.site
  | none => .error .outOfRange

end Scriba.Utility

namespace Scriba.Client

open Scriba.Utility Scriba.Lib Scriba.Lib.Pool

namespace Highlighter

/-- The background of what a user has written; users who are not there are -2. -/
def background (h : Highlighter) (editorId : Int) : QColor :=
  Colors.getColor ((h.users[editorId]?).getD (-2))

/-- The formats that are set in a block, from its first character on. -/
def highlightBlock (around : Surroundings) (h : Highlighter) (symbols : Lines) (line : Nat)
    (text : QString) : Except Fault (List (QTextCharFormat × QColor)) :=
  (List.range text.length).mapM fun index => do
    let s ← QVector.get (← QVector.get symbols line) index
    let editorId ← s.getUsername
    pure (around.getQTextCharFormat s, h.background editorId)

end Highlighter

/-! ## Where symbols come from -/

theorem getUsername_of_signed {s : Symbol} {siteId : Int} (h : SignedBy siteId s.position) :
    s.getUsername = .ok siteId := by
  obtain ⟨u, d, hp⟩ := h
  rw [Symbol.getUsername, hp, List.getLast?_concat]

section Edits

variable {P : Position → Prop} {c c' : CRDT} {m : Message}

/-- A local edit adds no positions but those it sends. -/
theorem Edits.keeps (h : Edits c m c') (hd : AllPositions P c.symbols)
    (hm : ∀ s ∈ m.inserted, P s.position) : AllPositions P c'.symbols := by
  obtain ⟨op, hop, -, hp⟩ := h
  cases performed_of_ok hp with
  | insert hi => exact insertNew_keeps hd hi (hm _ (by simp [Message.inserted]))
  | insertGroup hi => exact insertGroupLoop_keeps hd hi hm
  | erase he => exact (eraseLoop_all hd he).1
  | change | changeGroup | changeAlignment => exact hop.elim

end Edits

section Runs

variable {ι : Type} [DecidableEq ι] {sid : ι → Int} {ls : Lines} {state : ι → CRDT}
  {w : World ι CRDT Message}

/-- The site has sent a symbol with this position. -/
def Wrote (w : World ι CRDT Message) (j : ι) (p : Position) : Prop :=
  ∃ e ∈ w.history, e.site = j ∧ ∃ r ∈ e.message.inserted, r.position = p

/-- The position comes from the document that was opened, or one of the sites has sent it. -/
def Sourced (ls : Lines) (w : World ι CRDT Message) (p : Position) : Prop :=
  (∃ r ∈ ls.flatten, r.position = p) ∨ ∃ j, Wrote w j p

omit [DecidableEq ι] in
theorem Sourced.mono {w' : World ι CRDT Message} {p : Position}
    (hw : ∀ e ∈ w.history, e ∈ w'.history) (h : Sourced ls w p) : Sourced ls w' p :=
  h.imp id fun hj => hj.imp fun _ he => he.imp fun e he => ⟨hw e he.1, he.2⟩

/-- What sites hold and what is on its way to them has a source. -/
structure Traced (ls : Lines) (w : World ι CRDT Message) : Prop where
  held : ∀ i, AllPositions (Sourced ls w) (w.state i).symbols
  pending : ∀ i, ∀ m ∈ w.pending i, m.IsEdit ∧ ∀ s ∈ m.inserted, Sourced ls w s.position

theorem Traced.step {w' : World ι CRDT Message} (h : Traced ls w) (hs : Step Edits Handles w w') :
    Traced ls w' := by
  cases hs with
  | @emit i m c' he =>
    generalize hw : (⟨Function.update w.state i c',
      fun j => if j = i then w.pending j else w.pending j ++ [m],
      w.history ++ [⟨i, w.state i, m⟩]⟩ : World ι CRDT Message) = w'
    have hmono : ∀ p, Sourced ls w p → Sourced ls w' p := fun p hp =>
      hp.mono fun e he => hw ▸ List.mem_append_left _ he
    have hsent : ∀ s ∈ m.inserted, Sourced ls w' s.position := fun s hs =>
      .inr ⟨i, ⟨i, w.state i, m⟩, by simp [← hw], rfl, s, hs, rfl⟩
    have hedit : m.IsEdit := by
      obtain ⟨op, hop, -, hp⟩ := he
      exact isEdit_of_perform hop hp
    have hheld : ∀ j, AllPositions (Sourced ls w') (w.state j).symbols := fun j l hl y hy =>
      hmono _ (h.held j l hl y hy)
    refine ⟨?_, fun j n hn => ?_⟩
    · rw [← hw]
      refine (Function.forall_update_iff w.state fun _ (c : CRDT) =>
        AllPositions (Sourced ls _) c.symbols).mpr
          ⟨hw ▸ he.keeps (hheld i) hsent, fun j _ => hw ▸ hheld j⟩
    · rw [← hw] at hn
      rcases Queues.mem_pushOthers.mp hn with hn | ⟨-, rfl⟩
      · exact ⟨(h.pending j n hn).1, fun s hs => hmono _ ((h.pending j n hn).2 s hs)⟩
      · exact ⟨hedit, hsent⟩
  | @receive i a b m c' hp hr =>
    obtain ⟨hedit, hall⟩ := h.pending i m (by simp [hp])
    exact ⟨(Function.forall_update_iff w.state fun _ (c : CRDT) =>
        AllPositions (Sourced ls _) c.symbols).mpr
          ⟨(hr.facts (h.held i) hedit hall).1, fun j _ => h.held j⟩,
      fun j n hn => h.pending j n (Queues.mem_of_take hp hn)⟩

theorem traced_of_reachable (ho : Opened sid ls state)
    (h : Reachable Edits Handles (.init state) w) : Traced ls w := by
  refine h.invariant ⟨fun i l hl y hy => ?_, by simp [World.init]⟩ fun _ _ hw hs => hw.step hs
  rw [World.init, ho.symbols i] at hl
  exact .inl ⟨y, List.mem_flatten.mpr ⟨l, hl, hy⟩, rfl⟩

/-- What is sent is signed. -/
theorem signed_of_reachable (ho : Opened sid ls state)
    (h : Reachable Edits Handles (.init state) w) :
    ∀ e ∈ w.history, ∀ s ∈ e.message.inserted, SignedBy (sid e.site) s.position := by
  have hlocal : Local (fun i c => c.siteId = sid i ∧ AllPositions DigitsInRange c.symbols)
      (fun m => m.IsEdit ∧ ∀ s ∈ m.inserted, DigitsInRange s.position)
      (fun e => ∀ s ∈ e.message.inserted, SignedBy (sid e.site) s.position) w := by
    refine h.local (fun i => ⟨ho.siteId i, fun l hl y hy => ?_⟩) (fun i c m c' hc he => ?_)
      fun i c m c' hc hm hr => ?_
    · rw [ho.symbols i] at hl
      exact (ho.valid.positions y (List.mem_flatten.mpr ⟨l, hl, hy⟩)).digits
    · obtain ⟨hd, hsite, hedit, hrange, hfacts⟩ := he.facts hc.2
      exact ⟨⟨hsite.trans hc.1, hd⟩, ⟨hedit, hrange⟩, fun s hs => hc.1 ▸ hfacts.signed s hs⟩
    · obtain ⟨hd, hsite⟩ := hr.facts hc.2 hm.1 hm.2
      exact ⟨hsite.trans hc.1, hd⟩
  exact hlocal.history

/-- Every symbol a site has says who wrote it. -/
theorem exists_author (ho : Opened sid ls state) (h : Reachable Edits Handles (.init state) w)
    {i : ι} {s : Symbol} {l : List Symbol} (hl : l ∈ (w.state i).symbols) (hs : s ∈ l) :
    ∃ a, s.getUsername = .ok a ∧ (∀ j, Wrote w j s.position → a = sid j) ∧
      ((∃ j, Wrote w j s.position) ∨
        ∃ r ∈ ls.flatten, r.position = s.position ∧ r.getUsername = .ok a) := by
  have hwrote : ∀ j, Wrote w j s.position → s.getUsername = .ok (sid j) := by
    intro j hj
    obtain ⟨e, he, rfl, r, hr, hp⟩ := hj
    exact getUsername_of_signed (hp ▸ signed_of_reachable ho h e he r hr)
  rcases (traced_of_reachable ho h).held i l hl s hs with ⟨r, hr, hp⟩ | ⟨j, hj⟩
  · obtain ⟨u, d, hu, -⟩ := (ho.valid.positions r hr).last
    have ha : ∀ y : Symbol, y.position = r.position → y.getUsername = .ok d.site := fun y hy =>
      getUsername_of_signed ⟨u, d.digit, hy.trans hu⟩
    refine ⟨d.site, ha s hp.symm, fun j hj => ?_, .inr ⟨r, hr, hp, ha r rfl⟩⟩
    exact Except.ok.inj ((ha s hp.symm).symm.trans (hwrote j hj))
  · refine ⟨sid j, hwrote j hj, fun j' hj' => ?_, .inl ⟨j, hj⟩⟩
    exact Except.ok.inj ((hwrote j hj).symm.trans (hwrote j' hj'))

/-- **Characters show their authors.** In every run, with messages received in any order, a line
that a site has is highlighted without an access out of range: each of its characters gets the
background of the user who has sent it, or of whoever its position names in the document that was
opened. The text that is highlighted is that of the line; where the text of the editor has come to
differ from the lines, this says nothing. -/
theorem characters_show_authors (ho : Opened sid ls state)
    (h : Reachable Edits Handles (.init state) w) (around : Surroundings) (users : Highlighter)
    {i : ι} {line : Nat} {l : List Symbol} (hline : (w.state i).symbols[line]? = some l) :
    ∃ formats, users.highlightBlock around (w.state i).symbols line (l.dropLast.map Symbol.value) =
        .ok formats ∧ formats.length = l.length - 1 ∧
      ∀ (k : Nat) (s : Symbol), l.dropLast[k]? = some s → ∃ a,
        formats[k]? = some (around.getQTextCharFormat s, users.background a) ∧
        (∀ j, Wrote w j s.position → a = sid j) ∧
        ((∃ j, Wrote w j s.position) ∨
          ∃ r ∈ ls.flatten, r.position = s.position ∧ r.getUsername = .ok a) := by
  have hauthor : ∀ s ∈ l, _ := fun s hs => exists_author ho h (List.mem_of_getElem? hline) hs
  obtain ⟨formats, hformats, hall⟩ : ∃ formats,
      users.highlightBlock around (w.state i).symbols line (l.dropLast.map Symbol.value) =
        .ok formats ∧ List.Forall₂ (fun k format => ∃ s a, l[k]? = some s ∧
          s.getUsername = .ok a ∧ format = (around.getQTextCharFormat s, users.background a))
        (List.range (l.dropLast.map Symbol.value).length) formats := by
    refine exists_mapM fun k hk => ?_
    have hlt : k < l.length := by
      have := List.mem_range.mp hk
      simp at this
      omega
    obtain ⟨a, ha, -⟩ := hauthor l[k] (List.getElem_mem hlt)
    refine ⟨(around.getQTextCharFormat l[k], users.background a), ?_, l[k], a,
      List.getElem?_eq_getElem hlt, ha, rfl⟩
    refine bind_eq_ok.mpr ⟨l, by rw [QVector.get, hline], bind_eq_ok.mpr ⟨l[k], ?_,
      bind_eq_ok.mpr ⟨a, ha, rfl⟩⟩⟩
    rw [QVector.get, List.getElem?_eq_getElem hlt]
  obtain ⟨hlen, hget⟩ := List.forall₂_iff_get.mp hall
  rw [List.length_range, List.length_map, List.length_dropLast] at hlen
  refine ⟨formats, hformats, hlen.symm, fun k s hs => ?_⟩
  rw [List.getElem?_dropLast] at hs
  split_ifs at hs with hk
  obtain ⟨a, ha, hauthor⟩ := hauthor s (List.mem_of_getElem? hs)
  refine ⟨a, ?_, hauthor⟩
  obtain ⟨s', a', hs', ha', hformat⟩ := hget k (by simpa using hk) (hlen ▸ hk)
  rw [List.get_eq_getElem, List.getElem_range] at hs'
  obtain rfl := Option.some.inj (hs.symm.trans hs')
  obtain rfl := Except.ok.inj (ha.symm.trans ha')
  rw [List.getElem?_eq_getElem (hlen ▸ hk), ← hformat]
  rfl

/-- Site 1 types a letter, behind which site 2 pastes a text, and erases the first letter of it. -/
def authorMoves : List Move :=
  [.emit false (.insert 0 0 (QChar.of 'a') default default Qt.AlignLeft
      ⟨⟨true, 0⟩, .alignLeft⟩), .receive true 0,
    .emit true (.insertGroup 0 1 [QChar.of 'x', QChar.of 'y'] default default Qt.AlignLeft
      fun _ => ⟨⟨true, 0⟩, .alignLeft⟩), .receive false 0, .emit false (.erase 0 1 1)]

theorem characters_show_authors_two :
    let users := ((Highlighter.start.addLocal 1).addClient 2 0).1
    ∃ (w : World Bool CRDT Message) (l : List Symbol) (formats : List (QTextCharFormat × QColor)),
      Reachable Edits Handles (.init newFile) w ∧ (w.state false).symbols[0]? = some l ∧
      l.map Symbol.value = [QChar.of 'a', QChar.of 'y', QChar.null] ∧
      users.highlightBlock default (w.state false).symbols 0 (l.dropLast.map Symbol.value) =
        .ok formats ∧ formats.length = l.length - 1 ∧
      ∀ (k : Nat) (s : Symbol), l.dropLast[k]? = some s → ∃ a,
        formats[k]? = some (Surroundings.getQTextCharFormat default s, users.background a) ∧
        (∀ j, Wrote w j s.position → a = if j then 2 else 1) ∧
        ((∃ j, Wrote w j s.position) ∨ ∃ r ∈ [[plain QChar.null [⟨5, 1⟩]]].flatten,
          r.position = s.position ∧ r.getUsername = .ok a) := by
  have hrun : (authorMoves.foldlM move (.init newFile)).any (fun w =>
      ((w.state false).symbols[0]?).map (List.map Symbol.value) =
        some [QChar.of 'a', QChar.of 'y', QChar.null]) = true := by
    decide +kernel
  obtain ⟨w, hw, hP⟩ := (Option.any_eq_true _ _).mp hrun
  obtain ⟨l, hline, hvalues⟩ := Option.map_eq_some_iff.mp (of_decide_eq_true hP)
  have hreach := reachable_of_moves hw
  obtain ⟨formats, hformats⟩ := characters_show_authors newFile_opened hreach default
    ((Highlighter.start.addLocal 1).addClient 2 0).1 hline
  exact ⟨w, l, formats, hreach, hline, hvalues, hformats⟩

end Runs

end Scriba.Client
