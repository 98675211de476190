import Scriba.Client.Insertions

/-! # Which positions are generated

In runs of insertions, pastes and erasures, with messages received in any order, a replica
need not stay a valid document. What it holds and what it generates can still be said: no
position it holds has a digit out of range (`AllPositions`), and what a site generates ends
with its own identifier. Two sites therefore never generate the same position; one site
does so only after the first symbol has left its document. -/

namespace Scriba.Client

open Scriba.Utility Scriba.Lib Scriba.Lib.Pool

/-- Every symbol of the lines has a position with the property. -/
def AllPositions (P : Position → Prop) (ls : Lines) : Prop := ∀ l ∈ ls, ∀ y ∈ l, P y.position

/-- Digits in range, wherever they came from. -/
def DigitsInRange (p : Position) : Prop := ∀ i ∈ p, 0 ≤ i.digit ∧ i.digit < BASE

namespace QVector

variable {α : Type} {v v' : List α} {i : Nat} {a x : α}

theorem mem_of_get (h : get v i = .ok a) : a ∈ v := List.mem_of_getElem? (get_eq_ok.mp h)

theorem mem_of_put (h : put v i a = .ok v') (hx : x ∈ v') : x = a ∨ x ∈ v := by
  unfold put at h
  split_ifs at h
  cases h
  exact (List.mem_or_eq_of_mem_set hx).symm

theorem mem_of_insert (h : insert v i a = .ok v') (hx : x ∈ v') : x = a ∨ x ∈ v := by
  unfold insert at h
  split_ifs at h with hi
  cases h
  exact (List.mem_insertIdx hi).mp hx

theorem mem_of_erase (h : erase v i = .ok v') (hx : x ∈ v') : x ∈ v := by
  unfold erase at h
  split_ifs at h
  cases h
  exact List.mem_of_mem_eraseIdx hx

theorem mem_of_cut {b c : List α} (h : cut v i = .ok (b, c)) :
    (∀ x ∈ b, x ∈ v) ∧ ∀ x ∈ c, x ∈ v := by
  unfold cut at h
  split_ifs at h
  cases h
  exact ⟨fun x hx => List.mem_of_mem_take hx, fun x hx => List.mem_of_mem_drop hx⟩

end QVector

section Frames

variable {P : Position → Prop} {ls ls' : Lines} {l l' : List Symbol} {s : Symbol}
  {line index : Nat}

theorem AllPositions.put (h : AllPositions P ls) (hl : ∀ y ∈ l, P y.position)
    (hp : QVector.put ls line l = .ok ls') : AllPositions P ls' := by
  intro m hm
  rcases QVector.mem_of_put hp hm with rfl | hm
  · exact hl
  · exact h m hm

theorem AllPositions.erase (h : AllPositions P ls) (hp : QVector.erase ls line = .ok ls') :
    AllPositions P ls' :=
  fun m hm => h m (QVector.mem_of_erase hp hm)

theorem AllPositions.get (h : AllPositions P ls) (hg : QVector.get ls line = .ok l) :
    ∀ y ∈ l, P y.position :=
  h l (QVector.mem_of_get hg)

theorem insertChar_all (h : AllPositions P ls) (hs : P s.position)
    (hi : insertChar ls s line index = .ok ls') : AllPositions P ls' := by
  obtain ⟨l, hl, hi⟩ := bind_eq_ok.mp hi
  have hget := h.get hl
  split_ifs at hi
  · obtain ⟨⟨b, c⟩, hc, hi⟩ := bind_eq_ok.mp hi
    obtain ⟨ls1, h1, hi⟩ := bind_eq_ok.mp hi
    obtain ⟨hb, hc'⟩ := QVector.mem_of_cut hc
    have hall : AllPositions P ls1 := h.put (fun y hy => by
      rcases List.mem_append.mp hy with hy | hy
      · exact hget y (hb y hy)
      · exact List.mem_singleton.mp hy ▸ hs) h1
    intro m hm
    rcases QVector.mem_of_insert hi hm with rfl | hm
    · exact fun y hy => hget y (hc' y hy)
    · exact hall m hm
  · obtain ⟨l', hl', hi⟩ := bind_eq_ok.mp hi
    refine h.put (fun y hy => ?_) hi
    rcases QVector.mem_of_insert hl' hy with rfl | hy
    · exact hs
    · exact hget y hy

theorem findPosBefore_all {p : Position} (h : AllPositions P ls) (hnil : P [])
    (hp : findPosBefore ls line index = .ok p) : P p := by
  unfold findPosBefore at hp
  split_ifs at hp
  · exact Except.ok.inj hp ▸ hnil
  all_goals
    obtain ⟨l, hl, hp⟩ := bind_eq_ok.mp hp
    obtain ⟨y, hy, hp⟩ := bind_eq_ok.mp hp
    exact Except.ok.inj hp ▸ h.get hl y (QVector.mem_of_get hy)

theorem findPosAfter_all {p : Position} (h : AllPositions P ls) (hnil : P [])
    (hp : findPosAfter ls line index = .ok p) : P p := by
  simp only [findPosAfter] at hp
  generalize (if line < ls.length then (ls[line]?.getD []).length else 0) = numChars at hp
  have hget : ∀ {i j}, (do pure (← QVector.get (← QVector.get ls i) j).position) = Except.ok p →
      P p := by
    intro i j hp
    obtain ⟨l, hl, hp⟩ := bind_eq_ok.mp hp
    obtain ⟨y, hy, hp⟩ := bind_eq_ok.mp hp
    exact Except.ok.inj hp ▸ h.get hl y (QVector.mem_of_get hy)
  split_ifs at hp
  · exact Except.ok.inj hp ▸ hnil
  · exact hget hp
  · exact Except.ok.inj hp ▸ hnil
  · exact hget hp

end Frames

/-! ## Local operations on any document -/

section Local

variable {c c' : CRDT} {line index : Nat} {s : Symbol}

section Keeps

variable {P : Position → Prop} {font : QFont} {color : QColor}

theorem insertNew_keeps {value : QChar} {align : Option SymbolFormat.Alignment} {chance : Chance}
    (h : AllPositions P c.symbols)
    (hi : c.insertNew line index value font color align chance = .ok (c', s))
    (hs : P s.position) : AllPositions P c'.symbols := by
  obtain ⟨_, _, _, -, -, -, hls, -⟩ := insertNew_ok hi
  exact insertChar_all h hs hls

theorem insertGroupLoop_keeps {text : QString} {align : Nat} {chance : Nat → Chance}
    {pl : Nat × Nat} {ss : List Symbol} (h : AllPositions P c.symbols)
    (hi : c.insertGroupLoop line index text font color align chance = .ok (c', pl, ss))
    (hs : ∀ s ∈ ss, P s.position) : AllPositions P c'.symbols := by
  induction text generalizing c line index chance pl ss with
  | nil =>
    obtain ⟨rfl, -⟩ := Prod.mk.inj (Except.ok.inj hi)
    exact h
  | cons value text ih =>
    obtain ⟨⟨c1, s⟩, h1, hi⟩ := bind_eq_ok.mp hi
    obtain ⟨⟨c2, pl2, rest⟩, h2, hi⟩ := bind_eq_ok.mp hi
    simp only [pure, Except.pure, Except.ok.injEq, Prod.mk.injEq] at hi
    obtain ⟨rfl, -, rfl⟩ := hi
    exact ih (insertNew_keeps h h1 (hs s (by simp))) h2 fun y hy => hs y (by simp [hy])

end Keeps

/-- What one insertion generates, whatever the document. -/
theorem insertNew_all {value : QChar} {font : QFont} {color : QColor}
    {align : Option SymbolFormat.Alignment} {chance : Chance}
    (h : AllPositions DigitsInRange c.symbols)
    (hi : c.insertNew line index value font color align chance = .ok (c', s)) :
    AllPositions DigitsInRange c'.symbols ∧ c'.siteId = c.siteId ∧ DigitsInRange s.position ∧
      SignedBy c.siteId s.position := by
  obtain ⟨pos1, pos2, cache, h1, h2, hr, hls, -, hsite, -⟩ := insertNew_ok hi
  have hnil : DigitsInRange [] := by simp [DigitsInRange]
  obtain ⟨hvalid, hsigned⟩ := generatePositionBetween_ok hr (findPosBefore_all h hnil h1)
    (fun i hi => (findPosAfter_all h hnil h2 i hi).2) (by simp)
  exact ⟨insertChar_all h hvalid.digits hls, hsite, hvalid.digits, hsigned⟩

theorem insertGroupLoop_all {text : QString} {font : QFont} {color : QColor} {align : Nat}
    {chance : Nat → Chance} {pl : Nat × Nat} {ss : List Symbol}
    (h : AllPositions DigitsInRange c.symbols)
    (hi : c.insertGroupLoop line index text font color align chance = .ok (c', pl, ss)) :
    AllPositions DigitsInRange c'.symbols ∧ c'.siteId = c.siteId ∧
      ∀ s ∈ ss, DigitsInRange s.position ∧ SignedBy c.siteId s.position := by
  induction text generalizing c line index chance pl ss with
  | nil =>
    simp only [CRDT.insertGroupLoop, pure, Except.pure, Except.ok.injEq, Prod.mk.injEq] at hi
    obtain ⟨rfl, -, rfl⟩ := hi
    exact ⟨h, rfl, by simp⟩
  | cons value text ih =>
    obtain ⟨⟨c1, s⟩, h1, hi⟩ := bind_eq_ok.mp hi
    obtain ⟨⟨c2, pl2, rest⟩, h2, hi⟩ := bind_eq_ok.mp hi
    simp only [pure, Except.pure, Except.ok.injEq, Prod.mk.injEq] at hi
    obtain ⟨rfl, -, rfl⟩ := hi
    obtain ⟨hall, hsite, hs⟩ := insertNew_all h h1
    obtain ⟨hall', hsite', hrest⟩ := ih hall h2
    refine ⟨hall', hsite'.trans hsite, fun y hy => ?_⟩
    rcases List.mem_cons.mp hy with rfl | hy
    · exact hs
    · exact hsite ▸ hrest y hy

theorem eraseChar_all {P : Position → Prop} {ls ls' : Lines} (h : AllPositions P ls)
    (he : CRDT.eraseChar ls line index = .ok (ls', s)) : AllPositions P ls' := by
  obtain ⟨l, hl, he⟩ := bind_eq_ok.mp he
  obtain ⟨x, hx, he⟩ := bind_eq_ok.mp he
  obtain ⟨l', hl', he⟩ := bind_eq_ok.mp he
  obtain ⟨ls1, h1, he⟩ := bind_eq_ok.mp he
  have hkeep : ∀ y ∈ l', P y.position := fun y hy => h.get hl y (QVector.mem_of_erase hl' hy)
  have hall := h.put hkeep h1
  split_ifs at he
  · obtain ⟨next, hn, he⟩ := bind_eq_ok.mp he
    obtain ⟨ls2, h2, he⟩ := bind_eq_ok.mp he
    obtain ⟨ls3, h3, he⟩ := bind_eq_ok.mp he
    obtain ⟨rfl, -⟩ := Prod.mk.inj (Except.ok.inj he)
    refine (hall.put (fun y hy => ?_) h2).erase h3
    rcases List.mem_append.mp hy with hy | hy
    · exact hkeep y hy
    · exact hall.get hn y hy
  · obtain ⟨rfl, -⟩ := Prod.mk.inj (Except.ok.inj he)
    exact hall

theorem eraseLoop_all {P : Position → Prop} {n : Nat} {ss : List Symbol}
    (h : AllPositions P c.symbols) (he : c.eraseLoop line index n = .ok (c', ss)) :
    AllPositions P c'.symbols ∧ c'.siteId = c.siteId := by
  induction n generalizing c ss with
  | zero =>
    obtain ⟨rfl, -⟩ := Prod.mk.inj (Except.ok.inj he)
    exact ⟨h, rfl⟩
  | succ n ih =>
    obtain ⟨⟨ls1, s⟩, h1, he⟩ := bind_eq_ok.mp he
    obtain ⟨⟨c2, rest⟩, h2, he⟩ := bind_eq_ok.mp he
    obtain ⟨rfl, -⟩ := Prod.mk.inj (Except.ok.inj he)
    exact ih (c := { c with symbols := ls1, size := c.size - 1 }) (eraseChar_all h h1) h2

end Local

/-! ## Handlers on any document -/

section Remote

variable {P : Position → Prop} {c c' : CRDT} {s : Symbol}

theorem insertRemote_all {pl : Nat × Nat} (h : AllPositions P c.symbols) (hs : P s.position)
    (hi : c.insertRemote s = .ok (c', pl)) :
    AllPositions P c'.symbols ∧ c'.siteId = c.siteId := by
  simp only [CRDT.insertRemote] at hi
  split_ifs at hi
  all_goals
    obtain ⟨pl1, -, hi⟩ := bind_eq_ok.mp hi
    obtain ⟨ls', h2, hi⟩ := bind_eq_ok.mp hi
    obtain ⟨rfl, -⟩ := Prod.mk.inj (Except.ok.inj hi)
    exact ⟨insertChar_all h hs h2, rfl⟩

theorem pasteLoop_all {ss : List Symbol} {pls : List (Nat × Nat)} (h : AllPositions P c.symbols)
    (hs : ∀ s ∈ ss, P s.position) (hi : c.pasteLoop ss = .ok (c', pls)) :
    AllPositions P c'.symbols ∧ c'.siteId = c.siteId := by
  induction ss generalizing c pls with
  | nil =>
    obtain ⟨rfl, -⟩ := Prod.mk.inj (Except.ok.inj hi)
    exact ⟨h, rfl⟩
  | cons s ss ih =>
    obtain ⟨⟨c1, pl⟩, h1, hi⟩ := bind_eq_ok.mp hi
    obtain ⟨⟨c2, pls2⟩, h2, hi⟩ := bind_eq_ok.mp hi
    obtain ⟨rfl, -⟩ := Prod.mk.inj (Except.ok.inj hi)
    obtain ⟨hall, hsite⟩ := insertRemote_all h (hs s (by simp)) h1
    obtain ⟨hall', hsite'⟩ := ih hall (fun r hr => hs r (by simp [hr])) h2
    exact ⟨hall', hsite'.trans hsite⟩

theorem handleRemoteAlignChange_all {signals : List Signal} (h : AllPositions P c.symbols)
    (hi : c.handleRemoteAlignChange s = .ok (c', signals)) :
    AllPositions P c'.symbols ∧ c'.siteId = c.siteId := by
  obtain ⟨rfl, -⟩ | ⟨line, -, l, x, l', ls', hl, hx, hl', h2, rfl, -⟩ :=
    handleRemoteAlignChange_cases hi
  · exact ⟨h, rfl⟩
  · refine ⟨h.put (fun y hy => ?_) h2, rfl⟩
    rcases QVector.mem_of_put hl' hy with rfl | hy
    · exact h.get hl x (QVector.mem_of_get hx)
    · exact h.get hl y hy

theorem alignChanges_all {ss : List Symbol} {signals : List Signal}
    (h : AllPositions P c.symbols) (hi : c.alignChanges ss = .ok (c', signals)) :
    AllPositions P c'.symbols ∧ c'.siteId = c.siteId := by
  induction ss generalizing c signals with
  | nil =>
    obtain ⟨rfl, -⟩ := Prod.mk.inj (Except.ok.inj hi)
    exact ⟨h, rfl⟩
  | cons s ss ih =>
    obtain ⟨⟨c1, g1⟩, h1, hi⟩ := bind_eq_ok.mp hi
    obtain ⟨⟨c2, g2⟩, h2, hi⟩ := bind_eq_ok.mp hi
    obtain ⟨rfl, -⟩ := Prod.mk.inj (Except.ok.inj hi)
    obtain ⟨hall, hsite⟩ := handleRemoteAlignChange_all h h1
    obtain ⟨hall', hsite'⟩ := ih hall h2
    exact ⟨hall', hsite'.trans hsite⟩

theorem eraseRemote_all {ls ls' : Lines} {line index : Nat} (h : AllPositions P ls)
    (he : CRDT.eraseRemote ls s line index = .ok ls') : AllPositions P ls' := by
  obtain ⟨l, hl, he⟩ := bind_eq_ok.mp he
  split_ifs at he
  · obtain ⟨l', hl', he⟩ := bind_eq_ok.mp he
    obtain ⟨next, hn, he⟩ := bind_eq_ok.mp he
    obtain ⟨ls2, h2, he⟩ := bind_eq_ok.mp he
    refine (h.put (fun y hy => ?_) h2).erase he
    rcases List.mem_append.mp hy with hy | hy
    · exact h.get hl y (QVector.mem_of_erase hl' hy)
    · exact h.get hn y hy
  · exact h.erase he
  · obtain ⟨l', hl', he⟩ := bind_eq_ok.mp he
    exact h.put (fun y hy => h.get hl y (QVector.mem_of_erase hl' hy)) he

theorem eraseRemoteLoop_all {ss : List Symbol} {pls : Option (List (Nat × Nat))}
    (h : AllPositions P c.symbols) (hi : c.eraseRemoteLoop ss = .ok (c', pls)) :
    AllPositions P c'.symbols ∧ c'.siteId = c.siteId := by
  induction ss generalizing c pls with
  | nil =>
    obtain ⟨rfl, -⟩ := Prod.mk.inj (Except.ok.inj hi)
    exact ⟨h, rfl⟩
  | cons s ss ih =>
    obtain ⟨r, -, hi⟩ := bind_eq_ok.mp hi
    cases r with
    | none =>
      obtain ⟨rfl, -⟩ := Prod.mk.inj (Except.ok.inj hi)
      exact ⟨h, rfl⟩
    | some pl =>
      obtain ⟨ls1, h1, hi⟩ := bind_eq_ok.mp hi
      obtain ⟨⟨c2, pls2⟩, h2, hi⟩ := bind_eq_ok.mp hi
      obtain ⟨rfl, -⟩ := Prod.mk.inj (Except.ok.inj hi)
      exact ih (c := { c with symbols := ls1, size := c.size - 1 }) (eraseRemote_all h h1) h2

end Remote

/-! ## Runs -/

/-- An edit at the place of a symbol. -/
def Edits (c : CRDT) (m : Message) (c' : CRDT) : Prop :=
  ∃ op : LocalOp, op.IsEdit ∧ op.Legal c.symbols ∧ op.perform c = .ok (c', m)

def Handles (c : CRDT) (m : Message) (c' : CRDT) : Prop :=
  ∃ signals, c.handle m = .ok (c', signals)

/-- What is always true of an edit: who signed its positions, and that they are new to a valid
document. -/
structure EditFacts (siteId : Int) (c : CRDT) (m : Message) : Prop where
  signed : ∀ s ∈ m.inserted, SignedBy siteId s.position
  fresh : ValidDocument c.symbols → ∀ s ∈ m.inserted, ∀ y ∈ c.symbols.flatten,
    y.position ≠ s.position
  nodup : ValidDocument c.symbols → (m.inserted.map Symbol.position).Nodup

theorem LocalEffect.fresh {c c' : CRDT} {op : LocalOp} {m : Message} (e : LocalEffect c c' op m)
    (h : ValidDocument c.symbols) :
    (∀ s ∈ m.inserted, ∀ y ∈ c.symbols.flatten, y.position ≠ s.position) ∧
      (m.inserted.map Symbol.position).Nodup := by
  cases e with
  | insert hg _ =>
    exact ⟨fun s hs y hy => List.mem_singleton.mp hs ▸ hg.toInserts.ne_position hy, by
      simp [Message.inserted]⟩
  | @paste line index text font color align chance u v ss x hf hg =>
    have hfacts := hg.facts h hf
    have hnd := hfacts.valid.ordered.nodup
    have hperm : (u ++ ss ++ x :: v).Perm (ss ++ c.symbols.flatten) := by
      rw [hf, ← List.append_assoc]
      exact List.perm_append_comm.append_right _
    rw [hfacts.new, (hperm.map _).nodup_iff, List.map_append, List.nodup_append] at hnd
    exact ⟨fun s hs y hy he =>
        hnd.2.2 _ (List.mem_map_of_mem hs) _ (List.mem_map_of_mem hy) he.symm,
      hnd.1⟩
  | erase | changeSymbol | change | align => exact ⟨by simp [Message.inserted], by
      simp [Message.inserted]⟩

theorem Edits.facts {c c' : CRDT} {m : Message} (h : Edits c m c')
    (hd : AllPositions DigitsInRange c.symbols) :
    AllPositions DigitsInRange c'.symbols ∧ c'.siteId = c.siteId ∧ m.IsEdit ∧
      (∀ s ∈ m.inserted, DigitsInRange s.position) ∧ EditFacts c.siteId c m := by
  obtain ⟨op, hop, hl, hp⟩ := h
  have hfresh : ValidDocument c.symbols →
      (∀ s ∈ m.inserted, ∀ y ∈ c.symbols.flatten, y.position ≠ s.position) ∧
        (m.inserted.map Symbol.position).Nodup := fun hv => (perform_effect hv hl hp).fresh hv
  suffices hs : AllPositions DigitsInRange c'.symbols ∧ c'.siteId = c.siteId ∧ m.IsEdit ∧
      ∀ s ∈ m.inserted, DigitsInRange s.position ∧ SignedBy c.siteId s.position by
    obtain ⟨h1, h2, h3, h4⟩ := hs
    exact ⟨h1, h2, h3, fun s hs => (h4 s hs).1,
      ⟨fun s hs => (h4 s hs).2, fun hv => (hfresh hv).1, fun hv => (hfresh hv).2⟩⟩
  cases performed_of_ok hp with
  | insert hi =>
    obtain ⟨hall, hsite, hs⟩ := insertNew_all hd hi
    exact ⟨hall, hsite, trivial, fun r hr => List.mem_singleton.mp hr ▸ hs⟩
  | insertGroup hi =>
    obtain ⟨hall, hsite, hs⟩ := insertGroupLoop_all hd hi
    exact ⟨hall, hsite, trivial, hs⟩
  | erase he =>
    obtain ⟨hall, hsite⟩ := eraseLoop_all hd he
    exact ⟨hall, hsite, trivial, by simp [Message.inserted]⟩
  | change | changeGroup | changeAlignment => exact hop.elim

theorem Handles.facts {P : Position → Prop} {c c' : CRDT} {m : Message} (h : Handles c m c')
    (hd : AllPositions P c.symbols) (hm : m.IsEdit) (hi : ∀ s ∈ m.inserted, P s.position) :
    AllPositions P c'.symbols ∧ c'.siteId = c.siteId := by
  obtain ⟨signals, hp⟩ := h
  cases m with
  | insert s =>
    obtain ⟨⟨c1, pl⟩, h1, hp⟩ := bind_eq_ok.mp hp
    have hall := insertRemote_all hd (hi s (by simp [Message.inserted])) h1
    split_ifs at hp <;> obtain ⟨rfl, -⟩ := Prod.mk.inj (Except.ok.inj hp) <;> exact hall
  | paste ss =>
    obtain ⟨⟨c1, pls⟩, h1, hp⟩ := bind_eq_ok.mp hp
    obtain ⟨⟨c2, g⟩, h2, hp⟩ := bind_eq_ok.mp hp
    obtain ⟨rfl, -⟩ := Prod.mk.inj (Except.ok.inj hp)
    obtain ⟨hall, hsite⟩ := pasteLoop_all hd hi h1
    obtain ⟨hall', hsite'⟩ := alignChanges_all hall h2
    exact ⟨hall', hsite'.trans hsite⟩
  | erase ss =>
    obtain ⟨⟨c1, pls⟩, h1, hp⟩ := bind_eq_ok.mp hp
    have hall := eraseRemoteLoop_all hd h1
    cases pls <;> obtain ⟨rfl, -⟩ := Prod.mk.inj (Except.ok.inj hp) <;> exact hall
  | changeSymbol | change | align => exact hm.elim

section Reuse

variable {ι : Type} [DecidableEq ι]

/-- A position that is generated again is generated by the same site, and, if its document is
valid then, after the first symbol has left it. -/
def ReusesOwn (e e' : Broadcast ι CRDT Message) : Prop :=
  ∀ s ∈ e.message.inserted, ∀ s' ∈ e'.message.inserted, s.position = s'.position →
    e.site = e'.site ∧
      (ValidDocument e'.state.symbols → ∀ y ∈ e'.state.symbols.flatten, y.position ≠ s.position)

/-- **Reuse of positions**, in every run and with messages received in any order. -/
theorem positions_reused {sid : ι → Int} {ls : Lines} {state : ι → CRDT}
    {w : World ι CRDT Message} (ho : Opened sid ls state) (hsid : Function.Injective sid)
    (h : Reachable Edits Handles (.init state) w) :
    w.history.Pairwise ReusesOwn ∧ ∀ e ∈ w.history, ValidDocument e.state.symbols →
      (e.message.inserted.map Symbol.position).Nodup := by
  have hlocal : Local
      (fun i c => c.siteId = sid i ∧ AllPositions DigitsInRange c.symbols)
      (fun m => m.IsEdit ∧ ∀ s ∈ m.inserted, DigitsInRange s.position)
      (fun e => EditFacts (sid e.site) e.state e.message) w := by
    refine h.local (fun i => ⟨ho.siteId i, fun l hl y hy => ?_⟩) ?_ ?_
    · refine (ho.valid.positions y (List.mem_flatten.mpr ⟨l, ?_, hy⟩)).digits
      rwa [ho.symbols i] at hl
    · rintro i c m c' ⟨hc, hd⟩ he
      obtain ⟨h1, h2, h3, h4, h5⟩ := he.facts hd
      exact ⟨⟨h2.trans hc, h1⟩, ⟨h3, h4⟩, hc ▸ h5⟩
    · rintro i c m c' ⟨hc, hd⟩ ⟨hm, hi⟩ hr
      obtain ⟨h1, h2⟩ := hr.facts hd hm hi
      exact ⟨h2.trans hc, h1⟩
  refine ⟨List.pairwise_of_forall_mem_list fun e he e' he' s hs s' hs' hp =>
        ⟨hsid ?_, fun hv => ?_⟩,
    fun e he hv => (hlocal.history e he).nodup hv⟩
  · exact ((hlocal.history e he).signed s hs).unique (hp ▸ (hlocal.history e' he').signed s' hs')
  · exact hp ▸ (hlocal.history e' he').fresh hv s' hs'

end Reuse

/-- A new file, open at the sites 1 and 2. -/
def newFile : Bool → CRDT := fun i => .opened (if i then 2 else 1) [[plain QChar.null [⟨5, 1⟩]]]

theorem newFile_opened :
    Opened (fun i => if i then 2 else 1) [[plain QChar.null [⟨5, 1⟩]]] newFile :=
  ⟨.single rfl (validPosition_single (by decide) (by decide)), fun _ => rfl, fun _ => rfl⟩

/-- Site 1 types a letter at the start. -/
theorem newFile_typed :
    Edits (newFile false) (.insert ⟨QChar.of 'a', [⟨1, 1⟩], 1, default⟩)
      ⟨1, [[⟨QChar.of 'a', [⟨1, 1⟩], 1, default⟩, plain QChar.null [⟨5, 1⟩]]], 1, [(0, true)], 1⟩ :=
  ⟨.insert 0 0 (QChar.of 'a') default default Qt.AlignLeft ⟨⟨true, 0⟩, .alignLeft⟩, trivial,
    ⟨by decide, by decide, _, rfl, by decide⟩, by decide +kernel⟩

/-! ## Replaying -/

/-- What a site does next: an edit of its own, or taking one of the messages that wait for it. -/
inductive Move
  | emit (i : Bool) (op : LocalOp)
  | receive (i : Bool) (k : Nat)

/-- The next world, if there is one. -/
def move (w : World Bool CRDT Message) : Move → Option (World Bool CRDT Message)
  | .emit i op =>
    match op.perform (w.state i) with
    | .error _ => none
    | .ok (c, m) =>
      if op.IsEdit ∧ op.Legal (w.state i).symbols then
        some {
          state := Function.update w.state i c
          pending := fun j => if j = i then w.pending j else w.pending j ++ [m]
          history := w.history ++ [⟨i, w.state i, m⟩] }
      else none
  | .receive i k =>
    match (w.pending i).drop k with
    | [] => none
    | m :: rest =>
      match (w.state i).handle m with
      | .error _ => none
      | .ok (c, _) =>
        some { w with
          state := Function.update w.state i c
          pending := Function.update w.pending i ((w.pending i).take k ++ rest) }

theorem step_of_move {w w' : World Bool CRDT Message} {m : Move} (h : move w m = some w') :
    Step Edits Handles w w' := by
  cases m with
  | emit i op =>
    rw [move] at h
    split at h
    case h_1 => cases h
    case h_2 c m hp =>
      split_ifs at h with hop
      obtain rfl := Option.some.inj h
      exact .emit i ⟨op, hop.1, hop.2, hp⟩
  | receive i k =>
    rw [move] at h
    split at h
    case h_1 => cases h
    case h_2 m rest hdrop =>
      split at h
      case h_1 => cases h
      case h_2 c signals hh =>
        obtain rfl := Option.some.inj h
        exact .receive i (hdrop ▸ (List.take_append_drop k _).symm) ⟨signals, hh⟩

theorem reachable_of_moves {w w' : World Bool CRDT Message} {moves : List Move}
    (h : moves.foldlM move w = some w') : Reachable Edits Handles w w' := by
  induction moves generalizing w with
  | nil =>
    obtain rfl := Option.some.inj h
    exact .refl
  | cons m moves ih =>
    rw [List.foldlM_cons] at h
    obtain ⟨w1, h1, h⟩ := Option.bind_eq_some_iff.mp h
    exact .head (step_of_move h1) (ih h)

/-- Site 1 types a letter, and another one after it has erased the first; site 2 pastes a text. -/
def newFileMoves : List Move :=
  [.emit false (.insert 0 0 (QChar.of 'a') default default Qt.AlignLeft
      ⟨⟨true, 0⟩, .alignLeft⟩), .receive true 0,
    .emit true (.insertGroup 0 1 [QChar.of 'x', QChar.newline] default default Qt.AlignLeft
      fun _ => ⟨⟨true, 0⟩, .alignLeft⟩),
    .emit false (.erase 0 0 1), .emit false (.insert 0 0 (QChar.of 'b') default default
      Qt.AlignLeft ⟨⟨true, 0⟩, .alignLeft⟩)]

/-- The second letter has the position of the first one. -/
theorem positions_reused_retyped : ∃ w : World Bool CRDT Message,
    Reachable Edits Handles (.init newFile) w ∧
      w.messages.map (fun m => m.inserted.map fun s => (s.value, s.position)) =
        [[(QChar.of 'a', [⟨1, 1⟩])],
          [(QChar.of 'x', [⟨2, 2⟩]), (QChar.newline, [⟨3, 2⟩])], [],
          [(QChar.of 'b', [⟨1, 1⟩])]] ∧
      w.history.Pairwise ReusesOwn ∧ ∀ e ∈ w.history, ValidDocument e.state.symbols →
        (e.message.inserted.map Symbol.position).Nodup := by
  have hinj : Function.Injective fun i : Bool => if i then (2 : Int) else 1 := by
    intro a b
    cases a <;> cases b <;> simp
  have hrun : (newFileMoves.foldlM move (.init newFile)).any (fun w =>
      w.messages.map (fun m => m.inserted.map fun s => (s.value, s.position)) =
        [[(QChar.of 'a', [⟨1, 1⟩])],
          [(QChar.of 'x', [⟨2, 2⟩]), (QChar.newline, [⟨3, 2⟩])], [],
          [(QChar.of 'b', [⟨1, 1⟩])]]) = true := by
    decide +kernel
  obtain ⟨w, hw, hP⟩ := (Option.any_eq_true _ _).mp hrun
  have hreach := reachable_of_moves hw
  exact ⟨w, hreach, of_decide_eq_true hP, positions_reused newFile_opened hinj hreach⟩

/-- It erases the letter and types another one: the same draw gives the same position. -/
theorem position_generated_twice : ∃ w : World Bool CRDT Message,
    Reachable Edits Handles (.init newFile) w ∧
      ¬ ((w.messages.flatMap Message.inserted).map Symbol.position).Nodup := by
  have h1 : Reachable Edits Handles (.init newFile) _ :=
    Relation.ReflTransGen.single (.emit false newFile_typed)
  have herase : Edits
      ⟨1, [[⟨QChar.of 'a', [⟨1, 1⟩], 1, default⟩, plain QChar.null [⟨5, 1⟩]]], 1, [(0, true)], 1⟩
      (.erase [⟨QChar.of 'a', [⟨1, 1⟩], 1, default⟩])
      ⟨1, [[plain QChar.null [⟨5, 1⟩]]], 1, [(0, true)], 0⟩ :=
    ⟨.erase 0 0 1, trivial, ⟨⟨_, rfl, by decide⟩, by decide⟩, by decide +kernel⟩
  have hagain : Edits ⟨1, [[plain QChar.null [⟨5, 1⟩]]], 1, [(0, true)], 0⟩
      (.insert ⟨QChar.of 'b', [⟨1, 1⟩], 2, default⟩)
      ⟨1, [[⟨QChar.of 'b', [⟨1, 1⟩], 2, default⟩, plain QChar.null [⟨5, 1⟩]]], 2, [(0, true)], 1⟩ :=
    ⟨.insert 0 0 (QChar.of 'b') default default Qt.AlignLeft ⟨⟨true, 0⟩, .alignLeft⟩, trivial,
      ⟨by decide, by decide, _, rfl, by decide⟩, by decide +kernel⟩
  have h2 := h1.tail (.emit false herase)
  exact ⟨_, h2.tail (.emit false hagain), by decide⟩

end Scriba.Client
