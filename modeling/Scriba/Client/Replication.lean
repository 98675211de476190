import Scriba.Client.RemoteEdits

/-! # Sequential replication

One client edits, another one applies the messages in order. Each message, handled on the
document its operation started from, leaves the document the operation left
(`handle_effect`); a whole run follows by induction. -/

namespace Scriba.Client

open Scriba.Utility Scriba.Lib Scriba.Lib.Lines

/-- A run of local operations that do not throw, with the messages broadcast. -/
inductive LocalRun : CRDT → List LocalOp → List Message → CRDT → Prop
  | nil {c : CRDT} : LocalRun c [] [] c
  | cons {c c1 c' : CRDT} {op : LocalOp} {m : Message} {ops : List LocalOp} {ms : List Message} :
      op.Legal c.symbols → op.perform c = .ok (c1, m) → LocalRun c1 ops ms c' →
      LocalRun c (op :: ops) (m :: ms) c'

/-- A pasted text does not contain the terminator's character. -/
def LocalOp.NoNull : LocalOp → Prop
  | .insertGroup _ _ text .. => QChar.null ∉ text
  | _ => True

/-- The same of a message. -/
def Message.NoNull : Message → Prop
  | .paste symbols => ∀ s ∈ symbols, s.value ≠ QChar.null
  | _ => True

theorem GeneratesAll.insertsAll {x : Symbol} {c c' : CRDT} {text : QString}
    {u v ss : List Symbol} (g : GeneratesAll x v c c' text u ss) :
    ∃ ps, InsertsAll c.symbols c'.symbols ss ps := by
  induction g with
  | nil => exact ⟨[], .nil⟩
  | cons hg _ ih =>
    obtain ⟨ps, h⟩ := ih
    exact ⟨_, .cons hg.toInserts h⟩

theorem Erases.erasesAll {ls ls' : Lines} {u w v : List Symbol} (e : Erases ls ls' u w v)
    (h : WellFormed ls) : ∃ ps, ErasesAll ls ls' w ps := by
  induction w generalizing ls with
  | nil =>
    obtain rfl : ls' = ls := e.layout.ext h.layout (by rw [e.new, e.old]; simp)
    exact ⟨[], .nil⟩
  | cons x w ih =>
    -- only the lines after the first removal are needed, so any counters will do
    obtain ⟨ls1, -, he⟩ := eraseRemote_letter (c := ⟨0, ls, 0, [], 0⟩) (s := x) h
      (show ls.flatten = u ++ x :: (w ++ v) by simp [e.old]) rfl (by simp [e.ne_nil])
    have e1 : Erases ls1 ls' u w v := ⟨e.layout, by simp [he.new], e.new, e.ne_nil⟩
    obtain ⟨ps, hps⟩ := ih e1 (he.wellFormed h)
    exact ⟨_, .cons rfl he hps⟩

/-- **One message**, handled on the document its operation was performed on. -/
theorem handle_effect {a a' b : CRDT} {op : LocalOp} {m : Message} (h : ValidDocument a.symbols)
    (hb : b.symbols = a.symbols) (e : LocalEffect a a' op m) (hn : m.NoNull) :
    ∃ signals, b.handle m =
      .ok ({ b with symbols := a'.symbols, size := b.size + (a'.size - a.size) }, signals) := by
  have hwf : WellFormed b.symbols := hb ▸ h.toWellFormed
  have hgrow : ∀ k : Int, a.size + k - a.size = k := by omega
  have hsame : b.size + (a.size - a.size) = b.size := by omega
  cases e with
  | @insert line index value font color align chance u v s x hg =>
    have hg' := hg.toInserts
    rw [← hb] at hg'
    obtain ⟨ls', h1, h2⟩ :=
      handleRemoteInsert_spec hwf.toArranged hg'.old hg'.lower (hg'.upper x (by simp))
    obtain rfl : ls' = a'.symbols := h2.layout.ext hg'.layout (by rw [h2.new, hg'.new])
    exact ⟨_, by rw [CRDT.handle, h1, hg.size, hgrow]⟩
  | @paste line index text font color align chance u v ss x hf hg =>
    obtain ⟨ps, hps⟩ := hg.insertsAll
    have hfacts := hg.facts h hf
    rw [← hb] at hps
    -- the newlines of the message have their alignment already, and there is no other line end
    have hends : ∀ s ∈ ss.filter (fun s => s.value = QChar.null ∨ s.value = QChar.newline),
        ∃ u v, a'.symbols.flatten = u ++ s :: v ∧ EndsLine s v := by
      intro s hs
      obtain ⟨hmem, hv⟩ := List.mem_filter.mp hs
      obtain ⟨r, w, rfl⟩ := List.append_of_mem hmem
      refine ⟨u ++ r, w ++ x :: v, by simp [hfacts.new], .inl ?_⟩
      simpa [hn s hmem] using hv
    obtain ⟨signals, halign⟩ := alignChanges_self
      (c := { b with symbols := a'.symbols, size := b.size + ss.length })
      hfacts.valid.toWellFormed hends
    refine ⟨.insertGroup ps.head? ((ss.map Symbol.value).filter (· ≠ QChar.null))
      (ss.head?.map Symbol.format) :: signals, ?_⟩
    simp only [CRDT.handle, CRDT.handleRemotePaste, pasteLoop_eq hwf hps, halign, hfacts.size,
      hgrow, bind, Except.bind, pure, Except.pure]
  | @erase line index ls' u w v he hc =>
    subst hc
    obtain ⟨ps, hps⟩ := he.erasesAll h.toWellFormed
    rw [← hb] at hps
    have hloop := eraseRemoteLoop_append hwf hps []
    rw [List.append_nil] at hloop
    refine ⟨[.erase ps.head? w.length], ?_⟩
    have hsize : b.size + (a.size - (w.length : Int) - a.size) = b.size - w.length := by omega
    simp only [CRDT.handle, CRDT.handleRemoteErase, hloop, CRDT.eraseRemoteLoop, Except.map, hsize,
      bind, Except.bind, pure, Except.pure, Option.map_some, List.append_nil]
  | @changeSymbol line index font color ls' u v x s hw hc =>
    subst hc
    rw [← hb] at hw
    refine ⟨[.change [s]], ?_⟩
    simp only [CRDT.handle, CRDT.handleRemoteChange, changeRemoteLoop_eq hwf (.cons hw .nil), hsame,
      if_true, bind, Except.bind, pure, Except.pure]
  | @change startLine endLine startIndex endIndex font color ls' ss hw hc =>
    subst hc
    rw [← hb] at hw
    refine ⟨[.change ss], ?_⟩
    simp only [CRDT.handle, CRDT.handleRemoteChange, changeRemoteLoop_eq hwf hw, hsame, if_true,
      bind, Except.bind, pure, Except.pure]
  | @align line align ls' u v x hw he hc =>
    subst hc
    rw [← hb] at hw
    obtain ⟨ls2, h1, h2⟩ := handleRemoteAlignChange_lineEnd (s := x.setAlignment align)
      hwf.toArranged (show b.symbols.flatten = u ++ x :: v by simp [hw.old]) he rfl
    obtain rfl : ls2 = ls' := h2.layout.ext hw.layout (by rw [h2.new, hw.new]; rfl)
    exact ⟨_, by rw [CRDT.handle, h1, hsame]⟩

theorem insertGroupLoop_values {c c' : CRDT} {line index : Nat} {text : QString} {font : QFont}
    {color : QColor} {align : Nat} {chance : Nat → Chance} {pl : Nat × Nat} {ss : List Symbol}
    (h : c.insertGroupLoop line index text font color align chance = .ok (c', pl, ss)) :
    ss.map Symbol.value = text := by
  induction text generalizing c line index chance pl ss with
  | nil =>
    simp only [CRDT.insertGroupLoop, pure, Except.pure, Except.ok.injEq, Prod.mk.injEq] at h
    simp [← h.2.2]
  | cons value text ih =>
    obtain ⟨⟨c1, s⟩, h1, h⟩ := bind_eq_ok.mp h
    obtain ⟨⟨c2, pl2, rest⟩, h2, h⟩ := bind_eq_ok.mp h
    simp only [pure, Except.pure, Except.ok.injEq, Prod.mk.injEq] at h
    obtain ⟨rfl, -, rfl⟩ := h
    obtain ⟨_, -, h1⟩ := bind_eq_ok.mp h1
    obtain ⟨_, -, h1⟩ := bind_eq_ok.mp h1
    obtain ⟨_, -, h1⟩ := bind_eq_ok.mp h1
    obtain ⟨_, -, h1⟩ := bind_eq_ok.mp h1
    simp only [pure, Except.pure, Except.ok.injEq, Prod.mk.injEq] at h1
    rw [List.map_cons, ih h2, ← h1.2, alignNew_value, Symbol.ofFont_value]

/-- Only `localInsertGroup` broadcasts a paste, of the characters of its text. -/
theorem noNull_of_perform {c c' : CRDT} {m : Message} {op : LocalOp}
    (hp : op.perform c = .ok (c', m)) (hn : op.NoNull) : m.NoNull := by
  cases performed_of_ok hp with
  | insertGroup hs =>
    intro s hs' hv
    exact hn (insertGroupLoop_values hs ▸ hv ▸ List.mem_map_of_mem hs')
  | insert | erase | change | changeGroup | changeAlignment => trivial

/-- **Sequential replication.** -/
theorem replicates {a a' b : CRDT} {ops : List LocalOp} {ms : List Message}
    (h : ValidDocument a.symbols) (hb : b.symbols = a.symbols) (hrun : LocalRun a ops ms a')
    (hn : ∀ op ∈ ops, op.NoNull) :
    ∃ signals, b.handleAll ms =
      .ok ({ b with symbols := a'.symbols, size := b.size + (a'.size - a.size) }, signals) := by
  induction hrun generalizing b with
  | @nil c =>
    refine ⟨[], ?_⟩
    have hsame : b.size + (c.size - c.size) = b.size := by omega
    simp only [CRDT.handleAll, hsame, ← hb, pure, Except.pure]
  | @cons c c1 c' op m ops ms hl hp _ ih =>
    have he := perform_effect h hl hp
    obtain ⟨s1, h1⟩ := handle_effect h hb he (noNull_of_perform hp (hn op (by simp)))
    obtain ⟨s2, h2⟩ :=
      ih (b := { b with symbols := c1.symbols, size := b.size + (c1.size - c.size) }) (he.valid h)
        rfl fun op hop => hn op (by simp [hop])
    refine ⟨s1 ++ s2, ?_⟩
    have hsize : b.size + (c1.size - c.size) + (c'.size - c1.size) =
        b.size + (c'.size - c.size) := by
      omega
    simp only [CRDT.handleAll, h1, h2, hsize, bind, Except.bind, pure, Except.pure]

/-- The messages of some operations and the replica after them, if each is legal and none throws. -/
def performAll (c : CRDT) : List LocalOp → Option (List Message × CRDT)
  | [] => some ([], c)
  | op :: ops =>
    match op.perform c with
    | .error _ => none
    | .ok (c1, m) =>
      if op.Legal c.symbols then (performAll c1 ops).map fun r => (m :: r.1, r.2) else none

theorem localRun_of_performAll {c c' : CRDT} {ops : List LocalOp} {ms : List Message}
    (h : performAll c ops = some (ms, c')) : LocalRun c ops ms c' := by
  induction ops generalizing c ms with
  | nil =>
    cases h
    exact .nil
  | cons op ops ih =>
    rw [performAll] at h
    split at h
    case h_1 => cases h
    case h_2 c1 m hp =>
      split_ifs at h with hl
      obtain ⟨⟨ms1, c2⟩, hrest, he⟩ := Option.map_eq_some_iff.mp h
      obtain ⟨rfl, rfl⟩ := Prod.mk.inj he
      exact .cons hl hp (ih hrest)

/-- A letter is typed and a text of two lines pasted behind it; the letter is erased, the next one
becomes bold, and the first line is centered. -/
def editingOps : List LocalOp :=
  [.insert 0 0 (QChar.of 'a') default default Qt.AlignLeft ⟨⟨true, 0⟩, .alignLeft⟩,
    .insertGroup 0 1 [QChar.of 'x', QChar.newline, QChar.of 'y'] default default Qt.AlignLeft
      fun _ => ⟨⟨true, 0⟩, .alignLeft⟩,
    .erase 0 0 1, .changeGroup 0 0 0 0 { (default : QFont) with bold := true } default,
    .changeAlignment 0 .alignCenter]

theorem replicates_editing : ∃ ms a' signals,
    LocalRun (.opened 1 [[plain QChar.null [⟨5, 1⟩]]]) editingOps ms a' ∧
    a'.symbols.map (List.map fun s => (s.value, s.format.bold, s.format.align)) =
      [[(QChar.of 'x', true, .alignLeft), (QChar.newline, false, .alignCenter)],
        [(QChar.of 'y', false, .alignLeft), (QChar.null, false, .alignLeft)]] ∧
    (CRDT.opened 2 [[plain QChar.null [⟨5, 1⟩]]]).handleAll ms =
      .ok (⟨2, a'.symbols, 0, [], 3⟩, signals) := by
  have hperform : (performAll (.opened 1 [[plain QChar.null [⟨5, 1⟩]]]) editingOps).any (fun r =>
      r.2.size = 3 ∧ r.2.symbols.map (List.map fun s => (s.value, s.format.bold, s.format.align)) =
        [[(QChar.of 'x', true, .alignLeft), (QChar.newline, false, .alignCenter)],
          [(QChar.of 'y', false, .alignLeft), (QChar.null, false, .alignLeft)]]) = true := by
    decide +kernel
  obtain ⟨⟨ms, a'⟩, hr, hP⟩ := (Option.any_eq_true _ _).mp hperform
  obtain ⟨hsize, hsymbols⟩ := of_decide_eq_true hP
  have hrun := localRun_of_performAll hr
  have hd : ValidDocument (CRDT.opened 1 [[plain QChar.null [⟨5, 1⟩]]]).symbols :=
    .single rfl (validPosition_single (by decide) (by decide))
  have hnull : ∀ op ∈ editingOps, op.NoNull := by
    have htext : QChar.null ∉ [QChar.of 'x', QChar.newline, QChar.of 'y'] := by decide
    simpa [editingOps, LocalOp.NoNull] using htext
  obtain ⟨signals, hall⟩ :=
    replicates (b := .opened 2 [[plain QChar.null [⟨5, 1⟩]]]) hd rfl hrun hnull
  refine ⟨ms, a', signals, hrun, hsymbols, ?_⟩
  have hb : (CRDT.opened 2 [[plain QChar.null [⟨5, 1⟩]]]).size +
      (a'.size - (CRDT.opened 1 [[plain QChar.null [⟨5, 1⟩]]]).size) = 3 := by
    rw [hsize]
    rfl
  rw [hb] at hall
  exact hall

/-- With a terminator in the pasted text the documents part: the receiver aligns the end of the
line the pasted character is in, the sender does not. -/
theorem not_replicates_null :
    ∃ (a b a' : CRDT) (ops : List LocalOp) (ms : List Message), ValidDocument a.symbols ∧
      b.symbols = a.symbols ∧ LocalRun a ops ms a' ∧
      ∃ b' signals, b.handleAll ms = .ok (b', signals) ∧ b'.symbols ≠ a'.symbols := by
  let t := plain QChar.null [⟨5, 1⟩]
  let z : Symbol :=
    ⟨QChar.null, [⟨1, 1⟩], 1, { (default : SymbolFormat) with align := .alignCenter }⟩
  refine ⟨.opened 1 [[t]], .opened 2 [[t]], ⟨1, [[z, t]], 1, [(0, true)], 1⟩,
    [.insertGroup 0 0 [QChar.null] default default Qt.AlignCenter fun _ => ⟨⟨true, 0⟩, .alignLeft⟩],
    [.paste [z]], .single rfl (validPosition_single (by decide) (by decide)), rfl,
    .cons ⟨by decide, by decide, _, rfl, by decide⟩ (by decide +kernel) .nil,
    ⟨2, [[z, t.setAlignment .alignCenter]], 0, [], 1⟩,
    [.insertGroup (some (0, 0)) [] (some z.format), .changeAlignment .alignCenter 0 0],
    by decide +kernel, by decide⟩

end Scriba.Client
