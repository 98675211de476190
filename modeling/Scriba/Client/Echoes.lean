import Scriba.Client.ContentsChange

/-! # Remote operations in the editor

Qt reports each change of the text, whoever makes it. For the update after a remote operation the
editor should do nothing. It decides that by sizes, and by flags which other events set. -/

namespace Scriba.Client

open Scriba.Utility Scriba.Lib

/-! ## Events -/

def Qt.NoModifier : Nat := 0
def Qt.ControlModifier : Nat := 0x04000000
def Qt.Key_Y : Nat := 0x59
def Qt.Key_Z : Nat := 0x5a

/-- `QFlags::testFlag`. -/
def testFlag (flags flag : Nat) : Bool := flags &&& flag = flag ∧ (flag ≠ 0 ∨ flags = flag)

/-- How a signal of the replica changes the text, and what Qt reports of it; `none` if the text
stays as it is. -/
abbrev Update := QTextDocument → Signal → Option (QTextDocument × Report)

/-- A step of a handler, up to the signal it emits. -/
abbrev Stage := CRDT → Except Fault (CRDT × List Signal)

/-- The first loop of `handleRemotePaste`, and its signal. -/
def CRDT.pasteGroup (c : CRDT) (symbols : List Symbol) : Except Fault (CRDT × List Signal) := do
  let (c, places) ← c.pasteLoop symbols
  let text := (symbols.map Symbol.value).filter (· ≠ QChar.null)
  pure (c, [.insertGroup places.head? text (symbols.head?.map Symbol.format)])

def alignStage (s : Symbol) : Stage := fun c => c.handleRemoteAlignChange s

/-- `handleRemotePaste` emits a signal more for each newline, after it has set its alignment. -/
def Message.stages : Message → List Stage
  | .paste symbols =>
    (fun c => c.pasteGroup symbols) ::
      (symbols.filter fun s => s.value = QChar.null ∨ s.value = QChar.newline).map alignStage
  | m => [fun c => c.onReceived m]

namespace Editor

/-- `keyPressEvent` up to where the text may change. -/
def keyPressEvent (e : Editor) (modifiers key : Nat) (undoAvailable redoAvailable : Bool) :
    Editor :=
  let e :=
    if testFlag modifiers Qt.NoModifier ∧ key ≠ 16777219 ∧ key ≠ 16777223 then
      { e with inserted := true }
    else e
  if key = Qt.Key_Z ∧ testFlag modifiers Qt.ControlModifier then
    if undoAvailable then { e with undoFlag := true } else e
  else if key = Qt.Key_Y ∧ testFlag modifiers Qt.ControlModifier then
    if redoAvailable then { e with redoFlag := true } else e
  else if key = 16777219 ∨ key = 16777223 then { e with deleted := true }
  else e

/-- The text is `document` now. -/
def change (e : Editor) (around : Surroundings) (document : QTextDocument) (r : Report) :
    Except Fault Editor :=
  { e with document }.onContentsChange around r

def onSignal (around : Surroundings) (update : Update) (e : Editor) (s : Signal) :
    Except Fault Editor :=
  match update e.document s with
  | none => pure e
  | some (document, r) => e.change around document r

def onStage (around : Surroundings) (update : Update) (e : Editor) (stage : Stage) :
    Except Fault Editor := do
  let (crdt, signals) ← stage e.sent.1
  signals.foldlM (onSignal around update) { e with sent := (crdt, e.sent.2) }

/-- A remote operation. -/
def receive (e : Editor) (around : Surroundings) (update : Update) (m : Message) :
    Except Fault Editor :=
  m.stages.foldlM (onStage around update) e

end Editor

/-- What can happen. Where a handler changes the text, that is a `change` of its own after it;
`perform` is what the slots of the toolbar have the replica do. -/
inductive Event where
  | keyPress (modifiers key : Nat) (undoAvailable redoAvailable : Bool)
  | paste
  | insertFromMimeData (text : QString)
  | paint (selected : Bool)
  | undo
  | redo
  | perform (op : LocalOp)
  | change (around : Surroundings) (document : QTextDocument) (r : Report)
  | receive (around : Surroundings) (update : Update) (m : Message)

def Editor.step (e : Editor) : Event → Except Fault Editor
  | .keyPress modifiers key undoAvailable redoAvailable =>
    pure (e.keyPressEvent modifiers key undoAvailable redoAvailable)
  | .paste => pure { e with inserted := true }
  | .insertFromMimeData text => pure { e with pasted := text.length }
  | .paint selected => pure { e with selected }
  | .undo => pure { e with undoFlag := true }
  | .redo => pure { e with redoFlag := true }
  | .perform op => do
    let sent ← e.sent.perform op
    pure { e with sent }
  | .change around document r => e.change around document r
  | .receive around update m => e.receive around update m

/-! ## Remote operations -/

/-- The text after the update for a signal. -/
def QTextDocument.after (d : QTextDocument) (update : Update) (s : Signal) : QTextDocument :=
  ((update d s).map Prod.fst).getD d

/-- What Qt reports in the course of some signals. -/
def reports (update : Update) : QTextDocument → List Signal → List Report
  | _, [] => []
  | d, s :: signals =>
    ((update d s).map Prod.snd).toList ++ reports update (d.after update s) signals

/-- The update for a signal is reported like this. -/
def Signal.Reports (r : Report) : Signal → Prop
  | .insert .. => r.charsRemoved = 0 ∧ r.charsAdded = 1
  | .insertGroup _ text _ => r.charsRemoved = 0 ∧ 0 < r.charsAdded ∧ r.charsAdded ≤ text.length
  | .erase _ lenght => 0 < r.charsRemoved ∧ r.charsRemoved ≤ lenght ∧ r.charsAdded = 0
  | .change _ => r.charsRemoved = r.charsAdded ∧ 0 < r.charsAdded
  | .changeAlignment .. => r.charsRemoved = r.charsAdded ∧ 0 < r.charsAdded

/-- What Qt documents of its reports. -/
structure Update.Documented (update : Update) : Prop where
  report : ∀ {d s d' r}, update d s = some (d', r) → s.Reports r
  length : ∀ {d s d' r}, update d s = some (d', r) →
    d'.chars.length + r.charsRemoved = d.chars.length + r.charsAdded

/-- The size of the replica before and after the handler that emits a signal. -/
def Signal.Fits (before after : Int) : Signal → Prop
  | .insert .. => before + 1 ≤ after
  | .insertGroup _ text _ => before + text.length ≤ after
  | .erase _ lenght => after + lenght ≤ before
  | _ => True

def Signal.IsAlignment (s : Signal) : Prop :=
  ∃ align line index, s = .changeAlignment align line index

theorem Signal.IsAlignment.reports {s : Signal} {r : Report} (hs : s.IsAlignment)
    (h : s.Reports r) : r.charsRemoved = r.charsAdded := by
  obtain ⟨align, line, index, rfl⟩ := hs
  exact h.1

theorem Signal.IsAlignment.fits {s : Signal} (hs : s.IsAlignment) (before after : Int) :
    s.Fits before after := by
  obtain ⟨align, line, index, rfl⟩ := hs
  trivial

namespace CRDT

variable {c c' : CRDT} {signals : List Signal}

theorem pasteLoop_size {symbols : List Symbol} {places : List (Nat × Nat)}
    (h : c.pasteLoop symbols = .ok (c', places)) : c'.size = c.size + symbols.length := by
  induction symbols generalizing c places with
  | nil =>
    cases h
    simp
  | cons x symbols ih =>
    obtain ⟨⟨c1, place⟩, h1, h⟩ := bind_eq_ok.mp h
    obtain ⟨⟨c2, rest⟩, h2, h⟩ := bind_eq_ok.mp h
    cases h
    rw [ih h2, insertRemote_size h1, List.length_cons]
    omega

theorem eraseRemoteLoop_size {symbols : List Symbol} {places : List (Nat × Nat)}
    (h : c.eraseRemoteLoop symbols = .ok (c', some places)) :
    c'.size + symbols.length = c.size := by
  induction symbols generalizing c places with
  | nil =>
    cases h
    simp
  | cons x symbols ih =>
    obtain ⟨found, -, h⟩ := bind_eq_ok.mp h
    cases found with
    | none => cases h
    | some place =>
      obtain ⟨ls, -, h⟩ := bind_eq_ok.mp h
      obtain ⟨⟨c1, rest⟩, h1, h⟩ := bind_eq_ok.mp h
      cases rest with
      | none => cases h
      | some rest =>
        cases h
        have hsize := ih h1
        rw [List.length_cons]
        simp only at hsize
        omega

/-- Handlers other than that of a paste emit one signal at most, and at the end. -/
theorem onReceived_fits {m : Message} (hpaste : ∀ symbols, m ≠ .paste symbols)
    (h : c.onReceived m = .ok (c', signals)) :
    (∃ s, signals = [s] ∧ s.Fits c.size c'.size) ∨ ∀ s ∈ signals, s.IsAlignment := by
  cases m with
  | insert x =>
    obtain ⟨⟨c1, place⟩, h1, h⟩ := bind_eq_ok.mp h
    dsimp only at h
    split_ifs at h
    · cases h
      exact .inr (List.forall_mem_nil _)
    · cases h
      exact .inl ⟨_, rfl, (insertRemote_size h1).ge⟩
  | paste symbols => exact absurd rfl (hpaste symbols)
  | erase symbols =>
    obtain ⟨⟨c1, places⟩, h1, h⟩ := bind_eq_ok.mp h
    cases places with
    | none =>
      cases h
      exact .inr (List.forall_mem_nil _)
    | some places =>
      cases h
      exact .inl ⟨_, rfl, (eraseRemoteLoop_size h1).le⟩
  | changeSymbol x =>
    cases h
    exact .inr (List.forall_mem_nil _)
  | change symbols =>
    obtain ⟨⟨lines, finished⟩, -, h⟩ := bind_eq_ok.mp h
    cases h
    cases finished
    · exact .inr (List.forall_mem_nil _)
    · exact .inl ⟨_, rfl, trivial⟩
  | align x => exact .inr (handleRemoteAlignChange_signals h)

/-- The stages of a paste are its handler. -/
theorem onReceived_paste {symbols : List Symbol}
    (h : c.onReceived (.paste symbols) = .ok (c', signals)) : ∃ c1 s signals1,
      c.pasteGroup symbols = .ok (c1, [s]) ∧
      c1.alignChanges (symbols.filter fun x => x.value = QChar.null ∨ x.value = QChar.newline) =
        .ok (c', signals1) ∧
      (∀ {r}, s.Reports r → r.charsRemoved ≠ r.charsAdded) ∧ s.Fits c.size c1.size ∧
      signals = s :: signals1 := by
  obtain ⟨⟨c1, places⟩, h1, h⟩ := bind_eq_ok.mp h
  obtain ⟨⟨c2, signals1⟩, h2, h⟩ := bind_eq_ok.mp h
  cases h
  have hle := List.length_filter_le (· ≠ QChar.null) (symbols.map Symbol.value)
  rw [List.length_map] at hle
  refine ⟨c1, _, signals1, ?_, h2, ?_, ?_, rfl⟩
  · rw [pasteGroup, h1]
    rfl
  · intro r hr
    simp only [Signal.Reports] at hr
    omega
  · rw [Signal.Fits, pasteLoop_size h1]
    exact Int.add_le_add_left (Int.ofNat_le.mpr hle) _

end CRDT

namespace Editor

variable {e e' : Editor} {around : Surroundings} {update : Update} {s : Signal}

/-- An update that changes the number of characters is taken for what it is. -/
theorem onSignal_ignored (hdoc : update.Documented)
    (hfits : s.Fits e.document.chars.length e.sent.1.size)
    (hunequal : ∀ d' r, update e.document s = some (d', r) → r.charsRemoved ≠ r.charsAdded) :
    onSignal around update e s = .ok { e with document := e.document.after update s } := by
  rw [onSignal, QTextDocument.after]
  cases hu : update e.document s with
  | none => rfl
  | some shown =>
    obtain ⟨d', r⟩ := shown
    have hlength := hdoc.length hu
    have hreport := hdoc.report hu
    have hne := hunequal d' r hu
    show Editor.onContentsChange { e with document := d' } around r = _
    rw [onContentsChange, if_pos]
    · rfl
    · rw [QTextDocument.length_toPlainText]
      cases s with
      | insert line index x =>
        simp only [Signal.Fits, Signal.Reports] at hfits hreport
        exact .inl ⟨by omega, by show (d'.chars.length : Int) ≤ e.sent.1.size; omega⟩
      | insertGroup first text newFormat =>
        simp only [Signal.Fits, Signal.Reports] at hfits hreport
        exact .inl ⟨by omega, by show (d'.chars.length : Int) ≤ e.sent.1.size; omega⟩
      | erase start lenght =>
        simp only [Signal.Fits, Signal.Reports] at hfits hreport
        exact .inr ⟨by omega, by show e.sent.1.size ≤ (d'.chars.length : Int); omega⟩
      | change symbols => exact absurd hreport.1 hne
      | changeAlignment align line index => exact absurd hreport.1 hne

/-- Without a flag that waits no update is taken for a local one. -/
theorem onSignal_quiet (around : Surroundings) (hdoc : update.Documented)
    (hfits : s.Fits e.document.chars.length e.sent.1.size) (hquiet : ¬ e.Waits) :
    ∃ e', onSignal around update e s = .ok e' ∧ e'.sent = e.sent ∧
      e'.document = e.document.after update s ∧ ¬ e'.Waits := by
  by_cases hequal : ∃ d' r, update e.document s = some (d', r) ∧ r.charsRemoved = r.charsAdded
  · obtain ⟨d', r, hu, hequal⟩ := hequal
    obtain ⟨e', hrun, hsent, hdocument, hquiet'⟩ :=
      onContentsChange_quiet (e := { e with document := d' }) around hquiet hequal
    refine ⟨e', ?_, hsent, ?_, hquiet'⟩
    · rw [onSignal, hu]
      exact hrun
    · rw [hdocument, QTextDocument.after, hu]
      rfl
  · refine ⟨_, onSignal_ignored hdoc hfits ?_, rfl, rfl, hquiet⟩
    intro d' r hu he
    exact hequal ⟨d', r, hu, he⟩

/-- With one, an update with as many characters removed as added is. -/
theorem onSignal_sends (hdoc : update.Documented) (hwaits : e.Waits) {d' : QTextDocument}
    {r : Report} (hu : update e.document s = some (d', r))
    (hequal : r.charsRemoved = r.charsAdded) (h : onSignal around update e s = .ok e') :
    e.sent.count < e'.sent.count := by
  have hpos : 0 < r.charsAdded := by
    have hreport := hdoc.report hu
    cases s <;> simp only [Signal.Reports] at hreport <;> omega
  rw [onSignal, hu] at h
  exact onContentsChange_sends (e := { e with document := d' }) hwaits hequal hpos h

theorem onSignal_count (h : onSignal around update e s = .ok e') :
    e.sent.count ≤ e'.sent.count := by
  rw [onSignal] at h
  cases hu : update e.document s with
  | none =>
    rw [hu] at h
    exact (congrArg (fun e => e.sent.count) (Except.ok.inj h)).le
  | some shown =>
    obtain ⟨d', r⟩ := shown
    rw [hu] at h
    exact onContentsChange_count (e := { e with document := d' }) h

theorem onSignals_count {signals : List Signal}
    (h : signals.foldlM (onSignal around update) e = .ok e') : e.sent.count ≤ e'.sent.count :=
  foldlM_keeps (I := fun e' => e.sent.count ≤ e'.sent.count) h le_rfl
    fun _ _ _ hle hstep => hle.trans (onSignal_count hstep)

theorem onStage_count {stage : Stage} (h : onStage around update e stage = .ok e') :
    e.sent.count ≤ e'.sent.count := by
  obtain ⟨⟨crdt, signals⟩, -, h⟩ := bind_eq_ok.mp h
  exact onSignals_count (e := { e with sent := (crdt, e.sent.2) }) h

theorem onStages_count {stages : List Stage}
    (h : stages.foldlM (onStage around update) e = .ok e') : e.sent.count ≤ e'.sent.count :=
  foldlM_keeps (I := fun e' => e.sent.count ≤ e'.sent.count) h le_rfl
    fun _ _ _ hle hstep => hle.trans (onStage_count hstep)

theorem onSignals_quiet {signals : List Signal} (around : Surroundings)
    (hdoc : update.Documented) (hfits : ∀ s ∈ signals, ∀ before after, s.Fits before after)
    (hquiet : ¬ e.Waits) :
    ∃ e', signals.foldlM (onSignal around update) e = .ok e' ∧ e'.sent = e.sent ∧ ¬ e'.Waits := by
  induction signals generalizing e with
  | nil => exact ⟨e, rfl, rfl, hquiet⟩
  | cons s signals ih =>
    obtain ⟨e1, h1, hsent, -, hquiet1⟩ :=
      onSignal_quiet around hdoc (hfits s List.mem_cons_self _ _) hquiet
    obtain ⟨e', h', hsent', hquiet'⟩ :=
      ih (fun s hs => hfits s (List.mem_cons_of_mem _ hs)) hquiet1
    refine ⟨e', ?_, hsent'.trans hsent, hquiet'⟩
    rw [List.foldlM_cons, h1]
    exact h'

end Editor

section Alignments

variable {d : QTextDocument} {update : Update} {signals signals' : List Signal}

theorem reports_append : reports update d (signals ++ signals') =
    reports update d signals ++
      reports update (signals.foldl (fun d s => d.after update s) d) signals' := by
  induction signals generalizing d with
  | nil => rfl
  | cons s signals ih =>
    rw [List.cons_append, reports, reports, ih, List.append_assoc, List.foldl_cons]

/-- What is not reported changes no text. -/
theorem reports_cons_eq_nil {s : Signal} (h : reports update d (s :: signals) = []) :
    update d s = none ∧ d.after update s = d ∧ reports update d signals = [] := by
  obtain ⟨hnone, hrest⟩ := List.append_eq_nil_iff.mp h
  cases hu : update d s with
  | none =>
    have hafter : d.after update s = d := by
      rw [QTextDocument.after, hu]
      rfl
    exact ⟨rfl, hafter, hafter ▸ hrest⟩
  | some shown => simp [hu] at hnone

theorem foldl_after (h : reports update d signals = []) :
    signals.foldl (fun d s => d.after update s) d = d := by
  induction signals with
  | nil => rfl
  | cons s signals ih =>
    obtain ⟨-, hafter, hrest⟩ := reports_cons_eq_nil h
    rw [List.foldl_cons, hafter, ih hrest]

theorem reports_alignment (hdoc : update.Documented) (hs : ∀ s ∈ signals, s.IsAlignment) :
    ∀ r ∈ reports update d signals, r.charsRemoved = r.charsAdded := by
  induction signals generalizing d with
  | nil =>
    intro r hr
    cases hr
  | cons s signals ih =>
    intro r hr
    rcases List.mem_append.mp hr with hr | hr
    · obtain ⟨shown, hu, rfl⟩ := Option.map_eq_some_iff.mp (Option.mem_toList.mp hr)
      exact (hs s List.mem_cons_self).reports (hdoc.report hu)
    · exact ih (fun s hs' => hs s (List.mem_cons_of_mem _ hs')) r hr

namespace Editor

variable {e e' : Editor} {around : Surroundings}

theorem onSignals_unreported (h : reports update e.document signals = []) :
    signals.foldlM (onSignal around update) e = .ok e := by
  induction signals with
  | nil => rfl
  | cons s signals ih =>
    obtain ⟨hu, -, hrest⟩ := reports_cons_eq_nil h
    rw [List.foldlM_cons, onSignal, hu]
    exact ih hrest

theorem onSignals_sends (hdoc : update.Documented) (hs : ∀ s ∈ signals, s.IsAlignment)
    (hwaits : e.Waits) (hreports : reports update e.document signals ≠ [])
    (h : signals.foldlM (onSignal around update) e = .ok e') : e.sent.count < e'.sent.count := by
  induction signals with
  | nil => exact absurd rfl hreports
  | cons s signals ih =>
    rw [List.foldlM_cons] at h
    obtain ⟨e1, h1, h⟩ := bind_eq_ok.mp h
    cases hu : update e.document s with
    | none =>
      rw [onSignal, hu] at h1
      obtain rfl := Except.ok.inj h1
      rw [reports, QTextDocument.after, hu] at hreports
      exact ih (fun s hs' => hs s (List.mem_cons_of_mem _ hs')) hreports h
    | some shown =>
      obtain ⟨d', r⟩ := shown
      have hequal := (hs s List.mem_cons_self).reports (hdoc.report hu)
      exact (onSignal_sends hdoc hwaits hu hequal h1).trans_le (onSignals_count h)

/-! The alignments after a paste. -/

variable {symbols : List Symbol} {c' : CRDT}

theorem alignStages_quiet (around : Surroundings) (hdoc : update.Documented)
    (hquiet : ¬ e.Waits) (h : e.sent.1.alignChanges symbols = .ok (c', signals)) :
    ∃ e', (symbols.map alignStage).foldlM (onStage around update) e = .ok e' ∧
      e'.sent = (c', e.sent.2) := by
  induction symbols generalizing e signals with
  | nil =>
    cases h
    exact ⟨e, rfl, rfl⟩
  | cons x symbols ih =>
    obtain ⟨⟨c1, signals1⟩, h1, h⟩ := bind_eq_ok.mp h
    obtain ⟨⟨c2, signals2⟩, h2, h⟩ := bind_eq_ok.mp h
    cases h
    have halign : ∀ s ∈ signals1, s.IsAlignment := handleRemoteAlignChange_signals h1
    obtain ⟨e1, hrun1, hsent1, hquiet1⟩ := onSignals_quiet (e := { e with sent := (c1, e.sent.2) })
      around hdoc (fun s hs => (halign s hs).fits) hquiet
    rw [show c1 = e1.sent.1 from congrArg Prod.fst hsent1.symm] at h2
    obtain ⟨e', hrun, hsent⟩ := ih hquiet1 h2
    refine ⟨e', ?_, by rw [hsent, hsent1]⟩
    rw [List.map_cons, List.foldlM_cons, onStage, alignStage, h1]
    show (signals1.foldlM (onSignal around update) _ >>= _) = _
    rw [hrun1]
    exact hrun

theorem alignStages_unreported (h : e.sent.1.alignChanges symbols = .ok (c', signals))
    (hreports : reports update e.document signals = []) :
    (symbols.map alignStage).foldlM (onStage around update) e =
      .ok { e with sent := (c', e.sent.2) } := by
  induction symbols generalizing e signals with
  | nil =>
    cases h
    rfl
  | cons x symbols ih =>
    obtain ⟨⟨c1, signals1⟩, h1, h⟩ := bind_eq_ok.mp h
    obtain ⟨⟨c2, signals2⟩, h2, h⟩ := bind_eq_ok.mp h
    cases h
    obtain ⟨hnone, hrest⟩ := List.append_eq_nil_iff.mp (reports_append ▸ hreports)
    rw [foldl_after hnone] at hrest
    have hstage : onStage around update e (alignStage x) =
        .ok { e with sent := (c1, e.sent.2) } := by
      rw [onStage, alignStage, h1]
      exact onSignals_unreported (e := { e with sent := (c1, e.sent.2) }) hnone
    rw [List.map_cons, List.foldlM_cons, hstage]
    exact ih (e := { e with sent := (c1, e.sent.2) }) h2 hrest

theorem alignStages_sends (hdoc : update.Documented) (hwaits : e.Waits)
    (h : e.sent.1.alignChanges symbols = .ok (c', signals))
    (hreports : reports update e.document signals ≠ [])
    (hrun : (symbols.map alignStage).foldlM (onStage around update) e = .ok e') :
    e.sent.count < e'.sent.count := by
  induction symbols generalizing e signals with
  | nil =>
    cases h
    exact absurd rfl hreports
  | cons x symbols ih =>
    obtain ⟨⟨c1, signals1⟩, h1, h⟩ := bind_eq_ok.mp h
    obtain ⟨⟨c2, signals2⟩, h2, h⟩ := bind_eq_ok.mp h
    cases h
    have halign : ∀ s ∈ signals1, s.IsAlignment := handleRemoteAlignChange_signals h1
    rw [List.map_cons, List.foldlM_cons] at hrun
    obtain ⟨e1, hrun1, hrun⟩ := bind_eq_ok.mp hrun
    have hstage : signals1.foldlM (onSignal around update) { e with sent := (c1, e.sent.2) } =
        .ok e1 := by
      rw [onStage, alignStage, h1] at hrun1
      exact hrun1
    by_cases hnone : reports update e.document signals1 = []
    · rw [onSignals_unreported (e := { e with sent := (c1, e.sent.2) }) hnone] at hstage
      obtain rfl := Except.ok.inj hstage
      rw [reports_append, hnone, List.nil_append, foldl_after hnone] at hreports
      exact ih (e := { e with sent := (c1, e.sent.2) }) hwaits h2 hreports hrun
    · exact (onSignals_sends (e := { e with sent := (c1, e.sent.2) }) hdoc halign hwaits hnone
        hstage).trans_le (onStages_count hrun)

/-! Whole messages. -/

variable {m : Message}

theorem receive_eq (hpaste : ∀ symbols, m ≠ .paste symbols)
    (hm : e.sent.1.onReceived m = .ok (c', signals)) : e.receive around update m =
      signals.foldlM (onSignal around update) { e with sent := (c', e.sent.2) } := by
  have hstages : m.stages = [fun c => c.onReceived m] := by
    cases m with
    | paste symbols => exact absurd rfl (hpaste symbols)
    | _ => rfl
  rw [receive, hstages, List.foldlM_cons, onStage, hm]
  show (signals.foldlM (onSignal around update) _ >>= pure) = _
  rw [bind_pure]

theorem receive_paste {c1 : CRDT} {s : Signal}
    (h1 : e.sent.1.pasteGroup symbols = .ok (c1, [s])) : e.receive around update (.paste symbols) =
      onSignal around update { e with sent := (c1, e.sent.2) } s >>=
        ((symbols.filter fun x => x.value = QChar.null ∨ x.value = QChar.newline).map
          alignStage).foldlM (onStage around update) := by
  rw [receive, Message.stages, List.foldlM_cons, onStage, h1]
  show ([s].foldlM (onSignal around update) _ >>= _) = _
  simp only [List.foldlM_cons, List.foldlM_nil, bind_pure]

/-- The editor is silent unless a flag waits and Qt reports as many characters removed as added. -/
theorem receive_silent (around : Surroundings) (hdoc : update.Documented)
    (hsize : (e.document.chars.length : Int) = e.sent.1.size)
    (hm : e.sent.1.onReceived m = .ok (c', signals))
    (hquiet : ¬ e.Waits ∨ ∀ r ∈ reports update e.document signals,
      r.charsRemoved ≠ r.charsAdded) :
    ∃ e', e.receive around update m = .ok e' ∧ e'.sent = (c', e.sent.2) := by
  by_cases hpaste : ∃ symbols, m = .paste symbols
  · obtain ⟨symbols, rfl⟩ := hpaste
    obtain ⟨c1, s, signals1, h1, halign, hreported, hfits, rfl⟩ := CRDT.onReceived_paste hm
    rw [← hsize] at hfits
    rw [receive_paste h1]
    rcases hquiet with hquiet | hunequal
    · obtain ⟨e1, hrun1, hsent1, -, hquiet1⟩ := onSignal_quiet
        (e := { e with sent := (c1, e.sent.2) }) around hdoc hfits hquiet
      rw [show c1 = e1.sent.1 from congrArg Prod.fst hsent1.symm] at halign
      obtain ⟨e', hrun, hsent⟩ := alignStages_quiet around hdoc hquiet1 halign
      refine ⟨e', ?_, by rw [hsent, hsent1]⟩
      rw [hrun1]
      exact hrun
    · have hrest : reports update (e.document.after update s) signals1 = [] := by
        refine List.eq_nil_iff_forall_not_mem.mpr ?_
        intro r hr
        exact hunequal r (List.mem_append_right _ hr)
          (reports_alignment hdoc (alignChanges_signals halign) r hr)
      rw [onSignal_ignored (e := { e with sent := (c1, e.sent.2) }) hdoc hfits
        fun d' r hu => hreported (hdoc.report hu)]
      refine ⟨_, alignStages_unreported (e := { e with
        sent := (c1, e.sent.2), document := e.document.after update s }) halign hrest, rfl⟩
  · have hpaste' : ∀ symbols, m ≠ .paste symbols := fun symbols he => hpaste ⟨symbols, he⟩
    rw [receive_eq hpaste' hm]
    rcases CRDT.onReceived_fits hpaste' hm with ⟨s, rfl, hfits⟩ | halign
    · rw [← hsize] at hfits
      simp only [List.foldlM_cons, List.foldlM_nil, bind_pure]
      rcases hquiet with hquiet | hunequal
      · obtain ⟨e', hrun, hsent, -⟩ := onSignal_quiet (e := { e with sent := (c', e.sent.2) })
          around hdoc hfits hquiet
        exact ⟨e', hrun, hsent⟩
      · refine ⟨_, onSignal_ignored (e := { e with sent := (c', e.sent.2) }) hdoc hfits ?_, rfl⟩
        intro d' r hu
        exact hunequal r (by simp [reports, show update e.document s = some (d', r) from hu])
    · rcases hquiet with hquiet | hunequal
      · obtain ⟨e', hrun, hsent, -⟩ := onSignals_quiet (e := { e with sent := (c', e.sent.2) })
          around hdoc (fun s hs => (halign s hs).fits) hquiet
        exact ⟨e', hrun, hsent⟩
      · have hnone : reports update e.document signals = [] := by
          refine List.eq_nil_iff_forall_not_mem.mpr ?_
          intro r hr
          exact hunequal r hr (reports_alignment hdoc halign r hr)
        exact ⟨_, onSignals_unreported (e := { e with sent := (c', e.sent.2) }) hnone, rfl⟩

/-- In that case it is not. -/
theorem receive_sends (hdoc : update.Documented)
    (hsize : (e.document.chars.length : Int) = e.sent.1.size)
    (hm : e.sent.1.onReceived m = .ok (c', signals)) (hwaits : e.Waits) {r : Report}
    (hr : r ∈ reports update e.document signals) (hequal : r.charsRemoved = r.charsAdded)
    (h : e.receive around update m = .ok e') : e.sent.count < e'.sent.count := by
  by_cases hpaste : ∃ symbols, m = .paste symbols
  · obtain ⟨symbols, rfl⟩ := hpaste
    obtain ⟨c1, s, signals1, h1, halign, hreported, hfits, rfl⟩ := CRDT.onReceived_paste hm
    rw [← hsize] at hfits
    rw [receive_paste h1, onSignal_ignored (e := { e with sent := (c1, e.sent.2) }) hdoc hfits
      fun d' r hu => hreported (hdoc.report hu)] at h
    have hrest : reports update (e.document.after update s) signals1 ≠ [] := by
      rcases List.mem_append.mp hr with hr | hr
      · obtain ⟨shown, hu, rfl⟩ := Option.map_eq_some_iff.mp (Option.mem_toList.mp hr)
        exact absurd hequal (hreported (hdoc.report hu))
      · exact List.ne_nil_of_mem hr
    exact alignStages_sends (e := { e with
      sent := (c1, e.sent.2), document := e.document.after update s }) hdoc hwaits halign hrest h
  · have hpaste' : ∀ symbols, m ≠ .paste symbols := fun symbols he => hpaste ⟨symbols, he⟩
    rw [receive_eq hpaste' hm] at h
    rcases CRDT.onReceived_fits hpaste' hm with ⟨s, rfl, -⟩ | halign
    · simp only [List.foldlM_cons, List.foldlM_nil, bind_pure] at h
      obtain ⟨⟨d', r'⟩, hu, rfl⟩ : ∃ shown, update e.document s = some shown ∧ shown.2 = r := by
        simpa [reports] using hr
      exact onSignal_sends (e := { e with sent := (c', e.sent.2) }) hdoc hwaits hu hequal h
    · exact onSignals_sends (e := { e with sent := (c', e.sent.2) }) hdoc halign hwaits
        (List.ne_nil_of_mem hr) h

end Editor

end Alignments

/-! ## Runs -/

/-- A remote operation that applies, in a run of the editor, when the text is as long as the
replica. -/
structure Reception (opened : Editor) (events : List Event) (e : Editor) (around : Surroundings)
    (update : Update) (m : Message) : Prop where
  reached : ∃ past rest, events = past ++ .receive around update m :: rest ∧
    past.foldlM Editor.step opened = .ok e
  size : (e.document.toPlainText.length : Int) = e.sent.1.size
  applies : ∃ c' signals, e.sent.1.onReceived m = .ok (c', signals)
  documented : update.Documented

/-- The replica is what its own handler makes of it, and nothing is sent. -/
def Editor.Silent (e : Editor) (around : Surroundings) (update : Update) (m : Message) : Prop :=
  ∃ c' signals e', e.sent.1.onReceived m = .ok (c', signals) ∧
    e.receive around update m = .ok e' ∧ e'.sent = (c', e.sent.2)

/-- No flag waits, or Qt reports no change with as many characters removed as added. -/
def Editor.Settled (e : Editor) (update : Update) (m : Message) : Prop :=
  ¬ e.Waits ∨ ∀ c' signals, e.sent.1.onReceived m = .ok (c', signals) →
    ∀ r ∈ reports update e.document signals, r.charsRemoved ≠ r.charsAdded

theorem Reception.silent_iff {opened e : Editor} {events : List Event} {around : Surroundings}
    {update : Update} {m : Message} (h : Reception opened events e around update m) :
    e.Silent around update m ↔ e.Settled update m := by
  obtain ⟨c', signals, hm⟩ := h.applies
  have hsize := h.size
  rw [QTextDocument.length_toPlainText] at hsize
  constructor
  · intro hsilent
    obtain ⟨c2, signals2, e', hm2, hrun, hsent⟩ := hsilent
    by_contra hset
    obtain ⟨hwaits, hreports⟩ := not_or.mp hset
    push Not at hwaits hreports
    obtain ⟨c3, signals3, hm3, r, hr, hequal⟩ := hreports
    have hlt := Editor.receive_sends h.documented hsize hm3 hwaits hr hequal hrun
    rw [Sent.count, Sent.count, hsent] at hlt
    exact Nat.lt_irrefl _ hlt
  · intro hset
    obtain ⟨e', hrun, hsent⟩ := Editor.receive_silent around h.documented hsize hm
      (hset.imp_right fun hall => hall c' signals hm)
    exact ⟨c', signals, e', hm, hrun, hsent⟩

/-- **Echoes.** A run echoes no remote operation if and only if each comes when no flag waits for
a local change, or makes no change with as many characters removed as added. -/
theorem never_echoed_iff (opened : Editor) (events : List Event) :
    (∀ e around update m, Reception opened events e around update m → e.Silent around update m) ↔
      ∀ e around update m, Reception opened events e around update m → e.Settled update m :=
  forall₅_congr fun _ _ _ _ h => h.silent_iff

/-- A paste comes first in the text, a change is one of the second character. -/
def pasteThenBold : Update
  | d, .insertGroup _ text _ =>
    if text = [] then none
    else some ({ d with chars := text.map (⟨·, default⟩) ++ d.chars }, ⟨0, 0, text.length⟩)
  | d, .change _ =>
    some ({ d with chars := d.chars.modify 1 fun ch => { ch with format.font.bold := true } },
      ⟨1, 1, 1⟩)
  | _, _ => none

theorem pasteThenBold_documented : pasteThenBold.Documented := by
  constructor
  all_goals
    intro d s d' r hu
    cases s with
    | insertGroup first text newFormat =>
      by_cases hempty : text = []
      · simp [pasteThenBold, hempty] at hu
      · simp only [pasteThenBold, if_neg hempty, Option.some.injEq, Prod.mk.injEq] at hu
        obtain ⟨rfl, rfl⟩ := hu
        simp [Signal.Reports, List.length_pos_iff, hempty, Nat.add_comm]
    | change symbols =>
      simp only [pasteThenBold, Option.some.injEq, Prod.mk.injEq] at hu
      obtain ⟨rfl, rfl⟩ := hu
      simp [Signal.Reports]
    | _ => cases hu

/-- A new file in the editor. -/
def newEditor : Editor :=
  { sent := (.opened 1 [[plain QChar.null [⟨9, 1⟩]]], []), document := typedText []
    selected := false, inserted := false, pasted := 0, deleted := false
    undoFlag := false, redoFlag := false }

def boldB : Symbol :=
  { plain (QChar.of 'b') [⟨5, 2⟩] with format := { (default : SymbolFormat) with bold := true } }

/-- Two letters come, the left arrow key is pressed, and one of them becomes bold. -/
def arrowKey : List Event :=
  [.receive default pasteThenBold
    (.paste [plain (QChar.of 'a') [⟨3, 2⟩], plain (QChar.of 'b') [⟨5, 2⟩]]),
   .keyPress Qt.NoModifier 16777234 false false,
   .receive default pasteThenBold (.change [boldB])]

/-- After an arrow key the letter that changed is erased and inserted again. -/
theorem arrow_key_echoes : ∃ e e', Reception newEditor arrowKey e default pasteThenBold
      (.change [boldB]) ∧
    ¬ e.Silent default pasteThenBold (.change [boldB]) ∧
    e.receive default pasteThenBold (.change [boldB]) = .ok e' ∧
    e'.sent.2 = [.erase [boldB], .insert { boldB with position := [⟨4, 1⟩], counter := 1 }] := by
  let c : CRDT := ⟨1, [[plain (QChar.of 'a') [⟨3, 2⟩], plain (QChar.of 'b') [⟨5, 2⟩],
    plain QChar.null [⟨9, 1⟩]]], 0, [], 2⟩
  have hpaste : newEditor.sent.1.pasteGroup
      [plain (QChar.of 'a') [⟨3, 2⟩], plain (QChar.of 'b') [⟨5, 2⟩]] =
      .ok (c, [.insertGroup (some (0, 0)) [QChar.of 'a', QChar.of 'b'] (some default)]) := by
    decide +kernel
  have hchange : c.onReceived (.change [boldB]) =
      .ok ({ c with
        symbols := [[plain (QChar.of 'a') [⟨3, 2⟩], boldB, plain QChar.null [⟨9, 1⟩]]] },
        [.change [boldB]]) := by decide +kernel
  let e : Editor := { newEditor with
    sent := (c, []), document := typedText [⟨QChar.of 'a', default⟩, ⟨QChar.of 'b', default⟩] }
  have hfirst : newEditor.receive default pasteThenBold
      (.paste [plain (QChar.of 'a') [⟨3, 2⟩], plain (QChar.of 'b') [⟨5, 2⟩]]) = .ok e := by
    rw [Editor.receive_paste hpaste]
    rfl
  have hreceives : Reception newEditor arrowKey { e with inserted := true } default pasteThenBold
      (.change [boldB]) := by
    refine ⟨⟨arrowKey.take 2, [], rfl, ?_⟩, rfl, ⟨_, _, hchange⟩, pasteThenBold_documented⟩
    show (newEditor.receive default pasteThenBold _ >>= _) = _
    rw [hfirst]
    rfl
  have hsent : (fun e' : Editor => e'.sent.2) <$> Editor.receive { e with inserted := true } default
      pasteThenBold (.change [boldB]) =
        .ok [.erase [boldB], .insert { boldB with position := [⟨4, 1⟩], counter := 1 }] := by
    decide +kernel
  obtain ⟨e', hrun, hsent⟩ := map_eq_ok.mp hsent
  refine ⟨_, e', hreceives, ?_, hrun, hsent⟩
  intro hsilent
  obtain ⟨c', signals, e2, -, hrun2, hsent2⟩ := hsilent
  obtain rfl := Except.ok.inj (hrun.symm.trans hrun2)
  rw [hsent2] at hsent
  cases hsent

end Scriba.Client
