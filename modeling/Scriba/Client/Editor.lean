import Scriba.Lib.Run
import Scriba.Client.TextDocument

/-! # The editor

What `Editor` does when its text changes: it finds out whether the change was local, and which one
it was, from the report of Qt and from flags that the events before it set, and has `CRDT` repeat
it. -/

namespace Scriba.Client

open Scriba.Utility Scriba.Lib Scriba.Lib.Lines

/-- What the editor takes from its surroundings: the alignment of the toolbar, the font and the
colour that the default constructors give, and the chances of the `n`-th insertion of a text. -/
structure Surroundings where
  currentAlignment : Nat
  unset : QTextCharFormat
  chance : Nat → Nat → Chance

instance : Inhabited Surroundings := ⟨⟨Qt.AlignLeft, default, fun _ _ => ⟨⟨true, 0⟩, .alignLeft⟩⟩⟩

/-- A replica after some operations, and what they broadcast. -/
abbrev Sent := CRDT × List Message

/-- One more operation. -/
def Sent.perform (s : Sent) (op : LocalOp) : Except Fault Sent := do
  let (c, m) ← op.perform s.1
  pure (c, s.2 ++ [m])

/-! ## Insertions -/

/-- The variables of the loop of `handleLocalInsertion`. -/
structure InsertLoop where
  sent : Sent
  line : Nat
  index : Nat
  cursor : Nat
  format : QTextCharFormat
  formatPrec : QTextCharFormat
  partialText : QString
  align : Nat
  alignPrec : Nat
  linePrec : Nat
  numLines : Nat

namespace InsertLoop

/-- `localInsertGroup`, which moves `line` and `index` on. The characters of `partialText` are the
last ones of the first `done` characters. -/
def send (v : InsertLoop) (done : Nat) (format : QTextCharFormat) (align : Nat)
    (chance : Nat → Chance) : Except Fault InsertLoop := do
  let (crdt, (line, index), m) ← v.sent.1.localInsertGroup v.line v.index v.partialText format.font
    format.color align fun k => chance (done - v.partialText.length + k)
  pure { v with sent := (crdt, v.sent.2 ++ [m]), line, index }

def round (d : QTextDocument) (added : QString) (chance : Nat → Chance) (i : Nat)
    (v : InsertLoop) : Except Fault InsertLoop := do
  -- Position on the RIGHT of the target char
  let cursor := d.right v.cursor
  let format := d.charFormat cursor
  let formatPrec := if i = 0 then format else v.formatPrec
  let align := if v.numLines ≠ v.linePrec then d.blockAlignment v.numLines else v.alignPrec
  let v := { v with cursor, format, formatPrec, align }
  let value ← QVector.get added i
  let v ←
    if v.format = v.formatPrec ∧ v.align = v.alignPrec then
      pure { v with partialText := v.partialText ++ [value] }
    else do
      -- If different format send to server and move on with next chars
      let v ← v.send i v.formatPrec v.alignPrec chance
      pure { v with formatPrec := v.format, alignPrec := v.align, partialText := [value] }
  let linePrec := v.numLines
  let numLines := if value = QChar.newline then v.numLines + 1 else v.numLines
  pure { v with linePrec, numLines }

end InsertLoop

/-- `handleLocalInsertion`, without what it does to `undoFlag`. To read `at(0)` of no text is a
fault: the text is the editor's own, unlike the value in a message (`Symbol.fromJson`). -/
def handleLocalInsertion (d : QTextDocument) (around : Surroundings) (turn : Nat) (sent : Sent)
    (position : Nat) (num_chars : Int) : Except Fault Sent := do
  let added := QString.mid d.toPlainText position num_chars
  if (← QVector.get added 0) = QChar.null then pure sent
  else
    let line := d.blockNumber position
    let index := d.positionInBlock position
    if num_chars = 1 then
      -- To retrieve the format it is necessary to be on the RIGHT of the target char
      let format := d.charFormat (d.right position)
      sent.perform (.insert line index (← QVector.get added 0) format.font format.color
        around.currentAlignment (around.chance turn 0))
    else
      let v ← forLoop (InsertLoop.round d added (around.chance turn)) 0 num_chars.toNat
        { sent, line, index, cursor := position, format := around.unset
          formatPrec := around.unset, partialText := [], align := 0
          alignPrec := d.blockAlignment line, linePrec := line, numLines := line }
      if v.partialText ≠ [] then
        let v ← v.send num_chars.toNat v.format v.align (around.chance turn)
        pure v.sent
      else pure v.sent

/-! ## Changes of format -/

/-- The variables of the loop of `on_formatChange`; the places are the pairs of `startLine` and
`startIndex` and of `endLine` and `endIndex`. -/
structure FormatLoop where
  sent : Sent
  formatPrec : QTextCharFormat
  startPlace : Nat × Nat
  endPlace : Nat × Nat

namespace FormatLoop

def send (v : FormatLoop) : Except Fault FormatLoop := do
  let sent ← v.sent.perform (.changeGroup v.startPlace.1 v.endPlace.1 v.startPlace.2 v.endPlace.2
    v.formatPrec.font v.formatPrec.color)
  pure { v with sent }

def round (d : QTextDocument) (changed : QString) (start i : Nat) (v : FormatLoop) :
    Except Fault FormatLoop := do
  let place := (d.blockNumber i, d.positionInBlock i)
  let v := if i = start then { v with startPlace := place, endPlace := place } else v
  -- If newline do nothing
  if (← QVector.get changed (i - start)) = QChar.paragraphSeparator then pure v
  else
    -- Position AFTER the char to read its format
    let format := d.charFormat (i + 1)
    let v := if i = start then { v with formatPrec := format } else v
    if format = v.formatPrec then pure { v with endPlace := place }
    else
      let v ← v.send
      pure { v with formatPrec := format, startPlace := place, endPlace := place }

end FormatLoop

def onFormatChange (d : QTextDocument) (around : Surroundings) (sent : Sent) (changed : QString)
    (start stop : Nat) : Except Fault Sent := do
  -- If no symbol selected
  if start = stop then pure sent
  else
    let v ← forLoop (FormatLoop.round d changed start) start (stop - start)
      { sent, formatPrec := around.unset, startPlace := (0, 0), endPlace := (0, 0) }
    let v ← v.send
    pure v.sent

/-! ## Undo and redo -/

/-- `alignmentConversion` of a `Qt::Alignment`. -/
def alignmentConversion (a : Nat) : Except Fault SymbolFormat.Alignment :=
  if a = Qt.AlignLeft ||| Qt.AlignLeading ∨ a = Qt.AlignLeading ||| Qt.AlignAbsolute then
    pure .alignLeft
  else if a = Qt.AlignCenter ∨ a = Qt.AlignHCenter then pure .alignCenter
  else if a = Qt.AlignRight ∨ a = Qt.AlignTrailing ||| Qt.AlignAbsolute then pure .alignRight
  else throw .missingReturn

/-- `Symbol::getQTextCharFormat`, which writes to the font of the default constructor. -/
def Surroundings.getQTextCharFormat (around : Surroundings) (s : Symbol) : QTextCharFormat :=
  { around.unset with
    font :=
      { italic := s.format.italic, bold := s.format.bold, underline := s.format.underline
        pointSize := s.format.size, family := s.format.font }
    color := ⟨s.format.color⟩ }

def Surroundings.getSymbolFormat (around : Surroundings) (symbols : Lines) (line index : Nat) :
    Except Fault QTextCharFormat := do
  pure (around.getQTextCharFormat (← QVector.get (← QVector.get symbols line) index))

def getAlignmentLine (symbols : Lines) (line : Nat) : Except Fault SymbolFormat.Alignment := do
  pure (← lastSymbol (← QVector.get symbols line)).format.align

/-- The first loop of `checkAlignment`, with `n` characters behind the cursor: where the cursor
gets to, and `formatChange`. -/
def checkFormats (d : QTextDocument) (around : Surroundings) (symbols : Lines) (cursor : Nat)
    (formatChange : Bool) : Nat → Except Fault (Nat × Bool)
  | 0 => pure (cursor, formatChange)
  | n + 1 => do
    let formatDoc := d.charFormat (cursor + 1)
    let formatSL ← around.getSymbolFormat symbols (d.blockNumber cursor) (d.positionInBlock cursor)
    if formatSL = formatDoc then pure (cursor + 1, formatChange)
    else checkFormats d around symbols (cursor + 1) true n

/-- What `checkAlignment` does at a block, and `alignChange`. (`align_SL` is not used.) -/
def checkBlock (d : QTextDocument) (line : Nat) (v : Sent × Bool) : Except Fault (Sent × Bool) := do
  let s_align_SL ← getAlignmentLine v.1.1.symbols line
  let s_align ← alignmentConversion (d.blockAlignment line)
  let sent ← v.1.perform (.changeAlignment line s_align)
  pure (sent, v.2 || s_align != s_align_SL)

/-- `checkAlignment`, without what it does to `undoFlag` and `redoFlag`. -/
def checkAlignment (d : QTextDocument) (around : Surroundings) (sent : Sent) (position : Nat) :
    Except Fault (Sent × Bool) := do
  let (cursor, formatChange) ←
    checkFormats d around sent.1.symbols position false (d.chars.length - position)
  if formatChange then
    let sent ← onFormatChange d around sent (d.selectedText position cursor) position cursor
    pure (sent, false)
  else
    let line := d.blockNumber position
    forLoop (checkBlock d) line (lineOf TextChar.endsBlock d.chars + 1 - line) (sent, false)

/-! ## Changes of the text -/

/-- The flags of `MyQTextEdit` and of `Editor`, with the text and the replica. The constructors
initialize all flags but `redoFlag`. -/
structure Editor where
  sent : Sent
  document : QTextDocument
  selected : Bool
  inserted : Bool
  pasted : Nat
  deleted : Bool
  undoFlag : Bool
  redoFlag : Bool

/-- What Qt reports of a change of the text. -/
structure Report where
  position : Nat
  charsRemoved : Nat
  charsAdded : Nat

namespace Editor

def localErase (e : Editor) (position : Nat) (lenght : Int) : Except Fault Editor := do
  let sent ← e.sent.perform
    (.erase (e.document.blockNumber position) (e.document.positionInBlock position) lenght.toNat)
  pure { e with sent }

def handleLocalInsertion (e : Editor) (around : Surroundings) (turn position : Nat)
    (num_chars : Int) : Except Fault Editor := do
  let sent ← Client.handleLocalInsertion e.document around turn e.sent position num_chars
  pure { e with sent, undoFlag := false }

/-- `on_contentsChange` where undo or redo may have changed formats. -/
def checkUndone (e : Editor) (around : Surroundings) (r : Report) : Except Fault Editor := do
  if r.charsRemoved = r.charsAdded ∧ (e.undoFlag ∨ e.redoFlag) then
    let (sent, alignChange) ← checkAlignment e.document around e.sent r.position
    let e := { e with sent, undoFlag := false, redoFlag := false }
    if alignChange then pure e
    else
      let e ← e.localErase r.position r.charsRemoved
      e.handleLocalInsertion around 0 r.position r.charsAdded
  else pure e

/-- At the beginning of the editor, what undo erased and redo inserted. -/
def repeatUndone (e : Editor) (around : Surroundings) (r : Report) : Except Fault Editor := do
  let e ←
    if r.charsAdded < r.charsRemoved ∧ e.undoFlag then
      e.localErase r.position (r.charsRemoved - r.charsAdded : Int)
    else pure e
  if r.charsRemoved < r.charsAdded ∧ e.redoFlag then
    e.handleLocalInsertion around 2 r.position (r.charsAdded - r.charsRemoved : Int)
  else pure e

/-- Substituting some text at the beginning of the editor. -/
def substitute (e : Editor) (around : Surroundings) (r : Report) : Except Fault Editor := do
  let e ←
    if e.selected then do
      let add := if 0 < e.pasted then e.pasted else 1
      let e ← e.localErase r.position (add - (r.charsAdded - r.charsRemoved : Int))
      e.handleLocalInsertion around 1 r.position add
    else pure e
  e.repeatUndone around r

/-- Normal operations of deletion and insertion. -/
def replace (e : Editor) (around : Surroundings) (r : Report) : Except Fault Editor := do
  let e ← if 0 < r.charsRemoved then e.localErase r.position r.charsRemoved else pure e
  if 0 < r.charsAdded then e.handleLocalInsertion around 1 r.position r.charsAdded else pure e

/-- The second part of `on_contentsChange`. -/
def repeatChange (e : Editor) (around : Surroundings) (r : Report) : Except Fault Editor :=
  if ¬ (e.inserted ∨ 0 < e.pasted) ∧ r.charsAdded = r.charsRemoved then pure e
  else if r.position = 0 ∧ ((e.selected ∧ ¬ e.deleted) ∨
      (r.charsAdded < r.charsRemoved ∧ e.undoFlag) ∨
      (r.charsRemoved < r.charsAdded ∧ e.redoFlag)) then e.substitute around r
  else if r.position = 0 ∧ (0 < e.pasted ∨ e.inserted) then
    e.handleLocalInsertion around 1 r.position (r.charsAdded - r.charsRemoved : Int)
  else e.replace around r

def onContentsChange (e : Editor) (around : Surroundings) (r : Report) : Except Fault Editor := do
  -- REMOTE OPERATION: insert/delete received from remote client: nothing to update
  if (r.charsRemoved < r.charsAdded ∧ e.document.toPlainText.length ≤ e.sent.1.size) ∨
      (r.charsAdded < r.charsRemoved ∧ e.sent.1.size ≤ e.document.toPlainText.length) then pure e
  else
    let e ← e.checkUndone around r
    let e ← e.repeatChange around r
    pure { e with
      inserted := false, pasted := 0, deleted := false, undoFlag := false, redoFlag := false }

end Editor

end Scriba.Client
