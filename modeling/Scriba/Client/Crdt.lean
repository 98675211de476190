import Scriba.Lib.Bisect
import Scriba.Client.Position

/-! # The client's replica

The class `CRDT` of `Client/CRDT.cpp`: the lines of symbols, the local operations with the
message each one broadcasts, and the handlers of remote messages with the signals they
emit to the editor. A container access out of range is a `Fault`. Variables the source
leaves unset are `none` in the signals, and arguments where they end up in a symbol. -/

namespace Scriba.Client

open Scriba.Utility Scriba.Lib.Bisect

/-! ## Containers -/

namespace QVector

variable {α : Type}

/-- `v[i]`, read. -/
def get (v : List α) (i : Nat) : Except Fault α :=
  match v[i]? with
  | some a => .ok a
  | none => .error .outOfRange

/-- `v[i] = a`. -/
def put (v : List α) (i : Nat) (a : α) : Except Fault (List α) :=
  if i < v.length then .ok (v.set i a) else .error .outOfRange

/-- `v.insert(i, a)`. -/
def insert (v : List α) (i : Nat) (a : α) : Except Fault (List α) :=
  if i ≤ v.length then .ok (v.insertIdx i a) else .error .outOfRange

/-- `v.erase(v.begin() + i)`. -/
def erase (v : List α) (i : Nat) : Except Fault (List α) :=
  if i < v.length then .ok (v.eraseIdx i) else .error .outOfRange

/-- The copies `[begin, begin + i)` and `[begin + i, end)`. -/
def cut (v : List α) (i : Nat) : Except Fault (List α × List α) :=
  if i ≤ v.length then .ok (v.take i, v.drop i) else .error .outOfRange

end QVector

abbrev Lines := List (List Symbol)

/-- The members of `CRDT`, the `Client *` apart. -/
structure CRDT where
  siteId : Int
  symbols : Lines
  counter : Int
  strategyCache : StrategyCache
  size : Int
deriving DecidableEq

/-- What one `localInsert` leaves to chance: its draws, and what the memory of the fresh
symbol holds in the field its constructor does not write. -/
structure Chance where
  draw : Draw
  align : SymbolFormat.Alignment

/-- The operations a client broadcasts. `changeSymbol` is the JSON message of `localChange`,
`change` the byte array of `localChangeGroup`; both have `operation_type` CHANGE. -/
inductive Message where
  | insert (s : Symbol)
  | paste (symbols : List Symbol)
  | erase (symbols : List Symbol)
  | changeSymbol (s : Symbol)
  | change (symbols : List Symbol)
  | align (s : Symbol)
deriving DecidableEq

/-- What a message inserts. -/
def Message.inserted : Message → List Symbol
  | .insert s => [s]
  | .paste symbols => symbols
  | _ => []

/-- What a message erases. -/
def Message.erased : Message → List Symbol
  | .erase symbols => symbols
  | _ => []

/-- Insertions, pastes and erasures. -/
def Message.IsEdit : Message → Prop
  | .insert _ | .paste _ | .erase _ => True
  | _ => False

/-- The signals of `CRDT`. A place is `none` when the handler never set it. -/
inductive Signal where
  | insert (line index : Nat) (s : Symbol)
  | insertGroup (first : Option (Nat × Nat)) (text : QString) (newFormat : Option SymbolFormat)
  | erase (start : Option (Nat × Nat)) (lenght : Nat)
  | change (symbols : List Symbol)
  | changeAlignment (align : SymbolFormat.Alignment) (line index : Nat)
deriving DecidableEq

/-! ## Searches -/

/-- The last symbol of a line. -/
def lastSymbol (l : List Symbol) : Except Fault Symbol := QVector.get l (l.length - 1)

/-- `Symbol::compare(s, lastChar)` for the last symbol of line `i`. -/
def compareLast (symbols : Lines) (s : Symbol) (i : Nat) : Except Fault Int := do
  let currentLine ← QVector.get symbols i
  let lastChar ← lastSymbol currentLine
  pure (Symbol.compare s lastChar)

/-- `Symbol::compare(s, line[i])`. -/
def compareAt (l : List Symbol) (s : Symbol) (i : Nat) : Except Fault Int := do
  pure (Symbol.compare s (← QVector.get l i))

/-- `findIndexInLine`. Its last branch returns `false`, which is the index 0; past the end of
the line it returns the number of lines. -/
def findIndexInLine (symbols : Lines) (s : Symbol) (l : List Symbol) : Except Fault Nat := do
  if l.length = 0 then pure 0
  else if (← compareAt l s 0) < 0 then pure 0
  else if (← compareAt l s (l.length - 1)) > 0 then pure symbols.length
  else match ← bisect (compareAt l s) 0 (l.length - 1) with
    | .found mid => pure mid
    | .between left right =>
      if (← compareAt l s left) = 0 then pure left
      else if (← compareAt l s right) = 0 then pure right
      else pure 0

/-- `findPosition`: `none` where the source returns false, and leaves `line` and `index`
as they were. -/
def findPosition (symbols : Lines) (s : Symbol) : Except Fault (Option (Nat × Nat)) := do
  let maxLine := symbols.length - 1
  let lastLine ← QVector.get symbols maxLine
  let firstLine ← QVector.get symbols 0
  if symbols.length = 1 ∧ firstLine.length = 0 then pure none
  else if (← compareAt firstLine s 0) < 0 then pure none
  else if Symbol.compare s (← lastSymbol lastLine) > 0 then pure none
  else match ← bisect (compareLast symbols s) 0 maxLine with
    | .found midLine => pure (some (midLine, (← QVector.get symbols midLine).length - 1))
    | .between minLine maxLine =>
      let minCurrentLine ← QVector.get symbols minLine
      let maxCurrentLine ← QVector.get symbols maxLine
      let _ ← lastSymbol maxCurrentLine
      if Symbol.compare s (← lastSymbol minCurrentLine) ≤ 0 then
        pure (some (minLine, ← findIndexInLine symbols s minCurrentLine))
      else pure (some (maxLine, ← findIndexInLine symbols s maxCurrentLine))

def findInsertIndexInLine (symbols : Lines) (s : Symbol) (l : List Symbol) :
    Except Fault Nat := do
  if l.length = 0 then pure 0
  else if (← compareAt l s 0) < 0 then pure 0
  else if (← compareAt l s (l.length - 1)) > 0 then pure symbols.length
  else match ← bisect (compareAt l s) 0 (l.length - 1) with
    | .found mid => pure mid
    | .between left right =>
      if (← compareAt l s left) = 0 then pure left else pure right

def findEndPosition (lastChar : Symbol) (lastLine : List Symbol) (totalLines : Nat) : Nat × Nat :=
  if lastChar.value = QChar.newline then (totalLines, 0) else (totalLines - 1, lastLine.length)

def findInsertPosition (symbols : Lines) (s : Symbol) : Except Fault (Nat × Nat) := do
  let maxLine := symbols.length - 1
  let lastLine ← QVector.get symbols maxLine
  let firstLine ← QVector.get symbols 0
  if symbols.length = 1 ∧ firstLine.length = 0 then pure (0, 0)
  else if (← compareAt firstLine s 0) ≤ 0 then pure (0, 0)
  else
    let lastChar ← lastSymbol lastLine
    if Symbol.compare s lastChar > 0 then
      pure (findEndPosition lastChar lastLine symbols.length)
    else match ← bisect (compareLast symbols s) 0 maxLine with
      | .found midLine => pure (midLine, (← QVector.get symbols midLine).length - 1)
      | .between minLine maxLine =>
        let minCurrentLine ← QVector.get symbols minLine
        let maxCurrentLine ← QVector.get symbols maxLine
        let _ ← lastSymbol maxCurrentLine
        if Symbol.compare s (← lastSymbol minCurrentLine) ≤ 0 then
          pure (minLine, ← findInsertIndexInLine symbols s minCurrentLine)
        else pure (maxLine, ← findInsertIndexInLine symbols s maxCurrentLine)

/-! ## Insertion -/

def findPosBefore (symbols : Lines) (line index : Nat) : Except Fault Position := do
  if index = 0 ∧ line = 0 then pure []
  else if index = 0 ∧ line ≠ 0 then
    let l ← QVector.get symbols (line - 1)
    pure (← QVector.get l (l.length - 1)).position
  else
    let l ← QVector.get symbols line
    pure (← QVector.get l (index - 1)).position

def findPosAfter (symbols : Lines) (line index : Nat) : Except Fault Position := do
  let numLines := symbols.length
  let numChars := if line < symbols.length then (symbols[line]?.getD []).length else 0
  if line + 1 = numLines ∧ index = numChars then pure []
  else if line + 1 < numLines ∧ index = numChars then
    pure (← QVector.get (← QVector.get symbols (line + 1)) 0).position
  else if numLines ≤ line ∧ index = 0 then pure []
  else pure (← QVector.get (← QVector.get symbols line) index).position

/-- `insertChar`. A newline splits its line into two, before and after the newline. -/
def insertChar (symbols : Lines) (s : Symbol) (line index : Nat) : Except Fault Lines := do
  let l ← QVector.get symbols line
  if s.value = QChar.newline then
    let (lineBefore, lineAfter) ← QVector.cut l index
    let symbols ← QVector.put symbols line (lineBefore ++ [s])
    QVector.insert symbols (line + 1) lineAfter
  else
    QVector.put symbols line (← QVector.insert l index s)

/-- The values of `Qt::Alignment` the source compares with. -/
def Qt.AlignLeft : Nat := 0x1
def Qt.AlignRight : Nat := 0x2
def Qt.AlignHCenter : Nat := 0x4
def Qt.AlignAbsolute : Nat := 0x10
def Qt.AlignCenter : Nat := 0x84
def Qt.AlignLeading : Nat := Qt.AlignLeft
def Qt.AlignTrailing : Nat := Qt.AlignRight

/-- The alignment `localInsert` sets for an argument, if any. -/
def alignOfInsert (align : Nat) : Option SymbolFormat.Alignment :=
  if align = Qt.AlignLeft then some .alignLeft
  else if align = Qt.AlignHCenter ∨ align = Qt.AlignCenter then some .alignCenter
  else if align = Qt.AlignRight then some .alignRight
  else none

/-- The alignment `localInsertGroup` sets for an argument, if any. -/
def alignOfGroup (align : Nat) : Option SymbolFormat.Alignment :=
  if align = Qt.AlignLeft ||| Qt.AlignLeading then some .alignLeft
  else if align = Qt.AlignHCenter ∨ align = Qt.AlignCenter then some .alignCenter
  else if align = Qt.AlignTrailing ||| Qt.AlignAbsolute then some .alignRight
  else none

/-- A fresh terminator or newline takes the alignment. -/
def alignNew (s : Symbol) : Option SymbolFormat.Alignment → Symbol
  | some a => if s.value = QChar.null ∨ s.value = QChar.newline then s.setAlignment a else s
  | none => s

namespace CRDT

/-- `CRDT::clear`, and the constructor: one empty line. The terminator is not counted. -/
def clear (siteId : Int) : CRDT :=
  { siteId, symbols := [[]], counter := 0, strategyCache := [], size := -1 }

/-- The part `localInsert` and each round of `localInsertGroup` have in common: calculate the
position, generate the symbol, insert it. -/
def insertNew (c : CRDT) (line index : Nat) (value : QChar) (font : QFont) (color : QColor)
    (align : Option SymbolFormat.Alignment) (chance : Chance) : Except Fault (CRDT × Symbol) := do
  let posBefore ← findPosBefore c.symbols line index
  let posAfter ← findPosAfter c.symbols line index
  let (newPos, cache) ←
    generatePositionBetween c.siteId c.strategyCache chance.draw posBefore posAfter [] 0
  let s := alignNew (Symbol.ofFont value newPos (c.counter + 1) font color chance.align) align
  let symbols ← insertChar c.symbols s line index
  pure ({ c with symbols, counter := c.counter + 1, strategyCache := cache, size := c.size + 1 },
    s)

def localInsert (c : CRDT) (line index : Int) (value : QChar) (font : QFont) (color : QColor)
    (align : Nat) (chance : Chance) : Except Fault (CRDT × Message) := do
  if line < 0 ∨ index < 0 then throw .indexOutOfBound
  let (c, s) ←
    c.insertNew line.toNat index.toNat value font color (alignOfInsert align) chance
  pure (c, .insert s)

/-- The loop of `localInsertGroup`: the replica, the place reached and the symbols. -/
def insertGroupLoop (c : CRDT) (line index : Nat) (text : QString) (font : QFont)
    (color : QColor) (align : Nat) (chance : Nat → Chance) :
    Except Fault (CRDT × (Nat × Nat) × List Symbol) :=
  match text with
  | [] => pure (c, (line, index), [])
  | value :: text => do
    let (c, s) ← c.insertNew line index value font color (alignOfGroup align) (chance 0)
    let (line, index) := if s.value = QChar.newline then (line + 1, 0) else (line, index + 1)
    let (c, place, vector) ←
      c.insertGroupLoop line index text font color align fun n => chance (n + 1)
    pure (c, place, s :: vector)

/-- Results: the replica, the new `line` and `index`, and the message. -/
def localInsertGroup (c : CRDT) (line index : Int) (text : QString) (font : QFont)
    (color : QColor) (align : Nat) (chance : Nat → Chance) :
    Except Fault (CRDT × (Nat × Nat) × Message) := do
  if line < 0 ∨ index < 0 then throw .indexOutOfBound
  let (c, place, vector) ←
    c.insertGroupLoop line.toNat index.toNat text font color align chance
  pure (c, place, .paste vector)

/-! ## Local erasure and changes -/

/-- One round of the loop of `localErase`: the lines left and the symbol erased. -/
def eraseChar (symbols : Lines) (line index : Nat) : Except Fault (Lines × Symbol) := do
  let l ← QVector.get symbols line
  let s ← QVector.get l index
  let l ← QVector.erase l index
  let symbols ← QVector.put symbols line l
  -- Non-empty line after current line
  if s.value = QChar.newline ∧ line + 1 < symbols.length then
    let next ← QVector.get symbols (line + 1)
    let symbols ← QVector.put symbols line (l ++ next)
    pure (← QVector.erase symbols (line + 1), s)
  else pure (symbols, s)

def eraseLoop (c : CRDT) (line index : Nat) : Nat → Except Fault (CRDT × List Symbol)
  | 0 => pure (c, [])
  | n + 1 => do
    let (symbols, s) ← eraseChar c.symbols line index
    let (c, rest) ← eraseLoop { c with symbols, size := c.size - 1 } line index n
    pure (c, s :: rest)

def localErase (c : CRDT) (line index lenght : Nat) : Except Fault (CRDT × Message) := do
  let (c, symbols) ← c.eraseLoop line index lenght
  pure (c, .erase symbols)

/-- `Symbol s = _symbols[line][i]; s.setFormat(font, color); _symbols[line][i] = s;` -/
def changeChar (symbols : Lines) (line i : Nat) (font : QFont) (color : QColor) :
    Except Fault (Lines × Symbol) := do
  let l ← QVector.get symbols line
  let s := (← QVector.get l i).setFormat font color
  pure (← QVector.put symbols line (← QVector.put l i s), s)

def localChange (c : CRDT) (line index : Nat) (font : QFont) (color : QColor) :
    Except Fault (CRDT × Message) := do
  let (symbols, s) ← changeChar c.symbols line index font color
  pure ({ c with symbols }, .changeSymbol s)

/-- `n` rounds of `changeChar` along a line, from index `i` on. -/
def changeSpan (symbols : Lines) (line i : Nat) (font : QFont) (color : QColor) :
    Nat → Except Fault (Lines × List Symbol)
  | 0 => pure (symbols, [])
  | n + 1 => do
    let (symbols, s) ← changeChar symbols line i font color
    let (symbols, rest) ← changeSpan symbols line (i + 1) font color n
    pure (symbols, s :: rest)

/-- The lines `j`, ..., `j + n - 1`, whole. -/
def changeLines (symbols : Lines) (j : Nat) (font : QFont) (color : QColor) :
    Nat → Except Fault (Lines × List Symbol)
  | 0 => pure (symbols, [])
  | n + 1 => do
    let l ← QVector.get symbols j
    let (symbols, first) ← changeSpan symbols j 0 font color l.length
    let (symbols, rest) ← changeLines symbols (j + 1) font color n
    pure (symbols, first ++ rest)

/-- The loops of `localChangeGroup`. -/
def changeRange (symbols : Lines) (startLine endLine startIndex endIndex : Nat) (font : QFont)
    (color : QColor) : Except Fault (Lines × List Symbol) := do
  if startLine = endLine then
    changeSpan symbols startLine startIndex font color (endIndex + 1 - startIndex)
  else
    let l ← QVector.get symbols startLine
    let (symbols, first) ←
      changeSpan symbols startLine startIndex font color (l.length - startIndex)
    let (symbols, middle) ←
      changeLines symbols (startLine + 1) font color (endLine - 1 - startLine)
    let (symbols, last) ← changeSpan symbols endLine 0 font color (endIndex + 1)
    pure (symbols, first ++ middle ++ last)

def localChangeGroup (c : CRDT) (startLine endLine startIndex endIndex : Int) (font : QFont)
    (color : QColor) : Except Fault (CRDT × Message) := do
  if startLine < 0 ∨ startIndex < 0 ∨ endLine < 0 ∨ endIndex < 0 then throw .indexOutOfBound
  let (symbols, vector) ← changeRange c.symbols startLine.toNat endLine.toNat
    startIndex.toNat endIndex.toNat font color
  pure ({ c with symbols }, .change vector)

def localChangeAlignment (c : CRDT) (line : Nat) (align : SymbolFormat.Alignment) :
    Except Fault (CRDT × Message) := do
  let l ← QVector.get c.symbols line
  let s := (← lastSymbol l).setAlignment align
  let symbols ← QVector.put c.symbols line (← QVector.put l (l.length - 1) s)
  pure ({ c with symbols }, .align s)

/-! ## Remote messages -/

def handleRemoteAlignChange (c : CRDT) (s : Symbol) : Except Fault (CRDT × List Signal) := do
  match ← findPosition c.symbols s with
  | none => pure (c, [])
  | some (line, index) =>
    let align := s.format.align
    let l ← QVector.get c.symbols line
    let last := (← lastSymbol l).setAlignment align
    let symbols ← QVector.put c.symbols line (← QVector.put l (l.length - 1) last)
    pure ({ c with symbols }, [.changeAlignment align line index])

/-- `handleRemoteAlignChange` for each symbol in turn. -/
def alignChanges (c : CRDT) : List Symbol → Except Fault (CRDT × List Signal)
  | [] => pure (c, [])
  | s :: rest => do
    let (c, signals) ← c.handleRemoteAlignChange s
    let (c, signals') ← c.alignChanges rest
    pure (c, signals ++ signals')

/-- The place and the insertion `handleRemoteInsert` and each round of `handleRemotePaste`
have in common. -/
def insertRemote (c : CRDT) (s : Symbol) : Except Fault (CRDT × (Nat × Nat)) := do
  let (line, index) ←
    if c.symbols.length ≠ 0 then findInsertPosition c.symbols s else pure (0, 0)
  let symbols ← insertChar c.symbols s line index
  pure ({ c with symbols, size := c.size + 1 }, (line, index))

def handleRemoteInsert (c : CRDT) (s : Symbol) : Except Fault (CRDT × List Signal) := do
  let (c, line, index) ← c.insertRemote s
  if s.value = QChar.null then pure (c, []) else pure (c, [.insert line index s])

/-- The first loop of `handleRemotePaste`: the replica and the place of each insertion. -/
def pasteLoop (c : CRDT) : List Symbol → Except Fault (CRDT × List (Nat × Nat))
  | [] => pure (c, [])
  | s :: rest => do
    let (c, place) ← c.insertRemote s
    let (c, places) ← c.pasteLoop rest
    pure (c, place :: places)

def handleRemotePaste (c : CRDT) (symbols : List Symbol) : Except Fault (CRDT × List Signal) := do
  let (c, places) ← c.pasteLoop symbols
  let text := (symbols.map Symbol.value).filter (· ≠ QChar.null)
  let newFormat := symbols.head?.map Symbol.format
  let (c, signals) ← c.alignChanges
    (symbols.filter fun s => s.value = QChar.null ∨ s.value = QChar.newline)
  pure (c, .insertGroup places.head? text newFormat :: signals)

/-- The removal of `handleRemoteErase` at the place it found for `s`. (`line` and `index` are
never negative, so the guard around it always holds.) -/
def eraseRemote (symbols : Lines) (s : Symbol) (line index : Nat) : Except Fault Lines := do
  let l ← QVector.get symbols line
  if s.value = QChar.newline ∧ line + 1 < symbols.length then
    -- Non-empty line after current line
    let l ← QVector.erase l index
    let next ← QVector.get symbols (line + 1)
    let symbols ← QVector.put symbols line (l ++ next)
    QVector.erase symbols (line + 1)
  else if index = 0 ∧ l.length = 1 then
    QVector.erase symbols line
  else
    QVector.put symbols line (← QVector.erase l index)

/-- The loop of `handleRemoteErase`: the replica and the place found for each symbol, `none`
where the loop returns early. -/
def eraseRemoteLoop (c : CRDT) :
    List Symbol → Except Fault (CRDT × Option (List (Nat × Nat)))
  | [] => pure (c, some [])
  | s :: rest => do
    match ← findPosition c.symbols s with
    | none => pure (c, none)
    | some (line, index) =>
      let symbols ← eraseRemote c.symbols s line index
      let (c, places) ← eraseRemoteLoop { c with symbols, size := c.size - 1 } rest
      pure (c, places.map ((line, index) :: ·))

def handleRemoteErase (c : CRDT) (symbols : List Symbol) : Except Fault (CRDT × List Signal) := do
  match ← c.eraseRemoteLoop symbols with
  | (c, none) => pure (c, [])
  | (c, some places) => pure (c, [.erase places.head? symbols.length])

/-- The loop of `handleRemoteChange`, with false where it returns early. -/
def changeRemoteLoop (symbols : Lines) : List Symbol → Except Fault (Lines × Bool)
  | [] => pure (symbols, true)
  | s :: rest => do
    match ← findPosition symbols s with
    | none => pure (symbols, false)
    | some (line, index) =>
      let l ← QVector.get symbols line
      let symbols ← QVector.put symbols line (← QVector.put l index s)
      changeRemoteLoop symbols rest

def handleRemoteChange (c : CRDT) (symbols : List Symbol) :
    Except Fault (CRDT × List Signal) := do
  let (lines, finished) ← changeRemoteLoop c.symbols symbols
  pure ({ c with symbols := lines }, if finished then [.change symbols] else [])

/-- The handler of each message. -/
def handle (c : CRDT) : Message → Except Fault (CRDT × List Signal)
  | .insert s => c.handleRemoteInsert s
  | .paste symbols => c.handleRemotePaste symbols
  | .erase symbols => c.handleRemoteErase symbols
  | .changeSymbol s => c.handleRemoteChange [s]
  | .change symbols => c.handleRemoteChange symbols
  | .align s => c.handleRemoteAlignChange s

/-- What `Client` has `CRDT` do with a message it receives: `on_jsonReceived` has no case for a
CHANGE. -/
def onReceived (c : CRDT) : Message → Except Fault (CRDT × List Signal)
  | .changeSymbol _ => pure (c, [])
  | m => c.handle m

/-- The handlers of the messages, in order. -/
def handleAll (c : CRDT) : List Message → Except Fault (CRDT × List Signal)
  | [] => pure (c, [])
  | m :: ms => do
    let (c, signals) ← c.handle m
    let (c, signals') ← c.handleAll ms
    pure (c, signals ++ signals')

end CRDT

/-- A local operation with its arguments. -/
inductive LocalOp where
  | insert (line index : Int) (value : QChar) (font : QFont) (color : QColor) (align : Nat)
      (chance : Chance)
  | insertGroup (line index : Int) (text : QString) (font : QFont) (color : QColor) (align : Nat)
      (chance : Nat → Chance)
  | erase (line index lenght : Nat)
  | change (line index : Nat) (font : QFont) (color : QColor)
  | changeGroup (startLine endLine startIndex endIndex : Int) (font : QFont) (color : QColor)
  | changeAlignment (line : Nat) (align : SymbolFormat.Alignment)

/-- Insertions, pastes and erasures. -/
def LocalOp.IsEdit : LocalOp → Prop
  | .insert .. | .insertGroup .. | .erase .. => True
  | _ => False

def LocalOp.perform (c : CRDT) : LocalOp → Except Fault (CRDT × Message)
  | .insert line index value font color align chance =>
    c.localInsert line index value font color align chance
  | .insertGroup line index text font color align chance => do
    let (c, _, m) ← c.localInsertGroup line index text font color align chance
    pure (c, m)
  | .erase line index lenght => c.localErase line index lenght
  | .change line index font color => c.localChange line index font color
  | .changeGroup startLine endLine startIndex endIndex font color =>
    c.localChangeGroup startLine endLine startIndex endIndex font color
  | .changeAlignment line align => c.localChangeAlignment line align

end Scriba.Client
