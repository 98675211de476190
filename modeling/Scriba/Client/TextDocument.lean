import Scriba.Client.TextView

/-! # The document of the text edit

The characters of the `QTextDocument` with their formats, and what a `QTextCursor` at a position
says, as Qt documents it. Only a paragraph separator ends a block. `toPlainText` shows it as a
newline, and some other characters too. -/

namespace Scriba.Client

open Scriba.Utility Scriba.Lib.Lines

/-- A font and a colour. `rest` is for what `==` compares of them and no symbol records. -/
structure QTextCharFormat where
  font : QFont
  color : QColor
  rest : Nat
deriving DecidableEq, Inhabited, Repr

structure TextChar where
  unit : QChar
  format : QTextCharFormat
deriving DecidableEq, Inhabited, Repr

def QChar.paragraphSeparator : QChar := 0x2029
def QChar.lineSeparator : QChar := 0x2028
def QChar.nbsp : QChar := 0x00a0
def QChar.beginningOfFrame : QChar := 0xfdd0
def QChar.endOfFrame : QChar := 0xfdd1

/-- What `toPlainText` makes of a character. -/
def plainUnit (unit : QChar) : QChar :=
  if unit = QChar.beginningOfFrame ∨ unit = QChar.endOfFrame ∨ unit = QChar.paragraphSeparator ∨
      unit = QChar.lineSeparator then QChar.newline
  else if unit = QChar.nbsp then QChar.of ' '
  else unit

namespace TextChar

/-- The value that the character has in the plain text. -/
def value (ch : TextChar) : QChar := plainUnit ch.unit

def endsBlock (ch : TextChar) : Bool := ch.unit == QChar.paragraphSeparator

@[simp] theorem endsBlock_iff {ch : TextChar} :
    ch.endsBlock = true ↔ ch.unit = QChar.paragraphSeparator := by
  simp [endsBlock]

theorem value_of_endsBlock {ch : TextChar} (h : ch.unit = QChar.paragraphSeparator) :
    ch.value = QChar.newline := by
  simp [value, plainUnit, h]

end TextChar

/-- `alignment` is that of each block; `format` is the one of a block that was always empty. -/
structure QTextDocument where
  chars : List TextChar
  alignment : Nat → Nat
  format : QTextCharFormat

namespace QTextDocument

variable (d : QTextDocument)

def toPlainText : QString := d.chars.map TextChar.value

@[simp] theorem length_toPlainText : d.toPlainText.length = d.chars.length := List.length_map _

/-- `selectedText()` of a cursor from `start` to `stop`. -/
def selectedText (start stop : Nat) : QString :=
  ((d.chars.take stop).drop start).map TextChar.unit

/-- `blockNumber()` at a position. -/
def blockNumber (position : Nat) : Nat := lineOf TextChar.endsBlock (d.chars.take position)

def positionInBlock (position : Nat) : Nat := indexOf TextChar.endsBlock (d.chars.take position)

/-- `findBlockByNumber(n).blockFormat().alignment()`; without such a block it is the default. -/
def blockAlignment (n : Nat) : Nat :=
  if n ≤ lineOf TextChar.endsBlock d.chars then d.alignment n else Qt.AlignLeft

/-- `movePosition(QTextCursor::Right)`. -/
def right (position : Nat) : Nat := if position < d.chars.length then position + 1 else position

/-- The format of the character before a position. -/
def formatBefore : Nat → QTextCharFormat
  | 0 => d.format
  | position + 1 => (d.chars[position]?.map TextChar.format).getD d.format

/-- `charFormat()`: the format of the character before the cursor, or of the one after it if the
cursor is at the beginning of a block that is not empty. -/
def charFormat (position : Nat) : QTextCharFormat :=
  match d.chars[position]? with
  | some next =>
    if d.positionInBlock position = 0 ∧ next.unit ≠ QChar.paragraphSeparator then next.format
    else d.formatBefore position
  | none => d.formatBefore position

end QTextDocument

/-- The text edit of a new file, with some characters in it. -/
def typedText (chars : List TextChar) : QTextDocument :=
  { chars, alignment := fun _ => Qt.AlignLeft, format := default }

/-- `QString::mid`. -/
def QString.mid (s : QString) (position : Nat) (n : Int) : QString :=
  if n < 0 then s.drop position else (s.drop position).take n.toNat

/-! ## The formats a cursor reads -/

namespace QTextDocument

variable {d : QTextDocument} {i : Nat} {ch : TextChar}

theorem positionInBlock_succ (h : d.chars[i]? = some ch) :
    d.positionInBlock (i + 1) = 0 ↔ ch.unit = QChar.paragraphSeparator := by
  obtain ⟨hi, rfl⟩ := List.getElem?_eq_some_iff.mp h
  rw [positionInBlock, List.take_succ_eq_append_getElem hi, indexOf_concat]
  by_cases hb : d.chars[i].endsBlock
  · rw [if_pos hb]
    exact iff_of_true rfl (TextChar.endsBlock_iff.mp hb)
  · rw [if_neg hb]
    exact iff_of_false (Nat.succ_ne_zero _) fun he => hb (TextChar.endsBlock_iff.mpr he)

theorem formatBefore_succ (h : d.chars[i]? = some ch) : d.formatBefore (i + 1) = ch.format := by
  simp [formatBefore, h]

/-- On the right of a character that ends no block its own format is read. -/
theorem charFormat_succ (h : d.chars[i]? = some ch) (hb : ch.unit ≠ QChar.paragraphSeparator) :
    d.charFormat (i + 1) = ch.format := by
  have hne : d.positionInBlock (i + 1) ≠ 0 := mt (positionInBlock_succ h).mp hb
  rw [charFormat]
  cases d.chars[i + 1]? with
  | none => exact formatBefore_succ h
  | some next => exact (if_neg fun hand => hne hand.1).trans (formatBefore_succ h)

end QTextDocument

/-! ## Agreement -/

/-- The text is that of the symbols before the terminator, and its blocks are the lines. -/
structure Agrees (d : QTextDocument) (ls : Lines) : Prop where
  text : d.toPlainText = shown ls.flatten
  blocks : ∀ ch ∈ d.chars, ch.value = QChar.newline → ch.unit = QChar.paragraphSeparator

/-- Block and index after some characters are line and index after symbols with their values. -/
theorem place_of_values {w : List TextChar} {u : List Symbol}
    (hvalues : w.map TextChar.value = u.map Symbol.value)
    (hblocks : ∀ ch ∈ w, ch.value = QChar.newline → ch.unit = QChar.paragraphSeparator) :
    (lineOf TextChar.endsBlock w, indexOf TextChar.endsBlock w) = place u := by
  have hends : ∀ ch ∈ w, TextChar.endsBlock ch = ((· == QChar.newline) ∘ TextChar.value) ch := by
    intro ch hch
    rw [Bool.eq_iff_iff, TextChar.endsBlock_iff]
    simp only [Function.comp_apply, beq_iff_eq]
    exact ⟨TextChar.value_of_endsBlock, hblocks ch hch⟩
  obtain ⟨hl, hi⟩ := place_congr hends
  obtain ⟨hl', hi'⟩ := place_map (p := (· == QChar.newline)) TextChar.value w
  obtain ⟨hl'', hi''⟩ := place_map (p := (· == QChar.newline)) Symbol.value u
  rw [hl, hi, ← hl', ← hi', hvalues, hl'', hi'']
  rfl

namespace Agrees

variable {d : QTextDocument} {ls : Lines} {i : Nat}

theorem length (ha : Agrees d ls) (h : WellFormed ls) :
    ls.flatten.length = d.chars.length + 1 := by
  obtain ⟨xs, t, hf, -⟩ := h.terminated
  have hl := congrArg List.length ha.text
  rw [QTextDocument.length_toPlainText, hf, shown, List.dropLast_concat, List.length_map] at hl
  rw [hf, List.length_append, List.length_singleton, hl]

theorem take (ha : Agrees d ls) (hi : i ≤ d.chars.length) :
    (d.chars.take i).map TextChar.value = (ls.flatten.take i).map Symbol.value := by
  have ht := congrArg (List.take i) ha.text
  have hl := congrArg List.length ha.text
  rw [QTextDocument.length_toPlainText, shown, List.length_map, List.length_dropLast] at hl
  rw [QTextDocument.toPlainText, shown, ← List.map_take, ← List.map_take,
    List.dropLast_eq_take, List.take_take, Nat.min_eq_left (by omega)] at ht
  exact ht

/-- **A position of the text is the place of a symbol.** -/
theorem place (ha : Agrees d ls) (hi : i ≤ d.chars.length) :
    (d.blockNumber i, d.positionInBlock i) = Client.place (ls.flatten.take i) :=
  place_of_values (ha.take hi) fun ch hch => ha.blocks ch (List.mem_of_mem_take hch)

end Agrees

end Scriba.Client
