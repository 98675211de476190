import Mathlib.Data.List.Lex
import Mathlib.Data.Prod.Lex
import Mathlib.Order.Basic

/-! # Identifiers, formats and symbols

The data of `Utility/symbol.h`. A `QString` is its list of UTF-16 code units, a
`QVector` is a list, the C++ `int` is `Int`. `Symbol::compare` is the loop of the
source; `compare_lt`, `compare_eq` and `compare_gt` say it decides the
lexicographic order of positions, which Mathlib already has as a linear order, and
`compare_swap`, `compare_trans` and `compare_prefix` are the laws of that order. -/

namespace Scriba.Utility

abbrev QChar := UInt16
abbrev QString := List QChar

/-- The code unit of a character of the basic plane. -/
def QChar.of (c : Char) : QChar := UInt16.ofNat c.toNat

def QChar.newline : QChar := QChar.of '\n'
def QChar.null : QChar := 0

/-- `QString::number`: the decimal digits, after a minus sign when negative. -/
def QString.number (n : Int) : QString :=
  let digits := (Nat.toDigits 10 n.natAbs).map QChar.of
  if n < 0 then QChar.of '-' :: digits else digits

structure Identifier where
  digit : Int
  site : Int
deriving DecidableEq, Repr

namespace Identifier

def compare (i1 i2 : Identifier) : Int :=
  if i1.digit < i2.digit then -1
  else if i1.digit > i2.digit then 1
  else if i1.site < i2.site then -1
  else if i1.site > i2.site then 1
  else 0

def toString (i : Identifier) : QString :=
  QString.number i.digit ++ [QChar.of '_'] ++ QString.number i.site

/-- Digits first, sites second. -/
def key (i : Identifier) : Int ×ₗ Int := toLex (i.digit, i.site)

theorem key_injective : Function.Injective key := by
  intro a b h
  cases a; cases b
  simpa [key] using h

instance : LinearOrder Identifier := LinearOrder.lift' key key_injective

theorem lt_iff {a b : Identifier} :
    a < b ↔ a.digit < b.digit ∨ (a.digit = b.digit ∧ a.site < b.site) :=
  Prod.Lex.lt_iff

theorem compare_lt {a b : Identifier} : compare a b < 0 ↔ a < b := by
  rw [lt_iff]
  unfold compare
  split_ifs <;> omega

theorem compare_eq {a b : Identifier} : compare a b = 0 ↔ a = b := by
  have hext : a = b ↔ a.digit = b.digit ∧ a.site = b.site := by
    cases a; cases b; simp
  rw [hext]
  unfold compare
  split_ifs <;> simp <;> omega

theorem compare_gt {a b : Identifier} : 0 < compare a b ↔ b < a := by
  rw [lt_iff]
  unfold compare
  split_ifs <;> omega

theorem compare_swap (a b : Identifier) : compare a b = -compare b a := by
  unfold compare
  split_ifs <;> omega

end Identifier

/-- `SymbolFormat::Alignment`. -/
inductive SymbolFormat.Alignment where
  | alignLeft | alignRight | alignCenter
deriving DecidableEq, Inhabited, Repr

structure SymbolFormat where
  align : SymbolFormat.Alignment
  italic : Bool
  bold : Bool
  underline : Bool
  font : QString
  size : Int
  color : QString
deriving DecidableEq, Inhabited, Repr

/-- What `Symbol` reads of a `QFont`. -/
structure QFont where
  italic : Bool
  bold : Bool
  underline : Bool
  pointSize : Int
  family : QString
deriving DecidableEq, Inhabited, Repr

/-- What `Symbol` reads of a `QColor`. -/
structure QColor where
  name : QString
deriving DecidableEq, Inhabited, Repr

abbrev Position := List Identifier

structure Symbol where
  value : QChar
  position : Position
  counter : Int
  format : SymbolFormat
deriving DecidableEq, Repr

namespace Symbol

/-- The constructor that takes a font and a colour. It does not write
`format.align`: `align` is what the fresh object holds there. -/
def ofFont (value : QChar) (position : Position) (counter : Int) (font : QFont) (color : QColor)
    (align : SymbolFormat.Alignment) : Symbol :=
  { value, position, counter
    format := { align, italic := font.italic, bold := font.bold, underline := font.underline
                size := font.pointSize, font := font.family, color := color.name } }

def setFormat (s : Symbol) (font : QFont) (color : QColor) : Symbol :=
  { s with format := { s.format with
      italic := font.italic, bold := font.bold, underline := font.underline
      size := font.pointSize, font := font.family, color := color.name } }

def setAlignment (s : Symbol) (a : SymbolFormat.Alignment) : Symbol :=
  { s with format := { s.format with align := a } }

/-- The loop of `Symbol::compare` over two positions. Once one of them is used up,
the sizes decide. -/
def comparePositions : Position → Position → Int
  | [], [] => 0
  | [], _ :: _ => -1
  | _ :: _, [] => 1
  | i :: p1, j :: p2 =>
    if Identifier.compare i j ≠ 0 then Identifier.compare i j else comparePositions p1 p2

def compare (s1 s2 : Symbol) : Int := comparePositions s1.position s2.position

/-- The loop of `positionString` after its first round. -/
def positionTail : Position → QString
  | [] => [QChar.of ']']
  | i :: p => [QChar.of ',', QChar.of ' '] ++ i.toString ++ positionTail p

/-- `positionString`, a function of the position alone: the key of the server's map. -/
def keyOf : Position → QString
  | [] => [QChar.of '[', QChar.of ']']
  | i :: p => [QChar.of '['] ++ i.toString ++ positionTail p

def positionString (s : Symbol) : QString := keyOf s.position

@[simp] theorem setFormat_value (s : Symbol) (f : QFont) (c : QColor) :
    (s.setFormat f c).value = s.value := rfl
@[simp] theorem setFormat_position (s : Symbol) (f : QFont) (c : QColor) :
    (s.setFormat f c).position = s.position := rfl
@[simp] theorem setAlignment_value (s : Symbol) (a : SymbolFormat.Alignment) :
    (s.setAlignment a).value = s.value := rfl
@[simp] theorem setAlignment_position (s : Symbol) (a : SymbolFormat.Alignment) :
    (s.setAlignment a).position = s.position := rfl
@[simp] theorem setAlignment_align (s : Symbol) (a : SymbolFormat.Alignment) :
    (s.setAlignment a).format.align = a := rfl
@[simp] theorem ofFont_value (v : QChar) (p : Position) (n : Int) (f : QFont) (c : QColor)
    (a : SymbolFormat.Alignment) : (ofFont v p n f c a).value = v := rfl
@[simp] theorem ofFont_position (v : QChar) (p : Position) (n : Int) (f : QFont) (c : QColor)
    (a : SymbolFormat.Alignment) : (ofFont v p n f c a).position = p := rfl

theorem setAlignment_self (s : Symbol) : s.setAlignment s.format.align = s := rfl

/-! ## The comparison decides the lexicographic order -/

private theorem comparePositions_cons {i j : Identifier} {p q : Position} :
    comparePositions (i :: p) (j :: q) =
      if i = j then comparePositions p q else Identifier.compare i j := by
  by_cases h : i = j
  · simp [comparePositions, h, Identifier.compare_eq.mpr rfl]
  · simp [comparePositions, h, mt Identifier.compare_eq.mp h]

theorem comparePositions_lt : ∀ {p q : Position}, comparePositions p q < 0 ↔ p < q
  | [], [] => by simp [comparePositions]
  | [], _ :: _ => by simp [comparePositions]
  | _ :: _, [] => by simp [comparePositions]
  | i :: p, j :: q => by
    rw [comparePositions_cons, List.cons_lt_cons_iff]
    by_cases h : i = j
    · simp [h, comparePositions_lt (p := p) (q := q)]
    · simp [h, Identifier.compare_lt]

theorem comparePositions_eq : ∀ {p q : Position}, comparePositions p q = 0 ↔ p = q
  | [], [] => by simp [comparePositions]
  | [], _ :: _ => by simp [comparePositions]
  | _ :: _, [] => by simp [comparePositions]
  | i :: p, j :: q => by
    rw [comparePositions_cons]
    by_cases h : i = j
    · simp [h, comparePositions_eq (p := p) (q := q)]
    · simp [h, mt Identifier.compare_eq.mp h]

theorem comparePositions_gt : ∀ {p q : Position}, 0 < comparePositions p q ↔ q < p
  | [], [] => by simp [comparePositions]
  | [], _ :: _ => by simp [comparePositions]
  | _ :: _, [] => by simp [comparePositions]
  | i :: p, j :: q => by
    rw [comparePositions_cons, List.cons_lt_cons_iff]
    by_cases h : i = j
    · simp [h, comparePositions_gt (p := p) (q := q)]
    · simp [h, Ne.symm h, Identifier.compare_gt]

/-- **The loop**, pair by pair up to the smaller size: it ends at the first comparison that is not
zero; without one the sizes are compared. -/
theorem comparePositions_loop : ∀ p q : Position, comparePositions p q =
    ((List.zipWith Identifier.compare p q).find? (· ≠ 0)).getD
      (if p.length < q.length then -1 else if p.length > q.length then 1 else 0)
  | [], [] => rfl
  | [], _ :: _ => rfl
  | _ :: _, [] => rfl
  | i :: p, j :: q => by
    rw [comparePositions, List.zipWith_cons_cons, List.length_cons, List.length_cons]
    by_cases h : Identifier.compare i j = 0
    · rw [if_neg (not_not_intro h), List.find?_cons_of_neg (by simpa using h),
        comparePositions_loop p q]
      simp only [Nat.add_lt_add_iff_right, gt_iff_lt]
    · rw [if_pos h, List.find?_cons_of_pos (by simpa using h), Option.getD_some]

theorem comparePositions_swap : ∀ p q : Position, comparePositions p q = -comparePositions q p
  | [], [] => rfl
  | [], _ :: _ => rfl
  | _ :: _, [] => rfl
  | i :: p, j :: q => by
    rw [comparePositions_cons, comparePositions_cons]
    by_cases h : i = j
    · rw [if_pos h, if_pos h.symm]
      exact comparePositions_swap p q
    · rw [if_neg h, if_neg (Ne.symm h)]
      exact Identifier.compare_swap i j

/-- A position that is used up comes first. -/
theorem comparePositions_append (p : Position) {r : Position} (hr : r ≠ []) :
    comparePositions p (p ++ r) = -1 := by
  induction p with
  | nil =>
    obtain ⟨i, r, rfl⟩ := List.exists_cons_of_ne_nil hr
    rfl
  | cons i p ih =>
    rw [List.cons_append, comparePositions_cons, if_pos rfl]
    exact ih

theorem compare_lt {s t : Symbol} : compare s t < 0 ↔ s.position < t.position :=
  comparePositions_lt

theorem compare_eq {s t : Symbol} : compare s t = 0 ↔ s.position = t.position :=
  comparePositions_eq

theorem compare_gt {s t : Symbol} : 0 < compare s t ↔ t.position < s.position :=
  comparePositions_gt

theorem compare_le {s t : Symbol} : compare s t ≤ 0 ↔ s.position ≤ t.position := by
  rw [← not_lt, compare_gt, not_lt]

theorem compare_swap (s t : Symbol) : compare s t = -compare t s :=
  comparePositions_swap s.position t.position

theorem compare_trans {s t u : Symbol} (hst : compare s t < 0) (htu : compare t u < 0) :
    compare s u < 0 :=
  compare_lt.mpr ((compare_lt.mp hst).trans (compare_lt.mp htu))

theorem compare_prefix {s t : Symbol} (h : s.position <+: t.position)
    (hne : s.position ≠ t.position) : compare s t < 0 := by
  obtain ⟨r, hr⟩ := h
  have hrest : r ≠ [] := by
    intro hnil
    exact hne (by rw [← hr, hnil, List.append_nil])
  rw [compare, ← hr, comparePositions_append s.position hrest]
  omega

/-- **The order of symbols** is strict and total on their positions, of any lengths, and a proper
prefix comes before every extension of it. -/
theorem compare_total_order (a b c : Symbol) :
    (compare a b = 0 ↔ a.position = b.position) ∧
    compare a b = -compare b a ∧
    (compare a b < 0 → compare b c < 0 → compare a c < 0) ∧
    (a.position <+: b.position → a.position ≠ b.position → compare a b < 0) :=
  ⟨compare_eq, compare_swap a b, compare_trans, compare_prefix⟩

/-- A position, an extension of it with a negative digit, and one above both. -/
theorem compare_total_order_lengths :
    compare ⟨QChar.of 'a', [⟨3, 1⟩], 1, default⟩ ⟨QChar.of 'b', [⟨3, 1⟩, ⟨-5, 2⟩], 2, default⟩ < 0 ∧
    compare ⟨QChar.of 'a', [⟨3, 1⟩], 1, default⟩ ⟨QChar.of 'c', [⟨4, 0⟩], 3, default⟩ < 0 := by
  obtain ⟨-, -, htrans, hprefix⟩ := compare_total_order ⟨QChar.of 'a', [⟨3, 1⟩], 1, default⟩
    ⟨QChar.of 'b', [⟨3, 1⟩, ⟨-5, 2⟩], 2, default⟩ ⟨QChar.of 'c', [⟨4, 0⟩], 3, default⟩
  have hab := hprefix ⟨[⟨-5, 2⟩], rfl⟩ (by decide)
  exact ⟨hab, htrans hab (by decide)⟩

end Symbol

end Scriba.Utility
