import Mathlib.Algebra.Group.Int.Defs
import Scriba.Utility.Symbol

/-! # JSON values

What the program reads of a `QJsonObject`, the strings of its requests, and `fromJson` of
`Utility/symbol.h`. A member that is absent is `undefined`; a value of another type than the
one asked for reads as the default of that type. -/

namespace Scriba.Utility

/-! ## Strings -/

namespace QString

/-- A string literal. -/
def of (s : String) : QString := s.toList.map QChar.of

end QString

/-- `QChar::isSpace`. -/
def QChar.isSpace (c : QChar) : Bool :=
  let n := c.toNat
  n = 0x20 || (0x09 ≤ n && n ≤ 0x0d) || n = 0x85 || n = 0xa0 || n = 0x1680 ||
    (0x2000 ≤ n && n ≤ 0x200a) || n = 0x2028 || n = 0x2029 || n = 0x202f || n = 0x205f ||
    n = 0x3000

/-- The case folding of a code unit, as far as it ends in ASCII: apart from the capital letters,
only the long s and the Kelvin sign do. -/
def QChar.foldCase (c : QChar) : QChar :=
  if 0x41 ≤ c.toNat ∧ c.toNat ≤ 0x5a then c + 0x20
  else if c = 0x17f then QChar.of 's'
  else if c = 0x212a then QChar.of 'k'
  else c

namespace QString

/-- `simplified()`: no white space at the ends, one space between two words. -/
def simplified (s : QString) : QString :=
  [QChar.of ' '].intercalate ((s.splitOnP QChar.isSpace).filter (· ≠ []))

/-- `compare(name, Qt::CaseInsensitive) == 0`, for a name in lower case. -/
def equalsIgnoringCase (s : QString) (name : String) : Bool :=
  s.map QChar.foldCase = QString.of name

/-- `left(lastIndexOf(c))` and what comes after the last `c`. Without a `c` both are the whole
string: `left(-1)` is. -/
def splitAtLast (s : QString) (c : QChar) : QString × QString :=
  if c ∈ s then
    let tail := (s.reverse.takeWhile (· ≠ c)).reverse
    (s.take (s.length - tail.length - 1), tail)
  else (s, s)

end QString

/-! ## Values -/

/-- A number is a rational: no `double` that JSON can write is infinite or no number. -/
inductive QJsonValue where
  | undefined
  | null
  | bool (b : Bool)
  | double (d : Rat)
  | string (s : QString)
  | array (values : List QJsonValue)
  | object (members : List (QString × QJsonValue))

abbrev QJsonObject := List (QString × QJsonValue)

namespace QJsonValue

def isNull : QJsonValue → Bool
  | .null => true
  | _ => false

def isString : QJsonValue → Bool
  | .string _ => true
  | _ => false

def toString : QJsonValue → QString
  | .string s => s
  | _ => []

def toBool : QJsonValue → Bool
  | .bool b => b
  | _ => false

/-- 0 unless the value is a number that is an `int`. -/
def toInt : QJsonValue → Int
  | .double d => if d.den = 1 ∧ -2 ^ 31 ≤ d.num ∧ d.num < 2 ^ 31 then d.num else 0
  | _ => 0

def toArray : QJsonValue → List QJsonValue
  | .array values => values
  | _ => []

def toObject : QJsonValue → QJsonObject
  | .object members => members
  | _ => []

theorem toInt_bounds (v : QJsonValue) : -2 ^ 31 ≤ v.toInt ∧ v.toInt < 2 ^ 31 := by
  cases v with
  | double d =>
    simp only [toInt]
    split_ifs with h <;> omega
  | _ => exact (by decide : -2 ^ 31 ≤ (0 : Int) ∧ (0 : Int) < 2 ^ 31)

end QJsonValue

/-- `object.value(key)`, or `object[key]`. -/
def QJsonObject.value (object : QJsonObject) (key : String) : QJsonValue :=
  (object.lookup (QString.of key)).getD .undefined

/-! ## Symbols -/

/-- `static_cast<Alignment>`. A number that is no enumerator counts as the first one. -/
def SymbolFormat.Alignment.ofInt (n : Int) : SymbolFormat.Alignment :=
  if n = 1 then .alignRight else if n = 2 then .alignCenter else .alignLeft

def SymbolFormat.fromJson (json : QJsonObject) : SymbolFormat where
  italic := (json.value "italic").toBool
  bold := (json.value "bold").toBool
  underline := (json.value "underline").toBool
  font := (json.value "font").toString
  size := (json.value "size").toInt
  color := (json.value "color").toString
  align := .ofInt (json.value "alignment").toInt

def Identifier.fromJson (json : QJsonObject) : Identifier :=
  ⟨(json.value "digit").toInt, (json.value "site").toInt⟩

/-- In a message the value can be an empty string, and `at(0)` then reads the NUL that ends it. The
editor reads its own text by `at(0)` too, which is a fault where there is none
(`handleLocalInsertion`). -/
def Symbol.fromJson (json : QJsonObject) : Symbol where
  value := (json.value "value").toString.headD QChar.null
  counter := (json.value "counter").toInt
  position := (json.value "position").toArray.map fun v => .fromJson v.toObject
  format := .fromJson (json.value "format").toObject

/-- The numbers of the symbol are `int`s. -/
structure Symbol.InRange (s : Symbol) : Prop where
  digit : ∀ i ∈ s.position, -2 ^ 31 ≤ i.digit ∧ i.digit < 2 ^ 31
  site : ∀ i ∈ s.position, -2 ^ 31 ≤ i.site ∧ i.site < 2 ^ 31
  counter : -2 ^ 31 ≤ s.counter ∧ s.counter < 2 ^ 31
  size : -2 ^ 31 ≤ s.format.size ∧ s.format.size < 2 ^ 31

theorem Symbol.fromJson_inRange (json : QJsonObject) : (Symbol.fromJson json).InRange := by
  refine ⟨fun i hi => ?_, fun i hi => ?_, QJsonValue.toInt_bounds _, QJsonValue.toInt_bounds _⟩
  all_goals
    obtain ⟨v, -, rfl⟩ := List.mem_map.mp hi
    exact QJsonValue.toInt_bounds _

end Scriba.Utility
