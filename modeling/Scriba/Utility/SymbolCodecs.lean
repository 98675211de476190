import Mathlib.Data.Rat.Cast.Defs
import Scriba.Utility.SymbolStream

/-! # The two codecs of a symbol

Single edits travel as JSON, groups of symbols and stored files as the bytes of a stream. Both give
back the symbols that went in. The bounds are those of the C++ types: an `int` has 32 bits, and a
`QString` or a container has at most 2^31 - 1 elements. A `QVector` and a `QList` are written
alike. -/

namespace Scriba.Utility

open Scriba.Lib Scriba.Lib.Decoder QDataStream

/-! ## JSON -/

def Identifier.toJson (id : Identifier) : QJsonObject :=
  [(QString.of "digit", .double id.digit), (QString.of "site", .double id.site)]

def SymbolFormat.toJson (format : SymbolFormat) : QJsonObject :=
  [(QString.of "italic", .bool format.italic), (QString.of "bold", .bool format.bold),
    (QString.of "underline", .bool format.underline), (QString.of "font", .string format.font),
    (QString.of "size", .double format.size), (QString.of "color", .string format.color),
    (QString.of "alignment", .double format.align.toNat)]

def Symbol.toJson (s : Symbol) : QJsonObject :=
  [(QString.of "value", .string [s.value]),
    (QString.of "position", .array (s.position.map fun i => .object i.toJson)),
    (QString.of "counter", .double s.counter),
    (QString.of "format", .object s.format.toJson)]

theorem QJsonValue.toInt_double {n : Int} (h : -2 ^ 31 ≤ n ∧ n < 2 ^ 31) :
    (QJsonValue.double n).toInt = n := by
  rw [toInt, Rat.num_intCast, Rat.den_intCast, if_pos ⟨rfl, h⟩]

theorem SymbolFormat.Alignment.ofInt_toNat (align : SymbolFormat.Alignment) :
    ofInt align.toNat = align := by
  cases align <;> rfl

theorem Identifier.fromJson_toJson {id : Identifier} (hd : -2 ^ 31 ≤ id.digit ∧ id.digit < 2 ^ 31)
    (hs : -2 ^ 31 ≤ id.site ∧ id.site < 2 ^ 31) : fromJson id.toJson = id := by
  have hdigit : id.toJson.value "digit" = .double id.digit := rfl
  have hsite : id.toJson.value "site" = .double id.site := rfl
  rw [fromJson, hdigit, hsite, QJsonValue.toInt_double hd, QJsonValue.toInt_double hs]

theorem SymbolFormat.fromJson_toJson {format : SymbolFormat}
    (h : -2 ^ 31 ≤ format.size ∧ format.size < 2 ^ 31) : fromJson format.toJson = format := by
  have hsize : format.toJson.value "size" = .double format.size := rfl
  have halign : format.toJson.value "alignment" = .double (format.align.toNat : Int) := rfl
  have hbound : -2 ^ 31 ≤ (format.align.toNat : Int) ∧ (format.align.toNat : Int) < 2 ^ 31 := by
    cases format.align <;> decide
  rw [fromJson, hsize, halign, QJsonValue.toInt_double h, QJsonValue.toInt_double hbound,
    Alignment.ofInt_toNat]
  rfl

theorem Symbol.fromJson_toJson {s : Symbol} (h : s.InRange) : fromJson s.toJson = s := by
  have hcounter : s.toJson.value "counter" = .double s.counter := rfl
  have hformat : s.toJson.value "format" = .object s.format.toJson := rfl
  have hposition : s.toJson.value "position" =
      .array (s.position.map fun i => .object i.toJson) := rfl
  have hids : s.position.map (fun i => Identifier.fromJson i.toJson) = s.position := by
    have hid : ∀ i ∈ s.position, Identifier.fromJson i.toJson = id i :=
      fun i hi => Identifier.fromJson_toJson (h.digit i hi) (h.site i hi)
    rw [List.map_congr_left hid, List.map_id]
  rw [fromJson, hcounter, hformat, hposition, QJsonValue.toInt_double h.counter]
  simp only [QJsonValue.toArray, QJsonValue.toObject, List.map_map, Function.comp_def, hids,
    SymbolFormat.fromJson_toJson h.size]
  rfl

/-! ## Both -/

/-- **Both codecs are faithful.** The bytes are followed by others, which are left. -/
theorem codecs_faithful :
    (∀ s : Symbol, s.InRange → Symbol.fromJson s.toJson = s) ∧
      ∀ symbols : List Symbol, symbols.length < 2 ^ 32 → (∀ s ∈ symbols, s.Storable) →
        ∀ rest, (readVector Symbol.read).run (writeSymbols symbols ++ rest) =
          some (symbols, rest) := by
  refine ⟨fun s => Symbol.fromJson_toJson, fun symbols hlen h rest => ?_⟩
  have hdecodes : Decodes (readVector Symbol.read) symbols (writeSymbols symbols) :=
    decodes_readVector hlen fun s hs => (h s hs).decodes_read
  exact hdecodes rest

/-- A symbol between two others, in a format of its own. -/
def betweenExample : Symbol where
  value := QChar.of 'è'
  position := [⟨3, -1⟩, ⟨31, 2147483647⟩]
  counter := -2147483648
  format := { align := .alignCenter, italic := true, bold := false, underline := true
              font := QString.of "Arial", size := 12, color := QString.of "#000000" }

theorem codecs_faithful_between :
    Symbol.fromJson betweenExample.toJson = betweenExample ∧
      (readVector Symbol.read).run (writeSymbols [betweenExample, betweenExample] ++ [7]) =
        some ([betweenExample, betweenExample], [7]) := by
  have hstorable : betweenExample.Storable :=
    { digit := by decide, site := by decide, counter := by decide, size := by decide
      position := by decide, font := by decide, color := by decide }
  obtain ⟨hjson, hbytes⟩ := codecs_faithful
  exact ⟨hjson _ hstorable.toInRange, hbytes _ (by decide) (by simp [hstorable]) [7]⟩

end Scriba.Utility
