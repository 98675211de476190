import Scriba.Lib.Decoding
import Scriba.Utility.ByteReader
import Scriba.Utility.Json

/-! # Symbols as bytes

The stream operators of `Utility/symbol.h`, over what `QDataStream` writes for numbers, strings
and vectors. A server keeps the symbols of a file in this form, and clients send groups of
symbols in it. -/

namespace Scriba.Utility

open Scriba.Lib Scriba.Lib.Decoder

namespace QDataStream

/-- `n` bytes, as a number. -/
def readNumber (n : Nat) : Decoder UInt8 Nat := fun data =>
  if n ≤ data.length then some (BigEndian.value (data.take n), data.drop n) else none

/-- A number of `n` bytes in two's complement. -/
def signed (n : Nat) (value : Nat) : Int :=
  if value < 256 ^ n / 2 then value else (value : Int) - 256 ^ n

def writeUshort (c : UInt16) : QByteArray := BigEndian.bytes 2 c.toNat

def readUshort : Decoder UInt8 UInt16 := do
  let n ← readNumber 2
  pure (UInt16.ofNat n)

def writeInt (n : Int) : QByteArray := BigEndian.bytes 4 (n % 2 ^ 32).toNat

def readInt : Decoder UInt8 Int := do
  let n ← readNumber 4
  pure (signed 4 n)

def writeBool (b : Bool) : QByteArray := [if b then 1 else 0]

def readBool : Decoder UInt8 Bool := do
  let n ← readNumber 1
  pure (n ≠ 0)

/-- The size in bytes and the code units. -/
def writeString (s : QString) : QByteArray :=
  writeQuint32 (UInt32.ofNat (2 * s.length)) ++ s.flatMap writeUshort

/-- The size `0xffffffff` stands for a null string. -/
def readString : Decoder UInt8 QString := do
  let size ← readQuint32
  if size = 0xffffffff then pure []
  else if size.toNat % 2 = 1 then failure
  else many readUshort (size.toNat / 2)

def writeVector {α : Type} (write : α → QByteArray) (xs : List α) : QByteArray :=
  writeQuint32 (UInt32.ofNat xs.length) ++ xs.flatMap write

def readVector {α : Type} (read : Decoder UInt8 α) : Decoder UInt8 (List α) := do
  let size ← readQuint32
  many read size.toNat

end QDataStream

open QDataStream

/-! ## The operators -/

def Identifier.write (id : Identifier) : QByteArray := writeInt id.digit ++ writeInt id.site

def Identifier.read : Decoder UInt8 Identifier := do
  let digit ← readInt
  let site ← readInt
  pure ⟨digit, site⟩

/-- The number of an enumerator. -/
def SymbolFormat.Alignment.toNat : SymbolFormat.Alignment → Nat
  | .alignLeft => 0
  | .alignRight => 1
  | .alignCenter => 2

/-- An enumeration is written as a `qint64`. -/
def SymbolFormat.Alignment.write (align : SymbolFormat.Alignment) : QByteArray :=
  BigEndian.bytes 8 align.toNat

def SymbolFormat.Alignment.read : Decoder UInt8 SymbolFormat.Alignment := do
  let n ← readNumber 8
  pure (.ofInt (signed 8 n))

def SymbolFormat.write (format : SymbolFormat) : QByteArray :=
  format.align.write ++ (writeBool format.italic ++ (writeBool format.bold ++
    (writeBool format.underline ++ (writeString format.font ++ (writeInt format.size ++
      writeString format.color)))))

def SymbolFormat.read : Decoder UInt8 SymbolFormat := do
  let align ← Alignment.read
  let italic ← readBool
  let bold ← readBool
  let underline ← readBool
  let font ← readString
  let size ← readInt
  let color ← readString
  pure { align, italic, bold, underline, font, size, color }

def Symbol.write (s : Symbol) : QByteArray :=
  writeUshort s.value ++ (writeVector Identifier.write s.position ++ (writeInt s.counter ++
    s.format.write))

def Symbol.read : Decoder UInt8 Symbol := do
  let value ← readUshort
  let position ← readVector Identifier.read
  let counter ← readInt
  let format ← SymbolFormat.read
  pure { value, position, counter, format }

/-- `stream << symbols`. -/
def writeSymbols (symbols : List Symbol) : QByteArray := writeVector Symbol.write symbols

/-- `stream >> symbols`. What cannot be read leaves no symbol. -/
def readSymbols (data : QByteArray) : List Symbol :=
  (((readVector Symbol.read).run data).map Prod.fst).getD []

/-! ## Round trip -/

namespace QDataStream

theorem decodes_readNumber {n v : Nat} (h : v < 256 ^ n) :
    Decodes (readNumber n) v (BigEndian.bytes n v) := by
  intro rest
  have hlen := BigEndian.length_bytes n v
  have hrun : (readNumber n).run (BigEndian.bytes n v ++ rest) =
      readNumber n (BigEndian.bytes n v ++ rest) := rfl
  rw [hrun, readNumber, if_pos (by simp [hlen]), List.take_left' hlen, List.drop_left' hlen,
    BigEndian.value_bytes h]

theorem decodes_readQuint32 (n : UInt32) :
    Decodes (readQuint32 : Decoder UInt8 UInt32) n (writeQuint32 n) :=
  fun _ => readQuint32_write n

theorem decodes_readUshort (c : UInt16) : Decodes readUshort c (writeUshort c) := by
  have h := (decodes_readNumber (n := 2) c.toNat_lt).map (f := UInt16.ofNat)
  rwa [UInt16.ofNat_toNat] at h

theorem decodes_readInt {n : Int} (h : -2 ^ 31 ≤ n ∧ n < 2 ^ 31) :
    Decodes readInt n (writeInt n) := by
  have hv : (n % 2 ^ 32).toNat < 256 ^ 4 := by omega
  have hs : signed 4 (n % 2 ^ 32).toNat = n := by
    unfold signed
    split_ifs <;> omega
  have hd := (decodes_readNumber hv).map (f := signed 4)
  rwa [hs] at hd

theorem decodes_readBool (b : Bool) : Decodes readBool b (writeBool b) := by
  have hd : ∀ v < 256 ^ 1, Decodes readBool (decide (v ≠ 0)) (BigEndian.bytes 1 v) :=
    fun v hv => (decodes_readNumber hv).map
  cases b with
  | false => exact hd 0 (by decide)
  | true => exact hd 1 (by decide)

theorem decodes_readString {s : QString} (h : 2 * s.length < 2 ^ 32 - 1) :
    Decodes readString s (writeString s) := by
  refine (decodes_readQuint32 _).bind ?_
  have hsize : (UInt32.ofNat (2 * s.length)).toNat = 2 * s.length := by
    rw [UInt32.toNat_ofNat', Nat.mod_eq_of_lt (by omega)]
  have hne : UInt32.ofNat (2 * s.length) ≠ 0xffffffff := by
    intro he
    have hv := congrArg UInt32.toNat he
    have hmax : (0xffffffff : UInt32).toNat = 2 ^ 32 - 1 := rfl
    omega
  have heven : ¬ 2 * s.length % 2 = 1 := by omega
  have hhalf : 2 * s.length / 2 = s.length := by omega
  simp only [if_neg hne, hsize, if_neg heven, hhalf]
  exact Decodes.many fun c _ => decodes_readUshort c

theorem decodes_readVector {α : Type} {read : Decoder UInt8 α} {write : α → QByteArray}
    {xs : List α} (hlen : xs.length < 2 ^ 32) (h : ∀ x ∈ xs, Decodes read x (write x)) :
    Decodes (readVector read) xs (writeVector write xs) := by
  refine (decodes_readQuint32 _).bind ?_
  have hsize : (UInt32.ofNat xs.length).toNat = xs.length := by
    rw [UInt32.toNat_ofNat', Nat.mod_eq_of_lt (by omega)]
  rw [hsize]
  exact Decodes.many h

end QDataStream

/-- A symbol that is read back as it was: its numbers are `int`s, and its strings and its
position are not too long. -/
structure Symbol.Storable (s : Symbol) : Prop extends s.InRange where
  position : s.position.length < 2 ^ 32
  font : 2 * s.format.font.length < 2 ^ 32 - 1
  color : 2 * s.format.color.length < 2 ^ 32 - 1

theorem Identifier.decodes_read {id : Identifier} (hd : -2 ^ 31 ≤ id.digit ∧ id.digit < 2 ^ 31)
    (hs : -2 ^ 31 ≤ id.site ∧ id.site < 2 ^ 31) : Decodes Identifier.read id id.write :=
  (decodes_readInt hd).bind (decodes_readInt hs).map

theorem SymbolFormat.Alignment.decodes_read (align : SymbolFormat.Alignment) :
    Decodes Alignment.read align align.write := by
  have hlt : align.toNat < 256 ^ 8 := by cases align <;> decide
  have h := (decodes_readNumber hlt).map (f := fun n => Alignment.ofInt (signed 8 n))
  have hid : Alignment.ofInt (signed 8 align.toNat) = align := by cases align <;> decide
  rwa [hid] at h

theorem Symbol.Storable.decodes_read {s : Symbol} (h : s.Storable) :
    Decodes Symbol.read s s.write := by
  have hformat : Decodes SymbolFormat.read s.format s.format.write :=
    (SymbolFormat.Alignment.decodes_read _).bind <| (decodes_readBool _).bind <|
      (decodes_readBool _).bind <| (decodes_readBool _).bind <|
        (decodes_readString h.font).bind <| (decodes_readInt h.size).bind
          (decodes_readString h.color).map
  exact (decodes_readUshort _).bind <|
    (decodes_readVector h.position fun i hi => i.decodes_read (h.digit i hi) (h.site i hi)).bind <|
      (decodes_readInt h.counter).bind hformat.map

/-- **Symbols are read back.** -/
theorem readSymbols_write {symbols : List Symbol} (hlen : symbols.length < 2 ^ 32)
    (h : ∀ s ∈ symbols, s.Storable) : readSymbols (writeSymbols symbols) = symbols := by
  have hd := decodes_readVector hlen fun s hs => (h s hs).decodes_read
  have hrun := hd []
  rw [List.append_nil] at hrun
  rw [readSymbols, writeSymbols, hrun]
  rfl

/-! ## What is read can be stored -/

namespace QDataStream

theorem yields_readNumber (n : Nat) : Yields (readNumber n) fun v => v < 256 ^ n := by
  intro data v rest h
  have hrun : (readNumber n).run data = readNumber n data := rfl
  rw [hrun, readNumber] at h
  split_ifs at h with hn
  cases h
  have hlt := BigEndian.value_lt (data.take n)
  rwa [List.length_take, min_eq_left hn] at hlt

theorem yields_readInt : Yields readInt fun n => -2 ^ 31 ≤ n ∧ n < 2 ^ 31 := by
  refine (yields_readNumber 4).bind fun v hv => Yields.pure ?_
  unfold signed
  split_ifs <;> omega

theorem yields_readString : Yields readString fun s => 2 * s.length < 2 ^ 32 - 1 := by
  refine Yields.any.bind ?_
  intro size _
  split_ifs with hnull hodd
  · exact Yields.pure (by simp)
  · intro data s rest h
    cases h
  · have hmax : size.toNat ≠ 2 ^ 32 - 1 := fun he => hnull (UInt32.toNat_inj.mp he)
    have hlt := size.toNat_lt
    intro data s rest h
    have hlen := (Yields.many Yields.any (size.toNat / 2) data s rest h).1
    omega

theorem yields_readVector {α : Type} {read : Decoder UInt8 α} {P : α → Prop} (h : Yields read P) :
    Yields (readVector read) fun xs => xs.length < 2 ^ 32 ∧ ∀ x ∈ xs, P x := by
  refine Yields.any.bind ?_
  intro size _ data xs rest he
  obtain ⟨hlen, hall⟩ := h.many size.toNat data xs rest he
  exact ⟨hlen ▸ size.toNat_lt, hall⟩

end QDataStream

theorem Symbol.yields_read : Yields Symbol.read Symbol.Storable := by
  have hid : Yields Identifier.read fun i => (-2 ^ 31 ≤ i.digit ∧ i.digit < 2 ^ 31) ∧
      (-2 ^ 31 ≤ i.site ∧ i.site < 2 ^ 31) :=
    yields_readInt.bind fun digit hd => yields_readInt.bind fun site hs => Yields.pure ⟨hd, hs⟩
  have hformat : Yields SymbolFormat.read fun f => (-2 ^ 31 ≤ f.size ∧ f.size < 2 ^ 31) ∧
      2 * f.font.length < 2 ^ 32 - 1 ∧ 2 * f.color.length < 2 ^ 32 - 1 :=
    Yields.any.bind fun _ _ => Yields.any.bind fun _ _ => Yields.any.bind fun _ _ =>
      Yields.any.bind fun _ _ => yields_readString.bind fun font hf =>
        yields_readInt.bind fun size hs => yields_readString.bind fun color hc =>
          Yields.pure ⟨hs, hf, hc⟩
  exact Yields.any.bind fun value _ => (yields_readVector hid).bind fun position hp =>
    yields_readInt.bind fun counter hc => hformat.bind fun format hf => Yields.pure
      { digit := fun i hi => (hp.2 i hi).1, site := fun i hi => (hp.2 i hi).2, counter := hc
        size := hf.1, position := hp.1, font := hf.2.1, color := hf.2.2 }

theorem readSymbols_storable {data : QByteArray} {s : Symbol} (hs : s ∈ readSymbols data) :
    s.Storable := by
  unfold readSymbols at hs
  cases hr : (readVector Symbol.read).run data with
  | none => simp [hr] at hs
  | some result =>
    rw [hr] at hs
    exact (yields_readVector Symbol.yields_read data result.1 result.2 hr).2 s hs

/-! ## What fits into an array can be stored -/

section Length

variable {α : Type} {write : α → QByteArray} {xs : List α}

theorem length_le_flatMap {x : α} (hx : x ∈ xs) :
    (write x).length ≤ (xs.flatMap write).length := by
  obtain ⟨a, b, rfl⟩ := List.append_of_mem hx
  simp only [List.flatMap_append, List.flatMap_cons, List.length_append]
  omega

theorem length_le_length_flatMap (h : ∀ x ∈ xs, 1 ≤ (write x).length) :
    xs.length ≤ (xs.flatMap write).length := by
  induction xs with
  | nil => simp
  | cons x xs ih =>
    rw [List.flatMap_cons, List.length_append, List.length_cons]
    have hx := h x (by simp)
    have hxs := ih fun y hy => h y (by simp [hy])
    omega

end Length

/-- Numbers that are `int`s are all that has to be known of symbols of which the bytes fit into a
`QByteArray`. -/
theorem storable_of_length {symbols : List Symbol} (hr : ∀ s ∈ symbols, s.InRange)
    (hlen : (writeSymbols symbols).length < 2 ^ 31) :
    symbols.length < 2 ^ 32 ∧ ∀ s ∈ symbols, s.Storable := by
  have hushort : ∀ c : UInt16, (writeUshort c).length = 2 := fun c => BigEndian.length_bytes 2 _
  have hint : ∀ n : Int, (writeInt n).length = 4 := fun n => BigEndian.length_bytes 4 _
  have hstring : ∀ s : QString, s.length ≤ (writeString s).length := by
    intro s
    have hle : s.length ≤ (s.flatMap writeUshort).length :=
      length_le_length_flatMap fun c _ => by rw [hushort]; omega
    rw [writeString, List.length_append]
    omega
  rw [writeSymbols, writeVector, List.length_append] at hlen
  refine ⟨?_, fun s hs => ?_⟩
  · have hle : symbols.length ≤ (symbols.flatMap Symbol.write).length :=
      length_le_length_flatMap fun s _ => by
        rw [Symbol.write, List.length_append, hushort]
        omega
    omega
  · have hle : s.write.length ≤ (symbols.flatMap Symbol.write).length := length_le_flatMap hs
    have hposition : s.position.length ≤ (s.position.flatMap Identifier.write).length :=
      length_le_length_flatMap fun i _ => by
        rw [Identifier.write, List.length_append, hint]
        omega
    have hfont := hstring s.format.font
    have hcolor := hstring s.format.color
    simp only [Symbol.write, SymbolFormat.write, writeVector, List.length_append] at hle
    exact { hr s hs with
      position := by omega
      font := by omega
      color := by omega }

end Scriba.Utility
