import Mathlib.Data.List.Basic
import Scriba.Lib.BigEndian

/-! # Frames

`Utility/byte_reader.h` and the `sendByteArray` of both sides. A frame is the size of what
follows, as a `quint64`, and a serialized `QByteArray`: its length, as a `quint32`, and its
bytes. The reader keeps what has arrived and, once it knows it, the size of the frame at the
front; 0 says that it does not. -/

namespace Scriba.Utility

open Scriba.Lib

abbrev QByteArray := List UInt8

namespace QDataStream

def writeQuint32 (n : UInt32) : QByteArray := BigEndian.bytes 4 n.toNat
def writeQuint64 (n : UInt64) : QByteArray := BigEndian.bytes 8 n.toNat

def writeByteArray (data : QByteArray) : QByteArray :=
  writeQuint32 (UInt32.ofNat data.length) ++ data

/-- What was read and the rest, `none` past the end. -/
def readQuint32 (data : QByteArray) : Option (UInt32 × QByteArray) :=
  if 4 ≤ data.length then some (UInt32.ofNat (BigEndian.value (data.take 4)), data.drop 4) else none

def readQuint64 (data : QByteArray) : Option (UInt64 × QByteArray) :=
  if 8 ≤ data.length then some (UInt64.ofNat (BigEndian.value (data.take 8)), data.drop 8) else none

/-- The length `0xffffffff` stands for a null array. -/
def readByteArray (data : QByteArray) : Option (QByteArray × QByteArray) := do
  let (len, rest) ← readQuint32 data
  if len = 0xffffffff then some ([], rest)
  else if len.toNat ≤ rest.length then some (rest.take len.toNat, rest.drop len.toNat)
  else none

end QDataStream

namespace QByteArray

/-- A `quint64` passed as an `int`. -/
def toInt (n : UInt64) : Int :=
  let m : Nat := n.toNat % 2 ^ 32
  if m < 2 ^ 31 then m else (m : Int) - 2 ^ 32

/-- `truncate(pos)`. -/
def truncate (data : QByteArray) (pos : Int) : QByteArray :=
  if pos < data.length then data.take pos.toNat else data

/-- `remove(0, len)`. -/
def removeFirst (data : QByteArray) (len : Int) : QByteArray :=
  if len ≤ 0 then data else data.drop len.toNat

end QByteArray

/-! ## Writing -/

/-- `SerializeSize` of a `QByteArray`: how many bytes the stream writes for it. -/
def serializeSize (data : QByteArray) : UInt64 :=
  UInt64.ofNat (QDataStream.writeByteArray data).length

/-- What `sendByteArray` writes to the socket. -/
def sendByteArray (data : QByteArray) : QByteArray :=
  QDataStream.writeQuint64 (serializeSize data) ++ QDataStream.writeByteArray data

/-! ## Reading -/

/-- What `QJsonDocument::fromJson` makes of some bytes: an object, another document, or an
error. -/
inductive Parsed (Object : Type) where
  | object (o : Object)
  | other
  | error
deriving DecidableEq

/-- The callbacks of `ByteReader`. -/
inductive Callback (Object : Type) where
  | jsonReceived (o : Object)
  | byteArrayReceived (data : QByteArray)
deriving DecidableEq

/-- `invalidJson` is the exception of `parseJson`; `outOfFuel` is not in the source. -/
inductive ReaderFault where
  | invalidJson
  | outOfFuel
deriving DecidableEq

/-- `received_data` and `expected_json_size`. -/
structure Reader where
  receivedData : QByteArray
  expectedJsonSize : UInt64
deriving DecidableEq

/-- Nothing received. -/
def Reader.initial : Reader := ⟨[], 0⟩

namespace Reader

variable {Object : Type} (fromJson : QByteArray → Parsed Object)

/-- `extract_content_size`. The stream reads 0 past its end. -/
def extractContentSize (data : QByteArray) : UInt64 :=
  ((QDataStream.readQuint64 data).map Prod.fst).getD 0

/-- The size, the array and the rest of the data, unless they are not complete. -/
def readFrame (data : QByteArray) : Option (UInt64 × QByteArray) := do
  let (jsonSize, rest) ← QDataStream.readQuint64 data
  let (jsonData, _) ← QDataStream.readByteArray rest
  some (jsonSize, QByteArray.truncate jsonData (QByteArray.toInt jsonSize))

/-- `parseJson`: the callback and the data left; `none` where the source returns false. -/
def parseJson (data : QByteArray) : Except ReaderFault (Option (Callback Object × QByteArray)) :=
  match readFrame data with
  | none => pure none
  | some (jsonSize, jsonData) =>
    let rest := QByteArray.removeFirst data (QByteArray.toInt (8 + jsonSize))
    match fromJson jsonData with
    | .object o => pure (some (.jsonReceived o, rest))
    | .other => throw .invalidJson
    | .error => pure (some (.byteArrayReceived jsonData, rest))

/-- `onReadyRead_helper` when the socket has `available` to read. -/
def onReadyRead : Nat → QByteArray → Reader → Except ReaderFault (Reader × List (Callback Object))
  | 0, _, _ => throw .outOfFuel
  | fuel + 1, available, r => do
    let data := r.receivedData ++ available
    if data.length < 8 then return (⟨data, r.expectedJsonSize⟩, [])
    let expected := if r.expectedJsonSize = 0 then extractContentSize data else r.expectedJsonSize
    if expected > 0 ∧ UInt64.ofNat data.length ≥ expected + 8 then
      match ← parseJson fromJson data with
      | none => return (⟨data, expected⟩, [])
      | some (callback, rest) =>
        let (r, callbacks) ← onReadyRead fuel [] ⟨rest, 0⟩
        return (r, callback :: callbacks)
    else return (⟨data, expected⟩, [])

/-- One call for each chunk that arrives. -/
def receive (fuel : Nat) (r : Reader) :
    List QByteArray → Except ReaderFault (Reader × List (Callback Object))
  | [] => pure (r, [])
  | chunk :: chunks => do
    let (r, callbacks) ← onReadyRead fromJson fuel chunk r
    let (r, callbacks') ← receive fuel r chunks
    pure (r, callbacks ++ callbacks')

end Reader

/-! ## What is written can be read -/

section Frames

variable {data rest : QByteArray}

theorem readQuint64_write (n : UInt64) :
    QDataStream.readQuint64 (QDataStream.writeQuint64 n ++ rest) = some (n, rest) := by
  have hlen := BigEndian.length_bytes 8 n.toNat
  have hval : UInt64.ofNat (BigEndian.value (BigEndian.bytes 8 n.toNat)) = n := by
    rw [BigEndian.value_bytes n.toNat_lt, UInt64.ofNat_toNat]
  simp [QDataStream.readQuint64, QDataStream.writeQuint64, List.take_left' hlen,
    List.drop_left' hlen, hval]

theorem readQuint32_write (n : UInt32) :
    QDataStream.readQuint32 (QDataStream.writeQuint32 n ++ rest) = some (n, rest) := by
  have hlen := BigEndian.length_bytes 4 n.toNat
  have hval : UInt32.ofNat (BigEndian.value (BigEndian.bytes 4 n.toNat)) = n := by
    rw [BigEndian.value_bytes n.toNat_lt, UInt32.ofNat_toNat]
  simp [QDataStream.readQuint32, QDataStream.writeQuint32, List.take_left' hlen,
    List.drop_left' hlen, hval]

theorem readByteArray_write (h : data.length < 2 ^ 32 - 1) :
    QDataStream.readByteArray (QDataStream.writeByteArray data ++ rest) = some (data, rest) := by
  have hlen : (UInt32.ofNat data.length).toNat = data.length := by
    rw [UInt32.toNat_ofNat', Nat.mod_eq_of_lt (by omega)]
  have hne : UInt32.ofNat data.length ≠ 0xffffffff := by
    intro he
    have := congrArg UInt32.toNat he
    rw [hlen] at this
    simp at this
    omega
  rw [QDataStream.readByteArray, QDataStream.writeByteArray, List.append_assoc, readQuint32_write]
  simp [hne, hlen]

theorem length_writeByteArray : (QDataStream.writeByteArray data).length = 4 + data.length := by
  simp [QDataStream.writeByteArray, QDataStream.writeQuint32]

theorem length_sendByteArray : (sendByteArray data).length = 12 + data.length := by
  simp only [sendByteArray, QDataStream.writeQuint64, List.length_append, BigEndian.length_bytes,
    length_writeByteArray]
  omega

theorem serializeSize_toNat (data : QByteArray) (h : 4 + data.length < 2 ^ 64) :
    (serializeSize data).toNat = 4 + data.length := by
  rw [serializeSize, length_writeByteArray, UInt64.toNat_ofNat']
  exact Nat.mod_eq_of_lt h

theorem toInt_of_lt {n : UInt64} (h : n.toNat < 2 ^ 31) : QByteArray.toInt n = n.toNat := by
  have hmod : n.toNat % 2 ^ 32 = n.toNat := Nat.mod_eq_of_lt (by omega)
  simp only [QByteArray.toInt, hmod, if_pos h]

variable {Object : Type} {fromJson : QByteArray → Parsed Object}

/-- The callback a payload leads to. -/
def Reader.callback (fromJson : QByteArray → Parsed Object) (data : QByteArray) : Callback Object :=
  match fromJson data with
  | .object o => .jsonReceived o
  | _ => .byteArrayReceived data

/-- **A frame is read back**, and what follows it is left. -/
theorem parseJson_sendByteArray (h : 12 + data.length < 2 ^ 31) (hjson : fromJson data ≠ .other) :
    Reader.parseJson fromJson (sendByteArray data ++ rest) =
      .ok (some (Reader.callback fromJson data, rest)) := by
  have hsize := serializeSize_toNat data (by omega)
  have hsum : (8 + serializeSize data).toNat = 12 + data.length := by
    rw [UInt64.toNat_add, hsize]
    simp
    omega
  have hread : Reader.readFrame (sendByteArray data ++ rest) = some (serializeSize data, data) := by
    have htruncate : QByteArray.truncate data (QByteArray.toInt (serializeSize data)) = data := by
      rw [toInt_of_lt (by omega), QByteArray.truncate, if_neg (by omega)]
    rw [Reader.readFrame, sendByteArray, List.append_assoc, readQuint64_write]
    simp [readByteArray_write (show data.length < 2 ^ 32 - 1 by omega), htruncate]
  have hrest : QByteArray.removeFirst (sendByteArray data ++ rest)
      (QByteArray.toInt (8 + serializeSize data)) = rest := by
    rw [toInt_of_lt (by omega), QByteArray.removeFirst, if_neg (by omega)]
    refine List.drop_left' ?_
    rw [length_sendByteArray, Int.toNat_natCast, hsum]
  rw [Reader.parseJson, hread, Reader.callback]
  simp only [hrest]
  cases hp : fromJson data with
  | object | error => rfl
  | other => exact absurd hp hjson

end Frames

/-! ## Reassembly -/

namespace Reader

/-- The frames of some payloads, one after the other. -/
def stream (payloads : List QByteArray) : QByteArray := payloads.flatMap sendByteArray

/-- What has arrived of the frames of `payloads`: not all of the first one, of which the size is
known as soon as it can be. -/
inductive Waits : List QByteArray → Reader → Prop
  | size {payloads : List QByteArray} {data : QByteArray} :
      data.length < 8 → Waits payloads ⟨data, 0⟩
  | content {p : QByteArray} {payloads : List QByteArray} {data : QByteArray} :
      8 ≤ data.length → data.length < (sendByteArray p).length →
      Waits (p :: payloads) ⟨data, serializeSize p⟩

variable {Object : Type} {fromJson : QByteArray → Parsed Object} {r : Reader}
  {p : QByteArray} {payloads : List QByteArray} {data rest : QByteArray}

/-- The size that is known is right. -/
def Knows (r : Reader) (data : QByteArray) : List QByteArray → Prop
  | [] => r.expectedJsonSize = 0
  | p :: _ => r.expectedJsonSize = 0 ∨ 8 ≤ data.length ∧ r.expectedJsonSize = serializeSize p

theorem Waits.knows (h : Waits payloads r) (chunk : QByteArray) :
    Knows r (r.receivedData ++ chunk) payloads := by
  cases h with
  | size => cases payloads <;> simp [Knows]
  | content h8 _ =>
    refine .inr ⟨?_, rfl⟩
    simp only [List.length_append]
    omega

/-- The size of the first frame, once it is there. -/
theorem extractContentSize_eq (h : data ++ rest = sendByteArray p ++ stream payloads)
    (h8 : 8 ≤ data.length) : extractContentSize data = serializeSize p := by
  have hpre : QDataStream.writeQuint64 (serializeSize p) <+: data := by
    have hsize : QDataStream.writeQuint64 (serializeSize p) <+: data ++ rest := by
      rw [h, sendByteArray, List.append_assoc]
      exact List.prefix_append _ _
    refine List.prefix_of_prefix_length_le hsize (List.prefix_append _ _) ?_
    simpa [QDataStream.writeQuint64] using h8
  obtain ⟨tail, rfl⟩ := hpre
  rw [extractContentSize, readQuint64_write]
  rfl

/-- The test for a complete frame does what it says. -/
theorem complete_iff {n : Nat} (hp : 12 + p.length < 2 ^ 31) (hn : n < 2 ^ 31) :
    (serializeSize p > 0 ∧ UInt64.ofNat n ≥ serializeSize p + 8) ↔
      (sendByteArray p).length ≤ n := by
  rw [gt_iff_lt, ge_iff_le, UInt64.lt_iff_toNat_lt, UInt64.le_iff_toNat_le, UInt64.toNat_add,
    UInt64.toNat_ofNat', serializeSize_toNat p (by omega), length_sendByteArray]
  simp
  omega

/-- **One call** delivers the frames that are complete. -/
theorem onReadyRead_spec {available : QByteArray} {fuel : Nat}
    (hjson : ∀ p ∈ payloads, fromJson p ≠ .other) (hsize : (stream payloads).length < 2 ^ 31)
    (hdata : r.receivedData ++ available ++ rest = stream payloads)
    (hr : Knows r (r.receivedData ++ available) payloads) (hfuel : payloads.length < fuel) :
    ∃ r' done left, onReadyRead fromJson fuel available r = .ok (r', done.map (callback fromJson)) ∧
      payloads = done ++ left ∧ r'.receivedData ++ rest = stream left ∧ Waits left r' := by
  induction payloads generalizing r available fuel with
  | nil =>
    obtain ⟨fuel, rfl⟩ : ∃ n, fuel = n + 1 := ⟨fuel - 1, by omega⟩
    obtain ⟨hnil, hrest⟩ := List.append_eq_nil_iff.mp hdata
    obtain ⟨data, expected⟩ := r
    obtain rfl : expected = 0 := hr
    refine ⟨⟨data ++ available, 0⟩, [], [], ?_, rfl, hdata, .size (by simp [hnil])⟩
    rw [onReadyRead]
    simp only [hnil, List.length_nil, if_pos (show 0 < 8 by decide)]
    rfl
  | cons p payloads ih =>
    obtain ⟨fuel, rfl⟩ : ∃ n, fuel = n + 1 := ⟨fuel - 1, by omega⟩
    obtain ⟨data, expected⟩ := r
    have hcons : data ++ available ++ rest = sendByteArray p ++ stream payloads := hdata
    have hlen : 12 + p.length + (stream payloads).length < 2 ^ 31 := by
      simpa [stream, length_sendByteArray] using hsize
    have hsp := serializeSize_toNat p (by omega)
    rw [onReadyRead]
    by_cases h8 : (data ++ available).length < 8
    · -- not even a size
      have h0 : expected = 0 := hr.resolve_right fun h => absurd h8 (not_lt.mpr h.1)
      subst h0
      exact ⟨⟨data ++ available, 0⟩, [], p :: payloads, by simp only [if_pos h8]; rfl, rfl, hdata,
        .size h8⟩
    · have hexp : (if expected = 0 then extractContentSize (data ++ available) else expected) =
          serializeSize p := by
        split_ifs with h0
        · exact extractContentSize_eq hcons (by omega)
        · exact (hr.resolve_left h0).2
      have htotal : (data ++ available).length < 2 ^ 31 := by
        have hle := congrArg List.length hdata
        simp only [List.length_append] at hle ⊢
        omega
      have hcond := complete_iff (p := p) (by omega) htotal
      simp only [if_neg h8, hexp, hcond]
      by_cases hc : (sendByteArray p).length ≤ (data ++ available).length
      · -- the frame is complete
        have hframe : sendByteArray p <+: data ++ available ++ rest :=
          hcons ▸ List.prefix_append _ _
        obtain ⟨tail, htail⟩ :=
          List.prefix_of_prefix_length_le hframe (List.prefix_append _ _) hc
        have hstream : tail ++ rest = stream payloads := by
          rw [← htail, List.append_assoc] at hcons
          exact List.append_cancel_left hcons
        obtain ⟨r', done, left, hok, rfl, hleft, hwaits⟩ := ih (r := ⟨tail, 0⟩)
          (fun q hq => hjson q (by simp [hq])) (by omega)
          (show tail ++ [] ++ rest = stream payloads by simpa using hstream)
          (by cases payloads <;> simp [Knows]) (show payloads.length < fuel by simpa using hfuel)
        refine ⟨r', p :: done, left, ?_, rfl, hleft, hwaits⟩
        rw [if_pos hc, ← htail, parseJson_sendByteArray (by omega) (hjson p (by simp))]
        simp only [hok, bind, Except.bind]
        rfl
      · refine ⟨⟨data ++ available, serializeSize p⟩, [], p :: payloads, ?_, rfl, hdata,
          .content (by omega) (by omega)⟩
        rw [if_neg hc]
        rfl

/-- With nothing on its way, nothing waits. -/
theorem Waits.eq_initial (h : Waits payloads r) (hdata : r.receivedData = stream payloads) :
    payloads = [] ∧ r = .initial := by
  have hnil : payloads = [] := by
    cases payloads with
    | nil => rfl
    | cons p payloads =>
      have hlen := congrArg List.length hdata
      simp only [stream, List.flatMap_cons, List.length_append, length_sendByteArray] at hlen
      cases h with
      | size h8 => dsimp only at hlen; omega
      | content _ hlt => rw [length_sendByteArray] at hlt; dsimp only at hlen; omega
  subst hnil
  obtain ⟨data, expected⟩ := r
  obtain rfl : data = [] := hdata
  cases h
  exact ⟨rfl, rfl⟩

/-- Chunk after chunk. -/
theorem receive_spec {chunks : List QByteArray} {fuel : Nat}
    (hjson : ∀ p ∈ payloads, fromJson p ≠ .other) (hsize : (stream payloads).length < 2 ^ 31)
    (hw : Waits payloads r) (hdata : r.receivedData ++ chunks.flatten = stream payloads)
    (hfuel : payloads.length < fuel) :
    receive fromJson fuel r chunks = .ok (.initial, payloads.map (callback fromJson)) := by
  induction chunks generalizing payloads r with
  | nil =>
    rw [List.flatten_nil, List.append_nil] at hdata
    obtain ⟨rfl, rfl⟩ := hw.eq_initial hdata
    rfl
  | cons chunk chunks ih =>
    rw [List.flatten_cons, ← List.append_assoc] at hdata
    obtain ⟨r', done, left, hok, rfl, hleft, hw'⟩ :=
      onReadyRead_spec hjson hsize hdata (hw.knows chunk) hfuel
    have hstream : stream (done ++ left) = stream done ++ stream left := List.flatMap_append
    rw [hstream, List.length_append] at hsize
    rw [List.length_append] at hfuel
    have hrest := ih (fun q hq => hjson q (by simp [hq])) (by omega) hw' hleft (by omega)
    simp only [receive, hok, hrest, bind, Except.bind, List.map_append]
    rfl

/-- **Reassembly is exact**: however the frames are cut, each payload leads to its callback, once
and in order, and nothing is left. -/
theorem receive_sendByteArray (payloads : List QByteArray) {chunks : List QByteArray} {fuel : Nat}
    (hjson : ∀ p ∈ payloads, fromJson p ≠ .other)
    (hsize : (payloads.flatMap sendByteArray).length < 2 ^ 31)
    (hchunks : chunks.flatten = payloads.flatMap sendByteArray) (hfuel : payloads.length < fuel) :
    receive fromJson fuel .initial chunks = .ok (.initial, payloads.map (callback fromJson)) :=
  receive_spec hjson hsize (.size (by decide)) hchunks hfuel

/-- An object and a byte that is no text, cut inside the first size and inside the second frame. -/
theorem receive_sendByteArray_cut :
    let object : QByteArray := [0x7b, 0x7d]
    let fromJson : QByteArray → Parsed Unit :=
      fun data => if data = object then .object () else .error
    let sent := sendByteArray object ++ sendByteArray [0xff]
    receive fromJson 3 .initial [sent.take 3, [], (sent.drop 3).take 20, sent.drop 23] =
      .ok (.initial, [.jsonReceived (), .byteArrayReceived [0xff]]) :=
  receive_sendByteArray [[0x7b, 0x7d], [0xff]] (by decide) (by decide) (by decide)
    (by decide)

end Reader

end Scriba.Utility
