import Scriba.Server.Server

/-! # Envelopes

What goes over the network as an array of bytes: the size of a message in JSON and the message,
and then the sizes and the bytes of what comes with it. A size has four bytes, the least
significant first. What `toJson` writes for a message is given. -/

namespace Scriba.Server

open Scriba.Utility Scriba.Lib

/-- `QByteArray((const char *)&size, sizeof(size))`. -/
def sizeBytes (size : UInt32) : QByteArray := (BigEndian.bytes 4 size.toNat).reverse

/-- An array after its size. -/
def sized (data : QByteArray) : QByteArray := sizeBytes (UInt32.ofNat data.length) ++ data

/-- The loop over some images. -/
def imageBlocks (v : List QByteArray) : QByteArray :=
  (if v.length = 0 then sizeBytes 0 else []) ++ v.flatMap fun a =>
    let sizeImg := UInt32.ofNat a.length
    sizeBytes sizeImg ++ if sizeImg ≠ 0 then a else []

section Encoders

variable (toJson : QJsonObject → QByteArray) (message : QJsonObject)

def createByteArrayJsonImage (v : List QByteArray) : QByteArray :=
  sized (toJson message) ++ imageBlocks v

def createByteArrayFileContentImage (c : List Symbol) (v : List QByteArray) : QByteArray :=
  sized (toJson message) ++ sized (writeSymbols c) ++ imageBlocks v

/-- What `broadcastByteArray` sends to each worker. -/
def broadcastBytes (bArray : QByteArray) : QByteArray :=
  sized (toJson message) ++ if bArray.length ≠ 0 then sized bArray else sizeBytes 0

end Encoders

/-- The bytes of a packet that is sent as an array; `sendJson` writes the others. -/
def Packet.bytes (toJson : QJsonObject → QByteArray) : Packet → Option QByteArray
  | .json _ => none
  | .jsonImage message images => some (createByteArrayJsonImage toJson message images)
  | .fileContentImage message content images =>
    some (createByteArrayFileContentImage toJson message content images)
  | .byteArray message content => some (broadcastBytes toJson message content)

/-! ## Blocks -/

section Blocks

variable {data rest : QByteArray} {n : UInt32}

theorem length_sizeBytes (n : UInt32) : (sizeBytes n).length = 4 := by
  rw [sizeBytes, List.length_reverse, BigEndian.length_bytes]

theorem length_sized : (sized data).length = 4 + data.length := by
  rw [sized, List.length_append, length_sizeBytes]

theorem toInt_of_lt (h : n.toNat < 2 ^ 31) : n.toInt32.toInt = n.toNat :=
  BitVec.toInt_eq_toNat_of_lt (x := n.toBitVec) (by rw [UInt32.toNat_toBitVec]; omega)

theorem leadingSize_sizeBytes (n : UInt32) (rest : QByteArray) :
    leadingSize (sizeBytes n ++ rest) = n := by
  have htake : (sizeBytes n ++ rest).take 4 = sizeBytes n :=
    List.take_left' (length_sizeBytes n)
  have hpad : (sizeBytes n).rightpad 4 0 = sizeBytes n := by
    rw [List.rightpad, length_sizeBytes, Nat.sub_self, List.replicate_zero, List.append_nil]
  rw [leadingSize, htake, hpad, sizeBytes, List.reverse_reverse,
    BigEndian.value_bytes n.toNat_lt, UInt32.ofNat_toNat]

/-- Inside the array, `mid` is what it says. -/
theorem mid_of_le {pos len : Nat} (h : pos ≤ data.length) :
    mid data pos len = (data.drop pos).take len := by
  have h1 : ¬ (data.length : Int) < pos := by omega
  have h2 : ¬ (pos : Int) < 0 := by omega
  have h3 : ¬ (len : Int) < 0 := by omega
  rw [mid, if_neg h1, if_neg h2, if_neg h3, Int.toNat_natCast, Int.toNat_natCast]

theorem mid_rest {pos : Nat} (h : pos ≤ data.length) : mid data pos (-1) = data.drop pos := by
  have h1 : ¬ (data.length : Int) < pos := by omega
  have h2 : ¬ (pos : Int) < 0 := by omega
  rw [mid, if_neg h1, if_neg h2, if_pos (by decide), Int.toNat_natCast]

theorem leadingSize_sized (rest : QByteArray) :
    leadingSize (sized data ++ rest) = UInt32.ofNat data.length := by
  rw [sized, List.append_assoc, leadingSize_sizeBytes]

theorem toNat_ofNat_length (h : data.length < 2 ^ 32) :
    (UInt32.ofNat data.length).toNat = data.length := by
  rw [UInt32.toNat_ofNat', Nat.mod_eq_of_lt (by omega)]

/-- Only an empty array has the size 0. -/
theorem ofNat_length_eq_zero (h : data.length < 2 ^ 32) :
    UInt32.ofNat data.length = 0 ↔ data = [] := by
  rw [← UInt32.toNat_inj, toNat_ofNat_length h]
  exact List.length_eq_zero_iff

/-- **A block is read back.** -/
theorem block_sized (h : data.length < 2 ^ 31) : block (sized data ++ rest) = data := by
  have hsize : (UInt32.ofNat data.length).toNat = data.length := toNat_ofNat_length (by omega)
  have hlen : (4 : Nat) ≤ (sized data ++ rest).length := by
    rw [List.length_append, length_sized]
    omega
  rw [block, leadingSize_sized, toInt_of_lt (by omega), hsize]
  refine (mid_of_le hlen).trans ?_
  rw [sized, List.append_assoc, List.drop_left' (length_sizeBytes _), List.take_left]

/-- **What follows a block** is where it was put. -/
theorem afterBlock_sized (h : 4 + data.length < 2 ^ 31) :
    afterBlock (sized data ++ rest) = rest := by
  have hsize : (UInt32.ofNat data.length).toNat = data.length := toNat_ofNat_length (by omega)
  have hnext : (4 + UInt32.ofNat data.length).toNat = 4 + data.length := by
    have hfour : (4 : UInt32).toNat = 4 := rfl
    rw [UInt32.toNat_add, hsize, hfour]
    exact Nat.mod_eq_of_lt (by omega)
  have hlen : 4 + data.length ≤ (sized data ++ rest).length := by
    rw [List.length_append, length_sized]
    omega
  rw [afterBlock, leadingSize_sized, toInt_of_lt (by omega), hnext, mid_rest hlen,
    List.drop_left' length_sized]

end Blocks

end Scriba.Server
