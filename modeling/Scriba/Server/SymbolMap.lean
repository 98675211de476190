import Mathlib.Data.List.Nodup
import Scriba.Lib.Lines
import Scriba.Lib.Table
import Scriba.Client.Crdt

/-! # The server's symbols

The server keeps the symbols of an open file in a map from position strings. Each operation it
receives changes the map (`store`) and is forwarded. The keys are decimal strings; they tell
positions apart (`keyOf_injective`), so the map is a finite set of symbols with different
positions. -/

namespace Scriba.Server

open Scriba.Utility Scriba.Client Scriba.Lib Scriba.Lib.Lines

/-- `QMap<QString, Symbol>`, in the order of UTF-16 code units. -/
abbrev SymbolMap := Std.TreeMap QString Symbol

namespace SymbolMap

def insertSymbol (symbols : SymbolMap) (s : Symbol) : SymbolMap :=
  symbols.insert s.positionString s

def removeSymbol (symbols : SymbolMap) (s : Symbol) : SymbolMap :=
  symbols.erase s.positionString

/-- The map of a file that is opened first. -/
def storeSymbolsServerMemory (symbols : List Symbol) : SymbolMap :=
  symbols.foldl insertSymbol ∅

/-- What `Server` does with an operation before it forwards it. A change sent as a JSON message
is forwarded only. -/
def store (symbols : SymbolMap) : Message → SymbolMap
  | .insert s => symbols.insertSymbol s
  | .paste vec => vec.foldl insertSymbol symbols
  | .erase vec => vec.foldl removeSymbol symbols
  | .changeSymbol _ => symbols
  | .change vec => vec.foldl insertSymbol symbols
  | .align s => symbols.insertSymbol s

/-- `values()`: the symbols in the order of their keys. -/
def values (symbols : SymbolMap) : List Symbol := symbols.toList.map Prod.snd

end SymbolMap

/-- The order of the keys. -/
def KeyBefore (r s : Symbol) : Prop := compare r.positionString s.positionString = .lt

instance : DecidableRel KeyBefore := fun _ _ => inferInstanceAs (Decidable (_ = _))

theorem KeyBefore.asymm (r s : Symbol) (h : KeyBefore r s) : ¬ KeyBefore s r := by
  rw [KeyBefore, ← Std.OrientedCmp.gt_iff_lt] at h
  simp [KeyBefore, h]

/-! ## Decimal strings -/

/-- A decimal digit or a minus sign. -/
def IsNumeral (q : QChar) : Prop := q.toNat = 45 ∨ (48 ≤ q.toNat ∧ q.toNat ≤ 57)

private theorem digit_toNat {n : Nat} {c : Char} (h : c ∈ Nat.toDigits 10 n) :
    48 ≤ c.toNat ∧ c.toNat ≤ 57 := by
  have hd := Nat.isDigit_of_mem_toDigits (by decide) (by decide) h
  simp only [Char.isDigit, Bool.and_eq_true, decide_eq_true_eq, UInt32.le_iff_toNat_le] at hd
  exact hd

private theorem of_toNat {c : Char} (h : c.toNat ≤ 57) : (QChar.of c).toNat = c.toNat := by
  rw [QChar.of, UInt16.toNat_ofNat_of_lt']
  exact Nat.lt_of_le_of_lt h (by decide)

theorem isNumeral_of_mem_number {n : Int} {q : QChar} (h : q ∈ QString.number n) :
    IsNumeral q := by
  have hd : ∀ q ∈ (Nat.toDigits 10 n.natAbs).map QChar.of, IsNumeral q := by
    intro q hq
    obtain ⟨c, hc, rfl⟩ := List.mem_map.mp hq
    have h := digit_toNat hc
    rw [IsNumeral, of_toNat h.2]
    exact .inr h
  simp only [QString.number] at h
  split_ifs at h
  · rcases List.mem_cons.mp h with rfl | h
    · exact .inl (by decide)
    · exact hd q h
  · exact hd q h

private theorem digits_injective {a b : Nat}
    (h : (Nat.toDigits 10 a).map QChar.of = (Nat.toDigits 10 b).map QChar.of) : a = b := by
  have hinv : ∀ n, ((Nat.toDigits 10 n).map QChar.of).map (fun q => Char.ofNat q.toNat) =
      Nat.toDigits 10 n := by
    intro n
    rw [List.map_map]
    refine (List.map_congr_left fun c hc => ?_).trans (List.map_id _)
    simp [of_toNat (digit_toNat hc).2]
  have hl : Nat.toDigits 10 a = Nat.toDigits 10 b := by rw [← hinv a, h, hinv b]
  rw [← Nat.ofDigitChars_ten_toDigits (n := a), hl, Nat.ofDigitChars_ten_toDigits]

private theorem minus_not_mem (n : Nat) : QChar.of '-' ∉ (Nat.toDigits 10 n).map QChar.of := by
  intro h
  obtain ⟨c, hc, he⟩ := List.mem_map.mp h
  have hd := digit_toNat hc
  have := congrArg UInt16.toNat he
  rw [of_toNat hd.2] at this
  have h45 : (QChar.of '-').toNat = 45 := by decide
  omega

theorem number_injective : Function.Injective QString.number := by
  intro a b h
  simp only [QString.number] at h
  split_ifs at h with ha hb hb
  · have := digits_injective (List.cons.inj h).2
    omega
  · exact absurd (h ▸ List.mem_cons_self) (minus_not_mem _)
  · exact absurd (h ▸ List.mem_cons_self) (minus_not_mem _)
  · have := digits_injective h
    omega

/-! ## Position strings -/

private theorem not_isNumeral : ¬ IsNumeral (QChar.of '_') ∧ ¬ IsNumeral (QChar.of ',') ∧
    ¬ IsNumeral (QChar.of ']') := by
  unfold IsNumeral
  decide

/-- An identifier and what follows it can be told apart. -/
theorem identifier_unique {i j : Identifier} {x y : QChar} {u v : QString}
    (h : i.toString ++ x :: u = j.toString ++ y :: v) (hx : ¬ IsNumeral x) (hy : ¬ IsNumeral y) :
    i = j ∧ x = y ∧ u = v := by
  simp only [Identifier.toString, List.append_assoc, List.cons_append, List.nil_append] at h
  obtain ⟨h1, -, h2⟩ := split_unique h (fun _ => isNumeral_of_mem_number) not_isNumeral.1
    (fun _ => isNumeral_of_mem_number) not_isNumeral.1
  obtain ⟨h3, h4, h5⟩ := split_unique h2 (fun _ => isNumeral_of_mem_number) hx
    (fun _ => isNumeral_of_mem_number) hy
  refine ⟨?_, h4, h5⟩
  cases i; cases j
  exact congrArg₂ Identifier.mk (number_injective h1) (number_injective h3)

theorem positionTail_cons (i : Identifier) (p : Position) :
    Symbol.positionTail (i :: p) =
      QChar.of ',' :: QChar.of ' ' :: (i.toString ++ Symbol.positionTail p) := by
  simp [Symbol.positionTail]

/-- A tail starts with a comma or a bracket. -/
theorem exists_positionTail (p : Position) :
    ∃ x u, Symbol.positionTail p = x :: u ∧ ¬ IsNumeral x := by
  cases p with
  | nil => exact ⟨_, _, rfl, not_isNumeral.2.2⟩
  | cons i p => exact ⟨_, _, positionTail_cons i p, not_isNumeral.2.1⟩

theorem positionTail_injective : ∀ {p q : Position},
    Symbol.positionTail p = Symbol.positionTail q → p = q
  | [], [], _ => rfl
  | [], j :: q, h => by
    rw [positionTail_cons] at h
    exact absurd (List.cons.inj h).1 (by decide)
  | i :: p, [], h => by
    rw [positionTail_cons] at h
    exact absurd (List.cons.inj h).1 (by decide)
  | i :: p, j :: q, h => by
    rw [positionTail_cons, positionTail_cons] at h
    have h := (List.cons.inj (List.cons.inj h).2).2
    obtain ⟨x, u, hp, hx⟩ := exists_positionTail p
    obtain ⟨y, v, hq, hy⟩ := exists_positionTail q
    rw [hp, hq] at h
    obtain ⟨rfl, rfl, rfl⟩ := identifier_unique h hx hy
    rw [positionTail_injective (hp.trans hq.symm)]

private theorem keyOf_nil_ne (i : Identifier) (p : Position) :
    Symbol.keyOf [] ≠ Symbol.keyOf (i :: p) := by
  intro h
  have hmem : QChar.of '_' ∈ Symbol.keyOf (i :: p) := by simp [Symbol.keyOf, Identifier.toString]
  rw [← h] at hmem
  exact absurd hmem (by decide)

/-- **Different positions have different strings.** -/
theorem keyOf_injective : Function.Injective Symbol.keyOf := by
  intro p q h
  cases p with
  | nil =>
    cases q with
    | nil => rfl
    | cons j q => exact absurd h (keyOf_nil_ne j q)
  | cons i p =>
    cases q with
    | nil => exact absurd h.symm (keyOf_nil_ne i p)
    | cons j q =>
      simp only [Symbol.keyOf, List.append_assoc] at h
      have h := (List.cons.inj h).2
      obtain ⟨x, u, hp, hx⟩ := exists_positionTail p
      obtain ⟨y, v, hq, hy⟩ := exists_positionTail q
      simp only [hp, hq] at h
      obtain ⟨rfl, rfl, rfl⟩ := identifier_unique h hx hy
      rw [positionTail_injective (hp.trans hq.symm)]

/-! ## The map as a set of symbols -/

namespace SymbolMap

theorem getElem?_insertSymbol (symbols : SymbolMap) (s : Symbol) (k : QString) :
    (symbols.insertSymbol s)[k]? = if k = s.positionString then some s else symbols[k]? :=
  Table.getElem?_insert

theorem getElem?_removeSymbol (symbols : SymbolMap) (s : Symbol) (k : QString) :
    (symbols.removeSymbol s)[k]? = if k = s.positionString then none else symbols[k]? :=
  Table.getElem?_erase

/-- The map holds exactly the symbols with a property, each at its own position. -/
def Contains (symbols : SymbolMap) (P : Symbol → Prop) : Prop :=
  ∀ k s, symbols[k]? = some s ↔ k = s.positionString ∧ P s

variable {symbols : SymbolMap} {P Q : Symbol → Prop}

theorem contains_empty : Contains ∅ fun _ => False := by
  intro k s
  simp

theorem Contains.congr (h : symbols.Contains P) (hpq : ∀ s, P s ↔ Q s) : symbols.Contains Q :=
  fun k s => (h k s).trans (and_congr_right fun _ => hpq s)

theorem Contains.insertSymbol (h : symbols.Contains P) {s : Symbol}
    (hs : ∀ r, P r → r.position ≠ s.position) :
    (symbols.insertSymbol s).Contains fun y => y = s ∨ P y := by
  intro k y
  rw [getElem?_insertSymbol]
  split_ifs with hk
  · refine ⟨fun he => ?_, fun ⟨hy, hor⟩ => ?_⟩
    · obtain rfl := Option.some.inj he
      exact ⟨hk, .inl rfl⟩
    · rcases hor with rfl | hp
      · rfl
      · exact absurd (keyOf_injective (hy.symm.trans hk)) (hs y hp)
  · rw [h k y]
    refine and_congr_right fun hy => (or_iff_right ?_).symm
    rintro rfl
    exact hk hy

theorem Contains.removeSymbol (h : symbols.Contains P) (s : Symbol) :
    (symbols.removeSymbol s).Contains fun y => P y ∧ s.position ≠ y.position := by
  intro k y
  rw [getElem?_removeSymbol]
  split_ifs with hk
  · simp only [false_iff, not_and]
    rintro hy -
    exact not_not.mpr (keyOf_injective (hk.symm.trans hy))
  · rw [h k y]
    refine and_congr_right fun hy => (and_iff_left fun he => hk ?_).symm
    rw [hy, Symbol.positionString, Symbol.positionString, he]

theorem Contains.insertAll (h : symbols.Contains P) {vec : List Symbol}
    (hnd : (vec.map Symbol.position).Nodup) (hs : ∀ s ∈ vec, ∀ r, P r → r.position ≠ s.position) :
    (vec.foldl SymbolMap.insertSymbol symbols).Contains fun y => y ∈ vec ∨ P y := by
  induction vec generalizing symbols P with
  | nil => exact h.congr (by simp)
  | cons s vec ih =>
    rw [List.map_cons, List.nodup_cons] at hnd
    refine (ih (h.insertSymbol (hs s (by simp))) hnd.2 fun r hr y hy => ?_).congr fun y => by
      simp only [List.mem_cons]; tauto
    rcases hy with rfl | hy
    · exact fun he => hnd.1 (he ▸ List.mem_map_of_mem hr)
    · exact hs r (by simp [hr]) y hy

theorem contains_storeSymbols {xs : List Symbol} (hnd : (xs.map Symbol.position).Nodup) :
    (storeSymbolsServerMemory xs).Contains (· ∈ xs) :=
  (contains_empty.insertAll hnd fun _ _ _ h => h.elim).congr fun _ => or_iff_left not_false

theorem Contains.removeAll (h : symbols.Contains P) (vec : List Symbol) :
    (vec.foldl SymbolMap.removeSymbol symbols).Contains
      fun y => P y ∧ ∀ s ∈ vec, s.position ≠ y.position := by
  induction vec generalizing symbols P with
  | nil => exact h.congr (by simp)
  | cons s vec ih =>
    refine (ih (h.removeSymbol s)).congr ?_
    intro y
    simp only [List.forall_mem_cons, and_assoc]

/-- **What an edit stores.** -/
theorem Contains.store (h : symbols.Contains P) {m : Message} (hm : m.IsEdit)
    (hnd : (m.inserted.map Symbol.position).Nodup)
    (hs : ∀ s ∈ m.inserted, ∀ r, P r → r.position ≠ s.position) :
    (symbols.store m).Contains
      fun y => (y ∈ m.inserted ∨ P y) ∧ ∀ s ∈ m.erased, s.position ≠ y.position := by
  cases m with
  | insert s =>
    exact (h.insertSymbol (hs s (by simp [Message.inserted]))).congr fun y => by
      simp [Message.inserted, Message.erased]
  | paste vec =>
    exact (h.insertAll hnd hs).congr fun y => by simp [Message.inserted, Message.erased]
  | erase vec =>
    exact (h.removeAll vec).congr fun y => by simp [Message.inserted, Message.erased]
  | changeSymbol | change | align => exact hm.elim

theorem Contains.mem_values (h : symbols.Contains P) {s : Symbol} : s ∈ symbols.values ↔ P s := by
  have hmem : s ∈ symbols.values ↔ ∃ k : QString, symbols[k]? = some s := by
    simp only [values, List.mem_map, Prod.exists, Table.mem_toList, exists_eq_right]
  simp only [hmem, h _ s, exists_eq_left]

theorem Contains.values_pairwise (h : symbols.Contains P) : symbols.values.Pairwise KeyBefore := by
  have hkey : ∀ e ∈ symbols.toList, e.1 = e.2.positionString := fun e he =>
    ((h e.1 e.2).mp (Table.mem_toList.mp he)).1
  refine List.pairwise_map.mpr (List.Pairwise.imp_of_mem (fun {a b} ha hb hab => ?_)
    (Std.TreeMap.ordered_keys_toList (t := symbols)))
  rw [KeyBefore, ← hkey a ha, ← hkey b hb]
  exact hab

/-- The symbols have different positions. -/
theorem Contains.values_nodup (h : symbols.Contains P) :
    (symbols.values.map Symbol.position).Nodup := by
  refine List.pairwise_map.mpr (h.values_pairwise.imp fun {a b} hab he => ?_)
  have hk : a.positionString = b.positionString := congrArg Symbol.keyOf he
  simp [KeyBefore, hk] at hab

end SymbolMap

end Scriba.Server
