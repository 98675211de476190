import Scriba.Client.Loading
import Scriba.Server.SymbolMap

/-! # Opening a file

The server sends the symbols of a file in the order of their keys, and the client loads them
from the last to the first. The order of decimal strings is not that of the positions, and
which files are loaded as they are (`Loadable`) depends on what it happens to be. -/

namespace Scriba.System

open Scriba.Utility Scriba.Client Scriba.Server Scriba.Lib.Lines

/-- The symbols, as they are sent, load without fault, give the lines, and never make the text
longer than `size`: `on_contentsChange` would take that for an edit of the user. -/
def Opens (siteId : Int) (vec : List Symbol) (ls : Lines) : Prop :=
  (∃ a, (Screen.clear siteId).load vec = .ok a ∧ a.crdt.symbols = ls) ∧
  ∀ s rest, (s :: rest) <:+ vec → ∀ a, (Screen.clear siteId).load (s :: rest) = .ok a →
    a.text.length ≤ a.crdt.size

/-- The largest key is a terminator's. A newline has a key below that of some symbol after it. A
terminator inside a line has the alignment of the line's end, if it is the last one to come
there after it. -/
structure Loadable (xs : List Symbol) : Prop where
  first : ∃ s ∈ xs, s.value = QChar.null ∧ ∀ r ∈ xs, ¬ KeyBefore s r
  newline : ∀ n ∈ xs, n.value = QChar.newline → ∃ r ∈ xs, KeyBefore n r ∧ n.position < r.position
  align : ∀ y ∈ xs, ∀ z ∈ xs, Aligns (sentBefore KeyBefore xs z) z y →
    (∀ z' ∈ xs, Aligns (sentBefore KeyBefore xs z') z' y → ¬ KeyBefore z' z) →
      z.format.align = y.format.align

instance (xs : List Symbol) : Decidable (Loadable xs) :=
  decidable_of_iff ((∃ s ∈ xs, s.value = QChar.null ∧ ∀ r ∈ xs, ¬ KeyBefore s r) ∧
      (∀ n ∈ xs, n.value = QChar.newline → ∃ r ∈ xs, KeyBefore n r ∧ n.position < r.position) ∧
      ∀ y ∈ xs, ∀ z ∈ xs, Aligns (sentBefore KeyBefore xs z) z y →
        (∀ z' ∈ xs, Aligns (sentBefore KeyBefore xs z') z' y → ¬ KeyBefore z' z) →
          z.format.align = y.format.align)
    ⟨fun ⟨first, newline, align⟩ => ⟨first, newline, align⟩,
      fun h => ⟨h.first, h.newline, h.align⟩⟩

section

variable {ls : Lines} {siteId : Int} {vec : List Symbol} {s : Symbol}

/-- In terms of what is sent. -/
theorem loadable_iff {xs : List Symbol} (hmem : ∀ r, r ∈ vec ++ [s] ↔ r ∈ xs)
    (hkey : (vec ++ [s]).Pairwise KeyBefore) :
    Loadable xs ↔ s.value = QChar.null ∧ Awaited (vec ++ [s]) ∧
      ∀ y ∈ vec ++ [s], aligned (vec ++ [s]) y = y := by
  have hlast : ∀ r ∈ xs, ¬ KeyBefore s r := fun r hr => by
    rcases List.mem_append.mp ((hmem r).mpr hr) with hr | hr
    · exact KeyBefore.asymm _ _ ((List.pairwise_append.mp hkey).2.2 r hr s (by simp))
    · exact List.mem_singleton.mp hr ▸ fun h => KeyBefore.asymm _ _ h h
  have hsent : ∀ z y, Aligns (sentBefore KeyBefore xs z) z y ↔
      Aligns (sentBefore KeyBefore (vec ++ [s]) z) z y := fun z y => Aligns.congr fun r => by
    simp only [sentBefore, List.mem_filter, hmem]
  have hfirst : (∃ s ∈ xs, s.value = QChar.null ∧ ∀ r ∈ xs, ¬ KeyBefore s r) ↔
      s.value = QChar.null := by
    refine ⟨?_, fun hn => ⟨s, (hmem s).mp (by simp), hn, hlast⟩⟩
    intro hex
    obtain ⟨t, ht, hn, hmax⟩ := hex
    rcases List.mem_append.mp ((hmem t).mpr ht) with ht' | ht'
    · exact absurd ((List.pairwise_append.mp hkey).2.2 t ht' s (by simp))
        (hmax s ((hmem s).mp (by simp)))
    · exact List.mem_singleton.mp ht' ▸ hn
  rw [awaited_iff hkey KeyBefore.asymm, ← hfirst]
  simp only [aligned_eq_self_iff hkey KeyBefore.asymm, hmem, ← hsent]
  exact ⟨fun h => ⟨h.first, h.newline, h.align⟩, fun h => ⟨h.1, h.2.1, h.2.2⟩⟩

/-- The first symbol to come is counted but not shown exactly if it is a terminator. -/
theorem counts_iff (h : ∃ a, (Screen.clear siteId).load (vec ++ [s]) = .ok a) :
    (∀ r rest, (r :: rest) <:+ vec ++ [s] → ∀ a, (Screen.clear siteId).load (r :: rest) = .ok a →
      a.text.length ≤ a.crdt.size) ↔ s.value = QChar.null := by
  constructor
  · intro hcount
    obtain ⟨a, ha⟩ := exists_load_of_append h
    have hle := hcount s [] (List.suffix_append _ _) a ha
    obtain ⟨hsize, htext⟩ := load_counts ha
    rw [hsize, htext] at hle
    by_contra hn
    simp [Screen.clear, CRDT.clear, hn] at hle
  · rintro hn r rest ⟨pre, hpre⟩ a ha
    have hs : s ∈ r :: rest := by
      refine List.mem_of_getLast? ?_
      have hlast := congrArg List.getLast? hpre
      rwa [List.getLast?_append_of_ne_nil _ (by simp), List.getLast?_concat] at hlast
    have hlt : (r :: rest).countP (fun y => decide (y.value ≠ QChar.null)) < (r :: rest).length :=
      lt_of_le_of_ne List.countP_le_length fun he => by
        simpa [hn] using List.countP_eq_length.mp he s hs
    obtain ⟨hsize, htext⟩ := load_counts ha
    rw [hsize, htext]
    simp only [Screen.clear, CRDT.clear, List.length_nil]
    omega

end

/-- **Opening a file rebuilds it** exactly if it is loadable. -/
theorem opens_iff {ls : Lines} {symbols : SymbolMap} (hd : WellFormed ls)
    (hs : symbols.Contains (· ∈ ls.flatten)) (siteId : Int) :
    Opens siteId symbols.values ls ↔ Loadable ls.flatten := by
  have hmem : ∀ r, r ∈ symbols.values ↔ r ∈ ls.flatten := fun r => hs.mem_values
  have hkey := hs.values_pairwise
  have hnd := hs.values_nodup
  obtain ⟨xs, t, hf, -⟩ := hd.terminated
  generalize symbols.values = vec at hmem hkey hnd
  obtain ⟨vec, s, rfl⟩ := (List.eq_nil_or_concat' vec).resolve_left
    (List.ne_nil_of_mem ((hmem t).mpr (by simp [hf])))
  rw [loadable_iff hmem hkey, Opens]
  constructor
  · intro h
    obtain ⟨⟨a, ha, hls⟩, hcount⟩ := h
    have hn := (counts_iff ⟨a, ha⟩).mp hcount
    have haw := awaited_of_load hn hnd ha
    obtain ⟨a', ha', hl⟩ := exists_load siteId hn hnd haw
    obtain rfl := Except.ok.inj (ha.symm.trans ha')
    exact ⟨hn, haw, (hl.eq_iff hd hmem).mp hls⟩
  · intro h
    obtain ⟨hn, haw, halign⟩ := h
    obtain ⟨a, ha, hl⟩ := exists_load siteId hn hnd haw
    exact ⟨⟨a, ha, (hl.eq_iff hd hmem).mpr halign⟩, (counts_iff ⟨a, ha⟩).mpr hn⟩

/-- A letter in front of the terminator, whose key is the larger one. -/
theorem opens_typed :
    Opens 2 (SymbolMap.storeSymbolsServerMemory
      [plain (QChar.of 'a') [⟨1, 1⟩], plain QChar.null [⟨5, 1⟩]]).values
      [[plain (QChar.of 'a') [⟨1, 1⟩], plain QChar.null [⟨5, 1⟩]]] := by
  have hd : WellFormed [[plain (QChar.of 'a') [⟨1, 1⟩], plain QChar.null [⟨5, 1⟩]]] :=
    ⟨⟨.last ⟨by decide, by decide⟩, by unfold Ordered; decide⟩, [_], _, rfl, rfl⟩
  refine (opens_iff hd (SymbolMap.contains_storeSymbols (by decide)) 2).mpr
    ⟨⟨plain QChar.null [⟨5, 1⟩], by decide, rfl, by decide +kernel⟩, by decide, by decide +kernel⟩

/-- The newline has the larger key here, and comes first. -/
theorem opening_fails : ∃ ls siteId, WellFormed ls ∧
    ¬ Opens siteId (SymbolMap.storeSymbolsServerMemory ls.flatten).values ls := by
  let n := plain QChar.newline [⟨9, 1⟩]
  let t := plain QChar.null [⟨31, 1⟩]
  have hsent : (SymbolMap.storeSymbolsServerMemory [n, t]).values = [t, n] := by decide +kernel
  have hfault : ∃ f, (Screen.clear 1).load [t, n] = .error f := ⟨.outOfRange, by rfl⟩
  refine ⟨[[n], [t]], 1, ⟨⟨.cons ⟨[], n, rfl, by simp, rfl⟩ (.last ⟨by decide, by decide⟩),
    by unfold Ordered; decide⟩, [n], t, rfl, rfl⟩, fun h => ?_⟩
  obtain ⟨⟨a, ha, -⟩, -⟩ := h
  obtain ⟨f, hf⟩ := hfault
  have ha' : (Screen.clear 1).load [t, n] = .ok a := hsent ▸ ha
  exact absurd (ha'.symm.trans hf) (by simp)

end Scriba.System
