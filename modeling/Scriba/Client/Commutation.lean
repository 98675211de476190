import Mathlib.Data.List.Perm.Basic
import Scriba.Client.RemoteEdits

/-! # Operations on distinct positions commute

Single insertions and erasures, in any order: the document they leave is the sorted
sequence of what is there, cut into lines after each newline. -/

namespace Scriba.Client

open Scriba.Utility Scriba.Lib.Lines

/-- The symbols of `xs`, those of `I` added and those of `E` removed, in the order of their
positions. -/
def merged (xs I E : List Symbol) : List Symbol :=
  ((xs ++ I).filter (· ∉ E)).mergeSort fun a b => a.position ≤ b.position

/-- The merged sequence is the ordered one with the right symbols. -/
theorem eq_merged {xs ys I E : List Symbol} (ho : Ordered ys) (hnd : (xs ++ I).Nodup)
    (h : ∀ y, y ∈ ys ↔ (y ∈ xs ∨ y ∈ I) ∧ y ∉ E) : ys = merged xs I E := by
  have hperm : ys.Perm ((xs ++ I).filter (· ∉ E)) :=
    (List.perm_ext_iff_of_nodup (.of_map _ ho.nodup) (hnd.filter _)).mpr fun y => by
      rw [h y, List.mem_filter, List.mem_append, decide_eq_true_iff]
  have hsort : (merged xs I E).Pairwise fun a b => decide (a.position ≤ b.position) = true :=
    List.pairwise_mergeSort
      (fun a b c hab hbc => decide_eq_true ((of_decide_eq_true hab).trans (of_decide_eq_true hbc)))
      (fun a b => by simpa using le_total a.position b.position) _
  have hle : ys.Pairwise fun a b => decide (a.position ≤ b.position) = true :=
    List.Pairwise.imp (fun hlt => decide_eq_true (le_of_lt hlt)) ho
  refine (hperm.trans (List.mergeSort_perm _ _).symm).eq_of_pairwise (fun a b ha hb hab hba => ?_)
    hle hsort
  refine ho.inj ha ?_ (le_antisymm (of_decide_eq_true hab) (of_decide_eq_true hba))
  exact hperm.mem_iff.mpr (List.mem_mergeSort.mp hb)

/-- One insertion or erasure of a symbol. -/
def Message.Single (m : Message) : Prop := (∃ s, m = .insert s) ∨ ∃ s, m = .erase [s]

/-- What is there after a run of single insertions and erasures of different symbols. -/
theorem handleAll_singles {c : CRDT} {t : Symbol} {ms : List Message} (h : WellFormed c.symbols)
    (ht : c.symbols.flatten.getLast? = some t) (hs : ∀ m ∈ ms, m.Single)
    (hI : ((ms.flatMap Message.inserted).map Symbol.position).Nodup)
    (hfresh : ∀ s ∈ ms.flatMap Message.inserted, ∀ y ∈ c.symbols.flatten,
      s.position ≠ y.position)
    (hlt : ∀ s ∈ ms.flatMap Message.inserted, s.position < t.position)
    (hE : (ms.flatMap Message.erased).Nodup)
    (hmem : ∀ s ∈ ms.flatMap Message.erased, s ∈ c.symbols.flatten)
    (hterm : t ∉ ms.flatMap Message.erased) :
    ∃ c' signals, c.handleAll ms = .ok (c', signals) ∧ WellFormed c'.symbols ∧
      c'.uncounted = c.uncounted ∧ ∀ y, y ∈ c'.symbols.flatten ↔
        (y ∈ c.symbols.flatten ∨ y ∈ ms.flatMap Message.inserted) ∧
          y ∉ ms.flatMap Message.erased := by
  induction ms generalizing c with
  | nil => exact ⟨c, [], rfl, h, rfl, by simp⟩
  | cons m ms ih =>
    rcases hs m (by simp) with ⟨s, rfl⟩ | ⟨s, rfl⟩
    · simp only [List.flatMap_cons, Message.inserted, Message.erased, List.nil_append,
        List.singleton_append, List.map_cons, List.nodup_cons, List.forall_mem_cons] at *
      obtain ⟨ls1, g1, u, v, h1, hins⟩ := handle_insert h ht hfresh.1 hlt.1
      obtain ⟨c', g2, h2, hwf, hu, hy⟩ := ih
        (c := { c with symbols := ls1, size := c.size + 1 }) (hins.wellFormed h)
        (hins.getLast?.trans ht) hs.2 hI.2
        (fun r hr y hy => by
          rcases hins.mem.mp hy with rfl | hy
          · exact fun he => hI.1 (he ▸ List.mem_map_of_mem hr)
          · exact hfresh.2 r hr y hy)
        hlt.2 hE (fun r hr => hins.mem.mpr (.inr (hmem r hr))) hterm
      refine ⟨c', g1 ++ g2, ?_, hwf, hu.trans ?_, fun y => ?_⟩
      · simp only [CRDT.handleAll, h1, h2, bind, Except.bind, pure, Except.pure]
      · have h3 := congrArg List.length hins.old
        have h4 := congrArg List.length hins.new
        simp only [CRDT.uncounted, List.length_append, List.length_cons] at h3 h4 ⊢
        omega
      · rw [hy, hins.mem, List.mem_cons]
        tauto
    · simp only [List.flatMap_cons, Message.inserted, Message.erased, List.nil_append,
        List.singleton_append, List.nodup_cons, List.mem_cons, forall_eq_or_imp, not_or] at *
      have hst := h.ordered.lt_getLast ht hmem.1 (Ne.symm hterm.1)
      obtain ⟨ls1, ps, h1, he⟩ := handle_erase h ht [s] [] (by simp)
        (fun r hr => ⟨s, hmem.1, List.mem_singleton.mp hr ▸ rfl⟩) (by simpa using hst)
        (by simp [Stops])
      rw [List.append_nil] at h1
      -- a position names one symbol
      have hne : ∀ y ∈ c.symbols.flatten, (y ≠ s ↔ s.position ≠ y.position) := fun y hy =>
        ⟨fun hys hp => hys (h.ordered.inj hy hmem.1 hp.symm), fun hp hys => hp (hys ▸ rfl)⟩
      have hmem1 : ∀ y, y ∈ ls1.flatten ↔ y ∈ c.symbols.flatten ∧ y ≠ s := by
        intro y
        rw [he.mem h]
        refine and_congr_right ?_
        intro hy
        simpa using (hne y hy).symm
      obtain ⟨c', g2, h2, hwf, hu, hy⟩ := ih
        (c := { c with symbols := ls1, size := c.size - ([s] : List Symbol).length })
        (he.wellFormed h) (he.getLast?.trans ht) hs.2 hI
        (fun r hr y hy => hfresh r hr y ((hmem1 y).mp hy).1) hlt hE.2
        (fun r hr => (hmem1 r).mpr ⟨hmem.2 r hr, fun hrs => hE.1 (hrs ▸ hr)⟩) hterm.2
      rw [if_pos rfl] at h1
      refine ⟨c', .erase ps.head? ([s] : List Symbol).length :: g2, ?_, hwf, hu.trans ?_,
        fun y => ?_⟩
      · simp only [CRDT.handleAll, h1, h2, bind, Except.bind, pure, Except.pure,
          List.singleton_append]
      · have hlen := he.length
        simp only [CRDT.uncounted, List.length_cons, List.length_nil] at hlen ⊢
        omega
      · rw [hy, hmem1]
        have hfr : y ∈ ms.flatMap Message.inserted → y ≠ s := fun hyI hys =>
          hfresh y hyI s hmem.1 (hys ▸ rfl)
        tauto

/-- **Operations on distinct positions commute.** Whatever their order, the document left is
the sorted sequence, cut after each newline, and `size` counts all of it but the terminator. -/
theorem handleAll_perm {c : CRDT} {t : Symbol} {I E : List Symbol} {ms : List Message}
    (h : WellFormed c.symbols) (hsize : c.size = c.symbols.flatten.length - 1)
    (ht : c.symbols.flatten.getLast? = some t) (hI : (I.map Symbol.position).Nodup)
    (hfresh : ∀ s ∈ I, ∀ y ∈ c.symbols.flatten, s.position ≠ y.position)
    (hlt : ∀ s ∈ I, s.position < t.position) (hE : E.Nodup)
    (hmem : ∀ s ∈ E, s ∈ c.symbols.flatten) (hterm : t ∉ E)
    (hms : ms.Perm (I.map Message.insert ++ E.map fun s => .erase [s])) :
    ∃ c' signals, c.handleAll ms = .ok (c', signals) ∧
      c'.symbols = splitAfter isNewline (merged c.symbols.flatten I E) ∧
      c'.size = (merged c.symbols.flatten I E).length - 1 := by
  have hnil : ∀ l : List Symbol, l.flatMap (fun _ => ([] : List Symbol)) = [] := fun l =>
    List.flatMap_eq_nil_iff.mpr fun _ _ => rfl
  have hins : (ms.flatMap Message.inserted).Perm I := by
    refine (hms.flatMap_right _).trans ?_
    simp [List.flatMap_append, List.flatMap_map, Message.inserted, hnil]
  have hers : (ms.flatMap Message.erased).Perm E := by
    refine (hms.flatMap_right _).trans ?_
    simp [List.flatMap_append, List.flatMap_map, Message.erased, hnil]
  have hsingle : ∀ m ∈ ms, m.Single := by
    intro m hm
    rcases List.mem_append.mp (hms.mem_iff.mp hm) with hm | hm
    · obtain ⟨s, -, rfl⟩ := List.mem_map.mp hm
      exact .inl ⟨s, rfl⟩
    · obtain ⟨s, -, rfl⟩ := List.mem_map.mp hm
      exact .inr ⟨s, rfl⟩
  obtain ⟨c', signals, hok, hwf, hu, hy⟩ := handleAll_singles h ht hsingle
    ((hins.map _).nodup_iff.mpr hI) (fun s hs => hfresh s (hins.mem_iff.mp hs))
    (fun s hs => hlt s (hins.mem_iff.mp hs)) (hers.nodup_iff.mpr hE)
    (fun s hs => hmem s (hers.mem_iff.mp hs)) (fun hs => hterm (hers.mem_iff.mp hs))
  have hflat : c'.symbols.flatten = merged c.symbols.flatten I E := by
    refine eq_merged hwf.ordered ?_ fun y => ?_
    · refine List.nodup_append.mpr ⟨.of_map _ h.ordered.nodup, .of_map _ hI,
        fun y hy s hs hys => ?_⟩
      exact hfresh s hs y hy (hys ▸ rfl)
    · rw [hy, hins.mem_iff, hers.mem_iff]
  refine ⟨c', signals, hok, ?_, ?_⟩
  · rw [← hflat, hwf.layout.splitAfter_flatten]
  · rw [← hflat]
    simp only [CRDT.uncounted] at hu
    omega

/-- A letter and a newline come, and a letter goes, in a document of two symbols. -/
theorem handleAll_perm_three :
    ∃ c' signals,
      (CRDT.opened 2 [[plain (QChar.of 'b') [⟨3, 1⟩], plain QChar.null [⟨9, 1⟩]]]).handleAll
        [.insert (plain QChar.newline [⟨5, 1⟩]), .erase [plain (QChar.of 'b') [⟨3, 1⟩]],
          .insert (plain (QChar.of 'a') [⟨1, 1⟩])] = .ok (c', signals) ∧
      c'.symbols = splitAfter isNewline
        (merged [plain (QChar.of 'b') [⟨3, 1⟩], plain QChar.null [⟨9, 1⟩]]
          [plain (QChar.of 'a') [⟨1, 1⟩], plain QChar.newline [⟨5, 1⟩]]
          [plain (QChar.of 'b') [⟨3, 1⟩]]) ∧
      c'.size = (merged [plain (QChar.of 'b') [⟨3, 1⟩], plain QChar.null [⟨9, 1⟩]]
          [plain (QChar.of 'a') [⟨1, 1⟩], plain QChar.newline [⟨5, 1⟩]]
          [plain (QChar.of 'b') [⟨3, 1⟩]]).length - 1 :=
  handleAll_perm (t := plain QChar.null [⟨9, 1⟩])
    ⟨⟨.last ⟨by decide, by decide⟩, by unfold Ordered; decide⟩, [_], _, rfl, rfl⟩
    rfl rfl (by decide) (by decide) (by decide) (by decide) (by decide) (by decide) (by decide)

end Scriba.Client
