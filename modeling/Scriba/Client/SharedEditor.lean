import Mathlib.Data.List.Count
import Scriba.Client.RemoteEdits

/-! # The flat editor

`SharedEditor` of `Resources/CRDT_LSEQ_implementation_in_c++` holds its symbols in one vector. The
lines of `CRDT` refine it: a remote insertion is made at the same offset, and leaves the same
sequence. -/

namespace Scriba.Client

open Scriba.Utility Scriba.Lib.Lines Scriba.Lib.Bisect

/-! ## The editor

Of a symbol the searches read the position only, so its symbols are those of `CRDT`. -/

namespace SharedEditor

/-- A vector accessed out of range, and the two `runtime_error`s. -/
inductive Error where
  | outOfRange
  | nonValidIndex
  | invalidIndex
deriving DecidableEq, Repr

inductive Message where
  | insert (s : Symbol)
  | delete (s : Symbol)

/-- `Symbol::compare` with the symbol at `m`. -/
def compareAt (symbols : List Symbol) (s : Symbol) (m : Int) : Except Error Int :=
  if m < 0 then .error .outOfRange
  else match symbols[m.toNat]? with
    | some x => .ok (Symbol.compare s x)
    | none => .error .outOfRange

def findIndexByPosition (symbols : List Symbol) (s : Symbol) : Except Error Int := do
  match ← search (compareAt symbols s) 0 (symbols.length - 1) with
  | .present m => pure m
  | .missing _ => pure (-1)

def findInsertIndex (symbols : List Symbol) (s : Symbol) : Except Error Int := do
  match ← search (compareAt symbols s) 0 (symbols.length - 1) with
  | .present _ => throw .nonValidIndex
  | .missing l => pure l

def process (symbols : List Symbol) : Message → Except Error (List Symbol)
  | .insert s => do
    let index ← findInsertIndex symbols s
    if index < 0 then throw .invalidIndex
    pure (symbols.insertIdx index.toNat s)
  | .delete s => do
    let index ← findIndexByPosition symbols s
    -- Otherwise already deleted by another site
    if index ≥ 0 then pure (symbols.eraseIdx index.toNat) else pure symbols

end SharedEditor

open SharedEditor

/-! ## What it computes -/

section Flat

variable {u v : List Symbol} {s x : Symbol}

theorem search_compareAt (symbols : List Symbol) (s : Symbol) :
    ∃ o, search (SharedEditor.compareAt symbols s) 0 (symbols.length - 1) = .ok o ∧
      o.Sound (fun i => rank s symbols[i.toNat]?) 0 (symbols.length - 1) := by
  refine search_spec (by omega) ?_
  intro i hi hlt
  have hlen : i.toNat < symbols.length := by omega
  rw [SharedEditor.compareAt, if_neg (by omega), List.getElem?_eq_getElem hlen]
  rfl

/-- Below the split everything is smaller. -/
theorem rank_left (hu : ∀ y ∈ u, y.position < s.position) {i : Nat} (hi : i < u.length) :
    0 < rank s (u ++ v)[i]? := by
  rw [List.getElem?_append_left hi, List.getElem?_eq_getElem hi]
  exact Symbol.compare_gt.mpr (hu _ (List.getElem_mem hi))

theorem rank_right (hv : ∀ y ∈ v, s.position < y.position) {i : Nat} (hi : u.length ≤ i)
    (hlt : i < (u ++ v).length) : rank s (u ++ v)[i]? < 0 := by
  have hlen : i - u.length < v.length := by
    rw [List.length_append] at hlt
    omega
  rw [List.getElem?_append_right hi, List.getElem?_eq_getElem hlen]
  exact Symbol.compare_lt.mpr (hv _ (List.getElem_mem hlen))

/-- An absent symbol is missed at the split where it belongs. -/
theorem search_absent (hu : ∀ y ∈ u, y.position < s.position)
    (hv : ∀ y ∈ v, s.position < y.position) :
    search (SharedEditor.compareAt (u ++ v) s) 0 ((u ++ v).length - 1) =
      .ok (.missing u.length) := by
  obtain ⟨o, ho, hs⟩ := search_compareAt (u ++ v) s
  rw [ho]
  cases o with
  | present m =>
    obtain ⟨h0, hm, hz⟩ : 0 ≤ m ∧ m ≤ (u ++ v).length - 1 ∧ rank s (u ++ v)[m.toNat]? = 0 := hs
    rcases Nat.lt_or_ge m.toNat u.length with hlt | hge
    · have := rank_left (v := v) hu hlt
      omega
    · have := rank_right hv hge (by omega)
      omega
  | missing k =>
    obtain ⟨h0, hk, hbelow, habove⟩ := hs
    beta_reduce at hbelow habove
    have hlen : (u ++ v).length = u.length + v.length := List.length_append
    have hge : u.length ≤ k := by
      by_contra hlt
      have := rank_left (v := v) hu (i := k.toNat) (by omega)
      rcases habove with habove | habove <;> omega
    have hle : k ≤ u.length := by
      by_contra hgt
      have := rank_right (u := u) hv (i := (k - 1).toNat) (by omega) (by omega)
      rcases hbelow with hbelow | hbelow <;> omega
    rw [show k = u.length by omega]

theorem findInsertIndex_eq (hu : ∀ y ∈ u, y.position < s.position)
    (hv : ∀ y ∈ v, s.position < y.position) : findInsertIndex (u ++ v) s = .ok u.length := by
  rw [findInsertIndex, search_absent hu hv]
  rfl

theorem process_insert (hu : ∀ y ∈ u, y.position < s.position)
    (hv : ∀ y ∈ v, s.position < y.position) :
    process (u ++ v) (.insert s) = .ok (u ++ s :: v) := by
  have hneg : ¬ (u.length : Int) < 0 := by omega
  rw [process, findInsertIndex_eq hu hv]
  simp [hneg, insertIdx_append, bind, Except.bind, pure, Except.pure]

/-- A symbol that is there is found. -/
theorem search_present (hu : ∀ y ∈ u, y.position < s.position) (hs : s.position = x.position)
    (hv : ∀ y ∈ v, s.position < y.position) :
    search (SharedEditor.compareAt (u ++ x :: v) s) 0 ((u ++ x :: v).length - 1) =
      .ok (.present u.length) := by
  have hlen : (u ++ [x]).length = u.length + 1 := List.length_append
  have hx : rank s (u ++ x :: v)[u.length]? = 0 := by simpa [rank] using Symbol.compare_eq.mpr hs
  have hright : ∀ i, u.length + 1 ≤ i → i < (u ++ x :: v).length →
      rank s (u ++ x :: v)[i]? < 0 := by
    intro i hi hlt
    have := rank_right (u := u ++ [x]) hv (hlen ▸ hi) (by simpa using hlt)
    simpa using this
  obtain ⟨o, ho, hsound⟩ := search_compareAt (u ++ x :: v) s
  rw [ho]
  cases o with
  | present m =>
    obtain ⟨h0, hm, hz⟩ : 0 ≤ m ∧ m ≤ (u ++ x :: v).length - 1 ∧
      rank s (u ++ x :: v)[m.toNat]? = 0 := hsound
    rcases Nat.lt_trichotomy m.toNat u.length with hlt | he | hgt
    · have := rank_left (v := x :: v) hu hlt
      omega
    · rw [show m = u.length by omega]
    · have := hright m.toNat hgt (by omega)
      omega
  | missing k =>
    obtain ⟨h0, hk, hbelow, habove⟩ := hsound
    beta_reduce at hbelow habove
    have hlength : (u ++ x :: v).length = u.length + (v.length + 1) := List.length_append
    rcases Int.lt_trichotomy k u.length with hlt | rfl | hgt
    · have := rank_left (v := x :: v) hu (i := k.toNat) (by omega)
      rcases habove with habove | habove <;> omega
    · simp only [Int.toNat_natCast, hx] at habove
      omega
    · rcases hbelow with hbelow | hbelow
      · omega
      · rcases Int.lt_or_eq_of_le (Int.le_sub_one_of_lt hgt) with hlt | he
        · have := hright (k - 1).toNat (by omega) (by omega)
          omega
        · rw [← he, Int.toNat_natCast, hx] at hbelow
          omega

/-- A deletion removes the symbol at the position, if there is one, and nothing else. -/
theorem process_delete {symbols : List Symbol} (h : Ordered symbols) (s : Symbol) :
    process symbols (.delete s) =
      .ok (symbols.filter fun y => y.position ≠ s.position) := by
  have hkeep : ∀ {xs : List Symbol}, (∀ y ∈ xs, y.position ≠ s.position) →
      (xs.filter fun y => y.position ≠ s.position) = xs := fun hne =>
    List.filter_eq_self.mpr fun y hy => decide_eq_true (hne y hy)
  have habsent : ∀ {u v : List Symbol}, (∀ y ∈ u, y.position < s.position) →
      (∀ y ∈ v, s.position < y.position) → process (u ++ v) (.delete s) =
        .ok ((u ++ v).filter fun y => y.position ≠ s.position) := by
    intro u v hu hv
    have hne : ∀ y ∈ u ++ v, y.position ≠ s.position := fun y hy =>
      (List.mem_append.mp hy).elim (fun hy => (hu y hy).ne) fun hy => (hv y hy).ne'
    rw [process, findIndexByPosition, search_absent hu hv, hkeep hne]
    rfl
  by_cases hbound : ∃ t ∈ symbols, s.position ≤ t.position
  · obtain ⟨u, x, v, rfl, hu, hle⟩ := exists_bound hbound
    have hv := (Ordered.cons.mp (Ordered.append.mp h).2.1).1
    rcases hle.lt_or_eq with hlt | he
    · refine habsent hu ?_
      intro y hy
      rcases List.mem_cons.mp hy with rfl | hy
      · exact hlt
      · exact hlt.trans (hv y hy)
    · have hright : ∀ y ∈ v, s.position < y.position := fun y hy => he ▸ hv y hy
      have hnonneg : (u.length : Int) ≥ 0 := by omega
      have hu' := hkeep fun y hy => (hu y hy).ne
      have hv' := hkeep fun y hy => (hright y hy).ne'
      rw [process, findIndexByPosition, search_present hu he hright, List.filter_append, hu',
        List.filter_cons_of_neg (by simp [he]), hv']
      simp [hnonneg, List.eraseIdx_append_of_length_le, bind, Except.bind, pure, Except.pure]
  · have hall : ∀ y ∈ symbols, y.position < s.position := fun y hy =>
      lt_of_not_ge fun hle => hbound ⟨y, hy, hle⟩
    have := habsent hall (v := []) (by simp)
    rwa [List.append_nil] at this

end Flat

/-! ## The refinement -/

/-- **The lines refine the flat editor.** -/
theorem insert_refines {ls : Lines} (h : WellFormed ls) {s t : Symbol}
    (ht : ls.flatten.getLast? = some t) (hst : s.position < t.position)
    (hs : ∀ y ∈ ls.flatten, y.position ≠ s.position) :
    ∃ line index ls', findInsertPosition ls s = .ok (line, index) ∧ Existing ls line index ∧
      insertChar ls s line index = .ok ls' ∧ WellFormed ls' ∧
      offset ls line index = ls.flatten.countP (fun y => y.position < s.position) ∧
      findInsertIndex ls.flatten s = .ok (offset ls line index) ∧
      ls'.flatten = ls.flatten.insertIdx (offset ls line index) s ∧
      process ls.flatten (.insert s) = .ok ls'.flatten := by
  obtain ⟨u, x, v, hf, hu, hle⟩ := exists_bound ⟨t, List.mem_of_getLast? ht, hst.le⟩
  have hsx : s.position < x.position :=
    lt_of_le_of_ne hle fun he => hs x (by simp [hf]) he.symm
  obtain ⟨c, hcb, hca⟩ := h.layout.exists_cursor hf
  obtain ⟨ls', hinsert, e⟩ := insertChar_spec c h.toArranged (fun y hy => hu y (hcb ▸ hy)) hsx
  rw [hcb, hca] at e
  have hoffset : offset ls (place u).1 (place u).2 = u.length := (offset_eq c).trans (by rw [hcb])
  have hcount : ls.flatten.countP (fun y => y.position < s.position) = u.length := by
    have hafter : (x :: v).countP (fun y => y.position < s.position) = 0 :=
      List.countP_eq_zero.mpr fun y hy => by simpa using (e.upper y hy).le
    have hbefore : u.countP (fun y => y.position < s.position) = u.length :=
      List.countP_eq_length.mpr fun y hy => by simpa using hu y hy
    rw [hf, List.countP_append, hbefore, hafter, Nat.add_zero]
  refine ⟨(place u).1, (place u).2, ls', findInsertPosition_eq h.toArranged hf hu hle, ?_, hinsert,
    e.wellFormed h, ?_, ?_, ?_, ?_⟩
  · exact ⟨_, c.getElem?_line, (List.getElem?_eq_some_iff.mp c.getElem?_index).1⟩
  · rw [hoffset, hcount]
  · rw [hoffset, e.old, findInsertIndex_eq hu e.upper]
  · rw [hoffset, e.old, insertIdx_append, e.new]
  · rw [e.old, process_insert hu e.upper, e.new]

/-- A newline between the letters of a line. -/
theorem insert_refines_newline :
    let ls := [[plain (QChar.of 'a') [⟨1, 1⟩], plain QChar.newline [⟨3, 1⟩]],
      [plain (QChar.of 'b') [⟨5, 1⟩], plain QChar.null [⟨9, 1⟩]]]
    let s := plain QChar.newline [⟨7, 1⟩]
    ∃ line index ls', findInsertPosition ls s = .ok (line, index) ∧ Existing ls line index ∧
      insertChar ls s line index = .ok ls' ∧ WellFormed ls' ∧
      offset ls line index = ls.flatten.countP (fun y => y.position < s.position) ∧
      findInsertIndex ls.flatten s = .ok (offset ls line index) ∧
      ls'.flatten = ls.flatten.insertIdx (offset ls line index) s ∧
      process ls.flatten (.insert s) = .ok ls'.flatten := by
  intro ls s
  have hlayout : Layout isNewline ls :=
    .cons ⟨[_], _, rfl, by decide, by decide⟩ (.last ⟨by decide, by decide⟩)
  have h : WellFormed ls := ⟨⟨hlayout, by unfold Ordered; decide⟩, [_, _, _], _, rfl, rfl⟩
  exact insert_refines h (t := plain QChar.null [⟨9, 1⟩]) rfl (by decide) (by decide)

end Scriba.Client
