import Scriba.Client.Document

/-! # What the searches find

`findPosition` and `findInsertPosition` bisect the lines by their last symbols, then one
line. Both look for the first symbol that is not below the one they are given
(`AtLowerBound`). `findInsertPosition` points to it; `findPosition` points to it when the
positions agree, and to index 0 of its line when they do not. -/

namespace Scriba.Client

open Scriba.Utility Scriba.Lib.Lines Scriba.Lib.Bisect

/-- What the searches rely on. -/
structure Searchable (ls : Lines) : Prop where
  ne_nil : ls ≠ []
  line_ne_nil : ∀ l ∈ ls, l ≠ []
  ordered : Ordered ls.flatten

theorem Arranged.searchable {ls : Lines} (h : Arranged ls) : Searchable ls :=
  ⟨h.layout.ne_nil, h.layout.line_ne_nil, h.ordered⟩

/-- The cursor stands at the first symbol that is not below `p`. -/
structure AtLowerBound (p : Position) {ls : Lines} {line index : Nat} {x : Symbol}
    (c : Cursor ls line index x) : Prop where
  before : ∀ y ∈ c.before, y.position < p
  le : p ≤ x.position

/-! ## One line -/

/-- `Symbol::compare(s, x)` where there is an `x`. -/
def rank (s : Symbol) (x : Option Symbol) : Int := (x.map (Symbol.compare s)).getD 0

theorem compareAt_eq {l : List Symbol} (s : Symbol) {i : Nat} (hi : i < l.length) :
    compareAt l s i = .ok (rank s l[i]?) := by
  simp [compareAt, QVector.get, rank, hi, bind, Except.bind, pure, Except.pure]

theorem strictlySorted_rank {l : List Symbol} (ho : Ordered l) (s : Symbol) :
    StrictlySorted (fun i => rank s l[i]?) 0 (l.length - 1) := by
  intro i j _ hij hj hle
  have hj' : j < l.length := by omega
  have hi' : i < l.length := by omega
  simp only [rank, hi', hj', List.getElem?_eq_getElem, Option.map_some, Option.getD_some,
    Symbol.compare_le, Symbol.compare_lt] at hle ⊢
  exact lt_of_le_of_lt hle (List.pairwise_iff_getElem.mp ho i j hi' hj' hij)

/-- A lower bound in a line opens the line at a symbol. -/
theorem exists_split {l : List Symbol} {s : Symbol} {i : Nat} (hi : i ≤ l.length - 1)
    (hne : l ≠ []) (h : IsLowerBound (fun i => rank s l[i]?) 0 i) :
    ∃ a x b, l = a ++ x :: b ∧ a.length = i ∧ (∀ y ∈ a, y.position < s.position) ∧
      s.position ≤ x.position := by
  have hlen : i < l.length := by
    have := List.length_pos_iff.mpr hne
    omega
  refine ⟨l.take i, l[i], l.drop (i + 1), ?_, List.length_take_of_le hlen.le, ?_, ?_⟩
  · rw [← List.drop_eq_getElem_cons hlen, List.take_append_drop]
  · intro y hy
    obtain ⟨j, hj, rfl⟩ := List.mem_iff_getElem.mp hy
    have hj' : j < i := by simpa [hlen.le] using hj
    have := h.1 j (Nat.zero_le j) hj'
    simpa [rank, Nat.lt_trans hj' hlen, Symbol.compare_gt] using this
  · have := h.2
    simpa [rank, hlen, Symbol.compare_le] using this

section Line

variable {l : List Symbol} {s : Symbol}

/-- The bisection of a line both index searches run. -/
private theorem bisect_line (hne : l ≠ []) (ho : Ordered l) (hr : rank s l.getLast? ≤ 0) :
    ∃ o, bisect (compareAt l s) 0 (l.length - 1) = .ok o ∧
      o.Lower (fun i => rank s l[i]?) 0 (l.length - 1) := by
  have hlen := List.length_pos_iff.mpr hne
  have hcmp : ∀ i, 0 ≤ i → i ≤ l.length - 1 → compareAt l s i = .ok (rank s l[i]?) :=
    fun i _ hi => compareAt_eq s (by omega)
  obtain ⟨o, hb, hs⟩ := bisect_spec (Nat.zero_le (l.length - 1)) hcmp
  rw [List.getLast?_eq_getElem?] at hr
  exact ⟨o, hb, hs.lower (strictlySorted_rank ho s) hr⟩

theorem findInsertIndexInLine_spec (ls : Lines) (hne : l ≠ []) (ho : Ordered l)
    (hr : rank s l.getLast? ≤ 0) :
    ∃ i, findInsertIndexInLine ls s l = .ok i ∧ i ≤ l.length - 1 ∧
      IsLowerBound (fun i => rank s l[i]?) 0 i := by
  have hlen := List.length_pos_iff.mpr hne
  simp only [findInsertIndexInLine, hlen.ne', if_false, compareAt_eq s hlen,
    compareAt_eq s (show l.length - 1 < l.length by omega), ← List.getLast?_eq_getElem?, bind,
    Except.bind, pure, Except.pure]
  by_cases h0 : rank s l[0]? < 0
  · exact ⟨0, by simp [h0], Nat.zero_le _, .of_le h0.le⟩
  simp only [h0, if_false, not_lt.mpr hr]
  obtain ⟨o, hb, hs⟩ := bisect_line hne ho hr
  rw [hb]
  cases o with
  | found mid => exact ⟨mid, rfl, hs.1, hs.2.2⟩
  | between left right =>
    have hbound := hs.right (not_lt.mp h0)
    obtain ⟨h1, h2, h3, -⟩ := hs
    simp only [compareAt_eq s (show left < l.length by omega)]
    by_cases hz : rank s l[left]? = 0
    · obtain rfl := h3 hz.le
      exact ⟨0, by simp [hz], h1, .of_le hz.le⟩
    · exact ⟨right, by simp [hz], h2, hbound hz⟩

/-- `findIndexInLine` gives the index of a symbol that is in the line, and 0 otherwise. -/
theorem findIndexInLine_spec (ls : Lines) (hne : l ≠ []) (ho : Ordered l)
    (hr : rank s l.getLast? ≤ 0) :
    ∃ i, findIndexInLine ls s l = .ok (if rank s l[i]? = 0 then i else 0) ∧ i ≤ l.length - 1 ∧
      IsLowerBound (fun i => rank s l[i]?) 0 i := by
  have hlen := List.length_pos_iff.mpr hne
  simp only [findIndexInLine, hlen.ne', if_false, compareAt_eq s hlen,
    compareAt_eq s (show l.length - 1 < l.length by omega), ← List.getLast?_eq_getElem?, bind,
    Except.bind, pure, Except.pure]
  by_cases h0 : rank s l[0]? < 0
  · exact ⟨0, by simp [h0], Nat.zero_le _, .of_le h0.le⟩
  simp only [h0, if_false, not_lt.mpr hr]
  obtain ⟨o, hb, hs⟩ := bisect_line hne ho hr
  rw [hb]
  cases o with
  | found mid => exact ⟨mid, by simp [hs.2.1], hs.1, hs.2.2⟩
  | between left right =>
    have hbound := hs.right (not_lt.mp h0)
    obtain ⟨h1, h2, h3, -⟩ := hs
    simp only [compareAt_eq s (show left < l.length by omega),
      compareAt_eq s (show right < l.length by omega)]
    by_cases hz : rank s l[left]? = 0
    · obtain rfl := h3 hz.le
      exact ⟨0, by simp [hz], h1, .of_le hz.le⟩
    · refine ⟨right, ?_, h2, hbound hz⟩
      by_cases hz' : rank s l[right]? = 0 <;> simp [hz, hz']

end Line

/-! ## The lines -/

/-- `Symbol::compare(s, lastChar)` for the last symbol of line `i`. -/
def lineRank (ls : Lines) (s : Symbol) (i : Nat) : Int := rank s (ls[i]?.bind List.getLast?)

theorem lastSymbol_eq {l : List Symbol} {t : Symbol} (h : l.getLast? = some t) :
    lastSymbol l = .ok t := by
  rw [lastSymbol, QVector.get_eq_ok, ← List.getLast?_eq_getElem?, h]

/-- The line of the first symbol that is not below `s`. -/
def LineBound (ls : Lines) (s : Symbol) (line : Nat) (l : List Symbol) : Prop :=
  ∃ above below, ls = above ++ l :: below ∧ above.length = line ∧
    (∀ y ∈ above.flatten, y.position < s.position) ∧ rank s l.getLast? ≤ 0

theorem LineBound.getElem?_eq {ls : Lines} {s : Symbol} {line : Nat} {l : List Symbol}
    (h : LineBound ls s line l) : ls[line]? = some l := by
  obtain ⟨above, below, rfl, rfl, -, -⟩ := h
  simp

theorem LineBound.mem {ls : Lines} {s : Symbol} {line : Nat} {l : List Symbol}
    (h : LineBound ls s line l) : l ∈ ls :=
  List.mem_of_getElem? h.getElem?_eq

/-- The last symbol of the line is not below. -/
theorem LineBound.last {ls : Lines} {s : Symbol} {line : Nat} {l : List Symbol}
    (h : LineBound ls s line l) : rank s l.getLast? ≤ 0 := by
  obtain ⟨-, -, -, -, -, hlast⟩ := h
  exact hlast

namespace Searchable

variable {ls : Lines} {s : Symbol}

/-- A line and its last symbol. -/
theorem exists_last (h : Searchable ls) {i : Nat} (hi : i < ls.length) :
    ∃ l t, ls[i]? = some l ∧ l.getLast? = some t ∧ l ∈ ls := by
  have hmem := List.getElem_mem hi
  obtain ⟨t, ht⟩ := Option.isSome_iff_exists.mp
    (List.getLast?_isSome.mpr (h.line_ne_nil _ hmem))
  exact ⟨ls[i], t, List.getElem?_eq_getElem hi, ht, hmem⟩

theorem compareLast_eq (h : Searchable ls) (s : Symbol) {i : Nat} (hi : i < ls.length) :
    compareLast ls s i = .ok (lineRank ls s i) := by
  obtain ⟨l, t, hl, ht, -⟩ := h.exists_last hi
  simp [compareLast, QVector.get_eq_ok.mpr hl, lastSymbol_eq ht, lineRank, hl, ht, rank, bind,
    Except.bind, pure, Except.pure]

/-- Symbols of an earlier line are below those of a later one. -/
theorem lines_lt (h : Searchable ls) :
    ls.Pairwise fun l m => ∀ x ∈ l, ∀ y ∈ m, x.position < y.position :=
  (List.pairwise_flatten.mp h.ordered).2

theorem line_ordered (h : Searchable ls) {l : List Symbol} (hl : l ∈ ls) : Ordered l :=
  (List.pairwise_flatten.mp h.ordered).1 l hl

theorem strictlySorted_lineRank (h : Searchable ls) (s : Symbol) :
    StrictlySorted (lineRank ls s) 0 (ls.length - 1) := by
  intro i j _ hij hj hle
  have hj' : j < ls.length := by omega
  obtain ⟨l, t, hl, ht, -⟩ := h.exists_last (Nat.lt_trans hij hj')
  obtain ⟨m, u, hm, hu, -⟩ := h.exists_last hj'
  simp only [lineRank, hl, ht, hm, hu, Option.bind_some, rank, Option.map_some, Option.getD_some,
    Symbol.compare_le, Symbol.compare_lt] at hle ⊢
  obtain ⟨hi, rfl⟩ := List.getElem?_eq_some_iff.mp hl
  obtain ⟨hj, rfl⟩ := List.getElem?_eq_some_iff.mp hm
  exact lt_of_le_of_lt hle (List.pairwise_iff_getElem.mp h.lines_lt i j hi hj hij t
    (List.mem_of_getLast? ht) u (List.mem_of_getLast? hu))

/-- The line of a lower bound. -/
theorem lineBound (h : Searchable ls) {i : Nat} (hi : i ≤ ls.length - 1)
    (hb : IsLowerBound (lineRank ls s) 0 i) : ∃ l, LineBound ls s i l := by
  have hlen : i < ls.length := by
    have := List.length_pos_iff.mpr h.ne_nil
    omega
  refine ⟨ls[i], ls.take i, ls.drop (i + 1), ?_, List.length_take_of_le hlen.le, ?_, ?_⟩
  · rw [← List.drop_eq_getElem_cons hlen, List.take_append_drop]
  · intro y hy
    obtain ⟨m, hm, hy⟩ := List.mem_flatten.mp hy
    obtain ⟨j, hj, rfl⟩ := List.mem_iff_getElem.mp hm
    have hji : j < i := by simpa [hlen.le] using hj
    have hjl := Nat.lt_trans hji hlen
    obtain ⟨l, t, hl, ht, hmem⟩ := h.exists_last hjl
    obtain rfl : ls[j] = l := by simpa [hjl] using hl
    rw [List.getElem_take] at hy
    have hlt := hb.1 j (Nat.zero_le j) hji
    simp only [lineRank, hl, ht, Option.bind_some, rank, Option.map_some, Option.getD_some,
      Symbol.compare_gt] at hlt
    -- the last symbol of a line is its largest
    obtain ⟨a, ha⟩ := List.getLast?_eq_some_iff.mp ht
    have ho := h.line_ordered hmem
    rw [ha] at ho hy
    rcases List.mem_append.mp hy with hy | hy
    · exact ((Ordered.append.mp ho).2.2 y hy t (by simp)).trans hlt
    · rwa [List.mem_singleton.mp hy]
  · simpa [lineRank, hlen] using hb.2

/-- A lower bound in the line of a lower bound is one in the document. -/
theorem exists_lowerBound (h : Searchable ls) {l : List Symbol} {line i : Nat}
    (hl : LineBound ls s line l) (hi : i ≤ l.length - 1)
    (hb : IsLowerBound (fun i => rank s l[i]?) 0 i) :
    ∃ x, ∃ c : Cursor ls line i x, AtLowerBound s.position c ∧ l[i]? = some x := by
  obtain ⟨above, below, hls, rfl, ha, -⟩ := hl
  have hl : l ∈ ls := by simp [hls]
  obtain ⟨a, x, b, rfl, rfl, hlt, hle⟩ := exists_split hi (h.line_ne_nil l hl) hb
  refine ⟨x, ⟨above, a, b, below, hls, rfl, rfl⟩, ⟨fun y hy => ?_, hle⟩, by simp⟩
  rcases List.mem_append.mp hy with hy | hy
  · exact ha y hy
  · exact hlt y hy

/-- The bisection of the lines both searches run. -/
theorem bisect_lines (h : Searchable ls) (hr : lineRank ls s (ls.length - 1) ≤ 0) :
    ∃ o, bisect (compareLast ls s) 0 (ls.length - 1) = .ok o ∧
      match o with
      | .found mid => ∃ l, QVector.get ls mid = .ok l ∧ LineBound ls s mid l ∧
          rank s l.getLast? = 0
      | .between lo hi => ∃ l m t u, QVector.get ls lo = .ok l ∧ QVector.get ls hi = .ok m ∧
          lastSymbol l = .ok t ∧ lastSymbol m = .ok u ∧
          (Symbol.compare s t ≤ 0 → LineBound ls s lo l) ∧
          (0 < Symbol.compare s t → LineBound ls s hi m) := by
  have hpos := List.length_pos_iff.mpr h.ne_nil
  have hcmp : ∀ i, 0 ≤ i → i ≤ ls.length - 1 → compareLast ls s i = .ok (lineRank ls s i) :=
    fun i _ hi => h.compareLast_eq s (by omega)
  obtain ⟨o, hb, hsound⟩ := bisect_spec (Nat.zero_le (ls.length - 1)) hcmp
  have hlow := hsound.lower (h.strictlySorted_lineRank s) hr
  refine ⟨o, hb, ?_⟩
  cases o with
  | found mid =>
    obtain ⟨h1, h2, h3⟩ := hlow
    obtain ⟨l, hl⟩ := h.lineBound h1 h3
    have hget := hl.getElem?_eq
    refine ⟨l, QVector.get_eq_ok.mpr hget, hl, ?_⟩
    simpa [lineRank, hget] using h2
  | between lo hi =>
    obtain ⟨h1, h2, h3, h4⟩ := hlow
    obtain ⟨l, t, hl, ht, -⟩ := h.exists_last (show lo < ls.length by omega)
    obtain ⟨m, u, hm, hu, -⟩ := h.exists_last (show hi < ls.length by omega)
    have hrank : lineRank ls s lo = Symbol.compare s t := by simp [lineRank, hl, ht, rank]
    refine ⟨l, m, t, u, QVector.get_eq_ok.mpr hl, QVector.get_eq_ok.mpr hm, lastSymbol_eq ht,
      lastSymbol_eq hu, fun hle => ?_, fun hlt => ?_⟩
    · obtain rfl := h3 (hrank ▸ hle)
      obtain ⟨l', hl'⟩ := h.lineBound h1 (.of_le (hrank ▸ hle))
      obtain rfl : l = l' := Option.some.inj (hl.symm.trans hl'.getElem?_eq)
      exact hl'
    · obtain ⟨m', hm'⟩ := h.lineBound h2 (h4 (hrank ▸ hlt))
      obtain rfl : m = m' := Option.some.inj (hm.symm.trans hm'.getElem?_eq)
      exact hm'

/-- The first and the last symbol, as the searches read them. -/
theorem exists_ends (h : Searchable ls) :
    ∃ firstLine lastLine x0 t, QVector.get ls 0 = .ok firstLine ∧
      QVector.get ls (ls.length - 1) = .ok lastLine ∧ firstLine[0]? = some x0 ∧
      lastSymbol lastLine = .ok t ∧ ls.flatten.head? = some x0 ∧
      ls.flatten.getLast? = some t ∧ lineRank ls s (ls.length - 1) = Symbol.compare s t := by
  obtain ⟨l, t, hl, ht, hmem⟩ :=
    h.exists_last (i := ls.length - 1) (by have := List.length_pos_iff.mpr h.ne_nil; omega)
  cases ls with
  | nil => exact absurd rfl h.ne_nil
  | cons l0 ls =>
    cases l0 with
    | nil => exact absurd rfl (h.line_ne_nil [] (by simp))
    | cons x0 l0 =>
      refine ⟨x0 :: l0, l, x0, t, rfl, QVector.get_eq_ok.mpr hl, rfl, lastSymbol_eq ht, rfl, ?_, ?_⟩
      · obtain ⟨a, ha⟩ := List.getLast?_eq_some_iff.mp
          (List.getLast?_eq_getElem?.trans hl)
        obtain ⟨b, rfl⟩ := List.getLast?_eq_some_iff.mp ht
        rw [ha]
        simp [← List.append_assoc]
      · simp only [lineRank, hl, ht, Option.bind_some, rank, Option.map_some, Option.getD_some]

end Searchable

section Searches

variable {ls : Lines} {s x0 t : Symbol}

private theorem compareAt_first {l : List Symbol} (h : l[0]? = some x0) :
    compareAt l s 0 = .ok (Symbol.compare s x0) := by
  simp [compareAt, QVector.get_eq_ok.mpr h, bind, Except.bind, pure, Except.pure]

private theorem ne_single {l : List Symbol} (h : l[0]? = some x0) :
    ¬ (ls.length = 1 ∧ l.length = 0) := by
  intro hex
  obtain ⟨-, hl⟩ := hex
  rw [List.length_eq_zero_iff.mp hl] at h
  cases h

/-- A symbol at the end of its line that compares equal is at the lower bound. -/
private theorem lowerBound_last (h : Searchable ls) {l : List Symbol} {line : Nat}
    (hl : LineBound ls s line l) (hz : rank s l.getLast? = 0) :
    ∃ x, ∃ c : Cursor ls line (l.length - 1) x, AtLowerBound s.position c ∧
      s.position = x.position := by
  have hz' : rank s l[l.length - 1]? = 0 := by rwa [← List.getLast?_eq_getElem?]
  obtain ⟨x, c, hc, hx⟩ := h.exists_lowerBound hl (Nat.le_refl _)
    (.of_zero (strictlySorted_rank (h.line_ordered hl.mem) s) (Nat.le_refl _) hz')
  refine ⟨x, c, hc, ?_⟩
  rw [hx] at hz'
  exact Symbol.compare_eq.mp hz'

theorem findPosition_of_lt (h : Searchable ls) (h0 : ls.flatten.head? = some x0)
    (hs : s.position < x0.position) : findPosition ls s = .ok none := by
  obtain ⟨l0, lm, x0', t, hg0, hgm, hx0, -, hx0', -, -⟩ := h.exists_ends (s := s)
  obtain rfl : x0 = x0' := Option.some.inj (h0.symm.trans hx0')
  have hlt : Symbol.compare s x0 < 0 := Symbol.compare_lt.mpr hs
  simp [findPosition, hg0, hgm, compareAt_first hx0, hlt, bind, Except.bind, pure, Except.pure]

theorem findPosition_of_gt (h : Searchable ls) (ht : ls.flatten.getLast? = some t)
    (hs : t.position < s.position) : findPosition ls s = .ok none := by
  obtain ⟨l0, lm, x0, t', hg0, hgm, hx0, hm, -, ht', -⟩ := h.exists_ends (s := s)
  obtain rfl : t = t' := Option.some.inj (ht.symm.trans ht')
  have hgt : 0 < Symbol.compare s t := Symbol.compare_gt.mpr hs
  simp [findPosition, hg0, hgm, compareAt_first hx0, hm, hgt, bind, Except.bind, pure,
    Except.pure]

/-- **`findPosition`** within the document: the line of the first symbol that is not below,
and its index there if it is the symbol looked for. -/
theorem findPosition_spec (h : Searchable ls) (h0 : ls.flatten.head? = some x0)
    (ht : ls.flatten.getLast? = some t) (hs0 : x0.position ≤ s.position)
    (hst : s.position ≤ t.position) :
    ∃ line index x, ∃ c : Cursor ls line index x, AtLowerBound s.position c ∧
      findPosition ls s = .ok (some (line, if s.position = x.position then index else 0)) := by
  obtain ⟨l0, lm, x0', t', hg0, hgm, hx0, hm, hx0', ht', hr⟩ := h.exists_ends (s := s)
  obtain rfl : x0 = x0' := Option.some.inj (h0.symm.trans hx0')
  obtain rfl : t = t' := Option.some.inj (ht.symm.trans ht')
  have hge : ¬ Symbol.compare s x0 < 0 := by rwa [Symbol.compare_lt, not_lt]
  have hle : Symbol.compare s t ≤ 0 := Symbol.compare_le.mpr hst
  obtain ⟨o, hb, ho⟩ := h.bisect_lines (hr ▸ hle)
  simp only [findPosition, hg0, hgm, compareAt_first hx0, ne_single hx0, hge, hm, not_lt.mpr hle,
    hb, if_false, bind, Except.bind, pure, Except.pure]
  -- the index search in the line that was chosen
  have hline : ∀ {l line}, LineBound ls s line l → ∃ i x, ∃ c : Cursor ls line i x,
      AtLowerBound s.position c ∧
        findIndexInLine ls s l = .ok (if s.position = x.position then i else 0) := by
    intro l line hl
    obtain ⟨i, hi, hile, hlb⟩ :=
      findIndexInLine_spec ls (h.line_ne_nil l hl.mem) (h.line_ordered hl.mem) hl.last
    obtain ⟨x, c, hc, hx⟩ := h.exists_lowerBound hl hile hlb
    refine ⟨i, x, c, hc, ?_⟩
    rw [hi, hx]
    simp [rank, Symbol.compare_eq]
  cases o with
  | found mid =>
    obtain ⟨l, hl, hlb, hz⟩ := ho
    obtain ⟨x, c, hc, hx⟩ := lowerBound_last h hlb hz
    exact ⟨mid, _, x, c, hc, by simp [hl, hx]⟩
  | between lo hi =>
    obtain ⟨l, m, t, u, hl, hm, ht, hu, h1, h2⟩ := ho
    simp only [hl, hm, ht, hu]
    by_cases hc : Symbol.compare s t ≤ 0
    · obtain ⟨i, x, c, hlb, hf⟩ := hline (h1 hc)
      exact ⟨lo, i, x, c, hlb, by simp [hc, hf]⟩
    · obtain ⟨i, x, c, hlb, hf⟩ := hline (h2 (lt_of_not_ge hc))
      exact ⟨hi, i, x, c, hlb, by simp [hc, hf]⟩

/-- **`findInsertPosition`** below the last symbol: the first symbol that is not below. -/
theorem findInsertPosition_spec (h : Searchable ls) (ht : ls.flatten.getLast? = some t)
    (hst : s.position ≤ t.position) :
    ∃ line index x, ∃ c : Cursor ls line index x, AtLowerBound s.position c ∧
      findInsertPosition ls s = .ok (line, index) := by
  obtain ⟨l0, lm, x0, t', hg0, hgm, hx0, hm, hx0', ht', hr⟩ := h.exists_ends (s := s)
  obtain rfl : t = t' := Option.some.inj (ht.symm.trans ht')
  have hle : Symbol.compare s t ≤ 0 := Symbol.compare_le.mpr hst
  by_cases h0 : Symbol.compare s x0 ≤ 0
  · obtain ⟨c⟩ := exists_cursor (QVector.get_eq_ok.mp hg0) hx0
    refine ⟨0, 0, x0, c, ⟨fun y hy => ?_, Symbol.compare_le.mp h0⟩, ?_⟩
    · have ha := List.length_eq_zero_iff.mp c.line_eq
      have hl := List.length_eq_zero_iff.mp c.index_eq
      simp [Cursor.before, ha, hl] at hy
    · simp [findInsertPosition, hg0, hgm, compareAt_first hx0, h0, bind, Except.bind, pure,
        Except.pure]
  obtain ⟨o, hb, ho⟩ := h.bisect_lines (hr ▸ hle)
  simp only [findInsertPosition, hg0, hgm, compareAt_first hx0, ne_single hx0, h0, hm,
    not_lt.mpr hle, hb, if_false, bind, Except.bind, pure, Except.pure]
  have hline : ∀ {l line}, LineBound ls s line l → ∃ i x, ∃ c : Cursor ls line i x,
      AtLowerBound s.position c ∧ findInsertIndexInLine ls s l = .ok i := by
    intro l line hl
    obtain ⟨i, hi, hile, hlb⟩ :=
      findInsertIndexInLine_spec ls (h.line_ne_nil l hl.mem) (h.line_ordered hl.mem) hl.last
    obtain ⟨x, c, hc, -⟩ := h.exists_lowerBound hl hile hlb
    exact ⟨i, x, c, hc, hi⟩
  cases o with
  | found mid =>
    obtain ⟨l, hl, hlb, hz⟩ := ho
    obtain ⟨x, c, hc, -⟩ := lowerBound_last h hlb hz
    exact ⟨mid, _, x, c, hc, by simp [hl]⟩
  | between lo hi =>
    obtain ⟨l, m, t, u, hl, hm, ht, hu, h1, h2⟩ := ho
    simp only [hl, hm, ht, hu]
    by_cases hc : Symbol.compare s t ≤ 0
    · obtain ⟨i, x, c, hlb, hf⟩ := hline (h1 hc)
      exact ⟨lo, i, x, c, hlb, by simp [hc, hf]⟩
    · obtain ⟨i, x, c, hlb, hf⟩ := hline (h2 (lt_of_not_ge hc))
      exact ⟨hi, i, x, c, hlb, by simp [hc, hf]⟩

/-- The last symbol, and that it is not below one of the document. -/
private theorem exists_getLast (ho : Ordered ls.flatten) {u v : List Symbol} {x : Symbol}
    (hf : ls.flatten = u ++ x :: v) :
    ∃ t, ls.flatten.getLast? = some t ∧ x.position ≤ t.position := by
  obtain ⟨t, ht⟩ := Option.isSome_iff_exists.mp
    (List.getLast?_isSome.mpr (List.cons_ne_nil x v))
  refine ⟨t, by rw [hf, List.getLast?_append_of_ne_nil _ (by simp), ht], ?_⟩
  rw [hf] at ho
  exact (Ordered.append.mp ho).2.1.head_le rfl ht

/-- A cursor at the lower bound stands at a given split. -/
private theorem AtLowerBound.place_eq {line index : Nat} {x x' : Symbol}
    {c : Cursor ls line index x} (hc : AtLowerBound s.position c) (h : Layout isNewline ls)
    {u v : List Symbol} (hf : ls.flatten = u ++ x' :: v)
    (hu : ∀ y ∈ u, y.position < s.position) (hx : s.position ≤ x'.position) :
    (line, index) = place u ∧ x = x' := by
  obtain ⟨rfl, rfl, -⟩ := split_unique (P := fun y => y.position < s.position)
    (c.flatten_eq.symm.trans hf) hc.before (not_lt.mpr hc.le) hu (not_lt.mpr hx)
  obtain ⟨h1, h2⟩ := c.place h
  exact ⟨Prod.ext h1 h2, rfl⟩

/-- The same, at a given split of the document. -/
theorem findInsertPosition_eq (h : Arranged ls) {u v : List Symbol} {x : Symbol}
    (hf : ls.flatten = u ++ x :: v) (hu : ∀ y ∈ u, y.position < s.position)
    (hx : s.position ≤ x.position) : findInsertPosition ls s = .ok (place u) := by
  obtain ⟨t, ht, hxt⟩ := exists_getLast h.ordered hf
  obtain ⟨line, index, x', c, hc, he⟩ := findInsertPosition_spec h.searchable ht (hx.trans hxt)
  rw [he, (hc.place_eq h.layout hf hu hx).1]

/-- `findPosition` at a given split: it finds a symbol of the document; one that is not there
is found at the start of the line it would be in, or not at all if it would come first. -/
theorem findPosition_eq (h : Arranged ls) {u v : List Symbol} {x : Symbol}
    (hf : ls.flatten = u ++ x :: v) (hu : ∀ y ∈ u, y.position < s.position)
    (hx : s.position ≤ x.position) :
    findPosition ls s = .ok (if s.position = x.position then some (place u)
      else if u = [] then none else some ((place u).1, 0)) := by
  obtain ⟨t, ht, hxt⟩ := exists_getLast h.ordered hf
  cases u with
  | nil =>
    have h0 : ls.flatten.head? = some x := by rw [hf]; rfl
    by_cases he : s.position = x.position
    · obtain ⟨line, index, x', c, hc, hfind⟩ :=
        findPosition_spec h.searchable h0 ht he.ge (hx.trans hxt)
      obtain ⟨hp, rfl⟩ := hc.place_eq h.layout hf hu hx
      rw [hfind, if_pos he, if_pos he, hp]
    · rw [if_neg he, if_pos rfl]
      exact findPosition_of_lt h.searchable h0 (lt_of_le_of_ne hx he)
  | cons x0 u =>
    have h0 : ls.flatten.head? = some x0 := by rw [hf]; rfl
    obtain ⟨line, index, x', c, hc, hfind⟩ :=
      findPosition_spec h.searchable h0 ht (hu x0 (by simp)).le (hx.trans hxt)
    obtain ⟨hp, rfl⟩ := hc.place_eq h.layout hf hu hx
    rw [hfind, ← hp]
    by_cases he : s.position = x'.position <;> simp [he]

/-- Above the last symbol `findInsertPosition` is `findEndPosition`. -/
theorem findInsertPosition_of_gt (h : Searchable ls) {above : Lines} {l : List Symbol}
    (hls : ls = above ++ [l]) (ht : l.getLast? = some t) (hs : t.position < s.position) :
    findInsertPosition ls s = .ok (findEndPosition t l ls.length) := by
  obtain ⟨l0, lm, x0, t', hg0, hgm, hx0, hm, hx0', ht', -⟩ := h.exists_ends (s := s)
  obtain rfl : l = lm := by simpa [hls, QVector.get] using hgm
  obtain rfl : t = t' := by simpa [lastSymbol_eq ht] using hm
  have hgt : 0 < Symbol.compare s t := Symbol.compare_gt.mpr hs
  have h0 : ¬ Symbol.compare s x0 ≤ 0 := by
    rw [Symbol.compare_le, not_le]
    exact (h.ordered.head_le hx0' ht').trans_lt hs
  simp only [findInsertPosition, hg0, hgm, compareAt_first hx0, ne_single hx0, h0, hm, hgt,
    if_true, if_false, bind, Except.bind, pure, Except.pure]

end Searches

end Scriba.Client
