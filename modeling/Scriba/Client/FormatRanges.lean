import Mathlib.Data.Prod.Lex
import Scriba.Client.Document

/-! # Changes of format over a range

`localChangeGroup` goes from a place to another one with four loops: along one line, or along the
rest of the first line, whole lines, and the start of the last one. Together they are one stretch
of the sequence of all symbols, whatever the lines are. -/

namespace Scriba.Client

open Scriba.Utility Scriba.Lib.Lines

section Loops

variable (font : QFont) (color : QColor)

/-- What the loops do to a stretch of symbols. -/
def formatted (w : List Symbol) : List Symbol := w.map fun s => s.setFormat font color

@[simp] theorem length_formatted (w : List Symbol) : (formatted font color w).length = w.length :=
  List.length_map _

@[simp] theorem formatted_append (w w' : List Symbol) :
    formatted font color (w ++ w') = formatted font color w ++ formatted font color w' :=
  List.map_append

theorem flatten_formatted (ls : Lines) :
    (ls.map (formatted font color)).flatten = formatted font color ls.flatten :=
  List.map_flatten.symm

theorem changeChar_append (above below : Lines) (left right : List Symbol) (x : Symbol) :
    CRDT.changeChar (above ++ (left ++ x :: right) :: below) above.length left.length font color =
      .ok (above ++ (left ++ x.setFormat font color :: right) :: below,
        x.setFormat font color) := by
  simp [CRDT.changeChar, bind, Except.bind, pure, Except.pure]

theorem changeSpan_append (above below : Lines) (left mid right : List Symbol) :
    CRDT.changeSpan (above ++ (left ++ mid ++ right) :: below) above.length left.length font color
        mid.length =
      .ok (above ++ (left ++ formatted font color mid ++ right) :: below,
        formatted font color mid) := by
  induction mid generalizing left with
  | nil => rfl
  | cons x mid ih =>
    have hrest := ih (left ++ [x.setFormat font color])
    rw [List.length_append, List.length_singleton] at hrest
    simp only [List.append_assoc, List.cons_append, List.nil_append] at hrest ⊢
    rw [List.length_cons, CRDT.changeSpan, changeChar_append]
    simp only [bind, Except.bind, hrest]
    rfl

theorem changeLines_append (above mids below : Lines) :
    CRDT.changeLines (above ++ mids ++ below) above.length font color mids.length =
      .ok (above ++ mids.map (formatted font color) ++ below,
        formatted font color mids.flatten) := by
  induction mids generalizing above with
  | nil => rfl
  | cons l mids ih =>
    have hspan := changeSpan_append font color above (mids ++ below) [] l []
    have hrest := ih (above ++ [formatted font color l])
    rw [List.length_append, List.length_singleton] at hrest
    simp only [List.append_assoc, List.cons_append, List.nil_append, List.append_nil,
      List.length_nil] at hspan hrest ⊢
    rw [List.length_cons, CRDT.changeLines, QVector.get_append]
    simp only [bind, Except.bind, hspan, hrest]
    simp [pure, Except.pure]

end Loops

/-! ## The range -/

/-- The range `w` between `u` and `v` has the format; the lines are as long as they were. -/
structure Formats (ls ls' : Lines) (u w v : List Symbol) (font : QFont) (color : QColor) :
    Prop where
  lines : ls'.map List.length = ls.map List.length
  old : ls.flatten = u ++ w ++ v
  new : ls'.flatten = u ++ formatted font color w ++ v

section Range

variable {ls : Lines} {startLine startIndex endLine endIndex : Nat} {x y : Symbol}

/-- Two places of one line. -/
theorem exists_between (a : Cursor ls startLine startIndex x) (b : Cursor ls startLine endIndex y)
    (hle : startIndex ≤ endIndex) : ∃ above left m right below,
      ls = above ++ (left ++ (m ++ [y]) ++ right) :: below ∧
      a.before = above.flatten ++ left ∧ b.after = right ++ below.flatten ∧
      startLine = above.length ∧ startIndex = left.length ∧ endIndex = left.length + m.length := by
  obtain ⟨above, left, right, below, rfl, rfl, rfl⟩ := a
  obtain ⟨above', left', right', below', he, hl, rfl⟩ := b
  obtain ⟨-, hrest⟩ := List.append_inj he hl.symm
  obtain ⟨hline, rfl⟩ := List.cons.inj hrest
  have hleft : left <+: left ++ x :: right := List.prefix_append _ _
  have hleft' : left' <+: left ++ x :: right := hline ▸ List.prefix_append _ _
  have hprefix : left <+: left' := List.prefix_of_prefix_length_le hleft hleft' hle
  obtain ⟨m, rfl⟩ := hprefix
  refine ⟨above, left, m, right', below, ?_, rfl, rfl, rfl, rfl, List.length_append⟩
  rw [hline]
  simp only [List.append_assoc, List.cons_append, List.nil_append]

/-- Two places of different lines. -/
theorem exists_lines_between (a : Cursor ls startLine startIndex x)
    (b : Cursor ls endLine endIndex y) (hlt : startLine < endLine) :
    ∃ above left first mids last right below,
      ls = above ++ (left ++ first) :: mids ++ (last ++ right) :: below ∧
      a.before = above.flatten ++ left ∧ b.after = right ++ below.flatten ∧
      startLine = above.length ∧ startIndex = left.length ∧
      endLine = above.length + 1 + mids.length ∧ endIndex + 1 = last.length := by
  obtain ⟨above, left, right, below, rfl, rfl, rfl⟩ := a
  obtain ⟨above', left', right', below', he, hl, rfl⟩ := b
  have habove : above ++ [left ++ x :: right] <+: above' ++ (left' ++ y :: right') :: below' :=
    ⟨below, by rw [← he]; simp⟩
  have hprefix : above ++ [left ++ x :: right] <+: above' := by
    refine List.prefix_of_prefix_length_le habove (List.prefix_append _ _) ?_
    rw [List.length_append, List.length_singleton]
    omega
  obtain ⟨mids, rfl⟩ := hprefix
  refine ⟨above, left, x :: right, mids, left' ++ [y], right', below', ?_, rfl, rfl, rfl, rfl, ?_,
    ?_⟩
  · refine he.trans ?_
    simp only [List.append_assoc, List.cons_append, List.nil_append]
  · rw [← hl, List.length_append, List.length_append, List.length_singleton]
  · rw [List.length_append, List.length_singleton]

/-- **The loops of `localChangeGroup`**, between two places of a document. -/
theorem changeRange_spec (a : Cursor ls startLine startIndex x) (b : Cursor ls endLine endIndex y)
    (hle : toLex (startLine, startIndex) ≤ toLex (endLine, endIndex)) (font : QFont)
    (color : QColor) : ∃ ls' w,
      CRDT.changeRange ls startLine endLine startIndex endIndex font color =
        .ok (ls', formatted font color w) ∧
      Formats ls ls' a.before w b.after font color := by
  rcases Prod.Lex.toLex_le_toLex.mp hle with hlt | ⟨heq, hindex⟩
  · obtain ⟨above, left, first, mids, last, right, below, hls, hbefore, hafter, hs, hi, he, hend⟩ :=
      exists_lines_between a b hlt
    rw [hbefore, hafter]
    clear hbefore hafter hlt hle a b
    subst hls hs hi he
    refine ⟨above ++ (left ++ formatted font color first) :: mids.map (formatted font color) ++
      (formatted font color last ++ right) :: below, first ++ mids.flatten ++ last, ?_, ?_⟩
    · have hfirst := changeSpan_append font color above (mids ++ (last ++ right) :: below) left
        first []
      have hmids := changeLines_append font color (above ++ [left ++ formatted font color first])
        mids ((last ++ right) :: below)
      have hlast := changeSpan_append font color (above ++
        (left ++ formatted font color first) :: mids.map (formatted font color)) below [] last right
      simp only [List.append_nil, List.nil_append, List.append_assoc, List.cons_append,
        List.length_append, List.length_cons, List.length_nil, List.length_map, Nat.zero_add]
        at hfirst hmids hlast
      have hn : (left ++ first).length - left.length = first.length := by simp
      have hm : above.length + 1 + mids.length - 1 - above.length = mids.length := by omega
      rw [CRDT.changeRange, if_neg (by omega)]
      simp only [List.append_assoc, List.cons_append, QVector.get_append, bind, Except.bind, hn, hm,
        hend]
      simp only [hfirst, hmids, Nat.add_assoc, Nat.add_comm 1] at hlast ⊢
      rw [hlast]
      simp [pure, Except.pure]
    · refine ⟨?_, ?_, ?_⟩
      · simp
      · simp
      · simp [flatten_formatted]
  · have hline : startLine = endLine := heq
    subst hline
    obtain ⟨above, left, m, right, below, hls, hbefore, hafter, hs, hi, he⟩ :=
      exists_between a b hindex
    rw [hbefore, hafter]
    clear hbefore hafter hle hindex a b
    subst hls hs hi he
    refine ⟨above ++ (left ++ formatted font color (m ++ [y]) ++ right) :: below, m ++ [y], ?_, ?_⟩
    · have hspan := changeSpan_append font color above below left (m ++ [y]) right
      have hn : left.length + m.length + 1 - left.length = (m ++ [y]).length := by
        rw [List.length_append, List.length_singleton]
        omega
      rw [CRDT.changeRange, if_pos rfl, hn]
      exact hspan
    · refine ⟨?_, by simp, by simp⟩
      simp only [List.map_append, List.map_cons, List.length_append, length_formatted]

end Range

/-! ## Exactness -/

/-- The symbols at some offsets have the format and keep everything else; no other symbol and no
line boundary has changed. -/
structure FormatsBetween (ls ls' : Lines) (first last : Nat) (font : QFont) (color : QColor) :
    Prop where
  lines : ls'.map List.length = ls.map List.length
  inside : ∀ i, first ≤ i → i ≤ last →
    ls'.flatten[i]? = ls.flatten[i]?.map fun s => s.setFormat font color
  outside : ∀ i, i < first ∨ last < i → ls'.flatten[i]? = ls.flatten[i]?

/-- What no format has to do with. -/
def bare (s : Symbol) : QChar × Position × Int × SymbolFormat.Alignment :=
  (s.value, s.position, s.counter, s.format.align)

theorem FormatsBetween.bare {ls ls' : Lines} {first last : Nat} {font : QFont} {color : QColor}
    (h : FormatsBetween ls ls' first last font color) :
    ls'.flatten.map bare = ls.flatten.map bare := by
  refine List.ext_getElem? ?_
  intro i
  rw [List.getElem?_map, List.getElem?_map]
  by_cases hi : first ≤ i ∧ i ≤ last
  · rw [h.inside i hi.1 hi.2, Option.map_map]
    rfl
  · rw [h.outside i (by omega)]

theorem Formats.between {ls ls' : Lines} {u w v : List Symbol} {font : QFont} {color : QColor}
    (h : Formats ls ls' u w v font color) {first last : Nat} (hu : u.length = first)
    (hw : (u ++ w).length = last + 1) : FormatsBetween ls ls' first last font color := by
  have hlength : (u ++ formatted font color w).length = last + 1 := by
    rw [List.length_append, length_formatted, ← List.length_append, hw]
  refine ⟨h.lines, ?_, ?_⟩
  · intro i hfirst hlast
    have hnew : i < (u ++ formatted font color w).length := by omega
    have hold : i < (u ++ w).length := by omega
    have hle : u.length ≤ i := by omega
    rw [h.old, h.new, List.getElem?_append_left hnew, List.getElem?_append_left hold,
      List.getElem?_append_right hle, List.getElem?_append_right hle, formatted, List.getElem?_map]
  · intro i hi
    rw [h.old, h.new]
    rcases hi with hi | hi
    · have hlt : i < u.length := by omega
      rw [List.append_assoc, List.append_assoc, List.getElem?_append_left hlt,
        List.getElem?_append_left hlt]
    · have hnew : (u ++ formatted font color w).length ≤ i := by omega
      have hold : (u ++ w).length ≤ i := by omega
      rw [List.getElem?_append_right hnew, List.getElem?_append_right hold, hlength, hw]

theorem changeRange_between {ls : Lines} {startLine startIndex endLine endIndex : Nat}
    {x y : Symbol} (a : Cursor ls startLine startIndex x) (b : Cursor ls endLine endIndex y)
    (hle : toLex (startLine, startIndex) ≤ toLex (endLine, endIndex)) (font : QFont)
    (color : QColor) : ∃ ls',
      CRDT.changeRange ls startLine endLine startIndex endIndex font color =
        .ok (ls', (ls'.flatten.take (b.before.length + 1)).drop a.before.length) ∧
      FormatsBetween ls ls' a.before.length b.before.length font color := by
  obtain ⟨ls', w, hrange, hformats⟩ := changeRange_spec a b hle font color
  have hlength : (a.before ++ w).length = b.before.length + 1 := by
    have hold := congrArg List.length (hformats.old.symm.trans b.flatten_eq)
    simp only [List.length_append, List.length_cons] at hold ⊢
    omega
  have hlength' : b.before.length + 1 = (a.before ++ formatted font color w).length := by
    rw [List.length_append, length_formatted, ← List.length_append, hlength]
  refine ⟨ls', ?_, hformats.between rfl hlength⟩
  rw [hrange, hformats.new, hlength', List.take_left, List.drop_left]

/-- **A change over several lines.** It formats exactly the symbols from the first place to the
last one, and broadcasts them in the order of the document. -/
theorem changes_exactly {c : CRDT} {startLine endLine startIndex endIndex : Nat} {x y : Symbol}
    (hx : symbolAt c.symbols startLine startIndex = some x)
    (hy : symbolAt c.symbols endLine endIndex = some y)
    (hle : toLex (startLine, startIndex) ≤ toLex (endLine, endIndex)) (font : QFont)
    (color : QColor) : ∃ ls',
      c.localChangeGroup startLine endLine startIndex endIndex font color =
        .ok ({ c with symbols := ls' }, .change ((ls'.flatten.take
          (offset c.symbols endLine endIndex + 1)).drop (offset c.symbols startLine startIndex))) ∧
      FormatsBetween c.symbols ls' (offset c.symbols startLine startIndex)
        (offset c.symbols endLine endIndex) font color ∧
      ls'.flatten.map bare = c.symbols.flatten.map bare := by
  obtain ⟨a⟩ := exists_cursor_of_symbolAt hx
  obtain ⟨b⟩ := exists_cursor_of_symbolAt hy
  obtain ⟨ls', hrange, hbetween⟩ := changeRange_between a b hle font color
  rw [offset_eq a, offset_eq b]
  refine ⟨ls', ?_, hbetween, hbetween.bare⟩
  have hnonneg : ¬ ((startLine : Int) < 0 ∨ (startIndex : Int) < 0 ∨ (endLine : Int) < 0 ∨
      (endIndex : Int) < 0) := by omega
  rw [CRDT.localChangeGroup, if_neg hnonneg]
  simp only [Int.toNat_natCast, hrange, bind, Except.bind]
  rfl

/-- Two lines, each with a letter. -/
def twoLetters : CRDT :=
  ⟨1, [[plain (QChar.of 'a') [⟨1, 1⟩], plain QChar.newline [⟨2, 1⟩]],
    [plain (QChar.of 'b') [⟨3, 1⟩], plain QChar.null [⟨9, 1⟩]]], 0, [], 3⟩

def boldFont : QFont := { (default : QFont) with bold := true }
def red : QColor := ⟨"#ff0000".toList.map QChar.of⟩

/-- A newline and the letter after it become bold and red. -/
theorem changes_exactly_bold : ∃ ls',
    twoLetters.localChangeGroup 0 1 1 0 boldFont red =
      .ok ({ twoLetters with symbols := ls' }, .change ((ls'.flatten.take 3).drop 1)) ∧
    ls'.flatten.map (fun s => (s.format.bold, s.format.color)) =
      [(false, []), (true, red.name), (true, red.name), (false, [])] ∧
    FormatsBetween twoLetters.symbols ls' 1 2 boldFont red := by
  obtain ⟨ls', hrun, hbetween, -⟩ := changes_exactly (c := twoLetters)
    (show symbolAt _ 0 1 = some _ from rfl) (show symbolAt _ 1 0 = some _ from rfl) (by decide)
    boldFont red
  have hformats : (twoLetters.localChangeGroup 0 1 1 0 boldFont red).map (fun r =>
      r.1.symbols.flatten.map fun s => (s.format.bold, s.format.color)) =
        .ok [(false, []), (true, red.name), (true, red.name), (false, [])] := by decide +kernel
  have hrun' : twoLetters.localChangeGroup 0 1 1 0 boldFont red =
      .ok ({ twoLetters with symbols := ls' }, .change ((ls'.flatten.take 3).drop 1)) := hrun
  rw [hrun'] at hformats
  exact ⟨ls', hrun', Except.ok.inj hformats, hbetween⟩

end Scriba.Client
