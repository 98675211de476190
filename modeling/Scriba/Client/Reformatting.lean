import Scriba.Client.Editor
import Scriba.Client.FormatRanges

/-! # Reformatting a selection

`on_formatChange` collects the characters of a selection as long as the font and the colour stay
the same, over newlines, and has `CRDT` change each such range. However the formats and the
newlines fall, the ranges cover the selection. -/

namespace Scriba.Client

open Scriba.Utility Scriba.Lib Scriba.Lib.Lines

theorem place_le_append (u w : List Symbol) : toLex (place u) ≤ toLex (place (u ++ w)) := by
  induction w using List.reverseRecOn with
  | nil => rw [List.append_nil]
  | append_singleton w s ih =>
    refine ih.trans ?_
    rw [← List.append_assoc, place_concat, Prod.Lex.toLex_le_toLex]
    split_ifs
    · exact .inl (Nat.lt_succ_self _)
    · exact .inr ⟨rfl, Nat.le_succ _⟩

/-- A change from the `i`-th symbol to the `j`-th. -/
theorem changeGroup_between {c : CRDT} (h : Layout isNewline c.symbols) {i j : Nat} (hle : i ≤ j)
    (hj : j < c.symbols.flatten.length) (font : QFont) (color : QColor) : ∃ ls' m,
      LocalOp.perform c (.changeGroup (place (c.symbols.flatten.take i)).1
        (place (c.symbols.flatten.take j)).1 (place (c.symbols.flatten.take i)).2
        (place (c.symbols.flatten.take j)).2 font color) = .ok ({ c with symbols := ls' }, m) ∧
      Layout isNewline ls' ∧ FormatsBetween c.symbols ls' i j font color := by
  obtain ⟨a, -, ha⟩ := exists_cursor_at h (Nat.lt_of_le_of_lt hle hj)
  obtain ⟨b, -, hb⟩ := exists_cursor_at h hj
  have hplace : toLex (place (c.symbols.flatten.take i)) ≤
      toLex (place (c.symbols.flatten.take j)) := by
    have hprefix : c.symbols.flatten.take i <+: c.symbols.flatten.take j :=
      List.take_prefix_take_left hle
    obtain ⟨w, hw⟩ := hprefix
    rw [← hw]
    exact place_le_append _ w
  obtain ⟨ls', hrange, hbetween⟩ := changeRange_between a b hplace font color
  rw [ha, hb] at hbetween
  have hnonneg : ∀ k l m n : Nat,
      ¬ ((k : Int) < 0 ∨ (l : Int) < 0 ∨ (m : Int) < 0 ∨ (n : Int) < 0) := by omega
  refine ⟨ls', .change ((ls'.flatten.take (b.before.length + 1)).drop a.before.length), ?_,
    (changeRange_ok h hrange).layout h, hbetween⟩
  rw [LocalOp.perform, CRDT.localChangeGroup, if_neg (hnonneg _ _ _ _)]
  simp only [Int.toNat_natCast, hrange, bind, Except.bind]
  rfl

/-! ## What has been sent -/

/-- The symbols of the characters from `start` on, up to `stop`, have the formats of the
characters, newlines apart. Nothing else has changed. -/
structure Restyled (d : QTextDocument) (ls ls' : Lines) (start stop : Nat) : Prop where
  lines : ls'.map List.length = ls.map List.length
  bare : ls'.flatten.map bare = ls.flatten.map bare
  inside : ∀ i ch, start ≤ i → i < stop → d.chars[i]? = some ch →
    ch.unit ≠ QChar.paragraphSeparator →
    ls'.flatten[i]? = ls.flatten[i]?.map fun s => s.setFormat ch.format.font ch.format.color
  outside : ∀ i, i < start ∨ stop ≤ i → ls'.flatten[i]? = ls.flatten[i]?

namespace Restyled

variable {d : QTextDocument} {ls ls1 ls' : Lines} {start stop : Nat}

theorem refl (d : QTextDocument) (ls : Lines) (start : Nat) : Restyled d ls ls start start where
  lines := rfl
  bare := rfl
  inside _ _ hle hlt := absurd hle (Nat.not_le.mpr hlt)
  outside _ _ := rfl

/-- Over newlines there is nothing to do. -/
theorem extend (r : Restyled d ls ls' start stop) {next : Nat} (hle : stop ≤ next)
    (hnewlines : ∀ i ch, stop ≤ i → i < next → d.chars[i]? = some ch →
      ch.unit = QChar.paragraphSeparator) : Restyled d ls ls' start next where
  lines := r.lines
  bare := r.bare
  inside i ch hstart hnext hch hunit := by
    by_cases hi : i < stop
    · exact r.inside i ch hstart hi hch hunit
    · exact absurd (hnewlines i ch (Nat.not_lt.mp hi) hnext hch) hunit
  outside i hi := r.outside i (hi.imp_right hle.trans)

/-- A range of one format is changed next. -/
theorem send (r : Restyled d ls ls1 start stop) {last : Nat} {f : QTextCharFormat}
    (hf : FormatsBetween ls1 ls' stop last f.font f.color) (hstart : start ≤ stop)
    (hlast : stop ≤ last)
    (hformats : ∀ i ch, stop ≤ i → i ≤ last → d.chars[i]? = some ch →
      ch.unit ≠ QChar.paragraphSeparator → ch.format = f) :
    Restyled d ls ls' start (last + 1) where
  lines := hf.lines.trans r.lines
  bare := hf.bare.trans r.bare
  inside i ch hi hnext hch hunit := by
    by_cases hlt : i < stop
    · rw [hf.outside i (.inl hlt)]
      exact r.inside i ch hi hlt hch hunit
    · have hle : stop ≤ i := Nat.not_lt.mp hlt
      rw [hf.inside i hle (by omega), r.outside i (.inr hle),
        hformats i ch hle (by omega) hch hunit]
  outside i hi := by
    rw [hf.outside i (by omega), r.outside i (by omega)]

theorem agrees (r : Restyled d ls ls' start stop) (ha : Agrees d ls) : Agrees d ls' where
  blocks := ha.blocks
  text := by
    have hvalue : ∀ xs : List Symbol, shown xs = ((xs.map Client.bare).map Prod.fst).dropLast := by
      intro xs
      rw [shown, List.map_map, List.map_dropLast]
      rfl
    rw [ha.text, hvalue, hvalue, r.bare]

end Restyled

/-! ## The loop -/

section Loop

variable {c : CRDT} {d : QTextDocument} {start i : Nat}

/-- After the characters up to `i`: what comes before the `first` one has been sent, and from there
to the `last` one all characters but newlines have the format to send. Newlines follow. -/
structure FormatLoop.Pending (c : CRDT) (d : QTextDocument) (start i first last : Nat)
    (v : FormatLoop) : Prop where
  sent : ∃ ls', v.sent.1 = { c with symbols := ls' } ∧ Layout isNewline ls' ∧
    Restyled d c.symbols ls' start first
  startPlace : v.startPlace = (d.blockNumber first, d.positionInBlock first)
  endPlace : v.endPlace = (d.blockNumber last, d.positionInBlock last)
  start_le : start ≤ first
  first_le : first ≤ last
  last_lt : last < i
  formats : ∀ k ch, first ≤ k → k ≤ last → d.chars[k]? = some ch →
    ch.unit ≠ QChar.paragraphSeparator → ch.format = v.formatPrec
  newlines : ∀ k ch, last < k → k < i → d.chars[k]? = some ch →
    ch.unit = QChar.paragraphSeparator

theorem FormatLoop.Pending.send (h : WellFormed c.symbols) (ha : Agrees d c.symbols)
    {first last : Nat} {v : FormatLoop} (p : v.Pending c d start i first last)
    (hi : i ≤ d.chars.length) : ∃ v' ls', v.send = .ok v' ∧
      v'.sent.1 = { c with symbols := ls' } ∧ Layout isNewline ls' ∧
      Restyled d c.symbols ls' start i := by
  obtain ⟨ls1, hsent, hlayout, hre⟩ := p.sent
  have hle := p.first_le
  have hlast := p.last_lt
  have ha1 := hre.agrees ha
  have hlength : ls1.flatten.length = d.chars.length + 1 := by
    have hl := congrArg List.length hre.bare
    rw [List.length_map, List.length_map, ha.length h] at hl
    exact hl
  obtain ⟨ls', m, hperform, hlayout', hbetween⟩ := changeGroup_between
    (show Layout isNewline (CRDT.mk c.siteId ls1 c.counter c.strategyCache c.size).symbols from
      hlayout) hle (by rw [hlength]; omega) v.formatPrec.font v.formatPrec.color
  have hfirst := p.startPlace.trans (ha1.place (show first ≤ d.chars.length by omega))
  have hlast' := p.endPlace.trans (ha1.place (show last ≤ d.chars.length by omega))
  refine ⟨{ v with sent := ({ c with symbols := ls' }, v.sent.2 ++ [m]) }, ls', ?_, rfl, hlayout',
    ?_⟩
  · rw [FormatLoop.send, Sent.perform, hsent, hfirst, hlast', hperform]
    rfl
  · exact (hre.send hbetween p.start_le hle p.formats).extend hlast p.newlines

theorem get_selectedText {stop : Nat} {ch : TextChar} (hch : d.chars[i]? = some ch)
    (hstart : start ≤ i) (hstop : i < stop) :
    QVector.get (d.selectedText start stop) (i - start) = .ok ch.unit := by
  rw [QVector.get_eq_ok, QTextDocument.selectedText, List.getElem?_map, List.getElem?_drop,
    Nat.add_sub_cancel' hstart, List.getElem?_take_of_lt hstop, hch]
  rfl

/-- The first round: a newline comes first with whatever format was there. -/
theorem FormatLoop.round_first {stop : Nat} (hlt : start < stop) (hstop : stop ≤ d.chars.length)
    (h : WellFormed c.symbols) {v : FormatLoop} (hv : v.sent.1 = c) : ∃ v',
      FormatLoop.round d (d.selectedText start stop) start start v = .ok v' ∧
      v'.Pending c d start (start + 1) start start := by
  have hch : d.chars[start]? = some d.chars[start] :=
    List.getElem?_eq_getElem (Nat.lt_of_lt_of_le hlt hstop)
  have hsent : ∃ ls', v.sent.1 = { c with symbols := ls' } ∧ Layout isNewline ls' ∧
      Restyled d c.symbols ls' start start := ⟨c.symbols, hv, h.layout, .refl d _ start⟩
  rw [FormatLoop.round, get_selectedText hch le_rfl hlt]
  simp only [if_true, bind, Except.bind]
  by_cases hunit : d.chars[start].unit = QChar.paragraphSeparator
  · rw [if_pos hunit]
    refine ⟨_, rfl, hsent, rfl, rfl, le_rfl, le_rfl, Nat.lt_succ_self _, ?_, ?_⟩
    · intro k ch hfirst hlast hk hne
      obtain rfl : k = start := Nat.le_antisymm hlast hfirst
      obtain rfl := Option.some.inj (hch.symm.trans hk)
      exact absurd hunit hne
    · intro k ch hlast hk
      omega
  · rw [if_neg hunit, d.charFormat_succ hch hunit]
    refine ⟨_, rfl, hsent, rfl, rfl, le_rfl, le_rfl, Nat.lt_succ_self _, ?_, ?_⟩
    · intro k ch hfirst hlast hk _
      obtain rfl : k = start := Nat.le_antisymm hlast hfirst
      obtain rfl := Option.some.inj (hch.symm.trans hk)
      rfl
    · intro k ch hlast hk
      omega

theorem FormatLoop.round_spec (h : WellFormed c.symbols) (ha : Agrees d c.symbols) {stop : Nat}
    (hstop : stop ≤ d.chars.length) (hstart : start < i) (hi : i < stop) {first last : Nat}
    {v : FormatLoop} (p : v.Pending c d start i first last) : ∃ v' first' last',
      FormatLoop.round d (d.selectedText start stop) start i v = .ok v' ∧
      v'.Pending c d start (i + 1) first' last' := by
  have hch : d.chars[i]? = some d.chars[i] :=
    List.getElem?_eq_getElem (Nat.lt_of_lt_of_le hi hstop)
  have hlast := p.last_lt
  rw [FormatLoop.round, get_selectedText hch hstart.le hi]
  simp only [hstart.ne', if_false, bind, Except.bind]
  by_cases hunit : d.chars[i].unit = QChar.paragraphSeparator
  · rw [if_pos hunit]
    refine ⟨v, first, last, rfl, { p with last_lt := by omega, newlines := ?_ }⟩
    intro k ch hk hki hat
    by_cases he : k = i
    · subst he
      exact Option.some.inj (hch.symm.trans hat) ▸ hunit
    · exact p.newlines k ch hk (by omega) hat
  · rw [if_neg hunit, d.charFormat_succ hch hunit]
    by_cases hformat : d.chars[i].format = v.formatPrec
    · rw [if_pos hformat]
      refine ⟨_, first, i, rfl, p.sent, p.startPlace, rfl, p.start_le,
        p.first_le.trans hlast.le, Nat.lt_succ_self _, ?_, ?_⟩
      · intro k ch hfirst hk hat hne
        by_cases he : k = i
        · subst he
          exact Option.some.inj (hch.symm.trans hat) ▸ hformat
        · by_cases hle : k ≤ last
          · exact p.formats k ch hfirst hle hat hne
          · exact absurd (p.newlines k ch (by omega) (by omega) hat) hne
      · intro k ch hk hki
        omega
    · rw [if_neg hformat]
      obtain ⟨v1, ls1, hsend, hsent, hlayout, hre⟩ := p.send h ha (hi.le.trans hstop)
      rw [hsend]
      refine ⟨_, i, i, rfl, ⟨ls1, hsent, hlayout, hre⟩, rfl, rfl, hstart.le, le_rfl,
        Nat.lt_succ_self _, ?_, ?_⟩
      · intro k ch hfirst hk hat _
        obtain rfl : k = i := Nat.le_antisymm hk hfirst
        exact congrArg TextChar.format (Option.some.inj (hat.symm.trans hch))
      · intro k ch hk hki
        omega

end Loop

/-- **Reformatting a selection** sets the font and the colour of each selected character on its
symbol, and changes nothing else. -/
theorem reformats_selection {c : CRDT} {d : QTextDocument} (h : WellFormed c.symbols)
    (ha : Agrees d c.symbols) (around : Surroundings) {start stop : Nat} (hle : start ≤ stop)
    (hstop : stop ≤ d.chars.length) : ∃ ls' messages,
      onFormatChange d around (c, []) (d.selectedText start stop) start stop =
        .ok ({ c with symbols := ls' }, messages) ∧
      Restyled d c.symbols ls' start stop := by
  rcases Nat.eq_or_lt_of_le hle with rfl | hlt
  · refine ⟨c.symbols, [], ?_, .refl d _ start⟩
    rw [onFormatChange, if_pos rfl]
    rfl
  · obtain ⟨n, rfl⟩ : ∃ n, stop = start + (n + 1) := ⟨stop - start - 1, by omega⟩
    have hsent : (FormatLoop.mk (c, []) around.unset (0, 0) (0, 0)).sent.1 = c := rfl
    obtain ⟨v1, h1, p1⟩ := FormatLoop.round_first hlt hstop h hsent
    let I : Nat → FormatLoop → Prop := fun i v => ∃ first last, v.Pending c d start i first last
    have hround : ∀ i v, start + 1 ≤ i → i < start + 1 + n → I i v → ∃ v',
        FormatLoop.round d (d.selectedText start (start + (n + 1))) start i v = .ok v' ∧
          I (i + 1) v' := by
      intro i v hfirst hi hI
      obtain ⟨first, last, p⟩ := hI
      obtain ⟨v', first', last', hround, p'⟩ := FormatLoop.round_spec h ha hstop (by omega)
        (show i < start + (n + 1) by omega) p
      exact ⟨v', hround, first', last', p'⟩
    obtain ⟨v2, h2, first, last, p2⟩ := forLoop_spec ⟨start, start, p1⟩ hround
    rw [Nat.add_assoc, Nat.add_comm 1 n] at p2
    obtain ⟨v3, ls', h3, hsent, -, hre⟩ := p2.send h ha hstop
    refine ⟨ls', v3.sent.2, ?_, hre⟩
    rw [onFormatChange, if_neg hlt.ne, Nat.add_sub_cancel_left, forLoop]
    simp only [bind, Except.bind, h1, h2, h3, ← hsent]
    rfl

/-- A letter in each of two lines. -/
def twoLines : Lines :=
  [[plain (QChar.of 'a') [⟨1, 1⟩], plain QChar.newline [⟨2, 1⟩]],
    [plain (QChar.of 'b') [⟨3, 1⟩], plain QChar.null [⟨9, 1⟩]]]

theorem twoLines_wellFormed : WellFormed twoLines :=
  ⟨⟨.cons ⟨[_], _, rfl, by decide, rfl⟩ (.last ⟨by decide, by decide⟩), by unfold Ordered; decide⟩,
    [_, _, _], _, rfl, rfl⟩

/-- A bold letter and an italic one. -/
def twoFormats : QTextDocument where
  chars := [⟨QChar.of 'a', { (default : QTextCharFormat) with font.bold := true }⟩,
    ⟨QChar.paragraphSeparator, default⟩,
    ⟨QChar.of 'b', { (default : QTextCharFormat) with font.italic := true }⟩]
  alignment := fun _ => Qt.AlignLeft
  format := default

theorem twoFormats_agrees : Agrees twoFormats twoLines := ⟨by decide +kernel, by decide +kernel⟩

/-- Both letters and the newline between them. -/
theorem reformats_selection_lines : ∃ ls' messages,
    onFormatChange twoFormats default (.opened 1 twoLines, []) (twoFormats.selectedText 0 3) 0 3 =
      .ok ({ CRDT.opened 1 twoLines with symbols := ls' }, messages) ∧
    Restyled twoFormats twoLines ls' 0 3 := by
  have hwf : WellFormed (CRDT.opened 1 twoLines).symbols := twoLines_wellFormed
  exact reformats_selection hwf twoFormats_agrees default (by decide) (by decide)

end Scriba.Client
