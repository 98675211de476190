import Scriba.Client.Editor
import Scriba.Client.Freshness

/-! # Coordinates of the editor

The editor addresses a symbol by block and position in the block, the replica keeps lines. They
coincide as long as what becomes a newline in the replica ends a block in the editor. -/

namespace Scriba.Client

open Scriba.Utility Scriba.Lib Scriba.Lib.Lines

/-- A character that is typed at a position. -/
structure Typing where
  ch : TextChar
  position : Nat
  around : Surroundings

/-- The document with one more character. -/
def QTextDocument.insert (d : QTextDocument) (position : Nat) (ch : TextChar) : QTextDocument :=
  { d with chars := d.chars.take position ++ ch :: d.chars.drop position }

namespace QTextDocument

variable {d : QTextDocument} {position : Nat} {ch : TextChar}

theorem take_insert (h : position ≤ d.chars.length) :
    (d.insert position ch).chars.take position = d.chars.take position :=
  List.take_left' (List.length_take_of_le h)

theorem take_insert_succ (h : position ≤ d.chars.length) :
    (d.insert position ch).chars.take (position + 1) = d.chars.take position ++ [ch] := by
  have hlength := List.length_take_of_le h
  rw [insert, List.take_append, hlength, Nat.add_sub_cancel_left,
    List.take_of_length_le (by rw [hlength]; exact Nat.le_succ _)]
  rfl

@[simp] theorem length_insert (position : Nat) (ch : TextChar) :
    (d.insert position ch).chars.length = d.chars.length + 1 := by
  rw [insert, List.length_append, List.length_cons, ← Nat.add_assoc, ← List.length_append,
    List.take_append_drop]

theorem mid_insert (h : position ≤ d.chars.length) :
    QString.mid (d.insert position ch).toPlainText position 1 = [ch.value] := by
  have hdrop : (d.insert position ch).chars.drop position = ch :: d.chars.drop position :=
    List.drop_left' (List.length_take_of_le h)
  rw [QString.mid, if_neg (by omega), toPlainText, ← List.map_drop, hdrop]
  rfl

end QTextDocument

def typeChar (s : QTextDocument × CRDT) (t : Typing) : Except Fault (QTextDocument × CRDT) := do
  let d := s.1.insert t.position t.ch
  let sent ← handleLocalInsertion d t.around 0 (s.2, []) t.position 1
  pure (d, sent.1)

def typeAll (s : QTextDocument × CRDT) : List Typing → Except Fault (QTextDocument × CRDT)
  | [] => pure s
  | t :: ts => do
    let s ← typeChar s t
    typeAll s ts

/-- Every offset of the text, the one of its end included, is that of the symbol which block number
and position in the block give, and newlines are at the end of their lines. -/
structure Addresses (s : QTextDocument × CRDT) : Prop where
  place : ∀ i ≤ s.1.chars.length, ∃ x,
    symbolAt s.2.symbols (s.1.blockNumber i) (s.1.positionInBlock i) = some x ∧
    offset s.2.symbols (s.1.blockNumber i) (s.1.positionInBlock i) = i
  newline : ∀ l ∈ s.2.symbols, ∀ i x, l[i]? = some x → x.value = QChar.newline → i + 1 = l.length

/-- What is sent for the character is what the editor takes it for: it is not NUL, and if it is
shown as a newline it ends a block. -/
def Faithful (ch : TextChar) : Prop :=
  ch.value ≠ QChar.null ∧ (ch.value = QChar.newline → ch.unit = QChar.paragraphSeparator)

/-- The text and the replica of someone who is alone in a document. -/
structure TypedAlone (s : QTextDocument × CRDT) : Prop where
  valid : ValidDocument s.2.symbols
  agrees : Agrees s.1 s.2.symbols
  own : AllPositions (OwnSite s.2.siteId) s.2.symbols

section Step

variable {s : QTextDocument × CRDT} {t : Typing}

theorem TypedAlone.addresses (h : TypedAlone s) : Addresses s where
  place i hi := by
    have hlt : i < s.2.symbols.flatten.length := by
      rw [h.agrees.length h.valid.toWellFormed]
      omega
    obtain ⟨cur, -, hlength⟩ := exists_cursor_at h.valid.layout hlt
    obtain ⟨hline, hindex⟩ := Prod.mk.inj (h.agrees.place hi)
    rw [hline, hindex]
    exact ⟨_, symbolAt_cursor cur, (offset_eq cur).trans hlength⟩
  newline l hl i x hx hvalue := by
    obtain ⟨k, hk, rfl⟩ := List.getElem_of_mem hl
    obtain ⟨cur⟩ := exists_cursor (List.getElem?_eq_getElem hk) hx
    obtain ⟨hright, -⟩ := cur.right_nil h.valid.layout (isNewline_iff.mpr hvalue)
    have hline := cur.getElem?_line
    rw [List.getElem?_eq_getElem hk, hright] at hline
    rw [Option.some.inj hline, List.length_append, List.length_singleton, cur.index_eq]

/-- The character is inserted where the cursor is. -/
theorem TypedAlone.insert (h : TypedAlone s) (hposition : t.position ≤ s.1.chars.length)
    (hnull : t.ch.value ≠ QChar.null) : ∃ c' x y v,
      typeChar s t = .ok (s.1.insert t.position t.ch, c') ∧
      Generates s.2 c' t.ch.value (s.2.symbols.flatten.take t.position) x y v ∧
      AllPositions (OwnSite c'.siteId) c'.symbols := by
  have hlt : t.position < s.2.symbols.flatten.length := by
    rw [h.agrees.length h.valid.toWellFormed]
    omega
  have hplace : ((s.1.insert t.position t.ch).blockNumber t.position,
      (s.1.insert t.position t.ch).positionInBlock t.position) =
      place (s.2.symbols.flatten.take t.position) := by
    rw [← h.agrees.place hposition]
    simp only [QTextDocument.blockNumber, QTextDocument.positionInBlock,
      QTextDocument.take_insert hposition]
  have hline : (s.1.insert t.position t.ch).blockNumber t.position =
      (place (s.2.symbols.flatten.take t.position)).1 := congrArg Prod.fst hplace
  have hindex : (s.1.insert t.position t.ch).positionInBlock t.position =
      (place (s.2.symbols.flatten.take t.position)).2 := congrArg Prod.snd hplace
  have hown : ∀ y ∈ s.2.symbols.flatten, OwnSite s.2.siteId y.position := by
    intro y hy
    obtain ⟨l, hl, hyl⟩ := List.mem_flatten.mp hy
    exact h.own l hl y hyl
  generalize hf : (s.1.insert t.position t.ch).charFormat
    ((s.1.insert t.position t.ch).right t.position) = f
  rcases insertNew_spec h.valid (split_at hlt) t.ch.value f.font f.color
    (alignOfInsert t.around.currentAlignment) (t.around.chance 0 0) with
    ⟨-, hblocked⟩ | ⟨c', x, hnew, hg, -⟩
  · exact absurd hblocked (not_blocked_of_own (hown _ (List.getElem_mem hlt)))
  · refine ⟨c', x, _, _, ?_, hg, ?_⟩
    · have hnonneg : ∀ m n : Nat, ¬ ((m : Int) < 0 ∨ (n : Int) < 0) := by omega
      have hget : QVector.get [t.ch.value] 0 = .ok t.ch.value := rfl
      rw [typeChar, handleLocalInsertion, QTextDocument.mid_insert hposition]
      simp only [hline, hindex, hf, hget, bind, Except.bind, if_neg hnull, if_true, Sent.perform,
        LocalOp.perform, CRDT.localInsert, if_neg (hnonneg _ _), Int.toNat_natCast, hnew]
      rfl
    · obtain ⟨pos1, _, _, hpos1, -, hr, hins, -, hsite, -⟩ := insertNew_ok hnew
      rw [hsite]
      refine insertChar_all h.own ?_ hins
      exact generatePositionBetween_own hr (findPosBefore_all h.own (by simp [OwnSite]) hpos1)
        (by simp [OwnSite])

/-- **A faithful character** leaves text and replica in agreement. -/
theorem TypedAlone.step (h : TypedAlone s) (hposition : t.position ≤ s.1.chars.length)
    (hf : Faithful t.ch) : ∃ c', typeChar s t = .ok (s.1.insert t.position t.ch, c') ∧
      TypedAlone (s.1.insert t.position t.ch, c') := by
  obtain ⟨c', x, y, v, hrun, hg, hown⟩ := h.insert hposition hf.1
  refine ⟨c', hrun, hg.valid h.valid, ⟨?_, ?_⟩, hown⟩
  · have htext := h.agrees.text
    rw [hg.old, shown_append (by simp), ← h.agrees.take hposition, QTextDocument.toPlainText,
      ← List.take_append_drop t.position s.1.chars, List.map_append,
      List.take_append_drop t.position s.1.chars] at htext
    have hrest := List.append_cancel_left htext
    show (s.1.chars.take t.position ++ t.ch :: s.1.chars.drop t.position).map TextChar.value = _
    rw [hg.new, shown_append (by simp), ← h.agrees.take hposition, List.map_append, List.map_cons,
      hrest, ← hg.value]
    rfl
  · intro ch hch
    rcases List.mem_append.mp hch with hch | hch
    · exact h.agrees.blocks ch (List.mem_of_mem_take hch)
    · rcases List.mem_cons.mp hch with rfl | hch
      · exact hf.2
      · exact h.agrees.blocks ch (List.mem_of_mem_drop hch)

/-- A character that is not sent is missing at the end. -/
theorem TypedAlone.not_addresses_null (h : TypedAlone s) (hposition : t.position ≤ s.1.chars.length)
    (hnull : t.ch.value = QChar.null) : ¬ ∃ s', typeChar s t = .ok s' ∧ Addresses s' := by
  intro hex
  obtain ⟨s', hrun, ha⟩ := hex
  have hget : QVector.get [t.ch.value] 0 = .ok t.ch.value := rfl
  rw [typeChar, handleLocalInsertion, QTextDocument.mid_insert hposition] at hrun
  simp only [hget, bind, Except.bind, if_pos hnull] at hrun
  obtain rfl := Except.ok.inj hrun
  obtain ⟨x, hx, ho⟩ := ha.place _ le_rfl
  obtain ⟨cur⟩ := exists_cursor_of_symbolAt hx
  rw [offset_eq cur] at ho
  have hlength := congrArg List.length cur.flatten_eq
  rw [List.length_append, List.length_cons, ho, h.agrees.length h.valid.toWellFormed] at hlength
  simp only [QTextDocument.length_insert] at hlength
  omega

/-- Behind a newline that ends no block the line has no more symbols. -/
theorem TypedAlone.not_addresses_newline (h : TypedAlone s)
    (hposition : t.position ≤ s.1.chars.length) (hvalue : t.ch.value = QChar.newline)
    (hunit : t.ch.unit ≠ QChar.paragraphSeparator) :
    ¬ ∃ s', typeChar s t = .ok s' ∧ Addresses s' := by
  intro hex
  obtain ⟨s', hrun, ha⟩ := hex
  have hnull : t.ch.value ≠ QChar.null := by
    rw [hvalue]
    decide
  obtain ⟨c', x, y, v, hrun', hg, -⟩ := h.insert hposition hnull
  obtain rfl := Except.ok.inj (hrun'.symm.trans hrun)
  obtain ⟨z, hz, -⟩ := ha.place (t.position + 1) (by simpa using hposition)
  obtain ⟨cur, hbefore, -⟩ := hg.layout.exists_cursor hg.new
  obtain ⟨hright, -⟩ := cur.right_nil hg.layout (isNewline_iff.mpr (hg.value.trans hvalue))
  obtain ⟨hline, hindex⟩ := Prod.mk.inj (h.agrees.place hposition)
  have hends : ¬ t.ch.endsBlock = true := mt TextChar.endsBlock_iff.mp hunit
  simp only [QTextDocument.blockNumber, QTextDocument.positionInBlock,
    QTextDocument.take_insert_succ hposition, lineOf_concat, indexOf_concat, if_neg hends] at hz
  simp only [QTextDocument.blockNumber, QTextDocument.positionInBlock] at hline hindex
  rw [hline, hindex, symbolAt, cur.getElem?_line, hright] at hz
  have hnone : (cur.left ++ [x])[indexOf isNewline (s.2.symbols.flatten.take t.position) + 1]? =
      none := by
    rw [List.getElem?_eq_none_iff, List.length_append, List.length_singleton, cur.index_eq]
  rw [Option.bind_some, hnone] at hz
  cases hz

end Step

/-- **Coordinates**, from any text that has been typed alone. -/
theorem TypedAlone.addresses_iff {s : QTextDocument × CRDT} (h : TypedAlone s) (ts : List Typing)
    (hplaces : ∀ k t, ts[k]? = some t → t.position ≤ s.1.chars.length + k) :
    (∀ n ≤ ts.length, ∃ s', typeAll s (ts.take n) = .ok s' ∧ Addresses s') ↔
      ∀ t ∈ ts, Faithful t.ch := by
  induction ts generalizing s with
  | nil =>
    refine iff_of_true ?_ (by simp)
    intro n _
    exact ⟨s, by rw [List.take_nil]; rfl, h.addresses⟩
  | cons t ts ih =>
    have hposition : t.position ≤ s.1.chars.length := hplaces 0 t rfl
    by_cases hf : Faithful t.ch
    · obtain ⟨c', hrun, h'⟩ := h.step hposition hf
      have hrest := ih h' (by
        intro k t' hk
        have hle := hplaces (k + 1) t' hk
        rw [QTextDocument.length_insert]
        omega)
      rw [List.forall_mem_cons, and_iff_right hf, ← hrest]
      have hcons : ∀ n, typeAll s ((t :: ts).take (n + 1)) =
          typeAll (s.1.insert t.position t.ch, c') (ts.take n) := by
        intro n
        rw [List.take_succ_cons, typeAll, hrun]
        rfl
      constructor
      · intro hall n hn
        exact hcons n ▸ hall (n + 1) (Nat.succ_le_succ hn)
      · intro hall n hn
        cases n with
        | zero => exact ⟨s, rfl, h.addresses⟩
        | succ n => exact hcons n ▸ hall n (Nat.le_of_succ_le_succ hn)
    · have hbad : ¬ ∃ s', typeChar s t = .ok s' ∧ Addresses s' := by
        by_cases hnull : t.ch.value = QChar.null
        · exact h.not_addresses_null hposition hnull
        · obtain ⟨hvalue, hunit⟩ := Classical.not_imp.mp fun hb => hf ⟨hnull, hb⟩
          exact h.not_addresses_newline hposition hvalue hunit
      refine iff_of_false ?_ fun hall => hf (hall t List.mem_cons_self)
      intro hall
      obtain ⟨s', hrun, ha⟩ := hall 1 (by simp)
      obtain ⟨s1, h1, hrun⟩ := bind_eq_ok.mp hrun
      obtain rfl := Except.ok.inj hrun
      exact hbad ⟨s1, h1, ha⟩

theorem TypedAlone.created {siteId : Int} {font : QFont} {color : QColor} {chance : Chance}
    {c : CRDT} {m : Message}
    (hnew : (CRDT.clear siteId).localInsert 0 0 QChar.null font color Qt.AlignLeft chance =
      .ok (c, m))
    {d : QTextDocument} (hempty : d.chars = []) : TypedAlone (d, c) := by
  obtain ⟨t, hsymbols, hvalue, hposition, hown, hsite, -⟩ := created_symbols hnew
  refine ⟨?_, ⟨?_, ?_⟩, ?_⟩
  · rw [hsymbols]
    exact .single hvalue hposition
  · rw [hsymbols, QTextDocument.toPlainText, hempty]
    rfl
  · rw [hempty]
    intro ch hch
    cases hch
  · rw [hsymbols, hsite]
    simpa [AllPositions] using hown

/-- **Coordinates of a new file.** -/
theorem coordinates_iff {siteId : Int} {font : QFont} {color : QColor} {chance : Chance} {c : CRDT}
    {m : Message}
    (hnew : (CRDT.clear siteId).localInsert 0 0 QChar.null font color Qt.AlignLeft chance =
      .ok (c, m))
    {d : QTextDocument} (hempty : d.chars = []) (ts : List Typing)
    (hplaces : ∀ k (t : Typing), ts[k]? = some t → t.position ≤ k) :
    (∀ n ≤ ts.length, ∃ s, typeAll (d, c) (ts.take n) = .ok s ∧ Addresses s) ↔
      ∀ t ∈ ts, Faithful t.ch := by
  refine (TypedAlone.created hnew hempty).addresses_iff ts ?_
  intro k t hk
  rw [hempty, List.length_nil, Nat.zero_add]
  exact hplaces k t hk

theorem terminator_created : (CRDT.clear 1).localInsert 0 0 QChar.null default default Qt.AlignLeft
    ⟨⟨true, 0⟩, .alignLeft⟩ =
      .ok (⟨1, [[⟨QChar.null, [⟨1, 1⟩], 1, default⟩]], 1, [(0, true)], 0⟩,
        .insert ⟨QChar.null, [⟨1, 1⟩], 1, default⟩) := by
  decide +kernel

/-- A letter, and a line below it. -/
theorem coordinates_iff_below : ∃ c m, (CRDT.clear 1).localInsert 0 0 QChar.null default default
      Qt.AlignLeft ⟨⟨true, 0⟩, .alignLeft⟩ = .ok (c, m) ∧
    ∀ n ≤ 2, ∃ s, typeAll (typedText [], c)
      ([⟨⟨QChar.of 'a', default⟩, 0, default⟩,
        ⟨⟨QChar.paragraphSeparator, default⟩, 1, default⟩].take n) = .ok s ∧ Addresses s := by
  refine ⟨_, _, terminator_created, ?_⟩
  refine (coordinates_iff terminator_created rfl [⟨⟨QChar.of 'a', default⟩, 0, default⟩,
    ⟨⟨QChar.paragraphSeparator, default⟩, 1, default⟩] ?_).mpr ?_
  · intro k t hk
    obtain rfl | rfl | hle : k = 0 ∨ k = 1 ∨ 2 ≤ k := by omega
    · cases hk
      exact le_rfl
    · cases hk
      exact le_rfl
    · rw [List.getElem?_eq_none hle] at hk
      cases hk
  · simp [Faithful, TextChar.value, plainUnit, QChar.of, QChar.null, QChar.paragraphSeparator,
      QChar.newline, QChar.nbsp, QChar.beginningOfFrame, QChar.endOfFrame, QChar.lineSeparator]

/-- After a line separator the end of the text has no symbol. -/
theorem line_separator_not_addressed : ∃ c m, (CRDT.clear 1).localInsert 0 0 QChar.null default
      default Qt.AlignLeft ⟨⟨true, 0⟩, .alignLeft⟩ = .ok (c, m) ∧
    ¬ ∃ s, typeAll (typedText [], c) [⟨⟨QChar.lineSeparator, default⟩, 0, default⟩] = .ok s ∧
      Addresses s := by
  refine ⟨_, _, terminator_created, ?_⟩
  intro hex
  obtain ⟨s, hrun, ha⟩ := hex
  obtain ⟨s1, h1, hrun⟩ := bind_eq_ok.mp hrun
  obtain rfl := Except.ok.inj hrun
  exact (TypedAlone.created terminator_created rfl).not_addresses_newline
    (t := ⟨⟨QChar.lineSeparator, default⟩, 0, default⟩) le_rfl rfl (by decide) ⟨_, h1, ha⟩

end Scriba.Client
