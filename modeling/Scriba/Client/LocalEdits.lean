import Scriba.Lib.Run
import Scriba.Client.Document

/-! # The local operations

What each local operation does to a valid document, at a place where there is a symbol:
an `Inserts`, an `Erases` or a `Rewrites`, and the message that tells the others. -/

namespace Scriba.Client

open Scriba.Utility Scriba.Lib Scriba.Lib.Lines

/-- The position of the last symbol of `u`, none if there is none. -/
def posBefore (u : List Symbol) : Position := (u.getLast?.map Symbol.position).getD []

@[simp] theorem posBefore_nil : posBefore [] = [] := rfl

@[simp] theorem posBefore_concat (u : List Symbol) (y : Symbol) :
    posBefore (u ++ [y]) = y.position := by
  simp [posBefore]

section Places

variable {ls : Lines} {line index : Nat} {x : Symbol}

theorem findPosBefore_spec (h : ∀ l ∈ ls, l ≠ []) (c : Cursor ls line index x) :
    findPosBefore ls line index = .ok (posBefore c.before) := by
  obtain ⟨above, left, right, below, rfl, rfl, rfl⟩ := c
  rcases List.eq_nil_or_concat' left with rfl | ⟨left, y, rfl⟩
  · rcases List.eq_nil_or_concat' above with rfl | ⟨above, l, rfl⟩
    · rfl
    · obtain ⟨l, y, rfl⟩ := (List.eq_nil_or_concat' l).resolve_left (h l (by simp))
      have hb : posBefore ((above ++ [l ++ [y]]).flatten ++ []) = y.position := by
        simp [← List.append_assoc]
      simp only [Cursor.before, hb]
      simp [findPosBefore, bind, Except.bind, pure, Except.pure]
  · have hb : posBefore (above.flatten ++ (left ++ [y])) = y.position := by
      simp [← List.append_assoc]
    simp only [Cursor.before, hb]
    simp [findPosBefore, bind, Except.bind, pure, Except.pure]

theorem findPosAfter_spec (c : Cursor ls line index x) :
    findPosAfter ls line index = .ok x.position := by
  obtain ⟨above, left, right, below, rfl, rfl, rfl⟩ := c
  simp [findPosAfter, bind, Except.bind, pure, Except.pure]

end Places

/-! ## Insertion -/

/-- `s`, with value `value`, has been generated and inserted between `u` and `x :: v`. -/
structure Generates (c c' : CRDT) (value : QChar) (u : List Symbol) (s x : Symbol)
    (v : List Symbol) : Prop extends Inserts c.symbols c'.symbols u s (x :: v) where
  fits : Fits c.siteId (posBefore u) x.position s.position
  value : s.value = value
  siteId : c'.siteId = c.siteId
  size : c'.size = c.size + 1

@[simp] theorem alignNew_position (s : Symbol) (a : Option SymbolFormat.Alignment) :
    (alignNew s a).position = s.position := by
  unfold alignNew
  split <;> [split_ifs; skip] <;> rfl

@[simp] theorem alignNew_value (s : Symbol) (a : Option SymbolFormat.Alignment) :
    (alignNew s a).value = s.value := by
  unfold alignNew
  split <;> [split_ifs; skip] <;> rfl

theorem posBefore_lt {u v : List Symbol} {x : Symbol} (h : Ordered (u ++ x :: v))
    (hx : x.position ≠ []) : posBefore u < x.position := by
  rcases List.eq_nil_or_concat' u with rfl | ⟨u, y, rfl⟩
  · rw [posBefore_nil]
    obtain ⟨i, p, hp⟩ := List.exists_cons_of_ne_nil hx
    simp [hp]
  · rw [posBefore_concat]
    exact (Ordered.append.mp h).2.2 y (by simp) x (by simp)

theorem lt_of_posBefore_lt {u v : List Symbol} {p : Position} (h : Ordered (u ++ v))
    (hp : posBefore u < p) : ∀ y ∈ u, y.position < p := by
  intro y hy
  rcases List.eq_nil_or_concat' u with rfl | ⟨u, z, rfl⟩
  · cases hy
  · rw [posBefore_concat] at hp
    have ho := (Ordered.append.mp (Ordered.append.mp h).1).2.2
    rcases List.mem_append.mp hy with hy | hy
    · exact (ho y hy z (by simp)).trans hp
    · rwa [List.mem_singleton.mp hy]

theorem posBefore_digits {u v : List Symbol} (h : ∀ s ∈ u ++ v, ValidPosition s.position) :
    ∀ i ∈ posBefore u, 0 ≤ i.digit ∧ i.digit < BASE := by
  rcases List.eq_nil_or_concat' u with rfl | ⟨u, y, rfl⟩
  · simp
  · rw [posBefore_concat]
    exact (h y (by simp)).digits

theorem ValidPosition.ne_nil {p : Position} (h : ValidPosition p) : p ≠ [] := by
  obtain ⟨u, i, rfl, -⟩ := h.last
  simp

section Insertion

variable {c : CRDT} {u v : List Symbol} {x : Symbol}

/-- **A local insertion** throws exactly when the site is blocked between the two positions. -/
theorem insertNew_spec (h : ValidDocument c.symbols) (hf : c.symbols.flatten = u ++ x :: v)
    (value : QChar) (font : QFont) (color : QColor) (align : Option SymbolFormat.Alignment)
    (chance : Chance) :
    (c.insertNew (place u).1 (place u).2 value font color align chance = .error .invalidOrdering ∧
      Blocked c.siteId (posBefore u) x.position) ∨
    ∃ c' s, c.insertNew (place u).1 (place u).2 value font color align chance = .ok (c', s) ∧
      Generates c c' value u s x v ∧ ¬ Blocked c.siteId (posBefore u) x.position := by
  obtain ⟨cur, hcb, hca⟩ := h.layout.exists_cursor hf
  have hord := h.ordered
  have hpos := h.positions
  rw [hf] at hord hpos
  have hx := hpos x (by simp)
  have hb : findPosBefore c.symbols (place u).1 (place u).2 = .ok (posBefore u) :=
    (findPosBefore_spec h.layout.line_ne_nil cur).trans (by rw [hcb])
  have ha : findPosAfter c.symbols (place u).1 (place u).2 = .ok x.position :=
    findPosAfter_spec cur
  have hg := generatePositionBetween_spec c.siteId c.strategyCache chance.draw (posBefore u)
    x.position [] 0 (posBefore_digits hpos) (.inr ⟨hx, posBefore_lt hord hx.ne_nil⟩)
  simp only [CRDT.insertNew, hb, ha, bind, Except.bind, pure, Except.pure]
  rcases hg with ⟨r, cache, hr, hfit, hnb⟩ | ⟨hr, hblocked⟩
  · right
    rw [List.nil_append] at hr
    rw [hr]
    simp only [List.drop_zero] at hfit hnb
    generalize hs : alignNew (Symbol.ofFont value r (c.counter + 1) font color chance.align)
      align = s
    have hsp : s.position = r := by rw [← hs, alignNew_position, Symbol.ofFont_position]
    have hsv : s.value = value := by rw [← hs, alignNew_value, Symbol.ofFont_value]
    have hlt : ∀ y ∈ cur.before, y.position < s.position := by
      rw [hcb, hsp]
      exact lt_of_posBefore_lt hord hfit.gt
    obtain ⟨ls', hi, hins⟩ := insertChar_spec cur h.toArranged hlt
      (hsp ▸ hfit.lt.resolve_left hx.ne_nil)
    have hi' : insertChar c.symbols s (place u).1 (place u).2 = .ok ls' := hi
    refine ⟨⟨c.siteId, ls', c.counter + 1, cache, c.size + 1⟩, s, ?_,
      ⟨hcb ▸ hca ▸ hins, hsp ▸ hfit, hsv, rfl, rfl⟩, hnb⟩
    simp only [hs, hi']
  · left
    rw [hr]
    exact ⟨rfl, by simpa using hblocked⟩

theorem Generates.valid {c' : CRDT} {value : QChar} {s : Symbol}
    (g : Generates c c' value u s x v) (h : ValidDocument c.symbols) : ValidDocument c'.symbols :=
  g.toInserts.valid h g.fits.valid

/-- The text, character by character: each symbol goes between what precedes it and `x`. -/
inductive GeneratesAll (x : Symbol) (v : List Symbol) :
    CRDT → CRDT → QString → List Symbol → List Symbol → Prop
  | nil {c : CRDT} {u : List Symbol} : GeneratesAll x v c c [] u []
  | cons {c c1 c' : CRDT} {value : QChar} {text : QString} {u ss : List Symbol} {s : Symbol} :
      Generates c c1 value u s x v → GeneratesAll x v c1 c' text (u ++ [s]) ss →
      GeneratesAll x v c c' (value :: text) u (s :: ss)

theorem insertGroupLoop_spec (h : ValidDocument c.symbols)
    (hf : c.symbols.flatten = u ++ x :: v) (text : QString) (font : QFont) (color : QColor)
    (align : Nat) (chance : Nat → Chance) :
    c.insertGroupLoop (place u).1 (place u).2 text font color align chance =
        .error .invalidOrdering ∨
      ∃ c' ss, c.insertGroupLoop (place u).1 (place u).2 text font color align chance =
          .ok (c', place (u ++ ss), ss) ∧ GeneratesAll x v c c' text u ss := by
  induction text generalizing c u chance with
  | nil => exact .inr ⟨c, [], by simp [CRDT.insertGroupLoop, pure, Except.pure], .nil⟩
  | cons value text ih =>
    rcases insertNew_spec h hf value font color (alignOfGroup align) (chance 0) with
      ⟨he, -⟩ | ⟨c1, s, hs, hg, -⟩
    · left
      simp [CRDT.insertGroupLoop, he, bind, Except.bind]
    · have hnext : (if s.value = QChar.newline then ((place u).1 + 1, 0)
          else ((place u).1, (place u).2 + 1)) = place (u ++ [s]) := (place_concat u s).symm
      have hf1 : c1.symbols.flatten = (u ++ [s]) ++ x :: v := by simp [hg.new]
      rcases ih (hg.valid h) hf1 (fun n => chance (n + 1)) with he | ⟨c', ss, hss, hall⟩
      · left
        simp [CRDT.insertGroupLoop, hs, hnext, he, bind, Except.bind]
      · refine .inr ⟨c', s :: ss, ?_, .cons hg hall⟩
        simp [CRDT.insertGroupLoop, hs, hnext, hss, bind, Except.bind, pure, Except.pure]

/-- What a whole group leaves. -/
structure GeneratesAll.Facts (c c' : CRDT) (text : QString) (u ss : List Symbol) (x : Symbol)
    (v : List Symbol) : Prop where
  new : c'.symbols.flatten = u ++ ss ++ x :: v
  valid : ValidDocument c'.symbols
  text : ss.map Symbol.value = text
  siteId : c'.siteId = c.siteId
  size : c'.size = c.size + ss.length

theorem GeneratesAll.facts {c' : CRDT} {text : QString} {ss : List Symbol}
    (g : GeneratesAll x v c c' text u ss) (h : ValidDocument c.symbols)
    (hf : c.symbols.flatten = u ++ x :: v) : GeneratesAll.Facts c c' text u ss x v := by
  induction g with
  | nil => exact ⟨by simpa using hf, h, rfl, rfl, by simp⟩
  | @cons c c1 c' value text u ss s hg _ ih =>
    obtain ⟨h1, h2, h3, h4, h5⟩ := ih (hg.valid h) (by simp [hg.new])
    refine ⟨by simpa using h1, h2, by simp [hg.value, h3], h4.trans hg.siteId, ?_⟩
    rw [h5, hg.size, List.length_cons]
    omega

end Insertion

/-! ## Erasure -/

theorem eraseLoop_spec {c : CRDT} {u w v : List Symbol} (h : WellFormed c.symbols)
    (hf : c.symbols.flatten = u ++ w ++ v) (hv : v ≠ []) :
    ∃ ls', c.eraseLoop (place u).1 (place u).2 w.length =
        .ok ({ c with symbols := ls', size := c.size - w.length }, w) ∧
      Erases c.symbols ls' u w v := by
  induction w generalizing c with
  | nil => exact ⟨c.symbols, by simp [CRDT.eraseLoop, pure, Except.pure], h.layout, hf,
      by simpa using hf, hv⟩
  | cons x w ih =>
    obtain ⟨cur, hcb, hca⟩ := h.layout.exists_cursor
      (show c.symbols.flatten = u ++ x :: (w ++ v) by simp [hf])
    obtain ⟨ls1, he, hers⟩ := eraseChar_spec cur h.layout (by simp [hca, hv])
    rw [hcb, hca] at hers
    obtain ⟨ls', hl, herr⟩ := ih (c := { c with symbols := ls1, size := c.size - 1 })
      (hers.wellFormed h) (by simp [hers.new])
    have he' : CRDT.eraseChar c.symbols (place u).1 (place u).2 = .ok (ls1, x) := he
    refine ⟨ls', ?_, herr.layout, by simp [hf], herr.new, hv⟩
    simp only [CRDT.eraseLoop, List.length_cons, he', hl, bind, Except.bind, pure, Except.pure]
    congr 3
    push_cast
    omega

/-! ## Changes of format -/

/-- The symbols `ss` overwrite, one after the other, the symbols of the document they are. -/
inductive Overwrites : Lines → Lines → List Symbol → Prop
  | nil {ls : Lines} : Overwrites ls ls []
  | cons {ls ls1 ls' : Lines} {u v ss : List Symbol} {x s : Symbol} :
      Rewrites ls ls1 u [x] [s] v → Overwrites ls1 ls' ss → Overwrites ls ls' (s :: ss)

theorem Overwrites.append {ls ls1 ls' : Lines} {ss ss' : List Symbol} (h : Overwrites ls ls1 ss)
    (h' : Overwrites ls1 ls' ss') : Overwrites ls ls' (ss ++ ss') := by
  induction h with
  | nil => exact h'
  | cons hw _ ih => exact .cons hw (ih h')

theorem Overwrites.valid {ls ls' : Lines} {ss : List Symbol} (h : Overwrites ls ls' ss)
    (hd : ValidDocument ls) : ValidDocument ls' := by
  induction h with
  | nil => exact hd
  | cons hw _ ih => exact ih (hw.valid hd)

theorem Overwrites.map_letter {ls ls' : Lines} {ss : List Symbol} (h : Overwrites ls ls' ss) :
    ls'.flatten.map letter = ls.flatten.map letter := by
  induction h with
  | nil => rfl
  | cons hw _ ih => exact ih.trans hw.map_letter

theorem Overwrites.layout {ls ls' : Lines} {ss : List Symbol} (h : Overwrites ls ls' ss)
    (hl : Layout isNewline ls) : Layout isNewline ls' := by
  induction h with
  | nil => exact hl
  | cons hw _ ih => exact ih hw.layout

section Changes

variable {ls ls' : Lines} {font : QFont} {color : QColor}

/-- A change that did not fail was one of a symbol of the document. -/
theorem changeChar_ok {line i : Nat} {s : Symbol} (h : Layout isNewline ls)
    (hc : CRDT.changeChar ls line i font color = .ok (ls', s)) :
    ∃ u x v, Rewrites ls ls' u [x] [s] v ∧ s = x.setFormat font color := by
  obtain ⟨l, hl, hc'⟩ := bind_eq_ok.mp hc
  obtain ⟨x, hx, -⟩ := bind_eq_ok.mp hc'
  obtain ⟨cur⟩ := exists_cursor (QVector.get_eq_ok.mp hl) (QVector.get_eq_ok.mp hx)
  obtain ⟨ls1, h1, hw⟩ := changeChar_spec cur h font color
  obtain ⟨rfl, rfl⟩ := Prod.mk.inj (Except.ok.inj (h1.symm.trans hc))
  exact ⟨_, x, _, hw, rfl⟩

theorem changeSpan_ok {line i n : Nat} {ss : List Symbol} (h : Layout isNewline ls)
    (hc : CRDT.changeSpan ls line i font color n = .ok (ls', ss)) : Overwrites ls ls' ss := by
  induction n generalizing ls i ss with
  | zero =>
    obtain ⟨rfl, rfl⟩ := Prod.mk.inj (Except.ok.inj hc)
    exact .nil
  | succ n ih =>
    obtain ⟨⟨ls1, s⟩, h1, hc⟩ := bind_eq_ok.mp hc
    obtain ⟨⟨ls2, rest⟩, h2, hc⟩ := bind_eq_ok.mp hc
    obtain ⟨rfl, rfl⟩ := Prod.mk.inj (Except.ok.inj hc)
    obtain ⟨u, x, v, hw, -⟩ := changeChar_ok h h1
    exact .cons hw (ih hw.layout h2)

theorem changeLines_ok {j n : Nat} {ss : List Symbol} (h : Layout isNewline ls)
    (hc : CRDT.changeLines ls j font color n = .ok (ls', ss)) : Overwrites ls ls' ss := by
  induction n generalizing ls j ss with
  | zero =>
    obtain ⟨rfl, rfl⟩ := Prod.mk.inj (Except.ok.inj hc)
    exact .nil
  | succ n ih =>
    obtain ⟨l, -, hc⟩ := bind_eq_ok.mp hc
    obtain ⟨⟨ls1, first⟩, h1, hc⟩ := bind_eq_ok.mp hc
    obtain ⟨⟨ls2, rest⟩, h2, hc⟩ := bind_eq_ok.mp hc
    obtain ⟨rfl, rfl⟩ := Prod.mk.inj (Except.ok.inj hc)
    have hw := changeSpan_ok h h1
    exact hw.append (ih (hw.layout h) h2)

/-- Whatever the range, what `localChangeGroup` overwrites is what it broadcasts. -/
theorem changeRange_ok {startLine endLine startIndex endIndex : Nat} {ss : List Symbol}
    (h : Layout isNewline ls)
    (hc : CRDT.changeRange ls startLine endLine startIndex endIndex font color = .ok (ls', ss)) :
    Overwrites ls ls' ss := by
  unfold CRDT.changeRange at hc
  split_ifs at hc with hline
  · exact changeSpan_ok h hc
  · obtain ⟨l, -, hc⟩ := bind_eq_ok.mp hc
    obtain ⟨⟨ls1, first⟩, h1, hc⟩ := bind_eq_ok.mp hc
    obtain ⟨⟨ls2, middle⟩, h2, hc⟩ := bind_eq_ok.mp hc
    obtain ⟨⟨ls3, last⟩, h3, hc⟩ := bind_eq_ok.mp hc
    obtain ⟨rfl, rfl⟩ := Prod.mk.inj (Except.ok.inj hc)
    have hw1 := changeSpan_ok h h1
    have hw2 := changeLines_ok (hw1.layout h) h2
    exact (hw1.append hw2).append (changeSpan_ok (hw2.layout (hw1.layout h)) h3)

/-- `v` starts a new line, if there is any of it. -/
def EndsLine (x : Symbol) (v : List Symbol) : Prop := x.value = QChar.newline ∨ v = []

/-- `localChangeAlignment` overwrites the last symbol of the line. -/
theorem changeLast_ok {line : Nat} {l l1 : List Symbol} {x : Symbol}
    {align : SymbolFormat.Alignment} (h : Layout isNewline ls)
    (hl : QVector.get ls line = .ok l) (hx : lastSymbol l = .ok x)
    (h1 : QVector.put l (l.length - 1) (x.setAlignment align) = .ok l1)
    (h2 : QVector.put ls line l1 = .ok ls') :
    ∃ u v, Rewrites ls ls' u [x] [x.setAlignment align] v ∧ EndsLine x v := by
  obtain ⟨cur⟩ := exists_cursor (QVector.get_eq_ok.mp hl) (QVector.get_eq_ok.mp hx)
  have hline : l = cur.left ++ x :: cur.right :=
    Option.some.inj ((QVector.get_eq_ok.mp hl).symm.trans cur.getElem?_line)
  have hright : cur.right = [] := by
    have hi := cur.index_eq
    have hlen := congrArg List.length hline
    simp only [List.length_append, List.length_cons] at hlen
    exact List.length_eq_zero_iff.mp (by omega)
  obtain ⟨l', ls', -, hp, hp', hw⟩ := putSymbol_spec cur h (s := x.setAlignment align) rfl
  rw [← hline, h1] at hp
  obtain rfl := Except.ok.inj hp
  obtain rfl := Except.ok.inj (h2.symm.trans hp')
  refine ⟨_, _, hw, ?_⟩
  simpa [EndsLine] using (cur.right_eq_nil_iff h).mp hright

end Changes

/-! ## Any local operation -/

/-- What an operation that returns has computed, and what it broadcast. -/
inductive Performed (c c' : CRDT) : LocalOp → Message → Prop
  | insert {line index : Int} {value : QChar} {font : QFont} {color : QColor} {align : Nat}
      {chance : Chance} {s : Symbol} :
      c.insertNew line.toNat index.toNat value font color (alignOfInsert align) chance =
        .ok (c', s) →
      Performed c c' (.insert line index value font color align chance) (.insert s)
  | insertGroup {line index : Int} {text : QString} {font : QFont} {color : QColor} {align : Nat}
      {chance : Nat → Chance} {pl : Nat × Nat} {ss : List Symbol} :
      c.insertGroupLoop line.toNat index.toNat text font color align chance = .ok (c', pl, ss) →
      Performed c c' (.insertGroup line index text font color align chance) (.paste ss)
  | erase {line index lenght : Nat} {ss : List Symbol} :
      c.eraseLoop line index lenght = .ok (c', ss) →
      Performed c c' (.erase line index lenght) (.erase ss)
  | change {line index : Nat} {font : QFont} {color : QColor} {ls' : Lines} {s : Symbol} :
      CRDT.changeChar c.symbols line index font color = .ok (ls', s) →
      c' = { c with symbols := ls' } →
      Performed c c' (.change line index font color) (.changeSymbol s)
  | changeGroup {startLine endLine startIndex endIndex : Int} {font : QFont} {color : QColor}
      {ls' : Lines} {ss : List Symbol} :
      CRDT.changeRange c.symbols startLine.toNat endLine.toNat startIndex.toNat endIndex.toNat
        font color = .ok (ls', ss) →
      c' = { c with symbols := ls' } →
      Performed c c' (.changeGroup startLine endLine startIndex endIndex font color) (.change ss)
  | changeAlignment {line : Nat} {align : SymbolFormat.Alignment} {l l' : List Symbol}
      {ls' : Lines} {x : Symbol} :
      QVector.get c.symbols line = .ok l → lastSymbol l = .ok x →
      QVector.put l (l.length - 1) (x.setAlignment align) = .ok l' →
      QVector.put c.symbols line l' = .ok ls' → c' = { c with symbols := ls' } →
      Performed c c' (.changeAlignment line align) (.align (x.setAlignment align))

theorem performed_of_ok {c c' : CRDT} {op : LocalOp} {m : Message}
    (hp : op.perform c = .ok (c', m)) : Performed c c' op m := by
  cases op with
  | insert line index value font color align chance =>
    simp only [LocalOp.perform, CRDT.localInsert] at hp
    split_ifs at hp
    · obtain ⟨_, he, -⟩ := bind_eq_ok.mp hp
      cases he
    · obtain ⟨⟨c1, s⟩, h1, hp⟩ := bind_eq_ok.mp hp
      obtain ⟨rfl, rfl⟩ := Prod.mk.inj (Except.ok.inj hp)
      exact .insert h1
  | insertGroup line index text font color align chance =>
    simp only [LocalOp.perform, CRDT.localInsertGroup] at hp
    obtain ⟨⟨c1, pl, m1⟩, h1, hp⟩ := bind_eq_ok.mp hp
    obtain ⟨rfl, rfl⟩ := Prod.mk.inj (Except.ok.inj hp)
    split_ifs at h1
    · obtain ⟨_, he, -⟩ := bind_eq_ok.mp h1
      cases he
    · obtain ⟨⟨c2, pl2, ss⟩, hs, h1⟩ := bind_eq_ok.mp h1
      simp only [pure, Except.pure, Except.ok.injEq, Prod.mk.injEq] at h1
      obtain ⟨rfl, -, rfl⟩ := h1
      exact .insertGroup hs
  | erase line index lenght =>
    obtain ⟨⟨c1, ss⟩, h1, hp⟩ := bind_eq_ok.mp hp
    obtain ⟨rfl, rfl⟩ := Prod.mk.inj (Except.ok.inj hp)
    exact .erase h1
  | change line index font color =>
    obtain ⟨⟨ls', s⟩, h1, hp⟩ := bind_eq_ok.mp hp
    obtain ⟨rfl, rfl⟩ := Prod.mk.inj (Except.ok.inj hp)
    exact .change h1 rfl
  | changeGroup startLine endLine startIndex endIndex font color =>
    simp only [LocalOp.perform, CRDT.localChangeGroup] at hp
    split_ifs at hp
    · obtain ⟨_, he, -⟩ := bind_eq_ok.mp hp
      cases he
    · obtain ⟨⟨ls', ss⟩, h1, hp⟩ := bind_eq_ok.mp hp
      obtain ⟨rfl, rfl⟩ := Prod.mk.inj (Except.ok.inj hp)
      exact .changeGroup h1 rfl
  | changeAlignment line align =>
    obtain ⟨l, hl, hp⟩ := bind_eq_ok.mp hp
    obtain ⟨x, hx, hp⟩ := bind_eq_ok.mp hp
    obtain ⟨l', hl', hp⟩ := bind_eq_ok.mp hp
    obtain ⟨ls', h2, hp⟩ := bind_eq_ok.mp hp
    obtain ⟨rfl, rfl⟩ := Prod.mk.inj (Except.ok.inj hp)
    exact .changeAlignment hl hx hl' h2 rfl

theorem isEdit_of_perform {c c' : CRDT} {op : LocalOp} {m : Message} (hop : op.IsEdit)
    (h : op.perform c = .ok (c', m)) : m.IsEdit := by
  cases performed_of_ok h with
  | insert | insertGroup | erase => trivial
  | change | changeGroup | changeAlignment => exact hop.elim

/-- There is a symbol at the place. -/
def Existing (ls : Lines) (line index : Nat) : Prop := ∃ l ∈ ls[line]?, index < l.length

/-- How many symbols follow a place, the one at it included. -/
def remaining (ls : Lines) (line index : Nat) : Nat := ((ls.drop line).flatten.drop index).length

/-- What an operation asks of its place: an insertion or an erasure is at a symbol, and an
erasure does not reach the terminator. -/
def LocalOp.Legal (ls : Lines) : LocalOp → Prop
  | .insert line index .. => 0 ≤ line ∧ 0 ≤ index ∧ Existing ls line.toNat index.toNat
  | .insertGroup line index .. => 0 ≤ line ∧ 0 ≤ index ∧ Existing ls line.toNat index.toNat
  | .erase line index lenght => Existing ls line index ∧ lenght < remaining ls line index
  | _ => True

instance (ls : Lines) (line index : Nat) : Decidable (Existing ls line index) :=
  decidable_of_iff ((ls[line]?).any (fun l => index < l.length) = true) (by
    simp [Existing, Option.any_eq_true])

instance (op : LocalOp) : Decidable op.IsEdit :=
  match op with
  | .insert .. | .insertGroup .. | .erase .. => .isTrue trivial
  | .change .. | .changeGroup .. | .changeAlignment .. => .isFalse id

instance (ls : Lines) (op : LocalOp) : Decidable (op.Legal ls) :=
  match op with
  | .insert line index .. | .insertGroup line index .. =>
    inferInstanceAs (Decidable (0 ≤ line ∧ 0 ≤ index ∧ Existing ls line.toNat index.toNat))
  | .erase line index lenght =>
    inferInstanceAs (Decidable (Existing ls line index ∧ lenght < remaining ls line index))
  | .change .. | .changeGroup .. | .changeAlignment .. => .isTrue trivial

/-- What an operation did, at which place, with the message it broadcast. -/
inductive LocalEffect (c c' : CRDT) : LocalOp → Message → Prop
  | insert {line index : Int} {value : QChar} {font : QFont} {color : QColor} {align : Nat}
      {chance : Chance} {u v : List Symbol} {s x : Symbol} :
      Generates c c' value u s x v → place u = (line.toNat, index.toNat) →
      LocalEffect c c' (.insert line index value font color align chance) (.insert s)
  | paste {line index : Int} {text : QString} {font : QFont} {color : QColor} {align : Nat}
      {chance : Nat → Chance} {u v ss : List Symbol} {x : Symbol} :
      c.symbols.flatten = u ++ x :: v → GeneratesAll x v c c' text u ss →
      place u = (line.toNat, index.toNat) →
      LocalEffect c c' (.insertGroup line index text font color align chance) (.paste ss)
  | erase {line index : Nat} {ls' : Lines} {u w v : List Symbol} :
      Erases c.symbols ls' u w v → c' = { c with symbols := ls', size := c.size - w.length } →
      place u = (line, index) → LocalEffect c c' (.erase line index w.length) (.erase w)
  | changeSymbol {line index : Nat} {font : QFont} {color : QColor} {ls' : Lines}
      {u v : List Symbol} {x s : Symbol} :
      Rewrites c.symbols ls' u [x] [s] v → c' = { c with symbols := ls' } →
      LocalEffect c c' (.change line index font color) (.changeSymbol s)
  | change {startLine endLine startIndex endIndex : Int} {font : QFont} {color : QColor}
      {ls' : Lines} {ss : List Symbol} :
      Overwrites c.symbols ls' ss → c' = { c with symbols := ls' } →
      LocalEffect c c' (.changeGroup startLine endLine startIndex endIndex font color) (.change ss)
  | align {line : Nat} {align : SymbolFormat.Alignment} {ls' : Lines} {u v : List Symbol}
      {x : Symbol} :
      Rewrites c.symbols ls' u [x] [x.setAlignment align] v → EndsLine x v →
      c' = { c with symbols := ls' } →
      LocalEffect c c' (.changeAlignment line align) (.align (x.setAlignment align))

theorem Existing.exists_split {ls : Lines} {line index : Nat} (h : Layout isNewline ls)
    (he : Existing ls line index) :
    ∃ u x v, ls.flatten = u ++ x :: v ∧ place u = (line, index) ∧
      remaining ls line index = v.length + 1 := by
  obtain ⟨l, hl, hi⟩ := he
  obtain ⟨cur⟩ := exists_cursor (Option.mem_def.mp hl) (List.getElem?_eq_getElem hi)
  obtain ⟨h1, h2⟩ := cur.place h
  refine ⟨_, _, _, cur.flatten_eq, Prod.ext h1.symm h2.symm, ?_⟩
  obtain ⟨above, left, right, below, rfl, rfl, rfl⟩ := cur
  simp [remaining, Cursor.after]

/-- **The local operations**, where they do not throw. -/
theorem perform_effect {c c' : CRDT} {m : Message} {op : LocalOp} (h : ValidDocument c.symbols)
    (hl : op.Legal c.symbols) (hp : op.perform c = .ok (c', m)) : LocalEffect c c' op m := by
  cases performed_of_ok hp with
  | @insert line index value font color align chance s hs =>
    obtain ⟨-, -, he⟩ := hl
    obtain ⟨u, x, v, hf, hpl, -⟩ := he.exists_split h.layout
    have hnew := insertNew_spec h hf value font color (alignOfInsert align) chance
    rw [hpl] at hnew
    rcases hnew with ⟨herr, -⟩ | ⟨c2, s2, hok, hg, -⟩
    · simp [hs] at herr
    · obtain ⟨rfl, rfl⟩ := Prod.mk.inj (Except.ok.inj (hs.symm.trans hok))
      exact .insert hg hpl
  | @insertGroup line index text font color align chance pl ss hs =>
    obtain ⟨-, -, he⟩ := hl
    obtain ⟨u, x, v, hf, hpl, -⟩ := he.exists_split h.layout
    have hloop := insertGroupLoop_spec h hf text font color align chance
    rw [hpl] at hloop
    rcases hloop with herr | ⟨c3, ss3, hok, hg⟩
    · simp [hs] at herr
    · obtain ⟨rfl, hr⟩ := Prod.mk.inj (Except.ok.inj (hs.symm.trans hok))
      obtain ⟨-, rfl⟩ := Prod.mk.inj hr
      exact .paste hf hg hpl
  | @erase line index lenght ss hs =>
    obtain ⟨he, hlen⟩ := hl
    obtain ⟨u, x, v, hf, hpl, hr⟩ := he.exists_split h.layout
    have hle : lenght ≤ (x :: v).length := by simp only [List.length_cons]; omega
    have hf' : c.symbols.flatten = u ++ (x :: v).take lenght ++ (x :: v).drop lenght := by
      rw [List.append_assoc, List.take_append_drop, hf]
    have hne : (x :: v).drop lenght ≠ [] := by
      rw [ne_eq, List.drop_eq_nil_iff, List.length_cons]
      omega
    obtain ⟨ls', hloop, hers⟩ := eraseLoop_spec h.toWellFormed hf' hne
    rw [hpl, List.length_take_of_le hle] at hloop
    obtain ⟨rfl, rfl⟩ := Prod.mk.inj (Except.ok.inj (hs.symm.trans hloop))
    have e := LocalEffect.erase (c := c) hers rfl hpl
    rwa [List.length_take_of_le hle] at e
  | change h1 hc =>
    obtain ⟨u, x, v, hw, -⟩ := changeChar_ok h.layout h1
    exact .changeSymbol hw hc
  | changeGroup h1 hc => exact .change (changeRange_ok h.layout h1) hc
  | changeAlignment hline hx h1 h2 hc =>
    obtain ⟨u, v, hw, he⟩ := changeLast_ok h.layout hline hx h1 h2
    exact .align hw he hc

/-- A client that has just opened a document. -/
def CRDT.opened (siteId : Int) (symbols : Lines) : CRDT :=
  { siteId, symbols, counter := 0, strategyCache := [], size := symbols.flatten.length - 1 }

/-- What an insertion that returns has generated and inserted, in any document. -/
theorem insertNew_ok {c c' : CRDT} {line index : Nat} {value : QChar} {font : QFont}
    {color : QColor} {align : Option SymbolFormat.Alignment} {chance : Chance} {s : Symbol}
    (h : c.insertNew line index value font color align chance = .ok (c', s)) :
    ∃ pos1 pos2 cache, findPosBefore c.symbols line index = .ok pos1 ∧
      findPosAfter c.symbols line index = .ok pos2 ∧
      generatePositionBetween c.siteId c.strategyCache chance.draw pos1 pos2 [] 0 =
        .ok (s.position, cache) ∧
      insertChar c.symbols s line index = .ok c'.symbols ∧ s.value = value ∧
      c'.siteId = c.siteId ∧ c'.size = c.size + 1 := by
  obtain ⟨pos1, h1, h⟩ := bind_eq_ok.mp h
  obtain ⟨pos2, h2, h⟩ := bind_eq_ok.mp h
  obtain ⟨⟨r, cache⟩, hr, h⟩ := bind_eq_ok.mp h
  obtain ⟨ls', hls, h⟩ := bind_eq_ok.mp h
  obtain ⟨rfl, rfl⟩ := Prod.mk.inj (Except.ok.inj h)
  refine ⟨pos1, pos2, cache, h1, h2, ?_, hls, ?_, rfl, rfl⟩
  · rwa [alignNew_position, Symbol.ofFont_position]
  · rw [alignNew_value, Symbol.ofFont_value]

/-- What the creation of a file leaves: the terminator. -/
theorem created_symbols {siteId : Int} {font : QFont} {color : QColor} {align : Nat}
    {chance : Chance} {c : CRDT} {m : Message}
    (h : (CRDT.clear siteId).localInsert 0 0 QChar.null font color align chance = .ok (c, m)) :
    ∃ t, c.symbols = [[t]] ∧ t.value = QChar.null ∧ ValidPosition t.position ∧
      OwnSite siteId t.position ∧ c.siteId = siteId ∧ c.size = 0 := by
  obtain ⟨⟨c1, t⟩, h1, h⟩ := bind_eq_ok.mp h
  obtain ⟨rfl, -⟩ := Prod.mk.inj (Except.ok.inj h)
  obtain ⟨pos1, pos2, cache, hpos1, hpos2, hr, hls, hvalue, hsite, hsize⟩ := insertNew_ok h1
  obtain rfl : pos1 = [] := (Except.ok.inj hpos1).symm
  obtain rfl : pos2 = [] := (Except.ok.inj hpos2).symm
  obtain ⟨hv, -⟩ := generatePositionBetween_ok hr (by simp) (by simp) (by simp)
  have hown := generatePositionBetween_own hr (by simp [OwnSite]) (by simp [OwnSite])
  have hne : QChar.null ≠ QChar.newline := by decide
  have hins : insertChar (CRDT.clear siteId).symbols t 0 0 = .ok [[t]] := by
    simp [insertChar, CRDT.clear, QVector.get, QVector.insert, QVector.put, hvalue, hne, bind,
      Except.bind]
  exact ⟨t, Except.ok.inj (hls.symm.trans hins), hvalue, hv, hown, hsite, hsize⟩

/-- What `size` is short of the number of symbols: 1 once the terminator is there. -/
def CRDT.uncounted (c : CRDT) : Int := c.symbols.flatten.length - c.size

namespace LocalEffect

variable {c c' : CRDT} {op : LocalOp} {m : Message}

theorem valid (e : LocalEffect c c' op m) (h : ValidDocument c.symbols) :
    ValidDocument c'.symbols := by
  cases e with
  | insert hg _ => exact hg.valid h
  | paste hf hg _ => exact (hg.facts h hf).valid
  | erase he hc _ => exact hc ▸ he.valid h
  | changeSymbol hw hc => exact hc ▸ hw.valid h
  | change hw hc => exact hc ▸ hw.valid h
  | align hw _ hc => exact hc ▸ hw.valid h

theorem uncounted (e : LocalEffect c c' op m) (h : ValidDocument c.symbols) :
    c'.uncounted = c.uncounted := by
  unfold CRDT.uncounted
  cases e with
  | insert hg _ =>
    have h1 := congrArg List.length hg.old
    have h2 := congrArg List.length hg.new
    simp only [List.length_append, List.length_cons] at h1 h2
    rw [hg.size]
    omega
  | paste hf hg _ =>
    have hfacts := hg.facts h hf
    have h1 := congrArg List.length hf
    have h2 := congrArg List.length hfacts.new
    simp only [List.length_append, List.length_cons] at h1 h2
    rw [hfacts.size]
    omega
  | erase he hc _ =>
    subst hc
    have h1 := congrArg List.length he.old
    have h2 := congrArg List.length he.new
    simp only [List.length_append] at h1 h2 ⊢
    omega
  | changeSymbol hw hc =>
    subst hc
    have h1 := congrArg List.length hw.map_letter
    simp only [List.length_map] at h1 ⊢
    omega
  | change hw hc =>
    subst hc
    have h1 := congrArg List.length hw.map_letter
    simp only [List.length_map] at h1 ⊢
    omega
  | align hw _ hc =>
    subst hc
    have h1 := congrArg List.length hw.map_letter
    simp only [List.length_map] at h1 ⊢
    omega

end LocalEffect

end Scriba.Client
