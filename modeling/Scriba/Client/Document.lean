import Mathlib.Data.List.Nodup
import Mathlib.Tactic.SplitIfs
import Scriba.Lib.Lines
import Scriba.Client.Crdt

/-! # Documents

What the operations of `CRDT` keep: the lines are laid out (`Lib.Lines.Layout`), the
positions increase and the terminator comes last. The edits of the model are computed
at a cursor: each keeps the layout and edits the flattened document there. -/

namespace Scriba.Client

open Scriba.Utility Scriba.Lib.Lines

def isNewline (s : Symbol) : Bool := s.value == QChar.newline

@[simp] theorem isNewline_iff {s : Symbol} : isNewline s = true ↔ s.value = QChar.newline := by
  simp [isNewline]

@[simp] theorem isNewline_false {s : Symbol} : isNewline s = false ↔ s.value ≠ QChar.newline := by
  simp [isNewline]

/-- Line and index of what comes after `u` in a document. -/
def place (u : List Symbol) : Nat × Nat := (lineOf isNewline u, indexOf isNewline u)

@[simp] theorem place_nil : place [] = (0, 0) := rfl

theorem place_concat (u : List Symbol) (s : Symbol) :
    place (u ++ [s]) = if s.value = QChar.newline then ((place u).1 + 1, 0)
      else ((place u).1, (place u).2 + 1) := by
  simp only [place, lineOf_concat, indexOf_concat, isNewline_iff]
  split_ifs <;> rfl

/-- Positions strictly increase. -/
def Ordered (xs : List Symbol) : Prop := xs.Pairwise fun a b => a.position < b.position

/-- Non-empty lines, a newline exactly at the end of every line but the last, positions
increasing. -/
structure Arranged (ls : Lines) : Prop where
  layout : Layout isNewline ls
  ordered : Ordered ls.flatten

/-- A document: it has its terminator at the end. -/
structure WellFormed (ls : Lines) : Prop extends Arranged ls where
  terminated : ∃ xs t, ls.flatten = xs ++ [t] ∧ t.value = QChar.null

/-- A document whose positions are of the kind sites generate. -/
structure ValidDocument (ls : Lines) : Prop extends WellFormed ls where
  positions : ∀ s ∈ ls.flatten, ValidPosition s.position

theorem Ordered.append {xs ys : List Symbol} :
    Ordered (xs ++ ys) ↔ Ordered xs ∧ Ordered ys ∧ ∀ a ∈ xs, ∀ b ∈ ys, a.position < b.position :=
  List.pairwise_append

theorem Ordered.head_le {xs : List Symbol} {x t : Symbol} (h : Ordered xs)
    (hx : xs.head? = some x) (ht : xs.getLast? = some t) : x.position ≤ t.position := by
  obtain ⟨a, rfl⟩ := List.getLast?_eq_some_iff.mp ht
  cases a with
  | nil => exact (Option.some.inj hx) ▸ le_rfl
  | cons y a =>
    obtain rfl : y = x := Option.some.inj hx
    exact (List.rel_of_pairwise_cons h (by simp)).le

theorem Ordered.cons {x : Symbol} {ys : List Symbol} :
    Ordered (x :: ys) ↔ (∀ b ∈ ys, x.position < b.position) ∧ Ordered ys :=
  List.pairwise_cons

theorem Ordered.lt_getLast {xs : List Symbol} {s t : Symbol} (h : Ordered xs)
    (ht : xs.getLast? = some t) (hs : s ∈ xs) (hne : s ≠ t) : s.position < t.position := by
  obtain ⟨a, rfl⟩ := List.getLast?_eq_some_iff.mp ht
  rcases List.mem_append.mp hs with hs | hs
  · exact (Ordered.append.mp h).2.2 s hs t (by simp)
  · exact absurd (List.mem_singleton.mp hs) hne

theorem Ordered.insert {u v : List Symbol} {s : Symbol} (h : Ordered (u ++ v))
    (hu : ∀ y ∈ u, y.position < s.position) (hv : ∀ y ∈ v, s.position < y.position) :
    Ordered (u ++ s :: v) := by
  obtain ⟨h1, h2, h3⟩ := Ordered.append.mp h
  refine Ordered.append.mpr ⟨h1, Ordered.cons.mpr ⟨hv, h2⟩, fun a ha b hb => ?_⟩
  rcases List.mem_cons.mp hb with rfl | hb
  · exact hu a ha
  · exact h3 a ha b hb

theorem Ordered.erase {u v w : List Symbol} (h : Ordered (u ++ w ++ v)) : Ordered (u ++ v) :=
  h.sublist (by simp)

theorem Ordered.mem_erase {u v w : List Symbol} (h : Ordered (u ++ w ++ v)) {y : Symbol} :
    y ∈ u ++ v ↔ y ∈ u ++ w ++ v ∧ ∀ s ∈ w, s.position ≠ y.position := by
  rw [List.append_assoc] at h
  obtain ⟨-, hwv, hu⟩ := Ordered.append.mp h
  obtain ⟨-, -, hw⟩ := Ordered.append.mp hwv
  simp only [List.mem_append]
  constructor
  · intro hor
    rcases hor with hy | hy
    · exact ⟨.inl (.inl hy), fun s hs he => lt_irrefl _ (he ▸ hu y hy s (by simp [hs]))⟩
    · exact ⟨.inr hy, fun s hs he => lt_irrefl _ (he ▸ hw s hs y hy)⟩
  · intro hex
    obtain ⟨(hy | hy) | hy, hne⟩ := hex
    · exact .inl hy
    · exact absurd rfl (hne y hy)
    · exact .inr hy

theorem Ordered.nodup {xs : List Symbol} (h : Ordered xs) : (xs.map Symbol.position).Nodup :=
  List.pairwise_map.mpr (List.Pairwise.imp (fun hlt => ne_of_lt hlt) h)

/-- In an ordered document a position names one symbol. -/
theorem Ordered.inj {xs : List Symbol} (h : Ordered xs) {a b : Symbol} (ha : a ∈ xs) (hb : b ∈ xs)
    (he : a.position = b.position) : a = b :=
  List.inj_on_of_nodup_map h.nodup ha hb he

/-- Two ordered documents with the same symbols are equal. -/
theorem Ordered.ext {xs ys : List Symbol} (hx : Ordered xs) (hy : Ordered ys)
    (h : ∀ s, s ∈ xs ↔ s ∈ ys) : xs = ys :=
  ((List.perm_ext_iff_of_nodup (.of_map _ hx.nodup) (.of_map _ hy.nodup)).mpr h).eq_of_pairwise
    (fun _ _ _ _ hab hba => absurd hab (lt_asymm hba)) hx hy

/-- A symbol with the default format. -/
def plain (value : QChar) (position : Position) : Symbol := ⟨value, position, 0, default⟩

/-- The document of a new file. -/
theorem ValidDocument.single {t : Symbol} (ht : t.value = QChar.null)
    (hp : ValidPosition t.position) : ValidDocument [[t]] where
  layout := .last ⟨by simp, by simp [ht, QChar.null, QChar.newline, QChar.of]⟩
  ordered := List.pairwise_singleton _ _
  terminated := ⟨[], t, rfl, ht⟩
  positions := by simpa using hp

theorem validPosition_single {digit site : Int} (h : 1 ≤ digit) (hb : digit < BASE) :
    ValidPosition [⟨digit, site⟩] :=
  ⟨by simp; omega, [], ⟨digit, site⟩, rfl, h⟩

/-- The symbol at a place. -/
def symbolAt (ls : Lines) (line index : Nat) : Option Symbol := ls[line]?.bind (·[index]?)

theorem symbolAt_cursor {ls : Lines} {line index : Nat} {x : Symbol} (c : Cursor ls line index x) :
    symbolAt ls line index = some x := by
  rw [symbolAt, c.getElem?_line, Option.bind_some, c.getElem?_index]

theorem exists_cursor_of_symbolAt {ls : Lines} {line index : Nat} {x : Symbol}
    (h : symbolAt ls line index = some x) : Nonempty (Cursor ls line index x) := by
  obtain ⟨l, hl, hx⟩ := Option.bind_eq_some_iff.mp h
  exact exists_cursor hl hx

theorem split_at {xs : List Symbol} {i : Nat} (hi : i < xs.length) :
    xs = xs.take i ++ xs[i] :: xs.drop (i + 1) := by
  rw [← List.drop_eq_getElem_cons hi, List.take_append_drop]

/-- The symbol at an offset. -/
theorem exists_cursor_at {ls : Lines} (h : Layout isNewline ls) {i : Nat}
    (hi : i < ls.flatten.length) :
    ∃ c : Cursor ls (place (ls.flatten.take i)).1 (place (ls.flatten.take i)).2 ls.flatten[i],
      c.before = ls.flatten.take i ∧ c.before.length = i := by
  obtain ⟨c, hbefore, -⟩ := h.exists_cursor (split_at hi)
  exact ⟨c, hbefore, (congrArg List.length hbefore).trans (List.length_take_of_le hi.le)⟩

/-- The offset of a place in the sequence of all symbols. -/
def offset (ls : Lines) (line index : Nat) : Nat := (ls.take line).flatten.length + index

theorem offset_eq {ls : Lines} {line index : Nat} {x : Symbol} (c : Cursor ls line index x) :
    offset ls line index = c.before.length := by
  obtain ⟨above, left, right, below, rfl, rfl, rfl⟩ := c
  simp [offset, Cursor.before]

/-! ## Edits of a document -/

/-- `s` goes between `u` and `v`. -/
structure Inserts (ls ls' : Lines) (u : List Symbol) (s : Symbol) (v : List Symbol) : Prop where
  layout : Layout isNewline ls'
  old : ls.flatten = u ++ v
  new : ls'.flatten = u ++ s :: v
  lower : ∀ y ∈ u, y.position < s.position
  upper : ∀ y ∈ v, s.position < y.position
  ne_nil : v ≠ []

/-- `w` is removed from between `u` and `v`. -/
structure Erases (ls ls' : Lines) (u w v : List Symbol) : Prop where
  layout : Layout isNewline ls'
  old : ls.flatten = u ++ w ++ v
  new : ls'.flatten = u ++ v
  ne_nil : v ≠ []

/-- What an edit of formats keeps of a symbol. -/
def letter (s : Symbol) : Position × QChar := (s.position, s.value)

/-- `w` is overwritten by `w'`, the same symbols with other formats. -/
structure Rewrites (ls ls' : Lines) (u w w' v : List Symbol) : Prop where
  layout : Layout isNewline ls'
  old : ls.flatten = u ++ w ++ v
  new : ls'.flatten = u ++ w' ++ v
  same : w'.map letter = w.map letter

section Edits

variable {ls ls' : Lines} {u v w w' : List Symbol} {s : Symbol}

/-- The terminator stays where the end does. -/
theorem WellFormed.terminated_of_rest {u' : List Symbol} (h : WellFormed ls)
    (hold : ls.flatten = u ++ v) (hnew : ls'.flatten = u' ++ v) (hne : v ≠ []) :
    ∃ xs t, ls'.flatten = xs ++ [t] ∧ t.value = QChar.null := by
  obtain ⟨xs, t, hx, ht⟩ := h.terminated
  obtain ⟨v', t', hv⟩ := (List.eq_nil_or_concat' v).resolve_left hne
  have he := hold.symm.trans hx
  rw [hv, ← List.append_assoc] at he
  obtain rfl : t' = t := by simpa using (List.append_inj' he rfl).2
  exact ⟨u' ++ v', t', by simp [hnew, hv], ht⟩

theorem Inserts.wellFormed (e : Inserts ls ls' u s v) (h : WellFormed ls) : WellFormed ls' where
  layout := e.layout
  ordered := e.new ▸ (e.old ▸ h.ordered).insert e.lower e.upper
  terminated :=
    h.terminated_of_rest e.old (show ls'.flatten = (u ++ [s]) ++ v by simp [e.new]) e.ne_nil

theorem Inserts.mem (e : Inserts ls ls' u s v) {y : Symbol} :
    y ∈ ls'.flatten ↔ y = s ∨ y ∈ ls.flatten := by
  simp only [e.new, e.old, List.mem_append, List.mem_cons]
  tauto

theorem Inserts.getLast? (e : Inserts ls ls' u s v) :
    ls'.flatten.getLast? = ls.flatten.getLast? := by
  obtain ⟨x, v, rfl⟩ := List.exists_cons_of_ne_nil e.ne_nil
  simp [e.new, e.old, List.getLast?_append, List.getLast?_cons_cons]

theorem Inserts.lt_last (e : Inserts ls ls' u s v) {t : Symbol}
    (ht : ls.flatten.getLast? = some t) : s.position < t.position := by
  refine e.upper t (List.mem_of_getLast? ?_)
  rw [← ht, e.old, List.getLast?_append_of_ne_nil _ e.ne_nil]

theorem Inserts.ne_position (e : Inserts ls ls' u s v) {y : Symbol} (hy : y ∈ ls.flatten) :
    y.position ≠ s.position := by
  rw [e.old] at hy
  rcases List.mem_append.mp hy with hy | hy
  · exact (e.lower y hy).ne
  · exact (e.upper y hy).ne'

theorem Inserts.perm (e : Inserts ls ls' u s v) : ls'.flatten.Perm (s :: ls.flatten) := by
  rw [e.new, e.old]
  exact List.perm_middle

theorem Inserts.valid (e : Inserts ls ls' u s v) (h : ValidDocument ls)
    (hs : ValidPosition s.position) : ValidDocument ls' where
  toWellFormed := e.wellFormed h.toWellFormed
  positions y hy := by
    have hold := h.positions
    rw [e.old] at hold
    rw [e.new] at hy
    rcases List.mem_append.mp hy with hy | hy
    · exact hold y (by simp [hy])
    · rcases List.mem_cons.mp hy with rfl | hy
      · exact hs
      · exact hold y (by simp [hy])

theorem Erases.wellFormed (e : Erases ls ls' u w v) (h : WellFormed ls) : WellFormed ls' where
  layout := e.layout
  ordered := e.new ▸ (e.old ▸ h.ordered).erase
  terminated := h.terminated_of_rest e.old e.new e.ne_nil

theorem Erases.mem (e : Erases ls ls' u w v) (h : Ordered ls.flatten) {y : Symbol} :
    y ∈ ls'.flatten ↔ y ∈ ls.flatten ∧ ∀ s ∈ w, s.position ≠ y.position := by
  rw [e.old] at h
  rw [e.new, e.old, h.mem_erase]

theorem Erases.getLast? (e : Erases ls ls' u w v) :
    ls'.flatten.getLast? = ls.flatten.getLast? := by
  obtain ⟨v', t, hv⟩ := (List.eq_nil_or_concat' v).resolve_left e.ne_nil
  simp [e.new, e.old, hv, List.getLast?_append]

theorem Erases.valid (e : Erases ls ls' u w v) (h : ValidDocument ls) : ValidDocument ls' where
  toWellFormed := e.wellFormed h.toWellFormed
  positions y hy := by
    refine h.positions y ?_
    rw [e.new] at hy
    rw [e.old]
    rcases List.mem_append.mp hy with hy | hy <;> simp [hy]

/-- The document before and after differ in nothing an edit of formats keeps. -/
theorem Rewrites.map_letter (e : Rewrites ls ls' u w w' v) :
    ls'.flatten.map letter = ls.flatten.map letter := by
  simp [e.old, e.new, e.same]

theorem ordered_iff_letter {xs : List Symbol} :
    Ordered xs ↔ (xs.map letter).Pairwise fun a b => a.1 < b.1 := by
  rw [List.pairwise_map]
  rfl

theorem Rewrites.arranged (e : Rewrites ls ls' u w w' v) (h : Arranged ls) : Arranged ls' where
  layout := e.layout
  ordered := by
    rw [ordered_iff_letter, e.map_letter, ← ordered_iff_letter]
    exact h.ordered

theorem Rewrites.wellFormed (e : Rewrites ls ls' u w w' v) (h : WellFormed ls) :
    WellFormed ls' where
  toArranged := e.arranged h.toArranged
  terminated := by
    obtain ⟨xs, t, hx, ht⟩ := h.terminated
    have hk := e.map_letter
    rw [hx, List.map_append] at hk
    obtain ⟨ys, z, hy, -, hz⟩ := List.map_eq_append_iff.mp hk
    obtain ⟨t', rfl, ht'⟩ := List.map_eq_singleton_iff.mp hz
    exact ⟨ys, t', hy, by rw [← ht]; exact congrArg Prod.snd ht'⟩

theorem Rewrites.valid (e : Rewrites ls ls' u w w' v) (h : ValidDocument ls) :
    ValidDocument ls' where
  toWellFormed := e.wellFormed h.toWellFormed
  positions y hy := by
    have hk : letter y ∈ ls.flatten.map letter := e.map_letter ▸ List.mem_map_of_mem hy
    obtain ⟨x, hx, he⟩ := List.mem_map.mp hk
    have hp : x.position = y.position := congrArg Prod.fst he
    exact hp ▸ h.positions x hx

end Edits

/-! ## Containers at a split -/

theorem insertIdx_append {α : Type} (a b : List α) (y : α) :
    (a ++ b).insertIdx a.length y = a ++ y :: b := by
  induction a with
  | nil => rfl
  | cons z a ih => simpa using ih

namespace QVector

variable {α : Type} (a b : List α) (x y : α)

@[simp] theorem get_append : get (a ++ x :: b) a.length = .ok x := by
  simp [get]

@[simp] theorem put_append : put (a ++ x :: b) a.length y = .ok (a ++ y :: b) := by
  simp [put]

@[simp] theorem insert_append : insert (a ++ b) a.length y = .ok (a ++ y :: b) := by
  simp [insert, insertIdx_append]

@[simp] theorem erase_append : erase (a ++ x :: b) a.length = .ok (a ++ b) := by
  simp [erase, List.eraseIdx_append_of_length_le]

@[simp] theorem cut_append : cut (a ++ b) a.length = .ok (a, b) := by
  simp [cut]

@[simp] theorem get_append_succ : get (a ++ x :: y :: b) (a.length + 1) = .ok y := by
  simpa using get_append (a ++ [x]) b y

@[simp] theorem insert_append_succ :
    insert (a ++ x :: b) (a.length + 1) y = .ok (a ++ x :: y :: b) := by
  simpa using insert_append (a ++ [x]) b y

@[simp] theorem erase_append_succ :
    erase (a ++ x :: y :: b) (a.length + 1) = .ok (a ++ x :: b) := by
  simpa using erase_append (a ++ [x]) b y

theorem get_eq_ok {v : List α} {i : Nat} {a : α} : get v i = .ok a ↔ v[i]? = some a := by
  unfold get
  cases v[i]? <;> simp

theorem mem_put {v v' : List α} {i : Nat} {a : α} (h : put v i a = .ok v') : a ∈ v' := by
  unfold put at h
  split_ifs at h with hi
  cases h
  exact List.mem_set hi a

@[simp] theorem get_concat : get (a ++ [x]) ((a ++ [x]).length - 1) = .ok x := by
  simp [get]

end QVector

@[simp] theorem lastSymbol_concat (a : List Symbol) (x : Symbol) :
    lastSymbol (a ++ [x]) = .ok x := by
  rw [lastSymbol, QVector.get_concat]

/-! ## Edits at a cursor -/

section Cursor

variable {ls : Lines} {line index : Nat} {x : Symbol}

/-- An insertion anywhere in front of a symbol, whatever the positions are. -/
theorem insertChar_layout (c : Cursor ls line index x) (h : Layout isNewline ls) (s : Symbol) :
    ∃ ls', insertChar ls s line index = .ok ls' ∧ Layout isNewline ls' ∧
      ls'.flatten = c.before ++ s :: x :: c.after := by
  by_cases hs : s.value = QChar.newline
  · refine ⟨_, ?_, c.layout_split h (isNewline_iff.mpr hs), by simp [Cursor.before, Cursor.after]⟩
    obtain ⟨above, left, right, below, rfl, rfl, rfl⟩ := c
    simp [insertChar, hs, bind, Except.bind]
  · refine ⟨_, ?_, c.layout_insert h (isNewline_false.mpr hs),
      by simp [Cursor.before, Cursor.after]⟩
    obtain ⟨above, left, right, below, rfl, rfl, rfl⟩ := c
    simp [insertChar, hs, bind, Except.bind]

theorem insertChar_spec (c : Cursor ls line index x) (h : Arranged ls) {s : Symbol}
    (hb : ∀ y ∈ c.before, y.position < s.position) (hsx : s.position < x.position) :
    ∃ ls', insertChar ls s line index = .ok ls' ∧ Inserts ls ls' c.before s (x :: c.after) := by
  have hupper : ∀ y ∈ x :: c.after, s.position < y.position := by
    intro y hy
    have ho := (Ordered.append.mp (c.flatten_eq ▸ h.ordered)).2.1
    rcases List.mem_cons.mp hy with rfl | hy
    · exact hsx
    · exact hsx.trans ((Ordered.cons.mp ho).1 y hy)
  obtain ⟨ls', hi, hlayout, hnew⟩ := insertChar_layout c h.layout s
  exact ⟨ls', hi, hlayout, c.flatten_eq, hnew, hb, hupper, by simp⟩

/-- A newline that is followed by something has a line below it. -/
theorem exists_below (c : Cursor ls line index x) (h : Layout isNewline ls)
    (hx : x.value = QChar.newline) :
    c.right = [] ∧ ∃ l below, c.below = l :: below := by
  obtain ⟨hr, hb⟩ := c.right_nil h (isNewline_iff.mpr hx)
  exact ⟨hr, List.exists_cons_of_ne_nil hb.ne_nil⟩

/-- Any other symbol but the last is followed by something in its line. -/
theorem right_ne_nil (c : Cursor ls line index x) (h : Layout isNewline ls)
    (hx : x.value ≠ QChar.newline) (ha : c.after ≠ []) : c.right ≠ [] := by
  rcases c.right_ne_nil h (isNewline_false.mpr hx) with hr | hb
  · exact hr
  · simpa [Cursor.after, hb] using ha

/-- Without the newline at the cursor, the lines before and after it are one. -/
theorem erases_newline (c : Cursor ls line index x) (h : Layout isNewline ls) (ha : c.after ≠ [])
    (hx : x.value = QChar.newline) : ∃ l below, c.right = [] ∧ c.below = l :: below ∧
      Erases ls (c.above ++ (c.left ++ l) :: below) c.before [x] c.after := by
  obtain ⟨hr, l, below, hb⟩ := exists_below c h hx
  refine ⟨l, below, hr, hb, c.layout_join h hb (isNewline_iff.mpr hx), ?_, ?_, ha⟩
  · simp [c.flatten_eq]
  · simp [Cursor.before, Cursor.after, hr, hb]

/-- Without any other symbol its line is shorter. -/
theorem erases_inside (c : Cursor ls line index x) (h : Layout isNewline ls) (ha : c.after ≠ [])
    (hx : x.value ≠ QChar.newline) : c.right ≠ [] ∧
      Erases ls (c.above ++ (c.left ++ c.right) :: c.below) c.before [x] c.after := by
  have hr := right_ne_nil c h hx ha
  refine ⟨hr, c.layout_erase h (isNewline_false.mpr hx) (by simp [hr]), ?_, ?_, ha⟩
  · simp [c.flatten_eq]
  · simp [Cursor.before, Cursor.after]

theorem eraseChar_spec (c : Cursor ls line index x) (h : Layout isNewline ls)
    (ha : c.after ≠ []) :
    ∃ ls', CRDT.eraseChar ls line index = .ok (ls', x) ∧ Erases ls ls' c.before [x] c.after := by
  by_cases hx : x.value = QChar.newline
  · obtain ⟨l, below, hr, hb, he⟩ := erases_newline c h ha hx
    refine ⟨_, ?_, he⟩
    obtain ⟨above, left, right, below', rfl, rfl, rfl⟩ := c
    obtain rfl : right = [] := hr
    obtain rfl : below' = l :: below := hb
    simp [CRDT.eraseChar, hx, bind, Except.bind, pure, Except.pure]
  · obtain ⟨-, he⟩ := erases_inside c h ha hx
    refine ⟨_, ?_, he⟩
    obtain ⟨above, left, right, below, rfl, rfl, rfl⟩ := c
    simp [CRDT.eraseChar, hx, bind, Except.bind, pure, Except.pure]

/-- `handleRemoteErase` removes what `localErase` does, when the message's symbol is a newline
exactly if the symbol at the place is. -/
theorem eraseRemote_spec (c : Cursor ls line index x) (h : Layout isNewline ls)
    (ha : c.after ≠ []) {s : Symbol} (hs : s.value = x.value) :
    ∃ ls', CRDT.eraseRemote ls s line index = .ok ls' ∧ Erases ls ls' c.before [x] c.after := by
  by_cases hx : x.value = QChar.newline
  · obtain ⟨l, below, hr, hb, he⟩ := erases_newline c h ha hx
    refine ⟨_, ?_, he⟩
    obtain ⟨above, left, right, below', rfl, rfl, rfl⟩ := c
    obtain rfl : right = [] := hr
    obtain rfl : below' = l :: below := hb
    simp [CRDT.eraseRemote, hs, hx, bind, Except.bind]
  · obtain ⟨hr, he⟩ := erases_inside c h ha hx
    refine ⟨_, ?_, he⟩
    obtain ⟨above, left, right, below, rfl, rfl, rfl⟩ := c
    replace hr : right ≠ [] := hr
    have hpos := List.length_pos_iff.mpr hr
    simp [CRDT.eraseRemote, hs, hx, bind, Except.bind]
    omega

theorem isNewline_of_letter {s t : Symbol} (h : letter s = letter t) :
    isNewline s = isNewline t := by
  simp only [isNewline, show s.value = t.value from congrArg Prod.snd h]

/-- Writing at the cursor. -/
theorem putSymbol_eq (c : Cursor ls line index x) (s : Symbol) :
    QVector.get ls line = .ok (c.left ++ x :: c.right) ∧
      QVector.put (c.left ++ x :: c.right) index s = .ok (c.left ++ s :: c.right) ∧
      QVector.put ls line (c.left ++ s :: c.right) =
        .ok (c.above ++ (c.left ++ s :: c.right) :: c.below) := by
  obtain ⟨above, left, right, below, rfl, rfl, rfl⟩ := c
  simp

/-- Writing at the cursor the same symbol with another format. -/
theorem putSymbol_spec (c : Cursor ls line index x) (h : Layout isNewline ls) {s : Symbol}
    (hs : letter s = letter x) :
    ∃ l ls', QVector.get ls line = .ok (c.left ++ x :: c.right) ∧
      QVector.put (c.left ++ x :: c.right) index s = .ok l ∧
      QVector.put ls line l = .ok ls' ∧ Rewrites ls ls' c.before [x] [s] c.after := by
  obtain ⟨hget, hput, hput'⟩ := putSymbol_eq c s
  exact ⟨_, _, hget, hput, hput', c.layout_replace h (isNewline_of_letter hs),
    by simp [c.flatten_eq], by simp [Cursor.before, Cursor.after], by simp [hs]⟩

theorem changeChar_spec (c : Cursor ls line index x) (h : Layout isNewline ls) (font : QFont)
    (color : QColor) :
    ∃ ls', CRDT.changeChar ls line index font color = .ok (ls', x.setFormat font color) ∧
      Rewrites ls ls' c.before [x] [x.setFormat font color] c.after := by
  obtain ⟨l, ls', hg, hp, hp', hw⟩ := putSymbol_spec c h (s := x.setFormat font color) rfl
  refine ⟨ls', ?_, hw⟩
  have hx : QVector.get (c.left ++ x :: c.right) index = .ok x :=
    QVector.get_eq_ok.mpr c.getElem?_index
  simp [CRDT.changeChar, hg, hx, hp, hp', bind, Except.bind, pure, Except.pure]

end Cursor

end Scriba.Client
