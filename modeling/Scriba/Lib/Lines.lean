import Mathlib.Data.List.Basic
import Mathlib.Data.List.Induction
import Mathlib.Data.List.TakeWhile
import Mathlib.Tactic.SplitIfs

/-! # A sequence kept as lines

A list of elements, some of them line ends, is stored as the list of its lines:
every line but the last is `Closed` (its end element comes last and nowhere else),
the last one is `Open` (not empty, no end element). A `Layout` is determined by its
concatenation (`Layout.ext`), so an edit of the lines is right as soon as it keeps the
layout and edits the concatenation in the right place. `Cursor` is the zipper the
edits are stated with. -/

namespace Scriba.Lib.Lines

variable {α : Type*} {p : α → Bool}

/-- A sequence is split in one way between a first part and what does not go on with it. -/
theorem split_unique {P : α → Prop} {u u' v v' : List α} {x x' : α}
    (h : u ++ x :: v = u' ++ x' :: v') (hu : ∀ y ∈ u, P y) (hx : ¬ P x) (hu' : ∀ y ∈ u', P y)
    (hx' : ¬ P x') : u = u' ∧ x = x' ∧ v = v' := by
  rcases List.append_eq_append_iff.mp h with ⟨r, rfl, hr⟩ | ⟨r, rfl, hr⟩
  · cases r with
    | nil => exact ⟨by simp, List.cons.inj hr⟩
    | cons y r =>
      obtain rfl := (List.cons.inj hr).1
      exact absurd (hu' _ (by simp)) hx
  · cases r with
    | nil =>
      obtain ⟨h1, h2⟩ := List.cons.inj hr
      exact ⟨by simp, h1.symm, h2.symm⟩
    | cons y r =>
      obtain rfl := (List.cons.inj hr).1
      exact absurd (hu _ (by simp)) hx'

/-- A line with its end element last and nowhere else. -/
def Closed (p : α → Bool) (l : List α) : Prop :=
  ∃ a x, l = a ++ [x] ∧ (∀ y ∈ a, p y = false) ∧ p x = true

/-- A line without an end element. -/
def Open (p : α → Bool) (l : List α) : Prop := l ≠ [] ∧ ∀ y ∈ l, p y = false

inductive Layout (p : α → Bool) : List (List α) → Prop
  | last {l : List α} : Open p l → Layout p [l]
  | cons {l : List α} {ls : List (List α)} : Closed p l → Layout p ls → Layout p (l :: ls)

theorem Layout.ne_nil {ls : List (List α)} (h : Layout p ls) : ls ≠ [] := by
  cases h <;> simp

theorem Closed.ne_nil {l : List α} (h : Closed p l) : l ≠ [] := by
  obtain ⟨a, x, rfl, -, -⟩ := h
  simp

theorem closed_singleton {x : α} : Closed p [x] ↔ p x = true := by
  constructor
  · intro hex
    obtain ⟨a, y, he, -, hy⟩ := hex
    obtain ⟨-, hxy⟩ := List.append_inj' (show [] ++ [x] = a ++ [y] from he) rfl
    rwa [List.singleton_inj.mp hxy]
  · intro h
    exact ⟨[], x, rfl, by simp, h⟩

/-- Before something non-empty, a closed line holds no end element. -/
theorem closed_append {a b : List α} (hb : b ≠ []) :
    Closed p (a ++ b) ↔ (∀ y ∈ a, p y = false) ∧ Closed p b := by
  obtain ⟨r, w, rfl⟩ := (List.eq_nil_or_concat' b).resolve_left hb
  constructor
  · intro h
    obtain ⟨c, z, he, hc, hz⟩ := h
    rw [← List.append_assoc] at he
    obtain ⟨rfl, hwz⟩ := List.append_inj' he rfl
    obtain rfl : w = z := by simpa using hwz
    exact ⟨fun y hy => hc y (by simp [hy]), r, w, rfl, fun y hy => hc y (by simp [hy]), hz⟩
  · intro h
    obtain ⟨ha, c, z, he, hc, hz⟩ := h
    refine ⟨a ++ c, z, by rw [he, List.append_assoc], fun y hy => ?_, hz⟩
    rcases List.mem_append.mp hy with hy | hy
    · exact ha y hy
    · exact hc y hy

theorem closed_cons {x : α} {l : List α} (hl : l ≠ []) :
    Closed p (x :: l) ↔ p x = false ∧ Closed p l := by
  have := closed_append (p := p) (a := [x]) hl
  simpa using this

theorem open_append {a b : List α} (hb : b ≠ []) :
    Open p (a ++ b) ↔ (∀ y ∈ a, p y = false) ∧ Open p b := by
  simp only [Open, List.mem_append, ne_eq, List.append_eq_nil_iff, hb, and_false,
    not_false_eq_true, true_and]
  constructor
  · exact fun h => ⟨fun y hy => h y (.inl hy), fun y hy => h y (.inr hy)⟩
  · rintro ⟨ha, hb⟩ y (hy | hy)
    · exact ha y hy
    · exact hb y hy

theorem open_cons {x : α} {l : List α} (hl : l ≠ []) :
    Open p (x :: l) ↔ p x = false ∧ Open p l := by
  have := open_append (p := p) (a := [x]) hl
  simpa using this

theorem Layout.line_ne_nil {ls : List (List α)} (h : Layout p ls) : ∀ l ∈ ls, l ≠ [] := by
  induction h with
  | last ho => simpa using ho.1
  | cons hc _ ih =>
    intro l hl
    rcases List.mem_cons.mp hl with rfl | hl
    · exact hc.ne_nil
    · exact ih l hl

theorem layout_cons {l : List α} {ls : List (List α)} :
    Layout p (l :: ls) ↔ (ls = [] ∧ Open p l) ∨ (Closed p l ∧ Layout p ls) := by
  constructor
  · intro h
    cases h with
    | last ho => exact .inl ⟨rfl, ho⟩
    | cons hc hr => exact .inr ⟨hc, hr⟩
  · intro hor
    rcases hor with ⟨rfl, ho⟩ | ⟨hc, hr⟩
    · exact .last ho
    · exact .cons hc hr

theorem layout_append {above ls : List (List α)} (hne : ls ≠ []) :
    Layout p (above ++ ls) ↔ (∀ l ∈ above, Closed p l) ∧ Layout p ls := by
  induction above with
  | nil => simp
  | cons l above ih =>
    rw [List.cons_append, layout_cons, ih]
    simp [hne, and_assoc]

/-! ## Splitting the concatenation again -/

/-- The lines of a sequence: a new line starts after every end element. -/
def splitAfter (p : α → Bool) : List α → List (List α)
  | [] => []
  | x :: xs =>
    if p x then [x] :: splitAfter p xs
    else match splitAfter p xs with
      | [] => [[x]]
      | l :: ls => (x :: l) :: ls

theorem splitAfter_closed_append {l : List α} (h : Closed p l) (xs : List α) :
    splitAfter p (l ++ xs) = l :: splitAfter p xs := by
  obtain ⟨a, x, rfl, ha, hx⟩ := h
  induction a with
  | nil => simp [splitAfter, hx]
  | cons y a ih =>
    have := ih fun z hz => ha z (by simp [hz])
    simp only [List.cons_append, splitAfter, ha y (by simp), this]
    simp

theorem splitAfter_open {l : List α} (h : Open p l) : splitAfter p l = [l] := by
  obtain ⟨hne, hl⟩ := h
  induction l with
  | nil => contradiction
  | cons y l ih =>
    cases l with
    | nil => simp [splitAfter, hl y (by simp)]
    | cons z l =>
      have := ih (by simp) fun w hw => hl w (by simp [hw])
      rw [splitAfter, hl y (by simp), this]
      simp

theorem Layout.splitAfter_flatten {ls : List (List α)} (h : Layout p ls) :
    splitAfter p ls.flatten = ls := by
  induction h with
  | last ho => simpa using splitAfter_open ho
  | cons hc _ ih => rw [List.flatten_cons, splitAfter_closed_append hc, ih]

/-- **The lines are a function of the sequence.** -/
theorem Layout.ext {ls ms : List (List α)} (h : Layout p ls) (h' : Layout p ms)
    (he : ls.flatten = ms.flatten) : ls = ms := by
  rw [← h.splitAfter_flatten, ← h'.splitAfter_flatten, he]

/-! ## Cursors -/

/-- `ls` opened at the element `x` in place (`line`, `index`). -/
structure Cursor (ls : List (List α)) (line index : Nat) (x : α) where
  above : List (List α)
  left : List α
  right : List α
  below : List (List α)
  eq : ls = above ++ (left ++ x :: right) :: below
  line_eq : above.length = line
  index_eq : left.length = index

theorem exists_cursor {ls : List (List α)} {line index : Nat} {l : List α} {x : α}
    (hl : ls[line]? = some l) (hx : l[index]? = some x) : Nonempty (Cursor ls line index x) := by
  obtain ⟨hline, rfl⟩ := List.getElem?_eq_some_iff.mp hl
  obtain ⟨hindex, rfl⟩ := List.getElem?_eq_some_iff.mp hx
  refine ⟨⟨ls.take line, ls[line].take index, ls[line].drop (index + 1), ls.drop (line + 1),
    ?_, ?_, ?_⟩⟩
  · rw [← List.drop_eq_getElem_cons hindex, List.take_append_drop,
      ← List.drop_eq_getElem_cons hline, List.take_append_drop]
  · exact List.length_take_of_le (Nat.le_of_lt hline)
  · exact List.length_take_of_le (Nat.le_of_lt hindex)

namespace Cursor

variable {ls : List (List α)} {line index : Nat} {x : α}

/-- What stands before the cursor in the sequence. -/
def before (c : Cursor ls line index x) : List α := c.above.flatten ++ c.left

/-- What stands after it. -/
def after (c : Cursor ls line index x) : List α := c.right ++ c.below.flatten

theorem flatten_eq (c : Cursor ls line index x) : ls.flatten = c.before ++ x :: c.after := by
  have h := congrArg List.flatten c.eq
  simpa [before, after] using h

theorem getElem?_line (c : Cursor ls line index x) : ls[line]? = some (c.left ++ x :: c.right) := by
  obtain ⟨above, left, right, below, rfl, rfl, rfl⟩ := c
  simp

theorem getElem?_index (c : Cursor ls line index x) :
    (c.left ++ x :: c.right)[index]? = some x := by
  obtain ⟨above, left, right, below, rfl, rfl, rfl⟩ := c
  simp

theorem layout_iff (c : Cursor ls line index x) :
    Layout p ls ↔ (∀ l ∈ c.above, Closed p l) ∧
      ((c.below = [] ∧ Open p (c.left ++ x :: c.right)) ∨
        (Closed p (c.left ++ x :: c.right) ∧ Layout p c.below)) := by
  obtain ⟨above, left, right, below, rfl, rfl, rfl⟩ := c
  rw [layout_append (by simp), layout_cons]

theorem left_plain (c : Cursor ls line index x) (h : Layout p ls) : ∀ y ∈ c.left, p y = false := by
  rcases (c.layout_iff.mp h).2 with ⟨-, ho⟩ | ⟨hc, -⟩
  · exact ((open_append (by simp)).mp ho).1
  · exact ((closed_append (by simp)).mp hc).1

/-- An end element ends its line, and is not in the last one. -/
theorem right_nil (c : Cursor ls line index x) (h : Layout p ls) (hx : p x = true) :
    c.right = [] ∧ Layout p c.below := by
  rcases (c.layout_iff.mp h).2 with ⟨-, ho⟩ | ⟨hc, hb⟩
  · simp [ho.2 x (by simp)] at hx
  · refine ⟨?_, hb⟩
    by_contra hr
    have := ((closed_cons hr).mp ((closed_append (by simp)).mp hc).2).1
    rw [hx] at this
    cases this

/-- An element that ends no line has something after it in its line, unless it is in the
last line. -/
theorem right_ne_nil (c : Cursor ls line index x) (h : Layout p ls) (hx : p x = false) :
    c.right ≠ [] ∨ c.below = [] := by
  rcases (c.layout_iff.mp h).2 with ⟨hb, -⟩ | ⟨hc, -⟩
  · exact .inr hb
  · left
    intro hr
    rw [hr] at hc
    have := closed_singleton.mp ((closed_append (by simp)).mp hc).2
    rw [hx] at this
    cases this

/-- The last element of its line ends it, or is the last of all. -/
theorem right_eq_nil_iff (c : Cursor ls line index x) (h : Layout p ls) :
    c.right = [] ↔ p x = true ∨ c.after = [] := by
  constructor
  · intro hr
    rcases (c.layout_iff.mp h).2 with ⟨hb, -⟩ | ⟨hc, -⟩
    · exact .inr (by simp [after, hr, hb])
    · rw [hr] at hc
      exact .inl (closed_singleton.mp ((closed_append (by simp)).mp hc).2)
  · intro hor
    rcases hor with hx | ha
    · exact (c.right_nil h hx).1
    · exact (List.append_eq_nil_iff.mp ha).1

/-- Inserting before the cursor an element that ends no line. -/
theorem layout_insert (c : Cursor ls line index x) (h : Layout p ls) {y : α} (hy : p y = false) :
    Layout p (c.above ++ (c.left ++ y :: x :: c.right) :: c.below) := by
  obtain ⟨ha, hl⟩ := c.layout_iff.mp h
  rw [layout_append (by simp), layout_cons, open_append (by simp), closed_append (by simp),
    open_cons (by simp), closed_cons (by simp)]
  rw [open_append (by simp), closed_append (by simp)] at hl
  refine ⟨ha, ?_⟩
  rcases hl with ⟨hb, hp, ho⟩ | ⟨⟨hp, hc⟩, hb⟩
  · exact .inl ⟨hb, hp, hy, ho⟩
  · exact .inr ⟨⟨hp, hy, hc⟩, hb⟩

/-- Inserting a line end before the cursor splits its line. -/
theorem layout_split (c : Cursor ls line index x) (h : Layout p ls) {y : α} (hy : p y = true) :
    Layout p (c.above ++ (c.left ++ [y]) :: (x :: c.right) :: c.below) := by
  obtain ⟨ha, hl⟩ := c.layout_iff.mp h
  rw [open_append (by simp), closed_append (by simp)] at hl
  rw [layout_append (by simp)]
  refine ⟨ha, .cons ⟨c.left, y, rfl, c.left_plain h, hy⟩ ?_⟩
  rw [layout_cons]
  rcases hl with ⟨hb, -, ho⟩ | ⟨⟨-, hc⟩, hb⟩
  · exact .inl ⟨hb, ho⟩
  · exact .inr ⟨hc, hb⟩

/-- Replacing the element at the cursor by one that is a line end exactly when it is. -/
theorem layout_replace (c : Cursor ls line index x) (h : Layout p ls) {y : α} (hy : p y = p x) :
    Layout p (c.above ++ (c.left ++ y :: c.right) :: c.below) := by
  obtain ⟨ha, hl⟩ := c.layout_iff.mp h
  rw [layout_append (by simp), layout_cons, open_append (by simp), closed_append (by simp)]
  rw [open_append (by simp), closed_append (by simp)] at hl
  refine ⟨ha, ?_⟩
  by_cases hr : c.right = []
  · simpa [hr, Open, closed_singleton, hy] using hl
  · rw [open_cons hr, closed_cons hr] at hl ⊢
    simpa only [hy] using hl

/-- Erasing an element that ends no line, when its line keeps another element. -/
theorem layout_erase (c : Cursor ls line index x) (h : Layout p ls) (hx : p x = false)
    (hne : c.left ++ c.right ≠ []) : Layout p (c.above ++ (c.left ++ c.right) :: c.below) := by
  obtain ⟨ha, hl⟩ := c.layout_iff.mp h
  rw [open_append (by simp), closed_append (by simp)] at hl
  rw [layout_append (by simp), layout_cons]
  refine ⟨ha, ?_⟩
  rcases hl with ⟨hb, hp, ho⟩ | ⟨⟨hp, hc⟩, hb⟩
  · refine .inl ⟨hb, hne, fun w hw => ?_⟩
    rcases List.mem_append.mp hw with hw | hw
    · exact hp w hw
    · exact ho.2 w (by simp [hw])
  · have hr : c.right ≠ [] := by
      intro hr
      rw [hr, closed_singleton, hx] at hc
      cases hc
    rw [closed_cons hr] at hc
    exact .inr ⟨(closed_append hr).mpr ⟨hp, hc.2⟩, hb⟩

/-- Erasing a line end joins its line with the next one. -/
theorem layout_join (c : Cursor ls line index x) (h : Layout p ls) {l : List α}
    {below : List (List α)} (hb : c.below = l :: below) (hx : p x = true) :
    Layout p (c.above ++ (c.left ++ l) :: below) := by
  obtain ⟨ha, -⟩ := c.layout_iff.mp h
  have hl := (c.right_nil h hx).2
  rw [hb] at hl
  have hne := hl.line_ne_nil l (by simp)
  rw [layout_append (by simp), layout_cons, open_append hne, closed_append hne]
  refine ⟨ha, ?_⟩
  rcases layout_cons.mp hl with ⟨hn, ho⟩ | ⟨hc, hr⟩
  · exact .inl ⟨hn, c.left_plain h, ho⟩
  · exact .inr ⟨⟨c.left_plain h, hc⟩, hr⟩

end Cursor

/-! ## Places -/

/-- The line of what comes after `u`. -/
def lineOf (p : α → Bool) (u : List α) : Nat := u.countP p

/-- Its index in the line. -/
def indexOf (p : α → Bool) (u : List α) : Nat := (u.reverse.takeWhile fun x => !p x).length

@[simp] theorem lineOf_nil : lineOf p [] = 0 := rfl
@[simp] theorem indexOf_nil : indexOf p [] = 0 := rfl

theorem lineOf_concat (u : List α) (x : α) :
    lineOf p (u ++ [x]) = if p x then lineOf p u + 1 else lineOf p u := by
  by_cases hx : p x <;> simp [lineOf, hx]

theorem indexOf_concat (u : List α) (x : α) :
    indexOf p (u ++ [x]) = if p x then 0 else indexOf p u + 1 := by
  by_cases hx : p x <;> simp [indexOf, hx]

theorem place_plain {u : List α} (h : ∀ y ∈ u, p y = false) :
    lineOf p u = 0 ∧ indexOf p u = u.length := by
  refine ⟨by simpa [lineOf] using h, ?_⟩
  have hall : u.reverse.takeWhile (fun x => !p x) = u.reverse :=
    List.takeWhile_eq_self_iff.mpr (by simpa using h)
  rw [indexOf, hall, List.length_reverse]

theorem place_closed {l : List α} (h : Closed p l) (u : List α) :
    lineOf p (l ++ u) = lineOf p u + 1 ∧ indexOf p (l ++ u) = indexOf p u := by
  obtain ⟨a, x, rfl, ha, hx⟩ := h
  induction u using List.reverseRecOn with
  | nil =>
    have hz : lineOf p a = 0 := (place_plain ha).1
    rw [List.append_nil, lineOf_concat, indexOf_concat, if_pos hx, if_pos hx, hz]
    exact ⟨rfl, rfl⟩
  | append_singleton u y ih =>
    rw [← List.append_assoc, lineOf_concat, indexOf_concat, lineOf_concat, indexOf_concat, ih.1,
      ih.2]
    split_ifs <;> simp

theorem place_above {above : List (List α)} (h : ∀ l ∈ above, Closed p l) {u : List α}
    (hu : ∀ y ∈ u, p y = false) :
    lineOf p (above.flatten ++ u) = above.length ∧ indexOf p (above.flatten ++ u) = u.length := by
  induction above with
  | nil => simpa using place_plain hu
  | cons l above ih =>
    obtain ⟨h1, h2⟩ := ih fun m hm => h m (List.mem_cons_of_mem _ hm)
    obtain ⟨h3, h4⟩ := place_closed (h l List.mem_cons_self) (above.flatten ++ u)
    rw [List.flatten_cons, List.append_assoc, h3, h4, h1, h2]
    exact ⟨rfl, rfl⟩

theorem Cursor.place {ls : List (List α)} {line index : Nat} {x : α} (c : Cursor ls line index x)
    (h : Layout p ls) : line = lineOf p c.before ∧ index = indexOf p c.before := by
  obtain ⟨h1, h2⟩ := place_above (c.layout_iff.mp h).1 (c.left_plain h)
  exact ⟨c.line_eq.symm.trans h1.symm, c.index_eq.symm.trans h2.symm⟩

theorem place_map {β : Type*} (f : β → α) (u : List β) :
    lineOf p (u.map f) = lineOf (p ∘ f) u ∧ indexOf p (u.map f) = indexOf (p ∘ f) u := by
  induction u using List.reverseRecOn with
  | nil => exact ⟨rfl, rfl⟩
  | append_singleton u x ih =>
    rw [List.map_append, List.map_singleton, lineOf_concat, indexOf_concat, lineOf_concat,
      indexOf_concat, ih.1, ih.2]
    exact ⟨rfl, rfl⟩

theorem place_congr {q : α → Bool} {u : List α} (h : ∀ x ∈ u, p x = q x) :
    lineOf p u = lineOf q u ∧ indexOf p u = indexOf q u := by
  induction u using List.reverseRecOn with
  | nil => exact ⟨rfl, rfl⟩
  | append_singleton u x ih =>
    obtain ⟨hl, hi⟩ := ih fun y hy => h y (List.mem_append_left _ hy)
    rw [lineOf_concat, indexOf_concat, lineOf_concat, indexOf_concat, hl, hi, h x (by simp)]
    exact ⟨rfl, rfl⟩

/-- Where a line starts in the sequence, for a line it has. -/
def lineStart (p : α → Bool) : List α → Nat → Nat
  | _, 0 => 0
  | [], _ + 1 => 0
  | x :: xs, n + 1 => 1 + lineStart p xs (if p x then n else n + 1)

@[simp] theorem lineStart_zero (xs : List α) : lineStart p xs 0 = 0 := by
  cases xs <;> rfl

/-- A line starts after the end of the one above. -/
theorem lineStart_succ {x : α} (hx : p x = true) (u v : List α) :
    lineStart p (u ++ x :: v) (lineOf p u + 1) = u.length + 1 := by
  induction u with
  | nil => simp [lineStart, hx]
  | cons y u ih =>
    rw [List.cons_append, lineStart, List.length_cons]
    by_cases hy : p y
    · have hl : lineOf p (y :: u) = lineOf p u + 1 := by simp [lineOf, hy]
      rw [if_pos hy, hl, ih]
      omega
    · have hl : lineOf p (y :: u) = lineOf p u := by simp [lineOf, hy]
      rw [if_neg hy, hl, ih]
      omega

theorem lineStart_add_indexOf (u v : List α) :
    lineStart p (u ++ v) (lineOf p u) + indexOf p u = u.length := by
  induction u using List.reverseRecOn generalizing v with
  | nil => simp
  | append_singleton u x ih =>
    rw [lineOf_concat, indexOf_concat, List.append_assoc, List.length_append]
    split_ifs with hx
    · exact lineStart_succ hx u v
    · rw [← Nat.add_assoc]
      exact congrArg (· + 1) (ih ([x] ++ v))

/-- **Every element has its place**, which what precedes it determines. -/
theorem Layout.exists_cursor {ls : List (List α)} (h : Layout p ls) {u v : List α} {x : α}
    (hf : ls.flatten = u ++ x :: v) :
    ∃ c : Cursor ls (lineOf p u) (indexOf p u) x, c.before = u ∧ c.after = v := by
  induction h generalizing u with
  | @last l ho =>
    obtain rfl : l = u ++ x :: v := by simpa using hf
    obtain ⟨hl, hi⟩ := place_plain fun y hy => ho.2 y (List.mem_append_left _ hy)
    exact ⟨⟨[], u, v, [], rfl, hl.symm, hi.symm⟩, rfl, by simp [Cursor.after]⟩
  | @cons l ls hc _ ih =>
    rw [List.flatten_cons] at hf
    rcases List.append_eq_append_iff.mp hf with ⟨u', rfl, hr⟩ | ⟨r, rfl, hr⟩
    · obtain ⟨c, hb, ha⟩ := ih hr
      obtain ⟨hl, hi⟩ := place_closed hc u'
      exact ⟨⟨l :: c.above, c.left, c.right, c.below, by simp [← c.eq],
        by rw [List.length_cons, c.line_eq, hl], by rw [c.index_eq, hi]⟩,
        by simp [Cursor.before, ← hb], ha⟩
    · cases r with
      | nil =>
        have hr' : ls.flatten = [] ++ x :: v := hr.symm
        obtain ⟨c, hb, ha⟩ := ih hr'
        rw [List.append_nil] at hc
        obtain ⟨hl, hi⟩ := place_closed hc []
        rw [List.append_nil] at hl hi
        exact ⟨⟨u :: c.above, c.left, c.right, c.below, by simp [← c.eq],
          by rw [List.length_cons, c.line_eq, hl], by rw [c.index_eq, hi]⟩,
          by simpa [Cursor.before] using hb, ha⟩
      | cons y r =>
        obtain ⟨rfl, rfl⟩ := List.cons.inj hr
        obtain ⟨hl, hi⟩ := place_plain ((closed_append (by simp)).mp hc).1
        exact ⟨⟨[], u, r, ls, rfl, hl.symm, hi.symm⟩, rfl, rfl⟩

end Scriba.Lib.Lines
