import Mathlib.Data.List.Basic

/-! # Indices that hold their place

Indices into a list that others edit. Elements that come in at an index or before it push it back;
elements that are taken out before it pull it forward, and one that was among them goes to where
they were. An index stays with its element, then, as long as the element is there. -/

namespace Scriba.Lib.Anchor

/-- Where an index goes when `count` elements come in at `start`. -/
def inserted (start count index : Nat) : Nat := if index < start then index else index + count

/-- Where it goes when the `count` elements from `start` on are taken out. -/
def removed (start count index : Nat) : Nat :=
  if index < start then index else if index < start + count then start else index - count

/-- The index is that of an element with this key. -/
def At {α κ : Type} (key : α → κ) (xs : List α) (index : Nat) (k : κ) : Prop :=
  xs[index]?.map key = some k

/-- One edit of the list, and where it takes indices. -/
inductive Edit {α κ : Type} (key : α → κ) : List α → List α → (Nat → Nat) → Prop
  | insert (u w v : List α) : Edit key (u ++ v) (u ++ w ++ v) (inserted u.length w.length)
  | remove (u w v : List α) : Edit key (u ++ w ++ v) (u ++ v) (removed u.length w.length)
  | keep {xs ys : List α} : ys.map key = xs.map key → Edit key xs ys id

section At

variable {α κ : Type} {key : α → κ} {xs ys u w v : List α} {index : Nat} {k : κ}

theorem at_iff : At key xs index k ↔ ∃ u x v, xs = u ++ x :: v ∧ u.length = index ∧ key x = k := by
  rw [At, Option.map_eq_some_iff]
  constructor
  · intro h
    obtain ⟨x, hx, hk⟩ := h
    obtain ⟨hlt, rfl⟩ := List.getElem?_eq_some_iff.mp hx
    exact ⟨xs.take index, _, xs.drop (index + 1), by simp, by simp; omega, hk⟩
  · intro h
    obtain ⟨u, x, v, rfl, rfl, hk⟩ := h
    exact ⟨x, by simp, hk⟩

theorem Edit.single (u : List α) (x : α) (v : List α) :
    Edit key (u ++ v) (u ++ x :: v) (inserted u.length 1) := by
  simpa using Edit.insert u [x] v

theorem At.mem (h : At key xs index k) : ∃ x ∈ xs, key x = k := by
  obtain ⟨u, x, v, rfl, -, hk⟩ := at_iff.mp h
  exact ⟨x, by simp, hk⟩

theorem At.insert (h : At key (u ++ v) index k) :
    At key (u ++ w ++ v) (inserted u.length w.length index) k := by
  rw [At, inserted]
  rw [At] at h
  split_ifs with hlt
  · rwa [List.append_assoc, List.getElem?_append_left hlt, ← List.getElem?_append_left hlt]
  · have hle : u.length ≤ index := by omega
    rw [List.getElem?_append_right hle] at h
    rwa [List.getElem?_append_right (by rw [List.length_append]; omega), List.length_append,
      show index + w.length - (u.length + w.length) = index - u.length by omega]

/-- The element is not among those that are taken out. -/
theorem At.remove (h : At key (u ++ w ++ v) index k) (hw : ∀ x ∈ w, key x ≠ k) :
    At key (u ++ v) (removed u.length w.length index) k := by
  rw [At, removed]
  rw [At] at h
  split_ifs with hlt hin
  · rw [List.append_assoc, List.getElem?_append_left hlt] at h
    rwa [List.getElem?_append_left hlt]
  · obtain ⟨x, hx, hk⟩ := Option.map_eq_some_iff.mp h
    rw [List.append_assoc, List.getElem?_append_right (by omega),
      List.getElem?_append_left (by omega)] at hx
    exact absurd hk (hw x (List.mem_of_getElem? hx))
  · rw [List.getElem?_append_right (by rw [List.length_append]; omega), List.length_append] at h
    rwa [List.getElem?_append_right (by omega),
      show index - w.length - u.length = index - (u.length + w.length) by omega]

/-- **An edit takes an index along with its element**, if no two elements have one key and the
element is still there. -/
theorem Edit.at {move : Nat → Nat} (he : Edit key xs ys move) (hn : (xs.map key).Nodup)
    (h : At key xs index k) (hk : ∃ y ∈ ys, key y = k) : At key ys (move index) k := by
  cases he with
  | insert u w v => exact h.insert
  | remove u w v =>
    refine h.remove fun x hx he => ?_
    obtain ⟨y, hy, hyk⟩ := hk
    rw [List.append_assoc, List.map_append, List.map_append, List.nodup_append,
      List.nodup_append] at hn
    obtain ⟨-, ⟨-, -, hwv⟩, huw⟩ := hn
    have hx' := List.mem_map_of_mem (f := key) hx
    have hy' := List.mem_map_of_mem (f := key) hy
    rw [he] at hx'
    rw [hyk, List.map_append] at hy'
    rcases List.mem_append.mp hy' with hy' | hy'
    · exact huw k hy' k (List.mem_append_left _ hx') rfl
    · exact hwv k hx' k hy' rfl
  | keep hmap =>
    have hget := congrArg (·[index]?) hmap
    simp only [List.getElem?_map] at hget
    exact hget.trans h

end At

end Scriba.Lib.Anchor
