import Mathlib.Data.List.Basic

/-! # Words

Some elements of a sequence are spaces. Its words are what is between them; in normal form there
is one separator between two words, and none at the ends. Normal forms of two sequences join to
that of the whole unless a space stands where they meet. -/

namespace Scriba.Lib.Words

section Intercalate

variable {α : Type*} {sep : α}

theorem intercalate_append_cons (a : List (List α)) (w v : List α) (b : List (List α)) :
    [sep].intercalate (a ++ (w ++ v) :: b) =
      [sep].intercalate (a ++ [w]) ++ [sep].intercalate (v :: b) := by
  induction a with
  | nil => cases b <;> simp
  | cons u a ih =>
    rw [List.cons_append, List.cons_append, List.intercalate_cons_of_ne_nil (by simp),
      List.intercalate_cons_of_ne_nil (by simp), ih, List.append_assoc _ _ (List.intercalate ..)]

theorem intercalate_append {a b : List (List α)} (ha : a ≠ []) (hb : b ≠ []) :
    [sep].intercalate (a ++ b) = [sep].intercalate a ++ sep :: [sep].intercalate b := by
  induction a with
  | nil => contradiction
  | cons u a ih =>
    by_cases hnil : a = []
    · rw [hnil, List.singleton_append, List.intercalate_cons_of_ne_nil hb,
        List.intercalate_singleton, List.append_assoc]
      rfl
    · rw [List.cons_append, List.intercalate_cons_of_ne_nil (by simp [hnil]), ih hnil,
        List.intercalate_cons_of_ne_nil hnil, List.append_assoc _ _ (sep :: _)]

theorem length_intercalate_filter (q : List α → Bool) (l : List (List α)) :
    ([sep].intercalate (l.filter q)).length ≤ ([sep].intercalate l).length := by
  induction l with
  | nil => simp
  | cons w l ih =>
    by_cases hl : l = []
    · subst hl
      by_cases hw : q w <;> simp [hw]
    rw [List.intercalate_cons_of_ne_nil hl, List.length_append, List.length_append,
      List.length_singleton]
    by_cases hw : q w
    · rw [List.filter_cons_of_pos hw]
      by_cases hf : l.filter q = []
      · rw [hf, List.intercalate_singleton]
        omega
      · rw [List.intercalate_cons_of_ne_nil hf, List.length_append, List.length_append,
          List.length_singleton]
        omega
    · rw [List.filter_cons_of_neg hw]
      omega

end Intercalate

variable {α : Type*} {p : α → Bool} {sep : α}

/-- The pieces between spaces, without the empty ones. -/
def words (p : α → Bool) (xs : List α) : List (List α) := (xs.splitOnP p).filter (· ≠ [])

/-- The words with one separator between them. -/
def normal (p : α → Bool) (sep : α) (xs : List α) : List α := [sep].intercalate (words p xs)

/-! ## Splitting -/

theorem splitOnP_append {xs ys w v : List α} {a b : List (List α)}
    (hx : xs.splitOnP p = a ++ [w]) (hy : ys.splitOnP p = v :: b) :
    (xs ++ ys).splitOnP p = a ++ (w ++ v) :: b := by
  induction xs generalizing a w with
  | nil =>
    rw [List.splitOnP_nil] at hx
    cases a with
    | nil =>
      obtain rfl : [] = w := by simpa using hx
      exact hy
    | cons u a => simp at hx
  | cons x xs ih =>
    rw [List.splitOnP_cons_eq_if_modifyHead] at hx
    rw [List.cons_append, List.splitOnP_cons_eq_if_modifyHead]
    obtain ⟨a', w', hs⟩ := (List.eq_nil_or_concat' (xs.splitOnP p)).resolve_left
      (List.splitOnP_ne_nil p xs)
    rw [ih hs]
    rw [hs] at hx
    split_ifs at hx ⊢
    · obtain ⟨rfl, hw⟩ := List.append_inj' (show ([] :: a') ++ [w'] = a ++ [w] from hx) rfl
      obtain rfl : w' = w := by simpa using hw
      rfl
    · cases a' with
      | nil =>
        cases a with
        | nil =>
          obtain rfl : x :: w' = w := by simpa using hx
          rfl
        | cons u a => simp at hx
      | cons u' a' =>
        obtain ⟨rfl, hw⟩ := List.append_inj' (show ((x :: u') :: a') ++ [w'] = a ++ [w] from hx) rfl
        obtain rfl : w' = w := by simpa using hw
        rfl

theorem exists_splitOnP_concat (xs : List α) : ∃ a w, xs.splitOnP p = a ++ [w] :=
  (List.eq_nil_or_concat' (xs.splitOnP p)).resolve_left (List.splitOnP_ne_nil p xs)

theorem exists_splitOnP_cons (xs : List α) : ∃ v b, xs.splitOnP p = v :: b :=
  List.exists_cons_of_ne_nil (List.splitOnP_ne_nil p xs)

theorem splitOnP_concat {x : α} (hx : p x = false) {xs w : List α} {a : List (List α)}
    (h : xs.splitOnP p = a ++ [w]) : (xs ++ [x]).splitOnP p = a ++ [w ++ [x]] :=
  splitOnP_append h (List.splitOnP_eq_singleton (by simpa using hx))

theorem splitOnP_cons {y : α} (hy : p y = false) {ys v : List α} {b : List (List α)}
    (h : ys.splitOnP p = v :: b) : (y :: ys).splitOnP p = (y :: v) :: b := by
  rw [List.splitOnP_cons_eq_if_modifyHead, h, hy]
  rfl

/-! ## Words -/

theorem mem_words {xs w : List α} (hw : w ∈ words p xs) : w ≠ [] ∧ ∀ x ∈ w, p x = false := by
  obtain ⟨hmem, hne⟩ := List.mem_filter.mp hw
  refine ⟨by simpa using hne, ?_⟩
  clear hw hne
  induction xs generalizing w with
  | nil =>
    obtain rfl : w = [] := by simpa using hmem
    simp
  | cons x xs ih =>
    obtain ⟨v, b, hs⟩ := exists_splitOnP_cons (p := p) xs
    rw [List.splitOnP_cons_eq_if_modifyHead, hs] at hmem
    have hall : ∀ u ∈ v :: b, ∀ x ∈ u, p x = false := fun u hu => ih (hs ▸ hu)
    split_ifs at hmem with hx
    · rcases List.mem_cons.mp hmem with rfl | hmem
      · simp
      · exact hall w hmem
    · rcases List.mem_cons.mp hmem with rfl | hmem
      · simpa [hx] using hall v (by simp)
      · exact hall w (by simp [hmem])

theorem words_append_space {s : α} (hs : p s = true) (xs ys : List α) :
    words p (xs ++ s :: ys) = words p xs ++ words p ys := by
  rw [words, List.splitOnP_append_cons xs ys hs, List.filter_append]
  rfl

theorem words_plain {xs : List α} (hne : xs ≠ []) (h : ∀ x ∈ xs, p x = false) :
    words p xs = [xs] := by
  rw [words, List.splitOnP_eq_singleton h, List.filter_singleton]
  simp [hne]

/-! ## Normal forms -/

theorem normal_eq_nil {xs : List α} : normal p sep xs = [] ↔ words p xs = [] := by
  constructor
  · intro h
    cases hw : words p xs with
    | nil => rfl
    | cons w l =>
      have hne := (mem_words (show w ∈ words p xs by simp [hw])).1
      rw [normal, hw] at h
      cases l with
      | nil => exact absurd (by simpa using h) hne
      | cons u l => simp at h
  · intro h
    rw [normal, h, List.intercalate_nil]

theorem length_normal_le (xs : List α) : (normal p sep xs).length ≤ xs.length := by
  have hsplit : ∀ xs : List α, ([sep].intercalate (xs.splitOnP p)).length = xs.length := by
    intro xs
    induction xs with
    | nil => simp
    | cons x xs ih =>
      obtain ⟨v, b, hs⟩ := exists_splitOnP_cons (p := p) xs
      rw [hs] at ih
      rw [List.splitOnP_cons_eq_if_modifyHead, hs]
      split_ifs
      · rw [List.intercalate_cons_of_ne_nil (by simp)]
        simp [ih]
      · rw [List.modifyHead_cons, List.intercalate_cons_cons_left, List.length_cons, ih,
          List.length_cons]
  calc (normal p sep xs).length
    _ ≤ ([sep].intercalate (xs.splitOnP p)).length := length_intercalate_filter _ _
    _ = xs.length := hsplit xs

/-- **Joining** where no space stands. -/
theorem normal_append {x y : α} (hx : p x = false) (hy : p y = false) (xs ys : List α) :
    normal p sep ((xs ++ [x]) ++ y :: ys) = normal p sep (xs ++ [x]) ++ normal p sep (y :: ys) := by
  obtain ⟨a, w, ha⟩ := exists_splitOnP_concat (p := p) xs
  obtain ⟨v, b, hb⟩ := exists_splitOnP_cons (p := p) ys
  have hleft := splitOnP_concat hx ha
  have hright := splitOnP_cons hy hb
  simp only [normal, words, splitOnP_append hleft hright, hleft, hright, List.filter_append]
  rw [List.filter_cons_of_pos (by simp), List.filter_cons_of_pos (by simp),
    List.filter_cons_of_pos (by simp), List.filter_nil, ← intercalate_append_cons]

/-- A sequence in normal form starts with no space. -/
theorem head_normal {xs ys : List α} {y : α} (h : normal p sep xs = y :: ys) : p y = false := by
  rw [normal] at h
  cases hw : words p xs with
  | nil =>
    rw [hw] at h
    cases h
  | cons w l =>
    obtain ⟨hne, hplain⟩ := mem_words (show w ∈ words p xs by simp [hw])
    obtain ⟨z, w, rfl⟩ := List.exists_cons_of_ne_nil hne
    rw [hw, List.intercalate_cons_cons_left] at h
    obtain rfl := (List.cons.inj h).1
    exact hplain z (by simp)

theorem normal_plain {x : α} (hx : p x = false) : normal p sep [x] = [x] := by
  rw [normal, words_plain (by simp) (by simpa using hx), List.intercalate_singleton]

theorem normal_cons {c : α} (hc : p c = false) {u : List α} (hu : normal p sep u = u) :
    normal p sep (c :: u) = c :: u := by
  cases u with
  | nil => exact normal_plain hc
  | cons y ys =>
    have h : normal p sep (([] ++ [c]) ++ y :: ys) =
        normal p sep ([] ++ [c]) ++ normal p sep (y :: ys) :=
      normal_append hc (head_normal hu) [] ys
    rw [List.nil_append, normal_plain hc, hu] at h
    exact h

/-- A space at the end of a sequence with a word stays there as a separator when something that
starts with no space comes after it. -/
theorem normal_append_cons {c : α} (hc : p c = false) {u : List α} (hu : normal p sep u = u)
    (xs : List α) : normal p sep (xs ++ c :: u) =
      (if xs.getLast?.any p ∧ words p xs ≠ [] then normal p sep xs ++ [sep] else normal p sep xs) ++
        c :: u := by
  have hcu := normal_cons hc hu
  rcases List.eq_nil_or_concat' xs with rfl | ⟨a, x, rfl⟩
  · simpa [normal, words] using hcu
  · rw [List.getLast?_concat, Option.any_some]
    cases hx : p x with
    | false => rw [if_neg (by simp), normal_append hx hc, hcu]
    | true =>
      have hwords : words p (a ++ [x]) = words p a := by
        rw [words_append_space hx]
        simp [words]
      have hne : words p (c :: u) ≠ [] := by
        intro he
        rw [normal, he] at hcu
        cases hcu
      have hall : words p (a ++ x :: c :: u) = words p a ++ words p (c :: u) :=
        words_append_space hx a (c :: u)
      have hu' : [sep].intercalate (words p (c :: u)) = c :: u := hcu
      rw [List.append_assoc, List.singleton_append, normal, normal, hwords, hall]
      by_cases ha : words p a = []
      · simpa [ha] using hu'
      · rw [if_pos ⟨rfl, ha⟩, intercalate_append ha hne, hu', List.append_assoc]
        rfl

end Scriba.Lib.Words
