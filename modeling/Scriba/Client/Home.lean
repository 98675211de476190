import Scriba.Lib.Words
import Scriba.Utility.Json

/-! # Names of files

What `Home` makes of the names of files. A new file is opened under its name and that of the user
with a comma between them. In the list of shared files an item is the name with the owner in
brackets; the chosen item is turned back by two replacements, which do not tell the brackets of
the owner from those of the name. -/

namespace Scriba.Utility.QString

/-! ## Replacing -/

/-- The rest of `replace` when `n` more elements belong to the occurrence replaced last. -/
def replaceFrom (before after : QString) : Nat → QString → QString
  | _, [] => []
  | n + 1, _ :: s => replaceFrom before after n s
  | 0, c :: s =>
    if before.isPrefixOf (c :: s) then after ++ replaceFrom before after (before.length - 1) s
    else c :: replaceFrom before after 0 s

/-- `replace(before, after)`, for a `before` that is not empty. -/
def replace (s before after : QString) : QString := replaceFrom before after 0 s

section Replace

variable {a b c : QChar} {s t after : QString}

/-- Removing a code unit. -/
theorem replace_nil (s : QString) (c : QChar) : s.replace [c] [] = s.filter (· ≠ c) := by
  induction s with
  | nil => rfl
  | cons x s ih =>
    have hrest : replaceFrom [c] [] 0 s = s.filter (· ≠ c) := ih
    by_cases hx : x = c
    · subst hx
      simp [replace, replaceFrom, hrest]
    · simp [replace, replaceFrom, hrest, hx, Ne.symm hx]

theorem isPrefixOf_pair {x : QChar} :
    [a, b].isPrefixOf (x :: s) = true ↔ x = a ∧ ∃ t, s = b :: t := by
  cases s with
  | nil => simp
  | cons y s =>
    rw [List.isPrefixOf_iff_prefix, List.cons_prefix_cons, List.cons_prefix_cons, eq_comm]
    simp [eq_comm]

private theorem replaceFrom_append_pair (hab : a ≠ b) (s t : QString) (n : Nat) (hn : n ≤ 1)
    (hs : n ≤ s.length) : replaceFrom [a, b] after n (s ++ a :: b :: t) =
      replaceFrom [a, b] after n s ++ after ++ replaceFrom [a, b] after 0 t := by
  induction s generalizing n with
  | nil =>
    obtain rfl : n = 0 := by simpa using hs
    simp [replaceFrom]
  | cons x s ih =>
    cases n with
    | succ n =>
      obtain rfl : n = 0 := by omega
      exact ih 0 (by omega) (by omega)
    | zero =>
      -- An occurrence that starts before the pair ends before it.
      have hiff : [a, b].isPrefixOf (x :: (s ++ a :: b :: t)) = [a, b].isPrefixOf (x :: s) := by
        rw [Bool.eq_iff_iff, isPrefixOf_pair, isPrefixOf_pair]
        cases s with
        | nil => simp [hab]
        | cons y s => simp
      rw [List.cons_append, replaceFrom, replaceFrom, hiff]
      split_ifs with hx
      · obtain ⟨-, s', rfl⟩ := isPrefixOf_pair.mp hx
        rw [List.length_cons, List.length_singleton, ih _ (by omega) (by simp)]
        simp only [List.append_assoc]
      · rw [ih 0 (by omega) (by omega)]
        simp only [List.cons_append]

/-- Two different code units are replaced on their own. -/
theorem replace_append_pair (hab : a ≠ b) (s t : QString) :
    (s ++ a :: b :: t).replace [a, b] after =
    s.replace [a, b] after ++ after ++ t.replace [a, b] after :=
  replaceFrom_append_pair hab s t 0 (by omega) (by omega)

private theorem replaceFrom_of_absent (h : ¬ [a, b] <:+: s) :
    replaceFrom [a, b] after 0 s = s := by
  induction s with
  | nil => rfl
  | cons x s ih =>
    rw [replaceFrom, if_neg, ih fun hi => h (hi.trans (List.suffix_cons x s).isInfix)]
    intro hp
    obtain ⟨rfl, t, rfl⟩ := isPrefixOf_pair.mp hp
    exact h ⟨[], t, rfl⟩

/-- What does not occur is not replaced. -/
theorem replace_of_absent (h : ¬ [a, b] <:+: s) : s.replace [a, b] after = s :=
  replaceFrom_of_absent h

/-- A code unit for two makes a string that has them shorter. -/
theorem length_replace_pair (hab : a ≠ b) (s : QString) :
    (s.replace [a, b] [c]).length ≤ s.length ∧
      ([a, b] <:+: s → (s.replace [a, b] [c]).length < s.length) := by
  induction hn : s.length using Nat.strong_induction_on generalizing s with
  | _ n ih =>
    subst hn
    by_cases h : [a, b] <:+: s
    · obtain ⟨u, v, rfl⟩ := h
      rw [List.append_assoc, List.cons_append, List.singleton_append, replace_append_pair hab]
      have hu := (ih u.length (by simp) u rfl).1
      have hv := (ih v.length (by simp; omega) v rfl).1
      simp only [List.length_append, List.length_cons, List.length_nil]
      omega
    · rw [replace_of_absent h]
      exact ⟨Nat.le_refl _, fun hi => absurd hi h⟩

end Replace

/-! ## Simplified strings -/

/-- White space at the end. -/
def endsInSpace (s : QString) : Bool := s.getLast?.any QChar.isSpace

end Scriba.Utility.QString

namespace Scriba.Client

open Scriba.Utility Scriba.Lib

namespace Home

/-- The name that `on_pushButtonNewFile_clicked` sets as that of the open file. -/
def openedFile (text username : QString) : QString := text ++ [QChar.of ','] ++ username

/-- The item `showActiveFiles` lists for a file of the user, or for a shared one. -/
def item (shared : Bool) (name owner : QString) : QString :=
  if shared then name ++ QString.of " (" ++ owner ++ QString.of ")" else name

/-- The file that `showActiveFiles` has opened for a chosen item. -/
def choice (shared : Bool) (username item : QString) : QString :=
  if shared then (item.replace (QString.of " (") (QString.of ",")).replace (QString.of ")") []
  else item ++ [QChar.of ','] ++ username

end Home

end Scriba.Client
