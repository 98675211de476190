import Mathlib.Data.Nat.Basic

/-! # Bisection with a three-way comparison

`bisect` narrows `[left, right]` until its ends are neighbours, and stops early where the
comparison is zero. It asks the comparison only strictly inside, so nothing is known of
the ends that the caller did not know; `bisect_spec` says what is known of the ends that
moved. `search` narrows `[left, right]` until nothing is left of it. The comparison may fail
(`Except`), as an access to a container can. -/

namespace Scriba.Lib.Bisect

inductive Outcome where
  | found (mid : Nat)
  | between (left right : Nat)
deriving DecidableEq, Repr

def bisect {ε : Type} (cmp : Nat → Except ε Int) (left right : Nat) : Except ε Outcome :=
  if left + 1 < right then do
    let mid := left + (right - left) / 2
    let c ← cmp mid
    if c = 0 then pure (.found mid)
    else if c > 0 then bisect cmp mid right
    else bisect cmp left mid
  else pure (.between left right)
termination_by right - left

/-- What an outcome of `bisect` on `[left, right]` says when `c` is the comparison. -/
def Outcome.Sound (c : Nat → Int) (left right : Nat) : Outcome → Prop
  | .found mid => left ≤ mid ∧ mid ≤ right ∧ c mid = 0
  | .between l r => left ≤ l ∧ l ≤ r ∧ r ≤ right ∧ r ≤ l + 1 ∧ (l = left ∨ 0 < c l) ∧
      (r = right ∨ c r < 0)

theorem Outcome.Sound.widen {c : Nat → Int} {left right l r : Nat} {o : Outcome}
    (h : o.Sound c l r) (hl : left ≤ l) (hlc : l = left ∨ 0 < c l) (hr : r ≤ right)
    (hrc : r = right ∨ c r < 0) : o.Sound c left right := by
  cases o with
  | found mid =>
    obtain ⟨h1, h2, h3⟩ := h
    exact ⟨Nat.le_trans hl h1, Nat.le_trans h2 hr, h3⟩
  | between l' r' =>
    obtain ⟨h1, h2, h3, h4, h5, h6⟩ := h
    refine ⟨Nat.le_trans hl h1, h2, Nat.le_trans h3 hr, h4, ?_, ?_⟩
    · rcases h5 with rfl | h5
      · exact hlc
      · exact .inr h5
    · rcases h6 with rfl | h6
      · exact hrc
      · exact .inr h6

/-- **Bisection is total and sound** when the comparison succeeds inside the bounds. -/
theorem bisect_spec {ε : Type} {cmp : Nat → Except ε Int} {c : Nat → Int} {left right : Nat}
    (hle : left ≤ right) (h : ∀ i, left ≤ i → i ≤ right → cmp i = .ok (c i)) :
    ∃ o, bisect cmp left right = .ok o ∧ o.Sound c left right := by
  fun_induction bisect cmp left right with
  | case1 left right hlt mid ih1 ih2 =>
    have hmid : left < mid ∧ mid < right := by omega
    have hc : cmp mid = .ok (c mid) := h mid (by omega) (by omega)
    have hb : ∀ {β : Type} (k : Int → Except ε β), (cmp mid >>= k) = k (c mid) := by
      intro β k; rw [hc]; rfl
    rw [hb]
    rcases Int.lt_trichotomy (c mid) 0 with hneg | hz | hpos
    · obtain ⟨o, ho, hs⟩ := ih2 (by omega) fun i h1 h2 => h i h1 (by omega)
      refine ⟨o, ?_, hs.widen (Nat.le_refl _) (.inl rfl) (by omega) (.inr hneg)⟩
      rw [if_neg (by omega), if_neg (by omega), ho]
    · refine ⟨.found mid, ?_, by omega, by omega, hz⟩
      rw [if_pos hz]
      rfl
    · obtain ⟨o, ho, hs⟩ := ih1 (by omega) fun i h1 h2 => h i (by omega) h2
      refine ⟨o, ?_, hs.widen (by omega) (.inr hpos) (Nat.le_refl _) (.inl rfl)⟩
      rw [if_neg (by omega), if_pos hpos, ho]
  | case2 left right hge =>
    exact ⟨.between left right, rfl, Nat.le_refl _, hle, Nat.le_refl _, by omega, .inl rfl,
      .inl rfl⟩

/-- The first index from `left` on where the comparison is not positive. -/
def IsLowerBound (c : Nat → Int) (left i : Nat) : Prop :=
  (∀ j, left ≤ j → j < i → 0 < c j) ∧ c i ≤ 0

/-- Along a strictly sorted sequence, a comparison that is not positive is negative further on. -/
def StrictlySorted (c : Nat → Int) (left right : Nat) : Prop :=
  ∀ i j, left ≤ i → i < j → j ≤ right → c i ≤ 0 → c j < 0

theorem IsLowerBound.of_zero {c : Nat → Int} {left right i : Nat}
    (hc : StrictlySorted c left right) (hi : i ≤ right) (hz : c i = 0) :
    IsLowerBound c left i := by
  refine ⟨fun j hl hj => ?_, by omega⟩
  by_contra hn
  have := hc j i hl hj hi (by omega)
  omega

theorem IsLowerBound.of_le {c : Nat → Int} {left : Nat} (h : c left ≤ 0) :
    IsLowerBound c left left :=
  ⟨fun _ hl hj => absurd hl (by omega), h⟩

/-- What an outcome says of the first index that is not below. -/
def Outcome.Lower (c : Nat → Int) (left right : Nat) : Outcome → Prop
  | .found mid => mid ≤ right ∧ c mid = 0 ∧ IsLowerBound c left mid
  | .between l r => l ≤ right ∧ r ≤ right ∧ (c l ≤ 0 → l = left) ∧
      (0 < c l → IsLowerBound c left r)

/-- If the first is not above, a gap that does not begin with an equal one ends at the first index
that is not below. -/
theorem Outcome.Lower.right {c : Nat → Int} {left right l r : Nat}
    (h : (Outcome.between l r).Lower c left right) (h0 : 0 ≤ c left) (hl : c l ≠ 0) :
    IsLowerBound c left r := by
  obtain ⟨-, -, hstart, hbound⟩ := h
  by_cases hle : c l ≤ 0
  · obtain rfl := hstart hle
    omega
  · exact hbound (by omega)

/-- Bisection of a strictly sorted sequence points to the first index that is not below,
provided the last one is not. -/
theorem Outcome.Sound.lower {c : Nat → Int} {left right : Nat} {o : Outcome}
    (h : o.Sound c left right) (hc : StrictlySorted c left right) (hr : c right ≤ 0) :
    o.Lower c left right := by
  cases o with
  | found mid => exact ⟨h.2.1, h.2.2, .of_zero hc h.2.1 h.2.2⟩
  | between l r =>
    obtain ⟨h1, h2, h3, h4, h5, h6⟩ := h
    refine ⟨by omega, h3, fun hl => h5.resolve_right (by omega), fun hl => ?_⟩
    have hne : l ≠ r := by
      rintro rfl
      rcases h6 with rfl | h6 <;> omega
    refine ⟨fun j hj1 hj2 => ?_, by rcases h6 with rfl | h6 <;> omega⟩
    by_contra hn
    rcases Nat.lt_or_ge j l with hlt | hge
    · have := hc j l hj1 hlt (by omega) (by omega)
      omega
    · obtain rfl : j = l := by omega
      omega

/-! ## Until nothing is left -/

inductive Found where
  | present (mid : Int)
  | missing (left : Int)
deriving DecidableEq, Repr

/-- The ends are `Int`s: the right one of an empty interval can be -1. -/
def search {ε : Type} (cmp : Int → Except ε Int) (left right : Int) : Except ε Found :=
  if left ≤ right then do
    let mid := (left + right) / 2
    let c ← cmp mid
    if c = 0 then pure (.present mid)
    else if c > 0 then search cmp (mid + 1) right
    else search cmp left (mid - 1)
  else pure (.missing left)
termination_by (right + 1 - left).toNat

/-- What an outcome of `search` on `[left, right]` says when `c` is the comparison. -/
def Found.Sound (c : Int → Int) (left right : Int) : Found → Prop
  | .present mid => left ≤ mid ∧ mid ≤ right ∧ c mid = 0
  | .missing k => left ≤ k ∧ k ≤ right + 1 ∧ (k = left ∨ 0 < c (k - 1)) ∧
      (k = right + 1 ∨ c k < 0)

theorem search_spec {ε : Type} {cmp : Int → Except ε Int} {c : Int → Int} {left right : Int}
    (hle : left ≤ right + 1) (h : ∀ i, left ≤ i → i ≤ right → cmp i = .ok (c i)) :
    ∃ o, search cmp left right = .ok o ∧ o.Sound c left right := by
  fun_induction search cmp left right with
  | case1 left right hlt mid ih1 ih2 =>
    have hmid : left ≤ mid ∧ mid ≤ right := by omega
    have hc : cmp mid = .ok (c mid) := h mid hmid.1 hmid.2
    have hb : ∀ {β : Type} (k : Int → Except ε β), (cmp mid >>= k) = k (c mid) := by
      intro β k; rw [hc]; rfl
    rw [hb]
    rcases Int.lt_trichotomy (c mid) 0 with hneg | hz | hpos
    · obtain ⟨o, ho, hs⟩ := ih2 (by omega) fun i h1 h2 => h i h1 (by omega)
      refine ⟨o, by rw [if_neg (by omega), if_neg (by omega), ho], ?_⟩
      cases o with
      | present m => exact ⟨hs.1, by have := hs.2.1; omega, hs.2.2⟩
      | missing k =>
        obtain ⟨h1, h2, h3, h4⟩ := hs
        refine ⟨h1, by omega, h3, .inr ?_⟩
        rcases h4 with rfl | h4
        · rwa [Int.sub_add_cancel]
        · exact h4
    · exact ⟨.present mid, by rw [if_pos hz]; rfl, hmid.1, hmid.2, hz⟩
    · obtain ⟨o, ho, hs⟩ := ih1 (by omega) fun i h1 h2 => h i (by omega) h2
      refine ⟨o, by rw [if_neg (by omega), if_pos hpos, ho], ?_⟩
      cases o with
      | present m => exact ⟨by have := hs.1; omega, hs.2⟩
      | missing k =>
        obtain ⟨h1, h2, h3, h4⟩ := hs
        refine ⟨by omega, h2, .inr ?_, h4⟩
        rcases h3 with rfl | h3
        · rwa [Int.add_sub_cancel]
        · exact h3
  | case2 left right hge =>
    exact ⟨.missing left, rfl, by omega, by omega, .inl rfl, .inl (by omega)⟩

end Scriba.Lib.Bisect
