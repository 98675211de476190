import Mathlib.Algebra.BigOperators.Group.List.Basic
import Mathlib.Algebra.Order.BigOperators.Group.List
import Mathlib.Data.List.Count
import Mathlib.Tactic.Ring

/-! # Loads that are kept level

Things come and go, and each is at one of a number of places; the load of a place is the number of
the things that are there. If a thing that comes is put where the load is least, no load ever
exceeds the greatest number of things there were at a time, divided by the number of places and
rounded up, whatever goes. -/

namespace Scriba.Lib

/-- The first of the least is there, and no load is less. -/
theorem least_of_minIdxOn? {loads : List Int} {i : Nat} (h : loads.minIdxOn? id = some i) :
    ∃ l, loads[i]? = some l ∧ ∀ l' ∈ loads, l ≤ l' := by
  have hne := List.ne_nil_of_minIdxOn?_eq_some h
  obtain ⟨hlt, hleast, -⟩ :=
    (List.minIdxOn_eq_iff hne).mp (List.minIdxOn_eq_of_minIdxOn?_eq_some h)
  refine ⟨loads[i], List.getElem?_eq_getElem hlt, fun l' hl' => ?_⟩
  obtain ⟨j, hj, rfl⟩ := List.mem_iff_getElem.mp hl'
  exact hleast j hj

/-- The loads are those of the things with these places, and none is above its share of `most`
among `n` places. -/
structure Level (n most : Nat) (loads : List Int) (places : List Nat) : Prop where
  counts : ∀ (i : Nat) (l : Int), loads[i]? = some l → l = places.count i
  inside : ∀ i ∈ places, i < loads.length
  total : loads.sum = places.length
  share : ∀ l ∈ loads, l ≤ ((most + n - 1) / n : Nat)

namespace Level

variable {n most i : Nat} {loads : List Int} {places u v : List Nat} {l : Int}

theorem init (n most : Nat) : Level n most [] [] :=
  ⟨by simp, by simp, rfl, by simp⟩

theorem one_le_share (hn : 0 < n) (h : 0 < most) : 1 ≤ (most + n - 1) / n :=
  (Nat.one_le_div_iff hn).mpr (by omega)

/-- A load that is least is at most the average. -/
theorem least_le (hlen : loads.length = n) (hleast : ∀ l' ∈ loads, l ≤ l') :
    n * l ≤ loads.sum := by
  have h := List.card_nsmul_le_sum loads l hleast
  rwa [hlen, nsmul_eq_mul] at h

/-- A new place, with one thing. -/
theorem new (h : Level n most loads places) (hn : 0 < n) (hmost : places.length < most) :
    Level n most (loads ++ [1]) (places ++ [loads.length]) := by
  refine ⟨fun i l hl => ?_, fun i hi => ?_, by simp [h.total], fun l hl => ?_⟩
  · rw [List.count_append]
    rcases lt_or_ge i loads.length with hlt | hge
    · rw [List.getElem?_append_left hlt] at hl
      rw [h.counts i l hl, List.count_singleton, if_neg (by simpa using hlt.ne')]
      simp
    · rw [List.getElem?_append_right hge] at hl
      obtain ⟨hi, rfl⟩ := List.getElem?_eq_some_iff.mp hl
      obtain rfl : i = loads.length := by simp at hi; omega
      have hnone : places.count loads.length = 0 :=
        List.count_eq_zero.mpr fun hin => lt_irrefl _ (h.inside _ hin)
      simp [hnone]
  · rw [List.length_append, List.length_singleton]
    rcases List.mem_append.mp hi with hi | hi
    · exact (h.inside i hi).trans (Nat.lt_succ_self _)
    · exact (List.mem_singleton.mp hi).symm ▸ Nat.lt_succ_self _
  · rcases List.mem_append.mp hl with hl | hl
    · exact h.share l hl
    · obtain rfl := List.mem_singleton.mp hl
      exact_mod_cast one_le_share hn (Nat.zero_lt_of_lt hmost)

theorem sum_modify (h : loads[i]? = some l) (d : Int) :
    (loads.modify i (· + d)).sum = loads.sum + d := by
  obtain ⟨hi, rfl⟩ := List.getElem?_eq_some_iff.mp h
  rw [List.modify_eq_take_cons_drop hi, List.sum_append, List.sum_cons]
  have hsum : loads.sum = (loads.take i).sum + (loads[i] + (loads.drop (i + 1)).sum) := by
    rw [← List.sum_cons, List.getElem_cons_drop, ← List.sum_append, List.take_append_drop]
  rw [hsum]
  ring

theorem counts_modify (h : Level n most loads places) (d : Int) {places' : List Nat}
    (hcount : ∀ j, (places'.count j : Int) = places.count j + if i = j then d else 0) (j : Nat)
    (l : Int) (hl : (loads.modify i (· + d))[j]? = some l) : l = places'.count j := by
  rw [List.getElem?_modify] at hl
  obtain ⟨l', hl', rfl⟩ := Option.map_eq_some_iff.mp hl
  rw [hcount, ← h.counts j l' hl']
  split_ifs
  · rfl
  · simp

theorem mem_modify {f : Int → Int} (h : l ∈ loads.modify i f) :
    l ∈ loads ∨ ∃ l', loads[i]? = some l' ∧ l = f l' := by
  obtain ⟨j, hj⟩ := List.getElem?_of_mem h
  rw [List.getElem?_modify] at hj
  obtain ⟨l', hl', rfl⟩ := Option.map_eq_some_iff.mp hj
  split_ifs with he
  · exact .inr ⟨l', he ▸ hl', rfl⟩
  · exact .inl (List.mem_of_getElem? hl')

/-- **A thing is put where the load is least.** -/
theorem put (h : Level n most loads places) (hlen : loads.length = n) (hmost : places.length < most)
    (hi : loads[i]? = some l) (hleast : ∀ l' ∈ loads, l ≤ l') :
    Level n most (loads.modify i (· + 1)) (places ++ [i]) := by
  have hlt : i < loads.length := (List.getElem?_eq_some_iff.mp hi).1
  refine ⟨h.counts_modify 1 fun j => ?_, fun j hj => ?_, ?_, fun l' hl' => ?_⟩
  · rw [List.count_append, List.count_singleton]
    simp [eq_comm (a := i)]
  · rw [List.length_modify]
    rcases List.mem_append.mp hj with hj | hj
    · exact h.inside j hj
    · exact (List.mem_singleton.mp hj).symm ▸ hlt
  · rw [sum_modify hi, h.total]
    simp
  · rcases mem_modify hl' with hl' | ⟨l₁, hl₁, rfl⟩
    · exact h.share l' hl'
    · obtain rfl := Option.some.inj (hi.symm.trans hl₁)
      have hsum := least_le hlen hleast
      rw [h.total] at hsum
      obtain ⟨k, rfl⟩ : ∃ k : Nat, l = k := ⟨_, h.counts i l hi⟩
      have hk : n * k < most := by
        have : n * k ≤ places.length := by exact_mod_cast hsum
        omega
      have hshare : k + 1 ≤ (most + n - 1) / n := by
        rw [Nat.le_div_iff_mul_le (by omega)]
        have : (k + 1) * n = n * k + n := by ring
        omega
      exact_mod_cast hshare

/-- **A thing goes.** -/
theorem take (h : Level n most loads (u ++ i :: v)) :
    Level n most (loads.modify i (· - 1)) (u ++ v) := by
  have hlt := h.inside i (by simp)
  have hi := List.getElem?_eq_getElem hlt
  refine ⟨h.counts_modify (-1) fun j => ?_, fun j hj => ?_, ?_, fun l' hl' => ?_⟩
  · simp only [List.count_append, List.count_cons]
    by_cases hj : i = j
    · simp [hj, ← add_assoc]
    · simp [hj]
  · rw [List.length_modify]
    refine h.inside j ?_
    rcases List.mem_append.mp hj with hj | hj <;> simp [hj]
  · have hsum := sum_modify hi (-1)
    rw [h.total] at hsum
    refine hsum.trans ?_
    simp
    ring
  · rcases mem_modify hl' with hl' | ⟨l₁, hl₁, rfl⟩
    · exact h.share l' hl'
    · have hle := h.share l₁ (List.mem_of_getElem? hl₁)
      omega

end Level

end Scriba.Lib
