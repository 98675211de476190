import Mathlib.Data.List.Basic

/-! # Tables

Ordered maps whose order tells all keys apart: lookups after each update, as conditions on keys,
and passes over lists of entries that can fail. -/

namespace Scriba.Lib.Table

section Membership

variable {α β : Type} [Ord α] [Std.TransOrd α] {t : Std.TreeMap α β} {a : α} {v : β}

theorem mem_of_getElem? (h : t[a]? = some v) : a ∈ t :=
  Std.TreeMap.mem_iff_isSome_getElem?.mpr (by rw [h]; rfl)

theorem exists_of_mem (h : a ∈ t) : ∃ v, t[a]? = some v :=
  Option.isSome_iff_exists.mp (Std.TreeMap.mem_iff_isSome_getElem?.mp h)

theorem not_mem_iff : a ∉ t ↔ t[a]? = none := by
  rw [Std.TreeMap.mem_iff_isSome_getElem?, Option.not_isSome_iff_eq_none]

end Membership

variable {α β : Type} [Ord α] [Std.LawfulEqOrd α] {t : Std.TreeMap α β} {a k : α} {v : β}

theorem compare_eq : compare k a = .eq ↔ a = k := by
  rw [Std.LawfulEqCmp.compare_eq_iff_eq, eq_comm]

variable [Std.TransOrd α]

theorem mem_insert : a ∈ t.insert k v ↔ a = k ∨ a ∈ t := by
  simp only [Std.TreeMap.mem_insert, compare_eq]

theorem mem_erase : a ∈ t.erase k ↔ a ≠ k ∧ a ∈ t := by
  simp only [Std.TreeMap.mem_erase, ne_eq, compare_eq]

theorem mem_toList : (k, v) ∈ t.toList ↔ t[k]? = some v :=
  Std.TreeMap.mem_toList_iff_getElem?_eq_some

/-- The values are those of the lookups. -/
theorem mem_values : v ∈ t.values ↔ ∃ k : α, t[k]? = some v := by
  have hfold : t.values = t.foldr (fun _ v list => v :: list) [] := rfl
  have hmap : t.values = t.toList.map Prod.snd := by
    rw [hfold, Std.TreeMap.foldr_eq_foldr_toList,
      ← List.foldr_cons_nil (l := t.toList.map Prod.snd), List.foldr_map]
  simp only [hmap, List.mem_map, Prod.exists, mem_toList, exists_eq_right]

theorem nodup_keys (t : Std.TreeMap α β) : (t.toList.map Prod.fst).Nodup := by
  refine List.pairwise_map.mpr (Std.TreeMap.distinct_keys_toList.imp fun h he => h ?_)
  exact compare_eq.mpr he.symm

section Lookup

variable [DecidableEq α]

theorem getElem?_insert : (t.insert k v)[a]? = if a = k then some v else t[a]? := by
  simp only [Std.TreeMap.getElem?_insert, compare_eq]

theorem getElem?_erase : (t.erase k)[a]? = if a = k then none else t[a]? := by
  simp only [Std.TreeMap.getElem?_erase, compare_eq]

theorem getElem?_modify {f : β → β} :
    (t.modify k f)[a]? = if a = k then t[k]?.map f else t[a]? := by
  simp only [Std.TreeMap.getElem?_modify, compare_eq]

end Lookup

end Scriba.Lib.Table

namespace Scriba.Lib

/-- **A pass over a list**, with what holds while some of it is left. -/
theorem foldlM_rest {γ σ ε : Type} {step : σ → γ → Except ε σ} (I : List γ → σ → Prop)
    (hstep : ∀ e l s s', I (e :: l) s → step s e = .ok s' → I l s') {l : List γ} {s s' : σ}
    (hI : I l s) (h : l.foldlM step s = .ok s') : I [] s' := by
  induction l generalizing s with
  | nil =>
    cases h
    exact hI
  | cons e l ih =>
    rw [List.foldlM_cons] at h
    cases he : step s e with
    | error f =>
      rw [he] at h
      cases h
    | ok s1 =>
      rw [he] at h
      exact ih (hstep e l s s1 hI he) h

end Scriba.Lib
