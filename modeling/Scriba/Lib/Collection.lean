import Mathlib.Data.List.Nodup
import Mathlib.Data.List.Pairwise

/-! # Collections

Lists of documents, of which a query takes the first that matches and an update changes it. Where a
field tells all documents apart, a query for it finds one document, and an update of that is a pass
over all of them. -/

namespace Scriba.Lib.Collection

variable {α β κ : Type} {p : α → Bool} {f : α → α} {key : α → κ} {k : κ} {a b : α} {l : List α}

/-- The first document that matches. -/
def findOne (p : α → Bool) (l : List α) : Option α := l.find? p

/-- The first document that matches is changed, if there is one. -/
def updateOne (p : α → Bool) (f : α → α) : List α → List α
  | [] => []
  | a :: l => if p a then f a :: l else a :: updateOne p f l

/-- `$push`. -/
def push (x : β) (list : List β) : List β := list ++ [x]

/-- `$addToSet`. -/
def addToSet [DecidableEq β] (x : β) (list : List β) : List β :=
  if x ∈ list then list else list ++ [x]

section AddToSet

variable [DecidableEq β] {x y : β} {list : List β}

theorem mem_addToSet : y ∈ addToSet x list ↔ y ∈ list ∨ y = x := by
  unfold addToSet
  split_ifs with h
  · exact ⟨.inl, fun hy => hy.elim id fun hyx => hyx ▸ h⟩
  · simp

theorem nodup_addToSet (h : list.Nodup) : (addToSet x list).Nodup := by
  unfold addToSet
  split_ifs with hx
  · exact h
  · rw [List.nodup_append]
    refine ⟨h, by simp, fun a ha b hb => ?_⟩
    rw [List.mem_singleton.mp hb]
    rintro rfl
    exact hx ha

end AddToSet

/-! ## Queries -/

theorem findOne_isSome : (findOne p l).isSome ↔ ∃ a ∈ l, p a = true := List.find?_isSome

theorem findOne_none : findOne p l = none ↔ ∀ a ∈ l, ¬ p a = true := List.find?_eq_none

theorem mem_of_findOne (h : findOne p l = some a) : a ∈ l := List.mem_of_find?_eq_some h

theorem of_findOne (h : findOne p l = some a) : p a = true := List.find?_some h

/-- **The only document that matches is found.** -/
theorem findOne_of_unique (ha : a ∈ l) (hp : p a = true) (hu : ∀ b ∈ l, p b = true → b = a) :
    findOne p l = some a := by
  obtain ⟨b, hb⟩ := Option.isSome_iff_exists.mp (findOne_isSome.mpr ⟨a, ha, hp⟩)
  rw [hb, hu b (mem_of_findOne hb) (of_findOne hb)]

theorem eq_of_key (hn : (l.map key).Nodup) (ha : a ∈ l) (hb : b ∈ l) (h : key a = key b) : a = b :=
  List.inj_on_of_nodup_map hn ha hb h

/-- An element of two lists is an element of one, when all of them are distinct. -/
theorem eq_of_mem_flatMap {g : α → List β} {x : β} (hn : (l.flatMap g).Nodup) (ha : a ∈ l)
    (hb : b ∈ l) (hxa : x ∈ g a) (hxb : x ∈ g b) : a = b := by
  have hsymm : Std.Symm (Function.onFun List.Disjoint g) := ⟨fun _ _ h _ ha hb => h hb ha⟩
  by_contra hne
  exact (List.nodup_flatMap.mp hn).2.forall ha hb hne hxa hxb

theorem nodup_key_append (hn : (l.map key).Nodup) (ha : key a ∉ l.map key) :
    ((l ++ [a]).map key).Nodup := by
  rw [List.map_append, List.nodup_append]
  refine ⟨hn, by simp, fun b hb c hc => ?_⟩
  obtain rfl := List.mem_singleton.mp hc
  rintro rfl
  exact ha hb

section Key

variable [DecidableEq κ]

theorem findOne_key (hn : (l.map key).Nodup) (ha : a ∈ l) :
    findOne (fun b => key b = key a) l = some a :=
  findOne_of_unique ha (by simp) fun b hb hk => eq_of_key hn hb ha (by simpa using hk)

end Key

/-! ## Updates -/

/-- What an update does not change. -/
theorem map_updateOne {g : α → β} (hg : ∀ a, p a = true → g (f a) = g a) :
    (updateOne p f l).map g = l.map g := by
  induction l with
  | nil => rfl
  | cons a l ih =>
    rw [updateOne]
    split_ifs with ha
    · rw [List.map_cons, List.map_cons, hg a ha]
    · rw [List.map_cons, List.map_cons, ih]

theorem flatMap_updateOne {g : α → List β} (hg : ∀ a, p a = true → g (f a) = g a) :
    (updateOne p f l).flatMap g = l.flatMap g := by
  rw [List.flatMap_def, List.flatMap_def, map_updateOne hg]

/-- **A list in the document grows.** -/
theorem flatMap_updateOne_perm {g : α → List β} {x : β} (h : ∃ a ∈ l, p a = true)
    (hg : ∀ a, p a = true → (g (f a)).Perm (x :: g a)) :
    ((updateOne p f l).flatMap g).Perm (x :: l.flatMap g) := by
  induction l with
  | nil => simp at h
  | cons a l ih =>
    rw [updateOne]
    split_ifs with ha
    · rw [List.flatMap_cons, List.flatMap_cons]
      exact (hg a ha).append_right _
    · rw [List.flatMap_cons, List.flatMap_cons]
      have hl : ∃ b ∈ l, p b = true := by
        obtain ⟨b, hb, hpb⟩ := h
        rcases List.mem_cons.mp hb with rfl | hb
        · exact absurd hpb ha
        · exact ⟨b, hb, hpb⟩
      exact ((ih hl).append_left _).trans List.perm_middle

/-- **An update by a key** is a pass over all documents. -/
theorem updateOne_key [DecidableEq κ] (hn : (l.map key).Nodup) :
    updateOne (fun a => key a = k) f l = l.map fun a => if key a = k then f a else a := by
  induction l with
  | nil => rfl
  | cons a l ih =>
    rw [List.map_cons, List.nodup_cons] at hn
    rw [updateOne, List.map_cons]
    by_cases ha : key a = k
    · have hrest : l.map (fun b => if key b = k then f b else b) = l := by
        refine (List.map_congr_left fun b hb => if_neg ?_).trans (List.map_id l)
        exact fun hk => hn.1 (ha.trans hk.symm ▸ List.mem_map_of_mem hb)
      simp only [ha, decide_true, if_true, hrest]
    · simp only [ha, decide_false, Bool.false_eq_true, if_false, ih hn.2]

/-- A query by the same key after it. -/
theorem findOne_updateOne [DecidableEq κ] {v : κ} (hf : ∀ a, key (f a) = key a) :
    findOne (fun a => key a = v) (updateOne (fun a => key a = k) f l) =
      if v = k then (findOne (fun a => key a = k) l).map f else findOne (fun a => key a = v) l := by
  induction l with
  | nil => simp [updateOne, findOne]
  | cons a l ih =>
    rw [updateOne]
    by_cases ha : key a = k
    · by_cases hv : v = k
      · simp [findOne, ha, hv, hf]
      · simp [findOne, ha, hv, hf, Ne.symm hv]
    · by_cases hav : key a = v
      · have hv : v ≠ k := fun h => ha (hav.trans h)
        simp [findOne, hav, hv]
      · simpa [findOne, ha, hav] using ih

end Scriba.Lib.Collection
