import Mathlib.Data.List.Basic

/-! # Stores that write back later

A store with a copy in memory that is loaded when it is needed, changed there, and written back
when it is saved or given up. A flag says whether the copy has changed since. What the store is
worth is the result of all operations so far (`Durable`); neither loads nor saves change it. Values
are compared up to a relation, since what is read back need not be what was written. -/

namespace Scriba.Lib

/-- What is stored, and the copy in memory with its flag. -/
structure WriteBack (V : Type) where
  stored : V
  memory : Option (V × Bool)

namespace WriteBack

variable {V O : Type} {r : V → V → Prop} {act : O → V → V} {c c' : WriteBack V} {v m m' : V}
  {op : Option O} {dirty dirty' : Bool}

/-- What a save may leave in the place of what was stored. -/
def Saves (r : V → V → Prop) (stored m : V) (dirty : Bool) (stored' : V) : Prop :=
  if dirty then r stored' m else stored' = stored

/-- A step, with the operation it takes, if any. -/
inductive Step (r : V → V → Prop) (act : O → V → V) : WriteBack V → Option O → WriteBack V → Prop
  | keep (c : WriteBack V) : Step r act c none c
  | load {stored stored' : V} {dirty : Bool} : (dirty = false → stored' = stored) →
      Step r act ⟨stored, none⟩ none ⟨stored', some (stored, dirty)⟩
  | apply (stored m : V) (dirty : Bool) (op : O) :
      Step r act ⟨stored, some (m, dirty)⟩ (some op) ⟨stored, some (act op m, true)⟩
  | save {stored stored' m : V} {dirty : Bool} : Saves r stored m dirty stored' →
      Step r act ⟨stored, some (m, dirty)⟩ none ⟨stored', some (m, false)⟩
  | evict {stored stored' m : V} {dirty : Bool} : Saves r stored m dirty stored' →
      Step r act ⟨stored, some (m, dirty)⟩ none ⟨stored', none⟩

/-- The store is worth a value: the copy in memory is that value, and what is stored as well unless
the copy has changed. -/
def Durable (r : V → V → Prop) (v : V) (c : WriteBack V) : Prop :=
  match c.memory with
  | none => r c.stored v
  | some (m, dirty) => r m v ∧ (dirty = false → r c.stored m)

/-- What a save leaves is the copy in memory. -/
theorem Saves.stored {stored stored' : V} (h : Saves r stored m dirty stored')
    (hclean : dirty = false → r stored m) : r stored' m := by
  unfold Saves at h
  split at h
  case isTrue => exact h
  case isFalse hd =>
    subst h
    exact hclean (Bool.eq_false_iff.mpr hd)

/-- **Nothing is lost.** A step makes the store worth what its operation makes of it. -/
theorem Durable.step (hr : Equivalence r) (hact : ∀ op {a b}, r a b → r (act op a) (act op b))
    (h : Durable r v c) (hs : Step r act c op c') : Durable r (op.elim v (act · v)) c' := by
  cases hs with
  | keep => exact h
  | load hd => exact ⟨h, fun hf => hd hf ▸ hr.refl _⟩
  | apply stored m dirty op => exact ⟨hact op h.1, nofun⟩
  | save hs => exact ⟨h.1, fun _ => hs.stored h.2⟩
  | evict hs => exact hr.trans (hs.stored h.2) h.1

/-- While there is a copy in memory, only the operations change it. -/
theorem Step.memory {stored stored' : V}
    (hs : Step r act ⟨stored, some (m, dirty)⟩ op ⟨stored', some (m', dirty')⟩) :
    m' = op.elim m (act · m) := by
  cases hs <;> rfl

/-- What holds of all that is stored or in memory, and survives the operations, holds of the next
copy. -/
theorem Step.forall {P : V → Prop} (hs : Step r act c op c') (hstored : P c.stored)
    (hmemory : ∀ m dirty, c.memory = some (m, dirty) → P m)
    (hop : ∀ o, op = some o → ∀ m, P m → P (act o m)) :
    ∀ m dirty, c'.memory = some (m, dirty) → P m := by
  intro m dirty hm
  cases hs with
  | keep => exact hmemory m dirty hm
  | load =>
    cases hm
    exact hstored
  | apply stored m' dirty' op =>
    cases hm
    exact hop op rfl m' (hmemory m' dirty' rfl)
  | save =>
    cases hm
    exact hmemory m _ rfl
  | evict => cases hm

end WriteBack

end Scriba.Lib
