import Mathlib.Data.List.Basic
import Mathlib.Tactic.Common

/-! # Reading back what was written

A decoder takes a value off the front of a list of bytes, or fails. `Decodes` says which bytes
stand for a value, whatever follows them; `Yields` says what the values that a decoder can
return have in common. Both go along with the sequencing of decoders. -/

namespace Scriba.Lib

abbrev Decoder (β α : Type) := StateT (List β) Option α

namespace Decoder

variable {β α γ : Type}

/-- `n` values, one after the other. -/
def many (read : Decoder β α) : Nat → Decoder β (List α)
  | 0 => pure []
  | n + 1 => do
    let x ← read
    let xs ← many read n
    pure (x :: xs)

/-- The bytes are read as the value. -/
def Decodes (read : Decoder β α) (x : α) (bytes : List β) : Prop :=
  ∀ rest, read.run (bytes ++ rest) = some (x, rest)

/-- Whatever is read has the property. -/
def Yields (read : Decoder β α) (P : α → Prop) : Prop :=
  ∀ data x rest, read.run data = some (x, rest) → P x

variable {read : Decoder β α} {next : α → Decoder β γ} {x : α} {y : γ} {bytes bytes' : List β}
  {P : α → Prop} {Q : γ → Prop}

theorem Decodes.pure (x : α) : Decodes (Pure.pure x : Decoder β α) x [] := fun _ => rfl

theorem Decodes.bind (h : Decodes read x bytes) (h' : Decodes (next x) y bytes') :
    Decodes (read >>= next) y (bytes ++ bytes') := by
  intro rest
  have hrun : (read >>= next).run (bytes ++ bytes' ++ rest) =
      (read.run (bytes ++ (bytes' ++ rest))).bind fun r => (next r.1).run r.2 := by
    rw [List.append_assoc]
    rfl
  rw [hrun, h]
  exact h' rest

/-- The last value that is read decides the rest. -/
theorem Decodes.map {f : α → γ} (h : Decodes read x bytes) :
    Decodes (read >>= fun x => Pure.pure (f x)) (f x) bytes := by
  have hb : Decodes (read >>= fun x => Pure.pure (f x)) (f x) (bytes ++ []) :=
    h.bind (Decodes.pure (f x))
  rwa [List.append_nil] at hb

theorem Decodes.many {xs : List α} {write : α → List β}
    (h : ∀ x ∈ xs, Decodes read x (write x)) :
    Decodes (many read xs.length) xs (xs.flatMap write) := by
  induction xs with
  | nil => exact Decodes.pure []
  | cons x xs ih =>
    rw [List.flatMap_cons]
    exact (h x (by simp)).bind (ih fun y hy => h y (by simp [hy])).map

theorem Yields.pure (h : P x) : Yields (Pure.pure x : Decoder β α) P := by
  intro data y rest he
  cases he
  exact h

theorem Yields.bind (h : Yields read P) (h' : ∀ x, P x → Yields (next x) Q) :
    Yields (read >>= next) Q := by
  intro data y rest he
  have hrun : (read >>= next).run data = (read.run data).bind fun r => (next r.1).run r.2 := rfl
  rw [hrun, Option.bind_eq_some_iff] at he
  obtain ⟨⟨x, data'⟩, hx, hy⟩ := he
  exact h' x (h data x data' hx) data' y rest hy

theorem Yields.any : Yields read fun _ => True := fun _ _ _ _ => trivial

theorem Yields.many (h : Yields read P) (n : Nat) :
    Yields (many read n) fun xs => xs.length = n ∧ ∀ x ∈ xs, P x := by
  induction n with
  | zero => exact Yields.pure (by simp)
  | succ n ih =>
    refine h.bind fun x hx => ih.bind fun xs hxs => Yields.pure ⟨by simp [hxs.1], ?_⟩
    intro y hy
    rcases List.mem_cons.mp hy with rfl | hy
    · exact hx
    · exact hxs.2 y hy

end Decoder

end Scriba.Lib
