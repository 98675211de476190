/-! # Attempts

Computations that can throw and keep the state in which they did, as a method of an object does:
what it had written before the exception stays written. -/

namespace Scriba.Lib

abbrev Attempt (σ ε : Type) : Type → Type := ExceptT ε (StateM σ)

namespace Attempt

variable {σ ε α β : Type}

/-- What is returned or thrown, and the state that is left. -/
def run (m : Attempt σ ε α) (s : σ) : Except ε α × σ := ExceptT.run m s

/-- A function that reads no state. -/
def lift (x : Except ε α) : Attempt σ ε α := ExceptT.mk (pure x)

@[simp] theorem run_pure (a : α) (s : σ) : run (pure a : Attempt σ ε α) s = (.ok a, s) := rfl

@[simp] theorem run_lift (x : Except ε α) (s : σ) : run (lift x : Attempt σ ε α) s = (x, s) := rfl

@[simp] theorem run_get (s : σ) : run (get : Attempt σ ε σ) s = (.ok s, s) := rfl

@[simp] theorem run_set (s s' : σ) : run (set s' : Attempt σ ε PUnit) s = (.ok ⟨⟩, s') := rfl

@[simp] theorem run_throw (e : ε) (s : σ) : run (throw e : Attempt σ ε α) s = (.error e, s) := rfl

@[simp] theorem run_bind (m : Attempt σ ε α) (f : α → Attempt σ ε β) (s : σ) :
    run (m >>= f) s = match run m s with
      | (.ok a, s') => run (f a) s'
      | (.error e, s') => (.error e, s') := by
  change (match ExceptT.run m s with | (x, s') => ExceptT.bindCont f x s') = _
  rw [run]
  rcases ExceptT.run m s with ⟨x, s'⟩
  cases x <;> rfl

@[simp] theorem run_map (f : α → β) (m : Attempt σ ε α) (s : σ) :
    run (f <$> m) s = match run m s with
      | (.ok a, s') => (.ok (f a), s')
      | (.error e, s') => (.error e, s') := by
  rw [map_eq_pure_bind, run_bind]
  rfl

@[simp] theorem run_ite (p : Prop) [Decidable p] (m m' : Attempt σ ε α) (s : σ) :
    run (if p then m else m') s = if p then run m s else run m' s := by
  split <;> rfl

end Attempt

end Scriba.Lib
