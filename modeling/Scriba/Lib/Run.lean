import Mathlib.Data.List.Basic

/-! # Runs

A machine takes one input after the other, answers each with an output, and may fail. A run
keeps the history: every step with the state before it and after it. What a step preserves,
given what holds of the step itself, a run preserves; a condition on runs is one on the
entries of their histories. -/

namespace Scriba.Lib

/-! ## Computations that can fail -/

section Except

variable {α β ε : Type} {x : Except ε α} {f : α → Except ε β}

theorem bind_eq_ok {b : β} : (x >>= f) = .ok b ↔ ∃ a, x = .ok a ∧ f a = .ok b := by
  cases x <;> simp [bind, Except.bind]

theorem map_eq_ok {g : α → β} {b : β} : (g <$> x) = .ok b ↔ ∃ a, x = .ok a ∧ g a = b := by
  cases x <;> simp [Functor.map, Except.map]

/-- The computation does not fail with `e`. -/
def Spares (e : ε) (x : Except ε α) : Prop := x ≠ .error e

variable {e : ε}

instance [DecidableEq ε] : Decidable (Spares e x) :=
  match x with
  | .error e' => decidable_of_iff (e' ≠ e) (by simp [Spares])
  | .ok _ => .isTrue nofun

theorem Spares.pure (a : α) : Spares e (pure a : Except ε α) := nofun

theorem Spares.throw {e' : ε} (h : e' ≠ e) : Spares e (throw e' : Except ε α) :=
  fun he => h (Except.error.inj he)

theorem Spares.bind (hx : Spares e x) (hf : ∀ a, x = .ok a → Spares e (f a)) :
    Spares e (x >>= f) := by
  cases x with
  | error e' => exact fun he => hx (congrArg Except.error (Except.error.inj he))
  | ok a => exact hf a rfl

theorem Spares.foldlM {γ σ : Type} {g : σ → γ → Except ε σ} (h : ∀ s c, Spares e (g s c))
    (l : List γ) (s : σ) : Spares e (l.foldlM g s) := by
  induction l generalizing s with
  | nil => exact .pure s
  | cons c l ih =>
    rw [List.foldlM_cons]
    exact (h s c).bind fun s' _ => ih s'

theorem Spares.map {g : α → β} (hx : Spares e x) : Spares e (g <$> x) := by
  cases x with
  | error e' => exact fun he => hx (congrArg Except.error (Except.error.inj he))
  | ok a => exact nofun

/-- A loop over a list none of whose rounds fails. -/
theorem exists_mapM {γ : Type} {g : γ → Except ε β} {R : γ → β → Prop} {l : List γ}
    (h : ∀ c ∈ l, ∃ b, g c = .ok b ∧ R c b) : ∃ bs, l.mapM g = .ok bs ∧ List.Forall₂ R l bs := by
  induction l with
  | nil => exact ⟨[], rfl, .nil⟩
  | cons c l ih =>
    obtain ⟨b, hb, hr⟩ := h c List.mem_cons_self
    obtain ⟨bs, hbs, hrs⟩ := ih fun c' hc => h c' (List.mem_cons_of_mem _ hc)
    refine ⟨b :: bs, ?_, .cons hr hrs⟩
    rw [List.mapM_cons]
    exact bind_eq_ok.mpr ⟨b, hb, bind_eq_ok.mpr ⟨bs, hbs, rfl⟩⟩

end Except

section Loops

variable {σ ε : Type} {f : Nat → σ → Except ε σ} {first n : Nat} {s : σ}

/-- `for (i = first; i < first + n; i++)`: the body is given the counter. -/
def forLoop (f : Nat → σ → Except ε σ) (first : Nat) : Nat → σ → Except ε σ
  | 0, s => pure s
  | n + 1, s => do
    let s ← f first s
    forLoop f (first + 1) n s

/-- **The loop rule.** Rounds that do not fail and keep an invariant reach the end with it. -/
theorem forLoop_spec {I : Nat → σ → Prop} (h0 : I first s)
    (hround : ∀ i s, first ≤ i → i < first + n → I i s → ∃ s', f i s = .ok s' ∧ I (i + 1) s') :
    ∃ s', forLoop f first n s = .ok s' ∧ I (first + n) s' := by
  induction n generalizing first s with
  | zero => exact ⟨s, rfl, h0⟩
  | succ n ih =>
    obtain ⟨s1, h1, hI⟩ := hround first s (Nat.le_refl _) (by omega) h0
    obtain ⟨s', h', hI'⟩ := ih hI fun i s hle hlt => hround i s (by omega) (by omega)
    refine ⟨s', ?_, ?_⟩
    · rw [forLoop, h1]
      exact h'
    · rwa [Nat.add_assoc, Nat.add_comm 1 n] at hI'

/-- The loop rule for rounds that may fail: what those that do not fail keep. -/
theorem forLoop_keeps {I : σ → Prop} {s' : σ} (h : forLoop f first n s = .ok s') (h0 : I s)
    (hround : ∀ i s s', I s → f i s = .ok s' → I s') : I s' := by
  induction n generalizing first s with
  | zero =>
    obtain rfl := Except.ok.inj h
    exact h0
  | succ n ih =>
    obtain ⟨s1, h1, h⟩ := bind_eq_ok.mp h
    exact ih h (hround _ _ _ h0 h1)

/-- The same for a loop over a list. -/
theorem foldlM_keeps {γ : Type} {g : σ → γ → Except ε σ} {I : σ → Prop} {l : List γ} {s' : σ}
    (h : l.foldlM g s = .ok s') (h0 : I s) (hstep : ∀ s c s', I s → g s c = .ok s' → I s') :
    I s' := by
  induction l generalizing s with
  | nil =>
    obtain rfl := Except.ok.inj h
    exact h0
  | cons c l ih =>
    rw [List.foldlM_cons] at h
    obtain ⟨s1, h1, h⟩ := bind_eq_ok.mp h
    exact ih h (hstep _ _ _ h0 h1)

end Loops

namespace Run

/-- A step that was taken. -/
structure Entry (σ ι ω : Type) where
  before : σ
  input : ι
  output : ω
  after : σ

end Run

open Run

/-- Some steps, from the first state to the last. -/
inductive Run {σ ι ω : Type} (step : σ → ι → ω → σ → Prop) (start : σ) :
    List (Entry σ ι ω) → σ → Prop
  | nil : Run step start [] start
  | snoc {h : List (Entry σ ι ω)} {s s' : σ} {i : ι} {o : ω} :
      Run step start h s → step s i o s' → Run step start (h ++ [⟨s, i, o, s'⟩]) s'

namespace Run

variable {σ ι ω : Type} {step : σ → ι → ω → σ → Prop} {start s : σ} {h : List (Entry σ ι ω)}

/-- **The invariant rule.** What holds at the start, and survives each step that is as it should
be, holds after every run of such steps. -/
theorem invariant {I : List (Entry σ ι ω) → σ → Prop} {P : Entry σ ι ω → Prop}
    (hrun : Run step start h s) (hP : ∀ e ∈ h, P e) (h0 : I [] start)
    (hstep : ∀ h s i o s', I h s → P ⟨s, i, o, s'⟩ → step s i o s' →
      I (h ++ [⟨s, i, o, s'⟩]) s') : I h s := by
  induction hrun with
  | nil => exact h0
  | snoc _ hs ih =>
    exact hstep _ _ _ _ _ (ih fun e he => hP e (List.mem_append_left _ he)) (hP _ (by simp)) hs

/-- Each entry is a step from a state that was reached before. -/
theorem entry (hrun : Run step start h s) {e : Entry σ ι ω} (he : e ∈ h) :
    step e.before e.input e.output e.after ∧
      ∃ a b, h = a ++ e :: b ∧ Run step start a e.before := by
  induction hrun with
  | nil => cases he
  | @snoc h s s' i o hr hs ih =>
    rcases List.mem_append.mp he with he | he
    · obtain ⟨hstep, a, b, rfl, ha⟩ := ih he
      exact ⟨hstep, a, b ++ [⟨s, i, o, s'⟩], by simp, ha⟩
    · obtain rfl := List.mem_singleton.mp he
      exact ⟨hs, h, [], rfl, hr⟩

/-! ## Replaying -/

/-- The history of some inputs and the last state, unless a step fails. -/
def replay (f : σ → ι → Option (ω × σ)) (s : σ) : List ι → Option (List (Entry σ ι ω) × σ)
  | [] => some ([], s)
  | i :: is => do
    let (o, s') ← f s i
    let (h, t) ← replay f s' is
    some (⟨s, i, o, s'⟩ :: h, t)

/-- What is replayed after a run goes on with it. -/
theorem replay_append {f : σ → ι → Option (ω × σ)} (hf : ∀ s i o s', f s i = some (o, s') →
    step s i o s') {is : List ι} {t : σ} {g : List (Entry σ ι ω)} (hrun : Run step start h s)
    (hr : replay f s is = some (g, t)) : Run step start (h ++ g) t := by
  induction is generalizing s h g with
  | nil =>
    cases hr
    simpa using hrun
  | cons i is ih =>
    simp only [replay, Option.bind_eq_bind, Option.bind_eq_some_iff, Option.some.injEq,
      Prod.mk.injEq, Prod.exists] at hr
    obtain ⟨o, s', hs, g', t', hg, rfl, rfl⟩ := hr
    simpa using ih (hrun.snoc (hf s i o s' hs)) hg

/-- **A replay is a run.** -/
theorem of_replay {f : σ → ι → Option (ω × σ)} (hf : ∀ s i o s', f s i = some (o, s') →
    step s i o s') {is : List ι} (hr : replay f start is = some (h, s)) : Run step start h s :=
  replay_append hf .nil hr

end Run

end Scriba.Lib
