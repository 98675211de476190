import Scriba.Lib.Causality

/-! # Clients that come and go around a relay

A client need not be there all the time. One that has nothing on its way up may start again from a
state made of that of the relay (`World.rejoin`); what was sent down to it until then counts as
received, since that state has it. What a relay guarantees about the order of messages it
guarantees for such clients too. -/

namespace Scriba.Lib.Relay

variable {ι κ σ μ α : Type} [DecidableEq ι]

/-- The client starts again from `s`. -/
def World.rejoin (w : World ι κ σ μ) (i : ι) (s : σ) : World ι κ σ μ :=
  { w with
    client := Function.update w.client i s
    down := Function.update w.down i []
    received := Function.update w.received i (w.received i ++ w.down i) }

/-- `opens` tells which states can be made of that of the relay. -/
inductive Visit (N : Net ι κ σ μ) (opens : κ → σ → Prop) :
    World ι κ σ μ → World ι κ σ μ → Prop
  | step {w w' : World ι κ σ μ} : Step N w w' → Visit N opens w w'
  | rejoin {w : World ι κ σ μ} (i : ι) {s : σ} : w.up i = [] → opens w.server s →
      Visit N opens w (w.rejoin i s)

def Visits (N : Net ι κ σ μ) (opens : κ → σ → Prop) : World ι κ σ μ → World ι κ σ μ → Prop :=
  Relation.ReflTransGen (Visit N opens)

section Rejoin

variable {w : World ι κ σ μ} {i : ι} {s : σ}

theorem Fifo.rejoin (h : Fifo w) (i : ι) (s : σ) : Fifo (w.rejoin i s) := by
  refine ⟨h.sent, fun j => ?_⟩
  by_cases hj : j = i
  · subst hj
    simpa [World.rejoin] using h.received j
  · simpa [World.rejoin, hj] using h.received j

theorem Carries.rejoin {M : μ → Prop} (h : Carries M w) (i : ι) (s : σ) :
    Carries M (w.rejoin i s) := by
  refine ⟨h.up, fun j m hm => ?_⟩
  by_cases hj : j = i
  · subst hj
    simp [World.rejoin] at hm
  · exact h.down j m (by simpa [World.rejoin, hj] using hm)

/-- What such a client knows is what the relay processed. -/
theorem Fifo.rejoined (h : Fifo w) (hu : w.up i = []) :
    (w.sent i ++ (w.received i ++ w.down i)).Perm (w.order.map Prod.snd) := by
  have hperm := h.perm i
  rwa [hu, List.append_nil, List.append_assoc] at hperm

theorem Causal.rejoin {known : α → Prop} {gives needs : μ → α → Prop}
    (h : Causal known gives needs w) (hf : Fifo w) (hu : w.up i = []) (s : σ) :
    Causal known gives needs (w.rejoin i s) := by
  refine ⟨h.order, fun j m hm x hx => ?_⟩
  by_cases hj : j = i
  · subst hj
    simp only [World.rejoin, Function.update_self] at hm ⊢
    have hmem : ∀ n, n ∈ w.sent j ++ (w.received j ++ w.down j) ↔ n ∈ w.order.map Prod.snd :=
      fun n => (hf.rejoined hu).mem_iff
    exact (h.of_mem ((hmem m).mp hm) hx).mono fun n hn => (hmem n).mpr hn
  · simp only [World.rejoin, Function.update_of_ne hj] at hm ⊢
    exact h.client j m hm x hx

theorem Distinct.rejoin {start : List α} {tags : μ → List α} (h : Distinct start tags w) (i : ι)
    (s : σ) : Distinct start tags (w.rejoin i s) :=
  ⟨h.nodup, h.disjoint⟩

end Rejoin

/-- What holds at the start and survives every step and every return holds throughout. -/
theorem Visits.invariant {N : Net ι κ σ μ} {opens : κ → σ → Prop} {w w' : World ι κ σ μ}
    {I : World ι κ σ μ → Prop} (h : Visits N opens w w') (hf : Fifo w) (h0 : I w)
    (hstep : ∀ v v', Fifo v → I v → Step N v v' → I v')
    (hrejoin : ∀ v i s, Fifo v → I v → v.up i = [] → opens v.server s → I (v.rejoin i s)) :
    Fifo w' ∧ I w' := by
  induction h with
  | refl => exact ⟨hf, h0⟩
  | @tail v v' _ hs ih =>
    cases hs with
    | step hs => exact ⟨ih.1.step hs, hstep v v' ih.1 ih.2 hs⟩
    | rejoin i hu ho => exact ⟨ih.1.rejoin i _, hrejoin v i _ ih.1 ih.2 hu ho⟩

end Scriba.Lib.Relay
