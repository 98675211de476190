import Mathlib.Logic.Relation
import Scriba.Lib.Queues

/-! # Sites that broadcast over an unordered network

Every site steps on its own and broadcasts a message; the message waits at each other site
and is taken from there at any later time, in any order. What sites and messages are is left
open: `emit` and `receive` are relations between states. The history records who broadcast
what, and from which state. -/

namespace Scriba.Lib.Pool

structure Broadcast (ι σ μ : Type) where
  site : ι
  state : σ
  message : μ

structure World (ι σ μ : Type) where
  state : ι → σ
  pending : ι → List μ
  history : List (Broadcast ι σ μ)

variable {ι σ μ : Type}

/-- Before anything was broadcast. -/
def World.init (state : ι → σ) : World ι σ μ := ⟨state, fun _ => [], []⟩

/-- All that was broadcast so far. -/
def World.messages (w : World ι σ μ) : List μ := w.history.map Broadcast.message

variable [DecidableEq ι]

inductive Step (emit receive : σ → μ → σ → Prop) : World ι σ μ → World ι σ μ → Prop
  | emit {w : World ι σ μ} (i : ι) {m : μ} {s : σ} : emit (w.state i) m s →
      Step emit receive w
        { state := Function.update w.state i s
          pending := fun j => if j = i then w.pending j else w.pending j ++ [m]
          history := w.history ++ [⟨i, w.state i, m⟩] }
  | receive {w : World ι σ μ} (i : ι) {a b : List μ} {m : μ} {s : σ} :
      w.pending i = a ++ m :: b → receive (w.state i) m s →
      Step emit receive w
        { w with
          state := Function.update w.state i s
          pending := Function.update w.pending i (a ++ b) }

def Reachable (emit receive : σ → μ → σ → Prop) : World ι σ μ → World ι σ μ → Prop :=
  Relation.ReflTransGen (Step emit receive)

section Rules

variable {emit receive : σ → μ → σ → Prop} {start w : World ι σ μ}

/-- What holds at the start and survives every step holds in every reachable world. -/
theorem Reachable.invariant {I : World ι σ μ → Prop} (h : Reachable emit receive start w)
    (h0 : I start) (hstep : ∀ w w', I w → Step emit receive w w' → I w') : I w := by
  induction h with
  | refl => exact h0
  | tail _ hs ih => exact hstep _ _ ih hs

/-- A world whose sites, messages and broadcasts are each as they should be. -/
structure Local (S : ι → σ → Prop) (M : μ → Prop) (B : Broadcast ι σ μ → Prop)
    (w : World ι σ μ) : Prop where
  site : ∀ i, S i (w.state i)
  pending : ∀ i, ∀ m ∈ w.pending i, M m
  history : ∀ e ∈ w.history, B e

/-- **The local rule.** Site invariants, message invariants and facts about broadcasts need
to be checked for one site at a time. -/
theorem Reachable.local {S : ι → σ → Prop} {M : μ → Prop} {B : Broadcast ι σ μ → Prop}
    {state : ι → σ} (h : Reachable emit receive (.init state) w) (h0 : ∀ i, S i (state i))
    (hemit : ∀ i s m s', S i s → emit s m s' → S i s' ∧ M m ∧ B ⟨i, s, m⟩)
    (hreceive : ∀ i s m s', S i s → M m → receive s m s' → S i s') : Local S M B w := by
  refine h.invariant ⟨h0, by simp [World.init], by simp [World.init]⟩ ?_
  intro w w' hw hstep
  cases hstep with
  | @emit i m s he =>
    obtain ⟨hs, hm, hb⟩ := hemit i _ m s (hw.site i) he
    refine ⟨(Function.forall_update_iff _ S).mpr ⟨hs, fun j _ => hw.site j⟩, fun j n hn => ?_,
      fun e he => ?_⟩
    · rcases Queues.mem_pushOthers.mp hn with hn | ⟨-, rfl⟩
      · exact hw.pending j n hn
      · exact hm
    · rcases List.mem_append.mp he with he | he
      · exact hw.history e he
      · exact List.mem_singleton.mp he ▸ hb
  | @receive i a b m s hp hr =>
    have hm : M m := hw.pending i m (by simp [hp])
    exact ⟨(Function.forall_update_iff _ S).mpr
        ⟨hreceive i _ m s (hw.site i) hm hr, fun j _ => hw.site j⟩,
      fun j n hn => hw.pending j n (Queues.mem_of_take hp hn), hw.history⟩

end Rules

end Scriba.Lib.Pool
