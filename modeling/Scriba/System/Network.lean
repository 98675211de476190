import Scriba.Client.Freshness
import Scriba.Lib.Relay
import Scriba.Server.SymbolMap

/-! # Clients and their server

The clients that have a file open, and the server that keeps its symbols and forwards each
operation to the other clients: an instance of `Lib.Relay`. Which operations are performed,
when, and on which messages a client is looked at, is left to each result. -/

namespace Scriba.System

open Scriba.Utility Scriba.Client Scriba.Server Scriba.Lib.Relay

abbrev Network (ι : Type) := Net ι SymbolMap CRDT Message
abbrev Clients (ι : Type) := World ι SymbolMap CRDT Message

/-- Clients perform operations of some kind, and take from the server the messages that are
`clean` in their state. -/
def network {ι : Type} (kind : LocalOp → Prop) (may : Clients ι → ι → Message → Prop)
    (clean : CRDT → Message → Prop) : Network ι where
  perform c m c' := ∃ op, kind op ∧ op.Legal c.symbols ∧ op.perform c = .ok (c', m)
  process := SymbolMap.store
  deliver c m c' := clean c m ∧ ∃ signals, c.onReceived m = .ok (c', signals)
  may := may

/-! ## Replaying -/

/-- What happens next between two clients and the server. -/
inductive Turn
  | perform (i : Bool) (op : LocalOp)
  | process (i : Bool)
  | deliver (i : Bool)

section Replay

variable (mayCheck : Clients Bool → Bool → LocalOp → Message → Bool)
  (cleanCheck : CRDT → Message → Bool)

/-- The next world, if the checks can tell that the step is one of the network. -/
def turn (w : Clients Bool) : Turn → Option (Clients Bool)
  | .perform i op =>
    match op.perform (w.client i) with
    | .error _ => none
    | .ok (c, m) =>
      if op.Legal (w.client i).symbols ∧ mayCheck w i op m then
        some { w with
          client := Function.update w.client i c
          up := Function.update w.up i (w.up i ++ [m])
          sent := Function.update w.sent i (w.sent i ++ [m]) }
      else none
  | .process i =>
    match w.up i with
    | [] => none
    | m :: rest =>
      some { w with
        server := w.server.store m
        up := Function.update w.up i rest
        down := fun j => if j = i then w.down j else w.down j ++ [m]
        order := w.order ++ [(i, m)] }
  | .deliver i =>
    match w.down i with
    | [] => none
    | m :: rest =>
      match (w.client i).onReceived m with
      | .error _ => none
      | .ok (c, _) =>
        if cleanCheck (w.client i) m then
          some { w with
            client := Function.update w.client i c
            down := Function.update w.down i rest
            received := Function.update w.received i (w.received i ++ [m]) }
        else none

variable {mayCheck cleanCheck} {kind : LocalOp → Prop}
  {may : Clients Bool → Bool → Message → Prop} {clean : CRDT → Message → Prop}
  {w w' : Clients Bool}

theorem step_of_turn (hmay : ∀ w i op m, mayCheck w i op m = true → kind op ∧ may w i m)
    (hclean : ∀ c m, cleanCheck c m = true → clean c m) {t : Turn}
    (h : turn mayCheck cleanCheck w t = some w') : Step (network kind may clean) w w' := by
  cases t with
  | perform i op =>
    rw [turn] at h
    split at h
    case h_1 => cases h
    case h_2 c m hp =>
      split_ifs at h with hc
      obtain rfl := Option.some.inj h
      obtain ⟨hkind, hm⟩ := hmay _ _ _ _ hc.2
      exact .perform i ⟨op, hkind, hc.1, hp⟩ hm
  | process i =>
    rw [turn] at h
    split at h
    case h_1 => cases h
    case h_2 m rest hup =>
      obtain rfl := Option.some.inj h
      exact .process i hup
  | deliver i =>
    rw [turn] at h
    split at h
    case h_1 => cases h
    case h_2 m rest hdown =>
      split at h
      case h_1 => cases h
      case h_2 c signals hr =>
        split_ifs at h with hc
        obtain rfl := Option.some.inj h
        exact .deliver i hdown ⟨hclean _ _ hc, signals, hr⟩

variable (mayCheck cleanCheck)

theorem reachable_of_turns (hmay : ∀ w i op m, mayCheck w i op m = true → kind op ∧ may w i m)
    (hclean : ∀ c m, cleanCheck c m = true → clean c m) {turns : List Turn}
    (h : turns.foldlM (turn mayCheck cleanCheck) w = some w') :
    Reachable (network kind may clean) w w' := by
  induction turns generalizing w with
  | nil =>
    obtain rfl := Option.some.inj h
    exact .refl
  | cons t turns ih =>
    rw [List.foldlM_cons] at h
    obtain ⟨w1, h1, h⟩ := Option.bind_eq_some_iff.mp h
    exact .head (step_of_turn hmay hclean h1) (ih h)

/-- What can be computed of a replay holds of a world that is reached. -/
theorem exists_reachable (hmay : ∀ w i op m, mayCheck w i op m = true → kind op ∧ may w i m)
    (hclean : ∀ c m, cleanCheck c m = true → clean c m) (turns : List Turn)
    {P : Clients Bool → Bool}
    (h : (turns.foldlM (turn mayCheck cleanCheck) w).any P = true) :
    ∃ w', Reachable (network kind may clean) w w' ∧ P w' = true := by
  obtain ⟨w', hw, hP⟩ := (Option.any_eq_true _ _).mp h
  exact ⟨w', reachable_of_turns mayCheck cleanCheck hmay hclean hw, hP⟩

end Replay

/-- No message is on its way. -/
def quietCheck (w : Clients Bool) : Bool :=
  [false, true].all fun i => (w.up i).isEmpty && (w.down i).isEmpty

theorem quiet_of_check {w : Clients Bool} (h : quietCheck w = true) : w.Quiet := by
  intro i
  have hi := List.all_eq_true.mp h i (by cases i <;> simp)
  simpa using hi

end Scriba.System
