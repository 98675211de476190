import Mathlib.Data.List.Perm.Basic
import Mathlib.Logic.Relation
import Scriba.Lib.Queues

/-! # Clients around a relay

A star of first-in first-out channels. A client steps on its own and sends a message up; the
relay takes the next message of some client, processes it, and sends it down to every other
client; a client takes the next message sent down to it. What states and messages are is
left open (`Net`). The last three fields of a `World` are the history: what each client
sent, the order in which the relay processed, what each client took.

`Fifo` relates queues and history. Its corollary `Fifo.perm` is the conservation law: what a
client sent, took or has waiting is what the relay processed, plus what the client has on its
way up. -/

namespace Scriba.Lib.Relay

structure World (ι κ σ μ : Type) where
  client : ι → σ
  server : κ
  up : ι → List μ
  down : ι → List μ
  sent : ι → List μ
  order : List (ι × μ)
  received : ι → List μ

/-- `may` restricts which message a client may send in view of the whole world. -/
structure Net (ι κ σ μ : Type) where
  perform : σ → μ → σ → Prop
  process : κ → μ → κ
  deliver : σ → μ → σ → Prop
  may : World ι κ σ μ → ι → μ → Prop

variable {ι κ σ μ : Type}

/-- Before anything was sent. -/
def World.init (client : ι → σ) (server : κ) : World ι κ σ μ :=
  ⟨client, server, fun _ => [], fun _ => [], fun _ => [], [], fun _ => []⟩

/-- No message is on its way. -/
def World.Quiet (w : World ι κ σ μ) : Prop := ∀ i, w.up i = [] ∧ w.down i = []

variable [DecidableEq ι]

inductive Step (N : Net ι κ σ μ) : World ι κ σ μ → World ι κ σ μ → Prop
  | perform {w : World ι κ σ μ} (i : ι) {m : μ} {s : σ} :
      N.perform (w.client i) m s → N.may w i m →
      Step N w
        { w with
          client := Function.update w.client i s
          up := Function.update w.up i (w.up i ++ [m])
          sent := Function.update w.sent i (w.sent i ++ [m]) }
  | process {w : World ι κ σ μ} (i : ι) {m : μ} {rest : List μ} : w.up i = m :: rest →
      Step N w
        { w with
          server := N.process w.server m
          up := Function.update w.up i rest
          down := fun j => if j = i then w.down j else w.down j ++ [m]
          order := w.order ++ [(i, m)] }
  | deliver {w : World ι κ σ μ} (i : ι) {m : μ} {rest : List μ} {s : σ} :
      w.down i = m :: rest → N.deliver (w.client i) m s →
      Step N w
        { w with
          client := Function.update w.client i s
          down := Function.update w.down i rest
          received := Function.update w.received i (w.received i ++ [m]) }

def Reachable (N : Net ι κ σ μ) : World ι κ σ μ → World ι κ σ μ → Prop :=
  Relation.ReflTransGen (Step N)

/-! ## Queues and history -/

/-- What the relay processed of one client, and of the others. -/
def ofClient (order : List (ι × μ)) (i : ι) : List μ := (order.filter (·.1 = i)).map Prod.snd
def ofOthers (order : List (ι × μ)) (i : ι) : List μ := (order.filter (·.1 ≠ i)).map Prod.snd

theorem ofClient_concat (order : List (ι × μ)) (i j : ι) (m : μ) :
    ofClient (order ++ [(i, m)]) j =
      if i = j then ofClient order j ++ [m] else ofClient order j := by
  by_cases h : i = j <;> simp [ofClient, h]

theorem ofOthers_concat (order : List (ι × μ)) (i j : ι) (m : μ) :
    ofOthers (order ++ [(i, m)]) j =
      if i = j then ofOthers order j else ofOthers order j ++ [m] := by
  by_cases h : i = j <;> simp [ofOthers, h]

theorem ofClient_perm (order : List (ι × μ)) (i : ι) :
    (ofClient order i ++ ofOthers order i).Perm (order.map Prod.snd) := by
  rw [ofClient, ofOthers, ← List.map_append]
  refine List.Perm.map _ ?_
  have h := List.filter_append_perm (fun e : ι × μ => decide (e.1 = i)) order
  simpa using h

/-- The channels lose nothing, repeat nothing and keep the order. -/
structure Fifo (w : World ι κ σ μ) : Prop where
  sent : ∀ i, w.sent i = ofClient w.order i ++ w.up i
  received : ∀ i, w.received i ++ w.down i = ofOthers w.order i

theorem Fifo.step {N : Net ι κ σ μ} {w w' : World ι κ σ μ} (h : Fifo w) (hs : Step N w w') :
    Fifo w' := by
  cases hs with
  | @perform i m s _ _ =>
    refine ⟨fun j => ?_, h.received⟩
    by_cases hj : j = i
    · subst hj; simp [h.sent j]
    · simpa [hj] using h.sent j
  | @process i m rest hu =>
    refine ⟨fun j => ?_, fun j => ?_⟩
    · by_cases hj : j = i
      · subst hj; simp [ofClient_concat, h.sent j, hu]
      · simpa [hj, ofClient_concat, Ne.symm hj] using h.sent j
    · by_cases hj : j = i
      · subst hj; simpa [ofOthers_concat] using h.received j
      · simp [hj, ofOthers_concat, Ne.symm hj, ← h.received j]
  | @deliver i m rest s hd _ =>
    refine ⟨h.sent, fun j => ?_⟩
    by_cases hj : j = i
    · subst hj; simp [← h.received j, hd]
    · simpa [hj] using h.received j

/-- **Conservation.** -/
theorem Fifo.perm {w : World ι κ σ μ} (h : Fifo w) (i : ι) :
    (w.sent i ++ w.received i ++ w.down i).Perm (w.order.map Prod.snd ++ w.up i) := by
  rw [List.append_assoc, h.received, h.sent]
  refine List.Perm.trans ?_ ((ofClient_perm w.order i).append_right _)
  rw [List.append_assoc, List.append_assoc]
  exact List.perm_append_comm.append_left _

/-- Every message the relay processed was sent. -/
theorem Fifo.exists_sender {w : World ι κ σ μ} (h : Fifo w) {m : μ}
    (hm : m ∈ w.order.map Prod.snd) : ∃ i, m ∈ w.sent i := by
  obtain ⟨⟨i, m⟩, he, rfl⟩ := List.mem_map.mp hm
  refine ⟨i, ?_⟩
  rw [h.sent i]
  have hof : (i, m) ∈ w.order.filter fun e => e.1 = i := List.mem_filter.mpr ⟨he, by simp⟩
  exact List.mem_append.mpr (.inl (List.mem_map.mpr ⟨(i, m), hof, rfl⟩))

theorem Fifo.exists_sender_of_received {w : World ι κ σ μ} (h : Fifo w) {i : ι} {m : μ}
    (hm : m ∈ w.received i) : ∃ k, m ∈ w.sent k := by
  have hm : m ∈ ofOthers w.order i := by
    rw [← h.received i]
    exact List.mem_append.mpr (.inl hm)
  obtain ⟨e, he, rfl⟩ := List.mem_map.mp hm
  exact h.exists_sender (List.mem_map_of_mem (List.mem_of_mem_filter he))

/-- What a client sent and received is what the relay processed and what is on its way up. -/
theorem Fifo.mem_of_applied {w : World ι κ σ μ} (h : Fifo w) {i : ι} {m : μ}
    (hm : m ∈ w.sent i ++ w.received i) : m ∈ w.order.map Prod.snd ++ w.up i :=
  (h.perm i).mem_iff.mp (List.mem_append.mpr (.inl hm))

/-- With no message on its way, a client applied what the relay processed. -/
theorem Fifo.quiet {w : World ι κ σ μ} (h : Fifo w) (hq : w.Quiet) (i : ι) :
    (w.sent i ++ w.received i).Perm (w.order.map Prod.snd) := by
  simpa [(hq i).1, (hq i).2] using h.perm i

/-- A message on its way down was processed, after all that the client received before. -/
theorem exists_processed {order : List (ι × μ)} {j : ι} {got rest : List μ} {m : μ}
    (h : ofOthers order j = got ++ m :: rest) :
    ∃ a i b, order = a ++ (i, m) :: b ∧ ofOthers a j = got := by
  obtain ⟨a', b', hf, rfl, hb⟩ := List.map_eq_append_iff.mp h
  obtain ⟨e, b'', rfl, rfl, -⟩ := List.map_eq_cons_iff.mp hb
  obtain ⟨a, b, rfl, rfl, hcons⟩ := List.filter_eq_append_iff.mp hf
  obtain ⟨b1, b2, rfl, hnone, -, -⟩ := List.filter_eq_cons_iff.mp hcons
  refine ⟨a ++ b1, e.1, b2, by simp, ?_⟩
  have hz : b1.filter (·.1 ≠ j) = [] := List.filter_eq_nil_iff.mpr hnone
  rw [ofOthers, List.filter_append, hz, List.append_nil]

/-! ## Rules -/

section Rules

variable {N : Net ι κ σ μ} {client : ι → σ} {server : κ} {w : World ι κ σ μ}

/-- What holds at the start and survives every step holds in every reachable world; the steps
may be taken from worlds with `Fifo` channels. -/
theorem Reachable.invariant {I : World ι κ σ μ → Prop}
    (h : Reachable N (.init client server) w) (h0 : I (.init client server))
    (hstep : ∀ w w', Fifo w → I w → Step N w w' → I w') : Fifo w ∧ I w := by
  induction h with
  | refl => exact ⟨⟨fun _ => rfl, fun _ => rfl⟩, h0⟩
  | tail _ hs ih => exact ⟨ih.1.step hs, hstep _ _ ih.1 ih.2 hs⟩

/-- All messages on their way are of some kind. -/
structure Carries (M : μ → Prop) (w : World ι κ σ μ) : Prop where
  up : ∀ i, ∀ m ∈ w.up i, M m
  down : ∀ i, ∀ m ∈ w.down i, M m

/-- They stay so if such messages are sent. -/
theorem Carries.step {M : μ → Prop} {w' : World ι κ σ μ} (h : Carries M w)
    (hp : ∀ i m s, N.perform (w.client i) m s → N.may w i m → M m) (hs : Step N w w') :
    Carries M w' := by
  cases hs with
  | @perform i m s hs hmay =>
    refine ⟨fun j n hn => ?_, h.down⟩
    rcases Queues.mem_push.mp hn with hn | ⟨-, rfl⟩
    · exact h.up j n hn
    · exact hp i n s hs hmay
  | @process i m rest hu =>
    refine ⟨fun j n hn => h.up j n (Queues.mem_of_pop hu hn), fun j n hn => ?_⟩
    rcases Queues.mem_pushOthers.mp hn with hn | ⟨-, rfl⟩
    · exact h.down j n hn
    · exact h.up i n (by simp [hu])
  | @deliver i m rest s hd _ =>
    exact ⟨h.up, fun j n hn => h.down j n (Queues.mem_of_pop hd hn)⟩

/-- Clients and messages that are each as they should be. -/
structure Local (S : ι → σ → Prop) (M : μ → Prop) (w : World ι κ σ μ) : Prop
    extends Carries M w where
  client : ∀ i, S i (w.client i)

/-- **The local rule.** Client invariants and message invariants need to be checked for one
client at a time. -/
theorem Local.step {S : ι → σ → Prop} {M : μ → Prop} {w' : World ι κ σ μ} (hw : Local S M w)
    (hperform : ∀ i s m s', S i s → N.perform s m s' → N.may w i m → S i s' ∧ M m)
    (hdeliver : ∀ i s m s', S i s → M m → N.deliver s m s' → S i s') (hs : Step N w w') :
    Local S M w' := by
  refine ⟨hw.toCarries.step (fun i m s hp hmay =>
    (hperform i _ m s (hw.client i) hp hmay).2) hs, ?_⟩
  cases hs with
  | @perform i m s hp hmay =>
    exact (Function.forall_update_iff _ _).mpr
      ⟨(hperform i _ m s (hw.client i) hp hmay).1, fun j _ => hw.client j⟩
  | process => exact hw.client
  | @deliver i m rest s hd hr =>
    exact (Function.forall_update_iff _ _).mpr
      ⟨hdeliver i _ m s (hw.client i) (hw.down i m (by simp [hd])) hr, fun j _ => hw.client j⟩

end Rules

/-! ## Simulation -/

section Simulation

variable {τ : Type} {N : Net ι κ σ μ} {N' : Net ι κ τ μ} {f : σ → τ} {w w' : World ι κ σ μ}

/-- The same world, with less to be seen of the clients. -/
def World.map (f : σ → τ) (w : World ι κ σ μ) : World ι κ τ μ :=
  ⟨fun i => f (w.client i), w.server, w.up, w.down, w.sent, w.order, w.received⟩

theorem Step.map (hprocess : N'.process = N.process)
    (hperform : ∀ i m s, N.perform (w.client i) m s → N.may w i m →
      N'.perform (f (w.client i)) m (f s) ∧ N'.may (w.map f) i m)
    (hdeliver : ∀ i m s, N.deliver (w.client i) m s → N'.deliver (f (w.client i)) m (f s))
    (hs : Step N w w') : Step N' (w.map f) (w'.map f) := by
  have hclient : ∀ i s, (fun j => f (Function.update w.client i s j)) =
      Function.update (fun j => f (w.client j)) i (f s) :=
    fun i s => Function.comp_update f w.client i s
  cases hs with
  | @perform i m s hp hmay =>
    obtain ⟨hp', hmay'⟩ := hperform i m s hp hmay
    simp only [World.map, hclient]
    exact .perform i hp' hmay'
  | process i hu =>
    simp only [World.map, ← hprocess]
    exact .process i hu
  | @deliver i m rest s hd hr =>
    simp only [World.map, hclient]
    exact .deliver i hd (hdeliver i m s hr)

/-- **Simulation**, client by client. -/
theorem Reachable.map (hprocess : N'.process = N.process)
    (hperform : ∀ w i m s, N.perform (w.client i) m s → N.may w i m →
      N'.perform (f (w.client i)) m (f s) ∧ N'.may (w.map f) i m)
    (hdeliver : ∀ s m s', N.deliver s m s' → N'.deliver (f s) m (f s'))
    (h : Reachable N w w') : Reachable N' (w.map f) (w'.map f) := by
  induction h with
  | refl => exact .refl
  | @tail w1 w2 _ hs ih =>
    exact ih.tail (hs.map hprocess (hperform w1) fun i m s => hdeliver (w1.client i) m s)

end Simulation

end Scriba.Lib.Relay
