import Mathlib.Data.List.Induction
import Mathlib.Data.List.Nodup
import Scriba.Lib.Relay

/-! # What a relay guarantees about the order of messages

Two properties of runs around a relay. Messages may need things that earlier messages give;
if clients send only what is justified by what they know, every message reaches the relay
and the other clients after what it needs (`Causal`). Messages may carry tags; if no tag is
sent twice, what arrives carries tags that are new to whoever it arrives at (`Distinct`). -/

namespace Scriba.Lib.Relay

variable {ι κ σ μ α : Type}

/-! ## Causality -/

section Causality

variable (known : α → Prop) (gives needs : μ → α → Prop)

/-- What is known from the start or given by one of the messages. -/
def Known (ms : List μ) (x : α) : Prop := known x ∨ ∃ n ∈ ms, gives n x

/-- Every message comes after what it needs. -/
def Justified (ms : List μ) : Prop :=
  ∀ a m b, ms = a ++ m :: b → ∀ x, needs m x → Known known gives a x

/-- The order of processing is justified, and stays so with what any client has on its way up;
each client knows what its messages and those it received need. -/
structure Causal (w : World ι κ σ μ) : Prop where
  order : ∀ i, Justified known gives needs (w.order.map Prod.snd ++ w.up i)
  client : ∀ i, ∀ m ∈ w.sent i ++ w.received i, ∀ x, needs m x →
    Known known gives (w.sent i ++ w.received i) x

variable {known gives needs}

theorem Known.mono {ms ns : List μ} {x : α} (h : Known known gives ms x)
    (hs : ∀ m ∈ ms, m ∈ ns) : Known known gives ns x := by
  rcases h with h | ⟨n, hn, hx⟩
  · exact .inl h
  · exact .inr ⟨n, hs n hn, hx⟩

/-- Who knows what its messages need still does with a further message that is justified. -/
theorem Known.client_concat {ms ns : List μ} {m n : μ} {x : α}
    (h : ∀ n ∈ ms, ∀ x, needs n x → Known known gives ms x)
    (hm : ∀ x, needs m x → Known known gives ms x) (hns : ∀ k, k ∈ ns ↔ k ∈ ms ∨ k = m)
    (hn : n ∈ ns) (hx : needs n x) : Known known gives ns x := by
  have hk : Known known gives ms x := by
    rcases (hns n).mp hn with hn | rfl
    · exact h n hn x hx
    · exact hm x hx
  exact hk.mono fun k hk => (hns k).mpr (.inl hk)

theorem Justified.left {ms ns : List μ} (h : Justified known gives needs (ms ++ ns)) :
    Justified known gives needs ms :=
  fun a m b he => h a m (b ++ ns) (by rw [he]; simp)

theorem Justified.concat {ms : List μ} {m : μ} (h : Justified known gives needs ms)
    (hm : ∀ x, needs m x → Known known gives ms x) : Justified known gives needs (ms ++ [m]) := by
  intro a n b he x hx
  rcases List.eq_nil_or_concat' b with rfl | ⟨b, y, rfl⟩
  · obtain ⟨rfl, hn⟩ := List.append_inj' he rfl
    obtain rfl := List.singleton_inj.mp hn
    exact hm x hx
  · have he' : ms ++ [m] = (a ++ n :: b) ++ [y] := by simpa using he
    obtain ⟨rfl, -⟩ := List.append_inj' he' rfl
    exact h a n b rfl x hx

/-- A justified message may come earlier. -/
theorem Justified.insert {ms ns : List μ} {m : μ} (h : Justified known gives needs (ms ++ ns))
    (hm : Justified known gives needs (ms ++ [m])) :
    Justified known gives needs (ms ++ m :: ns) := by
  induction ns using List.reverseRecOn with
  | nil => exact hm
  | append_singleton ns n ih =>
    rw [← List.append_assoc] at h
    rw [← List.cons_append, ← List.append_assoc]
    refine (ih h.left).concat ?_
    intro x hx
    refine (h (ms ++ ns) n [] rfl x hx).mono ?_
    intro k hk
    rcases List.mem_append.mp hk with hk | hk <;> simp [hk]

theorem Causal.init (client : ι → σ) (server : κ) :
    Causal known gives needs (World.init client server : World ι κ σ μ) :=
  ⟨fun _ a m b he => by simp [World.init] at he, fun _ m hm => by simp [World.init] at hm⟩

/-- What the relay processed is justified by the rest of it. -/
theorem Causal.of_mem {w : World ι κ σ μ} (h : Causal known gives needs w) {m : μ}
    (hm : m ∈ w.order.map Prod.snd) {x : α} (hx : needs m x) :
    Known known gives (w.order.map Prod.snd) x := by
  obtain ⟨⟨i, m⟩, -, rfl⟩ := List.mem_map.mp hm
  obtain ⟨a, b, he⟩ := List.append_of_mem hm
  refine (h.order i a m (b ++ w.up i) (by simp [he]) x hx).mono ?_
  intro n hn
  rw [he]
  simp [hn]

variable [DecidableEq ι]

/-- **What a client receives is justified** by what it sent and received before. -/
theorem Causal.delivered {w : World ι κ σ μ} (h : Causal known gives needs w) (hf : Fifo w)
    {j : ι} {m : μ} {rest : List μ} (hd : w.down j = m :: rest) {x : α} (hx : needs m x) :
    Known known gives (w.sent j ++ w.received j) x := by
  obtain ⟨a, i, b, ho, hr⟩ := exists_processed (hd ▸ hf.received j).symm
  refine (h.order j (a.map Prod.snd) m (b.map Prod.snd ++ w.up j) (by simp [ho]) x hx).mono
    fun n hn => ?_
  rw [← (ofClient_perm a j).mem_iff, hr] at hn
  rcases List.mem_append.mp hn with hn | hn
  · refine List.mem_append.mpr (.inl ?_)
    rw [hf.sent j, ho, ofClient, List.filter_append, List.map_append]
    simp only [List.mem_append]
    exact .inl (.inl hn)
  · exact List.mem_append.mpr (.inr hn)

/-- **Causality is kept**, if clients send what is justified by what they sent and received. -/
theorem Causal.step {N : Net ι κ σ μ} {w w' : World ι κ σ μ} (h : Causal known gives needs w)
    (hf : Fifo w) (hp : ∀ i m s, N.perform (w.client i) m s → ∀ x, needs m x →
      Known known gives (w.sent i ++ w.received i) x) (hs : Step N w w') :
    Causal known gives needs w' := by
  cases hs with
  | @perform i m s hs _ =>
    refine ⟨fun j => ?_, fun j n hn x hx => ?_⟩
    · by_cases hj : j = i
      · subst hj
        have hm := (h.order j).concat fun x hx =>
          (hp j m s hs x hx).mono fun n hn => hf.mem_of_applied hn
        simpa using hm
      · simpa [hj] using h.order j
    · by_cases hj : j = i
      · subst hj
        simp only [Function.update_self] at hn ⊢
        refine .client_concat (h.client j) (hp j m s hs) (fun k => ?_) hn hx
        simp only [List.mem_append, List.mem_singleton]
        tauto
      · simp only [Function.update_of_ne hj] at hn ⊢
        exact h.client j n hn x hx
  | @process i m rest hu =>
    refine ⟨fun j => ?_, h.client⟩
    have hi := h.order i
    rw [hu] at hi
    by_cases hj : j = i
    · subst hj
      simpa using hi
    · have hm : Justified known gives needs ((w.order.map Prod.snd ++ [m]) ++ rest) := by
        simpa using hi
      simpa [hj] using (h.order j).insert hm.left
  | @deliver i m rest s hd _ =>
    refine ⟨h.order, fun j n hn x hx => ?_⟩
    by_cases hj : j = i
    · subst hj
      simp only [Function.update_self] at hn ⊢
      refine .client_concat (h.client j) (fun x hx => h.delivered hf hd hx) (fun k => ?_) hn hx
      simp only [List.mem_append, List.mem_singleton, or_assoc]
    · simp only [Function.update_of_ne hj] at hn ⊢
      exact h.client j n hn x hx

end Causality

/-! ## Tags -/

section Tags

variable (start : List α) (tags : μ → List α)

/-- The tags of a message are different, and different from those of `ms`. -/
structure Fresh (ms : List μ) (m : μ) : Prop where
  nodup : (tags m).Nodup
  start : ∀ x ∈ tags m, x ∉ start
  other : ∀ x ∈ tags m, ∀ n ∈ ms, x ∉ tags n

/-- No tag is there twice, in what the relay processed and any client has on its way up. -/
structure Distinct (w : World ι κ σ μ) : Prop where
  nodup : ∀ i, (start ++ (w.order.map Prod.snd ++ w.up i).flatMap tags).Nodup
  disjoint : ∀ i j, i ≠ j → ∀ m ∈ w.up i, ∀ n ∈ w.up j, (tags m).Disjoint (tags n)

variable {start tags}

/-- A list without repeated tags, cut before a message. -/
theorem fresh_of_nodup {a b : List μ} {m : μ}
    (h : (start ++ (a ++ m :: b).flatMap tags).Nodup) : Fresh start tags a m := by
  obtain ⟨-, hall, hstart⟩ := List.nodup_append.mp h
  rw [List.flatMap_append, List.flatMap_cons] at hall
  obtain ⟨-, hm, hdis⟩ := List.nodup_append.mp hall
  refine ⟨(List.nodup_append.mp hm).1, fun x hx hs => ?_, fun x hx n hn hxn => ?_⟩
  · exact hstart x hs x (List.mem_flatMap.mpr ⟨m, by simp, hx⟩) rfl
  · exact hdis x (List.mem_flatMap.mpr ⟨n, hn, hxn⟩) x (by simp [hx]) rfl

theorem nodup_concat {ms : List μ} {m : μ} (h : (start ++ ms.flatMap tags).Nodup)
    (hm : Fresh start tags ms m) : (start ++ (ms ++ [m]).flatMap tags).Nodup := by
  rw [List.flatMap_append, ← List.append_assoc]
  refine List.nodup_append.mpr ⟨h, by simpa using hm.nodup, fun x hx y hy hxy => ?_⟩
  have hy : x ∈ tags m := by simpa [hxy] using hy
  rcases List.mem_append.mp hx with hx | hx
  · exact hm.start x hy hx
  · obtain ⟨n, hn, hxn⟩ := List.mem_flatMap.mp hx
    exact hm.other x hy n hn hxn

theorem Distinct.init (client : ι → σ) (server : κ) (h : start.Nodup) :
    Distinct start tags (World.init client server : World ι κ σ μ) :=
  ⟨fun _ => by simpa [World.init] using h, fun _ _ _ m hm => by simp [World.init] at hm⟩

/-- What the relay processes next carries tags that are new to it. -/
theorem Distinct.processed {w : World ι κ σ μ} (h : Distinct start tags w) {i : ι} {m : μ}
    {rest : List μ} (hu : w.up i = m :: rest) : Fresh start tags (w.order.map Prod.snd) m :=
  fresh_of_nodup (hu ▸ h.nodup i)

variable [DecidableEq ι]

/-- **What a client receives carries tags that are new to it.** -/
theorem Distinct.delivered {w : World ι κ σ μ} (h : Distinct start tags w) (hf : Fifo w) {j : ι}
    {m : μ} {rest : List μ} (hd : w.down j = m :: rest) :
    Fresh start tags (w.sent j ++ w.received j) m := by
  refine fresh_of_nodup (b := rest) ?_
  rw [← hd]
  exact (((hf.perm j).flatMap_right tags).append_left start).nodup_iff.mpr (h.nodup j)

/-- **Tags stay different**, if clients send new ones only. -/
theorem Distinct.step {N : Net ι κ σ μ} {w w' : World ι κ σ μ} (h : Distinct start tags w)
    (hf : Fifo w) (hp : ∀ i m s, N.perform (w.client i) m s → N.may w i m →
      ∀ k, Fresh start tags (w.sent k) m) (hs : Step N w w') : Distinct start tags w' := by
  cases hs with
  | @perform i m s hs hmay =>
    have hm := hp i m s hs hmay
    have hup : ∀ k, ∀ n ∈ w.up k, (tags m).Disjoint (tags n) := fun k n hn x hx =>
      (hm k).other x hx n (by rw [hf.sent k]; simp [hn])
    refine ⟨fun j => ?_, fun j k hjk a ha b hb => ?_⟩
    · by_cases hj : j = i
      · subst hj
        have hall : Fresh start tags (w.order.map Prod.snd ++ w.up j) m := by
          refine ⟨(hm j).nodup, (hm j).start, fun x hx n hn => ?_⟩
          rcases List.mem_append.mp hn with hn | hn
          · obtain ⟨k, hk⟩ := hf.exists_sender hn
            exact (hm k).other x hx n hk
          · exact fun hxn => hup j n hn hx hxn
        simpa using nodup_concat (h.nodup j) hall
      · simpa [hj] using h.nodup j
    · rcases Queues.mem_push.mp ha with ha' | ⟨rfl, rfl⟩
      · rcases Queues.mem_push.mp hb with hb' | ⟨rfl, rfl⟩
        · exact h.disjoint j k hjk a ha' b hb'
        · exact fun x hx hx' => hup j a ha' hx' hx
      · rcases Queues.mem_push.mp hb with hb' | ⟨rfl, -⟩
        · exact hup k b hb'
        · exact absurd rfl hjk
  | @process i m rest hu =>
    refine ⟨fun j => ?_, fun j k hjk a ha b hb =>
      h.disjoint j k hjk a (Queues.mem_of_pop hu ha) b (Queues.mem_of_pop hu hb)⟩
    by_cases hj : j = i
    · subst hj
      simpa [hu] using h.nodup j
    · have hm := h.processed hu
      have hall : Fresh start tags (w.order.map Prod.snd ++ w.up j) m := by
        refine ⟨hm.nodup, hm.start, fun x hx n hn => ?_⟩
        rcases List.mem_append.mp hn with hn | hn
        · exact hm.other x hx n hn
        · exact fun hxn => h.disjoint i j (Ne.symm hj) m (by simp [hu]) n hn hx hxn
      have hperm : (w.order.map Prod.snd ++ w.up j ++ [m]).Perm
          (w.order.map Prod.snd ++ [m] ++ w.up j) := by
        rw [List.append_assoc, List.append_assoc]
        exact List.perm_append_comm.append_left _
      have hnd := nodup_concat (h.nodup j) hall
      rw [((hperm.flatMap_right tags).append_left start).nodup_iff] at hnd
      simpa [hj] using hnd
  | @deliver i m rest s _ _ => exact ⟨h.nodup, h.disjoint⟩

end Tags

end Scriba.Lib.Relay
