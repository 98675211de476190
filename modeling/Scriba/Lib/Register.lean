import Scriba.Lib.Relay

/-! # Values replicated around a relay

Every client keeps a value that messages may write. Nothing orders concurrent writes but the
relay. Two things can still be said. If a write leaves nothing of the old value, every client
but the author of the last write ends with it (`Settled`). If nobody writes while a write of
somebody else is on its way to him, all end with the same value (`Agreed`), even when the relay
stores more of a message than a client takes over. -/

namespace Scriba.Lib.Relay

variable {ι κ σ μ α : Type}

/-- What the messages make of a value, one after the other. -/
def run (f : μ → α → α) (ms : List μ) (v : α) : α := ms.foldl (fun v m => f m v) v

@[simp] theorem run_nil (f : μ → α → α) (v : α) : run f [] v = v := rfl

@[simp] theorem run_cons (f : μ → α → α) (m : μ) (ms : List μ) (v : α) :
    run f (m :: ms) v = run f ms (f m v) := rfl

@[simp] theorem run_append (f : μ → α → α) (ms ns : List μ) (v : α) :
    run f (ms ++ ns) v = run f ns (run f ms v) :=
  List.foldl_append

theorem run_of_forall {f : μ → α → α} {ms : List μ} (h : ∀ m ∈ ms, ∀ v, f m v = v) (v : α) :
    run f ms v = v := by
  induction ms with
  | nil => rfl
  | cons m ms ih =>
    rw [run_cons, h m (by simp), ih fun n hn => h n (by simp [hn])]

/-- A part of the value on which the messages act by themselves. -/
theorem map_run {β : Type} {f : μ → α → α} {f' : μ → β → β} (g : α → β) {ms : List μ}
    (h : ∀ m ∈ ms, ∀ v, g (f m v) = f' m (g v)) (v : α) : g (run f ms v) = run f' ms (g v) := by
  induction ms generalizing v with
  | nil => rfl
  | cons m ms ih => rw [run_cons, run_cons, ih fun n hn => h n (by simp [hn]), h m (by simp)]

/-- The relay holds what the messages it processed made of its first value. -/
theorem run_order_step (readServer : κ → α) {store : μ → α → α} {v0 : α} [DecidableEq ι]
    {N : Net ι κ σ μ} {w w' : World ι κ σ μ}
    (h : readServer w.server = run store (w.order.map Prod.snd) v0)
    (hprocess : ∀ i m rest, w.up i = m :: rest →
      readServer (N.process w.server m) = store m (readServer w.server)) (hs : Step N w w') :
    readServer w'.server = run store (w'.order.map Prod.snd) v0 := by
  cases hs with
  | perform => exact h
  | process i hu =>
    rw [hprocess i _ _ hu, List.map_append, run_append, ← h]
    rfl
  | deliver => exact h

/-- The client sent the last of the messages that write the value. -/
def LastBy (writes : μ → Prop) (order : List (ι × μ)) (i : ι) : Prop :=
  ∃ a m b, order = a ++ (i, m) :: b ∧ writes m ∧ ∀ e ∈ b, ¬ writes e.2

theorem lastBy_concat {writes : μ → Prop} {order : List (ι × μ)} {i j : ι} {m : μ} :
    LastBy writes (order ++ [(i, m)]) j ↔
      (writes m ∧ i = j) ∨ (¬ writes m ∧ LastBy writes order j) := by
  constructor
  · intro h
    obtain ⟨a, n, b, he, hn, hb⟩ := h
    rcases List.eq_nil_or_concat' b with rfl | ⟨b, e, rfl⟩
    · obtain ⟨-, he⟩ := List.append_inj' he rfl
      obtain ⟨rfl, rfl⟩ := Prod.mk.inj (List.singleton_inj.mp he)
      exact .inl ⟨hn, rfl⟩
    · have he' : order ++ [(i, m)] = (a ++ (j, n) :: b) ++ [e] := by simpa using he
      obtain ⟨rfl, hx⟩ := List.append_inj' he' rfl
      obtain rfl := List.singleton_inj.mp hx
      exact .inr ⟨hb (i, m) (by simp), a, n, b, rfl, hn, fun e he => hb e (by simp [he])⟩
  · intro h
    rcases h with ⟨hm, rfl⟩ | ⟨hm, a, n, b, rfl, hn, hb⟩
    · exact ⟨order, m, [], rfl, hm, by simp⟩
    · refine ⟨a, n, b ++ [(i, m)], by simp, hn, fun e he => ?_⟩
      rcases List.mem_append.mp he with he | he
      · exact hb e he
      · exact List.mem_singleton.mp he ▸ hm

/-! ## The last write -/

section LastWrite

variable (read : σ → α) (writes : μ → Prop) (write : μ → α → α) (v0 : α)

/-- A client without a write on its way up holds, once it has taken what waits for it, what the
relay's order makes of the first value, unless the last write there is its own. -/
def Settled (w : World ι κ σ μ) : Prop :=
  ∀ i, (∀ m ∈ w.up i, ¬ writes m) → ¬ LastBy writes w.order i →
    run write (w.down i) (read (w.client i)) = run write (w.order.map Prod.snd) v0

variable {read writes write v0} [DecidableEq ι] {N : Net ι κ σ μ} {w w' : World ι κ σ μ}

theorem Settled.step (h : Settled read writes write v0 w)
    (hother : ∀ m v, ¬ writes m → write m v = v)
    (hover : ∀ m v v', writes m → write m v = write m v')
    (hperform : ∀ i m s, N.perform (w.client i) m s → read s = write m (read (w.client i)))
    (hdeliver : ∀ i m rest s, w.down i = m :: rest → N.deliver (w.client i) m s →
      read s = write m (read (w.client i))) (hs : Step N w w') :
    Settled read writes write v0 w' := by
  cases hs with
  | @perform i m s hp _ =>
    intro j hup hlast
    by_cases hj : j = i
    · subst hj
      simp only [Function.update_self] at hup ⊢
      have hm := hup m (by simp)
      rw [hperform j m s hp, hother m _ hm]
      exact h j (fun n hn => hup n (by simp [hn])) hlast
    · simp only [Function.update_of_ne hj] at hup ⊢
      exact h j hup hlast
  | @process i m rest hu =>
    intro j hup hlast
    rw [lastBy_concat] at hlast
    simp only [List.map_append, List.map_singleton, run_append, run_cons, run_nil]
    by_cases hj : j = i
    · subst hj
      simp only [Function.update_self] at hup
      have hm : ¬ writes m := fun hm => hlast (.inl ⟨hm, rfl⟩)
      rw [if_pos rfl, hother m _ hm]
      exact h j (fun n hn => by
        rcases List.mem_cons.mp (hu ▸ hn) with rfl | hn
        · exact hm
        · exact hup n hn) fun hl => hlast (.inr ⟨hm, hl⟩)
    · simp only [Function.update_of_ne hj] at hup
      rw [if_neg hj, run_append, run_cons, run_nil]
      by_cases hm : writes m
      · exact hover m _ _ hm
      · rw [hother m _ hm, hother m _ hm]
        exact h j hup fun hl => hlast (.inr ⟨hm, hl⟩)
  | @deliver i m rest s hd hr =>
    intro j hup hlast
    by_cases hj : j = i
    · subst hj
      simp only [Function.update_self]
      have hj := h j hup hlast
      rwa [hd, run_cons, ← hdeliver j m rest s hd hr] at hj
    · simp only [Function.update_of_ne hj]
      exact h j hup hlast

end LastWrite

/-! ## Writes that do not cross -/

section Calm

variable (writes : μ → Prop)

/-- No write of another client is on its way to this one. -/
def Calm (w : World ι κ σ μ) (i : ι) : Prop :=
  (∀ m ∈ w.down i, ¬ writes m) ∧ ∀ j, j ≠ i → ∀ m ∈ w.up j, ¬ writes m

variable (read : σ → α) (readServer : κ → α) (write store : μ → α → α)

/-- Client and relay will hold the same. At most one client has writes on its way up, and they
write at a client what the relay stores. -/
structure Agreed (w : World ι κ σ μ) : Prop where
  agree : ∀ i, run write (w.down i) (read (w.client i)) = run store (w.up i) (readServer w.server)
  single : ∀ i j, i ≠ j → (∀ m ∈ w.up i, ¬ writes m) ∨ ∀ m ∈ w.up j, ¬ writes m
  chain : ∀ i a m b, w.up i = a ++ m :: b →
    write m (run store a (readServer w.server)) = store m (run store a (readServer w.server))

variable {writes read readServer write store} [DecidableEq ι] {N : Net ι κ σ μ}
  {w w' : World ι κ σ μ}

/-- A client writes when no other write is on its way. -/
theorem Agreed.perform {i : ι} {m : μ} {s : σ} (h : Agreed writes read readServer write store w)
    (hwrite : ∀ m v, ¬ writes m → write m v = v) (hstore : ∀ m v, ¬ writes m → store m v = v)
    (hcalm : writes m → Calm writes w i) (hread : read s = store m (read (w.client i)))
    (hsame : write m (read (w.client i)) = store m (read (w.client i))) :
    Agreed writes read readServer write store
      { w with
        client := Function.update w.client i s
        up := Function.update w.up i (w.up i ++ [m])
        sent := Function.update w.sent i (w.sent i ++ [m]) } := by
  -- where the client writes, it holds what the relay will hold
  have hnow : writes m → read (w.client i) = run store (w.up i) (readServer w.server) := by
    intro hm
    rw [← h.agree i, run_of_forall fun n hn v => hwrite n v ((hcalm hm).1 n hn)]
  refine ⟨fun j => ?_, fun j k hjk => ?_, fun j a n b he => ?_⟩
  · by_cases hj : j = i
    · subst hj
      simp only [Function.update_self, run_append, run_cons, run_nil]
      by_cases hm : writes m
      · rw [run_of_forall fun n hn v => hwrite n v ((hcalm hm).1 n hn), hread, hnow hm]
      · rw [hread, hstore m _ hm, hstore m _ hm, h.agree j]
    · simpa [hj] using h.agree j
  · by_cases hm : writes m
    · have hothers := (hcalm hm).2
      by_cases hj : j = i
      · subst hj
        exact .inr (by simpa [Function.update_of_ne hjk.symm] using hothers k hjk.symm)
      · exact .inl (by simpa [Function.update_of_ne hj] using hothers j hj)
    · have hkeep : ∀ l, (∀ n ∈ w.up l, ¬ writes n) →
          ∀ n ∈ Function.update w.up i (w.up i ++ [m]) l, ¬ writes n := by
        intro l hl n hn
        rcases Queues.mem_push.mp hn with hn | ⟨-, rfl⟩
        · exact hl n hn
        · exact hm
      exact (h.single j k hjk).imp (hkeep j) (hkeep k)
  · by_cases hj : j = i
    · subst hj
      simp only [Function.update_self] at he
      rcases List.eq_nil_or_concat' b with rfl | ⟨b, x, rfl⟩
      · obtain ⟨rfl, hn⟩ := List.append_inj' he rfl
        obtain rfl := List.singleton_inj.mp hn
        by_cases hm : writes m
        · rw [← hnow hm, hsame]
        · rw [hwrite m _ hm, hstore m _ hm]
      · have he' : w.up j ++ [m] = (a ++ n :: b) ++ [x] := by simpa using he
        exact h.chain j a n b (List.append_inj' he' rfl).1
    · exact h.chain j a n b (by simpa [hj] using he)

/-- The relay stores what the client has, and the others will write. -/
theorem Agreed.process {i : ι} {m : μ} {rest : List μ}
    (h : Agreed writes read readServer write store w)
    (hwrite : ∀ m v, ¬ writes m → write m v = v) (hstore : ∀ m v, ¬ writes m → store m v = v)
    (hu : w.up i = m :: rest)
    (hserver : readServer (N.process w.server m) = store m (readServer w.server)) :
    Agreed writes read readServer write store
      { w with
        server := N.process w.server m
        up := Function.update w.up i rest
        down := fun j => if j = i then w.down j else w.down j ++ [m]
        order := w.order ++ [(i, m)] } := by
  have hfirst : write m (readServer w.server) = store m (readServer w.server) :=
    h.chain i [] m rest hu
  -- the others have no write on its way up, if this is one
  have hquiet : ∀ j, j ≠ i → writes m → ∀ n ∈ w.up j, ¬ writes n := fun j hj hm =>
    (h.single j i hj).resolve_right fun hn => hn m (by simp [hu]) hm
  refine ⟨fun j => ?_, fun j k hjk => ?_, fun j a n b he => ?_⟩
  · simp only [hserver]
    by_cases hj : j = i
    · subst hj
      simpa [hu] using h.agree j
    · simp only [Function.update_of_ne hj, if_neg hj, run_append, run_cons, run_nil, h.agree j]
      by_cases hm : writes m
      · have hneutral : ∀ n ∈ w.up j, ∀ v, store n v = v := fun n hn v =>
          hstore n v (hquiet j hj hm n hn)
        rw [run_of_forall hneutral, run_of_forall hneutral, hfirst]
      · rw [hwrite m _ hm, hstore m _ hm]
  · exact (h.single j k hjk).imp (fun hn n hm => hn n (Queues.mem_of_pop hu hm))
      fun hn n hm => hn n (Queues.mem_of_pop hu hm)
  · simp only [hserver]
    by_cases hj : j = i
    · subst hj
      simp only [Function.update_self] at he
      exact h.chain j (m :: a) n b (by rw [hu, he]; rfl)
    · simp only [Function.update_of_ne hj] at he
      by_cases hm : writes m
      · have hn : ¬ writes n := hquiet j hj hm n (by simp [he])
        rw [hwrite n _ hn, hstore n _ hn]
      · rw [hstore m _ hm]
        exact h.chain j a n b he

theorem Agreed.step (h : Agreed writes read readServer write store w)
    (hwrite : ∀ m v, ¬ writes m → write m v = v) (hstore : ∀ m v, ¬ writes m → store m v = v)
    (hcalm : ∀ i m, N.may w i m → writes m → Calm writes w i)
    (hperform : ∀ i m s, N.perform (w.client i) m s → read s = store m (read (w.client i)) ∧
      write m (read (w.client i)) = store m (read (w.client i)))
    (hprocess : ∀ i m rest, w.up i = m :: rest →
      readServer (N.process w.server m) = store m (readServer w.server))
    (hdeliver : ∀ i m rest s, w.down i = m :: rest → N.deliver (w.client i) m s →
      read s = write m (read (w.client i))) (hs : Step N w w') :
    Agreed writes read readServer write store w' := by
  cases hs with
  | @perform i m s hp hmay =>
    obtain ⟨hread, hsame⟩ := hperform i m s hp
    exact h.perform hwrite hstore (hcalm i m hmay) hread hsame
  | @process i m rest hu => exact h.process hwrite hstore hu (hprocess i m rest hu)
  | @deliver i m rest s hd hr =>
    refine ⟨fun j => ?_, h.single, h.chain⟩
    by_cases hj : j = i
    · subst hj
      simp only [Function.update_self]
      have hj := h.agree j
      rwa [hd, run_cons, ← hdeliver j m rest s hd hr] at hj
    · simpa [hj] using h.agree j

end Calm

end Scriba.Lib.Relay
