import Mathlib.Data.List.Perm.Basic
import Scriba.Lib.Balance
import Scriba.Server.Registry

/-! # The threads of the workers

`incomingConnection` and `userDisconnected` of `Server/server.cpp`, as to the threads: a worker is
moved to a new thread while there are fewer than the ideal number, else to the first of those with
the least load. A connection that cannot be set up gets no worker. -/

namespace Scriba.Server

open Scriba.Utility Scriba.Lib

/-! ## The members -/

/-- `m_idealThreadCount`, the size of `m_availableThreads`, and `m_threadsLoad`; and the workers
with the index that their connection to `userDisconnected` is bound to. -/
structure Threads where
  idealThreadCount : Int
  availableThreads : Nat
  threadsLoad : List Int
  bound : List (WorkerId × Nat)
deriving DecidableEq

namespace Threads

/-- The threads of a new server, for what `QThread::idealThreadCount` returns. -/
def start (idealThreadCount : Int) : Threads := ⟨max idealThreadCount 1, 0, [], []⟩

/-- The worker's thread and connection. There is none to bind if an index is out of range. -/
def incomingConnection (t : Threads) (w : WorkerId) : Option Threads :=
  if t.availableThreads < t.idealThreadCount then
    -- We can add a new thread
    some { t with
      availableThreads := t.availableThreads + 1
      threadsLoad := t.threadsLoad ++ [1]
      bound := t.bound ++ [(w, t.availableThreads)] }
  else do
    -- Find the thread with the least amount of clients and use it
    let threadIdx ← t.threadsLoad.minIdxOn? id
    if threadIdx < t.availableThreads then
      some { t with
        threadsLoad := t.threadsLoad.modify threadIdx (· + 1)
        bound := t.bound ++ [(w, threadIdx)] }
    else none

def userDisconnected (t : Threads) (w : WorkerId) (threadIdx : Nat) : Option Threads :=
  if threadIdx < t.threadsLoad.length then
    some { t with
      threadsLoad := t.threadsLoad.modify threadIdx (· - 1)
      bound := t.bound.filter (·.1 ≠ w) }
  else none

/-- The other events leave the threads as they are. -/
def handle (t : Threads) : Event → Option Threads
  | .incomingConnection w => t.incomingConnection w
  | .userDisconnected w => do
    let threadIdx ← t.bound.lookup w
    t.userDisconnected w threadIdx
  | _ => some t

/-- After the events of a history of the server. -/
def after (idealThreadCount : Int) (h : History) : Option Threads :=
  (h.map fun e => e.input.event).foldlM handle (start idealThreadCount)

/-- The number of connections that were accepted. -/
def connections (h : History) : Nat :=
  (h.filter fun e => e.input.event matches .incomingConnection _).length

end Threads

/-! ## Who is connected -/

section Clients

variable {z : Codec} {d : Driver} {s s' : Server} {i : Input} {outs : List Output}
  {w v : WorkerId} {sender worker : ServerWorker}

theorem mem_setWorker (hw : s.clients[w]? = some sender) :
    v ∈ (s.setWorker w worker).clients ↔ v ∈ s.clients := by
  rw [setWorker, Table.mem_insert]
  refine ⟨fun hv => hv.elim (fun he => he ▸ Table.mem_of_getElem? hw) (fun hv => hv), .inr⟩

/-- Workers come and go with their connections only. -/
theorem Effect.mem_clients {e : Event} (h : Effect z d s e s' outs)
    (hin : ∀ w, e ≠ .incomingConnection w) (hout : ∀ w, e ≠ .userDisconnected w) :
    v ∈ s'.clients ↔ v ∈ s.clients := by
  cases h with
  | connected he => exact absurd he (hin _)
  | answered => rfl
  | stored => rfl
  | loggedIn _ hw => exact mem_setWorker hw
  | renamed ha => exact mem_setWorker ha.worker
  | operated _ hop => rw [hop.clients]
  | created ha _ _ hc =>
    rw [hc.clients]
    exact mem_setWorker ha.worker
  | opened ha _ ho =>
    rw [ho.clients]
    exact mem_setWorker ha.worker
  | closed ha _ hl =>
    obtain ⟨-, -, -, hc, -⟩ := hl.maps
    refine (mem_setWorker (by rw [hc]; exact ha.worker)).trans ?_
    rw [hc]
  | disconnected he => exact absurd he (hout _)
  | left he => exact absurd he (hout _)
  | saved _ hs => rw [hs.clients]

theorem handle_incomingConnection (h : s.handle z d (.incomingConnection w) = .ok (s', outs)) :
    v ∈ s'.clients ↔ v = w ∨ v ∈ s.clients := by
  cases h
  exact Table.mem_insert

theorem handle_userDisconnected (h : s.handle z d (.userDisconnected w) = .ok (s', outs)) :
    v ∈ s'.clients ↔ v ≠ w ∧ v ∈ s.clients := by
  obtain ⟨sender, -, h⟩ := withWorker_ok h
  rcases userDisconnected_ok h with ⟨-, rfl, -⟩ | ⟨-, hl⟩
  · exact Table.mem_erase
  · obtain ⟨-, -, -, hc, -⟩ := hl.maps
    rw [hc]
    exact Table.mem_erase

end Clients

/-! ## The invariant -/

namespace Threads

/-- One load for each thread, and one thread for each connected worker. -/
structure Serves (n most accepted : Nat) (t : Threads) (s : Server) : Prop where
  ideal : t.idealThreadCount = n
  started : t.availableThreads = t.threadsLoad.length
  number : t.threadsLoad.length = min n accepted
  level : Level n most t.threadsLoad (t.bound.map Prod.snd)
  nodup : (t.bound.map Prod.fst).Nodup
  workers : ∀ w, w ∈ t.bound.map Prod.fst ↔ w ∈ s.clients

section Serves

variable {n most k : Nat} {t : Threads} {s s' : Server} {w : WorkerId}

theorem Serves.length_bound (h : Serves n most k t s) : t.bound.length = s.clients.size := by
  have hperm : (t.bound.map Prod.fst).Perm s.clients.keys :=
    (List.perm_ext_iff_of_nodup h.nodup s.clients.nodup_keys).mpr fun w =>
      (h.workers w).trans Std.TreeMap.mem_keys.symm
  simpa using hperm.length_eq

/-- **A connection is accepted.** -/
theorem Serves.incomingConnection (h : Serves n most k t s) (hn : 0 < n) (hw : w ∉ s.clients)
    (hmost : s.clients.size < most) (hs : ∀ v, v ∈ s'.clients ↔ v = w ∨ v ∈ s.clients) :
    ∃ t', t.incomingConnection w = some t' ∧ Serves n most (k + 1) t' s' := by
  have hlen : (t.bound.map Prod.snd).length < most := by
    rw [List.length_map, h.length_bound]
    exact hmost
  have hnodup : ∀ i : Nat, ((t.bound ++ [(w, i)]).map Prod.fst).Nodup := by
    intro i
    rw [List.map_append, List.map_singleton, ← List.concat_eq_append, List.nodup_concat]
    exact ⟨fun hin => hw ((h.workers w).mp hin), h.nodup⟩
  have hworkers : ∀ (i : Nat) v, v ∈ (t.bound ++ [(w, i)]).map Prod.fst ↔ v ∈ s'.clients := by
    intro i v
    rw [hs, List.map_append, List.mem_append, h.workers]
    simp [or_comm]
  by_cases hroom : t.threadsLoad.length < n
  · have hroom' : (t.availableThreads : Int) < t.idealThreadCount := by
      rw [h.ideal, h.started]
      exact_mod_cast hroom
    have hnumber := h.number
    refine ⟨⟨t.idealThreadCount, t.availableThreads + 1, t.threadsLoad ++ [1],
      t.bound ++ [(w, t.availableThreads)]⟩, if_pos hroom', h.ideal, ?_, ?_, ?_, hnodup _,
      hworkers _⟩
    · simp [h.started]
    · rw [List.length_append, List.length_singleton]
      omega
    · rw [List.map_append]
      exact h.started ▸ h.level.new hn hlen
  · have hfull : t.threadsLoad.length = n := by
      have := h.number
      omega
    have hroom' : ¬ (t.availableThreads : Int) < t.idealThreadCount := by
      rw [h.ideal, h.started]
      exact_mod_cast hroom
    have hne : t.threadsLoad ≠ [] := List.ne_nil_of_length_pos (hfull ▸ hn)
    obtain ⟨i, hi⟩ := Option.isSome_iff_exists.mp (List.isSome_minIdxOn?_iff (f := id).mpr hne)
    have hlt := List.lt_length_of_minIdxOn?_eq_some hi
    obtain ⟨l, hl, hleast⟩ := least_of_minIdxOn? hi
    have hnumber := h.number
    refine ⟨⟨t.idealThreadCount, t.availableThreads, t.threadsLoad.modify i (· + 1),
      t.bound ++ [(w, i)]⟩, ?_, h.ideal, ?_, ?_, ?_, hnodup i, hworkers i⟩
    · rw [Threads.incomingConnection, if_neg hroom', hi]
      exact if_pos (h.started ▸ hlt)
    · simp [h.started]
    · rw [List.length_modify]
      omega
    · rw [List.map_append]
      exact h.level.put hfull hlen hl hleast

/-- **A worker is disconnected.** -/
theorem Serves.userDisconnected (h : Serves n most k t s) (hw : w ∈ s.clients)
    (hs : ∀ v, v ∈ s'.clients ↔ v ≠ w ∧ v ∈ s.clients) :
    ∃ t', t.handle (.userDisconnected w) = some t' ∧ Serves n most k t' s' := by
  obtain ⟨⟨w', i⟩, hin, rfl⟩ := List.mem_map.mp ((h.workers w).mpr hw)
  obtain ⟨u, v, huv⟩ := List.append_of_mem hin
  have hnodup := h.nodup
  rw [huv, List.map_append, List.map_cons, List.nodup_middle, List.nodup_cons] at hnodup
  obtain ⟨hnew, hrest⟩ := hnodup
  have hne : ∀ p ∈ u ++ v, p.1 ≠ w' := by
    intro p hp he
    have hin := List.mem_map_of_mem (f := Prod.fst) hp
    rw [he, List.map_append] at hin
    exact hnew hin
  have hlookup : t.bound.lookup w' = some i := by
    have hu : u.lookup w' = none := List.lookup_eq_none_iff.mpr fun p hp => by
      simpa using (hne p (List.mem_append_left _ hp)).symm
    rw [huv, List.lookup_append, hu]
    simp
  have hfilter : t.bound.filter (·.1 ≠ w') = u ++ v := by
    have hu : ∀ p ∈ u, p.1 ≠ w' := fun p hp => hne p (List.mem_append_left _ hp)
    have hv : ∀ p ∈ v, p.1 ≠ w' := fun p hp => hne p (List.mem_append_right _ hp)
    rw [huv, List.filter_append, List.filter_cons_of_neg (by simp),
      List.filter_eq_self.mpr (by simpa using hu), List.filter_eq_self.mpr (by simpa using hv)]
  have hlevel := h.level
  rw [huv, List.map_append, List.map_cons] at hlevel
  have hlt := hlevel.inside i (by simp)
  refine ⟨⟨t.idealThreadCount, t.availableThreads, t.threadsLoad.modify i (· - 1), u ++ v⟩, ?_,
    h.ideal, ?_, ?_, ?_, ?_, fun x => ?_⟩
  · show (t.bound.lookup w' >>= _) = _
    rw [hlookup]
    show t.userDisconnected w' i = _
    rw [Threads.userDisconnected, if_pos hlt, hfilter]
  · simp [h.started]
  · simpa using h.number
  · rw [List.map_append]
    exact hlevel.take
  · rwa [List.map_append]
  · rw [hs, ← h.workers, huv]
    simp only [List.map_append, List.map_cons, List.mem_append, List.mem_cons]
    have hx : x = w' → x ∉ u.map Prod.fst ∧ x ∉ v.map Prod.fst := by
      rintro rfl
      exact ⟨fun hin => hnew (List.mem_append_left _ hin),
        fun hin => hnew (List.mem_append_right _ hin)⟩
    tauto

/-- **What the server does for its threads.** -/
theorem Serves.step {z : Codec} {i : Input} {outs : List Output} (h : Serves n most k t s)
    (hn : 0 < n) (hstep : Step z s i outs s') (hmost : s'.clients.size ≤ most) :
    ∃ t', t.handle i.event = some t' ∧
      Serves n most (if i.event matches .incomingConnection _ then k + 1 else k) t' s' := by
  obtain ⟨hp, hh⟩ := hstep
  have heffect := handle_effect hh
  have hrest : (∀ w, i.event ≠ .incomingConnection w) → (∀ w, i.event ≠ .userDisconnected w) →
      Serves n most k t s' := fun hin hout =>
    ⟨h.ideal, h.started, h.number, h.level, h.nodup, fun w =>
      (h.workers w).trans (heffect.mem_clients hin hout).symm⟩
  cases he : i.event with
  | incomingConnection w =>
    rw [he] at hp hh
    refine h.incomingConnection hn hp ?_ fun v => handle_incomingConnection hh
    cases hh
    have hw : w ∉ s.clients := hp
    rw [setWorker, Std.TreeMap.size_insert, if_neg (by simpa using hw)] at hmost
    exact hmost
  | userDisconnected w =>
    rw [he] at hp hh
    exact h.userDisconnected hp fun v => handle_userDisconnected hh
  | jsonReceived | byteArrayReceived | timeout =>
    exact ⟨t, rfl, hrest (by simp [he]) (by simp [he])⟩

end Serves

section Runs

variable {z : Codec} {db : Database} {h : History} {s : Server}

theorem connections_concat (h : History) (e : Entry) : connections (h ++ [e]) =
    if e.input.event matches .incomingConnection _ then connections h + 1 else connections h := by
  rw [connections, List.filter_append, List.length_append]
  split_ifs with hc <;> simp [connections, hc]

theorem Serves.run {n most : Nat} {idealThreadCount : Int} (hn : 0 < n)
    (hideal : max idealThreadCount 1 = n) (hrun : ServerRun z db h s)
    (hmost : ∀ e ∈ h, e.after.clients.size ≤ most) :
    ∃ t, after idealThreadCount h = some t ∧ Serves n most (connections h) t s := by
  refine hrun.invariant (I := fun h s => ∃ t, after idealThreadCount h = some t ∧
    Serves n most (connections h) t s) hmost ⟨start idealThreadCount, rfl, hideal, rfl, by
      simp [start, connections], .init n most, List.nodup_nil, by simp [start, Server.start]⟩ ?_
  intro h s i outs s' ht hmost hstep
  obtain ⟨t, ht, hserves⟩ := ht
  obtain ⟨t', ht', hserves'⟩ := hserves.step hn hstep hmost
  refine ⟨t', ?_, connections_concat h _ ▸ hserves'⟩
  rw [after, List.map_append, List.foldlM_append]
  show (after idealThreadCount h >>= _) = _
  rw [ht]
  show (t.handle i.event >>= _) = _
  rw [ht']
  rfl

/-- **Every worker has a thread, and the threads have their share.** In every run the threads are as
many as the connections that were accepted, up to the ideal number; the load of each is the number
of the connected workers that it has; and none is above what it would be if the most workers that
were ever connected at a time were spread evenly. No index is out of range. -/
theorem threads_shared (idealThreadCount : Int) (most : Nat) (hrun : ServerRun z db h s)
    (hmost : ∀ e ∈ h, e.after.clients.size ≤ most) :
    ∃ (t : Threads) (n : Nat), after idealThreadCount h = some t ∧ n = max idealThreadCount 1 ∧
      t.availableThreads = min n (connections h) ∧ t.threadsLoad.length = t.availableThreads ∧
      (t.bound.map Prod.fst).Perm s.clients.keys ∧
      (∀ p ∈ t.bound, p.2 < t.availableThreads) ∧
      (∀ (i : Nat) (l : Int), t.threadsLoad[i]? = some l → l = (t.bound.map Prod.snd).count i) ∧
      ∀ l ∈ t.threadsLoad, l ≤ ((most + n - 1) / n : Nat) := by
  obtain ⟨n, hn⟩ : ∃ n : Nat, (n : Int) = max idealThreadCount 1 :=
    ⟨(max idealThreadCount 1).toNat, by omega⟩
  obtain ⟨t, ht, hserves⟩ := Serves.run (n := n) (by omega) hn.symm hrun hmost
  refine ⟨t, n, ht, hn, hserves.started.trans hserves.number, hserves.started.symm, ?_,
    fun p hp => ?_, hserves.level.counts, hserves.level.share⟩
  · exact (List.perm_ext_iff_of_nodup hserves.nodup s.clients.nodup_keys).mpr fun w =>
      (hserves.workers w).trans Std.TreeMap.mem_keys.symm
  · exact hserves.started ▸ hserves.level.inside _ (List.mem_map_of_mem hp)

/-- Four connections and a disconnection, for two threads. -/
theorem threads_shared_two : ∃ h s, ServerRun .plain (.ofNames []) h s ∧
    after 2 h = some ⟨2, 2, [2, 1], [(0, 0), (2, 0), (3, 1)]⟩ ∧
    ∃ (t : Threads) (n : Nat), after 2 h = some t ∧ n = max (2 : Int) 1 ∧
      t.availableThreads = min n (connections h) ∧ t.threadsLoad.length = t.availableThreads ∧
      (t.bound.map Prod.fst).Perm s.clients.keys ∧
      (∀ p ∈ t.bound, p.2 < t.availableThreads) ∧
      (∀ (i : Nat) (l : Int), t.threadsLoad[i]? = some l → l = (t.bound.map Prod.snd).count i) ∧
      ∀ l ∈ t.threadsLoad, l ≤ ((3 + n - 1) / n : Nat) := by
  obtain ⟨h, s, hrun, hP⟩ := exists_run .plain (.ofNames [])
    (inputs [.incomingConnection 0, .incomingConnection 1, .incomingConnection 2,
      .userDisconnected 1, .incomingConnection 3])
    (P := fun h _ => after 2 h = some ⟨2, 2, [2, 1], [(0, 0), (2, 0), (3, 1)]⟩ ∧
      h.all fun e => e.after.clients.size ≤ 3) (by decide +kernel)
  simp only [Bool.decide_and, Bool.and_eq_true, decide_eq_true_eq, List.all_eq_true] at hP
  exact ⟨h, s, hrun, hP.1, threads_shared 2 3 hrun hP.2⟩

end Runs

end Threads

end Scriba.Server
