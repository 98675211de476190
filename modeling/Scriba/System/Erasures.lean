import Scriba.Client.Document
import Scriba.Lib.Causality
import Scriba.Server.SymbolMap

/-! # What the server keeps of erased symbols

The server stores a change of formats as it stores an insertion. If the symbol it names was
erased in the meantime, the change brings it back. A client is taken here for the positions it
holds: it erases, changes and aligns only these, and inserts only new ones. It may lose some at
any time, and comes to hold others only through messages. Whether the keys of the server's map
are what was inserted and not erased is then a matter of the order in which the messages reach
the server. -/

namespace Scriba.System

open Scriba.Utility Scriba.Client Scriba.Server Scriba.Lib Scriba.Lib.Relay

/-- The symbols that a message takes for granted. -/
def named : Message → List Symbol
  | .erase symbols | .change symbols => symbols
  | .changeSymbol s | .align s => [s]
  | .insert _ | .paste _ => []

/-- The symbols that the server writes over those it has. -/
def overwritten : Message → List Symbol
  | .change symbols => symbols
  | .align s => [s]
  | _ => []

def insertedAt (m : Message) : List Position := m.inserted.map Symbol.position
def erasedAt (m : Message) : List Position := m.erased.map Symbol.position

theorem overwritten_subset (m : Message) : ∀ s ∈ overwritten m, s ∈ named m := by
  cases m <;> simp [overwritten, named]

theorem erased_subset (m : Message) : ∀ s ∈ m.erased, s ∈ named m := by
  cases m <;> simp [Message.erased, named]

def mentionedAt (m : Message) : List Position := insertedAt m ++ (named m).map Symbol.position

/-- Clients that know only the positions they hold, around the server. -/
def holders {ι : Type} (xs : List Symbol) : Net ι SymbolMap (List Position) Message where
  perform held m held' := (∀ s ∈ named m, s.position ∈ held) ∧ held' ⊆ held ++ mentionedAt m
  process := SymbolMap.store
  deliver held m held' := held' ⊆ held ++ mentionedAt m
  may w _ m := (insertedAt m).Nodup ∧ ∀ p ∈ insertedAt m,
    p ∉ xs.map Symbol.position ∧ ∀ k, ∀ n ∈ w.sent k, p ∉ insertedAt n

/-- The positions that were opened or inserted. -/
abbrev BornAt (xs : List Symbol) : List Message → Position → Prop :=
  Known (· ∈ xs.map Symbol.position) fun m p => p ∈ insertedAt m

/-- Opened or inserted, and not erased. -/
def LiveAt (xs : List Symbol) (ms : List Message) (p : Position) : Prop :=
  BornAt xs ms p ∧ ∀ m ∈ ms, p ∉ erasedAt m

/-- The keys are those of the positions that are live. -/
def KeysLive (xs : List Symbol) (ms : List Message) (symbols : SymbolMap) : Prop :=
  ∀ k, k ∈ symbols ↔ ∃ p, k = Symbol.keyOf p ∧ LiveAt xs ms p

/-- The server's map after some messages. -/
def storedAfter (xs : List Symbol) (ms : List Message) : SymbolMap :=
  ms.foldl SymbolMap.store (SymbolMap.storeSymbolsServerMemory xs)

/-! ## Keys -/

section Keys

variable {symbols : SymbolMap} {k : QString}

theorem mem_insertAll (vec : List Symbol) :
    k ∈ vec.foldl SymbolMap.insertSymbol symbols ↔
      k ∈ symbols ∨ ∃ s ∈ vec, k = Symbol.keyOf s.position := by
  induction vec generalizing symbols with
  | nil => simp
  | cons s vec ih =>
    rw [List.foldl_cons, ih, SymbolMap.insertSymbol, Table.mem_insert, List.exists_mem_cons_iff,
      Symbol.positionString]
    tauto

theorem mem_removeAll (vec : List Symbol) :
    k ∈ vec.foldl SymbolMap.removeSymbol symbols ↔
      k ∈ symbols ∧ ∀ s ∈ vec, k ≠ Symbol.keyOf s.position := by
  induction vec generalizing symbols with
  | nil => simp
  | cons s vec ih =>
    rw [List.foldl_cons, ih, SymbolMap.removeSymbol, Table.mem_erase, List.forall_mem_cons,
      Symbol.positionString]
    tauto

/-- **The keys after a message.** -/
theorem mem_store (m : Message) : k ∈ symbols.store m ↔
    (k ∈ symbols ∨ ∃ p ∈ insertedAt m ++ (overwritten m).map Symbol.position,
      k = Symbol.keyOf p) ∧ ∀ p ∈ erasedAt m, k ≠ Symbol.keyOf p := by
  simp only [insertedAt, overwritten, erasedAt]
  cases m with
  | insert s => simpa [SymbolMap.store, Message.inserted, Message.erased] using
      mem_insertAll [s]
  | paste vec => simpa [SymbolMap.store, Message.inserted, Message.erased] using
      mem_insertAll vec
  | erase vec => simpa [SymbolMap.store, Message.inserted, Message.erased] using
      mem_removeAll vec
  | changeSymbol s => simp [SymbolMap.store, Message.inserted, Message.erased]
  | change vec => simpa [SymbolMap.store, Message.inserted, Message.erased] using
      mem_insertAll vec
  | align s => simpa [SymbolMap.store, Message.inserted, Message.erased] using
      mem_insertAll [s]

end Keys

/-! ## Orders of messages -/

section Orders

variable {xs : List Symbol} {ms : List Message} {m : Message} {symbols : SymbolMap}

/-- The order can come about: each message comes after what it names was inserted, and inserts
positions that are new. -/
structure Possible (xs : List Symbol) (ms : List Message) : Prop where
  justified : Justified (· ∈ xs.map Symbol.position) (fun m p => p ∈ insertedAt m)
    (fun m p => p ∈ (named m).map Symbol.position) ms
  nodup : (xs.map Symbol.position ++ ms.flatMap insertedAt).Nodup

/-- A change or an alignment writes over erased symbols. -/
def Revives (ms : List Message) (m : Message) : Prop :=
  ∃ s ∈ overwritten m, ∃ n ∈ ms, s.position ∈ erasedAt n

theorem Possible.left {ns : List Message} (h : Possible xs (ms ++ ns)) : Possible xs ms := by
  refine ⟨h.justified.left, ?_⟩
  have hnd := h.nodup
  rw [List.flatMap_append, ← List.append_assoc] at hnd
  exact (List.nodup_append.mp hnd).1

/-- What the last message names was inserted before, what it inserts was not. -/
theorem Possible.last (h : Possible xs (ms ++ [m])) :
    (∀ s ∈ named m, BornAt xs ms s.position) ∧ ∀ p ∈ insertedAt m, ¬ BornAt xs ms p := by
  refine ⟨fun s hs => h.justified ms m [] rfl _ (List.mem_map_of_mem hs), fun p hp hb => ?_⟩
  have hfresh : Fresh (xs.map Symbol.position) insertedAt ms m := fresh_of_nodup h.nodup
  rcases hb with hb | ⟨n, hn, hb⟩
  · exact hfresh.start p hp hb
  · exact hfresh.other p hp n hn hb

/-- Only what was inserted is erased. -/
theorem Possible.born_of_erased (h : Possible xs ms) {n : Message} (hn : n ∈ ms) {p : Position}
    (hp : p ∈ erasedAt n) : BornAt xs ms p := by
  obtain ⟨a, b, rfl⟩ := List.append_of_mem hn
  obtain ⟨s, hs, rfl⟩ := List.mem_map.mp hp
  refine (h.justified a n b rfl _ (List.mem_map_of_mem (erased_subset n s hs))).mono
    fun k hk => ?_
  simp [hk]

theorem liveAt_concat {p : Position} : LiveAt xs (ms ++ [m]) p ↔
    (BornAt xs ms p ∨ p ∈ insertedAt m) ∧ (∀ n ∈ ms, p ∉ erasedAt n) ∧ p ∉ erasedAt m := by
  simp only [LiveAt, Known, List.mem_append, List.mem_singleton, or_and_right, exists_or,
    exists_eq_left, or_imp, forall_and, forall_eq, or_assoc]

/-- **One more message** leaves the keys right exactly if it revives nothing. -/
theorem keysLive_concat (h : Possible xs (ms ++ [m])) (hk : KeysLive xs ms symbols) :
    KeysLive xs (ms ++ [m]) (symbols.store m) ↔ ¬ Revives ms m := by
  obtain ⟨hnamed, hnew⟩ := h.last
  constructor
  · intro hk' hex
    obtain ⟨s, hs, n, hn, he⟩ := hex
    -- the symbol is in the map now, and does not live
    have hmem : Symbol.keyOf s.position ∈ symbols.store m := by
      refine (mem_store m).mpr ⟨.inr ⟨s.position, ?_, rfl⟩, ?_⟩
      · exact List.mem_append_right _ (List.mem_map_of_mem hs)
      · cases m <;> simp_all [overwritten, erasedAt, Message.erased]
    obtain ⟨p, hp, hlive⟩ := (hk' _).mp hmem
    rw [← keyOf_injective hp] at hlive
    exact hlive.2 n (by simp [hn]) he
  · intro hr k
    rw [mem_store, hk k]
    simp only [liveAt_concat]
    constructor
    · intro hex
      obtain ⟨⟨p, rfl, hb, hl⟩ | ⟨p, hp, rfl⟩, he⟩ := hex
      · exact ⟨p, rfl, .inl hb, hl, fun hpe => he p hpe rfl⟩
      · refine ⟨p, rfl, ?_, fun n hn hpn => ?_, fun hpe => he p hpe rfl⟩
        · rcases List.mem_append.mp hp with hp | hp
          · exact .inr hp
          · obtain ⟨s, hs, rfl⟩ := List.mem_map.mp hp
            exact .inl (hnamed s (overwritten_subset m s hs))
        · rcases List.mem_append.mp hp with hp | hp
          · exact hnew p hp (h.left.born_of_erased hn hpn)
          · obtain ⟨s, hs, rfl⟩ := List.mem_map.mp hp
            exact hr ⟨s, hs, n, hn, hpn⟩
    · intro hex
      obtain ⟨p, rfl, hb | hi, hl, he⟩ := hex
      · exact ⟨.inl ⟨p, rfl, hb, hl⟩, fun q hq hpq => he (keyOf_injective hpq ▸ hq)⟩
      · exact ⟨.inr ⟨p, List.mem_append_left _ hi, rfl⟩,
          fun q hq hpq => he (keyOf_injective hpq ▸ hq)⟩

theorem storedAfter_concat (ms : List Message) (m : Message) :
    storedAfter xs (ms ++ [m]) = (storedAfter xs ms).store m := by
  rw [storedAfter, List.foldl_append]
  rfl

theorem keysLive_nil : KeysLive xs [] (storedAfter xs []) := by
  intro k
  refine (mem_insertAll xs).trans ?_
  simp only [Std.TreeMap.not_mem_emptyc, false_or, LiveAt, Known, List.not_mem_nil, false_and,
    exists_false, or_false, IsEmpty.forall_iff, implies_true, and_true]
  constructor
  · intro h
    obtain ⟨s, hs, rfl⟩ := h
    exact ⟨_, rfl, List.mem_map_of_mem hs⟩
  · intro h
    obtain ⟨p, rfl, hp⟩ := h
    obtain ⟨s, hs, rfl⟩ := List.mem_map.mp hp
    exact ⟨s, hs, rfl⟩

/-- After each message of an order the keys are right exactly if no message revives. -/
theorem keysLive_iff (h : Possible xs ms) :
    (∀ a b, ms = a ++ b → KeysLive xs a (storedAfter xs a)) ↔
      ∀ a m b, ms = a ++ m :: b → ¬ Revives a m := by
  constructor
  · rintro hk a m b rfl
    rw [List.append_cons] at h hk
    refine (keysLive_concat h.left (hk a (m :: b) (by simp))).mp ?_
    rw [← storedAfter_concat]
    exact hk _ b rfl
  · intro hr a b he
    induction a using List.reverseRecOn generalizing b with
    | nil => exact keysLive_nil
    | append_singleton a m ih =>
      rw [List.append_assoc] at he
      rw [storedAfter_concat]
      refine (keysLive_concat ?_ (ih _ he)).mpr (hr a m b he)
      rw [he, ← List.append_assoc] at h
      exact h.left

end Orders

/-! ## Runs -/

section Run

variable {ι : Type} [DecidableEq ι] {xs : List Symbol}
  {w w' : World ι SymbolMap (List Position) Message}

/-- What holds throughout a run that started from `xs`. -/
structure Holding (xs : List Symbol) (w : World ι SymbolMap (List Position) Message) : Prop where
  client : ∀ i, ∀ p ∈ w.client i, BornAt xs (w.sent i ++ w.received i) p
  server : w.server = storedAfter xs (w.order.map Prod.snd)
  causal : Causal (· ∈ xs.map Symbol.position) (fun m p => p ∈ insertedAt m)
    (fun m p => p ∈ (named m).map Symbol.position) w
  distinct : Distinct (xs.map Symbol.position) insertedAt w

/-- Of what a client holds after a message it knows as much as of what it held before. -/
theorem bornAt_of_subset {held held' : List Position} {ms ns : List Message} {m : Message}
    (h : ∀ p ∈ held, BornAt xs ms p) (hns : ∀ n ∈ ms, n ∈ ns) (hm : m ∈ ns)
    (hneeds : ∀ p ∈ (named m).map Symbol.position, BornAt xs ns p)
    (hsub : held' ⊆ held ++ mentionedAt m) {p : Position} (hp : p ∈ held') : BornAt xs ns p := by
  rcases List.mem_append.mp (hsub hp) with hp | hp
  · exact (h p hp).mono hns
  rcases List.mem_append.mp hp with hp | hp
  · exact .inr ⟨m, hm, hp⟩
  · exact hneeds p hp

theorem Holding.step (h : Holding xs w) (hf : Fifo w) (hs : Step (holders xs) w w') :
    Holding xs w' := by
  have hcausal := h.causal.step hf (fun i m s hp x hx => by
    obtain ⟨r, hr, rfl⟩ := List.mem_map.mp hx
    exact h.client i _ (hp.1 r hr)) hs
  have hfresh : ∀ i m held, (holders (ι := ι) xs).perform (w.client i) m held →
      (holders xs).may w i m →
        ∀ k, Fresh (xs.map Symbol.position) insertedAt (w.sent k) m := by
    intro i m held _ hmay k
    exact ⟨hmay.1, fun p hp => (hmay.2 p hp).1, fun p hp n hn => (hmay.2 p hp).2 k n hn⟩
  have hdistinct := h.distinct.step hf hfresh hs
  cases hs with
  | @perform i m held hp _ =>
    refine ⟨fun j p hj => ?_, h.server, hcausal, hdistinct⟩
    by_cases hji : j = i
    · subst hji
      have hneeds := hcausal.client j m (by simp)
      simp only [Function.update_self] at hj hneeds ⊢
      exact bornAt_of_subset (h.client j) (by simp +contextual [or_imp]) (by simp) hneeds hp.2 hj
    · simpa [hji] using h.client j p (by simpa [hji] using hj)
  | @process i m rest hu =>
    refine ⟨h.client, ?_, hcausal, hdistinct⟩
    rw [List.map_append]
    exact h.server ▸ (storedAfter_concat _ _).symm
  | @deliver i m rest held hd hr =>
    refine ⟨fun j p hj => ?_, h.server, hcausal, hdistinct⟩
    by_cases hji : j = i
    · subst hji
      have hneeds := hcausal.client j m (by simp)
      simp only [Function.update_self] at hj hneeds ⊢
      exact bornAt_of_subset (h.client j) (by simp +contextual [or_imp]) (by simp) hneeds hr hj
    · simpa [hji] using h.client j p (by simpa [hji] using hj)

/-- **Erased symbols stay erased** on the server exactly in the runs in which no change and no
alignment is processed of a symbol whose erasure was processed before. -/
theorem keys_live_iff (hnd : (xs.map Symbol.position).Nodup)
    (h : Reachable (holders xs)
      (.init (fun _ => xs.map Symbol.position) (SymbolMap.storeSymbolsServerMemory xs)) w) :
    w.server = storedAfter xs (w.order.map Prod.snd) ∧
      ((∀ a b, w.order.map Prod.snd = a ++ b → KeysLive xs a (storedAfter xs a)) ↔
        ∀ a m b, w.order.map Prod.snd = a ++ m :: b → ¬ Revives a m) := by
  have hinit : Holding xs (.init (fun _ : ι => xs.map Symbol.position)
      (SymbolMap.storeSymbolsServerMemory xs)) :=
    ⟨fun _ _ hp => .inl hp, rfl, .init _ _, .init _ _ hnd⟩
  obtain ⟨-, hw⟩ := h.invariant hinit fun w w' hf hw hs => hw.step hf hs
  refine ⟨hw.server, keysLive_iff ?_⟩
  cases ho : w.order with
  | nil => exact ⟨fun a m b he => by simp at he, by simpa using hnd⟩
  | cons e rest =>
    have hall : Possible xs (w.order.map Prod.snd ++ w.up e.1) :=
      ⟨hw.causal.order e.1, hw.distinct.nodup e.1⟩
    exact ho ▸ hall.left

end Run

/-- A letter is typed by one client and made bold by the other one, which also aligns its line. Then
its author erases it. -/
theorem keys_live_changed : ∃ w : World Bool SymbolMap (List Position) Message,
    let a := plain (QChar.of 'a') [⟨1, 1⟩]
    let b : Symbol := { a with format.bold := true }
    let t := plain QChar.null [⟨5, 1⟩]
    w.order = [(false, .insert a), (true, .change [b]),
        (true, .align (t.setAlignment .alignRight)), (false, .erase [a])] ∧
      w.server = storedAfter [t] (w.order.map Prod.snd) ∧
      ((∀ c b, w.order.map Prod.snd = c ++ b → KeysLive [t] c (storedAfter [t] c)) ↔
        ∀ c m b, w.order.map Prod.snd = c ++ m :: b → ¬ Revives c m) := by
  let a := plain (QChar.of 'a') [⟨1, 1⟩]
  let b : Symbol := { a with format.bold := true }
  let t := plain QChar.null [⟨5, 1⟩]
  let both : List Position := [[⟨1, 1⟩], [⟨5, 1⟩]]
  let N : Net Bool SymbolMap (List Position) Message := holders [t]
  have h1 : Reachable N (.init (fun _ : Bool => [t].map Symbol.position)
      (SymbolMap.storeSymbolsServerMemory [t])) _ :=
    Relation.ReflTransGen.single (.perform false (m := .insert a) (s := both)
      ⟨by decide, by decide⟩
      ⟨by decide, by simp [insertedAt, Message.inserted, World.init, a, t, plain]⟩)
  have hmay : ∀ {w : World Bool SymbolMap (List Position) Message} {i m}, insertedAt m = [] →
      N.may w i m := fun h => ⟨h ▸ List.nodup_nil, by simp [h]⟩
  have hheard : N.deliver [[⟨5, 1⟩]] (.insert a) both :=
    show both ⊆ _ by decide
  have hchanged : N.deliver both (.change [b]) both :=
    List.subset_append_left _ _
  have h2 := (h1.tail (.process false rfl)).tail (.deliver true rfl hheard)
  have h3 := h2.tail
    (.perform true (m := .change [b]) (s := both) ⟨by decide, by decide⟩ (hmay rfl))
  have h4 := h3.tail (.perform true (m := .align (t.setAlignment .alignRight)) (s := both)
    ⟨by decide, by decide⟩ (hmay rfl))
  have h5 := (h4.tail (.process true rfl)).tail (.deliver false rfl hchanged)
  have h6 := h5.tail (.perform false (m := .erase [a]) (s := [[⟨5, 1⟩]]) ⟨by decide, by decide⟩
    (hmay rfl))
  have h7 := (h6.tail (.process true rfl)).tail (.process false rfl)
  exact ⟨_, rfl, keys_live_iff (by decide) h7⟩

end Scriba.System
