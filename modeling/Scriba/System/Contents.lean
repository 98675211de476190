import Scriba.Client.Replication
import Scriba.Lib.Causality
import Scriba.System.Network

/-! # What clients and server hold

Insertions, pastes and erasures through the server. A client holds what the operations it
performed and those it received have inserted and not erased, the server holds the same of
the operations it processed (`Converging`). With no message on its way these are the same
operations. Erasing is where this can fail: the handler of an erasure may remove another
symbol in place of one that is gone, which the runs considered here exclude (`AsMeant`). -/

namespace Scriba.System

open Scriba.Utility Scriba.Client Scriba.Server Scriba.Lib.Lines Scriba.Lib.Relay

/-! ## The effect of one edit -/

/-- A message of an edit, as it is sent from a document that ends with `t`. -/
structure EditMessage (t : Symbol) (m : Message) : Prop where
  edit : m.IsEdit
  inserted : ∀ s ∈ m.inserted, ValidPosition s.position ∧ s.position < t.position
  erased : ∀ s ∈ m.erased, s.position < t.position
  nodup : (m.erased.map Symbol.position).Nodup

/-- The client has a valid document that ends with `t`. -/
structure DocumentUpTo (t : Symbol) (c : CRDT) : Prop where
  valid : ValidDocument c.symbols
  last : c.symbols.flatten.getLast? = some t

/-- The client has what the message inserts and has not what it erases. -/
structure Applies (c : CRDT) (m : Message) (c' : CRDT) : Prop where
  valid : ValidDocument c'.symbols
  last : c'.symbols.flatten.getLast? = c.symbols.flatten.getLast?
  mem : ∀ y, y ∈ c'.symbols.flatten ↔
    (y ∈ m.inserted ∨ y ∈ c.symbols.flatten) ∧ ∀ s ∈ m.erased, s.position ≠ y.position

section Effect

variable {c c' : CRDT} {op : LocalOp} {m : Message} {t : Symbol}

theorem applies_of_effect (e : LocalEffect c c' op m) (h : ValidDocument c.symbols)
    (hm : m.IsEdit) : Applies c m c' := by
  refine ⟨e.valid h, ?_, fun y => ?_⟩
  · cases e with
    | insert hg _ => exact hg.toInserts.getLast?
    | @paste line index text font color align chance u v ss x hf hg =>
      rw [(hg.facts h hf).new, hf, List.getLast?_append_of_ne_nil _ (by simp),
        List.getLast?_append_of_ne_nil _ (by simp)]
    | erase he hc _ => exact hc ▸ he.getLast?
    | changeSymbol | change | align => exact hm.elim
  · cases e with
    | insert hg _ => simp [hg.toInserts.mem, Message.inserted, Message.erased]
    | paste hf hg _ =>
      simp only [(hg.facts h hf).new, hf, Message.inserted, Message.erased, List.mem_append]
      simp only [List.not_mem_nil, false_imp_iff, implies_true, and_true]
      tauto
    | erase he hc _ =>
      subst hc
      simp [he.mem h.ordered, Message.inserted, Message.erased]
    | changeSymbol | change | align => exact hm.elim

/-- What a client sends of an edit. -/
theorem editMessage_of_effect (e : LocalEffect c c' op m) (h : ValidDocument c.symbols)
    (ht : c.symbols.flatten.getLast? = some t) (hm : m.IsEdit) :
    EditMessage t m ∧ ∀ s ∈ m.erased, s ∈ c.symbols.flatten := by
  have hlt : ∀ s ∈ m.inserted, s.position < t.position := by
    intro s hs
    have ha := applies_of_effect e h hm
    refine ha.valid.ordered.lt_getLast (ha.last.trans ht) ?_ ?_
    · cases e with
      | insert | paste => exact (ha.mem s).mpr ⟨.inl hs, by simp [Message.erased]⟩
      | erase | changeSymbol | change | align => cases hs
    · exact fun he => (e.fresh h).1 s hs t (List.mem_of_getLast? ht) (he ▸ rfl)
  cases e with
  | insert hg _ =>
    exact ⟨⟨hm, fun s hs => ⟨List.mem_singleton.mp hs ▸ hg.fits.valid, hlt s hs⟩,
      by simp [Message.erased], by simp [Message.erased]⟩, by simp [Message.erased]⟩
  | @paste line index text font color align chance u v ss x hf hg =>
    have hfacts := hg.facts h hf
    have hmem : ∀ s ∈ ss, s ∈ c'.symbols.flatten := fun s hs => by rw [hfacts.new]; simp [hs]
    exact ⟨⟨hm, fun s hs => ⟨hfacts.valid.positions s (hmem s hs), hlt s hs⟩,
        by simp [Message.erased], by simp [Message.erased]⟩, by simp [Message.erased]⟩
  | @erase line index ls' u w v he hc =>
    have ho := h.ordered
    rw [he.old] at ho
    have htv : t ∈ v := List.mem_of_getLast? (by
      rw [← ht, he.old, List.getLast?_append_of_ne_nil _ he.ne_nil])
    have hw := Ordered.append.mp ho
    exact ⟨⟨hm, by simp [Message.inserted],
        fun s hs => hw.2.2 s (by simp [show s ∈ w from hs]) t htv,
      (Ordered.append.mp hw.1).2.1.nodup⟩, fun s hs => by rw [he.old]; simp [show s ∈ w from hs]⟩
  | changeSymbol | change | align => exact hm.elim

/-- The handler can do what the message says. A paste comes without a terminator. The symbols to
erase are there, or all are gone from the first on that comes before whatever is left. -/
def AsMeant (c : CRDT) : Message → Prop
  | .paste symbols => ∀ s ∈ symbols, s.value ≠ QChar.null
  | .erase symbols => ∃ found rest, symbols = found ++ rest ∧
      (∀ s ∈ found, s ∈ c.symbols.flatten) ∧
      (∀ s ∈ rest, ∀ y ∈ c.symbols.flatten, s.position ≠ y.position) ∧
      Stops (without c.symbols.flatten found) rest
  | _ => True

/-- **A received edit**, where the handler can do what it says. -/
theorem onReceived_applies (h : ValidDocument c.symbols)
    (ht : c.symbols.flatten.getLast? = some t) (hm : EditMessage t m)
    (hnd : (m.inserted.map Symbol.position).Nodup)
    (hfresh : ∀ s ∈ m.inserted, ∀ y ∈ c.symbols.flatten, s.position ≠ y.position)
    (hc : AsMeant c m) :
    ∃ c' signals, c.onReceived m = .ok (c', signals) ∧ Applies c m c' := by
  have hvalid : ∀ {ls'}, WellFormed ls' →
      (∀ y, y ∈ ls'.flatten ↔ (y ∈ m.inserted ∨ y ∈ c.symbols.flatten) ∧
        ∀ s ∈ m.erased, s.position ≠ y.position) → ValidDocument ls' := by
    refine fun hwf hmem => ⟨hwf, fun y hy => ?_⟩
    rcases ((hmem y).mp hy).1 with hy | hy
    · exact (hm.inserted y hy).1
    · exact h.positions y hy
  cases m with
  | insert s =>
    obtain ⟨ls', g, u, v, hok, hins⟩ := handle_insert h.toWellFormed ht
      (hfresh s (by simp [Message.inserted])) (hm.inserted s (by simp [Message.inserted])).2
    have hmem : ∀ y, y ∈ ls'.flatten ↔ (y ∈ (Message.insert s).inserted ∨ y ∈ c.symbols.flatten) ∧
        ∀ s ∈ (Message.insert s).erased, s.position ≠ y.position := fun y => by
      simp [hins.mem, Message.inserted, Message.erased]
    exact ⟨_, g, hok, hvalid (hins.wellFormed h.toWellFormed) hmem, hins.getLast?, hmem⟩
  | paste ss =>
    obtain ⟨ls1, ls', g, ps, hok, hins, -, hself⟩ := handle_paste h.toWellFormed ht hnd hfresh
      fun s hs => (hm.inserted s hs).2
    obtain rfl := hself hc
    have hmem : ∀ y, y ∈ ls'.flatten ↔ (y ∈ (Message.paste ss).inserted ∨ y ∈ c.symbols.flatten) ∧
        ∀ s ∈ (Message.paste ss).erased, s.position ≠ y.position := fun y => by
      simp [hins.mem, Message.inserted, Message.erased]
    exact ⟨_, g, hok, hvalid (hins.wellFormed h.toWellFormed) hmem, hins.getLast?, hmem⟩
  | erase ss =>
    obtain ⟨found, rest, rfl, hfound, hrest, hstop⟩ := hc
    have hnd' : (found.map Symbol.position).Nodup :=
      hm.nodup.sublist (by simp [Message.erased])
    obtain ⟨ls', ps, hok, hers⟩ := handle_erase h.toWellFormed ht found rest hnd'
      (fun s hs => ⟨s, hfound s hs, rfl⟩) (fun s hs => hm.erased s (by simp [Message.erased, hs]))
      hstop
    have hmem : ∀ y, y ∈ ls'.flatten ↔
        (y ∈ (Message.erase (found ++ rest)).inserted ∨ y ∈ c.symbols.flatten) ∧
        ∀ s ∈ (Message.erase (found ++ rest)).erased, s.position ≠ y.position := fun y => by
      rw [hers.mem h.toWellFormed]
      simp only [Message.inserted, Message.erased, List.not_mem_nil, false_or,
        List.forall_mem_append]
      exact and_congr_right fun hy => (and_iff_left fun s hs => hrest s hs y hy).symm
    exact ⟨_, _, hok, hvalid (hers.wellFormed h.toWellFormed) hmem, hers.getLast?, hmem⟩
  | changeSymbol | change | align => exact hm.edit.elim

end Effect

/-! ## What is inserted and not erased -/

/-- The document the clients opened and what the messages inserted. -/
abbrev Born (xs : List Symbol) : List Message → Symbol → Prop :=
  Known (· ∈ xs) fun m y => y ∈ m.inserted

abbrev FreshIn (xs : List Symbol) : List Message → Message → Prop :=
  Fresh (xs.map Symbol.position) fun m => m.inserted.map Symbol.position

/-- What is left of it. -/
def Holds (xs : List Symbol) (ms : List Message) (y : Symbol) : Prop :=
  Born xs ms y ∧ ∀ m ∈ ms, ∀ s ∈ m.erased, s.position ≠ y.position

section Holds

variable {xs : List Symbol} {ms ns : List Message} {m : Message} {y : Symbol}

theorem Holds.congr (h : ∀ m, m ∈ ms ↔ m ∈ ns) : Holds xs ms y ↔ Holds xs ns y := by
  simp only [Holds, Known, h]

theorem holds_nil : Holds xs [] y ↔ y ∈ xs := by
  simp [Holds, Known]

theorem ne_of_fresh (hf : FreshIn xs ms m) (hy : Born xs ms y) {s : Symbol}
    (hs : s ∈ m.inserted) : y.position ≠ s.position := by
  intro he
  rcases hy with hy | ⟨n, hn, hy⟩
  · exact hf.start _ (List.mem_map_of_mem hs) (he ▸ List.mem_map_of_mem hy)
  · exact hf.other _ (List.mem_map_of_mem hs) n hn (he ▸ List.mem_map_of_mem hy)

/-- **One more message**, whose symbols are new to those who know what they erased. -/
theorem holds_concat (hf : FreshIn xs ms m) (hk : ∀ n ∈ ms, ∀ s ∈ n.erased, Born xs ms s) :
    Holds xs (ms ++ [m]) y ↔
      (y ∈ m.inserted ∨ Holds xs ms y) ∧ ∀ s ∈ m.erased, s.position ≠ y.position := by
  have hnew : y ∈ m.inserted → ∀ n ∈ ms, ∀ s ∈ n.erased, s.position ≠ y.position :=
    fun hy n hn s hs => ne_of_fresh hf (hk n hn s hs) hy
  have hborn : Born xs (ms ++ [m]) y ↔ y ∈ m.inserted ∨ Born xs ms y := by
    simp only [Known, List.mem_append, List.mem_singleton, or_and_right, exists_or, exists_eq_left]
    rw [← or_assoc, or_comm]
  rw [Holds, hborn, List.forall_mem_append, List.forall_mem_singleton, Holds]
  tauto

end Holds

/-! ## Runs -/

/-- No position is generated twice. -/
def NeverTwice {ι : Type} (xs : List Symbol) (w : Clients ι) (_ : ι) (m : Message) : Prop :=
  ∀ s ∈ m.inserted, s.position ∉ xs.map Symbol.position ∧
    ∀ k, ∀ n ∈ w.sent k, s.position ∉ n.inserted.map Symbol.position

/-- What holds throughout a run that started from the document `xs`, which ends with `t`. -/
structure Converging {ι : Type} (xs : List Symbol) (t : Symbol) (w : Clients ι) : Prop where
  document : ∀ i, DocumentUpTo t (w.client i)
  client : ∀ i y, y ∈ (w.client i).symbols.flatten ↔ Holds xs (w.sent i ++ w.received i) y
  server : w.server.Contains (Holds xs (w.order.map Prod.snd))
  carries : Carries (EditMessage t) w
  causal : Causal (· ∈ xs) (fun m y => y ∈ m.inserted) (fun m y => y ∈ m.erased) w
  distinct : Distinct (xs.map Symbol.position) (fun m => m.inserted.map Symbol.position) w

section Run

variable {ι : Type} [DecidableEq ι] {xs : List Symbol} {t : Symbol} {w w' : Clients ι}

theorem Converging.step (h : Converging xs t w) (hf : Fifo w)
    (hs : Step (network LocalOp.IsEdit (NeverTwice xs) AsMeant) w w') : Converging xs t w' := by
  -- what a client sends, in view of its document
  have heffect : ∀ i m c', Edits (w.client i) m c' → Applies (w.client i) m c' ∧
      EditMessage t m ∧ (∀ s ∈ m.erased, Born xs (w.sent i ++ w.received i) s) ∧
      (m.inserted.map Symbol.position).Nodup := by
    intro i m c' he
    have hm := (he.facts fun l hl y hy =>
      ((h.document i).valid.positions y (List.mem_flatten.mpr ⟨l, hl, hy⟩)).digits).2.2.1
    obtain ⟨op, -, hl, hp⟩ := he
    have e := perform_effect (h.document i).valid hl hp
    obtain ⟨hmsg, hers⟩ := editMessage_of_effect e (h.document i).valid (h.document i).last hm
    exact ⟨applies_of_effect e (h.document i).valid hm, hmsg,
      fun s hs => ((h.client i s).mp (hers s hs)).1, (e.fresh (h.document i).valid).2⟩
  have hfresh : ∀ i m c', Edits (w.client i) m c' → NeverTwice xs w i m →
      ∀ k, FreshIn xs (w.sent k) m := by
    intro i m c' he hmay k
    refine ⟨(heffect i m c' he).2.2.2, fun p hp => ?_, fun p hp n hn => ?_⟩
    all_goals obtain ⟨s, hs, rfl⟩ := List.mem_map.mp hp
    · exact (hmay s hs).1
    · exact (hmay s hs).2 k n hn
  have hcarries := h.carries.step (fun i m c' he _ => (heffect i m c' he).2.1) hs
  have hcausal := h.causal.step hf (fun i m c' he x hx => (heffect i m c' he).2.2.1 x hx) hs
  have hdistinct := h.distinct.step hf hfresh hs
  cases hs with
  | @perform i m c' he hmay =>
    obtain ⟨ha, -, -, -⟩ := heffect i m c' he
    refine ⟨(Function.forall_update_iff _ fun _ => DocumentUpTo t).mpr
      ⟨⟨ha.valid, ha.last.trans (h.document i).last⟩, fun j _ => h.document j⟩, fun j y => ?_,
      h.server, hcarries, hcausal, hdistinct⟩
    by_cases hj : j = i
    · subst hj
      have hall : FreshIn xs (w.sent j ++ w.received j) m := by
        have hfr := hfresh j m c' he hmay
        refine ⟨(hfr j).nodup, (hfr j).start, fun p hp n hn => ?_⟩
        rcases List.mem_append.mp hn with hn | hn
        · exact (hfr j).other p hp n hn
        · obtain ⟨k, hk⟩ := hf.exists_sender_of_received hn
          exact (hfr k).other p hp n hk
      have hc := holds_concat (y := y) hall (h.causal.client j)
      rw [← h.client j y, ← ha.mem y] at hc
      simp only [Function.update_self]
      rw [← hc]
      refine Holds.congr ?_
      intro n
      simp only [List.mem_append, List.mem_singleton]
      tauto
    · simpa [hj] using h.client j y
  | @process i m rest hu =>
    refine ⟨h.document, h.client, ?_, hcarries, hcausal, hdistinct⟩
    have hm := h.carries.up i m (by simp [hu])
    have hfr := h.distinct.processed hu
    have hstore := h.server.store hm.edit hfr.nodup fun s hs r hr =>
      ne_of_fresh hfr hr.1 hs
    refine hstore.congr ?_
    intro y
    rw [List.map_append, List.map_singleton]
    exact (holds_concat hfr fun n hn s hs => h.causal.of_mem hn hs).symm
  | @deliver i m rest c' hd hr =>
    obtain ⟨hclean, signals, hr⟩ := hr
    have hm := h.carries.down i m (by simp [hd])
    have hfr := h.distinct.delivered hf hd
    obtain ⟨c1, g, hok, ha⟩ := onReceived_applies (h.document i).valid (h.document i).last hm
      hfr.nodup (fun s hs y hy => (ne_of_fresh hfr ((h.client i y).mp hy).1 hs).symm) hclean
    obtain ⟨rfl, -⟩ := Prod.mk.inj (Except.ok.inj (hok.symm.trans hr))
    refine ⟨(Function.forall_update_iff _ fun _ => DocumentUpTo t).mpr
      ⟨⟨ha.valid, ha.last.trans (h.document i).last⟩, fun j _ => h.document j⟩, fun j y => ?_,
      h.server, hcarries, hcausal, hdistinct⟩
    by_cases hj : j = i
    · subst hj
      have hc := holds_concat (y := y) hfr (h.causal.client j)
      rw [← h.client j y, ← ha.mem y] at hc
      simp only [Function.update_self]
      rw [← List.append_assoc]
      exact hc.symm
    · simpa [hj] using h.client j y

/-- Some client opened or inserted the symbol, and none erased it. -/
def Survives (xs : List Symbol) (w : Clients ι) (y : Symbol) : Prop :=
  (y ∈ xs ∨ ∃ i, ∃ m ∈ w.sent i, y ∈ m.inserted) ∧ ∀ i, ∀ m ∈ w.sent i, y ∉ m.erased

theorem Converging.survives_iff (h : Converging xs t w) (hf : Fifo w) (hq : w.Quiet) {y : Symbol} :
    Holds xs (w.order.map Prod.snd) y ↔ Survives xs w y := by
  have hsent : ∀ m, m ∈ w.order.map Prod.snd ↔ ∃ i, m ∈ w.sent i := fun m =>
    ⟨hf.exists_sender, fun ⟨i, hm⟩ => (hf.quiet hq i).mem_iff.mp (List.mem_append.mpr (.inl hm))⟩
  have hborn : Born xs (w.order.map Prod.snd) y ↔ y ∈ xs ∨ ∃ i, ∃ m ∈ w.sent i, y ∈ m.inserted := by
    simp only [Known, hsent]
    refine or_congr_right ⟨?_, ?_⟩
    · intro hex
      obtain ⟨m, ⟨i, hm⟩, hy⟩ := hex
      exact ⟨i, m, hm, hy⟩
    · intro hex
      obtain ⟨i, m, hm, hy⟩ := hex
      exact ⟨m, ⟨i, hm⟩, hy⟩
  rw [Holds, Survives, ← hborn]
  refine and_congr_right fun hy => ⟨fun he i m hm hs => ?_, fun he m hm s hs hp => ?_⟩
  · exact he m ((hsent m).mpr ⟨i, hm⟩) y hs rfl
  · -- a position names one of the symbols that were ever there
    obtain ⟨i, hi⟩ := (hsent m).mp hm
    have hnd := h.distinct.nodup i
    rw [(hq i).1, List.append_nil, ← List.map_flatMap, ← List.map_append] at hnd
    have hmem : ∀ {x}, Born xs (w.order.map Prod.snd) x →
        x ∈ xs ++ (w.order.map Prod.snd).flatMap Message.inserted := by
      intro x hor
      rcases hor with hx | ⟨n, hn, hx⟩
      · exact List.mem_append.mpr (.inl hx)
      · exact List.mem_append.mpr (.inr (List.mem_flatMap.mpr ⟨n, hn, hx⟩))
    have hsy : s = y := List.inj_on_of_nodup_map hnd (hmem (h.causal.of_mem hm hs)) (hmem hy) hp
    exact he i m hi (hsy ▸ hs)

/-- **Contents converge** in runs whose deliveries can do what they say: once no message is on its
way, every client and the server hold exactly the symbols that were inserted and not erased. -/
theorem contents_converge {ls : Lines} {state : ι → CRDT} (hd : ValidDocument ls)
    (h0 : ∀ i, (state i).symbols = ls)
    (h : Reachable (network LocalOp.IsEdit (NeverTwice ls.flatten) AsMeant)
      (.init state (SymbolMap.storeSymbolsServerMemory ls.flatten)) w) (hq : w.Quiet) :
    (∀ i, Ordered (w.client i).symbols.flatten ∧
      ∀ y, y ∈ (w.client i).symbols.flatten ↔ Survives ls.flatten w y) ∧
    ∀ k y, w.server[k]? = some y ↔ k = y.positionString ∧ Survives ls.flatten w y := by
  obtain ⟨xs, t, hxs, -⟩ := hd.terminated
  have hinit : Converging ls.flatten t
      (.init state (SymbolMap.storeSymbolsServerMemory ls.flatten)) := by
    refine ⟨fun i => ⟨h0 i ▸ hd, ?_⟩, fun i y => ?_, ?_,
      ⟨by simp [World.init], by simp [World.init]⟩,
      .init _ _, .init _ _ hd.ordered.nodup⟩
    · simp [World.init, h0 i, hxs]
    · simp [World.init, h0 i, holds_nil]
    · exact (SymbolMap.contains_storeSymbols hd.ordered.nodup).congr fun y => holds_nil.symm
  obtain ⟨hf, hc⟩ := h.invariant hinit fun w w' hf hw hs => hw.step hf hs
  refine ⟨fun i => ⟨(hc.document i).valid.ordered, fun y => ?_⟩, fun k y => ?_⟩
  · rw [hc.client i y, Holds.congr fun m => (hf.quiet hq i).mem_iff, hc.survives_iff hf hq]
  · rw [hc.server k y, hc.survives_iff hf hq]

end Run

/-- Whether the handler can do what the message says can be told. -/
def asMeantCheck (c : CRDT) : Message → Bool
  | .paste symbols => symbols.all (·.value ≠ QChar.null)
  | .erase symbols =>
    let found := symbols.takeWhile fun s => c.symbols.flatten.any (· = s)
    let rest := symbols.dropWhile fun s => c.symbols.flatten.any (· = s)
    (rest.all fun s => c.symbols.flatten.all fun y => s.position ≠ y.position) &&
      Stops (without c.symbols.flatten found) rest
  | _ => true

theorem asMeant_of_check {c : CRDT} {m : Message} (h : asMeantCheck c m = true) : AsMeant c m := by
  cases m with
  | paste symbols => simpa [asMeantCheck, AsMeant] using h
  | erase symbols =>
    simp only [asMeantCheck, Bool.and_eq_true, decide_eq_true_eq] at h
    obtain ⟨habsent, hstops⟩ := h
    refine ⟨_, _, (List.takeWhile_append_dropWhile ..).symm, fun s hs => ?_, fun s hs y hy => ?_,
      hstops⟩
    · simpa using List.mem_takeWhile_imp hs
    · exact of_decide_eq_true (List.all_eq_true.mp (List.all_eq_true.mp habsent s hs) y hy)
  | insert | change | changeSymbol | align => trivial

/-- Whether an edit of one of two clients uses no position again can be told. -/
def neverTwiceCheck (xs : List Symbol) (w : Clients Bool) (_ : Bool) (op : LocalOp)
    (m : Message) : Bool :=
  op.IsEdit && m.inserted.all fun s => (xs.all fun y => s.position ≠ y.position) &&
    [false, true].all fun k => (w.sent k).all fun n =>
      n.inserted.all fun y => s.position ≠ y.position

theorem neverTwice_of_check {xs : List Symbol} {w : Clients Bool} {i : Bool} {op : LocalOp}
    {m : Message} (h : neverTwiceCheck xs w i op m = true) :
    op.IsEdit ∧ NeverTwice xs w i m := by
  simp only [neverTwiceCheck, Bool.and_eq_true, decide_eq_true_eq, List.all_eq_true] at h
  obtain ⟨hedit, h⟩ := h
  refine ⟨hedit, fun s hs => ⟨fun hin => ?_, fun k n hn hin => ?_⟩⟩
  · obtain ⟨y, hy, he⟩ := List.mem_map.mp hin
    exact (h s hs).1 y hy he.symm
  · obtain ⟨y, hy, he⟩ := List.mem_map.mp hin
    exact (h s hs).2 k (by cases k <;> simp) n hn y hy he.symm

/-- A letter is typed and a text pasted behind it; then both clients erase the letter. -/
def editTurns : List Turn :=
  [.perform false (.insert 0 0 (QChar.of 'a') default default Qt.AlignLeft
      ⟨⟨true, 0⟩, .alignLeft⟩), .process false, .deliver true,
    .perform true (.insertGroup 0 1 [QChar.of 'x', QChar.newline] default default Qt.AlignLeft
      fun _ => ⟨⟨true, 0⟩, .alignLeft⟩), .perform true (.erase 0 0 1),
    .perform false (.erase 0 0 1), .process true, .process false, .process true,
    .deliver false, .deliver true, .deliver false]

theorem contents_converge_edited : ∃ w : Clients Bool,
    (∀ i, (w.client i).symbols.map (List.map Symbol.value) =
      [[QChar.of 'x', QChar.newline], [QChar.null]]) ∧
    (∀ i, Ordered (w.client i).symbols.flatten ∧ ∀ y, y ∈ (w.client i).symbols.flatten ↔
      Survives [plain QChar.null [⟨5, 1⟩]] w y) ∧
    ∀ k y, w.server[k]? = some y ↔
      k = y.positionString ∧ Survives [plain QChar.null [⟨5, 1⟩]] w y := by
  obtain ⟨w, hw, hP⟩ := exists_reachable
    (neverTwiceCheck [plain QChar.null [⟨5, 1⟩]]) asMeantCheck
    (w := .init newFile (SymbolMap.storeSymbolsServerMemory [plain QChar.null [⟨5, 1⟩]]))
    (fun _ _ _ _ => neverTwice_of_check) (fun _ _ => asMeant_of_check) editTurns
    (P := fun w => quietCheck w && [false, true].all fun i =>
      (w.client i).symbols.map (List.map Symbol.value) =
        [[QChar.of 'x', QChar.newline], [QChar.null]])
    (by decide +kernel)
  obtain ⟨hquiet, htexts⟩ := Bool.and_eq_true_iff.mp hP
  refine ⟨w, fun i => ?_, contents_converge newFile_opened.valid newFile_opened.symbols hw
    (quiet_of_check hquiet)⟩
  exact of_decide_eq_true (List.all_eq_true.mp htexts i (by cases i <;> simp))

/-- Two clients erase the same letter of a document of two. Each then takes the other one with
it, which nobody erased and which the server keeps. -/
theorem contents_diverge : ∃ (ls : Lines) (state : Bool → CRDT) (w : Clients Bool),
    ValidDocument ls ∧ (∀ i, (state i).symbols = ls) ∧
    Reachable (network LocalOp.IsEdit (NeverTwice ls.flatten) fun _ _ => True)
      (.init state (SymbolMap.storeSymbolsServerMemory ls.flatten)) w ∧ w.Quiet ∧
    ∃ y, Survives ls.flatten w y ∧ ∀ i, y ∉ (w.client i).symbols.flatten := by
  let a := plain (QChar.of 'a') [⟨1, 1⟩]
  let b := plain (QChar.of 'b') [⟨2, 1⟩]
  let t := plain QChar.null [⟨5, 1⟩]
  let state : Bool → CRDT := fun i => .opened (if i then 2 else 1) [[a, b, t]]
  let N : Network Bool := network LocalOp.IsEdit (NeverTwice [a, b, t]) fun _ _ => True
  have herase : ∀ i, N.perform (state i) (.erase [b])
      { state i with symbols := [[a, t]], size := 1 } :=
    fun i => ⟨.erase 0 1 1, trivial, ⟨⟨_, rfl, by decide⟩, by cases i <;> decide⟩, by
      cases i <;> decide +kernel⟩
  have hreceived : ∀ i, N.deliver { state i with symbols := [[a, t]], size := 1 } (.erase [b])
      { state i with symbols := [[t]], size := 0 } :=
    fun i => ⟨trivial, [.erase (some (0, 0)) 1], by cases i <;> decide +kernel⟩
  have hmay : ∀ w i, N.may w i (.erase [b]) := by simp [N, network, NeverTwice, Message.inserted]
  have h1 : Reachable N (.init state (SymbolMap.storeSymbolsServerMemory [a, b, t])) _ :=
    Relation.ReflTransGen.single (.perform false (herase false) (hmay _ _))
  have h2 := h1.tail (.perform true (herase true) (hmay _ _))
  have h3 := (h2.tail (.process false rfl)).tail (.process true rfl)
  have h4 := (h3.tail (.deliver false rfl (hreceived false))).tail
    (.deliver true rfl (hreceived true))
  refine ⟨[[a, b, t]], state, _, ?_, fun _ => rfl, h4, ?_, a, ⟨.inl (by decide), by decide⟩,
    by decide⟩
  · refine ⟨⟨⟨.last ⟨by decide, by decide⟩, by unfold Ordered; decide⟩, [a, b], t, rfl, rfl⟩, ?_⟩
    have hp : ∀ d : Int, 1 ≤ d → d < BASE → ValidPosition [⟨d, 1⟩] :=
      fun _ h => validPosition_single h
    intro s hs
    rcases List.mem_cons.mp hs with rfl | hs
    · exact hp 1 (by decide) (by decide)
    rcases List.mem_cons.mp hs with rfl | hs
    · exact hp 2 (by decide) (by decide)
    · exact List.mem_singleton.mp hs ▸ hp 5 (by decide) (by decide)
  · intro i
    cases i <;> exact ⟨rfl, rfl⟩

end Scriba.System
