import Scriba.Client.TextView
import Scriba.System.Validity

/-! # The text view follows the replica

Clients with the text their editors show. A pasted or erased group reaches the editor as one
block at the place of its first symbol, and an erasure that stops early does not reach it at
all. The text follows as long as no client receives a group that is split where it arrives
(`Mirrored`). -/

namespace Scriba.System

open Scriba.Utility Scriba.Client Scriba.Server Scriba.Lib.Lines Scriba.Lib.Relay

/-- Clients perform operations on what their editors show, and have the signals of the handlers
change it. -/
def screens {ι : Type} (clean : CRDT → Message → Prop) : Net ι SymbolMap Screen Message where
  perform a m a' := ∃ op : LocalOp, op.Legal a.crdt.symbols ∧
    op.perform a.crdt = .ok (a'.crdt, m) ∧ a'.text = op.edit a.text
  process := SymbolMap.store
  deliver a m a' := clean a.crdt m ∧ ∃ signals, a.crdt.onReceived m = .ok (a'.crdt, signals) ∧
    a'.text = signals.foldl onSignal a.text
  may _ _ _ := True

/-- What the message names is in one piece where it arrives. -/
def Mirrored (c : CRDT) : Message → Prop
  | .insert s => s.value ≠ QChar.null ∧ ∀ y ∈ c.symbols.flatten, s.position ≠ y.position
  | .paste symbols => (∀ s ∈ symbols, s.value ≠ QChar.null) ∧
      (∀ s ∈ symbols, ∀ y ∈ c.symbols.flatten, s.position ≠ y.position) ∧
      ∀ y ∈ c.symbols.flatten, ∀ a ∈ symbols, ∀ b ∈ symbols, a.position < y.position →
        ¬ y.position < b.position
  | .erase symbols => Stops c.symbols.flatten symbols ∨
      ∃ u w v, c.symbols.flatten = u ++ w ++ v ∧ symbols.map letter = w.map letter
  | m => Located c m

theorem Mirrored.located {c : CRDT} {m : Message} (h : Mirrored c m) : Located c m := by
  cases m with
  | insert s => exact h.2
  | paste ss => exact h.2.1
  | erase ss =>
    rcases h with h | ⟨u, w, v, hf, hw⟩
    · exact ⟨[], ss, rfl, by simp, by rwa [without_nil]⟩
    · refine ⟨ss, [], by simp, fun s hs => ?_, by simp [Stops]⟩
      obtain ⟨x, hx, he⟩ := List.mem_map.mp (hw ▸ List.mem_map_of_mem hs)
      exact ⟨x, by rw [hf]; simp [hx], he.symm⟩
  | changeSymbol s | change ss | align s => exact h

/-- The editor shows the values of the symbols, without the terminator. -/
structure InStep (p : Position) (a : Screen) : Prop where
  intact : Intact p a.crdt
  text : a.text = shown a.crdt.symbols.flatten

/-- A message as it is sent: what it inserts is in order. -/
structure InOrder (p : Position) (m : Message) : Prop where
  regular : Regular p m
  ordered : Ordered m.inserted

section Step

variable {p : Position} {a a' : Screen} {m : Message}

theorem InStep.perform (h : InStep p a) {op : LocalOp} (hl : op.Legal a.crdt.symbols)
    (hp : op.perform a.crdt = .ok (a'.crdt, m)) (ht : a'.text = op.edit a.text) :
    InStep p a' ∧ InOrder p m := by
  have hv := h.intact.valid
  have e := perform_effect hv hl hp
  obtain ⟨hi, hm⟩ := h.intact.perform e
  refine ⟨⟨hi, by rw [ht, h.text, e.edit hv]⟩, hm, ?_⟩
  cases e with
  | insert => exact List.pairwise_singleton _ _
  | paste hf hg _ =>
    have hfacts := hg.facts hv hf
    have ho := hfacts.valid.ordered
    rw [hfacts.new] at ho
    exact (Ordered.append.mp (Ordered.append.mp ho).1).2.1
  | erase | changeSymbol | change | align => exact List.Pairwise.nil

/-- **One message.** -/
theorem InStep.follows (h : InStep p a) (hm : InOrder p m) (hc : Mirrored a.crdt m) {c' : CRDT}
    {signals : List Signal} (hr : a.crdt.onReceived m = .ok (c', signals)) :
    signals.foldl onSignal a.text = shown c'.symbols.flatten := by
  have hwf := h.intact.valid.toWellFormed
  obtain ⟨t, ht, rfl⟩ := h.intact.exists_last
  have hfollows : Follows a.crdt m → a.crdt.onReceived m = a.crdt.handle m →
      signals.foldl onSignal a.text = shown c'.symbols.flatten := by
    rintro ⟨c1, g, hok, htext⟩ he
    obtain ⟨rfl, rfl⟩ := Prod.mk.inj (Except.ok.inj (hok.symm.trans (he.symm.trans hr)))
    rw [h.text, htext]
  cases m with
  | insert s =>
    exact hfollows (follows_insert hwf ht hc.2
      (hm.regular.inserted s (by simp [Message.inserted])).2 hc.1) rfl
  | paste ss =>
    exact hfollows (follows_paste hwf ht hm.ordered hc.2.1
      (fun s hs => (hm.regular.inserted s hs).2) hc.1 hc.2.2) rfl
  | erase ss =>
    rcases hc with hstop | ⟨u, w, v, hf, hw⟩
    · exact hfollows (follows_stopped hwf hstop) rfl
    · exact hfollows (follows_erase hwf ht hf hw hm.regular.erased) rfl
  | changeSymbol s =>
    obtain ⟨rfl, rfl⟩ := Prod.mk.inj (Except.ok.inj hr)
    exact h.text
  | change ss => exact hfollows (follows_change hwf hc) rfl
  | align s => exact hfollows (follows_align hwf s) rfl

end Step

/-- Editors that have opened a document. -/
structure Shows (ls : Lines) (a : Screen) : Prop where
  symbols : a.crdt.symbols = ls
  size : a.crdt.size = ls.flatten.length - 1
  text : a.text = shown ls.flatten

/-- **The text follows**, in every run whose deliveries find what they name in one piece. -/
theorem texts_follow {ι : Type} [DecidableEq ι] {ls : Lines} {state : ι → Screen}
    {server : SymbolMap} {w : World ι SymbolMap Screen Message} (hd : ValidDocument ls)
    (h0 : ∀ i, Shows ls (state i)) (h : Reachable (screens Mirrored) (.init state server) w)
    (i : ι) :
    (w.client i).text = shown (w.client i).crdt.symbols.flatten := by
  obtain ⟨xs, t, hxs, -⟩ := hd.terminated
  have hinit : Local (fun _ => InStep t.position) (InOrder t.position)
      (.init state server : World ι SymbolMap Screen Message) := by
    refine ⟨⟨by simp [World.init], by simp [World.init]⟩, fun i => ?_⟩
    obtain ⟨hs, hsize, htext⟩ := h0 i
    refine ⟨⟨hs ▸ hd, ?_, ?_⟩, by rw [World.init, htext, hs]⟩
    · simp [World.init, hs, hxs]
    · simp only [World.init, CRDT.uncounted, hs, hsize]
      omega
  obtain ⟨-, hw⟩ := h.invariant hinit fun w w' _ hw hs => by
    refine hw.step ?_ ?_ hs
    · rintro _ a m a' ha ⟨op, hl, hop, ht⟩ -
      exact ha.perform hl hop ht
    · intro _ a m a' ha hm hex
      obtain ⟨hc, g, hr, ht⟩ := hex
      obtain ⟨c1, g1, hok, h1⟩ := ha.intact.onReceived hm.regular hc.located
      obtain ⟨rfl, -⟩ := Prod.mk.inj (Except.ok.inj (hok.symm.trans hr))
      exact ⟨h1, ht.trans (ha.follows hm hc hr)⟩
  exact (hw.client i).text

/-- The editors of two sites on a new file. -/
def newScreen (i : Bool) : Screen := ⟨newFile i, []⟩

theorem newScreen_shows (i : Bool) : Shows [[plain QChar.null [⟨5, 1⟩]]] (newScreen i) :=
  ⟨rfl, rfl, rfl⟩

/-- What site 1 pastes there. -/
def pastedGroup : List Symbol :=
  [⟨QChar.of 'a', [⟨1, 1⟩], 1, default⟩, ⟨QChar.of 'b', [⟨2, 1⟩], 2, default⟩]

theorem newScreen_pasted (clean : CRDT → Message → Prop) :
    (screens (ι := Bool) clean).perform (newScreen false) (.paste pastedGroup)
      ⟨⟨1, [pastedGroup ++ [plain QChar.null [⟨5, 1⟩]]], 2, [(0, true)], 2⟩,
        [QChar.of 'a', QChar.of 'b']⟩ :=
  ⟨.insertGroup 0 0 [QChar.of 'a', QChar.of 'b'] default default Qt.AlignLeft fun _ =>
    ⟨⟨true, 0⟩, .alignLeft⟩, ⟨by decide, by decide, _, rfl, by decide⟩, by decide +kernel,
    by decide⟩

/-- Site 2 receives it on the new file. -/
theorem texts_follow_pasted : ∃ w : World Bool SymbolMap Screen Message,
    (w.client true).text = [QChar.of 'a', QChar.of 'b'] ∧
      (w.client true).text = shown (w.client true).crdt.symbols.flatten := by
  have hreceived : (screens (ι := Bool) Mirrored).deliver (newScreen true) (.paste pastedGroup)
      ⟨⟨2, [pastedGroup ++ [plain QChar.null [⟨5, 1⟩]]], 0, [], 2⟩,
        [QChar.of 'a', QChar.of 'b']⟩ :=
    ⟨by unfold Mirrored; decide, [.insertGroup (some (0, 0)) [QChar.of 'a', QChar.of 'b']
      (some default)], by decide +kernel, by decide⟩
  have h1 : Reachable (screens Mirrored) (.init newScreen ∅) _ :=
    Relation.ReflTransGen.single (.perform false (newScreen_pasted Mirrored) trivial)
  have h2 := (h1.tail (.process false rfl)).tail (.deliver true rfl hreceived)
  exact ⟨_, rfl, texts_follow newFile_opened.valid newScreen_shows h2 true⟩

/-- Site 2 has typed a letter that goes between the two. Its text gets them as one block. -/
theorem text_parts : ∃ w : World Bool SymbolMap Screen Message,
    Reachable (screens fun _ _ => True) (.init newScreen ∅) w ∧
      (w.client true).text ≠ shown (w.client true).crdt.symbols.flatten := by
  let x : Symbol := ⟨QChar.of 'x', [⟨1, 2⟩], 1, default⟩
  let t := plain QChar.null [⟨5, 1⟩]
  let N : Net Bool SymbolMap Screen Message := screens fun _ _ => True
  have htyped : N.perform (newScreen true) (.insert x)
      ⟨⟨2, [[x, t]], 1, [(0, true)], 1⟩, [QChar.of 'x']⟩ :=
    ⟨.insert 0 0 (QChar.of 'x') default default Qt.AlignLeft ⟨⟨true, 0⟩, .alignLeft⟩,
      ⟨by decide, by decide, _, rfl, by decide⟩, by decide +kernel, by decide⟩
  have hreceived : N.deliver ⟨⟨2, [[x, t]], 1, [(0, true)], 1⟩, [QChar.of 'x']⟩ (.paste pastedGroup)
      ⟨⟨2, [[⟨QChar.of 'a', [⟨1, 1⟩], 1, default⟩, x, ⟨QChar.of 'b', [⟨2, 1⟩], 2, default⟩, t]], 1,
        [(0, true)], 3⟩, [QChar.of 'a', QChar.of 'b', QChar.of 'x']⟩ :=
    ⟨trivial, [.insertGroup (some (0, 0)) [QChar.of 'a', QChar.of 'b'] (some default)],
      by decide +kernel, by decide⟩
  have h1 : Reachable N (.init newScreen ∅) _ :=
    Relation.ReflTransGen.single (.perform false (newScreen_pasted _) trivial)
  have h2 := (h1.tail (.perform true htyped trivial)).tail (.process false rfl)
  exact ⟨_, h2.tail (.deliver true rfl hreceived), by decide⟩

end Scriba.System
