import Scriba.Client.RemoteCursors
import Scriba.System.Screens
import Scriba.System.Wire

/-! # Cursors keep their places

Clients that show where the others are. A client sends the symbol at its own cursor; the server
forwards it, and each of the others puts the cursor of that user before the symbol, if it has it.
The cursor stays there through whatever the user and the others write and erase, for as long as the
symbol is in the document and no other report comes. -/

namespace Scriba.System

open Scriba.Utility Scriba.Client Scriba.Server Scriba.Lib Scriba.Lib.Lines Scriba.Lib.Relay

/-- A client. The last member is the history: the position of the symbol that was last reported of a
user, from when it was found here until it is erased. -/
structure Viewer where
  crdt : CRDT
  textEdit : MyQTextEdit
  highlighter : Highlighter
  reported : Std.TreeMap Int Position

namespace Viewer

def screen (a : Viewer) : Screen := ⟨a.crdt, a.textEdit.text⟩

/-- The document has changed. -/
def edited (a : Viewer) (crdt : CRDT) (textEdit : MyQTextEdit) : Viewer :=
  { a with
    crdt, textEdit
    reported := a.reported.filter fun _ p => crdt.symbols.flatten.any (·.position = p) }

end Viewer

/-- The text is in step, and each cursor stands before what was reported of its owner. -/
structure Stands (p : Position) (a : Viewer) : Prop where
  inStep : InStep p a.screen
  cursors : ∀ (editorId : Int) (q : Position), a.reported[editorId]? = some q →
    ∃ cursor, a.textEdit.remoteCursors[editorId]? = some cursor ∧
      Anchor.At Symbol.position a.crdt.symbols.flatten cursor.position q

section Step

variable {p : Position} {a : Viewer} {m : Message}

theorem any_position {xs : List Symbol} {q : Position} :
    xs.any (·.position = q) = true ↔ ∃ x ∈ xs, x.position = q := by
  simp

/-- **An edit**, if it moves the cursors as it moves the symbols. -/
theorem Stands.edited (h : Stands p a) {crdt : CRDT} {textEdit : MyQTextEdit}
    (hs : InStep p ⟨crdt, textEdit.text⟩)
    (hm : Moves a.crdt.symbols.flatten crdt.symbols.flatten a.textEdit textEdit) :
    Stands p (a.edited crdt textEdit) := by
  refine ⟨hs, fun editorId q hq => ?_⟩
  rw [Viewer.edited, Std.TreeMap.getElem?_filter', Option.filter_eq_some_iff, any_position] at hq
  obtain ⟨hq, hthere⟩ := hq
  obtain ⟨cursor, hc, hat⟩ := h.cursors editorId q hq
  obtain ⟨move, hedit, hmoved⟩ := hm
  refine ⟨cursor.moveTo (move cursor.position), ?_, ?_⟩
  · exact (hmoved editorId).trans (by rw [hc, Option.map_some])
  · exact hedit.at h.inStep.intact.valid.toWellFormed.ordered.nodup hat hthere

/-- **An operation of the user.** -/
theorem Stands.perform (h : Stands p a) {op : LocalOp} {crdt : CRDT}
    (hl : op.Legal a.crdt.symbols) (hp : op.perform a.crdt = .ok (crdt, m)) :
    Stands p (a.edited crdt (a.textEdit.edit op)) ∧ InOrder p m := by
  have hstep : InStep p ⟨crdt, op.edit a.textEdit.text⟩ ∧ InOrder p m := h.inStep.perform hl hp rfl
  obtain ⟨hs, hm⟩ := hstep
  have hv := h.inStep.intact.valid
  exact ⟨h.edited hs ((perform_effect hv hl hp).moves hv h.inStep.text), hm⟩

/-- What an operation of the others does to the cursors. -/
theorem Stands.moves (h : Stands p a) (hm : InOrder p m) (hc : Mirrored a.crdt m) {crdt : CRDT}
    {signals : List Signal} (hr : a.crdt.onReceived m = .ok (crdt, signals)) :
    Moves a.crdt.symbols.flatten crdt.symbols.flatten a.textEdit
      (signals.foldl MyQTextEdit.onSignal a.textEdit) := by
  have hwf := h.inStep.intact.valid.toWellFormed
  have hlt := hm.regular
  obtain ⟨t, ht, rfl⟩ := h.inStep.intact.exists_last
  have hshifts : Shifts a.crdt m → a.crdt.onReceived m = a.crdt.handle m →
      Moves a.crdt.symbols.flatten crdt.symbols.flatten a.textEdit
        (signals.foldl MyQTextEdit.onSignal a.textEdit) := by
    intro hs he
    obtain ⟨c', g, hok, hmoves⟩ := hs
    obtain ⟨rfl, rfl⟩ := Prod.mk.inj (Except.ok.inj (hok.symm.trans (he.symm.trans hr)))
    exact hmoves _ h.inStep.text
  cases m with
  | insert s =>
    exact hshifts (shifts_insert hwf ht hc.2
      (hlt.inserted s (by simp [Message.inserted])).2 hc.1) rfl
  | paste ss =>
    exact hshifts (shifts_paste hwf ht hm.ordered hc.2.1 (fun s hs => (hlt.inserted s hs).2) hc.1
      hc.2.2) rfl
  | erase ss =>
    rcases hc with hstop | ⟨u, w, v, hf, hw⟩
    · exact hshifts (shifts_stopped hwf hstop) rfl
    · exact hshifts (shifts_erase hwf ht hf hw hlt.erased) rfl
  | changeSymbol s =>
    obtain ⟨rfl, rfl⟩ := Prod.mk.inj (Except.ok.inj hr)
    exact moves_nil rfl
  | change ss => exact hshifts (shifts_change hwf hc) rfl
  | align s => exact hshifts (shifts_align hwf s) rfl

/-- **An operation of the others.** -/
theorem Stands.receive (h : Stands p a) (hm : InOrder p m) (hc : Mirrored a.crdt m) {crdt : CRDT}
    {signals : List Signal} (hr : a.crdt.onReceived m = .ok (crdt, signals)) :
    Stands p (a.edited crdt (signals.foldl MyQTextEdit.onSignal a.textEdit)) := by
  obtain ⟨c', g, hok, hintact⟩ := h.inStep.intact.onReceived hm.regular hc.located
  obtain ⟨rfl, rfl⟩ := Prod.mk.inj (Except.ok.inj (hok.symm.trans hr))
  refine h.edited ⟨hintact, ?_⟩ (h.moves hm hc hr)
  rw [foldl_onSignal_text]
  exact h.inStep.follows hm hc hr

end Step

end Scriba.System
