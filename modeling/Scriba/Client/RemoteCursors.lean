import Scriba.Client.Highlighter
import Scriba.Client.TextView
import Scriba.Lib.Anchor

/-! # The cursors of the others

`remote_cursors` of `MyQTextEdit`, `RemoteCursor` and `on_remoteCursor` of `Editor`. A cursor is put
before the symbol that its owner reports. From then on Qt moves it with the text, for every edit of
the user and of the editor, whether it stands before or behind. What an edit does to the positions
of cursors is what it does to the indices of symbols (`Moves`). -/

namespace Scriba.Client

open Scriba.Utility Scriba.Lib Scriba.Lib.Lines

/-- The colour a cursor gets. -/
def Highlighter.getColor (h : Highlighter) (editorId : Int) : QColor :=
  match h.users[editorId]? with
  | some i => Colors.getColor i
  -- `QColor('white')`: as a number, the constant is its last four characters
  | none => .rgb 0x69 0x74 0x65

structure RemoteCursor where
  position : Nat
  color : QColor
deriving DecidableEq

def RemoteCursor.moveTo (c : RemoteCursor) (position : Nat) : RemoteCursor := { c with position }

structure MyQTextEdit where
  text : QString
  remoteCursors : Std.TreeMap Int RemoteCursor

/-- Where the slot of a signal takes a cursor. -/
def Signal.move (text : QString) : Signal → Nat → Nat
  | .insert line index _ => Anchor.inserted (blockPosition text line + index) 1
  | .insertGroup (some (line, index)) s _ =>
    Anchor.inserted (blockPosition text line + index) s.length
  | .erase (some (line, index)) lenght => Anchor.removed (blockPosition text line + index) lenght
  | .insertGroup none _ _ | .erase none _ | .change _ | .changeAlignment .. => id

theorem Signal.move_insertGroup (text s : QString) (place : Nat × Nat)
    (newFormat : Option SymbolFormat) : Signal.move text (.insertGroup (some place) s newFormat) =
      Anchor.inserted (blockPosition text place.1 + place.2) s.length := rfl

theorem Signal.move_erase (text : QString) (place : Nat × Nat) (lenght : Nat) :
    Signal.move text (.erase (some place) lenght) =
      Anchor.removed (blockPosition text place.1 + place.2) lenght := rfl

/-- Where the edit that a local operation follows takes it. -/
def LocalOp.move (text : QString) : LocalOp → Nat → Nat
  | .insert line index .. => Anchor.inserted (blockPosition text line.toNat + index.toNat) 1
  | .insertGroup line index s .. =>
    Anchor.inserted (blockPosition text line.toNat + index.toNat) s.length
  | .erase line index lenght => Anchor.removed (blockPosition text line + index) lenght
  | _ => id

namespace MyQTextEdit

def edited (t : MyQTextEdit) (text : QString) (move : Nat → Nat) : MyQTextEdit :=
  ⟨text, t.remoteCursors.map fun _ c => c.moveTo (move c.position)⟩

def onSignal (t : MyQTextEdit) (g : Signal) : MyQTextEdit :=
  t.edited (Client.onSignal t.text g) (g.move t.text)

def edit (t : MyQTextEdit) (op : LocalOp) : MyQTextEdit :=
  t.edited (op.edit t.text) (op.move t.text)

/-- `line` and `index` are not set if the symbol is not found; `unset` is where they lead, then. -/
def onRemoteCursor (h : Highlighter) (symbols : Lines) (t : MyQTextEdit) (editorId : Int)
    (s : Symbol) (unset : Nat) : Except Fault MyQTextEdit := do
  let position :=
    match ← findPosition symbols s with
    | some (line, index) => blockPosition t.text line + index
    | none => unset
  let cursor :=
    match t.remoteCursors[editorId]? with
    | none => ⟨position, h.getColor editorId⟩
    | some remoteCursor => remoteCursor.moveTo position
  pure { t with remoteCursors := t.remoteCursors.insert editorId cursor }

end MyQTextEdit

/-- The edit of the text moves the cursors as it moves the symbols. -/
def Moves (xs ys : List Symbol) (t t' : MyQTextEdit) : Prop :=
  ∃ move, Anchor.Edit Symbol.position xs ys move ∧ ∀ editorId : Int,
    t'.remoteCursors[editorId]? =
      (t.remoteCursors[editorId]?).map fun c => c.moveTo (move c.position)

section Moves

variable {xs ys u w v : List Symbol} {t : MyQTextEdit} {g : Signal} {signals : List Signal}

theorem foldl_onSignal_text (t : MyQTextEdit) (signals : List Signal) :
    (signals.foldl MyQTextEdit.onSignal t).text = signals.foldl onSignal t.text := by
  induction signals generalizing t with
  | nil => rfl
  | cons g signals ih => exact ih _

theorem moves_edited {move : Nat → Nat} (h : Anchor.Edit Symbol.position xs ys move)
    (text : QString) : Moves xs ys t (t.edited text move) :=
  ⟨move, h, fun editorId => by rw [MyQTextEdit.edited, Std.TreeMap.getElem?_map]⟩

theorem moves_nil (h : ys.map letter = xs.map letter) : Moves xs ys t t := by
  refine ⟨id, .keep ?_, fun editorId => ?_⟩
  · simpa [Function.comp_def, letter] using congrArg (List.map Prod.fst) h
  · cases t.remoteCursors[editorId]? <;> rfl

/-- Signals about formats leave the cursors where they are. -/
theorem Moves.formats {t' : MyQTextEdit} (h : Moves xs ys t t')
    (hs : ∀ g ∈ signals, ∃ a line index, g = .changeAlignment a line index) :
    Moves xs ys t (signals.foldl MyQTextEdit.onSignal t') := by
  induction signals generalizing t' with
  | nil => exact h
  | cons g signals ih =>
    obtain ⟨a, line, index, rfl⟩ := hs g (by simp)
    refine ih ?_ fun g hg => hs g (by simp [hg])
    obtain ⟨move, hm, ht⟩ := h
    refine ⟨move, hm, fun editorId => ?_⟩
    rw [MyQTextEdit.onSignal, MyQTextEdit.edited, Std.TreeMap.getElem?_map, ← ht]
    cases t'.remoteCursors[editorId]? <;> rfl

theorem blockPosition_shown (hv : v ≠ []) :
    blockPosition (shown (u ++ v)) (place u).1 + (place u).2 = u.length := by
  rw [shown_append hv, blockPosition_place, List.length_map]

theorem blockPosition_of_place {line index : Nat} (hp : place u = (line, index)) (hv : v ≠ []) :
    blockPosition (shown (u ++ v)) line + index = u.length := by
  have hpos := blockPosition_shown (u := u) hv
  rwa [hp] at hpos

end Moves

/-! ## Local operations -/

theorem LocalEffect.moves {c c' : CRDT} {op : LocalOp} {m : Message} {t : MyQTextEdit}
    (e : LocalEffect c c' op m) (h : ValidDocument c.symbols)
    (ht : t.text = shown c.symbols.flatten) :
    Moves c.symbols.flatten c'.symbols.flatten t (t.edit op) := by
  have hformat : c'.symbols.flatten.map letter = c.symbols.flatten.map letter →
      Anchor.Edit Symbol.position c.symbols.flatten c'.symbols.flatten id := fun hl =>
    .keep (by simpa [Function.comp_def, letter] using congrArg (List.map Prod.fst) hl)
  cases e with
  | @insert line index value font color align chance u v s x hg hpl =>
    rw [MyQTextEdit.edit, LocalOp.move, ht, hg.old, blockPosition_of_place hpl (by simp), hg.new]
    exact moves_edited (.single u s (x :: v)) _
  | @paste line index text font color align chance u v ss x hf hg hpl =>
    have hfacts := hg.facts h hf
    have hlen : text.length = ss.length := by rw [← hfacts.text, List.length_map]
    rw [MyQTextEdit.edit, LocalOp.move, ht, hf, blockPosition_of_place hpl (by simp), hfacts.new,
      hlen]
    exact moves_edited (.insert _ _ _) _
  | @erase line index ls' u w v he hc hpl =>
    subst hc
    have hold := he.old
    rw [List.append_assoc] at hold
    rw [MyQTextEdit.edit, LocalOp.move, ht, hold, blockPosition_of_place hpl (by simp [he.ne_nil]),
      he.new, ← List.append_assoc]
    exact moves_edited (.remove _ _ _) _
  | changeSymbol hw hc | align hw _ hc => exact moves_edited (hformat (hc ▸ hw.map_letter)) _
  | change hw hc => exact moves_edited (hformat (hc ▸ hw.map_letter)) _

/-! ## Remote messages -/

section Remote

variable {c : CRDT} {t : Symbol}

/-- What the handler of the message emits moves cursors with the symbols. -/
def Shifts (c : CRDT) (m : Message) : Prop :=
  ∃ c' signals, c.handle m = .ok (c', signals) ∧
    ∀ e : MyQTextEdit, e.text = shown c.symbols.flatten →
      Moves c.symbols.flatten c'.symbols.flatten e (signals.foldl MyQTextEdit.onSignal e)

theorem shifts_insert (h : WellFormed c.symbols) (ht : c.symbols.flatten.getLast? = some t)
    {s : Symbol} (hfresh : ∀ y ∈ c.symbols.flatten, s.position ≠ y.position)
    (hlt : s.position < t.position) (hs : s.value ≠ QChar.null) : Shifts c (.insert s) := by
  obtain ⟨u, x, v, hf, hu, hx⟩ := exists_bound ⟨t, List.mem_of_getLast? ht, hlt.le⟩
  have hsx := lt_of_le_of_ne hx (hfresh x (by simp [hf]))
  obtain ⟨ls', hi, hins⟩ := handleRemoteInsert_spec h.toArranged hf hu hsx
  refine ⟨_, _, hi, fun e he => ?_⟩
  rw [if_neg hs, hins.old, hins.new]
  rw [hf] at he
  rw [List.foldl_cons, List.foldl_nil, MyQTextEdit.onSignal, Signal.move, he,
    blockPosition_shown (by simp)]
  exact moves_edited (.single u s (x :: v)) _

/-- A paste with nothing between its first and its last symbol. -/
theorem shifts_paste (h : WellFormed c.symbols) (ht : c.symbols.flatten.getLast? = some t)
    {ss : List Symbol} (ho : Ordered ss)
    (hfresh : ∀ s ∈ ss, ∀ y ∈ c.symbols.flatten, s.position ≠ y.position)
    (hlt : ∀ s ∈ ss, s.position < t.position) (hn : ∀ s ∈ ss, s.value ≠ QChar.null)
    (hgap : ∀ y ∈ c.symbols.flatten, ∀ a ∈ ss, ∀ b ∈ ss, a.position < y.position →
      ¬ y.position < b.position) : Shifts c (.paste ss) := by
  obtain ⟨ls1, ls', signals, ps, hok, hi, -, hself⟩ := handle_paste h ht ho.nodup hfresh hlt
  obtain rfl : ls' = ls1 := hself hn
  refine ⟨_, signals, hok, fun e he => ?_⟩
  obtain ⟨⟨c1, places⟩, hloop, hok⟩ := bind_eq_ok.mp hok
  obtain ⟨⟨c2, aligns⟩, halign, hok⟩ := bind_eq_ok.mp hok
  obtain ⟨-, rfl⟩ := Prod.mk.inj (Except.ok.inj hok)
  obtain ⟨-, rfl⟩ := Prod.mk.inj (Except.ok.inj (hloop.symm.trans (pasteLoop_eq h hi)))
  have htext : (ss.map Symbol.value).filter (· ≠ QChar.null) = ss.map Symbol.value :=
    List.filter_eq_self.mpr (by simpa using hn)
  rw [List.foldl_cons, htext]
  refine Moves.formats ?_ (alignChanges_signals halign)
  cases ss with
  | nil =>
    cases hi
    exact moves_edited (.keep rfl) _
  | cons s ss =>
    obtain ⟨u, v, ps', hv, hold, hnew, rfl⟩ := hi.flatten_eq h ho hfresh hgap
    rw [hold] at he
    rw [hold, hnew, MyQTextEdit.onSignal, List.head?_cons, Signal.move_insertGroup, he,
      blockPosition_shown hv, List.length_map]
    exact moves_edited (.insert _ _ _) _

/-- An erasure of consecutive symbols. -/
theorem shifts_erase (h : WellFormed c.symbols) (ht : c.symbols.flatten.getLast? = some t)
    {u w v ss : List Symbol} (hf : c.symbols.flatten = u ++ w ++ v)
    (hw : ss.map letter = w.map letter) (hlt : ∀ s ∈ ss, s.position < t.position) :
    Shifts c (.erase ss) := by
  have hpos : ss.map Symbol.position = w.map Symbol.position := by
    simpa [Function.comp_def, letter] using congrArg (List.map Prod.fst) hw
  have hord : Ordered (u ++ w ++ v) := hf ▸ h.ordered
  have hnd : (ss.map Symbol.position).Nodup :=
    hpos ▸ (Ordered.append.mp (Ordered.append.mp hord).1).2.1.nodup
  obtain ⟨ls', ps, hok, he⟩ := handle_erase h ht ss [] hnd (fun s hs => by
    obtain ⟨x, hx, he⟩ := List.mem_map.mp (hw ▸ List.mem_map_of_mem hs)
    exact ⟨x, by rw [hf]; simp [hx], he.symm⟩) hlt (by simp [Stops])
  rw [List.append_nil, if_pos rfl] at hok
  refine ⟨_, _, hok, fun e hetext => ?_⟩
  have hflat := he.flatten_eq h hf hpos
  cases ss with
  | nil =>
    cases he
    exact moves_edited (.keep rfl) _
  | cons s ss =>
    obtain ⟨ps', rfl⟩ := he.place_eq h hf hpos
    have hwv : w ++ v ≠ [] := List.append_ne_nil_of_left_ne_nil (by rintro rfl; simp at hw) v
    have hlen : (s :: ss).length = w.length := by simpa using congrArg List.length hw
    have hold := hf
    rw [List.append_assoc] at hold
    rw [hold] at hetext
    rw [hf, hflat, List.head?_cons, List.foldl_cons, List.foldl_nil, MyQTextEdit.onSignal,
      Signal.move_erase, hetext, blockPosition_shown hwv, hlen]
    exact moves_edited (.remove _ _ _) _

/-- A message that leaves the symbols, and has nothing emitted for the text. -/
theorem Shifts.of_letter {m : Message} {c' : CRDT} {signals : List Signal}
    (hok : c.handle m = .ok (c', signals))
    (hl : c'.symbols.flatten.map letter = c.symbols.flatten.map letter)
    (hs : signals = [] ∨ (∃ ss, signals = [.change ss]) ∨
      ∀ g ∈ signals, ∃ a line index, g = .changeAlignment a line index) : Shifts c m := by
  refine ⟨c', signals, hok, fun e he => ?_⟩
  rcases hs with rfl | ⟨ss, rfl⟩ | hs
  · exact moves_nil hl
  · refine moves_edited (.keep ?_) _
    simpa [Function.comp_def, letter] using congrArg (List.map Prod.fst) hl
  · exact (moves_nil hl).formats hs

/-- An erasure that stops at its first symbol. -/
theorem shifts_stopped (h : WellFormed c.symbols) {ss : List Symbol}
    (hstop : Stops c.symbols.flatten ss) : Shifts c (.erase ss) := by
  cases ss with
  | nil => exact ⟨_, _, rfl, fun e _ => moves_edited (.keep rfl) _⟩
  | cons s ss =>
    have hok : c.handle (.erase (s :: ss)) = .ok (c, []) := by
      simp [CRDT.handle, CRDT.handleRemoteErase, CRDT.eraseRemoteLoop,
        findPosition_of_stops h hstop, bind, Except.bind, pure, Except.pure]
    exact .of_letter hok rfl (.inl rfl)

theorem shifts_change (h : WellFormed c.symbols) {ss : List Symbol}
    (hc : ∃ found rest, ss = found ++ rest ∧
      (∀ s ∈ found, ∃ x ∈ c.symbols.flatten, letter s = letter x) ∧ Stops c.symbols.flatten rest) :
    Shifts c (.change ss) := by
  obtain ⟨found, rest, rfl, hfound, hstop⟩ := hc
  obtain ⟨ls', hok, hw⟩ := handle_change h found rest (fun s hs => by
    obtain ⟨x, hx, he⟩ := hfound s hs
    exact he ▸ List.mem_map_of_mem hx) hstop
  refine .of_letter hok hw.map_letter ?_
  split_ifs
  · exact .inr (.inl ⟨_, rfl⟩)
  · exact .inl rfl

theorem shifts_align (h : WellFormed c.symbols) (s : Symbol) : Shifts c (.align s) := by
  obtain ⟨ls', signals, hok, hre⟩ := handleRemoteAlignChange_total h s
  exact .of_letter hok hre.map_letter (.inr (.inr (handleRemoteAlignChange_signals hok)))

end Remote

end Scriba.Client
