import Scriba.Client.RemoteEdits

/-! # The text the editor shows

The document of the `QTextEdit`, as its list of characters, and what `Editor` does to it on the
signals of `CRDT`. A block ends after each newline. The text should be the values of the
symbols, without the terminator (`shown`). -/

namespace Scriba.Client

open Scriba.Utility Scriba.Lib Scriba.Lib.Lines

/-- `findBlockByNumber(line).position()`; a block that does not exist is at 0. -/
def blockPosition (text : QString) (line : Nat) : Nat :=
  if line ≤ lineOf (· == QChar.newline) text then lineStart (· == QChar.newline) text line else 0

def onInsertGroup (text : QString) (line index : Nat) (s : QString) : QString :=
  let position := blockPosition text line + index
  text.take position ++ s ++ text.drop position

def onInsert (text : QString) (line index : Nat) (s : Symbol) : QString :=
  let position := blockPosition text line + index
  text.take position ++ [s.value] ++ text.drop position

def onErase (text : QString) (line index lenght : Nat) : QString :=
  let position := blockPosition text line + index
  text.take position ++ text.drop (position + lenght)

/-- The slot of each signal. Changes of formats leave the characters as they are; a place that was
never set comes with no characters to insert or to remove. -/
def onSignal (text : QString) : Signal → QString
  | .insert line index s => onInsert text line index s
  | .insertGroup (some (line, index)) s _ => onInsertGroup text line index s
  | .erase (some (line, index)) lenght => onErase text line index lenght
  | .insertGroup none _ _ | .erase none _ | .change _ | .changeAlignment .. => text

/-- A client: its replica and the text its editor shows. -/
structure Screen where
  crdt : CRDT
  text : QString

/-- The edit of the text that a local operation follows. -/
def LocalOp.edit (text : QString) : LocalOp → QString
  | .insert line index value .. => onInsertGroup text line.toNat index.toNat [value]
  | .insertGroup line index s .. => onInsertGroup text line.toNat index.toNat s
  | .erase line index lenght => onErase text line index lenght
  | _ => text

/-- The values of the symbols before the terminator. -/
def shown (xs : List Symbol) : QString := xs.dropLast.map Symbol.value

theorem shown_append {u v : List Symbol} (hv : v ≠ []) :
    shown (u ++ v) = u.map Symbol.value ++ shown v := by
  rw [shown, List.dropLast_append_of_ne_nil hv, List.map_append]
  rfl

theorem shown_of_letter {xs ys : List Symbol} (h : ys.map letter = xs.map letter) :
    shown ys = shown xs := by
  have hv : ∀ zs : List Symbol, shown zs = ((zs.map letter).map Prod.snd).dropLast := by
    intro zs
    rw [shown, List.map_map, List.map_dropLast]
    rfl
  rw [hv, hv, h]

/-! ## Edits at a place -/

theorem blockPosition_place (u : List Symbol) (text : QString) :
    blockPosition (u.map Symbol.value ++ text) (place u).1 + (place u).2 =
      (u.map Symbol.value).length := by
  obtain ⟨hl, hi⟩ := place_map (p := (· == QChar.newline)) Symbol.value u
  have hline : (place u).1 = lineOf (· == QChar.newline) (u.map Symbol.value) := hl.symm
  have hindex : (place u).2 = indexOf (· == QChar.newline) (u.map Symbol.value) := hi.symm
  rw [hline, hindex, blockPosition, if_pos, lineStart_add_indexOf]
  simp [lineOf]

theorem onInsertGroup_shown {u w v : List Symbol} (hv : v ≠ []) :
    onInsertGroup (shown (u ++ v)) (place u).1 (place u).2 (w.map Symbol.value) =
      shown (u ++ w ++ v) := by
  rw [shown_append hv, shown_append hv, onInsertGroup, blockPosition_place, List.take_left',
    List.drop_left', List.map_append]
  all_goals rfl

theorem onInsert_shown {u v : List Symbol} {s : Symbol} (hv : v ≠ []) :
    onInsert (shown (u ++ v)) (place u).1 (place u).2 s = shown (u ++ s :: v) := by
  have h := onInsertGroup_shown (u := u) (w := [s]) hv
  rwa [List.append_assoc] at h

theorem onErase_shown {u w v : List Symbol} (hv : v ≠ []) :
    onErase (shown (u ++ w ++ v)) (place u).1 (place u).2 w.length = shown (u ++ v) := by
  rw [List.append_assoc, shown_append (by simp [hv]), shown_append hv, shown_append hv, onErase,
    blockPosition_place, List.take_left' rfl, ← List.drop_drop, List.drop_left' rfl,
    List.drop_left' (by simp)]

/-- **Local operations** bring the symbols in line with the edited text. -/
theorem LocalEffect.edit {c c' : CRDT} {op : LocalOp} {m : Message} (e : LocalEffect c c' op m)
    (h : ValidDocument c.symbols) :
    op.edit (shown c.symbols.flatten) = shown c'.symbols.flatten := by
  cases e with
  | @insert line index value font color align chance u v s x hg hpl =>
    obtain ⟨hl, hi⟩ := Prod.mk.inj hpl
    have hs := onInsertGroup_shown (u := u) (w := [s]) (v := x :: v) (by simp)
    rw [List.append_assoc] at hs
    rw [LocalOp.edit, ← hl, ← hi, hg.old, hg.new, ← hg.value]
    exact hs
  | @paste line index text font color align chance u v ss x hf hg hpl =>
    obtain ⟨hl, hi⟩ := Prod.mk.inj hpl
    have hfacts := hg.facts h hf
    rw [LocalOp.edit, ← hl, ← hi, hf, hfacts.new, ← hfacts.text]
    exact onInsertGroup_shown (by simp)
  | @erase line index ls' u w v he hc hpl =>
    obtain ⟨hl, hi⟩ := Prod.mk.inj hpl
    subst hc
    rw [LocalOp.edit, ← hl, ← hi, he.old, he.new]
    exact onErase_shown he.ne_nil
  | changeSymbol hw hc | align hw _ hc => exact hc ▸ (shown_of_letter hw.map_letter).symm
  | change hw hc => exact hc ▸ (shown_of_letter hw.map_letter).symm

/-! ## Groups in one piece -/

section Groups

variable {ls ls' : Lines}

/-- A group with nothing between its symbols comes in as one block, at the place of the first. -/
theorem InsertsAll.flatten_eq {s : Symbol} {ss : List Symbol} {ps : List (Nat × Nat)}
    (hi : InsertsAll ls ls' (s :: ss) ps) (h : WellFormed ls) (ho : Ordered (s :: ss))
    (hfresh : ∀ r ∈ s :: ss, ∀ y ∈ ls.flatten, r.position ≠ y.position)
    (hgap : ∀ y ∈ ls.flatten, ∀ a ∈ s :: ss, ∀ b ∈ s :: ss, a.position < y.position →
      ¬ y.position < b.position) : ∃ u v ps', v ≠ [] ∧ ls.flatten = u ++ v ∧
        ls'.flatten = u ++ (s :: ss) ++ v ∧ ps = place u :: ps' := by
  have hwf := hi.wellFormed h
  have hmem := fun y => hi.mem (y := y)
  cases hi with
  | @cons ls ls1 ls' u v ss s ps hins hall =>
    have hss : ∀ r ∈ s :: ss, s.position ≤ r.position := fun r hr => by
      rcases List.mem_cons.mp hr with rfl | hr
      · exact le_rfl
      · exact ((Ordered.cons.mp ho).1 r hr).le
    refine ⟨u, v, ps, hins.ne_nil, hins.old, hwf.ordered.ext ?_ fun y => ?_, rfl⟩
    · have huv := Ordered.append.mp (hins.old ▸ h.ordered)
      refine Ordered.append.mpr ⟨Ordered.append.mpr ⟨huv.1, ho, fun a ha b hb =>
        (hins.lower a ha).trans_le (hss b hb)⟩, huv.2.1, fun a ha b hb => ?_⟩
      rcases List.mem_append.mp ha with ha | ha
      · exact huv.2.2 a ha b hb
      · have hb' : b ∈ ls.flatten := by rw [hins.old]; simp [hb]
        exact lt_of_le_of_ne (not_lt.mp (hgap b hb' s (by simp) a ha (hins.upper b hb)))
          (hfresh a ha b hb')
    · rw [hmem, hins.old]
      simp only [List.mem_append]
      tauto

/-- Consecutive symbols are taken out as one block. -/
theorem ErasesAll.flatten_eq {ss u w v : List Symbol} {ps : List (Nat × Nat)}
    (he : ErasesAll ls ls' ss ps) (h : WellFormed ls) (hf : ls.flatten = u ++ w ++ v)
    (hpos : ss.map Symbol.position = w.map Symbol.position) : ls'.flatten = u ++ v := by
  have hord : Ordered (u ++ w ++ v) := hf ▸ h.ordered
  refine (he.wellFormed h).ordered.ext hord.erase fun y => ?_
  have hgone : (∀ s ∈ ss, s.position ≠ y.position) ↔ ∀ x ∈ w, x.position ≠ y.position := by
    have hmap := congrArg (y.position ∉ ·) hpos
    simpa only [List.mem_map, not_exists, not_and, eq_iff_iff] using hmap
  rw [he.mem h, hgone, hf, hord.mem_erase]

/-- The place of the first one. -/
theorem ErasesAll.place_eq {s : Symbol} {ss u w v : List Symbol} {ps : List (Nat × Nat)}
    (he : ErasesAll ls ls' (s :: ss) ps) (h : WellFormed ls) (hf : ls.flatten = u ++ w ++ v)
    (hpos : (s :: ss).map Symbol.position = w.map Symbol.position) :
    ∃ ps', ps = place u :: ps' := by
  cases he with
  | @cons ls ls1 ls' u1 v1 ss s x1 ps hs he1 hall =>
    obtain ⟨x, w, rfl, hx, -⟩ := List.map_eq_cons_iff.mp hpos.symm
    have hf1 : ls.flatten = u1 ++ x1 :: v1 := by simp [he1.old]
    have hf2 : ls.flatten = u ++ x :: (w ++ v) := by simp [hf]
    have hp := (findPosition_present h.toArranged hf1 (congrArg Prod.fst hs)).symm.trans
      (findPosition_present h.toArranged hf2 hx.symm)
    obtain hplace : place u1 = place u := Option.some.inj (Except.ok.inj hp)
    exact ⟨ps, by rw [hplace]⟩

end Groups

/-! ## Remote messages -/

section Remote

variable {c : CRDT} {t : Symbol}

/-- What the handler of the message emits brings the text in line with the symbols it leaves. -/
def Follows (c : CRDT) (m : Message) : Prop :=
  ∃ c' signals, c.handle m = .ok (c', signals) ∧
    signals.foldl onSignal (shown c.symbols.flatten) = shown c'.symbols.flatten

/-- Signals about formats do not change the text. -/
theorem foldl_onSignal {signals : List Signal}
    (h : ∀ g ∈ signals, ∃ a line index, g = .changeAlignment a line index) (text : QString) :
    signals.foldl onSignal text = text := by
  induction signals generalizing text with
  | nil => rfl
  | cons g signals ih =>
    obtain ⟨a, line, index, rfl⟩ := h g (by simp)
    exact ih (fun g hg => h g (by simp [hg])) text

theorem handleRemoteAlignChange_signals {c' : CRDT} {s : Symbol} {signals : List Signal}
    (h : c.handleRemoteAlignChange s = .ok (c', signals)) :
    ∀ g ∈ signals, ∃ a line index, g = .changeAlignment a line index := by
  obtain ⟨-, rfl⟩ | ⟨line, index, -, -, -, -, -, -, -, -, -, rfl⟩ :=
    handleRemoteAlignChange_cases h
  · simp
  · simp

theorem alignChanges_signals {c' : CRDT} {ss : List Symbol} {signals : List Signal}
    (h : c.alignChanges ss = .ok (c', signals)) :
    ∀ g ∈ signals, ∃ a line index, g = .changeAlignment a line index := by
  induction ss generalizing c c' signals with
  | nil =>
    obtain ⟨-, rfl⟩ := Prod.mk.inj (Except.ok.inj h)
    simp
  | cons s ss ih =>
    obtain ⟨⟨c1, g1⟩, h1, h⟩ := bind_eq_ok.mp h
    obtain ⟨⟨c2, g2⟩, h2, h⟩ := bind_eq_ok.mp h
    obtain ⟨-, rfl⟩ := Prod.mk.inj (Except.ok.inj h)
    exact List.forall_mem_append.mpr ⟨handleRemoteAlignChange_signals h1, ih h2⟩

theorem follows_insert (h : WellFormed c.symbols) (ht : c.symbols.flatten.getLast? = some t)
    {s : Symbol} (hfresh : ∀ y ∈ c.symbols.flatten, s.position ≠ y.position)
    (hlt : s.position < t.position) (hs : s.value ≠ QChar.null) : Follows c (.insert s) := by
  obtain ⟨u, x, v, hf, hu, hx⟩ := exists_bound ⟨t, List.mem_of_getLast? ht, hlt.le⟩
  have hsx := lt_of_le_of_ne hx (hfresh x (by simp [hf]))
  obtain ⟨ls', hi, hins⟩ := handleRemoteInsert_spec h.toArranged hf hu hsx
  refine ⟨_, _, hi, ?_⟩
  rw [if_neg hs, hins.old, hins.new]
  exact onInsert_shown (by simp)

/-- A paste with nothing between its first and its last symbol. -/
theorem follows_paste (h : WellFormed c.symbols) (ht : c.symbols.flatten.getLast? = some t)
    {ss : List Symbol} (ho : Ordered ss)
    (hfresh : ∀ s ∈ ss, ∀ y ∈ c.symbols.flatten, s.position ≠ y.position)
    (hlt : ∀ s ∈ ss, s.position < t.position) (hn : ∀ s ∈ ss, s.value ≠ QChar.null)
    (hgap : ∀ y ∈ c.symbols.flatten, ∀ a ∈ ss, ∀ b ∈ ss, a.position < y.position →
      ¬ y.position < b.position) : Follows c (.paste ss) := by
  obtain ⟨ls1, ls', signals, ps, hok, hi, -, hself⟩ := handle_paste h ht ho.nodup hfresh hlt
  obtain rfl : ls' = ls1 := hself hn
  refine ⟨_, signals, hok, ?_⟩
  -- the signals: the text at the first place, then alignments
  obtain ⟨⟨c1, places⟩, hloop, hok⟩ := bind_eq_ok.mp hok
  obtain ⟨⟨c2, aligns⟩, halign, hok⟩ := bind_eq_ok.mp hok
  obtain ⟨-, rfl⟩ := Prod.mk.inj (Except.ok.inj hok)
  obtain ⟨-, rfl⟩ := Prod.mk.inj (Except.ok.inj (hloop.symm.trans (pasteLoop_eq h hi)))
  have htext : (ss.map Symbol.value).filter (· ≠ QChar.null) = ss.map Symbol.value :=
    List.filter_eq_self.mpr (by simpa using hn)
  rw [List.foldl_cons, foldl_onSignal (alignChanges_signals halign), htext]
  cases ss with
  | nil =>
    cases hi
    rfl
  | cons s ss =>
    obtain ⟨u, v, ps', hv, hold, hnew, rfl⟩ := hi.flatten_eq h ho hfresh hgap
    rw [hold, hnew]
    exact onInsertGroup_shown hv

/-- An erasure of consecutive symbols. -/
theorem follows_erase (h : WellFormed c.symbols) (ht : c.symbols.flatten.getLast? = some t)
    {u w v ss : List Symbol} (hf : c.symbols.flatten = u ++ w ++ v)
    (hw : ss.map letter = w.map letter) (hlt : ∀ s ∈ ss, s.position < t.position) :
    Follows c (.erase ss) := by
  have hpos : ss.map Symbol.position = w.map Symbol.position := by
    simpa [Function.comp_def, letter] using congrArg (List.map Prod.fst) hw
  have hord : Ordered (u ++ w ++ v) := hf ▸ h.ordered
  have hnd : (ss.map Symbol.position).Nodup :=
    hpos ▸ (Ordered.append.mp (Ordered.append.mp hord).1).2.1.nodup
  have hmem : ∀ s ∈ ss, ∃ x ∈ c.symbols.flatten, letter s = letter x := by
    intro s hs
    obtain ⟨x, hx, he⟩ := List.mem_map.mp (hw ▸ List.mem_map_of_mem hs)
    exact ⟨x, by rw [hf]; simp [hx], he.symm⟩
  obtain ⟨ls', ps, hok, he⟩ := handle_erase h ht ss [] hnd hmem hlt (by simp [Stops])
  rw [List.append_nil, if_pos rfl] at hok
  refine ⟨_, _, hok, ?_⟩
  have hflat := he.flatten_eq h hf hpos
  cases ss with
  | nil =>
    cases he
    obtain rfl : w = [] := by simpa using hw
    simp [hf, onSignal]
  | cons s ss =>
    obtain ⟨ps', rfl⟩ := he.place_eq h hf hpos
    have hv : v ≠ [] := by
      rintro rfl
      rw [hf, List.append_nil, List.getLast?_append_of_ne_nil _ (by rintro rfl; simp at hw)] at ht
      obtain ⟨r, hr, hrt⟩ := List.mem_map.mp
        (hpos ▸ List.mem_map_of_mem (List.mem_of_getLast? ht))
      exact absurd (hlt r hr) (hrt ▸ lt_irrefl _)
    have hlen : (s :: ss).length = w.length := by simpa using congrArg List.length hw
    rw [hf, hflat, hlen]
    exact onErase_shown hv

/-- An erasure that stops at its first symbol. -/
theorem follows_stopped (h : WellFormed c.symbols) {ss : List Symbol}
    (hstop : Stops c.symbols.flatten ss) : Follows c (.erase ss) := by
  cases ss with
  | nil => exact ⟨_, _, rfl, rfl⟩
  | cons s ss =>
    refine ⟨c, [], ?_, rfl⟩
    simp [CRDT.handle, CRDT.handleRemoteErase, CRDT.eraseRemoteLoop, findPosition_of_stops h hstop,
      bind, Except.bind, pure, Except.pure]

theorem follows_change (h : WellFormed c.symbols) {ss : List Symbol}
    (hc : ∃ found rest, ss = found ++ rest ∧
      (∀ s ∈ found, ∃ x ∈ c.symbols.flatten, letter s = letter x) ∧ Stops c.symbols.flatten rest) :
    Follows c (.change ss) := by
  obtain ⟨found, rest, rfl, hfound, hstop⟩ := hc
  obtain ⟨ls', hok, hw⟩ := handle_change h found rest (fun s hs => by
    obtain ⟨x, hx, he⟩ := hfound s hs
    exact he ▸ List.mem_map_of_mem hx) hstop
  refine ⟨_, _, hok, ?_⟩
  rw [shown_of_letter hw.map_letter]
  split_ifs <;> rfl

theorem follows_align (h : WellFormed c.symbols) (s : Symbol) : Follows c (.align s) := by
  obtain ⟨ls', signals, hok, hre⟩ := handleRemoteAlignChange_total h s
  refine ⟨_, signals, hok, ?_⟩
  rw [foldl_onSignal (handleRemoteAlignChange_signals hok), shown_of_letter hre.map_letter]

end Remote

end Scriba.Client
