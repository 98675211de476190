import Scriba.Lib.Attempt
import Scriba.Client.LocalEdits

/-! # Pasting

`localInsertGroup` with all it leaves behind, also where it throws half-way: the object and the
two integers are as the rounds before left them, and nothing has been sent. Only the first
character can be refused. The symbol that a round inserts is the left neighbour in the next one,
and no position that was generated is a prefix of the one it was generated before. -/

namespace Scriba.Client

open Scriba.Utility Scriba.Lib Scriba.Lib.Lines

/-- The object, and the arguments that are passed by reference. -/
structure Paste where
  crdt : CRDT
  line : Int
  index : Int
deriving DecidableEq

namespace Paste

open Attempt

/-- One round of the loop. -/
def insertRound (value : QChar) (font : QFont) (color : QColor) (align : Nat) (chance : Chance) :
    Attempt Paste Fault Symbol := do
  let { crdt := c, line, index } ← get
  let posBefore ← lift (findPosBefore c.symbols line.toNat index.toNat)
  let posAfter ← lift (findPosAfter c.symbols line.toNat index.toNat)
  let (newPos, cache) ← lift <|
    generatePositionBetween c.siteId c.strategyCache chance.draw posBefore posAfter [] 0
  let c := { c with strategyCache := cache, counter := c.counter + 1 }
  set (Paste.mk c line index)
  let s := alignNew (Symbol.ofFont value newPos c.counter font color chance.align)
    (alignOfGroup align)
  let symbols ← lift (insertChar c.symbols s line.toNat index.toNat)
  let c := { c with symbols, size := c.size + 1 }
  set (if s.value = QChar.newline then Paste.mk c (line + 1) 0 else Paste.mk c line (index + 1))
  pure s

def insertRounds (font : QFont) (color : QColor) (align : Nat) :
    QString → (Nat → Chance) → Attempt Paste Fault (List Symbol)
  | [], _ => pure []
  | value :: text, chance => do
    let s ← insertRound value font color align (chance 0)
    let vector ← insertRounds font color align text fun n => chance (n + 1)
    pure (s :: vector)

/-- `localInsertGroup`: what it returns is the message that it sends last. -/
def localInsertGroup (text : QString) (font : QFont) (color : QColor) (align : Nat)
    (chance : Nat → Chance) : Attempt Paste Fault Message := do
  let g ← get
  if g.line < 0 ∨ g.index < 0 then throw .indexOutOfBound
  let vector ← insertRounds font color align text chance
  pure (.paste vector)

end Paste

open Paste Attempt

/-- An access to a container is the only fault of `insertChar`. -/
theorem insertChar_spares (ls : Lines) (s : Symbol) (line index : Nat) :
    Spares Fault.invalidOrdering (insertChar ls s line index) := by
  have hout : Fault.outOfRange ≠ .invalidOrdering := by decide
  have hguard : ∀ {α : Type} (p : Prop) [Decidable p] (a : α),
      Spares Fault.invalidOrdering (if p then .ok a else .error .outOfRange) := by
    intro α p _ a
    split_ifs
    · exact Spares.pure a
    · exact Spares.throw hout
  have hget : Spares Fault.invalidOrdering (QVector.get ls line) := by
    unfold QVector.get
    split
    · exact Spares.pure _
    · exact Spares.throw hout
  refine hget.bind ?_
  intro l _
  split_ifs
  · exact (hguard _ _).bind fun _ _ => (hguard _ _).bind fun _ _ => hguard _ _
  · exact (hguard _ _).bind fun _ _ => hguard _ _

section Round

variable {g : Paste} {value : QChar} {font : QFont} {color : QColor} {align : Nat} {chance : Chance}

/-- A round is an insertion, and where there is none because of the order it changes nothing. -/
theorem insertRound_cases (g : Paste) (value : QChar) (font : QFont) (color : QColor) (align : Nat)
    (chance : Chance) :
    (∃ c s, g.crdt.insertNew g.line.toNat g.index.toNat value font color (alignOfGroup align)
        chance = .ok (c, s) ∧
      run (insertRound value font color align chance) g =
        (.ok s, if s.value = QChar.newline then ⟨c, g.line + 1, 0⟩ else ⟨c, g.line, g.index + 1⟩)) ∨
    ∃ e g', g.crdt.insertNew g.line.toNat g.index.toNat value font color (alignOfGroup align)
        chance = .error e ∧
      run (insertRound value font color align chance) g = (.error e, g') ∧
      (e = .invalidOrdering → g' = g) := by
  simp only [insertRound, run_bind, run_get, run_lift, run_set, run_pure]
  simp only [CRDT.insertNew, bind, Except.bind, pure, Except.pure]
  cases findPosBefore g.crdt.symbols g.line.toNat g.index.toNat with
  | error e => exact .inr ⟨e, g, rfl, rfl, fun _ => rfl⟩
  | ok posBefore =>
    dsimp only
    cases findPosAfter g.crdt.symbols g.line.toNat g.index.toNat with
    | error e => exact .inr ⟨e, g, rfl, rfl, fun _ => rfl⟩
    | ok posAfter =>
      dsimp only
      cases generatePositionBetween g.crdt.siteId g.crdt.strategyCache chance.draw posBefore
          posAfter [] 0 with
      | error e => exact .inr ⟨e, g, rfl, rfl, fun _ => rfl⟩
      | ok result =>
        dsimp only
        cases hi : insertChar g.crdt.symbols (alignNew (Symbol.ofFont value result.1
            (g.crdt.counter + 1) font color chance.align) (alignOfGroup align)) g.line.toNat
            g.index.toNat with
        | error e =>
          exact .inr ⟨e, _, rfl, rfl, fun he => absurd (he ▸ hi) (insertChar_spares _ _ _ _)⟩
        | ok symbols => exact .inl ⟨_, _, rfl, rfl⟩

end Round

/-- Apart from what is left after an exception, the rounds are the loop of `CRDT`. -/
theorem insertGroupLoop_eq (c : CRDT) (line index : Nat) (text : QString) (font : QFont)
    (color : QColor) (align : Nat) (chance : Nat → Chance) :
    c.insertGroupLoop line index text font color align chance =
      match run (insertRounds font color align text chance) ⟨c, line, index⟩ with
      | (.ok symbols, g) => .ok (g.crdt, (g.line.toNat, g.index.toNat), symbols)
      | (.error e, _) => .error e := by
  induction text generalizing c line index chance with
  | nil => rfl
  | cons value text ih =>
    simp only [insertRounds, run_bind, run_pure]
    rcases insertRound_cases ⟨c, line, index⟩ value font color align (chance 0) with
      ⟨c1, s, hnew, hrun⟩ | ⟨e, g', hnew, hrun, -⟩
    · simp only [Int.toNat_natCast] at hnew
      have hnext : (if s.value = QChar.newline then ⟨c1, (line : Int) + 1, 0⟩
            else ⟨c1, line, (index : Int) + 1⟩ : Paste) =
          ⟨c1, ((if s.value = QChar.newline then (line + 1, 0) else (line, index + 1)).1 : Nat),
            ((if s.value = QChar.newline then (line + 1, 0) else (line, index + 1)).2 : Nat)⟩ := by
        split_ifs <;> rfl
      have hrest := ih c1
        (if s.value = QChar.newline then (line + 1, 0) else (line, index + 1)).1
        (if s.value = QChar.newline then (line + 1, 0) else (line, index + 1)).2
        fun n => chance (n + 1)
      rw [hnext] at hrun
      simp only [CRDT.insertGroupLoop, hnew, hrun, hrest, bind, Except.bind, pure, Except.pure]
      rcases run (insertRounds font color align text fun n => chance (n + 1)) _ with ⟨r, g⟩
      cases r <;> rfl
    · simp only [Int.toNat_natCast] at hnew
      simp [CRDT.insertGroupLoop, hnew, hrun, bind, Except.bind]

/-- Whoever is not blocked by a right neighbour that goes on after the left one never is. -/
theorem not_blocked {siteId : Int} {p q : Position} (h : ¬ p <+: q) : ¬ Blocked siteId p q := by
  intro hex
  obtain ⟨k, a, rest, -, rfl⟩ := hex
  exact h (List.prefix_append _ _)

section Rounds

variable {c : CRDT} {u v : List Symbol} {x : Symbol}

/-- The place behind `u`, as two integers. -/
def Paste.after (c : CRDT) (u : List Symbol) : Paste := ⟨c, (place u).1, (place u).2⟩

/-- A round between `u` and `x`. -/
theorem insertRound_spec (h : ValidDocument c.symbols) (hf : c.symbols.flatten = u ++ x :: v)
    (value : QChar) (font : QFont) (color : QColor) (align : Nat) (chance : Chance) :
    (run (insertRound value font color align chance) (Paste.after c u) =
        (.error .invalidOrdering, Paste.after c u) ∧ Blocked c.siteId (posBefore u) x.position) ∨
    ∃ c' s, run (insertRound value font color align chance) (Paste.after c u) =
        (.ok s, Paste.after c' (u ++ [s])) ∧ Generates c c' value u s x v := by
  have hspec := insertNew_spec h hf value font color (alignOfGroup align) chance
  rcases insertRound_cases (Paste.after c u) value font color align chance with
    ⟨c', s, hnew, hrun⟩ | ⟨e, g', hnew, hrun, hsame⟩
  · right
    rcases hspec with ⟨herr, -⟩ | ⟨c2, s2, hok, hg, -⟩
    · simp [Paste.after, herr] at hnew
    · obtain ⟨rfl, rfl⟩ := Prod.mk.inj (Except.ok.inj (hok.symm.trans hnew))
      refine ⟨_, _, ?_, hg⟩
      rw [hrun, Paste.after, Paste.after, place_concat]
      split_ifs <;> simp
  · left
    rcases hspec with ⟨herr, hb⟩ | ⟨c2, s2, hok, -, -⟩
    · obtain rfl := Except.error.inj (herr.symm.trans hnew)
      exact ⟨by rw [hrun, hsame rfl], hb⟩
    · simp [Paste.after, hok] at hnew

/-- After a round that went through, all do. -/
theorem insertRounds_spec (h : ValidDocument c.symbols) (hf : c.symbols.flatten = u ++ x :: v)
    (hfree : ¬ posBefore u <+: x.position) (font : QFont) (color : QColor) (align : Nat)
    (text : QString) (chance : Nat → Chance) :
    ∃ c' ss, run (insertRounds font color align text chance) (Paste.after c u) =
      (.ok ss, Paste.after c' (u ++ ss)) ∧ GeneratesAll x v c c' text u ss := by
  induction text generalizing c u chance with
  | nil => exact ⟨c, [], by simp [insertRounds], .nil⟩
  | cons value text ih =>
    rcases insertRound_spec h hf value font color align (chance 0) with
      ⟨-, hb⟩ | ⟨c1, s, hrun, hg⟩
    · exact absurd hb (not_blocked hfree)
    · have hfree' : ¬ posBefore (u ++ [s]) <+: x.position := by
        rw [posBefore_concat]
        exact hg.fits.not_prefix
      obtain ⟨c', ss, hrest, hall⟩ := ih (hg.valid h) (by simp [hg.new]) hfree' fun n =>
        chance (n + 1)
      refine ⟨c', s :: ss, ?_, .cons hg hall⟩
      simp [insertRounds, hrun, hrest]

end Rounds

/-- What a paste that went through leaves: the symbols stand where the paste began, in the order
of the text, and the place is that of the symbol that was there. -/
structure Pastes (c c' : CRDT) (line index line' index' : Nat) (text : QString)
    (symbols : List Symbol) (x : Symbol) : Prop where
  old : ∃ u v, c.symbols.flatten = u ++ x :: v ∧ u.length = offset c.symbols line index ∧
    c'.symbols.flatten = u ++ symbols ++ x :: v
  text : symbols.map Symbol.value = text
  valid : ValidDocument c'.symbols
  place : symbolAt c'.symbols line' index' = some x

/-- **Pasting is all or nothing.** -/
theorem paste_all_or_nothing {c : CRDT} (h : ValidDocument c.symbols) {line index : Nat}
    {x : Symbol} (hx : symbolAt c.symbols line index = some x) {text : QString} (htext : text ≠ [])
    (font : QFont) (color : QColor) (align : Nat) (chance : Nat → Chance) :
    (run (Paste.localInsertGroup text font color align chance) ⟨c, line, index⟩ =
        (.error .invalidOrdering, ⟨c, line, index⟩) ∧
      ∃ value rest, text = value :: rest ∧
        run (insertRound value font color align (chance 0)) ⟨c, line, index⟩ =
          (.error .invalidOrdering, ⟨c, line, index⟩)) ∨
    ∃ (c' : CRDT) (line' index' : Nat) (symbols : List Symbol),
      run (Paste.localInsertGroup text font color align chance) ⟨c, line, index⟩ =
        (.ok (.paste symbols), ⟨c', line', index'⟩) ∧
      Pastes c c' line index line' index' text symbols x := by
  obtain ⟨value, rest, rfl⟩ := List.exists_cons_of_ne_nil htext
  obtain ⟨cur⟩ := exists_cursor_of_symbolAt hx
  have hf := cur.flatten_eq
  obtain ⟨hline, hindex⟩ := cur.place h.layout
  have hat : Paste.mk c line index = Paste.after c cur.before := by
    rw [Paste.after, place, ← hline, ← hindex]
  have hgroup : run (Paste.localInsertGroup (value :: rest) font color align chance)
      ⟨c, line, index⟩ =
        run (Message.paste <$> insertRounds font color align (value :: rest) chance)
          (Paste.after c cur.before) := by
    have hpos : ¬ ((line : Int) < 0 ∨ (index : Int) < 0) := by omega
    rw [← hat]
    simp [Paste.localInsertGroup, hpos]
  rw [hgroup, hat]
  rcases insertRound_spec h hf value font color align (chance 0) with ⟨hrun, -⟩ | ⟨c1, s, hrun, hg⟩
  · left
    exact ⟨by simp [insertRounds, hrun], value, rest, rfl, hrun⟩
  · right
    have hf1 : c1.symbols.flatten = (cur.before ++ [s]) ++ x :: cur.after := by simp [hg.new]
    have hfree : ¬ posBefore (cur.before ++ [s]) <+: x.position := by
      rw [posBefore_concat]
      exact hg.fits.not_prefix
    obtain ⟨c', ss, hrest, hall⟩ :=
      insertRounds_spec (hg.valid h) hf1 hfree font color align rest fun n => chance (n + 1)
    obtain ⟨hnew, hvalid, hvalues, -, -⟩ := (GeneratesAll.cons hg hall).facts h hf
    obtain ⟨cur', -, -⟩ := hvalid.layout.exists_cursor hnew
    refine ⟨c', (place (cur.before ++ s :: ss)).1, (place (cur.before ++ s :: ss)).2, s :: ss, ?_,
      ⟨⟨_, _, hf, (offset_eq cur).symm, hnew⟩, hvalues, hvalid, symbolAt_cursor cur'⟩⟩
    have hplace : Paste.after c' (cur.before ++ [s] ++ ss) =
        Paste.after c' (cur.before ++ s :: ss) := by
      rw [List.append_assoc, List.singleton_append]
    rw [hplace] at hrest
    simp only [insertRounds, run_map, run_bind, run_pure, hrun, hrest]
    rfl

/-- Two lines pasted into a new file: the terminator is at the start of the second one then. -/
theorem paste_all_or_nothing_lines :
    let c := CRDT.opened 1 [[plain QChar.null [⟨5, 1⟩]]]
    let text := [QChar.of 'a', QChar.newline]
    let chance : Nat → Chance := fun _ => ⟨⟨true, 0⟩, .alignLeft⟩
    ∃ (c' : CRDT) (symbols : List Symbol),
      run (Paste.localInsertGroup text default default Qt.AlignLeft chance) ⟨c, 0, 0⟩ =
        (.ok (.paste symbols), ⟨c', 1, 0⟩) ∧
      Pastes c c' 0 0 1 0 text symbols (plain QChar.null [⟨5, 1⟩]) := by
  intro c text chance
  have hvalid : ValidDocument c.symbols :=
    .single rfl (validPosition_single (by decide) (by decide))
  have hfirst : (run (insertRound (QChar.of 'a') default default Qt.AlignLeft (chance 0))
      ⟨c, (0 : Nat), (0 : Nat)⟩).1 = .ok ⟨QChar.of 'a', [⟨1, 1⟩], 1, default⟩ := by decide +kernel
  have hlast : (run (Paste.localInsertGroup text default default Qt.AlignLeft chance)
      ⟨c, (0 : Nat), (0 : Nat)⟩).2.line = 1 ∧
      (run (Paste.localInsertGroup text default default Qt.AlignLeft chance)
        ⟨c, (0 : Nat), (0 : Nat)⟩).2.index = 0 := by decide +kernel
  have hlast' : symbolAt c.symbols 0 0 = some (plain QChar.null [⟨5, 1⟩]) := rfl
  rcases paste_all_or_nothing hvalid hlast' (by decide : text ≠ []) default default Qt.AlignLeft
    chance with
    ⟨-, value, rest, he, herr⟩ | ⟨c', line', index', symbols, hrun, hp⟩
  · obtain ⟨rfl, -⟩ := List.cons.inj he
    cases hfirst.symm.trans (congrArg Prod.fst herr)
  · rw [hrun] at hlast
    obtain rfl : line' = 1 := Int.ofNat.inj hlast.1
    obtain rfl : index' = 0 := Int.ofNat.inj hlast.2
    exact ⟨c', symbols, hrun, hp⟩

end Scriba.Client
