import Scriba.Lib.Pool
import Scriba.Client.RemoteEdits

/-! # Sites that insert

Any number of sites insert into one document and receive each other's insertions, in any
order. Every symbol keeps its own position (`Inserting.perm`, `Inserting.nodup`), every
replica stays a valid document, and a local insertion throws exactly where the site is
`Blocked`. -/

namespace Scriba.Client

open Scriba.Utility Scriba.Lib Scriba.Lib.Pool

/-- A local insertion at an existing symbol, with the symbol it broadcasts. -/
def Types (c : CRDT) (s : Symbol) (c' : CRDT) : Prop :=
  ∃ line index value font color align chance,
    (LocalOp.insert line index value font color align chance).Legal c.symbols ∧
      c.localInsert line index value font color align chance = .ok (c', .insert s)

def Receives (c : CRDT) (s : Symbol) (c' : CRDT) : Prop :=
  ∃ signals, c.handleRemoteInsert s = .ok (c', signals)

/-- The position was generated by the site: its last identifier says so. -/
def SignedBy (siteId : Int) (p : Position) : Prop :=
  ∃ (u : Position) (d : Int), p = u ++ [⟨d, siteId⟩]

theorem SignedBy.unique {a b : Int} {p : Position} (ha : SignedBy a p) (hb : SignedBy b p) :
    a = b := by
  obtain ⟨u, d, rfl⟩ := ha
  obtain ⟨u', d', he⟩ := hb
  exact congrArg Identifier.site (List.singleton_inj.mp (List.append_inj' he rfl).2)

/-- All sites have opened the same document. -/
structure Opened {ι : Type} (sid : ι → Int) (ls : Lines) (state : ι → CRDT) : Prop where
  valid : ValidDocument ls
  siteId : ∀ i, (state i).siteId = sid i
  symbols : ∀ i, (state i).symbols = ls

/-- What holds throughout a run that started from the document `xs`, which ends with `t`. -/
structure Inserting {ι : Type} (sid : ι → Int) (xs : List Symbol) (t : Symbol)
    (w : World ι CRDT Symbol) : Prop where
  siteId : ∀ i, (w.state i).siteId = sid i
  valid : ∀ i, ValidDocument (w.state i).symbols
  last : ∀ i, (w.state i).symbols.flatten.getLast? = some t
  perm : ∀ i, ((w.state i).symbols.flatten ++ w.pending i).Perm (xs ++ w.messages)
  nodup : ((xs ++ w.messages).map Symbol.position).Nodup
  signed : ∀ i, ∀ s ∈ w.pending i, ∃ k, k ≠ i ∧ SignedBy (sid k) s.position
  pending : ∀ i, ∀ s ∈ w.pending i, ValidPosition s.position ∧ s.position < t.position

section Run

variable {ι : Type} [DecidableEq ι] {sid : ι → Int} {xs : List Symbol} {t : Symbol}
  {w w' : World ι CRDT Symbol}

theorem Types.generates {c c' : CRDT} {s : Symbol} (h : Types c s c')
    (hv : ValidDocument c.symbols) : ∃ value u x v, Generates c c' value u s x v := by
  obtain ⟨line, index, value, font, color, align, chance, hl, hp⟩ := h
  have hperform : (LocalOp.insert line index value font color align chance).perform c =
      .ok (c', .insert s) := hp
  have he := perform_effect hv hl hperform
  cases he with
  | insert hg => exact ⟨_, _, _, _, hg⟩

theorem Inserting.emit {i : ι} {s : Symbol} {c : CRDT} (h : Inserting sid xs t w)
    (hsid : Function.Injective sid) (he : Types (w.state i) s c) :
    Inserting sid xs t
      { state := Function.update w.state i c
        pending := fun j => if j = i then w.pending j else w.pending j ++ [s]
        history := w.history ++ [⟨i, w.state i, s⟩] } := by
  obtain ⟨value, u, x, v, hg⟩ := he.generates (h.valid i)
  have hsigned : SignedBy (sid i) s.position := by
    obtain ⟨p, d, hp, -⟩ := hg.fits.last
    exact ⟨p, d, h.siteId i ▸ hp⟩
  have hins := hg.toInserts
  -- the new position is neither in the document nor in a message that waits here
  have hnew : s.position ∉ (xs ++ w.messages).map Symbol.position := by
    intro hmem
    obtain ⟨y, hy, hys⟩ := List.mem_map.mp (((h.perm i).map Symbol.position).mem_iff.mpr hmem)
    rcases List.mem_append.mp hy with hy | hy
    · exact hins.ne_position hy hys
    · obtain ⟨k, hk, hsk⟩ := h.signed i y hy
      exact hk (hsid ((hys ▸ hsk).unique hsigned))
  have hperm : ∀ l : List Symbol, l.Perm (xs ++ w.messages) →
      (s :: l).Perm (xs ++ (w.messages ++ [s])) := by
    intro l hl
    rw [← List.append_assoc]
    exact (hl.cons s).trans (List.perm_append_singleton _ _).symm
  have hmsg : (⟨Function.update w.state i c, fun j => if j = i then w.pending j
      else w.pending j ++ [s], w.history ++ [⟨i, w.state i, s⟩]⟩ : World ι CRDT Symbol).messages =
      w.messages ++ [s] := by simp [World.messages]
  refine ⟨?_, ?_, ?_, fun j => ?_, ?_, fun j r hr => ?_, fun j r hr => ?_⟩
  · exact (Function.forall_update_iff _ fun j (c : CRDT) => c.siteId = sid j).mpr
      ⟨hg.siteId.trans (h.siteId i), fun j _ => h.siteId j⟩
  · exact (Function.forall_update_iff _ fun _ (c : CRDT) => ValidDocument c.symbols).mpr
      ⟨hg.valid (h.valid i), fun j _ => h.valid j⟩
  · exact (Function.forall_update_iff _ fun _ (c : CRDT) =>
      c.symbols.flatten.getLast? = some t).mpr ⟨hins.getLast?.trans (h.last i), fun j _ => h.last j⟩
  · rw [hmsg]
    by_cases hj : j = i
    · subst hj
      simpa using (hins.perm.append_right (w.pending j)).trans (hperm _ (h.perm j))
    · simpa [hj, ← List.append_assoc] using
        (List.perm_append_singleton _ _).trans (hperm _ (h.perm j))
  · rw [hmsg, ← List.append_assoc, List.map_append, List.nodup_append]
    refine ⟨h.nodup, by simp, fun a ha b hb hab => hnew ?_⟩
    obtain rfl : b = s.position := by simpa using hb
    exact hab ▸ ha
  · rcases Queues.mem_pushOthers.mp hr with hr | ⟨hj, rfl⟩
    · exact h.signed j r hr
    · exact ⟨i, Ne.symm hj, hsigned⟩
  · rcases Queues.mem_pushOthers.mp hr with hr | ⟨-, rfl⟩
    · exact h.pending j r hr
    · exact ⟨hg.fits.valid, hins.lt_last (h.last i)⟩

theorem Inserting.receive {i : ι} {a b : List Symbol} {s : Symbol} {c : CRDT}
    (h : Inserting sid xs t w) (hp : w.pending i = a ++ s :: b) (hr : Receives (w.state i) s c) :
    Inserting sid xs t
      { w with
        state := Function.update w.state i c
        pending := Function.update w.pending i (a ++ b) } := by
  have hs : s ∈ w.pending i := by simp [hp]
  obtain ⟨hvs, hlt⟩ := h.pending i s hs
  have hnd := ((h.perm i).map Symbol.position).nodup_iff.mpr h.nodup
  have hfresh : ∀ y ∈ (w.state i).symbols.flatten, s.position ≠ y.position := by
    intro y hy he
    rw [List.map_append, List.nodup_append] at hnd
    exact hnd.2.2 _ (List.mem_map_of_mem hy) _ (List.mem_map_of_mem hs) he.symm
  obtain ⟨ls', signals, u, v, hok, hins⟩ :=
    handle_insert (h.valid i).toWellFormed (h.last i) hfresh hlt
  obtain ⟨signals', hr⟩ := hr
  obtain ⟨rfl, -⟩ := Prod.mk.inj (Except.ok.inj (hr.symm.trans hok))
  refine ⟨?_, ?_, ?_, fun j => ?_, h.nodup, fun j r hr => h.signed j r (Queues.mem_of_take hp hr),
    fun j r hr => h.pending j r (Queues.mem_of_take hp hr)⟩
  · exact (Function.forall_update_iff _ fun j (c : CRDT) => c.siteId = sid j).mpr
      ⟨h.siteId i, fun j _ => h.siteId j⟩
  · exact (Function.forall_update_iff _ fun _ (c : CRDT) => ValidDocument c.symbols).mpr
      ⟨hins.valid (h.valid i) hvs, fun j _ => h.valid j⟩
  · exact (Function.forall_update_iff _ fun _ (c : CRDT) =>
      c.symbols.flatten.getLast? = some t).mpr ⟨hins.getLast?.trans (h.last i), fun j _ => h.last j⟩
  · by_cases hj : j = i
    · subst hj
      have hdoc : (ls'.flatten ++ (a ++ b)).Perm
          ((w.state j).symbols.flatten ++ (a ++ s :: b)) := by
        refine (hins.perm.append_right _).trans ?_
        rw [← List.append_assoc _ a (s :: b), List.cons_append, ← List.append_assoc]
        exact List.perm_middle.symm
      simpa [World.messages, hp] using hdoc.trans (hp ▸ h.perm j)
    · simpa [hj, World.messages] using h.perm j

theorem Inserting.step (h : Inserting sid xs t w) (hsid : Function.Injective sid)
    (hs : Step Types Receives w w') : Inserting sid xs t w' := by
  cases hs with
  | emit i he => exact h.emit hsid he
  | receive i hp hr => exact h.receive hp hr

theorem Inserting.of_reachable {ls : Lines} {state : ι → CRDT} (ho : Opened sid ls state)
    (hsid : Function.Injective sid) (ht : ls.flatten.getLast? = some t)
    (h : Reachable Types Receives (.init state) w) : Inserting sid ls.flatten t w := by
  refine h.invariant ?_ fun w w' hw hs => hw.step hsid hs
  exact ⟨ho.siteId, fun i => by simpa [World.init, ho.symbols i] using ho.valid,
    fun i => by simpa [World.init, ho.symbols i] using ht,
    fun i => by simp [World.init, World.messages, ho.symbols i],
    by simpa [World.init, World.messages] using ho.valid.ordered.nodup,
    by simp [World.init], by simp [World.init]⟩

/-- **When a local insertion returns.** In every reachable state, at every place, it throws
exactly if the position before is a proper prefix of the position after, which goes on with
digits 0 of this site and then a digit 0 of a smaller one. -/
theorem localInsert_returns_iff {ls : Lines} {state : ι → CRDT} (ho : Opened sid ls state)
    (hsid : Function.Injective sid) (h : Reachable Types Receives (.init state) w) (i : ι)
    {line index : Int} (hl : 0 ≤ line) (hi : 0 ≤ index)
    (he : Existing (w.state i).symbols line.toNat index.toNat) (value : QChar) (font : QFont)
    (color : QColor) (align : Nat) (chance : Chance) :
    ∃ posBefore posAfter,
      findPosBefore (w.state i).symbols line.toNat index.toNat = .ok posBefore ∧
      findPosAfter (w.state i).symbols line.toNat index.toNat = .ok posAfter ∧
      ((∃ r, (w.state i).localInsert line index value font color align chance = .ok r) ↔
        ¬ Blocked (sid i) posBefore posAfter) := by
  obtain ⟨xs, t, hxs, -⟩ := ho.valid.terminated
  have hinv := Inserting.of_reachable (t := t) ho hsid (by simp [hxs]) h
  obtain ⟨u, x, v, hf, hpl, -⟩ := he.exists_split (hinv.valid i).layout
  obtain ⟨cur, hcb, -⟩ := (hinv.valid i).layout.exists_cursor hf
  have hb : findPosBefore (w.state i).symbols (place u).1 (place u).2 = .ok (posBefore u) :=
    (findPosBefore_spec (hinv.valid i).layout.line_ne_nil cur).trans (by rw [hcb])
  have ha : findPosAfter (w.state i).symbols (place u).1 (place u).2 = .ok x.position :=
    findPosAfter_spec cur
  have hnew := insertNew_spec (hinv.valid i) hf value font color (alignOfInsert align) chance
  rw [hpl] at hb ha hnew
  refine ⟨_, _, hb, ha, ?_⟩
  have hneg : ¬ (line < 0 ∨ index < 0) := by omega
  have hsite := hinv.siteId i
  simp only [CRDT.localInsert, hneg, if_false]
  rcases hnew with ⟨herr, hblocked⟩ | ⟨c', s, hok, -, hfree⟩
  · refine iff_of_false ?_ (not_not.mpr (hsite ▸ hblocked))
    intro hex
    obtain ⟨r, hr⟩ := hex
    obtain ⟨_, h1, -⟩ := bind_eq_ok.mp hr
    rw [herr] at h1
    cases h1
  · refine iff_of_true ⟨(c', .insert s), ?_⟩ (hsite ▸ hfree)
    simp only [hok, bind, Except.bind, pure, Except.pure]

end Run

/-- A new file whose terminator got the digit 1, open at the sites 1 and 2. -/
def tightFile : Bool → CRDT := fun i =>
  .opened (if i then 2 else 1) [[plain QChar.null [⟨1, 1⟩]]]

theorem tightFile_opened :
    Opened (fun i => if i then 2 else 1) [[plain QChar.null [⟨1, 1⟩]]] tightFile :=
  ⟨.single rfl (validPosition_single (by decide) (by decide)), fun _ => rfl, fun _ => rfl⟩

/-- What site 1 puts before the terminator there. -/
def tightLetter : Symbol := ⟨QChar.of 'a', [⟨0, 1⟩, ⟨1, 1⟩], 1, default⟩

theorem tightFile_typed :
    Types (tightFile false) tightLetter
      ⟨1, [[tightLetter, plain QChar.null [⟨1, 1⟩]]], 1, [(1, true)], 1⟩ :=
  ⟨0, 0, QChar.of 'a', default, default, Qt.AlignLeft, ⟨⟨true, 0⟩, .alignLeft⟩,
    ⟨by decide, by decide, _, rfl, by decide⟩, by decide +kernel⟩

/-- Site 1 can go on there, before its letter and after it. -/
theorem localInsert_returns_tight : ∃ posBefore posAfter,
    findPosBefore [[tightLetter, plain QChar.null [⟨1, 1⟩]]] 0 1 = .ok posBefore ∧
    findPosAfter [[tightLetter, plain QChar.null [⟨1, 1⟩]]] 0 1 = .ok posAfter ∧
    ((∃ r, (CRDT.mk 1 [[tightLetter, plain QChar.null [⟨1, 1⟩]]] 1 [(1, true)] 1).localInsert 0 1
        (QChar.of 'b') default default Qt.AlignLeft ⟨⟨true, 0⟩, .alignLeft⟩ = .ok r) ↔
      ¬ Blocked 1 posBefore posAfter) := by
  have hinj : Function.Injective fun i : Bool => if i then (2 : Int) else 1 := by
    intro a b
    cases a <;> cases b <;> simp
  have h1 : Reachable Types Receives (.init tightFile) _ :=
    Relation.ReflTransGen.single (.emit false tightFile_typed)
  exact localInsert_returns_iff tightFile_opened hinj h1 false
    (show (0 : Int) ≤ 0 by decide) (show (0 : Int) ≤ 1 by decide) ⟨_, rfl, by decide⟩
    (QChar.of 'b') default default Qt.AlignLeft ⟨⟨true, 0⟩, .alignLeft⟩

/-- Site 2 cannot insert at the start of the document once it has received that letter: the
digit 0 of site 1 leaves no position below. -/
theorem localInsert_throws :
    ∃ w : World Bool CRDT Symbol, Reachable Types Receives (.init tightFile) w ∧
      Existing (w.state true).symbols 0 0 ∧
      (w.state true).localInsert 0 0 (QChar.of 'b') default default Qt.AlignLeft
        ⟨⟨true, 0⟩, .alignLeft⟩ = .error .invalidOrdering := by
  have hreceives : Receives (tightFile true) tightLetter
      ⟨2, [[tightLetter, plain QChar.null [⟨1, 1⟩]]], 0, [], 1⟩ :=
    ⟨[.insert 0 0 tightLetter], by decide +kernel⟩
  have h1 : Reachable Types Receives (.init tightFile) _ :=
    Relation.ReflTransGen.single (.emit false tightFile_typed)
  exact ⟨_, h1.tail (.receive (a := []) (b := []) true rfl hreceives), ⟨_, rfl, by decide⟩,
    by decide +kernel⟩

end Scriba.Client
