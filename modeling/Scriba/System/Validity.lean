import Scriba.System.Contents

/-! # Every replica stays a document

All operations, on a file that started out new. A client keeps a valid document, with the
terminator of the new file at the end and `size` one short of the number of symbols
(`Intact`), as long as what the messages it receives name is there (`Located`): a symbol to
insert is new, and symbols to erase or to change are found in the document, up to one that
comes before whatever is there. -/

namespace Scriba.System

open Scriba.Utility Scriba.Client Scriba.Server Scriba.Lib Scriba.Lib.Lines Scriba.Lib.Relay

/-- A valid document that ends at the position `p`, and its size. -/
structure Intact (p : Position) (c : CRDT) : Prop where
  valid : ValidDocument c.symbols
  last : c.symbols.flatten.getLast?.map Symbol.position = some p
  uncounted : c.uncounted = 1

/-- A message as it is sent from such a document. -/
structure Regular (p : Position) (m : Message) : Prop where
  inserted : ∀ s ∈ m.inserted, ValidPosition s.position ∧ s.position < p
  inserted_nodup : (m.inserted.map Symbol.position).Nodup
  erased : ∀ s ∈ m.erased, s.position < p
  erased_nodup : (m.erased.map Symbol.position).Nodup

/-- What the message names is where the handler looks for it. -/
def Located (c : CRDT) : Message → Prop
  | .insert s => ∀ y ∈ c.symbols.flatten, s.position ≠ y.position
  | .paste symbols => ∀ s ∈ symbols, ∀ y ∈ c.symbols.flatten, s.position ≠ y.position
  | .erase symbols => ∃ found rest, symbols = found ++ rest ∧
      (∀ s ∈ found, ∃ x ∈ c.symbols.flatten, letter s = letter x) ∧
      Stops (without c.symbols.flatten found) rest
  | .change symbols => ∃ found rest, symbols = found ++ rest ∧
      (∀ s ∈ found, ∃ x ∈ c.symbols.flatten, letter s = letter x) ∧ Stops c.symbols.flatten rest
  | .changeSymbol _ | .align _ => True

section Step

variable {c c' : CRDT} {op : LocalOp} {m : Message} {p : Position}

theorem Intact.exists_last (h : Intact p c) :
    ∃ t, c.symbols.flatten.getLast? = some t ∧ t.position = p :=
  Option.map_eq_some_iff.mp h.last

/-- Edits of formats change nothing of it. -/
theorem Intact.of_letter (h : Intact p c) (hl : Layout isNewline c'.symbols)
    (hs : c'.symbols.flatten.map letter = c.symbols.flatten.map letter) (hsize : c'.size = c.size) :
    Intact p c' := by
  have hw : Rewrites c.symbols c'.symbols [] c.symbols.flatten c'.symbols.flatten [] :=
    ⟨hl, by simp, by simp, hs⟩
  refine ⟨hw.valid h.valid, ?_, ?_⟩
  · have hlast := congrArg (fun l => l.getLast?.map Prod.fst) hs
    simp only [List.getLast?_map, Option.map_map] at hlast
    exact hlast.trans h.last
  · have hlen := congrArg List.length hs
    have hu := h.uncounted
    simp only [List.length_map, CRDT.uncounted] at hlen hu ⊢
    omega

theorem Intact.perform (h : Intact p c) (e : LocalEffect c c' op m) :
    Intact p c' ∧ Regular p m := by
  obtain ⟨t, ht, rfl⟩ := h.exists_last
  have hedit : m.IsEdit → Intact t.position c' ∧ Regular t.position m := by
    intro hm
    have ha := applies_of_effect e h.valid hm
    obtain ⟨hmsg, -⟩ := editMessage_of_effect e h.valid ht hm
    exact ⟨⟨ha.valid, by rw [ha.last, ht, Option.map_some],
        (e.uncounted h.valid).trans h.uncounted⟩,
      hmsg.inserted, (e.fresh h.valid).2, hmsg.erased, hmsg.nodup⟩
  have hformat : Layout isNewline c'.symbols →
      c'.symbols.flatten.map letter = c.symbols.flatten.map letter → c'.size = c.size →
      m.inserted = [] → m.erased = [] → Intact t.position c' ∧ Regular t.position m := by
    intro hl hs hsize hi he
    exact ⟨h.of_letter hl hs hsize, by simp [hi], by simp [hi], by simp [he], by simp [he]⟩
  cases e with
  | insert | paste | erase => exact hedit trivial
  | changeSymbol hw hc | align hw _ hc =>
    subst hc
    exact hformat hw.layout hw.map_letter rfl rfl rfl
  | change hw hc =>
    subst hc
    exact hformat (hw.layout h.valid.layout) hw.map_letter rfl rfl rfl

theorem Intact.onReceived (h : Intact p c) (hm : Regular p m) (hc : Located c m) :
    ∃ c' signals, c.onReceived m = .ok (c', signals) ∧ Intact p c' := by
  have hwf := h.valid.toWellFormed
  have hu := h.uncounted
  obtain ⟨t, ht, rfl⟩ := h.exists_last
  have hlast : ∀ {ls : Lines}, ls.flatten.getLast? = c.symbols.flatten.getLast? →
      ls.flatten.getLast?.map Symbol.position = some t.position := fun he => by
    rw [he, ht, Option.map_some]
  simp only [CRDT.uncounted] at hu
  cases m with
  | insert s =>
    have hs := hm.inserted s (by simp [Message.inserted])
    obtain ⟨ls', g, u, v, hok, hins⟩ := handle_insert hwf ht hc hs.2
    refine ⟨_, g, hok, hins.valid h.valid hs.1, hlast hins.getLast?, ?_⟩
    have hlen := hins.perm.length_eq
    simp only [List.length_cons, CRDT.uncounted] at hlen ⊢
    omega
  | paste ss =>
    obtain ⟨ls1, ls', g, ps, hok, hins, hre, -⟩ := handle_paste hwf ht hm.inserted_nodup hc
      fun s hs => (hm.inserted s hs).2
    have hvalid : ValidDocument ls1 := ⟨hins.wellFormed hwf, fun y hy => by
      rcases hins.mem.mp hy with hy | hy
      · exact (hm.inserted y hy).1
      · exact h.valid.positions y hy⟩
    have h1 : Intact t.position { c with symbols := ls1, size := c.size + ss.length } := by
      refine ⟨hvalid, hlast hins.getLast?, ?_⟩
      have hlen : ls1.flatten.length = c.symbols.flatten.length + ss.length := hins.length
      simp only [CRDT.uncounted]
      omega
    exact ⟨_, g, hok, h1.of_letter hre.layout hre.map_letter rfl⟩
  | erase ss =>
    obtain ⟨found, rest, rfl, hfound, hstop⟩ := hc
    obtain ⟨ls', ps, hok, hers⟩ := handle_erase hwf ht found rest
      (hm.erased_nodup.sublist (by simp [Message.erased])) hfound
      (fun s hs => hm.erased s (by simp [Message.erased, hs])) hstop
    have hmem : ∀ y ∈ ls'.flatten, y ∈ c.symbols.flatten := fun y hy => ((hers.mem hwf).mp hy).1
    refine ⟨_, _, hok, ⟨hers.wellFormed hwf, fun y hy => h.valid.positions y (hmem y hy)⟩,
      hlast hers.getLast?, ?_⟩
    have hlen := hers.length
    simp only [CRDT.uncounted] at hlen ⊢
    omega
  | changeSymbol s => exact ⟨c, [], rfl, h⟩
  | change ss =>
    obtain ⟨found, rest, rfl, hfound, hstop⟩ := hc
    obtain ⟨ls', hok, hw⟩ := handle_change hwf found rest (fun s hs => by
      obtain ⟨x, hx, he⟩ := hfound s hs
      exact he ▸ List.mem_map_of_mem hx) hstop
    exact ⟨_, _, hok, h.of_letter (hw.layout hwf.layout) hw.map_letter rfl⟩
  | align s =>
    obtain ⟨ls', g, hok, hre⟩ := handleRemoteAlignChange_total hwf s
    exact ⟨_, g, hok, h.of_letter hre.layout hre.map_letter rfl⟩

end Step

/-- A new file: `on_addCRDTterminator` inserts the terminator into an empty `CRDT`. -/
theorem intact_of_created {siteId : Int} {font : QFont} {color : QColor} {chance : Chance}
    {c : CRDT} {m : Message}
    (h : (CRDT.clear siteId).localInsert 0 0 QChar.null font color Qt.AlignLeft chance =
      .ok (c, m)) :
    ∃ p, Intact p c := by
  obtain ⟨t, hsymbols, hvalue, hvalid, -, -, hsize⟩ := created_symbols h
  refine ⟨t.position, hsymbols ▸ .single hvalue hvalid, by simp [hsymbols], ?_⟩
  simp [CRDT.uncounted, hsymbols, hsize]

/-- **Every replica stays a document**, in every run from a new file whose deliveries find what
they name. -/
theorem replicas_intact {ι : Type} [DecidableEq ι] {siteId : Int} {font : QFont} {color : QColor}
    {chance : Chance} {created : CRDT} {m : Message} {state : ι → CRDT} {server : SymbolMap}
    {w : Clients ι}
    (hcreate : (CRDT.clear siteId).localInsert 0 0 QChar.null font color Qt.AlignLeft chance =
      .ok (created, m))
    (h0 : ∀ i, (state i).symbols = created.symbols ∧ (state i).size = created.size)
    (h : Reachable (network (fun _ => True) (fun _ _ _ => True) Located) (.init state server) w)
    (i : ι) :
    ValidDocument (w.client i).symbols ∧
      (w.client i).size = (w.client i).symbols.flatten.length - 1 := by
  obtain ⟨p, hp⟩ := intact_of_created hcreate
  have hinit : Local (fun _ => Intact p) (Regular p) (.init state server : Clients ι) := by
    refine ⟨⟨by simp [World.init], by simp [World.init]⟩, fun i => ?_⟩
    obtain ⟨hs, hsize⟩ := h0 i
    exact hp.of_letter (hs ▸ hp.valid.layout) (by simp [World.init, hs]) hsize
  obtain ⟨-, hw⟩ := h.invariant hinit fun w w' _ hw hs => by
    refine hw.step ?_ ?_ hs
    · rintro _ c m c' hc ⟨op, -, hl, hop⟩ -
      exact hc.perform (perform_effect hc.valid hl hop)
    · intro _ c m c' hc hm hex
      obtain ⟨hloc, g, hr⟩ := hex
      obtain ⟨c1, g1, hok, h1⟩ := hc.onReceived hm hloc
      obtain ⟨rfl, -⟩ := Prod.mk.inj (Except.ok.inj (hok.symm.trans hr))
      exact h1
  have hu := (hw.client i).uncounted
  refine ⟨(hw.client i).valid, ?_⟩
  simp only [CRDT.uncounted] at hu
  omega

/-- A file created by site 1, and open at site 2 too. -/
def createdFile (i : Bool) : CRDT :=
  ⟨if i then 2 else 1, [[⟨QChar.null, [⟨5, 1⟩], 1, default⟩]], 1, [(0, true)], 0⟩

theorem createdFile_created :
    (CRDT.clear 1).localInsert 0 0 QChar.null default default Qt.AlignLeft ⟨⟨true, 4⟩, .alignLeft⟩ =
      .ok (createdFile false, .insert ⟨QChar.null, [⟨5, 1⟩], 1, default⟩) := by
  decide +kernel

/-- Whether what the message names is where the handler looks for it can be told. -/
def locatedCheck (c : CRDT) : Message → Bool
  | .insert s => c.symbols.flatten.all fun y => s.position ≠ y.position
  | .paste symbols => symbols.all fun s => c.symbols.flatten.all fun y => s.position ≠ y.position
  | .erase symbols =>
    let found := symbols.takeWhile fun s => c.symbols.flatten.any fun x => letter s = letter x
    let rest := symbols.dropWhile fun s => c.symbols.flatten.any fun x => letter s = letter x
    Stops (without c.symbols.flatten found) rest
  | .change symbols =>
    Stops c.symbols.flatten
      (symbols.dropWhile fun s => c.symbols.flatten.any fun x => letter s = letter x)
  | .changeSymbol _ | .align _ => true

theorem located_of_check {c : CRDT} {m : Message} (h : locatedCheck c m = true) : Located c m := by
  have hfound : ∀ symbols : List Symbol,
      ∀ s ∈ symbols.takeWhile (fun s => c.symbols.flatten.any fun x => letter s = letter x),
        ∃ x ∈ c.symbols.flatten, letter s = letter x := fun symbols s hs => by
    simpa only [List.any_eq_true, decide_eq_true_eq] using List.mem_takeWhile_imp hs
  cases m with
  | insert s => exact fun y hy => of_decide_eq_true (List.all_eq_true.mp h y hy)
  | paste symbols =>
    exact fun s hs y hy =>
      of_decide_eq_true (List.all_eq_true.mp (List.all_eq_true.mp h s hs) y hy)
  | erase symbols =>
    exact ⟨_, _, (List.takeWhile_append_dropWhile ..).symm, hfound symbols, of_decide_eq_true h⟩
  | change symbols =>
    exact ⟨_, _, (List.takeWhile_append_dropWhile ..).symm, hfound symbols, of_decide_eq_true h⟩
  | changeSymbol | align => trivial

/-- A letter is typed and a text pasted behind it. The letter becomes bold and is erased, while the
other client aligns its line. -/
def createdTurns : List Turn :=
  [.perform false (.insert 0 0 (QChar.of 'a') default default Qt.AlignLeft
      ⟨⟨true, 0⟩, .alignLeft⟩), .process false, .deliver true,
    .perform true (.insertGroup 0 1 [QChar.of 'x', QChar.newline] default default Qt.AlignLeft
      fun _ => ⟨⟨true, 0⟩, .alignLeft⟩), .process true, .deliver false,
    .perform true (.changeGroup 0 0 0 1 { (default : QFont) with bold := true } default),
    .process true, .deliver false, .perform true (.erase 0 0 1),
    .perform false (.changeAlignment 0 .alignCenter), .process false, .process true,
    .deliver true, .deliver false]

theorem replicas_intact_edited : ∃ w : Clients Bool, w.order.length = 5 ∧
    (∀ i, (w.client i).symbols.map (List.map Symbol.value) =
      [[QChar.of 'x', QChar.newline], [QChar.null]]) ∧
    ∀ i, ValidDocument (w.client i).symbols ∧
      (w.client i).size = (w.client i).symbols.flatten.length - 1 := by
  obtain ⟨w, hw, hP⟩ : ∃ w, Reachable (network (fun _ => True) (fun _ _ _ => True) Located)
      (.init createdFile ∅) w ∧ _ :=
    exists_reachable (fun _ _ _ _ => true) locatedCheck (fun _ _ _ _ _ => ⟨trivial, trivial⟩)
      (fun _ _ => located_of_check) createdTurns
      (P := fun w => w.order.length = 5 ∧ [false, true].all fun i =>
        (w.client i).symbols.map (List.map Symbol.value) =
          [[QChar.of 'x', QChar.newline], [QChar.null]])
      (by decide +kernel)
  obtain ⟨hlength, htexts⟩ := of_decide_eq_true hP
  have h0 : ∀ i, (createdFile i).symbols = (createdFile false).symbols ∧
      (createdFile i).size = (createdFile false).size := fun _ => ⟨rfl, rfl⟩
  refine ⟨w, hlength, fun i => ?_, replicas_intact createdFile_created h0 hw⟩
  exact of_decide_eq_true (List.all_eq_true.mp htexts i (by cases i <;> simp))

/-- Two clients erase the letter after a newline. The first one to hear of the other's erasure
takes the terminator for that letter. -/
theorem terminator_erased : ∃ w : Clients Bool,
    Reachable (network (fun _ => True) (fun _ _ _ => True) fun _ _ => True)
      (.init createdFile ∅) w ∧ ¬ WellFormed (w.client false).symbols := by
  let t : Symbol := ⟨QChar.null, [⟨5, 1⟩], 1, default⟩
  let n : Symbol := ⟨QChar.newline, [⟨1, 1⟩], 2, default⟩
  let b : Symbol := ⟨QChar.of 'b', [⟨2, 1⟩], 3, default⟩
  let N : Network Bool := network (fun _ => True) (fun _ _ _ => True) fun _ _ => True
  let c (i : Bool) (ls : Lines) (size : Int) : CRDT :=
    ⟨if i then 2 else 1, ls, if i then 1 else 3, [(0, true)], size⟩
  have hpaste : N.perform (createdFile false) (.paste [n, b]) (c false [[n], [b, t]] 2) :=
    ⟨.insertGroup 0 0 [QChar.newline, QChar.of 'b'] default default Qt.AlignLeft fun _ =>
      ⟨⟨true, 0⟩, .alignLeft⟩, trivial, ⟨by decide, by decide, _, rfl, by decide⟩,
      by decide +kernel⟩
  have hpasted : N.deliver (createdFile true) (.paste [n, b]) (c true [[n], [b, t]] 2) :=
    ⟨trivial, [.insertGroup (some (0, 0)) [QChar.newline, QChar.of 'b'] (some default),
      .changeAlignment .alignLeft 0 0], by decide +kernel⟩
  have herase : ∀ i, N.perform (c i [[n], [b, t]] 2) (.erase [b]) (c i [[n], [t]] 1) := fun i =>
    ⟨.erase 1 0 1, trivial, ⟨⟨_, rfl, by decide⟩, by cases i <;> decide⟩, by
      cases i <;> decide +kernel⟩
  have herased : N.deliver (c false [[n], [t]] 1) (.erase [b]) (c false [[n]] 0) :=
    ⟨trivial, [.erase (some (1, 0)) 1], by decide +kernel⟩
  have h1 : Reachable N (.init createdFile ∅) _ :=
    Relation.ReflTransGen.single (.perform false hpaste trivial)
  have h2 := (h1.tail (.process false rfl)).tail (.deliver true rfl hpasted)
  have h3 := (h2.tail (.perform false (herase false) trivial)).tail
    (.perform true (herase true) trivial)
  have h4 := (h3.tail (.process true rfl)).tail (.deliver false rfl herased)
  refine ⟨_, h4, fun hw => ?_⟩
  obtain ⟨xs, t', hf, ht'⟩ := hw.terminated
  have hn : [n] = xs ++ [t'] := hf
  have hnt : n = t' := by simpa using congrArg List.getLast? hn
  exact absurd (hnt ▸ ht') (by decide)

end Scriba.System
