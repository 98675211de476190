import Scriba.Lib.Rejoining
import Scriba.System.Contents
import Scriba.System.Opening

/-! # Opening a file that others edit

A client may open the file at any time, and again later: it starts from the symbols that the server
has then. Contents converge all the same, and a client with no message on its way agrees with the
server without regard to the others. -/

namespace Scriba.System

open Scriba.Utility Scriba.Client Scriba.Server Scriba.Lib Scriba.Lib.Lines Scriba.Lib.Relay

/-- The replica of a client that has opened a file with these symbols, as they are sent. -/
structure Loaded (symbols : SymbolMap) (c : CRDT) : Prop where
  loadable : Loadable symbols.values
  load : ∃ a, (Screen.clear c.siteId).load symbols.values = .ok a ∧ a.crdt = c

/-- It holds the symbols that were sent. -/
theorem Loaded.arranged {symbols : SymbolMap} {P : Symbol → Prop} {c : CRDT}
    (h : Loaded symbols c) (hs : symbols.Contains P) :
    Arranged c.symbols ∧ ∀ y, y ∈ c.symbols.flatten ↔ P y := by
  obtain ⟨hloadable, a, ha, rfl⟩ := h
  have hmem : ∀ r, r ∈ symbols.values ↔ P r := fun r => hs.mem_values
  have hkey := hs.values_pairwise
  have hnd := hs.values_nodup
  generalize symbols.values = vec at hloadable ha hmem hkey hnd
  obtain ⟨s, hin, -⟩ := hloadable.first
  obtain ⟨vec, s, rfl⟩ := (List.eq_nil_or_concat' vec).resolve_left (List.ne_nil_of_mem hin)
  obtain ⟨hn, haw, halign⟩ := (loadable_iff (fun _ => Iff.rfl) hkey).mp hloadable
  obtain ⟨a', ha', hl⟩ := exists_load a.crdt.siteId hn hnd haw
  obtain rfl := Except.ok.inj (ha.symm.trans ha')
  obtain ⟨xs, hperm, hf⟩ := hl.content
  refine ⟨hl.toArranged, fun y => ?_⟩
  have hxs : a.crdt.symbols.flatten = xs :=
    hf.trans ((List.map_congr_left fun y hy => halign y (hperm.mem_iff.mp hy)).trans
      (List.map_id _))
  rw [hxs, hperm.mem_iff, hmem]

/-- What holds throughout a run in which clients come and go. -/
structure Meeting {ι : Type} (xs : List Symbol) (t : Symbol) (w : Clients ι) : Prop
    extends Converging xs t w where
  processed : ∀ m ∈ w.order.map Prod.snd, EditMessage t m

section Meeting

variable {ι : Type} [DecidableEq ι] {ls : Lines} {t : Symbol} {w w' : Clients ι} {c : CRDT}

theorem Meeting.step {xs : List Symbol} (h : Meeting xs t w) (hf : Fifo w)
    (hs : Step (network LocalOp.IsEdit (NeverTwice xs) AsMeant) w w') : Meeting xs t w' := by
  refine ⟨h.toConverging.step hf hs, ?_⟩
  cases hs with
  | perform | deliver => exact h.processed
  | @process i m rest hu =>
    intro n hn
    rw [List.map_append, List.map_singleton] at hn
    rcases List.mem_append.mp hn with hn | hn
    · exact h.processed n hn
    · rw [List.mem_singleton.mp hn]
      exact h.carries.up i m (by simp [hu])

omit [DecidableEq ι] in
/-- The terminator is never erased, and the symbols inserted come before it. -/
theorem Meeting.holds_last (h : Meeting ls.flatten t w) (hd : ValidDocument ls)
    (ht : ls.flatten.getLast? = some t) :
    Holds ls.flatten (w.order.map Prod.snd) t ∧
      ∀ y, Holds ls.flatten (w.order.map Prod.snd) y →
        ValidPosition y.position ∧ (y = t ∨ y.position < t.position) := by
  refine ⟨⟨.inl (List.mem_of_getLast? ht), fun m hm s hs =>
    ((h.processed m hm).erased s hs).ne⟩, fun y hy => ?_⟩
  rcases hy.1 with hx | ⟨m, hm, hx⟩
  · refine ⟨hd.positions y hx, or_iff_not_imp_left.mpr fun hne => ?_⟩
    exact hd.ordered.lt_getLast ht hx hne
  · obtain ⟨hv, hlt⟩ := (h.processed m hm).inserted y hx
    exact ⟨hv, .inr hlt⟩

/-- **A client that opens the file again** holds what it would hold had it been there. -/
theorem Meeting.rejoin (h : Meeting ls.flatten t w) (hf : Fifo w) (hd : ValidDocument ls)
    (ht : ls.flatten.getLast? = some t) {i : ι} (hu : w.up i = []) (ho : Loaded w.server c) :
    Meeting ls.flatten t (w.rejoin i c) := by
  obtain ⟨harr, hmem⟩ := ho.arranged h.server
  obtain ⟨hlast, hall⟩ := h.holds_last hd ht
  have hin : t ∈ c.symbols.flatten := (hmem t).mpr hlast
  -- the terminator comes last
  have hend : c.symbols.flatten.getLast? = some t := by
    obtain ⟨u, y, hy⟩ := (List.eq_nil_or_concat' c.symbols.flatten).resolve_left
      (List.ne_nil_of_mem hin)
    have hyin : y ∈ c.symbols.flatten := by simp [hy]
    rw [hy, List.getLast?_concat]
    by_contra hne
    have hlt := harr.ordered.lt_getLast (by rw [hy, List.getLast?_concat]) hin
      fun he => hne (congrArg some he.symm)
    rcases (hall y ((hmem y).mp hyin)).2 with rfl | hgt
    · exact lt_irrefl _ hlt
    · exact lt_asymm hlt hgt
  have hnull : t.value = QChar.null := by
    obtain ⟨xs, s, hxs, hs⟩ := hd.terminated
    rw [hxs, List.getLast?_concat] at ht
    exact Option.some.inj ht ▸ hs
  have hdoc : DocumentUpTo t c :=
    ⟨⟨⟨harr, by
      obtain ⟨u, hu⟩ := List.getLast?_eq_some_iff.mp hend
      exact ⟨u, t, hu, hnull⟩⟩, fun s hs => (hall s ((hmem s).mp hs)).1⟩, hend⟩
  refine ⟨⟨(Function.forall_update_iff _ fun _ => DocumentUpTo t).mpr
    ⟨hdoc, fun j _ => h.document j⟩, fun j y => ?_, h.server, h.carries.rejoin i c,
    h.causal.rejoin hf hu c, h.distinct.rejoin i c⟩, h.processed⟩
  by_cases hj : j = i
  · subst hj
    simp only [World.rejoin, Function.update_self]
    rw [hmem y]
    exact Holds.congr fun m => ((hf.rejoined hu).mem_iff).symm
  · simpa [World.rejoin, hj] using h.client j y

/-- A client with nothing on its way agrees with the server. -/
theorem Meeting.agrees {xs : List Symbol} (h : Meeting xs t w) (hf : Fifo w) {i : ι}
    (hu : w.up i = []) (hd : w.down i = []) {y : Symbol} :
    y ∈ (w.client i).symbols.flatten ↔ y ∈ w.server.values := by
  have hperm := hf.perm i
  rw [hu, hd, List.append_nil, List.append_nil] at hperm
  rw [h.client i y, h.server.mem_values]
  exact Holds.congr fun m => hperm.mem_iff

omit [DecidableEq ι] in
/-- All clients have just opened the file. -/
theorem meeting_init {state : ι → CRDT} (hd : ValidDocument ls) (h0 : ∀ i, (state i).symbols = ls)
    (ht : ls.flatten.getLast? = some t) :
    Meeting ls.flatten t (.init state (SymbolMap.storeSymbolsServerMemory ls.flatten)) := by
  refine ⟨⟨fun i => ⟨h0 i ▸ hd, ?_⟩, fun i y => ?_, ?_,
    ⟨by simp [World.init], by simp [World.init]⟩,
    .init _ _, .init _ _ hd.ordered.nodup⟩, by simp [World.init]⟩
  · simpa [World.init, h0 i] using ht
  · simp [World.init, h0 i, holds_nil]
  · exact (SymbolMap.contains_storeSymbols hd.ordered.nodup).congr fun y => holds_nil.symm

omit [DecidableEq ι] in
/-- Clients that agree with the server have the same lines. -/
theorem Meeting.alike {xs : List Symbol} (h : Meeting xs t w) {i j : ι}
    (hi : ∀ y, y ∈ (w.client i).symbols.flatten ↔ y ∈ w.server.values)
    (hj : ∀ y, y ∈ (w.client j).symbols.flatten ↔ y ∈ w.server.values) :
    (w.client i).symbols = (w.client j).symbols := by
  have hvi := (h.document i).valid
  have hvj := (h.document j).valid
  exact hvi.layout.ext hvj.layout (hvi.ordered.ext hvj.ordered fun y => (hi y).trans (hj y).symm)

/-- **Contents converge although clients come and go**, where deliveries are as meant, no position
is generated twice and what is loaded is loadable. A client with no message on its way holds the
symbols of the server, two such clients have the same lines, and once no message at all is on its
way these are the symbols that were inserted and not erased. -/
theorem visits_converge {state : ι → CRDT} (hd : ValidDocument ls)
    (h0 : ∀ i, (state i).symbols = ls)
    (h : Visits (network LocalOp.IsEdit (NeverTwice ls.flatten) AsMeant) Loaded
      (.init state (SymbolMap.storeSymbolsServerMemory ls.flatten)) w) :
    (∀ i, w.up i = [] → w.down i = [] →
      ∀ y, y ∈ (w.client i).symbols.flatten ↔ y ∈ w.server.values) ∧
    (∀ i j, w.up i = [] → w.down i = [] → w.up j = [] → w.down j = [] →
      (w.client i).symbols = (w.client j).symbols) ∧
    (w.Quiet → ∀ i y, y ∈ (w.client i).symbols.flatten ↔ Survives ls.flatten w y) := by
  obtain ⟨xs, t, hxs, -⟩ := hd.terminated
  have ht : ls.flatten.getLast? = some t := by rw [hxs, List.getLast?_concat]
  obtain ⟨hf, hc⟩ := h.invariant ⟨fun _ => rfl, fun _ => rfl⟩ (meeting_init hd h0 ht)
    (fun v v' hfv hv hs => hv.step hfv hs) fun v i c hfv hv hu ho => hv.rejoin hfv hd ht hu ho
  refine ⟨fun i hu hdn y => hc.agrees hf hu hdn, fun i j hui hdi huj hdj =>
    hc.alike (fun y => hc.agrees hf hui hdi) fun y => hc.agrees hf huj hdj, fun hq i y => ?_⟩
  rw [hc.client i y, Holds.congr fun m => (hf.quiet hq i).mem_iff, hc.survives_iff hf hq]

end Meeting

/-- A client comes back with what the server has, if it can be told that it may. -/
def comeBack (w : Clients Bool) (i : Bool) : Option (Clients Bool) :=
  match (Screen.clear (w.client i).siteId).load w.server.values with
  | .error _ => none
  | .ok a =>
    if (w.up i).isEmpty ∧ Loadable w.server.values ∧ a.crdt.siteId = (w.client i).siteId then
      some (w.rejoin i a.crdt)
    else none

theorem visits_of_comeBack {N : Network Bool} {w₀ w w' : Clients Bool} {i : Bool}
    (hw : Visits N Loaded w₀ w) (h : comeBack w i = some w') : Visits N Loaded w₀ w' := by
  unfold comeBack at h
  split at h
  case h_1 => cases h
  case h_2 a ha =>
    split_ifs at h with hc
    obtain ⟨hup, hloadable, hsite⟩ := hc
    obtain rfl := Option.some.inj h
    exact hw.tail (.rejoin i (List.isEmpty_iff.mp hup) ⟨hloadable, a, hsite ▸ ha, rfl⟩)

theorem visits_of_reachable {N : Network Bool} {w₀ w w' : Clients Bool} (hw : Visits N Loaded w₀ w)
    (h : Reachable N w w') : Visits N Loaded w₀ w' := by
  induction h with
  | refl => exact hw
  | tail _ hs ih => exact ih.tail (.step hs)

/-- Each client writes; one is away while the other one takes back what it wrote. -/
def awayTurns : List Turn :=
  [.perform false (.insert 0 0 (QChar.of 'a') default default Qt.AlignLeft
      ⟨⟨true, 0⟩, .alignLeft⟩), .process false,
    .perform true (.insertGroup 0 0 [QChar.of 'x', QChar.of 'y'] default default Qt.AlignLeft
      fun _ => ⟨⟨true, 2⟩, .alignLeft⟩), .process true, .deliver false,
    .perform false (.erase 0 0 1), .process false]

/-- The one that comes back writes. -/
def backTurns : List Turn :=
  [.perform true (.insert 0 2 (QChar.of 'b') default default Qt.AlignLeft
      ⟨⟨true, 0⟩, .alignLeft⟩), .process true, .deliver false]

theorem visits_converge_back : ∃ w : Clients Bool,
    (∀ i, (w.client i).symbols.map (List.map Symbol.value) =
      [[QChar.of 'x', QChar.of 'y', QChar.of 'b', QChar.null]]) ∧
    w.Quiet ∧ (∀ i y, y ∈ (w.client i).symbols.flatten ↔ y ∈ w.server.values) ∧
    ∀ i y, y ∈ (w.client i).symbols.flatten ↔ Survives [plain QChar.null [⟨5, 1⟩]] w y := by
  let N : Network Bool := network LocalOp.IsEdit (NeverTwice [plain QChar.null [⟨5, 1⟩]]) AsMeant
  let start : Clients Bool :=
    .init newFile (SymbolMap.storeSymbolsServerMemory [plain QChar.null [⟨5, 1⟩]])
  let next := turn (neverTwiceCheck [plain QChar.null [⟨5, 1⟩]]) asMeantCheck
  have hrun : ((awayTurns.foldlM next start).bind fun w => (comeBack w true).bind
      (backTurns.foldlM next ·)).any (fun w => quietCheck w && [false, true].all fun i =>
        (w.client i).symbols.map (List.map Symbol.value) =
          [[QChar.of 'x', QChar.of 'y', QChar.of 'b', QChar.null]]) = true := by
    decide +kernel
  obtain ⟨w3, hw3, hP⟩ := (Option.any_eq_true _ _).mp hrun
  obtain ⟨w1, h1, h23⟩ := Option.bind_eq_some_iff.mp hw3
  obtain ⟨w2, h2, h3⟩ := Option.bind_eq_some_iff.mp h23
  have hreach : ∀ {turns : List Turn} {w w' : Clients Bool},
      turns.foldlM next w = some w' → Reachable N w w' :=
    reachable_of_turns (neverTwiceCheck [plain QChar.null [⟨5, 1⟩]]) asMeantCheck
      (fun _ _ _ _ => neverTwice_of_check) fun _ _ => asMeant_of_check
  have hvisits : Visits N Loaded start w3 :=
    visits_of_reachable (visits_of_comeBack (visits_of_reachable .refl (hreach h1)) h2) (hreach h3)
  obtain ⟨hquiet, htexts⟩ := Bool.and_eq_true_iff.mp hP
  have hq := quiet_of_check hquiet
  obtain ⟨hserver, -, hsurvive⟩ :=
    visits_converge newFile_opened.valid newFile_opened.symbols hvisits
  refine ⟨w3, fun i => ?_, hq, fun i => hserver i (hq i).1 (hq i).2, hsurvive hq⟩
  exact of_decide_eq_true (List.all_eq_true.mp htexts i (by cases i <;> simp))

end Scriba.System
