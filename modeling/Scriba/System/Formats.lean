import Scriba.Lib.Register
import Scriba.System.Network

/-! # Formats

Changes of formats and of alignments, on a document that stays as it is otherwise. At each
position clients and server keep a value (`Lib.Register`): the symbol. A CHANGE overwrites the
whole symbol everywhere. An ALIGN overwrites the whole symbol at the server, but at a client
only its alignment. -/

namespace Scriba.System

open Scriba.Utility Scriba.Client Scriba.Server Scriba.Lib.Lines Scriba.Lib.Relay

/-- The symbol at a position. -/
def symbolAt (xs : List Symbol) (p : Position) : Option Symbol := xs.find? (·.position = p)

/-- The symbols of a format message. -/
def formatted : Message → List Symbol
  | .change symbols => symbols
  | .align s => [s]
  | _ => []

/-- The last of the symbols that is at the position, as `f` sees it. -/
def overwrite {α : Type} (f : Symbol → α) (p : Position) (symbols : List Symbol) (v : Option α) :
    Option α :=
  symbols.foldl (fun v s => if s.position = p then some (f s) else v) v

/-- What a client makes of the symbol at `p` when it receives a format message. -/
def clientWrites (p : Position) : Message → Option Symbol → Option Symbol
  | .change symbols, v => overwrite id p symbols v
  | .align s, v => if s.position = p then v.map fun x => x.setAlignment s.format.align else v
  | _, v => v

/-- What the server makes of it. -/
def serverWrites (p : Position) (m : Message) (v : Option Symbol) : Option Symbol :=
  overwrite id p (formatted m) v

section Overwrite

variable {α : Type} {f : Symbol → α} {p : Position} {symbols : List Symbol}

theorem overwrite_of_not_mem (h : ¬ ∃ s ∈ symbols, s.position = p) (v : Option α) :
    overwrite f p symbols v = v := by
  induction symbols with
  | nil => rfl
  | cons s symbols ih =>
    have hs : s.position ≠ p := fun he => h ⟨s, by simp, he⟩
    rw [overwrite, List.foldl_cons, if_neg hs]
    exact ih fun ⟨r, hr, he⟩ => h ⟨r, by simp [hr], he⟩

theorem overwrite_of_mem (h : ∃ s ∈ symbols, s.position = p) (v v' : Option α) :
    overwrite f p symbols v = overwrite f p symbols v' := by
  induction symbols generalizing v v' with
  | nil => simp at h
  | cons s symbols ih =>
    simp only [overwrite, List.foldl_cons]
    by_cases hs : s.position = p
    · simp only [if_pos hs]
    · simp only [if_neg hs]
      obtain ⟨r, hr, he⟩ := h
      refine ih ⟨r, (List.mem_cons.mp hr).resolve_left ?_, he⟩ v v'
      rintro rfl
      exact hs he

theorem map_overwrite {β : Type} (g : α → β) (v : Option α) :
    (overwrite f p symbols v).map g = overwrite (g ∘ f) p symbols (v.map g) := by
  induction symbols generalizing v with
  | nil => rfl
  | cons s symbols ih =>
    simp only [overwrite, List.foldl_cons]
    refine (ih _).trans ?_
    by_cases hs : s.position = p <;> simp [overwrite, hs]

end Overwrite

/-! ## The symbol at a position -/

theorem symbolAt_eq_some {xs : List Symbol} (h : Ordered xs) {p : Position} {x : Symbol} :
    symbolAt xs p = some x ↔ x ∈ xs ∧ x.position = p := by
  constructor
  · intro hx
    exact ⟨List.mem_of_find?_eq_some hx, by simpa using List.find?_some hx⟩
  · intro hex
    obtain ⟨hx, rfl⟩ := hex
    cases hf : symbolAt xs x.position with
    | none =>
      have := List.find?_eq_none.mp hf x hx
      simp at this
    | some y =>
      have hy : y.position = x.position := by simpa using List.find?_some hf
      rw [h.inj (List.mem_of_find?_eq_some hf) hx hy]

theorem symbolAt_rewrites {ls ls' : Lines} {u v : List Symbol} {x s : Symbol}
    (h : WellFormed ls) (hw : Rewrites ls ls' u [x] [s] v) (p : Position) :
    symbolAt ls'.flatten p = if s.position = p then some s else symbolAt ls.flatten p := by
  have hpos : s.position = x.position := by
    simpa [letter] using congrArg (List.map Prod.fst) hw.same
  split_ifs with hp
  · rw [symbolAt_eq_some (hw.wellFormed h).ordered]
    exact ⟨by simp [hw.new], hp⟩
  · have hs : ([s] : List Symbol).find? (·.position = p) = none := by simp [hp]
    have hx : ([x] : List Symbol).find? (·.position = p) = none := by simp [← hpos, hp]
    simp only [symbolAt, hw.new, hw.old, List.find?_append, hs, hx]

theorem symbolAt_overwrites {ls ls' : Lines} {ss : List Symbol} (h : WellFormed ls)
    (hw : Overwrites ls ls' ss) (p : Position) :
    symbolAt ls'.flatten p = overwrite id p ss (symbolAt ls.flatten p) := by
  induction hw with
  | nil => rfl
  | cons hw _ ih =>
    rw [ih (hw.wellFormed h), symbolAt_rewrites h hw p]
    rfl

theorem getElem?_storeSymbols {xs : List Symbol} (h : Ordered xs) (p : Position) :
    (SymbolMap.storeSymbolsServerMemory xs)[Symbol.keyOf p]? = symbolAt xs p := by
  refine Option.ext ?_
  intro s
  rw [SymbolMap.contains_storeSymbols h.nodup, symbolAt_eq_some h, and_comm]
  exact and_congr_right fun _ => ⟨fun he => (keyOf_injective he).symm, fun he => he ▸ rfl⟩

theorem getElem?_insertAll (symbols : SymbolMap) (vec : List Symbol) (p : Position) :
    (vec.foldl SymbolMap.insertSymbol symbols)[Symbol.keyOf p]? =
      overwrite id p vec symbols[Symbol.keyOf p]? := by
  induction vec generalizing symbols with
  | nil => rfl
  | cons s vec ih =>
    rw [List.foldl_cons, ih, SymbolMap.getElem?_insertSymbol, overwrite, overwrite, List.foldl_cons]
    simp only [Symbol.positionString, keyOf_injective.eq_iff, eq_comm, id]

/-! ## One format change -/

/-- The client has a valid document with these positions and values. -/
structure Spells (letters : List (Position × QChar)) (c : CRDT) : Prop where
  valid : ValidDocument c.symbols
  letters : c.symbols.flatten.map letter = letters

/-- A format message as it is sent from such a document: it names symbols of it, and an alignment
names the end of a line. -/
def Fitting (letters : List (Position × QChar)) : Message → Prop
  | .change symbols => ∀ s ∈ symbols, letter s ∈ letters
  | .align s => ∃ u v, letters = u ++ letter s :: v ∧ (s.value = QChar.newline ∨ v = [])
  | _ => False

/-- `localChangeGroup` and `localChangeAlignment`. -/
def IsFormat : LocalOp → Prop
  | .changeGroup .. | .changeAlignment .. => True
  | _ => False

section Effect

variable {letters : List (Position × QChar)} {c c' : CRDT} {m : Message}

theorem Overwrites.mem_letter {ls ls' : Lines} {ss : List Symbol} (h : Overwrites ls ls' ss) :
    ∀ s ∈ ss, letter s ∈ ls.flatten.map letter := by
  induction h with
  | nil => simp
  | @cons ls ls1 ls' u v ss x s hw _ ih =>
    intro r hr
    rcases List.mem_cons.mp hr with rfl | hr
    · have hs : letter r = letter x := by simpa using hw.same
      rw [hs, hw.old]
      simp
    · exact hw.map_letter ▸ ih r hr

theorem Spells.of_overwrites (h : Spells letters c) {ls' : Lines} {ss : List Symbol}
    (hw : Overwrites c.symbols ls' ss) : Spells letters { c with symbols := ls' } :=
  ⟨hw.valid h.valid, hw.map_letter.trans h.letters⟩

theorem Spells.of_rewrites (h : Spells letters c) {ls' : Lines} {u w w' v : List Symbol}
    (hw : Rewrites c.symbols ls' u w w' v) : Spells letters { c with symbols := ls' } :=
  ⟨hw.valid h.valid, hw.map_letter.trans h.letters⟩

/-- An alignment writes the same at a client that has its symbol. -/
theorem clientWrites_align {p : Position} {x : Symbol} {align : SymbolFormat.Alignment}
    {v : Option Symbol} (h : x.position = p → v = some x) :
    clientWrites p (.align (x.setAlignment align)) v =
      serverWrites p (.align (x.setAlignment align)) v := by
  change (if x.position = p then v.map fun y => y.setAlignment align else v) =
    if x.position = p then some (x.setAlignment align) else v
  by_cases hp : x.position = p
  · rw [if_pos hp, if_pos hp, h hp]
    rfl
  · rw [if_neg hp, if_neg hp]

/-- A local change writes at its client what the server will store, which is also what it writes
at a client with the same symbols. -/
theorem perform_format {op : LocalOp} (h : Spells letters c) (hop : IsFormat op)
    (hl : op.Legal c.symbols) (hp : op.perform c = .ok (c', m)) :
    Spells letters c' ∧ Fitting letters m ∧ ∀ p,
      symbolAt c'.symbols.flatten p = serverWrites p m (symbolAt c.symbols.flatten p) ∧
      clientWrites p m (symbolAt c.symbols.flatten p) =
        serverWrites p m (symbolAt c.symbols.flatten p) := by
  have hwf := h.valid.toWellFormed
  cases perform_effect h.valid hl hp with
  | change hw hc =>
    subst hc
    exact ⟨h.of_overwrites hw, fun s hs => h.letters ▸ Overwrites.mem_letter hw s hs,
      fun p => ⟨symbolAt_overwrites hwf hw p, rfl⟩⟩
  | @align line align ls' u v x hw hend hc =>
    subst hc
    have hx : x ∈ c.symbols.flatten := by simp [hw.old]
    refine ⟨h.of_rewrites hw, ⟨u.map letter, v.map letter, ?_, ?_⟩, fun p => ⟨?_, ?_⟩⟩
    · rw [← h.letters, hw.old]
      simp [letter]
    · simpa [EndsLine] using hend
    · exact symbolAt_rewrites hwf hw p
    · exact clientWrites_align fun hxp => (symbolAt_eq_some hwf.ordered).mpr ⟨hx, hxp⟩
  | insert | paste | erase | changeSymbol => exact hop.elim

theorem onReceived_format (h : Spells letters c) (hm : Fitting letters m) :
    ∃ c' signals, c.onReceived m = .ok (c', signals) ∧ Spells letters c' ∧
      ∀ p, symbolAt c'.symbols.flatten p = clientWrites p m (symbolAt c.symbols.flatten p) := by
  have hwf := h.valid.toWellFormed
  cases m with
  | change ss =>
    obtain ⟨ls', hok, hw⟩ := handle_change hwf ss [] (fun s hs => h.letters ▸ hm s hs)
      (by simp [Stops])
    rw [List.append_nil] at hok
    exact ⟨_, _, hok, h.of_overwrites hw, symbolAt_overwrites hwf hw⟩
  | align s =>
    obtain ⟨u', v', hL, hend⟩ := hm
    have hL := h.letters.trans hL
    obtain ⟨u, xv, hf, rfl, hxv⟩ := List.map_eq_append_iff.mp hL
    obtain ⟨x, v, rfl, hx, rfl⟩ := List.map_eq_cons_iff.mp hxv
    have hpos : s.position = x.position := (congrArg Prod.fst hx).symm
    have hval : x.value = s.value := congrArg Prod.snd hx
    obtain ⟨ls', hok, hw⟩ := handleRemoteAlignChange_lineEnd hwf.toArranged hf
      (by simpa [EndsLine, hval] using hend) hpos
    refine ⟨_, _, hok, h.of_rewrites hw, fun p => ?_⟩
    have hmem : x ∈ c.symbols.flatten := by simp [hf]
    simp only [clientWrites]
    refine (symbolAt_rewrites hwf hw p).trans ?_
    simp only [Symbol.setAlignment_position, ← hpos]
    split_ifs with hp
    · rw [(symbolAt_eq_some hwf.ordered).mpr ⟨hmem, hpos ▸ hp⟩]
      rfl
    · rfl
  | insert | paste | erase | changeSymbol => exact hm.elim

theorem store_format (symbols : SymbolMap) (hm : Fitting letters m) (p : Position) :
    (symbols.store m)[Symbol.keyOf p]? = serverWrites p m symbols[Symbol.keyOf p]? := by
  cases m with
  | change ss => exact getElem?_insertAll symbols ss p
  | align s => exact getElem?_insertAll symbols [s] p
  | insert | paste | erase | changeSymbol => exact hm.elim

/-- A position that a format message names is one of the document. -/
theorem symbolAt_isSome (h : Spells letters c) (hm : Fitting letters m) {s : Symbol}
    (hs : s ∈ formatted m) : (symbolAt c.symbols.flatten s.position).isSome := by
  have hmem : letter s ∈ c.symbols.flatten.map letter := by
    rw [h.letters]
    cases m with
    | change ss => exact hm s hs
    | align r =>
      obtain ⟨u, v, rfl, -⟩ := hm
      rw [List.mem_singleton.mp hs]
      simp
    | insert | paste | erase | changeSymbol => exact hm.elim
  obtain ⟨x, hx, he⟩ := List.mem_map.mp hmem
  have hpos : x.position = s.position := congrArg Prod.fst he
  rw [(symbolAt_eq_some h.valid.ordered).mpr ⟨hx, hpos⟩]
  rfl

end Effect

/-! ## Parts of a symbol -/

/-- The message names the position. -/
def Names (p : Position) (m : Message) : Prop := ∃ s ∈ formatted m, s.position = p

/-- It is a CHANGE, and names the position. -/
def Changes (p : Position) : Message → Prop
  | .change symbols => ∃ s ∈ symbols, s.position = p
  | _ => False

def alignment (s : Symbol) : SymbolFormat.Alignment := s.format.align

/-- The format but its alignment. -/
def font (s : Symbol) : SymbolFormat := (sansAlign s).format

/-- What messages write of the alignment, and of the rest of the format. -/
def alignmentWrites (p : Position) (m : Message) (v : Option SymbolFormat.Alignment) :
    Option SymbolFormat.Alignment :=
  overwrite alignment p (formatted m) v

def fontWrites (p : Position) : Message → Option SymbolFormat → Option SymbolFormat
  | .change symbols, v => overwrite font p symbols v
  | _, v => v

section Parts

variable {p : Position} {m : Message} {v : Option Symbol}

theorem clientWrites_other (h : ¬ Names p m) : clientWrites p m v = v := by
  cases m with
  | change => exact overwrite_of_not_mem h v
  | align s => exact if_neg fun hs => h ⟨s, by simp [formatted], hs⟩
  | insert | paste | erase | changeSymbol => rfl

theorem alignment_serverWrites :
    (serverWrites p m v).map alignment = alignmentWrites p m (v.map alignment) :=
  map_overwrite alignment v

theorem alignment_clientWrites (h : ∀ s ∈ formatted m, s.position = p → v.isSome) :
    (clientWrites p m v).map alignment = alignmentWrites p m (v.map alignment) := by
  cases m with
  | change => exact map_overwrite alignment v
  | align s =>
    simp only [clientWrites, alignmentWrites, formatted, overwrite, List.foldl_cons, List.foldl_nil]
    by_cases hs : s.position = p
    · obtain ⟨x, rfl⟩ := Option.isSome_iff_exists.mp (h s (by simp [formatted]) hs)
      simp [hs, alignment]
    · simp [hs]
  | insert | paste | erase | changeSymbol => rfl

theorem font_clientWrites : (clientWrites p m v).map font = fontWrites p m (v.map font) := by
  cases m with
  | change => exact map_overwrite font v
  | align s =>
    simp only [clientWrites, fontWrites]
    split_ifs
    · rw [Option.map_map]
      rfl
    · rfl
  | insert | paste | erase | changeSymbol => rfl

theorem font_serverWrites (h : ∀ s, m = .align s → s.position ≠ p) :
    (serverWrites p m v).map font = fontWrites p m (v.map font) := by
  cases m with
  | change => exact map_overwrite font v
  | align s =>
    have hs : ¬ ∃ r ∈ [s], r.position = p := by simpa using h s rfl
    rw [serverWrites, formatted, overwrite_of_not_mem hs]
    rfl
  | insert | paste | erase | changeSymbol => rfl

theorem fontWrites_other {v : Option SymbolFormat} (h : ¬ Changes p m) : fontWrites p m v = v := by
  cases m with
  | change => exact overwrite_of_not_mem h v
  | insert | paste | erase | changeSymbol | align => rfl

theorem fontWrites_over (h : Changes p m) (v v' : Option SymbolFormat) :
    fontWrites p m v = fontWrites p m v' := by
  cases m with
  | change => exact overwrite_of_mem h v v'
  | insert | paste | erase | changeSymbol | align => exact h.elim

end Parts

/-! ## Runs -/

instance (op : LocalOp) : Decidable (IsFormat op) :=
  match op with
  | .changeGroup .. | .changeAlignment .. => .isTrue trivial
  | .insert .. | .insertGroup .. | .erase .. | .change .. => .isFalse id

/-- Clients that change formats. -/
def formatting {ι : Type} (may : Clients ι → ι → Message → Prop) : Network ι :=
  network IsFormat may fun _ _ => True

section Run

variable {ι : Type} {ls : Lines} {may : Clients ι → ι → Message → Prop}
  {w w' : Clients ι}

/-- What holds throughout a run that started from the document `ls`. -/
structure Formatting (ls : Lines) (w : Clients ι) : Prop extends
    Local (fun _ => Spells (ls.flatten.map letter)) (Fitting (ls.flatten.map letter)) w where
  server : ∀ p, w.server[Symbol.keyOf p]? =
    run (serverWrites p) (w.order.map Prod.snd) (symbolAt ls.flatten p)
  alignment : ∀ p, Settled (fun c => (symbolAt c.symbols.flatten p).map alignment) (Names p)
    (alignmentWrites p) ((symbolAt ls.flatten p).map alignment) w
  font : ∀ p, Settled (fun c => (symbolAt c.symbols.flatten p).map font) (Changes p)
    (fontWrites p) ((symbolAt ls.flatten p).map font) w

/-- At a position where writes never cross. -/
abbrev AgreedAt (p : Position) : Clients ι → Prop :=
  Agreed (Names p) (fun c => symbolAt c.symbols.flatten p) (fun s => s[Symbol.keyOf p]?)
    (clientWrites p) (serverWrites p)

theorem Formatting.performs (h : Formatting ls w) {i : ι} {m : Message} {c' : CRDT}
    (hp : (formatting may).perform (w.client i) m c') :
    Spells (ls.flatten.map letter) c' ∧ Fitting (ls.flatten.map letter) m ∧ ∀ p,
      symbolAt c'.symbols.flatten p = serverWrites p m (symbolAt (w.client i).symbols.flatten p) ∧
      clientWrites p m (symbolAt (w.client i).symbols.flatten p) =
        serverWrites p m (symbolAt (w.client i).symbols.flatten p) := by
  obtain ⟨op, hop, hl, hp⟩ := hp
  exact perform_format (h.client i) hop hl hp

theorem Formatting.delivers (h : Formatting ls w) {i : ι} {m : Message} {rest : List Message}
    {c' : CRDT} (hd : w.down i = m :: rest) (hr : (formatting may).deliver (w.client i) m c') :
    Spells (ls.flatten.map letter) c' ∧ Fitting (ls.flatten.map letter) m ∧ ∀ p,
      symbolAt c'.symbols.flatten p =
        clientWrites p m (symbolAt (w.client i).symbols.flatten p) := by
  obtain ⟨-, g, hr⟩ := hr
  have hm := h.down i m (by simp [hd])
  obtain ⟨c1, g1, hok, h1, h2⟩ := onReceived_format (h.client i) hm
  obtain ⟨rfl, -⟩ := Prod.mk.inj (Except.ok.inj (hok.symm.trans hr))
  exact ⟨h1, hm, h2⟩

theorem Formatting.step [DecidableEq ι] (h : Formatting ls w) (hs : Step (formatting may) w w') :
    Formatting ls w' := by
  refine ⟨h.toLocal.step ?_ ?_ hs, fun p => ?_, fun p => ?_, fun p => ?_⟩
  · rintro i c m c' hc ⟨op, hop, hl, hp⟩ -
    have hf := perform_format hc hop hl hp
    exact ⟨hf.1, hf.2.1⟩
  · intro i c m c' hc hm hex
    obtain ⟨-, g, hr⟩ := hex
    obtain ⟨c1, g1, hok, h1, -⟩ := onReceived_format hc hm
    obtain ⟨rfl, -⟩ := Prod.mk.inj (Except.ok.inj (hok.symm.trans hr))
    exact h1
  · exact run_order_step (fun s : SymbolMap => s[Symbol.keyOf p]?) (h.server p)
      (fun i m rest hu => store_format _ (h.up i m (by simp [hu])) p) hs
  · refine (h.alignment p).step (fun m v hm => overwrite_of_not_mem hm v)
      (fun m v v' hm => overwrite_of_mem hm v v') ?_ ?_ hs
    · intro i m c' hp
      rw [((h.performs hp).2.2 p).1, alignment_serverWrites]
    · intro i m rest c' hd hr
      obtain ⟨-, hm, hread⟩ := h.delivers hd hr
      rw [hread p]
      exact alignment_clientWrites fun s hs hp => hp ▸ symbolAt_isSome (h.client i) hm hs
  · refine (h.font p).step (fun m v hm => fontWrites_other hm)
      (fun m v v' hm => fontWrites_over hm v v') ?_ ?_ hs
    · intro i m c' hp
      obtain ⟨hread, hsame⟩ := (h.performs hp).2.2 p
      rw [hread, ← hsame, font_clientWrites]
    · intro i m rest c' hd hr
      rw [(h.delivers hd hr).2.2 p, font_clientWrites]

theorem AgreedAt.step [DecidableEq ι] {p : Position} (ha : AgreedAt p w) (h : Formatting ls w)
    (hcalm : ∀ w i m, may w i m → Names p m → Calm (Names p) w i)
    (hs : Step (formatting may) w w') : AgreedAt p w' :=
  Agreed.step ha (fun _ _ hm => clientWrites_other hm) (fun m v hm => overwrite_of_not_mem hm v)
    (fun i m hmay hm => hcalm w i m hmay hm) (fun _ _ _ hp => (h.performs hp).2.2 p)
    (fun i m rest hu => store_format _ (h.up i m (by simp [hu])) p)
    (fun _ _ _ _ hd hr => (h.delivers hd hr).2.2 p) hs

theorem Formatting.init {state : ι → CRDT} (hd : ValidDocument ls)
    (h0 : ∀ i, (state i).symbols = ls) :
    Formatting ls (.init state (SymbolMap.storeSymbolsServerMemory ls.flatten)) := by
  refine ⟨⟨⟨by simp [World.init], by simp [World.init]⟩, fun i => ⟨?_, ?_⟩⟩, fun p => ?_,
    fun p i _ _ => ?_, fun p i _ _ => ?_⟩
  · exact h0 i ▸ hd
  · simp [World.init, h0 i]
  · exact getElem?_storeSymbols hd.ordered p
  · simp [World.init, h0 i]
  · simp [World.init, h0 i]

theorem AgreedAt.init {state : ι → CRDT} (hd : ValidDocument ls)
    (h0 : ∀ i, (state i).symbols = ls) (p : Position) :
    AgreedAt p (.init state (SymbolMap.storeSymbolsServerMemory ls.flatten)) := by
  refine ⟨fun i => ?_, fun i j _ => .inl (by simp [World.init]), fun i a m b he => ?_⟩
  · simp only [World.init, run_nil, h0 i]
    exact (getElem?_storeSymbols hd.ordered p).symm
  · simp [World.init] at he

/-- **Formats converge** at a position where no two changes cross. Whatever crosses, a client that
did not make the last change holds the server's alignment; the clients that did not make the
last CHANGE agree on the rest of the format, with the server too if no ALIGN named the position. -/
theorem formats_converge [DecidableEq ι] {state : ι → CRDT} (hd : ValidDocument ls)
    (h0 : ∀ i, (state i).symbols = ls)
    (h : Reachable (formatting may)
      (.init state (SymbolMap.storeSymbolsServerMemory ls.flatten)) w) (hq : w.Quiet)
    (p : Position) :
    ((∀ w i m, may w i m → Names p m → Calm (Names p) w i) →
      ∀ i, symbolAt (w.client i).symbols.flatten p = w.server[Symbol.keyOf p]?) ∧
    (∀ i, ¬ LastBy (Names p) w.order i →
      (symbolAt (w.client i).symbols.flatten p).map alignment =
        w.server[Symbol.keyOf p]?.map alignment) ∧
    ∀ i, ¬ LastBy (Changes p) w.order i →
      (∀ j, ¬ LastBy (Changes p) w.order j →
        (symbolAt (w.client i).symbols.flatten p).map font =
          (symbolAt (w.client j).symbols.flatten p).map font) ∧
      ((∀ m ∈ w.order.map Prod.snd, ∀ s, m = .align s → s.position ≠ p) →
        (symbolAt (w.client i).symbols.flatten p).map font =
          w.server[Symbol.keyOf p]?.map font) := by
  obtain ⟨-, hw⟩ := h.invariant (Formatting.init hd h0) fun w w' _ hw hs => hw.step hs
  have hquiet : ∀ {writes : Message → Prop} (i : ι), ∀ m ∈ w.up i, ¬ writes m := fun i m hm => by
    simp [(hq i).1] at hm
  refine ⟨fun hcalm i => ?_, fun i hi => ?_, fun i hi => ?_⟩
  · obtain ⟨-, -, ha⟩ := h.invariant (I := fun w => Formatting ls w ∧ AgreedAt p w)
      ⟨Formatting.init hd h0, AgreedAt.init hd h0 p⟩
      fun w w' _ hw hs => ⟨hw.1.step hs, AgreedAt.step hw.2 hw.1 hcalm hs⟩
    simpa [(hq i).1, (hq i).2] using ha.agree i
  · have ha := hw.alignment p i (hquiet i) hi
    rw [(hq i).2, run_nil] at ha
    rw [hw.server p]
    refine ha.trans (map_run (Option.map alignment) (fun m _ v => ?_) _).symm
    exact alignment_serverWrites
  · have hfont : ∀ j, ¬ LastBy (Changes p) w.order j →
        (symbolAt (w.client j).symbols.flatten p).map font =
          run (fontWrites p) (w.order.map Prod.snd) ((symbolAt ls.flatten p).map font) := by
      intro j hj
      have ha := hw.font p j (hquiet j) hj
      rwa [(hq j).2, run_nil] at ha
    refine ⟨fun j hj => (hfont i hi).trans (hfont j hj).symm, fun halign => ?_⟩
    rw [hfont i hi, hw.server p]
    refine (map_run (Option.map font) (fun m hm v => ?_) _).symm
    exact font_serverWrites (halign m hm)

end Run

/-- Nobody changes a format while a change of it is on its way to him. -/
def NeverCross (w : Clients Bool) (i : Bool) (m : Message) : Prop :=
  ∀ p, Names p m → Calm (Names p) w i

/-- Whether a change of one of two clients crosses none can be told. -/
def neverCrossCheck (w : Clients Bool) (i : Bool) (op : LocalOp) (m : Message) : Bool :=
  IsFormat op && (w.down i ++ w.up (!i)).all fun n =>
    (formatted n).all fun y => (formatted m).all fun s => y.position ≠ s.position

theorem neverCross_of_check {w : Clients Bool} {i : Bool} {op : LocalOp} {m : Message}
    (h : neverCrossCheck w i op m = true) : IsFormat op ∧ NeverCross w i m := by
  simp only [neverCrossCheck, Bool.and_eq_true, decide_eq_true_eq, List.all_eq_true] at h
  obtain ⟨hop, h⟩ := h
  have hall : ∀ n ∈ w.down i ++ w.up (!i), ∀ p, Names p m → ¬ Names p n := by
    rintro n hn p ⟨s, hs, rfl⟩ ⟨y, hy, he⟩
    exact h n hn y hy s hs he
  refine ⟨hop, fun p hp => ⟨fun n hn => hall n (List.mem_append_left _ hn) p hp, ?_⟩⟩
  intro j hj n hn
  have hother : j = !i := by cases i <;> cases j <;> simp_all
  exact hall n (List.mem_append_right _ (hother ▸ hn)) p hp

/-- Two lines, open at the sites 1 and 2. -/
def linesFile (i : Bool) : CRDT :=
  .opened (if i then 2 else 1) [[plain (QChar.of 'a') [⟨1, 1⟩], plain QChar.newline [⟨2, 1⟩]],
    [plain (QChar.of 'b') [⟨3, 1⟩], plain QChar.null [⟨5, 1⟩]]]

theorem linesFile_valid : ValidDocument (linesFile false).symbols := by
  refine ⟨⟨⟨.cons ⟨[_], _, rfl, by decide, by decide⟩ (.last ⟨by decide, by decide⟩),
    by unfold Ordered; decide⟩, [_, _, _], _, rfl, rfl⟩, ?_⟩
  have hp : ∀ digit : Int, 1 ≤ digit → digit < BASE → ValidPosition [⟨digit, 1⟩] :=
    fun _ h => validPosition_single h
  intro s hs
  rcases List.mem_cons.mp hs with rfl | hs
  · exact hp 1 (by decide) (by decide)
  rcases List.mem_cons.mp hs with rfl | hs
  · exact hp 2 (by decide) (by decide)
  rcases List.mem_cons.mp hs with rfl | hs
  · exact hp 3 (by decide) (by decide)
  · exact List.mem_singleton.mp hs ▸ hp 5 (by decide) (by decide)

/-- One client makes the first line bold, and the other one centers it then. After that each changes
a line of its own. -/
def formatTurns : List Turn :=
  [.perform false (.changeGroup 0 0 0 1 { (default : QFont) with bold := true } default),
    .process false, .deliver true, .perform true (.changeAlignment 0 .alignCenter),
    .process true, .deliver false,
    .perform false (.changeGroup 0 0 0 0 { (default : QFont) with italic := true } default),
    .perform true (.changeGroup 1 1 0 0 { (default : QFont) with bold := true } default),
    .perform true (.changeAlignment 1 .alignRight), .process true, .process false,
    .process true, .deliver false, .deliver true, .deliver false]

theorem formats_converge_lines : ∃ w : Clients Bool,
    (∀ i, (w.client i).symbols.flatten.map (fun s => (s.format.bold, s.format.italic,
      s.format.align)) = [(false, true, .alignLeft), (true, false, .alignCenter),
        (true, false, .alignLeft), (false, false, .alignRight)]) ∧
    ∀ p i, symbolAt (w.client i).symbols.flatten p = w.server[Symbol.keyOf p]? := by
  obtain ⟨w, hw, hP⟩ : ∃ w, Reachable (formatting NeverCross) (.init linesFile
      (SymbolMap.storeSymbolsServerMemory (linesFile false).symbols.flatten)) w ∧ _ :=
    exists_reachable neverCrossCheck (fun _ _ => true) (fun _ _ _ _ => neverCross_of_check)
      (fun _ _ _ => trivial) formatTurns
      (P := fun w => quietCheck w && [false, true].all fun i =>
        (w.client i).symbols.flatten.map (fun s => (s.format.bold, s.format.italic,
          s.format.align)) = [(false, true, .alignLeft), (true, false, .alignCenter),
            (true, false, .alignLeft), (false, false, .alignRight)])
      (by decide +kernel)
  obtain ⟨hquiet, hformats⟩ := Bool.and_eq_true_iff.mp hP
  have h0 : ∀ i, (linesFile i).symbols = (linesFile false).symbols := fun _ => rfl
  refine ⟨w, fun i => ?_, fun p =>
    (formats_converge linesFile_valid h0 hw (quiet_of_check hquiet) p).1 fun w i m hmay => hmay p⟩
  exact of_decide_eq_true (List.all_eq_true.mp hformats i (by cases i <;> simp))

/-- Two clients align the same line, and each ends with what the other one chose. -/
theorem formats_cross : ∃ (ls : Lines) (state : Bool → CRDT) (w : Clients Bool),
    ValidDocument ls ∧ (∀ i, (state i).symbols = ls) ∧
    Reachable (formatting fun _ _ _ => True)
      (.init state (SymbolMap.storeSymbolsServerMemory ls.flatten)) w ∧ w.Quiet ∧
    ∃ p, symbolAt (w.client true).symbols.flatten p ≠ symbolAt (w.client false).symbols.flatten p ∧
      symbolAt (w.client true).symbols.flatten p ≠ w.server[Symbol.keyOf p]? := by
  let t := plain QChar.null [⟨5, 1⟩]
  let a (i : Bool) : Symbol := t.setAlignment (if i then .alignRight else .alignCenter)
  let N : Network Bool := formatting fun _ _ _ => True
  have haligned : ∀ i, N.perform (newFile i) (.align (a i)) { newFile i with symbols := [[a i]] } :=
    fun i => ⟨.changeAlignment 0 (if i then .alignRight else .alignCenter), trivial, trivial, by
      cases i <;> decide +kernel⟩
  have hreceived : ∀ i, N.deliver { newFile i with symbols := [[a i]] } (.align (a !i))
      { newFile i with symbols := [[a !i]] } := fun i =>
    ⟨trivial, [.changeAlignment (a !i).format.align 0 0], by cases i <;> decide +kernel⟩
  have h1 : Reachable N (.init newFile (SymbolMap.storeSymbolsServerMemory [t])) _ :=
    Relation.ReflTransGen.single (.perform false (haligned false) trivial)
  have h2 := h1.tail (.perform true (haligned true) trivial)
  have h3 := (h2.tail (.process false rfl)).tail (.process true rfl)
  have h4 := (h3.tail (.deliver false rfl (hreceived false))).tail
    (.deliver true rfl (hreceived true))
  refine ⟨[[t]], newFile, _, newFile_opened.valid, newFile_opened.symbols, h4, ?_, [⟨5, 1⟩],
    by decide, by decide +kernel⟩
  intro i
  cases i <;> exact ⟨rfl, rfl⟩

end Scriba.System
