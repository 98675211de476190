import Scriba.Client.Search
import Scriba.Client.LocalEdits

/-! # The handlers of remote messages

What each handler does to a well formed document when the message names symbols as a
concurrent editor sees them: an inserted symbol goes before the first larger one, an erased
or changed symbol is looked up by its position. -/

namespace Scriba.Client

open Scriba.Utility Scriba.Lib Scriba.Lib.Lines

/-- Every position up to the last one has its place. -/
theorem exists_bound {xs : List Symbol} {p : Position} (h : ∃ t ∈ xs, p ≤ t.position) :
    ∃ u x v, xs = u ++ x :: v ∧ (∀ y ∈ u, y.position < p) ∧ p ≤ x.position := by
  induction xs with
  | nil => simp at h
  | cons y xs ih =>
    by_cases hy : p ≤ y.position
    · exact ⟨[], y, xs, rfl, by simp, hy⟩
    · obtain ⟨t, ht, hp⟩ := h
      rcases List.mem_cons.mp ht with rfl | ht
      · exact absurd hp hy
      · obtain ⟨u, x, v, rfl, hu, hx⟩ := ih ⟨t, ht, hp⟩
        refine ⟨y :: u, x, v, rfl, fun z hz => ?_, hx⟩
        rcases List.mem_cons.mp hz with rfl | hz
        · exact not_le.mp hy
        · exact hu z hz

theorem findPosition_present {ls : Lines} {u v : List Symbol} {x s : Symbol} (h : Arranged ls)
    (hf : ls.flatten = u ++ x :: v) (hs : s.position = x.position) :
    findPosition ls s = .ok (some (place u)) := by
  have hu : ∀ y ∈ u, y.position < s.position := fun y hy =>
    hs ▸ (Ordered.append.mp (hf ▸ h.ordered)).2.2 y hy x (by simp)
  rw [findPosition_eq h hf hu hs.le, if_pos hs]

section Insertion

variable {c : CRDT} {s x : Symbol} {u v : List Symbol}

theorem insertRemote_size {c' : CRDT} {pl : Nat × Nat} (h : c.insertRemote s = .ok (c', pl)) :
    c'.size = c.size + 1 := by
  unfold CRDT.insertRemote at h
  split_ifs at h
  all_goals
    obtain ⟨_, -, h⟩ := bind_eq_ok.mp h
    obtain ⟨_, -, h⟩ := bind_eq_ok.mp h
    obtain ⟨rfl, -⟩ := Prod.mk.inj (Except.ok.inj h)
    rfl

theorem insertRemote_spec (h : Arranged c.symbols) (hf : c.symbols.flatten = u ++ x :: v)
    (hu : ∀ y ∈ u, y.position < s.position) (hx : s.position < x.position) :
    ∃ ls', c.insertRemote s = .ok ({ c with symbols := ls', size := c.size + 1 }, place u) ∧
      Inserts c.symbols ls' u s (x :: v) := by
  obtain ⟨cur, hcb, hca⟩ := h.layout.exists_cursor hf
  obtain ⟨ls', hi, hins⟩ := insertChar_spec cur h (fun y hy => hu y (hcb ▸ hy)) hx
  have hi' : insertChar c.symbols s (place u).1 (place u).2 = .ok ls' := hi
  have hlen : c.symbols.length ≠ 0 := by simpa using h.layout.ne_nil
  refine ⟨ls', ?_, hcb ▸ hca ▸ hins⟩
  simp [CRDT.insertRemote, hlen, findInsertPosition_eq h hf hu hx.le, hi', bind, Except.bind, pure,
    Except.pure]

theorem handleRemoteInsert_spec (h : Arranged c.symbols)
    (hf : c.symbols.flatten = u ++ x :: v) (hu : ∀ y ∈ u, y.position < s.position)
    (hx : s.position < x.position) :
    ∃ ls', c.handleRemoteInsert s = .ok ({ c with symbols := ls', size := c.size + 1 },
        if s.value = QChar.null then [] else [.insert (place u).1 (place u).2 s]) ∧
      Inserts c.symbols ls' u s (x :: v) := by
  obtain ⟨ls', hi, hins⟩ := insertRemote_spec h hf hu hx
  refine ⟨ls', ?_, hins⟩
  by_cases hs : s.value = QChar.null <;>
    simp [CRDT.handleRemoteInsert, hi, hs, bind, Except.bind, pure, Except.pure]

/-- The symbols `ss` are inserted one after the other, at the places `ps`. -/
inductive InsertsAll : Lines → Lines → List Symbol → List (Nat × Nat) → Prop
  | nil {ls : Lines} : InsertsAll ls ls [] []
  | cons {ls ls1 ls' : Lines} {u v ss : List Symbol} {s : Symbol} {ps : List (Nat × Nat)} :
      Inserts ls ls1 u s v → InsertsAll ls1 ls' ss ps → InsertsAll ls ls' (s :: ss) (place u :: ps)

namespace InsertsAll

variable {ls ls' : Lines} {ss : List Symbol} {ps : List (Nat × Nat)}

theorem wellFormed (hi : InsertsAll ls ls' ss ps) (h : WellFormed ls) : WellFormed ls' := by
  induction hi with
  | nil => exact h
  | cons hins _ ih => exact ih (hins.wellFormed h)

theorem mem (hi : InsertsAll ls ls' ss ps) {y : Symbol} :
    y ∈ ls'.flatten ↔ y ∈ ss ∨ y ∈ ls.flatten := by
  induction hi with
  | nil => simp
  | cons hins _ ih =>
    rw [ih, hins.mem, List.mem_cons]
    tauto

theorem getLast? (hi : InsertsAll ls ls' ss ps) :
    ls'.flatten.getLast? = ls.flatten.getLast? := by
  induction hi with
  | nil => rfl
  | cons hins _ ih => rw [ih, hins.getLast?]

theorem length (hi : InsertsAll ls ls' ss ps) :
    ls'.flatten.length = ls.flatten.length + ss.length := by
  induction hi with
  | nil => rfl
  | cons hins _ ih =>
    rw [ih, hins.new, hins.old]
    simp only [List.length_append, List.length_cons]
    omega

end InsertsAll

/-- New symbols below the last one have their places. -/
theorem exists_insertsAll {ls : Lines} {ss : List Symbol} {t : Symbol} (h : WellFormed ls)
    (ht : ls.flatten.getLast? = some t) (hnd : (ss.map Symbol.position).Nodup)
    (hfresh : ∀ s ∈ ss, ∀ y ∈ ls.flatten, s.position ≠ y.position)
    (hlt : ∀ s ∈ ss, s.position < t.position) : ∃ ls' ps, InsertsAll ls ls' ss ps := by
  induction ss generalizing ls with
  | nil => exact ⟨ls, [], .nil⟩
  | cons s ss ih =>
    rw [List.map_cons, List.nodup_cons] at hnd
    obtain ⟨u, x, v, hf, hu, hx⟩ := exists_bound
      ⟨t, List.mem_of_getLast? ht, (hlt s (by simp)).le⟩
    have hsx := lt_of_le_of_ne hx (hfresh s (by simp) x (by simp [hf]))
    -- the counters play no part in where the symbol goes
    obtain ⟨ls1, -, hins⟩ := insertRemote_spec (c := ⟨0, ls, 0, [], 0⟩) h.toArranged hf hu hsx
    obtain ⟨ls', ps, hall⟩ := ih (hins.wellFormed h) (hins.getLast?.trans ht) hnd.2
      (fun r hr y hy => by
        rcases hins.mem.mp hy with rfl | hy
        · exact fun he => hnd.1 (he ▸ List.mem_map_of_mem hr)
        · exact hfresh r (by simp [hr]) y hy)
      fun r hr => hlt r (by simp [hr])
    exact ⟨ls', _, .cons hins hall⟩

theorem pasteLoop_eq {ls' : Lines} {ss : List Symbol} {ps : List (Nat × Nat)}
    (h : WellFormed c.symbols) (hi : InsertsAll c.symbols ls' ss ps) :
    c.pasteLoop ss = .ok ({ c with symbols := ls', size := c.size + ss.length }, ps) := by
  generalize hls : c.symbols = ls at h hi
  induction hi generalizing c with
  | nil => simp [CRDT.pasteLoop, hls.symm, pure, Except.pure]
  | @cons ls ls1 ls' u v ss s ps hins _ ih =>
    subst hls
    obtain ⟨x, v, rfl⟩ := List.exists_cons_of_ne_nil hins.ne_nil
    obtain ⟨ls2, h2, hins2⟩ := insertRemote_spec h.toArranged hins.old hins.lower
      (hins.upper x (by simp))
    obtain rfl : ls2 = ls1 := hins2.layout.ext hins.layout (by rw [hins2.new, hins.new])
    have := ih (c := { c with symbols := ls2, size := c.size + 1 }) rfl (hins.wellFormed h)
    simp only [CRDT.pasteLoop, h2, this, bind, Except.bind, pure, Except.pure, List.length_cons]
    congr 3
    push_cast
    omega

end Insertion

/-! ## Alignment -/

section Alignment

variable {c : CRDT} {s e : Symbol} {u v : List Symbol}

/-- The end of the line at a place. -/
theorem exists_lineEnd (x : Symbol) (v : List Symbol) :
    ∃ w e v', x :: v = w ++ e :: v' ∧ (∀ y ∈ w, y.value ≠ QChar.newline) ∧ EndsLine e v' := by
  induction v generalizing x with
  | nil => exact ⟨[], x, [], rfl, by simp, .inr rfl⟩
  | cons y v ih =>
    by_cases hx : x.value = QChar.newline
    · exact ⟨[], x, y :: v, rfl, by simp, .inl hx⟩
    · obtain ⟨w, e, v', he, hw, hend⟩ := ih y
      exact ⟨x :: w, e, v', by simp [he], by simpa [hx] using hw, hend⟩

theorem place_line_append {w : List Symbol} (hw : ∀ y ∈ w, y.value ≠ QChar.newline) :
    (place (u ++ w)).1 = (place u).1 := by
  have hz : w.countP isNewline = 0 := by simpa using hw
  simp [place, lineOf, hz]

/-- `handleRemoteAlignChange` on any document: nothing is found and nothing changes, or the last
symbol of the line that was found is put back with the alignment of the message. -/
theorem handleRemoteAlignChange_cases {c' : CRDT} {signals : List Signal}
    (h : c.handleRemoteAlignChange s = .ok (c', signals)) :
    c' = c ∧ signals = [] ∨ ∃ line index l x l' ls', QVector.get c.symbols line = .ok l ∧
      lastSymbol l = .ok x ∧
      QVector.put l (l.length - 1) (x.setAlignment s.format.align) = .ok l' ∧
      QVector.put c.symbols line l' = .ok ls' ∧ c' = { c with symbols := ls' } ∧
      signals = [.changeAlignment s.format.align line index] := by
  obtain ⟨r, -, h⟩ := bind_eq_ok.mp h
  cases r with
  | none =>
    obtain ⟨rfl, rfl⟩ := Prod.mk.inj (Except.ok.inj h)
    exact .inl ⟨rfl, rfl⟩
  | some pl =>
    obtain ⟨l, hl, h⟩ := bind_eq_ok.mp h
    obtain ⟨x, hx, h⟩ := bind_eq_ok.mp h
    obtain ⟨l', hl', h⟩ := bind_eq_ok.mp h
    obtain ⟨ls', hls', h⟩ := bind_eq_ok.mp h
    obtain ⟨rfl, rfl⟩ := Prod.mk.inj (Except.ok.inj h)
    exact .inr ⟨pl.1, pl.2, l, x, l', ls', hl, hx, hl', hls', rfl, rfl⟩

/-- `handleRemoteAlignChange` where `findPosition` found something: the end of the line it found
is aligned as the message says. -/
theorem handleRemoteAlignChange_of_found (h : Arranged c.symbols) {line index : Nat}
    (hfind : findPosition c.symbols s = .ok (some (line, index)))
    (hf : c.symbols.flatten = u ++ e :: v) (he : EndsLine e v) (hline : (place u).1 = line) :
    ∃ ls', c.handleRemoteAlignChange s = .ok ({ c with symbols := ls' },
        [.changeAlignment s.format.align line index]) ∧
      Rewrites c.symbols ls' u [e] [e.setAlignment s.format.align] v := by
  obtain ⟨cur, hcb, hca⟩ := h.layout.exists_cursor hf
  have hr : cur.right = [] :=
    (cur.right_eq_nil_iff h.layout).mpr (by simpa [EndsLine, hca] using he)
  obtain ⟨l, ls', hg, hp, hp', hw⟩ :=
    putSymbol_spec cur h.layout (s := e.setAlignment s.format.align) rfl
  have hidx : (cur.left ++ e :: cur.right).length - 1 = indexOf isNewline u := by
    have hi := cur.index_eq
    simpa [hr] using hi
  have hlast : lastSymbol (cur.left ++ e :: cur.right) = .ok e := by rw [hr, lastSymbol_concat]
  subst hline
  have hg' : QVector.get c.symbols (place u).1 = .ok (cur.left ++ e :: cur.right) := hg
  have hp'' : QVector.put c.symbols (place u).1 l = .ok ls' := hp'
  refine ⟨ls', ?_, hcb ▸ hca ▸ hw⟩
  simp only [CRDT.handleRemoteAlignChange, hfind, hg', hlast, hidx, hp, hp'', bind, Except.bind,
    pure, Except.pure]

/-- A message that names the end of a line aligns it. -/
theorem handleRemoteAlignChange_lineEnd (h : Arranged c.symbols)
    (hf : c.symbols.flatten = u ++ e :: v) (he : EndsLine e v) (hs : s.position = e.position) :
    ∃ ls', c.handleRemoteAlignChange s = .ok ({ c with symbols := ls' },
        [.changeAlignment s.format.align (place u).1 (place u).2]) ∧
      Rewrites c.symbols ls' u [e] [e.setAlignment s.format.align] v :=
  handleRemoteAlignChange_of_found h (findPosition_present h hf hs) hf he rfl

/-- A symbol without its alignment. -/
def sansAlign (s : Symbol) : Symbol := s.setAlignment .alignLeft

/-- The documents differ in alignments only. -/
structure Realigns (ls ls' : Lines) : Prop where
  layout : Layout isNewline ls'
  same : ls'.flatten.map sansAlign = ls.flatten.map sansAlign

theorem Realigns.refl {ls : Lines} (h : Layout isNewline ls) : Realigns ls ls := ⟨h, rfl⟩

theorem Realigns.trans {ls ls1 ls' : Lines} (h : Realigns ls ls1) (h' : Realigns ls1 ls') :
    Realigns ls ls' :=
  ⟨h'.layout, h'.same.trans h.same⟩

theorem letter_sansAlign (s : Symbol) : letter (sansAlign s) = letter s := rfl

theorem Realigns.map_letter {ls ls' : Lines} (h : Realigns ls ls') :
    ls'.flatten.map letter = ls.flatten.map letter := by
  have hs := congrArg (List.map letter) h.same
  simpa [Function.comp_def, letter_sansAlign] using hs

theorem WellFormed.of_letter {ls ls' : Lines} (h : WellFormed ls) (hl : Layout isNewline ls')
    (hs : ls'.flatten.map letter = ls.flatten.map letter) : WellFormed ls' := by
  have hw : Rewrites ls ls' [] ls.flatten ls'.flatten [] := ⟨hl, by simp, by simp, hs⟩
  exact hw.wellFormed h

/-- Any alignment message leaves everything but alignments as it was. -/
theorem handleRemoteAlignChange_total (h : WellFormed c.symbols) (s : Symbol) :
    ∃ ls' signals, c.handleRemoteAlignChange s = .ok ({ c with symbols := ls' }, signals) ∧
      Realigns c.symbols ls' := by
  have hnone : findPosition c.symbols s = .ok none →
      c.handleRemoteAlignChange s = .ok ({ c with symbols := c.symbols }, []) := by
    intro hn
    simp [CRDT.handleRemoteAlignChange, hn, bind, Except.bind, pure, Except.pure]
  by_cases hb : ∃ t ∈ c.symbols.flatten, s.position ≤ t.position
  · obtain ⟨u, x, v, hf, hu, hx⟩ := exists_bound hb
    have hfind := findPosition_eq h.toArranged hf hu hx
    have hsome : ∀ index, findPosition c.symbols s = .ok (some ((place u).1, index)) →
        ∃ ls' signals, c.handleRemoteAlignChange s = .ok ({ c with symbols := ls' }, signals) ∧
          Realigns c.symbols ls' := by
      intro index hfind
      obtain ⟨w, e, v', he, hw, hend⟩ := exists_lineEnd x v
      obtain ⟨ls', ha, hrw⟩ := handleRemoteAlignChange_of_found h.toArranged hfind
        (show c.symbols.flatten = (u ++ w) ++ e :: v' by rw [hf, he, List.append_assoc]) hend
        (place_line_append hw)
      exact ⟨ls', _, ha, hrw.layout, by simp [hrw.old, hrw.new, sansAlign, Symbol.setAlignment]⟩
    split_ifs at hfind with hp hu0
    · exact hsome _ hfind
    · exact ⟨_, _, hnone hfind, .refl h.layout⟩
    · exact hsome _ hfind
  · obtain ⟨xs, t, ht, -⟩ := h.terminated
    have hgt := findPosition_of_gt (s := s) h.searchable (t := t) (by simp [ht])
      (not_le.mp fun hle => hb ⟨t, by simp [ht], hle⟩)
    exact ⟨_, _, hnone hgt, .refl h.layout⟩

theorem alignChanges_total (h : WellFormed c.symbols) (ss : List Symbol) :
    ∃ ls' signals, c.alignChanges ss = .ok ({ c with symbols := ls' }, signals) ∧
      Realigns c.symbols ls' := by
  induction ss generalizing c with
  | nil => exact ⟨c.symbols, [], rfl, .refl h.layout⟩
  | cons s ss ih =>
    obtain ⟨ls1, signals, h1, hr1⟩ := handleRemoteAlignChange_total h s
    obtain ⟨ls', signals', h2, hr2⟩ := ih (c := { c with symbols := ls1 })
      (h.of_letter hr1.layout hr1.map_letter)
    refine ⟨ls', signals ++ signals', ?_, hr1.trans hr2⟩
    simp only [CRDT.alignChanges, h1, h2, bind, Except.bind, pure, Except.pure]

/-- Line ends that already have the alignment of their message stay as they are. -/
theorem alignChanges_self (h : WellFormed c.symbols) {ss : List Symbol}
    (hs : ∀ s ∈ ss, ∃ u v, c.symbols.flatten = u ++ s :: v ∧ EndsLine s v) :
    ∃ signals, c.alignChanges ss = .ok (c, signals) := by
  induction ss with
  | nil => exact ⟨[], rfl⟩
  | cons s ss ih =>
    obtain ⟨u, v, hf, he⟩ := hs s (by simp)
    obtain ⟨ls1, h1, hw⟩ := handleRemoteAlignChange_lineEnd h.toArranged hf he rfl
    obtain ⟨signals, h2⟩ := ih fun s hs' => hs s (by simp [hs'])
    obtain rfl : ls1 = c.symbols := hw.layout.ext h.layout (by
      rw [hw.new, hf, Symbol.setAlignment_self]
      simp)
    refine ⟨.changeAlignment s.format.align (place u).1 (place u).2 :: signals, ?_⟩
    simp only [CRDT.alignChanges, h1, h2, bind, Except.bind, pure, Except.pure]
    rfl

end Alignment

/-! ## Erasure -/

section Erasure

variable {c : CRDT} {s x : Symbol} {u v : List Symbol}

/-- The symbols `ss` are erased one after the other, each found at its place in `ps`. -/
inductive ErasesAll : Lines → Lines → List Symbol → List (Nat × Nat) → Prop
  | nil {ls : Lines} : ErasesAll ls ls [] []
  | cons {ls ls1 ls' : Lines} {u v ss : List Symbol} {s x : Symbol} {ps : List (Nat × Nat)} :
      letter s = letter x → Erases ls ls1 u [x] v → ErasesAll ls1 ls' ss ps →
      ErasesAll ls ls' (s :: ss) (place u :: ps)

theorem ErasesAll.wellFormed {ls ls' : Lines} {ss : List Symbol} {ps : List (Nat × Nat)}
    (he : ErasesAll ls ls' ss ps) (h : WellFormed ls) : WellFormed ls' := by
  induction he with
  | nil => exact h
  | cons _ he _ ih => exact ih (he.wellFormed h)

theorem ErasesAll.mem {ls ls' : Lines} {ss : List Symbol} {ps : List (Nat × Nat)}
    (he : ErasesAll ls ls' ss ps) (h : WellFormed ls) {y : Symbol} :
    y ∈ ls'.flatten ↔ y ∈ ls.flatten ∧ ∀ s ∈ ss, s.position ≠ y.position := by
  induction he with
  | nil => simp
  | @cons ls ls1 ls' u v ss s x ps hs he _ ih =>
    have hsx : s.position = x.position := congrArg Prod.fst hs
    rw [ih (he.wellFormed h), he.mem h.ordered]
    simp [hsx, and_assoc]

theorem ErasesAll.getLast? {ls ls' : Lines} {ss : List Symbol} {ps : List (Nat × Nat)}
    (he : ErasesAll ls ls' ss ps) : ls'.flatten.getLast? = ls.flatten.getLast? := by
  induction he with
  | nil => rfl
  | cons _ he _ ih => rw [ih, he.getLast?]

theorem ErasesAll.length {ls ls' : Lines} {ss : List Symbol} {ps : List (Nat × Nat)}
    (he : ErasesAll ls ls' ss ps) : ls'.flatten.length + ss.length = ls.flatten.length := by
  induction he with
  | nil => rfl
  | cons _ he _ ih =>
    rw [he.new] at ih
    simp only [he.old, List.length_append, List.length_cons, List.length_nil] at ih ⊢
    omega

theorem eraseRemote_letter (h : WellFormed c.symbols) (hf : c.symbols.flatten = u ++ x :: v)
    (hs : letter s = letter x) (hv : v ≠ []) :
    ∃ ls', CRDT.eraseRemote c.symbols s (place u).1 (place u).2 = .ok ls' ∧
      Erases c.symbols ls' u [x] v := by
  obtain ⟨cur, hcb, hca⟩ := h.layout.exists_cursor hf
  obtain ⟨ls', he, hers⟩ :=
    eraseRemote_spec cur h.layout (by rwa [hca]) (congrArg Prod.snd hs)
  exact ⟨ls', he, hcb ▸ hca ▸ hers⟩

/-- What the loop of `handleRemoteErase` does with the symbols it finds. -/
theorem eraseRemoteLoop_append {ls' : Lines} {ss : List Symbol} {ps : List (Nat × Nat)}
    (h : WellFormed c.symbols) (he : ErasesAll c.symbols ls' ss ps) (rest : List Symbol) :
    c.eraseRemoteLoop (ss ++ rest) =
      (CRDT.eraseRemoteLoop { c with symbols := ls', size := c.size - ss.length } rest).map
        fun r => (r.1, r.2.map (ps ++ ·)) := by
  generalize hls : c.symbols = ls at h he
  induction he generalizing c with
  | nil =>
    subst hls
    cases hr : c.eraseRemoteLoop rest <;> simp [hr, Except.map]
  | @cons ls ls1 ls' u v ss s x ps hs he _ ih =>
    subst hls
    have hf : c.symbols.flatten = u ++ x :: v := by simp [he.old]
    obtain ⟨ls2, h2, he2⟩ := eraseRemote_letter h hf hs he.ne_nil
    obtain rfl : ls2 = ls1 := he2.layout.ext he.layout (by rw [he2.new, he.new])
    have hsize : c.size - 1 - (ss.length : Int) = c.size - ((s :: ss).length : Int) := by
      simp only [List.length_cons]
      omega
    have hrest := ih (c := { c with symbols := ls2, size := c.size - 1 }) rfl (he.wellFormed h)
    simp only [hsize] at hrest
    rw [List.cons_append, CRDT.eraseRemoteLoop]
    simp only [findPosition_present h.toArranged hf (congrArg Prod.fst hs), h2, hrest, bind,
      Except.bind]
    generalize CRDT.eraseRemoteLoop _ rest = r
    rcases r with _ | ⟨c', _ | places⟩ <;> rfl

/-- Symbols of the document other than the last one can be erased, in any order. -/
theorem exists_erasesAll {ls : Lines} {ss : List Symbol} {t : Symbol} (h : WellFormed ls)
    (ht : ls.flatten.getLast? = some t) (hnd : (ss.map Symbol.position).Nodup)
    (hmem : ∀ s ∈ ss, ∃ x ∈ ls.flatten, letter s = letter x)
    (hlt : ∀ s ∈ ss, s.position < t.position) : ∃ ls' ps, ErasesAll ls ls' ss ps := by
  induction ss generalizing ls with
  | nil => exact ⟨ls, [], .nil⟩
  | cons s ss ih =>
    rw [List.map_cons, List.nodup_cons] at hnd
    obtain ⟨x, hx, hs⟩ := hmem s (by simp)
    obtain ⟨u, v, hf⟩ := List.append_of_mem hx
    have hv : v ≠ [] := by
      rintro rfl
      rw [hf, List.getLast?_concat] at ht
      have hxt : s.position = t.position :=
        (congrArg Prod.fst hs).trans (congrArg Symbol.position (Option.some.inj ht))
      exact absurd (hlt s (by simp)) (not_lt.mpr hxt.ge)
    obtain ⟨ls1, -, he⟩ := eraseRemote_letter (c := ⟨0, ls, 0, [], 0⟩) h hf hs hv
    obtain ⟨ls', ps, hall⟩ := ih (he.wellFormed h) (he.getLast?.trans ht) hnd.2
      (fun r hr => by
        obtain ⟨y, hy, hry⟩ := hmem r (by simp [hr])
        refine ⟨y, (he.mem h.ordered).mpr ⟨hy, ?_⟩, hry⟩
        have hne : s.position ≠ r.position := fun heq => hnd.1 (heq ▸ List.mem_map_of_mem hr)
        have hsx : s.position = x.position := congrArg Prod.fst hs
        have hr' : r.position = y.position := congrArg Prod.fst hry
        simpa [← hsx, ← hr'] using hne)
      fun r hr => hlt r (by simp [hr])
    exact ⟨ls', _, .cons hs he hall⟩

end Erasure

/-! ## Changes of format -/

theorem changeRemoteLoop_append {ls ls' : Lines} {ss : List Symbol} (h : WellFormed ls)
    (hw : Overwrites ls ls' ss) (rest : List Symbol) :
    CRDT.changeRemoteLoop ls (ss ++ rest) = CRDT.changeRemoteLoop ls' rest := by
  induction hw with
  | nil => rfl
  | @cons ls ls1 ls' u v ss x s hw _ ih =>
    have hs : letter s = letter x := by simpa using hw.same
    have hf : ls.flatten = u ++ x :: v := by simp [hw.old]
    obtain ⟨cur, hcb, hca⟩ := h.layout.exists_cursor hf
    obtain ⟨l, ls2, hg, hp, hp', hw2⟩ := putSymbol_spec cur h.layout hs
    obtain rfl : ls2 = ls1 := hw2.layout.ext hw.layout (by rw [hw2.new, hw.new, hcb, hca])
    have hg' : QVector.get ls (place u).1 = .ok (cur.left ++ x :: cur.right) := hg
    have hp1 : QVector.put (cur.left ++ x :: cur.right) (place u).2 s = .ok l := hp
    have hp2 : QVector.put ls (place u).1 l = .ok ls2 := hp'
    simp only [List.cons_append, CRDT.changeRemoteLoop,
      findPosition_present h.toArranged hf (congrArg Prod.fst hs), hg', hp1, hp2,
      ih (hw.wellFormed h), bind, Except.bind]

theorem changeRemoteLoop_eq {ls ls' : Lines} {ss : List Symbol} (h : WellFormed ls)
    (hw : Overwrites ls ls' ss) : CRDT.changeRemoteLoop ls ss = .ok (ls', true) := by
  simpa [CRDT.changeRemoteLoop, pure, Except.pure] using changeRemoteLoop_append h hw []

/-- Symbols that are in the document can be overwritten by ones with other formats. -/
theorem exists_overwrites {ls : Lines} {ss : List Symbol} (h : WellFormed ls)
    (hmem : ∀ s ∈ ss, letter s ∈ ls.flatten.map letter) : ∃ ls', Overwrites ls ls' ss := by
  induction ss generalizing ls with
  | nil => exact ⟨ls, .nil⟩
  | cons s ss ih =>
    obtain ⟨x, hx, hs⟩ := List.mem_map.mp (hmem s (by simp))
    obtain ⟨u, v, hf⟩ := List.append_of_mem hx
    obtain ⟨cur, hcb, hca⟩ := h.layout.exists_cursor hf
    obtain ⟨l, ls1, -, -, -, hw⟩ := putSymbol_spec cur h.layout hs.symm
    obtain ⟨ls', hall⟩ := ih (hw.wellFormed h) fun r hr => by
      rw [hw.map_letter]
      exact hmem r (by simp [hr])
    exact ⟨ls', .cons hw hall⟩

/-! ## Messages that name what is there, and what is not -/

section Steps

variable {c : CRDT} {s t : Symbol}

theorem handle_insert (h : WellFormed c.symbols) (ht : c.symbols.flatten.getLast? = some t)
    (hfresh : ∀ y ∈ c.symbols.flatten, s.position ≠ y.position) (hlt : s.position < t.position) :
    ∃ ls' signals u v, c.handle (.insert s) =
        .ok ({ c with symbols := ls', size := c.size + 1 }, signals) ∧
      Inserts c.symbols ls' u s v := by
  obtain ⟨u, x, v, hf, hu, hx⟩ := exists_bound ⟨t, List.mem_of_getLast? ht, hlt.le⟩
  have hsx := lt_of_le_of_ne hx (hfresh x (by simp [hf]))
  obtain ⟨ls', hi, hins⟩ := handleRemoteInsert_spec h.toArranged hf hu hsx
  exact ⟨ls', _, u, x :: v, hi, hins⟩

/-- A paste inserts its symbols. Only a terminator among them changes more: the alignment of
the line it comes to. -/
theorem handle_paste (h : WellFormed c.symbols) (ht : c.symbols.flatten.getLast? = some t)
    {ss : List Symbol} (hnd : (ss.map Symbol.position).Nodup)
    (hfresh : ∀ s ∈ ss, ∀ y ∈ c.symbols.flatten, s.position ≠ y.position)
    (hlt : ∀ s ∈ ss, s.position < t.position) :
    ∃ ls1 ls' signals ps, c.handle (.paste ss) =
        .ok ({ c with symbols := ls', size := c.size + ss.length }, signals) ∧
      InsertsAll c.symbols ls1 ss ps ∧ Realigns ls1 ls' ∧
      ((∀ s ∈ ss, s.value ≠ QChar.null) → ls' = ls1) := by
  obtain ⟨ls1, ps, hi⟩ := exists_insertsAll h ht hnd hfresh hlt
  have hwf := hi.wellFormed h
  let c1 : CRDT := { c with symbols := ls1, size := c.size + ss.length }
  obtain ⟨ls', signals, ha, hr, hself⟩ : ∃ ls' signals,
      c1.alignChanges (ss.filter fun s => s.value = QChar.null ∨ s.value = QChar.newline) =
        .ok ({ c1 with symbols := ls' }, signals) ∧ Realigns ls1 ls' ∧
      ((∀ s ∈ ss, s.value ≠ QChar.null) → ls' = ls1) := by
    by_cases hn : ∀ s ∈ ss, s.value ≠ QChar.null
    · have hends : ∀ s ∈ ss.filter (fun s => s.value = QChar.null ∨ s.value = QChar.newline),
          ∃ u v, ls1.flatten = u ++ s :: v ∧ EndsLine s v := by
        intro s hs
        obtain ⟨hs, hv⟩ := List.mem_filter.mp hs
        obtain ⟨u, v, hf⟩ := List.append_of_mem (hi.mem.mpr (.inl hs))
        exact ⟨u, v, hf, .inl (by simpa [hn s hs] using hv)⟩
      obtain ⟨signals, ha⟩ := alignChanges_self (c := c1) hwf hends
      exact ⟨ls1, signals, ha, .refl hwf.layout, fun _ => rfl⟩
    · obtain ⟨ls', signals, ha, hr⟩ := alignChanges_total (c := c1) hwf
        (ss.filter fun s => s.value = QChar.null ∨ s.value = QChar.newline)
      exact ⟨ls', signals, ha, hr, fun hn' => absurd hn' hn⟩
  refine ⟨ls1, ls', .insertGroup ps.head? ((ss.map Symbol.value).filter (· ≠ QChar.null))
    (ss.head?.map Symbol.format) :: signals, ps, ?_, hi, hr, hself⟩
  simp only [CRDT.handle, CRDT.handleRemotePaste, pasteLoop_eq h hi, ha, c1, bind, Except.bind,
    pure, Except.pure]

/-- What is left of `xs` without the symbols at the positions of `found`. -/
def without (xs found : List Symbol) : List Symbol :=
  xs.filter fun y => y.position ∉ found.map Symbol.position

theorem mem_without {xs found : List Symbol} {y : Symbol} :
    y ∈ without xs found ↔ y ∈ xs ∧ ∀ s ∈ found, s.position ≠ y.position := by
  simp [without]

theorem without_nil (xs : List Symbol) : without xs [] = xs := by
  simp [without]

/-- The handlers that look for one symbol after the other stop at the first of `rest`: it comes
before all of `xs`. -/
def Stops (xs rest : List Symbol) : Prop := ∀ s ∈ rest.head?, ∀ y ∈ xs, s.position < y.position

instance (xs rest : List Symbol) : Decidable (Stops xs rest) :=
  decidable_of_iff ((rest.head?).all (fun s => xs.all fun y => s.position < y.position) = true) (by
    simp [Stops, Option.all_eq_true])

theorem findPosition_of_stops {ls : Lines} {rest : List Symbol} (h : WellFormed ls)
    (hs : Stops ls.flatten (s :: rest)) : findPosition ls s = .ok none := by
  obtain ⟨xs, t, hf, -⟩ := h.terminated
  obtain ⟨x, hx⟩ := Option.isSome_iff_exists.mp
    (List.isSome_head?.mpr (show ls.flatten ≠ [] by simp [hf]))
  exact findPosition_of_lt h.searchable hx (hs s rfl x (List.mem_of_head? hx))

/-- An erasure removes the symbols it finds before it stops. -/
theorem handle_erase (h : WellFormed c.symbols) (ht : c.symbols.flatten.getLast? = some t)
    (found rest : List Symbol) (hnd : (found.map Symbol.position).Nodup)
    (hmem : ∀ s ∈ found, ∃ x ∈ c.symbols.flatten, letter s = letter x)
    (hlt : ∀ s ∈ found, s.position < t.position)
    (hstop : Stops (without c.symbols.flatten found) rest) :
    ∃ ls' ps, c.handle (.erase (found ++ rest)) =
        .ok ({ c with symbols := ls', size := c.size - found.length },
          if rest = [] then [.erase ps.head? found.length] else []) ∧
      ErasesAll c.symbols ls' found ps := by
  obtain ⟨ls', ps, he⟩ := exists_erasesAll h ht hnd hmem hlt
  have hloop := eraseRemoteLoop_append h he rest
  cases rest with
  | nil =>
    refine ⟨ls', ps, ?_, he⟩
    rw [List.append_nil] at hloop
    simp only [CRDT.handle, CRDT.handleRemoteErase, hloop, CRDT.eraseRemoteLoop, Except.map, bind,
      Except.bind, pure, Except.pure, Option.map_some, List.append_nil, if_true]
  | cons s rest =>
    have hs : findPosition ls' s = .ok none :=
      findPosition_of_stops (he.wellFormed h) (show Stops _ (s :: rest) from fun r hr y hy =>
        hstop r hr y (mem_without.mpr ((he.mem h).mp hy)))
    refine ⟨ls', ps, ?_, he⟩
    simp only [CRDT.handle, CRDT.handleRemoteErase, hloop, CRDT.eraseRemoteLoop, hs, Except.map,
      bind, Except.bind, pure, Except.pure, Option.map_none, reduceCtorEq, if_false]

/-- A change of formats overwrites the symbols it finds before it stops. -/
theorem handle_change (h : WellFormed c.symbols) (found rest : List Symbol)
    (hmem : ∀ s ∈ found, letter s ∈ c.symbols.flatten.map letter)
    (hstop : Stops c.symbols.flatten rest) :
    ∃ ls', c.handle (.change (found ++ rest)) =
        .ok ({ c with symbols := ls' }, if rest = [] then [.change found] else []) ∧
      Overwrites c.symbols ls' found := by
  obtain ⟨ls', hw⟩ := exists_overwrites h hmem
  have hloop := changeRemoteLoop_append h hw rest
  cases rest with
  | nil =>
    refine ⟨ls', ?_, hw⟩
    rw [List.append_nil] at hloop
    simp only [CRDT.handle, CRDT.handleRemoteChange, List.append_nil, hloop, CRDT.changeRemoteLoop,
      if_true, bind, Except.bind, pure, Except.pure]
  | cons s rest =>
    have hs : findPosition ls' s = .ok none := by
      refine findPosition_of_stops (h.of_letter (hw.layout h.layout) hw.map_letter)
        (show Stops _ (s :: rest) from fun r hr y hy => ?_)
      obtain ⟨x, hx, hxy⟩ := List.mem_map.mp (hw.map_letter ▸ List.mem_map_of_mem hy)
      have hp : x.position = y.position := congrArg Prod.fst hxy
      exact hp ▸ hstop r hr x hx
    refine ⟨ls', ?_, hw⟩
    simp only [CRDT.handle, CRDT.handleRemoteChange, hloop, CRDT.changeRemoteLoop, hs, if_false,
      bind, Except.bind, pure, Except.pure, Bool.false_eq_true, reduceCtorEq]

end Steps

end Scriba.Client
