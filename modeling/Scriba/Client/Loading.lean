import Scriba.Client.TextView

/-! # Loading a file

The loop of `Client::on_byteArrayReceived` over the symbols of a file: from the last one to the
first, each is inserted, and one that ends a line is followed by a change of alignment. They
come in any order. Where the first is a terminator and no newline comes before what follows
it, the lines are those of the symbols that have come (`Loads`), but for alignments: a
terminator inside a line passes its own on to the line's end. -/

namespace Scriba.Client

open Scriba.Utility Scriba.Lib Scriba.Lib.Lines

namespace Screen

def clear (siteId : Int) : Screen := ⟨.clear siteId, []⟩

/-- One round of the loop, with the editor. -/
def add (a : Screen) (s : Symbol) : Except Fault Screen := do
  let (c, signals) ← a.crdt.handleRemoteInsert s
  let text := signals.foldl onSignal a.text
  if s.value = QChar.newline ∨ s.value = QChar.null then
    let (c, signals) ← c.handleRemoteAlignChange s
    pure ⟨c, signals.foldl onSignal text⟩
  else pure ⟨c, text⟩

/-- The loop, from the last symbol to the first. -/
def load (a : Screen) : List Symbol → Except Fault Screen
  | [] => pure a
  | s :: vec => do
    let a ← a.load vec
    a.add s

end Screen

/-! ## Counting -/

section Counting

variable {a a' : Screen} {s : Symbol} {vec : List Symbol}

theorem handleRemoteInsert_counts {c c' : CRDT} {signals : List Signal}
    (h : c.handleRemoteInsert s = .ok (c', signals)) (text : QString) :
    c'.size = c.size + 1 ∧ (signals.foldl onSignal text).length =
      text.length + if s.value = QChar.null then 0 else 1 := by
  obtain ⟨⟨c1, line, index⟩, h1, h⟩ := bind_eq_ok.mp h
  rw [← insertRemote_size h1]
  dsimp only at h
  split_ifs at h with hs
  · obtain ⟨rfl, rfl⟩ := Prod.mk.inj (Except.ok.inj h)
    simp [hs]
  · obtain ⟨rfl, rfl⟩ := Prod.mk.inj (Except.ok.inj h)
    refine ⟨rfl, ?_⟩
    simp only [List.foldl_cons, List.foldl_nil, onSignal, onInsert, List.length_append,
      List.length_take, List.length_drop, List.length_singleton, if_neg hs]
    omega

theorem handleRemoteAlignChange_size {c c' : CRDT} {signals : List Signal}
    (h : c.handleRemoteAlignChange s = .ok (c', signals)) : c'.size = c.size := by
  obtain ⟨rfl, -⟩ | ⟨-, -, -, -, -, ls', -, -, -, -, rfl, -⟩ := handleRemoteAlignChange_cases h
  · rfl
  · rfl

theorem add_counts (h : a.add s = .ok a') : a'.crdt.size = a.crdt.size + 1 ∧
    a'.text.length = a.text.length + if s.value = QChar.null then 0 else 1 := by
  obtain ⟨⟨c1, g1⟩, h1, h⟩ := bind_eq_ok.mp h
  obtain ⟨hsize, htext⟩ := handleRemoteInsert_counts h1 a.text
  dsimp only at h
  split_ifs at h with hs
  · obtain ⟨⟨c2, g2⟩, h2, h⟩ := bind_eq_ok.mp h
    obtain rfl := Except.ok.inj h
    refine ⟨(handleRemoteAlignChange_size h2).trans hsize, ?_⟩
    rw [← htext]
    exact congrArg List.length (foldl_onSignal (handleRemoteAlignChange_signals h2) _)
  · obtain rfl := Except.ok.inj h
    exact ⟨hsize, htext⟩

/-- Each symbol counts, and each but the terminators shows. -/
theorem load_counts (h : a.load vec = .ok a') : a'.crdt.size = a.crdt.size + vec.length ∧
    a'.text.length = a.text.length + vec.countP (·.value ≠ QChar.null) := by
  induction vec generalizing a' with
  | nil =>
    obtain rfl := Except.ok.inj h
    simp
  | cons s vec ih =>
    obtain ⟨a1, h1, h⟩ := bind_eq_ok.mp h
    obtain ⟨hsize, htext⟩ := ih h1
    obtain ⟨hs, ht⟩ := add_counts h
    rw [hs, ht, hsize, htext, List.countP_cons, List.length_cons]
    push_cast
    by_cases hn : s.value = QChar.null <;> simp [hn] <;> omega

end Counting

/-! ## One round -/

section Round

variable {c : CRDT} {a : Screen} {s : Symbol} {u v : List Symbol}

theorem add_of_end {c c' : CRDT} {signals signals' : List Signal}
    (hs : s.value = QChar.newline ∨ s.value = QChar.null)
    (h : a.crdt.handleRemoteInsert s = .ok (c, signals))
    (h' : c.handleRemoteAlignChange s = .ok (c', signals')) :
    ∃ text, a.add s = .ok ⟨c', text⟩ := by
  simp only [Screen.add, h, h', if_pos hs, bind, Except.bind]
  exact ⟨_, rfl⟩

theorem add_of_inner {c : CRDT} {signals : List Signal}
    (hs : ¬ (s.value = QChar.newline ∨ s.value = QChar.null))
    (h : a.crdt.handleRemoteInsert s = .ok (c, signals)) : ∃ text, a.add s = .ok ⟨c, text⟩ := by
  simp only [Screen.add, h, if_neg hs, bind, Except.bind]
  exact ⟨_, rfl⟩

/-- The last line. -/
theorem exists_lastLine {ls : Lines} (h : Arranged ls) {t : Symbol} (hf : ls.flatten = u ++ [t]) :
    ∃ above l, ls = above ++ [l ++ [t]] ∧ (∀ k ∈ above, Closed isNewline k) ∧
      Open isNewline (l ++ [t]) := by
  obtain ⟨above, l, rfl⟩ := (List.eq_nil_or_concat' ls).resolve_left h.layout.ne_nil
  obtain ⟨habove, hl⟩ := (layout_append (by simp)).mp h.layout
  have hopen : Open isNewline l := by
    rcases layout_cons.mp hl with ⟨-, ho⟩ | ⟨-, hnil⟩
    · exact ho
    · exact absurd rfl hnil.ne_nil
  obtain ⟨l, y, rfl⟩ := (List.eq_nil_or_concat' l).resolve_left hopen.1
  obtain rfl : y = t := by
    have hlast := congrArg List.getLast? hf
    simpa [← List.append_assoc] using hlast
  exact ⟨above, l, rfl, habove, hopen⟩

/-- Above the last symbol. -/
theorem insertRemote_above (h : Arranged c.symbols) {t : Symbol} (hf : c.symbols.flatten = u ++ [t])
    (ht : t.position < s.position) :
    ∃ above l pl, c.symbols = above ++ [l] ∧ (∀ k ∈ above, Closed isNewline k) ∧ Open isNewline l ∧
      c.insertRemote s = .ok ({ c with
        symbols := above ++ if s.value = QChar.newline then [l ++ [s], []] else [l ++ [s]]
        size := c.size + 1 }, pl) := by
  obtain ⟨above, l, hls, habove, hopen⟩ := exists_lastLine h hf
  have htn : t.value ≠ QChar.newline := isNewline_false.mp (hopen.2 t (by simp))
  have hfind := findInsertPosition_of_gt (s := s) h.searchable hls (t := t) (by simp) ht
  refine ⟨above, l ++ [t], (above.length, (l ++ [t]).length), hls, habove, hopen, ?_⟩
  have hlen : (above ++ [l ++ [t]]).length - 1 = above.length := by simp
  rw [hls] at hfind
  simp only [findEndPosition, if_neg htn, hlen] at hfind
  have hne : (above ++ [l ++ [t]]).length ≠ 0 := by simp
  have hcut : QVector.cut (l ++ [t]) (l ++ [t]).length = .ok (l ++ [t], []) := by
    simp only [QVector.cut, le_refl, if_true, List.take_length, List.drop_length]
  have hins : QVector.insert (l ++ [t]) (l ++ [t]).length s = .ok (l ++ [t] ++ [s]) := by
    have h := QVector.insert_append (l ++ [t]) [] s
    rwa [List.append_nil] at h
  have hchar : insertChar (above ++ [l ++ [t]]) s above.length (l ++ [t]).length =
      .ok (above ++
        if s.value = QChar.newline then [l ++ [t] ++ [s], []] else [l ++ [t] ++ [s]]) := by
    by_cases hs : s.value = QChar.newline
    · simp only [insertChar, QVector.get_append, hcut, QVector.put_append,
        QVector.insert_append_succ, hs, if_true, bind, Except.bind]
    · simp only [insertChar, QVector.get_append, hins, QVector.put_append, hs, if_false, bind,
        Except.bind]
  simp only [CRDT.insertRemote, hls, hne, ne_eq, not_false_eq_true, if_true, hfind, hchar, bind,
    Except.bind, pure, Except.pure]

/-- The search fails in lines that end with an empty one. -/
theorem findPosition_emptyLast {first : List Symbol} (ls : Lines) {x : Symbol}
    (hx : x.position ≤ s.position) :
    findPosition ((x :: first) :: (ls ++ [[]])) s = .error .outOfRange := by
  have hcmp : ¬ Symbol.compare s x < 0 := by rwa [Symbol.compare_lt, not_lt]
  simp [findPosition, hcmp, QVector.get, compareAt, lastSymbol, bind, Except.bind, pure,
    Except.pure]

/-- A newline above the last symbol leaves an empty line, and the search for its own place fails
there. -/
theorem add_newline_above (h : Arranged a.crdt.symbols) {t : Symbol}
    (hf : a.crdt.symbols.flatten = u ++ [t]) (ht : t.position < s.position)
    (hs : s.value = QChar.newline) : a.add s = .error .outOfRange := by
  obtain ⟨above, l, pl, hls, -, hopen, hi⟩ := insertRemote_above h hf ht
  rw [if_pos hs] at hi
  have hnull : s.value ≠ QChar.null := by
    rw [hs]
    decide
  have hends : s.value = QChar.newline ∨ s.value = QChar.null := .inl hs
  have hle : ∀ y ∈ a.crdt.symbols.flatten, y.position ≤ s.position := fun y hy => by
    have hord := h.ordered
    rw [hf] at hy hord
    rcases List.mem_append.mp hy with hy | hy
    · exact ((Ordered.append.mp hord).2.2 y hy t (by simp)).le.trans ht.le
    · exact List.mem_singleton.mp hy ▸ ht.le
  have hfind : findPosition (above ++ [l ++ [s], []]) s = .error .outOfRange := by
    cases above with
    | nil =>
      obtain ⟨x, l, rfl⟩ := List.exists_cons_of_ne_nil hopen.1
      exact findPosition_emptyLast [] (hle x (by simp [hls]))
    | cons k above =>
      obtain ⟨x, k, rfl⟩ := List.exists_cons_of_ne_nil (h.layout.line_ne_nil k (by simp [hls]))
      have hcut : (x :: k) :: above ++ [l ++ [s], []] =
          (x :: k) :: ((above ++ [l ++ [s]]) ++ [[]]) := by
        simp
      rw [hcut]
      exact findPosition_emptyLast _ (hle x (by simp [hls]))
  simp only [Screen.add, CRDT.handleRemoteInsert, CRDT.handleRemoteAlignChange, hi, hfind,
    if_neg hnull, if_pos hends, bind, Except.bind, pure, Except.pure]

/-- Anywhere else. -/
theorem insertRemote_anywhere (h : Arranged c.symbols) (hf : c.symbols.flatten = u ++ v)
    (hu : ∀ y ∈ u, y.position < s.position) (hv : ∀ y ∈ v, s.position < y.position)
    (hn : s.value = QChar.newline → v ≠ []) :
    ∃ ls' pl, c.insertRemote s = .ok ({ c with symbols := ls', size := c.size + 1 }, pl) ∧
      Arranged ls' ∧ ls'.flatten = u ++ s :: v := by
  cases v with
  | cons x v =>
    obtain ⟨ls', hi, hins⟩ := insertRemote_spec h hf hu (hv x (by simp))
    exact ⟨ls', _, hi, ⟨hins.layout, hins.new ▸ (hf ▸ h.ordered).insert hu hv⟩, hins.new⟩
  | nil =>
    rw [List.append_nil] at hf
    have hne : u ≠ [] := by
      rintro rfl
      obtain ⟨x, l, hls⟩ := List.exists_cons_of_ne_nil h.layout.ne_nil
      have hx := h.layout.line_ne_nil x (by simp [hls])
      exact hx (List.flatten_eq_nil_iff.mp hf x (by simp [hls]))
    obtain ⟨u, t, rfl⟩ := (List.eq_nil_or_concat' u).resolve_left hne
    have hs : s.value ≠ QChar.newline := fun hs => hn hs rfl
    obtain ⟨above, l, pl, hls, habove, hopen, hi⟩ :=
      insertRemote_above h hf (hu t (by simp))
    rw [if_neg hs] at hi
    have hflat : (above ++ [l ++ [s]]).flatten = (u ++ [t]) ++ [s] := by
      rw [← hf, hls]
      simp
    refine ⟨_, pl, hi, ⟨?_, ?_⟩, hflat⟩
    · refine (layout_append (by simp)).mpr ⟨habove, .last ⟨by simp, fun y hy => ?_⟩⟩
      rcases List.mem_append.mp hy with hy | hy
      · exact hopen.2 y hy
      · exact List.mem_singleton.mp hy ▸ isNewline_false.mpr hs
    · rw [hflat]
      refine Ordered.append.mpr ⟨hf ▸ h.ordered, List.pairwise_singleton _ _, fun y hy r hr => ?_⟩
      exact List.mem_singleton.mp hr ▸ hu y hy

end Round

/-! ## The lines -/

/-- `y` is the end of the line that a terminator `z` comes to once `rest` is there. -/
def Aligns (rest : List Symbol) (z y : Symbol) : Prop :=
  z.value = QChar.null ∧ y ∈ rest ∧ z.position < y.position ∧
    (y.value = QChar.newline ∨ ∀ r ∈ rest, r.position ≤ y.position) ∧
    ∀ r ∈ rest, r.value = QChar.newline → z.position < r.position → y.position ≤ r.position

instance (rest : List Symbol) (z y : Symbol) : Decidable (Aligns rest z y) :=
  inferInstanceAs (Decidable (_ ∧ _))

/-- In which order the others came makes no difference. -/
theorem Aligns.congr {rest rest' : List Symbol} (h : ∀ r, r ∈ rest ↔ r ∈ rest') {z y : Symbol} :
    Aligns rest z y ↔ Aligns rest' z y := by
  simp only [Aligns, h]

/-- A symbol with the alignment it has got once all have come. -/
def aligned : List Symbol → Symbol → Symbol
  | [], y => y
  | z :: rest, y => if Aligns rest z y then y.setAlignment z.format.align else aligned rest y

theorem aligned_letter (vec : List Symbol) (y : Symbol) : letter (aligned vec y) = letter y := by
  induction vec with
  | nil => rfl
  | cons z rest ih =>
    rw [aligned]
    split_ifs
    · rfl
    · exact ih

theorem aligned_of_not_mem {vec : List Symbol} {y : Symbol} (h : y ∉ vec) : aligned vec y = y := by
  induction vec with
  | nil => rfl
  | cons z rest ih =>
    rw [List.mem_cons, not_or] at h
    rw [aligned, if_neg fun ha => h.2 ha.2.1, ih h.2]

theorem aligned_position (vec : List Symbol) (y : Symbol) :
    (aligned vec y).position = y.position :=
  congrArg Prod.fst (aligned_letter vec y)

theorem aligned_value (vec : List Symbol) (y : Symbol) : (aligned vec y).value = y.value :=
  congrArg Prod.snd (aligned_letter vec y)

theorem aligned_setAlignment (vec : List Symbol) (y : Symbol) (a : SymbolFormat.Alignment) :
    (aligned vec y).setAlignment a = y.setAlignment a := by
  induction vec with
  | nil => rfl
  | cons z rest ih =>
    rw [aligned]
    split_ifs
    · rfl
    · exact ih

/-- One more symbol, which may end a line. -/
theorem map_aligned_cons {rest p q w q' : List Symbol} {s e : Symbol} (hperm : (p ++ q).Perm rest)
    (hord : Ordered (p ++ s :: q)) (hs : s.value = QChar.newline ∨ s.value = QChar.null)
    (hsplit : s :: q = w ++ e :: q') (hw : ∀ y ∈ w, y.value ≠ QChar.newline)
    (hend : EndsLine e q') :
    (p ++ s :: q).map (aligned (s :: rest)) = p.map (aligned rest) ++ w.map (aligned rest) ++
      [(aligned rest e).setAlignment s.format.align] ++ q'.map (aligned rest) := by
  obtain ⟨-, hsq, hps⟩ := Ordered.append.mp hord
  have hsq' := Ordered.cons.mp hsq
  obtain ⟨-, heq, hwe⟩ := Ordered.append.mp (hsplit ▸ hsq)
  have heq' := Ordered.cons.mp heq
  have hmem : ∀ {y}, y ∈ w ++ e :: q' → s.position < y.position → y ∈ rest := by
    intro y hy hlt
    rw [← hsplit] at hy
    rcases List.mem_cons.mp hy with rfl | hy
    · exact absurd hlt (lt_irrefl _)
    · exact hperm.mem_iff.mp (List.mem_append.mpr (.inr hy))
  have hcome : ∀ r ∈ rest, r.position < s.position ∨ r ∈ w ++ e :: q' := by
    intro r hr
    rcases List.mem_append.mp (hperm.mem_iff.mpr hr) with hr | hr
    · exact .inl (hps r hr s (by simp))
    · exact .inr (hsplit ▸ List.mem_cons_of_mem _ hr)
  have hsame : ∀ {y}, ¬ Aligns rest s y → aligned (s :: rest) y = aligned rest y :=
    fun h => if_neg h
  have hp : ∀ y ∈ p, aligned (s :: rest) y = aligned rest y := fun y hy =>
    hsame fun ha => lt_asymm ha.2.2.1 (hps y hy s (by simp))
  have hw' : ∀ y ∈ w, aligned (s :: rest) y = aligned rest y := fun y hy => hsame fun ha => by
    -- the line goes on up to `e`
    have hye := hwe y hy e (by simp)
    rcases ha.2.2.2.1 with hn | hmax
    · exact hw y hy hn
    · exact absurd (hmax e (hmem (by simp) (ha.2.2.1.trans hye))) (not_le.mpr hye)
  have hse : e = s ∨ s.position < e.position := by
    have he : e ∈ s :: q := by rw [hsplit]; simp
    rcases List.mem_cons.mp he with he | he
    · exact .inl he
    · exact .inr (hsq'.1 e he)
  have hq : ∀ y ∈ q', aligned (s :: rest) y = aligned rest y := fun y hy => hsame fun ha => by
    -- the line has ended with `e`
    have hen : e.value = QChar.newline := hend.resolve_right (List.ne_nil_of_mem hy)
    have hlt : s.position < e.position := hse.resolve_left fun he => by
      have hnull := ha.1
      rw [← he, hen] at hnull
      exact absurd hnull (by decide)
    exact absurd (ha.2.2.2.2 e (hmem (by simp) hlt) hen hlt) (not_le.mpr (heq'.1 y hy))
  have he : aligned (s :: rest) e = (aligned rest e).setAlignment s.format.align := by
    rw [aligned_setAlignment, aligned]
    rcases hse with rfl | hlt
    · rw [if_neg fun ha => lt_irrefl _ ha.2.2.1, Symbol.setAlignment_self]
      refine aligned_of_not_mem ?_
      intro h
      rcases List.mem_append.mp (hperm.mem_iff.mpr h) with h | h
      · exact lt_irrefl _ (hps _ h _ (by simp))
      · exact lt_irrefl _ (hsq'.1 _ h)
    · refine if_pos ⟨?_, hmem (by simp) hlt, hlt, ?_, fun r hr hn hsr => ?_⟩
      · refine hs.resolve_left ?_
        intro hn
        cases w with
        | nil => exact absurd hlt ((List.cons.inj hsplit).1 ▸ lt_irrefl _)
        | cons y w => exact hw y (by simp) ((List.cons.inj hsplit).1 ▸ hn)
      · refine hend.imp_right ?_
        intro hnil r hr
        subst hnil
        rcases hcome r hr with hr | hr
        · exact (hr.trans hlt).le
        rcases List.mem_append.mp hr with hr | hr
        · exact (hwe r hr e (by simp)).le
        · exact List.mem_singleton.mp hr ▸ le_rfl
      · rcases hcome r hr with hr | hr
        · exact absurd hr (lt_asymm hsr)
        rcases List.mem_append.mp hr with hr | hr
        · exact absurd hn (hw r hr)
        rcases List.mem_cons.mp hr with rfl | hr
        · exact le_rfl
        · exact (heq'.1 r hr).le
  rw [hsplit]
  simp only [List.map_append, List.map_cons, he, List.map_congr_left hp, List.map_congr_left hw',
    List.map_congr_left hq, List.append_assoc, List.singleton_append]

/-- The lines are those of the symbols that have come. -/
structure Loads (vec : List Symbol) (ls : Lines) : Prop extends Arranged ls where
  content : ∃ xs : List Symbol, xs.Perm vec ∧ ls.flatten = xs.map (aligned vec)

/-- Where a symbol goes. -/
theorem Ordered.exists_split {xs : List Symbol} {p : Position} (h : Ordered xs)
    (hne : ∀ y ∈ xs, y.position ≠ p) :
    ∃ u v, xs = u ++ v ∧ (∀ y ∈ u, y.position < p) ∧ ∀ y ∈ v, p < y.position := by
  induction xs with
  | nil => exact ⟨[], [], rfl, by simp, by simp⟩
  | cons x xs ih =>
    obtain ⟨hx, hxs⟩ := Ordered.cons.mp h
    rcases lt_or_gt_of_ne (hne x (by simp)) with hlt | hgt
    · obtain ⟨u, v, rfl, hu, hv⟩ := ih hxs fun y hy => hne y (by simp [hy])
      exact ⟨x :: u, v, rfl, List.forall_mem_cons.mpr ⟨hlt, hu⟩, hv⟩
    · exact ⟨[], x :: xs, rfl, by simp,
        List.forall_mem_cons.mpr ⟨hgt, fun y hy => hgt.trans (hx y hy)⟩⟩

/-- **One round.** -/
theorem Loads.add {a : Screen} {s : Symbol} {rest : List Symbol} (h : Loads rest a.crdt.symbols)
    (hfresh : ∀ y ∈ rest, y.position ≠ s.position)
    (hn : s.value = QChar.newline → ∃ y ∈ rest, s.position < y.position) :
    ∃ a', a.add s = .ok a' ∧ Loads (s :: rest) a'.crdt.symbols := by
  obtain ⟨xs, hperm, hf⟩ := h.content
  have hsrest : s ∉ rest := fun hs => hfresh s hs rfl
  obtain ⟨u, v, huv, hu, hv⟩ :=
    (hf ▸ h.ordered : Ordered _).exists_split (p := s.position) fun y hy => by
      obtain ⟨x, hx, rfl⟩ := List.mem_map.mp hy
      exact aligned_position rest x ▸ hfresh x (hperm.mem_iff.mp hx)
  obtain ⟨p, q, rfl, rfl, rfl⟩ := List.map_eq_append_iff.mp huv
  obtain ⟨ls1, pl, hi, harr, hflat⟩ := insertRemote_anywhere (c := a.crdt) (s := s) h.toArranged
    (hf.trans huv) hu hv fun hs => by
      obtain ⟨y, hy, hlt⟩ := hn hs
      rcases List.mem_append.mp (hperm.mem_iff.mpr hy) with hy | hy
      · exact absurd hlt (lt_asymm (aligned_position rest y ▸ hu _ (List.mem_map_of_mem hy)))
      · exact List.ne_nil_of_mem (List.mem_map_of_mem hy)
  have hperm' : (p ++ s :: q).Perm (s :: rest) := List.perm_middle.trans (hperm.cons s)
  have hmap : p.map (aligned rest) ++ s :: q.map (aligned rest) =
      (p ++ s :: q).map (aligned rest) := by
    rw [List.map_append, List.map_cons, aligned_of_not_mem hsrest]
  have hord : Ordered (p ++ s :: q) := by
    have ho := harr.ordered
    rw [hflat, hmap, ordered_iff_letter, List.map_map] at ho
    rw [ordered_iff_letter]
    exact (List.map_congr_left fun y _ => aligned_letter rest y) ▸ ho
  rw [hmap] at hflat
  obtain ⟨signals, hins⟩ : ∃ signals, a.crdt.handleRemoteInsert s =
      .ok ({ a.crdt with symbols := ls1, size := a.crdt.size + 1 }, signals) := by
    simp only [CRDT.handleRemoteInsert, hi, bind, Except.bind]
    split_ifs <;> exact ⟨_, rfl⟩
  by_cases hs : s.value = QChar.newline ∨ s.value = QChar.null
  · obtain ⟨w, e, q', hsplit, hw, hend⟩ := exists_lineEnd s q
    obtain ⟨ls2, halign, hrw⟩ := handleRemoteAlignChange_of_found
      (c := { a.crdt with symbols := ls1, size := a.crdt.size + 1 }) (s := s) harr
      (u := p.map (aligned rest) ++ w.map (aligned rest)) (e := aligned rest e)
      (v := q'.map (aligned rest))
      (findPosition_present harr (hflat.trans (hmap.symm)) rfl)
      (hflat.trans (by rw [hsplit]; simp))
      (hend.imp (fun he => (aligned_value rest e).trans he) fun he => by rw [he]; rfl)
      (place_line_append fun y hy => by
        obtain ⟨x, hx, rfl⟩ := List.mem_map.mp hy
        exact (aligned_value rest x).symm ▸ hw x hx)
    obtain ⟨text, hadd⟩ := add_of_end hs hins halign
    exact ⟨_, hadd, hrw.arranged harr, p ++ s :: q, hperm',
      hrw.new.trans (map_aligned_cons hperm hord hs hsplit hw hend).symm⟩
  · obtain ⟨text, hadd⟩ := add_of_inner hs hins
    refine ⟨_, hadd, harr, p ++ s :: q, hperm', hflat.trans (List.map_congr_left fun y _ => ?_)⟩
    exact (if_neg fun ha => hs (.inr ha.1)).symm

/-- The first one, a terminator. -/
theorem loads_first (siteId : Int) {s : Symbol} (hs : s.value = QChar.null) :
    ∃ a', (Screen.clear siteId).add s = .ok a' ∧ Loads [s] a'.crdt.symbols := by
  have hne : QChar.null ≠ QChar.newline := by decide
  have hsn : s.value ≠ QChar.newline := hs ▸ hne
  have harr : Arranged [[s]] := ⟨.last ⟨by simp, by simpa using hsn⟩, List.pairwise_singleton _ _⟩
  have hins : (Screen.clear siteId).crdt.handleRemoteInsert s =
      .ok (⟨siteId, [[s]], 0, [], 0⟩, []) := by
    simp [Screen.clear, CRDT.clear, CRDT.handleRemoteInsert, CRDT.insertRemote, findInsertPosition,
      insertChar, QVector.get, QVector.put, QVector.insert, hne, hs, bind, Except.bind, pure,
      Except.pure]
  obtain ⟨ls', halign, hrw⟩ := handleRemoteAlignChange_lineEnd (c := ⟨siteId, [[s]], 0, [], 0⟩)
    (s := s) (e := s) (u := []) (v := []) harr rfl (.inr rfl) rfl
  obtain ⟨text, hadd⟩ := add_of_end (.inr hs) hins halign
  refine ⟨_, hadd, hrw.arranged harr, [s], .refl _, hrw.new.trans ?_⟩
  rw [Symbol.setAlignment_self]
  simp [aligned, Aligns]

/-- A newline comes after one of the symbols that follow it. -/
def Awaited : List Symbol → Prop
  | [] => True
  | s :: rest => (s.value = QChar.newline → ∃ y ∈ rest, s.position < y.position) ∧ Awaited rest

section Load

variable {siteId : Int} {vec : List Symbol} {s : Symbol} {a : Screen}

theorem exists_load (siteId : Int) (hs : s.value = QChar.null)
    (hnd : ((vec ++ [s]).map Symbol.position).Nodup) (h : Awaited (vec ++ [s])) :
    ∃ a, (Screen.clear siteId).load (vec ++ [s]) = .ok a ∧ Loads (vec ++ [s]) a.crdt.symbols := by
  induction vec with
  | nil => exact loads_first siteId hs
  | cons x vec ih =>
    rw [List.cons_append, List.map_cons, List.nodup_cons] at hnd
    obtain ⟨a, ha, hl⟩ := ih hnd.2 h.2
    obtain ⟨a', ha', hl'⟩ := hl.add
      (fun y hy he => hnd.1 (he ▸ List.mem_map_of_mem hy)) h.1
    exact ⟨a', bind_eq_ok.mpr ⟨a, ha, ha'⟩, hl'⟩

theorem exists_load_of_append {pre : List Symbol}
    (h : ∃ a, (Screen.clear siteId).load (pre ++ vec) = .ok a) :
    ∃ a, (Screen.clear siteId).load vec = .ok a := by
  induction pre with
  | nil => exact h
  | cons x pre ih =>
    obtain ⟨a, ha⟩ := h
    obtain ⟨a1, h1, -⟩ := bind_eq_ok.mp ha
    exact ih ⟨a1, h1⟩

/-- No other order can be loaded. -/
theorem awaited_of_load (hs : s.value = QChar.null)
    (hnd : ((vec ++ [s]).map Symbol.position).Nodup)
    (h : (Screen.clear siteId).load (vec ++ [s]) = .ok a) : Awaited (vec ++ [s]) := by
  induction vec generalizing a with
  | nil =>
    refine ⟨fun hn => absurd (hn.symm.trans hs) (by decide), trivial⟩
  | cons x vec ih =>
    rw [List.cons_append, List.map_cons, List.nodup_cons] at hnd
    obtain ⟨a1, h1, h⟩ := bind_eq_ok.mp h
    have hrest := ih hnd.2 h1
    obtain ⟨a1', h1', hl⟩ := exists_load siteId hs hnd.2 hrest
    obtain rfl := Except.ok.inj (h1.symm.trans h1')
    refine ⟨fun hn => not_forall_not.mp fun hall => ?_, hrest⟩
    obtain ⟨xs, hperm, hf⟩ := hl.content
    obtain ⟨xs, t, rfl⟩ := (List.eq_nil_or_concat' xs).resolve_left fun hnil => by
      have hlen := hperm.length_eq
      simp [hnil] at hlen
    have ht : t ∈ vec ++ [s] := hperm.mem_iff.mp (by simp)
    have htx : t.position < x.position := by
      refine lt_of_le_of_ne (not_lt.mp fun hlt => hall t ⟨ht, hlt⟩) fun he => ?_
      exact hnd.1 (he ▸ List.mem_map_of_mem ht)
    have herr := add_newline_above (s := x) hl.toArranged (t := aligned (vec ++ [s]) t)
      (by rw [hf, List.map_append]; rfl) (aligned_position _ t ▸ htx) hn
    exact absurd (h.symm.trans herr) (by simp)

/-- The lines loaded are those of the document exactly if no alignment was lost. -/
theorem Loads.eq_iff {ls ls' : Lines} (h : Loads vec ls') (hd : WellFormed ls)
    (hmem : ∀ r, r ∈ vec ↔ r ∈ ls.flatten) : ls' = ls ↔ ∀ y ∈ vec, aligned vec y = y := by
  obtain ⟨xs, hperm, hf⟩ := h.content
  constructor
  · rintro rfl y hy
    have hmap : aligned vec y ∈ ls'.flatten := by
      rw [hf]
      exact List.mem_map_of_mem (hperm.mem_iff.mpr hy)
    exact hd.ordered.inj hmap ((hmem y).mp hy) (aligned_position vec y)
  · intro halign
    have hxs : ls'.flatten = xs := by
      rw [hf]
      exact (List.map_congr_left fun y hy => halign y (hperm.mem_iff.mp hy)).trans (List.map_id _)
    refine h.layout.ext hd.layout (h.ordered.ext hd.ordered fun y => ?_)
    rw [hxs, hperm.mem_iff, hmem]

end Load

/-! ## In the order of a relation -/

section Sent

variable {R : Symbol → Symbol → Prop} [DecidableRel R] {vec : List Symbol}

/-- The symbols that come before `z` where those larger come first. -/
def sentBefore (R : Symbol → Symbol → Prop) [DecidableRel R] (xs : List Symbol) (z : Symbol) :
    List Symbol :=
  xs.filter fun r => R z r

theorem sentBefore_head {x : Symbol} (h : (x :: vec).Pairwise R) (hasymm : ∀ a b, R a b → ¬ R b a) :
    sentBefore R (x :: vec) x = vec := by
  have hx : ¬ R x x := fun hx => hasymm x x hx hx
  rw [sentBefore, List.filter_cons_of_neg (by simpa using hx), List.filter_eq_self]
  exact fun r hr => decide_eq_true (List.rel_of_pairwise_cons h hr)

theorem sentBefore_tail {x z : Symbol} (h : (x :: vec).Pairwise R)
    (hasymm : ∀ a b, R a b → ¬ R b a) (hz : z ∈ vec) :
    sentBefore R (x :: vec) z = sentBefore R vec z := by
  have hzx : ¬ R z x := hasymm x z (List.rel_of_pairwise_cons h hz)
  rw [sentBefore, List.filter_cons_of_neg (by simpa using hzx), sentBefore]

omit [DecidableRel R] in
theorem awaited_iff (h : vec.Pairwise R) (hasymm : ∀ a b, R a b → ¬ R b a) : Awaited vec ↔
    ∀ n ∈ vec, n.value = QChar.newline → ∃ r ∈ vec, R n r ∧ n.position < r.position := by
  induction vec with
  | nil => simp [Awaited]
  | cons x vec ih =>
    have hx : ¬ R x x := fun hx => hasymm x x hx hx
    rw [Awaited, ih (List.Pairwise.of_cons h), List.forall_mem_cons]
    refine and_congr (forall_congr' fun _ => ?_)
      (forall₂_congr fun n hn => forall_congr' fun _ => ?_)
    · simp only [List.exists_mem_cons_iff, hx, false_and, false_or]
      exact exists_congr fun r => and_congr_right fun hr =>
        (and_iff_right (List.rel_of_pairwise_cons h hr)).symm
    · simp only [List.exists_mem_cons_iff, hasymm x n (List.rel_of_pairwise_cons h hn), false_and,
        false_or]

/-- A symbol keeps its own alignment if the last terminator to align it has the same. -/
theorem aligned_eq_self_iff (h : vec.Pairwise R) (hasymm : ∀ a b, R a b → ¬ R b a) (y : Symbol) :
    aligned vec y = y ↔ ∀ z ∈ vec, Aligns (sentBefore R vec z) z y →
      (∀ z' ∈ vec, Aligns (sentBefore R vec z') z' y → ¬ R z' z) →
        z.format.align = y.format.align := by
  have hset : ∀ z : Symbol, y.setAlignment z.format.align = y ↔ z.format.align = y.format.align :=
    fun z => ⟨fun he => by simpa using congrArg (fun s => s.format.align) he,
      fun he => by rw [he, Symbol.setAlignment_self]⟩
  induction vec with
  | nil => simp [aligned]
  | cons x vec ih =>
    have hhead : Aligns (sentBefore R (x :: vec) x) x y ↔ Aligns vec x y := by
      rw [sentBefore_head h hasymm]
    have htail : ∀ z ∈ vec, (Aligns (sentBefore R (x :: vec) z) z y ↔
        Aligns (sentBefore R vec z) z y) := fun z hz => by
      rw [sentBefore_tail h hasymm hz]
    have hlt : ∀ z ∈ vec, R x z := fun z hz => List.rel_of_pairwise_cons h hz
    rw [aligned]
    split_ifs with hx
    · rw [hset]
      constructor
      · intro he z hz _ hmin
        rcases List.mem_cons.mp hz with rfl | hz
        · exact he
        · exact absurd (hlt z hz) (hmin x (by simp) (hhead.mpr hx))
      · refine fun hall => hall x (by simp) (hhead.mpr hx) fun z' hz' _ => ?_
        rcases List.mem_cons.mp hz' with rfl | hz'
        · exact fun hr => hasymm _ _ hr hr
        · exact hasymm _ _ (hlt z' hz')
    · refine Iff.trans (ih (List.Pairwise.of_cons h)) ?_
      simp only [List.forall_mem_cons, hhead, hx, false_imp_iff, true_and]
      refine forall₂_congr fun z hz => imp_congr (htail z hz).symm (imp_congr_left ?_)
      exact forall₂_congr fun z' hz' => imp_congr_left (htail z' hz').symm

end Sent

end Scriba.Client
