import Scriba.Client.RemoteEdits

/-! # Symbols that are gone

A message may name symbols that another site has erased here in the meantime. `findPosition`
returns false for them only where they would come before or after the whole document; elsewhere it
returns the start of a line. The handlers of erasures and of changes are exact as long as this does
not happen, and not after it did. -/

namespace Scriba.Client

open Scriba.Utility Scriba.Lib Scriba.Lib.Lines

/-- Before or after the whole document. -/
def Outside (xs : List Symbol) (s : Symbol) : Prop :=
  (∀ y ∈ xs, s.position < y.position) ∨ ∀ y ∈ xs, y.position < s.position

theorem Outside.ne_position {xs : List Symbol} {s : Symbol} (h : Outside xs s) :
    ∀ y ∈ xs, s.position ≠ y.position := fun y hy =>
  h.elim (fun h => (h y hy).ne) fun h => (h y hy).ne'

theorem findPosition_outside {ls : Lines} {s : Symbol} (h : WellFormed ls)
    (hs : Outside ls.flatten s) : findPosition ls s = .ok none := by
  obtain ⟨xs, t, ht, -⟩ := h.terminated
  rcases hs with hlt | hgt
  · obtain ⟨x, hx⟩ := Option.isSome_iff_exists.mp
      (List.isSome_head?.mpr (show ls.flatten ≠ [] by simp [ht]))
    exact findPosition_of_lt h.searchable hx (hlt x (List.mem_of_head? hx))
  · exact findPosition_of_gt h.searchable (t := t) (by simp [ht]) (hgt t (by simp [ht]))

/-- **What `findPosition` says.** -/
theorem findPosition_cases {ls : Lines} (h : WellFormed ls) (s : Symbol) :
    Outside ls.flatten s ∨
      (∃ u x v, ls.flatten = u ++ x :: v ∧ s.position = x.position ∧
        findPosition ls s = .ok (some (place u))) ∨
      ((∀ y ∈ ls.flatten, s.position ≠ y.position) ∧
        ∃ u x v, ls.flatten = u ++ x :: v ∧ (∀ y ∈ u, y.position < s.position) ∧
          findPosition ls s = .ok (some ((place u).1, 0))) := by
  by_cases hb : ∃ t ∈ ls.flatten, s.position ≤ t.position
  · obtain ⟨u, x, v, hf, hu, hx⟩ := exists_bound hb
    have hfind := findPosition_eq h.toArranged hf hu hx
    by_cases hs : s.position = x.position
    · rw [if_pos hs] at hfind
      exact .inr (.inl ⟨u, x, v, hf, hs, hfind⟩)
    · have hlt := lt_of_le_of_ne hx hs
      have hv : ∀ y ∈ x :: v, s.position < y.position := by
        intro y hy
        rcases List.mem_cons.mp hy with rfl | hy
        · exact hlt
        · exact hlt.trans ((Ordered.cons.mp (Ordered.append.mp (hf ▸ h.ordered)).2.1).1 y hy)
      rw [if_neg hs] at hfind
      by_cases hnil : u = []
      · exact .inl (.inl (by simpa [hf, hnil] using hv))
      · rw [if_neg hnil] at hfind
        refine .inr (.inr ⟨fun y hy => ?_, u, x, v, hf, hu, hfind⟩)
        rw [hf] at hy
        rcases List.mem_append.mp hy with hy | hy
        · exact (hu y hy).ne'
        · exact (hv y hy).ne
  · exact .inl (.inr fun y hy => not_le.mp fun hle => hb ⟨y, hy, hle⟩)

/-- The first rounds of a message: none, or the first symbol and the first rounds of the rest. -/
theorem forall_prefix_cons {P : List Symbol → Prop} {s : Symbol} {ss : List Symbol} :
    (∀ p, p <+: s :: ss → P p) ↔ P [] ∧ ∀ p, p <+: ss → P (s :: p) := by
  constructor
  · exact fun h => ⟨h [] List.nil_prefix, fun p hp => h _ (List.cons_prefix_cons.mpr ⟨rfl, hp⟩)⟩
  · intro h p hp
    cases p with
    | nil => exact h.1
    | cons r p =>
      obtain ⟨rfl, hprefix⟩ := List.cons_prefix_cons.mp hp
      exact h.2 p hprefix

/-! ## Erasures -/

/-- The symbol of a message is a newline where the one in the document is, up to two cases in
which it makes no difference: `x` is in the last line, or is a newline alone in its line. -/
structure Matches (s : Symbol) (u : List Symbol) (x : Symbol) (v : List Symbol) : Prop where
  newline : s.value = QChar.newline → x.value ≠ QChar.newline →
    ∀ y ∈ v, y.value ≠ QChar.newline
  other : s.value ≠ QChar.newline → x.value = QChar.newline →
    ∀ y ∈ u.getLast?, y.value = QChar.newline

section EraseRemote

variable {ls : Lines} {line index : Nat} {s x : Symbol}

/-- Lines that all end end with a newline. -/
theorem getLast?_flatten_closed {above : Lines} (h : ∀ l ∈ above, Closed isNewline l) :
    ∀ y ∈ above.flatten.getLast?, y.value = QChar.newline := by
  intro y hy
  rcases List.eq_nil_or_concat' above with rfl | ⟨above, l, rfl⟩
  · cases hy
  · obtain ⟨a, e, rfl, -, he⟩ := h l (by simp)
    obtain rfl : e = y := by simpa [List.getLast?_append] using hy
    exact isNewline_iff.mp he

theorem eraseRemote_newline (c : Cursor ls line index x) (h : Layout isNewline ls)
    (hx : x.value = QChar.newline) :
    ∃ ls', CRDT.eraseRemote ls s line index = .ok ls' ∧ ls'.flatten = c.before ++ c.after ∧
      (Layout isNewline ls' ↔ Matches s c.before x c.after) := by
  obtain ⟨hr, l, below, hb⟩ := exists_below c h hx
  have hlayout := c.layout_iff.mp h
  have hleft := c.left_plain h
  have hjoin := c.layout_join h hb (isNewline_iff.mpr hx)
  obtain ⟨above, left, right, below', rfl, rfl, rfl⟩ := c
  obtain rfl : right = [] := hr
  obtain rfl : below' = l :: below := hb
  by_cases hs : s.value = QChar.newline
  · refine ⟨above ++ (left ++ l) :: below, ?_, by simp [Cursor.before, Cursor.after], ?_⟩
    · simp [CRDT.eraseRemote, hs, bind, Except.bind]
    · exact ⟨fun _ => ⟨fun _ hne => absurd hx hne, fun hne => absurd hs hne⟩, fun _ => hjoin⟩
  · rcases List.eq_nil_or_concat' left with rfl | ⟨left, y, rfl⟩
    · refine ⟨above ++ l :: below, ?_, by simp [Cursor.before, Cursor.after], ?_⟩
      · simp [CRDT.eraseRemote, hs, bind, Except.bind]
      · have hbelow : Layout isNewline (l :: below) := by
          rcases hlayout.2 with ⟨hnil, -⟩ | ⟨-, hb⟩
          · cases hnil
          · exact hb
        refine ⟨fun _ => ⟨fun hn => absurd hn hs, fun _ _ => ?_⟩, fun _ =>
          (layout_append (by simp)).mpr ⟨hlayout.1, hbelow⟩⟩
        simpa [Cursor.before] using getLast?_flatten_closed hlayout.1
    · refine ⟨above ++ (left ++ [y]) :: l :: below, ?_, by simp [Cursor.before, Cursor.after], ?_⟩
      · simp [CRDT.eraseRemote, hs, bind, Except.bind]
      · have hy : y.value ≠ QChar.newline := isNewline_false.mp (hleft y (by simp))
        refine ⟨fun hl => ?_, fun hm => ?_⟩
        · rcases layout_cons.mp ((layout_append (by simp)).mp hl).2 with ⟨hnil, -⟩ | ⟨hc, -⟩
          · cases hnil
          · have := closed_singleton.mp ((closed_append (by simp)).mp hc).2
            exact absurd (isNewline_iff.mp this) hy
        · exact absurd (hm.other hs hx y (by simp [Cursor.before, ← List.append_assoc])) hy

theorem eraseRemote_letterCase (c : Cursor ls line index x) (h : Layout isNewline ls)
    (hx : x.value ≠ QChar.newline) (ha : c.after ≠ []) :
    ∃ ls', CRDT.eraseRemote ls s line index = .ok ls' ∧ ls'.flatten = c.before ++ c.after ∧
      (Layout isNewline ls' ↔ Matches s c.before x c.after) := by
  have hr := right_ne_nil c h hx ha
  have hlayout := c.layout_iff.mp h
  have herase := c.layout_erase h (isNewline_false.mpr hx) (by simp [hr])
  obtain ⟨above, left, right, below, rfl, rfl, rfl⟩ := c
  replace hr : right ≠ [] := hr
  by_cases hs : s.value = QChar.newline ∧ below ≠ []
  · obtain ⟨hs, hb⟩ := hs
    obtain ⟨l, below, rfl⟩ := List.exists_cons_of_ne_nil hb
    have hl : l ≠ [] := h.line_ne_nil l (by simp)
    -- the line ends with a newline, and another one is put behind it
    obtain ⟨e, he, hen⟩ : ∃ e ∈ right, isNewline e = true := by
      rcases hlayout.2 with ⟨hnil, -⟩ | ⟨hc, -⟩
      · cases hnil
      · obtain ⟨a, e, rfl, -, hen⟩ := ((closed_cons hr).mp ((closed_append (by simp)).mp hc).2).2
        exact ⟨e, by simp, hen⟩
    refine ⟨above ++ (left ++ right ++ l) :: below, ?_, by simp [Cursor.before, Cursor.after],
      fun hl' => ?_, fun hm => ?_⟩
    · simp [CRDT.eraseRemote, hs, bind, Except.bind]
    · have hplain : ∀ y ∈ left ++ right, isNewline y = false := by
        rcases layout_cons.mp ((layout_append (by simp)).mp hl').2 with ⟨-, ho⟩ | ⟨hc, -⟩
        · exact ((open_append hl).mp ho).1
        · exact ((closed_append hl).mp hc).1
      simp [hplain e (by simp [he])] at hen
    · exact absurd (isNewline_iff.mp hen) (hm.newline hs hx e (by simp [Cursor.after, he]))
  · refine ⟨above ++ (left ++ right) :: below, ?_, by simp [Cursor.before, Cursor.after],
      fun _ => ⟨fun hn _ y hy => ?_, fun _ hn => absurd hn hx⟩, fun _ => herase⟩
    · have hnext : ¬ (s.value = QChar.newline ∧ 0 < below.length) := fun hn =>
        hs ⟨hn.1, List.length_pos_iff.mp hn.2⟩
      have hlong : ¬ (left = [] ∧ left.length + (right.length + 1) = 1) := by
        have := List.length_pos_iff.mpr hr
        omega
      simp [CRDT.eraseRemote, hnext, hlong, bind, Except.bind]
    · have hb : below = [] := by
        by_contra hb
        exact hs ⟨hn, hb⟩
      subst hb
      rcases hlayout.2 with ⟨-, ho⟩ | ⟨-, hl⟩
      · have hy' : y ∈ right := by simpa [Cursor.after] using hy
        exact isNewline_false.mp (ho.2 y (by simp [hy']))
      · exact absurd rfl hl.ne_nil

/-- **One removal.** The symbol goes, and the lines are as they should be exactly if the two
symbols match. -/
theorem eraseRemote_matches (c : Cursor ls line index x) (h : Layout isNewline ls)
    (ha : c.after ≠ []) (s : Symbol) :
    ∃ ls', CRDT.eraseRemote ls s line index = .ok ls' ∧ ls'.flatten = c.before ++ c.after ∧
      (Layout isNewline ls' ↔ Matches s c.before x c.after) := by
  by_cases hx : x.value = QChar.newline
  · exact eraseRemote_newline c h hx
  · exact eraseRemote_letterCase c h hx ha

end EraseRemote

/-- The listed positions are gone, everything else is there, and `size` has followed. -/
structure Erased (c c' : CRDT) (ss : List Symbol) : Prop where
  wellFormed : WellFormed c'.symbols
  flatten : c'.symbols.flatten = without c.symbols.flatten ss
  size : c'.size + c.symbols.flatten.length = c.size + c'.symbols.flatten.length

/-- What `handleRemoteErase` should do. -/
def RemovesExactly (c : CRDT) (ss : List Symbol) : Prop :=
  ∃ c', (∃ signals, c.handleRemoteErase ss = .ok (c', signals)) ∧ Erased c c' ss

/-- Each symbol in turn is one of what is left, up to one that is outside of it: then nothing of
what is left is listed. -/
inductive Findable : List Symbol → List Symbol → Prop
  | ends {xs ss : List Symbol} : (∀ s ∈ ss.head?, Outside xs s) →
      (∀ s ∈ ss, ∀ y ∈ xs, s.position ≠ y.position) → Findable xs ss
  | finds {u v ss : List Symbol} {x s : Symbol} : s.position = x.position → Matches s u x v →
      Findable (u ++ v) ss → Findable (u ++ x :: v) (s :: ss)

section Erasing

variable {c c' : CRDT} {u v ss : List Symbol} {s x t : Symbol}

theorem handleRemoteErase_iff :
    (∃ signals, c.handleRemoteErase ss = .ok (c', signals)) ↔
      ∃ places, c.eraseRemoteLoop ss = .ok (c', places) := by
  unfold CRDT.handleRemoteErase
  rcases c.eraseRemoteLoop ss with e | ⟨c1, _ | places⟩ <;>
    simp [bind, Except.bind, pure, Except.pure]

theorem removesExactly_iff : RemovesExactly c ss ↔
    ∃ c', (∃ places, c.eraseRemoteLoop ss = .ok (c', places)) ∧ Erased c c' ss :=
  exists_congr fun _ => and_congr_left fun _ => handleRemoteErase_iff

theorem without_cons (h : Ordered (u ++ x :: v)) (hs : s.position = x.position) :
    without (u ++ x :: v) (s :: ss) = without (u ++ v) ss := by
  obtain ⟨-, hxv, hu⟩ := Ordered.append.mp h
  have hkeep : ∀ {xs : List Symbol}, (∀ y ∈ xs, y.position ≠ s.position) →
      without xs (s :: ss) = without xs ss := by
    intro xs hne
    refine List.filter_congr ?_
    intro y hy
    simp [hne y hy]
  have hleft : without u (s :: ss) = without u ss :=
    hkeep fun y hy => (hs ▸ (hu y hy x (by simp)).ne : y.position ≠ s.position)
  have hright : without v (s :: ss) = without v ss :=
    hkeep fun y hy => (hs ▸ ((Ordered.cons.mp hxv).1 y hy).ne' : y.position ≠ s.position)
  have hx : without (x :: v) (s :: ss) = without v (s :: ss) :=
    List.filter_cons_of_neg (by simp [hs])
  unfold without at hleft hright hx ⊢
  rw [List.filter_append, List.filter_append, hx, hleft, hright]

theorem without_eq_self_iff {xs : List Symbol} :
    without xs ss = xs ↔ ∀ s ∈ ss, ∀ y ∈ xs, s.position ≠ y.position := by
  rw [without, List.filter_eq_self]
  simp only [decide_eq_true_eq, List.mem_map, not_exists, not_and]
  exact ⟨fun h s hs y hy => h y hy s hs, fun h y hy s hs => h s hs y hy⟩

/-- A symbol that is there is removed. -/
theorem eraseRemoteLoop_present (h : WellFormed c.symbols) (hf : c.symbols.flatten = u ++ x :: v)
    (hs : s.position = x.position) (hv : v ≠ []) :
    ∃ ls1, ls1.flatten = u ++ v ∧ (Layout isNewline ls1 ↔ Matches s u x v) ∧
      ∀ ss, c.eraseRemoteLoop (s :: ss) =
        (CRDT.eraseRemoteLoop { c with symbols := ls1, size := c.size - 1 } ss).map
          fun r => (r.1, r.2.map (place u :: ·)) := by
  obtain ⟨cur, hcb, hca⟩ := h.layout.exists_cursor hf
  obtain ⟨ls1, he, hflat, hlayout⟩ := eraseRemote_matches cur h.layout (by rwa [hca]) s
  rw [hcb, hca] at hflat hlayout
  have he' : CRDT.eraseRemote c.symbols s (place u).1 (place u).2 = .ok ls1 := he
  refine ⟨ls1, hflat, hlayout, fun ss => ?_⟩
  rw [CRDT.eraseRemoteLoop]
  simp only [findPosition_present h.toArranged hf hs, he', bind, Except.bind]
  generalize CRDT.eraseRemoteLoop _ ss = r
  rcases r with _ | ⟨c', _ | places⟩ <;> rfl

theorem RemovesExactly.nil (h : WellFormed c.symbols) : RemovesExactly c [] :=
  removesExactly_iff.mpr ⟨c, ⟨_, rfl⟩, h, (without_nil _).symm, rfl⟩

/-- The loop stops at a symbol outside of the document. -/
theorem removesExactly_outside (h : WellFormed c.symbols)
    (hs : Outside c.symbols.flatten s) : RemovesExactly c (s :: ss) ↔
      ∀ r ∈ s :: ss, ∀ y ∈ c.symbols.flatten, r.position ≠ y.position := by
  have hloop : c.eraseRemoteLoop (s :: ss) = .ok (c, none) := by
    simp [CRDT.eraseRemoteLoop, findPosition_outside h hs, bind, Except.bind, pure, Except.pure]
  rw [removesExactly_iff, ← without_eq_self_iff]
  constructor
  · intro hex
    obtain ⟨c', ⟨places, hp⟩, he⟩ := hex
    obtain ⟨rfl, -⟩ := Prod.mk.inj (Except.ok.inj (hloop.symm.trans hp))
    exact he.flatten.symm
  · exact fun hw => ⟨c, ⟨_, hloop⟩, h, hw.symm, rfl⟩

/-- It goes on behind one that is there. -/
theorem removesExactly_present (h : WellFormed c.symbols) (hf : c.symbols.flatten = u ++ x :: v)
    (hs : s.position = x.position) (hm : Matches s u x v) (hv : v ≠ []) :
    ∃ c1, WellFormed c1.symbols ∧ c1.symbols.flatten = u ++ v ∧
      ∀ ss, RemovesExactly c (s :: ss) ↔ RemovesExactly c1 ss := by
  obtain ⟨ls1, hflat, hlayout, hloop⟩ := eraseRemoteLoop_present h hf hs hv
  have he : Erases c.symbols ls1 u [x] v := ⟨hlayout.mpr hm, by simp [hf], hflat, hv⟩
  refine ⟨{ c with symbols := ls1, size := c.size - 1 }, he.wellFormed h, hflat, fun ss => ?_⟩
  have hwithout : without c.symbols.flatten (s :: ss) = without ls1.flatten ss := by
    rw [hflat, hf, without_cons (hf ▸ h.ordered) hs]
  have hlen : c.symbols.flatten.length = ls1.flatten.length + 1 := by
    simp only [hf, hflat, List.length_append, List.length_cons]
    omega
  rw [removesExactly_iff, removesExactly_iff]
  refine exists_congr fun c' => and_congr ?_ ?_
  · rw [hloop]
    generalize CRDT.eraseRemoteLoop _ ss = r
    rcases r with _ | ⟨c2, places⟩ <;> simp [Except.map]
  · constructor
    · intro hex
      obtain ⟨hwf, hflat', hsize⟩ := hex
      exact ⟨hwf, hflat'.trans hwithout, by push_cast [hlen] at hsize ⊢; omega⟩
    · intro hex
      obtain ⟨hwf, hflat', hsize⟩ := hex
      exact ⟨hwf, hflat'.trans hwithout.symm, by push_cast [hlen] at hsize ⊢; omega⟩

/-- An absent symbol that is not outside takes another one along: `size` says so. -/
theorem not_removesExactly_inside {place : Nat × Nat}
    (hfind : findPosition c.symbols s = .ok (some place))
    (hs : ∀ y ∈ c.symbols.flatten, s.position ≠ y.position) : ¬ RemovesExactly c [s] := by
  rw [removesExactly_iff]
  intro h
  obtain ⟨c', ⟨places, hp⟩, he⟩ := h
  have hflat : c'.symbols.flatten = c.symbols.flatten :=
    he.flatten.trans (without_eq_self_iff.mpr (by simpa using hs))
  have hsize : c'.size = c.size - 1 := by
    rw [CRDT.eraseRemoteLoop] at hp
    simp only [hfind, CRDT.eraseRemoteLoop] at hp
    obtain ⟨r, hr, hp⟩ := bind_eq_ok.mp hp
    obtain rfl := Except.ok.inj hr
    obtain ⟨ls1, -, hp⟩ := bind_eq_ok.mp hp
    cases hp
    rfl
  have := he.size
  rw [hflat, hsize] at this
  omega

/-- **Remote erasures.** After each round exactly the symbols listed so far are gone, if and only
if the symbols are findable. -/
theorem removes_exactly_iff (h : WellFormed c.symbols) (ht : c.symbols.flatten.getLast? = some t)
    (hss : ∀ s ∈ ss, s.position ≠ t.position) :
    (∀ p, p <+: ss → RemovesExactly c p) ↔ Findable c.symbols.flatten ss := by
  have hne : ∀ {u v : List Symbol} {x s : Symbol}, (u ++ x :: v).getLast? = some t →
      s.position = x.position → s.position ≠ t.position → v ≠ [] := by
    rintro u v x s ht hs hst rfl
    rw [List.getLast?_concat] at ht
    exact hst (hs.trans (congrArg Symbol.position (Option.some.inj ht)))
  have hlast : ∀ {u v : List Symbol} {x : Symbol}, (u ++ x :: v).getLast? = some t → v ≠ [] →
      (u ++ v).getLast? = some t := by
    intro u v x ht hv
    rw [List.append_cons, List.getLast?_append_of_ne_nil _ hv] at ht
    rwa [List.getLast?_append_of_ne_nil _ hv]
  constructor
  · intro hex
    induction ss generalizing c with
    | nil => exact .ends (by simp) (by simp)
    | cons s ss ih =>
      rcases findPosition_cases h s with hout | ⟨u, x, v, hf, hs, -⟩ |
        ⟨habsent, u, x, v, -, -, hfind⟩
      · refine .ends (by simpa using hout) ?_
        exact (removesExactly_outside h hout).mp (hex _ List.prefix_rfl)
      · rw [hf] at ht
        have hv := hne ht hs (hss s (by simp))
        obtain ⟨ls1, hflat, hlayout, hloop⟩ := eraseRemoteLoop_present h hf hs hv
        have hm : Matches s u x v := by
          obtain ⟨c', ⟨places, hp⟩, he⟩ := removesExactly_iff.mp (hex [s] (by simp))
          rw [hloop] at hp
          cases hp
          exact hlayout.mp he.wellFormed.layout
        obtain ⟨c1, hwf, hflat1, hiff⟩ := removesExactly_present h hf hs hm hv
        have hrest := (forall_prefix_cons.mp hex).2
        rw [hf]
        exact .finds hs hm (hflat1 ▸ ih hwf (hflat1 ▸ hlast ht hv)
          (fun r hr => hss r (by simp [hr])) fun p hp => (hiff p).mp (hrest p hp))
      · exact absurd (hex [s] (by simp)) (not_removesExactly_inside hfind habsent)
  · intro hfindable
    generalize hxs : c.symbols.flatten = xs at hfindable
    induction hfindable generalizing c with
    | @ends xs ss hout habsent =>
      intro p hp
      cases p with
      | nil => exact .nil h
      | cons s p =>
        obtain ⟨ss, rfl⟩ := hp
        refine (removesExactly_outside h (hxs ▸ hout s rfl)).mpr ?_
        intro r hr y hy
        exact habsent r (List.mem_append_left _ hr) y (hxs ▸ hy)
    | @finds u v ss x s hs hm _ ih =>
      rw [hxs] at ht
      have hv := hne ht hs (hss s (by simp))
      obtain ⟨c1, hwf, hflat1, hiff⟩ := removesExactly_present h hxs hs hm hv
      have hrest := ih hwf (hflat1 ▸ hlast ht hv) (fun r hr => hss r (by simp [hr])) hflat1
      exact forall_prefix_cons.mpr ⟨.nil h, fun p hp => (hiff p).mpr (hrest p hp)⟩

/-- Where the second of two equal messages does what it should, it does nothing. -/
theorem RemovesExactly.again {c1 c2 : CRDT} {signals signals' : List Signal}
    (h1 : c.handleRemoteErase ss = .ok (c1, signals))
    (h2 : c1.handleRemoteErase ss = .ok (c2, signals')) (hr1 : RemovesExactly c ss)
    (hr2 : RemovesExactly c1 ss) : c2.symbols = c1.symbols ∧ c2.size = c1.size := by
  obtain ⟨c1', ⟨_, h1'⟩, he1⟩ := hr1
  obtain ⟨rfl, -⟩ := Prod.mk.inj (Except.ok.inj (h1.symm.trans h1'))
  obtain ⟨c2', ⟨_, h2'⟩, he2⟩ := hr2
  obtain ⟨rfl, -⟩ := Prod.mk.inj (Except.ok.inj (h2.symm.trans h2'))
  have hgone : without c1.symbols.flatten ss = c1.symbols.flatten := by
    refine without_eq_self_iff.mpr ?_
    intro s hs y hy
    rw [he1.flatten] at hy
    exact (mem_without.mp hy).2 s hs
  have hflat := he2.flatten.trans hgone
  refine ⟨he2.wellFormed.layout.ext he1.wellFormed.layout hflat, ?_⟩
  have := he2.size
  rw [hflat] at this
  omega

end Erasing

/-- A newline and a letter after it, erased by one message. -/
theorem removes_exactly_iff_joined :
    let c := CRDT.opened 1 [[plain (QChar.of 'a') [⟨1, 1⟩], plain QChar.newline [⟨3, 1⟩]],
      [plain (QChar.of 'b') [⟨5, 1⟩], plain QChar.null [⟨9, 1⟩]]]
    RemovesExactly c [plain QChar.newline [⟨3, 1⟩], plain (QChar.of 'b') [⟨5, 1⟩]] := by
  intro c
  have hlayout : Layout isNewline c.symbols :=
    .cons ⟨[_], _, rfl, by decide, by decide⟩ (.last ⟨by decide, by decide⟩)
  have h : WellFormed c.symbols := ⟨⟨hlayout, by unfold Ordered; decide⟩, [_, _, _], _, rfl, rfl⟩
  have hfindable : Findable c.symbols.flatten
      [plain QChar.newline [⟨3, 1⟩], plain (QChar.of 'b') [⟨5, 1⟩]] := by
    refine .finds (u := [_]) rfl ⟨fun _ hne => absurd rfl hne, fun hne => absurd rfl hne⟩ ?_
    exact .finds (u := [_]) rfl ⟨by decide, by decide⟩ (.ends (by simp) (by simp))
  exact (removes_exactly_iff h (t := plain QChar.null [⟨9, 1⟩]) rfl (by decide)).mpr hfindable _
    List.prefix_rfl

/-- The letter b of "ab" is erased twice: the second message erases the letter a. -/
theorem erase_twice_erases_another :
    let b := [plain (QChar.of 'b') [⟨3, 1⟩]]
    let c := CRDT.opened 1 [[plain (QChar.of 'a') [⟨1, 1⟩], plain (QChar.of 'b') [⟨3, 1⟩],
      plain QChar.null [⟨9, 1⟩]]]
    ∃ c1 c2 signals signals', WellFormed c1.symbols ∧
      c.handleRemoteErase b = .ok (c1, signals) ∧ c1.handleRemoteErase b = .ok (c2, signals') ∧
      c1.symbols = [[plain (QChar.of 'a') [⟨1, 1⟩], plain QChar.null [⟨9, 1⟩]]] ∧
      c2.symbols = [[plain QChar.null [⟨9, 1⟩]]] ∧ ¬ RemovesExactly c1 b := by
  intro b c
  have h2 : CRDT.handleRemoteErase
      ⟨1, [[plain (QChar.of 'a') [⟨1, 1⟩], plain QChar.null [⟨9, 1⟩]]], 0, [], 1⟩ b =
        .ok (⟨1, [[plain QChar.null [⟨9, 1⟩]]], 0, [], 0⟩, [.erase (some (0, 0)) 1]) := by
    decide +kernel
  have hwf : WellFormed [[plain (QChar.of 'a') [⟨1, 1⟩], plain QChar.null [⟨9, 1⟩]]] :=
    ⟨⟨.last ⟨by decide, by decide⟩, by unfold Ordered; decide⟩, [_], _, rfl, rfl⟩
  refine ⟨_, _, [.erase (some (0, 1)) 1], _, hwf, by decide +kernel, h2, rfl, rfl, ?_⟩
  intro h
  obtain ⟨c', ⟨signals, hr⟩, he⟩ := h
  obtain ⟨rfl, -⟩ := Prod.mk.inj (Except.ok.inj (h2.symm.trans hr))
  exact absurd he.flatten (by decide)

/-! ## Changes of format -/

/-- The format of `x` once the symbols of a message are written, the last one that names it
deciding. -/
def formatAfter (x : Symbol) (ss : List Symbol) : SymbolFormat :=
  ss.foldl (fun format s => if s.position = x.position then s.format else format) x.format

/-- Lines, values and positions are as they were; the formats are those received. -/
structure Reformatted (ls ls' : Lines) (ss : List Symbol) : Prop where
  letters : ls'.map (List.map letter) = ls.map (List.map letter)
  formats : ls'.flatten.map Symbol.format = ls.flatten.map fun x => formatAfter x ss

/-- What `handleRemoteChange` should do. -/
def ReformatsExactly (c : CRDT) (ss : List Symbol) : Prop :=
  ∃ c', (∃ signals, c.handleRemoteChange ss = .ok (c', signals)) ∧
    Reformatted c.symbols c'.symbols ss

/-- Each symbol in turn is in the document, up to one that is outside of it: then the rest asks for
nothing new. -/
inductive Changeable : List Symbol → List Symbol → Prop
  | ends {xs ss : List Symbol} : (∀ s ∈ ss.head?, Outside xs s) →
      (∀ s ∈ ss, ∀ x ∈ xs, s.position = x.position → s.format = x.format) → Changeable xs ss
  | finds {u v ss : List Symbol} {x s : Symbol} : letter s = letter x →
      Changeable (u ++ s :: v) ss → Changeable (u ++ x :: v) (s :: ss)

section Changing

variable {c : CRDT} {ls ls' : Lines} {u v ss : List Symbol} {s x : Symbol}

theorem reformatsExactly_iff : ReformatsExactly c ss ↔
    ∃ ls', (∃ finished, CRDT.changeRemoteLoop c.symbols ss = .ok (ls', finished)) ∧
      Reformatted c.symbols ls' ss := by
  unfold ReformatsExactly CRDT.handleRemoteChange
  rcases CRDT.changeRemoteLoop c.symbols ss with e | ⟨ls1, finished⟩
  · simp [bind, Except.bind]
  · simp [bind, Except.bind, pure, Except.pure]

theorem formatAfter_cons (x s : Symbol) (ss : List Symbol) : formatAfter x (s :: ss) =
    if s.position = x.position then formatAfter { x with format := s.format } ss
    else formatAfter x ss := by
  unfold formatAfter
  rw [List.foldl_cons]
  split_ifs <;> rfl

theorem formats_cons (h : Ordered (u ++ x :: v)) (hs : letter s = letter x) :
    ((u ++ x :: v).map fun y => formatAfter y (s :: ss)) =
      (u ++ s :: v).map fun y => formatAfter y ss := by
  have hp : s.position = x.position := congrArg Prod.fst hs
  obtain ⟨-, hxv, hu⟩ := Ordered.append.mp h
  have hkeep : ∀ {xs : List Symbol}, (∀ y ∈ xs, s.position ≠ y.position) →
      (xs.map fun y => formatAfter y (s :: ss)) = xs.map fun y => formatAfter y ss :=
    fun hne => List.map_congr_left fun y hy => by rw [formatAfter_cons, if_neg (hne y hy)]
  have hx : formatAfter x (s :: ss) = formatAfter s ss := by
    rw [formatAfter_cons, if_pos hp]
    simp only [formatAfter, hp]
  rw [List.map_append, List.map_cons, List.map_append, List.map_cons, hx,
    hkeep fun y hy => hp ▸ (hu y hy x (by simp)).ne',
    hkeep fun y hy => hp ▸ ((Ordered.cons.mp hxv).1 y hy).ne]

/-- A symbol that is there is overwritten. -/
theorem changeRemoteLoop_present (h : WellFormed ls) (hf : ls.flatten = u ++ x :: v)
    (hs : s.position = x.position) :
    ∃ ls1, ls1.flatten = u ++ s :: v ∧ (letter s = letter x → WellFormed ls1) ∧
      (ls1.map (List.map letter) = ls.map (List.map letter) ↔ letter s = letter x) ∧
      ∀ ss, CRDT.changeRemoteLoop ls (s :: ss) = CRDT.changeRemoteLoop ls1 ss := by
  obtain ⟨cur, hcb, hca⟩ := h.layout.exists_cursor hf
  obtain ⟨hget, hput, hput'⟩ := putSymbol_eq cur s
  have hflat : (cur.above ++ (cur.left ++ s :: cur.right) :: cur.below).flatten =
      cur.before ++ s :: cur.after := by simp [Cursor.before, Cursor.after]
  rw [hcb, hca] at hflat
  refine ⟨_, hflat, fun hl => ?_, ?_, fun ss => ?_⟩
  · refine h.of_letter (cur.layout_replace h.layout (isNewline_of_letter hl)) ?_
    rw [hflat, hf]
    simp [hl]
  · rw [congrArg (List.map (List.map letter)) cur.eq]
    simp
  · have hget' : QVector.get ls (place u).1 = _ := hget
    have hput1 : QVector.put _ (place u).2 s = _ := hput
    have hput2 : QVector.put ls (place u).1 _ = _ := hput'
    simp only [CRDT.changeRemoteLoop, findPosition_present h.toArranged hf hs, hget', hput1, hput2,
      bind, Except.bind]

theorem formatAfter_eq_self (h : ∀ s ∈ ss, s.position = x.position → s.format = x.format) :
    formatAfter x ss = x.format := by
  induction ss with
  | nil => rfl
  | cons s ss ih =>
    have hrest := ih fun r hr => h r (by simp [hr])
    rw [formatAfter_cons]
    split_ifs with hp
    · have hx : ({ x with format := s.format } : Symbol) = x := by rw [h s (by simp) hp]
      rw [hx, hrest]
    · exact hrest

theorem ReformatsExactly.nil : ReformatsExactly c [] :=
  reformatsExactly_iff.mpr ⟨c.symbols, ⟨_, rfl⟩, rfl, rfl⟩

/-- The loop stops at a symbol outside of the document. -/
theorem reformatsExactly_outside (h : WellFormed c.symbols) (hs : Outside c.symbols.flatten s) :
    ReformatsExactly c (s :: ss) ↔
      ∀ x ∈ c.symbols.flatten, x.format = formatAfter x (s :: ss) := by
  have hloop : CRDT.changeRemoteLoop c.symbols (s :: ss) = .ok (c.symbols, false) := by
    simp [CRDT.changeRemoteLoop, findPosition_outside h hs, bind, Except.bind, pure, Except.pure]
  have hmap : (c.symbols.flatten.map Symbol.format =
      c.symbols.flatten.map fun x => formatAfter x (s :: ss)) ↔ _ := List.map_inj_left
  rw [reformatsExactly_iff, ← hmap]
  constructor
  · intro hex
    obtain ⟨ls', ⟨finished, hl⟩, hr⟩ := hex
    obtain ⟨rfl, -⟩ := Prod.mk.inj (Except.ok.inj (hloop.symm.trans hl))
    exact hr.formats
  · exact fun hf => ⟨c.symbols, ⟨_, hloop⟩, rfl, hf⟩

/-- It goes on behind one that is there. -/
theorem reformatsExactly_present (h : WellFormed c.symbols) (hf : c.symbols.flatten = u ++ x :: v)
    (hs : letter s = letter x) :
    ∃ c1, WellFormed c1.symbols ∧ c1.symbols.flatten = u ++ s :: v ∧
      ∀ ss, ReformatsExactly c (s :: ss) ↔ ReformatsExactly c1 ss := by
  obtain ⟨ls1, hflat, hwf, hletters, hloop⟩ :=
    changeRemoteLoop_present h hf (congrArg Prod.fst hs)
  refine ⟨{ c with symbols := ls1 }, hwf hs, hflat, fun ss => ?_⟩
  have hformats : ((u ++ x :: v).map fun y => formatAfter y (s :: ss)) =
      (u ++ s :: v).map fun y => formatAfter y ss := formats_cons (hf ▸ h.ordered) hs
  rw [← hf, ← hflat] at hformats
  rw [reformatsExactly_iff, reformatsExactly_iff, hloop]
  refine exists_congr fun ls' => and_congr_right fun _ => ?_
  constructor
  · exact fun hr => ⟨hr.letters.trans (hletters.mpr hs).symm, hr.formats.trans hformats⟩
  · exact fun hr => ⟨hr.letters.trans (hletters.mpr hs), hr.formats.trans hformats.symm⟩

/-- An absent symbol that is not outside overwrites another one. -/
theorem not_reformatsExactly_inside {place : Nat × Nat}
    (hfind : findPosition c.symbols s = .ok (some place))
    (hs : ∀ y ∈ c.symbols.flatten, s.position ≠ y.position) : ¬ ReformatsExactly c [s] := by
  rw [reformatsExactly_iff]
  intro h
  obtain ⟨ls', ⟨finished, hl⟩, hr⟩ := h
  -- it is in the document now
  have hmem : s ∈ ls'.flatten := by
    simp only [CRDT.changeRemoteLoop, hfind] at hl
    obtain ⟨r, hfound, hl⟩ := bind_eq_ok.mp hl
    obtain rfl := Except.ok.inj hfound
    obtain ⟨l, -, hl⟩ := bind_eq_ok.mp hl
    obtain ⟨l', hl', hl⟩ := bind_eq_ok.mp hl
    obtain ⟨ls1, hls1, hl⟩ := bind_eq_ok.mp hl
    cases hl
    exact List.mem_flatten.mpr ⟨l', QVector.mem_put hls1, QVector.mem_put hl'⟩
  have hletters : ls'.flatten.map letter = c.symbols.flatten.map letter := by
    rw [List.map_flatten, List.map_flatten, hr.letters]
  obtain ⟨y, hy, he⟩ := List.mem_map.mp (hletters ▸ List.mem_map_of_mem (f := letter) hmem)
  exact hs y hy (congrArg Prod.fst he).symm

/-- **Remote changes of format.** After each round exactly the formats received so far are changed,
if and only if the symbols are changeable. -/
theorem reformats_exactly_iff (h : WellFormed c.symbols) :
    (∀ p, p <+: ss → ReformatsExactly c p) ↔ Changeable c.symbols.flatten ss := by
  constructor
  · intro hex
    induction ss generalizing c with
    | nil => exact .ends (by simp) (by simp)
    | cons s ss ih =>
      rcases findPosition_cases h s with hout | ⟨u, x, v, hf, hs, -⟩ |
        ⟨habsent, u, x, v, -, -, hfind⟩
      · refine .ends (by simpa using hout) ?_
        intro r hr x hx hrx
        -- the message up to this symbol
        obtain ⟨a, b, hab⟩ := List.append_of_mem hr
        obtain ⟨rest, hrest⟩ : ∃ rest, a ++ [r] = s :: rest := by
          cases a with
          | nil => exact ⟨[], by rw [(List.cons.inj hab).1]; rfl⟩
          | cons s' a => exact ⟨a ++ [r], by rw [(List.cons.inj hab).1]; rfl⟩
        have hp : a ++ [r] <+: s :: ss := ⟨b, by simp [hab]⟩
        have hsame := (reformatsExactly_outside h hout).mp (hrest ▸ hex _ hp) x hx
        rw [← hrest, formatAfter, List.foldl_append, List.foldl_cons, if_pos hrx] at hsame
        exact hsame.symm
      · obtain ⟨ls1, hflat, -, hletters, hloop⟩ := changeRemoteLoop_present h hf hs
        have hl : letter s = letter x := by
          obtain ⟨ls', ⟨finished, hr⟩, he⟩ := reformatsExactly_iff.mp (hex [s] (by simp))
          rw [hloop] at hr
          cases hr
          exact hletters.mp he.letters
        obtain ⟨c1, hwf, hflat1, hiff⟩ := reformatsExactly_present h hf hl
        have hrest := (forall_prefix_cons.mp hex).2
        rw [hf]
        exact .finds hl (hflat1 ▸ ih hwf fun p hp => (hiff p).mp (hrest p hp))
      · exact absurd (hex [s] (by simp)) (not_reformatsExactly_inside hfind habsent)
  · intro hchangeable
    generalize hxs : c.symbols.flatten = xs at hchangeable
    induction hchangeable generalizing c with
    | @ends xs ss hout hsame =>
      intro p hp
      cases p with
      | nil => exact .nil
      | cons s p =>
        obtain ⟨ss, rfl⟩ := hp
        refine (reformatsExactly_outside h (hxs ▸ hout s rfl)).mpr ?_
        intro x hx
        exact (formatAfter_eq_self fun r hr hrx =>
          hsame r (List.mem_append_left _ hr) x (hxs ▸ hx) hrx).symm
    | @finds u v ss x s hs _ ih =>
      obtain ⟨c1, hwf, hflat1, hiff⟩ := reformatsExactly_present h hxs hs
      have hrest := ih hwf hflat1
      exact forall_prefix_cons.mpr ⟨.nil, fun p hp => (hiff p).mpr (hrest p hp)⟩

end Changing

/-- The document of a letter. -/
def letterFile : CRDT :=
  .opened 1 [[plain (QChar.of 'a') [⟨1, 1⟩], plain QChar.null [⟨9, 1⟩]]]

theorem letterFile_wellFormed : WellFormed letterFile.symbols :=
  ⟨⟨.last ⟨by decide, by decide⟩, by unfold Ordered; decide⟩, [_], _, rfl, rfl⟩

/-- A symbol that is bold. -/
def bolded (s : Symbol) : Symbol := { s with format.bold := true }

/-- The letter and the terminator, and a letter that is behind them and gone. -/
def boldedSymbols : List Symbol :=
  [plain (QChar.of 'a') [⟨1, 1⟩], plain QChar.null [⟨9, 1⟩], plain (QChar.of 'c') [⟨12, 1⟩]].map
    bolded

/-- The letter and the terminator become bold, one after the other, and then nothing happens. -/
theorem reformats_exactly_iff_bold :
    ReformatsExactly letterFile (boldedSymbols.take 1) ∧
      ReformatsExactly letterFile (boldedSymbols.take 2) ∧
      ReformatsExactly letterFile boldedSymbols := by
  have hrounds : ∀ p, p <+: boldedSymbols → ReformatsExactly letterFile p := by
    refine (reformats_exactly_iff letterFile_wellFormed).mpr (.finds (u := []) rfl ?_)
    refine .finds (u := [bolded (plain (QChar.of 'a') [⟨1, 1⟩])]) rfl (.ends ?_ ?_)
    · intro s hs
      obtain rfl := Option.some.inj hs
      exact .inr (by decide)
    · decide
  exact ⟨hrounds _ (List.take_prefix ..), hrounds _ (List.take_prefix ..),
    hrounds _ List.prefix_rfl⟩

/-- The letter b is gone, and a change of its format puts it in the place of the letter a. -/
theorem change_overwrites_another :
    ∃ c' signals, letterFile.handleRemoteChange [plain (QChar.of 'b') [⟨3, 1⟩]] =
        .ok (c', signals) ∧
      c'.symbols = [[plain (QChar.of 'b') [⟨3, 1⟩], plain QChar.null [⟨9, 1⟩]]] ∧
      ¬ ReformatsExactly letterFile [plain (QChar.of 'b') [⟨3, 1⟩]] := by
  have hrun : letterFile.handleRemoteChange [plain (QChar.of 'b') [⟨3, 1⟩]] =
      .ok (⟨1, [[plain (QChar.of 'b') [⟨3, 1⟩], plain QChar.null [⟨9, 1⟩]]], 0, [], 1⟩,
        [.change [plain (QChar.of 'b') [⟨3, 1⟩]]]) := by decide +kernel
  refine ⟨_, _, hrun, rfl, ?_⟩
  intro h
  obtain ⟨c', ⟨signals, hr⟩, he⟩ := h
  obtain ⟨rfl, -⟩ := Prod.mk.inj (Except.ok.inj (hrun.symm.trans hr))
  exact absurd he.letters (by decide)

/-! ## Lookups -/

/-- What `findPosition` should say: that a symbol has the position, and where it is. -/
def LooksUp (ls : Lines) (s : Symbol) : Prop :=
  ∃ found, findPosition ls s = .ok found ∧
    (found.isSome ↔ ∃ x ∈ ls.flatten, x.position = s.position) ∧
    ∀ line index, found = some (line, index) →
      ∃ x, symbolAt ls line index = some x ∧ x.position = s.position

/-- A symbol that is not there, and not outside, is said to be at the start of a line. -/
theorem not_looksUp_inside {ls : Lines} {s : Symbol} {place : Nat × Nat}
    (hs : ∀ y ∈ ls.flatten, s.position ≠ y.position)
    (hfind : findPosition ls s = .ok (some place)) : ¬ LooksUp ls s := by
  intro h
  obtain ⟨found, hf, hiff, -⟩ := h
  obtain rfl := Except.ok.inj (hfind.symm.trans hf)
  obtain ⟨x, hx, he⟩ := hiff.mp rfl
  exact hs x hx he.symm

/-- **Lookups.** `findPosition` is right exactly about the symbols that are there, and about those
that would come before or after the whole document. -/
theorem looks_up_iff {ls : Lines} (h : WellFormed ls) (s : Symbol) :
    LooksUp ls s ↔ Outside ls.flatten s ∨ ∃ x ∈ ls.flatten, x.position = s.position := by
  rcases findPosition_cases h s with hout | ⟨u, x, v, hf, hs, hfind⟩ | ⟨hs, u, x, v, -, -, hfind⟩
  · refine iff_of_true ⟨none, findPosition_outside h hout, ?_, nofun⟩ (.inl hout)
    refine iff_of_false (by simp) ?_
    intro hex
    obtain ⟨x, hx, he⟩ := hex
    exact hout.ne_position x hx he.symm
  · have hmem : x ∈ ls.flatten := by simp [hf]
    obtain ⟨c, -, -⟩ := h.layout.exists_cursor hf
    refine iff_of_true ⟨_, hfind, iff_of_true rfl ⟨x, hmem, hs.symm⟩, ?_⟩
      (.inr ⟨x, hmem, hs.symm⟩)
    intro line index hp
    obtain ⟨rfl, rfl⟩ := Prod.mk.inj (Option.some.inj hp)
    exact ⟨x, symbolAt_cursor c, hs.symm⟩
  · refine iff_of_false (not_looksUp_inside hs hfind) ?_
    intro hor
    rcases hor with hout | ⟨y, hy, he⟩
    · cases hfind.symm.trans (findPosition_outside h hout)
    · exact hs y hy he.symm

/-- The letter is found by its position, whatever else the symbol says. -/
theorem looks_up_iff_letter : LooksUp letterFile.symbols (plain (QChar.of 'z') [⟨1, 1⟩]) :=
  (looks_up_iff letterFile_wellFormed _).mpr (.inr ⟨_, List.mem_cons_self, rfl⟩)

/-- A symbol between the letter and the terminator is not there, but `findPosition` says that it is
the letter. -/
theorem not_looks_up_between : ¬ LooksUp letterFile.symbols (plain (QChar.of 'b') [⟨3, 1⟩]) := by
  have hfind : findPosition letterFile.symbols (plain (QChar.of 'b') [⟨3, 1⟩]) =
      .ok (some (0, 0)) := by decide +kernel
  refine not_looksUp_inside ?_ hfind
  simp [letterFile, CRDT.opened, plain]

end Scriba.Client
