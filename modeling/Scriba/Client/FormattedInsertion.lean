import Scriba.Client.Editor

/-! # Inserting formatted text

`handleLocalInsertion` cuts a text where the font, the colour or the alignment changes and has
`CRDT` insert the pieces, one behind the other. However they are cut, the symbols are those of the
text. Their formats are read on the right of each character: on the right of a newline that is the
format of the line it starts. -/

namespace Scriba.Client

open Scriba.Utility Scriba.Lib Scriba.Lib.Lines

/-! ## Generating again -/

/-- A position can be generated, whatever the strategies and the draws. -/
def Goes (siteId : Int) (pos1 pos2 : Position) (level : Nat) : Prop :=
  ∀ cache draw newPos, ∃ result,
    generatePositionBetween siteId cache draw pos1 pos2 newPos level = .ok result

namespace Goes

variable {siteId : Int} {pos1 pos2 : Position} {level : Nat}

theorem of_gap (h : (pos2[level]?.getD ⟨BASE, siteId⟩).digit -
    (pos1[level]?.getD ⟨0, siteId⟩).digit > 1) : Goes siteId pos1 pos2 level := by
  intro cache draw newPos
  rw [generatePositionBetween]
  exact ⟨_, if_pos h⟩

theorem of_below (h : (pos2[level]?.getD ⟨BASE, siteId⟩).digit -
      (pos1[level]?.getD ⟨0, siteId⟩).digit = 1 ∨
    (pos1[level]?.getD ⟨0, siteId⟩).digit = (pos2[level]?.getD ⟨BASE, siteId⟩).digit ∧
      (pos1[level]?.getD ⟨0, siteId⟩).site < (pos2[level]?.getD ⟨BASE, siteId⟩).site)
    (hnext : Goes siteId pos1 [] (level + 1)) : Goes siteId pos1 pos2 level := by
  intro cache draw newPos
  rw [generatePositionBetween]
  obtain ⟨result, hr⟩ := hnext cache draw (newPos ++ [pos1[level]?.getD ⟨0, siteId⟩])
  refine ⟨result, ?_⟩
  rcases h with h | ⟨h, hsite⟩
  · rw [if_neg (by omega), if_pos h]
    exact hr
  · rw [if_neg (by omega), if_neg (by omega), if_pos h, if_pos hsite]
    exact hr

theorem of_same (h : pos1[level]?.getD ⟨0, siteId⟩ = pos2[level]?.getD ⟨BASE, siteId⟩)
    (hnext : Goes siteId pos1 pos2 (level + 1)) : Goes siteId pos1 pos2 level := by
  intro cache draw newPos
  rw [generatePositionBetween]
  obtain ⟨result, hr⟩ := hnext cache draw (newPos ++ [pos1[level]?.getD ⟨0, siteId⟩])
  refine ⟨result, ?_⟩
  rw [if_neg (by rw [h]; omega), if_neg (by rw [h]; omega), if_pos (by rw [h]),
    if_neg (by rw [h]; exact lt_irrefl _), if_pos (by rw [h])]
  exact hr

/-- Past its end there is room for a whole digit. -/
theorem past_end (h : pos1.length ≤ level) : Goes siteId pos1 [] level := by
  refine of_gap ?_
  rw [List.getElem?_eq_none h]
  simp [BASE]

/-- One level up. -/
theorem push {id : Identifier} {t : Position}
    (h : ∀ u : Position, u.length = level + 1 → Goes siteId (u ++ t) pos2 (level + 1))
    {u : Position} (hu : u.length = level) :
    (u ++ id :: t)[level]?.getD ⟨0, siteId⟩ = id ∧
      Goes siteId (u ++ id :: t) pos2 (level + 1) := by
  have hnext := h (u ++ [id]) (by simp [hu])
  rw [List.append_assoc] at hnext
  exact ⟨by simp [← hu], hnext⟩

end Goes

/-- Where a position was generated another one can be, before it and after it. -/
theorem generatePositionBetween_again {siteId : Int} {cache cache' : StrategyCache} {draw : Draw}
    {pos1 pos2 newPos r : Position} {level : Nat}
    (h : generatePositionBetween siteId cache draw pos1 pos2 newPos level = .ok (r, cache')) :
    Goes siteId pos1 pos2 level ∧ ∃ t, r = newPos ++ t ∧
      ∀ u : Position, u.length = level → Goes siteId (u ++ t) pos2 level := by
  fun_induction generatePositionBetween siteId cache draw pos1 pos2 newPos level with
  | case1 pos2 newPos level id1 id2 hgap newDigit cache1 hg =>
    obtain ⟨rfl, -⟩ := Prod.mk.inj (Except.ok.inj h)
    have hb := generateIdBetween_bounds cache draw level hgap
    rw [hg] at hb
    refine ⟨Goes.of_gap hgap, _, rfl, ?_⟩
    intro u hu
    have hat : (u ++ [⟨newDigit, siteId⟩])[level]?.getD ⟨0, siteId⟩ = ⟨newDigit, siteId⟩ := by
      simp [← hu]
    have hlt : newDigit < (pos2[level]?.getD ⟨BASE, siteId⟩).digit := hb.2
    by_cases hone : (pos2[level]?.getD ⟨BASE, siteId⟩).digit - newDigit = 1
    · refine Goes.of_below (.inl (by rw [hat]; exact hone)) (Goes.past_end ?_)
      simp [hu]
    · refine Goes.of_gap ?_
      rw [hat]
      show _ - newDigit > 1
      omega
  | case2 pos2 newPos level id1 id2 h1 h2 ih =>
    obtain ⟨hgoes, t, rfl, ht⟩ := ih h
    refine ⟨Goes.of_below (.inl h2) hgoes, id1 :: t, by simp, ?_⟩
    intro u hu
    obtain ⟨hat, hnext⟩ := Goes.push ht hu
    exact Goes.of_below (.inl (by rw [hat]; exact h2)) hnext
  | case3 pos2 newPos level id1 id2 h1 h2 h3 h4 ih =>
    obtain ⟨hgoes, t, rfl, ht⟩ := ih h
    refine ⟨Goes.of_below (.inr ⟨h3, h4⟩) hgoes, id1 :: t, by simp, ?_⟩
    intro u hu
    obtain ⟨hat, hnext⟩ := Goes.push ht hu
    exact Goes.of_below (.inr (by rw [hat]; exact ⟨h3, h4⟩)) hnext
  | case4 pos2 newPos level id1 id2 h1 h2 h3 h4 h5 ih =>
    have hid : id1 = id2 := by
      cases hid1 : id1
      cases hid2 : id2
      simp only [hid1, hid2] at h3 h5
      rw [h3, h5]
    obtain ⟨hgoes, t, rfl, ht⟩ := ih h
    refine ⟨Goes.of_same hid hgoes, id1 :: t, by simp, ?_⟩
    intro u hu
    obtain ⟨hat, hnext⟩ := Goes.push ht hu
    exact Goes.of_same (hat.trans hid) hnext
  | case5 => cases h
  | case6 => cases h

/-! ## Insertions anywhere -/

/-- The symbol has the font and the colour. -/
def HasFormat (s : Symbol) (f : QTextCharFormat) : Prop := s.setFormat f.font f.color = s

/-- What comes before a place, the symbol at it, and a position that can be generated there. -/
structure Room (c : CRDT) (u : List Symbol) (x : Symbol) (v : List Symbol) : Prop where
  layout : Layout isNewline c.symbols
  flatten : c.symbols.flatten = u ++ x :: v
  goes : Goes c.siteId (posBefore u) x.position 0

theorem Room.insertNew {c : CRDT} {u v : List Symbol} {x : Symbol} (o : Room c u x v)
    (value : QChar) (f : QTextCharFormat) (align : Option SymbolFormat.Alignment)
    (chance : Chance) : ∃ c' s,
      c.insertNew (place u).1 (place u).2 value f.font f.color align chance = .ok (c', s) ∧
      Room c' (u ++ [s]) x v ∧ s.value = value ∧ HasFormat s f := by
  obtain ⟨cur, hcb, hca⟩ := o.layout.exists_cursor o.flatten
  have hb : findPosBefore c.symbols (place u).1 (place u).2 = .ok (posBefore u) :=
    (findPosBefore_spec o.layout.line_ne_nil cur).trans (by rw [hcb])
  have ha : findPosAfter c.symbols (place u).1 (place u).2 = .ok x.position :=
    findPosAfter_spec cur
  obtain ⟨⟨r, cache⟩, hr⟩ := o.goes c.strategyCache chance.draw []
  obtain ⟨-, t, ht, hagain⟩ := generatePositionBetween_again hr
  generalize hs : alignNew (Symbol.ofFont value r (c.counter + 1) f.font f.color chance.align)
    align = s
  obtain ⟨ls', hi, hlayout, hnew⟩ := insertChar_layout cur o.layout s
  have hi' : insertChar c.symbols s (place u).1 (place u).2 = .ok ls' := hi
  refine ⟨⟨c.siteId, ls', c.counter + 1, cache, c.size + 1⟩, s, ?_, ⟨hlayout, ?_, ?_⟩, ?_, ?_⟩
  · simp only [CRDT.insertNew, hb, ha, hr, hs, hi', bind, Except.bind]
    rfl
  · rw [hnew, hcb, hca, List.append_assoc, List.singleton_append]
  · rw [posBefore_concat, ← hs, alignNew_position, Symbol.ofFont_position, ht]
    exact hagain [] rfl
  · rw [← hs, alignNew_value, Symbol.ofFont_value]
  · rw [← hs]
    unfold alignNew
    cases align with
    | none => rfl
    | some a => dsimp only; split_ifs <;> rfl

theorem Room.insertGroupLoop {c : CRDT} {u v : List Symbol} {x : Symbol} (o : Room c u x v)
    (text : QString) (f : QTextCharFormat) (align : Nat) (chance : Nat → Chance) : ∃ c' ss,
      c.insertGroupLoop (place u).1 (place u).2 text f.font f.color align chance =
        .ok (c', place (u ++ ss), ss) ∧
      Room c' (u ++ ss) x v ∧ ss.map Symbol.value = text ∧ ∀ s ∈ ss, HasFormat s f := by
  induction text generalizing c u chance with
  | nil => exact ⟨c, [], by simp [CRDT.insertGroupLoop, pure, Except.pure], by simpa using o, rfl,
      by simp⟩
  | cons value text ih =>
    obtain ⟨c1, s, h1, o1, hvalue, hs⟩ := o.insertNew value f (alignOfGroup align) (chance 0)
    obtain ⟨c', ss, hrest, o', hvalues, hss⟩ := ih o1 fun n => chance (n + 1)
    have hnext : (if s.value = QChar.newline then ((place u).1 + 1, 0)
        else ((place u).1, (place u).2 + 1)) = place (u ++ [s]) := (place_concat u s).symm
    rw [List.append_assoc, List.singleton_append] at hrest o'
    refine ⟨c', s :: ss, ?_, o', by rw [List.map_cons, hvalue, hvalues], ?_⟩
    · simp only [CRDT.insertGroupLoop, h1, hnext, hrest, bind, Except.bind]
      rfl
    · exact List.forall_mem_cons.mpr ⟨hs, hss⟩

/-! ## The loop -/

section Loop

variable {d : QTextDocument} {added : QString} {us vs : List Symbol} {x : Symbol}
  {position i : Nat} {l : InsertLoop}

theorem InsertLoop.send_spec (hroom : Room l.sent.1 us x vs)
    (hplace : (l.line, l.index) = place us) (done : Nat) (f : QTextCharFormat) (align : Nat)
    (chance : Nat → Chance) : ∃ c' m ss,
      l.send done f align chance = .ok { l with
        sent := (c', l.sent.2 ++ [m]), line := (place (us ++ ss)).1
        index := (place (us ++ ss)).2 } ∧
      Room c' (us ++ ss) x vs ∧ ss.map Symbol.value = l.partialText ∧ ∀ s ∈ ss, HasFormat s f := by
  have hline : l.line = (place us).1 := congrArg Prod.fst hplace
  have hindex : l.index = (place us).2 := congrArg Prod.snd hplace
  obtain ⟨c', ss, hloop, hroom', hvalues, hss⟩ := hroom.insertGroupLoop l.partialText f align
    fun k => chance (done - l.partialText.length + k)
  refine ⟨c', .paste ss, ss, ?_, hroom', hvalues, hss⟩
  have hnonneg : ∀ m n : Nat, ¬ ((m : Int) < 0 ∨ (n : Int) < 0) := by omega
  rw [InsertLoop.send, hline, hindex, CRDT.localInsertGroup, if_neg (hnonneg _ _)]
  simp only [Int.toNat_natCast, hloop, bind, Except.bind]
  rfl

/-- After `i` characters: `ss` has been inserted, with the formats read to the right of the
characters, and the others wait with the one format that was read for them. -/
structure InsertLoop.Waiting (d : QTextDocument) (position : Nat) (added : QString)
    (us : List Symbol) (x : Symbol) (vs : List Symbol) (i : Nat) (ss : List Symbol)
    (l : InsertLoop) : Prop where
  room : Room l.sent.1 (us ++ ss) x vs
  place : (l.line, l.index) = place (us ++ ss)
  text : ss.map Symbol.value ++ l.partialText = added.take i
  sent : ∀ k s, ss[k]? = some s → HasFormat s (d.charFormat (position + k + 1))
  waiting : ∀ k, ss.length ≤ k → k < i → d.charFormat (position + k + 1) = l.formatPrec

/-- What waits is sent with the format it waits with. -/
theorem InsertLoop.Waiting.send {ss : List Symbol} (p : l.Waiting d position added us x vs i ss)
    (hi : i ≤ added.length) (done align : Nat) (chance : Nat → Chance) : ∃ c' m ss',
      l.send done l.formatPrec align chance = .ok { l with
        sent := (c', l.sent.2 ++ [m]), line := (Client.place (us ++ ss')).1
        index := (Client.place (us ++ ss')).2 } ∧
      Room c' (us ++ ss') x vs ∧ ss'.map Symbol.value = added.take i ∧
      ∀ k s, ss'[k]? = some s → HasFormat s (d.charFormat (position + k + 1)) := by
  obtain ⟨c', m, new, hsend, hroom, hvalues, hnew⟩ :=
    InsertLoop.send_spec p.room p.place done l.formatPrec align chance
  rw [List.append_assoc] at hsend hroom
  have hlength : ss.length + new.length = i := by
    have hl := congrArg List.length p.text
    rwa [← hvalues, List.length_append, List.length_map, List.length_map,
      List.length_take_of_le hi] at hl
  refine ⟨c', m, ss ++ new, hsend, hroom, by rw [List.map_append, hvalues, p.text], ?_⟩
  intro k s hs
  by_cases hk : k < ss.length
  · rw [List.getElem?_append_left hk] at hs
    exact p.sent k s hs
  · have hle : ss.length ≤ k := Nat.not_lt.mp hk
    rw [List.getElem?_append_right hle] at hs
    obtain ⟨hlt, -⟩ := List.getElem?_eq_some_iff.mp hs
    rw [p.waiting k hle (by omega)]
    exact hnew s (List.mem_of_getElem? hs)

/-- Before the next round. The first one finds no change of alignment. -/
structure InsertLoop.Pending (d : QTextDocument) (position : Nat) (added : QString)
    (us : List Symbol) (x : Symbol) (vs : List Symbol) (i : Nat) (ss : List Symbol)
    (l : InsertLoop) : Prop extends l.Waiting d position added us x vs i ss where
  cursor : l.cursor = position + i
  first : i = 0 → l.numLines = l.linePrec
  format : 0 < i → l.format = l.formatPrec

theorem InsertLoop.round_spec {ss : List Symbol} (p : l.Pending d position added us x vs i ss)
    (hi : i < added.length) (hin : position + i < d.chars.length) (chance : Nat → Chance) :
    ∃ l' ss', InsertLoop.round d added chance i l = .ok l' ∧
      l'.Pending d position added us x vs (i + 1) ss' := by
  have hget : QVector.get added i = .ok added[i] := QVector.get_eq_ok.mpr (by simp [hi])
  have hright : d.right l.cursor = position + i + 1 := by
    rw [QTextDocument.right, p.cursor, if_pos hin]
  have htake : added.take (i + 1) = added.take i ++ [added[i]] :=
    List.take_succ_eq_append_getElem hi
  unfold InsertLoop.round
  simp only [hget, hright, bind, Except.bind, pure, Except.pure]
  generalize hf : d.charFormat (position + i + 1) = f
  generalize hprec : (if i = 0 then f else l.formatPrec) = fPrec
  generalize halign : (if l.numLines ≠ l.linePrec then d.blockAlignment l.numLines
    else l.alignPrec) = align
  have hwaiting : ∀ k, ss.length ≤ k → k < i → d.charFormat (position + k + 1) = fPrec := by
    intro k hle hlt
    rw [← hprec, if_neg (by omega)]
    exact p.waiting k hle hlt
  by_cases hsame : f = fPrec ∧ align = l.alignPrec
  · rw [if_pos hsame]
    refine ⟨_, ss, rfl, ⟨p.room, p.place, ?_, p.sent, ?_⟩, rfl, ?_, ?_⟩
    · show ss.map Symbol.value ++ (l.partialText ++ [added[i]]) = _
      rw [htake, ← List.append_assoc, p.text]
    · intro k hle hlt
      rcases Nat.lt_succ_iff_lt_or_eq.mp hlt with hlt | rfl
      · exact hwaiting k hle hlt
      · exact hf.trans hsame.1
    · intro hzero
      omega
    · intro _
      exact hsame.1
  · rw [if_neg hsame]
    have p1 : InsertLoop.Waiting d position added us x vs i ss
        { l with cursor := position + i + 1, format := f, formatPrec := fPrec, align := align } :=
      ⟨p.room, p.place, p.text, p.sent, hwaiting⟩
    obtain ⟨c', m, ss', hsend, hroom, hvalues, hss⟩ := p1.send hi.le i l.alignPrec chance
    rw [hsend]
    have hlength : ss'.length = i := by
      have hl := congrArg List.length hvalues
      rwa [List.length_map, List.length_take_of_le hi.le] at hl
    refine ⟨_, ss', rfl, ⟨hroom, rfl, ?_, hss, ?_⟩, rfl, ?_, ?_⟩
    · show ss'.map Symbol.value ++ [added[i]] = _
      rw [htake, hvalues]
    · intro k hle hlt
      obtain rfl : k = i := by omega
      exact hf
    · intro hzero
      omega
    · intro _
      rfl

end Loop

/-! ## Whose format it is -/

end Scriba.Client
