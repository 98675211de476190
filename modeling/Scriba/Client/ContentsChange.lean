import Scriba.Client.Editor

/-! # What a change of the text sends

`on_contentsChange` takes a change with as many characters removed as added for a local one if a
flag tells it to, and then sends messages; nothing that it calls takes one back. -/

namespace Scriba.Client

open Scriba.Utility Scriba.Lib

/-- How many messages have been sent. -/
def Sent.count (s : Sent) : Nat := s.2.length

section Counts

variable {s s' : Sent} {d : QTextDocument} {around : Surroundings} {turn position : Nat}

theorem Sent.perform_count {op : LocalOp} (h : s.perform op = .ok s') :
    s'.count = s.count + 1 := by
  obtain ⟨⟨c, m⟩, -, h⟩ := bind_eq_ok.mp h
  obtain rfl := Except.ok.inj h
  simp [Sent.count]

theorem InsertLoop.send_count {v v' : InsertLoop} {done align : Nat} {format : QTextCharFormat}
    {chance : Nat → Chance} (h : v.send done format align chance = .ok v') :
    v.sent.count ≤ v'.sent.count := by
  obtain ⟨⟨c, ⟨line, index⟩, m⟩, -, h⟩ := bind_eq_ok.mp h
  obtain rfl := Except.ok.inj h
  simp [Sent.count]

theorem InsertLoop.round_count {v v' : InsertLoop} {added : QString} {chance : Nat → Chance}
    {i : Nat} (h : v.round d added chance i = .ok v') : v.sent.count ≤ v'.sent.count := by
  obtain ⟨value, -, h⟩ := bind_eq_ok.mp h
  dsimp only at h
  generalize (if i = 0 then d.charFormat (d.right v.cursor) else v.formatPrec) = formatPrec at h
  generalize (if v.numLines ≠ v.linePrec then d.blockAlignment v.numLines else v.alignPrec) =
    align at h
  by_cases hsame : d.charFormat (d.right v.cursor) = formatPrec ∧ align = v.alignPrec
  · rw [if_pos hsame] at h
    obtain ⟨v1, h1, h⟩ := bind_eq_ok.mp h
    obtain rfl := Except.ok.inj h1
    obtain rfl := Except.ok.inj h
    exact le_rfl
  · rw [if_neg hsame] at h
    obtain ⟨v1, h1, h⟩ := bind_eq_ok.mp h
    obtain rfl := Except.ok.inj h
    have hle := InsertLoop.send_count h1
    exact hle

theorem handleLocalInsertion_count {num_chars : Int}
    (h : handleLocalInsertion d around turn s position num_chars = .ok s') :
    s.count ≤ s'.count := by
  obtain ⟨value, -, h⟩ := bind_eq_ok.mp h
  split_ifs at h
  · exact (congrArg Sent.count (Except.ok.inj h)).le
  · obtain ⟨value, -, h⟩ := bind_eq_ok.mp h
    rw [Sent.perform_count h]
    exact Nat.le_succ _
  · obtain ⟨v, hloop, h⟩ := bind_eq_ok.mp h
    have hv : s.count ≤ v.sent.count :=
      forLoop_keeps (I := fun v => s.count ≤ v.sent.count) hloop le_rfl
        fun i v v' hle hround => hle.trans (InsertLoop.round_count hround)
    split_ifs at h
    · obtain ⟨v', hsend, h⟩ := bind_eq_ok.mp h
      obtain rfl := Except.ok.inj h
      exact hv.trans (InsertLoop.send_count hsend)
    · obtain rfl := Except.ok.inj h
      exact hv

theorem FormatLoop.send_count {v v' : FormatLoop} (h : v.send = .ok v') :
    v'.sent.count = v.sent.count + 1 := by
  obtain ⟨sent, hsent, h⟩ := bind_eq_ok.mp h
  obtain rfl := Except.ok.inj h
  exact Sent.perform_count hsent

theorem FormatLoop.round_count {v v' : FormatLoop} {changed : QString} {start i : Nat}
    (h : v.round d changed start i = .ok v') : v.sent.count ≤ v'.sent.count := by
  obtain ⟨unit, -, h⟩ := bind_eq_ok.mp h
  dsimp only at h
  by_cases hi : i = start
  · simp only [if_pos hi, if_true] at h
    split_ifs at h
    all_goals
      obtain rfl := Except.ok.inj h
      exact le_rfl
  · simp only [if_neg hi] at h
    split_ifs at h
    · obtain rfl := Except.ok.inj h
      exact le_rfl
    · obtain rfl := Except.ok.inj h
      exact le_rfl
    · obtain ⟨v1, hsend, h⟩ := bind_eq_ok.mp h
      obtain rfl := Except.ok.inj h
      have hcount := FormatLoop.send_count hsend
      exact hcount ▸ Nat.le_succ _

theorem onFormatChange_count {changed : QString} {start stop : Nat} (hne : start ≠ stop)
    (h : onFormatChange d around s changed start stop = .ok s') : s.count < s'.count := by
  rw [onFormatChange, if_neg hne] at h
  obtain ⟨v, hloop, h⟩ := bind_eq_ok.mp h
  obtain ⟨v', hsend, h⟩ := bind_eq_ok.mp h
  obtain rfl := Except.ok.inj h
  have hv : s.count ≤ v.sent.count :=
    forLoop_keeps (I := fun v => s.count ≤ v.sent.count) hloop le_rfl
      fun i v v' hle hround => hle.trans (FormatLoop.round_count hround)
  rw [FormatLoop.send_count hsend]
  exact Nat.lt_succ_of_le hv

theorem checkBlock_count {v v' : Sent × Bool} {line : Nat} (h : checkBlock d line v = .ok v') :
    v'.1.count = v.1.count + 1 := by
  obtain ⟨_, -, h⟩ := bind_eq_ok.mp h
  obtain ⟨_, -, h⟩ := bind_eq_ok.mp h
  obtain ⟨sent, hsent, h⟩ := bind_eq_ok.mp h
  obtain rfl := Except.ok.inj h
  exact Sent.perform_count hsent

/-- The cursor is moved over every character that differs. -/
theorem checkFormats_moves {symbols : Lines} {cursor n : Nat} {formatChange : Bool}
    {v : Nat × Bool} (h : checkFormats d around symbols cursor formatChange n = .ok v) :
    cursor ≤ v.1 ∧ (v.2 = true → formatChange = true ∨ cursor < v.1) := by
  induction n generalizing cursor formatChange with
  | zero =>
    obtain rfl := Except.ok.inj h
    exact ⟨le_rfl, .inl⟩
  | succ n ih =>
    obtain ⟨_, -, h⟩ := bind_eq_ok.mp h
    split_ifs at h
    · obtain rfl := Except.ok.inj h
      exact ⟨Nat.le_succ _, .inl⟩
    · obtain ⟨hle, -⟩ := ih h
      exact ⟨Nat.le_of_succ_le hle, fun _ => .inr hle⟩

/-- **An undone change of format or alignment** is always sent. -/
theorem checkAlignment_count {v : Sent × Bool}
    (h : checkAlignment d around s position = .ok v) : s.count < v.1.count := by
  obtain ⟨⟨cursor, formatChange⟩, hformats, h⟩ := bind_eq_ok.mp h
  obtain ⟨-, hmoves⟩ := checkFormats_moves hformats
  dsimp only at h
  split_ifs at h with hchange
  · obtain ⟨sent, hsent, h⟩ := bind_eq_ok.mp h
    obtain rfl := Except.ok.inj h
    have hlt := (hmoves hchange).resolve_left Bool.false_ne_true
    exact onFormatChange_count hlt.ne hsent
  · have hle : d.blockNumber position ≤ Lines.lineOf TextChar.endsBlock d.chars :=
      (List.take_sublist position d.chars).countP_le
    obtain ⟨n, hn⟩ : ∃ n, Lines.lineOf TextChar.endsBlock d.chars + 1 - d.blockNumber position =
        n + 1 := ⟨_, Nat.succ_sub hle⟩
    rw [hn] at h
    obtain ⟨v1, h1, h⟩ := bind_eq_ok.mp h
    refine forLoop_keeps (I := fun v => s.count < v.1.count) h ?_ ?_
    · rw [checkBlock_count h1]
      exact Nat.lt_succ_self _
    · intro i v v' hlt hround
      rw [checkBlock_count hround]
      exact Nat.lt_succ_of_lt hlt

end Counts

namespace Editor

variable {e e' : Editor} {around : Surroundings} {r : Report}

theorem localErase_count {position : Nat} {lenght : Int}
    (h : e.localErase position lenght = .ok e') : e'.sent.count = e.sent.count + 1 := by
  obtain ⟨sent, hsent, h⟩ := bind_eq_ok.mp h
  obtain rfl := Except.ok.inj h
  exact Sent.perform_count hsent

theorem handleLocalInsertion_count {turn position : Nat} {num_chars : Int}
    (h : e.handleLocalInsertion around turn position num_chars = .ok e') :
    e.sent.count ≤ e'.sent.count := by
  obtain ⟨sent, hsent, h⟩ := bind_eq_ok.mp h
  obtain rfl := Except.ok.inj h
  exact Client.handleLocalInsertion_count hsent

/-- An insertion that may be left out. -/
theorem insertion_count {p : Prop} [Decidable p] {turn position : Nat} {num_chars : Int}
    (h : (if p then e.handleLocalInsertion around turn position num_chars else pure e) = .ok e') :
    e.sent.count ≤ e'.sent.count := by
  split_ifs at h
  · exact handleLocalInsertion_count h
  · obtain rfl := Except.ok.inj h
    exact le_rfl

/-- There is no first character of nothing. -/
theorem handleLocalInsertion_zero {turn position : Nat} :
    e.handleLocalInsertion around turn position 0 = .error .outOfRange := by
  have hnone : QString.mid e.document.toPlainText position 0 = [] := by
    rw [QString.mid, if_neg (Int.not_lt.mpr le_rfl)]
    exact List.take_zero
  rw [handleLocalInsertion, Client.handleLocalInsertion, hnone]
  rfl

theorem checkUndone_count (h : e.checkUndone around r = .ok e') :
    e.sent.count ≤ e'.sent.count ∧
      (r.charsRemoved = r.charsAdded → (e.undoFlag ∨ e.redoFlag) →
        e.sent.count < e'.sent.count) := by
  rw [checkUndone] at h
  split_ifs at h with hundone
  · obtain ⟨⟨sent, alignChange⟩, hsent, h⟩ := bind_eq_ok.mp h
    have hlt : e.sent.count < sent.count := checkAlignment_count hsent
    suffices hle : sent.count ≤ e'.sent.count from
      ⟨hlt.le.trans hle, fun _ _ => hlt.trans_le hle⟩
    dsimp only at h
    split_ifs at h
    · obtain rfl := Except.ok.inj h
      exact le_rfl
    · obtain ⟨e1, h1, h⟩ := bind_eq_ok.mp h
      have hle := handleLocalInsertion_count h
      rw [localErase_count h1] at hle
      exact Nat.le_of_succ_le hle
  · obtain rfl := Except.ok.inj h
    exact ⟨le_rfl, fun he hflag => absurd ⟨he, hflag⟩ hundone⟩

theorem repeatUndone_count (h : e.repeatUndone around r = .ok e') :
    e.sent.count ≤ e'.sent.count := by
  rw [repeatUndone] at h
  dsimp only at h
  by_cases hundo : r.charsAdded < r.charsRemoved ∧ e.undoFlag
  · rw [if_pos hundo] at h
    obtain ⟨e1, h1, h⟩ := bind_eq_ok.mp h
    have hle := insertion_count h
    rw [localErase_count h1] at hle
    exact Nat.le_of_succ_le hle
  · rw [if_neg hundo] at h
    exact insertion_count h

theorem substitute_count (h : e.substitute around r = .ok e') :
    e.sent.count ≤ e'.sent.count ∧ (e.selected → e.sent.count < e'.sent.count) := by
  rw [substitute] at h
  by_cases hselected : e.selected = true
  · rw [if_pos hselected] at h
    obtain ⟨e1, h1, h⟩ := bind_eq_ok.mp h
    obtain ⟨e2, h2, h⟩ := bind_eq_ok.mp h
    have hlt : e.sent.count < e'.sent.count :=
      calc e.sent.count < e1.sent.count := localErase_count h1 ▸ Nat.lt_succ_self _
        _ ≤ e2.sent.count := handleLocalInsertion_count h2
        _ ≤ e'.sent.count := repeatUndone_count h
    exact ⟨hlt.le, fun _ => hlt⟩
  · rw [if_neg hselected] at h
    exact ⟨repeatUndone_count h, fun hs => absurd hs hselected⟩

theorem replace_count (h : e.replace around r = .ok e') :
    e.sent.count ≤ e'.sent.count ∧ (0 < r.charsRemoved → e.sent.count < e'.sent.count) := by
  rw [replace] at h
  by_cases hremoved : 0 < r.charsRemoved
  · rw [if_pos hremoved] at h
    obtain ⟨e1, h1, h⟩ := bind_eq_ok.mp h
    have hle := insertion_count h
    rw [localErase_count h1] at hle
    exact ⟨Nat.le_of_succ_le hle, fun _ => hle⟩
  · rw [if_neg hremoved] at h
    exact ⟨insertion_count h, fun hr => absurd hr hremoved⟩

theorem repeatChange_count (h : e.repeatChange around r = .ok e') :
    e.sent.count ≤ e'.sent.count := by
  rw [repeatChange] at h
  split_ifs at h
  · exact (congrArg (fun e => e.sent.count) (Except.ok.inj h)).le
  · exact (substitute_count h).1
  · exact handleLocalInsertion_count h
  · exact (replace_count h).1

/-- Characters that were replaced by as many others are sent, if anything was typed or pasted. -/
theorem repeatChange_sends (hwaits : e.inserted ∨ 0 < e.pasted)
    (hequal : r.charsRemoved = r.charsAdded) (hpos : 0 < r.charsAdded)
    (h : e.repeatChange around r = .ok e') : e.sent.count < e'.sent.count := by
  have hadded : ¬ r.charsAdded < r.charsRemoved := hequal.not_gt
  have hremoved : ¬ r.charsRemoved < r.charsAdded := hequal.not_lt
  rw [repeatChange, if_neg fun hand => hand.1 hwaits] at h
  split_ifs at h with hfirst hstart
  · have hselected : e.selected = true := by
      rcases hfirst.2 with ⟨hselected, -⟩ | ⟨hlt, -⟩ | ⟨hlt, -⟩
      · exact hselected
      · exact absurd hlt hadded
      · exact absurd hlt hremoved
    exact (substitute_count h).2 hselected
  · rw [hequal, Int.sub_self, handleLocalInsertion_zero] at h
    cases h
  · exact (replace_count h).2 (hequal ▸ hpos)

/-- A flag that tells a local change is set. -/
def Waits (e : Editor) : Prop := e.inserted ∨ 0 < e.pasted ∨ e.undoFlag ∨ e.redoFlag

theorem onContentsChange_count (h : e.onContentsChange around r = .ok e') :
    e.sent.count ≤ e'.sent.count := by
  rw [onContentsChange] at h
  split_ifs at h
  · exact (congrArg (fun e => e.sent.count) (Except.ok.inj h)).le
  · obtain ⟨e1, h1, h⟩ := bind_eq_ok.mp h
    obtain ⟨e2, h2, h⟩ := bind_eq_ok.mp h
    obtain rfl := Except.ok.inj h
    show e.sent.count ≤ e2.sent.count
    exact (checkUndone_count h1).1.trans (repeatChange_count h2)

/-- As many characters removed as added are never taken for a remote insertion or deletion. -/
theorem onContentsChange_equal (hequal : r.charsRemoved = r.charsAdded) :
    e.onContentsChange around r = (do
      let e ← e.checkUndone around r
      let e ← e.repeatChange around r
      pure { e with
        inserted := false, pasted := 0, deleted := false, undoFlag := false
        redoFlag := false }) := by
  rw [onContentsChange, if_neg (by omega)]

/-- **A stale flag.** A change with as many characters removed as added is then sent. -/
theorem onContentsChange_sends (hwaits : e.Waits) (hequal : r.charsRemoved = r.charsAdded)
    (hpos : 0 < r.charsAdded) (h : e.onContentsChange around r = .ok e') :
    e.sent.count < e'.sent.count := by
  rw [onContentsChange_equal hequal] at h
  obtain ⟨e1, h1, h⟩ := bind_eq_ok.mp h
  obtain ⟨e2, h2, h⟩ := bind_eq_ok.mp h
  obtain rfl := Except.ok.inj h
  show e.sent.count < e2.sent.count
  by_cases hundo : e.undoFlag ∨ e.redoFlag
  · exact ((checkUndone_count h1).2 hequal hundo).trans_le (repeatChange_count h2)
  · rw [checkUndone, if_neg fun hand => hundo hand.2] at h1
    obtain rfl := Except.ok.inj h1
    have hlocal : e.inserted ∨ 0 < e.pasted := by
      rcases hwaits with hi | hp | hu
      · exact .inl hi
      · exact .inr hp
      · exact absurd hu hundo
    exact repeatChange_sends hlocal hequal hpos h2

/-- Without such a flag it is not. -/
theorem onContentsChange_quiet (around : Surroundings) (hquiet : ¬ e.Waits)
    (hequal : r.charsRemoved = r.charsAdded) :
    ∃ e', e.onContentsChange around r = .ok e' ∧ e'.sent = e.sent ∧ e'.document = e.document ∧
      ¬ e'.Waits := by
  simp only [Waits, not_or] at hquiet
  obtain ⟨hinserted, hpasted, hundo, hredo⟩ := hquiet
  refine ⟨{ e with
    inserted := false, pasted := 0, deleted := false, undoFlag := false, redoFlag := false },
    ?_, rfl, rfl, by simp [Waits]⟩
  rw [onContentsChange_equal hequal, checkUndone, if_neg fun hand => hand.2.elim hundo hredo]
  show (e.repeatChange around r >>= _) = _
  rw [repeatChange, if_pos ⟨fun hor => hor.elim hinserted hpasted, hequal.symm⟩]
  rfl

end Editor

end Scriba.Client
