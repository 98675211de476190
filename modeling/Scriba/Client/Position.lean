import Mathlib.Tactic.SplitIfs
import Scriba.Utility.Symbol

/-! # Generating a position between two positions

`generatePositionBetween` and what it calls, from `Client/CRDT.cpp`. The random draws
of one call are its argument `Draw`: it makes at most one of each kind, in
`generateIdBetween`, which ends the recursion. -/

namespace Scriba.Client

open Scriba.Utility

def BASE : Int := 32
def BOUNDARY : Int := 10

/-- How a call can fail: a container accessed out of range (Qt asserts), the two
`runtime_error`s of `CRDT.cpp`, and the end of a function with a result reached
without a `return`. -/
inductive Fault where
  | outOfRange
  | indexOutOfBound
  | invalidOrdering
  | missingReturn
deriving DecidableEq, Repr

/-- The outcome of the random draws: one of `generateRandomBool`, one of `std::rand`. -/
structure Draw where
  coin : Bool
  rand : Nat

/-- `std::map<int, bool>`. -/
abbrev StrategyCache := List (Nat × Bool)

/-- Returns n1 <= x <= n2. -/
def generateRandomNumBetween (n1 n2 : Int) (rand : Nat) : Int :=
  n1 + rand % (n2 - n1 + 1)

def generateIdBetween (strategyCache : StrategyCache) (draw : Draw) (id1 id2 : Int)
    (level : Nat) : Int × StrategyCache :=
  let interval := id2 - id1
  let strategy := (strategyCache.lookup level).getD draw.coin
  let cache := if (strategyCache.lookup level).isNone then (level, draw.coin) :: strategyCache
    else strategyCache
  let step := min BOUNDARY interval
  let delta := generateRandomNumBetween 1 (step - 1) draw.rand
  (if strategy then id1 + delta else id2 - delta, cache)

/-- Past the end of both positions there is room: only level 0 to the longer length recurses. -/
private theorem level_lt (siteId : Int) (pos1 pos2 : Position) (level : Nat)
    (h : (pos2[level]?.getD ⟨BASE, siteId⟩).digit - (pos1[level]?.getD ⟨0, siteId⟩).digit ≤ 1) :
    level < max pos1.length pos2.length := by
  by_contra hge
  have h1 : pos1[level]? = none := List.getElem?_eq_none (by omega)
  have h2 : pos2[level]? = none := List.getElem?_eq_none (by omega)
  rw [h1, h2] at h
  simp [BASE] at h

/-- Results: `newPos` and the strategies chosen so far. -/
def generatePositionBetween (siteId : Int) (strategyCache : StrategyCache) (draw : Draw)
    (pos1 pos2 newPos : Position) (level : Nat) : Except Fault (Position × StrategyCache) :=
  let id1 := pos1[level]?.getD ⟨0, siteId⟩
  let id2 := pos2[level]?.getD ⟨BASE, siteId⟩
  if id2.digit - id1.digit > 1 then
    -- Case 1: enough space to add in between
    let (newDigit, cache) := generateIdBetween strategyCache draw id1.digit id2.digit level
    .ok (newPos ++ [⟨newDigit, siteId⟩], cache)
  else if id2.digit - id1.digit = 1 then
    -- Case 2: no space in between, use identifier of first position
    generatePositionBetween siteId strategyCache draw pos1 [] (newPos ++ [id1]) (level + 1)
  else if id1.digit = id2.digit then
    -- Case 3: same digit, use site id to discriminate
    if id1.site < id2.site then
      generatePositionBetween siteId strategyCache draw pos1 [] (newPos ++ [id1]) (level + 1)
    else if id1.site = id2.site then
      generatePositionBetween siteId strategyCache draw pos1 pos2 (newPos ++ [id1]) (level + 1)
    else .error .invalidOrdering
  else .error .missingReturn
termination_by max pos1.length pos2.length - level
decreasing_by
  all_goals
    have := level_lt siteId pos1 pos2 level (by change id2.digit - id1.digit ≤ 1; omega)
    simp_wf
    omega

/-! ## What is generated -/

/-- A position as sites generate them: digits below `BASE`, the last one at least 1. -/
structure ValidPosition (p : Position) : Prop where
  digits : ∀ i ∈ p, 0 ≤ i.digit ∧ i.digit < BASE
  last : ∃ u i, p = u ++ [i] ∧ 1 ≤ i.digit

/-- The pairs for which no digit is left below `pos2`: `pos1` is a proper prefix of `pos2`,
which goes on with identifiers (0, own site) and then one (0, a) of a smaller site. -/
def Blocked (siteId : Int) (pos1 pos2 : Position) : Prop :=
  ∃ (k : Nat) (a : Int) (rest : Position), a < siteId ∧
    pos2 = pos1 ++ (List.replicate k ⟨0, siteId⟩ ++ ⟨0, a⟩ :: rest)

/-- What `r` is when it was generated between `p1` and `p2`. An empty `p2` bounds nothing. -/
structure Fits (siteId : Int) (p1 p2 r : Position) : Prop where
  gt : p1 < r
  lt : p2 = [] ∨ r < p2
  digits : ∀ i ∈ r, 0 ≤ i.digit ∧ i.digit < BASE
  last : ∃ u d, r = u ++ [⟨d, siteId⟩] ∧ 1 ≤ d
  not_prefix : ¬ r <+: p2
  length_le : r.length ≤ max p1.length p2.length + 1

theorem Fits.valid {siteId : Int} {p1 p2 r : Position} (h : Fits siteId p1 p2 r) :
    ValidPosition r := by
  obtain ⟨u, d, hr, hd⟩ := h.last
  exact ⟨h.digits, u, ⟨d, siteId⟩, hr, hd⟩

theorem generateIdBetween_bounds (cache : StrategyCache) (draw : Draw) (level : Nat)
    {id1 id2 : Int} (h : id2 - id1 > 1) :
    id1 < (generateIdBetween cache draw id1 id2 level).1 ∧
      (generateIdBetween cache draw id1 id2 level).1 < id2 := by
  have hstep : 1 ≤ min BOUNDARY (id2 - id1) - 1 ∧ min BOUNDARY (id2 - id1) ≤ id2 - id1 := by
    simp only [BOUNDARY]
    omega
  have hdelta : ∀ step : Int, 1 ≤ step - 1 →
      1 ≤ generateRandomNumBetween 1 (step - 1) draw.rand ∧
        generateRandomNumBetween 1 (step - 1) draw.rand ≤ step - 1 := by
    intro step hs
    have h0 := Int.emod_nonneg (draw.rand : Int) (show step - 1 - 1 + 1 ≠ 0 by omega)
    have h1 := Int.emod_lt_of_pos (draw.rand : Int) (show 0 < step - 1 - 1 + 1 by omega)
    simp only [generateRandomNumBetween]
    omega
  have hd := hdelta _ hstep.1
  simp only [generateIdBetween]
  split_ifs <;> omega

/-- The first identifier of what is left of a position, as the source pads it. -/
def headOr (p : Position) (i : Identifier) : Identifier := p.head?.getD i

theorem headOr_drop (p : Position) (l : Nat) (i : Identifier) :
    headOr (p.drop l) i = p[l]?.getD i := by
  simp [headOr, List.head?_drop]

theorem Fits.leaf {siteId d : Int} {p1 p2 : Position}
    (h1 : (headOr p1 ⟨0, siteId⟩).digit < d) (h2 : d < (headOr p2 ⟨BASE, siteId⟩).digit)
    (h0 : 0 ≤ (headOr p1 ⟨0, siteId⟩).digit) (h3 : (headOr p2 ⟨BASE, siteId⟩).digit ≤ BASE) :
    Fits siteId p1 p2 [⟨d, siteId⟩] := by
  refine ⟨?_, ?_, ?_, ⟨[], d, rfl, by omega⟩, ?_, by simp⟩
  · cases p1 with
    | nil => simp
    | cons i p1 => exact List.cons_lt_cons_iff.mpr (.inl (Identifier.lt_iff.mpr (.inl h1)))
  · cases p2 with
    | nil => simp
    | cons i p2 => exact .inr (List.cons_lt_cons_iff.mpr (.inl (Identifier.lt_iff.mpr (.inl h2))))
  · simp only [List.mem_singleton, forall_eq]
    omega
  · intro h
    obtain ⟨t, rfl⟩ := h
    simp [headOr] at h2

/-- Below an identifier that is already smaller, nothing of `p2` counts any more. -/
theorem Fits.below {siteId : Int} {p1 p2 t : Position} {i : Identifier}
    (hi : i = headOr p1 ⟨0, siteId⟩) (hd : 0 ≤ i.digit ∧ i.digit < BASE)
    (h2 : ∀ j, p2.head? = some j → i < j) (hne : p1 ≠ [] ∨ p2 ≠ [])
    (h : Fits siteId p1.tail [] t) : Fits siteId p1 p2 (i :: t) := by
  refine ⟨?_, ?_, ?_, ?_, ?_, ?_⟩
  · cases p1 with
    | nil => simp
    | cons j p1 =>
      obtain rfl : i = j := hi
      exact List.cons_lt_cons_iff.mpr (.inr ⟨rfl, h.gt⟩)
  · cases p2 with
    | nil => simp
    | cons j p2 => exact .inr (List.cons_lt_cons_iff.mpr (.inl (h2 j rfl)))
  · intro j hj
    rcases List.mem_cons.mp hj with rfl | hj
    · exact hd
    · exact h.digits j hj
  · obtain ⟨u, d, rfl, h1⟩ := h.last
    exact ⟨i :: u, d, rfl, h1⟩
  · intro hex
    obtain ⟨w, rfl⟩ := hex
    exact lt_irrefl i (h2 i rfl)
  · have := h.length_le
    have hpos : 0 < p1.length ∨ 0 < p2.length := by
      simpa only [List.length_pos_iff] using hne
    simp only [List.length_tail, List.length_nil, List.length_cons] at this ⊢
    omega

/-- A common identifier is copied. -/
theorem Fits.same {siteId : Int} {p1 p2 t : Position} {i : Identifier}
    (hi : i = headOr p1 ⟨0, siteId⟩) (hd : 0 ≤ i.digit ∧ i.digit < BASE) (hne : p2 ≠ [])
    (h : Fits siteId p1.tail p2 t) : Fits siteId p1 (i :: p2) (i :: t) := by
  refine ⟨?_, ?_, ?_, ?_, ?_, ?_⟩
  · cases p1 with
    | nil => simp
    | cons j p1 =>
      obtain rfl : i = j := hi
      exact List.cons_lt_cons_iff.mpr (.inr ⟨rfl, h.gt⟩)
  · exact .inr (List.cons_lt_cons_iff.mpr (.inr ⟨rfl, h.lt.resolve_left hne⟩))
  · intro j hj
    rcases List.mem_cons.mp hj with rfl | hj
    · exact hd
    · exact h.digits j hj
  · obtain ⟨u, d, rfl, h1⟩ := h.last
    exact ⟨i :: u, d, rfl, h1⟩
  · intro hp
    exact h.not_prefix (List.cons_prefix_cons.mp hp).2
  · have := h.length_le
    simp only [List.length_tail, List.length_cons] at this ⊢
    omega

theorem blocked_cons_same {siteId : Int} {p1 p2 : Position} {i : Identifier}
    (hi : i = headOr p1 ⟨0, siteId⟩) :
    Blocked siteId p1 (i :: p2) ↔ Blocked siteId p1.tail p2 := by
  cases p1 with
  | nil =>
    obtain rfl : i = ⟨0, siteId⟩ := hi
    constructor
    · intro h
      obtain ⟨k, a, rest, ha, he⟩ := h
      cases k with
      | zero =>
        have := congrArg (·.site) (List.cons.inj he).1
        simp only at this
        omega
      | succ k =>
        exact ⟨k, a, rest, ha, by simpa [List.replicate_succ] using he⟩
    · intro h
      obtain ⟨k, a, rest, ha, he⟩ := h
      exact ⟨k + 1, a, rest, ha, by simpa [List.replicate_succ] using he⟩
  | cons j p1 =>
    obtain rfl : i = j := hi
    simp [Blocked]

/-- Before a larger identifier nothing is blocked. -/
theorem not_blocked_of_lt {siteId : Int} {p1 p2 : Position}
    (h : ∀ j, p2.head? = some j → headOr p1 ⟨0, siteId⟩ < j) : ¬ Blocked siteId p1 p2 := by
  intro hex
  obtain ⟨k, a, rest, ha, rfl⟩ := hex
  cases p1 with
  | cons i p1 => exact lt_irrefl i (h i rfl)
  | nil =>
    cases k with
    | zero =>
      have := Identifier.lt_iff.mp (h ⟨0, a⟩ rfl)
      simp only [headOr, List.head?_nil, Option.getD_none] at this
      omega
    | succ k => exact lt_irrefl _ (h ⟨0, siteId⟩ rfl)

/-- What a call says of its arguments, its levels below `level` dropped. -/
def Generated (siteId : Int) (p1 p2 newPos : Position)
    (res : Except Fault (Position × StrategyCache)) : Prop :=
  (∃ r cache, res = .ok (newPos ++ r, cache) ∧ Fits siteId p1 p2 r ∧ ¬ Blocked siteId p1 p2) ∨
    (res = .error .invalidOrdering ∧ Blocked siteId p1 p2)

/-- One level: an identifier is appended and the rest is generated one level down. -/
theorem Generated.push {siteId : Int} {p1 p2 q1 q2 newPos : Position} {i : Identifier}
    {res : Except Fault (Position × StrategyCache)}
    (h : Generated siteId q1 q2 (newPos ++ [i]) res)
    (hf : ∀ r, Fits siteId q1 q2 r → Fits siteId p1 p2 (i :: r))
    (hb : Blocked siteId p1 p2 ↔ Blocked siteId q1 q2) : Generated siteId p1 p2 newPos res := by
  rcases h with ⟨r, cache, hr, hfit, hn⟩ | ⟨hr, hbl⟩
  · exact .inl ⟨i :: r, cache, by simpa using hr, hf r hfit, fun hp => hn (hb.mp hp)⟩
  · exact .inr ⟨hr, hb.mpr hbl⟩

/-- Case 1: a digit in between. -/
theorem Generated.between {siteId d : Int} {p1 p2 newPos : Position} {cache : StrategyCache}
    (h0 : 0 ≤ (headOr p1 ⟨0, siteId⟩).digit) (h1 : (headOr p1 ⟨0, siteId⟩).digit < d)
    (h2 : d < (headOr p2 ⟨BASE, siteId⟩).digit) (h3 : (headOr p2 ⟨BASE, siteId⟩).digit ≤ BASE) :
    Generated siteId p1 p2 newPos (.ok (newPos ++ [⟨d, siteId⟩], cache)) := by
  refine .inl ⟨_, _, rfl, Fits.leaf h1 h2 h0 h3, not_blocked_of_lt fun j hj => ?_⟩
  have hj' : headOr p2 ⟨BASE, siteId⟩ = j := by rw [headOr, hj]; rfl
  rw [hj'] at h2
  exact Identifier.lt_iff.mpr (.inl (h1.trans h2))

/-- Case 2, and case 3 with a larger site: the identifier of `pos1` is below that of `pos2`. -/
theorem Generated.push_below {siteId : Int} {pos1 pos2 newPos : Position} {level : Nat}
    {i : Identifier} {res : Except Fault (Position × StrategyCache)}
    (h : Generated siteId (pos1.drop (level + 1)) [] (newPos ++ [i]) res)
    (hi : i = headOr (pos1.drop level) ⟨0, siteId⟩) (hd : 0 ≤ i.digit ∧ i.digit < BASE)
    (h2 : i < pos2[level]?.getD ⟨BASE, siteId⟩) (hlt : level < max pos1.length pos2.length) :
    Generated siteId (pos1.drop level) (pos2.drop level) newPos res := by
  have hhead : ∀ j, (pos2.drop level).head? = some j → i < j := by
    intro j hj
    rw [List.head?_drop] at hj
    rwa [hj] at h2
  refine h.push (fun r hr => ?_) ?_
  · refine Fits.below hi hd hhead ?_ (by rwa [List.tail_drop])
    simp only [ne_eq, List.drop_eq_nil_iff]
    omega
  · have hno : ¬ Blocked siteId (pos1.drop level) (pos2.drop level) :=
      not_blocked_of_lt fun j hj => hi ▸ hhead j hj
    refine iff_of_false hno ?_
    intro hex
    obtain ⟨k, a, rest, -, he⟩ := hex
    simpa using congrArg List.length he

/-- Case 3 with the same site: the identifier is common to both. -/
theorem Generated.push_same {siteId : Int} {pos1 pos2 newPos : Position} {level : Nat}
    {i : Identifier} {res : Except Fault (Position × StrategyCache)}
    (h : Generated siteId (pos1.drop (level + 1)) (pos2.drop (level + 1)) (newPos ++ [i]) res)
    (hi : i = headOr (pos1.drop level) ⟨0, siteId⟩) (hd : 0 ≤ i.digit ∧ i.digit < BASE)
    (hdrop : pos2.drop level = i :: pos2.drop (level + 1))
    (hnext : pos1.drop (level + 1) < pos2.drop (level + 1)) :
    Generated siteId (pos1.drop level) (pos2.drop level) newPos res := by
  have hne : pos2.drop (level + 1) ≠ [] := by
    intro hn
    rw [hn] at hnext
    exact List.not_lt_nil _ hnext
  rw [hdrop]
  refine h.push (fun r hr => ?_) ?_
  · exact Fits.same hi hd hne (by rwa [List.tail_drop])
  · rw [blocked_cons_same hi, List.tail_drop]

/-- Where the digits leave no room, `pos2` still has an identifier at this level, and `pos1`
is used up or compares as it should. -/
private theorem bound_at {siteId : Int} {pos1 pos2 : Position} {level : Nat} {i1 i2 : Identifier}
    (hd2 : pos2 = [] ∨ (ValidPosition pos2 ∧ pos1.drop level < pos2.drop level))
    (h1 : i1 = headOr (pos1.drop level) ⟨0, siteId⟩) (h2 : i2 = pos2[level]?.getD ⟨BASE, siteId⟩)
    (hlt : i2.digit < BASE) :
    ValidPosition pos2 ∧ pos2.drop level = i2 :: pos2.drop (level + 1) ∧
      ((pos1.drop level = [] ∧ i1 = ⟨0, siteId⟩) ∨ i1 < i2 ∨
        (i1 = i2 ∧ pos1.drop (level + 1) < pos2.drop (level + 1))) := by
  have hat : pos2[level]? = some i2 := by
    cases hp : pos2[level]? with
    | none => simp [h2, hp, BASE] at hlt
    | some j => simp [h2, hp]
  obtain ⟨hl, hg⟩ := List.getElem?_eq_some_iff.mp hat
  have hdrop : pos2.drop level = i2 :: pos2.drop (level + 1) := by
    rw [List.drop_eq_getElem_cons hl, hg]
  rcases hd2 with rfl | ⟨hv, hlt⟩
  · simp at hl
  · refine ⟨hv, hdrop, ?_⟩
    rw [← List.tail_drop]
    cases hp : pos1.drop level with
    | nil => exact .inl ⟨rfl, by simp [h1, hp, headOr]⟩
    | cons j t =>
      rw [hp, hdrop] at hlt
      obtain rfl : i1 = j := by simp [h1, hp, headOr]
      exact .inr (List.cons_lt_cons_iff.mp hlt)

/-- A used up `pos1` is below what is left of `pos2` after an identifier (0, own site): the
last digit of `pos2` is at least 1. -/
private theorem next_lt {siteId : Int} {pos1 pos2 : Position} {level : Nat}
    (hv : ValidPosition pos2) (hdrop : pos2.drop level = ⟨0, siteId⟩ :: pos2.drop (level + 1))
    (hp : pos1.drop level = []) : pos1.drop (level + 1) < pos2.drop (level + 1) := by
  have hp' : pos1.drop (level + 1) = [] := by rw [← List.tail_drop, hp]; rfl
  rw [hp']
  cases hr : pos2.drop (level + 1) with
  | cons j t => simp
  | nil =>
    obtain ⟨u, j, hu, hj⟩ := hv.last
    rw [hr] at hdrop
    have hl := congrArg List.getLast? (List.take_append_drop level pos2)
    rw [hdrop] at hl
    simp only [List.getLast?_append, List.getLast?_singleton, Option.some_or] at hl
    rw [hu, List.getLast?_concat] at hl
    obtain rfl : ⟨0, siteId⟩ = j := Option.some.inj hl
    simp at hj

/-- After a common identifier what is left compares as it should. -/
private theorem next_of_same {siteId : Int} {pos1 pos2 : Position} {level : Nat} {i : Identifier}
    (hd2 : pos2 = [] ∨ (ValidPosition pos2 ∧ pos1.drop level < pos2.drop level))
    (h1 : i = headOr (pos1.drop level) ⟨0, siteId⟩) (h2 : i = pos2[level]?.getD ⟨BASE, siteId⟩)
    (hlt : i.digit < BASE) : ValidPosition pos2 ∧
      pos2.drop level = i :: pos2.drop (level + 1) ∧
      pos1.drop (level + 1) < pos2.drop (level + 1) := by
  obtain ⟨hv, hdrop, ⟨hp, he⟩ | hlt | ⟨-, hnext⟩⟩ := bound_at hd2 h1 h2 hlt
  · exact ⟨hv, hdrop, next_lt hv (he ▸ hdrop) hp⟩
  · exact absurd hlt (lt_irrefl _)
  · exact ⟨hv, hdrop, hnext⟩

/-- Case 3 with a smaller site: `pos1` is used up, and its padding (0, own site) meets the digit 0
of the smaller site. -/
private theorem blocked_of_site {siteId : Int} {pos1 pos2 : Position} {level : Nat}
    {i1 i2 : Identifier}
    (hd2 : pos2 = [] ∨ (ValidPosition pos2 ∧ pos1.drop level < pos2.drop level))
    (h1 : i1 = headOr (pos1.drop level) ⟨0, siteId⟩) (h2 : i2 = pos2[level]?.getD ⟨BASE, siteId⟩)
    (hlt : i1.digit < BASE) (hdigit : i1.digit = i2.digit) (hsite : i2.site < i1.site) :
    Blocked siteId (pos1.drop level) (pos2.drop level) := by
  obtain ⟨hv, hdrop, ⟨hp, he⟩ | hlt | ⟨he, -⟩⟩ := bound_at hd2 h1 h2 (hdigit ▸ hlt)
  · rw [he] at hdigit hsite
    have hi2 : i2 = ⟨0, i2.site⟩ := by
      cases i2
      exact congrArg (Identifier.mk · _) hdigit.symm
    refine ⟨0, i2.site, pos2.drop (level + 1), hsite, ?_⟩
    rw [hp, hdrop]
    simpa using hi2
  · have := Identifier.lt_iff.mp hlt
    omega
  · exact absurd (congrArg Identifier.site he) hsite.ne'

/-- There is no other case: digits are in order. -/
private theorem digit_le {siteId : Int} {pos1 pos2 : Position} {level : Nat} {i1 i2 : Identifier}
    (hd2 : pos2 = [] ∨ (ValidPosition pos2 ∧ pos1.drop level < pos2.drop level))
    (h1 : i1 = headOr (pos1.drop level) ⟨0, siteId⟩) (h2 : i2 = pos2[level]?.getD ⟨BASE, siteId⟩)
    (hlt : i1.digit < BASE) : i1.digit ≤ i2.digit := by
  by_contra hgt
  obtain ⟨hv, hdrop, ⟨-, he⟩ | hlt' | ⟨he, -⟩⟩ := bound_at hd2 h1 h2 (by omega)
  · have hmem : i2 ∈ pos2 := List.mem_of_mem_drop (hdrop ▸ List.mem_cons_self)
    rw [he] at hgt
    exact hgt (hv.digits i2 hmem).1
  · have := Identifier.lt_iff.mp hlt'
    omega
  · exact hgt (congrArg Identifier.digit he).le

/-- The digits of a position, or its padding past the end. -/
private theorem headOr_digit {pos : Position} {i : Identifier} {a b : Int}
    (h : ∀ j ∈ pos, a ≤ j.digit ∧ j.digit ≤ b) (hi : a ≤ i.digit ∧ i.digit ≤ b) (level : Nat) :
    a ≤ (headOr (pos.drop level) i).digit ∧ (headOr (pos.drop level) i).digit ≤ b := by
  cases hp : pos.drop level with
  | nil => exact hi
  | cons j p => exact h j (List.mem_of_mem_drop (hp ▸ List.mem_cons_self))

/-- **Generation, exactly.** Between `pos1` and a larger `pos2` (or none) the call fails only
by throwing, and only when the pair is blocked; otherwise what it appends fits. -/
theorem generatePositionBetween_spec (siteId : Int) (cache : StrategyCache) (draw : Draw)
    (pos1 pos2 newPos : Position) (level : Nat)
    (hd1 : ∀ i ∈ pos1, 0 ≤ i.digit ∧ i.digit < BASE)
    (hd2 : pos2 = [] ∨ (ValidPosition pos2 ∧ pos1.drop level < pos2.drop level)) :
    Generated siteId (pos1.drop level) (pos2.drop level) newPos
      (generatePositionBetween siteId cache draw pos1 pos2 newPos level) := by
  have hid1 : ∀ l, 0 ≤ (headOr (pos1.drop l) ⟨0, siteId⟩).digit ∧
      (headOr (pos1.drop l) ⟨0, siteId⟩).digit < BASE := fun l => by
    have := headOr_digit (i := ⟨0, siteId⟩) (b := BASE - 1)
      (fun i hi => ⟨(hd1 i hi).1, Int.le_sub_one_of_lt (hd1 i hi).2⟩) (by simp [BASE]) l
    omega
  fun_induction generatePositionBetween siteId cache draw pos1 pos2 newPos level with
  | case1 pos2 newPos level id1 id2 h newDigit cache' hg =>
    have hb := generateIdBetween_bounds cache draw level h
    rw [hg] at hb
    have h1 : id1 = headOr (pos1.drop level) ⟨0, siteId⟩ := (headOr_drop ..).symm
    have h2 : id2 = headOr (pos2.drop level) ⟨BASE, siteId⟩ := (headOr_drop ..).symm
    have hdigits : ∀ i ∈ pos2, 0 ≤ i.digit ∧ i.digit ≤ BASE := by
      intro i hi
      rcases hd2 with rfl | ⟨hv, -⟩
      · cases hi
      · exact ⟨(hv.digits i hi).1, (hv.digits i hi).2.le⟩
    exact .between (hid1 level).1 (h1 ▸ hb.1) (h2 ▸ hb.2)
      (headOr_digit hdigits (by simp [BASE]) level).2
  | case2 pos2 newPos level id1 id2 h1 h2 ih =>
    have hi : id1 = headOr (pos1.drop level) ⟨0, siteId⟩ := (headOr_drop ..).symm
    have hlt : id1 < id2 := Identifier.lt_iff.mpr (.inl (by omega))
    exact (ih (.inl rfl)).push_below hi (hi ▸ hid1 level) hlt
      (level_lt siteId pos1 pos2 level (by change id2.digit - id1.digit ≤ 1; omega))
  | case3 pos2 newPos level id1 id2 h1 h2 h3 h4 ih =>
    have hi : id1 = headOr (pos1.drop level) ⟨0, siteId⟩ := (headOr_drop ..).symm
    have hlt : id1 < id2 := Identifier.lt_iff.mpr (.inr ⟨h3, h4⟩)
    exact (ih (.inl rfl)).push_below hi (hi ▸ hid1 level) hlt
      (level_lt siteId pos1 pos2 level (by change id2.digit - id1.digit ≤ 1; omega))
  | case4 pos2 newPos level id1 id2 h1 h2 h3 h4 h5 ih =>
    have hi : id1 = headOr (pos1.drop level) ⟨0, siteId⟩ := (headOr_drop ..).symm
    have hi2 : id1 = id2 := by
      clear_value id1 id2
      cases id1
      cases id2
      simp only at h3 h5
      rw [h3, h5]
    obtain ⟨hv, hdrop, hnext⟩ := next_of_same hd2 hi hi2 (hi ▸ (hid1 level).2)
    exact (ih (.inr ⟨hv, hnext⟩)).push_same hi (hi ▸ hid1 level) hdrop hnext
  | case5 pos2 newPos level id1 id2 h1 h2 h3 h4 h5 =>
    have hi : id1 = headOr (pos1.drop level) ⟨0, siteId⟩ := (headOr_drop ..).symm
    exact .inr ⟨rfl, blocked_of_site hd2 hi rfl (hi ▸ (hid1 level).2) h3
      (lt_of_le_of_ne (not_lt.mp h4) (Ne.symm h5))⟩
  | case6 pos2 newPos level id1 id2 h1 h2 h3 =>
    have hi : id1 = headOr (pos1.drop level) ⟨0, siteId⟩ := (headOr_drop ..).symm
    have hle : id1.digit ≤ id2.digit := digit_le hd2 hi rfl (hi ▸ (hid1 level).2)
    omega

/-- **`generatePositionBetween`**: between a position, or none, and a larger one, or none, it throws
"Invalid ordering" exactly if the pair is blocked, fails in no other way, and returns what fits. -/
theorem generatePositionBetween_exact (siteId : Int) (cache : StrategyCache) (draw : Draw)
    {pos1 pos2 : Position} (h1 : pos1 = [] ∨ ValidPosition pos1)
    (h2 : pos2 = [] ∨ ValidPosition pos2 ∧ Symbol.comparePositions pos1 pos2 < 0) :
    let result := generatePositionBetween siteId cache draw pos1 pos2 [] 0
    (result = .error .invalidOrdering ↔ Blocked siteId pos1 pos2) ∧
      (∀ fault, result = .error fault → fault = .invalidOrdering) ∧
      ∀ r cache', result = .ok (r, cache') → Fits siteId pos1 pos2 r := by
  intro result
  have hd1 : ∀ i ∈ pos1, 0 ≤ i.digit ∧ i.digit < BASE := by
    rcases h1 with rfl | h1
    · simp
    · exact h1.digits
  have hd2 : pos2 = [] ∨ ValidPosition pos2 ∧ pos1.drop 0 < pos2.drop 0 :=
    h2.imp_right fun ⟨hv, hlt⟩ => ⟨hv, Symbol.comparePositions_lt.mp hlt⟩
  rcases generatePositionBetween_spec siteId cache draw pos1 pos2 [] 0 hd1 hd2 with
    ⟨r, cache', hr, hfits, hfree⟩ | ⟨hr, hblocked⟩
  · have hres : result = .ok (r, cache') := hr
    refine ⟨⟨fun he => ?_, fun hb => absurd hb hfree⟩, fun fault he => ?_, fun r' cache'' he => ?_⟩
    · rw [hres] at he
      cases he
    · rw [hres] at he
      cases he
    · rw [hres] at he
      cases he
      exact hfits
  · have hres : result = .error .invalidOrdering := hr
    refine ⟨⟨fun _ => hblocked, fun _ => hres⟩, fun fault he => ?_, fun r cache' he => ?_⟩
    · rw [hres] at he
      cases he
      rfl
    · rw [hres] at he
      cases he

/-- Between [(1, 1)] and [(2, 1)] there is no digit, and the position gets longer. -/
theorem generatePositionBetween_exact_longer :
    let result := generatePositionBetween 1 [] ⟨true, 3⟩ [⟨1, 1⟩] [⟨2, 1⟩] [] 0
    result = .ok ([⟨1, 1⟩, ⟨4, 1⟩], [(1, true)]) ∧ Fits 1 [⟨1, 1⟩] [⟨2, 1⟩] [⟨1, 1⟩, ⟨4, 1⟩] := by
  intro result
  have hvalid : ∀ d : Int, 1 ≤ d → d < BASE → ValidPosition [⟨d, 1⟩] := fun d h1 h2 =>
    ⟨by simp; omega, [], ⟨d, 1⟩, rfl, h1⟩
  have hr : result = .ok ([⟨1, 1⟩, ⟨4, 1⟩], [(1, true)]) := by decide +kernel
  obtain ⟨-, -, hfits⟩ := generatePositionBetween_exact 1 [] ⟨true, 3⟩
    (.inr (hvalid 1 (by decide) (by decide))) (.inr ⟨hvalid 2 (by decide) (by decide), by decide⟩)
  exact ⟨hr, hfits _ _ hr⟩

/-- Whatever the order of its arguments, a call that returns gives a valid position that ends
with an identifier of the calling site. -/
theorem generatePositionBetween_ok {siteId : Int} {cache cache' : StrategyCache} {draw : Draw}
    {pos1 pos2 newPos r : Position} {level : Nat}
    (h : generatePositionBetween siteId cache draw pos1 pos2 newPos level = .ok (r, cache'))
    (h1 : ∀ i ∈ pos1, 0 ≤ i.digit ∧ i.digit < BASE) (h2 : ∀ i ∈ pos2, i.digit < BASE)
    (hn : ∀ i ∈ newPos, 0 ≤ i.digit ∧ i.digit < BASE) :
    ValidPosition r ∧ ∃ (u : Position) (d : Int), r = u ++ [⟨d, siteId⟩] := by
  have hid1 : ∀ l : Nat, 0 ≤ (pos1[l]?.getD ⟨0, siteId⟩).digit ∧
      (pos1[l]?.getD ⟨0, siteId⟩).digit < BASE := by
    intro l
    cases hp : pos1[l]? with
    | none => simp [BASE]
    | some i => exact h1 i (List.mem_of_getElem? hp)
  have hpush : ∀ {newPos : Position} {l : Nat}, (∀ i ∈ newPos, 0 ≤ i.digit ∧ i.digit < BASE) →
      ∀ i ∈ newPos ++ [pos1[l]?.getD ⟨0, siteId⟩], 0 ≤ i.digit ∧ i.digit < BASE := by
    intro newPos l hn i hi
    rcases List.mem_append.mp hi with hi | hi
    · exact hn i hi
    · exact List.mem_singleton.mp hi ▸ hid1 l
  fun_induction generatePositionBetween siteId cache draw pos1 pos2 newPos level with
  | case1 pos2 newPos level id1 id2 hgap newDigit cache1 hg =>
    obtain ⟨rfl, -⟩ := Prod.mk.inj (Except.ok.inj h)
    have hb := generateIdBetween_bounds cache draw level hgap
    rw [hg] at hb
    have h0 : 0 ≤ id1.digit := (hid1 level).1
    have h3 : id2.digit ≤ BASE := by
      cases hp : pos2[level]? with
      | none => simp [id2, hp]
      | some i => simpa [id2, hp] using (h2 i (List.mem_of_getElem? hp)).le
    refine ⟨⟨fun i hi => ?_, newPos, ⟨newDigit, siteId⟩, rfl, ?_⟩, newPos, newDigit, rfl⟩
    · rcases List.mem_append.mp hi with hi | hi
      · exact hn i hi
      · obtain rfl := List.mem_singleton.mp hi
        exact ⟨by change 0 ≤ newDigit; omega, by change newDigit < BASE; omega⟩
    · change 1 ≤ newDigit
      omega
  | case2 _ _ _ _ _ _ _ ih => exact ih h (by simp) (hpush hn)
  | case3 _ _ _ _ _ _ _ _ _ ih => exact ih h (by simp) (hpush hn)
  | case4 _ _ _ _ _ _ _ _ _ _ ih => exact ih h h2 (hpush hn)
  | case5 => cases h
  | case6 => cases h

/-! ## One site alone -/

/-- Every identifier names the site. -/
def OwnSite (siteId : Int) (p : Position) : Prop := ∀ i ∈ p, i.site = siteId

/-- What comes after an identifier of `pos1`, or its padding, is generated from `pos1` as well. -/
theorem generatePositionBetween_own {siteId : Int} {cache cache' : StrategyCache} {draw : Draw}
    {pos1 pos2 newPos r : Position} {level : Nat}
    (h : generatePositionBetween siteId cache draw pos1 pos2 newPos level = .ok (r, cache'))
    (h1 : OwnSite siteId pos1) (hn : OwnSite siteId newPos) : OwnSite siteId r := by
  have hpush : ∀ {newPos : Position} {l : Nat}, OwnSite siteId newPos →
      OwnSite siteId (newPos ++ [pos1[l]?.getD ⟨0, siteId⟩]) := by
    intro newPos l hn i hi
    rcases List.mem_append.mp hi with hi | hi
    · exact hn i hi
    · rw [List.mem_singleton.mp hi]
      cases hp : pos1[l]? with
      | none => rfl
      | some j => exact h1 j (List.mem_of_getElem? hp)
  fun_induction generatePositionBetween siteId cache draw pos1 pos2 newPos level with
  | case1 =>
    obtain ⟨rfl, -⟩ := Prod.mk.inj (Except.ok.inj h)
    intro i hi
    rcases List.mem_append.mp hi with hi | hi
    · exact hn i hi
    · rw [List.mem_singleton.mp hi]
  | case2 _ _ _ _ _ _ _ ih => exact ih h (hpush hn)
  | case3 _ _ _ _ _ _ _ _ _ ih => exact ih h (hpush hn)
  | case4 _ _ _ _ _ _ _ _ _ _ ih => exact ih h (hpush hn)
  | case5 => cases h
  | case6 => cases h

/-- Nobody is blocked by its own identifiers. -/
theorem not_blocked_of_own {siteId : Int} {pos1 pos2 : Position} (h2 : OwnSite siteId pos2) :
    ¬ Blocked siteId pos1 pos2 := by
  intro hex
  obtain ⟨k, a, rest, ha, rfl⟩ := hex
  have hsite := h2 ⟨0, a⟩ (by simp)
  exact ha.ne hsite

end Scriba.Client
