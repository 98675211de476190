import Mathlib.Data.List.Basic
import Mathlib.Logic.Function.Basic

/-! # Members that post to one queue

Every message goes to the end of one queue. The front of the queue is handed out to all members,
to its sender no more than a second time, since who posts a message knows it at once. A member that
joins gets what is handed out from then on. Messages may add things and remove things; if nothing is
added twice, and members remove only what they have, then whatever is handed out is new to those
that get it, and what a member has does not depend on the order (`Kept`). -/

namespace Scriba.Lib

structure Board (ι μ : Type) where
  read : List (ι × μ)
  queue : List (ι × μ)
  since : ι → Nat

namespace Board

variable {ι μ α κ : Type} [DecidableEq ι]

/-- All that was posted. -/
def log (b : Board ι μ) : List (ι × μ) := b.read ++ b.queue

/-- What a member was handed out, and what it has posted itself. -/
def known (b : Board ι μ) (i : ι) : List μ :=
  (b.read.drop (b.since i)).map Prod.snd ++ (b.queue.filter (·.1 = i)).map Prod.snd

/-- What came before a member. -/
def missed (b : Board ι μ) (i : ι) : List μ := (b.read.take (b.since i)).map Prod.snd

def post (b : Board ι μ) (i : ι) (m : μ) : Board ι μ := { b with queue := b.queue ++ [(i, m)] }

def join (b : Board ι μ) (i : ι) : Board ι μ :=
  { b with since := Function.update b.since i b.read.length }

/-- The front of the queue is handed out. -/
def next (b : Board ι μ) : Board ι μ :=
  { b with read := b.read ++ b.queue.take 1, queue := b.queue.drop 1 }

/-- All of it. -/
def flush (b : Board ι μ) : Board ι μ := { b with read := b.log, queue := [] }

/-! ## What is known -/

section Known

variable {b : Board ι μ} {i j : ι} {m n : μ} {rest : List (ι × μ)}

theorem known_post (b : Board ι μ) (i j : ι) (m : μ) :
    (b.post j m).known i = b.known i ++ if j = i then [m] else [] := by
  by_cases h : j = i <;> simp [known, post, h]

omit [DecidableEq ι] in
theorem missed_post (b : Board ι μ) (i j : ι) (m : μ) : (b.post j m).missed i = b.missed i := rfl

omit [DecidableEq ι] in
theorem log_next (b : Board ι μ) : b.next.log = b.log := by
  rw [log, next, log, List.append_assoc, List.take_append_drop]

omit [DecidableEq ι] in
theorem flush_next (hq : b.queue = (j, m) :: rest) : b.next.flush = b.flush := by
  simp [flush, log, next, hq]

omit [DecidableEq ι] in
theorem flush_nil (hq : b.queue = []) : b.flush = b := by
  cases b
  simp_all [flush, log]

theorem known_flush (b : Board ι μ) (i : ι) :
    b.flush.known i = (b.log.drop (b.since i)).map Prod.snd := by
  simp [known, flush]

theorem mem_known_next (hq : b.queue = (j, m) :: rest) (hs : b.since i ≤ b.read.length) :
    n ∈ b.next.known i ↔ n ∈ b.known i ∨ n = m := by
  have hread : b.next.read.drop (b.since i) = b.read.drop (b.since i) ++ [(j, m)] := by
    rw [next, List.drop_append_of_le_length hs, hq]
    rfl
  have hqueue : b.next.queue = rest := by simp [next, hq]
  have hknown : b.next.known i =
      ((b.read.drop (b.since i)).map Prod.snd ++ [m]) ++ (rest.filter (·.1 = i)).map Prod.snd := by
    rw [known, hqueue]
    show ((b.next.read.drop (b.since i)).map Prod.snd) ++ _ = _
    rw [hread, List.map_append]
    rfl
  rw [hknown, known, hq, List.filter_cons]
  simp only [List.mem_append, List.mem_singleton]
  by_cases hj : j = i
  · simp only [hj, decide_true, if_true, List.map_cons, List.mem_cons]
    tauto
  · simp only [hj, decide_false, Bool.false_eq_true, if_false]
    tauto

omit [DecidableEq ι] in
theorem missed_next (hs : b.since i ≤ b.read.length) : b.next.missed i = b.missed i := by
  rw [missed, next, List.take_append_of_le_length hs, missed]

theorem known_join_self (h : ∀ p ∈ b.queue, p.1 ≠ i) : (b.join i).known i = [] := by
  have hnone : b.queue.filter (·.1 = i) = [] :=
    List.filter_eq_nil_iff.mpr fun p hp => by simpa using h p hp
  simp [known, join, hnone]

theorem known_join (h : j ≠ i) : (b.join j).known i = b.known i := by
  simp [known, join, h.symm]

theorem missed_join (h : j ≠ i) : (b.join j).missed i = b.missed i := by
  simp [missed, join, h.symm]

omit [DecidableEq ι] in
theorem log_split (b : Board ι μ) (i : ι) : b.log.map Prod.snd =
    b.missed i ++ (b.read.drop (b.since i)).map Prod.snd ++ b.queue.map Prod.snd := by
  rw [log, missed, ← List.map_append, List.take_append_drop, List.map_append]

omit [DecidableEq ι] in
theorem mem_of_own {p : ι × μ → Bool} {l : List (ι × μ)} (h : m ∈ (l.filter p).map Prod.snd) :
    m ∈ l.map Prod.snd := by
  obtain ⟨e, he, rfl⟩ := List.mem_map.mp h
  exact List.mem_map_of_mem (List.mem_of_mem_filter he)

theorem mem_log_of_known (h : m ∈ b.known i) : m ∈ b.log.map Prod.snd := by
  rw [log_split b i]
  rcases List.mem_append.mp h with h | h
  · simp only [List.mem_append]
    exact .inl (.inr h)
  · exact List.mem_append.mpr (.inr (mem_of_own h))

end Known

/-! ## Things that are added and removed -/

section Kept

variable (adds removes : μ → α → Prop) (key : α → κ)

/-- It was added, and not removed. -/
def Kept (ms : List μ) (x : α) : Prop := (∃ m ∈ ms, adds m x) ∧ ∀ m ∈ ms, ¬ removes m x

/-- What is added has a key of its own, what is removed was added before, and a member knows of
what it has removed. -/
structure Orderly (b : Board ι μ) : Prop where
  once : (b.log.map Prod.snd).Pairwise fun m n => ∀ x y, adds m x → adds n y → key x ≠ key y
  before : ∀ u m v, b.log.map Prod.snd = u ++ m :: v → ∀ x, removes m x → ∃ n ∈ u, adds n x
  informed : ∀ i, ∀ m ∈ b.known i, ∀ x, removes m x → ∃ n ∈ b.missed i ++ b.known i, adds n x
  since : ∀ i, b.since i ≤ b.read.length

variable {adds removes key} {b : Board ι μ} {i j : ι} {m : μ} {ms ns : List μ} {x y : α}
  {rest : List (ι × μ)}

omit [DecidableEq ι]

theorem Kept.congr (h : ∀ m, m ∈ ms ↔ m ∈ ns) :
    Kept adds removes ms x ↔ Kept adds removes ns x := by
  simp only [Kept, h]

/-- A further message, if it adds nothing that was removed. -/
theorem kept_concat (h : adds m x → ∀ n ∈ ms, ¬ removes n x) :
    Kept adds removes (ms ++ [m]) x ↔
      (Kept adds removes ms x ∨ adds m x) ∧ ¬ removes m x := by
  simp only [Kept, List.mem_append, List.mem_singleton]
  constructor
  · intro hk
    obtain ⟨⟨n, hn, hx⟩, hr⟩ := hk
    refine ⟨?_, hr m (.inr rfl)⟩
    rcases hn with hn | rfl
    · exact .inl ⟨⟨n, hn, hx⟩, fun k hk => hr k (.inl hk)⟩
    · exact .inr hx
  · intro hk
    obtain ⟨hk | hx, hr⟩ := hk
    · obtain ⟨⟨n, hn, hx⟩, hall⟩ := hk
      refine ⟨⟨n, .inl hn, hx⟩, fun k hk => ?_⟩
      rcases hk with hk | rfl
      · exact hall k hk
      · exact hr
    · refine ⟨⟨m, .inr rfl, hx⟩, fun k hk => ?_⟩
      rcases hk with hk | rfl
      · exact h hx k hk
      · exact hr

variable [DecidableEq ι]

theorem Orderly.init : Orderly adds removes key (⟨[], [], fun _ => 0⟩ : Board ι μ) := by
  refine ⟨List.Pairwise.nil, fun u m v h => ?_, fun i m hm => ?_, fun i => Nat.le_refl _⟩
  · simp [log] at h
  · simp [known] at hm

/-- Two messages of which one is handed out later. -/
theorem Orderly.ne_of_known (h : Orderly adds removes key b) (hq : b.queue = (j, m) :: rest)
    (hj : j ≠ i) {n : μ} (hn : n ∈ b.missed i ++ b.known i) (hx : adds m x) (hy : adds n y) :
    key x ≠ key y := by
  have honce := h.once
  rw [log_split b i, hq, List.map_cons, List.pairwise_append] at honce
  obtain ⟨-, hqueue, hread⟩ := honce
  have hn : n ∈ b.missed i ++ (b.read.drop (b.since i)).map Prod.snd ∨ n ∈ rest.map Prod.snd := by
    rw [known, hq, List.filter_cons_of_neg (by simpa using hj), ← List.append_assoc] at hn
    exact (List.mem_append.mp hn).imp id mem_of_own
  rcases hn with hn | hn
  · exact (hread n hn m List.mem_cons_self y x hy hx).symm
  · exact (List.pairwise_cons.mp hqueue).1 n hn x y hx hy

/-- **What is handed out is new.** -/
theorem Orderly.new (h : Orderly adds removes key b) (hq : b.queue = (j, m) :: rest)
    (hj : j ≠ i) (hx : adds m x) :
    (∀ n ∈ b.known i, ∀ y, adds n y → key x ≠ key y) ∧ ∀ n ∈ b.known i, ¬ removes n x := by
  refine ⟨fun n hn y hy => h.ne_of_known hq hj (List.mem_append_right _ hn) hx hy,
    fun n hn hr => ?_⟩
  obtain ⟨k, hk, hadd⟩ := h.informed i n hn x hr
  exact h.ne_of_known hq hj hk hx hadd rfl

/-- **A message is posted**: what it adds is new, what it removes its sender has. -/
theorem Orderly.post (h : Orderly adds removes key b)
    (hadds : ∀ x, adds m x → ∀ n ∈ b.log.map Prod.snd, ∀ y, adds n y → key y ≠ key x)
    (hremoves : ∀ x, removes m x → Kept adds removes (b.known i) x) :
    Orderly adds removes key (b.post i m) := by
  have hlog : (b.post i m).log.map Prod.snd = b.log.map Prod.snd ++ [m] := by
    simp [log, Board.post]
  refine ⟨?_, fun u n v he x hr => ?_, fun k n hn x hr => ?_, h.since⟩
  · rw [hlog, List.pairwise_append]
    exact ⟨h.once, List.pairwise_singleton _ _, fun n hn k hk x y hx hy =>
      hadds y (List.mem_singleton.mp hk ▸ hy) n hn x hx⟩
  · rw [hlog] at he
    rcases List.eq_nil_or_concat' v with rfl | ⟨v, k, rfl⟩
    · obtain ⟨rfl, hn⟩ := List.append_inj' he rfl
      obtain rfl := List.singleton_inj.mp hn
      obtain ⟨⟨k, hk, hx⟩, -⟩ := hremoves x hr
      exact ⟨k, mem_log_of_known hk, hx⟩
    · have he' : b.log.map Prod.snd ++ [m] = (u ++ n :: v) ++ [k] := by simpa using he
      obtain ⟨he', -⟩ := List.append_inj' he' rfl
      exact h.before u n v he' x hr
  · rw [known_post] at hn ⊢
    rw [missed_post, ← List.append_assoc]
    rcases List.mem_append.mp hn with hn | hn
    · obtain ⟨a, ha, hx⟩ := h.informed k n hn x hr
      exact ⟨a, List.mem_append_left _ ha, hx⟩
    · have hi : i = k ∧ n = m := by
        split_ifs at hn with hi
        · exact ⟨hi, List.mem_singleton.mp hn⟩
        · cases hn
      obtain ⟨rfl, rfl⟩ := hi
      obtain ⟨⟨a, ha, hx⟩, -⟩ := hremoves x hr
      exact ⟨a, List.mem_append_left _ (List.mem_append_right _ ha), hx⟩

/-- **The front is handed out.** -/
theorem Orderly.next (h : Orderly adds removes key b) (hq : b.queue = (j, m) :: rest) :
    Orderly adds removes key b.next := by
  have hlen : b.next.read.length = b.read.length + 1 := by simp [Board.next, hq]
  refine ⟨by rw [log_next]; exact h.once, by rw [log_next]; exact h.before, fun i n hn x hr => ?_,
    fun i => hlen ▸ Nat.le_succ_of_le (h.since i)⟩
  rw [missed_next (h.since i)]
  have hmore : ∀ a ∈ b.missed i ++ b.known i, a ∈ b.missed i ++ b.next.known i := fun a ha =>
    List.mem_append.mpr ((List.mem_append.mp ha).imp id fun ha =>
      (mem_known_next hq (h.since i)).mpr (.inl ha))
  rcases (mem_known_next hq (h.since i)).mp hn with hn | rfl
  · obtain ⟨a, ha, hx⟩ := h.informed i n hn x hr
    exact ⟨a, hmore a ha, hx⟩
  · -- all that was read, the member either missed or was handed out
    have he : b.log.map Prod.snd = b.read.map Prod.snd ++ n :: rest.map Prod.snd := by
      simp [log, hq]
    obtain ⟨a, ha, hx⟩ := h.before _ n _ he x hr
    refine ⟨a, hmore a ?_, hx⟩
    rw [← List.take_append_drop (b.since i) b.read, List.map_append] at ha
    rw [known, ← List.append_assoc]
    exact List.mem_append_left _ ha

/-- **A member joins.** -/
theorem Orderly.join (h : Orderly adds removes key b) (hi : ∀ p ∈ b.queue, p.1 ≠ i) :
    Orderly adds removes key (b.join i) := by
  refine ⟨h.once, h.before, fun k n hn x hr => ?_, fun k => ?_⟩
  · by_cases hk : i = k
    · subst hk
      rw [known_join_self hi] at hn
      cases hn
    · rw [known_join hk] at hn ⊢
      rw [missed_join hk]
      exact h.informed k n hn x hr
  · by_cases hk : k = i
    · simp [Board.join, hk]
    · simpa [Board.join, hk] using h.since k

end Kept

end Board

end Scriba.Lib
