import Mathlib.Data.List.Forall2
import Mathlib.Data.List.Pairwise
import Scriba.Lib.Board
import Scriba.Lib.Run
import Scriba.Client.SharedEditor

/-! # Editors around a queue

`NetworkServer` of `Resources/CRDT_LSEQ_implementation_in_c++`, with the editors that are connected
to it. An editor sends what it did to one queue, which the server dispatches to the others when it
is told to. Dispatching never throws, and leaves all editors that connected at the same time with
the same symbols, as long as no position is generated twice. -/

namespace Scriba.Client

open Scriba.Utility Scriba.Lib

/-! ## The editors

The members of an editor, its reference to the server apart. Its symbols have no format. -/

structure SharedEditor where
  siteId : Int
  symbols : List Symbol
  counter : Int
  strategyCache : StrategyCache
deriving DecidableEq

namespace SharedEditor

/-- The position before the index, if there is one. -/
def posBefore (symbols : List Symbol) (index : Nat) : Except Fault Position :=
  if symbols ≠ [] ∧ index ≠ 0 then Symbol.position <$> QVector.get symbols (index - 1)
  else pure []

/-- The position at the index, if there is one. -/
def posAfter (symbols : List Symbol) (index : Nat) : Except Fault Position :=
  if symbols ≠ [] ∧ index < symbols.length then Symbol.position <$> QVector.get symbols index
  else pure []

def localInsert (e : SharedEditor) (index : Int) (value : QChar) (draw : Draw) :
    Except Fault (SharedEditor × Message) := do
  if index < 0 ∨ index > e.symbols.length then throw .indexOutOfBound
  else
    -- Calculate position
    let before ← posBefore e.symbols index.toNat
    let after ← posAfter e.symbols index.toNat
    let (newPos, cache) ←
      generatePositionBetween e.siteId e.strategyCache draw before after [] 0
    -- Generate symbol
    let s : Symbol := ⟨value, newPos, e.counter + 1, default⟩
    let symbols ← QVector.insert e.symbols index.toNat s
    pure ({ e with symbols, counter := e.counter + 1, strategyCache := cache }, .insert s)

def localErase (e : SharedEditor) (index : Nat) : Except Fault (SharedEditor × Message) := do
  let s ← QVector.get e.symbols index
  let symbols ← QVector.erase e.symbols index
  pure ({ e with symbols }, .delete s)

end SharedEditor

/-! ## The server -/

/-- A message comes with the id of its editor. The map of the editors has them in the order of
their ids, which is that in which they connected. -/
structure NetworkServer where
  id : Int
  editors : List SharedEditor
  queue : List (Int × SharedEditor.Message)

namespace NetworkServer

def connect (n : NetworkServer) : NetworkServer :=
  { n with id := n.id + 1, editors := n.editors ++ [⟨n.id, [], 0, []⟩] }

def disconnect (n : NetworkServer) (id : Int) : NetworkServer :=
  { n with editors := n.editors.filter (·.siteId ≠ id) }

def send (n : NetworkServer) (id : Int) (m : SharedEditor.Message) : NetworkServer :=
  { n with queue := n.queue ++ [(id, m)] }

/-- One round of the loop. -/
def dispatch (editors : List SharedEditor) (m : Int × SharedEditor.Message) :
    Except SharedEditor.Error (List SharedEditor) :=
  editors.mapM fun e =>
    if e.siteId ≠ m.1 then do
      let symbols ← SharedEditor.process e.symbols m.2
      pure { e with symbols }
    else pure e

def dispatchMessages (n : NetworkServer) : Except SharedEditor.Error NetworkServer := do
  let editors ← n.queue.foldlM dispatch n.editors
  pure { n with editors, queue := [] }

end NetworkServer

/-! ## Runs -/

namespace SharedEditor

/-- What a message adds and removes. -/
def Message.Adds (m : Message) (s : Symbol) : Prop := m = .insert s

def Message.Removes (m : Message) (s : Symbol) : Prop := m = .delete s

/-- A server, and all that was sent so far. -/
structure Session where
  server : NetworkServer
  board : Board Int Message

namespace Session

def start : Session := ⟨⟨0, [], []⟩, ⟨[], [], fun _ => 0⟩⟩

/-- No symbol with this position was sent before. -/
def Unused (s : Session) (p : Position) : Prop :=
  ∀ m ∈ s.board.log.map Prod.snd, ∀ y, m.Adds y → y.position ≠ p

/-- What an editor did is sent. -/
def edit (s : Session) (editors : List SharedEditor) (e : SharedEditor) (m : Message) : Session :=
  ⟨{ s.server with editors }.send e.siteId m, s.board.post e.siteId m⟩

inductive Step : Session → Session → Prop
  | connect (s : Session) : Step s ⟨s.server.connect, s.board.join s.server.id⟩
  | disconnect (s : Session) (id : Int) : Step s { s with server := s.server.disconnect id }
  | insert {s : Session} {a b : List SharedEditor} {e e' : SharedEditor} {x : Symbol}
      (index : Int) (value : QChar) (draw : Draw) : s.server.editors = a ++ e :: b →
      e.localInsert index value draw = .ok (e', .insert x) → s.Unused x.position →
      Step s (s.edit (a ++ e' :: b) e (.insert x))
  | erase {s : Session} {a b : List SharedEditor} {e e' : SharedEditor} {m : Message}
      (index : Nat) : s.server.editors = a ++ e :: b → e.localErase index = .ok (e', m) →
      Step s (s.edit (a ++ e' :: b) e m)
  | dispatch {s : Session} {n : NetworkServer} : s.server.dispatchMessages = .ok n →
      Step s ⟨n, s.board.flush⟩

/-- The symbols that were inserted and not erased by what an editor knows of. -/
def Holds (b : Board Int Message) (i : Int) (y : Symbol) : Prop :=
  Board.Kept Message.Adds Message.Removes (b.known i) y

end Session

/-! ## What an editor does -/

section Editor

variable {e e' : SharedEditor} {m : Message} {symbols u v : List Symbol} {s : Symbol}

/-- The place of a symbol that is not there. -/
theorem exists_place (h : Ordered symbols) (hs : ∀ y ∈ symbols, s.position ≠ y.position) :
    ∃ u v, symbols = u ++ v ∧ (∀ y ∈ u, y.position < s.position) ∧
      ∀ y ∈ v, s.position < y.position := by
  by_cases hbound : ∃ t ∈ symbols, s.position ≤ t.position
  · obtain ⟨u, x, v, rfl, hu, hle⟩ := exists_bound hbound
    have hx : s.position < x.position := lt_of_le_of_ne hle (hs x (by simp))
    refine ⟨u, x :: v, rfl, hu, fun y hy => ?_⟩
    rcases List.mem_cons.mp hy with rfl | hy
    · exact hx
    · exact hx.trans ((Ordered.cons.mp (Ordered.append.mp h).2.1).1 y hy)
  · refine ⟨symbols, [], by simp, fun y hy => ?_, by simp⟩
    exact lt_of_not_ge fun hle => hbound ⟨y, hy, hle⟩

theorem posBefore_append (u v : List Symbol) :
    posBefore (u ++ v) u.length = .ok ((u.getLast?.map Symbol.position).getD []) := by
  rcases List.eq_nil_or_concat' u with rfl | ⟨u, a, rfl⟩
  · simp [posBefore]
    rfl
  · rw [posBefore, if_pos (by simp), QVector.get]
    simp

theorem posAfter_append (u v : List Symbol) :
    posAfter (u ++ v) u.length = .ok ((v.head?.map Symbol.position).getD []) := by
  cases v with
  | nil =>
    simp [posAfter]
    rfl
  | cons a v =>
    rw [posAfter, if_pos (by simp), QVector.get]
    simp

/-- A local insertion puts a symbol between its neighbours. -/
theorem localInsert_ok {index : Int} {value : QChar} {draw : Draw} (h : Ordered e.symbols)
    (hv : ∀ y ∈ e.symbols, ValidPosition y.position)
    (hi : e.localInsert index value draw = .ok (e', m)) : ∃ u v x,
      e.symbols = u ++ v ∧ e'.symbols = u ++ x :: v ∧ m = .insert x ∧ e'.siteId = e.siteId ∧
      ValidPosition x.position ∧ (∀ y ∈ u, y.position < x.position) ∧
      ∀ y ∈ v, x.position < y.position := by
  unfold localInsert at hi
  split_ifs at hi with hbound
  obtain ⟨before, hbefore, hi⟩ := bind_eq_ok.mp hi
  obtain ⟨after, hafter, hi⟩ := bind_eq_ok.mp hi
  obtain ⟨⟨p, cache⟩, hgen, hi⟩ := bind_eq_ok.mp hi
  obtain ⟨symbols, hins, hi⟩ := bind_eq_ok.mp hi
  cases hi
  obtain ⟨u, v, huv, hlen⟩ : ∃ u v, e.symbols = u ++ v ∧ u.length = index.toNat :=
    ⟨_, _, (List.take_append_drop index.toNat e.symbols).symm, by simp; omega⟩
  rw [huv, ← hlen, posBefore_append] at hbefore
  rw [huv, ← hlen, posAfter_append] at hafter
  obtain rfl := Except.ok.inj hbefore
  obtain rfl := Except.ok.inj hafter
  rw [huv] at h hv
  obtain ⟨hu, hw, huw⟩ := Ordered.append.mp h
  have hfits : Fits e.siteId ((u.getLast?.map Symbol.position).getD [])
      ((v.head?.map Symbol.position).getD []) p := by
    refine (generatePositionBetween_exact e.siteId e.strategyCache draw ?_ ?_).2.2 p cache hgen
    · cases hl : u.getLast? with
      | none => exact .inl rfl
      | some a => exact .inr (hv a (by simp [List.mem_of_getLast? hl]))
    · cases v with
      | nil => exact .inl rfl
      | cons b v =>
        refine .inr ⟨hv b (by simp), Symbol.comparePositions_lt.mpr ?_⟩
        cases hl : u.getLast? with
        | none =>
          obtain ⟨i, p, hp⟩ := List.exists_cons_of_ne_nil (hv b (by simp)).ne_nil
          simp [hp]
        | some a => exact huw a (List.mem_of_getLast? hl) b (by simp)
  refine ⟨u, v, _, huv, ?_, rfl, rfl, hfits.valid, fun y hy => ?_, fun y hy => ?_⟩
  · have hle : u.length ≤ (u ++ v).length := by simp
    rw [huv, ← hlen, QVector.insert, if_pos hle, insertIdx_append] at hins
    exact (Except.ok.inj hins).symm
  · obtain ⟨w, a, rfl⟩ := (List.eq_nil_or_concat' u).resolve_left (List.ne_nil_of_mem hy)
    have hgt := hfits.gt
    rw [List.getLast?_concat] at hgt
    rcases List.mem_append.mp hy with hy | hy
    · exact ((Ordered.append.mp hu).2.2 y hy a (by simp)).trans hgt
    · exact List.mem_singleton.mp hy ▸ hgt
  · obtain ⟨b, w, rfl⟩ := List.exists_cons_of_ne_nil (List.ne_nil_of_mem hy)
    have hlt : p < b.position := by
      rcases hfits.lt with hnil | hlt
      · exact absurd hnil (hv b (by simp)).ne_nil
      · exact hlt
    rcases List.mem_cons.mp hy with rfl | hy
    · exact hlt
    · exact hlt.trans ((Ordered.cons.mp hw).1 y hy)

/-- A local erasure takes out a symbol. -/
theorem localErase_ok {index : Nat} (hi : e.localErase index = .ok (e', m)) : ∃ u v x,
    e.symbols = u ++ x :: v ∧ e'.symbols = u ++ v ∧ m = .delete x ∧ e'.siteId = e.siteId := by
  obtain ⟨x, hx, hi⟩ := bind_eq_ok.mp hi
  obtain ⟨symbols, hsymbols, hi⟩ := bind_eq_ok.mp hi
  cases hi
  unfold QVector.get at hx
  split at hx
  case h_2 => cases hx
  case h_1 x' hget =>
    cases hx
    obtain ⟨hlt, hx⟩ := List.getElem?_eq_some_iff.mp hget
    rw [QVector.erase, if_pos hlt, List.eraseIdx_eq_take_drop_succ] at hsymbols
    refine ⟨e.symbols.take index, e.symbols.drop (index + 1), x, ?_, ?_, rfl, rfl⟩
    · rw [← hx, List.getElem_cons_drop, List.take_append_drop]
    · exact (Except.ok.inj hsymbols).symm

end Editor

/-! ## The invariant -/

namespace Session

/-- The editors have what they know of, in order. -/
structure Tracks (n : Int) (editors : List SharedEditor) (b : Board Int Message) : Prop where
  orderly : Board.Orderly Message.Adds Message.Removes Symbol.position b
  ids : (editors.map SharedEditor.siteId).Nodup
  connected : ∀ e ∈ editors, e.siteId < n
  sent : ∀ p ∈ b.log, p.1 < n
  valid : ∀ p ∈ b.log, ∀ y, p.2.Adds y → ValidPosition y.position
  ordered : ∀ e ∈ editors, Ordered e.symbols
  holds : ∀ e ∈ editors, ∀ y, y ∈ e.symbols ↔ Holds b e.siteId y

section Tracks

variable {n : Int} {editors a c : List SharedEditor} {b : Board Int Message}
  {e e' : SharedEditor} {m : Message} {k : Int} {rest : List (Int × Message)} {x y : Symbol}

/-- Symbols are known by their positions. -/
theorem Tracks.inj {ms : List Message}
    (h : ms.Pairwise fun m n => ∀ x y, m.Adds x → n.Adds y → x.position ≠ y.position)
    (hx : .insert x ∈ ms) (hy : .insert y ∈ ms) (he : x.position = y.position) : x = y := by
  by_contra hne
  have : Std.Symm fun m n : Message =>
      ∀ x y, m.Adds x → n.Adds y → x.position ≠ y.position :=
    ⟨fun m n hmn x y hx hy he => hmn y x hy hx he.symm⟩
  exact h.forall hx hy (fun h => hne (Message.insert.inj h)) x y rfl rfl he

theorem Tracks.validAt (h : Tracks n editors b) (he : e ∈ editors) (hy : y ∈ e.symbols) :
    ValidPosition y.position := by
  obtain ⟨⟨m, hm, ha⟩, -⟩ := (h.holds e he y).mp hy
  obtain ⟨p, hp, rfl⟩ := List.mem_map.mp (Board.mem_log_of_known hm)
  exact h.valid p hp y ha

/-- A message is handed out to one editor. -/
theorem Tracks.process (h : Tracks n editors b) (hq : b.queue = (k, m) :: rest)
    (he : e ∈ editors) (hk : e.siteId ≠ k) : ∃ symbols,
      SharedEditor.process e.symbols m = .ok symbols ∧ Ordered symbols ∧
      ∀ y, y ∈ symbols ↔ Holds b.next e.siteId y := by
  have hnext : ∀ y, Holds b.next e.siteId y ↔ (Holds b e.siteId y ∨ m.Adds y) ∧ ¬ m.Removes y := by
    intro y
    have hknown : ∀ p, p ∈ b.next.known e.siteId ↔ p ∈ b.known e.siteId ++ [m] := fun p => by
      rw [Board.mem_known_next hq (h.orderly.since _), List.mem_append, List.mem_singleton]
    rw [Holds, Board.Kept.congr hknown]
    exact Board.kept_concat fun hy => (h.orderly.new hq hk.symm hy).2
  have hord := h.ordered e he
  cases m with
  | insert s =>
    have hnew := (h.orderly.new hq hk.symm (x := s) rfl).1
    obtain ⟨u, v, huv, hu, hv⟩ := exists_place hord (s := s) fun y hy => by
      obtain ⟨⟨n, hn, ha⟩, -⟩ := (h.holds e he y).mp hy
      exact hnew n hn y ha
    refine ⟨u ++ s :: v, by rw [huv, process_insert hu hv], (huv ▸ hord).insert hu hv,
      fun y => ?_⟩
    have hmem := h.holds e he y
    rw [huv, List.mem_append] at hmem
    rw [hnext, ← hmem, List.mem_append, List.mem_cons]
    simp only [Message.Adds, Message.Removes, Message.insert.injEq, reduceCtorEq, not_false_eq_true,
      and_true, eq_comm (a := s)]
    tauto
  | delete s =>
    have hfirst : b.log.map Prod.snd = b.read.map Prod.snd ++ .delete s :: rest.map Prod.snd := by
      simp [Board.log, hq]
    obtain ⟨n, hn, rfl⟩ := h.orderly.before _ _ _ hfirst s rfl
    refine ⟨_, process_delete hord s, hord.filter _, fun y => ?_⟩
    rw [List.mem_filter, hnext, ← h.holds e he y, decide_eq_true_eq]
    simp only [Message.Adds, Message.Removes, Message.delete.injEq, reduceCtorEq, or_false]
    refine and_congr_right fun hy => not_congr ⟨fun hp => ?_, fun hs => by rw [hs]⟩
    obtain ⟨⟨n', hn', rfl⟩, -⟩ := (h.holds e he y).mp hy
    refine Tracks.inj h.orderly.once ?_ (Board.mem_log_of_known hn') hp.symm
    rw [hfirst]
    exact List.mem_append_left _ hn

/-- An editor after a message was dispatched to it. -/
def Follows (b : Board Int Message) (e e' : SharedEditor) : Prop :=
  e'.siteId = e.siteId ∧ Ordered e'.symbols ∧ ∀ y, y ∈ e'.symbols ↔ Holds b e'.siteId y

theorem Follows.ids {es es' : List SharedEditor} (h : List.Forall₂ (Follows b) es es') :
    es'.map SharedEditor.siteId = es.map SharedEditor.siteId := by
  induction h with
  | nil => rfl
  | cons h _ ih => rw [List.map_cons, List.map_cons, h.1, ih]

theorem Follows.right {es es' : List SharedEditor} (h : List.Forall₂ (Follows b) es es')
    (he : e' ∈ es') : Ordered e'.symbols ∧ ∀ y, y ∈ e'.symbols ↔ Holds b e'.siteId y := by
  induction h with
  | nil => cases he
  | cons h _ ih =>
    rcases List.mem_cons.mp he with rfl | he
    · exact h.2
    · exact ih he

/-- **The front of the queue is dispatched.** -/
theorem Tracks.dispatch (h : Tracks n editors b) (hq : b.queue = (k, m) :: rest) :
    ∃ editors', NetworkServer.dispatch editors (k, m) = .ok editors' ∧
      Tracks n editors' b.next := by
  obtain ⟨editors', hmap, hall⟩ : ∃ editors', NetworkServer.dispatch editors (k, m) = .ok editors' ∧
      List.Forall₂ (Follows b.next) editors editors' := by
    refine exists_mapM fun e he => ?_
    by_cases hk : e.siteId = k
    · -- the sender has it
      refine ⟨e, by rw [if_neg (by simp [hk])]; rfl, rfl, h.ordered e he, fun y => ?_⟩
      rw [h.holds e he]
      refine Board.Kept.congr fun m' => ?_
      rw [Board.mem_known_next hq (h.orderly.since _), hk]
      refine ⟨.inl, fun hm => hm.elim (fun hm => hm) ?_⟩
      rintro rfl
      exact List.mem_append_right _ (by simp [hq])
    · obtain ⟨symbols, hp, hord, hmem⟩ := h.process hq he hk
      refine ⟨{ e with symbols }, ?_, rfl, hord, hmem⟩
      rw [if_pos hk, hp]
      rfl
  have hids := Follows.ids hall
  refine ⟨editors', hmap, h.orderly.next hq, by rw [hids]; exact h.ids, fun e' he' => ?_,
    by rw [Board.log_next]; exact h.sent, by rw [Board.log_next]; exact h.valid,
    fun e' he' => (Follows.right hall he').1, fun e' he' => (Follows.right hall he').2⟩
  obtain ⟨e, he, hid⟩ := List.mem_map.mp (hids ▸ List.mem_map_of_mem he')
  exact hid ▸ h.connected e he

/-- All of the queue is dispatched. -/
theorem Tracks.flush (h : Tracks n editors b) : ∃ editors',
    b.queue.foldlM NetworkServer.dispatch editors = .ok editors' ∧ Tracks n editors' b.flush := by
  induction hq : b.queue generalizing b editors with
  | nil => exact ⟨editors, rfl, by rwa [Board.flush_nil hq]⟩
  | cons p rest ih =>
    obtain ⟨editors₁, hdispatch, h₁⟩ := h.dispatch hq
    obtain ⟨editors', hrest, h'⟩ := ih h₁ (by simp [Board.next, hq])
    rw [Board.flush_next hq] at h'
    refine ⟨editors', ?_, h'⟩
    rw [List.foldlM_cons, hdispatch]
    exact hrest

/-- An editor connects. -/
theorem Tracks.connect (h : Tracks n editors b) :
    Tracks (n + 1) (editors ++ [⟨n, [], 0, []⟩]) (b.join n) := by
  have hq : ∀ p ∈ b.queue, p.1 ≠ n := fun p hp =>
    (h.sent p (List.mem_append_right _ hp)).ne
  refine ⟨h.orderly.join hq, ?_, fun e he => ?_, fun p hp => Int.lt_add_one_of_le (h.sent p hp).le,
    h.valid, fun e he => ?_, fun e he y => ?_⟩
  · rw [List.map_append, List.nodup_append]
    refine ⟨h.ids, by simp, fun i hi j hj => ?_⟩
    obtain ⟨e, he, rfl⟩ := List.mem_map.mp hi
    obtain rfl := List.mem_singleton.mp hj
    exact (h.connected e he).ne
  all_goals rcases List.mem_append.mp he with he | he
  · exact Int.lt_add_one_of_le (h.connected e he).le
  · obtain rfl := List.mem_singleton.mp he
    exact Int.lt_succ n
  · exact h.ordered e he
  · obtain rfl := List.mem_singleton.mp he
    exact List.Pairwise.nil
  · rw [h.holds e he, Holds, Holds, Board.known_join (h.connected e he).ne']
  · obtain rfl := List.mem_singleton.mp he
    rw [Holds, Board.known_join_self hq]
    simp [Board.Kept]

/-- An editor disconnects. -/
theorem Tracks.disconnect (h : Tracks n editors b) (k : Int) :
    Tracks n (editors.filter (·.siteId ≠ k)) b := by
  have hmem : ∀ e ∈ editors.filter (·.siteId ≠ k), e ∈ editors := fun e he =>
    List.mem_of_mem_filter he
  exact ⟨h.orderly, h.ids.sublist (List.filter_sublist.map _),
    fun e he => h.connected e (hmem e he), h.sent, h.valid, fun e he => h.ordered e (hmem e he),
    fun e he => h.holds e (hmem e he)⟩

/-- An editor sends what it did. -/
theorem Tracks.edit (h : Tracks n (a ++ e :: c) b) (hid : e'.siteId = e.siteId)
    (hord : Ordered e'.symbols) (horderly :
      Board.Orderly Message.Adds Message.Removes Symbol.position (b.post e.siteId m))
    (hvalid : ∀ y, m.Adds y → ValidPosition y.position)
    (hnew : ∀ y, m.Adds y → ∀ k ∈ b.known e.siteId, ¬ k.Removes y)
    (hmem : ∀ y, y ∈ e'.symbols ↔ (y ∈ e.symbols ∨ m.Adds y) ∧ ¬ m.Removes y) :
    Tracks n (a ++ e' :: c) (b.post e.siteId m) := by
  have hlog : ∀ p ∈ (b.post e.siteId m).log, p ∈ b.log ∨ p = (e.siteId, m) := by
    intro p hp
    simpa [Board.log, Board.post, or_assoc] using hp
  have hothers : ∀ o ∈ a ++ e' :: c, o = e' ∨ o ∈ a ++ e :: c ∧ e.siteId ≠ o.siteId := by
    intro o ho
    have hids := h.ids
    rw [List.map_append, List.map_cons, List.nodup_middle, List.nodup_cons, ← List.map_append]
      at hids
    rcases List.mem_append.mp ho with ho | ho
    · exact .inr ⟨by simp [ho], fun he =>
        hids.1 (he ▸ List.mem_map_of_mem (List.mem_append_left _ ho))⟩
    · rcases List.mem_cons.mp ho with rfl | ho
      · exact .inl rfl
      · exact .inr ⟨by simp [ho], fun he =>
          hids.1 (he ▸ List.mem_map_of_mem (List.mem_append_right _ ho))⟩
  have he : e ∈ a ++ e :: c := by simp
  refine ⟨horderly, ?_, fun o ho => ?_, fun p hp => ?_, fun p hp y hy => ?_, fun o ho => ?_,
    fun o ho y => ?_⟩
  · have hids := h.ids
    rw [List.map_append, List.map_cons] at hids ⊢
    rwa [hid]
  · rcases hothers o ho with rfl | ⟨ho, -⟩
    · exact hid ▸ h.connected e he
    · exact h.connected o ho
  · rcases hlog p hp with hp | rfl
    · exact h.sent p hp
    · exact h.connected e he
  · rcases hlog p hp with hp | rfl
    · exact h.valid p hp y hy
    · exact hvalid y hy
  · rcases hothers o ho with rfl | ⟨ho, -⟩
    · exact hord
    · exact h.ordered o ho
  · rcases hothers o ho with rfl | ⟨ho, hne⟩
    · rw [hmem, h.holds e he, Holds, Holds, hid, Board.known_post, if_pos rfl]
      exact (Board.kept_concat (hnew y)).symm
    · rw [h.holds o ho, Holds, Holds, Board.known_post, if_neg hne, List.append_nil]

end Tracks

/-- The server's queue is what was not dispatched yet. -/
structure Inv (s : Session) : Prop where
  tracks : Tracks s.server.id s.server.editors s.board
  queue : s.board.queue = s.server.queue

theorem Inv.init : Inv start :=
  ⟨⟨Board.Orderly.init, List.nodup_nil, by simp [Session.start], by simp [Session.start, Board.log],
    by simp [Session.start, Board.log], by simp [Session.start], by simp [Session.start]⟩, rfl⟩

section Steps

variable {s t : Session} {a c : List SharedEditor} {e e' : SharedEditor} {m : Message} {x : Symbol}

theorem Inv.insert {index : Int} {value : QChar} {draw : Draw} (h : s.Inv)
    (hs : s.server.editors = a ++ e :: c)
    (hi : e.localInsert index value draw = .ok (e', .insert x))
    (hnew : s.Unused x.position) : (s.edit (a ++ e' :: c) e (.insert x)).Inv := by
  have ht := h.tracks
  rw [hs] at ht
  have he : e ∈ a ++ e :: c := by simp
  obtain ⟨u, v, z, huv, hz, hm, hid, hvalid, hu, hv⟩ :=
    localInsert_ok (ht.ordered e he) (fun y hy => ht.validAt he hy) hi
  obtain rfl := Message.insert.inj hm
  have hord := ht.ordered e he
  rw [huv] at hord
  have hunremoved : ∀ k ∈ s.board.known e.siteId, ¬ k.Removes x := by
    intro k hk hr
    obtain ⟨m, hm, hx⟩ := ht.orderly.informed e.siteId k hk x hr
    have hlog : m ∈ s.board.log.map Prod.snd := by
      rcases List.mem_append.mp hm with hm | hm
      · rw [Board.log_split s.board e.siteId]
        simp only [List.mem_append]
        exact .inl (.inl hm)
      · exact Board.mem_log_of_known hm
    exact hnew m hlog x hx rfl
  refine ⟨ht.edit hid ?_ ?_ ?_ ?_ ?_, ?_⟩
  · rw [hz]
    exact hord.insert hu hv
  · refine ht.orderly.post (fun y hy => ?_) fun y hy => by cases hy
    obtain rfl := Message.insert.inj hy
    exact hnew
  · intro y hy
    obtain rfl := Message.insert.inj hy
    exact hvalid
  · intro y hy
    obtain rfl := Message.insert.inj hy
    exact hunremoved
  · intro y
    rw [huv, hz]
    simp only [List.mem_append, List.mem_cons, Message.Adds, Message.Removes, Message.insert.injEq,
      reduceCtorEq, not_false_eq_true, and_true, eq_comm (a := x)]
    tauto
  · show s.board.queue ++ _ = s.server.queue ++ _
    rw [h.queue]

theorem Inv.erase {index : Nat} (h : s.Inv) (hs : s.server.editors = a ++ e :: c)
    (hi : e.localErase index = .ok (e', m)) : (s.edit (a ++ e' :: c) e m).Inv := by
  have ht := h.tracks
  rw [hs] at ht
  have he : e ∈ a ++ e :: c := by simp
  obtain ⟨u, v, x, huv, hz, rfl, hid⟩ := localErase_ok hi
  have hord := ht.ordered e he
  rw [huv] at hord
  have hord : Ordered (u ++ [x] ++ v) := by simpa using hord
  refine ⟨ht.edit hid (hz ▸ hord.erase) ?_ ?_ ?_ ?_, ?_⟩
  · refine ht.orderly.post (fun y hy => by cases hy) fun y hy => ?_
    obtain rfl := Message.delete.inj hy
    exact (ht.holds e he x).mp (by simp [huv])
  · intro y hy
    cases hy
  · intro y hy
    cases hy
  · intro y
    rw [huv, hz, hord.mem_erase]
    simp only [List.append_assoc, List.singleton_append, List.mem_singleton, forall_eq,
      Message.Adds, Message.Removes, Message.delete.injEq, reduceCtorEq, or_false]
    refine and_congr_right fun hy => not_congr ⟨fun hp => ?_, fun hs => by rw [hs]⟩
    exact hord.inj (by simp) (by simpa using hy) hp
  · show s.board.queue ++ _ = s.server.queue ++ _
    rw [h.queue]

/-- All that is queued can be dispatched. -/
theorem Inv.dispatchMessages (h : s.Inv) : ∃ n, s.server.dispatchMessages = .ok n ∧
    n.queue = [] ∧ Inv ⟨n, s.board.flush⟩ := by
  obtain ⟨editors, hfold, ht⟩ := h.tracks.flush
  rw [h.queue] at hfold
  refine ⟨{ s.server with editors, queue := [] }, ?_, rfl, ht, rfl⟩
  rw [NetworkServer.dispatchMessages, hfold]
  rfl

theorem Inv.step (h : s.Inv) (hstep : Step s t) : t.Inv := by
  cases hstep with
  | connect => exact ⟨h.tracks.connect, h.queue⟩
  | disconnect id => exact ⟨h.tracks.disconnect id, h.queue⟩
  | insert index value draw hs hi hnew => exact h.insert hs hi hnew
  | erase index hs hi => exact h.erase hs hi
  | dispatch hd =>
    obtain ⟨n, hn, -, hinv⟩ := h.dispatchMessages
    obtain rfl := Except.ok.inj (hd.symm.trans hn)
    exact hinv

theorem Inv.run (h : Relation.ReflTransGen Step start s) : s.Inv := by
  induction h with
  | refl => exact Inv.init
  | tail _ hstep ih => exact ih.step hstep

end Steps

/-- **Whenever the server is told to, it can dispatch what is queued, and the editors agree.** After
any run, in which no position is sent twice, none of the editors throws; each has, in order, the
symbols that were inserted and not erased since it connected, and those that connected when the same
had been dispatched have the same. -/
theorem editors_agree (s : Session) (hrun : Relation.ReflTransGen Step start s) :
    ∃ n, s.server.dispatchMessages = .ok n ∧ n.queue = [] ∧
      (∀ e ∈ n.editors, Ordered e.symbols ∧ ∀ y, y ∈ e.symbols ↔
        Board.Kept Message.Adds Message.Removes
          ((s.board.log.drop (s.board.since e.siteId)).map Prod.snd) y) ∧
      ∀ e ∈ n.editors, ∀ e' ∈ n.editors, s.board.since e.siteId = s.board.since e'.siteId →
        e.symbols = e'.symbols := by
  obtain ⟨n, hn, hq, hinv⟩ := (Inv.run hrun).dispatchMessages
  have hkept : ∀ e ∈ n.editors, Ordered e.symbols ∧ ∀ y, y ∈ e.symbols ↔
      Board.Kept Message.Adds Message.Removes
        ((s.board.log.drop (s.board.since e.siteId)).map Prod.snd) y := by
    refine fun e he => ⟨hinv.tracks.ordered e he, fun y => ?_⟩
    rw [hinv.tracks.holds e he, Holds, Board.known_flush]
  refine ⟨n, hn, hq, hkept, fun e he e' he' hsince => ?_⟩
  refine (hkept e he).1.ext (hkept e' he').1 fun y => ?_
  rw [(hkept e he).2, (hkept e' he').2, hsince]

/-- The first character of an editor that connected with this number. -/
def first (k : Int) (value : QChar) : Symbol := ⟨value, [⟨1, k⟩], 1, default⟩

theorem localInsert_first (k : Int) (value : QChar) :
    (⟨k, [], 0, []⟩ : SharedEditor).localInsert 0 value ⟨true, 0⟩ =
      .ok (⟨k, [first k value], 1, [(0, true)]⟩, .insert (first k value)) := by
  have hgen : generatePositionBetween k [] ⟨true, 0⟩ [] [] [] 0 =
      .ok ([⟨1, k⟩], [(0, true)]) := by
    rw [generatePositionBetween, if_pos (by simp [BASE])]
    rfl
  have hbefore : posBefore [] 0 = .ok [] := posBefore_append [] []
  have hafter : posAfter [] 0 = .ok [] := posAfter_append [] []
  rw [localInsert, if_neg (by simp)]
  show (posBefore [] 0 >>= _) = _
  rw [hbefore]
  show (posAfter [] 0 >>= _) = _
  rw [hafter]
  show (generatePositionBetween k [] ⟨true, 0⟩ [] [] [] 0 >>= _) = _
  rw [hgen]
  rfl

/-- Two editors insert at the same time. -/
def both : Session :=
  ⟨⟨2,
    [⟨0, [first 0 (QChar.of 'a')], 1, [(0, true)]⟩, ⟨1, [first 1 (QChar.of 'b')], 1, [(0, true)]⟩],
    [(0, .insert (first 0 (QChar.of 'a'))), (1, .insert (first 1 (QChar.of 'b')))]⟩,
    ((((start.board.join 0).join 1).post 0 (.insert (first 0 (QChar.of 'a')))).post 1
      (.insert (first 1 (QChar.of 'b'))))⟩

theorem run_both : Relation.ReflTransGen Step start both := by
  refine .tail (.tail (.tail (.single (.connect start)) (.connect _))
    (.insert (a := []) 0 (QChar.of 'a') ⟨true, 0⟩ rfl (localInsert_first 0 _) ?_))
    (.insert (a := [⟨0, [first 0 (QChar.of 'a')], 1, [(0, true)]⟩]) (b := []) 0 (QChar.of 'b')
      ⟨true, 0⟩ rfl (localInsert_first 1 _) ?_)
  · intro m hm
    cases hm
  · intro m hm y hy
    obtain rfl := List.mem_singleton.mp hm
    obtain rfl := Message.insert.inj hy
    simp [first]

theorem editors_agree_both : ∃ n, both.server.dispatchMessages = .ok n ∧ n.queue = [] ∧
    (∀ e ∈ n.editors, Ordered e.symbols ∧ ∀ y, y ∈ e.symbols ↔
      Board.Kept Message.Adds Message.Removes
        ((both.board.log.drop (both.board.since e.siteId)).map Prod.snd) y) ∧
    ∀ e ∈ n.editors, ∀ e' ∈ n.editors, both.board.since e.siteId = both.board.since e'.siteId →
      e.symbols = e'.symbols :=
  editors_agree both run_both

end Session

end SharedEditor

end Scriba.Client
