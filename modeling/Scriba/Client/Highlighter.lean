import Mathlib.Data.Finset.Card
import Mathlib.Data.List.Infix
import Scriba.Lib.Table
import Scriba.Utility.Symbol

/-! # The colours of the users

`Colors` and `Highlighter` of `Client`. An index is handed out to every remote user that joins;
`colors` is meant to hold the indices in use, but nothing is ever put into it, and `current` only
grows. So each arrival gets the next index (`Tracks`), and the palette lasts for as many arrivals
as it has colours, however many of the users have left by then. -/

namespace Scriba.Utility

/-- `QColor(red, green, blue)`, by its `name()`. -/
def QColor.rgb (red green blue : Nat) : QColor :=
  ⟨QChar.of '#' :: [red, green, blue].flatMap fun n =>
    [Nat.digitChar (n / 16), Nat.digitChar (n % 16)].map QChar.of⟩

end Scriba.Utility

namespace Scriba.Client

open Scriba.Utility Scriba.Lib

/-! ## The palette -/

def listColors : List QColor :=
  [.rgb 230 143 172, .rgb 0 103 165, .rgb 249 147 121, .rgb 96 78 151, .rgb 246 166 0,
    .rgb 179 68 108, .rgb 220 211 0, .rgb 136 45 23, .rgb 141 182 0, .rgb 101 69 34,
    .rgb 226 88 34, .rgb 43 61 38, .rgb 243 195 0, .rgb 135 86 146, .rgb 243 132 0,
    .rgb 161 202 241, .rgb 190 0 50, .rgb 194 178 128, .rgb 132 132 130]

theorem length_listColors : listColors.length = 19 := rfl

structure Colors where
  colors : Finset Int
  current : Int

namespace Colors

def start : Colors := ⟨∅, -1⟩

def clear (c : Colors) : Colors := { c with colors := ∅ }

/-- The loop of `getIndex` with `n` rounds to go: an index that is free, if it comes to one. -/
def nextFree (c : Colors) : Nat → Colors × Option Int
  | 0 => (c, none)
  | n + 1 =>
    let c := { c with current := c.current + 1 }
    if c.current ∉ c.colors then (c, some c.current) else c.nextFree n

/-- `random` is what `rand()` returns. -/
def getIndex (c : Colors) (random : Nat) : Colors × Int :=
  match c.nextFree listColors.length with
  | (c, some index) => (c, index)
  | (c, none) => (c, random % listColors.length)

def freeColor (c : Colors) (x : Int) : Colors := { c with colors := c.colors.erase x }

def getColor (index : Int) : QColor :=
  if 0 ≤ index ∧ index < listColors.length then listColors[index.toNat]?.getD (.rgb 0 0 0)
  else if index = -1 then .rgb 0 136 86
  else if index = -2 then .rgb 192 192 192
  else .rgb 255 255 255

/-- With no index marked as used the next one is free. -/
theorem getIndex_of_empty {c : Colors} (h : c.colors = ∅) (random : Nat) :
    c.getIndex random = ({ c with current := c.current + 1 }, c.current + 1) := by
  simp [getIndex, length_listColors, nextFree, h]

end Colors

/-! ## The users -/

/-- `QMap<int, int> users` and the `Colors`. -/
structure Highlighter where
  users : Std.TreeMap Int Int
  colors : Colors

namespace Highlighter

def start : Highlighter := ⟨∅, .start⟩

/-- With whether the user is new. -/
def addClient (h : Highlighter) (editorId : Int) (random : Nat) : Highlighter × Bool :=
  if editorId ∈ h.users then (h, false)
  else
    let (colors, i) := h.colors.getIndex random
    (⟨h.users.insert editorId i, colors⟩, true)

def addLocal (h : Highlighter) (editorId : Int) : Highlighter :=
  if editorId ∈ h.users then h else { h with users := h.users.insert editorId (-1) }

/-- `users.value` of a user that is not there is 0. -/
def freeColor (h : Highlighter) (editorId : Int) : Highlighter :=
  ⟨h.users.erase editorId, h.colors.freeColor ((h.users[editorId]?).getD 0)⟩

def freeAll (h : Highlighter) : Highlighter := ⟨∅, h.colors.clear⟩

/-- The calls `Editor` makes. -/
inductive Call where
  | addClient (editorId : Int) (random : Nat)
  | addLocal (editorId : Int)
  | freeColor (editorId : Int)
  | freeAll

def call (h : Highlighter) : Call → Highlighter
  | .addClient editorId random => (h.addClient editorId random).1
  | .addLocal editorId => h.addLocal editorId
  | .freeColor editorId => h.freeColor editorId
  | .freeAll => h.freeAll

/-- What some calls make of a fresh highlighter. -/
def after (calls : List Call) : Highlighter := calls.foldl call start

end Highlighter

/-! ## Who is there -/

/-- The users that are there, and how many remote ones have come so far. -/
structure Presence where
  remote : Finset Int
  locals : Finset Int
  arrivals : Nat

namespace Presence

open Highlighter (Call)

def start : Presence := ⟨∅, ∅, 0⟩

def call (p : Presence) : Call → Presence
  | .addClient id _ =>
    if id ∈ p.remote ∨ id ∈ p.locals then p
    else { p with remote := insert id p.remote, arrivals := p.arrivals + 1 }
  | .addLocal id =>
    if id ∈ p.remote ∨ id ∈ p.locals then p else { p with locals := insert id p.locals }
  | .freeColor id => { p with remote := p.remote.erase id, locals := p.locals.erase id }
  | .freeAll => { p with remote := ∅, locals := ∅ }

def after (calls : List Call) : Presence := calls.foldl call start

/-- The remote users have indices of the palette, and different ones. -/
structure Coloured (p : Presence) (h : Highlighter) : Prop where
  palette : ∀ id ∈ p.remote, ∃ i, h.users[id]? = some i ∧ 0 ≤ i ∧ i < listColors.length
  distinct : ∀ id ∈ p.remote, ∀ id' ∈ p.remote, h.users[id]? = h.users[id']? → id = id'

/-- What the highlighter knows of the users. -/
structure Tracks (p : Presence) (h : Highlighter) : Prop where
  users : ∀ id, id ∈ h.users ↔ id ∈ p.remote ∨ id ∈ p.locals
  colors : h.colors.colors = ∅
  current : h.colors.current + 1 = p.arrivals
  index : ∀ id ∈ p.remote, ∃ i, h.users[id]? = some i ∧ 0 ≤ i ∧ i < p.arrivals
  distinct : ∀ id ∈ p.remote, ∀ id' ∈ p.remote, h.users[id]? = h.users[id']? → id = id'

theorem tracks_start : Tracks start Highlighter.start where
  users := by simp [start, Highlighter.start]
  colors := rfl
  current := rfl
  index := by simp [start]
  distinct := by simp [start]

section Step

variable {p : Presence} {h : Highlighter}

/-- An arrival gets the index that counts the arrivals before it. -/
theorem addClient_eq (t : Tracks p h) {id : Int} (hid : id ∉ h.users) (random : Nat) :
    h.addClient id random =
      (⟨h.users.insert id p.arrivals, { h.colors with current := p.arrivals }⟩, true) := by
  rw [Highlighter.addClient, if_neg hid, Colors.getIndex_of_empty t.colors, t.current]

theorem Tracks.addClient (t : Tracks p h) (id : Int) (random : Nat) :
    Tracks (p.call (.addClient id random)) (h.call (.addClient id random)) := by
  by_cases hid : id ∈ h.users
  · rw [Highlighter.call, Highlighter.addClient, if_pos hid, call, if_pos ((t.users id).mp hid)]
    exact t
  rw [Highlighter.call, addClient_eq t hid, call, if_neg (mt (t.users id).mpr hid)]
  have hne : ∀ {i}, i ∈ p.remote → i ≠ id := by
    intro i hi he
    exact hid ((t.users id).mpr (.inl (he ▸ hi)))
  -- The new index is above all that are in use.
  have hnew : ∀ {i}, i ∈ p.remote → h.users[i]? ≠ some (p.arrivals : Int) := by
    intro i hi he
    obtain ⟨n, hn, -, hlt⟩ := t.index i hi
    obtain rfl := Option.some.inj (hn.symm.trans he)
    exact lt_irrefl _ hlt
  refine ⟨?_, t.colors, by simp, ?_, ?_⟩
  · intro i
    rw [Table.mem_insert, t.users, Finset.mem_insert, or_assoc]
  · intro i hi
    rw [Table.getElem?_insert]
    rcases Finset.mem_insert.mp hi with rfl | hi
    · exact ⟨p.arrivals, if_pos rfl, by simp, by push_cast; omega⟩
    · obtain ⟨n, hn, h0, hlt⟩ := t.index i hi
      exact ⟨n, by rw [if_neg (hne hi), hn], h0, by push_cast; omega⟩
  · intro i hi j hj he
    rw [Table.getElem?_insert, Table.getElem?_insert] at he
    by_cases hi' : i = id <;> by_cases hj' : j = id
    · rw [hi', hj']
    · have hj := Finset.mem_of_mem_insert_of_ne hj hj'
      rw [if_pos hi', if_neg hj'] at he
      exact absurd he.symm (hnew hj)
    · have hi := Finset.mem_of_mem_insert_of_ne hi hi'
      rw [if_neg hi', if_pos hj'] at he
      exact absurd he (hnew hi)
    · have hi := Finset.mem_of_mem_insert_of_ne hi hi'
      have hj := Finset.mem_of_mem_insert_of_ne hj hj'
      rw [if_neg hi', if_neg hj'] at he
      exact t.distinct i hi j hj he

theorem Tracks.addLocal (t : Tracks p h) (id : Int) :
    Tracks (p.call (.addLocal id)) (h.call (.addLocal id)) := by
  by_cases hid : id ∈ h.users
  · rw [Highlighter.call, Highlighter.addLocal, if_pos hid, call, if_pos ((t.users id).mp hid)]
    exact t
  rw [Highlighter.call, Highlighter.addLocal, if_neg hid, call, if_neg (mt (t.users id).mpr hid)]
  have hold : ∀ i ∈ p.remote, (h.users.insert id (-1))[i]? = h.users[i]? := by
    intro i hi
    rw [Table.getElem?_insert, if_neg]
    intro he
    exact hid ((t.users id).mpr (.inl (he ▸ hi)))
  refine ⟨?_, t.colors, t.current, ?_, ?_⟩
  · intro i
    rw [Table.mem_insert, t.users, Finset.mem_insert, or_left_comm]
  · intro i hi
    rw [hold i hi]
    exact t.index i hi
  · intro i hi j hj he
    rw [hold i hi, hold j hj] at he
    exact t.distinct i hi j hj he

theorem Tracks.freeColor (t : Tracks p h) (id : Int) :
    Tracks (p.call (.freeColor id)) (h.call (.freeColor id)) := by
  have hold : ∀ i ∈ p.remote.erase id, (h.users.erase id)[i]? = h.users[i]? := by
    intro i hi
    rw [Table.getElem?_erase, if_neg (Finset.mem_erase.mp hi).1]
  refine ⟨?_, ?_, t.current, ?_, ?_⟩
  · intro i
    show i ∈ h.users.erase id ↔ i ∈ p.remote.erase id ∨ i ∈ p.locals.erase id
    rw [Table.mem_erase, t.users, Finset.mem_erase, Finset.mem_erase, and_or_left]
  · show h.colors.colors.erase _ = ∅
    rw [t.colors, Finset.erase_empty]
  · intro i hi
    rw [show (h.call (.freeColor id)).users[i]? = h.users[i]? from hold i hi]
    exact t.index i (Finset.mem_of_mem_erase hi)
  · intro i hi j hj he
    exact t.distinct i (Finset.mem_of_mem_erase hi) j (Finset.mem_of_mem_erase hj)
      ((hold i hi).symm.trans (he.trans (hold j hj)))

theorem Tracks.freeAll (t : Tracks p h) : Tracks (p.call .freeAll) (h.call .freeAll) where
  users := by simp [call, Highlighter.call, Highlighter.freeAll]
  colors := rfl
  current := t.current
  index := by simp [call]
  distinct := by simp [call]

/-- **One call.** -/
theorem Tracks.call (t : Tracks p h) (c : Call) : Tracks (p.call c) (h.call c) := by
  cases c with
  | addClient id random => exact t.addClient id random
  | addLocal id => exact t.addLocal id
  | freeColor id => exact t.freeColor id
  | freeAll => exact t.freeAll

end Step

/-- **Any calls.** -/
theorem tracks_after (calls : List Call) : Tracks (after calls) (Highlighter.after calls) := by
  induction calls using List.reverseRecOn with
  | nil => exact tracks_start
  | append_singleton calls c ih =>
    rw [after, Highlighter.after, List.foldl_concat, List.foldl_concat]
    exact ih.call c

/-! ## How long the palette lasts -/

/-- A colour is freed of a remote user that is there. -/
def Frees (p : Presence) : Call → Prop
  | .freeColor id => id ∈ p.remote
  | _ => True

instance (p : Presence) : (c : Call) → Decidable (Frees p c)
  | .freeColor id => inferInstanceAs (Decidable (id ∈ p.remote))
  | .addClient .. | .addLocal _ | .freeAll => .isTrue trivial

/-- A sequence of calls as `Editor` makes them, with never more remote users there than there are
colours. -/
def Admissible (p : Presence) : List Call → Prop
  | [] => p.remote.card ≤ listColors.length
  | c :: calls => p.remote.card ≤ listColors.length ∧ Frees p c ∧ Admissible (p.call c) calls

instance decidableAdmissible (p : Presence) :
    (calls : List Call) → Decidable (Admissible p calls)
  | [] => inferInstanceAs (Decidable (_ ≤ _))
  | c :: calls =>
    have := decidableAdmissible (p.call c) calls
    inferInstanceAs (Decidable (_ ∧ _ ∧ _))

theorem after_concat (calls : List Call) (c : Call) : after (calls ++ [c]) = (after calls).call c :=
  List.foldl_concat ..

/-- As many arrivals as colours. -/
theorem Tracks.coloured {p : Presence} {h : Highlighter} (t : Tracks p h)
    (hp : p.arrivals ≤ listColors.length) : Coloured p h where
  palette := by
    intro id hid
    obtain ⟨i, hi, h0, hlt⟩ := t.index id hid
    exact ⟨i, hi, h0, by omega⟩
  distinct := t.distinct

theorem arrivals_call (p : Presence) (c : Call) :
    (p.call c).arrivals = p.arrivals ∨
      (p.call c).arrivals = p.arrivals + 1 ∧ ∃ id random, c = .addClient id random ∧
        id ∉ p.remote ∧ id ∉ p.locals ∧ id ∈ (p.call c).remote := by
  cases c with
  | addClient id random =>
    by_cases hid : id ∈ p.remote ∨ id ∈ p.locals
    · exact .inl (by rw [call, if_pos hid])
    · obtain ⟨hr, hl⟩ := not_or.mp hid
      rw [call, if_neg hid]
      exact .inr ⟨rfl, id, random, rfl, hr, hl, Finset.mem_insert_self id _⟩
  | addLocal id =>
    left
    rw [call]
    split_ifs <;> rfl
  | freeColor id => exact .inl rfl
  | freeAll => exact .inl rfl

/-- The arrival after the palette is used up gets an index beyond it. -/
theorem Tracks.not_coloured {p : Presence} {h : Highlighter} (t : Tracks p h)
    (hp : p.arrivals = listColors.length) {c : Call} (hc : (p.call c).arrivals = p.arrivals + 1) :
    ¬ Coloured (p.call c) (h.call c) := by
  intro hcol
  rcases arrivals_call p c with he | ⟨-, id, random, rfl, hr, hl, hmem⟩
  · omega
  obtain ⟨i, hi, -, hlt⟩ := hcol.palette id hmem
  have hid : id ∉ h.users := mt (t.users id).mp (not_or.mpr ⟨hr, hl⟩)
  rw [Highlighter.call, addClient_eq t hid, Table.getElem?_insert, if_pos rfl] at hi
  obtain rfl := Option.some.inj hi
  omega

theorem arrivals_mono {before calls : List Call} (h : before <+: calls) :
    (after before).arrivals ≤ (after calls).arrivals := by
  obtain ⟨rest, rfl⟩ := h
  induction rest using List.reverseRecOn with
  | nil => simp
  | append_singleton rest c ih =>
    rw [← List.append_assoc, after_concat]
    rcases arrivals_call (after (before ++ rest)) c with he | ⟨he, -⟩ <;> omega

/-- **The colours of the users.** The remote users have different indices of the palette all the
time exactly if no more of them ever come than it has colours. -/
theorem coloured_iff (calls : List Call) :
    (∀ before, before <+: calls → Coloured (after before) (Highlighter.after before)) ↔
      (after calls).arrivals ≤ listColors.length := by
  constructor
  · intro h
    induction calls using List.reverseRecOn with
    | nil => exact Nat.zero_le _
    | append_singleton calls c ih =>
      have hle := ih fun before hb => h before (hb.trans (List.prefix_append _ _))
      rcases arrivals_call (after calls) c with he | ⟨he, -⟩
      · rw [after_concat, he]
        exact hle
      by_contra hgt
      rw [after_concat, he] at hgt
      have hfull : (after calls).arrivals = listColors.length := by omega
      refine (tracks_after calls).not_coloured hfull he ?_
      have hlast := h (calls ++ [c]) List.prefix_rfl
      rwa [after_concat, Highlighter.after, List.foldl_concat] at hlast
  · intro hle before hb
    exact (tracks_after before).coloured ((arrivals_mono hb).trans hle)

/-- Users that come one at a time, each once the one before has left. -/
def visits (n : Nat) : List Call :=
  (List.range n).flatMap fun i => [.addClient i 0, .freeColor i]

/-- Nineteen users have come and left when another one comes. It is alone, and has no colour. -/
theorem visitor_not_coloured :
    Admissible start (visits 19 ++ [.addClient 19 0]) ∧
      (after (visits 19 ++ [.addClient 19 0])).remote = {19} ∧
      (Highlighter.after (visits 19 ++ [.addClient 19 0])).users[(19 : Int)]? = some 19 ∧
      ¬ Coloured (after (visits 19 ++ [.addClient 19 0]))
        (Highlighter.after (visits 19 ++ [.addClient 19 0])) := by
  have hindex : (Highlighter.after (visits 19 ++ [.addClient 19 0])).users[(19 : Int)]? =
      some 19 := by decide +kernel
  have hremote : (after (visits 19 ++ [.addClient 19 0])).remote = {19} := by decide +kernel
  refine ⟨by decide +kernel, hremote, hindex, ?_⟩
  intro h
  obtain ⟨i, hi, -, hlt⟩ := h.palette 19 (by rw [hremote]; exact Finset.mem_singleton_self 19)
  obtain rfl := Option.some.inj (hindex.symm.trans hi)
  exact absurd hlt (by decide)

end Presence
end Scriba.Client
