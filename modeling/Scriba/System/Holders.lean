import Scriba.System.Erasures
import Scriba.System.Network

/-! # Clients as holders of positions

What `Erasures` takes a client for is true of a `CRDT` in any state, also of one that has lost a
symbol or missed an erasure. Its operations name symbols that it has, and what it has after an
operation or a handler it had before, or the message mentions it. So the runs of clients and
server are runs of `holders`. -/

namespace Scriba.System

open Scriba.Utility Scriba.Client Scriba.Server Scriba.Lib Scriba.Lib.Relay

/-! ## Local operations -/

section Local

variable {P : Position → Prop} {c c' : CRDT} {ls ls' : Lines} {line index i n : Nat} {s : Symbol}
  {ss : List Symbol} {font : QFont} {color : QColor} {m : Message} {op : LocalOp}

theorem eraseChar_named (h : AllPositions P ls) (he : CRDT.eraseChar ls line index = .ok (ls', s)) :
    P s.position := by
  obtain ⟨l, hl, he⟩ := bind_eq_ok.mp he
  obtain ⟨x, hx, he⟩ := bind_eq_ok.mp he
  obtain ⟨l', -, he⟩ := bind_eq_ok.mp he
  obtain ⟨ls1, -, he⟩ := bind_eq_ok.mp he
  have hP := h.get hl x (QVector.mem_of_get hx)
  split_ifs at he
  · obtain ⟨next, -, he⟩ := bind_eq_ok.mp he
    obtain ⟨ls2, -, he⟩ := bind_eq_ok.mp he
    obtain ⟨ls3, -, he⟩ := bind_eq_ok.mp he
    obtain ⟨-, rfl⟩ := Prod.mk.inj (Except.ok.inj he)
    exact hP
  · obtain ⟨-, rfl⟩ := Prod.mk.inj (Except.ok.inj he)
    exact hP

theorem eraseLoop_named (h : AllPositions P c.symbols)
    (he : c.eraseLoop line index n = .ok (c', ss)) : ∀ s ∈ ss, P s.position := by
  induction n generalizing c ss with
  | zero =>
    obtain ⟨-, rfl⟩ := Prod.mk.inj (Except.ok.inj he)
    exact fun s hs => absurd hs List.not_mem_nil
  | succ n ih =>
    obtain ⟨⟨ls1, s⟩, h1, he⟩ := bind_eq_ok.mp he
    obtain ⟨⟨c2, rest⟩, h2, he⟩ := bind_eq_ok.mp he
    obtain ⟨rfl, rfl⟩ := Prod.mk.inj (Except.ok.inj he)
    have hrest := ih (c := { c with symbols := ls1, size := c.size - 1 }) (eraseChar_all h h1) h2
    exact List.forall_mem_cons.mpr ⟨eraseChar_named h h1, hrest⟩

theorem changeChar_all (h : AllPositions P ls)
    (hc : CRDT.changeChar ls line i font color = .ok (ls', s)) :
    AllPositions P ls' ∧ P s.position := by
  obtain ⟨l, hl, hc⟩ := bind_eq_ok.mp hc
  obtain ⟨x, hx, hc⟩ := bind_eq_ok.mp hc
  obtain ⟨l', hl', hc⟩ := bind_eq_ok.mp hc
  obtain ⟨ls1, h1, hc⟩ := bind_eq_ok.mp hc
  obtain ⟨rfl, rfl⟩ := Prod.mk.inj (Except.ok.inj hc)
  have hP : P (x.setFormat font color).position := by
    rw [Symbol.setFormat_position]
    exact h.get hl x (QVector.mem_of_get hx)
  refine ⟨h.put (fun y hy => ?_) h1, hP⟩
  rcases QVector.mem_of_put hl' hy with rfl | hy
  · exact hP
  · exact h.get hl y hy

theorem changeSpan_all (h : AllPositions P ls)
    (hc : CRDT.changeSpan ls line i font color n = .ok (ls', ss)) :
    AllPositions P ls' ∧ ∀ s ∈ ss, P s.position := by
  induction n generalizing ls i ss with
  | zero =>
    obtain ⟨rfl, rfl⟩ := Prod.mk.inj (Except.ok.inj hc)
    exact ⟨h, by simp⟩
  | succ n ih =>
    obtain ⟨⟨ls1, s⟩, h1, hc⟩ := bind_eq_ok.mp hc
    obtain ⟨⟨ls2, rest⟩, h2, hc⟩ := bind_eq_ok.mp hc
    obtain ⟨rfl, rfl⟩ := Prod.mk.inj (Except.ok.inj hc)
    obtain ⟨hall, hs⟩ := changeChar_all h h1
    obtain ⟨hall', hrest⟩ := ih hall h2
    exact ⟨hall', List.forall_mem_cons.mpr ⟨hs, hrest⟩⟩

theorem changeLines_all (h : AllPositions P ls)
    (hc : CRDT.changeLines ls line font color n = .ok (ls', ss)) :
    AllPositions P ls' ∧ ∀ s ∈ ss, P s.position := by
  induction n generalizing ls line ss with
  | zero =>
    obtain ⟨rfl, rfl⟩ := Prod.mk.inj (Except.ok.inj hc)
    exact ⟨h, by simp⟩
  | succ n ih =>
    obtain ⟨l, -, hc⟩ := bind_eq_ok.mp hc
    obtain ⟨⟨ls1, first⟩, h1, hc⟩ := bind_eq_ok.mp hc
    obtain ⟨⟨ls2, rest⟩, h2, hc⟩ := bind_eq_ok.mp hc
    obtain ⟨rfl, rfl⟩ := Prod.mk.inj (Except.ok.inj hc)
    obtain ⟨hall, hfirst⟩ := changeSpan_all h h1
    obtain ⟨hall', hrest⟩ := ih hall h2
    exact ⟨hall', List.forall_mem_append.mpr ⟨hfirst, hrest⟩⟩

theorem changeRange_all {startLine endLine startIndex endIndex : Nat} (h : AllPositions P ls)
    (hc : CRDT.changeRange ls startLine endLine startIndex endIndex font color = .ok (ls', ss)) :
    AllPositions P ls' ∧ ∀ s ∈ ss, P s.position := by
  unfold CRDT.changeRange at hc
  split_ifs at hc
  · exact changeSpan_all h hc
  · obtain ⟨l, -, hc⟩ := bind_eq_ok.mp hc
    obtain ⟨⟨ls1, first⟩, h1, hc⟩ := bind_eq_ok.mp hc
    obtain ⟨⟨ls2, middle⟩, h2, hc⟩ := bind_eq_ok.mp hc
    obtain ⟨⟨ls3, last⟩, h3, hc⟩ := bind_eq_ok.mp hc
    obtain ⟨rfl, rfl⟩ := Prod.mk.inj (Except.ok.inj hc)
    obtain ⟨hall1, hfirst⟩ := changeSpan_all h h1
    obtain ⟨hall2, hmiddle⟩ := changeLines_all hall1 h2
    obtain ⟨hall3, hlast⟩ := changeSpan_all hall2 h3
    exact ⟨hall3, List.forall_mem_append.mpr ⟨List.forall_mem_append.mpr ⟨hfirst, hmiddle⟩, hlast⟩⟩

/-- **After a local operation** a replica has what it had and what the message inserts, and the
message names what it had. -/
theorem perform_all (h : AllPositions P c.symbols) (hp : op.perform c = .ok (c', m))
    (hm : ∀ s ∈ m.inserted, P s.position) :
    AllPositions P c'.symbols ∧ ∀ s ∈ named m, P s.position := by
  cases performed_of_ok hp with
  | insert hi => exact ⟨insertNew_keeps h hi (hm _ (by simp [Message.inserted])), by simp [named]⟩
  | insertGroup hi => exact ⟨insertGroupLoop_keeps h hi hm, by simp [named]⟩
  | erase he => exact ⟨(eraseLoop_all h he).1, eraseLoop_named h he⟩
  | change h1 hc =>
    obtain ⟨hall, hs⟩ := changeChar_all h h1
    exact ⟨hc ▸ hall, by simpa [named] using hs⟩
  | changeGroup h1 hc =>
    obtain ⟨hall, hs⟩ := changeRange_all h h1
    exact ⟨hc ▸ hall, hs⟩
  | @changeAlignment line align l l' ls' x hl hx hl' h1 hc =>
    have hP : P (x.setAlignment align).position := by
      rw [Symbol.setAlignment_position]
      exact h.get hl x (QVector.mem_of_get hx)
    refine ⟨hc ▸ h.put (fun y hy => ?_) h1, by simpa [named] using hP⟩
    rcases QVector.mem_of_put hl' hy with rfl | hy
    · exact hP
    · exact h.get hl y hy

end Local

/-! ## Handlers -/

section Remote

variable {P : Position → Prop} {c c' : CRDT} {ls ls' : Lines} {ss : List Symbol} {m : Message}
  {finished : Bool} {signals : List Signal}

theorem changeRemoteLoop_all (h : AllPositions P ls) (hs : ∀ s ∈ ss, P s.position)
    (hc : CRDT.changeRemoteLoop ls ss = .ok (ls', finished)) : AllPositions P ls' := by
  induction ss generalizing ls with
  | nil =>
    obtain ⟨rfl, -⟩ := Prod.mk.inj (Except.ok.inj hc)
    exact h
  | cons s ss ih =>
    obtain ⟨r, -, hc⟩ := bind_eq_ok.mp hc
    cases r with
    | none =>
      obtain ⟨rfl, -⟩ := Prod.mk.inj (Except.ok.inj hc)
      exact h
    | some pl =>
      obtain ⟨l, hl, hc⟩ := bind_eq_ok.mp hc
      obtain ⟨l', hl', hc⟩ := bind_eq_ok.mp hc
      obtain ⟨ls1, h1, hc⟩ := bind_eq_ok.mp hc
      refine ih (h.put (fun y hy => ?_) h1) (fun r hr => hs r (by simp [hr])) hc
      rcases QVector.mem_of_put hl' hy with rfl | hy
      · exact hs _ (by simp)
      · exact h.get hl y hy

/-- **After a handler** a replica has what it had and what the message inserts. A change may also
have put a symbol that it names in the place of another one. -/
theorem received_all (h : AllPositions P c.symbols) (hr : c.onReceived m = .ok (c', signals))
    (hi : ∀ s ∈ m.inserted, P s.position) (hm : ∀ s ∈ named m, P s.position) :
    AllPositions P c'.symbols := by
  cases m with
  | insert s => exact (Handles.facts (m := .insert s) ⟨signals, hr⟩ h trivial hi).1
  | paste ss => exact (Handles.facts (m := .paste ss) ⟨signals, hr⟩ h trivial hi).1
  | erase ss => exact (Handles.facts (m := .erase ss) ⟨signals, hr⟩ h trivial hi).1
  | changeSymbol s =>
    obtain ⟨rfl, -⟩ := Prod.mk.inj (Except.ok.inj hr)
    exact h
  | change ss =>
    obtain ⟨⟨ls', finished⟩, h1, hr⟩ := bind_eq_ok.mp hr
    obtain ⟨rfl, -⟩ := Prod.mk.inj (Except.ok.inj hr)
    exact changeRemoteLoop_all h hm h1
  | align s => exact (handleRemoteAlignChange_all h hr).1

end Remote

/-! ## Runs -/

/-- The positions that a client holds. -/
def heldBy (c : CRDT) : List Position := c.symbols.flatten.map Symbol.position

section Runs

variable {ι : Type} [DecidableEq ι] {xs : List Symbol} {c c' : CRDT} {m : Message}
  {state : ι → CRDT} {server : SymbolMap} {w : Clients ι}

theorem heldBy_subset {held : List Position} :
    heldBy c ⊆ held ↔ AllPositions (· ∈ held) c.symbols := by
  simp only [heldBy, AllPositions, List.subset_def, List.forall_mem_map, List.mem_flatten]
  exact ⟨fun h l hl y hy => h y ⟨l, hl, hy⟩, fun h y ⟨l, hl, hy⟩ => h l hl y hy⟩

theorem heldBy_left {held : List Position} : AllPositions (· ∈ heldBy c ++ held) c.symbols :=
  heldBy_subset.mp (List.subset_append_left _ _)

/-- **Runs of clients and server are runs of holders**, whatever the clients do and receive, as
long as no position is inserted twice. -/
theorem holders_of_network {kind : LocalOp → Prop} {clean : CRDT → Message → Prop}
    (h : Reachable (network kind (fun w => (holders xs).may (w.map heldBy)) clean)
      (.init state server) w) :
    Reachable (holders xs) (.init (fun i => heldBy (state i)) server) (w.map heldBy) := by
  have hinserted : ∀ (c : CRDT) (m : Message), ∀ s ∈ m.inserted,
      s.position ∈ heldBy c ++ mentionedAt m := fun c m s hs =>
    List.mem_append_right _ (List.mem_append_left _ (List.mem_map_of_mem hs))
  have hnamed : ∀ (c : CRDT) (m : Message), ∀ s ∈ named m,
      s.position ∈ heldBy c ++ mentionedAt m := fun c m s hs =>
    List.mem_append_right _ (List.mem_append_right _ (List.mem_map_of_mem hs))
  refine Reachable.map (f := heldBy) rfl ?_ ?_ h
  · rintro w i m c' ⟨op, -, -, hp⟩ hmay
    refine ⟨⟨fun s hs => ?_, heldBy_subset.mpr (perform_all heldBy_left hp (hinserted _ m)).1⟩,
      hmay⟩
    -- no message both inserts and names
    have hnone : m.inserted = [] := by
      cases m with
      | insert | paste => exact absurd hs List.not_mem_nil
      | erase | changeSymbol | change | align => rfl
    refine (perform_all (heldBy_subset.mp (List.Subset.refl _)) hp fun r hr => ?_).2 s hs
    exact absurd (hnone ▸ hr) List.not_mem_nil
  · intro c m c' hex
    obtain ⟨-, signals, hr⟩ := hex
    exact heldBy_subset.mpr (received_all heldBy_left hr (hinserted c m) (hnamed c m))

end Runs

/-- A letter is erased by a client and made bold by another that has not heard of it yet. The
server processes the erasure first. At the end no client has the letter, and the server does. -/
theorem keys_revived : ∃ (ls : Lines) (state : Bool → CRDT) (w : Clients Bool),
    (ls.flatten.map Symbol.position).Nodup ∧ (∀ i, (state i).symbols = ls) ∧
    Reachable (network (fun _ => True) (fun w => (holders ls.flatten).may (w.map heldBy))
      fun _ _ => True) (.init state (SymbolMap.storeSymbolsServerMemory ls.flatten)) w ∧
    Reachable (holders ls.flatten) (.init (fun _ => ls.flatten.map Symbol.position)
      (SymbolMap.storeSymbolsServerMemory ls.flatten)) (w.map heldBy) ∧ w.Quiet ∧
    ¬ KeysLive ls.flatten (w.order.map Prod.snd) w.server := by
  let a := plain (QChar.of 'a') [⟨1, 1⟩]
  let font : QFont := { (default : QFont) with bold := true }
  let bold := a.setFormat font default
  let t := plain QChar.null [⟨5, 1⟩]
  let state : Bool → CRDT := fun i => .opened (if i then 2 else 1) [[a, t]]
  let erased (i : Bool) : CRDT := { state i with symbols := [[t]], size := 0 }
  let changed : CRDT := { state true with symbols := [[bold, t]] }
  let N : Network Bool := network (fun _ => True) (fun w => (holders [a, t]).may (w.map heldBy))
    fun _ _ => True
  have herase : N.perform (state false) (.erase [a]) (erased false) :=
    ⟨.erase 0 0 1, trivial, ⟨⟨_, rfl, by decide⟩, by decide⟩, by decide +kernel⟩
  have hchange : N.perform (state true) (.change [bold]) changed :=
    ⟨.changeGroup 0 0 0 0 font default, trivial, trivial, by decide +kernel⟩
  have hmissed : N.deliver (erased false) (.change [bold]) (erased false) :=
    ⟨trivial, [], by decide +kernel⟩
  have herased : N.deliver changed (.erase [a]) (erased true) :=
    ⟨trivial, [.erase (some (0, 0)) 1], by decide +kernel⟩
  have hmay : ∀ w i m, insertedAt m = [] → N.may w i m := by
    intro w i m hm
    simp [N, network, holders, hm]
  have h1 : Reachable N (.init state (SymbolMap.storeSymbolsServerMemory [a, t])) _ :=
    Relation.ReflTransGen.single (.perform false herase (hmay _ _ _ rfl))
  have h2 := h1.tail (.perform true hchange (hmay _ _ _ rfl))
  have h3 := (h2.tail (.process false rfl)).tail (.process true rfl)
  have h4 := (h3.tail (.deliver false rfl hmissed)).tail (.deliver true rfl herased)
  refine ⟨[[a, t]], state, _, by decide, fun _ => rfl, h4, holders_of_network h4, ?_, fun hk => ?_⟩
  · intro i
    cases i <;> exact ⟨rfl, rfl⟩
  · obtain ⟨p, hp, hlive⟩ := (hk (Symbol.keyOf [⟨1, 1⟩])).mp (by decide +kernel)
    exact hlive.2 (.erase [a]) (by decide) (keyOf_injective hp ▸ by decide)

end Scriba.System
