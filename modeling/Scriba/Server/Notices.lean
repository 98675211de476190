import Scriba.Server.Accounts
import Scriba.Server.Storage

/-! # Who is told what

The messages that the server sends to those who have a file open when somebody opens or leaves it,
and to whoever opens it. What the server does besides is in `Server.Handlers`. -/

namespace Scriba.Server

open Scriba.Utility Scriba.Lib

/-- Somebody has opened the file. -/
def connectionNotice (filename : QString) (worker : ServerWorker) : QJsonObject :=
  object (("type", text "connection") :: ("filename", .string filename) :: userObject worker)

/-- Somebody has left it. -/
def disconnectionNotice (filename : QString) (worker : ServerWorker) : QJsonObject :=
  object [("type", text "disconnection"), ("filename", .string filename),
    ("user", .string worker.username), ("nickname", .string worker.nickname)]

/-- The file is sent. -/
def fileReply (filename sharedLink : QString) (totSymbols : Nat) (users : List ServerWorker) :
    QJsonObject :=
  accept "file_to_open" [("filename", .string filename), ("tot_symbols", .double totSymbols),
    ("users", .array (users.map fun worker => .object (object (userObject worker)))),
    ("shared_link", .string sharedLink)]

section Notices

variable {d : Driver} {z : Codec} {s s' : Server} {w : WorkerId} {sender : ServerWorker}
  {doc : QJsonObject} {outs : List Output} {f : QString}

theorem connectedUsers_ok {username : QString} {list : List WorkerId}
    {users : List (ServerWorker × QByteArray)}
    (h : s.connectedUsers d username list = .ok users) :
    users.map Prod.fst = (list.filterMap (s.clients[·]?)).filter (·.username ≠ username) := by
  induction list generalizing users with
  | nil =>
    obtain rfl := Except.ok.inj h
    rfl
  | cons v list ih =>
    rw [connectedUsers] at h
    split at h
    case h_1 => cases h
    case h_2 worker hv =>
      rw [List.filterMap_cons, hv]
      split at h
      case isTrue he =>
        rw [ih h]
        simp [he]
      case isFalse hne =>
        obtain ⟨image, -, h⟩ := bind_eq_ok.mp h
        obtain ⟨rest, hrest, h⟩ := bind_eq_ok.mp h
        obtain rfl := Except.ok.inj h
        rw [List.map_cons, ih hrest]
        simp [hne]

/-- What is sent when a file is opened. -/
theorem sendFile_notices (h : s.sendFile z d w sender doc = .ok (s', outs))
    (hf : sendFileField doc = .ok f) : ∃ message symbols images image,
      outs = ⟨w, .fileContentImage message symbols images⟩ ::
        (((s.mapFileWorkers[f]?).getD []).filter (· ≠ w)).map
          (fun v => ⟨v, .byteArray (connectionNotice f sender) image⟩) ∧
      (IsReply "file_to_open" true message → ∃ users sharedLink,
        message = fileReply f sharedLink symbols.length users ∧
        users = ((((s.mapFileWorkers[f]?).getD [] ++ [w]).filterMap (s'.clients[·]?)).filter
          (·.username ≠ sender.username))) := by
  rcases sendFile_ok h with ⟨⟨reason, hreason⟩, -⟩ | ⟨g, content, hg, ho, -⟩
  · cases hf.symm.trans hreason
  cases hf.symm.trans hg
  unfold sendFile at h
  rw [hf] at h
  obtain ⟨users, hu, h⟩ := bind_eq_ok.mp h
  obtain ⟨content, -, h⟩ := bind_eq_ok.mp h
  obtain ⟨image, -, h⟩ := bind_eq_ok.mp h
  obtain ⟨others, hb, h⟩ := bind_eq_ok.mp h
  obtain ⟨list, hl⟩ := broadcast_ok hb
  obtain ⟨-, houts⟩ := Prod.mk.inj (Except.ok.inj h)
  have hlist : (s.registerWorker w sender f).mapFileWorkers[f]? =
      some ((s.mapFileWorkers[f]?).getD [] ++ [w]) := by
    rw [registerWorker, Table.getElem?_insert, if_pos rfl]
  obtain rfl := Option.some.inj (hlist.symm.trans hl.entry)
  have hclients : (s.registerWorker w sender f).clients = s'.clients := ho.clients.symm
  have husers := connectedUsers_ok hu
  rw [hlist, Option.getD_some, hclients] at husers
  have hfilter : ((s.mapFileWorkers[f]?).getD [] ++ [w]).filter (· ≠ w) =
      ((s.mapFileWorkers[f]?).getD []).filter (· ≠ w) := by
    simp
  rw [hl.outs, hfilter] at houts
  cases content with
  | none =>
    refine ⟨_, _, _, _, houts.symm, ?_⟩
    intro hm
    cases hm.success
  | some symbols =>
    refine ⟨_, _, _, _, houts.symm, ?_⟩
    intro _
    have hmessage : ∀ sharedLink, accept "file_to_open" [("filename", .string f),
        ("tot_symbols", .double symbols.length),
        ("users", .array (users.map fun p => .object (object (userObject p.1)))),
        ("shared_link", .string sharedLink)] =
        fileReply f sharedLink symbols.length (users.map Prod.fst) := by
      intro sharedLink
      rw [fileReply, List.map_map]
      rfl
    exact ⟨_, _, hmessage _, husers⟩

/-- What is sent when a worker leaves its file. -/
theorem leave_notices {result : Server × List Output}
    (h : s.udpateSymbolListAndCommunicateDisconnection z d f w sender = .ok (some result))
    (hf : sender.filename = f) : ∃ workers, s.mapFileWorkers[f]? = some workers ∧
      result.2 = ((workers.erase w).filter (· ≠ w)).map
        fun v => ⟨v, .json (disconnectionNotice f sender)⟩ := by
  subst hf
  unfold udpateSymbolListAndCommunicateDisconnection at h
  split at h
  case h_1 => cases h
  case h_2 workers hw =>
    refine ⟨workers, hw, ?_⟩
    split at h
    · cases h
    · split at h
      case isTrue he =>
        obtain ⟨s1, -, h⟩ := bind_eq_ok.mp h
        cases h
        rw [he]
        rfl
      case isFalse he =>
        obtain ⟨outs, hb, h⟩ := bind_eq_ok.mp h
        cases h
        obtain ⟨list, hl⟩ := broadcast_ok hb
        have hentry := hl.entry
        rw [Table.getElem?_insert, if_pos rfl] at hentry
        obtain rfl := Option.some.inj hentry
        exact hl.outs

end Notices

end Scriba.Server
