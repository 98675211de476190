import Scriba.System.FileNames
import Scriba.System.Wire

/-! # Clients and server at work

The server with the clients that are logged in. A client is at its list of files, waits for a
file it has chosen, or has one in its editor; what it sends and what is sent to it is queued. The
server takes a message through its handlers, a client what it gets through its slots. The last two
members of a `Deployment` are the history: the operations that were performed on each file, and
those that the server took for it. -/

namespace Scriba.System

open Scriba.Utility Scriba.Client Scriba.Server Scriba.Lib

/-- What the client shows, if it is still there. -/
inductive Page where
  | home
  | awaiting (filename : QString)
  | editor (filename : QString)
  | gone
deriving DecidableEq

/-- A client, with the members of `CRDT` and of `Client`. -/
structure Site where
  crdt : CRDT
  members : Members
  page : Page

/-- What a client sends. -/
inductive Request where
  | operation (siteId : Int) (m : Message)
  | cursor (message : QJsonObject)
  | openFile (filename : QString)
  | closeFile (openfile username nickname : QString)
  | ask (doc : QJsonObject)

def Request.payload (toJson : QJsonObject → QByteArray) : Request → Callback QJsonObject
  | .operation siteId m => Client.payload toJson (m.parts siteId)
  | .cursor message => .jsonReceived message
  | .openFile filename => .jsonReceived (openFileMessage filename)
  | .closeFile openfile username nickname =>
    .jsonReceived (closeFileMessage openfile username nickname)
  | .ask doc => .jsonReceived doc

structure Deployment where
  server : Server
  site : WorkerId → Site
  up : WorkerId → List Request
  down : WorkerId → List Packet
  sent : QString → List Message
  order : QString → List Message

/-- The file that the server has for a worker. -/
def fileOf (s : Server) (w : WorkerId) : QString :=
  (s.clients[w]?).elim [] ServerWorker.filename

/-- The packets for a client. -/
def addressed (outs : List Output) (w : WorkerId) : List Packet :=
  (outs.filter (·.destination = w)).map Output.packet

namespace Deployment

def setSite (D : Deployment) (w : WorkerId) (site : Site) : Deployment :=
  { D with site := Function.update D.site w site }

def send (D : Deployment) (w : WorkerId) (r : Request) : Deployment :=
  { D with up := Function.update D.up w (D.up w ++ [r]) }

/-- The server handles an event, and what it sends is queued. -/
def serve (z : Codec) (d : Driver) (D : Deployment) (e : Server.Event) : Option Deployment :=
  match D.server.handle z d e with
  | .error _ => none
  | .ok (server, outs) =>
    some { D with server, down := fun w => D.down w ++ addressed outs w }

/-! ## Clients -/

/-- An operation of the user, in the editor. -/
def perform (D : Deployment) (w : WorkerId) (op : LocalOp) : Option Deployment :=
  let site := D.site w
  match site.page with
  | .editor f =>
    match op.perform site.crdt with
    | .error _ => none
    | .ok (crdt, m) =>
      let D := (D.setSite w { site with crdt }).send w (.operation site.crdt.siteId m)
      some { D with sent := Function.update D.sent f (D.sent f ++ [m]) }
  | _ => none

/-- `saveCursorPosition`. -/
def moveCursor (D : Deployment) (w : WorkerId) (line index : Nat) : Option Deployment :=
  match (D.site w).page with
  | .gone => none
  | _ =>
    match cursorPositionChanged (D.site w).crdt line index with
    | .error _ => none
    | .ok message => some (D.send w (.cursor message))

/-- `Home::showActiveFiles`, or a shared link that was found. -/
def choose (D : Deployment) (w : WorkerId) (f : QString) : Deployment :=
  (D.setSite w { D.site w with page := .awaiting f }).send w (.openFile f)

/-- `Editor::exit`. The site keeps its number. -/
def exit (D : Deployment) (w : WorkerId) : Option Deployment :=
  let site := D.site w
  match site.page with
  | .editor _ =>
    let c := site.members.state
    some ((D.setSite w { site with crdt := CRDT.clear site.crdt.siteId, page := .home }).send w
      (.closeFile c.openfile c.username c.nickname))
  | _ => none

/-- What is sent for passwords, nicknames and lists of files. -/
def ask (D : Deployment) (w : WorkerId) (doc : QJsonObject) : Option Deployment :=
  match (D.site w).page with
  | .gone => none
  | _ => some (D.send w (.ask doc))

/-- The client takes the next packet. -/
def deliver (z : Codec) (toJson : QJsonObject → QByteArray) (D : Deployment) (w : WorkerId) :
    Option Deployment :=
  let site := D.site w
  match site.page, D.down w with
  | .gone, _ | _, [] => none
  | page, packet :: rest =>
    match received z toJson site.members packet with
    | .error _ => none
    | .ok (members, signals) =>
      match site.crdt.handleAll signals.operations with
      | .error _ => none
      | .ok (crdt, _) =>
        let page := if signals.opened then .editor members.state.openfile else page
        let D := { D with down := Function.update D.down w rest }
        some (signals.chosen.foldl (fun D f => D.choose w f) (D.setSite w ⟨crdt, members, page⟩))

/-! ## The server -/

/-- The server takes the next message of a client. -/
def process (z : Codec) (toJson : QJsonObject → QByteArray) (d : Driver) (D : Deployment)
    (w : WorkerId) : Option Deployment :=
  match D.up w with
  | [] => none
  | r :: rest =>
    let f := fileOf D.server w
    let order :=
      match r with
      | .operation _ m => Function.update D.order f (D.order f ++ [m])
      | _ => D.order
    { D with up := Function.update D.up w rest, order }.serve z d
      (eventOf w (r.payload toJson))

/-- The connection ends, with all that is under way. -/
def disconnect (z : Codec) (d : Driver) (D : Deployment) (w : WorkerId) : Option Deployment :=
  match (D.site w).page with
  | .gone => none
  | _ =>
    { D.setSite w { D.site w with page := .gone } with
      up := Function.update D.up w []
      down := Function.update D.down w [] }.serve z d (.userDisconnected w)

end Deployment

/-! ## Steps -/

inductive Action where
  | perform (w : WorkerId) (op : LocalOp)
  | moveCursor (w : WorkerId) (line index : Nat)
  | choose (w : WorkerId) (filename : QString)
  | exit (w : WorkerId)
  | ask (w : WorkerId) (doc : QJsonObject)
  | deliver (w : WorkerId)
  | process (w : WorkerId) (d : Driver)
  | disconnect (w : WorkerId) (d : Driver)
  | timeout (d : Driver)

/-- A file is chosen at the list of files. -/
def Deployment.step (z : Codec) (toJson : QJsonObject → QByteArray) (D : Deployment) :
    Action → Option Deployment
  | .perform w op => D.perform w op
  | .moveCursor w line index => D.moveCursor w line index
  | .choose w f => if (D.site w).page = .home then some (D.choose w f) else none
  | .exit w => D.exit w
  | .ask w doc => D.ask w doc
  | .deliver w => D.deliver z toJson w
  | .process w d => D.process z toJson d w
  | .disconnect w d => D.disconnect z d w
  | .timeout d => D.serve z d .timeout

end Scriba.System
