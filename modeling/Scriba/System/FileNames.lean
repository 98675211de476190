import Scriba.Client.Home
import Scriba.Server.Registry

/-! # Names between client and server

The server knows a file by its name and that of its author, put together after each was
simplified. The client puts them together first, and the server simplifies what it gets; a name
that ends in a space keeps a space before the comma then. -/

namespace Scriba.System

open Scriba.Utility Scriba.Client Scriba.Server Scriba.Lib

/-! ## Messages -/

/-- `Client::createNewFile`. -/
def newFileMessage (filename username : QString) : QJsonObject :=
  object [("type", text "new_file"), ("filename", .string filename), ("author", .string username)]

/-- `Client::openFile`. -/
def openFileMessage (filename : QString) : QJsonObject :=
  object [("type", text "file_to_open"), ("filename", .string filename)]

/-- `Client::closeFile`. -/
def closeFileMessage (openfile username nickname : QString) : QJsonObject :=
  object [("type", text "close"), ("filename", .string openfile), ("username", .string username),
    ("nickname", .string nickname)]

theorem textField_string {doc : QJsonObject} {key wrongFormat empty : String} {s : QString}
    (h : doc.value key = .string s) (hs : s.simplified ≠ []) :
    textField doc key wrongFormat empty = .ok s.simplified := by
  simp only [textField, h, QJsonValue.isNull, QJsonValue.isString, QJsonValue.toString, if_neg hs]
  rfl

theorem closeFileField_message {openfile username nickname : QString}
    (hf : openfile.simplified ≠ []) (hu : username.simplified ≠ [])
    (hn : nickname.simplified ≠ []) :
    closeFileField (closeFileMessage openfile username nickname) = .ok openfile.simplified := by
  rw [closeFileField, textField_string (s := openfile) rfl hf, usernameField,
    textField_string (s := username) rfl hu, nicknameField, textField_string (s := nickname) rfl hn]
  rfl

/-! ## Opening a shared file -/

/-- The file and the author that `sendFile` looks for. -/
def lookedFor (doc : QJsonObject) : Except String (QString × QString) := do
  let filename ← sendFileField doc
  pure (filename.splitAtLast (QChar.of ','))

theorem lookedFor_message {filename : QString} (h : filename.simplified ≠ []) :
    lookedFor (openFileMessage filename) =
      .ok (filename.simplified.splitAtLast (QChar.of ',')) := by
  rw [lookedFor, sendFileField, textField_string (s := filename) rfl h]
  rfl

theorem splitAtLast_append {c : QChar} {a b : QString} (hb : c ∉ b) :
    (a ++ c :: b).splitAtLast c = (a, b) := by
  have htail : ((a ++ c :: b).reverse.takeWhile (· ≠ c)).reverse = b := by
    have hall : ∀ x ∈ b.reverse, decide (x ≠ c) = true := by
      intro x hx
      exact decide_eq_true fun he => hb (he ▸ List.mem_reverse.mp hx)
    rw [List.reverse_append, List.reverse_cons, List.append_assoc,
      List.takeWhile_append_of_pos hall]
    simp
  have hlength : (a ++ c :: b).length - b.length - 1 = a.length := by
    rw [List.length_append, List.length_cons]
    omega
  rw [QString.splitAtLast, if_pos (by simp), htail]
  show ((a ++ c :: b).take ((a ++ c :: b).length - b.length - 1), b) = (a, b)
  rw [hlength, List.take_left]

/-- The space before a comma and a name stays, after a word. -/
theorem simplified_append_comma {name : QString} (hs : name.simplified = name) (xs : QString) :
    QString.simplified (xs ++ QChar.of ',' :: name) =
      (if xs.getLast?.any QChar.isSpace ∧ Words.words QChar.isSpace xs ≠ [] then
        Words.normal QChar.isSpace (QChar.of ' ') xs ++ [QChar.of ' ']
      else Words.normal QChar.isSpace (QChar.of ' ') xs) ++ QChar.of ',' :: name :=
  Words.normal_append_cons (by decide) hs xs

/-- The choice of the item of a shared file: the name after the replacements, and the owner. -/
theorem choice_item {owner : QString} (ho : QChar.of '(' ∉ owner ∧ QChar.of ')' ∉ owner)
    (username name : QString) : Home.choice true username (Home.item true name owner) =
      (name.replace (QString.of " (") (QString.of ",")).filter (· ≠ QChar.of ')') ++
        QChar.of ',' :: owner := by
  have hrest : ¬ [QChar.of ' ', QChar.of '('] <:+: owner ++ QString.of ")" := by
    intro hi
    have hmem : QChar.of '(' ∈ owner ++ QString.of ")" := hi.subset (by simp)
    rcases List.mem_append.mp hmem with hm | hm
    · exact ho.1 hm
    · exact absurd hm (by decide)
  have hitem : Home.item true name owner =
      name ++ QChar.of ' ' :: QChar.of '(' :: (owner ++ QString.of ")") := by
    simp only [Home.item, if_true, List.append_assoc]
    rfl
  have howner : owner.filter (· ≠ QChar.of ')') = owner :=
    List.filter_eq_self.mpr fun x hx => decide_eq_true fun he => ho.2 (he ▸ hx)
  have hreplace : (Home.item true name owner).replace (QString.of " (") (QString.of ",") =
      name.replace (QString.of " (") (QString.of ",") ++ QString.of "," ++
        (owner ++ QString.of ")") := by
    rw [hitem]
    exact (QString.replace_append_pair (by decide) name _).trans
      (congrArg _ (QString.replace_of_absent hrest))
  rw [Home.choice, if_pos rfl, hreplace]
  refine (QString.replace_nil _ (QChar.of ')')).trans ?_
  rw [List.filter_append, List.filter_append, List.filter_append, howner, List.append_assoc]
  refine congrArg _ ?_
  show QChar.of ',' :: (owner ++ []) = _
  rw [List.append_nil]

/-- The name the server takes a chosen item for. -/
theorem lookedFor_choice {owner : QString} (hs : owner.simplified = owner)
    (ho : QChar.of ',' ∉ owner ∧ QChar.of '(' ∉ owner ∧ QChar.of ')' ∉ owner)
    (username name : QString) : ∃ q,
      lookedFor (openFileMessage (Home.choice true username (Home.item true name owner))) =
        .ok (q, owner) ∧
      q.length ≤ ((name.replace (QString.of " (") (QString.of ",")).filter
        (· ≠ QChar.of ')')).length ∧
      ((name.replace (QString.of " (") (QString.of ",")).filter (· ≠ QChar.of ')') = name →
        name.simplified = name → q = name) := by
  rw [choice_item ho.2 username name]
  generalize (name.replace (QString.of " (") (QString.of ",")).filter (· ≠ QChar.of ')') = n
  have hjoin := simplified_append_comma hs n
  generalize hq : (if n.getLast?.any QChar.isSpace ∧ Words.words QChar.isSpace n ≠ [] then
    Words.normal QChar.isSpace (QChar.of ' ') n ++ [QChar.of ' ']
    else Words.normal QChar.isSpace (QChar.of ' ') n) = q at hjoin
  have hlength : q.length ≤ n.length := by
    have hle : (QString.simplified (n ++ QChar.of ',' :: owner)).length ≤
        (n ++ QChar.of ',' :: owner).length := Words.length_normal_le _
    rw [hjoin, List.length_append, List.length_append] at hle
    omega
  refine ⟨q, ?_, hlength, ?_⟩
  · have hsimplified : QString.simplified (n ++ QChar.of ',' :: owner) =
        q ++ QChar.of ',' :: owner := hjoin
    rw [lookedFor_message (by simp [hsimplified]), hsimplified, splitAtLast_append ho.1]
  · intro hn hname
    subst hn
    have hnormal : Words.normal QChar.isSpace (QChar.of ' ') n = n := hname
    rw [hnormal] at hq
    split_ifs at hq
    · rw [← hq, List.length_append, List.length_singleton] at hlength
      omega
    · exact hq.symm

/-- **A shared file that is chosen.** It is the one the server looks for exactly if its name has
neither an opening bracket after a space nor a closing bracket. -/
theorem chosen_file_iff {name owner : QString} (hn : name.simplified = name)
    (ho : owner.simplified = owner)
    (hplain : QChar.of ',' ∉ owner ∧ QChar.of '(' ∉ owner ∧ QChar.of ')' ∉ owner)
    (username : QString) :
    lookedFor (openFileMessage (Home.choice true username (Home.item true name owner))) =
        .ok (name, owner) ↔
      ¬ QString.of " (" <:+: name ∧ QChar.of ')' ∉ name := by
  obtain ⟨q, hq, hlength, hsame⟩ :=
    lookedFor_choice ho hplain username name
  obtain ⟨hle, hlt⟩ := QString.length_replace_pair (a := QChar.of ' ') (b := QChar.of '(')
    (c := QChar.of ',') (by decide) name
  have hfilter := List.length_filter_le (fun x : QChar => decide (x ≠ QChar.of ')'))
    (name.replace (QString.of " (") (QString.of ","))
  rw [hq]
  constructor
  · intro he
    obtain rfl : q = name := congrArg Prod.fst (Except.ok.inj he)
    have habsent : ¬ QString.of " (" <:+: q := by
      intro hi
      have := hlt hi
      exact absurd (hlength.trans hfilter) (not_le.mpr this)
    have hreplace : q.replace (QString.of " (") (QString.of ",") = q :=
      QString.replace_of_absent habsent
    refine ⟨habsent, fun hmem => ?_⟩
    rw [hreplace] at hlength
    have hall := List.length_filter_eq_length_iff.mp
      (le_antisymm (List.length_filter_le _ q) hlength)
    exact absurd rfl (of_decide_eq_true (hall _ hmem))
  · intro hcond
    have hreplace : name.replace (QString.of " (") (QString.of ",") = name :=
      QString.replace_of_absent hcond.1
    have hall : name.filter (fun x => decide (x ≠ QChar.of ')')) = name :=
      List.filter_eq_self.mpr fun x hx => decide_eq_true fun he => hcond.2 (he ▸ hx)
    rw [hsame (by rw [hreplace, hall]) hn]

/-- A comma in the name does no harm. -/
theorem chosen_file_comma : lookedFor (openFileMessage (Home.choice true [] (Home.item true
      (QString.of "a, b") (QString.of "u")))) =
    .ok (QString.of "a, b", QString.of "u") := by
  refine (chosen_file_iff ?_ ?_ ?_ []).mpr ⟨?_, ?_⟩
  all_goals decide +kernel

/-- The brackets of `notes (1)` are taken for those of the owner. -/
theorem chosen_file_brackets :
    lookedFor (openFileMessage (Home.choice true [] (Home.item true
        (QString.of "notes (1)") (QString.of "u")))) =
      .ok (QString.of "notes,1", QString.of "u") ∧
    ¬ ∀ name owner username : QString, name ≠ [] → name.simplified = name → owner ≠ [] →
      owner.simplified = owner → (∀ c ∈ QString.of ", ()", c ∉ owner) →
      lookedFor (openFileMessage (Home.choice true username (Home.item true name owner))) =
        .ok (name, owner) := by
  have hchoice : Home.choice true [] (Home.item true (QString.of "notes (1)") (QString.of "u")) =
      QString.of "notes,1,u" := by decide +kernel
  have hlooked : lookedFor (openFileMessage (Home.choice true [] (Home.item true
      (QString.of "notes (1)") (QString.of "u")))) =
        .ok (QString.of "notes,1", QString.of "u") := by
    rw [hchoice, lookedFor_message (by decide +kernel)]
    decide +kernel
  refine ⟨hlooked, ?_⟩
  intro hall
  have hplain : (QString.of ", ()").all (fun c => decide (c ∉ QString.of "u")) = true := by
    decide +kernel
  have he := hall (QString.of "notes (1)") (QString.of "u") [] (by decide) (by decide +kernel)
    (by decide) (by decide +kernel) fun c hc => of_decide_eq_true (List.all_eq_true.mp hplain c hc)
  exact absurd (hlooked.symm.trans he) (by decide +kernel)

/-! ## Closing a new file -/

/-- The key of a new file, and the one under which its author has it closed. -/
theorem simplified_openedFile {text username : QString} (ht : text.simplified ≠ [])
    (hu : username.simplified = username) : (Home.openedFile text username).simplified =
      (if text.endsInSpace then text.simplified ++ [QChar.of ' '] else text.simplified) ++
        QChar.of ',' :: username := by
  have hwords : Words.words QChar.isSpace text ≠ [] := mt Words.normal_eq_nil.mpr ht
  have hjoin := simplified_append_comma hu text
  simp only [ne_eq, hwords, not_false_eq_true, and_true] at hjoin
  rw [Home.openedFile, List.append_assoc, List.singleton_append]
  exact hjoin

theorem simplified_openedFile_iff {text username : QString} (ht : text.simplified ≠ [])
    (hu : username.simplified = username) :
    (Home.openedFile text username).simplified =
        fileKey text.simplified username.simplified ↔
      text.endsInSpace = false := by
  rw [simplified_openedFile ht hu, hu, fileKey, List.append_assoc, List.singleton_append]
  cases text.endsInSpace <;> simp

section Close

variable {z : Codec} {d : Driver} {s : Server} {w : WorkerId} {sender : ServerWorker}
  {doc : QJsonObject} {filename : QString}

/-- The request to close is answered with success and the worker is not registered for the file any
more, unless saving fails. -/
def Closes (z : Codec) (d : Driver) (s : Server) (w : WorkerId) (sender : ServerWorker)
    (doc : QJsonObject) : Prop :=
  (∃ e, s.closeFile z d w sender doc = .error e ∧
    saveFile z d { s with mapFileWorkers := s.mapFileWorkers.erase sender.filename } = .error e) ∨
  ∃ s' outs message, s.closeFile z d w sender doc = .ok (s', outs) ∧
    ⟨w, .json message⟩ ∈ outs ∧ IsReply "close" true message ∧
    ¬ Registered s' w sender.filename

/-- The file that the worker has. -/
theorem closes_of_own (h : Registry s) (hw : s.clients[w]? = some sender)
    (hne : sender.filename ≠ []) (hfield : closeFileField doc = .ok sender.filename) :
    Closes z d s w sender doc := by
  have hfile : FileOf s w sender.filename := ⟨sender, hw, rfl⟩
  obtain ⟨workers, hl, hc⟩ := h.once w sender.filename hfile hne
  have hin : w ∈ workers := List.count_pos_iff.mp (by omega)
  have hout : ∀ {v}, v ∈ workers.erase w → v ≠ w ∧ v ∈ s.clients := by
    intro v hv
    obtain ⟨worker, hv', -⟩ := (h.own sender.filename workers v hl (List.mem_of_mem_erase hv)).2
    refine ⟨?_, Table.mem_of_getElem? hv'⟩
    intro he
    rw [he, ← List.count_pos_iff, List.count_erase_self, hc] at hv
    omega
  by_cases he : workers.erase w = []
  · have hleave : s.udpateSymbolListAndCommunicateDisconnection z d sender.filename w sender =
        (do
          let s ← saveFile z d { s with mapFileWorkers := s.mapFileWorkers.erase sender.filename }
          pure (some ({ s with
            symbolsList := s.symbolsList.erase sender.filename
            changed := s.changed.erase sender.filename }, []))) := by
      rw [udpateSymbolListAndCommunicateDisconnection, hl]
      dsimp only
      rw [if_neg (not_not.mpr hin), if_pos he]
    rw [Closes, closeFile, hfield]
    dsimp only
    rw [hleave]
    cases hsave : saveFile z d
        { s with mapFileWorkers := s.mapFileWorkers.erase sender.filename } with
    | error e => exact .inl ⟨e, rfl, rfl⟩
    | ok s1 =>
      refine .inr ⟨_, _, _, rfl, List.mem_append_right _ (List.mem_singleton.mpr rfl),
        isReply_accept _ _, ?_⟩
      intro hreg
      obtain ⟨list, hlist, -⟩ := hreg
      have hmap : s1.mapFileWorkers[sender.filename]? = some list := hlist
      rw [(saveFile_ok hsave).mapFileWorkers, Table.getElem?_erase, if_pos rfl] at hmap
      cases hmap
  · have hleave : ∃ outs,
        s.udpateSymbolListAndCommunicateDisconnection z d sender.filename w sender =
          .ok (some ({ s with mapFileWorkers :=
            s.mapFileWorkers.insert sender.filename (workers.erase w) }, outs)) := by
      rw [udpateSymbolListAndCommunicateDisconnection, hl]
      dsimp only
      rw [if_neg (not_not.mpr hin), if_neg he, broadcast, Table.getElem?_insert, if_pos rfl]
      dsimp only
      rw [if_pos (List.all_eq_true.mpr fun v hv => Std.TreeMap.contains_iff_mem.mpr
        (hout (List.mem_of_mem_filter hv)).2)]
      exact ⟨_, rfl⟩
    obtain ⟨outs, hleave⟩ := hleave
    rw [Closes, closeFile, hfield]
    dsimp only
    rw [hleave]
    refine .inr ⟨_, _, _, rfl, List.mem_append_right _ (List.mem_singleton.mpr rfl),
      isReply_accept _ _, ?_⟩
    intro hreg
    obtain ⟨list, hlist, hmem⟩ := hreg
    have hmap : (s.mapFileWorkers.insert sender.filename (workers.erase w))[sender.filename]? =
      some list := hlist
    rw [Table.getElem?_insert, if_pos rfl] at hmap
    obtain rfl := Option.some.inj hmap
    exact (hout hmem).1 rfl

/-- Another file. -/
theorem closeFile_of_other (h : Registry s) (hw : s.clients[w]? = some sender)
    (hfield : closeFileField doc = .ok filename) (hne : filename ≠ sender.filename) :
    s.closeFile z d w sender doc = .ok (s, [⟨w, .json (refuse "close" "File not exist")⟩]) := by
  have hleave : s.udpateSymbolListAndCommunicateDisconnection z d filename w sender =
      .ok none := by
    rw [udpateSymbolListAndCommunicateDisconnection]
    cases hl : s.mapFileWorkers[filename]? with
    | none => rfl
    | some workers =>
      have hin : w ∉ workers := fun hin =>
        hne (fileOf_unique (h.own filename workers w hl hin).2 ⟨sender, hw, rfl⟩)
      dsimp only
      rw [if_pos hin]
      rfl
  rw [closeFile, hfield]
  dsimp only
  rw [hleave]
  rfl

theorem not_closes_of_other (h : Registry s) (hw : s.clients[w]? = some sender)
    (hfield : closeFileField doc = .ok filename) (hne : filename ≠ sender.filename) :
    ¬ Closes z d s w sender doc := by
  have hclose := closeFile_of_other (z := z) (d := d) h hw hfield hne
  intro hc
  rcases hc with ⟨e, he, -⟩ | ⟨s', outs, message, he, hmem, hreply, -⟩
  · cases hclose.symm.trans he
  · obtain ⟨rfl, rfl⟩ := Prod.mk.inj (Except.ok.inj (hclose.symm.trans he))
    have hm : message = refuse "close" "File not exist" := by simpa using hmem
    have hok := hreply.success
    rw [hm] at hok
    cases hok

theorem createNewFileFields_message {text username : QString} (ht : text.simplified ≠ [])
    (hu : username.simplified ≠ []) : createNewFileFields (newFileMessage text username) =
      .ok (username.simplified, text.simplified) := by
  rw [createNewFileFields, textField_string (s := username) rfl hu,
    textField_string (s := text) rfl ht]
  rfl

/-- A file that is created has the worker under its key. -/
theorem registered_of_create {s' : Server} {message : QJsonObject} {text username : QString}
    (ht : text.simplified ≠ []) (hu : username.simplified ≠ [])
    (h : s.createNewFile d w sender (newFileMessage text username) = .ok (s', message))
    (hok : IsReply "new_file" true message) :
    s'.mapFileWorkers[fileKey text.simplified username.simplified]? = some [w] ∧
      FileOf s' w (fileKey text.simplified username.simplified) := by
  have hfields := createNewFileFields_message ht hu
  rcases createNewFile_ok h with ⟨⟨reason, he⟩, -⟩ | ⟨author, file, r, link, db', he, -, hcase⟩
  · cases hfields.symm.trans he
  · obtain ⟨rfl, rfl⟩ := Prod.mk.inj (Except.ok.inj (hfields.symm.trans he))
    rcases hcase with ⟨-, -, hno⟩ | ⟨-, hc, -⟩
    · cases hok.success.symm.trans hno.success
    · rw [hc.mapFileWorkers, Table.getElem?_insert, if_pos rfl]
      exact ⟨rfl, (fileOf_insert _ hc.clients).mpr (by rw [if_pos rfl])⟩

end Close

/-- **Create and close.** A new file is registered under its simplified name and the user. The key
that the client has closed later is the same, and the request to close succeeds, exactly if the name
that was typed in does not end in white space. -/
theorem new_file_closes_iff {text username : QString} (ht : text.simplified ≠ [])
    (hu : username.simplified = username) (hne : username ≠ []) :
    (∀ d s w sender s' message,
      Server.createNewFile d s w sender (newFileMessage text username) = .ok (s', message) →
      IsReply "new_file" true message →
      s'.mapFileWorkers[fileKey text.simplified username.simplified]? = some [w] ∧
        FileOf s' w (fileKey text.simplified username.simplified)) ∧
    ((Home.openedFile text username).simplified = fileKey text.simplified username.simplified ↔
      text.endsInSpace = false) ∧
    ∀ z d s w sender nickname, Registry s → s.clients[w]? = some sender →
      sender.filename = fileKey text.simplified username.simplified →
      QString.simplified nickname ≠ [] →
      (Closes z d s w sender (closeFileMessage (Home.openedFile text username) username nickname) ↔
        text.endsInSpace = false) := by
  have hu' : username.simplified ≠ [] := by rwa [hu]
  have hiff := simplified_openedFile_iff ht hu
  refine ⟨fun d s w sender s' message => registered_of_create ht hu', hiff, ?_⟩
  intro z d s w sender nickname hreg hw hfile hn
  have hopened : (Home.openedFile text username).simplified ≠ [] := by
    rw [simplified_openedFile ht hu]
    simp
  have hfield := closeFileField_message hopened hu' hn
  rw [← hiff, ← hfile]
  constructor
  · intro hc
    by_contra hother
    exact not_closes_of_other hreg hw hfield hother hc
  · intro hsame
    rw [hsame] at hfield
    exact closes_of_own hreg hw (hfile ▸ fileKey_ne_nil _ _) hfield

/-- A file with a name of two words is created, and closes. -/
theorem new_file_closes_words : ∃ h s,
    ServerRun .plain (.ofNames ["u"]) h s ∧
    s.clients[0]? = some ⟨QString.of "u", QString.of "u",
      fileKey (QString.of "my notes") (QString.of "u")⟩ ∧
    (Home.openedFile (QString.of " my  notes") (QString.of "u")).simplified =
      fileKey (QString.of "my notes") (QString.of "u") ∧
    Closes .plain .plain s 0
      ⟨QString.of "u", QString.of "u", fileKey (QString.of "my notes") (QString.of "u")⟩
      (closeFileMessage (Home.openedFile (QString.of " my  notes") (QString.of "u"))
        (QString.of "u") (QString.of "u")) := by
  have htext : (QString.of " my  notes").simplified = QString.of "my notes" := by decide +kernel
  have huser : (QString.of "u").simplified = QString.of "u" := by decide +kernel
  have hne : (QString.of " my  notes").simplified ≠ [] := by rw [htext]; decide
  have hend : (QString.of " my  notes").endsInSpace = false := by decide +kernel
  obtain ⟨-, hkey, hcloses⟩ := new_file_closes_iff hne huser (by decide)
  rw [htext, huser] at hkey hcloses
  obtain ⟨h, s, hrun, hP⟩ := exists_run .plain (.ofNames ["u"])
    (inputs [.incomingConnection 0, .jsonReceived 0 (loginDoc "u"),
      .jsonReceived 0 (newFileMessage (QString.of " my  notes") (QString.of "u"))])
    (P := fun h s => (h.all fun e => orderlyCheck e.before e.input) ∧
      s.clients[0]? = some ⟨QString.of "u", QString.of "u",
        fileKey (QString.of "my notes") (QString.of "u")⟩)
    (by decide +kernel)
  obtain ⟨hcheck, hw⟩ := of_decide_eq_true hP
  have hreg := registry_of_run hrun fun e he => orderly_of_check (List.all_eq_true.mp hcheck e he)
  exact ⟨h, s, hrun, hw, hkey.mpr hend,
    (hcloses .plain .plain s 0 _ (QString.of "u") hreg hw rfl (by rw [huser]; decide)).mpr hend⟩

/-- A space after the name: the worker stays registered. -/
theorem new_file_stays : ∃ text username : QString, text.simplified ≠ [] ∧
    username.simplified = username ∧ username ≠ [] ∧
    (Home.openedFile text username).simplified ≠
      fileKey text.simplified username.simplified ∧
    ∀ z d s w sender nickname, Registry s → s.clients[w]? = some sender →
      sender.filename = fileKey text.simplified username.simplified →
      QString.simplified nickname ≠ [] →
      s.closeFile z d w sender
          (closeFileMessage (Home.openedFile text username) username nickname) =
        .ok (s, [⟨w, .json (refuse "close" "File not exist")⟩]) := by
  have hkey : (Home.openedFile (QString.of "notes ") (QString.of "u")).simplified ≠
      fileKey (QString.of "notes ").simplified (QString.of "u").simplified := by decide +kernel
  refine ⟨QString.of "notes ", QString.of "u", by decide +kernel, by decide +kernel, by decide,
    hkey, ?_⟩
  intro z d s w sender nickname hreg hw hfile hn
  refine closeFile_of_other hreg hw (closeFileField_message ?_ ?_ hn) (hfile ▸ hkey)
  all_goals decide +kernel

end Scriba.System
