import Scriba.Utility.ByteReader

/-! # Progress of the reader

`onReadyRead_helper` calls itself after each frame it has taken off its data. Nothing but the
bytes taken off makes that end, and how many are taken off is decided by the size the peer
sent: `received_data.remove(0, 8 + json_size)`. `turn` is one pass of the body; the calls of
`parseJson` in a run are those of its passes (`Calls`). -/

namespace Scriba.Utility.Reader

variable {Object : Type} (fromJson : QByteArray → Parsed Object)

/-- The size that is compared with what has arrived. -/
def expected (r : Reader) (data : QByteArray) : UInt64 :=
  if r.expectedJsonSize = 0 then extractContentSize data else r.expectedJsonSize

/-- The data are taken for a complete frame. -/
def Complete (r : Reader) (data : QByteArray) : Prop :=
  8 ≤ data.length ∧ r.expected data > 0 ∧ UInt64.ofNat data.length ≥ r.expected data + 8

instance (r : Reader) (data : QByteArray) : Decidable (Complete r data) :=
  inferInstanceAs (Decidable (_ ∧ _ ∧ _))

/-- What is kept when no frame is taken. -/
def keep (r : Reader) (data : QByteArray) : Reader :=
  if data.length < 8 then ⟨data, r.expectedJsonSize⟩ else ⟨data, r.expected data⟩

/-- One pass of `onReadyRead_helper`. There is a callback exactly if the body calls itself. -/
def turn (available : QByteArray) (r : Reader) :
    Except ReaderFault (Reader × Option (Callback Object)) :=
  let data := r.receivedData ++ available
  if Complete r data then
    match parseJson fromJson data with
    | .error e => .error e
    | .ok none => .ok (r.keep data, none)
    | .ok (some (callback, rest)) => .ok (⟨rest, 0⟩, some callback)
  else .ok (r.keep data, none)

theorem keep_receivedData (r : Reader) (data : QByteArray) : (r.keep data).receivedData = data := by
  unfold keep
  split <;> rfl

theorem onReadyRead_succ (fuel : Nat) (available : QByteArray) (r : Reader) :
    onReadyRead fromJson (fuel + 1) available r =
      match turn fromJson available r with
      | .error e => .error e
      | .ok (r', none) => .ok (r', [])
      | .ok (r', some callback) =>
        match onReadyRead fromJson fuel [] r' with
        | .error e => .error e
        | .ok (r'', callbacks) => .ok (r'', callback :: callbacks) := by
  rw [onReadyRead, turn]
  by_cases h8 : (r.receivedData ++ available).length < 8
  · have hc : ¬ Complete r (r.receivedData ++ available) := fun h => absurd h.1 (by omega)
    simp only [if_pos h8, if_neg hc, keep]
    rfl
  · have hc : Complete r (r.receivedData ++ available) ↔
        r.expected (r.receivedData ++ available) > 0 ∧
          UInt64.ofNat (r.receivedData ++ available).length ≥
            r.expected (r.receivedData ++ available) + 8 :=
      and_iff_right (by omega)
    have hexp : (if r.expectedJsonSize = 0 then
        extractContentSize (r.receivedData ++ available) else r.expectedJsonSize) =
          r.expected (r.receivedData ++ available) := rfl
    simp only [if_neg h8, hexp, hc, keep]
    split_ifs with hcond
    · cases parseJson fromJson (r.receivedData ++ available) with
      | error e => rfl
      | ok parsed =>
        cases parsed with
        | none => rfl
        | some frame =>
          obtain ⟨callback, rest⟩ := frame
          simp only [bind, Except.bind]
          cases onReadyRead fromJson fuel [] ⟨rest, 0⟩ <;> rfl
    · rfl

/-- `parseJson` is called on `data` after `n` callbacks, while the chunks arrive. -/
inductive Calls : Nat → Reader → List QByteArray → QByteArray → Prop
  | here {r : Reader} {chunk : QByteArray} {chunks : List QByteArray} :
      Complete r (r.receivedData ++ chunk) →
      Calls 0 r (chunk :: chunks) (r.receivedData ++ chunk)
  | again {n : Nat} {r r' : Reader} {chunk data : QByteArray} {chunks : List QByteArray}
      {callback : Callback Object} : turn fromJson chunk r = .ok (r', some callback) →
      Calls n r' ([] :: chunks) data → Calls (n + 1) r (chunk :: chunks) data
  | next {n : Nat} {r r' : Reader} {chunk data : QByteArray} {chunks : List QByteArray} :
      turn fromJson chunk r = .ok (r', none) →
      Calls n r' chunks data → Calls n r (chunk :: chunks) data

/-- A frame that is taken without a byte being taken off: 8 more than its size is at most 0 as
an `int`. -/
def Runaway (data : QByteArray) : Prop :=
  ∃ jsonSize jsonData, readFrame data = some (jsonSize, jsonData) ∧ fromJson jsonData ≠ .other ∧
    QByteArray.toInt (8 + jsonSize) ≤ 0

/-- **Progress**: what is parsed gets shorter, every call returns, and there are fewer callbacks
than bytes. -/
structure Progress (chunks : List QByteArray) : Prop where
  removes : ∀ n data callback rest, Calls fromJson n .initial chunks data →
    parseJson fromJson data = .ok (some (callback, rest)) → rest.length < data.length
  returns : ∃ fuel, receive fromJson fuel .initial chunks ≠ .error .outOfFuel
  calls : ∀ n data, Calls fromJson n .initial chunks data → n < chunks.flatten.length
  callbacks : ∀ fuel r callbacks, receive fromJson fuel .initial chunks = .ok (r, callbacks) →
    callbacks.length ≤ chunks.flatten.length

variable {fromJson} {r : Reader} {data chunk : QByteArray} {chunks : List QByteArray} {n : Nat}

theorem length_of_readFrame {jsonSize : UInt64} {jsonData : QByteArray}
    (h : readFrame data = some (jsonSize, jsonData)) : 8 ≤ data.length := by
  by_contra hlt
  simp [readFrame, QDataStream.readQuint64, hlt] at h

/-- The three ends of `parseJson`. -/
theorem parseJson_spec (fromJson : QByteArray → Parsed Object) (data : QByteArray) :
    (readFrame data = none ∧ parseJson fromJson data = .ok none) ∨
    ∃ jsonSize jsonData, readFrame data = some (jsonSize, jsonData) ∧
      ((fromJson jsonData = .other ∧ parseJson fromJson data = .error .invalidJson) ∨
        (fromJson jsonData ≠ .other ∧ parseJson fromJson data =
          .ok (some (callback fromJson jsonData,
            QByteArray.removeFirst data (QByteArray.toInt (8 + jsonSize)))))) := by
  unfold parseJson
  cases hf : readFrame data with
  | none => exact .inl ⟨rfl, rfl⟩
  | some frame =>
    obtain ⟨jsonSize, jsonData⟩ := frame
    refine .inr ⟨jsonSize, jsonData, rfl, ?_⟩
    unfold callback
    dsimp only
    cases fromJson jsonData with
    | object o => exact .inr ⟨by simp, rfl⟩
    | error => exact .inr ⟨by simp, rfl⟩
    | other => exact .inl ⟨rfl, rfl⟩

theorem parseJson_eq_some {callback : Callback Object} {rest : QByteArray}
    (h : parseJson fromJson data = .ok (some (callback, rest))) :
    ∃ jsonSize jsonData, readFrame data = some (jsonSize, jsonData) ∧
      fromJson jsonData ≠ .other ∧
      rest = QByteArray.removeFirst data (QByteArray.toInt (8 + jsonSize)) := by
  obtain ⟨-, hp⟩ | ⟨jsonSize, jsonData, hf, ⟨-, hp⟩ | ⟨hj, hp⟩⟩ := parseJson_spec fromJson data
  · rw [hp] at h
    cases h
  · rw [hp] at h
    cases h
  · rw [hp] at h
    cases h
    exact ⟨jsonSize, jsonData, hf, hj, rfl⟩

theorem length_removeFirst_lt (h8 : 8 ≤ data.length) (len : Int) :
    (QByteArray.removeFirst data len).length < data.length ↔ 0 < len := by
  unfold QByteArray.removeFirst
  split_ifs with h
  · exact iff_of_false (lt_irrefl _) (by omega)
  · rw [List.length_drop]
    omega

/-- **One call** of `parseJson` takes bytes off exactly if the frame is no runaway. -/
theorem removes_iff {callback : Callback Object} {rest : QByteArray}
    (h : parseJson fromJson data = .ok (some (callback, rest))) :
    rest.length < data.length ↔ ¬ Runaway fromJson data := by
  obtain ⟨jsonSize, jsonData, hf, hj, rfl⟩ := parseJson_eq_some h
  rw [length_removeFirst_lt (length_of_readFrame hf)]
  refine ⟨?_, fun hr => ?_⟩
  · intro hlt hex
    obtain ⟨size', data', hf', -, hle⟩ := hex
    rw [hf] at hf'
    cases hf'
    omega
  · by_contra hle
    exact hr ⟨jsonSize, jsonData, hf, hj, by omega⟩

theorem turn_none {r' : Reader} (h : turn fromJson chunk r = .ok (r', none)) :
    r'.receivedData = r.receivedData ++ chunk := by
  unfold turn at h
  dsimp only at h
  split_ifs at h with hc
  · split at h
    · cases h
    · cases h
      exact keep_receivedData _ _
    · cases h
  · cases h
    exact keep_receivedData _ _

theorem turn_some {r' : Reader} {callback : Callback Object}
    (h : turn fromJson chunk r = .ok (r', some callback)) :
    Complete r (r.receivedData ++ chunk) ∧ ∃ rest, r' = ⟨rest, 0⟩ ∧
      parseJson fromJson (r.receivedData ++ chunk) = .ok (some (callback, rest)) := by
  unfold turn at h
  dsimp only at h
  split_ifs at h with hc
  · split at h
    · cases h
    · cases h
    next hp =>
      cases h
      exact ⟨hc, _, rfl, hp⟩
  · cases h

theorem turn_ne_outOfFuel : turn fromJson chunk r ≠ .error .outOfFuel := by
  intro h
  unfold turn at h
  dsimp only at h
  obtain ⟨-, hp⟩ | ⟨_, _, -, ⟨-, hp⟩ | ⟨-, hp⟩⟩ :=
    parseJson_spec fromJson (r.receivedData ++ chunk)
  all_goals
    rw [hp] at h
    split_ifs at h <;> cases h

/-- A pass with a callback leaves fewer bytes, if its frame is no runaway. -/
theorem turn_lt {r' : Reader} {callback : Callback Object}
    (h : turn fromJson chunk r = .ok (r', some callback))
    (hr : ¬ Runaway fromJson (r.receivedData ++ chunk)) :
    r'.receivedData.length < (r.receivedData ++ chunk).length := by
  obtain ⟨-, rest, rfl, hp⟩ := turn_some h
  exact (removes_iff hp).mpr hr

/-- A call that has more fuel than bytes returns. -/
theorem onReadyRead_ne_outOfFuel {fuel : Nat}
    (h : ∀ n data, Calls fromJson n r (chunk :: chunks) data → ¬ Runaway fromJson data)
    (hfuel : (r.receivedData ++ chunk).length < fuel) :
    onReadyRead fromJson fuel chunk r ≠ .error .outOfFuel := by
  induction fuel generalizing r chunk with
  | zero => omega
  | succ fuel ih =>
    rw [onReadyRead_succ]
    cases ht : turn fromJson chunk r with
    | error e =>
      have hne : e ≠ .outOfFuel := fun he => turn_ne_outOfFuel (he ▸ ht)
      simpa using hne
    | ok passed =>
      obtain ⟨r', callback⟩ := passed
      cases callback with
      | none => simp
      | some callback =>
        have hlt := turn_lt ht (h 0 _ (.here (turn_some ht).1))
        have hrest : onReadyRead fromJson fuel [] r' ≠ .error .outOfFuel :=
          ih (fun n data hc => h (n + 1) data (.again ht hc)) (by rw [List.append_nil]; omega)
        dsimp only
        cases hr : onReadyRead fromJson fuel [] r' with
        | error e => simpa [hr] using hrest
        | ok result => simp

/-- What a call that returns leaves, and which calls of `parseJson` come after it. -/
theorem onReadyRead_ok {fuel : Nat} {r' : Reader} {callbacks : List (Callback Object)}
    (h : ∀ n data, Calls fromJson n r (chunk :: chunks) data → ¬ Runaway fromJson data)
    (hok : onReadyRead fromJson fuel chunk r = .ok (r', callbacks)) :
    r'.receivedData.length + callbacks.length ≤ (r.receivedData ++ chunk).length ∧
      ∀ n data, Calls fromJson n r' chunks data →
        Calls fromJson (callbacks.length + n) r (chunk :: chunks) data := by
  induction fuel generalizing r chunk callbacks with
  | zero => cases hok
  | succ fuel ih =>
    rw [onReadyRead_succ] at hok
    split at hok
    · cases hok
    next ht =>
      cases hok
      refine ⟨?_, fun n data hc => ?_⟩
      · rw [turn_none ht, List.length_nil, Nat.add_zero]
      · rw [List.length_nil, Nat.zero_add]
        exact .next ht hc
    next r1 callback ht =>
      split at hok
      · cases hok
      next callbacks' hr =>
        cases hok
        have hlt := turn_lt ht (h 0 _ (.here (turn_some ht).1))
        obtain ⟨hle, hcalls⟩ :=
          ih (fun n data hc => h (n + 1) data (.again ht hc)) hr
        rw [List.append_nil] at hle
        refine ⟨by rw [List.length_cons]; omega, fun n data hc => ?_⟩
        have hn : (callback :: callbacks').length + n = callbacks'.length + n + 1 := by
          rw [List.length_cons]
          omega
        exact hn ▸ .again ht (hcalls n data hc)

theorem receive_ne_outOfFuel {fuel : Nat}
    (h : ∀ n data, Calls fromJson n r chunks data → ¬ Runaway fromJson data)
    (hfuel : r.receivedData.length + chunks.flatten.length < fuel) :
    receive fromJson fuel r chunks ≠ .error .outOfFuel := by
  induction chunks generalizing r with
  | nil => simp [receive, pure, Except.pure]
  | cons chunk chunks ih =>
    rw [List.flatten_cons, List.length_append] at hfuel
    have hne : onReadyRead fromJson fuel chunk r ≠ .error .outOfFuel :=
      onReadyRead_ne_outOfFuel h (by rw [List.length_append]; omega)
    rw [receive]
    cases hok : onReadyRead fromJson fuel chunk r with
    | error e => simpa [hok, bind, Except.bind] using hne
    | ok result =>
      obtain ⟨r', callbacks⟩ := result
      obtain ⟨hle, hcalls⟩ := onReadyRead_ok h hok
      rw [List.length_append] at hle
      have hrest := ih (r := r') (fun n data hc => h _ data (hcalls n data hc)) (by omega)
      simp only [bind, Except.bind]
      cases hr : receive fromJson fuel r' chunks with
      | error e => simpa [hr] using hrest
      | ok result => simp [pure, Except.pure]

theorem receive_callbacks {fuel : Nat} {r' : Reader} {callbacks : List (Callback Object)}
    (h : ∀ n data, Calls fromJson n r chunks data → ¬ Runaway fromJson data)
    (hok : receive fromJson fuel r chunks = .ok (r', callbacks)) :
    callbacks.length ≤ r.receivedData.length + chunks.flatten.length := by
  induction chunks generalizing r callbacks with
  | nil =>
    cases hok
    simp
  | cons chunk chunks ih =>
    rw [receive] at hok
    cases hr : onReadyRead fromJson fuel chunk r with
    | error e => simp [hr, bind, Except.bind] at hok
    | ok result =>
      obtain ⟨r1, callbacks1⟩ := result
      obtain ⟨hle, hcalls⟩ := onReadyRead_ok h hr
      simp only [hr, bind, Except.bind] at hok
      cases hr2 : receive fromJson fuel r1 chunks with
      | error e => simp [hr2] at hok
      | ok result =>
        obtain ⟨r2, callbacks2⟩ := result
        have hrest : callbacks2.length ≤ r1.receivedData.length + chunks.flatten.length := by
          refine ih (fun n data hc => h _ data (hcalls n data hc)) (hr2.trans ?_)
          simp only [hr2, pure, Except.pure, Except.ok.injEq, Prod.mk.injEq] at hok
          rw [hok.1]
        simp only [hr2, pure, Except.pure, Except.ok.injEq, Prod.mk.injEq] at hok
        rw [← hok.2, List.length_append, List.flatten_cons, List.length_append]
        rw [List.length_append] at hle
        omega

/-- Each callback before a call has taken a byte off. -/
theorem Calls.le (hcall : Calls fromJson n r chunks data)
    (h : ∀ n data, Calls fromJson n r chunks data → ¬ Runaway fromJson data) :
    n + data.length ≤ r.receivedData.length + chunks.flatten.length ∧ 8 ≤ data.length := by
  induction hcall with
  | here hc =>
    refine ⟨?_, hc.1⟩
    simp only [List.flatten_cons, List.length_append]
    omega
  | again ht hcall ih =>
    have hlt := turn_lt ht (h 0 _ (.here (turn_some ht).1))
    obtain ⟨hle, h8⟩ := ih fun n data hc => h (n + 1) data (.again ht hc)
    simp only [List.flatten_cons, List.length_append, List.length_nil] at hle hlt ⊢
    omega
  | next ht hcall ih =>
    obtain ⟨hle, h8⟩ := ih fun n data hc => h n data (.next ht hc)
    rw [turn_none ht] at hle
    simp only [List.flatten_cons, List.length_append] at hle ⊢
    omega

/-- **The reader makes progress** on what a peer sends exactly if no frame is a runaway. -/
theorem progress_iff (fromJson : QByteArray → Parsed Object) (chunks : List QByteArray) :
    Progress fromJson chunks ↔
      ∀ n data, Calls fromJson n .initial chunks data → ¬ Runaway fromJson data := by
  constructor
  · intro hp n data hcall hrun
    obtain ⟨jsonSize, jsonData, hf, hj, hle⟩ := hrun
    obtain ⟨hf', -⟩ | ⟨_, _, hf', ⟨ho, -⟩ | ⟨-, hparse⟩⟩ := parseJson_spec fromJson data
    · rw [hf] at hf'
      cases hf'
    · rw [hf] at hf'
      cases hf'
      exact hj ho
    · have hlt := hp.removes n data _ _ hcall hparse
      exact (removes_iff hparse).mp hlt ⟨jsonSize, jsonData, hf, hj, hle⟩
  · intro h
    have hlen : Reader.initial.receivedData.length = 0 := rfl
    have hfuel : Reader.initial.receivedData.length + chunks.flatten.length <
        chunks.flatten.length + 1 := by omega
    refine ⟨fun n data callback rest hcall hparse => (removes_iff hparse).mpr (h n data hcall),
      ⟨_, receive_ne_outOfFuel h hfuel⟩, fun n data hcall => ?_, fun fuel r callbacks hok => ?_⟩
    · obtain ⟨hle, h8⟩ := hcall.le h
      omega
    · have hle := receive_callbacks h hok
      omega

/-! ## Which size it is -/

/-- The size that is known is the one at the front. -/
def Sized (r : Reader) : Prop :=
  r.expectedJsonSize ≠ 0 →
    8 ≤ r.receivedData.length ∧ r.expectedJsonSize = extractContentSize r.receivedData

theorem extractContentSize_append (h8 : 8 ≤ data.length) (chunk : QByteArray) :
    extractContentSize (data ++ chunk) = extractContentSize data := by
  have h8' : 8 ≤ (data ++ chunk).length := by
    rw [List.length_append]
    omega
  rw [extractContentSize, extractContentSize, QDataStream.readQuint64, QDataStream.readQuint64,
    if_pos h8, if_pos h8', List.take_append_of_le_length h8]
  rfl

theorem Sized.expected (h : r.Sized) (chunk : QByteArray) :
    r.expected (r.receivedData ++ chunk) = extractContentSize (r.receivedData ++ chunk) := by
  unfold Reader.expected
  split_ifs with h0
  · rfl
  · obtain ⟨h8, he⟩ := h h0
    rw [extractContentSize_append h8, he]

theorem Sized.keep (h : r.Sized) (chunk : QByteArray) :
    (r.keep (r.receivedData ++ chunk)).Sized := by
  unfold Reader.keep
  split_ifs with h8
  · intro h0
    obtain ⟨hlen, -⟩ := h h0
    rw [List.length_append] at h8
    omega
  · exact fun _ => ⟨by simpa using h8, h.expected chunk⟩

theorem Sized.turn {r' : Reader} {callback : Option (Callback Object)} (h : r.Sized)
    (ht : turn fromJson chunk r = .ok (r', callback)) : r'.Sized := by
  cases callback with
  | some callback =>
    obtain ⟨-, rest, rfl, -⟩ := turn_some ht
    exact fun h0 => absurd rfl h0
  | none =>
    unfold Reader.turn at ht
    dsimp only at ht
    split_ifs at ht with hc
    · split at ht
      · cases ht
      · cases ht
        exact h.keep chunk
      · cases ht
    · cases ht
      exact h.keep chunk

/-- A frame is only looked at once 8 more than its size, modulo 2^64, have arrived. -/
theorem Calls.complete (hcall : Calls fromJson n r chunks data) (h : r.Sized) :
    UInt64.ofNat data.length ≥ extractContentSize data + 8 := by
  induction hcall with
  | here hc => exact h.expected _ ▸ hc.2.2
  | again ht hcall ih => exact ih (h.turn ht)
  | next ht hcall ih => exact ih (h.turn ht)

/-- **What a runaway is**: no `QByteArray` holds more than 2^31 - 1 bytes, so that the size is
2^64 - 8. -/
theorem runaway_iff (hcall : Calls fromJson n .initial chunks data) (hlen : data.length < 2 ^ 31) :
    Runaway fromJson data ↔ ∃ jsonData,
      readFrame data = some (0xfffffffffffffff8, jsonData) ∧ fromJson jsonData ≠ .other := by
  have hsize : ∀ {jsonSize jsonData}, readFrame data = some (jsonSize, jsonData) →
      jsonSize = extractContentSize data := by
    intro jsonSize jsonData hf
    unfold readFrame at hf
    cases hq : QDataStream.readQuint64 data with
    | none => simp [hq] at hf
    | some read =>
      simp only [hq, Option.bind_eq_bind, Option.bind_some, Option.bind_eq_some_iff,
        Option.some.injEq, Prod.mk.injEq] at hf
      obtain ⟨-, -, he, -⟩ := hf
      rw [extractContentSize, hq, ← he]
      rfl
  have hge := hcall.complete fun h0 => absurd rfl h0
  constructor
  · intro h
    obtain ⟨jsonSize, jsonData, hf, hj, hle⟩ := h
    obtain rfl := hsize hf
    refine ⟨jsonData, ?_, hj⟩
    have hsum : (8 + extractContentSize data).toNat < 2 ^ 31 := by
      rw [ge_iff_le, UInt64.le_iff_toNat_le, UInt64.toNat_ofNat', UInt64.add_comm] at hge
      omega
    rw [toInt_of_lt hsum, UInt64.toNat_add] at hle
    have hval : extractContentSize data = 0xfffffffffffffff8 := by
      refine UInt64.toNat_inj.mp ?_
      have hlt := (extractContentSize data).toNat_lt
      have h8 : (8 : UInt64).toNat = 8 := rfl
      have hv : (0xfffffffffffffff8 : UInt64).toNat = 2 ^ 64 - 8 := rfl
      omega
    rw [hf, hval]
  · intro h
    obtain ⟨jsonData, hf, hj⟩ := h
    exact ⟨_, jsonData, hf, hj, by decide⟩

/-- The size 2^64 - 8 and an empty array. -/
def runawayFrame : QByteArray := [0xff, 0xff, 0xff, 0xff, 0xff, 0xff, 0xff, 0xf8, 0, 0, 0, 0]

/-- The reader takes that frame again and again; its content is no JSON text. -/
theorem not_progress_runaway :
    ¬ Progress (fun _ => (.error : Parsed Unit)) [runawayFrame] ∧
      ∀ fuel, receive (fun _ => (.error : Parsed Unit)) fuel .initial [runawayFrame] =
        .error .outOfFuel := by
  have hturn : ∀ r : Reader, ∀ chunk, r.receivedData ++ chunk = runawayFrame →
      r.expectedJsonSize = 0 → turn (fun _ => (.error : Parsed Unit)) chunk r =
        .ok (⟨runawayFrame, 0⟩, some (.byteArrayReceived [])) := by
    intro r chunk hr h0
    have hc : Complete r runawayFrame := by
      unfold Complete Reader.expected
      rw [if_pos h0]
      decide +kernel
    have hp : parseJson (fun _ => (.error : Parsed Unit)) runawayFrame =
        .ok (some (.byteArrayReceived [], runawayFrame)) := by decide +kernel
    simp only [turn, hr, if_pos hc, hp]
  have hloop : ∀ fuel (r : Reader) chunk, r.receivedData ++ chunk = runawayFrame →
      r.expectedJsonSize = 0 →
        onReadyRead (fun _ => (.error : Parsed Unit)) fuel chunk r = .error .outOfFuel := by
    intro fuel
    induction fuel with
    | zero => exact fun r chunk _ _ => rfl
    | succ fuel ih =>
      intro r chunk hr h0
      rw [onReadyRead_succ, hturn r chunk hr h0]
      simp only [ih ⟨runawayFrame, 0⟩ [] (List.append_nil _) rfl]
  have hreceive : ∀ fuel, receive (fun _ => (.error : Parsed Unit)) fuel .initial [runawayFrame] =
      .error .outOfFuel := by
    intro fuel
    rw [receive, hloop fuel .initial runawayFrame rfl rfl]
    rfl
  refine ⟨fun h => ?_, hreceive⟩
  obtain ⟨fuel, hne⟩ := h.returns
  exact hne (hreceive fuel)

end Scriba.Utility.Reader
