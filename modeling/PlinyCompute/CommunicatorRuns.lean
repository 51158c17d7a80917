import PlinyCompute.Communicator

namespace PlinyCompute.Communication

open BinaryFormat ByteStream Transition
open LogicalPlan (Text)
open PDBCommunicator (getSizeOfNextObject couldNotRead doTheRead skipTheRead)
open Follows (ok error)

inductive Cut
  | header (part : List UInt8) (short : part.length < 10)
  | payload (m : Message) (part : List UInt8) (short : part.length < m.payload.length)

def Cut.bytes : Cut → List UInt8
  | .header part _ => part
  | .payload m part _ => m.header ++ part

inductive Line
  | between (messages : List Message) (cut : Cut)
  -- the type and the size of the first message have been read
  | begun (m : Message) (messages : List Message) (cut : Cut)
  | torn (m : Message) (part : List UInt8) (short : part.length < m.payload.length)
  | gone

namespace Line

variable (ending : Ending)

def cutOff {α : Type} (a : α) : Except Stop (Line × α) :=
  match ending with
  | .waiting => .error .waits
  | _ => .ok (.gone, a)

def glimpse (part : List UInt8) : ℕ := if ending = .failed ∧ 2 ≤ part.length then fromLE (part.take 2) else NoMsg_TYPEID

def peek : Line → Except Stop (Line × ℕ × ℕ)
  | .between (m :: ms) cut => .ok (.begun m ms cut, m.size, m.typeID)
  | .between [] (.payload m part short) => .ok (.torn m part short, m.size, m.typeID)
  | .between [] (.header part _) => cutOff ending (0, glimpse ending part)
  | .begun m ms cut => .ok (.begun m ms cut, m.size, m.typeID)
  | .torn m part short => .ok (.torn m part short, m.size, m.typeID)
  | .gone => .ok (.gone, 0, NoMsg_TYPEID)

def takeObject (noSize : Text) : Line → Except Stop (Line × Except Text (List UInt8))
  | .begun (.object _ record) ms cut => .ok (.between ms cut, .ok record.bytes)
  | .torn (.object _ _) _ _ => cutOff ending (.error couldNotRead)
  | .gone => .ok (.gone, .error noSize)
  | _ => .error .outOfStep

def takeBytes : Line → Except Stop (Line × Except Text (List UInt8))
  | .begun (.block data) ms cut => .ok (.between ms cut, .ok data.data)
  | .torn (.block _) _ _ => cutOff ending (.error couldNotRead)
  | .gone => .ok (.gone, .ok [])
  | _ => .error .outOfStep

def step : PDBCommunicator.Call → Line → Except Stop (Line × PDBCommunicator.Answer)
  | .getSizeOfNextObject, l => do
    let (l, size, _) ← l.peek ending
    .ok (l, .size size)
  | .getObjectTypeID, l => do
    let (l, _, typeID) ← l.peek ending
    .ok (l, .typeID typeID)
  | .getNextObjectAt, l => do
    let (l, _) ← l.peek ending
    let (l, r) ← l.takeObject ending "Could not read the the object size".toList
    .ok (l, .record r)
  | .getNextObject, l => do
    let (l, _) ← l.peek ending
    let (l, r) ← l.takeObject ending "Could not read the object size".toList
    .ok (l, .record r)
  | .receiveBytes, l => do
    let (l, _) ← l.peek ending
    let (l, r) ← l.takeBytes ending
    .ok (l, .bytes r)
  | .skipBytes, l => do
    let (l, _) ← l.peek ending
    let (l, r) ← l.takeBytes ending
    .ok (l, .skipped (r.map fun _ => ()))

def Carries : Line → PDBCommunicator → Prop
  | .between ms cut, c => c.socketClosed = false ∧ c.readCurMsgSize = false ∧
      c.incoming.whole = ⟨ms.flatMap Message.bytes ++ cut.bytes, ending⟩
  | .begun m ms cut, c => c.socketClosed = false ∧ c.readCurMsgSize = true ∧ c.msgSize = m.size ∧
      c.nextTypeID = m.typeID ∧ c.incoming.whole = ⟨m.payload ++ (ms.flatMap Message.bytes ++ cut.bytes), ending⟩
  | .torn m part _, c => c.socketClosed = false ∧ c.readCurMsgSize = true ∧ c.msgSize = m.size ∧
      c.nextTypeID = m.typeID ∧ c.incoming.whole = ⟨part, ending⟩
  | .gone, c => c.socketClosed = true ∧ c.readCurMsgSize = false

end Line

section Calls

variable {l : Line} {c : PDBCommunicator} {ending : Ending}

def Line.size : Line → ℕ
  | .between _ _ => 0
  | .begun m _ _ => m.size
  | .torn m _ _ => m.size
  | .gone => 0

def Peeked (ending : Ending) (a : Line × ℕ × ℕ) (b : PDBCommunicator × ℕ) : Prop :=
  a.1.Carries ending b.1 ∧ b.2 = a.2.1 ∧ b.1.msgSize = a.1.size ∧ b.1.nextTypeID = a.2.2

theorem getSizeOfNextObject_header (m : Message) {rest : List UInt8} (hopen : c.socketClosed = false)
    (hread : c.readCurMsgSize = false) (h : c.incoming.whole = ⟨m.header ++ rest, ending⟩) :
    ∃ incoming, c.getSizeOfNextObject = .ok ({ c with
        incoming, nextTypeID := m.typeID, msgSize := m.size, readCurMsgSize := true }, m.size) ∧
      incoming.whole = ⟨rest, ending⟩ := by
  rw [Message.header, List.append_assoc] at h
  obtain ⟨incoming, htype, h'⟩ := readLoop_whole hopen limits_id h (length_putLE 2 m.typeID)
  obtain ⟨incoming', hsize, h''⟩ := readLoop_whole (c := { c with incoming, nextTypeID := m.typeID }) hopen limits_id h'
    (length_putLE 8 m.size)
  have ht : fromLE (putLE 2 m.typeID) = m.typeID := fromLE_putLE (m.typeID_lt.trans (by decide))
  have hs : fromLE (putLE 8 m.size) = m.size := fromLE_putLE (m.size_lt.trans (by decide))
  refine ⟨incoming', ?_, h''⟩
  rw [getSizeOfNextObject, hread, if_neg Bool.false_ne_true, htype, ok_bind]
  simp only [ht]
  rw [hsize, ok_bind]
  simp only [hs]

theorem getSizeOfNextObject_short {part : List UInt8} (hopen : c.socketClosed = false) (hread : c.readCurMsgSize = false)
    (h : c.incoming.whole = ⟨part, ending⟩) (hshort : part.length < 10) (hends : ending ≠ .waiting) :
    ∃ c', c.getSizeOfNextObject = .ok (c', 0) ∧ c'.socketClosed = true ∧ c'.readCurMsgSize = false ∧ c'.msgSize = 0 ∧
      c'.nextTypeID = Line.glimpse ending part := by
  rw [getSizeOfNextObject, hread, if_neg Bool.false_ne_true]
  by_cases htwo : part.length < 2
  · have hg : Line.glimpse ending part = NoMsg_TYPEID := if_neg fun hg => by omega
    obtain ⟨-, hw⟩ | ⟨ended, incoming, hr, -, hended⟩ := readLoop_cut hopen limits_id h htwo
    · exact absurd hw hends
    · rw [hr, ok_bind, hg]
      obtain ⟨rfl, -⟩ | ⟨rfl, -⟩ := hended <;> exact ⟨_, rfl, rfl, hread, rfl, rfl⟩
  · rw [← List.take_append_drop 2 part] at h
    have htake : (part.take 2).length = 2 := by
      rw [List.length_take]
      omega
    have hdrop : (part.drop 2).length < 8 := by
      rw [List.length_drop]
      omega
    obtain ⟨incoming, htype, h'⟩ := readLoop_whole hopen limits_id h htake
    rw [htype, ok_bind]
    dsimp only
    obtain ⟨-, hw⟩ | ⟨ended, incoming', hr, -, hended⟩ :=
      readLoop_cut (c := { c with incoming, nextTypeID := fromLE (part.take 2) }) hopen limits_id h' hdrop
    · exact absurd hw hends
    · rw [hr, ok_bind]
      obtain ⟨rfl, rfl⟩ | ⟨rfl, rfl⟩ := hended
      · have hg : Line.glimpse .closed part = NoMsg_TYPEID := if_neg fun hg => by simp at hg
        rw [hg]
        exact ⟨_, rfl, rfl, hread, rfl, rfl⟩
      · have hg : Line.glimpse .failed part = fromLE (part.take 2) := if_pos ⟨rfl, by omega⟩
        rw [hg]
        exact ⟨_, rfl, rfl, hread, rfl, rfl⟩

theorem getSizeOfNextObject_closed (hclosed : c.socketClosed = true) (hread : c.readCurMsgSize = false) :
    ∃ c', c.getSizeOfNextObject = .ok (c', 0) ∧ c'.socketClosed = true ∧ c'.readCurMsgSize = false ∧ c'.msgSize = 0 ∧
      c'.nextTypeID = NoMsg_TYPEID := by
  rw [getSizeOfNextObject, hread, if_neg Bool.false_ne_true, readLoop_closed hclosed (by decide), ok_bind]
  exact ⟨_, rfl, rfl, hread, rfl, rfl⟩

theorem getSizeOfNextObject_follows (h : l.Carries ending c) :
    Follows (Peeked ending) (l.peek ending) c.getSizeOfNextObject := by
  have hgot {m : Message} (hm : c.msgSize = m.size) (hr : c.readCurMsgSize = true) :
      c.getSizeOfNextObject = .ok (c, m.size) := by
    rw [getSizeOfNextObject, if_pos hr, hm]
  cases l with
  | between ms cut =>
    obtain ⟨hopen, hread, h⟩ := h
    cases ms with
    | cons m ms =>
      rw [List.flatMap_cons, Message.bytes_eq, List.append_assoc, List.append_assoc] at h
      obtain ⟨incoming, hr, h'⟩ := getSizeOfNextObject_header m hopen hread h
      rw [hr]
      exact ok ⟨⟨hopen, rfl, rfl, rfl, h'⟩, rfl, rfl, rfl⟩
    | nil =>
      rw [List.flatMap_nil, List.nil_append] at h
      cases cut with
      | header part hshort =>
        intro a ha
        have hends : ending ≠ .waiting ∧ a = (.gone, 0, Line.glimpse ending part) := by
          cases ending <;> simp_all [Line.peek, Line.cutOff]
        obtain ⟨hends, rfl⟩ := hends
        obtain ⟨c', hr, hclosed, hread', hsize, htype⟩ := getSizeOfNextObject_short hopen hread h hshort hends
        exact ⟨_, hr, ⟨hclosed, hread'⟩, rfl, hsize, htype⟩
      | payload m part hshort =>
        obtain ⟨incoming, hr, h'⟩ := getSizeOfNextObject_header m hopen hread h
        rw [hr]
        exact ok ⟨⟨hopen, rfl, rfl, rfl, h'⟩, rfl, rfl, rfl⟩
  | begun m ms cut =>
    rw [hgot h.2.2.1 h.2.1]
    exact ok ⟨h, rfl, h.2.2.1, h.2.2.2.1⟩
  | torn m part hshort =>
    rw [hgot h.2.2.1 h.2.1]
    exact ok ⟨h, rfl, h.2.2.1, h.2.2.2.1⟩
  | gone =>
    obtain ⟨c', hr, hclosed, hread', hsize, htype⟩ := getSizeOfNextObject_closed h.1 h.2
    rw [hr]
    exact ok ⟨⟨hclosed, hread'⟩, rfl, hsize, htype⟩

theorem limits_chunk : Limits PDBCommunicator.chunk := limits_min (by decide)

variable {bytes rest : List UInt8}

theorem doTheRead_whole (hopen : c.socketClosed = false) (hread : c.readCurMsgSize = true)
    (h : c.incoming.whole = ⟨bytes ++ rest, ending⟩) (hsize : bytes.length = c.msgSize) (hsmall : c.msgSize < 2 ^ 63) :
    ∃ incoming, c.doTheRead = .ok ({ c with incoming, readCurMsgSize := false }, some bytes) ∧
      incoming.whole = ⟨rest, ending⟩ := by
  obtain ⟨incoming, hr, h'⟩ := readLoop_whole (c := { c with readCurMsgSize := false }) hopen limits_id h hsize
  refine ⟨incoming, ?_, h'⟩
  rw [doTheRead, getSizeOfNextObject, if_pos hread, ok_bind]
  dsimp only
  rw [if_pos hsmall, hr, ok_bind]

theorem doTheRead_cut (hopen : c.socketClosed = false) (hread : c.readCurMsgSize = true)
    (h : c.incoming.whole = ⟨bytes, ending⟩) (hsize : bytes.length < c.msgSize) (hsmall : c.msgSize < 2 ^ 63)
    (hends : ending ≠ .waiting) :
    ∃ c', c.doTheRead = .ok (c', none) ∧ c'.socketClosed = true ∧ c'.readCurMsgSize = false := by
  rw [doTheRead, getSizeOfNextObject, if_pos hread, ok_bind]
  dsimp only
  rw [if_pos hsmall]
  obtain ⟨-, hw⟩ | ⟨ended, incoming, hr, -, hended⟩ :=
    readLoop_cut (c := { c with readCurMsgSize := false }) hopen limits_id h hsize
  · exact absurd hw hends
  · rw [hr, ok_bind]
    obtain ⟨rfl, -⟩ | ⟨rfl, -⟩ := hended <;> exact ⟨_, rfl, rfl, rfl⟩

theorem doTheRead_closed (hclosed : c.socketClosed = true) (hread : c.readCurMsgSize = false) :
    ∃ c', c.doTheRead = .ok (c', some []) ∧ c'.socketClosed = true ∧ c'.readCurMsgSize = false := by
  obtain ⟨c', hr, hclosed', hread', hsize, -⟩ := getSizeOfNextObject_closed hclosed hread
  rw [doTheRead, hr, ok_bind]
  simp only [hsize, if_pos (Nat.two_pow_pos 63)]
  rw [PDBCommunicator.readLoop, if_pos hclosed', if_pos rfl, ok_bind]
  exact ⟨_, rfl, hclosed', rfl⟩

theorem skipTheRead_whole (hopen : c.socketClosed = false) (hread : c.readCurMsgSize = true)
    (h : c.incoming.whole = ⟨bytes ++ rest, ending⟩) (hsize : bytes.length = c.msgSize) :
    ∃ incoming, c.skipTheRead = .ok ({ c with incoming, readCurMsgSize := false }, true) ∧
      incoming.whole = ⟨rest, ending⟩ := by
  obtain ⟨incoming, hr, h'⟩ := readLoop_whole (c := { c with readCurMsgSize := false }) hopen limits_chunk h hsize
  refine ⟨incoming, ?_, h'⟩
  rw [skipTheRead, getSizeOfNextObject, if_pos hread, ok_bind]
  dsimp only
  rw [hr, ok_bind]

theorem skipTheRead_cut (hopen : c.socketClosed = false) (hread : c.readCurMsgSize = true)
    (h : c.incoming.whole = ⟨bytes, ending⟩) (hsize : bytes.length < c.msgSize) (hends : ending ≠ .waiting) :
    ∃ c', c.skipTheRead = .ok (c', false) ∧ c'.socketClosed = true ∧ c'.readCurMsgSize = false := by
  rw [skipTheRead, getSizeOfNextObject, if_pos hread, ok_bind]
  dsimp only
  obtain ⟨-, hw⟩ | ⟨ended, incoming, hr, -, hended⟩ :=
    readLoop_cut (c := { c with readCurMsgSize := false }) hopen limits_chunk h hsize
  · exact absurd hw hends
  · rw [hr, ok_bind]
    obtain ⟨rfl, -⟩ | ⟨rfl, -⟩ := hended <;> exact ⟨_, rfl, rfl, rfl⟩

theorem skipTheRead_closed (hclosed : c.socketClosed = true) (hread : c.readCurMsgSize = false) :
    ∃ c', c.skipTheRead = .ok (c', true) ∧ c'.socketClosed = true ∧ c'.readCurMsgSize = false := by
  obtain ⟨c', hr, hclosed', hread', hsize, -⟩ := getSizeOfNextObject_closed hclosed hread
  rw [skipTheRead, hr, ok_bind]
  simp only [hsize]
  rw [PDBCommunicator.readLoop, if_pos hclosed', if_pos rfl, ok_bind]
  exact ⟨_, rfl, hclosed', rfl⟩

def Matched {α : Type} (ending : Ending) (a : Line × α) (b : PDBCommunicator × α) : Prop :=
  a.1.Carries ending b.1 ∧ a.2 = b.2

theorem cutOff_follows {α : Type} {a : α} {x : Except Stop (PDBCommunicator × α)}
    (h : ending ≠ .waiting → ∃ c', x = .ok (c', a) ∧ c'.socketClosed = true ∧ c'.readCurMsgSize = false) :
    Follows (Matched ending) (Line.cutOff ending a) x := by
  intro b hb
  have hends : ending ≠ .waiting ∧ b = (.gone, a) := by
    cases ending <;> simp_all [Line.cutOff]
  obtain ⟨hends, rfl⟩ := hends
  obtain ⟨c', hr, hclosed, hread⟩ := h hends
  exact ⟨_, hr, ⟨hclosed, hread⟩, rfl⟩

theorem object_size {typeID : Fin (2 ^ 15)} {record : Record} :
    (Message.object typeID record).size = record.rest.length + 8 := rfl

theorem getNextObjectAt_follows (h : l.Carries ending c) :
    Follows (Matched ending)
      (l.peek ending >>= fun r => r.1.takeObject ending "Could not read the the object size".toList)
      c.getNextObjectAt := by
  apply (getSizeOfNextObject_follows h).bind
  rintro ⟨l, size, typeID⟩ ⟨c, n⟩ ⟨hc, -, hsize, -⟩
  dsimp only at hc hsize ⊢
  rw [hsize]
  cases l with
  | between ms cut => exact error
  | gone =>
    rw [Line.size, if_pos rfl]
    exact ok ⟨hc, rfl⟩
  | begun m ms cut =>
    cases m with
    | block data => exact error
    | object typeID record =>
      obtain ⟨hopen, hread, -, -, hwhole⟩ := hc
      have hsmall := record.small
      rw [Line.size, object_size] at hsize ⊢
      obtain ⟨incoming, hr, hrest⟩ := doTheRead_whole (c := { c with msgSize := record.rest.length + 8 - 8 }) hopen hread
        hwhole rfl (by dsimp only; omega)
      rw [if_neg (by omega), if_neg (by omega), hr, ok_bind]
      exact ok ⟨⟨hopen, rfl, hrest⟩, rfl⟩
  | torn m part hshort =>
    cases m with
    | block data => exact error
    | object typeID record =>
      obtain ⟨hopen, hread, -, -, hwhole⟩ := hc
      have hsmall := record.small
      rw [Line.size, object_size, if_neg (by omega), if_neg (by omega)]
      apply cutOff_follows
      intro hends
      obtain ⟨c', hr, hclosed, -⟩ := doTheRead_cut (c := { c with msgSize := record.rest.length + 8 - 8 }) hopen hread
        hwhole hshort (by dsimp only; omega) hends
      rw [hr, ok_bind]
      exact ⟨_, rfl, hclosed, rfl⟩

theorem getNextObject_follows (h : l.Carries ending c) :
    Follows (Matched ending)
      (l.peek ending >>= fun r => r.1.takeObject ending "Could not read the object size".toList)
      c.getNextObject := by
  apply (getSizeOfNextObject_follows h).bind
  rintro ⟨l, size, typeID⟩ ⟨c, n⟩ ⟨hc, -, hsize, -⟩
  dsimp only at hc hsize ⊢
  rw [hsize]
  cases l with
  | between ms cut => exact error
  | gone =>
    rw [Line.size, if_pos rfl]
    exact ok ⟨hc, rfl⟩
  | begun m ms cut =>
    cases m with
    | block data => exact error
    | object typeID record =>
      have hsmall := record.small
      rw [Line.size, object_size, if_neg (by omega), if_neg (by omega)]
      exact getNextObjectAt_follows hc
  | torn m part hshort =>
    cases m with
    | block data => exact error
    | object typeID record =>
      have hsmall := record.small
      rw [Line.size, object_size, if_neg (by omega), if_neg (by omega)]
      exact getNextObjectAt_follows hc

theorem receiveBytes_follows (h : l.Carries ending c) :
    Follows (Matched ending) (l.peek ending >>= fun r => r.1.takeBytes ending) c.receiveBytes := by
  apply (getSizeOfNextObject_follows h).bind
  rintro ⟨l, size, typeID⟩ ⟨c, n⟩ ⟨hc, -, hsize, -⟩
  dsimp only at hc hsize ⊢
  cases l with
  | between ms cut => exact error
  | gone =>
    obtain ⟨c', hr, hclosed, hread⟩ := doTheRead_closed hc.1 hc.2
    rw [hr, ok_bind]
    exact ok ⟨⟨hclosed, hread⟩, rfl⟩
  | begun m ms cut =>
    cases m with
    | object typeID record => exact error
    | block data =>
      obtain ⟨hopen, hread, -, -, hwhole⟩ := hc
      obtain ⟨incoming, hr, hrest⟩ := doTheRead_whole hopen hread hwhole hsize.symm (hsize.symm ▸ data.small)
      rw [hr, ok_bind]
      exact ok ⟨⟨hopen, rfl, hrest⟩, rfl⟩
  | torn m part hshort =>
    cases m with
    | object typeID record => exact error
    | block data =>
      obtain ⟨hopen, hread, -, -, hwhole⟩ := hc
      apply cutOff_follows
      intro hends
      obtain ⟨c', hr, hclosed, -⟩ := doTheRead_cut hopen hread hwhole (hsize.symm ▸ hshort) (hsize.symm ▸ data.small) hends
      rw [hr, ok_bind]
      exact ⟨_, rfl, hclosed, rfl⟩

theorem skipBytes_follows (h : l.Carries ending c) :
    Follows (Matched ending)
      (l.peek ending >>= fun r => r.1.takeBytes ending >>= fun r => .ok (r.1, r.2.map fun _ => ())) c.skipBytes := by
  apply (getSizeOfNextObject_follows h).bind
  rintro ⟨l, size, typeID⟩ ⟨c, n⟩ ⟨hc, -, hsize, -⟩
  dsimp only at hc hsize ⊢
  cases l with
  | between ms cut => exact error
  | gone =>
    obtain ⟨c', hr, hclosed, hread⟩ := skipTheRead_closed hc.1 hc.2
    rw [hr, ok_bind]
    exact ok ⟨⟨hclosed, hread⟩, rfl⟩
  | begun m ms cut =>
    cases m with
    | object typeID record => exact error
    | block data =>
      obtain ⟨hopen, hread, -, -, hwhole⟩ := hc
      obtain ⟨incoming, hr, hrest⟩ := skipTheRead_whole hopen hread hwhole hsize.symm
      rw [hr, ok_bind]
      exact ok ⟨⟨hopen, rfl, hrest⟩, rfl⟩
  | torn m part hshort =>
    cases m with
    | object typeID record => exact error
    | block data =>
      obtain ⟨hopen, hread, -, -, hwhole⟩ := hc
      have hcut : Follows (Matched ending) (Line.cutOff ending (.error couldNotRead))
          (c.skipTheRead >>= fun r => if r.2 then .ok (r.1, .ok ())
            else .ok ({ r.1 with readCurMsgSize := false }, Except.error couldNotRead)) := by
        apply cutOff_follows
        intro hends
        obtain ⟨c', hr, hclosed, -⟩ := skipTheRead_cut hopen hread hwhole (hsize.symm ▸ hshort) hends
        rw [hr, ok_bind, if_neg Bool.false_ne_true]
        exact ⟨_, rfl, hclosed, rfl⟩
      cases ending <;> exact hcut

theorem Matched.map {α β : Type} (f : α → β) {x : Except Stop (Line × α)} {y : Except Stop (PDBCommunicator × α)}
    (h : Follows (Matched ending) x y) :
    Follows (Matched ending) (x >>= fun r => .ok (r.1, f r.2)) (y.map fun r => (r.1, f r.2)) := by
  intro b hb
  obtain ⟨a, ha, hb⟩ := bind_eq_ok.mp hb
  cases hb
  obtain ⟨b, hb, hc, heq⟩ := h a ha
  rw [hb]
  exact ⟨_, rfl, hc, congrArg f heq⟩

theorem step_follows (call : PDBCommunicator.Call) (h : l.Carries ending c) :
    Follows (Matched ending) (l.step ending call) (c.step call) := by
  cases call with
  | getSizeOfNextObject =>
    intro b hb
    obtain ⟨a, ha, hb⟩ := bind_eq_ok.mp hb
    cases hb
    obtain ⟨r, hr, hc, hsize, -⟩ := getSizeOfNextObject_follows h a ha
    rw [PDBCommunicator.step, hr]
    exact ⟨_, rfl, hc, congrArg _ hsize.symm⟩
  | getObjectTypeID =>
    intro b hb
    obtain ⟨a, ha, hb⟩ := bind_eq_ok.mp hb
    cases hb
    obtain ⟨r, hr, hc, -, -, htype⟩ := getSizeOfNextObject_follows h a ha
    rw [PDBCommunicator.step, PDBCommunicator.getObjectTypeID, hr, ok_bind]
    exact ⟨_, rfl, hc, congrArg _ htype.symm⟩
  | getNextObjectAt =>
    have hm := Matched.map PDBCommunicator.Answer.record (getNextObjectAt_follows h)
    rw [bind_assoc] at hm
    exact hm
  | getNextObject =>
    have hm := Matched.map PDBCommunicator.Answer.record (getNextObject_follows h)
    rw [bind_assoc] at hm
    exact hm
  | receiveBytes =>
    have hm := Matched.map PDBCommunicator.Answer.bytes (receiveBytes_follows h)
    rw [bind_assoc] at hm
    exact hm
  | skipBytes =>
    have hm := Matched.map PDBCommunicator.Answer.skipped (skipBytes_follows h)
    simp only [bind_assoc] at hm
    exact hm

end Calls

section Sending

theorem writeLoop_prefix (takes : List ℕ) (bytes : List UInt8) :
    (writeLoop takes bytes).1 <+: bytes ∧ ((writeLoop takes bytes).2.1 = true ↔ (writeLoop takes bytes).1 = bytes) := by
  induction takes generalizing bytes with
  | nil => cases bytes <;> simp [writeLoop]
  | cons numBytes takes ih =>
    rw [writeLoop]
    split_ifs with hempty
    · obtain rfl := List.isEmpty_iff.mp hempty
      simp
    · obtain ⟨hbegin, hall⟩ := ih (bytes.drop numBytes)
      have hsplit := List.take_append_drop numBytes bytes
      refine ⟨?_, ?_⟩
      · conv_rhs => rw [← hsplit]
        exact (List.prefix_append_right_inj _).mpr hbegin
      · dsimp only
        rw [hall, ← List.append_right_inj (bytes.take numBytes), hsplit]

theorem doTheWrites_sent (writes : List (List UInt8 × Option Text)) (errMsg : Text) {o : Outgoing}
    (hopen : o.socketClosed = false) :
    ∃ part, (o.doTheWrites writes errMsg).2.sent = o.sent ++ part ∧ part <+: writes.flatMap Prod.fst ∧
      ((o.doTheWrites writes errMsg).1.1 = true ↔ part = writes.flatMap Prod.fst) ∧
      (o.doTheWrites writes errMsg).2.socketClosed = !(o.doTheWrites writes errMsg).1.1 := by
  induction writes generalizing o with
  | nil => exact ⟨[], by simp [Outgoing.doTheWrites, hopen]⟩
  | cons w writes ih =>
    obtain ⟨bytes, error⟩ := w
    obtain ⟨hbegin, hall⟩ := writeLoop_prefix o.takes bytes
    rw [Outgoing.doTheWrites, Outgoing.doTheWrite, hopen, if_neg Bool.false_ne_true, List.flatMap_cons]
    cases hok : (writeLoop o.takes bytes).2.1 with
    | false =>
      dsimp only
      rw [hok]
      refine ⟨(writeLoop o.takes bytes).1, rfl, hbegin.trans (List.prefix_append _ _), ?_, rfl⟩
      have hlt : (writeLoop o.takes bytes).1.length < bytes.length := by
        apply lt_of_le_of_ne hbegin.length_le
        intro hlen
        have := hall.mpr (hbegin.eq_of_length hlen)
        rw [hok] at this
        cases this
      constructor
      · intro h
        cases h
      · intro h
        have := congrArg List.length h
        rw [List.length_append] at this
        omega
    | true =>
      have hw : (writeLoop o.takes bytes).1 = bytes := hall.mp hok
      dsimp only
      rw [hok, hw]
      obtain ⟨part, hsent, hpart, hiff, hclosed⟩ := ih (o := ⟨o.sent ++ bytes, (writeLoop o.takes bytes).2.2, !true⟩) rfl
      refine ⟨bytes ++ part, ?_, (List.prefix_append_right_inj _).mpr hpart, ?_, hclosed⟩
      · rw [hsent, List.append_assoc]
      · rw [hiff, List.append_right_inj]

theorem doTheWrites_closed (writes : List (List UInt8 × Option Text)) (errMsg : Text) {o : Outgoing}
    (hclosed : o.socketClosed = true) : (o.doTheWrites writes errMsg).2 = o := by
  induction writes with
  | nil => rfl
  | cons w writes ih =>
    rw [Outgoing.doTheWrites, Outgoing.doTheWrite, if_pos hclosed]
    cases w.1.isEmpty
    · rfl
    · exact ih

theorem sendAll_closed (ms : List Message) {o : Outgoing} (hclosed : o.socketClosed = true) : (o.sendAll ms).2 = o := by
  induction ms with
  | nil => rfl
  | cons m ms ih =>
    rw [Outgoing.sendAll, Outgoing.send, doTheWrites_closed _ _ hclosed]
    exact ih

theorem sendAll_sent (ms : List Message) {o : Outgoing} (hopen : o.socketClosed = false) :
    ∃ part, (o.sendAll ms).2.sent = o.sent ++ part ∧ part <+: ms.flatMap Message.bytes ∧
      ((∀ ok ∈ (o.sendAll ms).1, ok = true) → part = ms.flatMap Message.bytes) := by
  induction ms generalizing o with
  | nil => exact ⟨[], by simp [Outgoing.sendAll]⟩
  | cons m ms ih =>
    obtain ⟨part, hsent, hpart, hiff, hclosed⟩ := doTheWrites_sent m.writes [] hopen
    rw [Outgoing.sendAll, Outgoing.send, List.flatMap_cons]
    dsimp only
    cases hok : (o.doTheWrites m.writes []).1.1 with
    | false =>
      rw [hok] at hclosed
      rw [sendAll_closed ms hclosed]
      refine ⟨part, hsent, hpart.trans (List.prefix_append _ _), ?_⟩
      intro h
      have := h false List.mem_cons_self
      cases this
    | true =>
      rw [hok] at hclosed
      obtain ⟨part', hsent', hpart', hall⟩ := ih hclosed
      obtain rfl : part = m.bytes := hiff.mp hok
      refine ⟨m.bytes ++ part', ?_, (List.prefix_append_right_inj _).mpr hpart', ?_⟩
      · rw [hsent', hsent, List.append_assoc]
      · intro h
        rw [hall fun ok hm => h ok (List.mem_cons_of_mem _ hm)]

end Sending

section Delivery

namespace Message

def content : Message → List UInt8
  | .object _ record => record.bytes
  | .block data => data.data

end Message

namespace PDBCommunicator

def Call.takes : Call → Bool
  | .getSizeOfNextObject => false
  | .getObjectTypeID => false
  | _ => true

def Call.fits : Call → Message → Bool
  | .getNextObjectAt, .object _ _ => true
  | .getNextObject, .object _ _ => true
  | .receiveBytes, .block _ => true
  | .skipBytes, .block _ => true
  | _, _ => false

def inStep : List Call → List Message → Bool
  | [], _ => true
  | _ :: _, [] => true
  | call :: calls, m :: ms => if call.takes then call.fits m && inStep calls ms else inStep calls (m :: ms)

def Answer.taken : Answer → Option (Option (List UInt8))
  | .record (.ok content) => some (some content)
  | .bytes (.ok content) => some (some content)
  | .skipped (.ok ()) => some none
  | _ => none

end PDBCommunicator

open PDBCommunicator

/-- What the calls took, in their order: the bytes of a record or of a block, and nothing of a block that is skipped.
Which call took it is not told. -/
inductive Taken : List Message → List (Option (List UInt8)) → Prop
  | nil (ms : List Message) : Taken ms []
  | next {m : Message} {ms : List Message} {t : Option (List UInt8)} {ts : List (Option (List UInt8))}
    (h : ∀ bytes, t = some bytes → bytes = m.content) (hrest : Taken ms ts) : Taken (m :: ms) (t :: ts)
  | behind {t : Option (List UInt8)} {ts : List (Option (List UInt8))} (h : ∀ bytes, t = some bytes → bytes = [])
    (hrest : Taken [] ts) : Taken [] (t :: ts)

variable {ending : Ending} {l : Line} {sent : List Message}

namespace Line

def left : Line → List Message
  | .between ms _ => ms
  | .begun m ms _ => m :: ms
  | .torn _ _ _ => []
  | .gone => []

def Within : Line → List Message → Prop
  | .between ms cut, sent => ∃ lost, sent = ms ++ lost ∧ ∀ m part h, cut = .payload m part h → lost.head? = some m
  | .begun m ms cut, sent => ∃ lost, sent = m :: ms ++ lost ∧ ∀ m part h, cut = .payload m part h → lost.head? = some m
  | .torn m _ _, sent => sent.head? = some m
  | .gone, _ => True

theorem peek_ok (hends : ending ≠ .waiting) (h : l.Within sent) :
    ∃ l' r, l.peek ending = .ok (l', r) ∧ l'.Within sent ∧ l'.left = l.left ∧ ∀ ms cut, l' ≠ .between ms cut := by
  cases l with
  | between ms cut =>
    cases ms with
    | cons m ms => exact ⟨.begun m ms cut, _, rfl, h, rfl, by rintro _ _ ⟨⟩⟩
    | nil =>
      cases cut with
      | header part hshort => cases ending with
        | waiting => exact absurd rfl hends
        | closed => exact ⟨.gone, _, rfl, trivial, rfl, by rintro _ _ ⟨⟩⟩
        | failed => exact ⟨.gone, _, rfl, trivial, rfl, by rintro _ _ ⟨⟩⟩
      | payload m part hshort =>
        obtain ⟨lost, rfl, hlost⟩ := h
        exact ⟨.torn m part hshort, _, rfl, hlost m part hshort rfl, rfl, by rintro _ _ ⟨⟩⟩
  | begun m ms cut => exact ⟨_, _, rfl, h, rfl, by rintro _ _ ⟨⟩⟩
  | torn m part hshort => exact ⟨_, _, rfl, h, rfl, by rintro _ _ ⟨⟩⟩
  | gone => exact ⟨_, _, rfl, h, rfl, by rintro _ _ ⟨⟩⟩

theorem cutOff_ok {α : Type} (a : α) (hends : ending ≠ .waiting) : cutOff ending a = .ok (.gone, a) := by
  cases ending with
  | waiting => exact absurd rfl hends
  | closed => rfl
  | failed => rfl

def Moves (l l' : Line) (a : Answer) : Prop :=
  a.taken = none ∧ (l'.left = l.left ∨ l.left = [] ∧ l'.left = []) ∨
    ∃ t, a.taken = some t ∧
      ((∃ m, l.left = m :: l'.left ∧ ∀ bytes, t = some bytes → bytes = m.content) ∨
        l.left = [] ∧ l'.left = [] ∧ ∀ bytes, t = some bytes → bytes = [])

theorem takeObject_ok (hends : ending ≠ .waiting) (noSize : Text) (h : l.Within sent)
    (hread : ∀ ms cut, l ≠ .between ms cut) (hfits : ∀ m, sent.head? = some m → ∃ t r, m = .object t r) :
    ∃ l' r, l.takeObject ending noSize = .ok (l', r) ∧ l'.Within sent.tail ∧ l.Moves l' (.record r) := by
  cases l with
  | between ms cut => exact absurd rfl (hread ms cut)
  | begun m ms cut =>
    obtain ⟨lost, rfl, hlost⟩ := h
    obtain ⟨typeID, record, rfl⟩ := hfits m rfl
    refine ⟨.between ms cut, _, rfl, ⟨lost, rfl, hlost⟩, .inr ⟨_, rfl, .inl ⟨_, rfl, ?_⟩⟩⟩
    rintro _ ⟨⟩
    rfl
  | torn m part hshort =>
    obtain ⟨typeID, record, rfl⟩ := hfits m h
    exact ⟨.gone, _, cutOff_ok _ hends, trivial, .inl ⟨rfl, .inl rfl⟩⟩
  | gone => exact ⟨.gone, _, rfl, trivial, .inl ⟨rfl, .inl rfl⟩⟩

theorem takeBytes_ok (hends : ending ≠ .waiting) (h : l.Within sent)
    (hread : ∀ ms cut, l ≠ .between ms cut) (hfits : ∀ m, sent.head? = some m → ∃ data, m = .block data) :
    ∃ l' r, l.takeBytes ending = .ok (l', r) ∧ l'.Within sent.tail ∧ l.Moves l' (.bytes r) ∧
      l.Moves l' (.skipped (r.map fun _ => ())) := by
  cases l with
  | between ms cut => exact absurd rfl (hread ms cut)
  | begun m ms cut =>
    obtain ⟨lost, rfl, hlost⟩ := h
    obtain ⟨data, rfl⟩ := hfits m rfl
    refine ⟨.between ms cut, _, rfl, ⟨lost, rfl, hlost⟩, .inr ⟨_, rfl, .inl ⟨_, rfl, ?_⟩⟩,
      .inr ⟨_, rfl, .inl ⟨_, rfl, ?_⟩⟩⟩
    · rintro _ ⟨⟩
      rfl
    · rintro _ ⟨⟩
  | torn m part hshort =>
    obtain ⟨data, rfl⟩ := hfits m h
    exact ⟨.gone, _, cutOff_ok _ hends, trivial, .inl ⟨rfl, .inl rfl⟩, .inl ⟨rfl, .inl rfl⟩⟩
  | gone =>
    refine ⟨.gone, _, rfl, trivial, .inr ⟨_, rfl, .inr ⟨rfl, rfl, ?_⟩⟩, .inr ⟨_, rfl, .inr ⟨rfl, rfl, ?_⟩⟩⟩
    · rintro _ ⟨⟩
      rfl
    · rintro _ ⟨⟩

theorem Moves.of_left {l₁ l₂ l' : Line} {a : Answer} (hleft : l₂.left = l₁.left) (h : l₂.Moves l' a) : l₁.Moves l' a := by
  unfold Moves at h ⊢
  rw [← hleft]
  exact h

end Line

namespace PDBCommunicator

theorem inStep_tail {call : Call} {calls : List Call} {sent : List Message} (htakes : call.takes = true)
    (h : inStep (call :: calls) sent = true) :
    inStep calls sent.tail = true ∧ ∀ m, sent.head? = some m → call.fits m = true := by
  cases sent with
  | nil =>
    refine ⟨?_, by rintro _ ⟨⟩⟩
    cases calls <;> rfl
  | cons m ms =>
    rw [inStep, if_pos htakes, Bool.and_eq_true] at h
    refine ⟨h.2, ?_⟩
    rintro _ ⟨⟩
    exact h.1

theorem inStep_look {call : Call} {calls : List Call} {sent : List Message} (htakes : call.takes = false)
    (h : inStep (call :: calls) sent = true) : inStep calls sent = true := by
  cases sent with
  | nil => cases calls <;> rfl
  | cons m ms =>
    rw [inStep, if_neg (by rw [htakes]; exact Bool.false_ne_true)] at h
    exact h

end PDBCommunicator

namespace Line

theorem step_ok {call : Call} {calls : List Call} (hends : ending ≠ .waiting) (h : l.Within sent)
    (hstep : inStep (call :: calls) sent = true) :
    ∃ l' a sent', l.step ending call = .ok (l', a) ∧ l'.Within sent' ∧ inStep calls sent' = true ∧ l.Moves l' a := by
  obtain ⟨l', ⟨size, typeID⟩, hpeek, hwithin, hleft, hread⟩ := peek_ok hends h
  have hobject : ∀ m, (call = .getNextObjectAt ∨ call = .getNextObject) → call.fits m = true → ∃ t r, m = .object t r := by
    rintro m (rfl | rfl) hm <;> cases m <;> simp_all [Call.fits]
  have hblock : ∀ m, (call = .receiveBytes ∨ call = .skipBytes) → call.fits m = true → ∃ data, m = .block data := by
    rintro m (rfl | rfl) hm <;> cases m <;> simp_all [Call.fits]
  cases call with
  | getSizeOfNextObject =>
    refine ⟨l', .size size, sent, ?_, hwithin, inStep_look rfl hstep, .inl ⟨rfl, .inl hleft⟩⟩
    rw [step, hpeek, ok_bind]
  | getObjectTypeID =>
    refine ⟨l', .typeID typeID, sent, ?_, hwithin, inStep_look rfl hstep, .inl ⟨rfl, .inl hleft⟩⟩
    rw [step, hpeek, ok_bind]
  | getNextObjectAt =>
    obtain ⟨htail, hfits⟩ := inStep_tail rfl hstep
    obtain ⟨l'', r, hr, hwithin', hmoves⟩ := takeObject_ok hends "Could not read the the object size".toList hwithin hread
      fun m hm => hobject m (.inl rfl) (hfits m hm)
    refine ⟨l'', .record r, sent.tail, ?_, hwithin', htail, hmoves.of_left hleft⟩
    rw [step, hpeek, ok_bind]
    dsimp only
    rw [hr, ok_bind]
  | getNextObject =>
    obtain ⟨htail, hfits⟩ := inStep_tail rfl hstep
    obtain ⟨l'', r, hr, hwithin', hmoves⟩ := takeObject_ok hends "Could not read the object size".toList hwithin hread
      fun m hm => hobject m (.inr rfl) (hfits m hm)
    refine ⟨l'', .record r, sent.tail, ?_, hwithin', htail, hmoves.of_left hleft⟩
    rw [step, hpeek, ok_bind]
    dsimp only
    rw [hr, ok_bind]
  | receiveBytes =>
    obtain ⟨htail, hfits⟩ := inStep_tail rfl hstep
    obtain ⟨l'', r, hr, hwithin', hmoves, -⟩ := takeBytes_ok hends hwithin hread fun m hm => hblock m (.inl rfl) (hfits m hm)
    refine ⟨l'', .bytes r, sent.tail, ?_, hwithin', htail, hmoves.of_left hleft⟩
    rw [step, hpeek, ok_bind]
    dsimp only
    rw [hr, ok_bind]
  | skipBytes =>
    obtain ⟨htail, hfits⟩ := inStep_tail rfl hstep
    obtain ⟨l'', r, hr, hwithin', -, hmoves⟩ := takeBytes_ok hends hwithin hread fun m hm => hblock m (.inr rfl) (hfits m hm)
    refine ⟨l'', .skipped (r.map fun _ => ()), sent.tail, ?_, hwithin', htail, hmoves.of_left hleft⟩
    rw [step, hpeek, ok_bind]
    dsimp only
    rw [hr, ok_bind]

theorem taken_of_inStep (calls : List Call) (hends : ending ≠ .waiting) (h : l.Within sent)
    (hstep : inStep calls sent = true) :
    ∃ answers, observe (Line.step ending) calls l = .ok answers ∧ Taken l.left (answers.filterMap Answer.taken) := by
  induction calls generalizing l sent with
  | nil => exact ⟨[], rfl, .nil _⟩
  | cons call calls ih =>
    obtain ⟨l', a, sent', hr, hwithin, hrest, hmoves⟩ := step_ok hends h hstep
    obtain ⟨answers, hanswers, htaken⟩ := ih hwithin hrest
    refine ⟨a :: answers, ?_, ?_⟩
    · rw [observe, hr, ok_bind]
      dsimp only
      rw [hanswers, ok_bind]
    · obtain ⟨hnone, hleft⟩ | ⟨t, ht, hmove⟩ := hmoves
      · rw [List.filterMap_cons_none hnone]
        obtain hleft | ⟨hnil, hleft⟩ := hleft
        · rw [← hleft]
          exact htaken
        · rw [hnil]
          rw [hleft] at htaken
          exact htaken
      · rw [List.filterMap_cons_some ht]
        obtain ⟨m, hleft, hcontent⟩ | ⟨hnil, hleft, hempty⟩ := hmove
        · rw [hleft]
          exact .next hcontent htaken
        · rw [hnil]
          rw [hleft] at htaken
          exact .behind hempty htaken

end Line

theorem exists_cut (ms : List Message) {wire : List UInt8} (h : wire <+: ms.flatMap Message.bytes) :
    ∃ (k : ℕ) (cut : Cut), k ≤ ms.length ∧ wire = (ms.take k).flatMap Message.bytes ++ cut.bytes ∧
      (∀ m part h, cut = .payload m part h → (ms.drop k).head? = some m) ∧
      ∀ m, (ms.drop k).head? = some m → cut.bytes.length < m.bytes.length := by
  induction ms generalizing wire with
  | nil =>
    obtain rfl : wire = [] := List.prefix_nil.mp h
    exact ⟨0, .header [] (by decide), by simp [Cut.bytes]⟩
  | cons m ms ih =>
    rw [List.flatMap_cons] at h
    by_cases hlen : m.bytes.length ≤ wire.length
    · have hm : m.bytes <+: wire := List.prefix_of_prefix_length_le (List.prefix_append _ _) h hlen
      obtain ⟨wire, rfl⟩ := hm
      obtain ⟨k, cut, hk, rfl, hcut, hnext⟩ := ih ((List.prefix_append_right_inj _).mp h)
      refine ⟨k + 1, cut, Nat.succ_le_succ hk, ?_, hcut, hnext⟩
      rw [List.take_succ_cons, List.flatMap_cons, List.append_assoc]
    · have hwire : wire <+: m.bytes := List.prefix_of_prefix_length_le h (List.prefix_append _ _) (by omega)
      have hnext : ∀ m', ((m :: ms).drop 0).head? = some m' → wire.length < m'.bytes.length := by
        rintro _ ⟨⟩
        omega
      by_cases hheader : wire.length < 10
      · refine ⟨0, .header wire hheader, Nat.zero_le _, rfl, by rintro _ _ _ ⟨⟩, hnext⟩
      · rw [Message.bytes_eq] at hwire hlen
        rw [List.length_append, m.length_header] at hlen
        have hheader' : m.header <+: wire :=
          List.prefix_of_prefix_length_le (List.prefix_append _ _) hwire (by rw [m.length_header]; omega)
        obtain ⟨part, rfl⟩ := hheader'
        have hshort : part.length < m.payload.length := by
          rw [List.length_append, m.length_header] at hlen
          omega
        refine ⟨0, .payload m part hshort, Nat.zero_le _, rfl, ?_, hnext⟩
        rintro _ _ _ ⟨⟩
        rfl

theorem carries_accepted {incoming : Arriving UInt8} {ms : List Message} {cut : Cut}
    (h : incoming.items = ms.flatMap Message.bytes ++ cut.bytes) :
    (Line.between ms cut).Carries incoming.ending (accepted incoming) :=
  ⟨rfl, rfl, congrArg (Whole.mk · incoming.ending) h⟩

def Outgoing.connected (takes : List ℕ) : Outgoing := ⟨[], takes, false⟩

def smallObject : Message := .object 3 ⟨[1, 2, 3], by decide⟩

def smallBlock : Message := .block ⟨[7, 8], by decide⟩

def smallPieces (ending : Ending) : Arriving UInt8 where
  pieces := [[3], [0, 11], [0, 0, 0, 0, 0, 0, 0, 1], [2, 3, 0], [0, 2, 0, 0, 0, 0, 0, 0, 0, 7], [8]]
  ending := ending
  nonempty := by decide

def firstPieces (ending : Ending) : Arriving UInt8 where
  pieces := [[3], [0, 11], [0, 0, 0, 0, 0, 0, 0, 1], [2, 3, 0], [0, 2, 0, 0, 0, 0, 0, 0, 0, 7]]
  ending := ending
  nonempty := by decide

theorem taken_of_sent (ms : List Message) (takes : List ℕ) (incoming : Arriving UInt8) (calls : List Call)
    (hends : incoming.ending ≠ .waiting) (hsent : incoming.items <+: ((Outgoing.connected takes).sendAll ms).2.sent)
    (hstep : inStep calls ms = true) :
    ∃ k answers, observe PDBCommunicator.step calls (accepted incoming) = .ok answers ∧
      Taken (ms.take k) (answers.filterMap Answer.taken) ∧ (ms.take k).flatMap Message.bytes <+: incoming.items ∧
      ∀ m, (ms.drop k).head? = some m → incoming.items.length < ((ms.take k).flatMap Message.bytes ++ m.bytes).length := by
  obtain ⟨part, hpart, hbegin, -⟩ := sendAll_sent ms (o := Outgoing.connected takes) rfl
  rw [hpart] at hsent
  obtain ⟨k, cut, hk, hwire, hcut, hnext⟩ := exists_cut ms (hsent.trans hbegin)
  have hwithin : (Line.between (ms.take k) cut).Within ms := ⟨ms.drop k, (List.take_append_drop k ms).symm, hcut⟩
  obtain ⟨answers, hanswers, htaken⟩ := Line.taken_of_inStep calls hends hwithin hstep
  obtain ⟨_, hobserve, rfl⟩ := Follows.observe (fun call l c h => step_follows call h) calls (carries_accepted hwire)
    answers hanswers
  refine ⟨k, answers, hobserve, htaken, hwire ▸ List.prefix_append _ _, ?_⟩
  intro m hm
  rw [hwire, List.length_append, List.length_append]
  exact Nat.add_lt_add_left (hnext m hm) _

theorem taken_of_sent_firstPieces :
    ∃ k answers, observe PDBCommunicator.step [.getObjectTypeID, .getNextObject, .receiveBytes, .receiveBytes]
        (accepted (firstPieces .closed)) = .ok answers ∧
      Taken ([smallObject, smallBlock].take k) (answers.filterMap Answer.taken) ∧
      ([smallObject, smallBlock].take k).flatMap Message.bytes <+: (firstPieces .closed).items ∧
      ∀ m, ([smallObject, smallBlock].drop k).head? = some m → (firstPieces .closed).items.length <
        (([smallObject, smallBlock].take k).flatMap Message.bytes ++ m.bytes).length :=
  taken_of_sent [smallObject, smallBlock] [2, 5, 100, 2, 8, 1, 1] (firstPieces .closed)
    [.getObjectTypeID, .getNextObject, .receiveBytes, .receiveBytes] (by decide) (by decide) (by decide)

structure Turn where
  m : Message
  looksAtType : List Bool
  -- objects are read into memory of the caller, bytes are skipped
  otherwise : Bool

namespace Turn

def look (t : Turn) : Bool → Call × Answer
  | true => (.getObjectTypeID, .typeID t.m.typeID)
  | false => (.getSizeOfNextObject, .size t.m.size)

def take (t : Turn) : Call × Answer :=
  match t.m, t.otherwise with
  | .object _ record, false => (.getNextObject, .record (.ok record.bytes))
  | .object _ record, true => (.getNextObjectAt, .record (.ok record.bytes))
  | .block data, false => (.receiveBytes, .bytes (.ok data.data))
  | .block _, true => (.skipBytes, .skipped (.ok ()))

def exchange (t : Turn) : List (Call × Answer) := t.looksAtType.map t.look ++ [t.take]

variable {t : Turn} {ms : List Message} {cut : Cut}

def Stands (t : Turn) (ms : List Message) (cut : Cut) (l : Line) : Prop := l = .between (t.m :: ms) cut ∨ l = .begun t.m ms cut

theorem Stands.look (h : t.Stands ms cut l) (b : Bool) :
    l.step ending (t.look b).1 = .ok (.begun t.m ms cut, (t.look b).2) := by
  obtain rfl | rfl := h <;> cases b <;> rfl

theorem Stands.take (h : t.Stands ms cut l) : l.step ending t.take.1 = .ok (.between ms cut, t.take.2) := by
  obtain ⟨m, looks, otherwise⟩ := t
  obtain rfl | rfl := h <;> cases m <;> cases otherwise <;> rfl

theorem Stands.exchange (h : t.Stands ms cut l) (looks : List Bool) (calls : List Call) :
    observe (Line.step ending) ((looks.map t.look ++ [t.take]).map Prod.fst ++ calls) l =
      (observe (Line.step ending) calls (.between ms cut)).map ((looks.map t.look ++ [t.take]).map Prod.snd ++ ·) := by
  induction looks generalizing l with
  | nil =>
    rw [List.map_nil, List.nil_append, List.map_cons, List.map_nil, List.singleton_append, observe, h.take, ok_bind]
    dsimp only
    cases observe (Line.step ending) calls (.between ms cut) <;> rfl
  | cons b looks ih =>
    rw [List.map_cons, List.cons_append, List.map_cons, List.cons_append, observe, h.look, ok_bind]
    dsimp only
    rw [ih (.inr rfl)]
    cases observe (Line.step ending) calls (.between ms cut) <;> rfl

end Turn

theorem observe_turns (turns : List Turn) (cut : Cut) :
    observe (Line.step ending) ((turns.flatMap Turn.exchange).map Prod.fst) (.between (turns.map Turn.m) cut) =
      .ok ((turns.flatMap Turn.exchange).map Prod.snd) := by
  induction turns with
  | nil => rfl
  | cons t turns ih =>
    have hstands : t.Stands (turns.map Turn.m) cut (.between (t.m :: turns.map Turn.m) cut) := .inl rfl
    rw [List.flatMap_cons, List.map_append, List.map_append, List.map_cons, Turn.exchange, hstands.exchange, ih]
    rfl

theorem received_of_sent (turns : List Turn) (takes : List ℕ) (incoming : Arriving UInt8)
    (hall : ∀ ok ∈ ((Outgoing.connected takes).sendAll (turns.map Turn.m)).1, ok = true)
    (harrives : incoming.items = ((Outgoing.connected takes).sendAll (turns.map Turn.m)).2.sent) :
    observe PDBCommunicator.step ((turns.flatMap Turn.exchange).map Prod.fst) (accepted incoming) =
      .ok ((turns.flatMap Turn.exchange).map Prod.snd) := by
  obtain ⟨part, hpart, -, hpartial⟩ := sendAll_sent (turns.map Turn.m) (o := Outgoing.connected takes) rfl
  rw [hpart, hpartial hall] at harrives
  have hwire : incoming.items = (turns.map Turn.m).flatMap Message.bytes ++ (Cut.header [] (by decide)).bytes := by
    rw [harrives]
    exact (List.append_nil _).symm
  obtain ⟨answers, hobserve, rfl⟩ := Follows.observe (fun call l c h => step_follows call h) _ (carries_accepted hwire) _
    (observe_turns turns _)
  exact hobserve

def smallTurns : List Turn := [⟨smallObject, [true, false], false⟩, ⟨smallBlock, [], false⟩]

theorem received_of_sent_smallPieces :
    observe PDBCommunicator.step ((smallTurns.flatMap Turn.exchange).map Prod.fst) (accepted (smallPieces .closed)) =
      .ok ((smallTurns.flatMap Turn.exchange).map Prod.snd) :=
  received_of_sent smallTurns [2, 5, 100, 2, 8, 1, 1] (smallPieces .closed) (by decide) (by decide)

end Delivery

end PlinyCompute.Communication
