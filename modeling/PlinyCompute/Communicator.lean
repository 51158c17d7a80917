import PlinyCompute.BinaryFormat
import PlinyCompute.ByteStream
import PlinyCompute.LogicalPlan
import PlinyCompute.Transition

namespace PlinyCompute.Communication

open BinaryFormat ByteStream Transition
open LogicalPlan (Text)

def NoMsg_TYPEID : ℕ := 0

inductive Stop
  -- nothing has arrived, and the other side still may send
  | waits
  -- no block is as large as the message says, so that the process ends
  | noMemory
  -- the first field of a record is written behind the end of its block
  | overflow
  -- bytes are received as an object, or an object as bytes
  | outOfStep
  deriving DecidableEq, Repr

def fromLE : List UInt8 → ℕ
  | [] => 0
  | b :: bytes => b.toNat + 256 * fromLE bytes

structure Record where
  rest : List UInt8
  small : rest.length + 8 < 2 ^ 63

def Record.numBytes (r : Record) : ℕ := r.rest.length + 8

def Record.bytes (r : Record) : List UInt8 := putLE 8 r.numBytes ++ r.rest

structure Block where
  data : List UInt8
  small : data.length < 2 ^ 63

/-- What is sent by one call. The types of objects are not negative. -/
inductive Message
  | object (typeID : Fin (2 ^ 15)) (record : Record)
  | block (data : Block)

namespace Message

def typeID : Message → ℕ
  | .object typeID _ => typeID
  | .block _ => NoMsg_TYPEID

def size : Message → ℕ
  | .object _ record => record.numBytes
  | .block data => data.data.length

def payload : Message → List UInt8
  | .object _ record => record.rest
  | .block data => data.data

def writes : Message → List (List UInt8 × Option Text)
  | .object typeID record =>
    [(putLE 2 typeID, none), (record.bytes, some "PDBCommunicator: not able to send the object size".toList)]
  | .block data =>
    [(putLE 2 NoMsg_TYPEID, some "PDBCommunicator: not able to send the object type".toList),
      (putLE 8 data.data.length, some "PDBCommunicator: not able to send the object size".toList),
      (data.data, some "PDBCommunicator: not able to send the bytes".toList)]

def bytes (m : Message) : List UInt8 := m.writes.flatMap Prod.fst

def header (m : Message) : List UInt8 := putLE 2 m.typeID ++ putLE 8 m.size

end Message

structure Outgoing where
  sent : List UInt8
  -- how much the next writes take, the first that is not there fails
  takes : List ℕ
  socketClosed : Bool

def writeLoop : List ℕ → List UInt8 → List UInt8 × Bool × List ℕ
  | [], bytes => ([], bytes.isEmpty, [])
  | numBytes :: takes, bytes =>
    if bytes.isEmpty then ([], true, numBytes :: takes)
    else
      let r := writeLoop takes (bytes.drop numBytes)
      (bytes.take numBytes ++ r.1, r.2)

namespace Outgoing

def doTheWrite (o : Outgoing) (bytes : List UInt8) : Bool × Outgoing :=
  if o.socketClosed then (bytes.isEmpty, o)
  else
    let r := writeLoop o.takes bytes
    (r.2.1, ⟨o.sent ++ r.1, r.2.2, !r.2.1⟩)

def doTheWrites : List (List UInt8 × Option Text) → Text → Outgoing → (Bool × Text) × Outgoing
  | [], errMsg, o => ((true, errMsg), o)
  | (bytes, error) :: writes, errMsg, o =>
    match o.doTheWrite bytes with
    | (false, o) => ((false, error.getD errMsg), o)
    | (true, o) => doTheWrites writes errMsg o

def send (m : Message) (errMsg : Text) (o : Outgoing) : (Bool × Text) × Outgoing := doTheWrites m.writes errMsg o

def sendAll : List Message → Outgoing → List Bool × Outgoing
  | [], o => ([], o)
  | m :: ms, o =>
    let r := o.send m []
    let rs := sendAll ms r.2
    (r.1.1 :: rs.1, rs.2)

end Outgoing

/-- The side of a connection that reads. The descriptor of a closed socket is -1, every read from it fails. -/
structure PDBCommunicator where
  incoming : Arriving UInt8
  socketClosed : Bool
  readCurMsgSize : Bool
  msgSize : ℕ
  nextTypeID : ℕ

namespace PDBCommunicator

def accepted (incoming : Arriving UInt8) : PDBCommunicator := ⟨incoming, false, false, 0, NoMsg_TYPEID⟩

def close (c : PDBCommunicator) : PDBCommunicator := { c with socketClosed := true }

def readLoop (c : PDBCommunicator) (limit : ℕ → ℕ) (wanted : ℕ) :
    Except Stop (List UInt8 × Ended × PDBCommunicator) :=
  if c.socketClosed then .ok ([], if wanted = 0 then .complete else .failed, c)
  else
    match c.incoming.readLoop limit wanted wanted with
    | none => .error .waits
    | some (bytes, ended, incoming) => .ok (bytes, ended, { c with incoming })

def getSizeOfNextObject (c : PDBCommunicator) : Except Stop (PDBCommunicator × ℕ) :=
  if c.readCurMsgSize then .ok (c, c.msgSize)
  else do
    let (bytes, ended, c) ← c.readLoop id 2
    match ended with
    | .complete =>
      let c := { c with nextTypeID := fromLE bytes }
      let (bytes, ended, c) ← c.readLoop id 8
      match ended with
      | .complete => .ok ({ c with msgSize := fromLE bytes, readCurMsgSize := true }, fromLE bytes)
      | .closed => .ok ({ c.close with nextTypeID := NoMsg_TYPEID, msgSize := 0 }, 0)
      -- here the type that has been read is kept
      | .failed => .ok ({ c.close with msgSize := 0 }, 0)
    | _ => .ok ({ c.close with nextTypeID := NoMsg_TYPEID, msgSize := 0 }, 0)

def getObjectTypeID (c : PDBCommunicator) : Except Stop (PDBCommunicator × ℕ) := do
  let (c, _) ← c.getSizeOfNextObject
  .ok (c, c.nextTypeID)

/-- The bytes of the next message, none of them if it is cut. The loop compares with the size as a `long`. -/
def doTheRead (c : PDBCommunicator) : Except Stop (PDBCommunicator × Option (List UInt8)) := do
  let (c, _) ← c.getSizeOfNextObject
  let c := { c with readCurMsgSize := false }
  let (bytes, ended, c) ← c.readLoop id (if c.msgSize < 2 ^ 63 then c.msgSize else 0)
  match ended with
  | .complete => .ok (c, some bytes)
  | _ => .ok (c.close, none)

def chunk (missing : ℕ) : ℕ := min missing (1024 * 1024)

def skipTheRead (c : PDBCommunicator) : Except Stop (PDBCommunicator × Bool) := do
  let (c, _) ← c.getSizeOfNextObject
  let c := { c with readCurMsgSize := false }
  let (_, ended, c) ← c.readLoop chunk c.msgSize
  match ended with
  | .complete => .ok (c, true)
  | _ => .ok (c.close, false)

def couldNotRead : Text := "Could not read the next object coming over the wire".toList

def receiveBytes (c : PDBCommunicator) : Except Stop (PDBCommunicator × Except Text (List UInt8)) := do
  let (c, _) ← c.getSizeOfNextObject
  let (c, bytes) ← c.doTheRead
  match bytes with
  | some bytes => .ok (c, .ok bytes)
  | none => .ok ({ c with readCurMsgSize := false }, .error couldNotRead)

def skipBytes (c : PDBCommunicator) : Except Stop (PDBCommunicator × Except Text Unit) := do
  let (c, _) ← c.getSizeOfNextObject
  let (c, skipped) ← c.skipTheRead
  if skipped then .ok (c, .ok ()) else .ok ({ c with readCurMsgSize := false }, .error couldNotRead)

/-- `getNextObject` into a block of the size of the message. The result is the record in this block. -/
def getNextObjectAt (c : PDBCommunicator) : Except Stop (PDBCommunicator × Except Text (List UInt8)) := do
  let (c, _) ← c.getSizeOfNextObject
  if c.msgSize = 0 then .ok (c, .error "Could not read the the object size".toList)
  else if c.msgSize < 8 then .error .overflow
  else
    let first := putLE 8 c.msgSize
    let (c, bytes) ← { c with msgSize := c.msgSize - 8 }.doTheRead
    match bytes with
    | some bytes => .ok ({ c with readCurMsgSize := false }, .ok (first ++ bytes))
    | none => .ok ({ c with readCurMsgSize := false }, .error couldNotRead)

/-- `getNextObject` into a block of its own, a block of 2^63 bytes is never to be had. The result is the record in this
block; the deep copy of its root object into the active block is left out. -/
def getNextObject (c : PDBCommunicator) : Except Stop (PDBCommunicator × Except Text (List UInt8)) := do
  let (c, _) ← c.getSizeOfNextObject
  if c.msgSize = 0 then .ok (c, .error "Could not read the object size".toList)
  else if 2 ^ 63 ≤ c.msgSize then .error .noMemory
  else c.getNextObjectAt

inductive Call
  | getSizeOfNextObject
  | getObjectTypeID
  | getNextObjectAt
  | getNextObject
  | receiveBytes
  | skipBytes
  deriving DecidableEq, Repr

inductive Answer
  | size (size : ℕ)
  | typeID (typeID : ℕ)
  | record (r : Except Text (List UInt8))
  | bytes (r : Except Text (List UInt8))
  | skipped (r : Except Text Unit)

def step : Call → PDBCommunicator → Except Stop (PDBCommunicator × Answer)
  | .getSizeOfNextObject, c => c.getSizeOfNextObject.map fun r => (r.1, .size r.2)
  | .getObjectTypeID, c => c.getObjectTypeID.map fun r => (r.1, .typeID r.2)
  | .getNextObjectAt, c => c.getNextObjectAt.map fun r => (r.1, .record r.2)
  | .getNextObject, c => c.getNextObject.map fun r => (r.1, .record r.2)
  | .receiveBytes, c => c.receiveBytes.map fun r => (r.1, .bytes r.2)
  | .skipBytes, c => c.skipBytes.map fun r => (r.1, .skipped r.2)

end PDBCommunicator

section Bytes

theorem length_putLE (width n : ℕ) : (putLE width n).length = width := by
  induction width generalizing n with
  | zero => rfl
  | succ width ih => rw [putLE, List.length_cons, ih]

theorem fromLE_putLE {width n : ℕ} (h : n < 256 ^ width) : fromLE (putLE width n) = n := by
  induction width generalizing n with
  | zero =>
    obtain rfl : n = 0 := by simpa using h
    rfl
  | succ width ih =>
    have hdiv : n / 256 < 256 ^ width := by
      rw [Nat.div_lt_iff_lt_mul (by decide), ← Nat.pow_succ]
      exact h
    rw [putLE, fromLE, ih hdiv, UInt8.toNat_ofNat']
    exact Nat.mod_add_div n 256

namespace Message

theorem bytes_eq (m : Message) : m.bytes = m.header ++ m.payload := by
  cases m <;> simp [bytes, writes, header, payload, typeID, size, Record.bytes]

theorem length_header (m : Message) : m.header.length = 10 := by
  rw [header, List.length_append, length_putLE, length_putLE]

theorem size_lt (m : Message) : m.size < 2 ^ 63 := by
  cases m with
  | object typeID record => exact record.small
  | block data => exact data.small

theorem typeID_lt (m : Message) : m.typeID < 2 ^ 15 := by
  cases m with
  | object typeID record => exact typeID.isLt
  | block data => exact Nat.two_pow_pos 15

end Message

end Bytes

section Reads

variable {c : PDBCommunicator} {limit : ℕ → ℕ} {bytes rest : List UInt8} {ending : Ending} {wanted : ℕ}

theorem readLoop_whole (hopen : c.socketClosed = false) (hlimit : Limits limit)
    (h : c.incoming.whole = ⟨bytes ++ rest, ending⟩) (hw : bytes.length = wanted) :
    ∃ incoming, c.readLoop limit wanted = .ok (bytes, .complete, { c with incoming }) ∧
      incoming.whole = ⟨rest, ending⟩ := by
  have hloop := ByteStream.readLoop_whole (s := c.incoming) hlimit (le_refl wanted)
  rw [h, Whole.take, if_pos (by simp [hw]), ← hw, List.take_left, List.drop_left, hw, Option.map_eq_some_iff] at hloop
  obtain ⟨⟨items, ended, incoming⟩, hr, heq⟩ := hloop
  cases heq
  refine ⟨incoming, ?_, rfl⟩
  rw [PDBCommunicator.readLoop, hopen, if_neg Bool.false_ne_true, hr]

theorem readLoop_cut (hopen : c.socketClosed = false) (hlimit : Limits limit)
    (h : c.incoming.whole = ⟨bytes, ending⟩) (hw : bytes.length < wanted) :
    c.readLoop limit wanted = .error .waits ∧ ending = .waiting ∨
      ∃ ended incoming, c.readLoop limit wanted = .ok (bytes, ended, { c with incoming }) ∧
        incoming.whole = ⟨[], ending⟩ ∧ (ended = .closed ∧ ending = .closed ∨ ended = .failed ∧ ending = .failed) := by
  have hloop := ByteStream.readLoop_whole (s := c.incoming) hlimit (le_refl wanted)
  rw [h, Whole.take, if_neg (by simpa using hw)] at hloop
  unfold PDBCommunicator.readLoop
  rw [hopen, if_neg Bool.false_ne_true]
  cases ending with
  | waiting =>
    left
    rw [Option.map_eq_none_iff.mp hloop]
    exact ⟨rfl, rfl⟩
  | closed =>
    obtain ⟨⟨items, ended, incoming⟩, hr, heq⟩ := Option.map_eq_some_iff.mp hloop
    rw [Prod.mk.injEq, Prod.mk.injEq] at heq
    obtain ⟨rfl, rfl, hwhole⟩ := heq
    right
    rw [hr]
    exact ⟨_, _, rfl, hwhole, .inl ⟨rfl, rfl⟩⟩
  | failed =>
    obtain ⟨⟨items, ended, incoming⟩, hr, heq⟩ := Option.map_eq_some_iff.mp hloop
    rw [Prod.mk.injEq, Prod.mk.injEq] at heq
    obtain ⟨rfl, rfl, hwhole⟩ := heq
    right
    rw [hr]
    exact ⟨_, _, rfl, hwhole, .inr ⟨rfl, rfl⟩⟩

theorem readLoop_closed (hclosed : c.socketClosed = true) (hw : 0 < wanted) :
    c.readLoop limit wanted = .ok ([], .failed, c) := by
  rw [PDBCommunicator.readLoop, if_pos hclosed, if_neg hw.ne']

end Reads

end PlinyCompute.Communication
