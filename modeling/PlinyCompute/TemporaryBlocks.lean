import PlinyCompute.RequestSizes

namespace PlinyCompute.TemporaryBlocks

open ByteRange Transition
open Allocator (HEADER_SIZE CHUNK_HEADER_SIZE AllocatorPolicy Answer Stop bytesNeeded)
open List (mem_append_left mem_append_right mem_cons_of_mem mem_cons_self mem_map_of_mem perm_middle append_assoc)

structure InactiveAllocationBlock where
  start : ℕ
  ends : ℕ
  deriving DecidableEq, Repr

structure BlockBytes where
  lastUsed : ℕ
  refCount : ℕ
  chunkSize : ℕ → ℕ

structure AllocatorState where
  throwException : Bool
  curBlockUserSupplied : Bool
  activeRAM : ℕ
  numBytes : ℕ
  chunks : ℕ → List ℕ

structure Object where
  block : ℕ
  chunk : ℕ
  deriving DecidableEq, Repr

def Object.address (o : Object) : ℕ := o.block + (o.chunk + CHUNK_HEADER_SIZE)

/-- The allocator with the memory it works on. `memory` is by the start of the block, `malloced` are the blocks
that `malloc` has returned and nobody has freed, `saved` are the states that the temporary blocks keep, that of
the innermost first, and `live` are the objects that were made and not freed. -/
structure World where
  myState : AllocatorState
  allInactives : List InactiveAllocationBlock
  policy : AllocatorPolicy
  memory : ℕ → BlockBytes
  malloced : List ℕ
  saved : List AllocatorState
  live : List Object

def AllocatorState.region (s : AllocatorState) : InactiveAllocationBlock := ⟨s.activeRAM, s.activeRAM + s.numBytes⟩

def decremented (n : ℕ) : ℕ := if n = 0 then 2 ^ 32 - 1 else n - 1

namespace World

def view (s : AllocatorState) (w : World) : Allocator.AllocatorState :=
  let bytes := w.memory s.activeRAM
  ⟨s.numBytes, s.throwException, w.policy, s.chunks, bytes.lastUsed, bytes.refCount, bytes.chunkSize⟩

def withBlock (s : Allocator.AllocatorState) (w : World) : World :=
  { w with
    myState := { w.myState with chunks := s.chunks }
    memory := Function.update w.memory w.myState.activeRAM ⟨s.lastUsed, s.refCount, s.chunkSize⟩ }

def contains (here : ℕ) (w : World) : Bool :=
  decide (w.myState.activeRAM ≤ here) && decide (here < w.myState.activeRAM + w.myState.numBytes)

def findInactive (here : ℕ) (w : World) : Option InactiveAllocationBlock :=
  (w.allInactives.find? fun b => !decide (b.ends < here)).filter fun b => !decide (b.start > here)

def isManaged (here : ℕ) (w : World) : Bool := w.contains here || (w.findInactive here).isSome

def free (start : ℕ) (w : World) : Except Stop World :=
  if start ∈ w.malloced then .ok { w with malloced := w.malloced.erase start } else .error .undefined

def setRefCount (start n : ℕ) (w : World) : World :=
  { w with memory := Function.update w.memory start { w.memory start with refCount := n } }

def retire (w : World) : Except Stop World :=
  if (w.memory w.myState.activeRAM).refCount ≠ 0 then
    .ok { w with
      allInactives := (w.allInactives ++ [w.myState.region]).insertionSort fun a b => a.ends ≤ b.ends }
  else w.free w.myState.activeRAM

def setupBlock (start numBytesIn : ℕ) (throwExceptionOnFail : Bool) (w : World) : Except Stop World :=
  if numBytesIn < HEADER_SIZE ∨ start = 0 then .error .exit
  else do
    let w ← if w.myState.curBlockUserSupplied then .ok w else w.retire
    .ok { w with
      myState := ⟨throwExceptionOnFail, false, start, numBytesIn, fun _ => []⟩
      memory := Function.update w.memory start ⟨HEADER_SIZE, 0, (w.memory start).chunkSize⟩ }

def temporarilyUseBlockForAllocations (userSupplied : Bool) (start numBytesAvailable : ℕ) (w : World) :
    Except Stop World := do
  let useMe := w.myState
  let w := { w with myState := { w.myState with curBlockUserSupplied := false } }
  -- the phantom reference
  let w := w.setRefCount useMe.activeRAM (((w.memory useMe.activeRAM).refCount + 1) % 2 ^ 32)
  let w := if userSupplied then w else { w with malloced := start :: w.malloced }
  let w ← w.setupBlock start numBytesAvailable true
  .ok { w with myState := { w.myState with curBlockUserSupplied := userSupplied }, saved := useMe :: w.saved }

/-- The block of a user goes back to the user with the objects on it. -/
def giveBack (w : World) : World := { w with live := w.live.filter (·.block ≠ w.myState.activeRAM) }

def restoreAllocationBlock (w : World) : Except Stop World :=
  match w.saved with
  | [] => .error .undefined
  | useMe :: saved => do
    let w ← if w.myState.curBlockUserSupplied then .ok w.giveBack else w.retire
    let w := { w with
      myState := useMe
      allInactives := w.allInactives.eraseP (·.start = useMe.activeRAM)
      saved }
    .ok (w.setRefCount useMe.activeRAM (decremented (w.memory useMe.activeRAM).refCount))

def getRAM (howMuch : ℕ) (w : World) : Except Stop (World × Answer) := do
  let (block, answer) ← (w.view w.myState).getRAM howMuch
  .ok (w.withBlock block, answer)

def freeRAM (here : ℕ) (w : World) : Except Stop World :=
  if w.policy = .noReferenceCountAllocator then .ok w
  else if w.contains here then do
    let block ← (w.view w.myState).defaultFreeRAM true (here - w.myState.activeRAM)
    .ok (w.withBlock block)
  else
    match w.findInactive here with
    | some i =>
      let w := w.setRefCount i.start (decremented (w.memory i.start).refCount)
      if (w.memory i.start).refCount = 0 then do
        let w ← w.free i.start
        .ok { w with allInactives := w.allInactives.erase i }
      else .ok w
    | none => .ok w

end World

inductive Call
  | temporarilyUseBlockForAllocations (userSupplied : Bool) (start numBytesAvailable : ℕ)
  | restoreAllocationBlock
  | make (howMuch : ℕ)
  | free (here : ℕ)
  | setPolicy (policy : AllocatorPolicy)
  deriving DecidableEq, Repr

def step (c : Call) (w : World) : Except Stop World :=
  match c with
  | .temporarilyUseBlockForAllocations userSupplied start numBytesAvailable =>
    w.temporarilyUseBlockForAllocations userSupplied start numBytesAvailable
  | .restoreAllocationBlock => w.restoreAllocationBlock
  | .make howMuch => do
    match ← w.getRAM howMuch with
    | (w, .address here) => .ok { w with live := ⟨w.myState.activeRAM, here - CHUNK_HEADER_SIZE⟩ :: w.live }
    | (w, _) => .ok w
  | .free here => do
    let w ← w.freeRAM here
    .ok { w with live := w.live.eraseP (·.address = here) }
  | .setPolicy policy => .ok { w with policy }

namespace World

def regions (w : World) : List InactiveAllocationBlock := w.myState.region :: w.allInactives

def chunksOf (start : ℕ) (w : World) : List ℕ := (w.live.filter (·.block = start)).map Object.chunk

end World

def Start (w : World) : Prop :=
  ∃ throwExceptionOnFail userSupplied start numBytes policy memory garbage, HEADER_SIZE ≤ numBytes ∧
    w = ⟨⟨throwExceptionOnFail, userSupplied, start, numBytes, fun _ => []⟩, [], policy,
      Function.update memory start ⟨HEADER_SIZE, 0, garbage⟩, if userSupplied then [] else [start], [], []⟩

/-- A new block has memory of its own. An address that is freed is that of a live object, or it lies in none of
the blocks, as that of an object on memory that was given back. -/
def Legal (c : Call) (w : World) : Prop :=
  match c with
  | .temporarilyUseBlockForAllocations _ start numBytesAvailable =>
    ∀ b ∈ w.regions, b.ends ≤ start ∨ start + numBytesAvailable ≤ b.start
  | .restoreAllocationBlock => w.saved ≠ []
  | .free here => (∃ o ∈ w.live, o.address = here) ∨ ∀ b ∈ w.regions, here < b.start ∨ b.ends < here
  | _ => True

/-- The policy without counts leaves an object that is freed where it is. -/
def Proper (c : Call) (w : World) : Prop :=
  match c with
  | .free here => w.policy = .noReferenceCountAllocator → ∀ o ∈ w.live, o.address ≠ here
  | .temporarilyUseBlockForAllocations _ _ _ => (w.chunksOf w.myState.activeRAM).length + 1 < 2 ^ 32
  | .make howMuch => (w.view w.myState).HasRoom (bytesNeeded howMuch) →
    2 * CHUNK_HEADER_SIZE ≤ bytesNeeded howMuch ∧ (w.chunksOf w.myState.activeRAM).length + 1 < 2 ^ 32
  | _ => True

def Allowed (c : Call) (w : World) : Prop := Legal c w ∧ Proper c w

def World.states (w : World) : List AllocatorState := w.myState :: w.saved

structure World.Nested (w : World) : Prop where
  sorted : w.allInactives.Pairwise fun a b => a.ends < b.ends
  disjoint : w.allInactives.Pairwise fun a b => a.ends ≤ b.start ∨ b.ends ≤ a.start
  managed : ∀ o ∈ w.live, w.isManaged o.address = true
  unique : w.malloced.Nodup
  allocated : ∀ start, start ∈ w.malloced ↔
    (∀ s ∈ w.states, s.activeRAM = start → s.curBlockUserSupplied = false) ∧
      ((∃ s ∈ w.states, s.activeRAM = start) ∨ ∃ o ∈ w.live, o.block = start)

structure Sound (w : Allocator.World) : Prop extends w.Inside where
  large : ∀ c ∈ w.live ++ w.block.freeChunks, 2 * CHUNK_HEADER_SIZE ≤ w.block.chunkSize c

namespace Sound

variable {b b' : Allocator.AllocatorState} {live live' : List ℕ} {c howMuch : ℕ}

theorem congr (h : Sound ⟨b, live⟩) (hn : b'.numBytes = b.numBytes) (hc : b'.chunks = b.chunks)
    (hl : b'.lastUsed = b.lastUsed) (hs : b'.chunkSize = b.chunkSize) : Sound ⟨b', live⟩ := by
  have hfree : b'.freeChunks = b.freeChunks := by
    unfold Allocator.AllocatorState.freeChunks
    rw [hc]
  refine ⟨⟨?_, ?_, ?_, ?_, ?_⟩, ?_⟩
  · exact hl ▸ h.header
  · exact hl ▸ hn ▸ h.used
  · dsimp only
    rw [hfree, hs, hl]
    exact h.inside
  · dsimp only
    rw [hfree, hs]
    exact h.sized
  · dsimp only
    rw [hc, hs]
    exact h.classed
  · dsimp only
    rw [hfree, hs]
    exact h.large

theorem subset (h : Sound ⟨b, live⟩) (hl : ∀ d ∈ live', d ∈ live) : Sound ⟨b, live'⟩ := by
  have hall : ∀ d ∈ live' ++ b.freeChunks, d ∈ live ++ b.freeChunks := by
    intro d hd
    obtain hd | hd := List.mem_append.mp hd
    · exact mem_append_left _ (hl d hd)
    · exact mem_append_right _ hd
  exact ⟨⟨h.header, h.used, fun d hd => h.inside d (hall d hd), fun d hd => h.sized d (hall d hd), h.classed⟩,
    fun d hd => h.large d (hall d hd)⟩

theorem address (h : Sound ⟨b, live⟩) (hc : c ∈ live) : c + CHUNK_HEADER_SIZE < b.numBytes := by
  have hinside := (h.inside c (mem_append_left _ hc)).2
  have hlarge := h.large c (mem_append_left _ hc)
  have hused := h.used
  unfold CHUNK_HEADER_SIZE at hlarge ⊢
  dsimp only at hinside hlarge hused
  omega

theorem getRAM_frame {here : ℕ} (he : b.getRAM howMuch = .ok (b', .address here)) :
    b'.refCount = (b.refCount + 1) % 2 ^ 32 ∧ (∀ d, d ≠ b.lastUsed → b'.chunkSize d = b.chunkSize d) ∧
      ∀ d ∈ b'.freeChunks, d ∈ b.freeChunks := by
  have hcarve : b.carve (bytesNeeded howMuch) = (b', .address here) →
      b'.refCount = (b.refCount + 1) % 2 ^ 32 ∧ (∀ d, d ≠ b.lastUsed → b'.chunkSize d = b.chunkSize d) ∧
        ∀ d ∈ b'.freeChunks, d ∈ b.freeChunks := by
    intro hcarve
    unfold Allocator.AllocatorState.carve at hcarve
    split_ifs at hcarve
    · cases hcarve
    · cases hcarve
    · cases hcarve
      exact ⟨rfl, fun d hd => Function.update_of_ne hd _ _, fun d hd => hd⟩
  by_cases hpol : b.policy = .noReuseAllocator
  · rw [Allocator.AllocatorState.getRAM_of_noReuse hpol] at he
    exact hcarve (Except.ok.inj he)
  · rw [Allocator.AllocatorState.getRAM_of_reuse hpol, Allocator.AllocatorState.defaultGetRAM] at he
    obtain ⟨i, hi, he⟩ := bind_eq_ok.mp he
    cases hs : b.search (bytesNeeded howMuch) (32 - i) i with
    | none =>
      rw [hs] at he
      exact hcarve (Except.ok.inj he)
    | some p =>
      rw [hs] at he
      cases he
      obtain ⟨j, hj, rest, hperm, heq⟩ := Allocator.AllocatorState.search_some hs
      rw [heq]
      refine ⟨rfl, fun _ _ => rfl, ?_⟩
      intro d hd
      have hclass : i < 32 := by
        unfold Allocator.sizeClass at hi
        split_ifs at hi with hzero
        cases hi
        exact (Nat.log2_lt hzero).mpr (Allocator.bytesNeeded_lt howMuch)
      have hfree := Allocator.AllocatorState.freeChunks_take (s := b) (by omega) hperm
      exact hfree.mem_iff.mpr (mem_cons_of_mem _ hd)

theorem getRAM (h : Sound ⟨b, live⟩)
    (hlarge : b.HasRoom (bytesNeeded howMuch) → 2 * CHUNK_HEADER_SIZE ≤ bytesNeeded howMuch) :
    (∃ answer, b.getRAM howMuch = .ok (b, answer) ∧ ∀ here, answer ≠ .address here) ∨
      ∃ b' c, b.getRAM howMuch = .ok (b', .address (c + CHUNK_HEADER_SIZE)) ∧
        b.HasRoom (bytesNeeded howMuch) ∧ Sound ⟨b', c :: live⟩ ∧
        b'.numBytes = b.numBytes ∧ b'.refCount = (b.refCount + 1) % 2 ^ 32 := by
  by_cases hroom : b.HasRoom (bytesNeeded howMuch)
  · right
    have hneeded := hlarge hroom
    unfold CHUNK_HEADER_SIZE at hneeded
    obtain ⟨hzero, -⟩ | ⟨b', c, hget, hinside, hle, hbytes⟩ := h.getRAM_room hroom
    · omega
    · obtain ⟨hcount, hsizes, hfree⟩ := getRAM_frame hget
      refine ⟨b', c, hget, hroom, ⟨hinside, ?_⟩, hbytes, hcount⟩
      have hold : ∀ d ∈ live ++ b.freeChunks, 2 * CHUNK_HEADER_SIZE ≤ b'.chunkSize d := by
        intro d hd
        have hlarge := h.large d hd
        have hin := (h.inside d hd).2
        dsimp only at hlarge hin
        have hne : d ≠ b.lastUsed := by
          unfold CHUNK_HEADER_SIZE at hlarge
          omega
        rw [hsizes d hne]
        exact hlarge
      intro d hd
      obtain rfl | hd := List.mem_cons.mp hd
      · unfold CHUNK_HEADER_SIZE
        dsimp only
        omega
      · obtain hd | hd := List.mem_append.mp hd
        · exact hold d (mem_append_left _ hd)
        · exact hold d (mem_append_right _ (hfree d hd))
  · left
    refine ⟨_, h.getRAM_noRoom hroom, ?_⟩
    intro here
    split_ifs <;> nofun

theorem freeRAM (h : Sound ⟨b, live⟩) (hc : c ∈ live) :
    ∃ b', b.defaultFreeRAM true (c + CHUNK_HEADER_SIZE) = .ok b' ∧ Sound ⟨b', live⟩ ∧
      b'.numBytes = b.numBytes ∧ b'.lastUsed = b.lastUsed ∧ b'.chunkSize = b.chunkSize ∧
      b'.refCount = decremented b.refCount := by
  have hlarge := h.large c (mem_append_left _ hc)
  have hzero : b.chunkSize c ≠ 0 := by
    unfold CHUNK_HEADER_SIZE at hlarge
    dsimp only at hlarge
    omega
  obtain ⟨b', hb', hfields⟩ : ∃ b', b.defaultFreeRAM true (c + CHUNK_HEADER_SIZE) = .ok b' ∧
      b'.numBytes = b.numBytes ∧ b'.lastUsed = b.lastUsed ∧ b'.chunkSize = b.chunkSize ∧
      b'.refCount = decremented b.refCount ∧ ∀ d ∈ b'.freeChunks, d ∈ c :: b.freeChunks := by
    unfold Allocator.AllocatorState.defaultFreeRAM Allocator.sizeClass
    rw [if_pos rfl, Nat.add_sub_cancel]
    dsimp only
    rw [if_neg hzero, ok_bind]
    refine ⟨_, rfl, rfl, rfl, rfl, rfl, ?_⟩
    intro d hd
    have hlog : (b.chunkSize c).log2 < 32 :=
      (Nat.log2_lt hzero).mpr (h.sized c (mem_append_left _ hc)).1
    exact (Allocator.AllocatorState.freeChunks_push hlog).mem_iff.mp hd
  obtain ⟨hn, hl, hs, hr, hfree⟩ := hfields
  refine ⟨b', hb', ⟨?_, ?_⟩, hn, hl, hs, hr⟩
  · have htwice : Sound ⟨b, c :: live⟩ := by
      apply h.subset
      intro d hd
      obtain rfl | hd := List.mem_cons.mp hd
      · exact hc
      · exact hd
    have hreleased := htwice.toInside.release mem_cons_self hb'
    rwa [List.erase_cons_head] at hreleased
  · intro d hd
    dsimp only
    rw [hs]
    obtain hd | hd := List.mem_append.mp hd
    · exact h.large d (mem_append_left _ hd)
    · obtain rfl | hd := List.mem_cons.mp (hfree d hd)
      · exact hlarge
      · exact h.large d (mem_append_right _ hd)

end Sound

variable {w w' : World} {s t : AllocatorState} {active idle : List AllocatorState}

def AllocatorState.Apart (s t : AllocatorState) : Prop :=
  ByteRange.Apart s.activeRAM s.numBytes t.activeRAM t.numBytes

instance : Std.Symm AllocatorState.Apart := ⟨fun _ _ h => ByteRange.Apart.symm h⟩

namespace World

def part (s : AllocatorState) (w : World) : Allocator.World := ⟨w.view s, w.chunksOf s.activeRAM⟩

def Kept (w w' : World) (s : AllocatorState) : Prop :=
  (w'.memory s.activeRAM).lastUsed = (w.memory s.activeRAM).lastUsed ∧
    (w'.memory s.activeRAM).chunkSize = (w.memory s.activeRAM).chunkSize

structure Holds (w : World) (active idle : List AllocatorState) : Prop where
  inactive : w.allInactives.Perm ((w.saved ++ idle).map AllocatorState.region)
  sorted : w.allInactives.Pairwise fun a b => a.ends < b.ends
  apart : (active ++ (w.saved ++ idle)).Pairwise AllocatorState.Apart
  sound : ∀ s ∈ active ++ (w.saved ++ idle), Sound (w.part s)
  home : ∀ o ∈ w.live, ∃ s ∈ active ++ (w.saved ++ idle), s.activeRAM = o.block
  few : ∀ s ∈ active ++ (w.saved ++ idle), (w.memory s.activeRAM).refCount < 2 ^ 32
  counted : ∀ s ∈ active, (w.memory s.activeRAM).refCount = (w.chunksOf s.activeRAM).length
  suspended : ∀ s ∈ w.saved, (w.memory s.activeRAM).refCount = (w.chunksOf s.activeRAM).length + 1
  referenced : ∀ s ∈ idle, s.curBlockUserSupplied = false ∧ w.chunksOf s.activeRAM ≠ [] ∧
    (w.memory s.activeRAM).refCount = (w.chunksOf s.activeRAM).length
  malloced : w.malloced.Perm
    (((active ++ (w.saved ++ idle)).filter (·.curBlockUserSupplied = false)).map AllocatorState.activeRAM)

end World

namespace World

def suspended (w : World) : World :=
  { w.setRefCount w.myState.activeRAM ((w.memory w.myState.activeRAM).refCount + 1) with
    allInactives := (w.allInactives ++ [w.myState.region]).insertionSort fun a b => a.ends ≤ b.ends
    saved := w.myState :: w.saved }

def activated (s : AllocatorState) (w : World) : World :=
  { w with
    myState := s
    memory := Function.update w.memory s.activeRAM ⟨HEADER_SIZE, 0, (w.memory s.activeRAM).chunkSize⟩
    malloced := if s.curBlockUserSupplied then w.malloced else s.activeRAM :: w.malloced }

theorem setupBlock_eq {start numBytesIn : ℕ} {throwExceptionOnFail : Bool}
    (hu : w.myState.curBlockUserSupplied = false) (hc : (w.memory w.myState.activeRAM).refCount ≠ 0) :
    w.setupBlock start numBytesIn throwExceptionOnFail =
      if numBytesIn < HEADER_SIZE ∨ start = 0 then .error .exit
      else .ok { w with
        allInactives := (w.allInactives ++ [w.myState.region]).insertionSort fun a b => a.ends ≤ b.ends
        myState := ⟨throwExceptionOnFail, false, start, numBytesIn, fun _ => []⟩
        memory := Function.update w.memory start ⟨HEADER_SIZE, 0, (w.memory start).chunkSize⟩ } := by
  unfold World.setupBlock World.retire
  rw [hu, if_pos hc]
  rfl

theorem temporarilyUseBlockForAllocations_eq (userSupplied : Bool) (start numBytesAvailable : ℕ)
    (hc : (w.memory w.myState.activeRAM).refCount + 1 < 2 ^ 32) :
    w.temporarilyUseBlockForAllocations userSupplied start numBytesAvailable =
      if numBytesAvailable < HEADER_SIZE ∨ start = 0 then .error .exit
      else .ok (w.suspended.activated ⟨true, userSupplied, start, numBytesAvailable, fun _ => []⟩) := by
  have hphantom : ((World.setRefCount w.myState.activeRAM ((w.memory w.myState.activeRAM).refCount + 1) w).memory
      w.myState.activeRAM).refCount ≠ 0 := by
    simp [World.setRefCount]
  unfold World.temporarilyUseBlockForAllocations
  simp only [Nat.mod_eq_of_lt hc]
  cases userSupplied with
  | true =>
    rw [if_pos rfl, setupBlock_eq]
    · split_ifs <;> rfl
    · rfl
    · exact hphantom
  | false =>
    rw [if_neg (by decide), setupBlock_eq]
    · split_ifs <;> rfl
    · rfl
    · exact hphantom

end World

theorem sort_regions {l : List InactiveAllocationBlock} {states : List AllocatorState}
    (hl : l.Perm (states.map AllocatorState.region)) (ha : states.Pairwise AllocatorState.Apart)
    (hpos : ∀ s ∈ states, 0 < s.numBytes) :
    (l.insertionSort fun a b => a.ends ≤ b.ends).Perm (states.map AllocatorState.region) ∧
      (l.insertionSort fun a b => a.ends ≤ b.ends).Pairwise fun a b => a.ends < b.ends := by
  have hperm := (List.perm_insertionSort (fun a b : InactiveAllocationBlock => a.ends ≤ b.ends) l).trans hl
  refine ⟨hperm, ?_⟩
  have : Std.Total fun a b : InactiveAllocationBlock => a.ends ≤ b.ends := ⟨fun a b => Nat.le_total a.ends b.ends⟩
  have : IsTrans InactiveAllocationBlock fun a b => a.ends ≤ b.ends := ⟨fun a b c => Nat.le_trans⟩
  have hsorted := List.pairwise_insertionSort (fun a b : InactiveAllocationBlock => a.ends ≤ b.ends) l
  have hapart : (l.insertionSort fun a b => a.ends ≤ b.ends).Pairwise
      fun a b => a.ends ≤ b.start ∨ b.ends ≤ a.start := by
    apply (hperm.pairwise_iff (fun hab => Or.symm hab)).mpr
    rw [List.pairwise_map]
    exact ha
  apply (hsorted.and hapart).imp_of_mem
  intro a b ha hb hab
  obtain ⟨s, hs, rfl⟩ := List.mem_map.mp (hperm.mem_iff.mp ha)
  obtain ⟨t, ht, rfl⟩ := List.mem_map.mp (hperm.mem_iff.mp hb)
  have := hpos s hs
  have := hpos t ht
  unfold AllocatorState.region at hab ⊢
  dsimp only at hab ⊢
  omega

theorem World.kept_of_memory (hm : w'.memory s.activeRAM = w.memory s.activeRAM) : w.Kept w' s := by
  unfold World.Kept
  rw [hm]
  exact ⟨rfl, rfl⟩

theorem Sound.kept (h : Sound (w.part s)) (hk : w.Kept w' s)
    (hl : ∀ d ∈ w'.chunksOf s.activeRAM, d ∈ w.chunksOf s.activeRAM) : Sound (w'.part s) := by
  have hlive : Sound ⟨w.view s, w'.chunksOf s.activeRAM⟩ := h.subset hl
  exact hlive.congr rfl rfl hk.1 hk.2

namespace World.Holds

theorem header (h : w.Holds active idle) (hs : s ∈ active ++ (w.saved ++ idle)) : HEADER_SIZE ≤ s.numBytes :=
  (h.sound s hs).header.trans (h.sound s hs).used

theorem positive (h : w.Holds active idle) (hs : s ∈ active ++ (w.saved ++ idle)) : 0 < s.numBytes :=
  Nat.lt_of_lt_of_le (by decide) (h.header hs)

theorem activeRAM_ne (h : w.Holds active idle) (hs : s ∈ active ++ (w.saved ++ idle))
    (ht : t ∈ active ++ (w.saved ++ idle)) (hst : s.Apart t) : s.activeRAM ≠ t.activeRAM := by
  have := h.positive hs
  have := h.positive ht
  unfold AllocatorState.Apart ByteRange.Apart at hst
  omega

theorem activeRAM_injective (h : w.Holds active idle) (hs : s ∈ active ++ (w.saved ++ idle))
    (ht : t ∈ active ++ (w.saved ++ idle)) (heq : s.activeRAM = t.activeRAM) : s = t := by
  by_contra hne
  exact h.activeRAM_ne hs ht (h.apart.forall hs ht hne) heq

theorem located (h : w.Holds active idle) {o : Object} (ho : o ∈ w.live) :
    ∃ s ∈ active ++ (w.saved ++ idle), s.activeRAM = o.block ∧ o.chunk ∈ w.chunksOf s.activeRAM ∧
      s.activeRAM < o.address ∧ o.address < s.activeRAM + s.numBytes := by
  obtain ⟨s, hs, hblock⟩ := h.home o ho
  have hchunk : o.chunk ∈ w.chunksOf s.activeRAM := by
    apply mem_map_of_mem
    exact List.mem_filter.mpr ⟨ho, decide_eq_true hblock.symm⟩
  have haddress : o.chunk + CHUNK_HEADER_SIZE < s.numBytes := (h.sound s hs).address hchunk
  refine ⟨s, hs, hblock, hchunk, ?_, ?_⟩
  · unfold Object.address CHUNK_HEADER_SIZE
    omega
  · unfold Object.address
    omega

theorem findInactive_of_mem (h : w.Holds active idle) (hs : s ∈ w.saved ++ idle) {here : ℕ}
    (hlo : s.activeRAM < here) (hhi : here < s.activeRAM + s.numBytes) : w.findInactive here = some s.region := by
  have hregions : ∀ b ∈ w.allInactives, ∃ s ∈ w.saved ++ idle, s.region = b :=
    fun b hb => List.mem_map.mp (h.inactive.mem_iff.mp hb)
  have hsub : ∀ s ∈ w.saved ++ idle, s ∈ active ++ (w.saved ++ idle) := fun s hs => mem_append_right _ hs
  have hapart : w.allInactives.Pairwise fun a b => a.ends ≤ b.start ∨ b.ends ≤ a.start := by
    apply (h.inactive.pairwise_iff (fun hab => Or.symm hab)).mpr
    rw [List.pairwise_map]
    exact (List.pairwise_append.mp h.apart).2.1
  have hfound : w.allInactives.find? (fun b => !decide (b.ends < here)) = some s.region := by
    apply find?_range h.sorted hapart
    · intro b hb
      obtain ⟨t, -, rfl⟩ := hregions b hb
      exact Nat.le_add_right _ _
    · exact h.inactive.mem_iff.mpr (mem_map_of_mem hs)
    · exact hlo
    · exact hhi.le
  rw [World.findInactive, hfound, Option.filter_some_pos]
  simpa [AllocatorState.region] using hlo.le

theorem managed (h : w.Holds [w.myState] idle) {o : Object} (ho : o ∈ w.live) : w.isManaged o.address = true := by
  obtain ⟨s, hs, -, -, hlo, hhi⟩ := h.located ho
  unfold World.isManaged
  rw [Bool.or_eq_true]
  obtain rfl | hs := List.mem_cons.mp hs
  · left
    unfold World.contains
    rw [Bool.and_eq_true, decide_eq_true_iff, decide_eq_true_iff]
    exact ⟨hlo.le, hhi⟩
  · right
    rw [h.findInactive_of_mem hs hlo hhi]
    rfl

theorem mem_blocks : s ∈ [w.myState] ++ (w.saved ++ idle) ↔ s ∈ w.states ∨ s ∈ idle := by
  simp [World.states, or_assoc]

theorem nested (h : w.Holds [w.myState] idle) : w.Nested where
  sorted := h.sorted
  disjoint := by
    apply (h.inactive.pairwise_iff (fun hab => Or.symm hab)).mpr
    rw [List.pairwise_map]
    exact (List.pairwise_append.mp h.apart).2.1
  managed o ho := h.managed ho
  unique := by
    apply h.malloced.nodup_iff.mpr
    rw [List.Nodup, List.pairwise_map]
    apply (h.apart.filter _).imp_of_mem
    intro s t hs ht hst
    exact h.activeRAM_ne (List.mem_filter.mp hs).1 (List.mem_filter.mp ht).1 hst
  allocated start := by
    rw [h.malloced.mem_iff, List.mem_map]
    constructor
    · rintro ⟨s, hs, rfl⟩
      obtain ⟨hs, huser⟩ := List.mem_filter.mp hs
      refine ⟨?_, ?_⟩
      · intro t ht heq
        rw [h.activeRAM_injective (mem_blocks.mpr (.inl ht)) hs heq]
        exact of_decide_eq_true huser
      · obtain hs | hs := mem_blocks.mp hs
        · exact .inl ⟨s, hs, rfl⟩
        · obtain ⟨c, hc⟩ := List.exists_mem_of_ne_nil _ (h.referenced s hs).2.1
          obtain ⟨o, ho, -⟩ := List.mem_map.mp hc
          obtain ⟨ho, hblock⟩ := List.mem_filter.mp ho
          exact .inr ⟨o, ho, of_decide_eq_true hblock⟩
    · rintro ⟨huser, hused⟩
      obtain ⟨s, hs, rfl⟩ | ⟨o, ho, rfl⟩ := hused
      · exact ⟨s, List.mem_filter.mpr ⟨mem_blocks.mpr (.inl hs), decide_eq_true (huser s hs rfl)⟩, rfl⟩
      · obtain ⟨s, hs, hblock⟩ := h.home o ho
        refine ⟨s, List.mem_filter.mpr ⟨hs, decide_eq_true ?_⟩, hblock⟩
        obtain hs | hs := mem_blocks.mp hs
        · exact huser s hs hblock
        · exact (h.referenced s hs).1

theorem ne_active (h : w.Holds (t :: active) idle) (hs : s ∈ active ++ (w.saved ++ idle)) :
    s.activeRAM ≠ t.activeRAM :=
  (h.activeRAM_ne mem_cons_self (mem_cons_of_mem _ hs) (List.rel_of_pairwise_cons h.apart hs)).symm

section SetRefCount

variable {start n x : ℕ}

theorem setRefCount_kept (start n : ℕ) (w : World) (s : AllocatorState) : w.Kept (w.setRefCount start n) s := by
  unfold World.Kept World.setRefCount
  dsimp only
  by_cases hs : s.activeRAM = start
  · rw [hs, Function.update_self]
    exact ⟨rfl, rfl⟩
  · rw [Function.update_of_ne hs]
    exact ⟨rfl, rfl⟩

theorem setRefCount_self : ((w.setRefCount start n).memory start).refCount = n := by
  simp [World.setRefCount]

theorem setRefCount_of_ne (hne : x ≠ start) : (w.setRefCount start n).memory x = w.memory x :=
  Function.update_of_ne hne _ _

end SetRefCount

theorem suspend (h : w.Holds [w.myState] idle) (hc : (w.chunksOf w.myState.activeRAM).length + 1 < 2 ^ 32) :
    w.suspended.Holds [] idle := by
  have hother : ∀ s ∈ w.saved ++ idle, w.suspended.memory s.activeRAM = w.memory s.activeRAM := by
    intro s hs
    exact setRefCount_of_ne (h.ne_active hs)
  have hself : (w.suspended.memory w.myState.activeRAM).refCount = (w.chunksOf w.myState.activeRAM).length + 1 := by
    rw [← h.counted _ mem_cons_self]
    exact setRefCount_self
  have hregions : (w.allInactives ++ [w.myState.region]).Perm
      ((w.myState :: (w.saved ++ idle)).map AllocatorState.region) :=
    (List.perm_append_singleton _ _).trans (h.inactive.cons _)
  obtain ⟨hinactive, hsorted⟩ := sort_regions hregions h.apart fun s hs => h.positive hs
  refine ⟨hinactive, hsorted, h.apart, ?_, h.home, ?_, nofun, ?_, ?_, h.malloced⟩
  · intro s hs
    exact (h.sound s hs).kept (setRefCount_kept _ _ w s) fun d hd => hd
  · intro s hs
    obtain rfl | hs := List.mem_cons.mp hs
    · rw [hself]
      exact hc
    · rw [hother s hs]
      exact h.few s (mem_cons_of_mem _ hs)
  · intro s hs
    obtain rfl | hs := List.mem_cons.mp hs
    · exact hself
    · rw [hother s (mem_append_left _ hs)]
      exact h.suspended s hs
  · intro s hs
    rw [hother s (mem_append_right _ hs)]
    exact h.referenced s hs

theorem activate (h : w.Holds [] idle) (hs : HEADER_SIZE ≤ s.numBytes) (hchunks : s.chunks = fun _ => [])
    (ha : ∀ b ∈ w.allInactives, b.ends ≤ s.activeRAM ∨ s.activeRAM + s.numBytes ≤ b.start) :
    (w.activated s).Holds [s] idle := by
  have hapart : ∀ t ∈ w.saved ++ idle, s.Apart t := by
    intro t ht
    exact Or.symm (ha t.region (h.inactive.mem_iff.mpr (mem_map_of_mem ht)))
  have hne : ∀ t ∈ w.saved ++ idle, t.activeRAM ≠ s.activeRAM := by
    intro t ht
    have hst := hapart t ht
    have := h.positive ht
    unfold HEADER_SIZE at hs
    unfold AllocatorState.Apart ByteRange.Apart at hst
    omega
  have hother : ∀ t ∈ w.saved ++ idle, (w.activated s).memory t.activeRAM = w.memory t.activeRAM :=
    fun t ht => Function.update_of_ne (hne t ht) _ _
  have hself : (w.activated s).memory s.activeRAM = ⟨HEADER_SIZE, 0, (w.memory s.activeRAM).chunkSize⟩ :=
    Function.update_self _ _ _
  have hempty : (w.activated s).chunksOf s.activeRAM = [] := by
    unfold World.chunksOf
    rw [List.map_eq_nil_iff, List.filter_eq_nil_iff]
    intro o ho hblock
    obtain ⟨t, ht, heq⟩ := h.home o ho
    exact hne t ht (heq.trans (of_decide_eq_true hblock))
  refine ⟨h.inactive, h.sorted, List.pairwise_cons.mpr ⟨hapart, h.apart⟩, ?_, ?_, ?_, ?_, ?_, ?_, ?_⟩
  · intro t ht
    obtain rfl | ht := List.mem_cons.mp ht
    · have hnil : Allocator.AllocatorState.freeChunks ((w.activated t).view t) = [] := by
        simp [Allocator.AllocatorState.freeChunks, World.view, hchunks]
      unfold World.part
      rw [hempty]
      refine ⟨⟨?_, ?_, ?_, ?_, ?_⟩, ?_⟩
      · simp [World.view, hself]
      · simpa [World.view, hself] using hs
      · simp [hnil]
      · simp [hnil]
      · simp [World.view, hchunks]
      · simp [hnil]
    · exact (h.sound t ht).kept (World.kept_of_memory (hother t ht)) fun d hd => hd
  · intro o ho
    obtain ⟨t, ht, heq⟩ := h.home o ho
    exact ⟨t, mem_cons_of_mem _ ht, heq⟩
  · intro t ht
    obtain rfl | ht := List.mem_cons.mp ht
    · simp [hself]
    · rw [hother t ht]
      exact h.few t ht
  · intro t ht
    obtain rfl := List.mem_singleton.mp ht
    rw [hself, hempty]
    rfl
  · intro t ht
    rw [hother t (mem_append_left _ ht)]
    exact h.suspended t ht
  · intro t ht
    rw [hother t (mem_append_right _ ht)]
    exact h.referenced t ht
  · change (if s.curBlockUserSupplied then w.malloced else s.activeRAM :: w.malloced).Perm _
    cases huser : s.curBlockUserSupplied with
    | true => simpa [huser, World.activated] using h.malloced
    | false => simpa [huser, World.activated] using h.malloced.cons s.activeRAM

theorem retire (h : w.Holds [w.myState] idle) (hu : w.myState.curBlockUserSupplied = false) :
    ∃ w₁ idle', w.retire = .ok w₁ ∧ w₁.Holds [] idle' ∧ w₁.saved = w.saved ∧ w₁.memory = w.memory := by
  have hcount := h.counted _ mem_cons_self
  unfold World.retire
  by_cases hzero : (w.memory w.myState.activeRAM).refCount = 0
  · have hempty : w.chunksOf w.myState.activeRAM = [] := List.eq_nil_of_length_eq_zero (hcount ▸ hzero)
    have hmalloced : w.malloced.Perm (w.myState.activeRAM ::
        ((w.saved ++ idle).filter (·.curBlockUserSupplied = false)).map AllocatorState.activeRAM) := by
      simpa [hu] using h.malloced
    have hmem : w.myState.activeRAM ∈ w.malloced := hmalloced.mem_iff.mpr mem_cons_self
    rw [if_neg (not_not.mpr hzero), World.free, if_pos hmem]
    refine ⟨_, idle, rfl, ⟨h.inactive, h.sorted, ?_, ?_, ?_, ?_, nofun, h.suspended, h.referenced, ?_⟩, rfl, rfl⟩
    · exact (List.pairwise_cons.mp h.apart).2
    · intro s hs
      exact h.sound s (mem_cons_of_mem _ hs)
    · intro o ho
      obtain ⟨s, hs, heq⟩ := h.home o ho
      obtain rfl | hs := List.mem_cons.mp hs
      · have hchunk : o.chunk ∈ w.chunksOf w.myState.activeRAM :=
          mem_map_of_mem (List.mem_filter.mpr ⟨ho, decide_eq_true heq.symm⟩)
        rw [hempty] at hchunk
        cases hchunk
      · exact ⟨s, hs, heq⟩
    · intro s hs
      exact h.few s (mem_cons_of_mem _ hs)
    · have := hmalloced.erase w.myState.activeRAM
      rwa [List.erase_cons_head] at this
  · have hperm : (w.saved ++ w.myState :: idle).Perm (w.myState :: (w.saved ++ idle)) := perm_middle
    have hregions : (w.allInactives ++ [w.myState.region]).Perm
        ((w.myState :: (w.saved ++ idle)).map AllocatorState.region) :=
      (List.perm_append_singleton _ _).trans (h.inactive.cons _)
    obtain ⟨hinactive, hsorted⟩ := sort_regions hregions h.apart fun s hs => h.positive hs
    rw [if_pos hzero]
    refine ⟨_, w.myState :: idle, rfl, ⟨?_, hsorted, ?_, ?_, ?_, ?_, nofun, h.suspended, ?_, ?_⟩, rfl, rfl⟩
    · exact hinactive.trans (hperm.map _).symm
    · exact (hperm.pairwise_iff (fun hst => Std.Symm.symm _ _ hst)).mpr h.apart
    · intro s hs
      exact h.sound s (hperm.mem_iff.mp hs)
    · intro o ho
      obtain ⟨s, hs, heq⟩ := h.home o ho
      exact ⟨s, hperm.mem_iff.mpr hs, heq⟩
    · intro s hs
      exact h.few s (hperm.mem_iff.mp hs)
    · intro s hs
      obtain rfl | hs := List.mem_cons.mp hs
      · refine ⟨hu, ?_, hcount⟩
        intro hempty
        have hlen : (w.chunksOf w.myState.activeRAM).length = 0 := List.length_eq_zero_iff.mpr hempty
        exact hzero (hcount.trans hlen)
      · exact h.referenced s hs
    · exact h.malloced.trans ((hperm.filter _).map _).symm

theorem giveBack (h : w.Holds [w.myState] idle) (hu : w.myState.curBlockUserSupplied = true) :
    w.giveBack.Holds [] idle := by
  have hne : ∀ s ∈ w.saved ++ idle, s.activeRAM ≠ w.myState.activeRAM := fun s hs => h.ne_active hs
  have hchunks : ∀ s ∈ w.saved ++ idle, w.giveBack.chunksOf s.activeRAM = w.chunksOf s.activeRAM := by
    intro s hs
    unfold World.chunksOf World.giveBack
    rw [List.filter_filter]
    congr 1
    apply List.filter_congr
    intro o _
    by_cases ho : o.block = s.activeRAM
    · simp [ho, hne s hs]
    · simp [ho]
  refine ⟨h.inactive, h.sorted, (List.pairwise_cons.mp h.apart).2, ?_, ?_, ?_, nofun, ?_, ?_, ?_⟩
  · intro s hs
    have hpart : w.giveBack.part s = w.part s := by
      unfold World.part
      rw [hchunks s hs]
      rfl
    rw [hpart]
    exact h.sound s (mem_cons_of_mem _ hs)
  · intro o ho
    obtain ⟨ho, hblock⟩ := List.mem_filter.mp ho
    obtain ⟨s, hs, heq⟩ := h.home o ho
    obtain rfl | hs := List.mem_cons.mp hs
    · exact absurd heq.symm (of_decide_eq_true hblock)
    · exact ⟨s, hs, heq⟩
  · intro s hs
    exact h.few s (mem_cons_of_mem _ hs)
  · intro s hs
    rw [hchunks s (mem_append_left _ hs)]
    exact h.suspended s hs
  · intro s hs
    rw [hchunks s (mem_append_right _ hs)]
    exact h.referenced s hs
  · simpa [hu, World.giveBack] using h.malloced

theorem resume {useMe : AllocatorState} {saved : List AllocatorState} (h : w.Holds [] idle)
    (hsaved : w.saved = useMe :: saved) :
    (World.setRefCount useMe.activeRAM (decremented (w.memory useMe.activeRAM).refCount) { w with
      myState := useMe
      allInactives := w.allInactives.eraseP (·.start = useMe.activeRAM)
      saved }).Holds [useMe] idle := by
  have hmem : useMe ∈ [] ++ (w.saved ++ idle) := by simp [hsaved]
  have hall : ∀ s ∈ [useMe] ++ (saved ++ idle), s ∈ [] ++ (w.saved ++ idle) := by
    intro s hs
    rw [hsaved]
    exact hs
  have hapart := h.apart
  rw [hsaved] at hapart
  have hother : ∀ s ∈ saved ++ idle, s.activeRAM ≠ useMe.activeRAM := by
    intro s hs
    exact (h.activeRAM_ne hmem (hall s (mem_cons_of_mem _ hs)) (List.rel_of_pairwise_cons hapart hs)).symm
  have hcount := h.suspended useMe (by rw [hsaved]; exact mem_cons_self)
  have hless : decremented (w.memory useMe.activeRAM).refCount = (w.chunksOf useMe.activeRAM).length := by
    rw [hcount]
    rfl
  have hinactive := h.inactive
  rw [hsaved] at hinactive
  refine ⟨?_, h.sorted.sublist List.eraseP_sublist, hapart, ?_, ?_, ?_, ?_, ?_, ?_, ?_⟩
  · have hregion : useMe.region ∈ w.allInactives := hinactive.mem_iff.mpr mem_cons_self
    obtain ⟨b, l₁, l₂, -, hb, hl, herase⟩ := List.exists_of_eraseP hregion
      (p := (·.start = useMe.activeRAM)) (decide_eq_true rfl)
    have hbmem : b ∈ w.allInactives := by simp [hl]
    obtain ⟨s, hs, rfl⟩ := List.mem_map.mp (h.inactive.mem_iff.mp hbmem)
    obtain rfl : s = useMe := h.activeRAM_injective hs hmem (of_decide_eq_true hb)
    have hperm : w.allInactives.Perm (s.region :: w.allInactives.eraseP (·.start = s.activeRAM)) := by
      rw [herase, hl]
      exact perm_middle
    exact (hperm.symm.trans hinactive).cons_inv
  · intro s hs
    exact (h.sound s (hall s hs)).kept (setRefCount_kept _ _ w s) fun d hd => hd
  · intro o ho
    obtain ⟨s, hs, heq⟩ := h.home o ho
    rw [hsaved] at hs
    exact ⟨s, hs, heq⟩
  · intro s hs
    obtain rfl | hs := List.mem_cons.mp hs
    · have := h.few s hmem
      rw [setRefCount_self, hless]
      omega
    · rw [setRefCount_of_ne (hother s hs)]
      exact h.few s (hall s (mem_cons_of_mem _ hs))
  · intro s hs
    obtain rfl := List.mem_singleton.mp hs
    rw [setRefCount_self]
    exact hless
  · intro s hs
    rw [setRefCount_of_ne (hother s (mem_append_left _ hs))]
    exact h.suspended s (by rw [hsaved]; exact mem_cons_of_mem _ hs)
  · intro s hs
    rw [setRefCount_of_ne (hother s (mem_append_right _ hs))]
    exact h.referenced s hs
  · have := h.malloced
    rwa [hsaved] at this

theorem update (h : w.Holds [w.myState] idle) {block : Allocator.AllocatorState} {live : List Object}
    (hw : w' = { w.withBlock block with live })
    (hbytes : block.numBytes = w.myState.numBytes) (hsound : Sound ⟨block, w'.chunksOf w.myState.activeRAM⟩)
    (hcount : block.refCount = (w'.chunksOf w.myState.activeRAM).length) (hfew : block.refCount < 2 ^ 32)
    (hchunks : ∀ start, start ≠ w.myState.activeRAM → w'.chunksOf start = w.chunksOf start)
    (hhome : ∀ o ∈ w'.live, o.block = w.myState.activeRAM ∨ o ∈ w.live) : w'.Holds [w'.myState] idle := by
  have hinactives : w'.allInactives = w.allInactives := by rw [hw]; rfl
  have hsaved : w'.saved = w.saved := by rw [hw]; rfl
  have hmalloced : w'.malloced = w.malloced := by rw [hw]; rfl
  have hstate : w'.myState = { w.myState with chunks := block.chunks } := by rw [hw]; rfl
  have hmemory : w'.memory = Function.update w.memory w.myState.activeRAM
      ⟨block.lastUsed, block.refCount, block.chunkSize⟩ := by
    rw [hw]
    rfl
  have hactive : w'.myState.activeRAM = w.myState.activeRAM := by rw [hstate]
  have hself : w'.memory w'.myState.activeRAM = ⟨block.lastUsed, block.refCount, block.chunkSize⟩ := by
    rw [hmemory, hactive, Function.update_self]
  have hne : ∀ s ∈ w.saved ++ idle, s.activeRAM ≠ w.myState.activeRAM := fun s hs => h.ne_active hs
  have hother : ∀ s ∈ w.saved ++ idle, w'.memory s.activeRAM = w.memory s.activeRAM := by
    intro s hs
    rw [hmemory, Function.update_of_ne (hne s hs)]
  refine ⟨?_, ?_, ?_, ?_, ?_, ?_, ?_, ?_, ?_, ?_⟩
  · rw [hinactives, hsaved]
    exact h.inactive
  · rw [hinactives]
    exact h.sorted
  · rw [hsaved, hstate]
    exact List.pairwise_cons.mpr ⟨(List.pairwise_cons.mp h.apart).1, (List.pairwise_cons.mp h.apart).2⟩
  · intro s hs
    rw [hsaved] at hs
    obtain rfl | hs := List.mem_cons.mp hs
    · unfold World.part
      rw [hactive]
      apply hsound.congr
      · simp [World.view, hstate, hbytes]
      · simp [World.view, hstate]
      · simp [World.view, hself]
      · simp [World.view, hself]
    · apply (h.sound s (mem_cons_of_mem _ hs)).kept (World.kept_of_memory (hother s hs))
      rw [hchunks _ (hne s hs)]
      exact fun d hd => hd
  · intro o ho
    rw [hsaved]
    obtain hblock | ho := hhome o ho
    · exact ⟨w'.myState, mem_cons_self, hactive.trans hblock.symm⟩
    · obtain ⟨s, hs, heq⟩ := h.home o ho
      obtain rfl | hs := List.mem_cons.mp hs
      · exact ⟨w'.myState, mem_cons_self, hactive.trans heq⟩
      · exact ⟨s, mem_cons_of_mem _ hs, heq⟩
  · intro s hs
    rw [hsaved] at hs
    obtain rfl | hs := List.mem_cons.mp hs
    · rw [hself]
      exact hfew
    · rw [hother s hs]
      exact h.few s (mem_cons_of_mem _ hs)
  · intro s hs
    obtain rfl := List.mem_singleton.mp hs
    rw [hself, hactive]
    exact hcount
  · intro s hs
    rw [hsaved] at hs
    have hs' := mem_append_left idle hs
    rw [hother s hs', hchunks _ (hne s hs')]
    exact h.suspended s hs
  · intro s hs
    have hs' := mem_append_right w.saved hs
    rw [hother s hs', hchunks _ (hne s hs')]
    exact h.referenced s hs
  · rw [hmalloced, hsaved, hstate]
    have := h.malloced
    cases huser : w.myState.curBlockUserSupplied <;> simpa [huser] using this

end World.Holds

section Release

variable {o : Object} {l₁ l₂ : List Object} {start : ℕ}

theorem mem_live (hl : w.live = l₁ ++ o :: l₂) (hl' : w'.live = l₁ ++ l₂) {e : Object} (he : e ∈ w'.live) :
    e ∈ w.live := by
  rw [hl'] at he
  rw [hl]
  obtain he | he := List.mem_append.mp he
  · exact mem_append_left _ he
  · exact mem_append_right _ (mem_cons_of_mem _ he)

theorem chunksOf_of_ne (hl : w.live = l₁ ++ o :: l₂) (hl' : w'.live = l₁ ++ l₂) (hne : start ≠ o.block) :
    w'.chunksOf start = w.chunksOf start := by
  unfold World.chunksOf
  rw [hl, hl', List.filter_append, List.filter_append, List.filter_cons_of_neg (by simpa using hne.symm)]

theorem chunksOf_subset (hl : w.live = l₁ ++ o :: l₂) (hl' : w'.live = l₁ ++ l₂) :
    ∀ d ∈ w'.chunksOf start, d ∈ w.chunksOf start := by
  intro d hd
  obtain ⟨e, he, rfl⟩ := List.mem_map.mp hd
  obtain ⟨he, hblock⟩ := List.mem_filter.mp he
  apply mem_map_of_mem
  exact List.mem_filter.mpr ⟨mem_live hl hl' he, hblock⟩

theorem chunksOf_length (hl : w.live = l₁ ++ o :: l₂) (hl' : w'.live = l₁ ++ l₂) :
    (w.chunksOf o.block).length = (w'.chunksOf o.block).length + 1 := by
  unfold World.chunksOf
  rw [hl, hl', List.filter_append, List.filter_append, List.filter_cons_of_pos (by simp)]
  simp only [List.length_map, List.length_append, List.length_cons]
  omega

end Release

namespace World.Holds

theorem withBlock_view (w : World) : w.withBlock (w.view w.myState) = w := by
  simp [World.withBlock, World.view]

theorem make (h : w.Holds [w.myState] idle) {howMuch : ℕ} (hp : Proper (.make howMuch) w) :
    ∃ w', step (.make howMuch) w = .ok w' ∧ w'.Holds [w'.myState] idle ∧ w'.saved = w.saved ∧
      ∀ s ∈ w.saved, w.Kept w' s := by
  have hcount := h.counted _ mem_cons_self
  have hsound : Sound ⟨w.view w.myState, w.chunksOf w.myState.activeRAM⟩ := h.sound _ mem_cons_self
  obtain ⟨answer, hget, hno⟩ | ⟨block, c, hget, hroom, hblock, hbytes, hrefs⟩ :=
    hsound.getRAM fun hroom => (hp hroom).1
  · refine ⟨w, ?_, h, rfl, fun s _ => ⟨rfl, rfl⟩⟩
    simp only [step, World.getRAM, hget, ok_bind, withBlock_view]
  · have hfew := (hp hroom).2
    have hrefs' : block.refCount = (w.chunksOf w.myState.activeRAM).length + 1 := by
      rw [← hcount] at hfew ⊢
      exact hrefs.trans (Nat.mod_eq_of_lt hfew)
    refine ⟨{ w.withBlock block with live := ⟨w.myState.activeRAM, c⟩ :: w.live }, ?_, ?_, rfl, ?_⟩
    · simp only [step, World.getRAM, hget, ok_bind, Nat.add_sub_cancel]
      rfl
    · have hself : World.chunksOf w.myState.activeRAM
          { w.withBlock block with live := ⟨w.myState.activeRAM, c⟩ :: w.live } =
          c :: w.chunksOf w.myState.activeRAM := by
        simp [World.chunksOf]
      apply h.update rfl hbytes
      · rw [hself]
        exact hblock
      · rw [hself]
        exact hrefs'
      · rw [hrefs']
        exact hfew
      · intro start hne
        simp [World.chunksOf, hne.symm]
      · intro o ho
        obtain rfl | ho := List.mem_cons.mp ho
        · exact .inl rfl
        · exact .inr ho
    · intro s hs
      apply World.kept_of_memory
      exact Function.update_of_ne (h.ne_active (by simp [hs])) _ _

section Free

variable {o : Object} {l₁ l₂ : List Object} {n : ℕ}

theorem freeActive (h : w.Holds [w.myState] idle) (hpol : w.policy ≠ .noReferenceCountAllocator)
    (hl : w.live = l₁ ++ o :: l₂) (hblock : o.block = w.myState.activeRAM) :
    ∃ w₁, w.freeRAM o.address = .ok w₁ ∧ w₁.saved = w.saved ∧ w₁.live = w.live ∧ (∀ s ∈ w.saved, w.Kept w₁ s) ∧
      ∀ w', w' = { w₁ with live := l₁ ++ l₂ } → w'.Holds [w'.myState] idle := by
  have hlive : o ∈ w.live := by simp [hl]
  have hsound : Sound ⟨w.view w.myState, w.chunksOf w.myState.activeRAM⟩ := h.sound _ mem_cons_self
  have hchunk : o.chunk ∈ w.chunksOf w.myState.activeRAM :=
    mem_map_of_mem (List.mem_filter.mpr ⟨hlive, decide_eq_true hblock⟩)
  have haddress : o.chunk + CHUNK_HEADER_SIZE < w.myState.numBytes := hsound.address hchunk
  obtain ⟨block, hfree, hblockSound, hbytes, -, -, hrefs⟩ := hsound.freeRAM hchunk
  have hcontains : w.contains o.address = true := by
    unfold World.contains Object.address
    rw [Bool.and_eq_true, decide_eq_true_iff, decide_eq_true_iff]
    omega
  have hoffset : o.address - w.myState.activeRAM = o.chunk + CHUNK_HEADER_SIZE := by
    unfold Object.address
    omega
  refine ⟨w.withBlock block, ?_, rfl, rfl, ?_, ?_⟩
  · unfold World.freeRAM
    rw [if_neg hpol, if_pos hcontains, hoffset, hfree]
    rfl
  · intro s hs
    apply World.kept_of_memory
    exact Function.update_of_ne (h.ne_active (by simp [hs])) _ _
  · intro w' hw
    have hlive' : w'.live = l₁ ++ l₂ := by rw [hw]
    have hlen := chunksOf_length hl hlive'
    have hcount : (w.memory w.myState.activeRAM).refCount = (w'.chunksOf w.myState.activeRAM).length + 1 := by
      rw [h.counted _ mem_cons_self, ← hblock]
      exact hlen
    have hrefs' : block.refCount = (w'.chunksOf w.myState.activeRAM).length := by
      have hview : (w.view w.myState).refCount = (w'.chunksOf w.myState.activeRAM).length + 1 := hcount
      rw [hrefs, hview]
      rfl
    apply h.update hw hbytes
    · exact hblockSound.subset (chunksOf_subset hl hlive')
    · exact hrefs'
    · have := h.few _ mem_cons_self
      omega
    · intro start hne
      exact chunksOf_of_ne hl hlive' (hblock ▸ hne)
    · intro e he
      exact .inr (mem_live hl hlive' he)

theorem decrement (h : w.Holds [w.myState] idle) (hl : w.live = l₁ ++ o :: l₂) (hs : s ∈ w.saved ++ idle)
    (hblock : s.activeRAM = o.block) (hn : (w.memory s.activeRAM).refCount = n + 1)
    (hw : w' = { w.setRefCount s.activeRAM n with live := l₁ ++ l₂ })
    (hkeep : s ∈ idle → w'.chunksOf s.activeRAM ≠ []) : w'.Holds [w'.myState] idle := by
  have hlive' : w'.live = l₁ ++ l₂ := by rw [hw]
  have hlen : (w.chunksOf s.activeRAM).length = (w'.chunksOf s.activeRAM).length + 1 := by
    rw [hblock]
    exact chunksOf_length hl hlive'
  have hmem : s ∈ [w.myState] ++ (w.saved ++ idle) := mem_cons_of_mem _ hs
  have hself : (w'.memory s.activeRAM).refCount = n := by
    rw [hw]
    exact setRefCount_self
  have hother : ∀ t ∈ [w.myState] ++ (w.saved ++ idle), t ≠ s →
      w'.memory t.activeRAM = w.memory t.activeRAM ∧ w'.chunksOf t.activeRAM = w.chunksOf t.activeRAM := by
    intro t ht hne
    have hstart := h.activeRAM_ne ht hmem (h.apart.forall ht hmem hne)
    refine ⟨?_, chunksOf_of_ne hl hlive' (hblock ▸ hstart)⟩
    rw [hw]
    exact setRefCount_of_ne hstart
  have hsub : ∀ start, ∀ d ∈ w'.chunksOf start, d ∈ w.chunksOf start := fun start => chunksOf_subset hl hlive'
  have hkept : ∀ t, w.Kept w' t := by
    intro t
    rw [hw]
    exact setRefCount_kept _ _ w t
  have hnot : w.myState ≠ s := by
    rintro heq
    exact h.ne_active (by simpa using hs) (by rw [heq])
  obtain ⟨hinactives, hsaved, hmalloced, hstate⟩ : w'.allInactives = w.allInactives ∧ w'.saved = w.saved ∧
      w'.malloced = w.malloced ∧ w'.myState = w.myState := by
    rw [hw]
    exact ⟨rfl, rfl, rfl, rfl⟩
  rw [hstate]
  refine ⟨?_, ?_, ?_, ?_, ?_, ?_, ?_, ?_, ?_, ?_⟩
  · rw [hinactives, hsaved]
    exact h.inactive
  · rw [hinactives]
    exact h.sorted
  · rw [hsaved]
    exact h.apart
  · rw [hsaved]
    intro t ht
    exact (h.sound t ht).kept (hkept t) (hsub _)
  · intro e he
    rw [hsaved]
    exact h.home e (mem_live hl hlive' he)
  · rw [hsaved]
    intro t ht
    by_cases hts : t = s
    · subst hts
      have := h.few t ht
      omega
    · rw [(hother t ht hts).1]
      exact h.few t ht
  · intro t ht
    obtain rfl := List.mem_singleton.mp ht
    obtain ⟨hm, hc⟩ := hother w.myState mem_cons_self hnot
    rw [hm, hc]
    exact h.counted _ ht
  · rw [hsaved]
    intro t ht
    by_cases hts : t = s
    · subst hts
      have := h.suspended t ht
      omega
    · obtain ⟨hm, hc⟩ := hother t (by simp [ht]) hts
      rw [hm, hc]
      exact h.suspended t ht
  · intro t ht
    obtain ⟨huser, hne, hcount⟩ := h.referenced t ht
    by_cases hts : t = s
    · subst hts
      exact ⟨huser, hkeep ht, by omega⟩
    · obtain ⟨hm, hc⟩ := hother t (by simp [ht]) hts
      rw [hm, hc]
      exact ⟨huser, hne, hcount⟩
  · rw [hmalloced, hsaved]
    exact h.malloced

theorem freeLast (h : w.Holds [w.myState] idle) (hl : w.live = l₁ ++ o :: l₂) (hs : s ∈ idle)
    (hblock : s.activeRAM = o.block) (hone : w.chunksOf s.activeRAM = [o.chunk])
    (hw : w' = { w.setRefCount s.activeRAM 0 with
      malloced := w.malloced.erase s.activeRAM
      allInactives := w.allInactives.erase s.region
      live := l₁ ++ l₂ }) : ∃ idle', w'.Holds [w'.myState] idle' := by
  have hmem : s ∈ [w.myState] ++ (w.saved ++ idle) := by simp [hs]
  obtain ⟨i₁, i₂, rfl⟩ := List.append_of_mem hs
  have hperm : ([w.myState] ++ (w.saved ++ (i₁ ++ s :: i₂))).Perm (s :: ([w.myState] ++ (w.saved ++ (i₁ ++ i₂)))) := by
    rw [← append_assoc, ← append_assoc, ← append_assoc, ← append_assoc]
    exact perm_middle
  have hperm' : (w.saved ++ (i₁ ++ s :: i₂)).Perm (s :: (w.saved ++ (i₁ ++ i₂))) := by
    rw [← append_assoc, ← append_assoc]
    exact perm_middle
  have hlive' : w'.live = l₁ ++ l₂ := by rw [hw]
  have hapart := (hperm.pairwise_iff (fun hst => Std.Symm.symm _ _ hst)).mp h.apart
  have hrest : ∀ t ∈ [w.myState] ++ (w.saved ++ (i₁ ++ i₂)), t ∈ [w.myState] ++ (w.saved ++ (i₁ ++ s :: i₂)) :=
    fun t ht => hperm.mem_iff.mpr (mem_cons_of_mem _ ht)
  have hne : ∀ t ∈ [w.myState] ++ (w.saved ++ (i₁ ++ i₂)), t.activeRAM ≠ s.activeRAM := by
    intro t ht
    exact (h.activeRAM_ne hmem (hrest t ht) (List.rel_of_pairwise_cons hapart ht)).symm
  have hother : ∀ t ∈ [w.myState] ++ (w.saved ++ (i₁ ++ i₂)),
      w'.memory t.activeRAM = w.memory t.activeRAM ∧ w'.chunksOf t.activeRAM = w.chunksOf t.activeRAM := by
    intro t ht
    refine ⟨?_, chunksOf_of_ne hl hlive' (hblock ▸ hne t ht)⟩
    rw [hw]
    exact setRefCount_of_ne (hne t ht)
  obtain ⟨hinactives, hsaved, hmalloced, hstate⟩ : w'.allInactives = w.allInactives.erase s.region ∧
      w'.saved = w.saved ∧ w'.malloced = w.malloced.erase s.activeRAM ∧ w'.myState = w.myState := by
    rw [hw]
    exact ⟨rfl, rfl, rfl, rfl⟩
  rw [hstate]
  refine ⟨i₁ ++ i₂, ?_, ?_, ?_, ?_, ?_, ?_, ?_, ?_, ?_, ?_⟩
  · rw [hinactives, hsaved]
    have := (h.inactive.trans (hperm'.map _)).erase s.region
    rwa [List.map_cons, List.erase_cons_head] at this
  · rw [hinactives]
    exact h.sorted.sublist List.erase_sublist
  · rw [hsaved]
    exact (List.pairwise_cons.mp hapart).2
  · rw [hsaved]
    intro t ht
    apply (h.sound t (hrest t ht)).kept (World.kept_of_memory (hother t ht).1)
    rw [(hother t ht).2]
    exact fun d hd => hd
  · intro e he
    rw [hsaved]
    obtain ⟨t, ht, heq⟩ := h.home e (mem_live hl hlive' he)
    obtain rfl | ht := List.mem_cons.mp (hperm.mem_iff.mp ht)
    · -- the block has no object left
      have hlen := chunksOf_length hl hlive'
      rw [← hblock, hone, List.length_singleton] at hlen
      have hempty : w'.chunksOf t.activeRAM = [] := List.eq_nil_of_length_eq_zero (by omega)
      have hchunk : e.chunk ∈ w'.chunksOf t.activeRAM :=
        mem_map_of_mem (List.mem_filter.mpr ⟨he, decide_eq_true heq.symm⟩)
      rw [hempty] at hchunk
      cases hchunk
    · exact ⟨t, ht, heq⟩
  · rw [hsaved]
    intro t ht
    rw [(hother t ht).1]
    exact h.few t (hrest t ht)
  · intro t ht
    have ht' : t ∈ [w.myState] ++ (w.saved ++ (i₁ ++ i₂)) := mem_append_left _ ht
    rw [(hother t ht').1, (hother t ht').2]
    exact h.counted t ht
  · rw [hsaved]
    intro t ht
    obtain ⟨hm, hc⟩ := hother t (by simp [ht])
    rw [hm, hc]
    exact h.suspended t ht
  · intro t ht
    obtain ⟨hm, hc⟩ := hother t (by simp only [List.mem_append]; exact .inr (.inr (List.mem_append.mp ht)))
    rw [hm, hc]
    apply h.referenced t
    obtain ht | ht := List.mem_append.mp ht
    · exact mem_append_left _ ht
    · exact mem_append_right _ (mem_cons_of_mem _ ht)
  · rw [hmalloced, hsaved]
    have := (h.malloced.trans ((hperm.filter _).map _)).erase s.activeRAM
    have huser := (h.referenced s hs).1
    rwa [List.filter_cons_of_pos (by simpa using huser), List.map_cons, List.erase_cons_head] at this

theorem freeRAM_inactive (h : w.Holds [w.myState] idle) (hpol : w.policy ≠ .noReferenceCountAllocator)
    (hs : s ∈ w.saved ++ idle) {here : ℕ}
    (hlo : s.activeRAM < here) (hhi : here < s.activeRAM + s.numBytes) (hn : (w.memory s.activeRAM).refCount = n + 1)
    (hmalloced : n = 0 → s.activeRAM ∈ w.malloced) :
    w.freeRAM here = .ok (if n = 0 then { w.setRefCount s.activeRAM 0 with
      malloced := w.malloced.erase s.activeRAM
      allInactives := w.allInactives.erase s.region } else w.setRefCount s.activeRAM n) := by
  have hout : w.contains here = false := by
    have hapart := List.rel_of_pairwise_cons h.apart (show s ∈ [] ++ (w.saved ++ idle) from hs)
    unfold AllocatorState.Apart ByteRange.Apart at hapart
    unfold World.contains
    rw [Bool.and_eq_false_iff, decide_eq_false_iff_not, decide_eq_false_iff_not]
    omega
  have hdecremented : decremented (w.memory s.activeRAM).refCount = n := by
    rw [hn]
    rfl
  unfold World.freeRAM
  rw [if_neg hpol, hout, if_neg (by decide), h.findInactive_of_mem hs hlo hhi]
  dsimp only [AllocatorState.region]
  rw [hdecremented, setRefCount_self]
  by_cases hzero : n = 0
  · subst hzero
    have hmem : s.activeRAM ∈ (w.setRefCount s.activeRAM 0).malloced := hmalloced rfl
    rw [if_pos rfl, if_pos rfl, World.free, if_pos hmem]
    rfl
  · rw [if_neg hzero, if_neg hzero]

end Free

theorem free (h : w.Holds [w.myState] idle) {here : ℕ} (hlegal : Legal (.free here) w)
    (hproper : Proper (.free here) w) :
    ∃ w' idle', step (.free here) w = .ok w' ∧ w'.Holds [w'.myState] idle' ∧ w'.saved = w.saved ∧
      ∀ s ∈ w.saved, w.Kept w' s := by
  obtain ⟨o, ho, rfl⟩ | hout := hlegal
  · have hpol : w.policy ≠ .noReferenceCountAllocator := fun hpol => hproper hpol o ho rfl
    obtain ⟨e, l₁, l₂, -, he, hl, herase⟩ := List.exists_of_eraseP ho (p := (·.address = o.address)) (decide_eq_true rfl)
    have haddress : e.address = o.address := of_decide_eq_true he
    rw [← haddress] at herase ⊢
    obtain ⟨s, hs, hblock, hchunk, hlo, hhi⟩ := h.located (o := e) (by simp [hl])
    obtain rfl | hs := List.mem_cons.mp hs
    · obtain ⟨w₁, hfree, hsaved, hlive, hkept, hholds⟩ := h.freeActive hpol hl hblock.symm
      refine ⟨{ w₁ with live := l₁ ++ l₂ }, idle, ?_, hholds _ rfl, hsaved, hkept⟩
      simp only [step, hfree, ok_bind, hlive, herase]
    · have hs' : s ∈ w.saved ++ idle := hs
      have hpos : 0 < (w.chunksOf s.activeRAM).length := List.length_pos_of_mem hchunk
      obtain hs | hs := List.mem_append.mp hs'
      · have hcount := h.suspended s hs
        have hfree := h.freeRAM_inactive hpol hs' hlo hhi hcount (by omega)
        rw [if_neg (by omega)] at hfree
        refine ⟨{ w.setRefCount s.activeRAM (w.chunksOf s.activeRAM).length with live := l₁ ++ l₂ }, idle, ?_, ?_, rfl,
          fun t _ => setRefCount_kept _ _ w t⟩
        · simp only [step, hfree, ok_bind]
          exact congrArg (fun live => Except.ok { w.setRefCount s.activeRAM _ with live }) herase
        · apply h.decrement hl hs' hblock hcount rfl
          intro hidle
          have := (h.referenced s hidle).2.2
          omega
      · obtain ⟨huser, -, hcount⟩ := h.referenced s hs
        obtain ⟨n, hn⟩ := Nat.exists_eq_succ_of_ne_zero (Nat.pos_iff_ne_zero.mp hpos)
        have hmem : s.activeRAM ∈ w.malloced := by
          rw [h.malloced.mem_iff]
          exact mem_map_of_mem (List.mem_filter.mpr ⟨mem_cons_of_mem _ hs', decide_eq_true huser⟩)
        have hfree := h.freeRAM_inactive hpol hs' hlo hhi (hcount.trans hn) (fun _ => hmem)
        by_cases hzero : n = 0
        · rw [if_pos hzero] at hfree
          have hone : w.chunksOf s.activeRAM = [e.chunk] := by
            obtain ⟨c, hc⟩ := List.length_eq_one_iff.mp (hn.trans (by rw [hzero]))
            rw [hc, List.mem_singleton] at hchunk
            rw [hc, hchunk]
          obtain ⟨idle', hholds⟩ := h.freeLast hl hs hblock hone rfl
          refine ⟨_, idle', ?_, hholds, rfl, fun t _ => setRefCount_kept _ _ w t⟩
          simp only [step, hfree, ok_bind]
          exact congrArg (fun live => Except.ok { w.setRefCount s.activeRAM 0 with
            malloced := w.malloced.erase s.activeRAM, allInactives := w.allInactives.erase s.region, live }) herase
        · rw [if_neg hzero] at hfree
          refine ⟨{ w.setRefCount s.activeRAM n with live := l₁ ++ l₂ }, idle, ?_, ?_, rfl,
            fun t _ => setRefCount_kept _ _ w t⟩
          · simp only [step, hfree, ok_bind]
            exact congrArg (fun live => Except.ok { w.setRefCount s.activeRAM n with live }) herase
          · apply h.decrement hl hs' hblock (hcount.trans hn) rfl
            intro _ hempty
            have hlen : (w.chunksOf e.block).length = (World.chunksOf e.block
                { w.setRefCount s.activeRAM n with live := l₁ ++ l₂ }).length + 1 := chunksOf_length hl rfl
            rw [← hblock, hempty, List.length_nil] at hlen
            omega
  · have hcontains : w.contains here = false := by
      have hactive := hout w.myState.region mem_cons_self
      unfold AllocatorState.region at hactive
      dsimp only at hactive
      unfold World.contains
      rw [Bool.and_eq_false_iff, decide_eq_false_iff_not, decide_eq_false_iff_not]
      omega
    have hfind : w.findInactive here = none := by
      unfold World.findInactive
      rw [Option.filter_eq_none_iff]
      intro b hb
      have hbefore := List.find?_some hb
      have := hout b (mem_cons_of_mem _ (List.mem_of_find?_eq_some hb))
      simp only [Bool.not_eq_true', decide_eq_false_iff_not] at hbefore
      simp only [Bool.not_eq_true', decide_eq_false_iff_not, not_not]
      omega
    have hlive : w.live.eraseP (·.address = here) = w.live := by
      apply List.eraseP_of_forall_not
      intro o ho
      obtain ⟨s, hs, -, -, hlo, hhi⟩ := h.located ho
      have hregion : s.region ∈ w.regions := by
        obtain rfl | hs := List.mem_cons.mp hs
        · exact mem_cons_self
        · exact mem_cons_of_mem _ (h.inactive.mem_iff.mpr (mem_map_of_mem hs))
      have := hout s.region hregion
      unfold AllocatorState.region at this
      simp only [decide_eq_true_iff]
      dsimp only at this
      omega
    refine ⟨w, idle, ?_, h, rfl, fun t _ => ⟨rfl, rfl⟩⟩
    have hfree : w.freeRAM here = .ok w := by
      unfold World.freeRAM
      rw [hcontains, hfind]
      exact ite_self _
    simp only [step, hfree, ok_bind, hlive]

end World.Holds

namespace World.Holds

theorem temporarilyUse (h : w.Holds [w.myState] idle) {userSupplied : Bool} {start numBytesAvailable : ℕ}
    (hl : Legal (.temporarilyUseBlockForAllocations userSupplied start numBytesAvailable) w)
    (hp : Proper (.temporarilyUseBlockForAllocations userSupplied start numBytesAvailable) w) :
    step (.temporarilyUseBlockForAllocations userSupplied start numBytesAvailable) w = .error .exit ∨
      ∃ w', step (.temporarilyUseBlockForAllocations userSupplied start numBytesAvailable) w = .ok w' ∧
        w'.Holds [w'.myState] idle ∧ w'.saved = w.myState :: w.saved ∧ ∀ s ∈ w'.saved, w.Kept w' s := by
  have hcount := h.counted _ mem_cons_self
  have hfew : (w.memory w.myState.activeRAM).refCount + 1 < 2 ^ 32 := by
    rw [hcount]
    exact hp
  have hstep := World.temporarilyUseBlockForAllocations_eq userSupplied start numBytesAvailable hfew
  by_cases hsmall : numBytesAvailable < HEADER_SIZE ∨ start = 0
  · left
    rw [if_pos hsmall] at hstep
    exact hstep
  · right
    rw [if_neg hsmall] at hstep
    rw [not_or, Nat.not_lt] at hsmall
    have hregions : ∀ b ∈ w.suspended.allInactives, b.ends ≤ start ∨ start + numBytesAvailable ≤ b.start := by
      intro b hb
      apply hl b
      rw [World.suspended] at hb
      obtain hb | hb := List.mem_append.mp ((List.mem_insertionSort _).mp hb)
      · exact mem_cons_of_mem _ hb
      · exact List.mem_cons.mpr (.inl (List.mem_singleton.mp hb))
    have hactive := (h.suspend hp).activate (s := ⟨true, userSupplied, start, numBytesAvailable, fun _ => []⟩)
      hsmall.1 rfl hregions
    refine ⟨_, hstep, hactive, rfl, ?_⟩
    intro s hs
    have hne : s.activeRAM ≠ start := hactive.ne_active (by simp only [List.nil_append]; exact mem_append_left _ hs)
    have hmemory : (w.suspended.activated ⟨true, userSupplied, start, numBytesAvailable, fun _ => []⟩).memory
        s.activeRAM = w.suspended.memory s.activeRAM := Function.update_of_ne hne _ _
    unfold World.Kept
    rw [hmemory]
    exact setRefCount_kept _ _ w s

theorem switched (h : w.Holds [w.myState] idle) {userSupplied : Bool} {start numBytesAvailable : ℕ}
    (hg : Allowed (.temporarilyUseBlockForAllocations userSupplied start numBytesAvailable) w)
    (he : step (.temporarilyUseBlockForAllocations userSupplied start numBytesAvailable) w = .ok w') :
    w'.Holds [w'.myState] idle ∧ w'.saved = w.myState :: w.saved ∧ ∀ s ∈ w'.saved, w.Kept w' s := by
  obtain hexit | ⟨w₁, hstep, hholds⟩ := h.temporarilyUse hg.1 hg.2
  · cases he.symm.trans hexit
  · obtain rfl := Except.ok.inj (he.symm.trans hstep)
    exact hholds

theorem restore (h : w.Holds [w.myState] idle) {useMe : AllocatorState} {saved : List AllocatorState}
    (hsaved : w.saved = useMe :: saved) :
    ∃ w' idle', step .restoreAllocationBlock w = .ok w' ∧ w'.Holds [w'.myState] idle' ∧ w'.myState = useMe ∧
      w'.saved = saved ∧ ∀ s, w.Kept w' s := by
  obtain ⟨w₁, idle', hw₁, hholds, hsaved₁, hmemory⟩ : ∃ w₁ idle',
      (if w.myState.curBlockUserSupplied then .ok w.giveBack else w.retire : Except Stop World) = .ok w₁ ∧
      w₁.Holds [] idle' ∧ w₁.saved = w.saved ∧ w₁.memory = w.memory := by
    cases hu : w.myState.curBlockUserSupplied with
    | true => exact ⟨w.giveBack, idle, rfl, h.giveBack hu, rfl, rfl⟩
    | false => exact h.retire hu
  have hresume := hholds.resume (hsaved₁.trans hsaved)
  refine ⟨_, idle', ?_, hresume, rfl, rfl, ?_⟩
  · show w.restoreAllocationBlock = _
    unfold World.restoreAllocationBlock
    rw [hsaved]
    dsimp only
    by_cases hu : w.myState.curBlockUserSupplied = true
    · rw [if_pos hu] at hw₁ ⊢
      rw [hw₁]
      rfl
    · rw [if_neg hu] at hw₁ ⊢
      rw [hw₁]
      rfl
  · intro s
    have hkept := setRefCount_kept useMe.activeRAM (decremented (w₁.memory useMe.activeRAM).refCount)
      { w₁ with
        myState := useMe
        allInactives := w₁.allInactives.eraseP (·.start = useMe.activeRAM)
        saved } s
    unfold World.Kept at hkept ⊢
    rw [← hmemory]
    exact hkept

theorem setPolicy (h : w.Holds [w.myState] idle) (policy : AllocatorPolicy) :
    World.Holds { w with policy } [w.myState] idle := by
  refine ⟨h.inactive, h.sorted, h.apart, ?_, h.home, h.few, h.counted, h.suspended, h.referenced, h.malloced⟩
  intro s hs
  exact (h.sound s hs).kept ⟨rfl, rfl⟩ fun d hd => hd

theorem start (h : Start w) : w.Holds [w.myState] [] := by
  obtain ⟨throwExceptionOnFail, userSupplied, start, numBytes, policy, memory, garbage, hle, rfl⟩ := h
  refine ⟨.nil, .nil, List.pairwise_singleton _ _, ?_, nofun, ?_, ?_, nofun, nofun, ?_⟩
  · intro s hs
    obtain rfl := List.mem_singleton.mp hs
    refine ⟨⟨?_, ?_, ?_, ?_, ?_⟩, ?_⟩ <;>
      simp [World.part, World.view, World.chunksOf, Allocator.AllocatorState.freeChunks, hle]
  · intro s hs
    obtain rfl := List.mem_singleton.mp hs
    simp
  · intro s hs
    obtain rfl := List.mem_singleton.mp hs
    simp [World.chunksOf]
  · cases userSupplied <;> simp

theorem step (h : w.Holds [w.myState] idle) {c : Call} (hl : Legal c w) (hp : Proper c w) :
    TemporaryBlocks.step c w = .error .exit ∨
      ∃ w' idle', TemporaryBlocks.step c w = .ok w' ∧ w'.Holds [w'.myState] idle' := by
  cases c with
  | temporarilyUseBlockForAllocations userSupplied start numBytesAvailable =>
    obtain hexit | ⟨w', hstep, hholds, -⟩ := h.temporarilyUse hl hp
    · exact .inl hexit
    · exact .inr ⟨w', idle, hstep, hholds⟩
  | restoreAllocationBlock =>
    obtain ⟨useMe, saved, hsaved⟩ := List.exists_cons_of_ne_nil hl
    obtain ⟨w', idle', hstep, hholds, -⟩ := h.restore hsaved
    exact .inr ⟨w', idle', hstep, hholds⟩
  | make howMuch =>
    obtain ⟨w', hstep, hholds, -⟩ := h.make hp
    exact .inr ⟨w', idle, hstep, hholds⟩
  | free here =>
    obtain ⟨w', idle', hstep, hholds, -⟩ := h.free hl hp
    exact .inr ⟨w', idle', hstep, hholds⟩
  | setPolicy policy => exact .inr ⟨_, idle, rfl, h.setPolicy policy⟩

end World.Holds

inductive Bracketed : List Call → Prop
  | nil : Bracketed []
  | make {howMuch : ℕ} {cs : List Call} : Bracketed cs → Bracketed (.make howMuch :: cs)
  | free {here : ℕ} {cs : List Call} : Bracketed cs → Bracketed (.free here :: cs)
  | setPolicy {policy : AllocatorPolicy} {cs : List Call} : Bracketed cs → Bracketed (.setPolicy policy :: cs)
  | block {userSupplied : Bool} {start numBytesAvailable : ℕ} {inner cs : List Call} : Bracketed inner →
      Bracketed cs → Bracketed (.temporarilyUseBlockForAllocations userSupplied start numBytesAvailable ::
        (inner ++ .restoreAllocationBlock :: cs))

theorem World.Kept.trans {w w' w'' : World} {s : AllocatorState} (h : w.Kept w' s) (h' : w'.Kept w'' s) :
    w.Kept w'' s :=
  ⟨h'.1.trans h.1, h'.2.trans h.2⟩

theorem Bracketed.keeps {cs : List Call} (hb : Bracketed cs) (hr : Runs step Allowed cs w w')
    (h : w.Holds [w.myState] idle) :
    ∃ idle', w'.Holds [w'.myState] idle' ∧ w'.saved = w.saved ∧ ∀ s ∈ w.saved, w.Kept w' s := by
  induction hb generalizing w w' idle with
  | nil =>
    cases hr
    exact ⟨idle, h, rfl, fun s _ => ⟨rfl, rfl⟩⟩
  | make hb ih =>
    cases hr with
    | cons hg he hrest =>
      obtain ⟨w₁, hstep, hholds, hsaved, hkept⟩ := h.make hg.2
      obtain rfl := Except.ok.inj (hstep.symm.trans he)
      obtain ⟨idle', hholds', hsaved', hkept'⟩ := ih hrest hholds
      refine ⟨idle', hholds', hsaved'.trans hsaved, ?_⟩
      intro s hs
      exact (hkept s hs).trans (hkept' s (hsaved ▸ hs))
  | free hb ih =>
    cases hr with
    | cons hg he hrest =>
      obtain ⟨w₁, idle₁, hstep, hholds, hsaved, hkept⟩ := h.free hg.1 hg.2
      obtain rfl := Except.ok.inj (hstep.symm.trans he)
      obtain ⟨idle', hholds', hsaved', hkept'⟩ := ih hrest hholds
      refine ⟨idle', hholds', hsaved'.trans hsaved, ?_⟩
      intro s hs
      exact (hkept s hs).trans (hkept' s (hsaved ▸ hs))
  | @setPolicy policy _ hb ih =>
    cases hr with
    | cons hg he hrest =>
      cases he
      have hkeeps := ih hrest (h.setPolicy policy)
      exact hkeeps
  | block hinner hrest ih ih' =>
    cases hr with
    | cons hg he hrun =>
      obtain ⟨hholds₁, hsaved₁, hkept₁⟩ := h.switched hg he
      obtain ⟨w₂, hinside, hrun⟩ := hrun.append
      obtain ⟨idle₂, hholds₂, hsaved₂, hkept₂⟩ := ih hinside hholds₁
      cases hrun with
      | cons hg' he' hrun =>
        obtain ⟨w₃, idle₃, hstep, hholds₃, -, hsaved₃, hkept₃⟩ := hholds₂.restore (hsaved₂.trans hsaved₁)
        obtain rfl := Except.ok.inj (hstep.symm.trans he')
        obtain ⟨idle', hholds', hsaved', hkept'⟩ := ih' hrun hholds₃
        refine ⟨idle', hholds', hsaved'.trans hsaved₃, ?_⟩
        intro s hs
        have hs₁ := hsaved₁ ▸ mem_cons_of_mem _ hs
        exact (((hkept₁ s hs₁).trans (hkept₂ s hs₁)).trans (hkept₃ s)).trans (hkept' s (hsaved₃ ▸ hs))

structure World.Restored (w w' : World) : Prop where
  active : w'.myState = w.myState
  lastUsed : (w'.memory w.myState.activeRAM).lastUsed = (w.memory w.myState.activeRAM).lastUsed
  chunkSize : (w'.memory w.myState.activeRAM).chunkSize = (w.memory w.myState.activeRAM).chunkSize
  refCount : (w'.memory w.myState.activeRAM).refCount = (w'.chunksOf w.myState.activeRAM).length

theorem Bracketed.restored {inner : List Call} (hb : Bracketed inner) {userSupplied : Bool}
    {start numBytesAvailable : ℕ} (h : w.Holds [w.myState] idle)
    (hr : Runs step Allowed (.temporarilyUseBlockForAllocations userSupplied start numBytesAvailable ::
      (inner ++ [.restoreAllocationBlock])) w w') :
    w.Restored w' := by
  cases hr with
  | cons hg he hrun =>
    obtain ⟨hholds₁, hsaved₁, hkept₁⟩ := h.switched hg he
    obtain ⟨w₂, hinside, hrun⟩ := hrun.append
    obtain ⟨idle₂, hholds₂, hsaved₂, hkept₂⟩ := hb.keeps hinside hholds₁
    cases hrun with
    | cons hg' he' hrun =>
      cases hrun
      obtain ⟨w₃, idle₃, hstep, hholds₃, hactive, -, hkept₃⟩ := hholds₂.restore (hsaved₂.trans hsaved₁)
      obtain rfl := Except.ok.inj (hstep.symm.trans he')
      have hmem : w.myState ∈ _ := hsaved₁ ▸ mem_cons_self
      have hkept := ((hkept₁ _ hmem).trans (hkept₂ _ hmem)).trans (hkept₃ _)
      refine ⟨hactive, hkept.1, hkept.2, ?_⟩
      rw [← hactive]
      exact hholds₃.counted _ mem_cons_self

def World.Consistent (w : World) : Prop := ∃ idle, w.Holds [w.myState] idle

theorem World.Consistent.of_reachable (h : Reachable step Allowed Start w) : w.Consistent := by
  apply h.invariant
  · intro w hw
    exact ⟨[], .start hw⟩
  · rintro c w w' ⟨idle, hholds⟩ hallowed he
    obtain hexit | ⟨w₁, idle', hstep, hholds'⟩ := hholds.step hallowed.1 hallowed.2
    · cases he.symm.trans hexit
    · obtain rfl := Except.ok.inj (he.symm.trans hstep)
      exact ⟨idle', hholds'⟩

theorem nested_of_proper (h : Reachable step Allowed Start w) :
    w.Nested ∧ (∀ c, Legal c w → Proper c w → step c w ≠ .error .undefined) ∧
      ∀ userSupplied start numBytesAvailable inner w', Bracketed inner →
        Runs step Allowed (.temporarilyUseBlockForAllocations userSupplied start numBytesAvailable ::
          (inner ++ [.restoreAllocationBlock])) w w' → w.Restored w' := by
  obtain ⟨idle, hholds⟩ := World.Consistent.of_reachable h
  refine ⟨hholds.nested, ?_, fun userSupplied start numBytesAvailable inner w' hb hr => hb.restored hholds hr⟩
  intro c hl hp hundefined
  obtain hexit | ⟨w', idle', hstep, -⟩ := hholds.step hl hp
  · cases hundefined.symm.trans hexit
  · cases hundefined.symm.trans hstep

def allowed (c : Call) (w : World) : Bool :=
  let few := decide ((w.chunksOf w.myState.activeRAM).length + 1 < 2 ^ 32)
  match c with
  | .temporarilyUseBlockForAllocations _ start numBytesAvailable =>
    few && w.regions.all fun b => decide (b.ends ≤ start ∨ start + numBytesAvailable ≤ b.start)
  | .restoreAllocationBlock => !w.saved.isEmpty
  | .make howMuch => few && decide (2 * CHUNK_HEADER_SIZE ≤ bytesNeeded howMuch)
  | .free here => w.policy != .noReferenceCountAllocator && w.live.any fun o => decide (o.address = here)
  | .setPolicy _ => true

theorem allowed_sound (c : Call) (w : World) (h : allowed c w = true) : Allowed c w := by
  cases c with
  | temporarilyUseBlockForAllocations userSupplied start numBytesAvailable =>
    obtain ⟨hfew, hregions⟩ := Bool.and_eq_true_iff.mp h
    have hfew' : (w.chunksOf w.myState.activeRAM).length + 1 < 2 ^ 32 := of_decide_eq_true hfew
    exact ⟨fun b hb => of_decide_eq_true (List.all_eq_true.mp hregions b hb), hfew'⟩
  | restoreAllocationBlock =>
    refine ⟨fun hsaved => ?_, trivial⟩
    rw [allowed, hsaved] at h
    cases h
  | make howMuch =>
    obtain ⟨hfew, hlarge⟩ := Bool.and_eq_true_iff.mp h
    exact ⟨trivial, fun _ => ⟨of_decide_eq_true hlarge, of_decide_eq_true hfew⟩⟩
  | free here =>
    obtain ⟨hpol, hany⟩ := Bool.and_eq_true_iff.mp h
    obtain ⟨o, ho, heq⟩ := List.any_eq_true.mp hany
    exact ⟨.inl ⟨o, ho, of_decide_eq_true heq⟩, fun he => absurd he (bne_iff_ne.mp hpol)⟩
  | setPolicy policy => exact ⟨trivial, trivial⟩

def fresh : World :=
  ⟨⟨true, false, 1000, 200, fun _ => []⟩, [], .defaultAllocator,
    Function.update (fun _ => ⟨0, 0, fun _ => 0⟩) 1000 ⟨HEADER_SIZE, 0, fun _ => 0⟩, [1000], [], []⟩

theorem fresh_start : Start fresh := ⟨true, false, 1000, 200, .defaultAllocator, _, fun _ => 0, by decide, rfl⟩

def inner : List Call :=
  [.make 10, .temporarilyUseBlockForAllocations false 3000 60, .make 20, .free 1024, .restoreAllocationBlock,
    .setPolicy .noReferenceCountAllocator, .make 30, .setPolicy .defaultAllocator, .free 3024]

theorem bracketed_inner : Bracketed inner := by
  have hinnermost : Bracketed [.make 20, .free 1024] := .make (.free .nil)
  exact .make (.block hinnermost (.setPolicy (.make (.setPolicy (.free .nil)))))

def calls : List Call :=
  .temporarilyUseBlockForAllocations true 2000 100 :: (inner ++ [.restoreAllocationBlock])

theorem nested_of_proper_calls :
    ∃ w w', runAll step allowed [.make 8] fresh = some w ∧ runAll step allowed calls w = some w' ∧
      w.live = [⟨1000, 20⟩] ∧ w'.live = [] ∧ w'.malloced = [1000] ∧ w.Restored w' := by
  have hfirst : (runAll step allowed [.make 8] fresh).map World.live = some [⟨1000, 20⟩] := by decide
  obtain ⟨w, hw, hlive⟩ := Option.map_eq_some_iff.mp hfirst
  have hsecond : ((runAll step allowed [.make 8] fresh).bind (runAll step allowed calls)).map
      (fun w => (w.live, w.malloced)) = some ([], [1000]) := by decide
  rw [hw, Option.bind_some] at hsecond
  obtain ⟨w', hw', hafter⟩ := Option.map_eq_some_iff.mp hsecond
  have hreachable := (Reachable.start fresh_start).of_runAll allowed_sound hw
  have hruns := Runs.of_runAll allowed_sound hw'
  refine ⟨w, w', hw, hw', hlive, congrArg Prod.fst hafter, congrArg Prod.snd hafter, ?_⟩
  exact (nested_of_proper hreachable).2.2 _ _ _ _ _ bracketed_inner hruns

theorem not_nested_wrapped : ¬∀ w, Reachable step Legal Start w → w.Nested := by
  intro hall
  have hrun : (runAll step (fun c w => allowed c w || c == .make (2 ^ 32))
      [.temporarilyUseBlockForAllocations false 3000 24, .make (2 ^ 32)] fresh).map
      (fun w => (w.live, w.isManaged 3024)) = some ([⟨3000, 20⟩], false) := by decide
  obtain ⟨w, hw, heq⟩ := Option.map_eq_some_iff.mp hrun
  have hlegal : ∀ c w, (allowed c w || c == .make (2 ^ 32)) = true → Legal c w := by
    intro c w h
    obtain h | h := Bool.or_eq_true_iff.mp h
    · exact (allowed_sound c w h).1
    · obtain rfl := eq_of_beq h
      trivial
  have hnested := hall w ((Reachable.start fresh_start).of_runAll hlegal hw)
  obtain ⟨hlive, hlost⟩ := Prod.mk.inj heq
  have hmem : ⟨3000, 20⟩ ∈ w.live := hlive ▸ List.mem_singleton_self _
  cases (hnested.managed _ hmem).symm.trans hlost

end PlinyCompute.TemporaryBlocks
