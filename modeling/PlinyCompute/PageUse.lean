import PlinyCompute.PinTrace
import PlinyCompute.PipelineRun
import PlinyCompute.Transition

namespace PlinyCompute.PageUse

open PinTrace Transition
open PipelineRun (maxIteration)

structure MemoryHolder where
  pageHandle : ℕ
  outputSink : Bool
  iteration : ℕ
  deriving DecidableEq, Repr

inductive PageProcessor
  | nullProcessor
  | preaggregationPageProcessor (numNodes : ℕ)
  | shuffleJoinProcessor (numNodes : ℕ)
  | broadcastJoinProcessor (numNodes : ℕ)
  deriving DecidableEq, Repr

inductive Point
  -- before `getNextTupleSet`
  | loop
  | stages (reapply : Bool)
  -- before the block that writes to the sink, and in its handler
  | write
  | rewrite
  -- in `cleanPages (iteration)` and in that of `cleanPipeline`
  | clean
  | finish
  | returned
  -- an exception has left `run`
  | thrown
  deriving DecidableEq, Repr

inductive Stop
  | undefined
  deriving DecidableEq, Repr

/-- `active` is the page on which the active allocation block lies, if it lies on one, `pages` the number of
pages that were taken from the buffer manager, and `added` the iteration in which a page was put into the
queue. -/
structure State where
  point : Point
  ram : MemoryHolder
  unwrittenPages : List MemoryHolder
  iteration : ℕ
  active : Option ℕ
  pages : ℕ
  added : ℕ → Option ℕ
  trace : List (Event ℕ)

namespace State

def useAll (used : List ℕ) (s : State) : State := { s with trace := used.map .use ++ s.trace }

def use (p : ℕ) (s : State) : State := s.useAll [p]

def useActive (s : State) : State := s.useAll s.active.toList

/-- An access that is only made if the object is managed: the block of a page is in none of the lists of the
allocator, so it has to be the active one. -/
def useManaged (p : ℕ) (s : State) : State := s.useAll (s.active.toList.filter (· = p))

def unpin (p : ℕ) (s : State) : State := { s with trace := .unpin p :: s.trace }

def getPage (s : State) : State := { s with pages := s.pages + 1, trace := .pin s.pages :: s.trace }

def newMemory (s : State) : State :=
  { s.getPage with active := some s.pages, ram := ⟨s.pages, false, 0⟩ }.use s.pages

def addPageToIteration (s : State) : State :=
  let s := if s.ram.outputSink then s.useManaged s.ram.pageHandle else s
  { s with
    ram := { s.ram with iteration := s.iteration }
    unwrittenPages := s.unwrittenPages ++ [{ s.ram with iteration := s.iteration }]
    added := Function.update s.added s.ram.pageHandle (some s.iteration) }

def createContainer (s : State) : State :=
  if s.ram.outputSink then s else { s.useActive with ram := { s.ram with outputSink := true } }

def destroySink (h : MemoryHolder) (s : State) : State := if h.outputSink then s.useManaged h.pageHandle else s

/-- `ram` goes out of scope; its memory holder is still there if it is in the queue. -/
def dropRam (s : State) : State :=
  if s.unwrittenPages.any (·.pageHandle = s.ram.pageHandle) then s else s.destroySink s.ram

def nextIteration (s : State) : Except Stop State :=
  if s.iteration = maxIteration then .error .undefined
  else .ok { s with iteration := s.iteration + 1, point := .clean }

def bound (s : State) : ℕ := if s.point = .finish then maxIteration else s.iteration

def due (s : State) : Bool := s.unwrittenPages.head?.any (·.iteration + 1 < s.bound)

end State

def shipNode (p : ℕ) (fits : Bool) (s : State) : State × Bool :=
  let page := s.pages
  -- the temporary block: the phantom reference to the old block, and the header of the new one
  let t := { s.getPage.useActive with active := some page }.use page
  let t := (t.use p).use page
  if fits then
    -- `getRecord`, then `unpin`, and `maps` goes out of scope before the temporary block
    let t := ((t.use page).unpin page).useManaged page
    ({ t with active := s.active }.useActive, true)
  else ({ t.useManaged page with active := s.active }.useActive, false)

def shipNodes (p : ℕ) (fits : ℕ → Bool) : ℕ → ℕ → State → State × Bool
  | 0, _, s => (s, true)
  | numNodes + 1, node, s =>
    if (shipNode p (fits node) s).2 then shipNodes p fits numNodes (node + 1) (shipNode p (fits node) s).1
    else ((shipNode p (fits node) s).1, false)

/-- The body that `PreaggregationPageProcessor` and `ShuffleJoinProcessor` share: what it returns, or nothing
if it throws. The handle `allMaps` counts as a reference as long as the body runs. -/
def shipMaps (numNodes : ℕ) (fits : ℕ → Bool) (memory : MemoryHolder) (s : State) : State × Option Bool :=
  if memory.outputSink then
    let r := shipNodes memory.pageHandle fits numNodes 0 (s.useManaged memory.pageHandle)
    (r.1.useManaged memory.pageHandle, if r.2 then some false else none)
  else (s, some true)

/-- `getRecord` returns null for an object that is not managed. -/
def broadcastMaps (memory : MemoryHolder) (s : State) : Except Stop (State × Option Bool) :=
  if memory.outputSink then
    let s := s.useManaged memory.pageHandle
    if s.active = some memory.pageHandle then
      .ok (((s.use memory.pageHandle).unpin memory.pageHandle).useManaged memory.pageHandle, some false)
    else .error .undefined
  else .ok (s, some true)

def process (processor : PageProcessor) (fits : ℕ → Bool) (memory : MemoryHolder) (s : State) :
    Except Stop (State × Option Bool) :=
  match processor with
  | .nullProcessor => .ok (s, some true)
  | .preaggregationPageProcessor numNodes => .ok (shipMaps numNodes fits memory s)
  | .shuffleJoinProcessor numNodes => .ok (shipMaps numNodes fits memory s)
  | .broadcastJoinProcessor _ => broadcastMaps memory s

/-- The block of the last pages is replaced before they are unpinned. -/
def State.popFront (front : MemoryHolder) (rest : List MemoryHolder) (s : State) : State :=
  let s := { s with active := if s.bound = maxIteration then none else s.active }.unpin front.pageHandle
  { s with unwrittenPages := rest }

def State.unpinFront (front : MemoryHolder) (rest : List MemoryHolder) (keep : Bool) (s : State) : State :=
  -- `emptyOutContainingBlock` sets the sink to null
  let s := (if keep then s else s.useManaged front.pageHandle).popFront front rest
  let front := { front with outputSink := keep }
  if s.ram.pageHandle = front.pageHandle then { s with ram := front } else s.destroySink front

/-- A page without a sink is removed from the page set and goes with its last handle, that of the holder. -/
def State.discardFront (front : MemoryHolder) (rest : List MemoryHolder) (s : State) : State :=
  let s := { s.useManaged front.pageHandle with unwrittenPages := rest }
  if s.ram.pageHandle = front.pageHandle then s else s.unpin front.pageHandle

def cleanPage (processor : PageProcessor) (fits : ℕ → Bool) (s : State) : Except Stop State :=
  match s.unwrittenPages with
  | [] => .ok s
  | front :: rest =>
    if front.outputSink then do
      match ← process processor fits front s with
      | (s, none) => .ok { s.dropRam with point := .thrown }
      | (s, some keep) => .ok (s.unpinFront front rest keep)
    else .ok (s.discardFront front rest)

/-- `used` are the pages whose bytes the source, a stage or the sink uses, `fits` tells on which of its pages
the processor has room. -/
inductive Call
  | nextTupleSet (used : List ℕ)
  | noTupleSet (used : List ℕ)
  | stage (used : List ℕ)
  | stageThrows (used : List ℕ)
  | stagesDone
  | writeOut (used : List ℕ)
  | writeThrows (containerMade : Bool) (used : List ℕ)
  -- an exception that `run` does not catch
  | leave (used : List ℕ)
  | cleanPage (fits : ℕ → Bool)
  | cleaned

def step (processor : PageProcessor) : Call → State → Except Stop State
  | .nextTupleSet used, s => .ok { (s.useAll used).useActive with point := .stages false }
  | .noTupleSet used, s =>
    let s := (s.useAll used).addPageToIteration
    .ok { s with unwrittenPages := s.unwrittenPages.reverse, point := .finish }
  | .stage used, s => .ok { s.useAll used with point := .stages false }
  | .stageThrows used, s =>
    let t := (s.useAll used).addPageToIteration.newMemory
    if s.point = .stages true then t.nextIteration else .ok { t with point := .stages true }
  | .stagesDone, s => .ok { s.useActive with point := .write }
  | .writeOut used, s => ((s.createContainer).useAll used).useActive.nextIteration
  | .writeThrows containerMade used, s =>
    let s := if containerMade then s.createContainer else s
    .ok { (s.useAll used).addPageToIteration.newMemory with point := .rewrite }
  | .leave used, s => .ok { (s.useAll used).dropRam with point := .thrown }
  | .cleanPage fits, s => cleanPage processor fits s
  | .cleaned, s =>
    if s.point = .finish then .ok { State.dropRam { s with active := none } with point := .returned }
    else .ok { s with point := .loop }

def Legal (c : Call) (s : State) : Prop :=
  match c with
  | .nextTupleSet _ => s.point = .loop
  | .noTupleSet _ => s.point = .loop
  | .stage _ => s.point = .stages false ∨ s.point = .stages true
  | .stageThrows _ => s.point = .stages false ∨ s.point = .stages true
  | .stagesDone => s.point = .stages false
  | .writeOut _ => s.point = .write ∨ s.point = .rewrite
  | .writeThrows _ _ => s.point = .write
  | .leave _ => s.point = .loop ∨ s.point = .stages true ∨ s.point = .write ∨ s.point = .rewrite
  | .cleanPage _ => (s.point = .clean ∨ s.point = .finish) ∧ s.due = true
  | .cleaned => (s.point = .clean ∨ s.point = .finish) ∧ s.due = false

def start : State := ⟨.loop, ⟨0, false, 0⟩, [], 0, some 0, 1, fun _ => none, [.use 0, .pin 0]⟩

def Start (s : State) : Prop := s = start

def Harmless (processor : PageProcessor) (fits : ℕ → Bool) (memory : MemoryHolder) (s : State) : Prop :=
  match processor with
  | .nullProcessor => True
  | .preaggregationPageProcessor numNodes => numNodes = 0 ∨ fits 0 = false
  | .shuffleJoinProcessor numNodes => numNodes = 0 ∨ fits 0 = false
  | .broadcastJoinProcessor _ => s.active ≠ some memory.pageHandle

def Call.used : Call → List ℕ
  | .nextTupleSet used => used
  | .noTupleSet used => used
  | .stage used => used
  | .stageThrows used => used
  | .writeOut used => used
  | .writeThrows _ used => used
  | .leave used => used
  | _ => []

def State.Old (s : State) (p : ℕ) : Prop := ∃ i, s.added p = some i ∧ i + 1 < s.iteration

def Proper (processor : PageProcessor) (c : Call) (s : State) : Prop :=
  match c with
  | .cleanPage fits => ∀ front, s.unwrittenPages.head? = some front → front.outputSink = true →
      Harmless processor fits front s
  | c => ∀ p ∈ c.used, ¬ s.Old p

variable {s t : State} {used : List ℕ} {p : ℕ}

namespace State

section Fields

@[simp] theorem useAll_point : (s.useAll used).point = s.point := rfl
@[simp] theorem useAll_ram : (s.useAll used).ram = s.ram := rfl
@[simp] theorem useAll_unwrittenPages : (s.useAll used).unwrittenPages = s.unwrittenPages := rfl
@[simp] theorem useAll_iteration : (s.useAll used).iteration = s.iteration := rfl
@[simp] theorem useAll_active : (s.useAll used).active = s.active := rfl
@[simp] theorem useAll_pages : (s.useAll used).pages = s.pages := rfl
@[simp] theorem useAll_added : (s.useAll used).added = s.added := rfl
@[simp] theorem useAll_trace : (s.useAll used).trace = used.map .use ++ s.trace := rfl

end Fields

structure Pinned (s : State) : Prop where
  safe : Safe s.trace
  fresh : ∀ p, Unpinned s.trace p → p < s.pages
  ram : s.ram.pageHandle < s.pages
  active : ∀ p, s.active = some p → p < s.pages ∧ ¬ Unpinned s.trace p
  queue : ∀ h ∈ s.unwrittenPages,
    h.pageHandle < s.pages ∧ ¬ Unpinned s.trace h.pageHandle ∧ s.added h.pageHandle = some h.iteration
  nodup : (s.unwrittenPages.map MemoryHolder.pageHandle).Nodup

structure Tidy (s : State) : Prop where
  sorted : s.unwrittenPages.Pairwise fun g h => g.iteration ≤ h.iteration
  young : ∀ h ∈ s.unwrittenPages, h.iteration ≤ s.iteration
  lag : ∀ p, Unpinned s.trace p → s.Old p
  gone : ∀ p i, s.added p = some i → Unpinned s.trace p ∨ ∃ h ∈ s.unwrittenPages, h.pageHandle = p

structure Running (s : State) : Prop extends s.Pinned, s.Tidy where
  ramPinned : ¬ Unpinned s.trace s.ram.pageHandle
  apart : ∀ h ∈ s.unwrittenPages, h.pageHandle ≠ s.ram.pageHandle
  block : s.active = some s.ram.pageHandle ∨ s.active = none

def Settled (s : State) : Prop := ∀ h ∈ s.unwrittenPages, s.iteration ≤ h.iteration + 1

theorem Tidy.frame (h : s.Tidy) (hq : t.unwrittenPages = s.unwrittenPages) (hi : t.iteration = s.iteration)
    (ha : t.added = s.added) (hu : ∀ p, Unpinned t.trace p ↔ Unpinned s.trace p) : t.Tidy := by
  refine ⟨?_, ?_, ?_, ?_⟩
  · rw [hq]
    exact h.sorted
  · rw [hq, hi]
    exact h.young
  · intro p hp
    unfold Old
    rw [ha, hi]
    exact h.lag p ((hu p).mp hp)
  · intro p i hp
    rw [hq, hu]
    rw [ha] at hp
    exact h.gone p i hp

theorem Running.unpinned_of_old (h : s.Running) (hs : s.Settled) (ho : s.Old p) : Unpinned s.trace p := by
  obtain ⟨i, hi, hlt⟩ := ho
  obtain hun | ⟨g, hg, rfl⟩ := h.gone p i hi
  · exact hun
  · have hadded := (h.queue g hg).2.2
    rw [hi, Option.some.injEq] at hadded
    have := hs g hg
    omega

theorem Pinned.useAll (h : s.Pinned) (hu : ∀ p ∈ used, ¬ Unpinned s.trace p) : (s.useAll used).Pinned where
  safe := safe_uses.mpr ⟨hu, h.safe⟩
  fresh p hp := h.fresh p ((unpinned_uses used).mp hp)
  ram := h.ram
  active p hp := by
    rw [useAll_trace, unpinned_uses]
    exact h.active p hp
  queue g hg := by
    rw [useAll_trace, unpinned_uses]
    exact h.queue g hg
  nodup := h.nodup

theorem Running.useAll (h : s.Running) (hu : ∀ p ∈ used, ¬ Unpinned s.trace p) : (s.useAll used).Running where
  toPinned := h.toPinned.useAll hu
  toTidy := h.toTidy.frame rfl rfl rfl fun _ => unpinned_uses used
  ramPinned := by
    rw [useAll_trace, unpinned_uses]
    exact h.ramPinned
  apart := h.apart
  block := h.block

theorem Tidy.recent (h : s.Tidy) (hr : ∀ p ∈ used, ¬ s.Old p) : ∀ p ∈ used, ¬ Unpinned s.trace p :=
  fun p hp hun => hr p hp (h.lag p hun)

theorem Pinned.activePinned (h : s.Pinned) : ∀ p ∈ s.active.toList, ¬ Unpinned s.trace p := by
  intro p hp
  exact (h.active p (Option.mem_toList.mp hp)).2

theorem Pinned.managedPinned (h : s.Pinned) (q : ℕ) :
    ∀ p ∈ s.active.toList.filter (· = q), ¬ Unpinned s.trace p := by
  intro p hp
  exact h.activePinned p (List.mem_filter.mp hp).1

theorem Pinned.useManaged (h : s.Pinned) : (s.useManaged p).Pinned := h.useAll (h.managedPinned p)

theorem Running.useManaged (h : s.Running) : (s.useManaged p).Running := h.useAll (h.managedPinned p)

theorem Running.useActive (h : s.Running) : s.useActive.Running := h.useAll h.activePinned

theorem Pinned.destroySink (h : s.Pinned) (g : MemoryHolder) : (s.destroySink g).Pinned := by
  unfold State.destroySink
  split
  · exact h.useManaged
  · exact h

theorem Pinned.dropRam (h : s.Pinned) : s.dropRam.Pinned := by
  unfold State.dropRam
  split
  · exact h
  · exact h.destroySink _

theorem Running.createContainer (h : s.Running) : s.createContainer.Running := by
  unfold State.createContainer
  split
  · exact h
  · obtain ⟨⟨safe, fresh, ram, active, queue, nodup⟩, tidy, ramPinned, apart, block⟩ := h.useActive
    exact ⟨⟨safe, fresh, ram, active, queue, nodup⟩, tidy.frame rfl rfl rfl fun _ => Iff.rfl, ramPinned, apart,
      block⟩

theorem unpinned_createContainer : Unpinned s.createContainer.trace p ↔ Unpinned s.trace p := by
  unfold State.createContainer
  split
  · exact Iff.rfl
  · exact unpinned_uses _

theorem Settled.createContainer (h : s.Settled) : s.createContainer.Settled := by
  unfold State.createContainer
  split
  · exact h
  · exact h

theorem Settled.addPageToIteration (h : s.Settled) : s.addPageToIteration.Settled := by
  have hqueue : s.addPageToIteration.unwrittenPages = s.unwrittenPages ++ [{ s.ram with iteration := s.iteration }] ∧
      s.addPageToIteration.iteration = s.iteration := by
    unfold State.addPageToIteration
    split
    · exact ⟨rfl, rfl⟩
    · exact ⟨rfl, rfl⟩
  intro g hg
  rw [hqueue.1] at hg
  rw [hqueue.2]
  obtain hg | hg := List.mem_append.mp hg
  · exact h g hg
  · obtain rfl := List.mem_singleton.mp hg
    exact Nat.le_succ _

theorem Running.addPageToIteration (h : s.Running) : s.addPageToIteration.Pinned ∧ s.addPageToIteration.Tidy := by
  obtain ⟨t, ht, heq⟩ : ∃ t : State, t.Running ∧
      (if s.ram.outputSink then s.useManaged s.ram.pageHandle else s) = t := by
    split
    · exact ⟨_, h.useManaged, rfl⟩
    · exact ⟨s, h, rfl⟩
  have hold : ∀ g ∈ t.unwrittenPages,
      Function.update t.added t.ram.pageHandle (some t.iteration) g.pageHandle = some g.iteration := by
    intro g hg
    rw [Function.update_of_ne (ht.apart g hg)]
    exact (ht.queue g hg).2.2
  unfold State.addPageToIteration
  rw [heq]
  refine ⟨⟨ht.safe, ht.fresh, ht.ram, ht.active, ?_, ?_⟩, ⟨?_, ?_, ?_, ?_⟩⟩
  · intro g hg
    obtain hg | hg := List.mem_append.mp hg
    · obtain ⟨hlt, hpin, -⟩ := ht.queue g hg
      exact ⟨hlt, hpin, hold g hg⟩
    · obtain rfl := List.mem_singleton.mp hg
      exact ⟨ht.ram, ht.ramPinned, Function.update_self ..⟩
  · rw [List.map_append, List.nodup_append]
    refine ⟨ht.nodup, List.nodup_singleton _, ?_⟩
    intro p hp q hq
    obtain ⟨g, hg, rfl⟩ := List.mem_map.mp hp
    obtain rfl := List.mem_singleton.mp hq
    exact ht.apart g hg
  · rw [List.pairwise_append]
    refine ⟨ht.sorted, List.pairwise_singleton _ _, ?_⟩
    intro g hg q hq
    obtain rfl := List.mem_singleton.mp hq
    exact ht.young g hg
  · intro g hg
    obtain hg | hg := List.mem_append.mp hg
    · exact ht.young g hg
    · obtain rfl := List.mem_singleton.mp hg
      exact le_rfl
  · intro p hp
    have hne : p ≠ t.ram.pageHandle := by
      rintro rfl
      exact ht.ramPinned hp
    obtain ⟨i, hi, hlt⟩ := ht.lag p hp
    refine ⟨i, ?_, hlt⟩
    dsimp only
    rw [Function.update_of_ne hne]
    exact hi
  · intro p i hi
    by_cases hp : p = t.ram.pageHandle
    · exact .inr ⟨_, List.mem_append_right _ List.mem_cons_self, hp.symm⟩
    · dsimp only at hi
      rw [Function.update_of_ne hp] at hi
      obtain hun | ⟨g, hg, hgp⟩ := ht.gone p i hi
      · exact .inl hun
      · exact .inr ⟨g, List.mem_append_left _ hg, hgp⟩

theorem Pinned.newMemory (h : s.Pinned) (htidy : s.Tidy) : s.newMemory.Running := by
  have hnew : ∀ p, Unpinned (.use s.pages :: .pin s.pages :: s.trace) p ↔ p ≠ s.pages ∧ Unpinned s.trace p :=
    fun p => Iff.rfl
  refine ⟨⟨⟨?_, h.safe⟩, ?_, Nat.lt_succ_self _, ?_, ?_, h.nodup⟩,
    ⟨htidy.sorted, htidy.young, fun p hp => htidy.lag p hp.2, ?_⟩, ?_, ?_, .inl rfl⟩
  · intro hun
    exact hun.1 rfl
  · intro p hp
    exact Nat.lt_succ_of_lt (h.fresh p hp.2)
  · rintro p ⟨⟩
    exact ⟨Nat.lt_succ_self _, fun hun => hun.1 rfl⟩
  · intro g hg
    obtain ⟨hlt, hpin, hadded⟩ := h.queue g hg
    exact ⟨Nat.lt_succ_of_lt hlt, fun hun => hpin hun.2, hadded⟩
  · intro p i hi
    obtain hun | hqueue := htidy.gone p i hi
    · exact .inl ⟨Nat.ne_of_lt (h.fresh p hun), hun⟩
    · exact .inr hqueue
  · intro hun
    exact hun.1 rfl
  · intro g hg
    exact Nat.ne_of_lt (h.queue g hg).1

theorem Running.fresh_page (h : s.Running) : s.addPageToIteration.newMemory.Running :=
  h.addPageToIteration.1.newMemory h.addPageToIteration.2

theorem Running.nextIteration (h : s.Running) (hn : s.nextIteration = .ok t) : t.Running ∧ t.point = .clean := by
  unfold State.nextIteration at hn
  split at hn
  · cases hn
  · cases hn
    obtain ⟨⟨safe, fresh, ram, active, queue, nodup⟩, ⟨sorted, young, lag, gone⟩, ramPinned, apart, block⟩ := h
    refine ⟨⟨⟨safe, fresh, ram, active, queue, nodup⟩, ⟨sorted, ?_, ?_, gone⟩, ramPinned, apart, block⟩, rfl⟩
    · intro g hg
      exact Nat.le_succ_of_le (young g hg)
    · intro p hp
      obtain ⟨i, hi, hlt⟩ := lag p hp
      exact ⟨i, hi, Nat.lt_succ_of_lt hlt⟩

theorem Running.withPoint (h : s.Running) (point : Point) : State.Running { s with point } := by
  obtain ⟨⟨safe, fresh, ram, active, queue, nodup⟩, tidy, ramPinned, apart, block⟩ := h
  exact ⟨⟨safe, fresh, ram, active, queue, nodup⟩, tidy.frame rfl rfl rfl fun _ => Iff.rfl, ramPinned, apart, block⟩

theorem Pinned.getPage (h : s.Pinned) : s.getPage.Pinned ∧ ∀ p < s.pages, ¬ Unpinned s.trace p →
    ¬ Unpinned s.getPage.trace p := by
  refine ⟨⟨h.safe, ?_, Nat.lt_succ_of_lt h.ram, ?_, ?_, h.nodup⟩, ?_⟩
  · intro p hp
    exact Nat.lt_succ_of_lt (h.fresh p hp.2)
  · intro p hp
    exact ⟨Nat.lt_succ_of_lt (h.active p hp).1, fun hun => (h.active p hp).2 hun.2⟩
  · intro g hg
    obtain ⟨hlt, hpin, hadded⟩ := h.queue g hg
    exact ⟨Nat.lt_succ_of_lt hlt, fun hun => hpin hun.2, hadded⟩
  · intro p _ hp hun
    exact hp hun.2

theorem Pinned.withActive (h : s.Pinned) {active : Option ℕ}
    (ha : ∀ p, active = some p → p < s.pages ∧ ¬ Unpinned s.trace p) : State.Pinned { s with active } :=
  ⟨h.safe, h.fresh, h.ram, ha, h.queue, h.nodup⟩

theorem Pinned.unpinNext {front : MemoryHolder} {rest : List MemoryHolder} {active : Option ℕ} (h : s.Pinned)
    (hq : s.unwrittenPages = front :: rest)
    (ha : ∀ p, active = some p → s.active = some p ∧ p ≠ front.pageHandle) :
    State.Pinned { s.unpin front.pageHandle with unwrittenPages := rest, active } := by
  have hnodup := h.nodup
  rw [hq, List.map_cons, List.nodup_cons] at hnodup
  refine ⟨h.safe, ?_, h.ram, ?_, ?_, hnodup.2⟩
  · rintro p (rfl | hp)
    · exact (h.queue front (by rw [hq]; exact List.mem_cons_self)).1
    · exact h.fresh p hp
  · intro p hp
    obtain ⟨hactive, hne⟩ := ha p hp
    exact ⟨(h.active p hactive).1, fun hun => hun.elim hne (h.active p hactive).2⟩
  · intro g hg
    obtain ⟨hlt, hpin, hadded⟩ := h.queue g (by rw [hq]; exact List.mem_cons_of_mem _ hg)
    refine ⟨hlt, ?_, hadded⟩
    rintro (heq | hun)
    · exact hnodup.1 (heq ▸ List.mem_map_of_mem hg)
    · exact hpin hun

theorem Pinned.popFront {front : MemoryHolder} {rest : List MemoryHolder} (h : s.Pinned)
    (hq : s.unwrittenPages = front :: rest) (hb : s.bound = maxIteration ∨ s.active ≠ some front.pageHandle) :
    (s.popFront front rest).Pinned := by
  apply h.unpinNext hq
  intro p hp
  split at hp
  · cases hp
  · next hne => exact ⟨hp, fun heq => hb.resolve_left hne (heq ▸ hp)⟩

theorem Pinned.discardFront {front : MemoryHolder} {rest : List MemoryHolder} (h : s.Pinned)
    (hq : s.unwrittenPages = front :: rest) (hb : s.active = some s.ram.pageHandle ∨ s.active = none) :
    (s.discardFront front rest).Pinned := by
  have hused : (s.useManaged front.pageHandle).Pinned := h.useManaged
  unfold State.discardFront
  dsimp only
  split
  · have hnodup := hused.nodup
    rw [State.useManaged, useAll_unwrittenPages, hq, List.map_cons, List.nodup_cons] at hnodup
    refine ⟨hused.safe, hused.fresh, hused.ram, hused.active, ?_, hnodup.2⟩
    intro g hg
    exact hused.queue g (by rw [State.useManaged, useAll_unwrittenPages, hq]; exact List.mem_cons_of_mem _ hg)
  · next hne =>
    apply hused.unpinNext hq
    intro p hp
    refine ⟨hp, ?_⟩
    rintro rfl
    obtain hram | hnone := hb
    · exact hne (Option.some.inj (hram.symm.trans hp))
    · cases hnone.symm.trans hp

theorem Running.tidy_pop {front : MemoryHolder} {rest : List MemoryHolder} (h : s.Running)
    (hq : s.unwrittenPages = front :: rest) (hlt : front.iteration + 1 < s.iteration)
    (hqt : t.unwrittenPages = rest) (hi : t.iteration = s.iteration) (ha : t.added = s.added)
    (hu : ∀ p, Unpinned t.trace p ↔ p = front.pageHandle ∨ Unpinned s.trace p) : t.Tidy := by
  have hrest : ∀ g ∈ rest, g ∈ s.unwrittenPages := by
    intro g hg
    rw [hq]
    exact List.mem_cons_of_mem _ hg
  have hsorted := h.sorted
  rw [hq, List.pairwise_cons] at hsorted
  refine ⟨?_, ?_, ?_, ?_⟩
  · rw [hqt]
    exact hsorted.2
  · intro g hg
    rw [hi]
    exact h.young g (hrest g (hqt ▸ hg))
  · intro p hp
    unfold Old
    rw [ha, hi]
    obtain rfl | hun := (hu p).mp hp
    · exact ⟨_, (h.queue front (by rw [hq]; exact List.mem_cons_self)).2.2, hlt⟩
    · exact h.lag p hun
  · intro p i hp
    rw [ha] at hp
    rw [hu, hqt]
    obtain hun | ⟨g, hg, hgp⟩ := h.gone p i hp
    · exact .inl (.inr hun)
    · rw [hq] at hg
      obtain rfl | hg := List.mem_cons.mp hg
      · exact .inl (.inl hgp.symm)
      · exact .inr ⟨g, hg, hgp⟩

theorem Running.unpinNext {front : MemoryHolder} {rest : List MemoryHolder} {active : Option ℕ} (h : s.Running)
    (hq : s.unwrittenPages = front :: rest) (hlt : front.iteration + 1 < s.iteration)
    (ha : active = s.active ∨ active = none) :
    State.Running { s.unpin front.pageHandle with unwrittenPages := rest, active } := by
  have hne : front.pageHandle ≠ s.ram.pageHandle := h.apart front (by rw [hq]; exact List.mem_cons_self)
  refine ⟨h.toPinned.unpinNext hq ?_, h.tidy_pop hq hlt rfl rfl rfl fun p => Iff.rfl, ?_, ?_, ?_⟩
  · intro p hp
    obtain rfl | rfl := ha
    · refine ⟨hp, ?_⟩
      rintro rfl
      obtain hram | hnone := h.block
      · exact hne (Option.some.inj (hp.symm.trans hram))
      · cases hnone.symm.trans hp
    · cases hp
  · rintro (heq | hun)
    · exact hne heq.symm
    · exact h.ramPinned hun
  · intro g hg
    exact h.apart g (by rw [hq]; exact List.mem_cons_of_mem _ hg)
  · obtain rfl | rfl := ha
    · exact h.block
    · exact .inr rfl

theorem Running.popFront {front : MemoryHolder} {rest : List MemoryHolder} (h : s.Running)
    (hq : s.unwrittenPages = front :: rest) (hlt : front.iteration + 1 < s.iteration) :
    (s.popFront front rest).Running := by
  apply h.unpinNext hq hlt
  split
  · exact .inr rfl
  · exact .inl rfl

theorem Running.discardFront {front : MemoryHolder} {rest : List MemoryHolder} (h : s.Running)
    (hq : s.unwrittenPages = front :: rest) (hlt : front.iteration + 1 < s.iteration) :
    (s.discardFront front rest).Running := by
  have hne : s.ram.pageHandle ≠ front.pageHandle := (h.apart front (by rw [hq]; exact List.mem_cons_self)).symm
  have hused : (s.useManaged front.pageHandle).Running := h.useManaged
  unfold State.discardFront
  dsimp only
  rw [State.useManaged, useAll_ram, if_neg hne]
  exact hused.unpinNext hq hlt (.inl rfl)

theorem Pinned.unpinFront {front : MemoryHolder} {rest : List MemoryHolder} {keep : Bool} (h : s.Pinned)
    (hq : s.unwrittenPages = front :: rest) (hb : s.bound = maxIteration ∨ s.active ≠ some front.pageHandle) :
    (s.unpinFront front rest keep).Pinned := by
  have hlt := (h.queue front (by rw [hq]; exact List.mem_cons_self)).1
  have hpopped : State.Pinned ((if keep then s else s.useManaged front.pageHandle).popFront front rest) := by
    split
    · exact h.popFront hq hb
    · exact h.useManaged.popFront hq hb
  have hpages : ((if keep then s else s.useManaged front.pageHandle).popFront front rest).pages = s.pages := by
    split <;> rfl
  unfold State.unpinFront
  dsimp only
  generalize (if keep then s else s.useManaged front.pageHandle).popFront front rest = t at hpopped hpages ⊢
  split
  · exact ⟨hpopped.safe, hpopped.fresh, hpages ▸ hlt, hpopped.active, hpopped.queue, hpopped.nodup⟩
  · exact hpopped.destroySink _

theorem Running.unpinFront {front : MemoryHolder} {rest : List MemoryHolder} {keep : Bool} (h : s.Running)
    (hq : s.unwrittenPages = front :: rest) (hlt : front.iteration + 1 < s.iteration) :
    (s.unpinFront front rest keep).Running := by
  have hne := h.apart front (by rw [hq]; exact List.mem_cons_self)
  have hpopped : State.Running ((if keep then s else s.useManaged front.pageHandle).popFront front rest) := by
    split
    · exact h.popFront hq hlt
    · exact h.useManaged.popFront hq hlt
  have hram : ((if keep then s else s.useManaged front.pageHandle).popFront front rest).ram = s.ram := by
    split <;> rfl
  unfold State.unpinFront
  dsimp only
  generalize (if keep then s else s.useManaged front.pageHandle).popFront front rest = t at hpopped hram ⊢
  rw [hram, if_neg hne.symm]
  unfold State.destroySink
  split
  · exact hpopped.useManaged
  · exact hpopped

end State

theorem useManaged_of_active (h : s.active = some p) : s.useManaged p = s.use p := by
  simp [State.useManaged, State.use, h]

theorem useAll_useAll (used' : List ℕ) : (s.useAll used).useAll used' = s.useAll (used' ++ used) := by
  simp [State.useAll]

theorem shipNode_throws (p : ℕ) (s : State) : shipNode p false s =
    (s.getPage.useAll (s.active.toList ++ [s.pages, s.pages, p, s.pages] ++ s.active.toList), false) := by
  simp [shipNode, State.useActive, State.useManaged, State.use, State.useAll, State.getPage]

theorem shipNode_unsafe (p : ℕ) (s : State) : (shipNode p true s).2 = true ∧ ¬ Safe (shipNode p true s).1.trace := by
  refine ⟨rfl, ?_⟩
  have htrace : (shipNode p true s).1.trace = s.active.toList.map .use ++ .use s.pages :: .unpin s.pages ::
      ([s.pages, s.pages, p, s.pages] ++ s.active.toList).map .use ++ s.getPage.trace := by
    simp [shipNode, State.useActive, State.useManaged, State.use, State.useAll, State.getPage, State.unpin]
  rw [htrace]
  intro hsafe
  rw [List.append_assoc] at hsafe
  exact hsafe.of_append.1 (.inl rfl)

section Grows

def Grows (s t : State) : Prop := s.trace <:+ t.trace

theorem Grows.refl (s : State) : Grows s s := List.suffix_rfl

theorem Grows.trans {r : State} (h : Grows s t) (h' : Grows t r) : Grows s r := List.IsSuffix.trans h h'

theorem Grows.useAll (h : Grows s t) (used : List ℕ) : Grows s (t.useAll used) :=
  h.trans ⟨used.map .use, rfl⟩

theorem Grows.useManaged (h : Grows s t) (p : ℕ) : Grows s (t.useManaged p) := h.useAll _

theorem Grows.unpin (h : Grows s t) (p : ℕ) : Grows s (t.unpin p) := h.trans (List.suffix_cons _ _)

theorem Grows.destroySink (h : Grows s t) (g : MemoryHolder) : Grows s (t.destroySink g) := by
  unfold State.destroySink
  split
  · exact h.useManaged _
  · exact h

theorem Grows.dropRam (h : Grows s t) : Grows s t.dropRam := by
  unfold State.dropRam
  split
  · exact h
  · exact h.destroySink _

theorem Grows.unpinFront (h : Grows s t) (front : MemoryHolder) (rest : List MemoryHolder) (keep : Bool) :
    Grows s (t.unpinFront front rest keep) := by
  have hpopped : Grows s ((if keep then t else t.useManaged front.pageHandle).popFront front rest) := by
    split
    · exact h.unpin _
    · exact (h.useManaged _).unpin _
  unfold State.unpinFront
  dsimp only
  generalize (if keep then t else t.useManaged front.pageHandle).popFront front rest = r at hpopped ⊢
  split
  · exact hpopped
  · exact hpopped.destroySink _

theorem Grows.addPageToIteration (h : Grows s t) : Grows s t.addPageToIteration := by
  unfold State.addPageToIteration
  dsimp only
  split
  · exact h.useManaged _
  · exact h

theorem Grows.newMemory (h : Grows s t) : Grows s t.newMemory := by
  have hpage : Grows t t.getPage := List.suffix_cons _ _
  exact (h.trans hpage).useAll [t.pages]

theorem Grows.nextIteration {r : State} (h : Grows s t) (hn : t.nextIteration = .ok r) : Grows s r := by
  unfold State.nextIteration at hn
  split at hn
  · cases hn
  · cases hn
    exact h

theorem Grows.shipNode (h : Grows s t) (fits : Bool) : Grows s (shipNode p fits t).1 := by
  cases fits with
  | false =>
    have hpage : Grows t t.getPage := List.suffix_cons _ _
    rw [shipNode_throws]
    exact (h.trans hpage).useAll _
  | true =>
    apply h.trans
    refine ⟨t.active.toList.map .use ++ .use t.pages :: .unpin t.pages ::
      ([t.pages, t.pages, p, t.pages] ++ t.active.toList).map .use ++ [.pin t.pages], ?_⟩
    simp [PageUse.shipNode, State.useActive, State.useManaged, State.use, State.useAll, State.getPage, State.unpin]

theorem Grows.shipNodes (h : Grows s t) (fits : ℕ → Bool) (numNodes node : ℕ) :
    Grows s (shipNodes p fits numNodes node t).1 := by
  induction numNodes generalizing node t with
  | zero => exact h
  | succ numNodes ih =>
    rw [PageUse.shipNodes]
    split
    · exact ih (h.shipNode _) _
    · exact h.shipNode _

end Grows

def Inv (s : State) : Prop :=
  match s.point with
  | .returned => Safe s.trace
  | .thrown => Safe s.trace
  | .finish => s.Pinned ∧ (s.active = some s.ram.pageHandle ∨ s.active = none)
  | .clean => s.Running
  | _ => s.Running ∧ s.Settled

theorem Inv.of_running (h : s.Running) (hs : s.point = .clean ∨ s.Settled) : Inv s := by
  unfold Inv
  split
  · exact h.safe
  · exact h.safe
  · exact ⟨h.toPinned, h.block⟩
  · exact h
  · next hclean => exact ⟨h, hs.resolve_left hclean⟩

theorem Inv.running (h : Inv s) (hp : s.point ∉ [Point.finish, .returned, .thrown, .clean]) :
    s.Running ∧ s.Settled := by
  unfold Inv at h
  split at h
  · next hr => simp [hr] at hp
  · next ht => simp [ht] at hp
  · next hf => simp [hf] at hp
  · next hc => simp [hc] at hp
  · exact h

theorem Inv.safe (h : Inv s) : Safe s.trace := by
  unfold Inv at h
  split at h
  · exact h
  · exact h
  · exact h.1.safe
  · exact h.safe
  · exact h.1.safe

theorem shipMaps_harmless {numNodes : ℕ} {fits : ℕ → Bool} {memory : MemoryHolder}
    (hsink : memory.outputSink = true) (hh : numNodes = 0 ∨ fits 0 = false) (h : s.Pinned)
    (hp : memory.pageHandle < s.pages) (hpin : ¬ Unpinned s.trace memory.pageHandle) :
    (∃ used, shipMaps numNodes fits memory s = (s.useAll used, some false) ∧ ∀ p ∈ used, ¬ Unpinned s.trace p) ∨
      ((shipMaps numNodes fits memory s).2 = none ∧ (shipMaps numNodes fits memory s).1.Pinned) := by
  cases numNodes with
  | zero =>
    refine .inl ⟨s.active.toList.filter (· = memory.pageHandle) ++
      s.active.toList.filter (· = memory.pageHandle), ?_, ?_⟩
    · rw [← useAll_useAll]
      simp [shipMaps, hsink, shipNodes, State.useManaged]
    · intro p hp
      exact h.managedPinned memory.pageHandle p (by simpa using hp)
  | succ numNodes =>
    have hfits : fits 0 = false := hh.resolve_left (Nat.succ_ne_zero _)
    have hnodes : shipNodes memory.pageHandle fits (numNodes + 1) 0 (s.useManaged memory.pageHandle) =
        ((shipNode memory.pageHandle false (s.useManaged memory.pageHandle)).1, false) := by
      rw [shipNodes, hfits, shipNode_throws]
      rfl
    refine .inr ⟨?_, ?_⟩
    · simp [shipMaps, hsink, hnodes]
    · have hused : (s.useManaged memory.pageHandle).Pinned := h.useManaged
      obtain ⟨hpage, hkept⟩ := hused.getPage
      have hold : ¬ Unpinned (s.useManaged memory.pageHandle).getPage.trace memory.pageHandle := by
        apply hkept _ hp
        rwa [State.useManaged, State.useAll_trace, unpinned_uses]
      have hnew : ¬ Unpinned (s.useManaged memory.pageHandle).getPage.trace s.pages := fun hun => hun.1 rfl
      simp only [shipMaps, hsink, if_true, hnodes, shipNode_throws]
      apply State.Pinned.useManaged
      apply hpage.useAll
      intro p hp
      simp only [List.mem_append, List.mem_cons, List.not_mem_nil, or_false] at hp
      obtain (hp | rfl | rfl | rfl | rfl) | hp := hp
      · exact hpage.activePinned p hp
      · exact hnew
      · exact hnew
      · exact hold
      · exact hnew
      · exact hpage.activePinned p hp

theorem process_harmless {processor : PageProcessor} {fits : ℕ → Bool} {memory : MemoryHolder} {r : Option Bool}
    (hsink : memory.outputSink = true) (hh : Harmless processor fits memory s) (h : s.Pinned)
    (hp : memory.pageHandle < s.pages) (hpin : ¬ Unpinned s.trace memory.pageHandle)
    (he : process processor fits memory s = .ok (t, r)) :
    (∃ keep used, r = some keep ∧ t = s.useAll used ∧ ∀ p ∈ used, ¬ Unpinned s.trace p) ∨ (r = none ∧ t.Pinned) := by
  have hship : ∀ numNodes, (numNodes = 0 ∨ fits 0 = false) →
      (.ok (shipMaps numNodes fits memory s) : Except Stop (State × Option Bool)) = .ok (t, r) →
      (∃ keep used, r = some keep ∧ t = s.useAll used ∧ ∀ p ∈ used, ¬ Unpinned s.trace p) ∨ (r = none ∧ t.Pinned) := by
    intro numNodes hh he
    rw [Except.ok.injEq] at he
    obtain ⟨used, hused, hpins⟩ | hthrows := shipMaps_harmless hsink hh h hp hpin
    · rw [hused, Prod.mk.injEq] at he
      exact .inl ⟨false, used, he.2.symm, he.1.symm, hpins⟩
    · rw [he] at hthrows
      exact .inr hthrows
  cases processor with
  | nullProcessor =>
    cases he
    exact .inl ⟨true, [], rfl, rfl, nofun⟩
  | preaggregationPageProcessor numNodes => exact hship numNodes hh he
  | shuffleJoinProcessor numNodes => exact hship numNodes hh he
  | broadcastJoinProcessor numNodes =>
    have hne : s.active ≠ some memory.pageHandle := hh
    simp [process, broadcastMaps, hsink, State.useManaged, hne] at he

theorem process_harmful {processor : PageProcessor} {fits : ℕ → Bool} {memory : MemoryHolder} {r : Option Bool}
    (hsink : memory.outputSink = true) (hh : ¬ Harmless processor fits memory s)
    (he : process processor fits memory s = .ok (t, r)) : ¬ Safe t.trace := by
  have hship : ∀ numNodes, ¬ (numNodes = 0 ∨ fits 0 = false) →
      (.ok (shipMaps numNodes fits memory s) : Except Stop (State × Option Bool)) = .ok (t, r) → ¬ Safe t.trace := by
    intro numNodes hh he hsafe
    rw [not_or, Bool.not_eq_false] at hh
    obtain ⟨n, rfl⟩ := Nat.exists_eq_succ_of_ne_zero hh.1
    obtain ⟨hall, hlate⟩ := shipNode_unsafe memory.pageHandle (s.useManaged memory.pageHandle)
    have hgrows : Grows (shipNode memory.pageHandle true (s.useManaged memory.pageHandle)).1 t := by
      simp only [shipMaps, hsink, if_true, Except.ok.injEq, Prod.mk.injEq] at he
      rw [← he.1, shipNodes, hh.2, if_pos hall]
      exact ((Grows.refl _).shipNodes _ _ _).useManaged _
    exact hlate (hsafe.of_suffix hgrows)
  cases processor with
  | nullProcessor => exact absurd trivial hh
  | preaggregationPageProcessor numNodes => exact hship numNodes hh he
  | shuffleJoinProcessor numNodes => exact hship numNodes hh he
  | broadcastJoinProcessor numNodes =>
    have hactive : s.active = some memory.pageHandle := not_not.mp hh
    have hmanaged : (s.useManaged memory.pageHandle).active = some memory.pageHandle := hactive
    simp only [process, broadcastMaps, hsink, if_true, if_pos hmanaged] at he
    cases he
    rw [useManaged_of_active hactive, useManaged_of_active (by exact hactive)]
    intro hsafe
    exact hsafe.1 (.inl rfl)

theorem cleanPage_front (hi : Inv s) {fits : ℕ → Bool} (hl : Legal (.cleanPage fits) s) :
    ∃ front rest, s.unwrittenPages = front :: rest ∧ s.Pinned ∧
      (s.active = some s.ram.pageHandle ∨ s.active = none) ∧
      (s.point = .finish ∨ s.point = .clean ∧ s.Running ∧ front.iteration + 1 < s.iteration) := by
  obtain ⟨hpoint, hdue⟩ := hl
  unfold State.due at hdue
  cases hq : s.unwrittenPages with
  | nil => simp [hq] at hdue
  | cons front rest =>
    rw [hq, List.head?_cons, Option.any_some, decide_eq_true_iff] at hdue
    refine ⟨front, rest, rfl, ?_⟩
    obtain hpoint | hpoint := hpoint
    · simp only [Inv, hpoint] at hi
      rw [State.bound, hpoint, if_neg (by decide)] at hdue
      exact ⟨hi.toPinned, hi.block, .inr ⟨hpoint, hi, hdue⟩⟩
    · simp only [Inv, hpoint] at hi
      exact ⟨hi.1, hi.2, .inl hpoint⟩

theorem popFront_fields (front : MemoryHolder) (rest : List MemoryHolder) :
    (s.popFront front rest).point = s.point ∧ (s.popFront front rest).ram = s.ram ∧
      ((s.popFront front rest).active = s.active ∨ (s.popFront front rest).active = none) := by
  refine ⟨rfl, rfl, ?_⟩
  unfold State.popFront
  dsimp only
  split
  · exact .inr rfl
  · exact .inl rfl

theorem unpinFront_fields (front : MemoryHolder) (rest : List MemoryHolder) (keep : Bool) :
    (s.unpinFront front rest keep).point = s.point ∧
      (s.unpinFront front rest keep).ram.pageHandle = s.ram.pageHandle ∧
      ((s.unpinFront front rest keep).active = s.active ∨ (s.unpinFront front rest keep).active = none) := by
  obtain ⟨hpoint, hram, hactive⟩ := popFront_fields (s := if keep then s else s.useManaged front.pageHandle) front rest
  have hsame : (if keep then s else s.useManaged front.pageHandle).point = s.point ∧
      (if keep then s else s.useManaged front.pageHandle).ram = s.ram ∧
      (if keep then s else s.useManaged front.pageHandle).active = s.active := by
    split
    · exact ⟨rfl, rfl, rfl⟩
    · exact ⟨rfl, rfl, rfl⟩
  rw [hsame.1] at hpoint
  rw [hsame.2.1] at hram
  rw [hsame.2.2] at hactive
  unfold State.unpinFront
  dsimp only
  generalize (if keep then s else s.useManaged front.pageHandle).popFront front rest = t at hpoint hram hactive ⊢
  split
  · next heq => exact ⟨hpoint, heq.symm.trans (congrArg _ hram), hactive⟩
  · unfold State.destroySink
    split
    · exact ⟨hpoint, congrArg _ hram, hactive⟩
    · exact ⟨hpoint, congrArg _ hram, hactive⟩

theorem discardFront_fields (front : MemoryHolder) (rest : List MemoryHolder) :
    (s.discardFront front rest).point = s.point ∧ (s.discardFront front rest).ram = s.ram ∧
      (s.discardFront front rest).active = s.active := by
  unfold State.discardFront
  dsimp only
  split
  · exact ⟨rfl, rfl, rfl⟩
  · exact ⟨rfl, rfl, rfl⟩

theorem cleanPage_inv {processor : PageProcessor} {fits : ℕ → Bool} (hi : Inv s)
    (hl : Legal (.cleanPage fits) s) (hp : Proper processor (.cleanPage fits) s)
    (he : cleanPage processor fits s = .ok t) : Inv t := by
  obtain ⟨front, rest, hq, hpinned, hblock, hat⟩ := cleanPage_front hi hl
  obtain ⟨hlt, hpin, -⟩ := hpinned.queue front (by rw [hq]; exact List.mem_cons_self)
  simp only [cleanPage, hq] at he
  by_cases hsink : front.outputSink = true
  · rw [if_pos hsink] at he
    obtain ⟨⟨u, r⟩, hprocess, he⟩ := bind_eq_ok.mp he
    have hh : Harmless processor fits front s := hp front (by rw [hq, List.head?_cons]) hsink
    obtain ⟨keep, used, rfl, rfl, hused⟩ | ⟨rfl, hu⟩ := process_harmless hsink hh hpinned hlt hpin hprocess
    · cases he
      obtain ⟨hpoint', hram, hactive⟩ := unpinFront_fields (s := s.useAll used) front rest keep
      obtain hpoint | ⟨hpoint, hrun, hbefore⟩ := hat
      · have hbound : (s.useAll used).bound = maxIteration := by
          rw [State.bound, State.useAll_point, hpoint, if_pos rfl]
        unfold Inv
        rw [hpoint', State.useAll_point, hpoint, hram]
        refine ⟨(hpinned.useAll hused).unpinFront hq (.inl hbound), ?_⟩
        obtain hactive | hactive := hactive
        · rw [hactive]
          exact hblock
        · exact .inr hactive
      · exact .of_running ((hrun.useAll hused).unpinFront hq hbefore) (.inl (hpoint'.trans hpoint))
    · cases he
      exact hu.dropRam.safe
  · rw [if_neg hsink] at he
    cases he
    obtain ⟨hpoint', hram, hactive⟩ := discardFront_fields (s := s) front rest
    obtain hpoint | ⟨hpoint, hrun, hbefore⟩ := hat
    · unfold Inv
      rw [hpoint', hpoint, hram, hactive]
      exact ⟨hpinned.discardFront hq hblock, hblock⟩
    · exact .of_running (hrun.discardFront hq hbefore) (.inl (hpoint'.trans hpoint))

theorem inv_start : Inv start := by
  refine .of_running ?_ (.inr nofun)
  refine ⟨⟨⟨fun h => h.2, trivial⟩, fun p h => h.2.elim, Nat.zero_lt_one, ?_, nofun, List.nodup_nil⟩,
    ⟨.nil, nofun, fun p h => h.2.elim, nofun⟩, fun h => h.2, nofun, .inl rfl⟩
  rintro p ⟨⟩
  exact ⟨Nat.zero_lt_one, fun h => h.2⟩

theorem cleaned_inv (hi : Inv s) (hl : Legal .cleaned s) {processor : PageProcessor}
    (he : step processor .cleaned s = .ok t) : Inv t := by
  simp only [step] at he
  split at he
  · next hf =>
    cases he
    have hs : s.Pinned := by
      unfold Inv at hi
      rw [hf] at hi
      exact hi.1
    have hnone : State.Pinned { s with active := none } := hs.withActive nofun
    exact hnone.dropRam.safe
  · next hf =>
    cases he
    have hpoint : s.point = .clean := hl.1.resolve_right hf
    have hs : s.Running := by
      unfold Inv at hi
      rwa [hpoint] at hi
    -- the first page of the queue is the oldest one
    have hsettled : s.Settled := by
      have hdue := hl.2
      have hsorted := hs.sorted
      unfold State.due at hdue
      rw [State.bound, hpoint, if_neg (by decide)] at hdue
      intro g hg
      cases hq : s.unwrittenPages with
      | nil =>
        rw [hq] at hg
        cases hg
      | cons front rest =>
        rw [hq, List.head?_cons, Option.any_some, decide_eq_false_iff_not] at hdue
        rw [hq] at hg hsorted
        obtain rfl | hg := List.mem_cons.mp hg
        · omega
        · have := List.rel_of_pairwise_cons hsorted hg
          omega
    exact .of_running (hs.withPoint _) (.inr hsettled)

theorem step_inv {processor : PageProcessor} {c : Call} (hi : Inv s) (hl : Legal c s) (hp : Proper processor c s)
    (he : step processor c s = .ok t) : Inv t := by
  cases c with
  | nextTupleSet used =>
    cases he
    obtain ⟨hs, hsettled⟩ := hi.running (by simp [show s.point = .loop from hl])
    exact .of_running (((hs.useAll (hs.recent hp)).useActive).withPoint _) (.inr hsettled)
  | noTupleSet used =>
    cases he
    obtain ⟨hs, -⟩ := hi.running (by simp [show s.point = .loop from hl])
    have hadd := (hs.useAll (hs.recent hp)).addPageToIteration.1
    refine ⟨⟨hadd.safe, hadd.fresh, hadd.ram, hadd.active, ?_, ?_⟩, ?_⟩
    · intro g hg
      exact hadd.queue g (List.mem_reverse.mp hg)
    · dsimp only
      rw [List.map_reverse]
      exact List.nodup_reverse.mpr hadd.nodup
    · unfold State.addPageToIteration
      split
      · exact hs.block
      · exact hs.block
  | stage used =>
    cases he
    obtain ⟨hs, hsettled⟩ := hi.running (by obtain h | h := hl <;> simp [h])
    exact .of_running ((hs.useAll (hs.recent hp)).withPoint _) (.inr hsettled)
  | stageThrows used =>
    obtain ⟨hs, hsettled⟩ := hi.running (by obtain h | h := hl <;> simp [h])
    have hfresh := (hs.useAll (hs.recent hp)).fresh_page
    have hadded : (s.useAll used).addPageToIteration.Settled := State.Settled.addPageToIteration hsettled
    simp only [step] at he
    split at he
    · obtain ⟨hrun, hclean⟩ := hfresh.nextIteration he
      exact .of_running hrun (.inl hclean)
    · cases he
      exact .of_running (hfresh.withPoint _) (.inr hadded)
  | stagesDone =>
    cases he
    obtain ⟨hs, hsettled⟩ := hi.running (by simp [show s.point = .stages false from hl])
    exact .of_running (hs.useActive.withPoint _) (.inr hsettled)
  | writeOut used =>
    obtain ⟨hs, -⟩ := hi.running (by obtain h | h := hl <;> simp [h])
    have hused : ∀ p ∈ used, ¬ Unpinned s.createContainer.trace p :=
      fun p hp' hun => hs.recent hp p hp' (State.unpinned_createContainer.mp hun)
    obtain ⟨hrun, hclean⟩ := (hs.createContainer.useAll hused).useActive.nextIteration he
    exact .of_running hrun (.inl hclean)
  | writeThrows containerMade used =>
    obtain ⟨hs, hsettled⟩ := hi.running (by simp [show s.point = .write from hl])
    obtain ⟨u, hu, hsettled, hmade⟩ : ∃ u : State, (u.useAll used).Running ∧ u.Settled ∧
        (if containerMade then s.createContainer else s) = u := by
      split
      · have hused : ∀ p ∈ used, ¬ Unpinned s.createContainer.trace p :=
          fun p hp' hun => hs.recent hp p hp' (State.unpinned_createContainer.mp hun)
        exact ⟨_, hs.createContainer.useAll hused, hsettled.createContainer, rfl⟩
      · exact ⟨_, hs.useAll (hs.recent hp), hsettled, rfl⟩
    have hadded : (u.useAll used).addPageToIteration.Settled := State.Settled.addPageToIteration hsettled
    simp only [step, hmade] at he
    cases he
    exact .of_running (hu.fresh_page.withPoint _) (.inr hadded)
  | leave used =>
    cases he
    obtain ⟨hs, -⟩ := hi.running (by obtain h | h | h | h := hl <;> simp [h])
    exact (hs.useAll (hs.recent hp)).toPinned.dropRam.safe
  | cleanPage fits => exact cleanPage_inv hi hl hp he
  | cleaned => exact cleaned_inv hi hl he

theorem inv_of_reachable {processor : PageProcessor}
    (h : Reachable (step processor) (fun c s => Legal c s ∧ Proper processor c s) Start s) : Inv s := by
  apply h.invariant
  · rintro s rfl
    exact inv_start
  · intro c s t hi hg he
    exact step_inv hi hg.1 hg.2 he

theorem uses_of_grows (h : Grows (s.useAll used) t) (hsafe : Safe t.trace) : ∀ p ∈ used, ¬ Unpinned s.trace p :=
  (safe_uses.mp (hsafe.of_suffix h)).1

theorem step_uses {processor : PageProcessor} {c : Call} (he : step processor c s = .ok t) (hsafe : Safe t.trace) :
    ∀ p ∈ c.used, ¬ Unpinned s.trace p := by
  have hcontainer : Grows (s.createContainer.useAll c.used) t → ∀ p ∈ c.used, ¬ Unpinned s.trace p :=
    fun hgrows p hp hun => uses_of_grows hgrows hsafe p hp (State.unpinned_createContainer.mpr hun)
  cases c with
  | nextTupleSet used =>
    cases he
    exact uses_of_grows ((Grows.refl (s.useAll used)).useAll s.active.toList) hsafe
  | noTupleSet used =>
    cases he
    exact uses_of_grows (Grows.refl (s.useAll used)).addPageToIteration hsafe
  | stage used =>
    cases he
    exact uses_of_grows (Grows.refl (s.useAll used)) hsafe
  | stageThrows used =>
    have hgrows := (Grows.refl (s.useAll used)).addPageToIteration.newMemory
    simp only [step] at he
    split at he
    · exact uses_of_grows (hgrows.nextIteration he) hsafe
    · cases he
      exact uses_of_grows hgrows hsafe
  | writeOut used => exact hcontainer (((Grows.refl _).useAll _).nextIteration he)
  | writeThrows containerMade used =>
    cases containerMade with
    | false =>
      cases he
      exact uses_of_grows (Grows.refl (s.useAll used)).addPageToIteration.newMemory hsafe
    | true =>
      cases he
      exact hcontainer (Grows.refl _).addPageToIteration.newMemory
  | leave used =>
    cases he
    exact uses_of_grows (Grows.refl (s.useAll used)).dropRam hsafe
  | stagesDone => nofun
  | cleanPage fits => nofun
  | cleaned => nofun

theorem Legal.point {c : Call} (hl : Legal c s) (hp : p ∈ c.used) :
    s.point ∉ [Point.finish, .returned, .thrown, .clean] := by
  cases c with
  | nextTupleSet used => simp [show s.point = .loop from hl]
  | noTupleSet used => simp [show s.point = .loop from hl]
  | stage used => obtain h | h := hl <;> simp [h]
  | stageThrows used => obtain h | h := hl <;> simp [h]
  | writeOut used => obtain h | h := hl <;> simp [h]
  | writeThrows containerMade used => simp [show s.point = .write from hl]
  | leave used => obtain h | h | h | h := hl <;> simp [h]
  | stagesDone => cases hp
  | cleanPage fits => cases hp
  | cleaned => cases hp

theorem cleanPage_safe {processor : PageProcessor} {fits : ℕ → Bool} (hi : Inv s) (hl : Legal (.cleanPage fits) s)
    (he : cleanPage processor fits s = .ok t) (hsafe : Safe t.trace) : Proper processor (.cleanPage fits) s := by
  intro front hfront hsink
  by_contra hh
  obtain ⟨front', rest, hq, -, -⟩ := cleanPage_front hi hl
  rw [hq, List.head?_cons, Option.some.injEq] at hfront
  subst hfront
  simp only [cleanPage, hq, if_pos hsink] at he
  obtain ⟨⟨u, r⟩, hprocess, he⟩ := bind_eq_ok.mp he
  have hlate := process_harmful hsink hh hprocess
  have hgrows : Grows u t := by
    cases r with
    | none =>
      cases he
      exact (Grows.refl u).dropRam
    | some keep =>
      cases he
      exact (Grows.refl u).unpinFront _ _ _
  exact hlate (hsafe.of_suffix hgrows)

theorem safe_of_proper {processor : PageProcessor}
    (h : Reachable (step processor) (fun c s => Legal c s ∧ Proper processor c s) Start s) :
    Safe s.trace ∧ ∀ c t, Legal c s → step processor c s = .ok t → (Safe t.trace ↔ Proper processor c s) := by
  have hi := inv_of_reachable h
  refine ⟨hi.safe, ?_⟩
  intro c t hl he
  refine ⟨?_, fun hp => (step_inv hi hl hp he).safe⟩
  intro hsafe
  have hrecent : ∀ p ∈ c.used, ¬ s.Old p := by
    intro p hp hold
    obtain ⟨hrun, hsettled⟩ := hi.running (hl.point hp)
    exact step_uses he hsafe p hp (hrun.unpinned_of_old hsettled hold)
  cases c with
  | cleanPage fits => exact cleanPage_safe hi hl he hsafe
  | _ => exact hrecent

section Runs

def inOrder (c : Call) (s : State) : Bool :=
  match c with
  | .nextTupleSet _ => decide (s.point = .loop)
  | .noTupleSet _ => decide (s.point = .loop)
  | .stage _ => decide (s.point = .stages false) || decide (s.point = .stages true)
  | .stageThrows _ => decide (s.point = .stages false) || decide (s.point = .stages true)
  | .stagesDone => decide (s.point = .stages false)
  | .writeOut _ => decide (s.point = .write) || decide (s.point = .rewrite)
  | .writeThrows _ _ => decide (s.point = .write)
  | .leave _ => false
  | .cleanPage _ => (decide (s.point = .clean) || decide (s.point = .finish)) && s.due
  | .cleaned => (decide (s.point = .clean) || decide (s.point = .finish)) && !s.due

theorem legal_of_inOrder (c : Call) (s : State) (h : inOrder c s = true) : Legal c s := by
  cases c <;> simp only [inOrder, Bool.and_eq_true, Bool.or_eq_true, decide_eq_true_iff, Bool.not_eq_true'] at h
  case leave => cases h
  all_goals exact h

def allowed (c : Call) (s : State) : Bool :=
  inOrder c s && c.used.all fun p => !(s.added p).any fun i => decide (i + 1 < s.iteration)

theorem proper_of_allowed (c : Call) (s : State) (h : allowed c s = true) : Legal c s ∧ Proper .nullProcessor c s := by
  obtain ⟨horder, hused⟩ := Bool.and_eq_true_iff.mp h
  have hrecent : ∀ p ∈ c.used, ¬ s.Old p := by
    rintro p hp ⟨i, hi, hlt⟩
    have := List.all_eq_true.mp hused p hp
    rw [hi, Option.any_some, Bool.not_eq_true', decide_eq_false_iff_not] at this
    exact this hlt
  refine ⟨legal_of_inOrder c s horder, ?_⟩
  cases c with
  | cleanPage fits => exact fun _ _ _ => trivial
  | _ => exact hrecent

def calls : List Call :=
  [.nextTupleSet [0], .stageThrows [0], .stage [0, 1], .stagesDone, .writeOut [0, 1], .cleaned,
    .nextTupleSet [], .stage [0, 1], .stagesDone, .writeThrows true [1], .writeOut [1, 2],
    .cleanPage (fun _ => true), .cleaned, .noTupleSet [2], .cleanPage (fun _ => true), .cleanPage (fun _ => true), .cleaned]

theorem safe_of_proper_calls : ∃ s, runAll (step .nullProcessor) allowed calls start = some s ∧
    s.point = .returned ∧ Unpinned s.trace 1 ∧ Unpinned s.trace 2 ∧ Safe s.trace ∧
    ∀ c t, Legal c s → step .nullProcessor c s = .ok t → (Safe t.trace ↔ Proper .nullProcessor c s) := by
  obtain ⟨s, hs⟩ : ∃ s, runAll (step .nullProcessor) allowed calls start = some s := ⟨_, rfl⟩
  have hpoint : s.point = .returned := by
    cases hs
    rfl
  have hunpinned : Unpinned s.trace 1 ∧ Unpinned s.trace 2 := by
    cases hs
    decide
  obtain ⟨hsafe, hnext⟩ := safe_of_proper (.of_runAll proper_of_allowed (.start rfl) hs)
  exact ⟨s, hs, hpoint, hunpinned.1, hunpinned.2, hsafe, hnext⟩

theorem not_safe_broadcast :
    ¬ ∀ processor s, Reachable (step processor) Legal Start s → Safe s.trace := by
  intro h
  obtain ⟨s, hs⟩ : ∃ s, runAll (step (.broadcastJoinProcessor 2)) inOrder
      [.nextTupleSet [], .stagesDone, .writeOut [0], .cleaned, .noTupleSet [], .cleanPage (fun _ => true)] start =
        some s := ⟨_, rfl⟩
  have hsafe := h _ s (.of_runAll legal_of_inOrder (.start rfl) hs)
  have hlate : ¬ Safe s.trace := by
    cases hs
    decide
  exact hlate hsafe

-- the source has made its objects on the first page, and writes to them in every call
theorem not_safe_rereads : ∃ s, runAll (step .nullProcessor) inOrder
    [.nextTupleSet [0], .stagesDone, .writeThrows true [0], .writeOut [0, 1], .cleaned, .nextTupleSet [0], .stagesDone,
      .writeOut [0, 1], .cleanPage (fun _ => true), .cleaned, .nextTupleSet [0]] start = some s ∧ ¬ Safe s.trace := by
  obtain ⟨s, hs⟩ : ∃ s, runAll (step .nullProcessor) inOrder
      [.nextTupleSet [0], .stagesDone, .writeThrows true [0], .writeOut [0, 1], .cleaned, .nextTupleSet [0], .stagesDone,
        .writeOut [0, 1], .cleanPage (fun _ => true), .cleaned, .nextTupleSet [0]] start = some s := ⟨_, rfl⟩
  refine ⟨s, hs, ?_⟩
  cases hs
  decide

end Runs

end PlinyCompute.PageUse
