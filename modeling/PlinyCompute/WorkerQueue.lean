import Mathlib
import PlinyCompute.Transition

namespace PlinyCompute.WorkerQueue

open Transition
open Function (update update_apply)

inductive Place
  | checking
  | entering
  -- it waits in `PDBWorker::enter`
  | parked
  | running
  | finished
  | leaving
  | dead
  deriving DecidableEq, Repr

inductive Actor
  | outside (k : ℕ)
  | inWork (i : ℕ)
  deriving DecidableEq, Repr

inductive Client
  | idle
  | asking
  | sleeping
  | woken
  | popped (i : ℕ)
  | has (i : ℕ)
  -- `getWorker` has returned a null
  | null
  deriving DecidableEq, Repr

structure World where
  waiting : List ℕ
  working : Finset ℕ
  numOut : ℤ
  shuttingDown : Bool
  place : ℕ → Place
  okToExecute : ℕ → Bool
  -- the work of a worker, by its number among all that have been handed over
  runMe : ℕ → Option ℕ
  client : Actor → Client
  -- the threads that wait for `waitingSignal`
  asleep : List Actor
  given : ℕ
  done : List ℕ

inductive Event
  | check (i : ℕ)
  | enter (i : ℕ) (signalled : Option Actor)
  | start (i : ℕ)
  | finish (i : ℕ)
  | erase (i : ℕ)
  | leave (i : ℕ)
  | ask (a : Actor)
  | look (a : Actor)
  | insert (a : Actor)
  | execute (a : Actor)
  -- a thread that has not been signalled may wake up too
  | wake (a : Actor)
  | shutDown
  deriving DecidableEq, Repr

inductive Stop
  -- "Why did I find != 1 copies of the worker?"
  | exited
  -- the last element of an empty vector
  | undefined
  | notThere
  deriving DecidableEq, Repr

namespace World

variable (w : World)

def setPlace (i : ℕ) (place : Place) : World := { w with place := update w.place i place }

def setClient (a : Actor) (client : Client) : World := { w with client := update w.client a client }

def wakeUp (a : Actor) : World := { w.setClient a .woken with asleep := w.asleep.erase a }

def signals : Option Actor → Bool
  | some a => decide (a ∈ w.asleep)
  | none => w.asleep.isEmpty

def wakeAll : World :=
  { w with asleep := [], client := fun a => if a ∈ w.asleep then .woken else w.client a }

def acts : Actor → Bool
  | .outside _ => true
  | .inWork i => decide (w.place i = .running)

def takeWaiting (a : Actor) : Except Stop World :=
  if w.waiting = [] ∧ w.numOut ≠ 0 then .ok { w.setClient a .sleeping with asleep := w.asleep ++ [a] }
  else if w.numOut = 0 then .ok (w.setClient a .null)
  else
    match w.waiting.getLast? with
    | some i => .ok { w.setClient a (.popped i) with waiting := w.waiting.dropLast }
    | none => .error .undefined

def step : Event → World → Except Stop World
  | .check i, w =>
    if w.place i = .checking then .ok (w.setPlace i (if w.shuttingDown then .leaving else .entering))
    else .error .notThere
  | .enter i signalled, w =>
    if w.place i = .entering ∧ w.signals signalled then
      let w := { w.setPlace i .parked with waiting := w.waiting ++ [i] }
      .ok (match signalled with
        | some a => w.wakeUp a
        | none => w)
    else .error .notThere
  | .start i, w =>
    if w.place i = .parked ∧ w.okToExecute i then .ok (w.setPlace i .running) else .error .notThere
  | .finish i, w =>
    if w.place i = .running ∧ w.client (.inWork i) = .idle then
      .ok { w.setPlace i .finished with
        okToExecute := update w.okToExecute i false
        done := w.done ++ (w.runMe i).toList }
    else .error .notThere
  | .erase i, w =>
    if w.place i = .finished then
      if i ∈ w.working then
        .ok { w.setPlace i .checking with
          working := w.working.erase i
          runMe := update w.runMe i none }
      else .error .exited
    else .error .notThere
  | .leave i, w =>
    if w.place i = .leaving then
      let w := { w.setPlace i .dead with numOut := w.numOut - 1 }
      .ok (if w.numOut = 0 then w.wakeAll else w)
    else .error .notThere
  | .ask a, w =>
    if w.client a = .idle ∧ w.acts a then .ok (w.setClient a .asking) else .error .notThere
  | .look a, w =>
    if w.client a = .asking ∨ w.client a = .woken then w.takeWaiting a else .error .notThere
  | .insert a, w =>
    match w.client a with
    | .popped i => .ok { w.setClient a (.has i) with working := insert i w.working }
    | _ => .error .notThere
  | .execute a, w =>
    match w.client a with
    | .has i => .ok { w.setClient a .idle with
        runMe := update w.runMe i (some w.given)
        okToExecute := update w.okToExecute i true
        given := w.given + 1 }
    | _ => .error .notThere
  | .wake a, w => if a ∈ w.asleep then .ok (w.wakeUp a) else .error .notThere
  | .shutDown, w => .ok { w with shuttingDown := true }

def start (numWorkers : ℕ) : World where
  waiting := []
  working := ∅
  numOut := numWorkers
  shuttingDown := false
  place i := if i < numWorkers then .checking else .dead
  okToExecute _ := false
  runMe _ := none
  client _ := .idle
  asleep := []
  given := 0
  done := []

end World

section Updates

variable (w : World) (i j : ℕ) (p : Place) (a b : Actor) (c : Client)

theorem setPlace_place : (w.setPlace i p).place j = if j = i then p else w.place j :=
  update_apply _ _ _ _

theorem setClient_client : (w.setClient a c).client b = if b = a then c else w.client b :=
  update_apply _ _ _ _

@[simp] theorem setPlace_waiting : (w.setPlace i p).waiting = w.waiting := rfl
@[simp] theorem setPlace_working : (w.setPlace i p).working = w.working := rfl
@[simp] theorem setPlace_numOut : (w.setPlace i p).numOut = w.numOut := rfl
@[simp] theorem setPlace_shuttingDown : (w.setPlace i p).shuttingDown = w.shuttingDown := rfl
@[simp] theorem setPlace_okToExecute : (w.setPlace i p).okToExecute j = w.okToExecute j := rfl
@[simp] theorem setPlace_runMe : (w.setPlace i p).runMe j = w.runMe j := rfl
@[simp] theorem setPlace_client : (w.setPlace i p).client b = w.client b := rfl
@[simp] theorem setPlace_asleep : (w.setPlace i p).asleep = w.asleep := rfl
@[simp] theorem setPlace_given : (w.setPlace i p).given = w.given := rfl
@[simp] theorem setPlace_done : (w.setPlace i p).done = w.done := rfl

@[simp] theorem setClient_waiting : (w.setClient a c).waiting = w.waiting := rfl
@[simp] theorem setClient_working : (w.setClient a c).working = w.working := rfl
@[simp] theorem setClient_numOut : (w.setClient a c).numOut = w.numOut := rfl
@[simp] theorem setClient_shuttingDown : (w.setClient a c).shuttingDown = w.shuttingDown := rfl
@[simp] theorem setClient_place : (w.setClient a c).place j = w.place j := rfl
@[simp] theorem setClient_okToExecute : (w.setClient a c).okToExecute j = w.okToExecute j := rfl
@[simp] theorem setClient_runMe : (w.setClient a c).runMe j = w.runMe j := rfl
@[simp] theorem setClient_asleep : (w.setClient a c).asleep = w.asleep := rfl
@[simp] theorem setClient_given : (w.setClient a c).given = w.given := rfl
@[simp] theorem setClient_done : (w.setClient a c).done = w.done := rfl

end Updates

section Places

variable {n : ℕ} {w w' : World} {i : ℕ} {a : Actor}

def Client.holds (i : ℕ) (c : Client) : Prop := c = .popped i ∨ c = .has i

structure Places (n : ℕ) (w : World) : Prop where
  threads : ∀ i, n ≤ i → w.place i = .dead
  nodup : w.waiting.Nodup
  waiting : ∀ i, i ∈ w.waiting ↔ w.place i = .parked ∧ w.okToExecute i = false ∧ ∀ a, ¬(w.client a).holds i
  held : ∀ a i, (w.client a).holds i → w.place i = .parked ∧ w.okToExecute i = false
  alone : ∀ a b i, (w.client a).holds i → (w.client b).holds i → a = b
  working : ∀ i, i ∈ w.working ↔ (∃ a, w.client a = .has i) ∨ w.okToExecute i = true ∨ w.place i = .finished
  ready : ∀ i, w.okToExecute i = true → w.place i = .parked ∨ w.place i = .running
  running : ∀ i, w.place i = .running → w.okToExecute i = true
  inWork : ∀ i, w.client (.inWork i) ≠ .idle → w.place i = .running

theorem Places.of_eq (h : Places n w) (hplace : w'.place = w.place) (hwaiting : w'.waiting = w.waiting)
    (hok : w'.okToExecute = w.okToExecute) (hclient : w'.client = w.client) (hworking : w'.working = w.working) :
    Places n w' := by
  obtain ⟨threads, nodup, waiting, held, alone, working, ready, running, inWork⟩ := h
  rw [← hplace] at threads waiting held working ready running inWork
  rw [← hwaiting] at nodup waiting
  rw [← hok] at waiting held working ready running
  rw [← hclient] at waiting held alone working inWork
  rw [← hworking] at working
  exact ⟨threads, nodup, waiting, held, alone, working, ready, running, inWork⟩

theorem places_start : Places n (World.start n) where
  threads := fun i hi => if_neg (by omega)
  nodup := List.nodup_nil
  waiting := by
    intro i
    simp only [World.start, List.not_mem_nil, false_iff]
    split_ifs <;> simp
  held := by simp [World.start, Client.holds]
  alone := by simp [World.start, Client.holds]
  working := by
    intro i
    simp only [World.start]
    split_ifs <;> simp
  ready := by simp [World.start]
  running := by
    intro i
    simp only [World.start]
    split_ifs <;> simp
  inWork := by simp [World.start]

def Place.away : Place → Bool
  | .parked => false
  | .running => false
  | .finished => false
  | _ => true

def Client.free : Client → Bool
  | .popped _ => false
  | .has _ => false
  | _ => true

theorem Places.move {q : Place} (h : Places n w) (hp : (w.place i).away = true) (hq : q.away = true)
    (hn : n ≤ i → q = .dead) : Places n (w.setPlace i q) := by
  have hheld : ∀ a, ¬(w.client a).holds i := by
    intro a ha
    rw [(h.held a i ha).1] at hp
    cases hp
  constructor <;> simp only [setPlace_place, setPlace_waiting, setPlace_working, setPlace_okToExecute, setPlace_client] <;>
    grind [Places, Client.holds, Place.away]

theorem Places.turn {c : Client} (h : Places n w) (hc : (w.client a).free = true) (hd : c.free = true)
    (hin : c = .idle ∨ w.client a ≠ .idle ∨ w.acts a = true) : Places n (w.setClient a c) := by
  have hnone : ∀ i, ¬(w.client a).holds i := by
    rintro i (hi | hi) <;> rw [hi] at hc <;> cases hc
  have hnone' : ∀ i, ¬c.holds i := by
    rintro i (rfl | rfl) <;> cases hd
  have hhas : ∀ i, w.client a ≠ .has i ∧ c ≠ .has i := fun i => ⟨fun hi => hnone i (.inr hi), fun hi => hnone' i (.inr hi)⟩
  constructor <;> simp only [setClient_client, setClient_place, setClient_waiting, setClient_working, setClient_okToExecute]
  · exact h.threads
  · exact h.nodup
  · intro i
    rw [h.waiting]
    grind
  · intro b i
    have := h.held b i
    grind
  · intro b b' i
    have := h.alone b b' i
    grind
  · intro i
    rw [h.working]
    grind
  · exact h.ready
  · exact h.running
  · intro i
    have := h.inWork i
    grind [World.acts]

theorem Places.enter (h : Places n w) (hp : w.place i = .entering) :
    Places n { w.setPlace i .parked with waiting := w.waiting ++ [i] } := by
  have hlt : i < n := by
    by_contra hi
    rw [h.threads i (by omega)] at hp
    cases hp
  have hheld : ∀ a, ¬(w.client a).holds i := by
    intro a ha
    rw [(h.held a i ha).1] at hp
    cases hp
  have hok : w.okToExecute i = false := by
    by_contra hok
    have := h.ready i (by simpa using hok)
    rw [hp] at this
    simp at this
  have hnot : i ∉ w.waiting := by
    rw [h.waiting, hp]
    simp
  constructor <;> simp only [setPlace_place, setPlace_working, setPlace_okToExecute, setPlace_client]
  · have := h.threads
    grind
  · have := h.nodup
    grind
  · intro j
    have := h.waiting j
    grind
  · intro a j
    have := h.held a j
    grind
  · exact h.alone
  · intro j
    have := h.working j
    grind
  · intro j
    have := h.ready j
    grind
  · intro j
    have := h.running j
    grind
  · intro j
    have := h.inWork j
    grind

theorem Places.start (h : Places n w) (hp : w.place i = .parked) (hok : w.okToExecute i = true) :
    Places n (w.setPlace i .running) := by
  have hheld : ∀ a, ¬(w.client a).holds i := by
    intro a ha
    have := (h.held a i ha).2
    rw [hok] at this
    cases this
  constructor <;> simp only [setPlace_place, setPlace_waiting, setPlace_working, setPlace_okToExecute, setPlace_client] <;>
    grind [Places]

theorem Places.finish (h : Places n w) (hp : w.place i = .running) (hidle : w.client (.inWork i) = .idle) :
    Places n { w.setPlace i .finished with
      okToExecute := update w.okToExecute i false
      done := w.done ++ (w.runMe i).toList } := by
  have hheld : ∀ a, ¬(w.client a).holds i := by
    intro a ha
    have := (h.held a i ha).1
    rw [hp] at this
    cases this
  constructor <;> simp only [setPlace_place, setPlace_waiting, setPlace_working, setPlace_client, update_apply] <;>
    grind [Places]

theorem Places.erase (h : Places n w) (hp : w.place i = .finished) :
    i ∈ w.working ∧ Places n { w.setPlace i .checking with
      working := w.working.erase i
      runMe := update w.runMe i none } := by
  have hheld : ∀ a, ¬(w.client a).holds i := by
    intro a ha
    have := (h.held a i ha).1
    rw [hp] at this
    cases this
  refine ⟨(h.working i).mpr (.inr (.inr hp)), ?_⟩
  constructor <;> simp only [setPlace_place, setPlace_waiting, setPlace_okToExecute, setPlace_client, Finset.mem_erase] <;>
    grind [Places, Client.holds]

theorem Places.pop (h : Places n w) (hc : (w.client a).free = true) (hi : w.waiting.getLast? = some i)
    (hin : w.client a ≠ .idle) : Places n { w.setClient a (.popped i) with waiting := w.waiting.dropLast } := by
  obtain ⟨ws, hws⟩ := List.getLast?_eq_some_iff.mp hi
  have hnodup := h.nodup
  rw [hws, List.nodup_append] at hnodup
  have hnot : i ∉ ws := fun hm => hnodup.2.2 i hm i (by simp) rfl
  obtain ⟨hp, hok, hheld⟩ := (h.waiting i).mp (by simp [hws])
  have hnone : ∀ j, ¬(w.client a).holds j := by
    rintro j (hj | hj) <;> rw [hj] at hc <;> cases hc
  have hhas : ∀ j, w.client a ≠ .has j := fun j hj => hnone j (.inr hj)
  rw [hws, List.dropLast_concat]
  have hwaiting : ∀ j, j ∈ ws ↔ j ∈ w.waiting ∧ j ≠ i := by
    intro j
    rw [hws]
    grind
  constructor <;> simp only [setClient_client, setClient_place, setClient_working, setClient_okToExecute]
  · exact h.threads
  · exact hnodup.1
  · intro j
    rw [hwaiting, h.waiting]
    grind [Client.holds]
  · intro b j
    have := h.held b j
    grind [Client.holds]
  · intro b b' j
    have := h.alone b b' j
    grind [Client.holds]
  · intro j
    rw [h.working]
    grind [Client.holds]
  · exact h.ready
  · exact h.running
  · intro j
    have := h.inWork j
    grind

theorem Places.insert (h : Places n w) (hc : w.client a = .popped i) :
    Places n { w.setClient a (.has i) with working := insert i w.working } := by
  have hi := h.held a i (.inl hc)
  constructor <;> simp only [setClient_client, setClient_place, setClient_waiting, setClient_okToExecute, Finset.mem_insert] <;>
    grind [Places, Client.holds]

theorem Places.execute (h : Places n w) (hc : w.client a = .has i) :
    Places n { w.setClient a .idle with
      runMe := update w.runMe i (some w.given)
      okToExecute := update w.okToExecute i true
      given := w.given + 1 } := by
  have hi := h.held a i (.inr hc)
  constructor <;> simp only [setClient_client, setClient_place, setClient_waiting, setClient_working, update_apply] <;>
    grind [Places, Client.holds]

end Places

section Sleepers

variable {n : ℕ} {w w' : World} {i : ℕ} {a : Actor}

structure Sleepers (w : World) : Prop where
  nodup : w.asleep.Nodup
  mem : ∀ a, a ∈ w.asleep ↔ w.client a = .sleeping
  woken : w.asleep ≠ [] →
    ∃ woken : List Actor, woken.Nodup ∧ (∀ a ∈ woken, w.client a = .woken) ∧ w.waiting.length ≤ woken.length
  numOut : w.asleep ≠ [] → w.numOut ≠ 0

theorem Sleepers.of_eq (h : Sleepers w) (hasleep : w'.asleep = w.asleep) (hclient : w'.client = w.client)
    (hwaiting : w'.waiting = w.waiting) (hnumOut : w'.numOut = w.numOut) : Sleepers w' := by
  constructor
  · rw [hasleep]
    exact h.nodup
  · rw [hasleep, hclient]
    exact h.mem
  · rw [hasleep, hclient, hwaiting]
    exact h.woken
  · rw [hasleep, hnumOut]
    exact h.numOut

theorem sleepers_start : Sleepers (World.start n) := by
  constructor <;> simp [World.start]

theorem wakeUp_client (b : Actor) : (w.wakeUp a).client b = if b = a then .woken else w.client b :=
  setClient_client _ _ _ _

theorem Sleepers.turn {c : Client} (h : Sleepers w) (hc : w.client a ≠ .sleeping ∧ w.client a ≠ .woken)
    (hd : c ≠ .sleeping) : Sleepers (w.setClient a c) where
  nodup := h.nodup
  mem := by
    intro b
    rw [setClient_asleep, h.mem, setClient_client]
    grind
  woken := by
    intro hne
    obtain ⟨woken, hnodup, hall, hle⟩ := h.woken hne
    refine ⟨woken, hnodup, fun b hb => ?_, hle⟩
    have := hall b hb
    rw [setClient_client]
    grind
  numOut := h.numOut

theorem Sleepers.wakeUp (h : Sleepers w) (ha : a ∈ w.asleep) : Sleepers (w.wakeUp a) ∧
    ∃ woken : List Actor, woken.Nodup ∧ (∀ b ∈ woken, (w.wakeUp a).client b = .woken) ∧
      w.waiting.length + 1 ≤ woken.length := by
  have hne : w.asleep ≠ [] := List.ne_nil_of_mem ha
  obtain ⟨woken, hnodup, hall, hle⟩ := h.woken hne
  have hnot : a ∉ woken := by
    intro hm
    have := hall a hm
    rw [(h.mem a).mp ha] at this
    cases this
  have hwoken : ∀ b ∈ a :: woken, (w.wakeUp a).client b = .woken := by
    intro b hb
    rw [wakeUp_client]
    have := hall b
    grind
  refine ⟨⟨h.nodup.erase a, ?_, fun _ => ⟨a :: woken, List.nodup_cons.mpr ⟨hnot, hnodup⟩, hwoken, ?_⟩, fun _ => h.numOut hne⟩,
    a :: woken, List.nodup_cons.mpr ⟨hnot, hnodup⟩, hwoken, ?_⟩
  · intro b
    rw [wakeUp_client]
    change b ∈ w.asleep.erase a ↔ _
    rw [h.nodup.mem_erase_iff, h.mem]
    grind
  · rw [List.length_cons]
    exact hle.trans (Nat.le_succ _)
  · rw [List.length_cons]
    exact Nat.succ_le_succ hle

theorem Sleepers.of_empty (hempty : w.asleep = []) (hmem : ∀ a, w.client a ≠ .sleeping) : Sleepers w where
  nodup := hempty ▸ List.nodup_nil
  mem := fun a => iff_of_false (hempty ▸ List.not_mem_nil) (hmem a)
  woken := fun h => absurd hempty h
  numOut := fun h => absurd hempty h

theorem Sleepers.enter {signalled : Option Actor} (h : Sleepers w) (hsig : w.signals signalled = true)
    (he : w.step (.enter i signalled) = .ok w') : Sleepers w' := by
  rw [World.step] at he
  split_ifs at he with hp
  cases he
  cases signalled with
  | none =>
    have hempty : w.asleep = [] := List.isEmpty_iff.mp hsig
    refine Sleepers.of_empty hempty fun a ha => ?_
    have := (h.mem a).mpr ha
    rw [hempty] at this
    cases this
  | some a =>
    have ha : a ∈ w.asleep := of_decide_eq_true hsig
    obtain ⟨hwake, woken, hnodup, hall, hle⟩ := h.wakeUp ha
    refine ⟨hwake.nodup, hwake.mem, fun _ => ⟨woken, hnodup, hall, ?_⟩, hwake.numOut⟩
    refine le_trans (le_of_eq ?_) hle
    exact List.length_append

theorem Sleepers.leave (h : Sleepers w) (he : w.step (.leave i) = .ok w') : Sleepers w' := by
  rw [World.step] at he
  split_ifs at he with hp
  dsimp only at he
  split_ifs at he with hzero
  · cases he
    refine Sleepers.of_empty rfl fun a ha => ?_
    have hclient : (if a ∈ w.asleep then Client.woken else w.client a) = .sleeping := ha
    split_ifs at hclient with hm
    exact hm ((h.mem a).mpr hclient)
  · cases he
    exact ⟨h.nodup, h.mem, h.woken, fun _ => hzero⟩

theorem Sleepers.look (h : Sleepers w) (hc : w.client a = .asking ∨ w.client a = .woken)
    (he : w.takeWaiting a = .ok w') : Sleepers w' := by
  have hawake : a ∉ w.asleep := by
    rw [h.mem]
    obtain hc | hc := hc <;> rw [hc] <;> simp
  unfold World.takeWaiting at he
  split_ifs at he with hempty hzero
  · cases he
    constructor
    · exact List.nodup_append.mpr ⟨h.nodup, List.nodup_singleton a, by grind⟩
    · intro b
      rw [List.mem_append, h.mem]
      dsimp only
      rw [setClient_client]
      grind
    · refine fun _ => ⟨[], List.nodup_nil, by simp, ?_⟩
      exact le_of_eq (congrArg List.length hempty.1)
    · exact fun _ => hempty.2
  · cases he
    have hnone : w.asleep = [] := by
      by_contra hne
      exact h.numOut hne hzero
    refine Sleepers.of_empty hnone fun b hb => ?_
    rw [setClient_client] at hb
    split_ifs at hb
    have := (h.mem b).mpr hb
    rw [hnone] at this
    cases this
  · cases hl : w.waiting.getLast? with
    | none =>
      rw [hl] at he
      cases he
    | some i =>
      rw [hl] at he
      cases he
      have hmem : ∀ b, b ∈ w.asleep ↔ (w.setClient a (.popped i)).client b = .sleeping := by
        intro b
        rw [h.mem, setClient_client]
        grind
      refine ⟨h.nodup, hmem, fun hne => ?_, h.numOut⟩
      obtain ⟨woken, hnodup, hall, hle⟩ := h.woken hne
      refine ⟨woken.erase a, hnodup.erase a, fun b hb => ?_, ?_⟩
      · rw [hnodup.mem_erase_iff] at hb
        dsimp only
        rw [setClient_client, if_neg hb.1]
        exact hall b hb.2
      · have := List.length_erase_le (a := a) (l := woken)
        rw [List.length_dropLast, List.length_erase]
        split_ifs <;> omega

end Sleepers

section Works

variable {n : ℕ} {w w' : World} {i : ℕ} {a : Actor}

structure Counted (n : ℕ) (w : World) : Prop where
  numOut : w.numOut = ((Finset.range n).filter fun i => w.place i ≠ .dead).card
  leaving : ∀ i < n, w.place i = .leaving ∨ w.place i = .dead → w.shuttingDown = true

theorem Counted.of_eq (h : Counted n w) (hnumOut : w'.numOut = w.numOut) (hplace : w'.place = w.place)
    (hshut : w'.shuttingDown = w.shuttingDown) : Counted n w' := by
  constructor
  · rw [hnumOut, hplace]
    exact h.numOut
  · rw [hplace, hshut]
    exact h.leaving

theorem counted_start : Counted n (World.start n) := by
  constructor
  · have hall : ((Finset.range n).filter fun i => (World.start n).place i ≠ .dead) = Finset.range n := by
      apply Finset.filter_true_of_mem
      intro i hi
      rw [Finset.mem_range] at hi
      simp [World.start, hi]
    rw [hall, Finset.card_range]
    rfl
  · intro i hi
    simp [World.start, hi]

theorem Counted.move {q : Place} (h : Counted n w) (hp : w.place i ≠ .dead) (hq : q ≠ .dead)
    (hleave : q = .leaving → w.shuttingDown = true) : Counted n (w.setPlace i q) := by
  constructor
  · have hsame : ((Finset.range n).filter fun j => (w.setPlace i q).place j ≠ .dead) =
        (Finset.range n).filter fun j => w.place j ≠ .dead := by
      ext j
      simp only [Finset.mem_filter, setPlace_place]
      grind
    rw [setPlace_numOut, h.numOut, hsame]
  · intro j hj
    have := h.leaving j hj
    rw [setPlace_place, setPlace_shuttingDown]
    grind

theorem Counted.leave (h : Counted n w) (hi : i < n) (hp : w.place i = .leaving) :
    Counted n { w.setPlace i .dead with numOut := w.numOut - 1 } := by
  constructor
  · have herase : ((Finset.range n).filter fun j => (w.setPlace i .dead).place j ≠ .dead) =
        ((Finset.range n).filter fun j => w.place j ≠ .dead).erase i := by
      ext j
      simp only [Finset.mem_filter, Finset.mem_erase, setPlace_place]
      grind
    have hmem : i ∈ (Finset.range n).filter fun j => w.place j ≠ .dead := by
      simp [hi, hp]
    have hpos := Finset.card_pos.mpr ⟨i, hmem⟩
    dsimp only
    rw [herase, Finset.card_erase_of_mem hmem, h.numOut]
    omega
  · intro j hj
    have := h.leaving j hj
    have := h.leaving i hi (.inl hp)
    dsimp only
    rw [setPlace_place, setPlace_shuttingDown]
    grind

structure Works (w : World) : Prop where
  once : w.done.Nodup
  done : ∀ id ∈ w.done, id < w.given
  pending : ∀ i id, w.okToExecute i = true → w.runMe i = some id → id < w.given ∧ id ∉ w.done
  alone : ∀ i j id, w.okToExecute i = true → w.okToExecute j = true → w.runMe i = some id → w.runMe j = some id → i = j
  covered : ∀ id < w.given, id ∈ w.done ∨ ∃ i, w.okToExecute i = true ∧ w.runMe i = some id
  loaded : ∀ i, w.okToExecute i = true → w.runMe i ≠ none

theorem Works.of_eq (h : Works w) (hdone : w'.done = w.done) (hgiven : w'.given = w.given)
    (hok : w'.okToExecute = w.okToExecute) (hrunMe : w'.runMe = w.runMe) : Works w' := by
  obtain ⟨once, done, pending, alone, covered, loaded⟩ := h
  rw [← hdone] at once done pending covered
  rw [← hgiven] at done pending covered
  rw [← hok, ← hrunMe] at pending alone covered
  rw [← hok, ← hrunMe] at loaded
  exact ⟨once, done, pending, alone, covered, loaded⟩

theorem works_start : Works (World.start n) := by
  constructor <;> simp [World.start]

theorem Works.finish {id : ℕ} (h : Works w) (hok : w.okToExecute i = true) (hid : w.runMe i = some id) :
    Works { w.setPlace i .finished with
      okToExecute := update w.okToExecute i false
      done := w.done ++ (w.runMe i).toList } := by
  obtain ⟨hlt, hnot⟩ := h.pending i id hok hid
  rw [hid, Option.toList_some]
  constructor <;> simp only [setPlace_runMe, setPlace_given, update_apply]
  · exact List.nodup_append.mpr ⟨h.once, List.nodup_singleton id, by grind⟩
  · intro k hk
    have := h.done k
    grind
  · intro j k
    have := h.pending j k
    have := h.alone i j k hok
    grind
  · intro j j' k
    have := h.alone j j' k
    grind
  · intro k hk
    have := h.covered k hk
    grind
  · intro j
    have := h.loaded j
    grind

theorem Works.erase (h : Works w) (hok : w.okToExecute i = false) :
    Works { w.setPlace i .checking with
      working := w.working.erase i
      runMe := update w.runMe i none } := by
  constructor <;> simp only [setPlace_okToExecute, setPlace_given, setPlace_done, update_apply]
  · exact h.once
  · exact h.done
  · intro j k
    have := h.pending j k
    grind
  · intro j j' k
    have := h.alone j j' k
    grind
  · intro k hk
    have := h.covered k hk
    grind
  · intro j
    have := h.loaded j
    grind

theorem Works.execute (h : Works w) (hok : w.okToExecute i = false) :
    Works { w.setClient a .idle with
      runMe := update w.runMe i (some w.given)
      okToExecute := update w.okToExecute i true
      given := w.given + 1 } := by
  have hfresh : ∀ j, w.okToExecute j = true → w.runMe j ≠ some w.given := by
    intro j hj hg
    exact absurd (h.pending j w.given hj hg).1 (lt_irrefl _)
  have hdone : w.given ∉ w.done := fun hg => absurd (h.done _ hg) (lt_irrefl _)
  constructor <;> simp only [setClient_done, update_apply]
  · exact h.once
  · intro k hk
    have := h.done k hk
    omega
  · intro j k
    have := h.pending j k
    grind
  · intro j j' k
    have := h.alone j j' k
    have := hfresh j
    have := hfresh j'
    grind
  · intro k hk
    have := h.covered k
    grind
  · intro j
    have := h.loaded j
    grind

end Works

end PlinyCompute.WorkerQueue
