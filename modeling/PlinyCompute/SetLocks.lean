import Mathlib.Data.List.Perm.Basic
import PlinyCompute.LogicalPlan
import PlinyCompute.Transition

namespace PlinyCompute.SetLocks

open LogicalPlan Transition
open Function (update update_apply update_of_ne)

abbrev SetName := Text × Text

inductive SetState
  | none
  | writingData
  | readingData
  | writeReadData
  | clearingData
  deriving DecidableEq, Repr

structure SetRecord where
  state : SetState
  numReaders : ℕ
  numWriters : ℕ
  deriving DecidableEq

def SetRecord.unused : SetRecord := ⟨.none, 0, 0⟩

abbrev SetStates := SetName → SetRecord

structure SetLock where
  set : SetName
  state : SetState
  deriving DecidableEq

def SetLock.isGranted (l : SetLock) : Bool := l.state ≠ .none

inductive Stop
  | runtimeError
  | assertion
  -- an exception leaves a destructor
  | terminate
  -- a thread waits for a mutex that it holds itself
  | blocked
  | noSuchObject
  deriving DecidableEq, Repr

def tryUsingSet (set : SetName) (stateRequested : SetState) (setStates : SetStates) :
    Except Stop (SetLock × SetStates) :=
  let isInUse := setStates set
  match stateRequested with
  | .none => .error .runtimeError
  | .writeReadData => .error .runtimeError
  | .writingData =>
    if isInUse.state = .none ∨ isInUse.state = .writingData ∨ isInUse.state = .writeReadData then
      .ok (⟨set, .writingData⟩, update setStates set
        { isInUse with
          numWriters := isInUse.numWriters + 1
          state := if isInUse.state = .none then .writingData
            else if isInUse.state = .readingData then .writeReadData else isInUse.state })
    else .ok (⟨set, .none⟩, setStates)
  | .readingData =>
    if isInUse.state = .none ∨ isInUse.state = .readingData ∨ isInUse.state = .writeReadData then
      .ok (⟨set, .readingData⟩, update setStates set
        { isInUse with
          numReaders := isInUse.numReaders + 1
          state := if isInUse.state = .none then .readingData
            else if isInUse.state = .writingData then .writeReadData else isInUse.state })
    else .ok (⟨set, .none⟩, setStates)
  | .clearingData =>
    if isInUse.state = .none then
      .ok (⟨set, .clearingData⟩, update setStates set { isInUse with state := .clearingData })
    else .ok (⟨set, .none⟩, setStates)

def finishUsingSet (set : SetName) (stateRequested : SetState) (setStates : SetStates) : Except Stop SetStates :=
  let isInUse := setStates set
  if stateRequested = .writingData ∧ (isInUse.state = .writingData ∨ isInUse.state = .writeReadData) then
    if isInUse.numWriters = 0 then .error .assertion
    else
      let numWriters := isInUse.numWriters - 1
      .ok (update setStates set { isInUse with
        numWriters := numWriters
        state := if isInUse.numReaders = 0 ∧ numWriters = 0 then .none else isInUse.state })
  else if stateRequested = .readingData ∧ (isInUse.state = .readingData ∨ isInUse.state = .writeReadData) then
    if isInUse.numReaders = 0 then .error .assertion
    else
      let numReaders := isInUse.numReaders - 1
      .ok (update setStates set { isInUse with
        numReaders := numReaders
        state := if numReaders = 0 ∧ isInUse.numWriters = 0 then .none else isInUse.state })
  else if stateRequested = .clearingData ∧ isInUse.state = .clearingData then
    if isInUse.numReaders = 0 then .ok (update setStates set { isInUse with state := .none })
    else .error .assertion
  else .error .runtimeError

/-- The destructor of a lock object. `held` tells whether its thread holds the mutex already. -/
def destroy (held : Bool) (l : SetLock) (setStates : SetStates) : Except Stop SetStates :=
  if held then .error .blocked
  else
    match finishUsingSet l.set l.state setStates with
    | .ok setStates => .ok setStates
    | .error .runtimeError => .error .terminate
    | .error stop => .error stop

/-- A call of `useSet` that waits keeps the lock object of its last attempt. -/
structure Waiter where
  set : SetName
  stateRequested : SetState
  setLock : SetLock
  deriving DecidableEq

structure Storage where
  setStates : SetStates
  locks : List SetLock
  waiting : List Waiter

inductive Call
  | tryUsingSet (set : SetName) (stateRequested : SetState)
  | useSet (set : SetName) (stateRequested : SetState)
  -- the predicate of a call that waits is tried again
  | wake (i : ℕ)
  | destroy (i : ℕ)

def Storage.step (call : Call) (w : Storage) : Except Stop Storage :=
  match call with
  | .tryUsingSet set stateRequested => do
    let (l, setStates) ← SetLocks.tryUsingSet set stateRequested w.setStates
    return { w with setStates := setStates, locks := w.locks ++ [l] }
  | .useSet set stateRequested => do
    let (l, setStates) ← SetLocks.tryUsingSet set stateRequested w.setStates
    if l.isGranted then return { w with setStates := setStates, locks := w.locks ++ [l] }
    else return { w with setStates := setStates, waiting := w.waiting ++ [⟨set, stateRequested, l⟩] }
  | .wake i =>
    match w.waiting[i]? with
    | none => .error .noSuchObject
    | some call => do
      let (l, setStates) ← SetLocks.tryUsingSet call.set call.stateRequested w.setStates
      -- the lock object of the last attempt is replaced, by the thread that holds the mutex
      let setStates ← SetLocks.destroy true call.setLock setStates
      if l.isGranted then
        return { setStates := setStates, locks := w.locks ++ [l], waiting := w.waiting.eraseIdx i }
      else return { w with setStates := setStates, waiting := w.waiting.set i { call with setLock := l } }
  | .destroy i =>
    match w.locks[i]? with
    | none => .error .noSuchObject
    | some l => do
      let setStates ← SetLocks.destroy false l w.setStates
      return { w with setStates := setStates, locks := w.locks.eraseIdx i }

inductive Consistent : SetRecord → ℕ → ℕ → ℕ → Prop
  | idle : Consistent ⟨.none, 0, 0⟩ 0 0 0
  | reading (n : ℕ) : Consistent ⟨.readingData, n + 1, 0⟩ (n + 1) 0 0
  | writing (n : ℕ) : Consistent ⟨.writingData, 0, n + 1⟩ 0 (n + 1) 0
  | clearing : Consistent ⟨.clearingData, 0, 0⟩ 0 0 1

def Counted (setStates : SetStates) (alive : SetLock → ℕ) : Prop :=
  ∀ set, Consistent (setStates set) (alive ⟨set, .readingData⟩) (alive ⟨set, .writingData⟩)
    (alive ⟨set, .clearingData⟩)

def Requestable (s : SetState) : Prop := s = .readingData ∨ s = .writingData ∨ s = .clearingData

instance (s : SetState) : Decidable (Requestable s) := inferInstanceAs (Decidable (_ ∨ _))

def SetRecord.Admits (r : SetRecord) (stateRequested : SetState) : Prop :=
  r.state = .none ∨ r.state = stateRequested ∧ stateRequested ≠ .clearingData

instance (r : SetRecord) (s : SetState) : Decidable (r.Admits s) := inferInstanceAs (Decidable (_ ∨ _))

def grant (alive : SetLock → ℕ) (l : SetLock) : SetLock → ℕ := update alive l (alive l + 1)

def release (alive : SetLock → ℕ) (l : SetLock) : SetLock → ℕ := update alive l (alive l - 1)

theorem counted_unused : Counted (fun _ => .unused) fun _ => 0 := fun _ => .idle

theorem Counted.update {setStates : SetStates} {alive alive' : SetLock → ℕ} (h : Counted setStates alive)
    {set : SetName} {r : SetRecord} (hother : ∀ l : SetLock, l.set ≠ set → alive' l = alive l)
    (hr : Consistent r (alive' ⟨set, .readingData⟩) (alive' ⟨set, .writingData⟩) (alive' ⟨set, .clearingData⟩)) :
    Counted (Function.update setStates set r) alive' := by
  intro other
  by_cases he : other = set
  · subst he
    rwa [Function.update_self]
  · rw [Function.update_of_ne he, hother _ he, hother _ he, hother _ he]
    exact h other

theorem grant_of_ne {alive : SetLock → ℕ} {l l' : SetLock} (h : l'.set ≠ l.set) : grant alive l l' = alive l' := by
  apply update_of_ne
  rintro rfl
  exact h rfl

theorem release_of_ne {alive : SetLock → ℕ} {l l' : SetLock} (h : l'.set ≠ l.set) : release alive l l' = alive l' := by
  apply update_of_ne
  rintro rfl
  exact h rfl

theorem Counted.tryUsingSet {setStates : SetStates} {alive : SetLock → ℕ} (h : Counted setStates alive)
    (set : SetName) {stateRequested : SetState} (hreq : Requestable stateRequested) :
    ((setStates set).Admits stateRequested ∧ ∃ setStates',
        SetLocks.tryUsingSet set stateRequested setStates = .ok (⟨set, stateRequested⟩, setStates') ∧
        Counted setStates' (grant alive ⟨set, stateRequested⟩)) ∨
      (¬ (setStates set).Admits stateRequested ∧
        SetLocks.tryUsingSet set stateRequested setStates = .ok (⟨set, .none⟩, setStates)) := by
  have hset := h set
  generalize hr : setStates set = r at hset
  generalize h1 : alive ⟨set, .readingData⟩ = readers at hset
  generalize h2 : alive ⟨set, .writingData⟩ = writers at hset
  generalize h3 : alive ⟨set, .clearingData⟩ = clearers at hset
  have hadd : ∀ r', Consistent r' (grant alive ⟨set, stateRequested⟩ ⟨set, .readingData⟩)
      (grant alive ⟨set, stateRequested⟩ ⟨set, .writingData⟩)
      (grant alive ⟨set, stateRequested⟩ ⟨set, .clearingData⟩) →
      Counted (Function.update setStates set r') (grant alive ⟨set, stateRequested⟩) :=
    fun r' hc => h.update (fun l hl => grant_of_ne hl) hc
  rcases hreq with rfl | rfl | rfl
  · cases hset with
    | idle =>
      refine .inl ⟨.inl rfl, _, by simp [SetLocks.tryUsingSet, hr]; rfl, hadd _ ?_⟩
      simpa [grant, update_apply, h1, h2, h3] using Consistent.reading 0
    | reading n =>
      refine .inl ⟨.inr (by simp), _, by simp [SetLocks.tryUsingSet, hr]; rfl, hadd _ ?_⟩
      simpa [grant, update_apply, h1, h2, h3] using Consistent.reading (n + 1)
    | writing n => exact .inr ⟨by simp [SetRecord.Admits], by simp [SetLocks.tryUsingSet, hr]⟩
    | clearing => exact .inr ⟨by simp [SetRecord.Admits], by simp [SetLocks.tryUsingSet, hr]⟩
  · cases hset with
    | idle =>
      refine .inl ⟨.inl rfl, _, by simp [SetLocks.tryUsingSet, hr]; rfl, hadd _ ?_⟩
      simpa [grant, update_apply, h1, h2, h3] using Consistent.writing 0
    | writing n =>
      refine .inl ⟨.inr (by simp), _, by simp [SetLocks.tryUsingSet, hr]; rfl, hadd _ ?_⟩
      simpa [grant, update_apply, h1, h2, h3] using Consistent.writing (n + 1)
    | reading n => exact .inr ⟨by simp [SetRecord.Admits], by simp [SetLocks.tryUsingSet, hr]⟩
    | clearing => exact .inr ⟨by simp [SetRecord.Admits], by simp [SetLocks.tryUsingSet, hr]⟩
  · cases hset with
    | idle =>
      refine .inl ⟨.inl rfl, _, by simp [SetLocks.tryUsingSet, hr]; rfl, hadd _ ?_⟩
      simpa [grant, update_apply, h1, h2, h3] using Consistent.clearing
    | writing n => exact .inr ⟨by simp [SetRecord.Admits], by simp [SetLocks.tryUsingSet, hr]⟩
    | reading n => exact .inr ⟨by simp [SetRecord.Admits], by simp [SetLocks.tryUsingSet, hr]⟩
    | clearing => exact .inr ⟨by simp [SetRecord.Admits], by simp [SetLocks.tryUsingSet, hr]⟩

theorem Counted.finishUsingSet {setStates : SetStates} {alive : SetLock → ℕ} (h : Counted setStates alive)
    {l : SetLock} (hl : Requestable l.state) (hc : 0 < alive l) :
    ∃ setStates', SetLocks.finishUsingSet l.set l.state setStates = .ok setStates' ∧
      Counted setStates' (release alive l) := by
  obtain ⟨set, state⟩ := l
  have hset := h set
  generalize hr : setStates set = r at hset
  generalize h1 : alive ⟨set, .readingData⟩ = readers at hset
  generalize h2 : alive ⟨set, .writingData⟩ = writers at hset
  generalize h3 : alive ⟨set, .clearingData⟩ = clearers at hset
  have hsub : ∀ r', Consistent r' (release alive ⟨set, state⟩ ⟨set, .readingData⟩)
      (release alive ⟨set, state⟩ ⟨set, .writingData⟩) (release alive ⟨set, state⟩ ⟨set, .clearingData⟩) →
      Counted (Function.update setStates set r') (release alive ⟨set, state⟩) :=
    fun r' hc => h.update (fun l hl => release_of_ne hl) hc
  rcases hl with rfl | rfl | rfl
  · cases hset with
    | reading n =>
      refine ⟨_, by simp [SetLocks.finishUsingSet, hr]; rfl, hsub _ ?_⟩
      cases n with
      | zero => simpa [release, update_apply, h1, h2, h3] using Consistent.idle
      | succ n => simpa [release, update_apply, h1, h2, h3] using Consistent.reading n
    | _ => omega
  · cases hset with
    | writing n =>
      refine ⟨_, by simp [SetLocks.finishUsingSet, hr]; rfl, hsub _ ?_⟩
      cases n with
      | zero => simpa [release, update_apply, h1, h2, h3] using Consistent.idle
      | succ n => simpa [release, update_apply, h1, h2, h3] using Consistent.writing n
    | _ => omega
  · cases hset with
    | clearing =>
      refine ⟨_, by simp [SetLocks.finishUsingSet, hr]; rfl, hsub _ ?_⟩
      simpa [release, update_apply, h1, h2, h3] using Consistent.idle
    | _ => omega

theorem Counted.congr {setStates : SetStates} {alive alive' : SetLock → ℕ} (h : Counted setStates alive)
    (he : ∀ l : SetLock, Requestable l.state → alive' l = alive l) : Counted setStates alive' := by
  intro set
  rw [he _ (.inl rfl), he _ (.inr (.inl rfl)), he _ (.inr (.inr rfl))]
  exact h set

def alive (locks : List SetLock) : SetLock → ℕ := fun l => locks.count l

structure Kept (w : Storage) : Prop where
  counted : Counted w.setStates (alive w.locks)
  states : ∀ l ∈ w.locks, l.state = .none ∨ Requestable l.state
  refused : ∀ c ∈ w.waiting, Requestable c.stateRequested

theorem alive_append (locks : List SetLock) (l : SetLock) : alive (locks ++ [l]) = grant (alive locks) l := by
  funext x
  unfold alive
  by_cases hx : x = l
  · simp [grant, hx]
  · have hl : l ≠ x := fun h => hx h.symm
    simp [grant, update_of_ne hx, hl]

theorem alive_eraseIdx {locks : List SetLock} {i : ℕ} {l : SetLock} (hl : locks[i]? = some l) :
    alive (locks.eraseIdx i) = release (alive locks) l := by
  have hperm : locks.Perm (l :: locks.eraseIdx i) := by
    obtain ⟨hi, rfl⟩ := List.getElem?_eq_some_iff.mp hl
    exact (List.getElem_cons_eraseIdx_perm hi).symm
  funext x
  unfold alive
  have hcount := hperm.count_eq x
  rw [List.count_cons] at hcount
  by_cases hx : x = l
  · subst hx
    simp only [beq_self_eq_true, if_true] at hcount
    simp [release, hcount]
  · have hne : ¬ (l == x) = true := by
      rw [beq_iff_eq]
      exact fun h => hx h.symm
    rw [if_neg hne] at hcount
    simp [release, update_of_ne hx, hcount]

theorem Kept.counted_refused {w : Storage} (h : Kept w) (set : SetName) :
    Counted w.setStates (alive (w.locks ++ [⟨set, .none⟩])) := by
  apply h.counted.congr
  intro l hl
  rw [alive_append]
  apply update_of_ne
  rintro rfl
  simp [Requestable] at hl

theorem Kept.states_append {w : Storage} (h : Kept w) {l' : SetLock} (hl' : l'.state = .none ∨ Requestable l'.state) :
    ∀ l ∈ w.locks ++ [l'], l.state = .none ∨ Requestable l.state := by
  intro l hl
  rcases List.mem_append.mp hl with hl | hl
  · exact h.states l hl
  · rw [List.mem_singleton.mp hl]
    exact hl'

def Call.Valid : Call → Prop
  | .tryUsingSet _ stateRequested => Requestable stateRequested
  | .useSet _ stateRequested => Requestable stateRequested
  | .wake _ => True
  | .destroy _ => True

theorem wake_blocked {w : Storage} (h : Kept w) {i : ℕ} {c : Waiter} (hc : w.waiting[i]? = some c) :
    w.step (.wake i) = .error .blocked := by
  have hreq := h.refused c (List.mem_of_getElem? hc)
  rw [Storage.step, hc]
  dsimp only
  rcases h.counted.tryUsingSet c.set hreq with ⟨-, setStates, hrun, -⟩ | ⟨-, hrun⟩
  · rw [hrun, ok_bind]
    rfl
  · rw [hrun, ok_bind]
    rfl

theorem destroy_granted {w : Storage} (h : Kept w) {i : ℕ} {l : SetLock} (hl : w.locks[i]? = some l)
    (hg : l.isGranted = true) : ∃ setStates, w.step (.destroy i) =
      .ok { w with setStates := setStates, locks := w.locks.eraseIdx i } ∧
      Counted setStates (alive (w.locks.eraseIdx i)) := by
  have hmem := List.mem_of_getElem? hl
  have hreq : Requestable l.state := (h.states l hmem).resolve_left (by simpa [SetLock.isGranted] using hg)
  have hpos : 0 < alive w.locks l := List.count_pos_iff.mpr hmem
  obtain ⟨setStates, hrun, hcounted⟩ := h.counted.finishUsingSet hreq hpos
  refine ⟨setStates, ?_, ?_⟩
  · rw [Storage.step, hl]
    dsimp only
    rw [SetLocks.destroy, if_neg (by simp), hrun]
    rfl
  · rw [alive_eraseIdx hl]
    exact hcounted

theorem destroy_refused {w : Storage} {i : ℕ} {l : SetLock} (hl : w.locks[i]? = some l)
    (hg : l.isGranted = false) : w.step (.destroy i) = .error .terminate := by
  have hs : l.state = .none := by simpa [SetLock.isGranted] using hg
  rw [Storage.step, hl]
  dsimp only
  rw [SetLocks.destroy, if_neg (by simp), hs]
  rfl

theorem Kept.step {w w' : Storage} {call : Call} (h : Kept w) (hv : call.Valid) (hs : w.step call = .ok w') :
    Kept w' := by
  cases call with
  | tryUsingSet set stateRequested =>
    rw [Storage.step] at hs
    rcases h.counted.tryUsingSet set hv with ⟨-, setStates, hrun, hcounted⟩ | ⟨-, hrun⟩
    · rw [hrun, ok_bind] at hs
      cases hs
      refine ⟨?_, h.states_append (.inr hv), h.refused⟩
      dsimp only
      rw [alive_append]
      exact hcounted
    · rw [hrun, ok_bind] at hs
      cases hs
      exact ⟨h.counted_refused set, h.states_append (.inl rfl), h.refused⟩
  | useSet set stateRequested =>
    rw [Storage.step] at hs
    rcases h.counted.tryUsingSet set hv with ⟨-, setStates, hrun, hcounted⟩ | ⟨-, hrun⟩
    · rw [hrun, ok_bind] at hs
      have hg : (⟨set, stateRequested⟩ : SetLock).isGranted = true := by
        rcases hv with rfl | rfl | rfl <;> rfl
      dsimp only at hs
      rw [if_pos hg] at hs
      cases hs
      refine ⟨?_, h.states_append (.inr hv), h.refused⟩
      dsimp only
      rw [alive_append]
      exact hcounted
    · rw [hrun, ok_bind] at hs
      cases hs
      refine ⟨h.counted, h.states, ?_⟩
      intro c hc
      rcases List.mem_append.mp hc with hc | hc
      · exact h.refused c hc
      · rw [List.mem_singleton.mp hc]
        exact hv
  | wake i =>
    cases hc : w.waiting[i]? with
    | none => simp [Storage.step, hc] at hs
    | some c =>
      rw [wake_blocked h hc] at hs
      cases hs
  | destroy i =>
    cases hl : w.locks[i]? with
    | none => simp [Storage.step, hl] at hs
    | some l =>
      cases hg : l.isGranted with
      | false =>
        rw [destroy_refused hl hg] at hs
        cases hs
      | true =>
        obtain ⟨setStates, hrun, hcounted⟩ := destroy_granted h hl hg
        rw [hrun] at hs
        cases hs
        exact ⟨hcounted, fun l hl => h.states l (List.mem_of_mem_eraseIdx hl), h.refused⟩

structure Agrees (w : Storage) : Prop where
  readers : ∀ set, (w.setStates set).numReaders = w.locks.count ⟨set, .readingData⟩
  writers : ∀ set, (w.setStates set).numWriters = w.locks.count ⟨set, .writingData⟩
  none : ∀ set, (w.setStates set).state = .none ↔ ∀ l ∈ w.locks, l.set = set → l.isGranted = false
  clearing : ∀ set, (w.setStates set).state = .clearingData ↔ w.locks.count ⟨set, .clearingData⟩ = 1 ∧
    ∀ l ∈ w.locks, l.set = set → l.isGranted = true → l.state = .clearingData

theorem Consistent.counts {r : SetRecord} {readers writers clearers : ℕ} (h : Consistent r readers writers clearers) :
    r.numReaders = readers ∧ r.numWriters = writers ∧
      (r.state = .none ↔ readers = 0 ∧ writers = 0 ∧ clearers = 0) ∧
      (r.state = .clearingData ↔ clearers = 1 ∧ readers = 0 ∧ writers = 0) := by
  cases h <;> simp

theorem Kept.agrees {w : Storage} (h : Kept w) : Agrees w := by
  have hzero : ∀ set state, alive w.locks ⟨set, state⟩ = 0 ↔ ∀ l ∈ w.locks, l.set = set → l.state ≠ state := by
    intro set state
    rw [alive, List.count_eq_zero]
    constructor
    · rintro hn l hl rfl rfl
      exact hn hl
    · intro hall hm
      exact hall _ hm rfl rfl
  have hkind : ∀ l ∈ w.locks, l.isGranted = true → Requestable l.state := fun l hl hg =>
    (h.states l hl).resolve_left (by simpa [SetLock.isGranted] using hg)
  constructor
  · exact fun set => (h.counted set).counts.1
  · exact fun set => (h.counted set).counts.2.1
  · intro set
    rw [(h.counted set).counts.2.2.1, hzero, hzero, hzero]
    constructor
    · rintro ⟨hr, hw, hc⟩ l hl hs
      by_contra hg
      rcases hkind l hl (by simpa using hg) with hk | hk | hk
      · exact hr l hl hs hk
      · exact hw l hl hs hk
      · exact hc l hl hs hk
    · intro hall
      refine ⟨?_, ?_, ?_⟩ <;>
      · intro l hl hs hk
        have := hall l hl hs
        simp [SetLock.isGranted, hk] at this
  · intro set
    rw [(h.counted set).counts.2.2.2, hzero, hzero]
    apply and_congr_right
    intro _
    constructor
    · rintro ⟨hr, hw⟩ l hl hs hg
      rcases hkind l hl hg with hk | hk | hk
      · exact absurd hk (hr l hl hs)
      · exact absurd hk (hw l hl hs)
      · exact hk
    · intro hall
      constructor <;>
      · intro l hl hs hk
        have := hall l hl hs (by simp [SetLock.isGranted, hk])
        simp [hk] at this

structure SoundLocks (w : Storage) : Prop where
  agrees : Agrees w
  refused : ∀ set stateRequested l setStates, tryUsingSet set stateRequested w.setStates = .ok (l, setStates) →
    l.isGranted = false → setStates = w.setStates
  destroyed : ∀ i < w.locks.length, ∃ w', w.step (.destroy i) = .ok w'
  -- a waiting call drops the lock object of its last attempt when it is woken
  dropped : ∀ i < w.waiting.length, ∃ w', w.step (.wake i) = .ok w'

def Call.Admitted (call : Call) (w : Storage) : Prop :=
  match call with
  | .tryUsingSet set stateRequested => (w.setStates set).Admits stateRequested
  | .useSet set stateRequested => (w.setStates set).Admits stateRequested
  | .wake _ => True
  | .destroy _ => True

def Begins (w : Storage) : Prop := w = ⟨fun _ => .unused, [], []⟩

theorem kept_of_reachable {w : Storage} {guard : Call → Storage → Prop} (hg : ∀ call w, guard call w → call.Valid)
    (h : Reachable (fun call w => Storage.step call w) guard Begins w) : Kept w := by
  apply h.invariant
  · rintro w rfl
    exact ⟨counted_unused, by simp, by simp⟩
  · intro call w w' hk hc hs
    exact hk.step (hg call w hc) hs

theorem tryUsingSet_refused {set : SetName} {stateRequested : SetState} {setStates setStates' : SetStates} {l : SetLock}
    (h : tryUsingSet set stateRequested setStates = .ok (l, setStates')) (hl : l.isGranted = false) :
    setStates' = setStates := by
  unfold tryUsingSet at h
  cases stateRequested with
  | none => cases h
  | writeReadData => cases h
  | _ =>
    dsimp only at h
    split at h
    · cases h
      simp [SetLock.isGranted] at hl
    · cases h
      rfl

theorem Kept.sound_iff {w : Storage} (h : Kept w) :
    SoundLocks w ↔ (∀ l ∈ w.locks, l.isGranted = true) ∧ w.waiting = [] := by
  constructor
  · intro hs
    constructor
    · intro l hl
      obtain ⟨i, hi⟩ := List.getElem?_of_mem hl
      obtain ⟨w', hw'⟩ := hs.destroyed i (List.getElem?_eq_some_iff.mp hi).1
      by_contra hg
      rw [destroy_refused hi (by simpa using hg)] at hw'
      cases hw'
    · by_contra hne
      obtain ⟨c, rest, hc⟩ := List.exists_cons_of_ne_nil hne
      obtain ⟨w', hw'⟩ := hs.dropped 0 (by simp [hc])
      rw [wake_blocked h (c := c) (by simp [hc])] at hw'
      cases hw'
  · rintro ⟨hg, hw⟩
    refine ⟨h.agrees, fun _ _ _ _ hrun hl => tryUsingSet_refused hrun hl, ?_, by simp [hw]⟩
    intro i hi
    obtain ⟨setStates, hrun, -⟩ := destroy_granted h (List.getElem?_eq_getElem hi) (hg _ (List.getElem_mem hi))
    exact ⟨_, hrun⟩

theorem Kept.granted_step {w w' : Storage} {call : Call} (h : Kept w) (hv : call.Valid) (ha : call.Admitted w)
    (hg : (∀ l ∈ w.locks, l.isGranted = true) ∧ w.waiting = []) (hs : w.step call = .ok w') :
    (∀ l ∈ w'.locks, l.isGranted = true) ∧ w'.waiting = [] := by
  have happend : ∀ set stateRequested, Requestable stateRequested →
      ∀ l ∈ w.locks ++ [⟨set, stateRequested⟩], l.isGranted = true := by
    intro set stateRequested hr l hl
    rcases List.mem_append.mp hl with hl | hl
    · exact hg.1 l hl
    · rw [List.mem_singleton.mp hl]
      rcases hr with rfl | rfl | rfl <;> rfl
  cases call with
  | tryUsingSet set stateRequested =>
    rcases h.counted.tryUsingSet set hv with ⟨-, setStates, hrun, -⟩ | ⟨hn, -⟩
    · rw [Storage.step, hrun, ok_bind] at hs
      cases hs
      exact ⟨happend set stateRequested hv, hg.2⟩
    · exact absurd ha hn
  | useSet set stateRequested =>
    rcases h.counted.tryUsingSet set hv with ⟨-, setStates, hrun, -⟩ | ⟨hn, -⟩
    · rw [Storage.step, hrun, ok_bind] at hs
      have hgr : (⟨set, stateRequested⟩ : SetLock).isGranted = true := by
        rcases hv with rfl | rfl | rfl <;> rfl
      dsimp only at hs
      rw [if_pos hgr] at hs
      cases hs
      exact ⟨happend set stateRequested hv, hg.2⟩
    · exact absurd ha hn
  | wake i => simp [Storage.step, hg.2] at hs
  | destroy i =>
    cases hl : w.locks[i]? with
    | none => simp [Storage.step, hl] at hs
    | some l =>
      obtain ⟨setStates, hrun, -⟩ := destroy_granted h hl (hg.1 l (List.mem_of_getElem? hl))
      rw [hrun] at hs
      cases hs
      exact ⟨fun l hl => hg.1 l (List.mem_of_mem_eraseIdx hl), hg.2⟩

theorem soundLocks_of_reachable (w : Storage) :
    (Reachable (fun call w => Storage.step call w) (fun call _ => call.Valid) Begins w →
      Agrees w ∧ (SoundLocks w ↔ (∀ l ∈ w.locks, l.isGranted = true) ∧ w.waiting = [])) ∧
    (Reachable (fun call w => Storage.step call w) (fun call w => call.Valid ∧ call.Admitted w) Begins w →
      SoundLocks w) := by
  constructor
  · intro hw
    have hk := kept_of_reachable (fun _ _ hv => hv) hw
    exact ⟨hk.agrees, hk.sound_iff⟩
  · intro hw
    have hboth : Kept w ∧ (∀ l ∈ w.locks, l.isGranted = true) ∧ w.waiting = [] := by
      apply hw.invariant
      · rintro w rfl
        exact ⟨⟨counted_unused, by simp, by simp⟩, by simp, rfl⟩
      · rintro call w w' ⟨hk, hg⟩ ⟨hv, ha⟩ hs
        exact ⟨hk.step hv hs, hk.granted_step hv ha hg hs⟩
    exact hboth.1.sound_iff.mpr hboth.2

theorem soundLocks_two_reads : ∃ w, w.locks = [⟨([], []), .readingData⟩] ∧ SoundLocks w := by
  have hread : (Call.useSet ([], []) .readingData).Valid := .inl rfl
  refine ⟨_, ?_, (soundLocks_of_reachable _).2 (.step (i := .destroy 0) (.step (i := .useSet ([], []) .readingData)
    (.step (i := .useSet ([], []) .readingData) (.start rfl) ⟨hread, .inl rfl⟩ rfl)
    ⟨hread, .inr ⟨rfl, by decide⟩⟩ rfl) ⟨trivial, trivial⟩ rfl)⟩
  rfl

theorem not_soundLocks_refused :
    ∃ w, Reachable (fun call w => Storage.step call w) (fun call _ => call.Valid) Begins w ∧
      w.step (.destroy 1) = .error .terminate ∧ w.step (.wake 0) = .error .blocked ∧ ¬ SoundLocks w := by
  have hread : (Call.tryUsingSet ([], []) .readingData).Valid := .inl rfl
  have htry : (Call.tryUsingSet ([], []) .writingData).Valid := .inr (.inl rfl)
  have huse : (Call.useSet ([], []) .writingData).Valid := .inr (.inl rfl)
  refine ⟨_, .step (.step (.step (.start rfl) hread rfl) htry rfl) huse rfl, rfl, rfl, ?_⟩
  intro h
  obtain ⟨w', hw'⟩ := h.destroyed 1 (by decide)
  cases hw'

end PlinyCompute.SetLocks
