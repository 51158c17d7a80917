import PlinyCompute.Preaggregation
import PlinyCompute.Transition
import Mathlib.Algebra.Group.WithOne.Defs
import Mathlib.Logic.Equiv.Fin.Basic
import Mathlib.Data.List.FinRange

namespace PlinyCompute.Aggregation

open PdbMap Preaggregation Transition

variable {K V : Type}

section Writing

structure Writing (n : ℕ) (K V : Type) where
  taken : List (K × V)
  pending : Option (Columns K V)
  finished : List (Container n K V)
  current : Container n K V

/-- A pipeline takes the next chunk, writes out what is left of the chunk, or moves to a fresh page because
one of its stages ran out of space. A row behind the end of `rooms` has enough space. -/
inductive Op (K V : Type)
  | chunk (input : Columns K V)
  | write (rooms : List Room)
  | newPage

variable {n : ℕ}

def Writing.start : Writing n K V := ⟨[], none, [], createNewOutputContainer n⟩

def Writing.pages (s : Writing n K V) : List (Container n K V) := s.finished ++ [s.current]

def Op.Allowed : Op K V → Writing n K V → Prop
  | .chunk input, _ => input.Aligned
  | .write rooms, _ => ∀ room ∈ rooms, room.Atomic
  | .newPage, _ => True

instance (op : Op K V) (s : Writing n K V) : Decidable (op.Allowed s) :=
  match op with
  | .chunk input => inferInstanceAs (Decidable (input.keyColumn.length = input.valueColumn.length))
  | .write rooms => inferInstanceAs (Decidable (∀ room ∈ rooms, room.Atomic))
  | .newPage => isTrue trivial

variable [NeZero n] [DecidableEq K] [Inhabited V]

def step (hash : K → ℕ) (add : V → V → V) : Op K V → Writing n K V → Except Unit (Writing n K V)
  | .chunk input, s =>
    if s.pending.isNone then .ok { s with taken := s.taken ++ input.rows, pending := some input }
    else .error ()
  | .write rooms, s =>
    match s.pending with
    | none => .error ()
    | some input =>
      match writeOut hash add (rooms.getD · .enough) input s.current with
      | (maps, _, .ok ()) => .ok { s with pending := none, current := maps }
      | (maps, input, .error .notEnoughSpace) =>
        .ok { s with
          pending := some input
          finished := s.finished ++ [maps]
          current := createNewOutputContainer n }
      | (_, _, .error .exit) => .error ()
  | .newPage, s =>
    .ok { s with finished := s.finished ++ [s.current], current := createNewOutputContainer n }

end Writing

/-- The maps of one node: `PreaggregationPageProcessor` sends node `node` the maps of the partitions from
`node * numProcessingThreads` on. -/
def process {numNodes numThreads : ℕ} (allMaps : Container (numNodes * numThreads) K V)
    (node : Fin numNodes) : Container numThreads K V :=
  fun t => allMaps (finProdFinEquiv (node, t))

section Combiner

variable [DecidableEq K] [Inhabited V] (hash : K → ℕ) (add : V → V → V)

/-- One round of the loop of `AggregationCombinerSink::writeOutPage`, which handles no exception. -/
def combine (room : Room) (mergeToMe : Map K V) (key : K) (value : V) : Except Thrown (Map K V) :=
  if mergeToMe.count hash key = 0 then
    match mergeToMe.index hash room key with
    | (_, .error e) => .error e
    | (mergeToMe, .ok temp) =>
      if room = .value then .error .notEnoughSpace else .ok (mergeToMe.store temp value)
  else
    match mergeToMe.index hash room key with
    | (_, .error e) => .error e
    | (mergeToMe, .ok temp) =>
      if room = .value then .error .notEnoughSpace
      else .ok (mergeToMe.store temp (add (mergeToMe.fetch temp) value))

def combineAll (rooms : ℕ → Room) : ℕ → List (K × V) → Map K V → Except Thrown (Map K V)
  | _, [], mergeToMe => .ok mergeToMe
  | i, (key, value) :: pairs, mergeToMe =>
    combine hash add (rooms i) mergeToMe key value >>= combineAll rooms (i + 1) pairs

def writeOutPage {n : ℕ} (workerID : Fin n) (rooms : ℕ → Room) (page : Container n K V)
    (mergeToMe : Map K V) : Except Thrown (Map K V) :=
  combineAll hash add rooms 0 (page workerID).pairs mergeToMe

def run {n : ℕ} (workerID : Fin n) (rooms : ℕ → ℕ → Room) : ℕ → List (Container n K V) → Map K V →
    Except Thrown (Map K V)
  | _, [], outputSink => .ok outputSink
  | i, page :: pages, outputSink =>
    writeOutPage hash add workerID (rooms i) page outputSink >>= run workerID rooms (i + 1) pages

end Combiner

section GroupBy

variable [DecidableEq K] [AddCommSemigroup V]

def valueFor (k : K) (key : K) (value : V) : WithZero V := if key = k then (value : WithZero V) else 0

def sumOf (k : K) (rows : List (K × V)) : WithZero V := total (valueFor k) rows

theorem valueFor_add (k key : K) (u v : V) : valueFor k key (u + v) = valueFor k key u + valueFor k key v := by
  unfold valueFor
  split_ifs
  · exact WithZero.coe_add u v
  · exact (add_zero 0).symm

end GroupBy

section Correctness

variable [DecidableEq K] [Inhabited V] [AddCommSemigroup V] {hash : K → ℕ}

variable {n : ℕ} [NeZero n]

structure Counted (hash : K → ℕ) (s : Writing n K V) : Prop where
  ready : Ready hash (fun _ => True) s.current
  aligned : ∀ input ∈ s.pending, input.Aligned
  sum : ∀ p k, (s.finished.map fun c => sumOf k (c p).pairs).sum + sumOf k (s.current p).pairs +
    (s.pending.elim 0 fun input => share hash (valueFor k) p input.rows) =
      share hash (valueFor k) p s.taken

omit [NeZero n] [Inhabited V] in
theorem sumOf_create (k : K) (p : Fin n) :
    sumOf k ((createNewOutputContainer n : Container n K V) p).pairs = 0 := by
  simp [createNewOutputContainer, Map.empty_pairs, sumOf, total]

omit [Inhabited V] in
theorem Counted.start : Counted hash (Writing.start : Writing n K V) := by
  constructor
  · exact Ready.create
  · simp [Writing.start]
  · intro p k
    simp [Writing.start, sumOf_create, share, total]

theorem writeOut_kept {rooms : ℕ → Room} (hr : ∀ i, (rooms i).Atomic)
    {input : Columns K V} (hin : input.Aligned) {maps : Container n K V}
    (hm : Ready hash (fun _ => True) maps) :
    (∃ maps', writeOut hash (· + ·) rooms input maps = (maps', input, .ok ()) ∧
      Ready hash (fun _ => True) maps' ∧
      ∀ p k, sumOf k (maps' p).pairs = sumOf k (maps p).pairs + share hash (valueFor k) p input.rows) ∨
    ∃ maps' i, writeOut hash (· + ·) rooms input maps = (maps', input.erase i, .error .notEnoughSpace) ∧
      ∀ p k, sumOf k (maps' p).pairs + share hash (valueFor k) p (input.erase i).rows =
        sumOf k (maps p).pairs + share hash (valueFor k) p input.rows := by
  have hcases {M : Type} [AddCommMonoid M] {w : K → V → M} (hw : ∀ k u v, w k (u + v) = w k u + w k v) :=
    writeOut_cases hw (fun _ _ _ => trivial) rooms hin (fun _ _ => trivial) hm
  let unit : K → V → ℕ := fun _ _ => 0
  have hzero : ∀ k u v, unit k (u + v) = unit k u + unit k v := by simp [unit]
  -- the weights of all keys are read off one run
  obtain ⟨maps', hout, hready, -, -⟩ | ⟨maps', i, gone, p₀, hout, hgone, -, -⟩ := hcases hzero
  · refine Or.inl ⟨maps', hout, hready, ?_⟩
    intro p k
    obtain ⟨_, hout', -, -, hsum⟩ | ⟨_, _, _, _, hout', -⟩ := hcases (valueFor_add k)
    · cases hout.symm.trans hout'
      exact hsum p
    · rw [hout, Prod.mk.injEq, Prod.mk.injEq] at hout'
      exact absurd hout'.2.2 (by simp)
  · refine Or.inr ⟨maps', i, hout, ?_⟩
    intro p k
    obtain ⟨_, hout', -⟩ | ⟨_, _, gone', _, hout', hgone', -, hsum⟩ := hcases (valueFor_add k)
    · rw [hout, Prod.mk.injEq, Prod.mk.injEq] at hout'
      exact absurd hout'.2.2 (by simp)
    · rw [lostEntries_eq_zero hr, List.length_eq_zero_iff] at hgone'
      rw [hout, Prod.mk.injEq, Prod.mk.injEq] at hout'
      have hp := hsum p
      rw [hgone', ← hout'.1, ← hout'.2.1] at hp
      simpa [total, sumOf] using hp

theorem Counted.step {op : Op K V} {s s' : Writing n K V} (h : Counted hash s) (ha : op.Allowed s)
    (hs : step hash (· + ·) op s = .ok s') : Counted hash s' := by
  cases op with
  | chunk input =>
    simp only [Aggregation.step] at hs
    split_ifs at hs with hp
    cases hs
    rw [Option.isNone_iff_eq_none] at hp
    refine ⟨h.ready, ?_, ?_⟩
    · intro input' hin
      cases hin
      exact ha
    · intro p k
      have hsum := h.sum p k
      rw [hp, Option.elim_none, add_zero] at hsum
      simp only [Option.elim_some, hsum, share, total_append]
  | newPage =>
    cases hs
    refine ⟨Ready.create, h.aligned, ?_⟩
    intro p k
    have hsum := h.sum p k
    simpa [sumOf_create] using hsum
  | write rooms =>
    simp only [Aggregation.step] at hs
    cases hp : s.pending with
    | none => simp [hp] at hs
    | some input =>
      simp only [hp] at hs
      have hin := h.aligned input hp
      have hr (i : ℕ) : (rooms.getD i .enough).Atomic := by
        rw [List.getD_eq_getElem?_getD]
        cases hi : rooms[i]? with
        | none => trivial
        | some room => exact ha room (List.mem_of_getElem? hi)
      obtain ⟨maps, hw, hready, hsum⟩ | ⟨maps, i, hw, hsum⟩ := writeOut_kept hr hin h.ready
      · rw [hw] at hs
        cases hs
        refine ⟨hready, by simp, ?_⟩
        intro p k
        have hold := h.sum p k
        rw [hp, Option.elim_some] at hold
        simp only [Option.elim_none, add_zero]
        rw [hsum, ← add_assoc, hold]
      · rw [hw] at hs
        cases hs
        refine ⟨Ready.create, ?_, ?_⟩
        · intro left hleft
          cases hleft
          exact hin.erase i
        · intro p k
          have hold := h.sum p k
          rw [hp, Option.elim_some, add_assoc, ← hsum, ← add_assoc] at hold
          simpa [sumOf_create] using hold

omit [Inhabited V] in
theorem Counted.pages {s : Writing n K V} (h : Counted hash s) (hdone : s.pending = none) (p : Fin n) (k : K) :
    (s.pages.map fun page => sumOf k (page p).pairs).sum = share hash (valueFor k) p s.taken := by
  have hsum := h.sum p k
  rw [hdone, Option.elim_none, add_zero] at hsum
  simpa [Writing.pages] using hsum

def threeRows : List (Op ℕ ℕ) :=
  [.chunk ⟨[0, 1, 0], [5, 7, 9]⟩, .write [.enough, .enough, .value], .write []]

end Correctness

end PlinyCompute.Aggregation
