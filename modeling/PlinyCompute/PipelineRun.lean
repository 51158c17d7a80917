import PlinyCompute.SizePolicy
import PlinyCompute.Sinks

namespace PlinyCompute.PipelineRun

open SizePolicy Sinks PdbMap

variable {T Out F R : Type}

/-- One tuple set of the source with everything that happens to it: for each stage whether its first and its
second attempt throw, where creating a container and writing throw, on the current page and on the fresh
page after it, and the free bytes that `run` measures. -/
structure Chunk (T F : Type) where
  tupleSet : T
  stageThrows : List (Bool × Bool)
  containerThrows : Bool
  write : F
  freshContainerThrows : Bool
  freshWrite : F
  initialFree : ℕ
  pipelineFree : ℕ
  finalFree : ℕ

structure MemoryHolder (Out : Type) where
  outputSink : Option Out
  iteration : ℕ
  deriving DecidableEq, Repr

structure State (Out : Type) where
  ram : Option Out
  unwrittenPages : List (MemoryHolder Out)
  finished : List Out
  iteration : ℕ
  policy : PDBTupleSetSizePolicy
  deriving DecidableEq, Repr

inductive Stop
  | runtimeError
  | notEnoughSpace
  | exit
  deriving DecidableEq, Repr

def Stop.ofThrown : Thrown → Stop
  | .notEnoughSpace => .notEnoughSpace
  | .exit => .exit

def maxIteration : ℕ := 2147483647

def State.start (pageSize : ℕ) : State Out := ⟨none, [], [], 0, { pageSize }⟩

def State.addPage (s : State Out) : State Out :=
  { s with ram := none, unwrittenPages := s.unwrittenPages ++ [⟨s.ram, s.iteration⟩] }

def cleanPages (iteration : ℕ) : List (MemoryHolder Out) → List (MemoryHolder Out) × List Out
  | [] => ([], [])
  | page :: pages =>
    if page.iteration + 1 < iteration then
      ((cleanPages iteration pages).1, page.outputSink.toList ++ (cleanPages iteration pages).2)
    else (page :: pages, [])

def State.clean (s : State Out) : State Out :=
  let left := cleanPages (s.iteration + 1) s.unwrittenPages
  { s with iteration := s.iteration + 1, unwrittenPages := left.1, finished := s.finished ++ left.2 }

/-- `cleanPipeline`, after the last page was added: the oldest page is now the last one of the queue. -/
def State.cleanPipeline (s : State Out) : State Out :=
  let left := cleanPages maxIteration s.unwrittenPages.reverse
  { s with unwrittenPages := left.1, finished := s.finished ++ left.2 }

/-- The stages from the first one on, with the additional pages used so far; no tuple set if a stage threw
twice. -/
def runStages : List (T → T) → List (Bool × Bool) → ℕ → T → State Out → State Out × ℕ × Option T
  | [], _, additional, t, s => (s, additional, some t)
  | q :: stages, throws, additional, t, s =>
    match throws.headD (false, false) with
    | (false, _) => runStages stages throws.tail additional (q t) s
    | (true, false) => runStages stages throws.tail (additional + 1) (q t) s.addPage
    | (true, true) => (s.addPage.addPage, additional + 1, none)

def passed : List (T → T) → List (Bool × Bool) → T → Option T
  | [], _, t => some t
  | q :: stages, throws, t =>
    if throws.headD (false, false) = (true, true) then none else passed stages throws.tail (q t)

section Run

variable (sink : ComputeSink T Out F) (stages : List (T → T))

/-- The `try` block: the container stays with the page when it was created. -/
def firstWrite (c : Chunk T F) (t : T) (ram : Option Out) : Option Out × T × Except Thrown Unit :=
  match ram with
  | none =>
    if c.containerThrows then (none, t, .error .notEnoughSpace)
    else
      let r := sink.writeOut c.write t sink.createNewOutputContainer
      (some r.1, r.2)
  | some out =>
    let r := sink.writeOut c.write t out
    (some r.1, r.2)

def freshWrite (c : Chunk T F) (t : T) : Out × Except Thrown Unit :=
  if c.freshContainerThrows then (sink.createNewOutputContainer, .error .notEnoughSpace)
  else
    let r := sink.writeOut c.freshWrite t sink.createNewOutputContainer
    (r.1, r.2.2)

def writeChunk (c : Chunk T F) (t : T) (s : State Out) : Except Stop (State Out) :=
  match firstWrite sink c t s.ram with
  | (ram, _, .ok ()) => .ok { s with ram }
  | (_, _, .error .exit) => .error .exit
  | (ram, t, .error .notEnoughSpace) =>
    match freshWrite sink c t with
    | (out, .ok ()) => .ok { State.addPage { s with ram } with ram := some out }
    | (_, .error e) => .error (.ofThrown e)

def iterate (c : Chunk T F) (s : State Out) : Except Stop (State Out) :=
  match runStages stages c.stageThrows 0 c.tupleSet s with
  | (s, _, none) =>
    match s.policy.pipelineFailed with
    | none => .error .runtimeError
    | some policy => .ok (State.clean { s with policy })
  | (s, additional, some t) =>
    let policy := s.policy.pipelineSucceeded additional c.initialFree c.pipelineFree
    (writeChunk sink c t s).map fun s =>
      State.clean { s with policy := policy.writeToPageSucceeded 0 c.pipelineFree c.finalFree }

def runLoop : List (Chunk T F) → State Out → Except Stop (State Out)
  | [], s => .ok s
  | c :: chunks, s => iterate sink stages c s >>= runLoop chunks

def run (pageSize : ℕ) (chunks : List (Chunk T F)) : Except Stop (List Out) :=
  (runLoop sink stages chunks (State.start pageSize)).map fun s => s.addPage.cleanPipeline.finished

variable {sink} (counting : Counting sink R)

def WritesExactlyOnce (pageSize : ℕ) (chunks : List (Chunk T F)) : Prop :=
  ∃ pages, run sink stages pageSize chunks = .ok pages ∧
    (pages.map counting.held).sum =
      ((chunks.filterMap fun c => passed stages c.stageThrows c.tupleSet).map counting.rows).sum

def KeepsRows (c : Chunk T F) (t : T) (ram : Option Out) : Prop :=
  match ram with
  | none => c.containerThrows = true ∨ ¬ counting.Lossy c.write t sink.createNewOutputContainer
  | some out => ¬ counting.Lossy c.write t out

def FitsTwoPages (c : Chunk T F) (s : State Out) : Prop :=
  match runStages stages c.stageThrows 0 c.tupleSet s with
  | (_, _, none) => True
  | (s, _, some t) =>
    match firstWrite sink c t s.ram with
    | (_, _, .ok ()) => True
    | (_, t', .error _) => (freshWrite sink c t').2 = .ok () ∧ KeepsRows counting c t s.ram

def AllFit : List (Chunk T F) → State Out → Prop
  | [], _ => True
  | c :: chunks, s =>
    FitsTwoPages stages counting c s ∧ ∀ s', iterate sink stages c s = .ok s' → AllFit chunks s'

end Run

section Correctness

variable {sink : ComputeSink T Out F} (counting : Counting sink R)

def pageRows (pages : List (MemoryHolder Out)) : Multiset R :=
  ((pages.filterMap MemoryHolder.outputSink).map counting.held).sum

def ramRows (ram : Option Out) : Multiset R := ram.elim 0 counting.held

def stored (s : State Out) : Multiset R :=
  (s.finished.map counting.held).sum + pageRows counting s.unwrittenPages + ramRows counting s.ram

structure Sane (s : State Out) : Prop where
  valid : ∀ out ∈ s.ram, counting.Valid out
  recent : ∀ page ∈ s.unwrittenPages, page.iteration ≤ s.iteration

theorem pageRows_append (pages pages' : List (MemoryHolder Out)) :
    pageRows counting (pages ++ pages') = pageRows counting pages + pageRows counting pages' := by
  simp [pageRows]

theorem pageRows_singleton (ram : Option Out) (iteration : ℕ) :
    pageRows counting [⟨ram, iteration⟩] = ramRows counting ram := by
  cases ram <;> simp [pageRows, ramRows]

theorem stored_addPage (s : State Out) : stored counting s.addPage = stored counting s := by
  simp only [stored, State.addPage, pageRows_append, pageRows_singleton]
  simp [ramRows, add_assoc]

theorem cleanPages_rows (iteration : ℕ) (pages : List (MemoryHolder Out)) :
    ((cleanPages iteration pages).2.map counting.held).sum + pageRows counting (cleanPages iteration pages).1 =
      pageRows counting pages := by
  induction pages with
  | nil => simp [cleanPages, pageRows]
  | cons page pages ih =>
    rw [cleanPages]
    split_ifs
    · have hcons := pageRows_append counting [page] pages
      have hone := pageRows_singleton counting page.outputSink page.iteration
      rw [List.singleton_append] at hcons
      rw [hcons, hone, ← ih]
      cases page.outputSink <;> simp [ramRows, add_assoc]
    · simp

theorem stored_clean (s : State Out) : stored counting s.clean = stored counting s := by
  have hrows := cleanPages_rows counting (s.iteration + 1) s.unwrittenPages
  simp only [stored, State.clean, List.map_append, List.sum_append]
  rw [add_assoc (s.finished.map counting.held).sum, hrows]

variable {counting}

theorem Sane.addPage {s : State Out} (h : Sane counting s) : Sane counting s.addPage := by
  constructor
  · simp [State.addPage]
  · intro page hp
    simp only [State.addPage, List.mem_append, List.mem_singleton] at hp ⊢
    obtain hp | rfl := hp
    · exact h.recent page hp
    · exact Nat.le_refl _

theorem cleanPages_all {iteration : ℕ} {pages : List (MemoryHolder Out)}
    (h : ∀ page ∈ pages, page.iteration + 1 < iteration) : (cleanPages iteration pages).1 = [] := by
  induction pages with
  | nil => rfl
  | cons page pages ih =>
    rw [cleanPages, if_pos (h page List.mem_cons_self)]
    exact ih fun page hp => h page (List.mem_cons_of_mem _ hp)

theorem cleanPages_subset {iteration : ℕ} {pages : List (MemoryHolder Out)} {page : MemoryHolder Out}
    (h : page ∈ (cleanPages iteration pages).1) : page ∈ pages := by
  induction pages with
  | nil => simp [cleanPages] at h
  | cons first pages ih =>
    rw [cleanPages] at h
    split_ifs at h
    · exact List.mem_cons_of_mem _ (ih h)
    · exact h

theorem Sane.clean {s : State Out} (h : Sane counting s) : Sane counting s.clean := by
  constructor
  · exact h.valid
  · intro page hp
    exact Nat.le_succ_of_le (h.recent page (cleanPages_subset hp))

structure Staged (counting : Counting sink R) (s s' : State Out) : Prop where
  sane : Sane counting s'
  stored : stored counting s' = stored counting s
  iteration : s'.iteration = s.iteration

theorem runStages_staged (stages : List (T → T)) (throws : List (Bool × Bool)) (additional : ℕ) (t : T)
    {s : State Out} (h : Sane counting s) :
    Staged counting s (runStages stages throws additional t s).1 ∧
      (runStages stages throws additional t s).2.2 = passed stages throws t := by
  induction stages generalizing throws additional t s with
  | nil => exact ⟨⟨h, rfl, rfl⟩, rfl⟩
  | cons q stages ih =>
    rw [runStages, passed]
    rcases throws.headD (false, false) with ⟨_ | _, _ | _⟩
    · exact ih _ _ _ h
    · exact ih _ _ _ h
    · obtain ⟨hs, hp⟩ := ih throws.tail (additional + 1) (q t) h.addPage
      exact ⟨⟨hs.sane, hs.stored.trans (stored_addPage counting s), hs.iteration⟩, hp⟩
    · refine ⟨⟨h.addPage.addPage, ?_, rfl⟩, rfl⟩
      rw [stored_addPage, stored_addPage]

theorem firstWrite_cases (c : Chunk T F) {t : T} (ht : counting.WellFormed t) {ram : Option Out}
    (hram : ∀ out ∈ ram, counting.Valid out) :
    (∃ out t', firstWrite sink c t ram = (some out, t', .ok ()) ∧ counting.Valid out ∧
      counting.held out = ramRows counting ram + counting.rows t) ∨
    ∃ ram' t' gone, firstWrite sink c t ram = (ram', t', .error .notEnoughSpace) ∧ counting.WellFormed t' ∧
      ramRows counting ram' + counting.rows t' + gone = ramRows counting ram + counting.rows t ∧
      (KeepsRows counting c t ram ↔ gone = 0) := by
  have hwrite {out : Out} (hv : counting.Valid out) := counting.write c.write t out hv ht
  cases ram with
  | none =>
    by_cases hc : c.containerThrows = true
    · refine Or.inr ⟨none, t, 0, by simp [firstWrite, hc], ht, by simp, ?_⟩
      simp [KeepsRows, hc]
    · obtain ⟨out, t', hw, hv, hheld, -⟩ | ⟨out, t', gone, hw, ht', hheld, hlossy⟩ :=
        hwrite counting.create_valid
      · refine Or.inl ⟨out, t', by simp [firstWrite, hc, hw], hv, ?_⟩
        rw [hheld, counting.create_held]
        rfl
      · refine Or.inr ⟨some out, t', gone, by simp [firstWrite, hc, hw], ht', ?_, ?_⟩
        · rw [counting.create_held] at hheld
          exact hheld
        · simp [KeepsRows, hc, hlossy]
  | some out₀ =>
    obtain ⟨out, t', hw, hv, hheld, -⟩ | ⟨out, t', gone, hw, ht', hheld, hlossy⟩ :=
      hwrite (hram out₀ rfl)
    · exact Or.inl ⟨out, t', by simp [firstWrite, hw], hv, hheld⟩
    · refine Or.inr ⟨some out, t', gone, by simp [firstWrite, hw], ht', hheld, ?_⟩
      simp [KeepsRows, hlossy]

theorem freshWrite_cases (c : Chunk T F) {t : T} (ht : counting.WellFormed t) :
    (∃ out, freshWrite sink c t = (out, .ok ()) ∧ counting.Valid out ∧ counting.held out = counting.rows t) ∨
      ∃ out, freshWrite sink c t = (out, .error .notEnoughSpace) := by
  by_cases hc : c.freshContainerThrows = true
  · exact Or.inr ⟨sink.createNewOutputContainer, by simp [freshWrite, hc]⟩
  · obtain ⟨out, t', hw, hv, hheld, -⟩ | ⟨out, t', gone, hw, -⟩ :=
      counting.write c.freshWrite t _ counting.create_valid ht
    · refine Or.inl ⟨out, by simp [freshWrite, hc, hw], hv, ?_⟩
      rw [hheld, counting.create_held, zero_add]
    · exact Or.inr ⟨out, by simp [freshWrite, hc, hw]⟩

theorem passed_wellFormed {stages : List (T → T)}
    (hstages : ∀ q ∈ stages, ∀ t, counting.WellFormed t → counting.WellFormed (q t))
    {throws : List (Bool × Bool)} {t t' : T} (ht : counting.WellFormed t)
    (h : passed stages throws t = some t') : counting.WellFormed t' := by
  induction stages generalizing throws t with
  | nil =>
    cases h
    exact ht
  | cons q stages ih =>
    rw [passed] at h
    split_ifs at h
    apply ih _ _ h
    · intro q' hq'
      exact hstages q' (List.mem_cons_of_mem _ hq')
    · exact hstages q List.mem_cons_self t ht

def chunkRows (counting : Counting sink R) (stages : List (T → T)) (c : Chunk T F) : Multiset R :=
  (passed stages c.stageThrows c.tupleSet).elim 0 counting.rows

inductive Iterated (counting : Counting sink R) (stages : List (T → T)) (c : Chunk T F) (s : State Out) : Prop
  | aborted : iterate sink stages c s = .error .runtimeError → Iterated counting stages c s
  | escaped : iterate sink stages c s = .error .notEnoughSpace → ¬ FitsTwoPages stages counting c s →
      Iterated counting stages c s
  | done (s' : State Out) (gone : Multiset R) : iterate sink stages c s = .ok s' → Sane counting s' →
      s'.iteration = s.iteration + 1 →
      stored counting s' + gone = stored counting s + chunkRows counting stages c →
      (FitsTwoPages stages counting c s ↔ gone = 0) → Iterated counting stages c s

theorem iterated {stages : List (T → T)}
    (hstages : ∀ q ∈ stages, ∀ t, counting.WellFormed t → counting.WellFormed (q t)) {c : Chunk T F}
    (hc : counting.WellFormed c.tupleSet) {s : State Out} (h : Sane counting s) :
    Iterated counting stages c s := by
  obtain ⟨hs, hp⟩ := runStages_staged stages c.stageThrows 0 c.tupleSet h
  rcases hrun : runStages stages c.stageThrows 0 c.tupleSet s with ⟨s₁, additional, _ | t⟩
  · rw [hrun] at hs hp
    have hrows : chunkRows counting stages c = 0 := by rw [chunkRows, ← hp, Option.elim_none]
    cases hpol : s₁.policy.pipelineFailed with
    | none => exact Iterated.aborted (by simp [iterate, hrun, hpol])
    | some policy =>
      have hclean : Sane counting (State.clean { s₁ with policy }) :=
        Sane.clean ⟨hs.sane.valid, hs.sane.recent⟩
      refine Iterated.done _ 0 (by simp [iterate, hrun, hpol]) hclean ?_ ?_ ?_
      · exact congrArg (· + 1) hs.iteration
      · rw [add_zero, hrows, add_zero, stored_clean]
        exact hs.stored
      · simp [FitsTwoPages, hrun]
  · rw [hrun] at hs hp
    have ht : counting.WellFormed t := passed_wellFormed hstages hc hp.symm
    have hrows : chunkRows counting stages c = counting.rows t := by rw [chunkRows, ← hp, Option.elim_some]
    let policy := (s₁.policy.pipelineSucceeded additional c.initialFree c.pipelineFree).writeToPageSucceeded 0
      c.pipelineFree c.finalFree
    obtain ⟨out, t', hw, hv, hheld⟩ | ⟨ram, t', gone, hw, ht', hheld, hkeep⟩ :=
      firstWrite_cases c ht hs.sane.valid
    · refine Iterated.done (State.clean { s₁ with ram := some out, policy }) 0
        (by simp [iterate, hrun, writeChunk, hw, Except.map, policy]) ?_ ?_ ?_ ?_
      · apply Sane.clean
        exact ⟨by simpa using hv, hs.sane.recent⟩
      · exact congrArg (· + 1) hs.iteration
      · rw [add_zero, stored_clean, ← hs.stored, hrows]
        simp only [stored]
        rw [add_assoc _ _ (counting.rows t), ← hheld]
        rfl
      · simp [FitsTwoPages, hrun, hw]
    · obtain ⟨out, hf, hv, hfresh⟩ | ⟨out, hf⟩ := freshWrite_cases c ht'
      · refine Iterated.done
          (State.clean { State.addPage { s₁ with ram } with ram := some out, policy }) gone
          (by simp [iterate, hrun, writeChunk, hw, hf, Except.map, policy, State.addPage]) ?_ ?_ ?_ ?_
        · apply Sane.clean
          refine ⟨by simpa using hv, ?_⟩
          intro page hpage
          simp only [State.addPage, List.mem_append, List.mem_singleton] at hpage ⊢
          obtain hpage | rfl := hpage
          · exact hs.sane.recent page hpage
          · exact Nat.le_refl _
        · exact congrArg (· + 1) hs.iteration
        · rw [stored_clean, ← hs.stored, hrows]
          simp only [stored, State.addPage, pageRows_append, pageRows_singleton]
          simp only [ramRows, Option.elim_some, hfresh] at hheld ⊢
          rw [add_assoc _ _ (counting.rows t), ← hheld]
          simp only [add_assoc]
        · simp [FitsTwoPages, hrun, hw, hf, hkeep]
      · apply Iterated.escaped
        · simp [iterate, hrun, writeChunk, hw, hf, Except.map, Stop.ofThrown]
        · simp [FitsTwoPages, hrun, hw, hf]

inductive Looped (counting : Counting sink R) (stages : List (T → T)) (chunks : List (Chunk T F))
    (s : State Out) : Prop
  | aborted : runLoop sink stages chunks s = .error .runtimeError → Looped counting stages chunks s
  | escaped : runLoop sink stages chunks s = .error .notEnoughSpace → ¬ AllFit stages counting chunks s →
      Looped counting stages chunks s
  | done (s' : State Out) (gone : Multiset R) : runLoop sink stages chunks s = .ok s' → Sane counting s' →
      s'.iteration = s.iteration + chunks.length →
      stored counting s' + gone = stored counting s + (chunks.map (chunkRows counting stages)).sum →
      (AllFit stages counting chunks s ↔ gone = 0) → Looped counting stages chunks s

theorem looped {stages : List (T → T)}
    (hstages : ∀ q ∈ stages, ∀ t, counting.WellFormed t → counting.WellFormed (q t))
    {chunks : List (Chunk T F)} (hchunks : ∀ c ∈ chunks, counting.WellFormed c.tupleSet) {s : State Out}
    (h : Sane counting s) : Looped counting stages chunks s := by
  induction chunks generalizing s with
  | nil => exact Looped.done s 0 rfl h rfl (by simp) (by simp [AllFit])
  | cons c chunks ih =>
    have hrest : ∀ c ∈ chunks, counting.WellFormed c.tupleSet :=
      fun c hc => hchunks c (List.mem_cons_of_mem _ hc)
    cases iterated hstages (hchunks c List.mem_cons_self) h with
    | aborted hi => exact Looped.aborted (by simp [runLoop, hi, bind, Except.bind])
    | escaped hi hfit =>
      apply Looped.escaped
      · simp [runLoop, hi, bind, Except.bind]
      · intro hall
        exact hfit hall.1
    | done s' gone hi hsane hit hstored hfit =>
      have hall : AllFit stages counting (c :: chunks) s ↔
          FitsTwoPages stages counting c s ∧ AllFit stages counting chunks s' := by
        simp [AllFit, hi]
      have hloop : runLoop sink stages (c :: chunks) s = runLoop sink stages chunks s' := by
        simp [runLoop, hi, bind, Except.bind]
      cases ih hrest hsane with
      | aborted hr => exact Looped.aborted (hloop.trans hr)
      | escaped hr hno =>
        apply Looped.escaped (hloop.trans hr)
        intro hyes
        exact hno (hall.mp hyes).2
      | done s'' gone' hr hsane' hit' hstored' hfit' =>
        refine Looped.done s'' (gone + gone') (hloop.trans hr) hsane' ?_ ?_ ?_
        · rw [hit', hit, List.length_cons]
          omega
        · rw [add_comm gone, ← add_assoc, hstored', add_right_comm, hstored, List.map_cons, List.sum_cons,
            add_assoc]
        · rw [hall, hfit, hfit']
          exact add_eq_zero.symm

theorem stored_cleanPipeline (counting : Counting sink R) {s : State Out}
    (h : ∀ page ∈ s.unwrittenPages, page.iteration + 1 < maxIteration) :
    (s.cleanPipeline.finished.map counting.held).sum + ramRows counting s.ram = stored counting s := by
  have hrows := cleanPages_rows counting maxIteration s.unwrittenPages.reverse
  have hall : (cleanPages maxIteration s.unwrittenPages.reverse).1 = [] := by
    apply cleanPages_all
    intro page hp
    exact h page (List.mem_reverse.mp hp)
  have hreverse : pageRows counting s.unwrittenPages.reverse = pageRows counting s.unwrittenPages := by
    apply List.Perm.sum_eq
    apply List.Perm.map
    exact (List.reverse_perm _).filterMap _
  rw [hall, hreverse] at hrows
  simp only [State.cleanPipeline, List.map_append, List.sum_append, stored, ← hrows]
  simp [pageRows]

theorem writesExactlyOnce_iff_allFit {stages : List (T → T)}
    (hstages : ∀ q ∈ stages, ∀ t, counting.WellFormed t → counting.WellFormed (q t)) (pageSize : ℕ)
    {chunks : List (Chunk T F)} (hchunks : ∀ c ∈ chunks, counting.WellFormed c.tupleSet)
    (hlen : chunks.length + 1 < maxIteration)
    (hpolicy : run sink stages pageSize chunks ≠ .error .runtimeError) :
    WritesExactlyOnce stages counting pageSize chunks ↔
      AllFit stages counting chunks (State.start pageSize) := by
  have hstart : Sane counting (State.start pageSize : State Out) :=
    ⟨by simp [State.start], by simp [State.start]⟩
  have hrows : ((chunks.filterMap fun c => passed stages c.stageThrows c.tupleSet).map counting.rows).sum =
      (chunks.map (chunkRows counting stages)).sum := by
    clear hchunks hlen hpolicy
    induction chunks with
    | nil => rfl
    | cons c chunks ih =>
      rw [List.filterMap_cons, List.map_cons, List.sum_cons, ← ih, chunkRows]
      cases passed stages c.stageThrows c.tupleSet <;> simp
  cases looped hstages hchunks hstart with
  | aborted hr => exact absurd (by simp [run, hr, Except.map]) hpolicy
  | escaped hr hno =>
    constructor
    · rintro ⟨pages, hrun, -⟩
      simp [run, hr, Except.map] at hrun
    · intro hyes
      exact absurd hyes hno
  | done s' gone hr hsane hit hstored hfit =>
    have hfinal : (s'.addPage.cleanPipeline.finished.map counting.held).sum = stored counting s' := by
      have hclean : ∀ page ∈ s'.addPage.unwrittenPages, page.iteration + 1 < maxIteration := by
        intro page hp
        have hle : page.iteration ≤ s'.iteration := hsane.addPage.recent page hp
        have hzero : (State.start pageSize : State Out).iteration = 0 := rfl
        omega
      have hsum := stored_cleanPipeline counting hclean
      rw [stored_addPage] at hsum
      simpa [State.addPage, ramRows] using hsum
    have hzero : stored counting (State.start pageSize : State Out) = 0 := by
      simp [stored, State.start, pageRows, ramRows]
    rw [hzero, zero_add] at hstored
    rw [hfit]
    constructor
    · rintro ⟨pages, hrun, hexact⟩
      simp only [run, hr, Except.map, Except.ok.injEq] at hrun
      subst hrun
      rw [hfinal, hrows, ← hstored] at hexact
      exact left_eq_add.mp hexact
    · intro hgone
      refine ⟨_, by simp [run, hr, Except.map]; rfl, ?_⟩
      rw [hfinal, hrows, ← hstored, hgone, add_zero]

end Correctness

theorem writesExactlyOnce_iff (pageSize : ℕ) :
    (∀ (α : Type) (stages : List (List α → List α)) (chunks : List (Chunk (List α) (ℕ → Bool))),
      chunks.length + 1 < maxIteration →
      run (VectorSink.sink α) stages pageSize chunks ≠ .error .runtimeError →
      (WritesExactlyOnce stages (VectorSink.counting α) pageSize chunks ↔
        AllFit stages (VectorSink.counting α) chunks (State.start pageSize))) ∧
    (∀ (α : Type) [Inhabited α] (n : ℕ) [NeZero n] (atts : List ℕ) (hn : atts.Nodup)
      (stages : List (JoinSink.TupleSet α → JoinSink.TupleSet α))
      (chunks : List (Chunk (JoinSink.TupleSet α) (ℕ → PdbJoinMap.JoinRoom))),
      chunks.length + 1 < maxIteration →
      run (JoinSink.sink n atts) stages pageSize chunks ≠ .error .runtimeError →
      (WritesExactlyOnce stages (JoinSink.counting n atts hn) pageSize chunks ↔
        AllFit stages (JoinSink.counting n atts hn) chunks (State.start pageSize))) ∧
    (∀ (K R : Type) [DecidableEq K] (hash : K → ℕ) (n : ℕ) [NeZero n]
      (stages : List (Preaggregation.Columns K (List R) → Preaggregation.Columns K (List R)))
      (chunks : List (Chunk (Preaggregation.Columns K (List R)) (ℕ → Room))),
      (∀ q ∈ stages, ∀ t, (PreaggregationSink.counting hash n).WellFormed t →
        (PreaggregationSink.counting hash n).WellFormed (q t)) →
      (∀ c ∈ chunks, (PreaggregationSink.counting hash n).WellFormed c.tupleSet) →
      chunks.length + 1 < maxIteration →
      run (PreaggregationSink.sink hash n) stages pageSize chunks ≠ .error .runtimeError →
      (WritesExactlyOnce stages (PreaggregationSink.counting hash n) pageSize chunks ↔
        AllFit stages (PreaggregationSink.counting hash n) chunks (State.start pageSize))) := by
  refine ⟨?_, ?_, ?_⟩
  · intro α stages chunks hlen hpolicy
    exact writesExactlyOnce_iff_allFit (fun _ _ _ _ => trivial) pageSize (fun _ _ => trivial) hlen hpolicy
  · intro α _ n _ atts hn stages chunks hlen hpolicy
    exact writesExactlyOnce_iff_allFit (fun _ _ _ _ => trivial) pageSize (fun _ _ => trivial) hlen hpolicy
  · intro K R _ hash n _ stages chunks hstages hchunks hlen hpolicy
    exact writesExactlyOnce_iff_allFit hstages pageSize hchunks hlen hpolicy

def threeRows (first second : ℕ) : Chunk (List ℕ) (ℕ → Bool) :=
  ⟨[10, 20, 30], [(true, false)], false, (· == first), false, (· == second), 4000, 3000, 2000⟩

theorem writesExactlyOnce_two_pages : WritesExactlyOnce [id] (VectorSink.counting ℕ) 4096 [threeRows 1 9] := by
  apply ((writesExactlyOnce_iff 4096).1 ℕ [id] [threeRows 1 9] (by decide) (by decide)).mpr
  exact ⟨⟨rfl, Or.inr id⟩, fun _ _ => trivial⟩

theorem not_writesExactlyOnce_three_pages :
    run (VectorSink.sink ℕ) [id] 4096 [threeRows 1 1] = .error .notEnoughSpace ∧
      ¬ WritesExactlyOnce [id] (VectorSink.counting ℕ) 4096 [threeRows 1 1] := by
  have hrun : run (VectorSink.sink ℕ) [id] 4096 [threeRows 1 1] = .error .notEnoughSpace := by decide
  refine ⟨hrun, ?_⟩
  rintro ⟨pages, hpages, -⟩
  rw [hrun] at hpages
  cases hpages

end PlinyCompute.PipelineRun
