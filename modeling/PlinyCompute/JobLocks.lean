import PlinyCompute.RangeSum
import PlinyCompute.SetLocks

namespace PlinyCompute.JobLocks

open SetLocks Transition
open Function (update update_eq_self update_idem update_of_ne update_self)

structure Job where
  setsToMaterialize : List SetName
  scanningSets : List SetName

abbrev Request := SetLock

def Job.requests (job : Job) : List Request :=
  job.setsToMaterialize.map (fun set => ⟨set, .writingData⟩) ++ job.scanningSets.map fun set => ⟨set, .readingData⟩

inductive Phase
  | acquiring (pending : List Request) (locks : List SetLock)
  -- in the wait of `useSet`, with the lock object of the last attempt
  | waiting (request : Request) (pending : List Request) (locks : List SetLock) (setLock : SetLock) (notified : Bool)
  | releasing (locks : List SetLock)
  | finished
  deriving DecidableEq

structure World where
  setStates : SetStates
  owner : Option ℕ
  phase : ℕ → Phase

inductive Stuck
  | mutex
  | notNotified
  | finished
  | stop (e : Stop)
  deriving DecidableEq

def Phase.notify : Phase → Phase
  | .waiting request pending locks setLock _ => .waiting request pending locks setLock true
  | p => p

def World.step (spurious : Bool) (j : ℕ) (w : World) : Except Stuck World :=
  match w.phase j with
  | .acquiring [] locks => .ok { w with phase := update w.phase j (.releasing locks) }
  | .acquiring (request :: pending) locks =>
    if w.owner ≠ none then .error .mutex
    else
      match tryUsingSet request.set request.state w.setStates with
      | .error e => .error (.stop e)
      | .ok (l, setStates) =>
        if l.isGranted then
          .ok { w with
            setStates := setStates
            phase := update w.phase j (.acquiring pending (locks ++ [l])) }
        else
          .ok { w with
            setStates := setStates
            phase := update w.phase j (.waiting request pending locks l false) }
  | .waiting request pending locks setLock notified =>
    if w.owner ≠ none then .error .mutex
    else if notified = false ∧ spurious = false then .error .notNotified
    else
      match tryUsingSet request.set request.state w.setStates with
      | .error e => .error (.stop e)
      | .ok (l, setStates) =>
        match destroy true setLock setStates with
        | .error .blocked => .ok { w with setStates := setStates, owner := some j }
        | .error e => .error (.stop e)
        | .ok setStates =>
          if l.isGranted then
            .ok { w with
              setStates := setStates
              phase := update w.phase j (.acquiring pending (locks ++ [l])) }
          else
            .ok { w with
              setStates := setStates
              phase := update w.phase j (.waiting request pending locks l false) }
  | .releasing [] => .ok { w with phase := update w.phase j .finished }
  | .releasing (l :: locks) =>
    if w.owner ≠ none then .error .mutex
    else
      match destroy false l w.setStates with
      | .error e => .error (.stop e)
      | .ok setStates =>
        .ok { w with
          setStates := setStates
          phase := fun k => (update w.phase j (.releasing locks) k).notify }
  | .finished => .error .finished

def start (jobs : List Job) : World where
  setStates := fun _ => .unused
  owner := none
  phase j := match jobs[j]? with
    | some job => .acquiring job.requests []
    | none => .finished

def Starts (jobs : List Job) (w : World) : Prop := w = start jobs

def Deadlock (spurious : Bool) (w : World) : Prop :=
  (∃ j, w.phase j ≠ .finished) ∧ ∀ j w', w.step spurious j ≠ .ok w'

def Phase.locks : Phase → List SetLock
  | .acquiring _ locks => locks
  | .waiting _ _ locks _ _ => locks
  | .releasing locks => locks
  | .finished => []

section

variable (n : ℕ) (phase : ℕ → Phase)

def held : SetLock → ℕ := fun l => ∑ j ∈ Finset.range n, (phase j).locks.count l

variable {n}

theorem held_update {j : ℕ} (hj : j < n) (p : Phase) (l : SetLock) :
    held n (update phase j p) l + (phase j).locks.count l = held n phase l + p.locks.count l :=
  RangeSum.sum_update phase (fun p => p.locks.count l) hj p

variable {phase}

theorem held_grant {j : ℕ} (hj : j < n) {p : Phase} {l : SetLock} (hp : p.locks = (phase j).locks ++ [l]) :
    held n (update phase j p) = grant (held n phase) l := by
  funext x
  have h := held_update phase hj p x
  rw [hp] at h
  have hcount := congrFun (alive_append (phase j).locks l) x
  unfold alive at hcount
  by_cases hx : x = l
  · subst hx
    simp only [grant, update_self] at hcount ⊢
    omega
  · simp only [grant, update_of_ne hx] at hcount ⊢
    omega

theorem held_release {j : ℕ} (hj : j < n) {p : Phase} {l : SetLock} (hp : (phase j).locks = l :: p.locks) :
    held n (update phase j p) = release (held n phase) l := by
  funext x
  have h := held_update phase hj p x
  rw [hp, List.count_cons] at h
  by_cases hx : x = l
  · subst hx
    simp only [release, update_self, beq_self_eq_true, if_true] at h ⊢
    omega
  · have hl : ¬ (l == x) = true := by
      rw [beq_iff_eq]
      exact fun he => hx he.symm
    rw [if_neg hl] at h
    simp only [release, update_of_ne hx]
    omega

theorem held_same {j : ℕ} (hj : j < n) {p : Phase} (hp : p.locks = (phase j).locks) :
    held n (update phase j p) = held n phase := by
  funext x
  have h := held_update phase hj p x
  rw [hp] at h
  omega

theorem held_notify : held n (fun k => (phase k).notify) = held n phase := by
  funext x
  apply Finset.sum_congr rfl
  intro k _
  dsimp only
  cases phase k <;> rfl

theorem le_held {j : ℕ} (hj : j < n) (l : SetLock) : (phase j).locks.count l ≤ held n phase l :=
  Finset.single_le_sum (f := fun k => (phase k).locks.count l) (fun _ _ => Nat.zero_le _) (Finset.mem_range.mpr hj)

theorem exists_of_held {l : SetLock} (h : 0 < held n phase l) : ∃ j < n, l ∈ (phase j).locks := by
  obtain ⟨j, hj, hpos⟩ := Finset.exists_ne_zero_of_sum_ne_zero (Nat.ne_of_gt h)
  exact ⟨j, Finset.mem_range.mp hj, List.count_pos_iff.mp (Nat.pos_of_ne_zero hpos)⟩

end

def Job.requestsLock (job : Job) (l : SetLock) : Prop :=
  l.state = .writingData ∧ l.set ∈ job.setsToMaterialize ∨ l.state = .readingData ∧ l.set ∈ job.scanningSets

theorem Job.mem_requests {job : Job} {l : SetLock} : l ∈ job.requests ↔ job.requestsLock l := by
  obtain ⟨set, state⟩ := l
  simp only [Job.requests, Job.requestsLock, List.mem_append, List.mem_map, SetLock.mk.injEq]
  constructor
  · rintro (⟨s, hs, rfl, rfl⟩ | ⟨s, hs, rfl, rfl⟩)
    · exact .inl ⟨rfl, hs⟩
    · exact .inr ⟨rfl, hs⟩
  · rintro (⟨rfl, hs⟩ | ⟨rfl, hs⟩)
    · exact .inl ⟨set, hs, rfl, rfl⟩
    · exact .inr ⟨set, hs, rfl, rfl⟩

theorem Job.requestsLock.requestable {job : Job} {l : SetLock} (h : job.requestsLock l) : Requestable l.state := by
  rcases h with ⟨h, -⟩ | ⟨h, -⟩
  · exact .inr (.inl h)
  · exact .inl h

inductive Moving (job : Job) : Phase → Prop
  | acquiring (pending : List Request) (locks : List SetLock) (hp : ∀ l ∈ pending, job.requestsLock l)
      (hl : ∀ l ∈ locks, job.requestsLock l) : Moving job (.acquiring pending locks)
  | releasing (locks : List SetLock) (hl : ∀ l ∈ locks, job.requestsLock l) : Moving job (.releasing locks)
  | finished : Moving job .finished

theorem Moving.locks {job : Job} {p : Phase} (h : Moving job p) : ∀ l ∈ p.locks, job.requestsLock l := by
  cases h with
  | acquiring _ _ _ hl => exact hl
  | releasing _ hl => exact hl
  | finished =>
    intro l hl
    cases hl

theorem Moving.notify {job : Job} {p : Phase} (h : Moving job p) : Moving job p.notify := by
  cases h with
  | acquiring pending locks hp hl => exact .acquiring pending locks hp hl
  | releasing locks hl => exact .releasing locks hl
  | finished => exact .finished

structure Free (jobs : List Job) (w : World) : Prop where
  owner : w.owner = none
  counted : Counted w.setStates (held jobs.length w.phase)
  moving : ∀ j job, jobs[j]? = some job → Moving job (w.phase j)
  outside : ∀ j, jobs[j]? = none → w.phase j = .finished

theorem free_start (jobs : List Job) : Free jobs (start jobs) := by
  constructor
  · rfl
  · have hzero : held jobs.length (start jobs).phase = fun _ => 0 := by
      funext l
      apply Finset.sum_eq_zero
      intro j _
      cases hj : jobs[j]? <;> simp [start, hj, Phase.locks]
    rw [hzero]
    exact counted_unused
  · intro j job hj
    simp only [start, hj]
    exact .acquiring _ _ (fun l hl => Job.mem_requests.mp hl) (by simp)
  · intro j hj
    simp [start, hj]

section

variable {jobs : List Job} {spurious : Bool} {w w' : World} {j : ℕ} {job : Job}

theorem Free.update (h : Free jobs w) (hj : jobs[j]? = some job) {setStates : SetStates} {p : Phase}
    (hc : Counted setStates (held jobs.length (Function.update w.phase j p))) (hp : Moving job p) :
    Free jobs { w with setStates := setStates, phase := Function.update w.phase j p } := by
  refine ⟨h.owner, hc, ?_, ?_⟩
  · intro k job' hk
    by_cases hkj : k = j
    · subst hkj
      rw [hj, Option.some.injEq] at hk
      subst hk
      simpa using hp
    · simpa [Function.update_of_ne hkj] using h.moving k job' hk
  · intro k hk
    have hkj : k ≠ j := by
      rintro rfl
      rw [hj] at hk
      cases hk
    simpa [Function.update_of_ne hkj] using h.outside k hk

theorem Free.acquire (spurious : Bool) (h : Free jobs w) (hj : jobs[j]? = some job) {request : Request} {pending : List Request}
    {locks : List SetLock} (hw : w.phase j = .acquiring (request :: pending) locks) :
    ∃ w', w.step spurious j = .ok w' ∧
      ((w.setStates request.set).Admits request.state ∧ Free jobs w' ∧
          w'.phase = Function.update w.phase j (.acquiring pending (locks ++ [request])) ∨
        ¬ (w.setStates request.set).Admits request.state ∧
          w'.phase j = .waiting request pending locks ⟨request.set, .none⟩ false) := by
  have hlt : j < jobs.length := (List.getElem?_eq_some_iff.mp hj).1
  have hmove := h.moving j job hj
  rw [hw] at hmove
  cases hmove with
  | acquiring _ _ hp hl =>
    have hreq := hp request (by simp)
    rw [World.step, hw]
    dsimp only
    rw [if_neg (by simp [h.owner])]
    rcases h.counted.tryUsingSet request.set hreq.requestable with ⟨ha, setStates, hrun, hc⟩ | ⟨ha, hrun⟩
    · have hg : (⟨request.set, request.state⟩ : SetLock).isGranted = true := by
        rcases hreq.requestable with hr | hr | hr <;> simp [SetLock.isGranted, hr]
      rw [hrun]
      dsimp only
      rw [if_pos hg]
      refine ⟨_, rfl, .inl ⟨ha, h.update hj ?_ (.acquiring _ _ ?_ ?_), rfl⟩⟩
      · rw [held_grant hlt (by rw [hw]; rfl)]
        exact hc
      · exact fun l hl => hp l (List.mem_cons_of_mem _ hl)
      · intro l hm
        rcases List.mem_append.mp hm with hm | hm
        · exact hl l hm
        · rw [List.mem_singleton.mp hm]
          exact hreq
    · rw [hrun]
      exact ⟨_, rfl, .inr ⟨ha, by simp⟩⟩

theorem Free.notify (h : Free jobs w) : Free jobs { w with phase := fun k => (w.phase k).notify } := by
  refine ⟨h.owner, ?_, fun k job hk => (h.moving k job hk).notify, ?_⟩
  · rw [held_notify]
    exact h.counted
  · intro k hk
    simp [h.outside k hk, Phase.notify]

theorem Free.release (spurious : Bool) (h : Free jobs w) (hj : jobs[j]? = some job) {l : SetLock} {locks : List SetLock}
    (hw : w.phase j = .releasing (l :: locks)) : ∃ w', w.step spurious j = .ok w' ∧ Free jobs w' := by
  have hlt : j < jobs.length := (List.getElem?_eq_some_iff.mp hj).1
  have hl := (h.moving j job hj).locks
  rw [hw] at hl
  have hpos : 0 < held jobs.length w.phase l := by
    apply Nat.lt_of_lt_of_le _ (le_held hlt l)
    rw [hw]
    exact List.count_pos_iff.mpr (by simp [Phase.locks])
  obtain ⟨setStates, hrun, hc⟩ := h.counted.finishUsingSet (hl l (by simp [Phase.locks])).requestable hpos
  rw [World.step, hw]
  dsimp only
  rw [if_neg (by simp [h.owner]), destroy, if_neg (by simp), hrun]
  refine ⟨_, rfl, Free.notify (h.update hj ?_ (.releasing locks fun x hx => hl x ?_))⟩
  · rw [held_release hlt (by rw [hw]; rfl)]
    exact hc
  · exact List.mem_cons_of_mem _ hx

theorem Free.exists_step (spurious : Bool) (h : Free jobs w) (hj : w.phase j ≠ .finished) :
    ∃ w', w.step spurious j = .ok w' ∧ (Free jobs w' ∨ ∃ job ∈ jobs, ∃ l, job.requestsLock l ∧
      ¬ (w.setStates l.set).Admits l.state) := by
  cases hjob : jobs[j]? with
  | none => exact absurd (h.outside j hjob) hj
  | some job =>
    have hlt : j < jobs.length := (List.getElem?_eq_some_iff.mp hjob).1
    have hmove := h.moving j job hjob
    generalize hw : w.phase j = p at hmove hj
    cases hmove with
    | acquiring pending locks hp hl =>
      cases pending with
      | nil =>
        refine ⟨{ w with phase := Function.update w.phase j (.releasing locks) }, by rw [World.step, hw], .inl ?_⟩
        apply h.update hjob _ (.releasing locks hl)
        rw [held_same hlt (by rw [hw]; rfl)]
        exact h.counted
      | cons request pending =>
        obtain ⟨w', hrun, ⟨-, hfree, -⟩ | ⟨hn, -⟩⟩ := h.acquire spurious hjob hw
        · exact ⟨w', hrun, .inl hfree⟩
        · exact ⟨w', hrun, .inr ⟨job, List.mem_of_getElem? hjob, request, hp request (by simp), hn⟩⟩
    | releasing locks hl =>
      cases locks with
      | nil =>
        refine ⟨{ w with phase := Function.update w.phase j .finished }, by rw [World.step, hw], .inl ?_⟩
        apply h.update hjob _ .finished
        rw [held_same hlt (by rw [hw]; rfl)]
        exact h.counted
      | cons l locks =>
        obtain ⟨w', hrun, hfree⟩ := h.release spurious hjob hw
        exact ⟨w', hrun, .inl hfree⟩
    | finished => exact absurd rfl hj

def Compatible (jobs : List Job) : Prop :=
  ∀ a ∈ jobs, ∀ b ∈ jobs, ∀ set ∈ a.setsToMaterialize, set ∉ b.scanningSets

instance (jobs : List Job) : Decidable (Compatible jobs) :=
  inferInstanceAs (Decidable (∀ a ∈ jobs, ∀ b ∈ jobs, ∀ set ∈ a.setsToMaterialize, set ∉ b.scanningSets))

theorem Free.exists_request (h : Free jobs w) {l : SetLock} (hl : 0 < held jobs.length w.phase l) :
    ∃ job ∈ jobs, job.requestsLock l := by
  obtain ⟨j, hlt, hm⟩ := exists_of_held hl
  have hj := List.getElem?_eq_getElem hlt
  exact ⟨_, List.getElem_mem hlt, (h.moving j _ hj).locks l hm⟩

theorem Free.admits (h : Free jobs w) (hc : Compatible jobs) (hjob : job ∈ jobs) {l : SetLock}
    (hl : job.requestsLock l) : (w.setStates l.set).Admits l.state := by
  have hset := h.counted l.set
  generalize hr : w.setStates l.set = r at hset
  generalize h1 : held jobs.length w.phase ⟨l.set, .readingData⟩ = readers at hset
  generalize h2 : held jobs.length w.phase ⟨l.set, .writingData⟩ = writers at hset
  generalize h3 : held jobs.length w.phase ⟨l.set, .clearingData⟩ = clearers at hset
  cases hset with
  | idle => exact .inl rfl
  | reading n =>
    obtain ⟨b, hb, ⟨hs, -⟩ | ⟨-, hscan⟩⟩ := h.exists_request (l := ⟨l.set, .readingData⟩) (by omega)
    · cases hs
    · rcases hl with ⟨-, hm⟩ | ⟨hs, -⟩
      · exact absurd hscan (hc job hjob b hb _ hm)
      · exact .inr (by simp [hs])
  | writing n =>
    obtain ⟨b, hb, ⟨-, hm⟩ | ⟨hs, -⟩⟩ := h.exists_request (l := ⟨l.set, .writingData⟩) (by omega)
    · rcases hl with ⟨hs, -⟩ | ⟨-, hscan⟩
      · exact .inr (by simp [hs])
      · exact absurd hscan (hc b hb job hjob _ hm)
    · cases hs
  | clearing =>
    obtain ⟨b, hb, ⟨hs, -⟩ | ⟨hs, -⟩⟩ := h.exists_request (l := ⟨l.set, .clearingData⟩) (by omega)
    · cases hs
    · cases hs

theorem free_of_reachable (hc : Compatible jobs) {w : World}
    (hw : Reachable (World.step spurious) (fun _ _ => True) (Starts jobs) w) : Free jobs w := by
  apply hw.invariant
  · rintro w rfl
    exact free_start jobs
  · intro j w w' h _ hs
    have hj : w.phase j ≠ .finished := by
      intro hf
      rw [World.step, hf] at hs
      cases hs
    obtain ⟨w'', hrun, hfree | ⟨job, hjob, l, hl, hn⟩⟩ := h.exists_step spurious hj
    · rw [hrun] at hs
      cases hs
      exact hfree
    · exact absurd (h.admits hc hjob hl) hn

theorem not_deadlock (hc : Compatible jobs) (hw : Reachable (World.step spurious) (fun _ _ => True) (Starts jobs) w) :
    ¬ Deadlock spurious w := by
  rintro ⟨⟨j, hj⟩, hstuck⟩
  obtain ⟨w', hrun, -⟩ := (free_of_reachable hc hw).exists_step spurious hj
  exact hstuck j w' hrun

end

def Phase.rank : Phase → ℕ
  | .acquiring pending locks => 2 * pending.length + locks.length + 2
  | .waiting _ pending locks _ _ => 2 * pending.length + locks.length + 3
  | .releasing locks => locks.length + 1
  | .finished => 0

@[simp] theorem Phase.rank_notify (p : Phase) : p.notify.rank = p.rank := by
  cases p <;> rfl

def World.rank (n : ℕ) (w : World) : ℕ := ∑ k ∈ Finset.range n, (w.phase k).rank + if w.owner = none then 1 else 0

def Bounded (n : ℕ) (w : World) : Prop := ∀ j, n ≤ j → w.phase j = .finished

def Phase.isWaiting : Phase → Bool
  | .waiting _ _ _ _ _ => true
  | _ => false

@[simp] theorem Phase.isWaiting_notify (p : Phase) : p.notify.isWaiting = p.isWaiting := by
  cases p <;> rfl

inductive Moves (j : ℕ) (w w' : World) : Prop
  | phase (p : Phase) (hwait : (w.phase j).isWaiting = false) (hrank : p.rank < (w.phase j).rank)
      (ho : w'.owner = w.owner) (hp : w'.phase = update w.phase j p ∨
        w'.phase = fun k => (update w.phase j p k).notify)
  | blocks (hp : w'.phase = w.phase) (hfree : w.owner = none) (ho : w'.owner = some j)

section

variable {spurious : Bool} {w w' : World} {j : ℕ}

theorem moves_of_step (h : w.step spurious j = .ok w') : w.phase j ≠ .finished ∧ Moves j w w' := by
  rw [World.step] at h
  cases hp : w.phase j with
  | acquiring pending locks =>
    rw [hp] at h
    refine ⟨by simp, ?_⟩
    cases pending with
    | nil =>
      cases h
      exact .phase (.releasing locks) (by rw [hp]; rfl) (by simp [hp, Phase.rank]) rfl (.inl rfl)
    | cons request pending =>
      dsimp only at h
      split at h
      · cases h
      · cases hrun : tryUsingSet request.set request.state w.setStates with
        | error e => simp [hrun] at h
        | ok r =>
          rw [hrun] at h
          dsimp only at h
          split at h
          · cases h
            refine .phase (.acquiring pending (locks ++ [r.1])) (by rw [hp]; rfl) ?_ rfl (.inl rfl)
            simp only [hp, Phase.rank, List.length_append, List.length_cons, List.length_nil]
            omega
          · cases h
            refine .phase (.waiting request pending locks r.1 false) (by rw [hp]; rfl) ?_ rfl (.inl rfl)
            simp only [hp, Phase.rank, List.length_cons]
            omega
  | waiting request pending locks setLock notified =>
    rw [hp] at h
    refine ⟨by simp, ?_⟩
    dsimp only at h
    split at h
    · cases h
    · next ho =>
      split at h
      · cases h
      · cases hrun : tryUsingSet request.set request.state w.setStates with
        | error e => simp [hrun] at h
        | ok r =>
          rw [hrun] at h
          cases h
          exact .blocks rfl (by simpa using ho) rfl
  | releasing locks =>
    rw [hp] at h
    refine ⟨by simp, ?_⟩
    cases locks with
    | nil =>
      cases h
      exact .phase .finished (by rw [hp]; rfl) (by simp [hp, Phase.rank]) rfl (.inl rfl)
    | cons l locks =>
      dsimp only at h
      split at h
      · cases h
      · cases hrun : destroy false l w.setStates with
        | error e => simp [hrun] at h
        | ok setStates =>
          rw [hrun] at h
          cases h
          exact .phase (.releasing locks) (by rw [hp]; rfl) (by simp [hp, Phase.rank]) rfl (.inr rfl)
  | finished =>
    rw [hp] at h
    cases h

theorem Bounded.step {n : ℕ} (hb : Bounded n w) (h : w.step spurious j = .ok w') :
    Bounded n w' ∧ w'.rank n < w.rank n := by
  obtain ⟨hj, hm⟩ := moves_of_step h
  have hlt : j < n := by
    by_contra hn
    exact hj (hb j (Nat.le_of_not_lt hn))
  cases hm with
  | phase p _ hrank ho hp =>
    have hsum := RangeSum.sum_update w.phase Phase.rank hlt p
    have hrank' : ∀ k, (w'.phase k).rank = (update w.phase j p k).rank := by
      intro k
      rcases hp with hp | hp <;> simp [hp]
    constructor
    · intro k hk
      have hkj : k ≠ j := by omega
      have := hb k hk
      rcases hp with hp | hp <;> simp [hp, update_of_ne hkj, this, Phase.notify]
    · unfold World.rank
      rw [Finset.sum_congr rfl fun k _ => hrank' k, ho]
      omega
  | blocks hp hfree ho =>
    refine ⟨fun k hk => by rw [hp]; exact hb k hk, ?_⟩
    simp [World.rank, hp, hfree, ho]

theorem waiting_step {k : ℕ} (hw : (w.phase k).isWaiting = true) (h : w.step spurious j = .ok w') :
    (w'.phase k).isWaiting = true := by
  cases (moves_of_step h).2 with
  | phase p hwait _ _ hp =>
    have hkj : k ≠ j := by
      rintro rfl
      rw [hw] at hwait
      cases hwait
    rcases hp with hp | hp <;> simp [hp, update_of_ne hkj, hw]
  | blocks hp => rwa [hp]

theorem exists_deadlock {start : World → Prop} {n k : ℕ} (hw : Reachable (World.step spurious) (fun _ _ => True) start w)
    (hb : Bounded n w) (hk : (w.phase k).isWaiting = true) :
    ∃ w', Reachable (World.step spurious) (fun _ _ => True) start w' ∧ Deadlock spurious w' := by
  induction hr : w.rank n using Nat.strong_induction_on generalizing w with
  | _ r ih =>
    by_cases hstuck : ∀ j w', w.step spurious j ≠ .ok w'
    · refine ⟨w, hw, ⟨k, ?_⟩, hstuck⟩
      intro hf
      rw [hf] at hk
      cases hk
    · push Not at hstuck
      obtain ⟨j, w', hs⟩ := hstuck
      obtain ⟨hb', hlt⟩ := hb.step hs
      exact ih _ (hr ▸ hlt) (hw.step trivial hs) hb' (waiting_step hk hs) rfl

variable {jobs : List Job} {job : Job}

theorem bounded_of_reachable (hw : Reachable (World.step spurious) (fun _ _ => True) (Starts jobs) w) :
    Bounded jobs.length w := by
  apply hw.invariant
  · rintro w rfl j hj
    simp [start, List.getElem?_eq_none hj]
  · intro j w w' hb _ hs
    exact (hb.step hs).1

theorem Free.acquire_all (h : Free jobs w) (hw : Reachable (World.step spurious) (fun _ _ => True) (Starts jobs) w)
    (hj : jobs[j]? = some job) {pending : List Request} {locks : List SetLock}
    (hp : w.phase j = .acquiring pending locks) :
    ∃ w', Reachable (World.step spurious) (fun _ _ => True) (Starts jobs) w' ∧
      ((w'.phase j).isWaiting = true ∨
        Free jobs w' ∧ w'.phase = Function.update w.phase j (.acquiring [] (locks ++ pending))) := by
  induction pending generalizing w locks with
  | nil =>
    refine ⟨w, hw, .inr ⟨h, ?_⟩⟩
    rw [List.append_nil, ← hp, update_eq_self]
  | cons request pending ih =>
    obtain ⟨w₁, hrun, ⟨-, hfree, hphase⟩ | ⟨-, hphase⟩⟩ := h.acquire spurious hj hp
    · have hp₁ : w₁.phase j = .acquiring pending (locks ++ [request]) := by rw [hphase, update_self]
      obtain ⟨w', hw', hend⟩ := ih hfree (hw.step trivial hrun) hp₁
      refine ⟨w', hw', hend.imp_right ?_⟩
      rintro ⟨hfree', hphase'⟩
      refine ⟨hfree', ?_⟩
      rw [hphase', hphase, update_idem, List.append_assoc]
      rfl
    · exact ⟨w₁, hw.step trivial hrun, .inl (by rw [hphase]; rfl)⟩

theorem Free.not_both (h : Free jobs w) (set : SetName) :
    ¬ (0 < held jobs.length w.phase ⟨set, .writingData⟩ ∧ 0 < held jobs.length w.phase ⟨set, .readingData⟩) := by
  rintro ⟨hwrite, hread⟩
  have hset := h.counted set
  generalize w.setStates set = r at hset
  generalize held jobs.length w.phase ⟨set, .readingData⟩ = readers at hset hread
  generalize held jobs.length w.phase ⟨set, .writingData⟩ = writers at hset hwrite
  generalize held jobs.length w.phase ⟨set, .clearingData⟩ = clearers at hset
  cases hset <;> omega

theorem held_of_acquired {phase : ℕ → Phase} (hj : jobs[j]? = some job) {l : SetLock} (hl : job.requestsLock l)
    (hp : phase j = .acquiring [] job.requests) : 0 < held jobs.length phase l := by
  apply Nat.lt_of_lt_of_le _ (le_held (List.getElem?_eq_some_iff.mp hj).1 l)
  rw [hp]
  exact List.count_pos_iff.mpr (Job.mem_requests.mpr hl)

theorem exists_waiting (spurious : Bool) (hc : ¬ Compatible jobs) :
    ∃ w k, Reachable (World.step spurious) (fun _ _ => True) (Starts jobs) w ∧ (w.phase k).isWaiting = true := by
  unfold Compatible at hc
  push Not at hc
  obtain ⟨a, ha, b, hb, set, hm, hs⟩ := hc
  obtain ⟨i, hi⟩ := List.getElem?_of_mem ha
  obtain ⟨k, hk⟩ := List.getElem?_of_mem hb
  have hstart : Reachable (World.step spurious) (fun _ _ => True) (Starts jobs) (start jobs) := .start rfl
  have hwrite : a.requestsLock ⟨set, .writingData⟩ := .inl ⟨rfl, hm⟩
  have hread : b.requestsLock ⟨set, .readingData⟩ := .inr ⟨rfl, hs⟩
  have hi₀ : (start jobs).phase i = .acquiring a.requests [] := by simp [start, hi]
  have hk₀ : (start jobs).phase k = .acquiring b.requests [] := by simp [start, hk]
  obtain ⟨w₁, hw₁, hwait | ⟨hfree₁, hp₁⟩⟩ := (free_start jobs).acquire_all hstart hi hi₀
  · exact ⟨w₁, i, hw₁, hwait⟩
  · have hi₁ : w₁.phase i = .acquiring [] a.requests := by rw [hp₁, update_self, List.nil_append]
    by_cases hki : k = i
    · subst hki
      rw [hi, Option.some.injEq] at hk
      subst hk
      exact absurd ⟨held_of_acquired hi hwrite hi₁, held_of_acquired hi hread hi₁⟩ (hfree₁.not_both set)
    · have hk₁ : w₁.phase k = .acquiring b.requests [] := by rw [hp₁, update_of_ne hki, hk₀]
      obtain ⟨w₂, hw₂, hwait | ⟨hfree₂, hp₂⟩⟩ := hfree₁.acquire_all hw₁ hk hk₁
      · exact ⟨w₂, k, hw₂, hwait⟩
      · have hi₂ : w₂.phase i = .acquiring [] a.requests := by
          rw [hp₂, update_of_ne (fun he => hki he.symm), hi₁]
        have hk₂ : w₂.phase k = .acquiring [] b.requests := by rw [hp₂, update_self, List.nil_append]
        exact absurd ⟨held_of_acquired hi hwrite hi₂, held_of_acquired hk hread hk₂⟩ (hfree₂.not_both set)

theorem no_deadlock_iff (spurious : Bool) (jobs : List Job) :
    (∀ w, Reachable (World.step spurious) (fun _ _ => True) (Starts jobs) w → ¬ Deadlock spurious w) ↔
      Compatible jobs := by
  constructor
  · intro h
    by_contra hc
    obtain ⟨w, k, hw, hk⟩ := exists_waiting spurious hc
    obtain ⟨w', hw', hd⟩ := exists_deadlock hw (bounded_of_reachable hw) hk
    exact h w' hw' hd
  · exact fun hc w hw => not_deadlock hc hw

end

def crossedJobs : List Job :=
  let a : SetName := ("db".toList, "a".toList)
  let b : SetName := ("db".toList, "b".toList)
  [⟨[a], [b]⟩, ⟨[b], [a]⟩]

theorem deadlock_crossed :
    ∃ w, Reachable (World.step false) (fun _ _ => True) (Starts crossedJobs) w ∧ Deadlock false w := by
  refine ⟨_, .step (i := 1) (.step (i := 0) (.step (i := 1) (.step (i := 0) (.start rfl) trivial rfl) trivial rfl)
    trivial rfl) trivial rfl, ⟨0, nofun⟩, ?_⟩
  intro j w' hs
  match j with
  | 0 => cases hs
  | 1 => cases hs
  | j + 2 => cases hs

end PlinyCompute.JobLocks
