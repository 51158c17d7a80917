import PlinyCompute.RangeSum
import PlinyCompute.Transition

namespace PlinyCompute.CompletionBarrier

open Transition
open Function (update comp_def update_idem update_of_ne update_self)

inductive Group
  -- the aggregation or broadcast join pipelines, which run after the others but are started first
  | merging
  | selfReceiver
  | senders
  | pipelines
  deriving DecidableEq

inductive Instr
  | execute (g : Group) (i : ℕ)
  -- a null page is put into every queue
  | pushNull
  -- the loop that waits for the counter of a group
  | wait (g : Group)
  deriving DecidableEq

structure Run where
  size : Group → ℕ
  counter : Group → ℕ
  program : List Instr

inductive WorkerState
  | idle
  | running
  | ended
  deriving DecidableEq

structure World where
  program : List Instr
  counter : Group → ℕ
  worker : Group → ℕ → WorkerState
  nullPushed : Bool

inductive Event
  | main
  | finish (g : Group) (i : ℕ)

inductive Stop
  | returned
  | waiting
  | notRunning
  deriving DecidableEq

def buzz (g : Group) (count : ℕ) : ℕ :=
  match g with
  | .selfReceiver => 1
  | _ => count + 1

def Run.Passes (r : Run) (g : Group) (count : ℕ) : Prop :=
  match g with
  | .selfReceiver => count ≠ 0
  | g => r.size g ≤ count

instance (r : Run) (g : Group) (count : ℕ) : Decidable (r.Passes g count) := by
  unfold Run.Passes
  cases g <;> infer_instance

def World.setWorker (w : World) (g : Group) (i : ℕ) (s : WorkerState) : World :=
  { w with worker := update w.worker g (update (w.worker g) i s) }

def Run.step (r : Run) (e : Event) (w : World) : Except Stop World :=
  match e with
  | .main =>
    match w.program with
    | [] => .error .returned
    | .execute g i :: rest => .ok { w.setWorker g i .running with program := rest }
    | .pushNull :: rest => .ok { w with program := rest, nullPushed := true }
    | .wait g :: rest => if r.Passes g (w.counter g) then .ok { w with program := rest } else .error .waiting
  | .finish g i =>
    if w.worker g i = .running ∧ (g = .selfReceiver → w.nullPushed = true) then
      .ok { w.setWorker g i .ended with counter := update w.counter g (buzz g (w.counter g)) }
    else .error .notRunning

def Run.start (r : Run) : World := ⟨r.program, r.counter, fun _ _ => .idle, false⟩

def Run.Starts (r : Run) (w : World) : Prop := w = r.start

def executeAll (g : Group) (n : ℕ) : List Instr := (List.range n).map (.execute g)

def mergeRun (merging pipelines senders : ℕ) : Run where
  size
    | .merging => merging
    | .selfReceiver => 1
    | .senders => senders
    | .pipelines => pipelines
  counter
    | .senders => senders
    | _ => 0
  program := executeAll .merging merging ++ executeAll .selfReceiver 1 ++ executeAll .senders senders ++
    executeAll .pipelines pipelines ++
    [.wait .pipelines, .pushNull, .wait .selfReceiver, .wait .senders, .wait .merging]

def aggregationRun (aggregationPipelines preaggregationPipelines senders : ℕ) : Run :=
  mergeRun aggregationPipelines preaggregationPipelines senders

def broadcastForJoinRun (broadcastjoinPipelines prebroadcastjoinPipelines senders : ℕ) : Run :=
  mergeRun broadcastjoinPipelines prebroadcastjoinPipelines senders

def shuffleForJoinRun (joinShufflePipelines senders : ℕ) : Run where
  size
    | .merging => 0
    | .selfReceiver => 1
    | .senders => senders
    | .pipelines => joinShufflePipelines
  counter _ := 0
  program := executeAll .selfReceiver 1 ++ executeAll .senders senders ++ executeAll .pipelines joinShufflePipelines ++
    [.wait .pipelines, .pushNull, .wait .selfReceiver, .wait .senders]

def World.Returned (w : World) : Prop := w.program = []

def World.AllEnded (w : World) : Prop := ∀ g i, w.worker g i ≠ .running

def Run.Completes (r : Run) : Prop :=
  ∀ w, Reachable r.step (fun _ _ => True) r.Starts w → w.Returned → w.AllEnded

section

variable {r : Run}

theorem setWorker_self (w : World) (g : Group) (i : ℕ) (s : WorkerState) : (w.setWorker g i s).worker g i = s := by
  simp [World.setWorker]

theorem setWorker_of_ne (w : World) {g g' : Group} {i i' : ℕ} (s : WorkerState) (h : ¬ (g' = g ∧ i' = i)) :
    (w.setWorker g i s).worker g' i' = w.worker g' i' := by
  unfold World.setWorker
  by_cases hg : g' = g
  · subst hg
    have hi : i' ≠ i := fun hi => h ⟨rfl, hi⟩
    simp [hi]
  · simp [hg]

def World.ended (w : World) (g : Group) (n : ℕ) : ℕ := RangeSum.count n (w.worker g) (· = .ended)

structure Kept (r : Run) (w : World) : Prop where
  program : ∃ passed, r.program = passed ++ w.program ∧
    (∀ g, Instr.wait g ∈ passed → r.counter g = 0 → ∀ i < r.size g, w.worker g i = .ended) ∧
    ∀ g i, w.worker g i ≠ .idle → Instr.execute g i ∈ passed
  counted : ∀ g, g ≠ .selfReceiver → w.counter g = r.counter g + w.ended g (r.size g)
  received : w.counter .selfReceiver = 0 ∨ ∀ i < r.size .selfReceiver, w.worker .selfReceiver i = .ended

structure WellSized (r : Run) : Prop where
  nodup : r.program.Nodup
  bound : ∀ g i, Instr.execute g i ∈ r.program → i < r.size g
  selfReceiver : r.size .selfReceiver = 1 ∧ r.counter .selfReceiver = 0

theorem ended_setWorker (w : World) (g : Group) {i n : ℕ} (hi : i < n) (s : WorkerState) :
    (w.setWorker g i s).ended g n + (if w.worker g i = .ended then 1 else 0) =
      w.ended g n + if s = .ended then 1 else 0 := by
  unfold World.ended World.setWorker
  dsimp only
  rw [update_self]
  exact RangeSum.count_update hi s

theorem ended_setWorker_of_ne (w : World) {g g' : Group} (hg : g' ≠ g) (i n : ℕ) (s : WorkerState) :
    (w.setWorker g i s).ended g' n = w.ended g' n := by
  unfold World.ended World.setWorker
  dsimp only
  rw [update_of_ne hg]

theorem Kept.ended_of_passes {w : World} {g : Group} (h : Kept r w) (hz : r.counter g = 0)
    (hp : r.Passes g (w.counter g)) : ∀ i < r.size g, w.worker g i = .ended := by
  by_cases hg : g = .selfReceiver
  · subst hg
    exact h.received.resolve_left hp
  · have hcount := h.counted g hg
    have hle : r.size g ≤ w.counter g := by
      cases g with
      | selfReceiver => exact absurd rfl hg
      | _ => exact hp
    have hall : w.ended g (r.size g) = r.size g := by
      have := RangeSum.count_le (n := r.size g) (g := w.worker g) (q := (· = .ended))
      unfold World.ended at hcount ⊢
      omega
    exact RangeSum.count_eq_all.mp hall

theorem Kept.execute (hs : WellSized r) {w : World} {g : Group} {i : ℕ} {rest : List Instr} (h : Kept r w)
    (hp : w.program = .execute g i :: rest) : Kept r { w.setWorker g i .running with program := rest } := by
  obtain ⟨passed, hprog, hpassed, hstarted⟩ := h.program
  have hidle : w.worker g i = .idle := by
    by_contra hn
    have hnd := hs.nodup
    rw [hprog, hp, List.nodup_append] at hnd
    exact hnd.2.2 _ (hstarted g i hn) _ (by simp) rfl
  have hlt : i < r.size g := hs.bound g i (by rw [hprog, hp]; simp)
  have hended : ∀ g' i', (w.setWorker g i .running).worker g' i' = .ended ↔ w.worker g' i' = .ended := by
    intro g' i'
    by_cases he : g' = g ∧ i' = i
    · obtain ⟨rfl, rfl⟩ := he
      simp [setWorker_self, hidle]
    · rw [setWorker_of_ne w _ he]
  refine ⟨⟨passed ++ [.execute g i], by rw [hprog, hp]; simp, ?_, ?_⟩, ?_, ?_⟩
  · intro g' hg' hz i' hi'
    exact (hended g' i').mpr (hpassed g' (by simpa using hg') hz i' hi')
  · intro g' i' hne
    by_cases he : g' = g ∧ i' = i
    · obtain ⟨rfl, rfl⟩ := he
      simp
    · have hne' : w.worker g' i' ≠ .idle := by
        rw [← setWorker_of_ne w .running he]
        exact hne
      exact List.mem_append_left _ (hstarted g' i' hne')
  · intro g' hg'
    change w.counter g' = r.counter g' + (w.setWorker g i .running).ended g' (r.size g')
    rw [h.counted g' hg']
    by_cases hgg : g' = g
    · subst hgg
      have hcount := ended_setWorker w g' hlt .running
      simp only [hidle, reduceCtorEq, if_false] at hcount
      omega
    · rw [ended_setWorker_of_ne w hgg]
  · exact h.received.imp_right fun hall i' hi' => (hended _ _).mpr (hall i' hi')

theorem Kept.finish (hs : WellSized r) {w : World} {g : Group} {i : ℕ} (h : Kept r w)
    (hw : w.worker g i = .running) :
    Kept r { w.setWorker g i .ended with counter := update w.counter g (buzz g (w.counter g)) } := by
  obtain ⟨passed, hprog, hpassed, hstarted⟩ := h.program
  have hlt : i < r.size g := by
    apply hs.bound g i
    rw [hprog]
    exact List.mem_append_left _ (hstarted g i (by simp [hw]))
  have hkeep : ∀ g' i', w.worker g' i' = .ended → (w.setWorker g i .ended).worker g' i' = .ended := by
    intro g' i' he
    by_cases hc : g' = g ∧ i' = i
    · obtain ⟨rfl, rfl⟩ := hc
      exact setWorker_self ..
    · rwa [setWorker_of_ne w _ hc]
  refine ⟨⟨passed, hprog, ?_, ?_⟩, ?_, ?_⟩
  · exact fun g' hg' hz i' hi' => hkeep g' i' (hpassed g' hg' hz i' hi')
  · intro g' i' hne
    by_cases hc : g' = g ∧ i' = i
    · obtain ⟨rfl, rfl⟩ := hc
      exact hstarted g' i' (by simp [hw])
    · apply hstarted g' i'
      rw [← setWorker_of_ne w .ended hc]
      exact hne
  · intro g' hg'
    by_cases hgg : g' = g
    · subst hgg
      have hcount := ended_setWorker w g' hlt .ended
      have hbuzz : buzz g' (w.counter g') = w.counter g' + 1 := by
        cases g' with
        | selfReceiver => exact absurd rfl hg'
        | _ => rfl
      simp only [hw, reduceCtorEq, if_false, if_true] at hcount
      change update w.counter g' _ g' = r.counter g' + (w.setWorker g' i .ended).ended g' (r.size g')
      rw [update_self, hbuzz, h.counted g' hg']
      omega
    · change update w.counter g _ g' = r.counter g' + (w.setWorker g i .ended).ended g' (r.size g')
      rw [update_of_ne hgg, ended_setWorker_of_ne w hgg]
      exact h.counted g' hg'
  · by_cases hg : g = .selfReceiver
    · subst hg
      right
      intro k hk
      rw [hs.selfReceiver.1] at hk hlt
      obtain rfl : k = i := by omega
      exact setWorker_self w .selfReceiver k .ended
    · rcases h.received with hz | hall
      · left
        change update w.counter g _ .selfReceiver = 0
        rw [update_of_ne fun he => hg he.symm]
        exact hz
      · exact .inr fun k hk => hkeep _ k (hall k hk)

theorem Kept.step (hs : WellSized r) {w w' : World} {e : Event} (h : Kept r w) (hstep : r.step e w = .ok w') :
    Kept r w' := by
  obtain ⟨passed, hprog, hpassed, hstarted⟩ := h.program
  cases e with
  | main =>
    cases hp : w.program with
    | nil => simp [Run.step, hp] at hstep
    | cons instr rest =>
      have hsplit : r.program = (passed ++ [instr]) ++ rest := by rw [hprog, hp]; simp
      cases instr with
      | execute g i =>
        simp only [Run.step, hp, Except.ok.injEq] at hstep
        subst hstep
        exact h.execute hs hp
      | pushNull =>
        simp only [Run.step, hp, Except.ok.injEq] at hstep
        subst hstep
        refine ⟨⟨passed ++ [.pushNull], hsplit, ?_, ?_⟩, h.counted, h.received⟩
        · intro g hg hz
          exact hpassed g (by simpa using hg) hz
        · exact fun g i hi => List.mem_append_left _ (hstarted g i hi)
      | wait g =>
        simp only [Run.step, hp] at hstep
        split at hstep
        · next hpass =>
          cases hstep
          refine ⟨⟨passed ++ [.wait g], hsplit, ?_, ?_⟩, h.counted, h.received⟩
          · intro g' hg' hz
            rcases List.mem_append.mp hg' with hg' | hg'
            · exact hpassed g' hg' hz
            · simp only [List.mem_singleton, Instr.wait.injEq] at hg'
              subst hg'
              exact h.ended_of_passes hz hpass
          · exact fun g i hi => List.mem_append_left _ (hstarted g i hi)
        · cases hstep
  | finish g i =>
    simp only [Run.step] at hstep
    split at hstep
    · next hw =>
      cases hstep
      exact h.finish hs hw.1
    · cases hstep

theorem Run.completes_of_zero (hs : WellSized r) (hwait : ∀ g, r.size g ≠ 0 → Instr.wait g ∈ r.program)
    (hz : ∀ g, r.size g ≠ 0 → r.counter g = 0) : r.Completes := by
  intro w hw hret g i hrun
  have hk : Kept r w := by
    apply hw.invariant
    · rintro w rfl
      refine ⟨⟨[], rfl, by simp, by simp [Run.start]⟩, ?_, .inl hs.selfReceiver.2⟩
      intro g _
      have hzero : r.start.ended g (r.size g) = 0 := RangeSum.count_eq_zero.mpr fun i _ => nofun
      rw [hzero]
      rfl
    · exact fun e w w' hk _ hstep => hk.step hs hstep
  obtain ⟨passed, hprog, hpassed, hstarted⟩ := hk.program
  rw [hret, List.append_nil] at hprog
  have hlt : i < r.size g := hs.bound g i (hprog ▸ hstarted g i (by simp [hrun]))
  have hsize : r.size g ≠ 0 := by omega
  have := hpassed g (hprog ▸ hwait g hsize) (hz g hsize) i hlt
  rw [hrun] at this
  cases this

theorem step_wait {w : World} {g : Group} {rest : List Instr} (hp : w.program = .wait g :: rest)
    (hpass : r.Passes g (w.counter g)) : r.step .main w = .ok { w with program := rest } := by
  simp [Run.step, hp, hpass]

theorem step_finish {w : World} {g : Group} {i : ℕ} (hw : w.worker g i = .running)
    (hn : g = .selfReceiver → w.nullPushed = true) : r.step (.finish g i) w =
      .ok { w.setWorker g i .ended with counter := update w.counter g (buzz g (w.counter g)) } := by
  rw [Run.step]
  exact if_pos ⟨hw, hn⟩

theorem exists_executed {w : World} (hw : Reachable r.step (fun _ _ => True) r.Starts w) {instrs : List (Group × ℕ)}
    {rest : List Instr} (hp : w.program = instrs.map (fun x => .execute x.1 x.2) ++ rest) :
    ∃ w', Reachable r.step (fun _ _ => True) r.Starts w' ∧ w'.program = rest ∧ w'.counter = w.counter ∧
      ∀ g i, w.worker g i = .running ∨ (g, i) ∈ instrs → w'.worker g i = .running := by
  induction instrs generalizing w with
  | nil => exact ⟨w, hw, hp, rfl, by simp⟩
  | cons x instrs ih =>
    obtain ⟨g, i⟩ := x
    have hstep : r.step .main w = .ok { w.setWorker g i .running with
        program := instrs.map (fun x => .execute x.1 x.2) ++ rest } := by
      simp [Run.step, hp]
    obtain ⟨w', hw', hprog, hcount, hrun⟩ := ih (hw.step trivial hstep) rfl
    refine ⟨w', hw', hprog, hcount, ?_⟩
    intro g' i' hg'
    apply hrun
    by_cases he : g' = g ∧ i' = i
    · obtain ⟨rfl, rfl⟩ := he
      exact .inl (setWorker_self w g' i' .running)
    · rcases hg' with hg' | hg'
      · left
        change (w.setWorker g i .running).worker g' i' = .running
        rw [setWorker_of_ne w _ he, hg']
      · rw [List.mem_cons, Prod.mk.injEq] at hg'
        exact .inr (hg'.resolve_left he)

theorem exists_finished {w : World} (hw : Reachable r.step (fun _ _ => True) r.Starts w) {g : Group}
    (hg : g ≠ .selfReceiver) (n : ℕ) (hrun : ∀ i < n, w.worker g i = .running) :
    ∃ w', Reachable r.step (fun _ _ => True) r.Starts w' ∧ w'.program = w.program ∧ w'.nullPushed = w.nullPushed ∧
      w'.counter = update w.counter g (w.counter g + n) ∧
      ∀ g' i, g' ≠ g ∨ n ≤ i → w'.worker g' i = w.worker g' i := by
  induction n with
  | zero => exact ⟨w, hw, rfl, rfl, by simp, fun _ _ _ => rfl⟩
  | succ n ih =>
    obtain ⟨w', hw', hprog, hnull, hcount, hkeep⟩ := ih fun i hi => hrun i (Nat.lt_succ_of_lt hi)
    have hwn : w'.worker g n = .running := by rw [hkeep g n (.inr le_rfl), hrun n (Nat.lt_succ_self n)]
    refine ⟨_, hw'.step trivial (step_finish hwn fun he => absurd he hg), hprog, hnull, ?_, ?_⟩
    · have hbuzz : buzz g (w'.counter g) = w.counter g + (n + 1) := by
        rw [hcount, update_self]
        cases g with
        | selfReceiver => exact absurd rfl hg
        | _ => rfl
      dsimp only
      rw [hbuzz, hcount, update_idem]
    · intro g' i hi
      have hne : ¬ (g' = g ∧ i = n) := by
        rintro ⟨rfl, rfl⟩
        rcases hi with hi | hi
        · exact hi rfl
        · omega
      change (w'.setWorker g n .ended).worker g' i = w.worker g' i
      rw [setWorker_of_ne w' _ hne]
      apply hkeep
      exact hi.imp_right fun hi => by omega

end

def workersOf (g : Group) (n : ℕ) : List (Group × ℕ) := (List.range n).map fun i => (g, i)

theorem executeAll_eq (g : Group) (n : ℕ) : executeAll g n = (workersOf g n).map fun x => .execute x.1 x.2 := by
  simp [executeAll, workersOf, comp_def]

@[simp] theorem mem_workersOf {g g' : Group} {n i : ℕ} : (g', i) ∈ workersOf g n ↔ g' = g ∧ i < n := by
  simp only [workersOf, List.mem_map, List.mem_range, Prod.mk.injEq]
  constructor
  · rintro ⟨i, hi, rfl, rfl⟩
    exact ⟨rfl, hi⟩
  · rintro ⟨rfl, hi⟩
    exact ⟨i, hi, rfl, rfl⟩

@[simp] theorem mem_executeAll {x : Instr} {g : Group} {n : ℕ} :
    x ∈ executeAll g n ↔ ∃ i < n, x = .execute g i := by
  simp [executeAll, eq_comm]

theorem nodup_execute_append {g : Group} {n : ℕ} {l : List Instr} (h : l.Nodup) (hl : ∀ i, .execute g i ∉ l) :
    (executeAll g n ++ l).Nodup := by
  apply List.nodup_append.mpr
  refine ⟨?_, h, ?_⟩
  · apply List.nodup_range.map
    intro i j hij
    cases hij
    rfl
  · rintro x hx y hy rfl
    obtain ⟨i, -, rfl⟩ := mem_executeAll.mp hx
    exact hl i hy

section

variable {merging pipelines senders : ℕ}

theorem not_completes_mergeRun (hs : senders ≠ 0) : ¬ (mergeRun merging pipelines senders).Completes := by
  intro hall
  have hstart : Reachable (mergeRun merging pipelines senders).step (fun _ _ => True)
      (mergeRun merging pipelines senders).Starts (mergeRun merging pipelines senders).start := .start rfl
  have hprog : (mergeRun merging pipelines senders).start.program =
      (workersOf .merging merging ++ workersOf .selfReceiver 1 ++ workersOf .senders senders ++
        workersOf .pipelines pipelines).map (fun x => .execute x.1 x.2) ++
      [.wait .pipelines, .pushNull, .wait .selfReceiver, .wait .senders, .wait .merging] := by
    simp [Run.start, mergeRun, executeAll_eq]
  obtain ⟨w₁, hw₁, hp₁, hc₁, hr₁⟩ := exists_executed hstart hprog
  obtain ⟨w₂, hw₂, hp₂, -, hc₂, hk₂⟩ := exists_finished (g := .pipelines) hw₁ nofun pipelines fun i hi =>
    hr₁ _ _ (.inr (by simp [hi]))
  have hr₂ : ∀ g i, g ≠ .pipelines → w₁.worker g i = .running → w₂.worker g i = .running := by
    intro g i hg hi
    rw [hk₂ g i (.inl hg), hi]
  rw [hp₁] at hp₂
  have hpass₂ : (mergeRun merging pipelines senders).Passes .pipelines (w₂.counter .pipelines) := by
    simp [Run.Passes, mergeRun, hc₂]
  have hself : w₂.worker .selfReceiver 0 = .running := hr₂ _ _ nofun (hr₁ _ _ (.inr (by simp)))
  -- the pipelines have ended, the null pages are pushed and the self receiver ends
  have hw₃ := (hw₂.step trivial (step_wait hp₂ hpass₂)).step (i := .main) trivial rfl
  have hw₄ := hw₃.step trivial (step_finish hself fun _ => rfl)
  have hw₅ := hw₄.step trivial (step_wait rfl (by simp [Run.Passes, buzz]))
  -- the loop for the senders ends at once
  have hw₆ := hw₅.step trivial (step_wait rfl (by simp [Run.Passes, hc₂, hc₁, mergeRun, Run.start]))
  have hr₆ : ∀ g i, g ≠ .pipelines → g ≠ .selfReceiver → w₁.worker g i = .running →
      (w₂.setWorker .selfReceiver 0 .ended).worker g i = .running := by
    intro g i hp hg hi
    rw [setWorker_of_ne w₂ _ fun he => hg he.1, hr₂ g i hp hi]
  obtain ⟨w₇, hw₇, hp₇, -, hc₇, hk₇⟩ := exists_finished (g := .merging) hw₆ nofun merging fun i hi =>
    hr₆ .merging i nofun nofun (hr₁ _ _ (.inr (by simp [hi])))
  have hw₈ := hw₇.step trivial (step_wait hp₇ (by simp [Run.Passes, hc₇, mergeRun]))
  have hsender := hk₇ .senders 0 (.inl nofun)
  apply hall _ hw₈ rfl .senders 0
  exact hsender.trans (hr₆ .senders 0 nofun nofun (hr₁ _ _ (.inr (by simp; omega))))

theorem wellSized_mergeRun : WellSized (mergeRun merging pipelines senders) := by
  constructor
  · simp only [mergeRun, List.append_assoc]
    apply nodup_execute_append
    · apply nodup_execute_append
      · apply nodup_execute_append
        · exact nodup_execute_append (by decide) (by simp)
        · simp
      · simp
    · simp
  · intro g i hi
    simp only [mergeRun, List.mem_append, mem_executeAll, Instr.execute.injEq] at hi
    rcases hi with (((⟨i, hi, rfl, rfl⟩ | ⟨i, hi, rfl, rfl⟩) | ⟨i, hi, rfl, rfl⟩) | ⟨i, hi, rfl, rfl⟩) | hi
    · exact hi
    · exact hi
    · exact hi
    · exact hi
    · simp at hi
  · exact ⟨rfl, rfl⟩

theorem completes_mergeRun_iff : (mergeRun merging pipelines senders).Completes ↔ senders = 0 := by
  constructor
  · intro h
    by_contra hs
    exact not_completes_mergeRun hs h
  · rintro rfl
    apply Run.completes_of_zero wellSized_mergeRun
    · intro g _
      cases g <;> simp [mergeRun]
    · intro g hg
      cases g with
      | senders => exact absurd rfl hg
      | _ => rfl

theorem completes_shuffleForJoinRun : (shuffleForJoinRun pipelines senders).Completes := by
  apply Run.completes_of_zero
  · constructor
    · simp only [shuffleForJoinRun, List.append_assoc]
      apply nodup_execute_append
      · apply nodup_execute_append
        · exact nodup_execute_append (by decide) (by simp)
        · simp
      · simp
    · intro g i hi
      simp only [shuffleForJoinRun, List.mem_append, mem_executeAll, Instr.execute.injEq] at hi
      rcases hi with ((⟨i, hi, rfl, rfl⟩ | ⟨i, hi, rfl, rfl⟩) | ⟨i, hi, rfl, rfl⟩) | hi
      · exact hi
      · exact hi
      · exact hi
      · simp at hi
    · exact ⟨rfl, rfl⟩
  · intro g hg
    cases g with
    | merging => exact absurd rfl hg
    | _ => simp [shuffleForJoinRun]
  · exact fun _ _ => rfl

theorem completes_iff (pipelines prePipelines senders : ℕ) :
    (shuffleForJoinRun pipelines senders).Completes ∧
    ((aggregationRun pipelines prePipelines senders).Completes ↔ senders = 0) ∧
    ((broadcastForJoinRun pipelines prePipelines senders).Completes ↔ senders = 0) :=
  ⟨completes_shuffleForJoinRun, completes_mergeRun_iff, completes_mergeRun_iff⟩

theorem not_completes_two_nodes : ¬ (aggregationRun 1 1 1).Completes := not_completes_mergeRun (by decide)

end

end PlinyCompute.CompletionBarrier
