import Mathlib

namespace PlinyCompute.JobOutcome

structure SimpleRequestResult where
  res : Bool
  errMsg : String
  deriving DecidableEq

structure ExRunJob where
  shouldRun : Bool
  deriving DecidableEq

inductive PDBAlarm
  | workAllDone
  | genericError
  deriving DecidableEq

inductive PDBPhysicalAlgorithmType
  | shuffleForJoin
  | broadcastForJoin
  | distributedAggregation
  | straightPipe
  deriving DecidableEq

def PDBAlarm.mark (myAlarm : PDBAlarm) (success : Bool) : Bool :=
  match myAlarm with
  | .genericError => false
  | .workAllDone => success

inductive Part
  | pipeline
  -- the aggregation or broadcast join pipelines
  | merging
  | selfReceiver
  | sender
  deriving DecidableEq

/-- The end of a worker. A pipeline that has thrown clears the flag itself and reports that all is done. -/
def Part.finish (part : Part) (ok success : Bool) : Bool :=
  match part with
  | .pipeline | .merging => PDBAlarm.workAllDone.mark (if ok then success else false)
  | .selfReceiver | .sender => (if ok then PDBAlarm.workAllDone else .genericError).mark success

structure Outcome where
  setup : SimpleRequestResult
  pipelines : List Bool
  merging : List Bool
  selfReceiver : Bool
  senders : List Bool
  -- for each set: the sink page set is missing, or what `materializePageSet` returns
  materializations : List (Option Bool)

def Outcome.workers (algorithm : PDBPhysicalAlgorithmType) (o : Outcome) : List (Part × Bool) :=
  match algorithm with
  | .straightPipe => o.pipelines.map (.pipeline, ·)
  | .shuffleForJoin =>
    (.selfReceiver, o.selfReceiver) :: o.senders.map (.sender, ·) ++ o.pipelines.map (.pipeline, ·)
  | .broadcastForJoin | .distributedAggregation =>
    o.merging.map (.merging, ·) ++ (.selfReceiver, o.selfReceiver) :: o.senders.map (.sender, ·) ++
      o.pipelines.map (.pipeline, ·)

def Outcome.materialized (algorithm : PDBPhysicalAlgorithmType) (o : Outcome) : List (Option Bool) :=
  match algorithm with
  | .straightPipe | .distributedAggregation => o.materializations
  | .shuffleForJoin | .broadcastForJoin => []

def Outcome.Succeeded (algorithm : PDBPhysicalAlgorithmType) (o : Outcome) : Prop :=
  o.setup.res = true ∧ (∀ w ∈ o.workers algorithm, w.2 = true) ∧ ∀ m ∈ o.materialized algorithm, m = some true

instance (algorithm : PDBPhysicalAlgorithmType) (o : Outcome) : Decidable (o.Succeeded algorithm) := by
  unfold Outcome.Succeeded
  infer_instance

def materializeSets : List (Option Bool) → Bool → Bool
  | [], success => success
  | none :: _, _ => false
  | some result :: sets, success => materializeSets sets (result && success)

def flag (ended : List (Part × Bool)) : Bool := ended.foldl (fun success w => w.1.finish w.2 success) true

structure Returned where
  success : Bool
  result : Bool
  deriving DecidableEq

def run (algorithm : PDBPhysicalAlgorithmType) (ended : List (Part × Bool)) (sets : List (Option Bool)) : Returned :=
  match algorithm with
  | .straightPipe =>
    if flag ended then ⟨materializeSets sets (flag ended), materializeSets sets (flag ended)⟩
    else ⟨flag ended, flag ended⟩
  | .distributedAggregation => ⟨materializeSets sets (flag ended), true⟩
  | .broadcastForJoin | .shuffleForJoin => ⟨flag ended, true⟩

structure Handled where
  answers : List SimpleRequestResult
  ran : Option Returned

def ExecutionServerBackend.handle (setup : SimpleRequestResult) (ran : Returned) (result : Option ExRunJob) :
    Handled :=
  match result with
  | some ⟨true⟩ => ⟨[setup, setup], some ran⟩
  | _ => ⟨[setup], none⟩

structure Transport where
  -- the attempts of the manager to connect
  attempts : ℕ → Bool
  sendsJob : Bool
  connectsToBackend : Bool
  forwardsJob : Bool
  setupAnswered : Bool
  scheduleAnswered : Bool
  sendsRun : Bool
  runArrives : Bool
  forwardsRun : Bool
  runReachesBackend : Bool
  runAnswered : Bool
  jobAnswered : Bool

def waitResult (error : String) (result : Option SimpleRequestResult) : SimpleRequestResult :=
  match result with
  | some r => if r.res then ⟨true, error⟩ else ⟨false, "Error response from distributed-storage: " ++ r.errMsg⟩
  | none => ⟨false, error⟩

def arriving {α : Type} (arrives : Bool) (message : Option α) : Option α := if arrives then message else none

def ExecutionServerFrontend.handle (t : Transport) (backend : Option ExRunJob → Handled)
    (request : Option ExRunJob) : List SimpleRequestResult :=
  if t.connectsToBackend = false then [⟨false, ""⟩]
  else if t.forwardsJob = false then [⟨false, ""⟩]
  else
    let response := waitResult "" (arriving t.setupAnswered (backend none).answers.head?)
    -- the back end is told to abort
    if response.res = false then [response, ⟨false, response.errMsg⟩]
    else
      match arriving t.runArrives request with
      | none => [response]
      | some result =>
        if t.forwardsRun = false then [response, ⟨false, response.errMsg⟩]
        else
          let handled := backend (arriving t.runReachesBackend (some result))
          [response, waitResult response.errMsg (arriving t.runAnswered handled.answers[1]?)]

def connect (maxRetries : ℕ) (attempts : ℕ → Bool) (numRetries : ℕ) : Bool :=
  if attempts numRetries then true
  else if numRetries + 1 < maxRetries then connect maxRetries attempts (numRetries + 1)
  else false
termination_by maxRetries - numRetries

def scheduleJob (sent : Bool) (result : Option SimpleRequestResult) : Bool :=
  if sent = false then false else result.isSome

def runScheduledJob (sent : Bool) (result : Option SimpleRequestResult) : Bool :=
  if sent = false then false else result.isSome

def nodeWork (maxRetries : ℕ) (t : Transport) (frontend : Option ExRunJob → List SimpleRequestResult) : PDBAlarm :=
  if connect maxRetries t.attempts 0 = false then .genericError
  else if scheduleJob t.sendsJob (arriving t.scheduleAnswered (frontend none).head?) = false then .genericError
  else if runScheduledJob t.sendsRun (arriving t.jobAnswered (frontend (some ⟨true⟩))[1]?) = false then .genericError
  else .workAllDone

def executeJob (updates : List Bool) (alarms : List PDBAlarm) : Bool :=
  alarms.foldl (fun success myAlarm => myAlarm.mark success)
    (updates.foldl (fun success result => result && success) true)

/-- One node in a run of a job. Only senders of the algorithms that do not wait for them may end after `run`. -/
structure NodeRun (algorithm : PDBPhysicalAlgorithmType) where
  outcome : Outcome
  transport : Transport
  ended : List (Part × Bool)
  late : List (Part × Bool)
  workers : (ended ++ late).Perm (outcome.workers algorithm)
  lateSenders : ∀ w ∈ late, w.1 = .sender ∧ algorithm ≠ .shuffleForJoin

variable {algorithm : PDBPhysicalAlgorithmType}

def NodeRun.returned (n : NodeRun algorithm) : Returned :=
  run algorithm n.ended n.outcome.materializations

def NodeRun.backend (n : NodeRun algorithm) : Option ExRunJob → Handled :=
  ExecutionServerBackend.handle n.outcome.setup n.returned

def NodeRun.frontend (n : NodeRun algorithm) : Option ExRunJob → List SimpleRequestResult :=
  ExecutionServerFrontend.handle n.transport n.backend

def NodeRun.alarm (maxRetries : ℕ) (n : NodeRun algorithm) : PDBAlarm := nodeWork maxRetries n.transport n.frontend

structure JobRun where
  algorithm : PDBPhysicalAlgorithmType
  maxRetries : ℕ
  updates : List Bool
  nodes : List (NodeRun algorithm)
  alarms : List PDBAlarm
  buzzed : alarms.Perm (nodes.map (·.alarm maxRetries))

def JobRun.executed (j : JobRun) : Bool := executeJob j.updates j.alarms

def JobRun.Succeeded (j : JobRun) : Prop := ∀ n ∈ j.nodes, n.outcome.Succeeded j.algorithm

structure Transport.Delivers (maxRetries : ℕ) (t : Transport) : Prop where
  attempts : ∃ i, t.attempts i = true ∧ (i = 0 ∨ i < maxRetries)
  sendsJob : t.sendsJob = true
  connectsToBackend : t.connectsToBackend = true
  forwardsJob : t.forwardsJob = true
  setupAnswered : t.setupAnswered = true
  scheduleAnswered : t.scheduleAnswered = true
  sendsRun : t.sendsRun = true
  runArrives : t.runArrives = true
  forwardsRun : t.forwardsRun = true
  runReachesBackend : t.runReachesBackend = true
  runAnswered : t.runAnswered = true
  jobAnswered : t.jobAnswered = true

structure JobRun.Delivered (j : JobRun) : Prop where
  updates : ∀ result ∈ j.updates, result = true
  nodes : ∀ n ∈ j.nodes, n.transport.Delivers j.maxRetries

def JobRun.Propagates (j : JobRun) : Prop := j.executed = true ↔ j.Succeeded

theorem connect_eq_true {maxRetries i : ℕ} {attempts : ℕ → Bool} (h : attempts i = true)
    (hi : i = 0 ∨ i < maxRetries) {numRetries : ℕ} (hn : numRetries ≤ i) :
    connect maxRetries attempts numRetries = true := by
  induction hd : i - numRetries generalizing numRetries with
  | zero =>
    obtain rfl : numRetries = i := by omega
    rw [connect, if_pos h]
  | succ d ih =>
    rw [connect]
    by_cases ha : attempts numRetries = true
    · rw [if_pos ha]
    · have hlt : numRetries + 1 < maxRetries := by omega
      rw [if_neg ha, if_pos hlt]
      apply ih <;> omega

theorem ExecutionServerBackend.handle_head? (setup : SimpleRequestResult) (ran : Returned)
    (result : Option ExRunJob) : (handle setup ran result).answers.head? = some setup := by
  unfold handle
  split <;> rfl

theorem waitResult_res (error : String) (r : SimpleRequestResult) : (waitResult error (some r)).res = r.res := by
  unfold waitResult
  cases hr : r.res <;> simp [hr]

theorem NodeRun.frontend_answers {maxRetries : ℕ} {n : NodeRun algorithm} (h : n.transport.Delivers maxRetries) :
    (n.frontend none).head?.isSome ∧
      ∃ first second, n.frontend (some ⟨true⟩) = [first, second] ∧ first.res = n.outcome.setup.res ∧
        second.res = n.outcome.setup.res := by
  have hhead (request : Option ExRunJob) : (n.backend request).answers.head? = some n.outcome.setup :=
    ExecutionServerBackend.handle_head? ..
  have hres := waitResult_res "" n.outcome.setup
  unfold NodeRun.frontend ExecutionServerFrontend.handle
  simp only [h.connectsToBackend, h.forwardsJob, h.setupAnswered, h.runArrives, h.forwardsRun, h.runReachesBackend,
    h.runAnswered, arriving, hhead, Bool.true_eq_false, if_true, if_false, ite_self]
  cases hs : n.outcome.setup.res with
  | false =>
    rw [hs] at hres
    rw [if_pos hres, if_pos hres]
    exact ⟨rfl, _, _, rfl, hres, rfl⟩
  | true =>
    rw [hs] at hres
    have hne : (waitResult "" (some n.outcome.setup)).res ≠ false := by rw [hres]; decide
    rw [if_neg hne, if_neg hne]
    refine ⟨rfl, _, _, rfl, hres, ?_⟩
    exact (waitResult_res _ n.outcome.setup).trans hs

theorem NodeRun.alarm_of_delivers {maxRetries : ℕ} {n : NodeRun algorithm} (h : n.transport.Delivers maxRetries) :
    n.alarm maxRetries = .workAllDone := by
  obtain ⟨i, hi, hlt⟩ := h.attempts
  obtain ⟨hfirst, first, second, hanswers, -, -⟩ := n.frontend_answers h
  have hconnect : connect maxRetries n.transport.attempts 0 = true := connect_eq_true hi hlt (Nat.zero_le i)
  obtain ⟨answer, hanswer⟩ := Option.isSome_iff_exists.mp hfirst
  simp [NodeRun.alarm, nodeWork, hconnect, scheduleJob, runScheduledJob, h.sendsJob, h.sendsRun, h.scheduleAnswered,
    h.jobAnswered, arriving, hanswer, hanswers]

theorem executeJob_eq_true_iff (updates : List Bool) (alarms : List PDBAlarm) :
    executeJob updates alarms = true ↔ (∀ result ∈ updates, result = true) ∧ ∀ a ∈ alarms, a = .workAllDone := by
  have hupdates (success : Bool) : updates.foldl (fun success result => result && success) success = true ↔
      success = true ∧ ∀ result ∈ updates, result = true := by
    induction updates generalizing success with
    | nil => simp
    | cons result updates ih =>
      rw [List.foldl_cons, ih]
      simp [and_assoc, and_left_comm]
  have halarms (success : Bool) : alarms.foldl (fun success myAlarm => myAlarm.mark success) success = true ↔
      success = true ∧ ∀ a ∈ alarms, a = .workAllDone := by
    induction alarms generalizing success with
    | nil => simp
    | cons a alarms ih =>
      rw [List.foldl_cons, ih]
      cases a <;> simp [PDBAlarm.mark]
  unfold executeJob
  rw [halarms, hupdates]
  simp

theorem JobRun.executed_of_delivered {j : JobRun} (h : j.Delivered) : j.executed = true := by
  apply (executeJob_eq_true_iff ..).mpr
  refine ⟨h.updates, fun a ha => ?_⟩
  obtain ⟨n, hn, rfl⟩ := List.mem_map.mp (j.buzzed.subset ha)
  exact n.alarm_of_delivers (h.nodes n hn)

theorem propagates_iff (j : JobRun) (h : j.Delivered) : j.Propagates ↔ j.Succeeded :=
  iff_true_left (j.executed_of_delivered h)

def straightNode (setup : SimpleRequestResult) (pipeline : Bool) : NodeRun .straightPipe where
  outcome := ⟨setup, [pipeline], [], true, [], [some true]⟩
  transport := ⟨fun _ => true, true, true, true, true, true, true, true, true, true, true, true⟩
  ended := [(.pipeline, pipeline)]
  late := []
  workers := List.Perm.refl _
  lateSenders := by simp

theorem straightNode_delivers (setup : SimpleRequestResult) (pipeline : Bool) :
    (straightNode setup pipeline).transport.Delivers 1 :=
  ⟨⟨0, rfl, .inl rfl⟩, rfl, rfl, rfl, rfl, rfl, rfl, rfl, rfl, rfl, rfl, rfl⟩

def twoNodes (setup : SimpleRequestResult) (pipeline : Bool) : JobRun where
  algorithm := .straightPipe
  maxRetries := 1
  updates := [true]
  nodes := [straightNode setup pipeline, straightNode ⟨true, ""⟩ true]
  alarms := [.workAllDone, .workAllDone]
  buzzed := by
    have halarm (setup : SimpleRequestResult) (pipeline : Bool) :
        (straightNode setup pipeline).alarm 1 = .workAllDone :=
      NodeRun.alarm_of_delivers (straightNode_delivers setup pipeline)
    simp [halarm]

theorem forall_twoNodes {setup : SimpleRequestResult} {pipeline : Bool} {P : NodeRun .straightPipe → Prop} :
    (∀ n ∈ (twoNodes setup pipeline).nodes, P n) ↔
      P (straightNode setup pipeline) ∧ P (straightNode ⟨true, ""⟩ true) := by
  change (∀ n ∈ [straightNode setup pipeline, straightNode ⟨true, ""⟩ true], P n) ↔ _
  simp

theorem twoNodes_delivered (setup : SimpleRequestResult) (pipeline : Bool) : (twoNodes setup pipeline).Delivered := by
  refine ⟨by simp [twoNodes], ?_⟩
  exact forall_twoNodes.mpr ⟨straightNode_delivers _ _, straightNode_delivers _ _⟩

theorem propagates_twoNodes : (twoNodes ⟨true, ""⟩ true).Propagates := by
  apply (propagates_iff _ (twoNodes_delivered ⟨true, ""⟩ true)).mpr
  have hnode : (straightNode ⟨true, ""⟩ true).outcome.Succeeded .straightPipe := by decide
  exact forall_twoNodes.mpr ⟨hnode, hnode⟩

theorem not_propagates_failures :
    ((twoNodes ⟨false, "no sink page set"⟩ true).Delivered ∧
        ¬ (twoNodes ⟨false, "no sink page set"⟩ true).Propagates) ∧
      (twoNodes ⟨true, ""⟩ false).Delivered ∧ ¬ (twoNodes ⟨true, ""⟩ false).Propagates := by
  have hfailed {setup : SimpleRequestResult} {pipeline : Bool}
      (hn : ¬ (straightNode setup pipeline).outcome.Succeeded .straightPipe) :
      (twoNodes setup pipeline).Delivered ∧ ¬ (twoNodes setup pipeline).Propagates := by
    have h := twoNodes_delivered setup pipeline
    refine ⟨h, fun hp => hn ?_⟩
    exact (forall_twoNodes.mp (hp.mp (JobRun.executed_of_delivered h))).1
  exact ⟨hfailed (by decide), hfailed (by decide)⟩

end PlinyCompute.JobOutcome
