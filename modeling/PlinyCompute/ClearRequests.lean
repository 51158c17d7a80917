import PlinyCompute.LogicalPlan
import PlinyCompute.RangeSum
import PlinyCompute.Transition

namespace PlinyCompute.ClearRequests

open LogicalPlan (Text)
open Transition
open Function (update update_of_ne update_self)

inductive PDBAlarm
  | workAllDone
  | genericError
  deriving DecidableEq

inductive Handler
  | handleClearSet
  | handleRemoveSet
  deriving DecidableEq

def Handler.verb : Handler → Text
  | .handleClearSet => "clear".toList
  | .handleRemoveSet => "remove".toList

def Handler.errorText : Handler → Text
  | .handleClearSet => "Could not completely clear the set".toList
  | .handleRemoveSet => "Could not completely remove the set, failed to clear its data.".toList

structure DisClearSet where
  databaseName : Text
  setName : Text

structure Checks where
  setExists : Bool
  isClearGranted : Bool
  -- the error of the catalog when the set is to be removed from it
  removeError : Option Text

def Handler.refusal (handler : Handler) (request : DisClearSet) (checks : Checks) : Option Text :=
  let set := "The set requested (".toList ++ request.databaseName ++ ",".toList ++ request.setName
  if ¬checks.setExists then some (set ++ ") to ".toList ++ handler.verb ++ " does note exist!".toList)
  else if ¬checks.isClearGranted then
    some (set ++ ") is in use therefore we can not ".toList ++ handler.verb ++ " it!".toList)
  else
    match handler with
    | .handleClearSet => none
    | .handleRemoveSet => checks.removeError.map fun error => set ++
      ") could not be removed from the catalog and therefore we can not remove it!. Error was : ".toList ++ error

inductive Phase
  | idle
  | requesting
  -- it has assigned the outcome of its request to the flag
  | assigned
  -- it has read the flag and chosen its alarm
  | chosen (alarm : PDBAlarm)
  -- it holds the mutex of the buzzer and has run the test of the callback
  | marked
  | ended
  deriving DecidableEq

structure World where
  success : Bool
  counter : ℕ
  executed : ℕ
  phase : ℕ → Phase
  waitingMutex : Bool
  reply : Option (Bool × Text)

inductive Event
  | execute
  | assign (i : ℕ)
  | choose (i : ℕ)
  | mark (i : ℕ)
  | count (i : ℕ)
  | respond
  deriving DecidableEq

def start (refusal : Option Text) : World := ⟨true, 0, 0, fun _ => .idle, false, refusal.map (false, ·)⟩

def World.goto (w : World) (i : ℕ) (phase : Phase) : World := { w with phase := update w.phase i phase }

def acked (acks : List Bool) (i : ℕ) : Bool := acks.getD i false

def step (handler : Handler) (acks : List Bool) : Event → World → Except Unit World
  | .execute, w =>
    if w.executed < acks.length ∧ w.reply = none then .ok { w.goto w.executed .requesting with executed := w.executed + 1 }
    else .error ()
  | .assign i, w =>
    if w.phase i = .requesting then .ok { w.goto i .assigned with success := acked acks i } else .error ()
  | .choose i, w =>
    if w.phase i = .assigned then .ok (w.goto i (.chosen (if w.success then .workAllDone else .genericError)))
    else .error ()
  | .mark i, w =>
    match w.phase i with
    | .chosen alarm =>
      if w.waitingMutex then .error ()
      else .ok { w.goto i .marked with
        waitingMutex := true
        success := if alarm = .genericError then false else w.success }
    | _ => .error ()
  | .count i, w =>
    if w.phase i = .marked then .ok { w.goto i .ended with waitingMutex := false, counter := w.counter + 1 }
    else .error ()
  | .respond, w =>
    if w.executed = acks.length ∧ acks.length ≤ w.counter ∧ w.reply = none then
      .ok { w with reply := some (w.success, if w.success then [] else handler.errorText) }
    else .error ()

def handle (handler : Handler) (request : DisClearSet) (checks : Checks) (acks : List Bool) (events : List Event) :
    Except Unit World :=
  events.foldlM (fun w e => step handler acks e w) (start (handler.refusal request checks))

def AllAcked (acks : List Bool) : Prop := ∀ i < acks.length, acked acks i = true

def Reports (handler : Handler) (request : DisClearSet) (checks : Checks) (acks : List Bool) (reply : Bool × Text) : Prop :=
  reply.1 = true ↔ handler.refusal request checks = none ∧ AllAcked acks

def Phase.Waits (phase : Phase) : Prop := phase = .idle ∨ phase = .requesting

def Pending (acks : List Bool) (phase : ℕ → Phase) : Prop :=
  (∃ i < acks.length, acked acks i = false ∧ (phase i).Waits) ∨ ∃ i < acks.length, phase i = .chosen .genericError

def Covered (acks : List Bool) (e : Event) (w : World) : Prop :=
  match e with
  | .assign i => acked acks i = true → AllAcked acks ∨ Pending acks w.phase
  | _ => True

def CoveredRun (handler : Handler) (acks : List Bool) : List Event → World → Prop
  | [], _ => True
  | e :: es, w => Covered acks e w ∧ ∀ w', step handler acks e w = .ok w' → CoveredRun handler acks es w'

structure Sound (acks : List Bool) (w : World) : Prop where
  executed_le : w.executed ≤ acks.length
  idle : ∀ i, w.executed ≤ i → w.phase i = .idle
  counted : w.counter = RangeSum.count acks.length w.phase (· = .ended)
  success : AllAcked acks → w.success = true
  alarm : AllAcked acks → ∀ i, w.phase i ≠ .chosen .genericError
  reply : ∀ r, w.reply = some r → r.1 = w.success ∧ ∀ i < acks.length, w.phase i = .ended

def Shown (acks : List Bool) (w : World) : Prop := AllAcked acks ∨ w.success = false ∨ Pending acks w.phase

structure Hidden (acks : List Bool) (w : World) : Prop where
  failed : ¬AllAcked acks
  success : w.success = true
  notPending : ¬Pending acks w.phase

section Steps

variable {handler : Handler} {acks : List Bool} {w w' : World} {phase : ℕ → Phase} {i : ℕ} {next : Phase}

theorem step_cases {e : Event} (h : step handler acks e w = .ok w') :
    (e = .execute ∧ w.executed < acks.length ∧ w.reply = none ∧
      w' = { w.goto w.executed .requesting with executed := w.executed + 1 }) ∨
    (∃ i, e = .assign i ∧ w.phase i = .requesting ∧ w' = { w.goto i .assigned with success := acked acks i }) ∨
    (∃ i, e = .choose i ∧ w.phase i = .assigned ∧
      w' = w.goto i (.chosen (if w.success then .workAllDone else .genericError))) ∨
    (∃ i alarm, e = .mark i ∧ w.phase i = .chosen alarm ∧ w' = { w.goto i .marked with
      waitingMutex := true
      success := if alarm = .genericError then false else w.success }) ∨
    (∃ i, e = .count i ∧ w.phase i = .marked ∧
      w' = { w.goto i .ended with waitingMutex := false, counter := w.counter + 1 }) ∨
    (e = .respond ∧ acks.length ≤ w.counter ∧
      w' = { w with reply := some (w.success, if w.success then [] else handler.errorText) }) := by
  cases e with
  | execute =>
    by_cases hcan : w.executed < acks.length ∧ w.reply = none
    · rw [step, if_pos hcan] at h
      exact .inl ⟨rfl, hcan.1, hcan.2, (Except.ok.inj h).symm⟩
    · rw [step, if_neg hcan] at h
      cases h
  | assign i =>
    by_cases hphase : w.phase i = .requesting
    · rw [step, if_pos hphase] at h
      exact .inr (.inl ⟨i, rfl, hphase, (Except.ok.inj h).symm⟩)
    · rw [step, if_neg hphase] at h
      cases h
  | choose i =>
    by_cases hphase : w.phase i = .assigned
    · rw [step, if_pos hphase] at h
      exact .inr (.inr (.inl ⟨i, rfl, hphase, (Except.ok.inj h).symm⟩))
    · rw [step, if_neg hphase] at h
      cases h
  | mark i =>
    rw [step] at h
    split at h
    · next alarm hphase =>
      by_cases hmutex : w.waitingMutex = true
      · rw [if_pos hmutex] at h
        cases h
      · rw [if_neg hmutex] at h
        exact .inr (.inr (.inr (.inl ⟨i, alarm, rfl, hphase, (Except.ok.inj h).symm⟩)))
    · cases h
  | count i =>
    by_cases hphase : w.phase i = .marked
    · rw [step, if_pos hphase] at h
      exact .inr (.inr (.inr (.inr (.inl ⟨i, rfl, hphase, (Except.ok.inj h).symm⟩))))
    · rw [step, if_neg hphase] at h
      cases h
  | respond =>
    by_cases hcan : w.executed = acks.length ∧ acks.length ≤ w.counter ∧ w.reply = none
    · rw [step, if_pos hcan] at h
      exact .inr (.inr (.inr (.inr (.inr ⟨rfl, hcan.2.1, (Except.ok.inj h).symm⟩))))
    · rw [step, if_neg hcan] at h
      cases h

theorem Pending.of_update (h : Pending acks (update phase i next)) (hwaits : next.Waits → (phase i).Waits)
    (halarm : next ≠ .chosen .genericError) : Pending acks phase := by
  rcases h with ⟨j, hj, hack, hwait⟩ | ⟨j, hj, hchosen⟩
  · refine .inl ⟨j, hj, hack, ?_⟩
    by_cases hji : j = i
    · subst hji
      rw [update_self] at hwait
      exact hwaits hwait
    · rwa [update_of_ne hji] at hwait
  · refine .inr ⟨j, hj, ?_⟩
    by_cases hji : j = i
    · subst hji
      rw [update_self] at hchosen
      exact absurd hchosen halarm
    · rwa [update_of_ne hji] at hchosen

theorem Pending.update (h : Pending acks phase) (hwaits : acked acks i = false → (phase i).Waits → next.Waits)
    (halarm : phase i ≠ .chosen .genericError) : Pending acks (Function.update phase i next) := by
  rcases h with ⟨j, hj, hack, hwait⟩ | ⟨j, hj, hchosen⟩
  · refine .inl ⟨j, hj, hack, ?_⟩
    by_cases hji : j = i
    · subst hji
      rw [Function.update_self]
      exact hwaits hack hwait
    · rwa [Function.update_of_ne hji]
  · refine .inr ⟨j, hj, ?_⟩
    by_cases hji : j = i
    · subst hji
      exact absurd hchosen halarm
    · rwa [Function.update_of_ne hji]

theorem Sound.lt (h : Sound acks w) (hi : w.phase i ≠ .idle) : i < acks.length := by
  by_contra hle
  exact hi (h.idle i (h.executed_le.trans (not_lt.mp hle)))

theorem Sound.no_reply (h : Sound acks w) (hi : w.phase i ≠ .idle) (hended : w.phase i ≠ .ended) : w.reply = none := by
  cases hr : w.reply with
  | none => rfl
  | some r => exact absurd ((h.reply r hr).2 i (h.lt hi)) hended

theorem Sound.worker (h : Sound acks w) (next : Phase) (hi : w.phase i ≠ .idle) (hended : w.phase i ≠ .ended)
    (success waitingMutex : Bool) (hsuccess : AllAcked acks → success = true)
    (halarm : AllAcked acks → next ≠ .chosen .genericError) :
    Sound acks { w with
      phase := update w.phase i next
      success := success
      waitingMutex := waitingMutex
      counter := w.counter + if next = .ended then 1 else 0 } := by
  have hlt : i < w.executed := by
    by_contra hle
    exact hi (h.idle i (not_lt.mp hle))
  refine ⟨h.executed_le, ?_, ?_, hsuccess, ?_, ?_⟩
  · intro j hj
    dsimp only at hj ⊢
    rw [update_of_ne (by omega)]
    exact h.idle j hj
  · have hcount := RangeSum.count_update (q := (· = Phase.ended)) (g := w.phase) (h.lt hi) next
    rw [if_neg hended, Nat.add_zero] at hcount
    rw [hcount, h.counted]
  · intro hall j
    dsimp only
    by_cases hji : j = i
    · subst hji
      rw [update_self]
      exact halarm hall
    · rw [update_of_ne hji]
      exact h.alarm hall j
  · intro r hr
    rw [h.no_reply hi hended] at hr
    cases hr

theorem Sound.execute (h : Sound acks w) (hlt : w.executed < acks.length) (hr : w.reply = none) :
    Sound acks { w.goto w.executed .requesting with executed := w.executed + 1 } := by
  have hidle := h.idle w.executed (le_refl _)
  refine ⟨hlt, ?_, ?_, h.success, ?_, ?_⟩
  · intro j hj
    dsimp only [World.goto] at hj ⊢
    rw [update_of_ne (by omega)]
    exact h.idle j (by omega)
  · have hcount := RangeSum.count_update (q := (· = Phase.ended)) (g := w.phase) hlt .requesting
    simp only [hidle, reduceCtorEq, if_false, Nat.add_zero] at hcount
    exact h.counted.trans hcount.symm
  · intro hall j
    dsimp only [World.goto]
    by_cases hj : j = w.executed
    · rw [hj, update_self]
      nofun
    · rw [update_of_ne hj]
      exact h.alarm hall j
  · intro r hreply
    rw [show ({ w.goto w.executed .requesting with executed := w.executed + 1 } : World).reply = w.reply from rfl,
      hr] at hreply
    cases hreply

theorem Sound.respond (h : Sound acks w) (hcounter : acks.length ≤ w.counter) (text : Text) :
    Sound acks { w with reply := some (w.success, text) } := by
  refine ⟨h.executed_le, h.idle, h.counted, h.success, h.alarm, ?_⟩
  rintro _ ⟨⟩
  have hall : RangeSum.count acks.length w.phase (· = .ended) = acks.length := by
    have hle := RangeSum.count_le (n := acks.length) (g := w.phase) (q := (· = Phase.ended))
    rw [h.counted] at hcounter
    omega
  exact ⟨rfl, RangeSum.count_eq_all.mp hall⟩

theorem Sound.step {e : Event} (h : Sound acks w) (hstep : step handler acks e w = .ok w') : Sound acks w' := by
  obtain ⟨-, hlt, hr, rfl⟩ | ⟨i, -, hphase, rfl⟩ | ⟨i, -, hphase, rfl⟩ | ⟨i, alarm, -, hphase, rfl⟩ |
    ⟨i, -, hphase, rfl⟩ | ⟨-, hcounter, rfl⟩ := step_cases hstep
  · exact h.execute hlt hr
  · have hi : w.phase i ≠ .idle := by simp [hphase]
    have hflag : AllAcked acks → acked acks i = true := fun hall => hall i (h.lt hi)
    exact h.worker .assigned hi (by simp [hphase]) _ w.waitingMutex hflag fun _ => Phase.noConfusion
  · have halarm : AllAcked acks →
        Phase.chosen (if w.success then .workAllDone else .genericError) ≠ .chosen .genericError := by
      intro hall
      simp [h.success hall]
    exact h.worker _ (by simp [hphase]) (by simp [hphase]) w.success w.waitingMutex h.success halarm
  · have hsuccess : AllAcked acks → (if alarm = .genericError then false else w.success) = true := by
      intro hall
      have halarm : alarm ≠ .genericError := by
        rintro rfl
        exact h.alarm hall i hphase
      rw [if_neg halarm]
      exact h.success hall
    exact h.worker .marked (by simp [hphase]) (by simp [hphase]) _ true hsuccess fun _ => Phase.noConfusion
  · exact h.worker .ended (by simp [hphase]) (by simp [hphase]) w.success false h.success
      fun _ => Phase.noConfusion
  · exact h.respond hcounter _

theorem not_waits (h : phase i = .assigned ∨ (∃ alarm, phase i = .chosen alarm) ∨ phase i = .marked) :
    ¬(phase i).Waits := by
  rintro (hwaits | hwaits) <;> simp [hwaits] at h

theorem Shown.step {e : Event} (h : Shown acks w) (hs : Sound acks w) (hc : Covered acks e w)
    (hstep : step handler acks e w = .ok w') : Shown acks w' := by
  rcases h with hall | h
  · exact .inl hall
  obtain ⟨-, -, -, rfl⟩ | ⟨i, rfl, hphase, rfl⟩ | ⟨i, -, hphase, rfl⟩ | ⟨i, alarm, -, hphase, rfl⟩ |
    ⟨i, -, hphase, rfl⟩ | ⟨-, -, rfl⟩ := step_cases hstep
  · have hidle := hs.idle w.executed (le_refl _)
    exact .inr (h.imp_right fun hp => hp.update (fun _ _ => .inr rfl) (by simp [hidle]))
  · cases hack : acked acks i with
    | false => exact .inr (.inl rfl)
    | true =>
      rcases hc hack with hall | hp
      · exact .inl hall
      · refine .inr (.inr (hp.update (fun hf => ?_) (by simp [hphase])))
        rw [hack] at hf
        cases hf
  · have hwaits := not_waits (.inl hphase)
    exact .inr (h.imp_right fun hp => hp.update (fun _ hw => absurd hw hwaits) (by simp [hphase]))
  · have hwaits := not_waits (.inr (.inl ⟨alarm, hphase⟩))
    by_cases halarm : alarm = .genericError
    · exact .inr (.inl (if_pos halarm))
    · refine .inr (h.imp (fun hf => (if_neg halarm).trans hf) fun hp => ?_)
      exact hp.update (fun _ hw => absurd hw hwaits) (by simp [hphase, halarm])
  · have hwaits := not_waits (.inr (.inr hphase))
    exact .inr (h.imp_right fun hp => hp.update (fun _ hw => absurd hw hwaits) (by simp [hphase]))
  · exact .inr h

theorem Hidden.step {e : Event} (h : Hidden acks w) (hs : Sound acks w) (hstep : step handler acks e w = .ok w') :
    Hidden acks w' := by
  obtain ⟨hfailed, hsuccess, hp⟩ := h
  obtain ⟨-, -, -, rfl⟩ | ⟨i, rfl, hphase, rfl⟩ | ⟨i, -, hphase, rfl⟩ | ⟨i, alarm, -, hphase, rfl⟩ |
    ⟨i, -, hphase, rfl⟩ | ⟨-, -, rfl⟩ := step_cases hstep
  · have hidle := hs.idle w.executed (le_refl _)
    exact ⟨hfailed, hsuccess, fun hp' => hp (hp'.of_update (fun _ => .inl hidle) Phase.noConfusion)⟩
  · have hi : i < acks.length := hs.lt (by simp [hphase])
    cases hack : acked acks i with
    | false => exact absurd (.inl ⟨i, hi, hack, .inr hphase⟩) hp
    | true => exact ⟨hfailed, rfl, fun hp' => hp (hp'.of_update (fun _ => .inr hphase) Phase.noConfusion)⟩
  · refine ⟨hfailed, hsuccess, fun hp' => hp (hp'.of_update (fun hw => ?_) ?_)⟩
    · simp [Phase.Waits] at hw
    · simp [hsuccess]
  · have halarm : alarm ≠ .genericError := by
      rintro rfl
      exact hp (.inr ⟨i, hs.lt (by simp [hphase]), hphase⟩)
    refine ⟨hfailed, (if_neg halarm).trans hsuccess, fun hp' => hp (hp'.of_update (fun hw => ?_) Phase.noConfusion)⟩
    simp [Phase.Waits] at hw
  · refine ⟨hfailed, hsuccess, fun hp' => hp (hp'.of_update (fun hw => ?_) Phase.noConfusion)⟩
    simp [Phase.Waits] at hw
  · exact ⟨hfailed, hsuccess, hp⟩

theorem hidden_of_not_covered {e : Event} (hc : ¬Covered acks e w) (hstep : step handler acks e w = .ok w') :
    Hidden acks w' := by
  cases e with
  | assign i =>
    simp only [Covered, Classical.not_imp, not_or] at hc
    obtain ⟨hack, hfailed, hp⟩ := hc
    rw [ClearRequests.step] at hstep
    split_ifs at hstep with hphase
    cases hstep
    exact ⟨hfailed, hack, fun hp' => hp (hp'.of_update (fun _ => .inr hphase) Phase.noConfusion)⟩
  | execute => exact absurd trivial hc
  | choose i => exact absurd trivial hc
  | mark i => exact absurd trivial hc
  | count i => exact absurd trivial hc
  | respond => exact absurd trivial hc

end Steps

section Runs

variable {handler : Handler} {acks : List Bool}

theorem sound_start : Sound acks (start none) := by
  refine ⟨Nat.zero_le _, fun _ _ => rfl, ?_, fun _ => rfl, fun _ _ => Phase.noConfusion, nofun⟩
  exact (RangeSum.count_eq_zero.mpr fun _ _ => Phase.noConfusion).symm

theorem shown_start : Shown acks (start none) := by
  by_cases hall : AllAcked acks
  · exact .inl hall
  · obtain ⟨i, hi, hack⟩ : ∃ i < acks.length, acked acks i = false := by simpa [AllAcked] using hall
    exact .inr (.inr (.inl ⟨i, hi, hack, .inl rfl⟩))

theorem hidden_run {w w' : World} (h : Hidden acks w) (hs : Sound acks w) (events : List Event)
    (hrun : events.foldlM (fun w e => step handler acks e w) w = .ok w') : Hidden acks w' ∧ Sound acks w' := by
  induction events generalizing w with
  | nil =>
    cases hrun
    exact ⟨h, hs⟩
  | cons e es ih =>
    rw [List.foldlM_cons] at hrun
    obtain ⟨w₁, he, hrun⟩ := bind_eq_ok.mp hrun
    exact ih (h.step hs he) (hs.step he) hrun

theorem run_cases {w w' : World} (h : Shown acks w) (hs : Sound acks w) (events : List Event)
    (hrun : events.foldlM (fun w e => step handler acks e w) w = .ok w') :
    Sound acks w' ∧ (CoveredRun handler acks events w → Shown acks w') ∧
      (¬CoveredRun handler acks events w → Hidden acks w') := by
  induction events generalizing w with
  | nil =>
    cases hrun
    exact ⟨hs, fun _ => h, fun hn => absurd trivial hn⟩
  | cons e es ih =>
    rw [List.foldlM_cons] at hrun
    obtain ⟨w₁, he, hrun⟩ := bind_eq_ok.mp hrun
    have hs₁ := hs.step he
    have hcovered : CoveredRun handler acks (e :: es) w ↔ Covered acks e w ∧ CoveredRun handler acks es w₁ := by
      refine and_congr_right fun _ => ⟨fun hall => hall w₁ he, fun hrest w₂ h₂ => ?_⟩
      rw [he] at h₂
      cases h₂
      exact hrest
    rw [hcovered]
    by_cases hc : Covered acks e w
    · obtain ⟨hs', hshown, hhidden⟩ := ih (h.step hs hc he) hs₁ hrun
      simp only [hc, true_and]
      exact ⟨hs', hshown, hhidden⟩
    · obtain ⟨hhidden, hs'⟩ := hidden_run (hidden_of_not_covered hc he) hs₁ es hrun
      exact ⟨hs', fun h => absurd h.1 hc, fun _ => hhidden⟩

theorem Shown.success_iff {w : World} (h : Shown acks w) (hs : Sound acks w)
    (hended : ∀ i < acks.length, w.phase i = .ended) : w.success = true ↔ AllAcked acks := by
  refine ⟨fun hsuccess => ?_, hs.success⟩
  rcases h with hall | hfalse | ⟨i, hi, -, hwaits⟩ | ⟨i, hi, hchosen⟩
  · exact hall
  · rw [hsuccess] at hfalse
    cases hfalse
  · rw [hended i hi] at hwaits
    simp [Phase.Waits] at hwaits
  · rw [hended i hi] at hchosen
    cases hchosen

theorem refused_run {refusal : Text} {events : List Event} {w : World}
    (hrun : events.foldlM (fun w e => step handler acks e w) (start (some refusal)) = .ok w) :
    events = [] ∧ w = start (some refusal) := by
  cases events with
  | nil =>
    cases hrun
    exact ⟨rfl, rfl⟩
  | cons e es =>
    rw [List.foldlM_cons] at hrun
    obtain ⟨w₁, he, -⟩ := bind_eq_ok.mp hrun
    cases e <;> simp [ClearRequests.step, start] at he

theorem reports_iff (handler : Handler) (request : DisClearSet) (checks : Checks) (acks : List Bool)
    (events : List Event) (w : World) (reply : Bool × Text)
    (hrun : handle handler request checks acks events = .ok w) (hreply : w.reply = some reply) :
    Reports handler request checks acks reply ↔
      CoveredRun handler acks events (start (handler.refusal request checks)) := by
  unfold handle at hrun
  unfold Reports
  cases hrefusal : handler.refusal request checks with
  | some refusal =>
    rw [hrefusal] at hrun
    obtain ⟨rfl, rfl⟩ := refused_run hrun
    cases hreply
    exact iff_of_true (by simp) trivial
  | none =>
    rw [hrefusal] at hrun
    obtain ⟨hs, hshown, hhidden⟩ := run_cases shown_start sound_start events hrun
    obtain ⟨hsuccess, hended⟩ := hs.reply reply hreply
    rw [hsuccess]
    simp only [true_and]
    by_cases hc : CoveredRun handler acks events (start none)
    · exact iff_of_true ((hshown hc).success_iff hs hended) hc
    · obtain ⟨hfailed, hflag, -⟩ := hhidden hc
      exact iff_of_false (fun h => hfailed (h.mp hflag)) hc

def oneByOne : List Event :=
  [.execute, .execute, .assign 0, .choose 0, .mark 0, .count 0, .assign 1, .choose 1, .mark 1, .count 1, .respond]

theorem reports_oneByOne : Reports .handleClearSet ⟨"db".toList, "s".toList⟩ ⟨true, true, none⟩ [true, false]
    (false, "Could not completely clear the set".toList) ↔
      CoveredRun .handleClearSet [true, false] oneByOne (start none) :=
  reports_iff .handleClearSet ⟨"db".toList, "s".toList⟩ ⟨true, true, none⟩ [true, false] oneByOne _ _ rfl rfl

theorem not_reports_oneByOne : ∃ w reply,
    handle .handleClearSet ⟨"db".toList, "s".toList⟩ ⟨true, true, none⟩ [false, true] oneByOne = .ok w ∧
      w.reply = some reply ∧
      ¬Reports .handleClearSet ⟨"db".toList, "s".toList⟩ ⟨true, true, none⟩ [false, true] reply := by
  refine ⟨_, _, rfl, rfl, ?_⟩
  intro h
  exact absurd ((h.mp rfl).2 0 (by decide)) (by decide)

end Runs

end PlinyCompute.ClearRequests
