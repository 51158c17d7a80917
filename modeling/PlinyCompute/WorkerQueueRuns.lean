import PlinyCompute.WorkerQueue

namespace PlinyCompute.WorkerQueue

open Transition

structure Kept (n : ℕ) (w : World) : Prop where
  places : Places n w
  sleepers : Sleepers w
  counted : Counted n w
  works : Works w
  null : ∀ a, w.client a = .null → w.numOut = 0

theorem kept_start (n : ℕ) : Kept n (World.start n) where
  places := places_start
  sleepers := sleepers_start
  counted := counted_start
  works := works_start
  null := by simp [World.start]

section Steps

variable {n : ℕ} {w w' : World} {i : ℕ} {a : Actor}

theorem Places.lt (h : Places n w) (hp : w.place i ≠ .dead) : i < n := by
  by_contra hi
  exact hp (h.threads i (by omega))

theorem Kept.numOut_pos (h : Kept n w) (hp : w.place i ≠ .dead) : 0 < w.numOut := by
  rw [h.counted.numOut]
  have hmem : i ∈ (Finset.range n).filter fun j => w.place j ≠ .dead := by
    simp [h.places.lt hp, hp]
  have := Finset.card_pos.mpr ⟨i, hmem⟩
  omega

theorem Kept.dead_of_numOut (h : Kept n w) (hzero : w.numOut = 0) : ∀ i, w.place i = .dead := by
  intro i
  by_contra hp
  have := h.numOut_pos hp
  omega

theorem Kept.move {q : Place} (h : Kept n w) (hp : (w.place i).away = true) (hnot : w.place i ≠ .dead)
    (hq : q.away = true) (hdead : q ≠ .dead) (hleave : q = .leaving → w.shuttingDown = true) :
    Kept n (w.setPlace i q) where
  places := h.places.move hp hq fun hn => absurd (h.places.threads i hn) hnot
  sleepers := h.sleepers.of_eq rfl rfl rfl rfl
  counted := h.counted.move hnot hdead hleave
  works := h.works.of_eq rfl rfl rfl rfl
  null := h.null

theorem Places.not_ready (h : Places n w) (hparked : w.place i ≠ .parked) (hrunning : w.place i ≠ .running) :
    w.okToExecute i = false := by
  by_contra hok
  obtain hp | hp := h.ready i (by simpa using hok)
  · exact hparked hp
  · exact hrunning hp

theorem Kept.null_setClient {c : Client} (h : Kept n w) (hnull : c = .null → w.numOut = 0) :
    ∀ b, (w.setClient a c).client b = .null → w.numOut = 0 := by
  intro b hb
  rw [setClient_client] at hb
  split_ifs at hb
  · exact hnull hb
  · exact h.null b hb

theorem Kept.turn {c : Client} (h : Kept n w) (hc : (w.client a).free = true) (hd : c.free = true)
    (hin : c = .idle ∨ w.client a ≠ .idle ∨ w.acts a = true) (hs : Sleepers (w.setClient a c))
    (hnull : c = .null → w.numOut = 0) : Kept n (w.setClient a c) where
  places := h.places.turn hc hd hin
  sleepers := hs
  counted := h.counted.of_eq rfl rfl rfl
  works := h.works.of_eq rfl rfl rfl rfl
  null := h.null_setClient hnull

theorem Kept.check (h : Kept n w) : Ensures (· = .notThere) (w.step (.check i)) (Kept n) := by
  rw [World.step]
  split_ifs with hp hshut
  · exact h.move (hp ▸ rfl) (by simp [hp]) rfl (by simp) fun _ => hshut
  · exact h.move (hp ▸ rfl) (by simp [hp]) rfl (by simp) (by simp)
  · rfl

theorem Kept.wakeUp (h : Kept n w) (ha : a ∈ w.asleep) : Kept n (w.wakeUp a) := by
  have hsleep := (h.sleepers.mem a).mp ha
  have hplaces := h.places.turn (a := a) (c := .woken) (hsleep ▸ rfl) rfl (.inr (.inl (by simp [hsleep])))
  refine ⟨?_, (h.sleepers.wakeUp ha).1, h.counted.of_eq rfl rfl rfl, ?_, ?_⟩
  · exact hplaces.of_eq rfl rfl rfl rfl rfl
  · exact h.works.of_eq rfl rfl rfl rfl
  · intro b hb
    rw [wakeUp_client] at hb
    split_ifs at hb
    exact h.null b hb

theorem Kept.enter {signalled : Option Actor} (h : Kept n w) :
    Ensures (· = .notThere) (w.step (.enter i signalled)) (Kept n) := by
  by_cases hg : w.place i = .entering ∧ w.signals signalled = true
  · obtain ⟨hp, hsig⟩ := hg
    have hcounted := h.counted.move (i := i) (q := .parked) (by simp [hp]) (by simp) (by simp)
    have hplaces := h.places.enter hp
    have hsleepers : Ensures (· = .notThere) (w.step (.enter i signalled)) Sleepers := by
      cases he : w.step (.enter i signalled) with
      | ok w' => exact h.sleepers.enter hsig he
      | error e =>
        rw [World.step, if_pos ⟨hp, hsig⟩] at he
        cases he
    rw [World.step, if_pos ⟨hp, hsig⟩] at hsleepers ⊢
    cases signalled with
    | none =>
      exact ⟨hplaces, hsleepers, hcounted.of_eq rfl rfl rfl,
        h.works.of_eq rfl rfl rfl rfl, h.null⟩
    | some a =>
      have ha : a ∈ w.asleep := of_decide_eq_true hsig
      have hsleep := (h.sleepers.mem a).mp ha
      have hplaces := hplaces.turn (a := a) (c := .woken) (hsleep ▸ rfl) rfl
        (.inr (.inl (ne_of_eq_of_ne hsleep (by simp))))
      refine ⟨hplaces.of_eq rfl rfl rfl rfl rfl, hsleepers, hcounted.of_eq rfl rfl rfl, ?_, ?_⟩
      · exact h.works.of_eq rfl rfl rfl rfl
      · exact (h.wakeUp ha).null
  · rw [World.step, if_neg hg]
    rfl

theorem Kept.start (h : Kept n w) : Ensures (· = .notThere) (w.step (.start i)) (Kept n) := by
  rw [World.step]
  split_ifs with hg
  · refine ⟨h.places.start hg.1 hg.2, ?_, h.counted.move (by simp [hg.1]) (by simp) (by simp), ?_, h.null⟩
    · exact h.sleepers.of_eq rfl rfl rfl rfl
    · exact h.works.of_eq rfl rfl rfl rfl
  · rfl

theorem Kept.finish (h : Kept n w) : Ensures (· = .notThere) (w.step (.finish i)) (Kept n) := by
  rw [World.step]
  split_ifs with hg
  · have hok := h.places.running i hg.1
    obtain ⟨id, hid⟩ := Option.ne_none_iff_exists'.mp (h.works.loaded i hok)
    have hcounted := h.counted.move (i := i) (q := .finished) (by simp [hg.1]) (by simp) (by simp)
    refine ⟨h.places.finish hg.1 hg.2, ?_, hcounted.of_eq rfl rfl rfl, h.works.finish hok hid, h.null⟩
    exact h.sleepers.of_eq rfl rfl rfl rfl
  · rfl

theorem Kept.erase (h : Kept n w) : Ensures (· = .notThere) (w.step (.erase i)) (Kept n) := by
  rw [World.step]
  split_ifs with hp hw
  · have hok := h.places.not_ready (i := i) (by simp [hp]) (by simp [hp])
    have hcounted := h.counted.move (i := i) (q := .checking) (by simp [hp]) (by simp) (by simp)
    refine ⟨(h.places.erase hp).2, ?_, hcounted.of_eq rfl rfl rfl, h.works.erase hok, h.null⟩
    exact h.sleepers.of_eq rfl rfl rfl rfl
  · exact absurd (h.places.erase hp).1 hw
  · rfl

theorem Places.wakeAll (h : Places n w) (hs : ∀ a ∈ w.asleep, w.client a = .sleeping) : Places n w.wakeAll := by
  have hclient : ∀ a, (w.wakeAll).client a = if a ∈ w.asleep then .woken else w.client a := fun _ => rfl
  have hholds : ∀ a j, ((w.wakeAll).client a).holds j ↔ (w.client a).holds j := by
    intro a j
    rw [hclient]
    split_ifs with ha
    · rw [hs a ha]
      simp [Client.holds]
    · rfl
  have hhas : ∀ a j, (w.wakeAll).client a = .has j ↔ w.client a = .has j := by
    intro a j
    rw [hclient]
    split_ifs with ha
    · rw [hs a ha]
      simp
    · rfl
  refine ⟨h.threads, h.nodup, fun j => ?_, fun b j => ?_, fun b c j => ?_, fun j => ?_, h.ready, h.running, fun j => ?_⟩
  · simp only [hholds]
    exact h.waiting j
  · rw [hholds]
    exact h.held b j
  · rw [hholds, hholds]
    exact h.alone b c j
  · simp only [hhas]
    exact h.working j
  · rw [hclient]
    intro hj
    apply h.inWork j
    split_ifs at hj with ha
    · simp [hs _ ha]
    · exact hj

theorem Kept.leave (h : Kept n w) : Ensures (· = .notThere) (w.step (.leave i)) (Kept n) := by
  by_cases hp : w.place i = .leaving
  · have hlt : i < n := h.places.lt (by simp [hp])
    have hplaces := h.places.move (i := i) (q := .dead) (by simp [hp, Place.away]) rfl fun _ => rfl
    have hcounted := h.counted.leave hlt hp
    have hnull : ∀ b, w.client b ≠ .null := by
      intro b hb
      have := h.null b hb
      have := h.numOut_pos (i := i) (by simp [hp])
      omega
    have hsleepers : Ensures (· = .notThere) (w.step (.leave i)) Sleepers := by
      cases he : w.step (.leave i) with
      | ok w' => exact h.sleepers.leave he
      | error e =>
        rw [World.step, if_pos hp] at he
        cases he
    rw [World.step, if_pos hp] at hsleepers ⊢
    have hplaces : Places n { w.setPlace i .dead with numOut := w.numOut - 1 } := hplaces.of_eq rfl rfl rfl rfl rfl
    dsimp only at hsleepers ⊢
    split_ifs at hsleepers ⊢ with hzero
    · exact ⟨hplaces.wakeAll fun b => (h.sleepers.mem b).mp, hsleepers, hcounted.of_eq rfl rfl rfl,
        h.works.of_eq rfl rfl rfl rfl, fun _ _ => hzero⟩
    · exact ⟨hplaces, hsleepers, hcounted,
        h.works.of_eq rfl rfl rfl rfl,
        fun b hb => absurd hb (hnull b)⟩
  · rw [World.step, if_neg hp]
    rfl

theorem Kept.ask (h : Kept n w) : Ensures (· = .notThere) (w.step (.ask a)) (Kept n) := by
  rw [World.step]
  split_ifs with hg
  · exact h.turn (hg.1 ▸ rfl) rfl (.inr (.inr hg.2)) (h.sleepers.turn (by simp [hg.1]) (by simp)) (by simp)
  · rfl

theorem takeWaiting_cases (w : World) (a : Actor) :
    (w.waiting = [] ∧ w.numOut ≠ 0 ∧
      w.takeWaiting a = .ok { w.setClient a .sleeping with asleep := w.asleep ++ [a] }) ∨
    (w.numOut = 0 ∧ w.takeWaiting a = .ok (w.setClient a .null)) ∨
    (w.numOut ≠ 0 ∧ ∃ i, w.waiting.getLast? = some i ∧
      w.takeWaiting a = .ok { w.setClient a (.popped i) with waiting := w.waiting.dropLast }) := by
  rw [World.takeWaiting]
  by_cases hwait : w.waiting = [] ∧ w.numOut ≠ 0
  · exact .inl ⟨hwait.1, hwait.2, if_pos hwait⟩
  · rw [if_neg hwait]
    by_cases hzero : w.numOut = 0
    · exact .inr (.inl ⟨hzero, if_pos hzero⟩)
    · rw [if_neg hzero]
      have hne : w.waiting ≠ [] := fun hempty => hwait ⟨hempty, hzero⟩
      have hlast := List.getLast?_eq_getLast_of_ne_nil hne
      refine .inr (.inr ⟨hzero, w.waiting.getLast hne, hlast, ?_⟩)
      rw [hlast]

theorem Kept.look (h : Kept n w) : Ensures (· = .notThere) (w.step (.look a)) (Kept n) := by
  rw [World.step]
  split_ifs with hg
  · have hfree : (w.client a).free = true := by
      obtain hg | hg := hg <;> rw [hg] <;> rfl
    have hbusy : w.client a ≠ .idle := by
      obtain hg | hg := hg <;> rw [hg] <;> simp
    obtain ⟨-, -, he⟩ | ⟨hzero, he⟩ | ⟨-, i, hi, he⟩ := takeWaiting_cases w a
    · have hsleepers := h.sleepers.look hg he
      rw [he]
      exact ⟨(h.places.turn hfree rfl (.inr (.inl hbusy))).of_eq rfl rfl rfl rfl rfl, hsleepers, h.counted.of_eq rfl rfl rfl,
        h.works.of_eq rfl rfl rfl rfl, h.null_setClient (by simp)⟩
    · have hsleepers := h.sleepers.look hg he
      rw [he]
      exact h.turn hfree rfl (.inr (.inl hbusy)) hsleepers fun _ => hzero
    · have hsleepers := h.sleepers.look hg he
      rw [he]
      exact ⟨h.places.pop hfree hi hbusy, hsleepers, h.counted.of_eq rfl rfl rfl, h.works.of_eq rfl rfl rfl rfl,
        h.null_setClient (by simp)⟩
  · rfl

theorem Kept.insert (h : Kept n w) : Ensures (· = .notThere) (w.step (.insert a)) (Kept n) := by
  rw [World.step]
  split
  · next i hc =>
    refine ⟨h.places.insert hc, ?_, h.counted.of_eq rfl rfl rfl, h.works.of_eq rfl rfl rfl rfl, ?_⟩
    · exact (h.sleepers.turn (c := .has i) (a := a) (by simp [hc]) (by simp)).of_eq rfl rfl rfl rfl
    · exact h.null_setClient (c := .has i) (by simp)
  · rfl

theorem Kept.execute (h : Kept n w) : Ensures (· = .notThere) (w.step (.execute a)) (Kept n) := by
  rw [World.step]
  split
  · next i hc =>
    have hok := (h.places.held a i (.inr hc)).2
    refine ⟨h.places.execute hc, ?_, h.counted.of_eq rfl rfl rfl, h.works.execute hok, ?_⟩
    · exact (h.sleepers.turn (c := .idle) (a := a) (by simp [hc]) (by simp)).of_eq rfl rfl rfl rfl
    · exact h.null_setClient (c := .idle) (by simp)
  · rfl

theorem Kept.wake (h : Kept n w) : Ensures (· = .notThere) (w.step (.wake a)) (Kept n) := by
  rw [World.step]
  split_ifs with ha
  · exact h.wakeUp ha
  · rfl

theorem Kept.shutDown (h : Kept n w) : Ensures (· = .notThere) (w.step .shutDown) (Kept n) := by
  refine ⟨h.places.of_eq rfl rfl rfl rfl rfl, h.sleepers.of_eq rfl rfl rfl rfl, ⟨h.counted.numOut, fun _ _ _ => rfl⟩,
    h.works.of_eq rfl rfl rfl rfl, h.null⟩

theorem Kept.step (h : Kept n w) (e : Event) : Ensures (· = .notThere) (w.step e) (Kept n) := by
  cases e with
  | check i => exact h.check
  | enter i signalled => exact h.enter
  | start i => exact h.start
  | finish i => exact h.finish
  | erase i => exact h.erase
  | leave i => exact h.leave
  | ask a => exact h.ask
  | look a => exact h.look
  | insert a => exact h.insert
  | execute a => exact h.execute
  | wake a => exact h.wake
  | shutDown => exact h.shutDown

theorem Kept.idle {e : Event} (h : Kept n w) (he : w.step e = .ok w') (ha : w.client a = .idle) (hother : e ≠ .ask a) :
    w'.client a = .idle := by
  have hawake : ∀ b ∈ w.asleep, b ≠ a := by
    rintro b hb rfl
    simp [(h.sleepers.mem b).mp hb] at ha
  cases e with
  | enter i signalled =>
    rw [World.step] at he
    split_ifs at he with hp
    cases signalled with
    | none =>
      cases he
      exact ha
    | some b =>
      cases he
      have := hawake b (of_decide_eq_true hp.2)
      simp [World.wakeUp, setClient_client, this.symm, ha]
  | leave i =>
    rw [World.step] at he
    split_ifs at he with hp
    dsimp only at he
    have hnot : a ∉ w.asleep := fun hm => hawake a hm rfl
    split_ifs at he <;> cases he <;> simp [World.wakeAll, hnot, ha]
  | ask b =>
    rw [World.step] at he
    split_ifs at he with hg
    cases he
    have hb : a ≠ b := fun hab => hother (hab ▸ rfl)
    rw [setClient_client, if_neg hb, ha]
  | look b =>
    rw [World.step] at he
    split_ifs at he with hg
    have hne : a ≠ b := by
      rintro rfl
      simp [ha] at hg
    obtain ⟨-, -, hr⟩ | ⟨-, hr⟩ | ⟨-, i, -, hr⟩ := takeWaiting_cases w b
    all_goals
      rw [hr] at he
      cases he
      simp [setClient_client, hne, ha]
  | insert b =>
    rw [World.step] at he
    split at he
    · next i hc =>
      cases he
      have hne : a ≠ b := by
        rintro rfl
        simp [ha] at hc
      simp [setClient_client, hne, ha]
    · cases he
  | execute b =>
    rw [World.step] at he
    split at he
    · cases he
      simp [setClient_client, ha]
    · cases he
  | wake b =>
    rw [World.step] at he
    split_ifs at he with hb
    cases he
    rw [wakeUp_client, if_neg (hawake b hb).symm, ha]
  | shutDown =>
    cases he
    exact ha
  | check i =>
    rw [World.step] at he
    split_ifs at he <;> cases he <;> exact ha
  | start i =>
    rw [World.step] at he
    split_ifs at he
    cases he
    exact ha
  | finish i =>
    rw [World.step] at he
    split_ifs at he
    cases he
    exact ha
  | erase i =>
    rw [World.step] at he
    split_ifs at he
    cases he
    exact ha

end Steps

def Reached (n : ℕ) : World → Prop := Reachable World.step (fun _ _ => True) (· = World.start n)

theorem Reached.kept {n : ℕ} {w : World} (h : Reached n w) : Kept n w := by
  apply Reachable.invariant h
  · rintro _ rfl
    exact kept_start n
  · intro e w w' hw _ he
    exact (hw.step e).of_eq_ok he

def World.withWork (w : World) (n id : ℕ) : Finset ℕ :=
  (Finset.range n).filter fun i => w.okToExecute i = true ∧ w.runMe i = some id

theorem Kept.count_done {n id : ℕ} {w : World} (h : Kept n w) (hid : id < w.given) :
    w.done.count id + (w.withWork n id).card = 1 := by
  by_cases hdone : id ∈ w.done
  · have hnone : w.withWork n id = ∅ := by
      apply Finset.filter_eq_empty_iff.mpr
      rintro i - ⟨hok, hi⟩
      exact (h.works.pending i id hok hi).2 hdone
    rw [List.count_eq_one_of_mem h.works.once hdone, hnone, Finset.card_empty]
  · obtain hd | ⟨i, hok, hi⟩ := h.works.covered id hid
    · exact absurd hd hdone
    · have hlt : i < n := by
        apply h.places.lt
        obtain hp | hp := h.places.ready i hok <;> simp [hp]
      have hone : w.withWork n id = {i} := by
        ext j
        rw [World.withWork, Finset.mem_filter, Finset.mem_range, Finset.mem_singleton]
        constructor
        · rintro ⟨-, hj, hjd⟩
          exact h.works.alone j i id hj hok hjd hi
        · rintro rfl
          exact ⟨hlt, hok, hi⟩
      rw [List.count_eq_zero_of_not_mem hdone, hone, Finset.card_singleton]

theorem reached_exclusive {n : ℕ} {w : World} (h : Reached n w) :
    (∀ e stop, w.step e = .error stop → stop = .notThere) ∧
    (∀ a b i, (w.client a).holds i → (w.client b).holds i → a = b) ∧
    (∀ a i, (w.client a).holds i → w.place i = .parked ∧ w.okToExecute i = false ∧ i ∉ w.waiting) ∧
    (∀ id < w.given, w.done.count id + (w.withWork n id).card = 1) ∧
    (∀ a, w.client a = .null → ∀ i, w.place i = .dead) := by
  have hk := h.kept
  refine ⟨fun e stop he => ?_, hk.places.alone, fun a i hi => ?_, fun id hid => hk.count_done hid, fun a ha => ?_⟩
  · have := hk.step e
    rw [he] at this
    exact this
  · obtain ⟨hp, hok⟩ := hk.places.held a i hi
    exact ⟨hp, hok, fun hw => ((hk.places.waiting i).mp hw).2.2 a hi⟩
  · exact hk.dead_of_numOut (hk.null a ha)

def oneWork : List Event :=
  [.check 0, .enter 0 none, .ask (.outside 0), .look (.outside 0), .insert (.outside 0), .execute (.outside 0), .start 0]

theorem Reached.of_runAll {n : ℕ} {w : World} (es : List Event)
    (h : runAll World.step (fun _ _ => true) es (World.start n) = some w) : Reached n w :=
  Reachable.of_runAll (fun _ _ _ => trivial) (.start rfl) h

theorem reached_exclusive_oneWork : ∃ w, runAll World.step (fun _ _ => true) oneWork (World.start 1) = some w ∧
    w.given = 1 ∧ w.done.count 0 + (w.withWork 1 0).card = 1 := by
  refine ⟨_, rfl, rfl, ?_⟩
  exact (reached_exclusive (n := 1) (.of_runAll oneWork rfl)).2.2.2.1 0 Nat.zero_lt_one

section Stuck

variable {n : ℕ} {w : World}

def Event.internal : Event → Bool
  | .ask _ => false
  | .wake _ => false
  | .shutDown => false
  | _ => true

def Stuck (w : World) : Prop := ∀ e : Event, e.internal = true → w.step e = .error .notThere

theorem exists_signals (w : World) : ∃ signalled, w.signals signalled = true := by
  cases hs : w.asleep with
  | nil => exact ⟨none, by simp [World.signals, hs]⟩
  | cons a rest => exact ⟨some a, by simp [World.signals, hs]⟩

theorem Stuck.place (h : Stuck w) (hk : Kept n w) (i : ℕ) :
    w.place i = .dead ∨ (w.place i = .parked ∧ w.okToExecute i = false) ∨
      (w.place i = .running ∧ w.client (.inWork i) ≠ .idle) := by
  cases hp : w.place i with
  | checking =>
    have := h (.check i) rfl
    rw [World.step, if_pos hp] at this
    cases this
  | entering =>
    obtain ⟨signalled, hs⟩ := exists_signals w
    have := h (.enter i signalled) rfl
    rw [World.step, if_pos ⟨hp, hs⟩] at this
    cases this
  | parked =>
    have := h (.start i) rfl
    rw [World.step] at this
    split_ifs at this with hok
    refine .inr (.inl ⟨rfl, ?_⟩)
    simpa [hp] using hok
  | running =>
    have := h (.finish i) rfl
    rw [World.step] at this
    split_ifs at this with hidle
    exact .inr (.inr ⟨rfl, fun hc => hidle ⟨hp, hc⟩⟩)
  | finished =>
    have := h (.erase i) rfl
    rw [World.step, if_pos hp, if_pos (hk.places.erase hp).1] at this
    cases this
  | leaving =>
    have := h (.leave i) rfl
    rw [World.step, if_pos hp] at this
    cases this
  | dead => exact .inl rfl

theorem Stuck.client (h : Stuck w) (a : Actor) : w.client a = .idle ∨ w.client a = .sleeping ∨ w.client a = .null := by
  have hlook : ¬(w.client a = .asking ∨ w.client a = .woken) := by
    intro hc
    have := h (.look a) rfl
    rw [World.step, if_pos hc] at this
    obtain ⟨-, -, he⟩ | ⟨-, he⟩ | ⟨-, i, -, he⟩ := takeWaiting_cases w a <;> rw [he] at this <;> cases this
  cases hc : w.client a with
  | idle => exact .inl rfl
  | asking => exact absurd (.inl hc) hlook
  | sleeping => exact .inr (.inl rfl)
  | woken => exact absurd (.inr hc) hlook
  | popped i =>
    have := h (.insert a) rfl
    rw [World.step, hc] at this
    cases this
  | has i =>
    have := h (.execute a) rfl
    rw [World.step, hc] at this
    cases this
  | null => exact .inr (.inr rfl)

theorem Stuck.not_parked (h : Stuck w) (hk : Kept n w) {a : Actor} (ha : w.client a = .sleeping) (i : ℕ) :
    ¬(w.place i = .parked ∧ w.okToExecute i = false) := by
  rintro ⟨hp, hok⟩
  have hmem : i ∈ w.waiting := by
    apply (hk.places.waiting i).mpr
    refine ⟨hp, hok, ?_⟩
    rintro b (hb | hb) <;> simpa [hb] using h.client b
  obtain ⟨woken, -, hall, hle⟩ := hk.sleepers.woken (List.ne_nil_of_mem ((hk.sleepers.mem a).mpr ha))
  have hpos := List.length_pos_of_mem hmem
  obtain ⟨b, hb⟩ := List.exists_mem_of_length_pos (hpos.trans_le hle)
  simpa [hall b hb] using h.client b

theorem Kept.stuck_iff (hk : Kept n w) :
    (Stuck w ∧ ∃ a, w.client a = .sleeping) ↔
      (∀ a, w.client a = .idle ∨ w.client a = .sleeping) ∧
      (∀ i, w.place i = .dead ∨ (w.place i = .running ∧ w.client (.inWork i) = .sleeping)) ∧
      ∃ i, w.place i = .running := by
  constructor
  · rintro ⟨hstuck, a, ha⟩
    have hne := List.ne_nil_of_mem ((hk.sleepers.mem a).mpr ha)
    have hclient : ∀ b, w.client b = .idle ∨ w.client b = .sleeping := by
      intro b
      obtain hb | hb | hb := hstuck.client b
      · exact .inl hb
      · exact .inr hb
      · exact absurd (hk.null b hb) (hk.sleepers.numOut hne)
    have hplace : ∀ i, w.place i = .dead ∨ (w.place i = .running ∧ w.client (.inWork i) = .sleeping) := by
      intro i
      obtain hi | hi | ⟨hi, hbusy⟩ := hstuck.place hk i
      · exact .inl hi
      · exact absurd hi (hstuck.not_parked hk ha i)
      · exact .inr ⟨hi, (hclient (.inWork i)).resolve_left hbusy⟩
    refine ⟨hclient, hplace, ?_⟩
    by_contra hnone
    apply hk.sleepers.numOut hne
    have hempty : ((Finset.range n).filter fun i => w.place i ≠ .dead) = ∅ := by
      apply Finset.filter_eq_empty_iff.mpr
      intro i _ hi
      exact hnone ⟨i, ((hplace i).resolve_left hi).1⟩
    rw [hk.counted.numOut, hempty, Finset.card_empty]
    rfl
  · rintro ⟨hclient, hplace, i, hi⟩
    refine ⟨fun e he => ?_, .inWork i, ?_⟩
    · cases e with
      | check j => obtain hj | ⟨hj, -⟩ := hplace j <;> simp [World.step, hj]
      | enter j signalled => obtain hj | ⟨hj, -⟩ := hplace j <;> simp [World.step, hj]
      | start j => obtain hj | ⟨hj, -⟩ := hplace j <;> simp [World.step, hj]
      | finish j => obtain hj | ⟨hj, hs⟩ := hplace j <;> simp [World.step, *]
      | erase j => obtain hj | ⟨hj, -⟩ := hplace j <;> simp [World.step, hj]
      | leave j => obtain hj | ⟨hj, -⟩ := hplace j <;> simp [World.step, hj]
      | ask a => cases he
      | look a => obtain ha | ha := hclient a <;> simp [World.step, ha]
      | insert a => obtain ha | ha := hclient a <;> simp [World.step, ha]
      | execute a => obtain ha | ha := hclient a <;> simp [World.step, ha]
      | wake a => cases he
      | shutDown => cases he
    · have := hplace i
      rw [hi] at this
      simpa using this

theorem stuck_asleep_iff (h : Reached n w) :
    (Stuck w ∧ ∃ a, w.client a = .sleeping) ↔
      (∀ a, w.client a = .idle ∨ w.client a = .sleeping) ∧
      (∀ i, w.place i = .dead ∨ (w.place i = .running ∧ w.client (.inWork i) = .sleeping)) ∧
      ∃ i, w.place i = .running := h.kept.stuck_iff

theorem stuck_asleep_iff_oneWork :
    ∃ w, runAll World.step (fun _ _ => true) (oneWork ++ [.ask (.inWork 0), .look (.inWork 0)]) (World.start 1) = some w ∧
      Stuck w := by
  refine ⟨_, rfl, ?_⟩
  refine ((stuck_asleep_iff (n := 1) (.of_runAll (oneWork ++ [.ask (.inWork 0), .look (.inWork 0)]) rfl)).mpr
    ⟨fun a => ?_, fun i => ?_, 0, rfl⟩).1
  · by_cases ha : a = .inWork 0
    · subst ha
      exact .inr rfl
    · by_cases ho : a = .outside 0
      · subst ho
        exact .inl rfl
      · simp only [setClient_client, setPlace_client, if_neg ha, if_neg ho]
        exact .inl rfl
  · by_cases hi : i = 0
    · subst hi
      exact .inr ⟨rfl, rfl⟩
    · simp only [setPlace_place, setClient_place, if_neg hi]
      exact .inl (if_neg (by omega))

end Stuck

section Nested

variable {n k : ℕ} {w : World}

theorem Reached.next {e : Event} {w' : World} (h : Reached n w) (he : w.step e = .ok w') : Reached n w' :=
  Reachable.step h trivial he

structure Busy (n k : ℕ) (w : World) : Prop where
  reached : Reached n w
  running : ∀ i < k, w.place i = .running
  fresh : ∀ i, k ≤ i → i < n → w.place i = .checking
  waiting : w.waiting = []
  asleep : w.asleep = []
  shuttingDown : w.shuttingDown = false
  client : ∀ a, w.client a = .idle

theorem Busy.next (h : Busy n k w) (hk : k < n) : ∃ w', Busy n (k + 1) w' := by
  have hp := h.fresh k le_rfl hk
  have hidle := h.client (.outside 0)
  have hout : w.numOut ≠ 0 := by
    have := h.reached.kept.numOut_pos (i := k) (by simp [hp])
    omega
  have h₁ : Reached n (w.setPlace k .entering) :=
    h.reached.next (e := .check k) (by simp [World.step, hp, h.shuttingDown])
  have h₂ := h₁.next (e := .enter k none) (by simp [World.step, setPlace_place, World.signals, h.asleep]; rfl)
  have h₃ := h₂.next (e := .ask (.outside 0)) (by simp [World.step, hidle, World.acts]; rfl)
  have h₄ := h₃.next (e := .look (.outside 0)) (by
    simp [World.step, setClient_client, World.takeWaiting, hout, h.waiting]; rfl)
  have h₅ := h₄.next (e := .insert (.outside 0)) (by simp [World.step, setClient_client]; rfl)
  have h₆ := h₅.next (e := .execute (.outside 0)) (by simp [World.step, setClient_client]; rfl)
  have h₇ := h₆.next (e := .start k) (by simp [World.step, setPlace_place]; rfl)
  refine ⟨_, h₇, fun i hi => ?_, fun i hi hn => ?_, rfl, rfl, h.shuttingDown, fun a => ?_⟩
  · simp only [setPlace_place, setClient_place]
    have := h.running i
    grind
  · simp only [setPlace_place, setClient_place]
    have := h.fresh i
    grind
  · simp only [setPlace_client, setClient_client]
    have := h.client a
    grind

structure Asked (n k : ℕ) (w : World) : Prop where
  reached : Reached n w
  running : ∀ i < n, w.place i = .running
  waiting : w.waiting = []
  sleeping : ∀ i < k, w.client (.inWork i) = .sleeping
  idle : ∀ a, (∀ i < k, a ≠ .inWork i) → w.client a = .idle

theorem Asked.next (h : Asked n k w) (hk : k < n) : ∃ w', Asked n (k + 1) w' := by
  have hp := h.running k hk
  have hidle := h.idle (.inWork k) (by simp; omega)
  have hout : w.numOut ≠ 0 := by
    have := h.reached.kept.numOut_pos (i := k) (by simp [hp])
    omega
  have h₁ := h.reached.next (e := .ask (.inWork k)) (by simp [World.step, hidle, World.acts, hp]; rfl)
  have h₂ := h₁.next (e := .look (.inWork k)) (by
    simp [World.step, setClient_client, World.takeWaiting, hout, h.waiting]; rfl)
  refine ⟨_, h₂, h.running, rfl, fun i hi => ?_, fun a ha => ?_⟩
  · simp only [setClient_client]
    have := h.sleeping i
    grind
  · simp only [setClient_client]
    have := h.idle a
    grind

theorem nested_stuck (n : ℕ) :
    ∃ w, Reached (n + 1) w ∧ Stuck w ∧ ∀ i ≤ n, w.place i = .running ∧ w.client (.inWork i) = .sleeping := by
  have hbusy : ∀ k ≤ n + 1, ∃ w, Busy (n + 1) k w := by
    intro k
    induction k with
    | zero =>
      refine fun _ => ⟨World.start (n + 1), .start rfl, by simp, fun i _ hi => ?_, rfl, rfl, rfl, fun _ => rfl⟩
      exact if_pos hi
    | succ k ih =>
      intro hk
      obtain ⟨w, hw⟩ := ih (by omega)
      exact hw.next hk
  have hasked : ∀ k ≤ n + 1, ∃ w, Asked (n + 1) k w := by
    intro k
    induction k with
    | zero =>
      intro _
      obtain ⟨w, hw⟩ := hbusy (n + 1) le_rfl
      exact ⟨w, hw.reached, hw.running, hw.waiting, by simp, fun a _ => hw.client a⟩
    | succ k ih =>
      intro hk
      obtain ⟨w, hw⟩ := ih (by omega)
      exact hw.next hk
  obtain ⟨w, hw⟩ := hasked (n + 1) le_rfl
  have hstuck := hw.reached.kept.stuck_iff.mpr ⟨fun a => ?_, fun i => ?_, 0, hw.running 0 (by omega)⟩
  · exact ⟨w, hw.reached, hstuck.1, fun i hi => ⟨hw.running i (by omega), hw.sleeping i (by omega)⟩⟩
  · by_cases ha : ∀ i < n + 1, a ≠ .inWork i
    · exact .inl (hw.idle a ha)
    · push Not at ha
      obtain ⟨i, hi, rfl⟩ := ha
      exact .inr (hw.sleeping i hi)
  · by_cases hi : i < n + 1
    · exact .inr ⟨hw.running i hi, hw.sleeping i hi⟩
    · exact .inl (hw.reached.kept.places.threads i (by omega))

end Nested

section ShutDown

variable {n : ℕ} {w w' : World} {actors : Finset Actor} {e : Event}

def destructor : Actor := .outside 0

def Closing (e : Event) : Prop :=
  match e with
  | .ask a => a = destructor
  | .wake _ => False
  | .shutDown => False
  | _ => True

def Place.rank : Place → Bool → ℕ
  | .entering, _ => 7
  | .parked, false => 6
  | .parked, true => 5
  | .running, _ => 4
  | .finished, _ => 3
  | .checking, _ => 2
  | .leaving, _ => 1
  | .dead, _ => 0

def Client.rank : Client → ℕ
  | .idle => 5
  | .asking => 4
  | .woken => 4
  | .popped _ => 2
  | .has _ => 1
  | .sleeping => 0
  | .null => 0

def World.remaining (w : World) (n : ℕ) : ℕ := ∑ i ∈ Finset.range n, (w.place i).rank (w.okToExecute i)

def World.pending (w : World) (actors : Finset Actor) : ℕ := ∑ a ∈ actors, (w.client a).rank

structure Draining (n : ℕ) (actors : Finset Actor) (w : World) : Prop where
  kept : Kept n w
  shuttingDown : w.shuttingDown = true
  inWork : ∀ i, w.client (.inWork i) = .idle
  others : ∀ a, a ∉ actors → w.client a = .idle
  destroys : destructor ∈ actors

theorem pending_le (w : World) (actors : Finset Actor) : w.pending actors ≤ 5 * actors.card := by
  rw [World.pending, Nat.mul_comm, ← smul_eq_mul]
  apply Finset.sum_le_card_nsmul
  intro a _
  cases w.client a <;> simp [Client.rank]

theorem remaining_lt {i : ℕ} (hi : i < n) (hrest : ∀ j, j ≠ i → w'.place j = w.place j ∧ w'.okToExecute j = w.okToExecute j)
    (hlt : (w'.place i).rank (w'.okToExecute i) < (w.place i).rank (w.okToExecute i)) :
    w'.remaining n < w.remaining n := by
  apply Finset.sum_lt_sum
  · intro j _
    by_cases hj : j = i
    · subst hj
      exact hlt.le
    · rw [(hrest j hj).1, (hrest j hj).2]
  · exact ⟨i, Finset.mem_range.mpr hi, hlt⟩

theorem pending_lt {a : Actor} (ha : a ∈ actors) (hrest : ∀ b, b ≠ a → w'.client b = w.client b)
    (hlt : (w'.client a).rank < (w.client a).rank) : w'.pending actors < w.pending actors := by
  apply Finset.sum_lt_sum
  · intro b _
    by_cases hb : b = a
    · subst hb
      exact hlt.le
    · rw [hrest b hb]
  · exact ⟨a, ha, hlt⟩

def Descends (n : ℕ) (actors : Finset Actor) (w w' : World) : Prop :=
  w'.remaining n < w.remaining n ∨ w'.remaining n = w.remaining n ∧ w'.pending actors < w.pending actors

theorem Draining.mem (h : Draining n actors w) {a : Actor} (ha : w.client a ≠ .idle) : a ∈ actors := by
  by_contra hnot
  exact ha (h.others a hnot)

theorem Draining.moved {i : ℕ} (h : Draining n actors w) (hp : w.place i ≠ .dead)
    (hrest : ∀ j, j ≠ i → w'.place j = w.place j ∧ w'.okToExecute j = w.okToExecute j)
    (hlt : (w'.place i).rank (w'.okToExecute i) < (w.place i).rank (w.okToExecute i)) : Descends n actors w w' :=
  .inl (remaining_lt (h.kept.places.lt hp) hrest hlt)

theorem Draining.descends (h : Draining n actors w) (hclosing : Closing e) (he : w.step e = .ok w') :
    Descends n actors w w' := by
  cases e with
  | check i =>
    rw [World.step] at he
    split_ifs at he with hp hshut
    · cases he
      refine h.moved (i := i) (by simp [hp]) (fun j hj => ?_) ?_
      · simp [setPlace_place, hj]
      · simp [setPlace_place, hp, Place.rank]
    · exact absurd h.shuttingDown hshut
  | enter i signalled =>
    rw [World.step] at he
    split_ifs at he with hp
    have hok := h.kept.places.not_ready (i := i) (by simp [hp.1]) (by simp [hp.1])
    refine h.moved (i := i) (by simp [hp]) (fun j hj => ?_) ?_
    · cases signalled <;> cases he <;> simp [setPlace_place, hj, World.wakeUp]
    · cases signalled <;> cases he <;> simp [setPlace_place, hp.1, hok, Place.rank, World.wakeUp]
  | start i =>
    rw [World.step] at he
    split_ifs at he with hp
    cases he
    refine h.moved (i := i) (by simp [hp]) (fun j hj => ?_) ?_
    · simp [setPlace_place, hj]
    · simp [setPlace_place, hp.1, hp.2, Place.rank]
  | finish i =>
    rw [World.step] at he
    split_ifs at he with hp
    cases he
    refine h.moved (i := i) (by simp [hp]) (fun j hj => ?_) ?_
    · simp [setPlace_place, hj]
    · simp [setPlace_place, hp.1, Place.rank]
  | erase i =>
    rw [World.step] at he
    split_ifs at he with hp hw
    cases he
    refine h.moved (i := i) (by simp [hp]) (fun j hj => ?_) ?_
    · simp [setPlace_place, hj]
    · simp [setPlace_place, hp, Place.rank]
  | leave i =>
    rw [World.step] at he
    split_ifs at he with hp
    dsimp only at he
    refine h.moved (i := i) (by simp [hp]) (fun j hj => ?_) ?_
    · split_ifs at he <;> cases he <;> simp [setPlace_place, hj, World.wakeAll]
    · split_ifs at he <;> cases he <;> simp [setPlace_place, hp, Place.rank, World.wakeAll]
  | ask a =>
    rw [World.step] at he
    split_ifs at he with hg
    cases he
    have ha : a ∈ actors := (show a = destructor from hclosing) ▸ h.destroys
    refine .inr ⟨rfl, pending_lt ha (fun b hb => ?_) ?_⟩
    · simp [setClient_client, hb]
    · simp [setClient_client, hg.1, Client.rank]
  | look a =>
    rw [World.step] at he
    split_ifs at he with hg
    have hrank : (w.client a).rank = 4 := by
      obtain hg | hg := hg <;> rw [hg] <;> rfl
    have ha : a ∈ actors := h.mem (by obtain hg | hg := hg <;> simp [hg])
    obtain ⟨-, -, hr⟩ | ⟨-, hr⟩ | ⟨-, i, -, hr⟩ := takeWaiting_cases w a
    all_goals
      rw [hr] at he
      cases he
      refine .inr ⟨rfl, pending_lt ha (fun b hb => ?_) ?_⟩
      · simp [setClient_client, hb]
      · rw [hrank]
        simp [setClient_client, Client.rank]
  | insert a =>
    rw [World.step] at he
    split at he
    · next i hc =>
      cases he
      refine .inr ⟨rfl, pending_lt (h.mem (a := a) (by simp [hc])) (fun b hb => ?_) ?_⟩
      · simp [setClient_client, hb]
      · simp [setClient_client, hc, Client.rank]
    · cases he
  | execute a =>
    rw [World.step] at he
    split at he
    · next i hc =>
      cases he
      obtain ⟨hp, hok⟩ := h.kept.places.held a i (.inr hc)
      refine h.moved (i := i) (by simp [hp]) (fun j hj => ?_) ?_
      · simp [hj]
      · simp [hp, hok, Place.rank]
    · cases he
  | wake a => cases hclosing
  | shutDown => cases hclosing

theorem step_shuttingDown (hs : w.shuttingDown = true) (he : w.step e = .ok w') : w'.shuttingDown = true := by
  cases e <;> grind [World.step, World.takeWaiting, World.setPlace, World.setClient, World.wakeUp, World.wakeAll]

theorem Draining.idle (h : Draining n actors w) (hclosing : Closing e) (he : w.step e = .ok w') {a : Actor}
    (ha : w.client a = .idle) (hother : a ≠ destructor) : w'.client a = .idle := by
  refine h.kept.idle he ha ?_
  rintro rfl
  exact hother hclosing

theorem Draining.step (h : Draining n actors w) (hclosing : Closing e) (he : w.step e = .ok w') :
    Draining n actors w' where
  kept := (h.kept.step e).of_eq_ok he
  shuttingDown := step_shuttingDown h.shuttingDown he
  inWork := fun i => h.idle hclosing he (h.inWork i) (by simp [WorkerQueue.destructor])
  others := fun a ha => h.idle hclosing he (h.others a ha) fun heq => ha (heq ▸ h.destroys)
  destroys := h.destroys

def World.left (w : World) (n : ℕ) (actors : Finset Actor) : ℕ :=
  w.remaining n * (5 * actors.card + 1) + w.pending actors

theorem Descends.left_lt (h : Descends n actors w w') : w'.left n actors < w.left n actors := by
  have := pending_le w' actors
  obtain h | ⟨h, h'⟩ := h
  · have := Nat.mul_le_mul_right (5 * actors.card + 1) (Nat.succ_le_of_lt h)
    rw [Nat.succ_mul] at this
    unfold World.left
    omega
  · rw [World.left, World.left, h]
    omega

theorem Draining.ended (h : Draining n actors w) (hend : ∀ e, Closing e → w.step e = .error .notThere) :
    w.client destructor = .null ∧ ∀ i, w.place i = .dead := by
  have hstuck : Stuck w := by
    intro e he
    apply hend
    cases e <;> first | exact trivial | cases he
  have hidle : w.client destructor ≠ .idle := by
    intro hidle
    have := hend (.ask destructor) rfl
    rw [World.step, if_pos ⟨hidle, rfl⟩] at this
    cases this
  obtain hc | hc | hc := hstuck.client destructor
  · exact absurd hc hidle
  · obtain ⟨-, hplace, i, hi⟩ := h.kept.stuck_iff.mp ⟨hstuck, _, hc⟩
    have := hplace i
    rw [hi, h.inWork i] at this
    simp at this
  · exact ⟨hc, h.kept.dead_of_numOut (h.kept.null _ hc)⟩

theorem Reached.exists_actors (h : Reached n w) : ∃ actors : Finset Actor, ∀ a, a ∉ actors → w.client a = .idle := by
  have hboth : Kept n w ∧ ∃ actors : Finset Actor, ∀ a, a ∉ actors → w.client a = .idle := by
    apply Reachable.invariant h
    · rintro _ rfl
      exact ⟨kept_start n, ∅, fun _ _ => rfl⟩
    · rintro e w w' ⟨hw, actors, hidle⟩ _ he
      refine ⟨(hw.step e).of_eq_ok he, ?_⟩
      by_cases hask : ∃ a, e = .ask a
      · obtain ⟨a, rfl⟩ := hask
        refine ⟨insert a actors, fun b hb => ?_⟩
        rw [Finset.mem_insert, not_or] at hb
        exact hw.idle he (hidle b hb.2) fun heq => hb.1 (by cases heq; rfl)
      · exact ⟨actors, fun b hb => hw.idle he (hidle b hb) fun heq => hask ⟨b, heq⟩⟩
  exact hboth.2

theorem shutDown_ends (h : Reached n w) (hs : w.shuttingDown = true) (hwork : ∀ i, w.client (.inWork i) = .idle) :
    ∃ bound, ∀ es w', Runs World.step (fun e _ => Closing e) es w w' →
      es.length ≤ bound ∧
      ((∀ e, Closing e → w'.step e = .error .notThere) → w'.client destructor = .null ∧ ∀ i, w'.place i = .dead) := by
  obtain ⟨actors, hidle⟩ := h.exists_actors
  have hdrain : Draining n (insert destructor actors) w :=
    ⟨h.kept, hs, hwork, fun a ha => hidle a fun hm => ha (Finset.mem_insert_of_mem hm), Finset.mem_insert_self _ _⟩
  refine ⟨w.left n (insert destructor actors), fun es w' hrun => ⟨?_, fun hend => ?_⟩⟩
  · have := hrun.length_le (World.left · n (insert destructor actors)) hdrain fun e v v' hv hc he =>
      ⟨hv.step hc he, (hv.descends hc he).left_lt⟩
    omega
  · exact (hrun.invariant hdrain fun e v v' hv hc he => hv.step hc he).ended hend

theorem shutDown_ends_twoThreads : ∃ w bound, runAll World.step (fun _ _ => true)
      (oneWork ++ [.ask (.outside 1), .look (.outside 1), .shutDown]) (World.start 2) = some w ∧
    w.place 0 = .running ∧ w.client (.outside 1) = .sleeping ∧
    ∀ es w', Runs World.step (fun e _ => Closing e) es w w' → es.length ≤ bound ∧
      ((∀ e, Closing e → w'.step e = .error .notThere) → w'.client destructor = .null ∧ ∀ i, w'.place i = .dead) := by
  obtain ⟨bound, hends⟩ := shutDown_ends (n := 2)
    (.of_runAll (oneWork ++ [.ask (.outside 1), .look (.outside 1), .shutDown]) rfl) rfl fun _ => rfl
  exact ⟨_, bound, rfl, rfl, rfl, hends⟩

end ShutDown

end PlinyCompute.WorkerQueue
