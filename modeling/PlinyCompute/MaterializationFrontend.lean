import PlinyCompute.MaterializationBackend

namespace PlinyCompute.Materialization

open BufferManager (Config)
open StorageFrontend StorageHandlers Transition

section Frontend

variable {cfg : Config} {endReadsEmpty : Bool} {set : SetId} {pages : List (Page cfg)} {w₀ w w' : World cfg} {i j p : ℕ}

theorem Kept.admits (hk : Kept set pages w₀ w) (hidle : w.fe ≠ .idle) : ∃ size, w.catalog set = some size := by
  have hc := hk.tables.catalog
  cases h₀ : w₀.catalog set with
  | none => exact absurd (hk.missing h₀) hidle
  | some size =>
    rw [h₀] at hc
    exact ⟨_, hc⟩

theorem Kept.handle {sent : Bool} {what : Text} (hk : Kept set pages w₀ w) (hn : 0 < pages.length)
    (hs : (Event.handle sent what).Sound set pages endReadsEmpty w)
    (h : step endReadsEmpty set pages (.handle sent what) w = .ok w') : Kept set pages w₀ w' := by
  rw [step] at h
  split at h
  · rename_i ms fe htf
    have hexists : w₀.catalog set ≠ none := by
      intro hnone
      apply hs
      rw [hk.tables.catalog, hnone]
      rfl
    have hstored : w.stored = [] := (hk.tables.idle fe).2.2.2
    rcases hk.health with hh | hd
    · obtain ⟨rfl, be, tb⟩ : ms = [] ∧ w.be = .waitingForResponse ∧ w.toBackend = [] := by
        cases hh.linked <;> grind
      have hbroken : w.broken = false := hh.unbroken (by rw [be]; simp)
      have htables : ∀ w' : World cfg, w'.frontend = w.frontend → w'.page = w.page → w'.catalog = w.catalog →
          w'.totalSize = w.totalSize → w'.stored = w.stored → w'.fe = .taking 0 → Tables set pages w₀ w' := by
        intro w' hf hp hc ht hst hfe
        apply hk.tables.moves hf hp hc ht hst
        · rw [hfe, fe]
          rfl
        · rw [hfe, fe]
          rfl
        · intro k hk
          rw [hfe] at hk
          cases hk
          rw [hstored]
          rfl
        · rw [hfe]
          rintro ⟨⟩
        · rw [hfe]
          simp
      cases sent with
      | true =>
        rw [if_pos rfl, World.sendBackend, if_neg (by rw [hbroken]; exact Bool.false_ne_true)] at h
        cases h
        refine ⟨htables _ rfl rfl rfl rfl rfl rfl, trivial, ?_, fun h₀ => absurd h₀ hexists, .inl ⟨?_, hh.faulty, ?_⟩, ?_⟩
        · rintro _ ⟨⟩
          exact hn
        · refine .admitted (.inl rfl) be rfl (if (w.catalog set).isSome then [] else nonexistent) ?_
          dsimp only
          rw [tb]
          rfl
        · exact hh.broken
        · exact hk.fault
      | false =>
        cases h
        refine ⟨htables _ rfl rfl rfl rfl rfl rfl, trivial, ?_, fun h₀ => absurd h₀ hexists, .inr ?_, fun _ => rfl⟩
        · rintro _ ⟨⟩
          exact hn
        · have hbe : w.be ≠ .starting ∧ w.be ≠ .connected ∧ w.be ≠ .ended true := by
            rw [be]
            exact ⟨(by simp), (by simp), by simp⟩
          constructor
          · refine ⟨(by simp), (by simp), ?_, by simp⟩
            dsimp only
            rw [hstored]
            exact hn
          · exact hbe.2.2
          · rintro (h | h)
            · exact absurd h hbe.1
            · exact absurd h hbe.2.1
          · intro k hk
            rw [be] at hk
            cases hk
          · simp
          · intro q hq
            rw [tb] at hq
            cases hq
          · intro k q hq
            rw [be] at hq
            cases hq
          · exact fun _ => ⟨rfl, tb⟩
          · exact .inr (.inr (.inr ⟨be, rfl, .inl ⟨.inl rfl, tb⟩⟩))
    · have := hd.toFrontend .request (by rw [htf]; exact List.mem_cons_self ..)
      cases this
  · cases h

theorem Doomed.frontend (hd : Doomed set pages w₀ w) (hidle : w.fe ≠ .idle) (hu : Unfinished pages w')
    (hw : w'.be = w.be ∧ w'.stored = w.stored ∧ w'.broken = w.broken ∧ w'.toBackend = w.toBackend)
    (htf : ∀ m ∈ w'.toFrontend, m ∈ w.toFrontend)
    (hactive : ∀ i p, w.be.page = some (i, p) → w'.page set p = w.page set p ∧
      (w'.fe = .forwarding i p ∨ w'.fe = .waiting i p ∨ w'.fe.gaveUp = true))
    (hreason : w.broken = true ∨ w'.fe.gaveUp = true ∨ w.be = .ended false ∨ Unanswered w') : Doomed set pages w₀ w' := by
  obtain ⟨hbe, hs, hbroken, htb⟩ := hw
  refine { hu with
    be := hbe ▸ hd.be
    early := ?_
    backRound := hbe ▸ hd.backRound
    toFrontend := fun m hm => hd.toFrontend m (htf m hm)
    toBackend := by
      rw [hbe, htb]
      exact hd.toBackend
    active := ?_
    emptied := ?_
    reason := by
      rw [hbroken, hbe]
      exact hreason }
  · rw [hbe]
    exact fun h => absurd (hd.early h) hidle
  · intro i p hp
    rw [hbe] at hp
    obtain ⟨hcut, hold⟩ := hd.active i p hp
    obtain ⟨hpage, hfe⟩ := hactive i p hp
    exact ⟨hbroken.trans hcut, hs ▸ hold.unstored, hold.fresh, hpage ▸ hold.room, hfe⟩
  · intro hb
    obtain ⟨hf, ht⟩ := hd.emptied (hbroken ▸ hb)
    refine ⟨List.eq_nil_iff_forall_not_mem.mpr fun m hm => ?_, htb.trans ht⟩
    have := htf m hm
    rw [hf] at this
    cases this

theorem Doomed.page_eq_none (hd : Doomed set pages w₀ w) (h : w.fe.gaveUp = false)
    (hf : ∀ i p, w.fe ≠ .forwarding i p ∧ w.fe ≠ .waiting i p) : w.be.page = none := by
  rw [Option.eq_none_iff_forall_ne_some]
  rintro ⟨i, p⟩ hp
  rcases (hd.active i p hp).2.frontend with h' | h' | h'
  · exact (hf i p).1 h'
  · exact (hf i p).2 h'
  · rw [h] at h'
    cases h'

theorem Doomed.cause (hd : Doomed set pages w₀ w) (h : w.fe.gaveUp = false) :
    w.broken = true ∨ w.be = .ended false ∨ Unanswered w := by
  refine hd.reason.imp_right fun hrest => hrest.resolve_left ?_
  rw [h]
  exact Bool.false_ne_true

theorem Kept.takePage {first : ℕ} (hk : Kept set pages w₀ w)
    (hs : (Event.takePage first).Sound set pages endReadsEmpty w)
    (h : step endReadsEmpty set pages (.takePage first) w = .ok w') : Kept set pages w₀ w' := by
  rw [step] at h
  cases hfe : w.fe with
  | taking j =>
    rw [hfe] at h
    dsimp only at h
    cases hrun : StorageHandlers.takePage endReadsEmpty w.frontend set first with
    | error e =>
      rw [hrun] at h
      cases h
    | ok x =>
      obtain ⟨p, f⟩ := x
      rw [hrun] at h
      cases h
      obtain ⟨hend, hfirst, husable⟩ := hs
      have htaken := taken_of_takePage hend hfirst hrun
      have hidle : w.fe ≠ .idle := by
        rw [hfe]
        simp
      refine ⟨hk.tables.takes hfe htaken, husable j p f hfe hrun, ?_, fun h₀ => absurd (hk.missing h₀) hidle, ?_, hk.fault⟩
      · rintro _ ⟨⟩
        exact hk.short j (by rw [hfe]; rfl)
      · rcases hk.health with hh | hd
        · refine .inl ⟨?_, hh.faulty, hh.broken⟩
          cases hh.linked with
          | admitted fe be tf e tb =>
            obtain rfl : j = 0 := by grind
            exact .admitted (.inr ⟨p, rfl⟩) be tf e tb
          | ready k fe be tf tb =>
            obtain rfl : j = k := by grind
            exact .ready j (.inr ⟨p, rfl⟩) be tf tb
          | _ => grind
        · have hnone := hd.page_eq_none (by rw [hfe]; rfl) (by rw [hfe]; exact fun _ _ => ⟨(by simp), (by simp)⟩)
          refine .inr (hd.frontend hidle ⟨(by simp), (by simp), hd.short, (by simp)⟩ ⟨rfl, rfl, rfl, rfl⟩ (fun m hm => hm) ?_ ?_)
          · rw [hnone]
            simp
          · rcases hd.cause (by rw [hfe]; rfl) with h | h | h
            · exact .inl h
            · exact .inr (.inr (.inl h))
            · refine .inr (.inr (.inr ⟨h.be, h.tf, .inl ⟨.inr ⟨p, ?_⟩, ?_⟩⟩))
              · have := h.fe
                rw [hfe] at this
                simp only [FrontendAt.taking.injEq, reduceCtorEq, exists_false, or_false, false_and] at this
                rw [this.1]
              · have := h.fe
                rw [hfe] at this
                simpa using (this.resolve_right (by simp)).2
  | _ =>
    rw [hfe] at h
    cases h

theorem Doomed.frontendFails (hd : Doomed set pages w₀ w) (hwrites : w.fe.writes = some p) (failure : Failure)
    (hw : w'.be = w.be ∧ w'.stored = w.stored ∧ w'.broken = w.broken ∧ w'.toBackend = w.toBackend)
    (htf : ∀ m ∈ w'.toFrontend, m ∈ w.toFrontend) (hpage : w'.page = w.page) (hfe : w'.fe = .givingUp j p failure) :
    Doomed set pages w₀ w' := by
  have hidle : w.fe ≠ .idle := by
    intro hi
    rw [hi] at hwrites
    cases hwrites
  have hgave : w'.fe.gaveUp = true := by
    rw [hfe]
    rfl
  refine hd.frontend hidle ⟨?_, ?_, hw.2.1 ▸ hd.short, ?_⟩ hw htf (fun i q _ => ⟨by rw [hpage], .inr (.inr hgave)⟩)
    (.inr (.inl hgave))
  · rw [hfe]
    simp
  · rw [hfe]
    simp
  · rw [hfe]
    simp

theorem Tables.advances (h : Tables set pages w₀ w) (hround : w.fe.round = some j) (hwrites : w.fe.writes = some p)
    (hf : w'.frontend = w.frontend) (hp : w'.page = w.page) (hc : w'.catalog = w.catalog)
    (ht : w'.totalSize = w.totalSize) (hs : w'.stored = w.stored) (hround' : w'.fe.round = some j)
    (hwrites' : w'.fe.writes = some p) (hgave : w'.fe.gaveUp = false) : Tables set pages w₀ w' := by
  have hover : ∀ x : FrontendAt, x.round = some j → x.over = false ∧ x ≠ .idle := by
    intro x hx
    cases x with
    | idle => cases hx
    | informing failure => cases hx
    | updating => cases hx
    | ended success e => cases hx
    | _ => exact ⟨rfl, by simp⟩
  apply h.moves hf hp hc ht hs
  · rw [hwrites', hwrites]
  · rw [(hover _ hround').1, (hover _ hround).1]
  · intro k hk
    rw [hround'] at hk
    cases hk
    exact h.round j hround
  · intro hg
    rw [hgave] at hg
    cases hg
  · exact fun hi => absurd hi (hover _ hround').2

theorem Tables.fails (h : Tables set pages w₀ w) {failure : Failure} (hround : w.fe.round = some j)
    (hwrites : w.fe.writes = some p) (hf : w'.frontend = w.frontend) (hp : w'.page = w.page)
    (hc : w'.catalog = w.catalog) (ht : w'.totalSize = w.totalSize) (hs : w'.stored = w.stored)
    (hfe : w'.fe = .givingUp j p failure) (hfailed : w'.failedAt = some j) : Tables set pages w₀ w' := by
  have hover : w.fe.over = false := by
    cases hw : w.fe <;> rw [hw] at hround <;> first | rfl | cases hround
  apply h.moves hf hp hc ht hs
  · rw [hfe, hwrites]
    rfl
  · rw [hfe, hover]
    rfl
  · intro k hk
    rw [hfe] at hk
    cases hk
    exact h.round j hround
  · intro _
    rw [hfailed, h.round j hround]
  · rw [hfe]
    simp

theorem Kept.forwardPage {sent : Bool} (hk : Kept set pages w₀ w)
    (h : step endReadsEmpty set pages (.forwardPage sent) w = .ok w') : Kept set pages w₀ w' := by
  rw [step] at h
  cases hfe : w.fe with
  | getting j p =>
    have hidle : w.fe ≠ .idle := by
      rw [hfe]
      simp
    have hround : w.fe.round = some j := by
      rw [hfe]
      rfl
    have hj : j < pages.length := hk.short j hround
    have hfit := hk.fit
    unfold Fit at hfit
    rw [hfe] at h hfit
    dsimp only at h
    rw [hfit.2, if_neg Bool.false_ne_true] at h
    have hshort : w.stored.length < pages.length := by
      rw [hk.tables.round j hround]
      exact hj
    cases sent with
    | true =>
      rw [if_pos rfl] at h
      have hwrites : w.fe.writes = some p := by
        rw [hfe]
        rfl
      have hshort' : ∀ k, (FrontendAt.forwarding j p).round = some k → k < pages.length := by
        rintro _ ⟨⟩
        exact hj
      by_cases hbroken : w.broken = true
      · rw [World.sendBackend, if_pos (show (w.mark set p true).broken = true from hbroken)] at h
        cases h
        refine ⟨hk.tables.advances hround hwrites rfl rfl rfl rfl rfl rfl rfl rfl, hfit.1, hshort', fun h₀ => absurd (hk.missing h₀) hidle, ?_, hk.fault⟩
        rcases hk.health with hh | hd
        · have := hh.broken hbroken
          cases hh.linked <;> grind
        · have hnone := hd.page_eq_none (by rw [hfe]; rfl) (by rw [hfe]; exact fun _ _ => ⟨(by simp), (by simp)⟩)
          refine .inr (hd.frontend hidle ⟨by rintro ⟨⟩, by rintro _ ⟨⟩, hshort, by rintro _ _ _ _ (h | h) <;> cases h⟩ ⟨rfl, rfl, rfl, rfl⟩ (fun m hm => hm) ?_ ?_)
          · rw [hnone]
            simp
          · exact .inl hbroken
      · rw [World.sendBackend, if_neg (show ¬(w.mark set p true).broken = true from hbroken)] at h
        cases h
        refine ⟨hk.tables.advances hround hwrites rfl rfl rfl rfl rfl rfl rfl rfl, hfit.1, hshort', fun h₀ => absurd (hk.missing h₀) hidle, ?_, hk.fault⟩
        rcases hk.health with hh | hd
        · refine .inl ⟨?_, hh.faulty, hh.broken⟩
          cases hh.linked with
          | admitted fe be tf e tb =>
            obtain rfl : j = 0 := by grind
            refine .forwardedEarly p rfl be tf e ?_
            change w.toBackend ++ _ = _
            rw [tb]
            rfl
          | ready k fe be tf tb =>
            obtain rfl : j = k := by grind
            refine .forwarded j p rfl be tf ?_
            change w.toBackend ++ _ = _
            rw [tb]
            rfl
          | _ => grind
        · have hnone := hd.page_eq_none (by rw [hfe]; rfl) (by rw [hfe]; exact fun _ _ => ⟨(by simp), (by simp)⟩)
          have hcase : w.be = .ended false ∨ w.be = .waitingForResponse ∧ w.toFrontend = [] ∧ j = 0 ∧ w.toBackend = [] := by
            rcases hd.cause (by rw [hfe]; rfl) with h | h | h
            · exact absurd h hbroken
            · exact .inl h
            · have hu := h.fe
              rw [hfe] at hu
              simp only [reduceCtorEq, FrontendAt.getting.injEq, false_or, false_and, exists_false, or_false] at hu
              obtain ⟨⟨_, hzero, -⟩, htb⟩ := hu
              exact .inr ⟨h.be, h.tf, hzero, htb⟩
          refine .inr {
            updating := by rintro ⟨⟩
            ended := by intro _ h; cases h
            short := hshort
            next := by rintro _ _ _ _ (h | h) <;> cases h
            be := hd.be
            early := fun hb => absurd (hd.early hb) hidle
            backRound := hd.backRound
            toFrontend := hd.toFrontend
            toBackend := ?_
            active := ?_
            emptied := fun hb => absurd hb hbroken
            reason := ?_ }
          · intro q hq
            rcases hcase with hb | ⟨hb, -, -, htb⟩
            · exact .inl hb
            · refine .inr ⟨hb, ?_⟩
              have hq : ToBackend.forward q ∈ w.toBackend ++ [.forward p] := hq
              change w.toBackend ++ [.forward p] = _
              rw [htb, List.nil_append] at hq ⊢
              rw [List.mem_singleton.mp hq]
          · intro i q hq
            have hq : w.be.page = some (i, q) := hq
            rw [hnone] at hq
            cases hq
          · rcases hcase with hb | ⟨hb, htf, rfl, htb⟩
            · exact .inr (.inr (.inl hb))
            · refine .inr (.inr (.inr ⟨hb, htf, .inr ⟨p, rfl, ?_⟩⟩))
              change w.toBackend ++ _ = _
              rw [htb]
              rfl
    | false =>
      cases h
      have hwrites : w.fe.writes = some p := by
        rw [hfe]
        rfl
      refine ⟨hk.tables.fails hround hwrites rfl rfl rfl rfl rfl rfl rfl, trivial, ?_,
        fun h₀ => absurd (hk.missing h₀) hidle, .inr ?_, fun _ => rfl⟩
      · rintro _ ⟨⟩
        exact hj
      · rcases hk.health with hh | hd
        · have hbe : w.be ≠ .starting ∧ w.be ≠ .connected ∧ w.be ≠ .ended true ∧ w.be.page = none ∧ w.toFrontend = [] ∧
              ∀ q, ToBackend.forward q ∉ w.toBackend := by
            cases hh.linked <;> grind [BackendAt.page]
          obtain ⟨h1, h2, h3, h4, h5, h6⟩ := hbe
          have hbroken := hh.unbroken h3
          exact {
            updating := by rintro ⟨⟩
            ended := by intro _ h; cases h
            short := hshort
            next := by rintro _ _ _ _ (h | h) <;> cases h
            be := h3
            early := fun hb => (hb.elim h1 h2).elim
            backRound := fun k => hk.backRound
            toFrontend := fun m (hm : m ∈ w.toFrontend) => by
              rw [h5] at hm
              cases hm
            toBackend := fun q hq => absurd hq (h6 q)
            active := fun i q (hq : w.be.page = some (i, q)) => by
              rw [h4] at hq
              cases hq
            emptied := fun (hb : w.broken = true) => by
              rw [hbroken] at hb
              cases hb
            reason := .inr (.inl rfl) }
        · exact hd.frontendFails hwrites .forwarding ⟨rfl, rfl, rfl, rfl⟩ (fun m hm => hm) rfl rfl
  | _ =>
    rw [hfe] at h
    cases h

theorem frontendReceives_eq_ok {m : Option ToFrontend} (h : w.frontendReceives = .ok (m, w')) :
    (∃ x ms, m = some x ∧ w.toFrontend = x :: ms ∧ w' = { w with toFrontend := ms }) ∨
      m = none ∧ w' = w ∧ w.toFrontend = [] ∧ (w.broken = true ∨ w.be.over = true) := by
  unfold World.frontendReceives at h
  cases htf : w.toFrontend with
  | nil =>
    rw [htf] at h
    dsimp only at h
    split_ifs at h with hc
    cases h
    exact .inr ⟨rfl, rfl, rfl, by simpa using hc⟩
  | cons x ms =>
    rw [htf] at h
    cases h
    exact .inl ⟨x, ms, rfl, rfl, rfl⟩

theorem Healthy.frontend_waits (hh : Healthy set pages w) (hfe : w.fe = .forwarding j p ∨ w.fe = .waiting j p)
    (htf : w.toFrontend = []) : ¬(w.broken = true ∨ w.be.over = true) := by
  have hbroken := hh.broken
  cases hh.linked <;> grind [BackendAt.over]

theorem Kept.frontendFails {ms : List ToFrontend} (hk : Kept set pages w₀ w) (hd : Doomed set pages w₀ w)
    (hround : w.fe.round = some j) (hwrites : w.fe.writes = some p) (failure : Failure) (error : Text)
    (hms : ∀ m ∈ ms, m ∈ w.toFrontend) :
    Kept set pages w₀ ({ w with toFrontend := ms, error }.frontendFails j p failure) := by
  have hidle : w.fe ≠ .idle := by
    intro hi
    rw [hi] at hround
    cases hround
  refine ⟨hk.tables.fails hround hwrites rfl rfl rfl rfl rfl rfl rfl, trivial, ?_,
    fun h₀ => absurd (hk.missing h₀) hidle, .inr ?_, fun _ => rfl⟩
  · rintro _ ⟨⟩
    exact hk.short j hround
  · exact hd.frontendFails hwrites failure ⟨rfl, rfl, rfl, rfl⟩ hms rfl rfl

theorem Kept.receiveForwarded (hk : Kept set pages w₀ w)
    (h : step endReadsEmpty set pages .receiveForwarded w = .ok w') : Kept set pages w₀ w' := by
  rw [step] at h
  cases hfe : w.fe with
  | forwarding j p =>
    rw [hfe] at h
    dsimp only at h
    have hidle : w.fe ≠ .idle := by
      rw [hfe]
      simp
    have hround : w.fe.round = some j := by
      rw [hfe]
      rfl
    have hwrites : w.fe.writes = some p := by
      rw [hfe]
      rfl
    have hmissing : w₀.catalog set = none → w.fe = .idle := hk.missing
    have hj : j < pages.length := hk.short j hround
    have hshort : w.stored.length < pages.length := by
      rw [hk.tables.round j hround]
      exact hj
    have hfit := hk.fit.at (.inl hfe)
    obtain ⟨⟨m, w₁⟩, hm, hr⟩ := bind_eq_ok.mp h
    clear h
    rcases frontendReceives_eq_ok hm with ⟨x, ms, rfl, htf, rfl⟩ | ⟨rfl, rfl, htf, hlost⟩
    · obtain rfl : x = .received := by
        rcases hk.health with hh | hd
        · cases hh.linked <;> grind
        · exact hd.toFrontend x (by rw [htf]; exact List.mem_cons_self ..)
      cases hr
      refine ⟨hk.tables.advances hround hwrites rfl rfl rfl rfl rfl rfl rfl rfl, hfit, ?_,
        fun h₀ => absurd (hmissing h₀) hidle, ?_, hk.fault⟩
      · rintro _ ⟨⟩
        exact hj
      · rcases hk.health with hh | hd
        · refine .inl ⟨?_, hh.faulty, hh.broken⟩
          cases hh.linked with
          | writing k q fe be tb =>
            obtain ⟨rfl, rfl, rfl⟩ : j = k ∧ p = q ∧ ms = [] := by grind
            exact .writing j p (.inr ⟨rfl, rfl⟩) be tb
          | written k q fe be tb hp =>
            obtain ⟨rfl, rfl, rfl⟩ : j = k ∧ p = q ∧ ms = [] := by grind
            exact .written j p (.inr ⟨rfl, rfl⟩) be tb hp
          | sent k q size hasNext fe be tb hp =>
            obtain ⟨rfl, rfl, rfl⟩ : j = k ∧ p = q ∧ ms = [.result size true hasNext] := by grind
            exact .sent j p size hasNext (.inr ⟨rfl, rfl⟩) be tb hp
          | _ => grind
        · refine .inr (hd.frontend hidle ⟨by rintro ⟨⟩, by rintro _ ⟨⟩, hshort, by rintro _ _ _ _ (h | h) <;> cases h⟩ ⟨rfl, rfl, rfl, rfl⟩
            (fun m hm => by rw [htf]; exact List.mem_cons_of_mem _ hm) ?_ ?_)
          · intro i q hq
            have hold := (hd.active i q hq).2.frontend
            rw [hfe] at hold
            obtain ⟨rfl, rfl⟩ : j = i ∧ p = q := by
              simpa [FrontendAt.gaveUp] using hold
            exact ⟨rfl, .inr (.inl rfl)⟩
          · rcases hd.cause (by rw [hfe]; rfl) with h | h | h
            · exact .inl h
            · exact .inr (.inr (.inl h))
            · have := h.tf
              rw [htf] at this
              cases this
    · cases hr
      rcases hk.health with hh | hd
      · exact absurd hlost (hh.frontend_waits (.inl hfe) htf)
      · exact hk.frontendFails hd hround hwrites .forwarding _ fun m hm => hm
  | _ =>
    rw [hfe] at h
    cases h

theorem Kept.receiveResult (hk : Kept set pages w₀ w)
    (h : step endReadsEmpty set pages .receiveResult w = .ok w') : Kept set pages w₀ w' := by
  rw [step] at h
  cases hfe : w.fe with
  | waiting j p =>
    rw [hfe] at h
    dsimp only at h
    have hidle : w.fe ≠ .idle := by
      rw [hfe]
      simp
    have hround : w.fe.round = some j := by
      rw [hfe]
      rfl
    have hwrites : w.fe.writes = some p := by
      rw [hfe]
      rfl
    have hmissing : w₀.catalog set = none → w.fe = .idle := hk.missing
    have hj : j < pages.length := hk.short j hround
    obtain ⟨⟨m, w₁⟩, hm, hr⟩ := bind_eq_ok.mp h
    clear h
    rcases frontendReceives_eq_ok hm with ⟨x, ms, rfl, htf, rfl⟩ | ⟨rfl, rfl, htf, hlost⟩
    · rcases hk.health with hh | hd
      · obtain ⟨size, hasNext, rfl, rfl, be, tb, hp⟩ : ∃ size hasNext, x = .result size true hasNext ∧ ms = [] ∧
            w.be = nextRound pages j ∧ w.toBackend = [] ∧
            At pages j fun source => (w.page set p).Holds source ∧ Told pages j size hasNext source := by
          cases hh.linked with
          | sent k q size hasNext fe be tb hp =>
            obtain ⟨rfl, rfl, rfl, rfl⟩ : j = k ∧ p = q ∧ x = .result size true hasNext ∧ ms = [] := by grind
            exact ⟨size, hasNext, rfl, rfl, be, tb, hp⟩
          | _ => grind
        cases hr
        refine ⟨hk.tables.advances hround hwrites rfl rfl rfl rfl rfl rfl rfl rfl, hp, ?_,
          fun h₀ => absurd (hmissing h₀) hidle, .inl ⟨?_, hh.faulty, hh.broken⟩, hk.fault⟩
        · rintro _ ⟨⟩
          exact hj
        · exact .stored j p size hasNext (.inl rfl) be rfl tb
      · obtain rfl : x = .received := hd.toFrontend x (by rw [htf]; exact List.mem_cons_self ..)
        cases hr
        exact hk.frontendFails hd hround hwrites .result backendFailed fun m hm => by
          rw [htf]
          exact List.mem_cons_of_mem _ hm
    · cases hr
      rcases hk.health with hh | hd
      · exact absurd hlost (hh.frontend_waits (.inr hfe) htf)
      · exact hk.frontendFails hd hround hwrites .result _ fun m hm => hm
  | _ =>
    rw [hfe] at h
    cases h

theorem Kept.freezePage (hk : Kept set pages w₀ w)
    (h : step endReadsEmpty set pages .freezePage w = .ok w') : Kept set pages w₀ w' := by
  rw [step] at h
  cases hfe : w.fe with
  | freezing j p size hasNext =>
    have hidle : w.fe ≠ .idle := by
      rw [hfe]
      simp
    have hround : w.fe.round = some j := by
      rw [hfe]
      rfl
    have hj : j < pages.length := hk.short j hround
    have hfit := hk.fit
    unfold Fit at hfit
    rw [hfe] at h hfit
    obtain ⟨source, hsource, hholds, htold⟩ := hfit
    obtain ⟨me, hfreeze, hme⟩ := hholds.freezeSize
    dsimp only at h
    rw [← htold.1, hfreeze, ok_bind, htold.1] at h
    cases h
    have hwrites : w.fe.writes = some p := by
      rw [hfe]
      rfl
    obtain ⟨hnot, hnew⟩ := hk.tables.unwritten hwrites
    refine ⟨?_, ?_, ?_, fun h₀ => absurd (hk.missing h₀) hidle, ?_, hk.fault⟩
    · exact (hk.tables.setPage hidle hnot hnew me).advances hround hwrites rfl rfl rfl rfl rfl rfl rfl rfl
    · refine ⟨source, hsource, ?_, htold⟩
      change ((w.setPage set p me).page set p).page = source
      rw [setPage_self, hme]
    · rintro _ ⟨⟩
      exact hj
    · rcases hk.health with hh | hd
      · refine .inl ⟨?_, hh.faulty, hh.broken⟩
        cases hh.linked with
        | stored k q size' hasNext' fe be tf tb =>
          obtain ⟨rfl, rfl, rfl, rfl⟩ : j = k ∧ p = q ∧ size = size' ∧ hasNext = hasNext' := by grind
          exact .stored j p size hasNext (.inr rfl) be tf tb
        | _ => grind
      · have hnone := hd.page_eq_none (by rw [hfe]; rfl) (by rw [hfe]; exact fun _ _ => ⟨(by simp), (by simp)⟩)
        have hnext := hd.next j p size hasNext (.inl hfe)
        refine .inr (hd.frontend hidle ⟨by rintro ⟨⟩, by rintro _ ⟨⟩, hd.short, ?_⟩ ⟨rfl, rfl, rfl, rfl⟩ (fun m hm => hm) ?_ ?_)
        · rintro k q size' hasNext' (he | he) <;> cases he
          exact hnext
        · rw [hnone]
          simp
        · rcases hd.cause (by rw [hfe]; rfl) with h | h | h
          · exact .inl h
          · exact .inr (.inr (.inl h))
          · have := h.fe
            rw [hfe] at this
            simp at this
  | _ =>
    rw [hfe] at h
    cases h

theorem Kept.endWriting (hk : Kept set pages w₀ w)
    (h : step endReadsEmpty set pages .endWriting w = .ok w') : Kept set pages w₀ w' := by
  rw [step] at h
  cases hfe : w.fe with
  | ending j p size hasNext =>
    have hidle : w.fe ≠ .idle := by
      rw [hfe]
      simp
    have hlen : w.stored.length = j := hk.tables.round j (by rw [hfe]; rfl)
    have hfit := hk.fit
    unfold Fit at hfit
    rw [hfe] at h hfit
    obtain ⟨source, hsource, hpage, hsize, hnext⟩ := hfit
    have hj : j < pages.length := hk.short j (by rw [hfe]; rfl)
    obtain ⟨f, hrun, htables⟩ := hk.tables.stores hfe hsource hpage hsize
    dsimp only at h
    rw [hrun] at h
    cases h
    have hgoes : hasNext = true → j + 1 < pages.length := by
      rw [hnext]
      exact of_decide_eq_true
    have hlast : hasNext = false → j + 1 = pages.length := by
      rw [hnext]
      intro hf
      have := of_decide_eq_false hf
      omega
    refine ⟨htables, ?_, ?_, fun h₀ => absurd (hk.missing h₀) hidle, ?_, hk.fault⟩
    · cases hasNext <;> trivial
    · intro k hr
      cases hasNext with
      | false => cases hr
      | true =>
        cases hr
        exact hgoes rfl
    · rcases hk.health with hh | hd
      · refine .inl ⟨?_, hh.faulty, hh.broken⟩
        obtain ⟨be, tf, tb⟩ : w.be = nextRound pages j ∧ w.toFrontend = [] ∧ w.toBackend = [] := by
          cases hh.linked <;> grind
        cases hasNext with
        | false =>
          refine .updating rfl ?_ tf tb ?_
          · refine be.trans ?_
            rw [nextRound, if_neg]
            have := hlast rfl
            omega
          · rw [List.length_append, List.length_singleton, hlen]
            exact hlast rfl
        | true =>
          refine .ready (j + 1) (.inl rfl) ?_ tf tb
          refine be.trans ?_
          rw [nextRound, if_pos (hgoes rfl)]
      · have hnone := hd.page_eq_none (by rw [hfe]; rfl) (by rw [hfe]; exact fun _ _ => ⟨(by simp), (by simp)⟩)
        have hmore := hd.next j p size hasNext (.inr hfe)
        obtain rfl : hasNext = true := by
          rw [hnext]
          exact decide_eq_true hmore
        refine .inr {
          updating := by simp
          ended := by simp
          short := ?_
          next := by simp
          be := hd.be
          early := fun hb => absurd (hd.early hb) hidle
          backRound := hd.backRound
          toFrontend := hd.toFrontend
          toBackend := hd.toBackend
          active := ?_
          emptied := hd.emptied
          reason := ?_ }
        · rw [List.length_append, List.length_singleton, hlen]
          exact hmore
        · intro i q hq
          have hq : w.be.page = some (i, q) := hq
          rw [hnone] at hq
          cases hq
        · rcases hd.cause (by rw [hfe]; rfl) with h | h | h
          · exact .inl h
          · exact .inr (.inr (.inl h))
          · have := h.fe
            rw [hfe] at this
            simp at this
  | _ =>
    rw [hfe] at h
    cases h

theorem Kept.giveUp (hk : Kept set pages w₀ w) (h : step endReadsEmpty set pages .giveUp w = .ok w') :
    Kept set pages w₀ w' := by
  rw [step] at h
  cases hfe : w.fe with
  | givingUp j p failure =>
    rw [hfe] at h
    cases h
    have hidle : w.fe ≠ .idle := by
      rw [hfe]
      simp
    refine ⟨hk.tables.givesUp hfe, trivial, (by intro _ h; cases h), fun h₀ => absurd (hk.missing h₀) hidle, .inr ?_, hk.fault⟩
    rcases hk.health with hh | hd
    · cases hh.linked <;> grind
    · exact hd.frontend hidle ⟨(by simp), (by simp), hd.short, (by simp)⟩ ⟨rfl, rfl, rfl, rfl⟩ (fun m hm => hm)
        (fun i q _ => ⟨rfl, .inr (.inr rfl)⟩) (.inr (.inl rfl))
  | _ =>
    rw [hfe] at h
    cases h

theorem incrementCatalog_eq {size : ℕ} (hc : w.catalog set = some size) {update : Update} (hu : update ≠ .refused)
    (what : Text) : ∃ error faulty, w.incrementCatalog set update what = (decide (update = .done), { w with
        catalog := Function.update w.catalog set ((w.catalog set).map (· + w.totalSize))
        error := error
        faulty := faulty }) ∧ (w.faulty = true → faulty = true) ∧ (update = .done → faulty = w.faulty) := by
  unfold World.incrementCatalog
  rw [hc]
  cases update with
  | done => exact ⟨_, _, rfl, id, fun _ => rfl⟩
  | unanswered => exact ⟨_, _, rfl, fun _ => rfl, by simp⟩
  | refused => exact absurd rfl hu

theorem Kept.inform {result : Update} {what : Text} (hk : Kept set pages w₀ w)
    (hs : (Event.inform result what).Sound set pages endReadsEmpty w)
    (h : step endReadsEmpty set pages (.inform result what) w = .ok w') : Kept set pages w₀ w' := by
  rw [step] at h
  cases hfe : w.fe with
  | informing failure =>
    have hidle : w.fe ≠ .idle := by
      rw [hfe]
      simp
    have hgave : w.fe.gaveUp = true := by
      rw [hfe]
      rfl
    obtain ⟨size, hc⟩ := hk.admits hidle
    obtain ⟨error, faulty, text, rfl, hfault⟩ : ∃ error faulty text, w' = { w with
        catalog := Function.update w.catalog set ((w.catalog set).map (· + w.totalSize))
        fe := .ended false text
        error := error
        faulty := faulty } ∧ (w.faulty = true → faulty = true) := by
      rw [hfe] at h
      dsimp only at h
      by_cases hzero : w.totalSize = 0
      · rw [if_pos hzero] at h
        cases h
        have hsame : Function.update w.catalog set ((w.catalog set).map (· + w.totalSize)) = w.catalog := by
          rw [hc, hzero]
          exact (congrArg _ hc.symm).trans (Function.update_eq_self ..)
        rw [hsame]
        exact ⟨w.error, w.faulty, _, rfl, id⟩
      · obtain ⟨error, faulty, he, hfault, -⟩ := incrementCatalog_eq hc (hs hzero) what
        rw [if_neg hzero, he] at h
        cases h
        exact ⟨error, faulty, _, rfl, hfault⟩
    refine ⟨?_, trivial, (by intro _ h; cases h), fun h₀ => absurd (hk.missing h₀) hidle, .inr ?_, fun hb => hfault (hk.fault hb)⟩
    · refine hk.tables.returns ?_ ?_ ?_ text error faulty
      · rw [hfe]
        rfl
      · rw [hfe]
        rfl
      · exact fun _ => hk.tables.failedAt hgave
    · rcases hk.health with hh | hd
      · cases hh.linked <;> grind
      · exact hd.frontend hidle ⟨(by simp), (by simp), hd.short, (by simp)⟩ ⟨rfl, rfl, rfl, rfl⟩ (fun m hm => hm)
          (fun i q _ => ⟨rfl, .inr (.inr rfl)⟩) (.inr (.inl rfl))
  | _ =>
    rw [hfe] at h
    cases h

theorem Kept.update {result : Update} {what : Text} (hk : Kept set pages w₀ w)
    (hs : (Event.update result what).Sound set pages endReadsEmpty w)
    (h : step endReadsEmpty set pages (.update result what) w = .ok w') : Kept set pages w₀ w' := by
  obtain rfl : result = .done := hs
  rw [step] at h
  cases hfe : w.fe with
  | updating =>
    have hidle : w.fe ≠ .idle := by
      rw [hfe]
      simp
    obtain ⟨size, hc⟩ := hk.admits hidle
    obtain ⟨error, faulty, he, hfault, hsame⟩ := incrementCatalog_eq hc ((by simp) : Update.done ≠ .refused) what
    rw [hfe] at h
    dsimp only at h
    rw [he] at h
    cases h
    rcases hk.health with hh | hd
    · obtain ⟨be, tf, tb, hall⟩ : w.be = .ended true ∧ w.toFrontend = [] ∧ w.toBackend = [] ∧
          w.stored.length = pages.length := by
        cases hh.linked <;> grind
      refine ⟨?_, trivial, (by intro _ h; cases h), fun h₀ => absurd (hk.missing h₀) hidle, .inl ⟨?_, ?_, hh.broken⟩,
        fun hb => hfault (hk.fault hb)⟩
      · exact hk.tables.returns (by rw [hfe]; rfl) (by rw [hfe]; rfl) (by simp) error error faulty
      · exact .done error rfl be tf tb hall
      · exact (hsame rfl).trans hh.faulty
    · exact absurd hfe hd.updating
  | _ =>
    rw [hfe] at h
    cases h

theorem Kept.cut (hk : Kept set pages w₀ w) (hn : 0 < pages.length) (hs : Event.cut.Sound set pages endReadsEmpty w)
    (h : step endReadsEmpty set pages .cut w = .ok w') : Kept set pages w₀ w' := by
  cases h
  refine ⟨hk.tables.backend rfl rfl rfl rfl rfl rfl rfl, hk.fit, hk.short, hk.missing, ?_, hk.fault⟩
  by_cases hbe : w.be = .ended true
  · rcases hk.health with hh | hd
    · refine .inl ⟨?_, hh.faulty, fun _ => hbe⟩
      cases hh.linked with
      | sent j p size hasNext fe be tb hp =>
        -- the last result is on its way, so the connection does not break
        have hlast : hasNext = false := by
          obtain ⟨source, -, -, -, rfl⟩ := hp
          grind [nextRound]
        subst hlast
        have := hs size true
        rcases fe with ⟨-, tf⟩ | ⟨-, tf⟩ <;> rw [tf] at this <;> simp at this
      | stored j p size hasNext fe be tf tb => exact .stored j p size hasNext fe be rfl rfl
      | updating fe be tf tb hall => exact .updating fe be rfl rfl hall
      | done e fe be tf tb hall => exact .done e fe be rfl rfl hall
      | _ => grind
    · exact absurd hbe hd.be
  · have hu := hk.unfinished hn hbe
    refine .inr {
      updating := hu.updating
      ended := hu.ended
      short := hu.short
      next := hu.next
      be := hbe
      early := ?_
      backRound := fun i => hk.backRound
      toFrontend := by simp
      toBackend := by simp
      active := ?_
      emptied := fun _ => ⟨rfl, rfl⟩
      reason := .inl rfl }
    · rcases hk.health with hh | hd
      · exact hh.linked.early
      · exact hd.early
    · intro i p hp
      obtain ⟨h1, h2, h3, h4⟩ := hk.active hp
      exact ⟨rfl, h1, h2, h3, h4⟩

end Frontend

end PlinyCompute.Materialization
