import PlinyCompute.MaterializationTables

namespace PlinyCompute.Materialization

open BufferManager (Config)
open StorageFrontend StorageHandlers Transition

section Backend

variable {cfg : Config} {endReadsEmpty : Bool} {set : SetId} {pages : List (Page cfg)} {w₀ w w' : World cfg} {i j p : ℕ}

theorem Kept.unfinished (hk : Kept set pages w₀ w) (hn : 0 < pages.length) (hbe : w.be ≠ .ended true) :
    Unfinished pages w := by
  rcases hk.health with hh | hd
  · exact hh.linked.unfinished hk.tables hk.short hn hbe
  · exact hd.toUnfinished

theorem Kept.active (hk : Kept set pages w₀ w) (hb : w.be.page = some (i, p)) : Active set pages w₀ w i p := by
  rcases hk.health with hh | hd
  · have hfe := hh.linked.active hb
    have hwrites : w.fe.writes = some p := by
      rcases hfe with hfe | hfe <;> rw [hfe] <;> rfl
    obtain ⟨hnot, hnew⟩ := hk.tables.unwritten hwrites
    exact ⟨hnot, hnew, hk.fit.at hfe, hfe.imp_right .inl⟩
  · exact (hd.active i p hb).2

theorem Kept.backRound (hk : Kept set pages w₀ w) (hb : w.be.round = some i) : i < pages.length := by
  rcases hk.health with hh | hd
  · exact hh.linked.backRound hk.short hb
  · exact hd.backRound i hb

theorem Healthy.unbroken (hh : Healthy set pages w) (hbe : w.be ≠ .ended true) : w.broken = false := by
  rw [Bool.eq_false_iff]
  exact fun hb => hbe (hh.broken hb)

theorem Tables.backend (h : Tables set pages w₀ w) (hf : w'.frontend = w.frontend) (hp : w'.page = w.page)
    (hc : w'.catalog = w.catalog) (ht : w'.totalSize = w.totalSize) (hs : w'.stored = w.stored) (hfe : w'.fe = w.fe)
    (hfailed : w'.failedAt = w.failedAt) : Tables set pages w₀ w' := by
  apply h.moves hf hp hc ht hs
  · rw [hfe]
  · rw [hfe]
  · rw [hfe]
    exact h.round
  · rw [hfe, hfailed]
    exact h.failedAt
  · rw [hfe]
    exact id

theorem Kept.backendFails (hk : Kept set pages w₀ w) (hn : 0 < pages.length) (hbe : w.be ≠ .ended true)
    (htf : ∀ m ∈ w.toFrontend, m = .received) {tb : List ToBackend}
    (hempty : w.broken = true → w.toFrontend = [] ∧ tb = []) :
    Kept set pages w₀ { w with toBackend := tb }.backendFails := by
  refine ⟨hk.tables.backend rfl rfl rfl rfl rfl rfl rfl, hk.fit, hk.short, hk.missing, .inr ?_, fun _ => rfl⟩
  have hu := hk.unfinished hn hbe
  exact {
    updating := hu.updating
    ended := hu.ended
    short := hu.short
    next := hu.next
    be := by rintro ⟨⟩
    early := by rintro (h | h) <;> cases h
    backRound := by intro _ h; cases h
    toFrontend := htf
    toBackend := fun _ _ => .inl rfl
    active := by intro _ _ h; cases h
    emptied := hempty
    reason := .inr (.inr (.inl rfl)) }

theorem Kept.connect {success : Bool} (hk : Kept set pages w₀ w) (hn : 0 < pages.length)
    (h : step endReadsEmpty set pages (.connect success) w = .ok w') : Kept set pages w₀ w' := by
  rw [step] at h
  cases hbe : w.be with
  | starting =>
    rw [hbe] at h
    dsimp only at h
    rw [if_neg (by omega)] at h
    have hqueues : (∀ m ∈ w.toFrontend, m = .received) ∧ (w.broken = true → w.toFrontend = [] ∧ w.toBackend = []) := by
      rcases hk.health with hh | hd
      · have := hh.unbroken (by rw [hbe]; simp)
        cases hh.linked <;> grind [nextRound]
      · exact ⟨hd.toFrontend, hd.emptied⟩
    cases success with
    | true =>
      cases h
      refine ⟨hk.tables.backend rfl rfl rfl rfl rfl rfl rfl, hk.fit, hk.short, hk.missing, ?_, by rintro ⟨⟩⟩
      rcases hk.health with hh | hd
      · refine .inl ⟨?_, hh.faulty, fun hb => ?_⟩
        · cases hh.linked with
          | starting fe be tf tb => exact .connected fe rfl tf tb
          | _ => grind [nextRound]
        · rw [hh.broken hb] at hbe
          cases hbe
      · exact .inr { hd with
          be := by rintro ⟨⟩
          early := fun _ => hd.early (.inl hbe)
          backRound := by intro _ h; cases h
          toBackend := fun p hp => by
            have := hd.toBackend p hp
            rw [hbe] at this
            exact this.elim (by simp) fun h => absurd h.1 (by simp)
          active := by intro _ _ h; cases h
          reason := by
            have := hd.reason
            have hun := fun hu : Unanswered w => hu.be
            grind [World.backendAt] }
    | false =>
      cases h
      exact hk.backendFails hn (by rw [hbe]; simp) hqueues.1 hqueues.2
  | _ =>
    rw [hbe] at h
    cases h

theorem Doomed.isBroken (hd : Doomed set pages w₀ w) (hfe : w.fe.gaveUp = false) (hbe : w.be ≠ .ended false)
    (hun : ¬Unanswered w) : w.broken = true := by
  rcases hd.reason with h | h | h | h
  · exact h
  · rw [hfe] at h
    cases h
  · exact absurd h hbe
  · exact absurd h hun

theorem Kept.sendRequest {sent : Bool} (hk : Kept set pages w₀ w) (hn : 0 < pages.length)
    (h : step endReadsEmpty set pages (.sendRequest sent) w = .ok w') : Kept set pages w₀ w' := by
  rw [step] at h
  cases hbe : w.be with
  | connected =>
    rw [hbe] at h
    dsimp only at h
    rcases hk.health with hh | hd
    · have hbroken := hh.unbroken (by rw [hbe]; simp)
      obtain ⟨fe, tf, tb⟩ : w.fe = .idle ∧ w.toFrontend = [] ∧ w.toBackend = [] := by
        cases hh.linked <;> grind [nextRound]
      cases sent with
      | true =>
        rw [if_pos rfl, World.sendFrontend, if_neg (by rw [hbroken]; exact Bool.false_ne_true), tf] at h
        cases h
        refine ⟨hk.tables.backend rfl rfl rfl rfl rfl rfl rfl, hk.fit, hk.short, hk.missing, .inl ⟨?_, hh.faulty, ?_⟩, by rintro ⟨⟩⟩
        · exact .requested fe rfl rfl tb
        · intro hb
          exact absurd hbroken (by rw [show w.broken = true from hb]; simp)
      | false =>
        cases h
        refine hk.backendFails hn (by rw [hbe]; simp) ?_ fun _ => ⟨tf, tb⟩
        rw [tf]
        simp
    · have hbroken := hd.isBroken (by rw [hd.early (.inr hbe)]; rfl) (by rw [hbe]; simp) fun hu => by
        have := hu.be
        rw [hbe] at this
        cases this
      cases sent with
      | true =>
        rw [if_pos rfl, World.sendFrontend, if_pos hbroken] at h
        cases h
        refine ⟨hk.tables.backend rfl rfl rfl rfl rfl rfl rfl, hk.fit, hk.short, hk.missing, .inr ?_, by rintro ⟨⟩⟩
        exact { hd with
          be := by rintro ⟨⟩
          early := by rintro (h | h) <;> cases h
          backRound := by intro _ h; cases h
          toBackend := fun p hp => by
            have hp : ToBackend.forward p ∈ w.toBackend := hp
            rw [(hd.emptied hbroken).2] at hp
            cases hp
          active := by intro _ _ h; cases h
          reason := .inl hbroken }
      | false =>
        cases h
        exact hk.backendFails hn (by rw [hbe]; simp) hd.toFrontend hd.emptied
  | _ =>
    rw [hbe] at h
    cases h

theorem backendReceives_eq_ok {m : Option ToBackend} (h : w.backendReceives = .ok (m, w')) :
    (∃ x ms, m = some x ∧ w.toBackend = x :: ms ∧ w' = { w with toBackend := ms }) ∨
      m = none ∧ w' = w ∧ w.toBackend = [] ∧ (w.broken = true ∨ w.fe.over = true) := by
  unfold World.backendReceives at h
  cases htb : w.toBackend with
  | nil =>
    rw [htb] at h
    dsimp only at h
    split_ifs at h with hc
    cases h
    exact .inr ⟨rfl, rfl, rfl, by simpa using hc⟩
  | cons x ms =>
    rw [htb] at h
    cases h
    exact .inl ⟨x, ms, rfl, rfl, rfl⟩

theorem Healthy.backend_waits (hh : Healthy set pages w) (hbe : w.be ≠ .ended true) (htb : w.toBackend = []) :
    ¬(w.broken = true ∨ w.fe.over = true) := by
  rw [hh.unbroken hbe]
  cases hh.linked <;> grind [FrontendAt.over]

theorem Kept.receiveResponse (hk : Kept set pages w₀ w) (hn : 0 < pages.length)
    (h : step endReadsEmpty set pages .receiveResponse w = .ok w') : Kept set pages w₀ w' := by
  rw [step] at h
  cases hbe : w.be with
  | waitingForResponse =>
    rw [hbe] at h
    dsimp only at h
    have hne : w.be ≠ .ended true := by
      rw [hbe]
      simp
    obtain ⟨⟨m, w₁⟩, hm, hr⟩ := bind_eq_ok.mp h
    clear h
    rcases backendReceives_eq_ok hm with ⟨x, ms, rfl, htb, rfl⟩ | ⟨rfl, rfl, htb, hlost⟩
    · rcases hk.health with hh | hd
      · obtain ⟨e, rfl, hms⟩ : ∃ e, x = .response true e ∧
            ((w.fe = .taking 0 ∨ ∃ p, w.fe = .getting 0 p) ∧ w.toFrontend = [] ∧ ms = [] ∨
              ∃ p, w.fe = .forwarding 0 p ∧ w.toFrontend = [] ∧ ms = [.forward p]) := by
          cases hh.linked <;> grind [nextRound]
        cases hr
        refine ⟨hk.tables.backend rfl rfl rfl rfl rfl rfl rfl, hk.fit, hk.short, hk.missing, .inl ⟨?_, hh.faulty, ?_⟩, by rintro ⟨⟩⟩
        · rcases hms with ⟨fe, tf, rfl⟩ | ⟨p, fe, tf, rfl⟩
          · exact .ready 0 fe rfl tf rfl
          · exact .forwarded 0 p fe rfl tf rfl
        · exact fun hb => absurd (hh.broken hb) hne
      · have hnotempty : w.toBackend ≠ [] := by
          rw [htb]
          simp
        have hbroken : w.broken ≠ true := fun hb => hnotempty (hd.emptied hb).2
        have hfails : Kept set pages w₀ { w with toBackend := ms }.backendFails :=
          hk.backendFails hn hne hd.toFrontend fun hb => absurd hb hbroken
        rcases x with ⟨_ | _, e⟩ | p
        · cases hr
          exact hfails
        · cases hr
          refine ⟨hk.tables.backend rfl rfl rfl rfl rfl rfl rfl, hk.fit, hk.short, hk.missing, .inr ?_, by rintro ⟨⟩⟩
          have hrest : ∀ p, ToBackend.forward p ∉ ms := by
            intro p hp
            have := hd.toBackend p (htb ▸ List.mem_cons_of_mem _ hp)
            rw [hbe, htb] at this
            simp at this
          exact { hd with
            be := by rintro ⟨⟩
            early := by rintro (h | h) <;> cases h
            backRound := fun i hi => by
              cases hi
              exact hn
            toBackend := fun p hp => absurd hp (hrest p)
            active := by intro _ _ h; cases h
            emptied := fun hb => absurd hb hbroken
            reason := by
              have hun : ¬Unanswered w := fun hu => by
                have := hu.fe
                rw [htb] at this
                simp at this
              have := hd.reason
              grind [World.backendAt] }
        · cases hr
          exact hfails
    · cases hr
      rcases hk.health with hh | hd
      · exact absurd hlost (hh.backend_waits hne htb)
      · refine hk.backendFails hn hne hd.toFrontend fun hb => ⟨(hd.emptied hb).1, htb⟩
  | _ =>
    rw [hbe] at h
    cases h

theorem Kept.expectPage (hk : Kept set pages w₀ w) (hn : 0 < pages.length)
    (h : step endReadsEmpty set pages .expectPage w = .ok w') : Kept set pages w₀ w' := by
  rw [step] at h
  cases hbe : w.be with
  | expecting i =>
    rw [hbe] at h
    dsimp only at h
    have hne : w.be ≠ .ended true := by
      rw [hbe]
      simp
    obtain ⟨⟨m, w₁⟩, hm, hr⟩ := bind_eq_ok.mp h
    clear h
    rcases backendReceives_eq_ok hm with ⟨x, ms, rfl, htb, rfl⟩ | ⟨rfl, rfl, htb, hlost⟩
    · rcases hk.health with hh | hd
      · obtain ⟨p, rfl, rfl, fe, tf⟩ : ∃ p, x = .forward p ∧ ms = [] ∧ w.fe = .forwarding i p ∧ w.toFrontend = [] := by
          cases hh.linked <;> grind
        cases hr
        refine ⟨hk.tables.backend rfl rfl rfl rfl rfl rfl rfl, hk.fit, hk.short, hk.missing, .inl ⟨?_, hh.faulty, ?_⟩, by rintro ⟨⟩⟩
        · exact .made i p fe rfl tf rfl
        · exact fun hb => absurd (hh.broken hb) hne
      · have hnotempty : w.toBackend ≠ [] := by
          rw [htb]
          simp
        cases x with
        | forward p =>
          have := hd.toBackend p (by rw [htb]; exact List.mem_cons_self ..)
          rw [hbe] at this
          simp at this
        | response success e =>
          cases hr
          exact hk.backendFails hn hne hd.toFrontend fun hb => absurd (hd.emptied hb).2 hnotempty
    · cases hr
      rcases hk.health with hh | hd
      · exact absurd hlost (hh.backend_waits hne htb)
      · exact hk.backendFails hn hne hd.toFrontend fun hb => ⟨(hd.emptied hb).1, htb⟩
  | _ =>
    rw [hbe] at h
    cases h

theorem Doomed.broken_of_active (hd : Doomed set pages w₀ w) (hb : w.be.page = some (i, p)) : w.broken = true :=
  (hd.active i p hb).1

theorem Doomed.moves (hd : Doomed set pages w₀ w) (hb : w.be.page = some (i, p)) {x : BackendAt} (hx : x.page = some (i, p))
    (hround : x.round = some i) (hi : i < pages.length) (hw : w'.fe = w.fe ∧ w'.stored = w.stored ∧ w'.broken = w.broken ∧
      w'.toFrontend = w.toFrontend ∧ w'.toBackend = w.toBackend ∧ w'.be = x)
    (hroom : At pages i (w'.page set p).Room) : Doomed set pages w₀ w' := by
  obtain ⟨hfe, hs, hbroken, htf, htb, hbe⟩ := hw
  obtain ⟨hcut, hactive⟩ := hd.active i p hb
  have hempty := hd.emptied hcut
  constructor
  · exact ⟨hfe ▸ hd.updating, hfe ▸ hd.ended, hs ▸ hd.short, hfe ▸ hd.next⟩
  · rw [hbe]
    rintro rfl
    cases hx
  · rw [hbe]
    rintro (rfl | rfl) <;> cases hx
  · intro k hk
    rw [hbe, hround] at hk
    cases hk
    exact hi
  · rw [htf]
    exact hd.toFrontend
  · rw [htb, hempty.2]
    simp
  · intro k q hq
    rw [hbe, hx] at hq
    cases hq
    exact ⟨hbroken.trans hcut, hs ▸ hactive.unstored, hactive.fresh, hroom, hfe ▸ hactive.frontend⟩
  · rw [htf, htb]
    exact fun _ => hempty
  · exact .inl (hbroken.trans hcut)

theorem Kept.acknowledge {sent : Bool} (hk : Kept set pages w₀ w) (hn : 0 < pages.length)
    (h : step endReadsEmpty set pages (.acknowledge sent) w = .ok w') : Kept set pages w₀ w' := by
  rw [step] at h
  cases hbe : w.be with
  | acknowledging i p =>
    rw [hbe] at h
    dsimp only at h
    have hne : w.be ≠ .ended true := by
      rw [hbe]
      simp
    have hpage : w.be.page = some (i, p) := by
      rw [hbe]
      rfl
    rcases hk.health with hh | hd
    · have hbroken := hh.unbroken hne
      obtain ⟨fe, tf, tb⟩ : w.fe = .forwarding i p ∧ w.toFrontend = [] ∧ w.toBackend = [] := by
        cases hh.linked <;> grind [nextRound]
      cases sent with
      | true =>
        rw [if_pos rfl, World.sendFrontend, if_neg (by rw [hbroken]; exact Bool.false_ne_true), tf] at h
        cases h
        refine ⟨hk.tables.backend rfl rfl rfl rfl rfl rfl rfl, hk.fit, hk.short, hk.missing, .inl ⟨?_, hh.faulty, ?_⟩, by rintro ⟨⟩⟩
        · exact .writing i p (.inl ⟨fe, rfl⟩) rfl tb
        · exact fun hb => absurd (hh.broken hb) hne
      | false =>
        cases h
        refine hk.backendFails hn hne ?_ fun _ => ⟨tf, tb⟩
        rw [tf]
        simp
    · have hbroken := hd.broken_of_active hpage
      cases sent with
      | true =>
        rw [if_pos rfl, World.sendFrontend, if_pos hbroken] at h
        cases h
        refine ⟨hk.tables.backend rfl rfl rfl rfl rfl rfl rfl, hk.fit, hk.short, hk.missing, .inr ?_, by rintro ⟨⟩⟩
        exact hd.moves hpage (x := .copying i p) rfl rfl (hk.backRound (by rw [hbe]; rfl)) ⟨rfl, rfl, rfl, rfl, rfl, rfl⟩
          (hk.active hpage).room
      | false =>
        cases h
        exact hk.backendFails hn hne hd.toFrontend hd.emptied
  | _ =>
    rw [hbe] at h
    cases h

theorem Kept.copy (hk : Kept set pages w₀ w) (h : step endReadsEmpty set pages .copy w = .ok w') :
    Kept set pages w₀ w' := by
  rw [step] at h
  cases hbe : w.be with
  | copying i p =>
    have hpage : w.be.page = some (i, p) := by
      rw [hbe]
      rfl
    have hactive := hk.active hpage
    obtain ⟨source, hsource, hroom⟩ := hactive.room
    obtain ⟨me, hcopy, hholds⟩ := hroom.copy
    rw [hbe] at h
    dsimp only at h
    rw [hsource] at h
    dsimp only at h
    rw [hcopy, ok_bind] at h
    cases h
    have hself : (w.setPage set p me).page set p = me := setPage_self ..
    have hnew : At pages i ((w.setPage set p me).page set p).Holds := ⟨source, hsource, by rwa [hself]⟩
    have hnewRoom := hnew.mono fun _ => SetPage.Holds.room
    have hidle : w.fe ≠ .idle := by
      intro hi
      have := hactive.frontend
      rw [hi] at this
      simp [FrontendAt.gaveUp] at this
    have htables := hk.tables.setPage hidle hactive.unstored hactive.fresh me
    refine ⟨htables.backend rfl rfl rfl rfl rfl rfl rfl, ?_, hk.short, hk.missing, ?_, by rintro ⟨⟩⟩
    · have := hactive.frontend
      rcases this with hfe | hfe | hfe
      · unfold Fit
        dsimp only [World.backendAt, World.setPage]
        rw [hfe]
        exact hnewRoom
      · unfold Fit
        dsimp only [World.backendAt, World.setPage]
        rw [hfe]
        exact hnewRoom
      · unfold Fit
        dsimp only [World.backendAt, World.setPage]
        cases hw : w.fe <;> rw [hw] at hfe <;> trivial
    · rcases hk.health with hh | hd
      · refine .inl ⟨?_, hh.faulty, fun hb => ?_⟩
        · cases hh.linked with
          | writing j q fe be tb =>
            rw [hbe] at be
            cases be
            exact .written i p fe rfl tb hnew
          | _ => grind [nextRound]
        · have := hh.broken hb
          rw [hbe] at this
          cases this
      · exact .inr (hd.moves hpage (x := .sending i p) rfl rfl (hk.backRound (by rw [hbe]; rfl))
          ⟨rfl, rfl, rfl, rfl, rfl, rfl⟩ hnewRoom)
  | _ =>
    rw [hbe] at h
    cases h

theorem Kept.sendResult {sent : Bool} (hk : Kept set pages w₀ w) (hn : 0 < pages.length)
    (hs : (Event.sendResult sent).Sound set pages endReadsEmpty w)
    (h : step endReadsEmpty set pages (.sendResult sent) w = .ok w') : Kept set pages w₀ w' := by
  rw [step] at h
  cases hbe : w.be with
  | sending i p =>
    have hpage : w.be.page = some (i, p) := by
      rw [hbe]
      rfl
    have hne : w.be ≠ .ended true := by
      rw [hbe]
      simp
    obtain ⟨source, hsource, -⟩ := (hk.active hpage).room
    rw [hbe] at h
    dsimp only at h
    rw [hsource] at h
    dsimp only at h
    rcases hk.health with hh | hd
    · have hbroken := hh.unbroken hne
      obtain ⟨hfe, tb, hp⟩ : (w.fe = .forwarding i p ∧ w.toFrontend = [.received] ∨ w.fe = .waiting i p ∧ w.toFrontend = []) ∧
          w.toBackend = [] ∧ At pages i (w.page set p).Holds := by
        cases hh.linked <;> grind [nextRound]
      cases sent with
      | true =>
        rw [if_pos rfl, World.sendFrontend, if_neg (by rw [hbroken]; exact Bool.false_ne_true)] at h
        cases h
        refine ⟨hk.tables.backend rfl rfl rfl rfl rfl rfl rfl, hk.fit, hk.short, hk.missing, .inl ⟨?_, hh.faulty, ?_⟩, ?_⟩
        · refine .sent i p source.getSize (decide (i + 1 < pages.length)) ?_ rfl tb ?_
          · rcases hfe with ⟨fe, tf⟩ | ⟨fe, tf⟩
            · refine .inl ⟨fe, ?_⟩
              change w.toFrontend ++ _ = _
              rw [tf]
              rfl
            · refine .inr ⟨fe, ?_⟩
              change w.toFrontend ++ _ = _
              rw [tf]
              rfl
          · obtain ⟨source', hsource', hholds⟩ := hp
            rw [hsource] at hsource'
            cases hsource'
            exact ⟨source, hsource, hholds, rfl, rfl⟩
        · exact fun hb => absurd (hh.broken hb) hne
        · intro hended
          exact absurd hended (nextRound_ne _ rfl (by simp))
      | false =>
        cases h
        refine hk.backendFails hn hne ?_ fun hb => absurd (hh.broken hb) hne
        rcases hfe with ⟨-, tf⟩ | ⟨-, tf⟩ <;> rw [tf] <;> simp
    · have hbroken := hd.broken_of_active hpage
      cases sent with
      | true =>
        have hnext := hs rfl hbroken i p hbe
        rw [if_pos rfl, World.sendFrontend, if_pos hbroken, nextRound, if_pos hnext] at h
        cases h
        refine ⟨hk.tables.backend rfl rfl rfl rfl rfl rfl rfl, hk.fit, hk.short, hk.missing, .inr ?_, by rintro ⟨⟩⟩
        exact { hd with
          be := by rintro ⟨⟩
          early := by rintro (h | h) <;> cases h
          backRound := fun k hk => by
            cases hk
            exact hnext
          toBackend := fun q hq => by
            have hq : ToBackend.forward q ∈ w.toBackend := hq
            rw [(hd.emptied hbroken).2] at hq
            cases hq
          active := by intro _ _ h; cases h
          reason := .inl hbroken }
      | false =>
        cases h
        exact hk.backendFails hn hne hd.toFrontend hd.emptied
  | _ =>
    rw [hbe] at h
    cases h

end Backend

end PlinyCompute.Materialization
