import PlinyCompute.MaterializationFrontend

namespace PlinyCompute.Materialization

open BufferManager (Config)
open StorageFrontend StorageHandlers Transition

section Runs

variable {cfg : Config} {endReadsEmpty : Bool} {set : SetId} {pages : List (Page cfg)} {w₀ w w' : World cfg} {e : Event}
  {n : ℕ}

theorem World.Starts.kept (hs : w.Starts) : Kept set pages w w := by
  obtain ⟨fe, be, htotal, tf, tb, hbroken, hfaulty, hfailed, hstored⟩ := hs
  constructor
  · constructor
    · rw [hstored]
      exact List.nodup_nil
    · rw [hstored]
      simp
    · rw [hstored]
      simp
    · rw [hstored]
      rfl
    · exact fun _ _ => rfl
    · rw [hstored]
      rfl
    · rw [hstored, htotal]
      rfl
    · rw [fe]
      cases w.catalog set <;> rfl
    · exact fun p hp => .inl hp
    · rw [fe]
      intro _ h
      cases h
    · rw [fe]
      intro _ h
      cases h
    · rw [fe]
      rintro ⟨⟩
    · exact ⟨fun _ _ => ⟨rfl, rfl, rfl⟩, fun _ _ => rfl, fun _ _ => rfl⟩
    · exact fun _ => ⟨rfl, rfl, rfl, hstored⟩
  · unfold Fit
    rw [fe]
    trivial
  · rw [fe]
    intro _ h
    cases h
  · exact fun _ => fe
  · refine .inl ⟨.starting fe be tf tb, hfaulty, ?_⟩
    rw [hbroken]
    simp
  · rw [be]
    simp

theorem Kept.step (hk : Kept set pages w₀ w) (hn : 0 < pages.length) (hs : e.Sound set pages endReadsEmpty w)
    (h : step endReadsEmpty set pages e w = .ok w') : Kept set pages w₀ w' := by
  cases e with
  | connect success => exact hk.connect hn h
  | sendRequest sent => exact hk.sendRequest hn h
  | receiveResponse => exact hk.receiveResponse hn h
  | expectPage => exact hk.expectPage hn h
  | acknowledge sent => exact hk.acknowledge hn h
  | copy => exact hk.copy h
  | sendResult sent => exact hk.sendResult hn hs h
  | handle sent what => exact hk.handle hn hs h
  | takePage first => exact hk.takePage hs h
  | forwardPage sent => exact hk.forwardPage h
  | receiveForwarded => exact hk.receiveForwarded h
  | receiveResult => exact hk.receiveResult h
  | freezePage => exact hk.freezePage h
  | endWriting => exact hk.endWriting h
  | giveUp => exact hk.giveUp h
  | inform result what => exact hk.inform hs h
  | update result what => exact hk.update hs h
  | cut => exact hk.cut hn hs h

theorem Tables.gained (h : Tables set pages w₀ w) (hover : w.fe.over = true ∨ w.fe = .idle) :
    Gained set pages w.stored.length w₀ w := by
  refine ⟨⟨w.stored, h.nodup, h.fresh, h.valid, h.contents⟩, h.kept, h.size, ?_, fun p hp => ?_, h.elsewhere⟩
  · rcases hover with hover | hi
    · rw [h.catalog, hover, h.total]
      rfl
    · obtain ⟨-, -, hc, hs⟩ := h.idle hi
      rw [hc, hs]
      cases w₀.catalog set <;> rfl
  · refine (h.marks p hp).resolve_right fun hw => ?_
    rcases hover with hover | hi
    · cases hfe : w.fe <;> rw [hfe] at hover hw <;> cases hw <;> cases hover
    · rw [hi] at hw
      cases hw

theorem Kept.outcome (hk : Kept set pages w₀ w) (hover : w.Over) : Outcome set pages w₀ w := by
  obtain ⟨hbe, hfe⟩ := hover
  obtain ⟨b, hb⟩ : ∃ b, w.be = .ended b := by
    cases hw : w.be <;> rw [hw] at hbe <;> first | exact ⟨_, rfl⟩ | cases hbe
  have hgained := hk.tables.gained (hfe.imp_right And.left)
  rcases hk.health with hh | hd
  · obtain ⟨e, fe, be, hall⟩ : ∃ e, w.fe = .ended true e ∧ w.be = .ended true ∧ w.stored.length = pages.length := by
      cases hh.linked <;> grind [FrontendAt.over, nextRound]
    refine ⟨fun h₀ => ?_, fun _ _ => ⟨⟨be, e, fe⟩, hall ▸ hgained⟩, fun _ hf => ?_⟩
    · rw [hk.missing h₀] at fe
      cases fe
    · rw [hh.faulty] at hf
      cases hf
  · obtain rfl : b = false := by
      rw [Bool.eq_false_iff]
      rintro rfl
      exact hd.be hb
    have hfails : w.Fails := by
      refine ⟨hb, ?_⟩
      rcases hfe with hfe | hfe
      · cases hw : w.fe with
        | ended success e =>
          cases success with
          | false => exact .inr ⟨e, rfl⟩
          | true => exact absurd hw (hd.ended e)
        | _ =>
          rw [hw] at hfe
          cases hfe
      · exact .inl hfe.1
    refine ⟨fun h₀ => ?_, fun _ hf => ?_, fun _ _ => ⟨hfails, w.stored.length, ?_, hd.short, hgained⟩⟩
    · obtain ⟨h1, h2, h3, -⟩ := hk.tables.idle (hk.missing h₀)
      exact ⟨hfails, h1, h2, h3⟩
    · rw [hk.fault hb] at hf
      cases hf
    · rcases hfails.2 with hi | ⟨e, he⟩
      · rw [(hk.tables.idle hi).2.2.2]
        exact .inr ⟨hi, rfl⟩
      · refine .inl (hk.tables.failedAt ?_)
        rw [he]
        rfl

structure FrontendMoves (n : ℕ) (w w' : World cfg) : Prop where
  be : w'.be = w.be
  left : w'.fe.left n < w.fe.left n

structure BackendMoves (n : ℕ) (w w' : World cfg) : Prop where
  fe : w'.fe = w.fe
  left : w'.be.left n < w.be.left n

theorem sendFrontend_points (w : World cfg) (m : ToFrontend) : (w.sendFrontend m).fe = w.fe ∧ (w.sendFrontend m).be = w.be := by
  unfold World.sendFrontend
  split_ifs <;> exact ⟨rfl, rfl⟩

theorem sendBackend_points (w : World cfg) (m : ToBackend) : (w.sendBackend m).fe = w.fe ∧ (w.sendBackend m).be = w.be := by
  unfold World.sendBackend
  split_ifs <;> exact ⟨rfl, rfl⟩

theorem incrementCatalog_be (w : World cfg) (result : Update) (what : Text) : (w.incrementCatalog set result what).2.be = w.be := by
  unfold World.incrementCatalog
  split <;> rfl

theorem nextRound_left (i p : ℕ) :
    (nextRound pages i).left pages.length < (BackendAt.sending i p).left pages.length := by
  unfold nextRound
  split_ifs with h
  · simp only [BackendAt.left]
    omega
  · simp only [BackendAt.left]
    omega

theorem BackendMoves.goes {x y : BackendAt} (hb : w.be = x) (hfe : w'.fe = w.fe) (hlt : y.left n < x.left n) :
    BackendMoves n w (w'.backendAt y) := by
  refine ⟨hfe, ?_⟩
  rw [hb]
  exact hlt

theorem BackendMoves.fails {x : BackendAt} (hb : w.be = x) (hfe : w'.fe = w.fe) (hlt : 0 < x.left n) :
    BackendMoves n w w'.backendFails := by
  refine ⟨hfe, ?_⟩
  rw [hb]
  exact hlt

theorem FrontendMoves.goes {x y : FrontendAt} (hf : w.fe = x) (hbe : w'.be = w.be) (hf' : w'.fe = y)
    (hlt : y.left n < x.left n) : FrontendMoves n w w' := by
  refine ⟨hbe, ?_⟩
  rw [hf, hf']
  exact hlt

theorem FrontendMoves.fails {x : FrontendAt} {j p : ℕ} {failure : Failure} (hf : w.fe = x) (hbe : w'.be = w.be)
    (hlt : 2 < x.left n) : FrontendMoves n w (w'.frontendFails j p failure) := by
  refine ⟨hbe, ?_⟩
  rw [hf]
  exact hlt

theorem backendReceives_fe {m : Option ToBackend} (h : w.backendReceives = .ok (m, w')) : w'.fe = w.fe := by
  rcases backendReceives_eq_ok h with ⟨x, ms, -, -, rfl⟩ | ⟨-, rfl, -⟩ <;> rfl

theorem frontendReceives_be {m : Option ToFrontend} (h : w.frontendReceives = .ok (m, w')) : w'.be = w.be := by
  rcases frontendReceives_eq_ok h with ⟨x, ms, -, -, rfl⟩ | ⟨-, rfl, -⟩ <;> rfl

theorem step_moves (hfe : ∀ j, w.fe.round = some j → j < pages.length) (hcut : e ≠ .cut) (h : step endReadsEmpty set pages e w = .ok w') :
    FrontendMoves pages.length w w' ∨ BackendMoves pages.length w w' := by
  cases e with
  | cut => exact absurd rfl hcut
  | connect success =>
    simp only [step] at h
    split at h
    · rename_i hb
      refine .inr ?_
      split_ifs at h <;> cases h
      · exact .goes hb rfl (by simp only [BackendAt.left]; omega)
      · exact .goes hb rfl (by simp only [BackendAt.left]; omega)
      · exact .fails hb rfl (Nat.succ_pos _)
    · cases h
  | sendRequest sent =>
    simp only [step] at h
    split at h
    · rename_i hb
      refine .inr ?_
      split_ifs at h <;> cases h
      · exact .goes hb (sendFrontend_points ..).1 (by simp only [BackendAt.left]; omega)
      · exact .fails hb rfl (Nat.succ_pos _)
    · cases h
  | receiveResponse =>
    simp only [step] at h
    split at h
    · rename_i hb
      obtain ⟨⟨m, w₁⟩, hm, hr⟩ := bind_eq_ok.mp h
      have hfe₁ := backendReceives_fe hm
      refine .inr ?_
      rcases m with _ | ⟨_ | _, e⟩ | p <;> cases hr
      case h_1.some.response.true.refl => exact .goes hb hfe₁ (by simp only [BackendAt.left]; omega)
      all_goals exact .fails hb hfe₁ (Nat.succ_pos _)
    · cases h
  | expectPage =>
    simp only [step] at h
    split at h
    · rename_i i hb
      obtain ⟨⟨m, w₁⟩, hm, hr⟩ := bind_eq_ok.mp h
      have hfe₁ := backendReceives_fe hm
      refine .inr ?_
      rcases m with _ | ⟨success, e⟩ | p <;> cases hr
      case h_1.some.forward.refl => exact .goes hb hfe₁ (by simp only [BackendAt.left]; omega)
      all_goals exact .fails hb hfe₁ (Nat.succ_pos _)
    · cases h
  | acknowledge sent =>
    simp only [step] at h
    split at h
    · rename_i i p hb
      refine .inr ?_
      split_ifs at h <;> cases h
      · exact .goes hb (sendFrontend_points ..).1 (by simp only [BackendAt.left]; omega)
      · exact .fails hb rfl (Nat.succ_pos _)
    · cases h
  | copy =>
    simp only [step] at h
    split at h
    · rename_i i p hb
      refine .inr ?_
      split at h
      · cases h
      · obtain ⟨me, -, hr⟩ := bind_eq_ok.mp h
        cases hr
        exact .goes hb rfl (by simp only [BackendAt.left]; omega)
    · cases h
  | sendResult sent =>
    simp only [step] at h
    split at h
    · rename_i i p hb
      refine .inr ?_
      split at h
      · cases h
      · split_ifs at h <;> cases h
        · exact .goes hb (sendFrontend_points ..).1 (nextRound_left i p)
        · exact .fails hb rfl (Nat.succ_pos _)
    · cases h
  | handle sent what =>
    simp only [step] at h
    split at h
    · rename_i hf htf
      refine .inl ?_
      have hlt : (FrontendAt.taking 0).left pages.length < FrontendAt.idle.left pages.length := by
        simp only [FrontendAt.left]
        omega
      cases sent with
      | true =>
        cases h
        exact .goes hf (sendBackend_points ..).2 (sendBackend_points ..).1 hlt
      | false =>
        cases h
        exact .goes hf rfl rfl hlt
    · cases h
  | takePage first =>
    simp only [step] at h
    split at h
    · rename_i j hf
      refine .inl ?_
      split at h
      · cases h
      · rename_i p f hrun
        cases h
        exact .goes (y := .getting j p) hf rfl rfl (by simp only [FrontendAt.left]; omega)
    · cases h
  | forwardPage sent =>
    simp only [step] at h
    split at h
    · rename_i j p hf
      refine .inl ?_
      split_ifs at h <;> cases h
      · exact .goes (y := .forwarding j p) hf (sendBackend_points ..).2 rfl (by simp only [FrontendAt.left]; omega)
      · exact .fails hf rfl (by simp only [FrontendAt.left]; omega)
    · cases h
  | receiveForwarded =>
    simp only [step] at h
    split at h
    · rename_i j p hf
      obtain ⟨⟨m, w₁⟩, hm, hr⟩ := bind_eq_ok.mp h
      have hbe₁ := frontendReceives_be hm
      refine .inl ?_
      rcases m with _ | _ | _ | ⟨size, success, hasNext⟩ <;> cases hr
      case h_1.some.received.refl =>
        exact .goes (y := .waiting j p) hf hbe₁ rfl (by simp only [FrontendAt.left]; omega)
      all_goals exact .fails hf hbe₁ (by simp only [FrontendAt.left]; omega)
    · cases h
  | receiveResult =>
    simp only [step] at h
    split at h
    · rename_i j p hf
      obtain ⟨⟨m, w₁⟩, hm, hr⟩ := bind_eq_ok.mp h
      have hbe₁ := frontendReceives_be hm
      refine .inl ?_
      rcases m with _ | _ | _ | ⟨size, _ | _, hasNext⟩ <;> cases hr
      case h_1.some.result.true.refl =>
        exact .goes (y := .freezing j p size hasNext) hf hbe₁ rfl (by simp only [FrontendAt.left]; omega)
      all_goals exact .fails hf hbe₁ (by simp only [FrontendAt.left]; omega)
    · cases h
  | freezePage =>
    simp only [step] at h
    split at h
    · rename_i j p size hasNext hf
      refine .inl ?_
      obtain ⟨me, -, hr⟩ := bind_eq_ok.mp h
      cases hr
      exact .goes (y := .ending j p size hasNext) hf rfl rfl (by simp only [FrontendAt.left]; omega)
    · cases h
  | endWriting =>
    simp only [step] at h
    split at h
    · rename_i j p size hasNext hf
      have hj : j < pages.length := hfe j (by rw [hf]; rfl)
      refine .inl ?_
      split at h
      · cases h
      · cases h
        cases hasNext with
        | false => exact .goes (y := .updating) hf rfl rfl (by simp only [FrontendAt.left]; omega)
        | true => exact .goes (y := .taking (j + 1)) hf rfl rfl (by simp only [FrontendAt.left]; omega)
    · cases h
  | giveUp =>
    simp only [step] at h
    split at h
    · rename_i j p failure hf
      cases h
      exact .inl (.goes (y := .informing failure) hf rfl rfl Nat.one_lt_two)
    · cases h
  | inform result what =>
    simp only [step] at h
    split at h
    · rename_i failure hf
      cases h
      refine .inl (.goes hf ?_ rfl Nat.zero_lt_one)
      split_ifs
      · rfl
      · exact incrementCatalog_be ..
    · cases h
  | update result what =>
    simp only [step] at h
    split at h
    · rename_i hf
      cases h
      exact .inl (.goes hf (incrementCatalog_be ..) rfl Nat.zero_lt_one)
    · cases h

theorem Kept.left_lt (hk : Kept set pages w₀ w) (hcut : e ≠ .cut) (h : Materialization.step endReadsEmpty set pages e w = .ok w') :
    w'.left pages < w.left pages := by
  unfold World.left
  rcases step_moves hk.short hcut h with ⟨hbe, hlt⟩ | ⟨hfe, hlt⟩
  · rw [hbe]
    omega
  · rw [hfe]
    omega

def Goes (endReadsEmpty : Bool) (set : SetId) (pages : List (Page cfg)) (w : World cfg) : Prop :=
  ∃ e w', e ≠ .cut ∧ step endReadsEmpty set pages e w = .ok w'

theorem backendReceives_returns (h : w.toBackend ≠ [] ∨ w.broken = true ∨ w.fe.over = true) :
    ∃ m w', w.backendReceives = .ok (m, w') := by
  unfold World.backendReceives
  cases htb : w.toBackend with
  | cons m ms => exact ⟨_, _, rfl⟩
  | nil =>
    dsimp only
    rw [if_pos]
    · exact ⟨_, _, rfl⟩
    · rw [htb] at h
      simpa using h

theorem frontendReceives_returns (h : w.toFrontend ≠ [] ∨ w.broken = true ∨ w.be.over = true) :
    ∃ m w', w.frontendReceives = .ok (m, w') := by
  unfold World.frontendReceives
  cases htf : w.toFrontend with
  | cons m ms => exact ⟨_, _, rfl⟩
  | nil =>
    dsimp only
    rw [if_pos]
    · exact ⟨_, _, rfl⟩
    · rw [htf] at h
      simpa using h

theorem Kept.backend_goes (hk : Kept set pages w₀ w) (hn : 0 < pages.length) (hover : w.be.over = false)
    (hwaits : w.be = .waitingForResponse ∨ (∃ i, w.be = .expecting i) →
      w.toBackend ≠ [] ∨ w.broken = true ∨ w.fe.over = true) : Goes endReadsEmpty set pages w := by
  cases hbe : w.be with
  | starting =>
    refine ⟨.connect false, w.backendFails, by simp, ?_⟩
    rw [Materialization.step, hbe]
    dsimp only
    rw [if_neg hn.ne', if_neg Bool.false_ne_true]
  | connected =>
    refine ⟨.sendRequest false, w.backendFails, by simp, ?_⟩
    simp [Materialization.step, hbe]
  | waitingForResponse =>
    obtain ⟨m, w₁, hm⟩ := backendReceives_returns (hwaits (.inl hbe))
    refine ⟨.receiveResponse, ?_⟩
    rw [Materialization.step, hbe]
    dsimp only
    rw [hm, ok_bind]
    rcases m with _ | ⟨_ | _, e⟩ | p <;> exact ⟨_, by simp, rfl⟩
  | expecting i =>
    obtain ⟨m, w₁, hm⟩ := backendReceives_returns (hwaits (.inr ⟨i, hbe⟩))
    refine ⟨.expectPage, ?_⟩
    rw [Materialization.step, hbe]
    dsimp only
    rw [hm, ok_bind]
    rcases m with _ | ⟨success, e⟩ | p <;> exact ⟨_, by simp, rfl⟩
  | acknowledging i p =>
    refine ⟨.acknowledge false, w.backendFails, by simp, ?_⟩
    simp [Materialization.step, hbe]
  | copying i p =>
    obtain ⟨source, hsource, hroom⟩ := (hk.active (by rw [hbe]; rfl)).room
    obtain ⟨me, hcopy, -⟩ := hroom.copy
    refine ⟨.copy, ?_⟩
    rw [Materialization.step, hbe]
    dsimp only
    rw [hsource]
    dsimp only
    rw [hcopy, ok_bind]
    exact ⟨_, by simp, rfl⟩
  | sending i p =>
    obtain ⟨source, hsource, -⟩ := (hk.active (by rw [hbe]; rfl)).room
    refine ⟨.sendResult false, w.backendFails, by simp, ?_⟩
    simp [Materialization.step, hbe, hsource]
  | ended success =>
    rw [hbe] at hover
    cases hover

theorem Kept.frontend_goes (hk : Kept set pages w₀ w) (hidle : w.fe ≠ .idle) (hover : w.fe.over = false)
    (hdefined : w.Defined set endReadsEmpty)
    (hwaits : (∃ j p, w.fe = .forwarding j p ∨ w.fe = .waiting j p) →
      w.toFrontend ≠ [] ∨ w.broken = true ∨ w.be.over = true) : Goes endReadsEmpty set pages w := by
  have hfit := hk.fit
  unfold Fit at hfit
  cases hfe : w.fe with
  | idle => exact absurd hfe hidle
  | taking j =>
    obtain ⟨first, x, hx⟩ : ∃ first x, getNextFreePage endReadsEmpty w.frontend set first = .ok x := by
      cases hfree : w.frontend.freeSkippedPages set with
      | none =>
        refine ⟨0, pageBehindLast w.frontend set, ?_⟩
        rw [getNextFreePage, hfree]
        exact if_pos (hdefined.resolve_right fun h => h hfree)
      | some free =>
        by_cases hempty : free = ∅
        · refine ⟨0, pageBehindLast w.frontend set, ?_⟩
          rw [getNextFreePage, hfree]
          exact if_pos hempty
        · obtain ⟨first, hfirst⟩ := Finset.nonempty_iff_ne_empty.mpr hempty
          refine ⟨first, ?_⟩
          rw [getNextFreePage, hfree]
          dsimp only
          rw [if_neg hempty, if_pos hfirst]
          exact ⟨_, rfl⟩
    have hrun : StorageHandlers.takePage endReadsEmpty w.frontend set first =
        .ok (x.1, startWritingToPage x.2 set x.1) := by
      rw [StorageHandlers.takePage, hx]
      rfl
    refine ⟨.takePage first, ?_⟩
    rw [Materialization.step, hfe]
    dsimp only
    rw [hrun]
    exact ⟨_, by simp, rfl⟩
  | getting j p =>
    rw [hfe] at hfit
    refine ⟨.forwardPage false, ?_⟩
    rw [Materialization.step, hfe]
    dsimp only
    rw [hfit.2, if_neg Bool.false_ne_true, if_neg Bool.false_ne_true]
    exact ⟨_, by simp, rfl⟩
  | forwarding j p =>
    obtain ⟨m, w₁, hm⟩ := frontendReceives_returns (hwaits ⟨j, p, .inl hfe⟩)
    refine ⟨.receiveForwarded, ?_⟩
    rw [Materialization.step, hfe]
    dsimp only
    rw [hm, ok_bind]
    rcases m with _ | _ | _ | ⟨size, success, hasNext⟩ <;> exact ⟨_, by simp, rfl⟩
  | waiting j p =>
    obtain ⟨m, w₁, hm⟩ := frontendReceives_returns (hwaits ⟨j, p, .inr hfe⟩)
    refine ⟨.receiveResult, ?_⟩
    rw [Materialization.step, hfe]
    dsimp only
    rw [hm, ok_bind]
    rcases m with _ | _ | _ | ⟨size, _ | _, hasNext⟩ <;> exact ⟨_, by simp, rfl⟩
  | freezing j p size hasNext =>
    rw [hfe] at hfit
    obtain ⟨source, -, hholds, rfl, -⟩ := hfit
    obtain ⟨me, hfreeze, -⟩ := hholds.freezeSize
    refine ⟨.freezePage, ?_⟩
    rw [Materialization.step, hfe]
    dsimp only
    rw [hfreeze, ok_bind]
    exact ⟨_, by simp, rfl⟩
  | ending j p size hasNext =>
    rw [hfe] at hfit
    obtain ⟨source, hsource, hpage, hsize, -⟩ := hfit
    obtain ⟨f, hrun, -⟩ := hk.tables.stores hfe hsource hpage hsize
    refine ⟨.endWriting, ?_⟩
    rw [Materialization.step, hfe]
    dsimp only
    rw [hrun]
    exact ⟨_, by simp, rfl⟩
  | givingUp j p failure =>
    refine ⟨.giveUp, ?_⟩
    rw [Materialization.step, hfe]
    exact ⟨_, by simp, rfl⟩
  | informing failure =>
    refine ⟨.inform .done [], ?_⟩
    rw [Materialization.step, hfe]
    exact ⟨_, by simp, rfl⟩
  | updating =>
    refine ⟨.update .done [], ?_⟩
    rw [Materialization.step, hfe]
    exact ⟨_, by simp, rfl⟩
  | ended success e =>
    rw [hfe] at hover
    cases hover

theorem Kept.goesOn (hk : Kept set pages w₀ w) (hn : 0 < pages.length) (hover : ¬w.Over)
    (hdefined : w.Defined set endReadsEmpty) : Goes endReadsEmpty set pages w := by
  by_cases hbe : w.be.over = true
  · have hfe : ¬(w.fe.over = true ∨ w.fe = .idle ∧ ToFrontend.request ∉ w.toFrontend) := fun h => hover ⟨hbe, h⟩
    rw [not_or] at hfe
    refine hk.frontend_goes ?_ (Bool.eq_false_iff.mpr hfe.1) hdefined fun _ => .inr (.inr hbe)
    intro hi
    apply hfe.2
    refine ⟨hi, fun hm => ?_⟩
    rcases hk.health with hh | hd
    · cases hh.linked <;> grind [BackendAt.over]
    · have := hd.toFrontend _ hm
      cases this
  · rw [Bool.not_eq_true] at hbe
    by_cases hwaits : w.be = .waitingForResponse ∨ (∃ i, w.be = .expecting i) →
        w.toBackend ≠ [] ∨ w.broken = true ∨ w.fe.over = true
    · exact hk.backend_goes hn hbe hwaits
    · simp only [Classical.not_imp, not_or, Bool.not_eq_true, not_not] at hwaits
      obtain ⟨hwaiting, htb, hbroken, hfe⟩ := hwaits
      -- the back end waits, and there is nothing for it
      rcases hk.health with hh | hd
      · by_cases hi : w.fe = .idle
        · obtain ⟨htf, -⟩ : w.toFrontend = [.request] ∧ True := by
            cases hh.linked <;> grind
          refine ⟨.handle false [], ?_⟩
          rw [Materialization.step, hi, htf]
          exact ⟨_, by simp, rfl⟩
        · refine hk.frontend_goes hi hfe hdefined ?_
          rintro ⟨j, p, hp⟩
          cases hh.linked <;> grind
      · rcases hd.reason with h | h | h | h
        · rw [hbroken] at h
          cases h
        · refine hk.frontend_goes ?_ hfe hdefined ?_
          · intro hi
            rw [hi] at h
            cases h
          · rintro ⟨j, p, hp | hp⟩ <;> rw [hp] at h <;> cases h
        · rw [h] at hbe
          cases hbe
        · have hu := h.fe
          refine hk.frontend_goes ?_ hfe hdefined ?_
          · grind
          · grind

end Runs

theorem handshake_of_reachable (cfg : Config) (endReadsEmpty : Bool) (set : SetId) (pages : List (Page cfg))
    (hn : pages ≠ []) (w₀ : World cfg) (hs : w₀.Starts) (w : World cfg)
    (h : Reachable (step endReadsEmpty set pages) (Event.Sound set pages endReadsEmpty) (· = w₀) w) :
    Handshake set pages endReadsEmpty w₀ w := by
  have hlen : 0 < pages.length := List.length_pos_of_ne_nil hn
  have hk : Kept set pages w₀ w := h.invariant
    (by
      rintro _ rfl
      exact hs.kept)
    fun _ _ _ hk he hr => hk.step hlen he hr
  exact ⟨hk.outcome, hk.goesOn hlen, fun _ _ => hk.left_lt⟩

def smallPages : Config := ⟨0, 0, 1, [], 0, fun _ => some 0⟩

def smallPage (b : UInt8) : Page smallPages := ⟨0, [b], rfl⟩

def twoPages : List (Page smallPages) := [smallPage 7, smallPage 8]

def smallSet : SetId := ([100], [115])

def emptySets (size : Option ℕ) : World smallPages where
  frontend := ⟨∅, fun _ => none, fun _ => some ∅⟩
  page _ _ := ⟨smallPage 0, false⟩
  forwarding _ _ := false
  catalog _ := size
  fe := .idle
  be := .starting
  error := []
  totalSize := 0
  toFrontend := []
  toBackend := []
  broken := false
  faulty := false
  failedAt := none
  stored := []

theorem emptySets_starts (size : Option ℕ) : (emptySets size).Starts := ⟨rfl, rfl, rfl, rfl, rfl, rfl, rfl, rfl, rfl⟩

def admitted : World smallPages := { emptySets (some 0) with fe := .taking 0, be := .expecting 0 }

def taken : World smallPages := { admitted with
  frontend := startWritingToPage (pageBehindLast admitted.frontend smallSet).2 smallSet 0
  fe := .getting 0 0 }

def untilAdmitted : List Event := [.connect true, .sendRequest true, .handle true [], .receiveResponse]

def oneRound : List Event := [.forwardPage true, .expectPage, .acknowledge true, .copy, .sendResult true, .receiveForwarded,
  .receiveResult, .freezePage, .endWriting]

def smallCheck (e : Event) (w : World smallPages) : Bool :=
  match e with
  | .handle .. => (w.catalog smallSet).isSome
  | .takePage _ => false
  | .sendResult _ => !w.broken
  | .cut => false
  | .inform .. => false
  | .update result _ => result = .done
  | _ => true

theorem sound_of_smallCheck {e : Event} {w : World smallPages} (h : smallCheck e w = true) :
    e.Sound smallSet twoPages true w := by
  cases e with
  | handle sent what => exact Option.isSome_iff_ne_none.mp h
  | takePage first => cases h
  | sendResult sent =>
    intro _ hb
    rw [smallCheck, hb] at h
    cases h
  | cut => cases h
  | inform result what => cases h
  | update result what =>
    have hdone : result = .done := of_decide_eq_true h
    exact hdone
  | _ => trivial

theorem takePage_sound : (Event.takePage 0).Sound smallSet twoPages true admitted := by
  refine ⟨.inl rfl, by rintro ⟨⟩, fun j page f hfe hrun => ?_⟩
  cases hfe
  cases hrun
  exact ⟨⟨smallPage 7, rfl, by unfold Page.Small; decide, le_rfl, rfl⟩, rfl⟩

theorem handshake_twoPages : ∃ w, w.Succeeds ∧ Gained smallSet twoPages 2 (emptySets (some 0)) w := by
  have hstart : Reachable (step true smallSet twoPages) (Event.Sound smallSet twoPages true)
      (· = emptySets (some 0)) (emptySets (some 0)) := .start rfl
  have hadmitted := hstart.of_runAll (fun e w => sound_of_smallCheck)
    (show runAll _ smallCheck untilAdmitted _ = some admitted from rfl)
  have htaken := hadmitted.step takePage_sound (show _ = Except.ok taken from rfl)
  have hfirst := htaken.of_runAll (fun e w => sound_of_smallCheck)
    (show runAll (step true smallSet twoPages) smallCheck oneRound taken = some _ from rfl)
  have hsecond := hfirst.step (i := .takePage 1)
    (by
      refine ⟨.inl rfl, by rintro ⟨⟩, fun j page f hfe hrun => ?_⟩
      cases hfe
      cases hrun
      exact ⟨⟨smallPage 8, rfl, by unfold Page.Small; decide, le_rfl, rfl⟩, rfl⟩)
    (show _ = Except.ok _ from rfl)
  have hend := hsecond.of_runAll (fun e w => sound_of_smallCheck)
    (show runAll (step true smallSet twoPages) smallCheck (oneRound ++ [.update .done []]) _ = some _ from rfl)
  have h := handshake_of_reachable smallPages true smallSet twoPages (by simp [twoPages]) (emptySets (some 0)) (emptySets_starts _)
    _ hend
  exact ⟨_, (h.outcome ⟨rfl, .inl rfl⟩).complete (by rintro ⟨⟩) rfl⟩

theorem not_handshake_missing : ¬∀ w, Reachable (step true smallSet [smallPage 7]) (fun _ _ => True) (· = emptySets none) w →
    Handshake smallSet [smallPage 7] true (emptySets none) w := by
  intro h
  obtain ⟨w, hrun, hover, hbe⟩ : ∃ w, runAll (step true smallSet [smallPage 7]) (fun _ _ => true)
      (untilAdmitted ++ .takePage 0 :: oneRound ++ [.update .done []]) (emptySets none) = some w ∧ w.Over ∧ w.be = .ended true := by
    refine ⟨_, rfl, ?_⟩
    exact ⟨⟨rfl, .inl rfl⟩, rfl⟩
  have hfails := (((h w (Reachable.of_runAll (fun _ _ _ => trivial) (.start rfl) hrun)).outcome hover).missing rfl).1.1
  rw [hbe] at hfails
  cases hfails

end PlinyCompute.Materialization
