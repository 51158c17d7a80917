import PlinyCompute.KeyWalks

namespace PlinyCompute.PlanTransformer

open LogicalPlan Transition ComputationTables

variable {l l' l₀ : AtomicComputationList} {t x y a b : Text} {p cur next c d : ℕ}
variable {rank : Text → ℕ} {generated : ℕ → List Text} {waiting : ℕ → Text → Prop} {old : Text → Prop}

section Attributes

variable {atts : List Text}

theorem replace_cons_eq (z a b : Text) (atts : List Text) :
    (z :: atts).replace a b = if z = a then b :: atts else z :: atts.replace a b := by
  rw [List.replace_cons]
  by_cases hz : z = a
  · simp [hz]
  · have hza : (a == z) = false := by simpa using Ne.symm hz
    rw [hza, if_neg hz]

theorem redirect_mem_replace (h : x ∈ atts) : redirect a b x ∈ atts.replace a b := by
  induction atts with
  | nil => cases h
  | cons z atts ih =>
    rw [replace_cons_eq]
    by_cases hz : z = a
    · rw [if_pos hz]
      by_cases hx : x = a
      · simp [redirect, hx]
      · rw [redirect_of_ne hx]
        exact List.mem_cons_of_mem b (List.mem_of_ne_of_mem (hz ▸ hx) h)
    · rw [if_neg hz]
      obtain rfl | h := List.mem_cons.mp h
      · rw [redirect_of_ne hz]
        exact List.mem_cons_self
      · exact List.mem_cons_of_mem z (ih h)

theorem exists_of_mem_replace (hcount : atts.count a ≤ 1) (h : y ∈ atts.replace a b) :
    ∃ x ∈ atts, y = redirect a b x := by
  induction atts with
  | nil => cases h
  | cons z atts ih =>
    rw [replace_cons_eq] at h
    by_cases hz : z = a
    · subst hz
      rw [if_pos rfl, List.mem_cons] at h
      obtain rfl | h := h
      · exact ⟨z, List.mem_cons_self, by rw [redirect, if_pos rfl]⟩
      · refine ⟨y, List.mem_cons_of_mem z h, ?_⟩
        rw [redirect_of_ne]
        rintro rfl
        rw [List.count_cons_self] at hcount
        have hpos := List.count_pos_iff.mpr h
        omega
    · rw [if_neg hz, List.mem_cons] at h
      obtain rfl | h := h
      · exact ⟨y, List.mem_cons_self, (redirect_of_ne hz).symm⟩
      · rw [List.count_cons_of_ne hz] at hcount
        obtain ⟨x, hx, hy⟩ := ih hcount h
        exact ⟨x, List.mem_cons_of_mem z hx, hy⟩

theorem redirect_redirect (a b x : Text) : redirect a b (redirect a b x) = redirect a b x := by
  unfold redirect
  split_ifs <;> simp_all

end Attributes

structure Once (x : Text) (c : AtomicComputation) : Prop where
  input : c.input.atts.count x ≤ 1
  output : c.output.atts.count x ≤ 1
  projection : c.projection.atts.count x ≤ 1

structure Passes (x : Text) (c : AtomicComputation) : Prop extends Once x c where
  projected : x ∈ c.output.atts → x ∈ c.projection.atts

theorem Once.renamed {y z : AtomicComputation} (h : Once x y) (hr : Renamed y z) : Once x z := by
  constructor
  · rw [hr.inputAtts]
    exact h.input
  · rw [hr.output]
    exact h.output
  · rw [hr.projectionAtts]
    exact h.projection

theorem Passes.renamed {y z : AtomicComputation} (h : Passes x y) (hr : Renamed y z) : Passes x z where
  toOnce := h.toOnce.renamed hr
  projected := by
    rw [hr.output, hr.projectionAtts]
    exact h.projected

structure Straight (waiting : ℕ → Text → Prop) (l : AtomicComputationList) (t : Text) (c : ℕ) : Prop
    extends Through t (l.objects c) where
  whole : ∀ s ∈ specs (l.objects c), ∀ x ∈ s.atts, ¬ waiting c x

theorem Straight.not_waiting_input (h : Straight waiting l t c) (hx : x ∈ (l.objects c).input.atts) : ¬ waiting c x :=
  h.whole _ (by simp [specs]) x hx

theorem Straight.not_waiting_projection (h : Straight waiting l t c) (hx : x ∈ (l.objects c).projection.atts) :
    ¬ waiting c x :=
  h.whole _ (by simp [specs]) x hx

section Supplied

variable (hs : Straight waiting l t c) (h : Flow rank generated (fun c _ x => waiting c x) l) (hc : Produced l c)
include hs h hc

theorem Straight.found_input (hx : x ∈ (l.objects c).input.atts) : Found l t x := by
  have hf := (h.supplied c hc _ (by simp [specs]) x hx).resolve_right (hs.not_waiting_input hx)
  rw [hs.input] at hf
  exact hf

theorem Straight.found_projection (hx : x ∈ (l.objects c).projection.atts) : Found l t x := by
  have hf := (h.supplied c hc (l.objects c).projection (by simp [specs]) x hx).resolve_right
    (hs.not_waiting_projection hx)
  rw [hs.projection] at hf
  exact hf

end Supplied

section KeySide

def replaceRecord (a b : Text) (c : AtomicComputation) : AtomicComputation :=
  { c with output := c.output.replaceAtt a b, projection := c.projection.replaceAtt a b }

theorem leftEdit_replaceRecord (a b : Text) : LeftEdit (replaceRecord a b) :=
  ⟨fun _ => rfl, fun _ => rfl, fun _ => rfl, fun _ => rfl⟩

theorem ownOutput_replaceRecord {c : AtomicComputation} {g : List Text} (h : OwnOutput g c) (hp : Passes a c) :
    OwnOutput g (replaceRecord a b c) := by
  intro hr y hy
  obtain ⟨x, hx, rfl⟩ := exists_of_mem_replace hp.output hy
  have hjoined : joined (replaceRecord a b c) =
      c.projection.atts.replace a b ++ (c.getRightProjection.map TupleSpec.atts).getD [] := rfl
  rw [hjoined, List.mem_append]
  by_cases hxa : x = a
  · subst hxa
    exact .inl (.inl (redirect_mem_replace (hp.projected hx)))
  · obtain hx | hx := h hr x hx
    · obtain hx | hx := List.mem_append.mp hx
      · exact .inl (.inl (redirect_mem_replace hx))
      · rw [redirect_of_ne hxa]
        exact .inl (.inr hx)
    · rw [redirect_of_ne hxa]
      exact .inr hx

theorem Flow.keySideLoop {start : Text} {fuel : ℕ}
    (hwalk : ∀ n c, Walk l₀ (fun _ d => (l₀.objects d).role ≠ .join) start n c →
      Straight waiting l₀ n c ∧ Passes a (l₀.objects c))
    (h : Flow rank generated (pending waiting l p cur old) l) (hf : Front rank l₀ l t p cur)
    (hcur : Walk l₀ (fun _ d => (l₀.objects d).role ≠ .join) start t cur)
    (hold : ∀ x, old x ∨ x ∈ (l.objects p).output.atts → redirect a b x ∈ (l.objects p).output.atts)
    (he : keySideLoop a b fuel cur l = .ok l') :
    Flow rank generated (fun d _ x => waiting d x ∨ x = a ∧ ∃ n c,
      Walk l₀ (fun _ d => (l₀.objects d).role ≠ .join) start n c ∧ l₀.consumers (l₀.outputName c) = [d] ∧
        (l₀.objects d).role = .join) l' := by
  induction fuel generalizing t p cur l old with
  | zero => cases he
  | succ fuel ih =>
    obtain ⟨hstraight, hpasses⟩ := hwalk t cur hcur
    have ht := hf.through hstraight.toThrough
    have hpass := hpasses.renamed hf.renamed
    have hedit := leftEdit_replaceRecord a b
    rw [PlanTransformer.keySideLoop] at he
    split_ifs at he with hin
    have hmodify : (l.modify cur fun c => { c with
        output := c.output.replaceAtt a b
        projection := c.projection.replaceAtt a b }) = l.modify cur (replaceRecord a b) := rfl
    dsimp only at he
    rw [hmodify] at he
    have hobj : (l.modify cur (replaceRecord a b)).objects cur = replaceRecord a b (l.objects cur) :=
      Function.update_self _ _ _
    have hflow : ∀ next, l.consumers (l.outputName cur) = [next] → Flow rank generated
        (pending waiting (l.modify cur (replaceRecord a b)) cur next (· ∈ (l.objects cur).output.atts))
        (l.modify cur (replaceRecord a b)) := by
      intro next hn
      refine h.keep_left hedit hf ht (ownOutput_replaceRecord (h.own cur (hf.produced h.toLinked)) hpass) ?_ ?_ hn
      · intro x hx
        obtain hx' | hw := h.named hf (s := (l.objects cur).input) (by simp [specs]) ht.input hx
        · have hxa : x ≠ a := by
            rintro rfl
            simp [TupleSpec.hasAtt] at hin
            exact hin hx
          have := hold x hx'
          rw [redirect_of_ne hxa] at this
          exact .inl this
        · exact absurd hw (hstraight.not_waiting_input (hf.renamed.inputAtts ▸ hx))
      · intro y hy
        obtain ⟨x, hx, rfl⟩ := exists_of_mem_replace hpass.projection hy
        obtain hx' | hw := h.named hf (s := (l.objects cur).projection) (by simp [specs]) ht.projection hx
        · exact .inl (hold x hx')
        · exact absurd hw (hstraight.not_waiting_projection (hf.renamed.projectionAtts ▸ hx))
    rw [(hedit.sameTables l cur).output, (hedit.sameTables l cur).consumers] at he
    split at he
    · next next hn =>
      have hfront := hf.keep h.toLinked (hedit.sameTables l cur) hn
      have hn₀ := hn
      rw [hf.consumers_output] at hn₀
      have hrole : ((l.modify cur (replaceRecord a b)).objects next).role = (l₀.objects next).role :=
        hfront.renamed.role
      split_ifs at he with hjoin
      · cases he
        apply (hflow next hn).exit hfront
        · intro c x hx
          exact .inl hx
        · intro x hx
          by_cases hxa : x = a
          · exact .inr (.inr ⟨hxa, t, cur, hcur, hn₀, hrole ▸ hjoin⟩)
          · rw [hobj]
            have := redirect_mem_replace (a := a) (b := b) hx
            rw [redirect_of_ne hxa] at this
            exact .inl this
      · apply ih (hflow next hn) hfront (hcur.next hn₀ (hrole ▸ hjoin)) _ he
        intro x hx
        rw [hobj] at hx ⊢
        obtain hx | hx := hx
        · exact redirect_mem_replace hx
        · obtain ⟨z, hz, rfl⟩ := exists_of_mem_replace hpass.output hx
          rw [redirect_redirect]
          exact redirect_mem_replace hz
    · cases he

structure Side (l : AtomicComputationList) (t : Text) (inputComp keyComp : ℕ) (a : Text) : Prop where
  producer : l.producers t = some inputComp
  consumers : l.consumers t = [keyComp]
  record : (l.objects inputComp).output.atts.head? = some a

abbrev SideWalk (l : AtomicComputationList) (keyComp : ℕ) : Text → ℕ → Prop :=
  Walk l (fun _ d => (l.objects d).role ≠ .join) (l.outputName keyComp)

def SideLeaves (l : AtomicComputationList) (t : Text) (d : ℕ) (x : Text) : Prop :=
  ∃ inputComp keyComp n c, Side l t inputComp keyComp x ∧ SideWalk l keyComp n c ∧
    l.consumers (l.outputName c) = [d] ∧ (l.objects d).role = .join

def SideRegular (waiting : ℕ → Text → Prop) (l : AtomicComputationList) (t : Text) : Prop :=
  ∀ inputComp keyComp a, Side l t inputComp keyComp a →
    (∀ s ∈ specs (l.objects keyComp), ∀ x ∈ s.atts, ¬ waiting keyComp x) ∧
    ∀ n c, SideWalk l keyComp n c → Straight waiting l n c ∧ Passes a (l.objects c)

variable {inputComp keyComp : ℕ}

theorem KeySide.side (h : KeySide t l inputComp keyComp a b) : Side l t inputComp keyComp a :=
  ⟨h.producer, h.consumers, h.record⟩

theorem KeySide.getRightInput (h : KeySide t l inputComp keyComp a b) : (l.objects keyComp).getRightInput = none := by
  have hkey := h.key
  unfold AtomicComputation.isApplyLambda at hkey
  unfold AtomicComputation.getRightInput
  cases hk : (l.objects keyComp).kind <;> simp [hk] at hkey ⊢

theorem KeySide.through (hs : KeySide t l inputComp keyComp a b) (h : Linked rank l) :
    Through t (l.objects keyComp) := by
  have hone : (l.objects keyComp).hasTwoInputs = false := by
    rw [AtomicComputation.hasTwoInputs, hs.getRightInput]
    rfl
  have hname : l.outputName inputComp = t := h.tables.output t inputComp hs.producer
  have hm : keyComp ∈ l.consumers (l.outputName inputComp) := by simp [hname, hs.consumers]
  obtain ⟨hk, hread⟩ := (h.mem_consumers ⟨t, hs.producer⟩).mp hm
  rw [hname, names_of_one hone, List.mem_singleton] at hread
  exact ⟨hread.symm, ((h.sameSets keyComp hk).setName_eq hone).trans hread.symm⟩

theorem KeySide.produced (hs : KeySide t l inputComp keyComp a b) (h : Linked rank l) :
    Produced l keyComp ∧ l.outputName inputComp ∈ names l keyComp := by
  have hname : l.outputName inputComp = t := h.tables.output t inputComp hs.producer
  apply (h.mem_consumers ⟨t, hs.producer⟩).mp
  rw [hname, hs.consumers]
  exact List.mem_singleton_self keyComp

theorem KeySide.front (hs : KeySide t l inputComp keyComp a b) (h : Linked rank l) :
    Front rank l (l.modify inputComp (keyedScan a b)) t inputComp keyComp := by
  have hname : l.outputName inputComp = t := h.tables.output t inputComp hs.producer
  have hf := Front.start h (sameTables_keyedScan a b l inputComp) ⟨t, hs.producer⟩ (hname ▸ hs.consumers)
  rw [hname] at hf
  exact hf

theorem KeySide.flow (hs : KeySide t l inputComp keyComp a b)
    (h : Flow rank generated (fun c _ x => waiting c x) l) :
    Flow rank generated (pending waiting (l.modify inputComp (keyedScan a b)) inputComp keyComp
      (· ∈ (l.objects inputComp).output.atts)) (l.modify inputComp (keyedScan a b)) := by
  have hp : Produced l inputComp := ⟨t, hs.producer⟩
  apply h.modify hp (sameTables_keyedScan a b l inputComp)
  · exact ⟨(h.sameSets inputComp hp).left, (h.sameSets inputComp hp).right⟩
  · intro hr
    exact absurd hs.scan hr
  · intro s hsp x hx
    exact (h.supplied inputComp hp s hsp x hx).imp_right .inl
  · intro c _ _ n _ x hx
    exact .inl hx
  · intro c _ hc hr x hx
    have hname : l.outputName inputComp = t := h.tables.output t inputComp hs.producer
    refine .inr (.inr ⟨h.eq_of_sole hp ?_ hc hr, ((sameTables_keyedScan a b l inputComp).output inputComp).symm, hx⟩)
    rw [hname]
    exact hs.consumers

theorem replaceComputation_objects {k : Text} {currComp comp : ℕ} (hk : l.producers k = some currComp)
    (h : replaceComputation k comp l = .ok l') :
    ((detach currComp l).consumers k).foldlM (renameConsumer k (l.outputName comp)) l.objects = .ok l'.objects := by
  unfold replaceComputation at h
  rw [hk] at h
  dsimp only at h
  obtain ⟨objects, hobjects, h⟩ := bind_eq_ok.mp h
  cases h
  exact hobjects

theorem relinked_of_left {y z : AtomicComputation} (h : z.input.setName = y.getOutputName)
    (hr : z.getRightInput.map TupleSpec.setName ≠ some y.getOutputName) :
    relinked y z = z.setInputNames y.input.setName y.projection.setName := by
  unfold relinked
  dsimp only
  rw [if_pos h]
  exact if_neg hr

theorem KeySide.outputName_ne (hs : KeySide t l inputComp keyComp a b) (h : Linked rank l) :
    l.outputName keyComp ≠ t := by
  intro hkt
  have hname : l.outputName inputComp = t := h.tables.output t inputComp hs.producer
  exact hs.ne (h.tables.eq_of_outputName (hs.produced h).1 ⟨t, hs.producer⟩ (hkt.trans hname.symm))

theorem KeySide.detach (hs : KeySide t l inputComp keyComp a b) (h : Linked rank l) (n : Text) :
    (detach keyComp ((l.modify inputComp (keyedScan a b)).removeProducer t)).consumers n =
      if n = t then [] else l.consumers n := by
  have hobj : ((l.modify inputComp (keyedScan a b)).removeProducer t).objects keyComp = l.objects keyComp :=
    Function.update_of_ne hs.ne _ _
  have hempty : (l.objects keyComp).input.isEmpty = false := by
    simpa [TupleSpec.isEmpty, (hs.through h).input] using h.tables.ne_noInput hs.producer
  unfold ComputationTables.detach
  rw [hobj, hs.getRightInput, hempty, (hs.through h).input]
  change (((l.modify inputComp (keyedScan a b)).removeProducer t).removeConsumer t keyComp).consumers n = _
  rw [removeConsumer_consumers]
  change (if n = t then (l.consumers t).filter (· ≠ keyComp) else l.consumers n) = _
  rw [hs.consumers]
  simp

variable {l₂ : AtomicComputationList}

theorem KeySide.replaced (hs : KeySide t l inputComp keyComp a b) (h : Linked rank l)
    (he : replaceComputation (l.outputName keyComp) inputComp
      ((l.modify inputComp (keyedScan a b)).removeProducer t) = .ok l₂) :
    Replaced ((l.modify inputComp (keyedScan a b)).removeProducer t) l₂ (l.outputName keyComp) t keyComp inputComp := by
  have hrep := hs.replaceable h.tables fun t c hc => ⟨c, hc⟩
  have hr := replaceComputation_spec hrep.producer he
  rw [hrep.name] at hr
  exact hr

theorem KeySide.readers (hs : KeySide t l inputComp keyComp a b) (h : Linked rank l)
    (he : replaceComputation (l.outputName keyComp) inputComp
      ((l.modify inputComp (keyedScan a b)).removeProducer t) = .ok l₂) :
    l₂.consumers (l₂.outputName inputComp) = l.consumers (l.outputName keyComp) := by
  have hr := hs.replaced h he
  have hout : l₂.outputName inputComp = t := by
    unfold AtomicComputationList.outputName AtomicComputation.getOutputName
    rw [(hr.renamed inputComp).output]
    exact ((sameTables_keyedScan a b l inputComp).output inputComp).trans (h.tables.output t inputComp hs.producer)
  rw [hout, hr.consumers, if_pos rfl, hs.detach h, if_neg (hs.outputName_ne h)]

theorem KeySide.unlinked (hs : KeySide t l inputComp keyComp a b) (h : Linked rank l)
    (he : replaceComputation (l.outputName keyComp) inputComp
      ((l.modify inputComp (keyedScan a b)).removeProducer t) = .ok l₂)
    (hcons : l.consumers (l.outputName keyComp) = [cur])
    (hcur : (l.objects cur).input.setName = l.outputName keyComp) :
    Unlinked (l.modify inputComp (keyedScan a b)) l₂ keyComp := by
  have hrep := hs.replaceable h.tables fun t c hc => ⟨c, hc⟩
  have hr := hs.replaced h he
  obtain ⟨hk, hkread⟩ := hs.produced h
  have ht := hs.through h
  have hkt := hs.outputName_ne h
  have hread := (h.mem_consumers hk).mp (hcons ▸ List.mem_singleton_self cur)
  have hne : cur ≠ inputComp := by
    rintro rfl
    have h₁ := h.rank_lt ⟨t, hs.producer⟩ hk hkread
    have h₂ := h.rank_lt hk hread.1 hread.2
    omega
  have hobj : ∀ c, c ≠ inputComp → (l.modify inputComp (keyedScan a b)).objects c = l.objects c :=
    fun c hc => Function.update_of_ne hc _ _
  have hout : (l.modify inputComp (keyedScan a b)).outputName keyComp = l.outputName keyComp :=
    (sameTables_keyedScan a b l inputComp).output _
  constructor
  · intro c
    have hfold := replaceComputation_objects hrep.producer he
    rw [hs.detach h, if_neg hkt, hcons, List.foldlM_cons, bind_eq_ok] at hfold
    obtain ⟨objects, hrename, hfold⟩ := hfold
    cases hfold
    have hright : (l.objects cur).getRightInput.map TupleSpec.setName ≠ some (l.outputName keyComp) := by
      apply right_ne_of_count hcur
      change (names l cur).count _ = 1
      rw [← h.count_consumers hk hread.1, hcons]
      simp
    unfold renameConsumer at hrename
    change (if ((l.modify inputComp (keyedScan a b)).objects cur).input.setName = l.outputName keyComp then _
      else _) = _ at hrename
    rw [hobj cur hne, if_pos hcur, Except.ok.injEq] at hrename
    rw [← hrename, hout]
    change _ = if c ∈ l.consumers (l.outputName keyComp) then _ else _
    rw [hcons, hobj keyComp hs.ne]
    by_cases hc : c = cur
    · subst hc
      rw [Function.update_self, if_pos (List.mem_singleton_self c), hobj c hne, relinked_of_left hcur hright,
        ht.input, ht.projection, hrep.name]
      exact congrArg (AtomicComputation.setInputNames t t) (hobj c hne)
    · rw [Function.update_of_ne hc, if_neg (by simpa using hc)]
      rfl
  · intro n
    rw [hr.producers, removeProducer_producers, hout]
    by_cases hn : n = t
    · subst hn
      rw [if_pos rfl, if_neg (Ne.symm hkt)]
      exact hs.producer.symm
    · rw [if_neg hn, if_neg hn]
  · intro n hn
    rw [hout] at hn ⊢
    rw [hr.consumers, hobj keyComp hs.ne, ht.input, if_neg hn, hs.detach h, hs.detach h, if_neg hkt]
    change _ = if n = t then (l.consumers n).filter (· ≠ keyComp) ++ l.consumers (l.outputName keyComp) else l.consumers n
    by_cases hnt : n = t
    · subst hnt
      rw [if_pos rfl, if_pos rfl, hs.consumers]
      simp
    · rw [if_neg hnt, if_neg hnt, if_neg hnt]
  · exact hr.allocated

theorem KeySide.output (hs : KeySide t l inputComp keyComp a b) (hx : x ∈ (l.objects keyComp).output.atts) :
    x ∈ (l.objects keyComp).projection.atts ∨ x = b := by
  by_cases hp : x ∈ (l.objects keyComp).projection.atts
  · exact .inl hp
  · have hm : x ∈ (TupleSpec.complement (l.objects keyComp).output (l.objects keyComp).projection).atts := by
      simp [TupleSpec.complement, hx, hp]
    rw [hs.column, List.mem_singleton] at hm
    exact .inr hm

theorem Flow.joinKeySide {fuel : ℕ} (h : Flow rank generated (fun c _ x => waiting c x) l)
    (hreg : SideRegular waiting l t) (hcan : canJoinKeySide t l = .ok true) (he : joinKeySide fuel t l = .ok l') :
    Flow rank generated (fun d _ x => waiting d x ∨ SideLeaves l t d x) l' := by
  obtain ⟨inputComp, keyComp, a, b, l₂, currComp, hs, he₂, hcons, he⟩ := joinKeySide_eq_ok h.tables.output hcan he
  rw [hs.readers h.toLinked he₂] at hcons
  obtain ⟨hwhole, hwalk⟩ := hreg inputComp keyComp a hs.side
  have hfirst : SideWalk l keyComp (l.outputName keyComp) currComp := .first hcons
  have hthrough := (hwalk _ _ hfirst).1.toThrough
  have hu := hs.unlinked h.toLinked he₂ hcons hthrough.input
  have hf := hs.front h.toLinked
  have hflow := hs.flow h
  have hobj : (l.modify inputComp (keyedScan a b)).objects keyComp = l.objects keyComp :=
    Function.update_of_ne hs.ne _ _
  have hkey := hf.through (hs.through h.toLinked)
  have hone : ((l.modify inputComp (keyedScan a b)).objects keyComp).hasTwoInputs = false := by
    rw [hobj, AtomicComputation.hasTwoInputs, hs.getRightInput]
    rfl
  have hname := (sameTables_keyedScan a b l inputComp).output keyComp
  have hnext : currComp ∉ (l.modify inputComp (keyedScan a b)).consumers
      ((l.modify inputComp (keyedScan a b)).outputName inputComp) := by
    rw [(sameTables_keyedScan a b l inputComp).output, h.tables.output t inputComp hs.producer]
    change currComp ∉ l.consumers t
    rw [hs.consumers, List.mem_singleton]
    rintro rfl
    have hk := (hs.produced h.toLinked).1
    exact h.ne hk hk ((h.mem_consumers hk).mp (hcons ▸ List.mem_singleton_self _)).2 rfl
  have hf₂ := hf.drop hflow.toLinked hone hkey hu (by rw [hname]; exact hcons) hnext
  have hflow₂ := hflow.drop hf hone hkey hu (by rw [hname]; exact hcons)
  have hscan : (l₂.objects inputComp).output.atts = (l.objects inputComp).output.atts.filter (· ≠ a) ++ [b] := by
    have hself : (l.modify inputComp (keyedScan a b)).objects inputComp = keyedScan a b (l.objects inputComp) :=
      Function.update_self _ _ _
    rw [(hu.renamed inputComp).output, hself]
    rfl
  have hdone := hflow₂.keySideLoop hwalk hf₂ hfirst ?_ he
  · apply hdone.mono
    rintro d - n - x (hx | ⟨rfl, n, c, hc, hd, hjoin⟩)
    · exact .inr (.inl hx)
    · exact .inr (.inr ⟨inputComp, keyComp, n, c, hs.side, hc, hd, hjoin⟩)
  · intro x hx
    rw [hscan, hobj] at *
    by_cases hxa : x = a
    · simp [redirect, hxa]
    · rw [redirect_of_ne hxa]
      obtain hx | hx := hx
      · obtain hx | rfl := hs.output hx
        · obtain ⟨q, hq, hx⟩ | hw := h.supplied keyComp (hs.produced h.toLinked).1 (l.objects keyComp).projection
            (by simp [specs]) x hx
          · rw [(hs.through h.toLinked).projection, hs.producer] at hq
            cases hq
            simp [hx, hxa]
          · exact absurd hw (hwhole _ (by simp [specs]) x hx)
        · simp
      · exact hx

end KeySide

end PlinyCompute.PlanTransformer
