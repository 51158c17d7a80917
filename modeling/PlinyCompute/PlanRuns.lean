import Mathlib.Data.List.Induction
import Mathlib.Data.List.Nodup
import PlinyCompute.PlanDropping

namespace PlinyCompute.PlanTransformer

open LogicalPlan Transition ComputationTables
open AtomicComputationList (addAtomicComputation enter allocate)

variable {l l' : AtomicComputationList} {t k n : Text} {c d : ℕ}

section Building

structure Addable (plan : List AtomicComputation) : Prop where
  outputs : (plan.map AtomicComputation.getOutputName).Nodup
  -- the constructor of a scan set gives it no input
  scans : ∀ c ∈ plan, c.role = .scan → c.input = .empty
  inputs : ∀ c ∈ plan, ∀ t ∈ c.inputNames, t ≠ noInput → t ∈ plan.map AtomicComputation.getOutputName
  reserved : noInput ∉ plan.map AtomicComputation.getOutputName

theorem foldl_pushConsumer (ts : List Text) (c : ℕ) (l : AtomicComputationList) :
    ts.foldl (fun l t => l.pushConsumer t c) l =
      { l with consumers := fun t => l.consumers t ++ List.replicate (ts.count t) c } := by
  induction ts generalizing l with
  | nil => simp
  | cons a ts ih =>
    rw [List.foldl_cons, ih]
    simp only [AtomicComputationList.pushConsumer]
    congr 1
    funext t
    by_cases ht : t = a
    · subst ht
      simp [List.replicate_succ]
    · simp [ht, Ne.symm ht]

structure Added (plan : List AtomicComputation) (l : AtomicComputationList) : Prop where
  allocated : l.allocated = plan.length
  objects : ∀ c x, plan[c]? = some x → l.objects c = x
  producers : ∀ t c, l.producers t = some c → ∃ x, plan[c]? = some x ∧ x.getOutputName = t
  produced : ∀ t, t ∈ plan.map AtomicComputation.getOutputName → ∃ c, l.producers t = some c
  count : ∀ t c, (l.consumers t).count c = ((plan[c]?.map AtomicComputation.inputNames).getD []).count t

theorem Added.addAtomicComputation {plan : List AtomicComputation} (h : Added plan l) (x : AtomicComputation) :
    Added (plan ++ [x]) (l.addAtomicComputation x) := by
  have hobj : (l.allocate x).objects l.allocated = x := Function.update_self _ _ _
  have hlast : (plan ++ [x])[plan.length]? = some x := by simp
  have hinit : ∀ c, c ≠ plan.length → (plan ++ [x])[c]? = plan[c]? := by
    intro c hc
    by_cases hlt : c < plan.length
    · exact List.getElem?_append_left hlt
    · have hge : plan.length < c := by omega
      rw [List.getElem?_eq_none (by simp; omega), List.getElem?_eq_none (by omega)]
  unfold AtomicComputationList.addAtomicComputation AtomicComputationList.enter
  rw [hobj, foldl_pushConsumer]
  have hname : (l.allocate x).outputName l.allocated = x.getOutputName := by
    rw [AtomicComputationList.outputName, hobj]
  rw [hname]
  have hold : ∀ c y, plan[c]? = some y → c ≠ plan.length := by
    intro c y hy
    have := (List.getElem?_eq_some_iff.mp hy).1
    omega
  refine ⟨by simp [allocate, h.allocated], ?_, ?_, ?_, ?_⟩
  · intro c y hy
    by_cases hc : c = plan.length
    · subst hc
      cases hlast.symm.trans hy
      exact h.allocated ▸ hobj
    · rw [hinit c hc] at hy
      have hne : c ≠ l.allocated := h.allocated ▸ hc
      exact (Function.update_of_ne hne _ _).trans (h.objects c y hy)
  · intro t c ht
    by_cases hx : t = x.getOutputName
    · have hc : c = plan.length := by simpa [hx, allocate, h.allocated, eq_comm] using ht
      exact ⟨x, hc ▸ hlast, hx.symm⟩
    · have ht' : l.producers t = some c := by simpa [hx, allocate] using ht
      obtain ⟨y, hy, hyt⟩ := h.producers t c ht'
      exact ⟨y, (hinit c (hold c y hy)).trans hy, hyt⟩
  · intro t ht
    by_cases hx : t = x.getOutputName
    · exact ⟨l.allocated, by simp [hx, allocate]⟩
    · have ht' : t ∈ plan.map AtomicComputation.getOutputName := by
        simpa [hx] using ht
      obtain ⟨c, hc⟩ := h.produced t ht'
      exact ⟨c, by simp [hx, allocate, hc]⟩
  · intro t c
    change (l.consumers t ++ List.replicate (x.inputNames.count t) l.allocated).count c = _
    rw [List.count_append, h.count, h.allocated, List.count_replicate]
    by_cases hc : c = plan.length
    · subst hc
      simp
    · rw [hinit c hc]
      simp [Ne.symm hc]

theorem build_append (plan : List AtomicComputation) (x : AtomicComputation) :
    build (plan ++ [x]) = (build plan).addAtomicComputation x := by
  rw [build, List.foldl_append]
  rfl

theorem added_build (plan : List AtomicComputation) : Added plan (build plan) := by
  induction plan using List.reverseRecOn with
  | nil => constructor <;> simp [build, AtomicComputationList.empty]
  | append_singleton plan x ih =>
    rw [build_append]
    exact ih.addAtomicComputation x

theorem addAtomicComputation_scans (l : AtomicComputationList) (x : AtomicComputation) :
    (l.addAtomicComputation x).scans = if x.role = .scan then l.scans ++ [l.allocated] else l.scans := by
  have hobj : (l.allocate x).objects l.allocated = x := Function.update_self _ _ _
  unfold addAtomicComputation enter
  rw [foldl_pushConsumer, hobj]
  rfl

theorem scans_build (plan : List AtomicComputation) :
    (build plan).scans.Nodup ∧ ∀ c, c ∈ (build plan).scans ↔ ∃ x, plan[c]? = some x ∧ x.role = .scan := by
  induction plan using List.reverseRecOn with
  | nil => simp [build, AtomicComputationList.empty]
  | append_singleton plan x ih =>
    obtain ⟨hn, hm⟩ := ih
    have hlast : ∀ c, (∃ y, (plan ++ [x])[c]? = some y ∧ y.role = .scan) ↔
        (∃ y, plan[c]? = some y ∧ y.role = .scan) ∨ c = plan.length ∧ x.role = .scan := by
      intro c
      by_cases hlt : c < plan.length
      · rw [List.getElem?_append_left hlt]
        simp [Nat.ne_of_lt hlt]
      · rw [List.getElem?_append_right (by omega), List.getElem?_eq_none (by omega : plan.length ≤ c)]
        by_cases he : c = plan.length
        · simp [he]
        · have hpos : c - plan.length ≠ 0 := by omega
          simp [he, hpos]
    rw [build_append, addAtomicComputation_scans, (added_build plan).allocated]
    split_ifs with hs
    · refine ⟨?_, fun c => ?_⟩
      · apply List.nodup_append.mpr
        refine ⟨hn, List.nodup_singleton _, ?_⟩
        intro c hc d hd
        obtain ⟨y, hy, -⟩ := (hm c).mp hc
        have hlt := (List.getElem?_eq_some_iff.mp hy).1
        rw [List.mem_singleton.mp hd]
        omega
      · rw [List.mem_append, hm, hlast, List.mem_singleton]
        simp [hs]
    · refine ⟨hn, fun c => ?_⟩
      rw [hm, hlast]
      simp [hs]

theorem build_objects {plan : List AtomicComputation} (hc : c < plan.length) : (build plan).objects c = plan[c] :=
  (added_build plan).objects c _ (List.getElem?_eq_getElem hc)

theorem map_objects_append {plan : List AtomicComputation} {x : AtomicComputation} {cs : List ℕ}
    (hcs : ∀ c ∈ cs, c < plan.length) : cs.map (build (plan ++ [x])).objects = cs.map (build plan).objects := by
  apply List.map_congr_left
  intro c hc
  have hlt := hcs c hc
  rw [build_objects hlt, build_objects (by rw [List.length_append]; omega), List.getElem_append_left hlt]

theorem objects_append (plan : List AtomicComputation) (x : AtomicComputation) :
    (build (plan ++ [x])).objects plan.length = x := by
  rw [build_objects (by simp)]
  simp

theorem build_consumers (plan : List AtomicComputation) (t : Text) :
    ((build plan).consumers t).map (build plan).objects = getConsumingAtomicComputations plan t := by
  induction plan using List.reverseRecOn with
  | nil => rfl
  | append_singleton plan x ih =>
    have hold : ∀ c ∈ (build plan).consumers t, c < plan.length := by
      intro c hc
      have hpos := List.count_pos_iff.mpr hc
      rw [(added_build plan).count] at hpos
      by_contra hge
      rw [List.getElem?_eq_none (by omega)] at hpos
      simp at hpos
    have hnew : (build (plan ++ [x])).consumers t =
        (build plan).consumers t ++ List.replicate (x.inputNames.count t) plan.length := by
      have hobj : ((build plan).allocate x).objects (build plan).allocated = x := Function.update_self _ _ _
      rw [build_append, ← (added_build plan).allocated]
      unfold addAtomicComputation enter
      rw [foldl_pushConsumer, hobj]
      rfl
    rw [hnew, List.map_append, map_objects_append hold, ih, List.map_replicate, objects_append]
    simp only [getConsumingAtomicComputations, List.flatMap_append, List.flatMap_singleton, List.map_const',
      List.count_eq_countP, List.countP_eq_length_filter, beq_eq_decide]

theorem build_getAllScanSets (plan : List AtomicComputation) : (build plan).getAllScanSets = getAllScanSets plan := by
  unfold AtomicComputationList.getAllScanSets
  induction plan using List.reverseRecOn with
  | nil => rfl
  | append_singleton plan x ih =>
    have hold : ∀ c ∈ (build plan).scans, c < plan.length := by
      intro c hc
      obtain ⟨y, hy, -⟩ := ((scans_build plan).2 c).mp hc
      exact (List.getElem?_eq_some_iff.mp hy).1
    have hscans := addAtomicComputation_scans (build plan) x
    rw [← build_append, (added_build plan).allocated] at hscans
    unfold getAllScanSets at ih ⊢
    rw [hscans, List.filter_append, ← ih, ← map_objects_append (x := x) hold]
    split_ifs with hx
    · rw [List.map_append, List.map_singleton, objects_append, List.filter_singleton, decide_eq_true hx]
      rfl
    · rw [List.filter_singleton, decide_eq_false hx, cond_false, List.append_nil]

theorem build_producers {plan : List AtomicComputation} (hn : (plan.map AtomicComputation.getOutputName).Nodup)
    (t : Text) :
    ((build plan).producers t).toList.map (build plan).objects = plan.filter (·.getOutputName = t) := by
  have ha := added_build plan
  symm
  cases hp : (build plan).producers t with
  | none =>
    apply List.filter_eq_nil_iff.mpr
    intro x hx ht
    obtain ⟨c, hc⟩ := ha.produced t (of_decide_eq_true ht ▸ List.mem_map_of_mem hx)
    cases hp.symm.trans hc
  | some c =>
    obtain ⟨x, hx, hxt⟩ := ha.producers t c hp
    rw [Option.toList_some, List.map_singleton, ha.objects c x hx]
    apply List.perm_singleton.mp
    apply (List.perm_ext_iff_of_nodup (hn.of_map.filter _) (List.nodup_singleton x)).mpr
    intro y
    rw [List.mem_filter, List.mem_singleton, decide_eq_true_iff]
    constructor
    · rintro ⟨hy, hyt⟩
      exact List.inj_on_of_nodup_map hn hy (List.mem_of_getElem? hx) (hyt.trans hxt.symm)
    · rintro rfl
      exact ⟨List.mem_of_getElem? hx, hxt⟩

theorem Addable.tables {plan : List AtomicComputation} (h : Addable plan) : Tables (build plan) := by
  have ha := added_build plan
  have hof : ∀ c, Produced (build plan) c → ∃ x, plan[c]? = some x ∧ (build plan).objects c = x := by
    rintro c ⟨t, ht⟩
    obtain ⟨x, hx, -⟩ := ha.producers t c ht
    exact ⟨x, hx, ha.objects c x hx⟩
  have hto : ∀ c x, plan[c]? = some x → (build plan).producers x.getOutputName = some c := by
    intro c x hx
    obtain ⟨c', hc'⟩ := ha.produced x.getOutputName (List.mem_map_of_mem (List.mem_of_getElem? hx))
    obtain ⟨y, hy, hyt⟩ := ha.producers _ _ hc'
    have hlt := (List.getElem?_eq_some_iff.mp hx).1
    have hcc : c = c' := by
      apply (List.getElem?_inj (by simpa using hlt) h.outputs).mp
      rw [List.getElem?_map, List.getElem?_map, hx, hy, Option.map_some, Option.map_some, hyt]
    rw [hcc]
    exact hc'
  have hcount : ∀ t c x, plan[c]? = some x → ((build plan).consumers t).count c = x.inputNames.count t := by
    intro t c x hx
    rw [ha.count, hx]
    rfl
  refine { output := ?_, listed := ?_, complete := ?_, inputs := ?_, allocated := ?_, reserved := ?_, scans := ?_ }
  · intro t c ht
    obtain ⟨x, hx, hxt⟩ := ha.producers t c ht
    rw [AtomicComputationList.outputName, ha.objects c x hx]
    exact hxt
  · intro t c _ hm
    have hpos := List.count_pos_iff.mpr hm
    cases hx : plan[c]? with
    | none =>
      rw [ha.count, hx] at hpos
      simp at hpos
    | some x =>
      exact ⟨⟨_, hto c x hx⟩, by rw [names, ha.objects c x hx, hcount t c x hx]⟩
  · intro t c hc hm _
    obtain ⟨x, hx, hobj⟩ := hof c hc
    rw [names, hobj] at hm
    apply List.count_pos_iff.mp
    rw [hcount t c x hx]
    exact List.count_pos_iff.mpr hm
  · intro t c hc hm hne
    obtain ⟨x, hx, hobj⟩ := hof c hc
    rw [names, hobj] at hm
    exact ha.produced t (h.inputs x (List.mem_of_getElem? hx) t hm hne)
  · intro c hc
    obtain ⟨x, hx, -⟩ := hof c hc
    rw [ha.allocated]
    exact (List.getElem?_eq_some_iff.mp hx).1
  · cases hr : (build plan).producers noInput with
    | none => rfl
    | some c =>
      obtain ⟨x, hx, hxt⟩ := ha.producers _ c hr
      exact absurd (hxt ▸ List.mem_map_of_mem (List.mem_of_getElem? hx)) h.reserved
  · intro c hc hs
    obtain ⟨x, hx, hobj⟩ := hof c hc
    rw [hobj] at hs
    rw [names, hobj, inputNames_of_role (by rw [hs]; decide) (by rw [hs]; decide),
      h.scans x (List.mem_of_getElem? hx) hs]

end Building

section JoinKey

inductive Behind (l : AtomicComputationList) (joinComp : ℕ) : ℕ → Prop
  | first {c : ℕ} : l.consumers (l.outputName joinComp) = [c] → Behind l joinComp c
  | next {c d : ℕ} : Behind l joinComp c → l.consumers (l.outputName c) = [d] →
      (l.objects d).computationName = (l.objects joinComp).computationName → Behind l joinComp d

def joined (c : AtomicComputation) : List Text :=
  c.projection.atts ++ (c.getRightProjection.map TupleSpec.atts).getD []

theorem sideOf_eq_ok {input projection : TupleSpec} {key att : Text} (h : sideOf l input projection = .ok (key, att)) :
    projection.atts = [att] := by
  unfold sideOf at h
  split at h
  · cases h
  · split at h
    · next hatts =>
      cases h
      exact hatts
    · cases h

theorem keysOf_eq_ok {x : AtomicComputation} {keys : Keys} (h : keysOf l x = .ok keys) :
    joined x = [keys.leftAtt, keys.rightAtt] := by
  unfold keysOf at h
  split at h
  · next r p hk =>
    obtain ⟨⟨leftKey, leftAtt⟩, hleft, h⟩ := bind_eq_ok.mp h
    obtain ⟨⟨rightKey, rightAtt⟩, hright, h⟩ := bind_eq_ok.mp h
    cases h
    simp [joined, AtomicComputation.getRightProjection, hk, sideOf_eq_ok hleft, sideOf_eq_ok hright]
  · cases h

theorem inputNames_joinOnKeys (keys : Keys) (x : AtomicComputation) : (joinOnKeys keys x).inputNames = x.inputNames := by
  obtain ⟨i, o, p, cn, kv, kind⟩ := x
  cases kind <;> rfl

theorem role_joinOnKeys (keys : Keys) (x : AtomicComputation) : (joinOnKeys keys x).role = x.role := by
  obtain ⟨i, o, p, cn, kv, kind⟩ := x
  cases kind <;> rfl

structure SameInputs (l l' : AtomicComputationList) : Prop extends SameTables l l' where
  input : ∀ c, (l'.objects c).input = (l.objects c).input
  computationName : ∀ c, (l'.objects c).computationName = (l.objects c).computationName

theorem SameInputs.trans {l'' : AtomicComputationList} (h : SameInputs l l') (h' : SameInputs l' l'') :
    SameInputs l l'' where
  toSameTables := h.toSameTables.trans h'.toSameTables
  input c := (h'.input c).trans (h.input c)
  computationName c := (h'.computationName c).trans (h.computationName c)

theorem sameInputs_modify {f : AtomicComputation → AtomicComputation} (l : AtomicComputationList) (c : ℕ)
    (ho : ∀ x, (f x).getOutputName = x.getOutputName) (hn : ∀ x, (f x).inputNames = x.inputNames)
    (hr : ∀ x, (f x).role = x.role) (hi : ∀ x, (f x).input = x.input)
    (hc : ∀ x, (f x).computationName = x.computationName) : SameInputs l (l.modify c f) := by
  refine { toSameTables := sameTables_modify l c ho hn hr, input := fun d => ?_, computationName := fun d => ?_ }
  all_goals
    by_cases hd : d = c
    · subst hd
      simp [AtomicComputationList.modify, hi, hc]
    · simp [AtomicComputationList.modify, hd]

theorem insertMissing_setName (att : Text) (t : TupleSpec) : (insertMissing att t).setName = t.setName := by
  unfold insertMissing
  split_ifs <;> rfl

theorem replaceAliases_setName (keyAliases : List (Text × Text)) (t : TupleSpec) :
    (replaceAliases keyAliases t).setName = t.setName := by
  unfold replaceAliases
  induction keyAliases generalizing t with
  | nil => rfl
  | cons q keyAliases ih => exact ih _

theorem keepKeys_setName (keys : Keys) (keyAliases : List (Text × Text)) (t : TupleSpec) :
    (keepKeys keys keyAliases t).setName = t.setName := by
  rw [keepKeys, insertMissing_setName, insertMissing_setName, replaceAliases_setName]
  rfl

theorem sameInputs_useKeys (keys : Keys) (l : AtomicComputationList) (c : ℕ) :
    SameInputs l (l.modify c (useKeys keys [])) := by
  apply sameInputs_modify
  · intro x
    exact keepKeys_setName keys [] x.output
  · intro x
    rfl
  · intro x
    rfl
  · intro x
    rfl
  · intro x
    rfl

theorem joinKeyLoop_same {keys : Keys} {fuel joinComp cur : ℕ} {w w' : JoinKeyWalk} {l₀ : AtomicComputationList}
    (hfree : ∀ c, Behind l₀ joinComp c → ∀ att ∈ (l₀.objects c).input.atts, att ∉ [keys.leftAtt, keys.rightAtt])
    (hcur : Behind l₀ joinComp cur) (hs : SameInputs l₀ l)
    (hw : w.removeWhenApplied = [keys.leftAtt, keys.rightAtt]) (ha : w.keyAliases = [])
    (he : joinKeyLoop keys (l₀.objects joinComp).computationName fuel cur w l = .ok (w', l')) : SameInputs l₀ l' := by
  induction fuel generalizing cur w l with
  | zero => cases he
  | succ fuel ih =>
    rw [joinKeyLoop, bind_eq_ok] at he
    obtain ⟨⟨w₁, l₁⟩, hvisit, he⟩ := he
    have hno : isDependentOnInput w (l.objects cur) = false := by
      unfold isDependentOnInput
      rw [hw, hs.input, List.any_eq_false]
      intro att hatt
      simpa using hfree cur hcur att hatt
    unfold joinKeyVisit at hvisit
    dsimp only at hvisit
    rw [hno, ha] at hvisit
    simp only [Bool.false_eq_true, if_false, Except.ok.injEq, Prod.mk.injEq] at hvisit
    obtain ⟨rfl, rfl⟩ := hvisit
    have hs₁ := hs.trans (sameInputs_useKeys keys l cur)
    dsimp only at he
    split at he
    · next next hcons =>
      split at he
      · next hcomp =>
        have hnext : Behind l₀ joinComp next := by
          rw [hs₁.output, hs₁.consumers] at hcons
          rw [hs₁.computationName] at hcomp
          exact hcur.next hcons hcomp
        refine ih hnext hs₁ ?_ ?_ he
        · exact hw
        · rfl
      · cases he
        exact hs₁
    · cases he

theorem Tables.joinKey {fuel : ℕ} (h : Tables l)
    (hfree : ∀ j, l.producers t = some j → ∀ c, Behind l j c → ∀ att ∈ (l.objects c).input.atts,
      att ∉ joined (l.objects j))
    (he : joinKey fuel t l = .ok l') : Tables l' := by
  unfold PlanTransformer.joinKey at he
  split at he
  · cases he
  · next j hj =>
    dsimp only at he
    obtain ⟨keys, hkeys, he⟩ := bind_eq_ok.mp he
    have hs : SameInputs l (l.modify j (joinOnKeys keys)) := by
      apply sameInputs_modify
      · intro x
        rfl
      · exact inputNames_joinOnKeys keys
      · exact role_joinOnKeys keys
      · intro x
        rfl
      · intro x
        rfl
    split at he
    · next cur hcons =>
      obtain ⟨⟨w, l₁⟩, hloop, he⟩ := bind_eq_ok.mp he
      rw [hs.output, hs.consumers] at hcons
      rw [hs.computationName] at hloop
      have hs₁ : SameInputs l l₁ := by
        have hkept : ∀ c, Behind l j c → ∀ att ∈ (l.objects c).input.atts, att ∉ [keys.leftAtt, keys.rightAtt] := by
          intro c hc att hatt
          rw [← keysOf_eq_ok hkeys]
          exact hfree j hj c hc att hatt
        exact joinKeyLoop_same hkept (.first hcons) hs rfl rfl hloop
      apply h.congr
      dsimp only at he
      split at he
      · cases he
        exact hs₁.toSameTables
      · cases he
        apply hs₁.toSameTables.trans
        exact sameTables_modify l₁ _ (fun _ => rfl) (fun _ => rfl) (fun _ => rfl)
    · cases he

end JoinKey

section Runs

def Clean : Transformation × ℕ → AtomicComputationList → Prop
  -- no scan set of the plan is needed for the tuple set alone
  | (.insertKeyScanSets t, _), l => ∀ c, l.producers t = some c → ∀ d, OnlyFor l c d → d ∉ l.consumers noInput
  | (.joinKeySide _, _), _ => True
  -- no computation behind the join reads what the join keeps
  | (.joinKey t, _), l => ∀ j, l.producers t = some j → ∀ c, Behind l j c → ∀ att ∈ (l.objects c).input.atts,
      att ∉ joined (l.objects j)
  | (.aggKey _, _), _ => False
  -- whatever lists a dependent of the tuple set is the output of a dependent
  | (.dropDependents t, _), l => ∀ c, l.producers t = some c → ∀ d, Dependent l c d → ∀ t', d ∈ l.consumers t' →
      ∃ e, Dependent l c e ∧ l.outputName e = t'

theorem Tables.step {i : Transformation × ℕ} (h : Tables l) (hc : Clean i l) (he : step i l = .ok l') :
    Tables l' := by
  obtain ⟨i, fuel⟩ := i
  unfold PlanTransformer.step at he
  obtain ⟨b, hcan, he⟩ := bind_eq_ok.mp he
  cases b with
  | false => cases he
  | true =>
    rw [if_pos rfl] at he
    cases i with
    | insertKeyScanSets t => exact h.insertKeyScanSets hc he
    | joinKeySide t => exact h.joinKeySide (fun _ _ _ => trivial) hcan he
    | joinKey t => exact h.joinKey hc he
    | aggKey t => exact hc.elim
    | dropDependents t =>
      have hcan' : (l.producers t).isSome = true := by simpa [canApply, canDropDependents] using hcan
      obtain ⟨start, hs⟩ := Option.isSome_iff_exists.mp hcan'
      exact h.dropDependents hc hs he

theorem consistent_of_reachable (plan : List AtomicComputation) (hp : Addable plan) {l : AtomicComputationList}
    (h : Reachable step Clean (fun l => l = build plan) l) : Consistent l := by
  have hinv : Tables l := by
    apply h.invariant
    · rintro l rfl
      exact hp.tables
    · intro i l l' hinv hc he
      exact hinv.step hc he
  exact hinv.consistent

section Examples

def spec (setName : String) (atts : List String) : TupleSpec := ⟨setName.toList, atts.map String.toList⟩

def computation (input output projection : TupleSpec) (name : String) (kind : Kind) : AtomicComputation :=
  ⟨input, output, projection, name.toList, .empty, kind⟩

def scanOf (output : TupleSpec) (name : String) : AtomicComputation :=
  computation .empty output .empty name (.scanSet ([], []) (0, []))

def keyOf (input output : TupleSpec) (name : String) : AtomicComputation :=
  { computation input output input name (.applyLambda "key".toList) with
    keyValuePairs := KeyValueList.empty.appendkeyValuePair "lambdaType".toList "key".toList }

def keyedPlan : List AtomicComputation :=
  [scanOf (spec "A" ["a"]) "Scan_0",
    keyOf (spec "A" ["a"]) (spec "AK" ["a", "ka"]) "Join_2",
    computation (spec "AK" ["ka"]) (spec "AH" ["a", "ha"]) (spec "AK" ["a"]) "Join_2" (.hashLeft []),
    scanOf (spec "B" ["b"]) "Scan_1",
    computation (spec "B" ["b"]) (spec "OutB" []) (spec "B" ["b"]) "Write_3" (.writeSet [] []),
    computation (spec "B" ["b"]) (spec "C" ["c"]) (spec "B" []) "Select_4" (.applyLambda []),
    keyOf (spec "C" ["c"]) (spec "CK" ["c", "kc"]) "Join_2",
    computation (spec "CK" ["kc"]) (spec "CH" ["c", "hc"]) (spec "CK" ["c"]) "Join_2" (.hashRight []),
    computation (spec "AH" ["ha"]) (spec "J" ["a", "c"]) (spec "AH" ["a"]) "Join_2"
      (.applyJoin (spec "CH" ["hc"]) (spec "CH" ["c"])),
    computation (spec "J" ["a"]) (spec "OutJ" []) (spec "J" ["a"]) "Write_5" (.writeSet [] [])]

theorem addable_keyedPlan : Addable keyedPlan := ⟨by decide, by decide, by decide, by decide⟩

end Examples

theorem exists_of_test {x : Except Stop AtomicComputationList} {test : AtomicComputationList → Bool}
    (h : x.toOption.any test = true) : ∃ l, x = .ok l ∧ test l = true := by
  cases x with
  | error e => cases h
  | ok l => exact ⟨l, rfl, h⟩

theorem exists_of_runAll {check : Transformation × ℕ → AtomicComputationList → Bool}
    {test : AtomicComputationList → Bool} {is : List (Transformation × ℕ)} {start : AtomicComputationList → Prop}
    {guard : Transformation × ℕ → AtomicComputationList → Prop} (hcheck : ∀ i l, check i l = true → guard i l)
    (hl : Reachable step guard start l) (h : (runAll step check is l).any test = true) :
    ∃ l', Reachable step guard start l' ∧ test l' = true := by
  cases hl' : runAll step check is l with
  | none =>
    rw [hl'] at h
    cases h
  | some l' =>
    rw [hl'] at h
    exact ⟨l', hl.of_runAll hcheck hl', h⟩

def isKeySide (i : Transformation × ℕ) (_ : AtomicComputationList) : Bool :=
  match i.1 with
  | .joinKeySide _ => true
  | _ => false

theorem clean_of_isKeySide (i : Transformation × ℕ) (l : AtomicComputationList) (h : isKeySide i l = true) :
    Clean i l := by
  obtain ⟨i, fuel⟩ := i
  cases i with
  | joinKeySide t => trivial
  | insertKeyScanSets t => cases h
  | joinKey t => cases h
  | aggKey t => cases h
  | dropDependents t => cases h

theorem not_onlyFor_of_sink (hd : l.consumers (l.outputName d) = []) (hne : d ≠ c) : ¬ OnlyFor l c d := by
  intro h
  cases h with
  | self => exact hne rfl
  | input hcons _ => exact hcons hd

theorem not_onlyFor_of_consumer {e : ℕ} (he : e ∈ l.consumers (l.outputName d)) (hno : ¬ OnlyFor l c e)
    (hne : d ≠ c) : ¬ OnlyFor l c d := by
  intro h
  cases h with
  | self => exact hne rfl
  | input _ hall => exact hno (hall e he)

theorem clean_keyedPlan : Clean (.insertKeyScanSets "C".toList, 3) (build keyedPlan) := by
  intro c hc d hd hm
  have hc' : (build keyedPlan).producers "C".toList = some 5 := by decide +kernel
  cases hc'.symm.trans hc
  have hscans : (build keyedPlan).consumers noInput = [0, 3] := by decide +kernel
  rw [hscans] at hm
  have h9 : ¬ OnlyFor (build keyedPlan) 5 9 := not_onlyFor_of_sink (by decide +kernel) (by decide)
  have h8 : ¬ OnlyFor (build keyedPlan) 5 8 := not_onlyFor_of_consumer (by decide +kernel) h9 (by decide)
  have h2 : ¬ OnlyFor (build keyedPlan) 5 2 := not_onlyFor_of_consumer (by decide +kernel) h8 (by decide)
  have h1 : ¬ OnlyFor (build keyedPlan) 5 1 := not_onlyFor_of_consumer (by decide +kernel) h2 (by decide)
  have h0 : ¬ OnlyFor (build keyedPlan) 5 0 := not_onlyFor_of_consumer (by decide +kernel) h1 (by decide)
  have h4 : ¬ OnlyFor (build keyedPlan) 5 4 := not_onlyFor_of_sink (by decide +kernel) (by decide)
  have h3 : ¬ OnlyFor (build keyedPlan) 5 3 := not_onlyFor_of_consumer (by decide +kernel) h4 (by decide)
  obtain rfl | hm := List.mem_cons.mp hm
  · exact h0 hd
  · rw [List.mem_singleton] at hm
    exact h3 (hm ▸ hd)

theorem consistent_keyedPlan : ∃ l, Reachable step Clean (fun l => l = build keyedPlan) l ∧
    l.producers "CK".toList = none ∧ Consistent l := by
  have hrun : (step (.insertKeyScanSets "C".toList, 3) (build keyedPlan)).toOption.any (fun l₁ =>
      (runAll step isKeySide [(.joinKeySide "A".toList, 3), (.joinKeySide "C".toList, 3)] l₁).any
        fun l => l.producers "CK".toList = none) = true := by decide +kernel
  obtain ⟨l₁, he, hrun⟩ := exists_of_test hrun
  have h₁ : Reachable step Clean (fun l => l = build keyedPlan) l₁ := .step (.start rfl) clean_keyedPlan he
  obtain ⟨l, hl, ht⟩ := exists_of_runAll clean_of_isKeySide h₁ hrun
  exact ⟨l, hl, by simpa using ht, consistent_of_reachable keyedPlan addable_keyedPlan hl⟩

theorem not_consistent_dropDependents :
    ¬ ∀ plan, Addable plan → ∀ l, Reachable step (fun _ _ => True) (fun l => l = build plan) l → Consistent l := by
  intro h
  let plan := [scanOf (spec "A" ["a"]) "Scan_0",
    computation (spec "A" ["a"]) (spec "Out" []) (spec "A" ["a"]) "Write_1" (.writeSet [] [])]
  have hp : Addable plan := ⟨by decide, by decide, by decide, by decide⟩
  have hrun : (step (.dropDependents "Out".toList, 1) (build plan)).toOption.any
      (fun l => 1 ∈ l.consumers "A".toList ∧ l.producers (l.outputName 1) ≠ some 1) = true := by decide +kernel
  obtain ⟨l, he, ht⟩ := exists_of_test hrun
  obtain ⟨hlisted, hgone⟩ := of_decide_eq_true ht
  have hc := h plan hp l (.step (.start rfl) trivial he)
  obtain ⟨t, ht⟩ := (hc.listed _ _ hlisted).1
  exact hgone (hc.output t 1 ht ▸ ht)

end Runs

end PlinyCompute.PlanTransformer
