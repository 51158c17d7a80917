import Mathlib
import PlinyCompute.ScanList

namespace PlinyCompute.PlanTransformer

open LogicalPlan Transition ComputationTables

variable {l l' : AtomicComputationList} {t : Text} {c d start : ℕ} {rank : Text → ℕ}

section Paths

structure Dag (plan : List AtomicComputation) : Prop extends Addable plan where
  right : ∀ c ∈ plan, ∀ r, c.getRightInput = some r → r.setName ≠ noInput
  acyclic : ∃ rank : Text → ℕ, ∀ c ∈ plan, ∀ t ∈ c.inputNames, t ≠ noInput → rank t < rank c.getOutputName

structure Ranked (rank : Text → ℕ) (l : AtomicComputationList) : Prop where
  tables : Tables l
  right : ∀ c, Produced l c → ∀ r, (l.objects c).getRightInput = some r → r.setName ≠ noInput
  acyclic : ∀ c, Produced l c → ∀ t ∈ names l c, t ≠ noInput → rank t < rank (l.outputName c)

theorem Dag.ranked {plan : List AtomicComputation} (h : Dag plan) : ∃ rank, Ranked rank (build plan) := by
  obtain ⟨rank, hrank⟩ := h.acyclic
  have ha := added_build plan
  have hof : ∀ c, Produced (build plan) c → ∃ x ∈ plan, (build plan).objects c = x := by
    rintro c ⟨t, ht⟩
    obtain ⟨x, hx, -⟩ := ha.producers t c ht
    exact ⟨x, List.mem_of_getElem? hx, ha.objects c x hx⟩
  refine ⟨rank, h.tables, ?_, ?_⟩
  · intro c hc r hr
    obtain ⟨x, hx, hobj⟩ := hof c hc
    exact h.right x hx r (hobj ▸ hr)
  · intro c hc t ht hne
    obtain ⟨x, hx, hobj⟩ := hof c hc
    rw [names, hobj] at ht
    rw [AtomicComputationList.outputName, hobj]
    exact hrank x hx t ht hne

theorem Ranked.rank_lt (h : Ranked rank l) (hc : Produced l c) (hd : d ∈ l.consumers (l.outputName c)) :
    Produced l d ∧ rank (l.outputName c) < rank (l.outputName d) := by
  obtain ⟨hp, hcount⟩ := h.tables.listed _ d trivial hd
  refine ⟨hp, h.acyclic d hp _ ?_ (h.tables.ne_noInput (h.tables.produced hc))⟩
  apply List.count_pos_iff.mp
  rw [← hcount]
  exact List.count_pos_iff.mpr hd

theorem Ranked.induction (h : Ranked rank l) {P : ℕ → Prop}
    (hP : ∀ c, Produced l c → (∀ d ∈ l.consumers (l.outputName c), P d) → P c) (hc : Produced l c) : P c := by
  let bound := (Finset.range l.allocated).sup fun c => rank (l.outputName c)
  have hbound : ∀ c, Produced l c → rank (l.outputName c) ≤ bound := fun c hc =>
    Finset.le_sup (f := fun c => rank (l.outputName c)) (Finset.mem_range.mpr (h.tables.allocated c hc))
  have hall : ∀ n c, Produced l c → bound < rank (l.outputName c) + n → P c := by
    intro n
    induction n with
    | zero =>
      intro c hc hlt
      have := hbound c hc
      omega
    | succ n ih =>
      intro c hc hlt
      apply hP c hc
      intro d hd
      obtain ⟨hp, hr⟩ := h.rank_lt hc hd
      exact ih d hp (by omega)
  exact hall (bound + 1) c hc (by omega)

inductive Path (l : AtomicComputationList) : ℕ → List ℕ → Prop
  | sink {c : ℕ} : l.consumers (l.outputName c) = [] → Path l c [c]
  | step {c d : ℕ} {p : List ℕ} : d ∈ l.consumers (l.outputName c) → Path l d p → Path l c (c :: p)

theorem Path.start_mem_of_onlyFor {p : List ℕ} (hp : Path l c p) (h : OnlyFor l start c) : start ∈ p := by
  induction hp with
  | sink hnil =>
    cases h with
    | self => exact List.mem_singleton_self _
    | input hne _ => exact absurd hnil hne
  | step hd _ ih =>
    cases h with
    | self => exact List.mem_cons_self
    | input _ hall => exact List.mem_cons_of_mem _ (ih (hall _ hd))

theorem Ranked.onlyFor_iff (h : Ranked rank l) (hc : Produced l c) :
    OnlyFor l start c ↔ ∀ p, Path l c p → start ∈ p := by
  constructor
  · intro ho p hp
    exact hp.start_mem_of_onlyFor ho
  · apply h.induction (P := fun c => (∀ p, Path l c p → start ∈ p) → OnlyFor l start c) _ hc
    intro c hc ih hpaths
    by_cases hcs : c = start
    · exact hcs ▸ .self
    · apply OnlyFor.input
      · intro hnil
        exact hcs (List.mem_singleton.mp (hpaths [c] (.sink hnil))).symm
      · intro d hd
        apply ih d hd
        intro p hp
        have hm := hpaths (c :: p) (.step hd hp)
        exact (List.mem_cons.mp hm).resolve_left (Ne.symm hcs)

end Paths

section DropDependencies

structure DependenciesDropped (l l' : AtomicComputationList) (start : ℕ) : Prop where
  -- what goes are the computations from which every path to a sink goes through `start`
  producers : ∀ t c, l'.producers t = some c ↔ l.producers t = some c ∧ (c = start ∨ ∃ p, Path l c p ∧ start ∉ p)
  objects : l'.objects = l.objects
  links : ∀ c, Produced l' c → c ≠ start → ∀ t, (l'.consumers t).count c = (l.consumers t).count c
  cut : ∀ c, c = start ∨ Produced l c ∧ ¬ Produced l' c → ∀ d, Produced l d → c ∉ l'.consumers (l.outputName d)

variable {cur : ℕ} {w w' : Dropping}

structure Emptied (rank : Text → ℕ) (l : AtomicComputationList) (start : ℕ) (w : Dropping) : Prop where
  emptied : ∀ d, Produced l d → w.computations.consumers (l.outputName d) = [] →
    l.consumers (l.outputName d) = [] ∨ d ∈ w.toRemove
  below : ∀ d ∈ w.toRemove, rank (l.outputName d) < rank (l.outputName start)

theorem Emptied.rank_le (h : Emptied rank l start w) (hc : Gone start w c) :
    rank (l.outputName c) ≤ rank (l.outputName start) := by
  obtain rfl | hc := hc
  · exact le_rfl
  · exact (h.below c hc).le

theorem Emptied.dropInput {input : ℕ} (hl : Ranked rank l) (h : Emptied rank l start w)
    (hobj : w.computations.objects = l.objects) (hp : l.producers t = some input)
    (hlt : rank t < rank (l.outputName start)) (he : dropInput cur w (some input) = .ok w') :
    Emptied rank l start w' := by
  have hin : l.outputName input = t := hl.tables.output t input hp
  have hname : w.computations.outputName input = t := by
    rw [AtomicComputationList.outputName, hobj]
    exact hin
  unfold PlanTransformer.dropInput at he
  dsimp only at he
  rw [hname] at he
  have hothers : ∀ d, Produced l d → d ≠ input →
      (w.computations.removeConsumer t cur).consumers (l.outputName d) = [] →
      l.consumers (l.outputName d) = [] ∨ d ∈ w.toRemove := by
    intro d hd hne hnil
    rw [removeConsumer_consumers, if_neg] at hnil
    · exact h.emptied d hd hnil
    · intro hdt
      exact hne (hl.tables.eq_of_outputName hd ⟨t, hp⟩ (hdt.trans hin.symm))
  split at he
  · next hhas =>
    cases he
    refine ⟨fun d hd hnil => ?_, h.below⟩
    by_cases hdi : d = input
    · subst hdi
      rw [hin] at hnil
      exact absurd hnil (of_decide_eq_true hhas)
    · exact hothers d hd hdi hnil
  · cases he
    refine ⟨fun d hd hnil => ?_, fun d hd => ?_⟩
    · by_cases hdi : d = input
      · exact .inr (by simp [hdi])
      · exact (hothers d hd hdi hnil).imp_right fun hm => List.mem_append_left _ hm
    · obtain hd | hd := List.mem_append.mp hd
      · exact h.below d hd
      · rw [List.mem_singleton.mp hd, hin]
        exact hlt

theorem Emptied.dropInputs {inputs : List (Option ℕ)} (hl : Ranked rank l) (h : Emptied rank l start w)
    (hobj : w.computations.objects = l.objects)
    (hinputs : ∀ i ∈ inputs, ∃ t, i = l.producers t ∧ (∀ input, i = some input → rank t < rank (l.outputName start)))
    (he : inputs.foldlM (PlanTransformer.dropInput cur) w = .ok w') : Emptied rank l start w' := by
  induction inputs generalizing w with
  | nil =>
    cases he
    exact h
  | cons i inputs ih =>
    obtain ⟨t, hit, hlt⟩ := hinputs i (by simp)
    rw [List.foldlM_cons] at he
    cases i with
    | none => cases he
    | some input =>
      obtain ⟨mid, hmid, hrest⟩ := bind_eq_ok.mp he
      have hobj' := (dropInput_sameHeap hmid).objects.trans hobj
      have h' := h.dropInput hl hobj hit.symm (hlt input rfl) hmid
      exact ih h' hobj' (fun i hi => hinputs i (by simp [hi])) hrest

theorem Emptied.round {name : Text} {rest : List Text} (hl : Ranked rank l) (hinv : DropInv l start none w)
    (h : Emptied rank l start w) (hvisit : w.tupleSetsToVisit = name :: rest) (hp : l.producers name = some cur)
    (he : (inputsOf w.computations cur).foldlM (PlanTransformer.dropInput cur) { w with tupleSetsToVisit := rest } =
      .ok w') : Emptied rank l start w' := by
  obtain ⟨cur', hcur, hp'⟩ := hinv.visit name (by simp [hvisit])
  cases hp.symm.trans hp'
  rw [inputsOf_congr hinv.objects hinv.producers] at he
  have h' : Emptied rank l start { w with tupleSetsToVisit := rest } := ⟨h.emptied, h.below⟩
  apply h'.dropInputs hl hinv.objects _ he
  intro i hi
  obtain ⟨t, ht, rfl⟩ := mem_inputsOf hi
  refine ⟨t, rfl, fun input hin => ?_⟩
  have hne := hl.tables.ne_noInput hin
  exact lt_of_lt_of_le (hl.acyclic cur ⟨name, hp⟩ t ht hne) (h.rank_le hcur)

def rounds (rank : Text → ℕ) (tupleSetsToVisit : List Text) : ℕ := (tupleSetsToVisit.map fun t => 3 ^ rank t).sum

theorem dropInput_some (rank : Text → ℕ) (w : Dropping) (cur input : ℕ) : ∃ w', dropInput cur w (some input) = .ok w' ∧
    rounds rank w'.tupleSetsToVisit ≤
      rounds rank w.tupleSetsToVisit + 3 ^ rank (w.computations.outputName input) := by
  unfold PlanTransformer.dropInput
  dsimp only
  split
  · exact ⟨_, rfl, Nat.le_add_right _ _⟩
  · refine ⟨_, rfl, ?_⟩
    unfold rounds
    rw [List.map_cons, List.sum_cons, Nat.add_comm]

theorem dropInputs_some {inputs : List (Option ℕ)} {r : ℕ} (cur : ℕ) (w : Dropping)
    (hobj : w.computations.objects = l.objects)
    (hinputs : ∀ i ∈ inputs, ∃ input, i = some input ∧ rank (l.outputName input) < r) :
    ∃ w', inputs.foldlM (dropInput cur) w = .ok w' ∧
      rounds rank w'.tupleSetsToVisit ≤ rounds rank w.tupleSetsToVisit + inputs.length * 3 ^ (r - 1) := by
  induction inputs generalizing w with
  | nil => exact ⟨w, rfl, by simp⟩
  | cons i inputs ih =>
    obtain ⟨input, rfl, hlt⟩ := hinputs i (by simp)
    obtain ⟨w₁, hw₁, hle₁⟩ := dropInput_some rank w cur input
    have hobj₁ := (dropInput_sameHeap hw₁).objects.trans hobj
    obtain ⟨w', hw', hle⟩ := ih w₁ hobj₁ fun i hi => hinputs i (by simp [hi])
    refine ⟨w', ?_, ?_⟩
    · rw [List.foldlM_cons, hw₁]
      exact hw'
    · have hname : w.computations.outputName input = l.outputName input := by
        rw [AtomicComputationList.outputName, hobj]
        rfl
      have hpow : 3 ^ rank (l.outputName input) ≤ 3 ^ (r - 1) := Nat.pow_le_pow_right (by omega) (by omega)
      rw [hname] at hle₁
      rw [List.length_cons, Nat.succ_mul]
      omega

theorem inputsOf_length (l : AtomicComputationList) (c : ℕ) : (inputsOf l c).length ≤ 2 := by
  unfold inputsOf
  dsimp only
  split <;> split <;> simp

theorem Ranked.input_produced (h : Ranked rank l) (hc : Produced l c) {i : Option ℕ} (hi : i ∈ inputsOf l c) :
    ∃ input, i = some input ∧ rank (l.outputName input) < rank (l.outputName c) := by
  obtain ⟨t, ht, hne, rfl⟩ : ∃ t ∈ names l c, t ≠ noInput ∧ i = l.producers t := by
    unfold inputsOf at hi
    dsimp only at hi
    rw [names, inputNames_eq]
    obtain hi | hi := List.mem_append.mp hi
    · split_ifs at hi with he
      · cases hi
      · exact ⟨(l.objects c).input.setName, by simp, by simpa [TupleSpec.isEmpty] using he, by simpa using hi⟩
    · split at hi
      · cases hi
      · next r hr =>
        rw [hr]
        exact ⟨r.setName, by simp, h.right c hc r hr, by simpa using hi⟩
  obtain ⟨input, hp⟩ := h.tables.inputs t c hc ht hne
  refine ⟨input, hp, ?_⟩
  rw [h.tables.output t input hp]
  exact h.acyclic c hc t ht hne

theorem Ranked.dropLoop {fuel : ℕ} (hl : Ranked rank l) (hinv : DropInv l start none w)
    (h : Emptied rank l start w) (hf : rounds rank w.tupleSetsToVisit ≤ fuel) :
    ∃ w', dropLoop fuel w = .ok w' ∧ Emptied rank l start w' := by
  induction fuel generalizing w with
  | zero =>
    cases hv : w.tupleSetsToVisit with
    | nil =>
      refine ⟨w, ?_, h⟩
      unfold PlanTransformer.dropLoop
      rw [hv]
    | cons name rest =>
      rw [hv, rounds, List.map_cons, List.sum_cons] at hf
      have : 0 < 3 ^ rank name := Nat.pow_pos (by omega)
      omega
  | succ fuel ih =>
    cases hv : w.tupleSetsToVisit with
    | nil =>
      refine ⟨w, ?_, h⟩
      unfold PlanTransformer.dropLoop
      rw [hv]
    | cons name rest =>
      obtain ⟨cur, -, hp⟩ := hinv.visit name (by simp [hv])
      have hname : l.outputName cur = name := hl.tables.output name cur hp
      have hin := inputsOf_congr (c := cur) hinv.objects hinv.producers
      have hinputs : ∀ i ∈ inputsOf w.computations cur, ∃ input, i = some input ∧
          rank (l.outputName input) < rank name := by
        intro i hi
        rw [hin] at hi
        rw [← hname]
        exact hl.input_produced ⟨name, hp⟩ hi
      obtain ⟨mid, hmid, hle⟩ := dropInputs_some cur { w with tupleSetsToVisit := rest } hinv.objects hinputs
      have hfew : rounds rank mid.tupleSetsToVisit ≤ fuel := by
        have hlen := inputsOf_length w.computations cur
        rw [hv, rounds, List.map_cons, List.sum_cons] at hf
        change _ ≤ rounds rank rest + _ at hle
        change 3 ^ rank name + rounds rank rest ≤ fuel + 1 at hf
        cases hr : rank name with
        | zero =>
          have hnil : inputsOf w.computations cur = [] := by
            apply List.eq_nil_iff_forall_not_mem.mpr
            intro i hi
            obtain ⟨input, -, hlt⟩ := hinputs i hi
            omega
          rw [hnil] at hle
          rw [hr] at hf
          simp only [List.length_nil, Nat.zero_mul, Nat.pow_zero] at hle hf
          omega
        | succ r =>
          rw [hr] at hf hle
          have hpos : 0 < 3 ^ r := Nat.pow_pos (by omega)
          have htwo := Nat.mul_le_mul_right (3 ^ r) hlen
          rw [Nat.pow_succ] at hf
          simp only [Nat.add_sub_cancel] at hle
          omega
      obtain ⟨w', hw', h'⟩ := ih (hinv.round hl.tables hv hp hmid) (h.round hl hinv hv hp hmid) hfew
      refine ⟨w', ?_, h'⟩
      unfold PlanTransformer.dropLoop
      rw [hv]
      dsimp only
      rw [hinv.producers, hp]
      dsimp only
      rw [hmid]
      exact hw'

theorem Ranked.gone_of_onlyFor (hl : Ranked rank l) (hinv : DropInv l start none w) (h : Emptied rank l start w)
    (hnil : w.tupleSetsToVisit = []) (ho : OnlyFor l start c) (hc : Produced l c) : Gone start w c := by
  induction ho with
  | self => exact .inl rfl
  | @input d hne _ ih =>
    have hempty : w.computations.consumers (l.outputName d) = [] := by
      apply List.eq_nil_iff_forall_not_mem.mpr
      intro e he
      have hold : e ∈ l.consumers (l.outputName d) := by
        obtain hcount | ⟨hno, -⟩ := hinv.count (l.outputName d) e
        · exact List.count_pos_iff.mp (hcount ▸ List.count_pos_iff.mpr he)
        · exact absurd he hno
      have hg := ih e hold (hl.tables.listed _ e trivial hold).1
      exact hinv.off hl.tables hnil hg (hl.tables.ne_noInput (hl.tables.produced hc)) he
    exact .inr ((h.emptied d hc hempty).resolve_left hne)

theorem Ranked.dependenciesDropped (hl : Ranked rank l) (hinv : DropInv l start none w) (h : Emptied rank l start w)
    (hnil : w.tupleSetsToVisit = []) : DependenciesDropped l
      (w.toRemove.foldl (fun l comp => l.removeProducer (l.outputName comp)) w.computations) start := by
  have hout : w.computations.outputName = l.outputName := by
    funext c
    rw [AtomicComputationList.outputName, hinv.objects]
    rfl
  rw [foldl_removeProducer, hout]
  have hproducers : ∀ t c, (if t ∈ w.toRemove.map l.outputName then none else w.computations.producers t) = some c ↔
      l.producers t = some c ∧ c ∉ w.toRemove := by
    intro t c
    rw [hinv.producers]
    constructor
    · intro ht
      split_ifs at ht with hm
      exact ⟨ht, fun hc => hm (List.mem_map.mpr ⟨c, hc, hl.tables.output t c ht⟩)⟩
    · rintro ⟨ht, hc⟩
      rw [if_neg _, ht]
      intro hm
      obtain ⟨d, hd, hdt⟩ := List.mem_map.mp hm
      have hdc := hl.tables.eq_of_outputName (hinv.gone d (.inr hd)).1 ⟨t, ht⟩
        (hdt.trans (hl.tables.output t c ht).symm)
      exact hc (hdc ▸ hd)
  have hstart : start ∉ w.toRemove := fun hm => lt_irrefl _ (h.below start hm)
  refine ⟨fun t c => ?_, hinv.objects, ?_, ?_⟩
  · refine (hproducers t c).trans (and_congr_right fun ht => ?_)
    have hc : Produced l c := ⟨t, ht⟩
    have hiff : Gone start w c ↔ OnlyFor l start c :=
      ⟨fun hg => (hinv.gone c hg).2, fun ho => hl.gone_of_onlyFor hinv h hnil ho hc⟩
    rw [hl.onlyFor_iff hc] at hiff
    by_cases hcs : c = start
    · simp [hcs, hstart]
    · have hm : c ∈ w.toRemove ↔ Gone start w c := by simp [Gone, hcs]
      rw [hm, hiff]
      simp [hcs]
  · rintro c ⟨t, ht⟩ hcs t'
    have hno := ((hproducers t c).mp ht).2
    exact (hinv.count t' c).resolve_right fun hg => hg.2.elim hcs hno
  · rintro c hc d hd
    have hg : Gone start w c := by
      refine hc.imp_right ?_
      rintro ⟨⟨t, ht⟩, hno⟩
      by_contra hm
      exact hno ⟨t, (hproducers t c).mpr ⟨ht, hm⟩⟩
    exact hinv.off hl.tables hnil hg (hl.tables.ne_noInput (hl.tables.produced hd))

theorem Ranked.dropDependencies (hl : Ranked rank l) (hp : l.producers t = some start) :
    ∃ n, ∀ fuel, n ≤ fuel → ∃ l', dropDependencies fuel t l = .ok l' ∧ DependenciesDropped l l' start := by
  refine ⟨rounds rank [t], fun fuel hf => ?_⟩
  have hinv := dropInv_start hl.tables hp
  have hempty : Emptied rank l start ⟨l, [t], []⟩ := ⟨fun d _ hnil => .inl hnil, by simp⟩
  obtain ⟨w, hw, h⟩ := hl.dropLoop hinv hempty hf
  obtain ⟨hinv', hnil⟩ := hinv.dropLoop hl.tables hw
  refine ⟨_, ?_, hl.dependenciesDropped hinv' h hnil⟩
  unfold PlanTransformer.dropDependencies
  rw [hw]
  rfl

end DropDependencies

section DropDependents

structure DependentsDropped (l l' : AtomicComputationList) (start : ℕ) : Prop where
  producers : ∀ t c, l'.producers t = some c ↔ l.producers t = some c ∧ ¬ Dependent l start c
  objects : l'.objects = l.objects
  -- no computation that is left is listed with a consumer that is gone
  listed : ∀ c, Produced l' c → ∀ d, Dependent l start d → d ∉ l'.consumers (l'.outputName c)

def Sealed (l : AtomicComputationList) (start : ℕ) : Prop :=
  ∀ d, Dependent l start d → ∀ t ∈ names l d, t ≠ noInput → ∃ e, Dependent l start e ∧ l.outputName e = t

def Visits (l : AtomicComputationList) (cs : List ℕ) : Prop :=
  ∃ n found, ∀ fuel rest removed, dependents l (fuel + n) (cs.map l.outputName ++ rest) removed =
    dependents l fuel rest (removed ++ found)

theorem visits_of_forall {cs : List ℕ} (h : ∀ c ∈ cs, Visits l [c]) : Visits l cs := by
  induction cs with
  | nil => exact ⟨0, [], by simp⟩
  | cons c cs ih =>
    obtain ⟨n, found, hc⟩ := h c (by simp)
    obtain ⟨m, found', hcs⟩ := ih fun d hd => h d (List.mem_cons_of_mem _ hd)
    refine ⟨m + n, found ++ found', fun fuel rest removed => ?_⟩
    rw [List.map_cons, ← List.singleton_append, List.append_assoc, ← Nat.add_assoc]
    exact (hc _ _ _).trans ((hcs _ _ _).trans (by rw [List.append_assoc]))

theorem Ranked.visits (h : Ranked rank l) (hc : Produced l c) : Visits l [c] := by
  apply h.induction _ hc
  intro c hc ih
  have hall : ∀ d ∈ (l.consumers (l.outputName c)).reverse, Visits l [d] := fun d hd => ih d (List.mem_reverse.mp hd)
  obtain ⟨n, found, hcs⟩ := visits_of_forall hall
  refine ⟨n + 1, l.outputName c :: found, fun fuel rest removed => ?_⟩
  rw [← Nat.add_assoc, List.map_singleton, List.singleton_append, PlanTransformer.dependents]
  rw [h.tables.produced hc]
  dsimp only
  rw [← List.map_reverse, hcs, List.append_assoc, List.singleton_append]

theorem Ranked.dependents (h : Ranked rank l) (hp : l.producers t = some start) :
    ∃ n, ∀ fuel, n ≤ fuel → ∃ ts, dependents l fuel [t] [] = .ok ts := by
  obtain ⟨n, found, hn⟩ := h.visits ⟨t, hp⟩
  refine ⟨n, fun fuel hf => ⟨found, ?_⟩⟩
  have he := hn (fuel - n) [] []
  rw [Nat.sub_add_cancel hf, List.map_singleton, h.tables.output t start hp, List.singleton_append] at he
  rw [he, PlanTransformer.dependents]
  rfl

theorem Tables.dropped_producers {fuel : ℕ} {ts : List Text} (h : Tables l) (hp : l.producers t = some start)
    (he : PlanTransformer.dependents l fuel [t] [] = .ok ts) (t' : Text) (c : ℕ) :
    (if t' ∈ ts then none else l.producers t') = some c ↔ l.producers t' = some c ∧ ¬ Dependent l start c := by
  have hmem := h.mem_dependents hp he
  constructor
  · intro ht
    split_ifs at ht with hm
    exact ⟨ht, fun hd => hm ((hmem t').mpr ⟨c, hd, h.output t' c ht⟩)⟩
  · rintro ⟨ht, hno⟩
    rw [if_neg _, ht]
    intro hm
    obtain ⟨d, hd, hdt⟩ := (hmem t').mp hm
    have hdc := h.eq_of_outputName (hd.produced h ⟨t, hp⟩) ⟨t', ht⟩ (hdt.trans (h.output t' c ht).symm)
    exact hno (hdc ▸ hd)

theorem Sealed.listed (hs : Sealed l start) (h : Tables l) (hp : Produced l start) (hc : Produced l c)
    (hno : ¬ Dependent l start c) (hd : Dependent l start d) : d ∉ l.consumers (l.outputName c) := by
  intro hm
  have hread : l.outputName c ∈ names l d := by
    apply List.count_pos_iff.mp
    rw [← (h.listed _ d trivial hm).2]
    exact List.count_pos_iff.mpr hm
  obtain ⟨e, he, hec⟩ := hs d hd _ hread (h.ne_noInput (h.produced hc))
  exact hno (h.eq_of_outputName (he.produced h hp) hc hec ▸ he)

theorem Ranked.dependentsDropped_iff (h : Ranked rank l) (hp : l.producers t = some start) {fuel : ℕ}
    (he : dropDependents fuel t l = .ok l') : DependentsDropped l l' start ↔ Sealed l start := by
  unfold PlanTransformer.dropDependents at he
  obtain ⟨ts, hts, he⟩ := bind_eq_ok.mp he
  rw [foldl_removeTupleSets] at he
  cases he
  have hproducers := h.tables.dropped_producers hp hts
  have hmem := h.tables.mem_dependents hp hts
  have hin : ∀ d, Dependent l start d → Produced l d := fun d hd => hd.produced h.tables ⟨t, hp⟩
  constructor
  · intro hdrop d hd t' ht' hne
    obtain ⟨c, hc⟩ := h.tables.inputs t' d (hin d hd) ht' hne
    have hct := h.tables.output t' c hc
    by_cases hdep : Dependent l start c
    · exact ⟨c, hdep, hct⟩
    · have hstays := (hproducers t' c).mpr ⟨hc, hdep⟩
      have hoff := hdrop.listed c ⟨t', hstays⟩ d hd
      have hno : t' ∉ ts := by
        intro hm
        simp [hm] at hstays
      change d ∉ (if l.outputName c ∈ ts then [] else l.consumers (l.outputName c)) at hoff
      rw [hct, if_neg hno] at hoff
      exact absurd (h.tables.complete t' d (hin d hd) ht' hne) hoff
  · intro hs
    refine ⟨hproducers, rfl, ?_⟩
    rintro c ⟨t', ht'⟩ d hd hm
    obtain ⟨hc, hno⟩ := (hproducers t' c).mp ht'
    change d ∈ (if l.outputName c ∈ ts then [] else l.consumers (l.outputName c)) at hm
    split_ifs at hm
    · cases hm
    · exact hs.listed h.tables ⟨t, hp⟩ ⟨t', hc⟩ hno hd hm

end DropDependents

section Plans

structure DropsExactly (l : AtomicComputationList) (t : Text) (start : ℕ) : Prop where
  dependencies : ∃ n, ∀ fuel, n ≤ fuel → ∃ l', dropDependencies fuel t l = .ok l' ∧ DependenciesDropped l l' start
  dependents : ∃ n, ∀ fuel, n ≤ fuel → ∃ l', dropDependents fuel t l = .ok l' ∧ DependentsDropped l l' start

theorem dropsExactly_iff (plan : List AtomicComputation) (hp : Dag plan) (t : Text) (start : ℕ)
    (hs : (build plan).producers t = some start) :
    DropsExactly (build plan) t start ↔ Sealed (build plan) start := by
  obtain ⟨rank, h⟩ := hp.ranked
  obtain ⟨n, hn⟩ := h.dependents hs
  have hrun : ∀ fuel, n ≤ fuel → ∃ l', dropDependents fuel t (build plan) = .ok l' := by
    intro fuel hf
    obtain ⟨ts, hts⟩ := hn fuel hf
    unfold dropDependents
    exact ⟨_, bind_eq_ok.mpr ⟨ts, hts, rfl⟩⟩
  constructor
  · intro hd
    obtain ⟨m, hm⟩ := hd.dependents
    obtain ⟨l', he, hl'⟩ := hm m le_rfl
    exact (h.dependentsDropped_iff hs he).mp hl'
  · intro hsealed
    refine ⟨h.dropDependencies hs, n, fun fuel hf => ?_⟩
    obtain ⟨l', he⟩ := hrun fuel hf
    exact ⟨l', he, (h.dependentsDropped_iff hs he).mpr hsealed⟩

theorem dag_keyedPlan : Dag keyedPlan where
  toAddable := addable_keyedPlan
  right := by decide
  acyclic := ⟨fun t => (keyedPlan.map AtomicComputation.getOutputName).idxOf t, by decide⟩

theorem dropsExactly_keyedPlan : DropsExactly (build keyedPlan) "A".toList 0 ↔ Sealed (build keyedPlan) 0 :=
  dropsExactly_iff keyedPlan dag_keyedPlan _ 0 (by decide +kernel)

theorem not_dropsExactly_write : ¬ ∀ plan, Dag plan → ∀ t start, (build plan).producers t = some start →
    DropsExactly (build plan) t start := by
  intro h
  let plan := [scanOf (spec "A" ["a"]) "Scan_0",
    computation (spec "A" ["a"]) (spec "Out" []) (spec "A" ["a"]) "Write_1" (.writeSet [] [])]
  have hp : Dag plan :=
    { toAddable := ⟨by decide, by decide, by decide, by decide⟩
      right := by decide
      acyclic := ⟨fun t => (plan.map AtomicComputation.getOutputName).idxOf t, by decide⟩ }
  have hs : (build plan).producers "Out".toList = some 1 := by decide +kernel
  obtain ⟨rank, hr⟩ := hp.ranked
  obtain ⟨n, hn⟩ := (h plan hp _ 1 hs).dependents
  obtain ⟨l', he, hl'⟩ := hn n le_rfl
  obtain ⟨e, hdep, hname⟩ := (hr.dependentsDropped_iff hs he).mp hl' 1 .self "A".toList (by decide +kernel) (by decide)
  -- nothing reads the output of the write set
  have hone : ∀ e, Dependent (build plan) 1 e → e = 1 := by
    intro e he
    induction he with
    | self => rfl
    | consumer _ hm ih =>
      rw [ih] at hm
      have hnil : (build plan).consumers ((build plan).outputName 1) = [] := by decide +kernel
      rw [hnil] at hm
      cases hm
  rw [hone e hdep] at hname
  exact absurd hname (by decide +kernel)

end Plans

end PlinyCompute.PlanTransformer
