import PlinyCompute.TableConsistency

namespace PlinyCompute.PlanTransformer

open LogicalPlan Transition ComputationTables
open AtomicComputationList (outputName removeProducer)

variable {l l' : AtomicComputationList} {t k n : Text} {c d : ℕ}

inductive OnlyFor (l : AtomicComputationList) (c : ℕ) : ℕ → Prop
  | self : OnlyFor l c c
  | input {d : ℕ} : l.consumers (l.outputName d) ≠ [] → (∀ e ∈ l.consumers (l.outputName d), OnlyFor l c e) →
      OnlyFor l c d

section DropDependencies

variable {start cur : ℕ} {w w' : Dropping}

def Gone (start : ℕ) (w : Dropping) (c : ℕ) : Prop := c = start ∨ c ∈ w.toRemove

structure DropInv (l : AtomicComputationList) (start : ℕ) (busy : Option ℕ) (w : Dropping) : Prop where
  objects : w.computations.objects = l.objects
  producers : w.computations.producers = l.producers
  allocated : w.computations.allocated = l.allocated
  count : ∀ t c, (w.computations.consumers t).count c = (l.consumers t).count c ∨
    c ∉ w.computations.consumers t ∧ Gone start w c
  gone : ∀ c, Gone start w c → Produced l c ∧ OnlyFor l start c
  empty : ∀ d ∈ w.toRemove, w.computations.consumers (l.outputName d) = []
  visited : ∀ c, Gone start w c → some c = busy ∨ l.outputName c ∈ w.tupleSetsToVisit ∨
    ∀ t ∈ names l c, t ≠ noInput → c ∉ w.computations.consumers t
  visit : ∀ name ∈ w.tupleSetsToVisit, ∃ c, Gone start w c ∧ l.producers name = some c

theorem count_removeConsumer {w : Dropping} (h : DropInv l start (some cur) w) (hcur : Gone start w cur) (t : Text)
    (c : ℕ) : ((w.computations.removeConsumer k cur).consumers t).count c = (l.consumers t).count c ∨
      c ∉ (w.computations.removeConsumer k cur).consumers t ∧ Gone start w c := by
  by_cases hc : c = cur
  · subst hc
    by_cases ht : t = k
    · exact .inr ⟨fun hm => (mem_removeConsumer hm).2 ht rfl, hcur⟩
    · have he : (w.computations.removeConsumer k c).consumers t = w.computations.consumers t := by
        rw [removeConsumer_consumers, if_neg ht]
      rw [he]
      exact h.count t c
  · rw [removeConsumer_count hc]
    exact (h.count t c).imp_right fun ⟨hm, hg⟩ => ⟨fun hm' => hm (mem_removeConsumer hm').1, hg⟩

theorem DropInv.dropInput {input : ℕ} (hl : Tables l) (h : DropInv l start (some cur) w)
    (hcur : Gone start w cur) (hinput : t ∈ names l cur) (ht : t ≠ noInput) (hp : l.producers t = some input)
    (he : dropInput cur w (some input) = .ok w') :
    DropInv l start (some cur) w' ∧ Gone start w' cur ∧ cur ∉ w'.computations.consumers t ∧
      ∀ t, cur ∉ w.computations.consumers t → cur ∉ w'.computations.consumers t := by
  have hname : w.computations.outputName input = t := by
    unfold outputName
    rw [h.objects]
    exact hl.output t input hp
  unfold PlanTransformer.dropInput at he
  dsimp only at he
  rw [hname] at he
  have hshrink : ∀ t' d, d ∈ (w.computations.removeConsumer t cur).consumers t' → d ∈ w.computations.consumers t' :=
    fun t' d hm => (mem_removeConsumer hm).1
  have hoff : cur ∉ (w.computations.removeConsumer t cur).consumers t := fun hm => (mem_removeConsumer hm).2 rfl rfl
  have hempty : ∀ d ∈ w.toRemove, (w.computations.removeConsumer t cur).consumers (l.outputName d) = [] := by
    intro d hd
    apply List.eq_nil_iff_forall_not_mem.mpr
    intro e hm
    have := hshrink _ _ hm
    rw [h.empty d hd] at this
    cases this
  have hvisited : ∀ c, Gone start w c → some c = some cur ∨ l.outputName c ∈ w.tupleSetsToVisit ∨
      ∀ t' ∈ names l c, t' ≠ noInput → c ∉ (w.computations.removeConsumer t cur).consumers t' := by
    intro c hc
    refine (h.visited c hc).imp_right (Or.imp_right fun hu t' ht' hne hm => hu t' ht' hne (hshrink t' c hm))
  split at he
  · cases he
    exact ⟨⟨h.objects, h.producers, h.allocated, count_removeConsumer h hcur, h.gone, hempty, hvisited, h.visit⟩,
      hcur, hoff, fun t' hm hm' => hm (hshrink t' cur hm')⟩
  · next hno =>
    have hnil : (w.computations.removeConsumer t cur).consumers t = [] := by
      simpa [AtomicComputationList.hasConsumer] using hno
    have hin : l.outputName input = t := hl.output t input hp
    -- the input was read by the computations met so far only
    have honly : OnlyFor l start input := by
      apply OnlyFor.input
      · rw [hin]
        exact List.ne_nil_of_mem (hl.complete t cur (h.gone cur hcur).1 hinput ht)
      · intro e hm
        rw [hin] at hm
        obtain hcount | ⟨-, hg⟩ := count_removeConsumer (k := t) h hcur t e
        · rw [hnil] at hcount
          have := List.count_pos_iff.mpr hm
          rw [List.count_nil] at hcount
          omega
        · exact (h.gone e hg).2
    cases he
    have hmono : ∀ c, Gone start w c → Gone start
        ⟨w.computations.removeConsumer t cur, t :: w.tupleSetsToVisit, w.toRemove ++ [input]⟩ c :=
      fun c hc => hc.imp_right fun hm => List.mem_append_left _ hm
    have hnew : ∀ c, Gone start
        ⟨w.computations.removeConsumer t cur, t :: w.tupleSetsToVisit, w.toRemove ++ [input]⟩ c →
        Gone start w c ∨ c = input := by
      rintro c (hc | hc)
      · exact .inl (.inl hc)
      · obtain hc | hc := List.mem_append.mp hc
        · exact .inl (.inr hc)
        · exact .inr (List.mem_singleton.mp hc)
    refine ⟨⟨h.objects, h.producers, h.allocated, ?_, ?_, ?_, ?_, ?_⟩, hmono _ hcur, hoff,
      fun t' hm hm' => hm (hshrink t' cur hm')⟩
    · intro t' c
      exact (count_removeConsumer h hcur t' c).imp_right (And.imp_right (hmono c))
    · intro c hc
      obtain hc | rfl := hnew c hc
      · exact h.gone c hc
      · exact ⟨⟨t, hp⟩, honly⟩
    · intro d hd
      obtain hd | hd := List.mem_append.mp hd
      · exact hempty d hd
      · rw [List.mem_singleton.mp hd, hin]
        exact hnil
    · intro c hc
      obtain hc | rfl := hnew c hc
      · exact (hvisited c hc).imp_right (Or.imp_left (List.mem_cons_of_mem _))
      · exact .inr (.inl (by simp [hin]))
    · intro name hm
      obtain rfl | hm := List.mem_cons.mp hm
      · exact ⟨input, .inr (by simp), hp⟩
      · obtain ⟨c, hc, hpc⟩ := h.visit name hm
        exact ⟨c, hmono c hc, hpc⟩

theorem DropInv.dropInputs {inputs : List (Option ℕ)} (hl : Tables l) (h : DropInv l start (some cur) w)
    (hcur : Gone start w cur)
    (hinputs : ∀ i ∈ inputs, ∀ input, i = some input → ∃ t ∈ names l cur, t ≠ noInput ∧ l.producers t = some input)
    (he : inputs.foldlM (PlanTransformer.dropInput cur) w = .ok w') :
    DropInv l start (some cur) w' ∧ Gone start w' cur ∧
      (∀ t ∈ names l cur, t ≠ noInput → l.producers t ∈ inputs → cur ∉ w'.computations.consumers t) ∧
        ∀ t, cur ∉ w.computations.consumers t → cur ∉ w'.computations.consumers t := by
  induction inputs generalizing w with
  | nil =>
    cases he
    refine ⟨h, hcur, ?_, fun _ hm => hm⟩
    intro t _ _ hm
    cases hm
  | cons i inputs ih =>
    rw [List.foldlM_cons, bind_eq_ok] at he
    obtain ⟨mid, hmid, he⟩ := he
    cases i with
    | none => cases hmid
    | some input =>
      obtain ⟨t, ht, hne, hp⟩ := hinputs _ (by simp) input rfl
      obtain ⟨hinv, hgone, hoff, hkeep⟩ := h.dropInput hl hcur ht hne hp hmid
      obtain ⟨hinv', hgone', hoff', hkeep'⟩ := ih hinv hgone (fun i hi => hinputs i (by simp [hi])) he
      refine ⟨hinv', hgone', fun t' ht' hne' hm => ?_, fun t' hm => hkeep' t' (hkeep t' hm)⟩
      obtain hm | hm := List.mem_cons.mp hm
      · have htt : t' = t := (hl.output t' input hm).symm.trans (hl.output t input hp)
        rw [htt]
        exact hkeep' t hoff
      · exact hoff' t' ht' hne' hm

theorem mem_inputsOf {i : Option ℕ} (hi : i ∈ inputsOf l c) : ∃ t ∈ names l c, i = l.producers t := by
  unfold inputsOf at hi
  dsimp only at hi
  rw [names, inputNames_eq]
  obtain hi | hi := List.mem_append.mp hi
  · split_ifs at hi
    · cases hi
    · exact ⟨(l.objects c).input.setName, by simp, by simpa using hi⟩
  · split at hi
    · cases hi
    · next r hr =>
      rw [hr]
      exact ⟨r.setName, by simp, by simpa using hi⟩

theorem inputsOf_congr (ho : l'.objects = l.objects) (hp : l'.producers = l.producers) :
    inputsOf l' c = inputsOf l c := by
  unfold inputsOf
  rw [ho, hp]

theorem producers_mem_inputsOf (ht : t ∈ names l c) (hne : t ≠ noInput) : l.producers t ∈ inputsOf l c := by
  unfold inputsOf
  dsimp only
  rw [names, inputNames_eq] at ht
  apply List.mem_append.mpr
  obtain rfl | ht := List.mem_cons.mp ht
  · left
    have hin : (l.objects c).input.isEmpty = false := by simpa [TupleSpec.isEmpty] using hne
    simp [hin]
  · right
    split
    · next hr =>
      rw [hr] at ht
      cases ht
    · next r hr =>
      rw [hr] at ht
      have hr' : t = r.setName := by simpa using ht
      simp [hr']

theorem DropInv.round {name : Text} {rest : List Text} (hl : Tables l) (h : DropInv l start none w)
    (hvisit : w.tupleSetsToVisit = name :: rest) (hp : l.producers name = some cur)
    (he : (inputsOf w.computations cur).foldlM (PlanTransformer.dropInput cur) { w with tupleSetsToVisit := rest } =
      .ok w') : DropInv l start none w' := by
  obtain ⟨cur', hcur, hp'⟩ := h.visit name (by simp [hvisit])
  cases hp.symm.trans hp'
  have hname : l.outputName cur = name := hl.output name cur hp
  have hbusy : DropInv l start (some cur) { w with tupleSetsToVisit := rest } := by
    refine ⟨h.objects, h.producers, h.allocated, h.count, h.gone, h.empty, ?_, ?_⟩
    · intro c hc
      obtain hb | hv | hu := h.visited c hc
      · cases hb
      · rw [hvisit] at hv
        obtain hv | hv := List.mem_cons.mp hv
        · exact .inl (congrArg some (hl.eq_of_outputName (h.gone c hc).1 ⟨name, hp⟩ (hv.trans hname.symm)))
        · exact .inr (.inl hv)
      · exact .inr (.inr hu)
    · intro name' hm
      exact h.visit name' (by simp [hvisit, show name' ∈ rest from hm])
  rw [inputsOf_congr h.objects h.producers] at he
  obtain ⟨hinv, -, hoff, -⟩ := hbusy.dropInputs hl hcur (by
    intro i hi input hsome
    obtain ⟨t, ht, rfl⟩ := mem_inputsOf hi
    exact ⟨t, ht, hl.ne_noInput hsome, hsome⟩) he
  refine ⟨hinv.objects, hinv.producers, hinv.allocated, hinv.count, hinv.gone, hinv.empty, ?_, hinv.visit⟩
  intro c hc
  obtain hb | hv | hu := hinv.visited c hc
  · cases hb
    exact .inr (.inr fun t ht hne => hoff t ht hne (producers_mem_inputsOf ht hne))
  · exact .inr (.inl hv)
  · exact .inr (.inr hu)

theorem DropInv.dropLoop {fuel : ℕ} (hl : Tables l) (h : DropInv l start none w)
    (he : dropLoop fuel w = .ok w') : DropInv l start none w' ∧ w'.tupleSetsToVisit = [] := by
  induction fuel generalizing w with
  | zero =>
    unfold PlanTransformer.dropLoop at he
    split at he
    · next hnil =>
      cases he
      exact ⟨h, hnil⟩
    · cases he
  | succ fuel ih =>
    unfold PlanTransformer.dropLoop at he
    split at he
    · next hnil =>
      cases he
      exact ⟨h, hnil⟩
    · next name rest hcons =>
      rw [h.producers] at he
      dsimp only at he
      split at he
      · cases he
      · next cur hp =>
        obtain ⟨mid, hmid, he⟩ := bind_eq_ok.mp he
        exact ih (h.round hl hcons hp hmid) he

theorem DropInv.off (hl : Tables l) (h : DropInv l start none w) (hnil : w.tupleSetsToVisit = [])
    (hc : Gone start w c) (ht : t ≠ noInput) : c ∉ w.computations.consumers t := by
  intro hm
  obtain hcount | ⟨hno, -⟩ := h.count t c
  · obtain hb | hv | hu := h.visited c hc
    · cases hb
    · rw [hnil] at hv
      cases hv
    · refine hu t ?_ ht hm
      have hold : c ∈ l.consumers t := List.count_pos_iff.mp (hcount ▸ List.count_pos_iff.mpr hm)
      apply List.count_pos_iff.mp
      rw [← (hl.listed t c trivial hold).2]
      exact List.count_pos_iff.mpr hold
  · exact hno hm

theorem dropInv_start (hl : Tables l) (hp : l.producers t = some start) : DropInv l start none ⟨l, [t], []⟩ := by
  refine ⟨rfl, rfl, rfl, fun _ _ => .inl rfl, ?_, by simp, ?_, ?_⟩
  · rintro c (rfl | hc)
    · exact ⟨⟨t, hp⟩, .self⟩
    · cases hc
  · rintro c (rfl | hc)
    · exact .inr (.inl (by simp [hl.output t c hp]))
    · cases hc
  · intro name hm
    rw [List.mem_singleton] at hm
    exact ⟨start, .inl rfl, hm ▸ hp⟩

theorem foldl_removeProducer (ds : List ℕ) (l : AtomicComputationList) :
    ds.foldl (fun l d => l.removeProducer (l.outputName d)) l =
      { l with producers := fun t => if t ∈ ds.map l.outputName then none else l.producers t } := by
  induction ds generalizing l with
  | nil => simp
  | cons d ds ih =>
    rw [List.foldl_cons, ih]
    have hmap : ds.map (l.removeProducer (l.outputName d)).outputName = ds.map l.outputName := rfl
    rw [hmap]
    simp only [removeProducer, List.map_cons, List.mem_cons]
    congr 1
    funext t
    by_cases ht : t ∈ ds.map l.outputName
    · simp [ht]
    · by_cases htd : t = l.outputName d
      · simp [htd]
      · simp [ht, htd]

theorem Tables.replaceable_dropped {fuel comp : ℕ} (h : Tables l) (hp : l.producers t = some start)
    (honly : ∀ d, Produced l d → OnlyFor l start d → d ∉ l.consumers noInput) (hcomp : ¬ Produced l comp)
    (hlt : comp < l.allocated) (hname : l.outputName comp = t) (hscan : names l comp = [noInput])
    (he : dropDependencies fuel t l = .ok l') :
    l'.outputName start = t ∧ (l'.producers t ≠ none → Replaceable (fun _ => True) l' t t start comp) := by
  unfold dropDependencies at he
  rw [bind_eq_ok] at he
  obtain ⟨w, hw, he⟩ := he
  obtain ⟨hinv, hnil⟩ := (dropInv_start h hp).dropLoop h hw
  rw [foldl_removeProducer] at he
  simp only [Except.ok.injEq] at he
  have hout : w.computations.outputName = l.outputName := by
    funext c
    unfold outputName
    rw [hinv.objects]
  have hproducers : ∀ t, l'.producers t = if t ∈ w.toRemove.map l.outputName then none else l.producers t := by
    intro t
    rw [← he, ← hout, ← hinv.producers]
  have hobjects : l'.objects = l.objects := by rw [← he, ← hinv.objects]
  have hconsumers : l'.consumers = w.computations.consumers := by rw [← he]
  have hallocated : l'.allocated = l.allocated := by rw [← he, ← hinv.allocated]
  have hnames : ∀ c, names l' c = names l c := fun c => by rw [names, names, hobjects]
  have hout' : l'.outputName = l.outputName := by
    funext c
    unfold outputName
    rw [hobjects]
  -- what is gone is on no list
  have hoff : ∀ c, Gone start w c → ∀ t, c ∉ l'.consumers t := by
    intro c hc t hm
    rw [hconsumers] at hm
    by_cases ht : t = noInput
    · have hold : c ∈ l.consumers t := by
        obtain hcount | ⟨hno, -⟩ := hinv.count t c
        · exact List.count_pos_iff.mp (hcount ▸ List.count_pos_iff.mpr hm)
        · exact absurd hm hno
      exact honly c (hinv.gone c hc).1 (hinv.gone c hc).2 (ht ▸ hold)
    · exact hinv.off h hnil hc ht hm
  have hcount : ∀ t c, ¬ Gone start w c → (l'.consumers t).count c = (l.consumers t).count c := by
    intro t c hc
    rw [hconsumers]
    exact (hinv.count t c).resolve_right fun hno => hc hno.2
  have hof : ∀ t c, l'.producers t = some c → l.producers t = some c ∧ c ∉ w.toRemove := by
    intro t c ht
    rw [hproducers] at ht
    split_ifs at ht with hm
    refine ⟨ht, fun hc => hm ?_⟩
    exact List.mem_map.mpr ⟨c, hc, h.output t c ht⟩
  have hto : ∀ c, Produced l c → ¬ Gone start w c → Produced l' c := by
    intro c hc hg
    refine ⟨l.outputName c, ?_⟩
    rw [hproducers, if_neg]
    · exact h.produced hc
    · intro hm
      obtain ⟨d, hd, hde⟩ := List.mem_map.mp hm
      have hdc := h.eq_of_outputName (hinv.gone d (.inr hd)).1 hc hde
      exact hg (.inr (hdc ▸ hd))
  have hstays : ∀ c, Produced l' c → c ≠ start → Produced l c ∧ ¬ Gone start w c := by
    rintro c ⟨t', ht'⟩ hne
    obtain ⟨hc, hno⟩ := hof t' c ht'
    exact ⟨⟨t', hc⟩, fun hg => hg.elim hne hno⟩
  have hlist : ∀ t' c, Produced l c → ¬ Gone start w c → t' ∈ names l c → t' ≠ noInput → c ∈ l'.consumers t' := by
    intro t' c hc hg hm hne
    apply List.count_pos_iff.mp
    rw [hcount t' c hg]
    exact List.count_pos_iff.mpr (h.complete t' c hc hm hne)
  refine ⟨hout' ▸ h.output t start hp, fun hp' => ?_⟩
  refine ⟨?_, hout' ▸ hname, hnames comp ▸ hscan, ?_, ?_, trivial, ?_, ?_, ?_, ?_, .inl rfl, ?_, h.ne_noInput hp, ?_, ?_⟩
  · rw [hproducers] at hp' ⊢
    split_ifs at hp' ⊢ with hm
    · exact absurd rfl hp'
    · exact hp
  · rintro ⟨t', ht'⟩
    exact hcomp ⟨t', (hof t' comp ht').1⟩
  · intro t' c ht'
    rw [hout']
    exact h.output t' c (hof t' c ht').1
  · intro t' c _ hm hne
    have hg : ¬ Gone start w c := fun hg => hoff c hg t' hm
    have hold : c ∈ l.consumers t' := by
      apply List.count_pos_iff.mp
      rw [← hcount t' c hg]
      exact List.count_pos_iff.mpr hm
    obtain ⟨hc, hcnt⟩ := h.listed t' c trivial hold
    exact ⟨.inr (hto c hc hg), by rw [hcount t' c hg, hnames, hcnt]⟩
  · intro t' _ hm
    exact absurd hm (hoff start (.inl rfl) t')
  · intro t' c hc hne hm ht'
    obtain ⟨hc, hg⟩ := hstays c hc hne
    exact hlist t' c hc hg (hnames c ▸ hm) ht'
  · intro t' c hc hne hm ht'
    obtain ⟨hc, hg⟩ := hstays c hc hne
    rw [hnames] at hm
    obtain ⟨d, hd⟩ := h.inputs t' c hc hm ht'
    refine ⟨d, ?_⟩
    rw [hproducers, if_neg]
    · exact hd
    · intro hmem
      obtain ⟨d', hd', hde⟩ := List.mem_map.mp hmem
      have hlisted := hlist t' c hc hg hm ht'
      rw [hconsumers, ← hde, hinv.empty d' hd'] at hlisted
      cases hlisted
  · rw [hproducers]
    split_ifs
    · rfl
    · exact h.reserved
  · rintro c (rfl | ⟨t', ht'⟩)
    · exact hallocated ▸ hlt
    · exact hallocated ▸ h.allocated c ⟨t', (hof t' c ht').1⟩
  · rintro c ⟨t', ht'⟩ hs
    rw [hnames]
    rw [hobjects] at hs
    exact h.scans c ⟨t', (hof t' c ht').1⟩ hs

theorem allocate_objects (x : AtomicComputation) (hc : c < l.allocated) : (l.allocate x).objects c = l.objects c :=
  Function.update_of_ne (Nat.ne_of_lt hc) _ _

theorem Tables.allocate (h : Tables l) (x : AtomicComputation) : Tables (l.allocate x) := by
  have hobj : ∀ c, Produced l c → (l.allocate x).objects c = l.objects c :=
    fun c hc => allocate_objects x (h.allocated c hc)
  have hnames : ∀ c, Produced l c → names (l.allocate x) c = names l c :=
    fun c hc => by rw [names, names, hobj c hc]
  refine { output := ?_, listed := ?_, complete := ?_, inputs := ?_, allocated := ?_, reserved := h.reserved, scans := ?_ }
  · intro t c ht
    rw [outputName, hobj c ⟨t, ht⟩]
    exact h.output t c ht
  · intro t c _ hm
    obtain ⟨hc, hcount⟩ := h.listed t c trivial hm
    exact ⟨hc, by rw [hnames c hc]; exact hcount⟩
  · intro t c hc hm
    exact h.complete t c hc (hnames c hc ▸ hm)
  · intro t c hc hm
    exact h.inputs t c hc (hnames c hc ▸ hm)
  · intro c hc
    exact Nat.lt_succ_of_lt (h.allocated c hc)
  · intro c hc hs
    rw [hnames c hc]
    exact h.scans c hc (hobj c hc ▸ hs)

theorem OnlyFor.of_allocate (h : Tables l) {x : AtomicComputation} (ho : OnlyFor (l.allocate x) c d)
    (hd : Produced l d) : OnlyFor l c d := by
  induction ho with
  | self => exact .self
  | @input d hne _ ih =>
    have hname : (l.allocate x).outputName d = l.outputName d := by
      rw [outputName, allocate_objects x (h.allocated d hd)]
      rfl
    rw [hname] at hne ih
    exact .input hne fun e he => ih e he (h.listed _ e trivial he).1

theorem Tables.insertKeyScanSets {fuel : ℕ} (h : Tables l)
    (honly : ∀ c, l.producers t = some c → ∀ d, OnlyFor l c d → d ∉ l.consumers noInput)
    (he : insertKeyScanSets fuel t l = .ok l') : Tables l' := by
  unfold PlanTransformer.insertKeyScanSets at he
  split at he
  · cases he
  · next inputComp hp =>
    dsimp only at he
    rw [bind_eq_ok] at he
    obtain ⟨mid, hmid, he⟩ := he
    have hlt := h.allocated inputComp ⟨t, hp⟩
    have hnew : ¬ Produced l l.allocated := fun hc => Nat.lt_irrefl _ (h.allocated _ hc)
    have hobj : (l.allocate (keyScanSet (l.objects inputComp))).objects l.allocated =
        keyScanSet (l.objects inputComp) := Function.update_self _ _ _
    have hname : (l.allocate (keyScanSet (l.objects inputComp))).outputName l.allocated = t := by
      rw [outputName, hobj]
      exact h.output t inputComp hp
    have hscan : names (l.allocate (keyScanSet (l.objects inputComp))) l.allocated = [noInput] := by
      rw [names, hobj]
      rfl
    have honly' : ∀ d, Produced (l.allocate (keyScanSet (l.objects inputComp))) d →
        OnlyFor (l.allocate (keyScanSet (l.objects inputComp))) inputComp d → d ∉ l.consumers noInput :=
      fun d hd ho => honly inputComp hp d (ho.of_allocate h hd)
    obtain ⟨hout, hrep⟩ := (h.allocate _).replaceable_dropped hp honly' hnew (Nat.lt_succ_self _) hname hscan hmid
    rw [hout] at he
    have hsome : mid.producers t ≠ none := by
      intro hnone
      unfold replaceComputation at he
      rw [hnone] at he
      cases he
    have hrep' := hrep hsome
    have hr := replaceComputation_spec hrep'.producer he
    rw [hrep'.name] at hr
    exact (hrep'.tables hr).mono fun _ _ => .inl trivial

end DropDependencies

section DropDependents

variable {start : ℕ}

inductive Dependent (l : AtomicComputationList) (start : ℕ) : ℕ → Prop
  | self : Dependent l start start
  | consumer {c d : ℕ} : Dependent l start c → d ∈ l.consumers (l.outputName c) → Dependent l start d

theorem Dependent.produced (h : Tables l) (hs : Produced l start) (hd : Dependent l start d) : Produced l d := by
  cases hd with
  | self => exact hs
  | consumer _ hm => exact (h.listed _ _ trivial hm).1

theorem dependents_spec {fuel : ℕ} {visit removed result : List Text} (hl : Tables l)
    (hvisit : ∀ name ∈ visit, ∃ c, Dependent l start c ∧ l.outputName c = name)
    (hremoved : ∀ name ∈ removed, ∃ c, Dependent l start c ∧ l.outputName c = name)
    (hclosed : ∀ name ∈ removed, ∀ e ∈ l.consumers name, l.outputName e ∈ removed ++ visit)
    (he : dependents l fuel visit removed = .ok result) :
    (∀ name ∈ removed ++ visit, name ∈ result) ∧
      (∀ name ∈ result, ∃ c, Dependent l start c ∧ l.outputName c = name) ∧
        ∀ name ∈ result, ∀ e ∈ l.consumers name, l.outputName e ∈ result := by
  induction fuel generalizing visit removed with
  | zero =>
    cases visit with
    | nil =>
      cases he
      simp only [List.append_nil] at hclosed ⊢
      exact ⟨fun _ hm => hm, hremoved, hclosed⟩
    | cons name rest => cases he
  | succ fuel ih =>
    cases visit with
    | nil =>
      cases he
      simp only [List.append_nil] at hclosed ⊢
      exact ⟨fun _ hm => hm, hremoved, hclosed⟩
    | cons name rest =>
      rw [dependents] at he
      split at he
      · cases he
      · next currComp hp =>
        dsimp only at he
        have hname := hl.output name currComp hp
        rw [hname] at he
        obtain ⟨c, hc, hcn⟩ := hvisit name (by simp)
        have hvisit' : ∀ name' ∈ ((l.consumers name).map l.outputName).reverse ++ rest,
            ∃ c, Dependent l start c ∧ l.outputName c = name' := by
          intro name' hm
          obtain hm | hm := List.mem_append.mp hm
          · obtain ⟨e, hme, rfl⟩ := List.mem_map.mp (List.mem_reverse.mp hm)
            exact ⟨e, hc.consumer (hcn ▸ hme), rfl⟩
          · exact hvisit name' (List.mem_cons_of_mem _ hm)
        have hremoved' : ∀ name' ∈ removed ++ [name], ∃ c, Dependent l start c ∧ l.outputName c = name' := by
          intro name' hm
          obtain hm | hm := List.mem_append.mp hm
          · exact hremoved name' hm
          · exact ⟨c, hc, hcn.trans (List.mem_singleton.mp hm).symm⟩
        have hclosed' : ∀ name' ∈ removed ++ [name], ∀ e ∈ l.consumers name', l.outputName e ∈
            (removed ++ [name]) ++ (((l.consumers name).map l.outputName).reverse ++ rest) := by
          intro name' hm e hme
          obtain hm | hm := List.mem_append.mp hm
          · have hin := hclosed name' hm e hme
            simp only [List.mem_append, List.mem_cons] at hin ⊢
            tauto
          · rw [List.mem_singleton.mp hm] at hme
            have hin : l.outputName e ∈ (l.consumers name).map l.outputName := List.mem_map_of_mem hme
            simp only [List.mem_append, List.mem_reverse]
            exact .inr (.inl hin)
        obtain ⟨hsub, hdep, hcl⟩ := ih hvisit' hremoved' hclosed' he
        refine ⟨fun name' hm => hsub name' ?_, hdep, hcl⟩
        simp only [List.mem_append, List.mem_cons, List.not_mem_nil, or_false] at hm ⊢
        tauto

theorem foldl_removeTupleSets (ts : List Text) (l : AtomicComputationList) :
    ts.foldl (fun l t => (l.removeProducer t).removeAllConsumers t) l =
      { l with
        producers := fun t => if t ∈ ts then none else l.producers t
        consumers := fun t => if t ∈ ts then [] else l.consumers t } := by
  induction ts generalizing l with
  | nil => simp
  | cons a ts ih =>
    rw [List.foldl_cons, ih]
    simp only [removeProducer, AtomicComputationList.removeAllConsumers, List.mem_cons]
    congr 1
    all_goals
      funext t
      by_cases ht : t ∈ ts
      · simp [ht]
      · by_cases hta : t = a
        · simp [hta]
        · simp [ht, hta]

theorem Tables.mem_dependents {fuel : ℕ} {ts : List Text} (h : Tables l) (hp : l.producers t = some start)
    (he : dependents l fuel [t] [] = .ok ts) (name : Text) :
    name ∈ ts ↔ ∃ c, Dependent l start c ∧ l.outputName c = name := by
  have hvisit : ∀ name ∈ [t], ∃ c, Dependent l start c ∧ l.outputName c = name := by
    intro name hm
    rw [List.mem_singleton] at hm
    exact ⟨start, .self, hm ▸ h.output t start hp⟩
  obtain ⟨hsub, hdep, hclosed⟩ := dependents_spec h hvisit (by simp) (by simp) he
  refine ⟨hdep name, ?_⟩
  rintro ⟨d, hd, rfl⟩
  induction hd with
  | self => exact hsub _ (by simp [h.output t start hp])
  | consumer _ hm ih => exact hclosed _ ih _ hm

theorem Tables.dropDependents {fuel : ℕ} (h : Tables l)
    (hlists : ∀ c, l.producers t = some c → ∀ d, Dependent l c d → ∀ t', d ∈ l.consumers t' →
      ∃ e, Dependent l c e ∧ l.outputName e = t')
    (hp : l.producers t = some start) (he : dropDependents fuel t l = .ok l') : Tables l' := by
  unfold PlanTransformer.dropDependents at he
  rw [bind_eq_ok] at he
  obtain ⟨ts, hts, he⟩ := he
  have hmem := h.mem_dependents hp hts
  rw [foldl_removeTupleSets] at he
  cases he
  have hall : ∀ d, Dependent l start d → l.outputName d ∈ ts := fun d hd => (hmem _).mpr ⟨d, hd, rfl⟩
  have hof : ∀ t c, (if t ∈ ts then none else l.producers t) = some c → t ∉ ts ∧ l.producers t = some c := by
    intro t c ht
    split_ifs at ht with hm
    exact ⟨hm, ht⟩
  -- a computation that stays reads nothing that goes
  have hstays : ∀ t' c, t' ∈ names l c → t' ≠ noInput → Produced l c → l.outputName c ∉ ts → t' ∉ ts := by
    intro t' c hm hne hc hno hts'
    obtain ⟨e, he, hen⟩ := (hmem t').mp hts'
    exact hno (hall c (he.consumer (hen ▸ h.complete t' c hc hm hne)))
  refine { output := ?_, listed := ?_, complete := ?_, inputs := ?_, allocated := ?_, reserved := ?_, scans := ?_ }
  · intro t' c ht
    exact h.output t' c (hof t' c ht).2
  · intro t' c _ hm
    dsimp only at hm ⊢
    split_ifs at hm ⊢ with hts'
    · cases hm
    · obtain ⟨hc, hcount⟩ := h.listed t' c trivial hm
      refine ⟨⟨l.outputName c, ?_⟩, hcount⟩
      dsimp only
      rw [if_neg]
      · exact h.produced hc
      · intro hin
        obtain ⟨d, hd, hde⟩ := (hmem _).mp hin
        obtain rfl := h.eq_of_outputName (hd.produced h ⟨t, hp⟩) hc hde
        obtain ⟨e, hed, hee⟩ := hlists start hp d hd t' hm
        exact hts' (hee ▸ hall e hed)
  · rintro t' c ⟨t'', ht''⟩ hm hne
    obtain ⟨hno, hpc⟩ := hof t'' c ht''
    have hc : Produced l c := ⟨t'', hpc⟩
    have hout : l.outputName c ∉ ts := h.output t'' c hpc ▸ hno
    dsimp only
    rw [if_neg (hstays t' c hm hne hc hout)]
    exact h.complete t' c hc hm hne
  · rintro t' c ⟨t'', ht''⟩ hm hne
    obtain ⟨hno, hpc⟩ := hof t'' c ht''
    have hc : Produced l c := ⟨t'', hpc⟩
    have hout : l.outputName c ∉ ts := h.output t'' c hpc ▸ hno
    dsimp only
    rw [if_neg (hstays t' c hm hne hc hout)]
    exact h.inputs t' c hc hm hne
  · rintro c ⟨t', ht'⟩
    exact h.allocated c ⟨t', (hof t' c ht').2⟩
  · dsimp only
    split_ifs
    · rfl
    · exact h.reserved
  · rintro c ⟨t', ht'⟩ hs
    exact h.scans c ⟨t', (hof t' c ht').2⟩ hs

end DropDependents

end PlinyCompute.PlanTransformer
