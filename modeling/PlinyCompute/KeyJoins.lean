import PlinyCompute.KeySides

namespace PlinyCompute.PlanTransformer

open LogicalPlan Transition ComputationTables
open TupleSpec (complement removeAtt insertAtt)

variable {l l' l₀ : AtomicComputationList} {t x y a b : Text} {p cur next joinComp c d : ℕ} {k : Keys}
variable {rank : Text → ℕ} {generated : ℕ → List Text} {waiting : ℕ → Text → Prop}

section Aliases

variable {s : TupleSpec} {keyAliases : List (Text × Text)}

theorem mem_of_mem_replace {atts : List Text} (h : y ∈ atts.replace a b) : y = b ∨ y ∈ atts := by
  induction atts with
  | nil => cases h
  | cons z atts ih =>
    rw [replace_cons_eq] at h
    split_ifs at h
    · exact (List.mem_cons.mp h).imp_right (List.mem_cons_of_mem z)
    · obtain rfl | h := List.mem_cons.mp h
      · exact .inr List.mem_cons_self
      · exact (ih h).imp_right (List.mem_cons_of_mem z)

theorem count_replace_le {atts : List Text} (hx : x ≠ b) : (atts.replace a b).count x ≤ atts.count x := by
  induction atts with
  | nil => simp
  | cons z atts ih =>
    rw [replace_cons_eq]
    split_ifs
    · rw [List.count_cons_of_ne (Ne.symm hx)]
      exact List.count_le_count_cons
    · rw [List.count_cons, List.count_cons]
      omega

theorem mem_replaceAliases (hy : y ∈ s.atts) (hno : ∀ q ∈ keyAliases, y ≠ q.1) :
    y ∈ (replaceAliases keyAliases s).atts := by
  unfold replaceAliases
  induction keyAliases generalizing s with
  | nil => exact hy
  | cons q keyAliases ih =>
    apply ih
    · have hm : redirect q.1 q.2 y ∈ s.atts.replace q.1 q.2 := redirect_mem_replace hy
      rw [redirect_of_ne (hno q List.mem_cons_self)] at hm
      exact hm
    · intro r hr
      exact hno r (List.mem_cons_of_mem q hr)

theorem of_mem_replaceAliases {isKey : Text → Prop} (hkeys : ∀ q ∈ keyAliases, isKey q.2)
    (hcount : ∀ q ∈ keyAliases, isKey q.1 ∨ s.atts.count q.1 ≤ 1) (hy : y ∈ (replaceAliases keyAliases s).atts) :
    isKey y ∨ y ∈ s.atts ∧ ∀ q ∈ keyAliases, y ≠ q.1 := by
  unfold replaceAliases at hy
  induction keyAliases generalizing s with
  | nil => exact .inr ⟨hy, by simp⟩
  | cons q keyAliases ih =>
    have hq : isKey q.2 := hkeys q List.mem_cons_self
    have hrest : ∀ r ∈ keyAliases, isKey r.1 ∨ (s.replaceAtt q.1 q.2).atts.count r.1 ≤ 1 := by
      intro r hr
      obtain hk | hc := hcount r (List.mem_cons_of_mem q hr)
      · exact .inl hk
      · by_cases hrq : r.1 = q.2
        · exact .inl (hrq ▸ hq)
        · exact .inr ((count_replace_le hrq).trans hc)
    obtain hk | ⟨hm, hno⟩ := ih (fun r hr => hkeys r (List.mem_cons_of_mem q hr)) hrest hy
    · exact .inl hk
    · by_cases hyq : y = q.1
      · obtain hk | hc := hcount q List.mem_cons_self
        · exact .inl (hyq ▸ hk)
        · obtain ⟨z, -, he⟩ := exists_of_mem_replace hc hm
          by_cases hz : z = q.1
          · rw [redirect, if_pos hz] at he
            exact .inl (he ▸ hq)
          · rw [redirect_of_ne hz] at he
            exact absurd (he ▸ hyq) hz
      · obtain rfl | hm := mem_of_mem_replace hm
        · exact .inl hq
        · refine .inr ⟨hm, ?_⟩
          rintro r hr
          obtain rfl | hr := List.mem_cons.mp hr
          · exact hyq
          · exact hno r hr

theorem mem_insertMissing : y ∈ (insertMissing x s).atts ↔ y ∈ s.atts ∨ y = x := by
  unfold insertMissing TupleSpec.hasAtt
  split_ifs with h
  · constructor
    · exact .inl
    · rintro (hy | rfl)
      · exact hy
      · simpa using h
  · simp [insertAtt]

def Keys.IsKey (k : Keys) (x : Text) : Prop := x = k.leftKey ∨ x = k.rightKey

theorem mem_keepKeys : y ∈ (keepKeys k keyAliases s).atts ↔
    y ∈ (replaceAliases keyAliases ((s.removeAtt k.leftAtt).removeAtt k.rightAtt)).atts ∨ k.IsKey y := by
  rw [keepKeys, mem_insertMissing, mem_insertMissing, or_assoc]
  rfl

structure Kept (k : Keys) (keyAliases : List (Text × Text)) (x : Text) : Prop where
  left : x ≠ k.leftAtt
  right : x ≠ k.rightAtt
  noAlias : ∀ q ∈ keyAliases, x ≠ q.1

theorem Kept.mem_keepKeys (h : Kept k keyAliases y) (hy : y ∈ s.atts) : y ∈ (keepKeys k keyAliases s).atts := by
  rw [PlanTransformer.mem_keepKeys]
  left
  apply mem_replaceAliases _ h.noAlias
  simp [removeAtt, hy, h.left, h.right]

theorem of_mem_keepKeys (hkeys : ∀ q ∈ keyAliases, k.IsKey q.2) (hcount : ∀ q ∈ keyAliases, s.atts.count q.1 ≤ 1)
    (hy : y ∈ (keepKeys k keyAliases s).atts) : k.IsKey y ∨ y ∈ s.atts ∧ Kept k keyAliases y := by
  rw [mem_keepKeys] at hy
  obtain hy | hy := hy
  · have hsub : ((s.removeAtt k.leftAtt).removeAtt k.rightAtt).atts.Sublist s.atts :=
      List.filter_sublist.trans List.filter_sublist
    have hle : ∀ q ∈ keyAliases, k.IsKey q.1 ∨ ((s.removeAtt k.leftAtt).removeAtt k.rightAtt).atts.count q.1 ≤ 1 :=
      fun q hq => .inr ((hsub.count_le q.1).trans (hcount q hq))
    obtain hk | ⟨hm, hno⟩ := of_mem_replaceAliases hkeys hle hy
    · exact .inl hk
    · simp only [removeAtt, List.mem_filter, ne_eq, decide_not, Bool.not_eq_true',
        decide_eq_false_iff_not] at hm
      exact .inr ⟨hm.1.1, hm.1.2, hm.2, hno⟩
  · exact .inl hy

theorem leftEdit_useKeys (k : Keys) (keyAliases : List (Text × Text)) : LeftEdit (useKeys k keyAliases) :=
  ⟨fun _ => keepKeys_setName _ _ _, fun _ => replaceAliases_setName _ _, fun _ => keepKeys_setName _ _ _, fun _ => rfl⟩

theorem ownOutput_useKeys {c : AtomicComputation} {g : List Text} (h : OwnOutput g c)
    (hkeys : ∀ q ∈ keyAliases, k.IsKey q.2) (hcount : ∀ q ∈ keyAliases, c.output.atts.count q.1 ≤ 1) :
    OwnOutput g (useKeys k keyAliases c) := by
  intro hr y hy
  have hjoined : joined (useKeys k keyAliases c) =
      (keepKeys k keyAliases c.projection).atts ++ (c.getRightProjection.map TupleSpec.atts).getD [] := rfl
  rw [hjoined, List.mem_append]
  obtain hk | ⟨hy, hkept⟩ := of_mem_keepKeys hkeys hcount hy
  · exact .inl (.inl (mem_keepKeys.mpr (.inr hk)))
  · obtain hy | hy := h hr y hy
    · obtain hy | hy := List.mem_append.mp hy
      · exact .inl (.inl (hkept.mem_keepKeys hy))
      · exact .inl (.inr hy)
    · exact .inr hy

theorem mem_insertPair_self (a b : Text) (qs : List (Text × Text)) : (a, b) ∈ insertPair a b qs := by
  induction qs with
  | nil => simp [insertPair]
  | cons q qs ih =>
    unfold insertPair
    split_ifs
    · simp
    · exact List.mem_cons_of_mem q ih
    · simp

theorem exists_mem_insertPair (a b : Text) {qs : List (Text × Text)} (h : ∃ z, (x, z) ∈ qs) :
    ∃ z, (x, z) ∈ insertPair a b qs := by
  obtain ⟨z, h⟩ := h
  induction qs with
  | nil => cases h
  | cons q qs ih =>
    unfold insertPair
    split_ifs with hlt hgt
    · exact ⟨z, List.mem_cons_of_mem _ h⟩
    · obtain rfl | h := List.mem_cons.mp h
      · exact ⟨z, List.mem_cons_self⟩
      · obtain ⟨z', hz'⟩ := ih h
        exact ⟨z', List.mem_cons_of_mem q hz'⟩
    · obtain rfl | h := List.mem_cons.mp h
      · have hx : a = x := le_antisymm (not_lt.mp hgt) (not_lt.mp hlt)
        exact ⟨b, by simp [hx]⟩
      · exact ⟨z, List.mem_cons_of_mem _ h⟩

end Aliases

section Walking

abbrev JoinWalk (l : AtomicComputationList) (joinComp : ℕ) : Text → ℕ → Prop :=
  Walk l (fun _ d => (l.objects d).computationName = (l.objects joinComp).computationName) (l.outputName joinComp)

def Extracting (c : AtomicComputation) : Prop := c.isApplyLambda = true ∧ c.isExtractingKey = true

def generates (c : AtomicComputation) : List Text := (complement c.output c.projection).atts

inductive Lost (l : AtomicComputationList) (joinComp : ℕ) : Text → Prop
  | record {x : Text} : x ∈ joined (l.objects joinComp) → Lost l joinComp x
  | column {t : Text} {c : ℕ} {a x : Text} : JoinWalk l joinComp t c → a ∈ (l.objects c).input.atts → Lost l joinComp a →
      ¬ Extracting (l.objects c) → x ∈ generates (l.objects c) → Lost l joinComp x

def KeyColumn (l : AtomicComputationList) (joinComp : ℕ) (x : Text) : Prop :=
  ∃ t c a, JoinWalk l joinComp t c ∧ a ∈ (l.objects c).input.atts ∧ Lost l joinComp a ∧ Extracting (l.objects c) ∧
    x ∈ generates (l.objects c)

def JoinRegular (waiting : ℕ → Text → Prop) (l : AtomicComputationList) (t : Text) : Prop :=
  ∀ joinComp, l.producers t = some joinComp → ∀ n c, JoinWalk l joinComp n c → Straight waiting l n c ∧
    (∀ x, KeyColumn l joinComp x → Once x (l.objects c)) ∧
    (Extracting (l.objects c) → ∀ x ∈ generates (l.objects c), ∀ y ∈ generates (l.objects c), x = y)

def JoinLeaves (l : AtomicComputationList) (t : Text) (d : ℕ) (x : Text) : Prop :=
  ∃ joinComp, l.producers t = some joinComp ∧
    ((∃ n, JoinWalk l joinComp n d) ∧ Lost l joinComp x ∧ x ∉ joined (l.objects joinComp) ∨
      (∃ n c, JoinWalk l joinComp n c ∧ l.consumers (l.outputName c) = [d] ∧
        (l.objects d).computationName ≠ (l.objects joinComp).computationName) ∧
      (Lost l joinComp x ∨ KeyColumn l joinComp x ∨ ∃ k, keysOf l (l.objects joinComp) = .ok k ∧ k.IsKey x))

structure JoinState (rank : Text → ℕ) (generated : ℕ → List Text) (waiting : ℕ → Text → Prop)
    (l₀ : AtomicComputationList) (joinComp : ℕ) (k : Keys) (t : Text) (p cur : ℕ) (w : JoinKeyWalk)
    (l : AtomicComputationList) : Prop where
  flow : Flow rank generated (pending waiting l p cur (· ∈ w.lastOutput.atts)) l
  front : Front rank l₀ l t p cur
  sole : l.consumers (l.outputName p) = [cur]
  last : ∀ x, Found l₀ t x → x ∈ w.lastOutput.atts
  alive : ∀ x ∈ w.lastOutput.atts, x ∈ (l.objects p).output.atts ∨ x ∈ w.removeWhenApplied ∨ ∃ z, (x, z) ∈ w.keyAliases
  keys : ∀ x, k.IsKey x → x ∈ (l.objects p).output.atts
  records : k.leftAtt ∈ w.removeWhenApplied ∧ k.rightAtt ∈ w.removeWhenApplied
  lost : ∀ x ∈ w.removeWhenApplied, Lost l₀ joinComp x
  aliases : ∀ q ∈ w.keyAliases, KeyColumn l₀ joinComp q.1 ∧ k.IsKey q.2
  used : w.lastUsedComputation = none ∧ p = joinComp ∨ w.lastUsedComputation = some p

structure BehindJoin (waiting : ℕ → Text → Prop) (l₀ : AtomicComputationList) (joinComp : ℕ) (k : Keys) (t : Text)
    (c : ℕ) : Prop where
  walk : JoinWalk l₀ joinComp t c
  producer : l₀.producers (l₀.outputName c) = some c
  through : Through t (l₀.objects c)
  input : ∀ x ∈ (l₀.objects c).input.atts, Found l₀ t x
  projection : ∀ x ∈ (l₀.objects c).projection.atts, Found l₀ t x
  once : ∀ x, KeyColumn l₀ joinComp x → Once x (l₀.objects c)
  column : Extracting (l₀.objects c) → ∀ x ∈ generates (l₀.objects c), ∀ y ∈ generates (l₀.objects c), x = y
  waits : ∀ x, Lost l₀ joinComp x → x ≠ k.leftAtt → x ≠ k.rightAtt → waiting c x

variable {w w' : JoinKeyWalk}

theorem not_mem_of_independent {c : AtomicComputation} (h : isDependentOnInput w c = false) (hx : x ∈ c.input.atts) :
    x ∉ w.removeWhenApplied := by
  unfold isDependentOnInput at h
  rw [List.any_eq_false] at h
  simpa using h x hx

theorem JoinState.keep (h : JoinState rank generated waiting l₀ joinComp k t p cur w l)
    (hb : BehindJoin waiting l₀ joinComp k t cur) (hno : isDependentOnInput w (l.objects cur) = false)
    (hn : l.consumers (l.outputName cur) = [next]) :
    JoinState rank generated waiting l₀ joinComp k (l₀.outputName cur) cur next
      { w with lastUsedComputation := some cur, lastOutput := (l.objects cur).output }
      (l.modify cur (useKeys k w.keyAliases)) := by
  have hrenamed := h.front.renamed
  have hobj : (l.modify cur (useKeys k w.keyAliases)).objects cur = useKeys k w.keyAliases (l.objects cur) :=
    Function.update_self _ _ _
  have hkeys : ∀ q ∈ w.keyAliases, k.IsKey q.2 := fun q hq => (h.aliases q hq).2
  have honce : ∀ q ∈ w.keyAliases, Once q.1 (l.objects cur) :=
    fun q hq => (hb.once q.1 (h.aliases q hq).1).renamed hrenamed
  have hedit := leftEdit_useKeys k w.keyAliases
  refine { flow := ?_, front := ?_, sole := ?_, last := ?_, alive := ?_, keys := ?_, records := h.records,
           lost := h.lost, aliases := h.aliases, used := .inr rfl }
  · refine h.flow.keep_left hedit h.front (h.front.through hb.through) ?_ ?_ ?_ hn
    · exact ownOutput_useKeys (h.flow.own cur (h.front.produced h.flow.toLinked)) hkeys fun q hq => (honce q hq).output
    · intro x hx
      obtain hk | ⟨hx, hno'⟩ := of_mem_replaceAliases hkeys (fun q hq => .inr (honce q hq).input) hx
      · exact .inl (h.keys x hk)
      · have hfound := hb.input x (hrenamed.inputAtts ▸ hx)
        obtain hx' | hx' | ⟨z, hz⟩ := h.alive x (h.last x hfound)
        · exact .inl hx'
        · exact absurd hx' (not_mem_of_independent hno hx)
        · exact absurd rfl (hno' _ hz)
    · intro x hx
      obtain hk | ⟨hx, hkept⟩ := of_mem_keepKeys hkeys (fun q hq => (honce q hq).projection) hx
      · exact .inl (h.keys x hk)
      · have hfound := hb.projection x (hrenamed.projectionAtts ▸ hx)
        obtain hx' | hx' | ⟨z, hz⟩ := h.alive x (h.last x hfound)
        · exact .inl hx'
        · exact .inr (hb.waits x (h.lost x hx') hkept.left hkept.right)
        · exact absurd rfl (hkept.noAlias _ hz)
  · exact h.front.keep h.flow.toLinked (hedit.sameTables l cur) hn
  · rw [(hedit.sameTables l cur).output, (hedit.sameTables l cur).consumers]
    exact hn
  · rintro x ⟨q, hq, hx⟩
    rw [hb.producer] at hq
    cases hq
    rw [hrenamed.output]
    exact hx
  · intro x hx
    rw [hobj]
    by_cases hleft : x = k.leftAtt
    · exact .inr (.inl (hleft ▸ h.records.1))
    by_cases hright : x = k.rightAtt
    · exact .inr (.inl (hright ▸ h.records.2))
    by_cases halias : ∃ z, (x, z) ∈ w.keyAliases
    · exact .inr (.inr halias)
    · left
      have hkept : Kept k w.keyAliases x := by
        refine ⟨hleft, hright, ?_⟩
        rintro q hq rfl
        exact halias ⟨q.2, hq⟩
      exact hkept.mem_keepKeys hx
  · intro x hx
    rw [hobj]
    exact mem_keepKeys.mpr (.inr hx)

theorem noteRemoved_spec {c : AtomicComputation} (h : noteRemoved k c w = .ok w') :
    w'.lastUsedComputation = w.lastUsedComputation ∧
    (Extracting c ∧ w'.removeWhenApplied = w.removeWhenApplied ∧ (∃ z a, k.IsKey z ∧
        (complement c.output w.lastOutput).atts.head? = some a ∧
        w'.keyAliases = insertPair a z w.keyAliases) ∨
      ¬ Extracting c ∧ w'.keyAliases = w.keyAliases ∧ w'.removeWhenApplied =
        w.removeWhenApplied ++ (complement c.output w.lastOutput).atts) := by
  unfold noteRemoved at h
  dsimp only at h
  split_ifs at h with hkey hleft hright
  · split at h
    · cases h
    · cases h
    · next key column columns hsome hcolumns =>
      cases h
      cases hsome
      exact ⟨rfl, .inl ⟨hkey, rfl, k.leftKey, column, .inl rfl, by rw [hcolumns]; rfl, rfl⟩⟩
  · split at h
    · cases h
    · cases h
    · next key column columns hsome hcolumns =>
      cases h
      cases hsome
      exact ⟨rfl, .inl ⟨hkey, rfl, k.rightKey, column, .inr rfl, by rw [hcolumns]; rfl, rfl⟩⟩
  · cases h
    exact ⟨rfl, .inr ⟨hkey, rfl, rfl⟩⟩

theorem JoinState.drop (h : JoinState rank generated waiting l₀ joinComp k t p cur w l)
    (hb : BehindJoin waiting l₀ joinComp k t cur) (hdep : isDependentOnInput w (l.objects cur) = true)
    (hnote : noteRemoved k (l.objects cur) w = .ok w') (hone : (l.objects cur).hasTwoInputs = false)
    (hu : Unlinked l l' cur) (hn : l.consumers (l.outputName cur) = [next]) :
    JoinState rank generated waiting l₀ joinComp k (l₀.outputName cur) p next
      { w' with lastOutput := (l.objects cur).output } l' := by
  have hrenamed := h.front.renamed
  have ht := h.front.through hb.through
  have hlinked := h.flow.toLinked
  have houtput : (l'.objects p).output = (l.objects p).output := (hu.renamed p).output
  obtain ⟨hused, hnote⟩ := noteRemoved_spec hnote
  have hprojected : ∀ x ∈ (l.objects cur).projection.atts, x ∈ w.lastOutput.atts := by
    intro x hx
    exact h.last x (hb.projection x (hrenamed.projectionAtts ▸ hx))
  have hextracting : Extracting (l.objects cur) ↔ Extracting (l₀.objects cur) := by
    unfold Extracting AtomicComputation.isExtractingKey
    rw [hrenamed.isApplyLambda, hrenamed.keyValuePairs]
  have hgenerates : generates (l.objects cur) = generates (l₀.objects cur) := by
    unfold generates complement
    rw [hrenamed.output, hrenamed.projectionAtts]
  have hgenerated : ∀ x ∈ (complement (l.objects cur).output w.lastOutput).atts,
      x ∈ generates (l₀.objects cur) := by
    intro x hx
    rw [← hgenerates]
    simp only [generates, complement, List.mem_filter, decide_eq_true_eq] at hx ⊢
    exact ⟨hx.1, fun hp => hx.2 (hprojected x hp)⟩
  obtain ⟨a, ha, halost⟩ : ∃ a ∈ (l₀.objects cur).input.atts, Lost l₀ joinComp a := by
    unfold isDependentOnInput at hdep
    obtain ⟨a, ha, hlost⟩ := List.any_eq_true.mp hdep
    exact ⟨a, hrenamed.inputAtts ▸ ha, h.lost a (by simpa using hlost)⟩
  have hkeep : ∀ x ∈ w.removeWhenApplied, x ∈ w'.removeWhenApplied := by
    intro x hx
    obtain ⟨-, he, -⟩ | ⟨-, -, he⟩ := hnote
    · exact he ▸ hx
    · rw [he]
      exact List.mem_append_left _ hx
  have halias : ∀ x, (∃ z, (x, z) ∈ w.keyAliases) → ∃ z, (x, z) ∈ w'.keyAliases := by
    intro x hx
    obtain ⟨-, -, z, b, -, -, he⟩ | ⟨-, he, -⟩ := hnote
    · rw [he]
      exact exists_mem_insertPair b z hx
    · rw [he]
      exact hx
  have hcur := h.front.produced hlinked
  have hnext : next ≠ cur := by
    rintro rfl
    exact hlinked.ne hcur hcur ((hlinked.mem_consumers hcur).mp (hn ▸ List.mem_singleton_self _)).2 rfl
  refine { flow := ?_, front := ?_, sole := ?_, last := ?_, alive := ?_, keys := ?_, records := ?_, lost := ?_,
           aliases := ?_, used := ?_ }
  · exact h.flow.drop h.front hone ht hu hn
  · apply h.front.drop hlinked hone ht hu hn
    rw [h.sole, List.mem_singleton]
    exact hnext
  · have hne : l.outputName p ≠ l.outputName cur := by
      intro he
      exact h.front.ne hlinked (hlinked.tables.eq_of_outputName h.front.producer hcur he)
    rw [hu.outputName, hu.consumers _ hne, if_pos ht.input.symm, h.sole, hn]
    simp
  · rintro x ⟨q, hq, hx⟩
    rw [hb.producer] at hq
    cases hq
    rw [hrenamed.output]
    exact hx
  · intro x hx
    rw [houtput]
    by_cases hlast : x ∈ w.lastOutput.atts
    · obtain hx | hx | hx := h.alive x hlast
      · exact .inl hx
      · exact .inr (.inl (hkeep x hx))
      · exact .inr (.inr (halias x hx))
    · -- the computation generates it
      have hm : x ∈ (complement (l.objects cur).output w.lastOutput).atts := by
        simp [complement, hx, hlast]
      obtain ⟨hkey, -, z, b, -, hb', he⟩ | ⟨-, -, he⟩ := hnote
      · have hbm := List.mem_of_mem_head? (Option.mem_def.mpr hb')
        have hxb := hb.column (hextracting.mp hkey) x (hgenerated x hm) b (hgenerated b hbm)
        rw [hxb, he]
        exact .inr (.inr ⟨z, mem_insertPair_self b z _⟩)
      · rw [he]
        exact .inr (.inl (List.mem_append_right _ hm))
  · intro x hx
    rw [houtput]
    exact h.keys x hx
  · exact ⟨hkeep _ h.records.1, hkeep _ h.records.2⟩
  · intro x hx
    obtain ⟨-, he, -⟩ | ⟨hno, -, he⟩ := hnote
    · exact h.lost x (he ▸ hx)
    · change x ∈ w'.removeWhenApplied at hx
      rw [he] at hx
      obtain hx | hx := List.mem_append.mp hx
      · exact h.lost x hx
      · exact .column hb.walk ha halost (fun hkey => hno (hextracting.mpr hkey)) (hgenerated x hx)
  · intro q hq
    obtain ⟨hkey, -, z, b, hz, hb', he⟩ | ⟨-, he, -⟩ := hnote
    · change q ∈ w'.keyAliases at hq
      rw [he] at hq
      obtain rfl | hq := mem_insertPair hq
      · have hbm := List.mem_of_mem_head? (Option.mem_def.mpr hb')
        exact ⟨⟨t, cur, a, hb.walk, ha, halost, hextracting.mp hkey, hgenerated b hbm⟩, hz⟩
      · exact h.aliases q hq
    · exact h.aliases q (he ▸ hq)
  · change w'.lastUsedComputation = none ∧ p = joinComp ∨ w'.lastUsedComputation = some p
    rw [hused]
    exact h.used

theorem JoinState.visit (h : JoinState rank generated waiting l₀ joinComp k t p cur w l)
    (hb : BehindJoin waiting l₀ joinComp k t cur) (he : joinKeyVisit k cur w l = .ok (w', l'))
    (hn : l'.consumers (l'.outputName cur) = [next]) :
    l₀.consumers (l₀.outputName cur) = [next] ∧
      ∃ q, JoinState rank generated waiting l₀ joinComp k (l₀.outputName cur) q next w' l' := by
  have hlinked := h.flow.toLinked
  have hcur := h.front.produced hlinked
  unfold joinKeyVisit at he
  dsimp only at he
  split_ifs at he with hdep
  · obtain ⟨w₁, hnote, he⟩ := bind_eq_ok.mp he
    obtain ⟨l₁, hremove, he⟩ := bind_eq_ok.mp he
    cases he
    obtain ⟨htwo, hcons, hout⟩ := removeAndRelink_eq_ok (hlinked.tables.produced hcur) (hlinked.input_ne hcur) hremove
    rw [hout] at hn
    replace hn := hcons.symm.trans hn
    have hone : (l.objects cur).hasTwoInputs = false := by
      apply htwo.resolve_right
      intro hnone
      cases hnone.symm.trans hn
    have hu := hlinked.removeAndRelink hcur hone hremove
    refine ⟨?_, p, h.drop hb hdep hnote hone hu hn⟩
    rw [← h.front.consumers_output]
    exact hn
  · cases he
    have hs := (leftEdit_useKeys k w.keyAliases).sameTables l cur
    rw [hs.output, hs.consumers] at hn
    refine ⟨?_, cur, h.keep hb (by simpa using hdep) hn⟩
    rw [← h.front.consumers_output]
    exact hn

theorem JoinState.joinKeyLoop {fuel : ℕ}
    (hbehind : ∀ n c, JoinWalk l₀ joinComp n c → BehindJoin waiting l₀ joinComp k n c)
    (h : JoinState rank generated waiting l₀ joinComp k t p cur w l) (hcur : JoinWalk l₀ joinComp t cur)
    (he : joinKeyLoop k (l₀.objects joinComp).computationName fuel cur w l = .ok (w', l')) :
    ∃ n c q d, JoinWalk l₀ joinComp n c ∧ l₀.consumers (l₀.outputName c) = [d] ∧
      (l₀.objects d).computationName ≠ (l₀.objects joinComp).computationName ∧
      JoinState rank generated waiting l₀ joinComp k (l₀.outputName c) q d w' l' := by
  induction fuel generalizing t p cur w l with
  | zero => cases he
  | succ fuel ih =>
    rw [PlanTransformer.joinKeyLoop] at he
    obtain ⟨⟨w₁, l₁⟩, hvisit, he⟩ := bind_eq_ok.mp he
    dsimp only at he
    split at he
    · next next hn =>
      obtain ⟨hn₀, q, hq⟩ := h.visit (hbehind t cur hcur) hvisit hn
      have hname : (l₁.objects next).computationName = (l₀.objects next).computationName :=
        hq.front.renamed.computationName
      rw [hname] at he
      split_ifs at he with hsame
      · exact ih hq (hcur.next hn₀ hsame) he
      · cases he
        exact ⟨t, cur, q, next, hcur, hn₀, hsame, hq⟩
    · cases he

end Walking

section JoinKeyFlow

def compared (c : AtomicComputation) : List Text := c.input.atts ++ (c.getRightInput.map TupleSpec.atts).getD []

def joinWaiting (waiting : ℕ → Text → Prop) (l : AtomicComputationList) (t : Text) (d : ℕ) (x : Text) : Prop :=
  waiting d x ∧ (l.producers t = some d → x ∈ compared (l.objects d)) ∨ JoinLeaves l t d x

theorem Walk.produced {goes : ℕ → ℕ → Prop} {n : Text} (h : Linked rank l) (hp : Produced l p)
    (hw : Walk l goes (l.outputName p) n c) : Produced l c := by
  induction hw with
  | first hc => exact ((h.mem_consumers hp).mp (hc ▸ List.mem_singleton_self _)).1
  | next _ hd _ ih => exact ((h.mem_consumers ih).mp (hd ▸ List.mem_singleton_self _)).1

theorem sideOf_found {input projection : TupleSpec} {key att : Text} (h : sideOf l input projection = .ok (key, att)) :
    Found l input.setName key ∧ projection.atts = [att] := by
  refine ⟨?_, sideOf_eq_ok h⟩
  unfold sideOf at h
  split at h
  · cases h
  · next inputComp hinput =>
    split at h
    · next key' att' hkey _ =>
      cases h
      have hm : key ∈ (complement (l.objects inputComp).output input).atts := by simp [hkey]
      exact ⟨inputComp, hinput, (List.mem_filter.mp hm).1⟩
    · cases h

structure Keyed (l : AtomicComputationList) (k : Keys) (y : AtomicComputation) (r q : TupleSpec) : Prop where
  kind : y.kind = .applyJoin r q
  left : y.projection.atts = [k.leftAtt]
  right : q.atts = [k.rightAtt]
  leftKey : Found l y.input.setName k.leftKey
  rightKey : Found l r.setName k.rightKey

theorem keyed_of_keysOf {y : AtomicComputation} (h : keysOf l y = .ok k) : ∃ r q, Keyed l k y r q := by
  unfold keysOf at h
  split at h
  · next r q hk =>
    obtain ⟨⟨leftKey, leftAtt⟩, hleft, h⟩ := bind_eq_ok.mp h
    obtain ⟨⟨rightKey, rightAtt⟩, hright, h⟩ := bind_eq_ok.mp h
    cases h
    obtain ⟨hlf, hla⟩ := sideOf_found hleft
    obtain ⟨hrf, hra⟩ := sideOf_found hright
    exact ⟨r, q, hk, hla, hra, hlf, hrf⟩
  · cases h

section Keyed

variable {z : AtomicComputation} {r q : TupleSpec}

theorem Keyed.joinOnKeys_projection (h : Keyed l k z r q) : (joinOnKeys k z).projection.atts = [k.leftKey] := by
  simp [joinOnKeys, insertAtt, removeAtt, h.left]

theorem Keyed.joinOnKeys_kind (h : Keyed l k z r q) : (joinOnKeys k z).kind =
    .applyJoin r ⟨q.setName, [k.rightKey]⟩ := by
  simp [joinOnKeys, h.kind, insertAtt, removeAtt, h.right]

theorem Keyed.mem_output (h : Keyed l k z r q) : x ∈ (joinOnKeys k z).output.atts ↔
    x ∈ z.output.atts ∧ x ∉ joined z ∨ k.IsKey x := by
  have hjoined : joined z = [k.leftAtt, k.rightAtt] := by
    simp [joined, AtomicComputation.getRightProjection, h.kind, h.left, h.right]
  rw [hjoined]
  simp only [joinOnKeys, insertAtt, removeAtt, List.mem_append, List.mem_filter, List.mem_cons,
    List.not_mem_nil, or_false, not_or, ne_eq, decide_not, Bool.not_eq_true', decide_eq_false_iff_not,
    Keys.IsKey, or_assoc, and_assoc]

theorem Keyed.joined_joinOnKeys (h : Keyed l k z r q) : joined (joinOnKeys k z) = [k.leftKey, k.rightKey] := by
  unfold joined AtomicComputation.getRightProjection
  rw [h.joinOnKeys_projection, h.joinOnKeys_kind]
  rfl

theorem Keyed.sameSets (h : Keyed l k z r q) (hz : SameSets z) :
    z.projection.setName = z.input.setName ∧ q.setName = r.setName := by
  constructor
  · obtain he | ⟨-, he⟩ := hz.left
    · exact he
    · rw [h.left] at he
      cases he
  · have hr := hz.right
    unfold AtomicComputation.getRightInput AtomicComputation.getRightProjection at hr
    rw [h.kind] at hr
    simpa using hr

theorem Keyed.specs_joinOnKeys (h : Keyed l k z r q) (hz : SameSets z) {s : TupleSpec}
    (hs : s ∈ specs (joinOnKeys k z)) (hx : x ∈ s.atts) :
    Found l s.setName x ∨ s ∈ specs z ∧ x ∈ compared z := by
  obtain ⟨hleft, hright⟩ := h.sameSets hz
  have hri : z.getRightInput = some r := by
    simp [AtomicComputation.getRightInput, h.kind]
  unfold specs AtomicComputation.getRightInput AtomicComputation.getRightProjection at hs
  rw [h.joinOnKeys_kind] at hs
  simp only [List.mem_append, List.mem_cons, List.not_mem_nil, or_false, Option.mem_toList, Option.some.injEq] at hs
  obtain (rfl | rfl) | rfl | rfl := hs
  · right
    refine ⟨?_, ?_⟩
    · change z.input ∈ specs z
      simp [specs]
    · exact List.mem_append_left _ hx
  · left
    rw [h.joinOnKeys_projection, List.mem_singleton] at hx
    change Found l z.projection.setName x
    rw [hx, hleft]
    exact h.leftKey
  · right
    refine ⟨by simp [specs, hri], ?_⟩
    unfold compared
    rw [hri]
    exact List.mem_append_right _ hx
  · left
    rw [List.mem_singleton] at hx
    change Found l q.setName x
    rw [hx, hright]
    exact h.rightKey

end Keyed

theorem sameTables_joinOnKeys (k : Keys) (l : AtomicComputationList) (c : ℕ) :
    SameTables l (l.modify c (joinOnKeys k)) := by
  apply sameTables_modify
  · intro z
    rfl
  · exact inputNames_joinOnKeys k
  · exact role_joinOnKeys k

theorem Flow.onKeys (h : Flow rank generated (fun c _ x => waiting c x) l)
    (hj : l.producers t = some joinComp) (hk : keysOf l (l.objects joinComp) = .ok k)
    (hn : l.consumers (l.outputName joinComp) = [cur]) :
    Flow rank generated (pending (joinWaiting waiting l t) (l.modify joinComp (joinOnKeys k)) joinComp cur
      (· ∈ (l.objects joinComp).output.atts)) (l.modify joinComp (joinOnKeys k)) := by
  have hp : Produced l joinComp := ⟨t, hj⟩
  have hs := sameTables_joinOnKeys k l joinComp
  obtain ⟨r, q, hkeyed⟩ := keyed_of_keysOf hk
  have hsets := h.sameSets joinComp hp
  obtain ⟨hleft, hright⟩ := hkeyed.sameSets hsets
  apply h.modify hp hs
  · constructor
    · exact .inl hleft
    · unfold AtomicComputation.getRightInput AtomicComputation.getRightProjection
      rw [hkeyed.joinOnKeys_kind]
      exact congrArg some hright
  · intro hr x hx
    rw [hkeyed.joined_joinOnKeys]
    obtain ⟨hx, hno⟩ | hx := hkeyed.mem_output.mp hx
    · have hown := h.own joinComp hp (by rw [← role_joinOnKeys k]; exact hr) x hx
      exact .inr (hown.resolve_left hno)
    · obtain rfl | rfl := hx
      · simp
      · simp
  · intro s hsp x hx
    obtain hf | ⟨hsp, hm⟩ := hkeyed.specs_joinOnKeys hsets hsp hx
    · exact .inl hf
    · obtain hf | hw := h.supplied joinComp hp s hsp x hx
      · exact .inl hf
      · exact .inr (.inl (.inl ⟨hw, fun _ => hm⟩))
  · intro c hc _ n _ x hx
    refine .inl (.inl ⟨hx, ?_⟩)
    intro hjc
    cases hj.symm.trans hjc
    exact absurd rfl hc
  · intro c _ hc hr x hx
    exact .inr (.inr ⟨h.eq_of_sole hp hn hc hr, (hs.output joinComp).symm, hx⟩)

theorem JoinRegular.behindJoin (hreg : JoinRegular waiting l t)
    (h : Flow rank generated (fun c _ x => waiting c x) l) (hj : l.producers t = some joinComp)
    (hk : joined (l.objects joinComp) = [k.leftAtt, k.rightAtt]) {n : Text} (hw : JoinWalk l joinComp n c) :
    BehindJoin (joinWaiting waiting l t) l joinComp k n c := by
  obtain ⟨hstraight, honce, hcolumn⟩ := hreg joinComp hj n c hw
  have hc := hw.produced h.toLinked ⟨t, hj⟩
  refine ⟨hw, h.tables.produced hc, hstraight.toThrough, ?_, ?_, honce, hcolumn, ?_⟩
  · intro x hx
    exact hstraight.found_input h hc hx
  · intro x hx
    exact hstraight.found_projection h hc hx
  · intro x hx hleft hright
    refine .inr ⟨joinComp, hj, .inl ⟨⟨n, hw⟩, hx, ?_⟩⟩
    rw [hk]
    simp [hleft, hright]

theorem leftEdit_removeKeys (k : Keys) : LeftEdit fun c =>
    { c with output := removeKeys k c.output, projection := removeKeys k c.projection } :=
  ⟨fun _ => rfl, fun _ => rfl, fun _ => rfl, fun _ => rfl⟩

theorem mem_removeKeys {s : TupleSpec} : x ∈ (removeKeys k s).atts ↔ x ∈ s.atts ∧ ¬ k.IsKey x := by
  simp only [removeKeys, removeAtt, List.mem_filter, ne_eq, decide_not, Bool.not_eq_true',
    decide_eq_false_iff_not, Keys.IsKey, not_or, and_assoc]

theorem Flow.removeKeys (h : Flow rank generated (fun c _ x => waiting c x) l) (hp : Produced l p)
    (hread : ∀ c, Produced l c → l.outputName p ∈ names l c → ∀ x, k.IsKey x → waiting c x) :
    Flow rank generated (fun c _ x => waiting c x) (l.modify p fun c =>
      { c with output := removeKeys k c.output, projection := removeKeys k c.projection }) := by
  have hedit := leftEdit_removeKeys k
  apply h.modify hp (hedit.sameTables l p)
  · exact ⟨(h.sameSets p hp).left.imp_right fun ⟨htwo, he⟩ => ⟨htwo, by simp [PlanTransformer.removeKeys,
      removeAtt, he]⟩, (h.sameSets p hp).right⟩
  · intro hr x hx
    obtain ⟨hx, hno⟩ := mem_removeKeys.mp hx
    obtain hx | hx := h.own p hp hr x hx
    · obtain hx | hx := List.mem_append.mp hx
      · exact .inl (List.mem_append_left _ (mem_removeKeys.mpr ⟨hx, hno⟩))
      · exact .inl (List.mem_append_right _ hx)
    · exact .inr hx
  · intro s hs x hx
    simp only [specs, List.mem_append, List.mem_cons, List.not_mem_nil, or_false] at hs
    obtain (rfl | rfl) | hs := hs
    · exact h.supplied p hp (l.objects p).input (by simp [specs]) x hx
    · exact h.supplied p hp (l.objects p).projection (by simp [specs]) x (mem_removeKeys.mp hx).1
    · exact h.supplied p hp s (List.mem_append_right _ (List.mem_append.mpr hs)) x hx
  · intro c _ _ n _ x hx
    exact hx
  · intro c _ hc hm x hx
    by_cases hkey : k.IsKey x
    · exact .inr (hread c hc hm x hkey)
    · exact .inl (mem_removeKeys.mpr ⟨hx, hkey⟩)

theorem Flow.joinKey {fuel : ℕ} (h : Flow rank generated (fun c _ x => waiting c x) l)
    (hreg : JoinRegular waiting l t) (he : joinKey fuel t l = .ok l') :
    Flow rank generated (fun d _ x => joinWaiting waiting l t d x) l' := by
  unfold PlanTransformer.joinKey at he
  split at he
  · cases he
  · next joinComp hj =>
    dsimp only at he
    obtain ⟨k, hk, he⟩ := bind_eq_ok.mp he
    have hp : Produced l joinComp := ⟨t, hj⟩
    have hs := sameTables_joinOnKeys k l joinComp
    have hobj : (l.modify joinComp (joinOnKeys k)).objects joinComp = joinOnKeys k (l.objects joinComp) :=
      Function.update_self _ _ _
    obtain ⟨r, q, hkeyed⟩ := keyed_of_keysOf hk
    have hjoined := keysOf_eq_ok hk
    split at he
    · next cur hcons =>
      obtain ⟨⟨w, l₁⟩, hloop, he⟩ := bind_eq_ok.mp he
      rw [hs.output, hs.consumers] at hcons
      have hname : ((l.modify joinComp (joinOnKeys k)).objects joinComp).computationName =
          (l.objects joinComp).computationName := by
        rw [hobj]
        rfl
      rw [hname] at hloop
      have hbehind : ∀ n c, JoinWalk l joinComp n c → BehindJoin (joinWaiting waiting l t) l joinComp k n c :=
        fun n c hw => hreg.behindJoin h hj hjoined hw
      have hstate : JoinState rank generated (joinWaiting waiting l t) l joinComp k (l.outputName joinComp) joinComp cur
          ⟨(l.objects joinComp).output, [k.leftAtt, k.rightAtt], [], none⟩ (l.modify joinComp (joinOnKeys k)) := by
        refine { flow := h.onKeys hj hk hcons, front := .start h.toLinked hs hp hcons, sole := ?_, last := ?_,
                 alive := ?_, keys := ?_, records := by simp, lost := ?_, aliases := by simp, used := .inl ⟨rfl, rfl⟩ }
        · rw [hs.output]
          exact hcons
        · rintro x ⟨q, hq, hx⟩
          rw [h.tables.produced hp] at hq
          cases hq
          exact hx
        · intro x hx
          rw [hobj, hkeyed.mem_output, hjoined]
          by_cases hrec : x ∈ [k.leftAtt, k.rightAtt]
          · exact .inr (.inl hrec)
          · exact .inl (.inl ⟨hx, hrec⟩)
        · intro x hx
          rw [hobj, hkeyed.mem_output]
          exact .inr hx
        · intro x hx
          exact .record (hjoined ▸ hx)
      obtain ⟨n, c, p, d, hw, hd, hne, hend⟩ := hstate.joinKeyLoop hbehind (.first hcons) hloop
      have hleaves : ∀ x, Lost l joinComp x ∨ KeyColumn l joinComp x ∨ k.IsKey x → joinWaiting waiting l t d x := by
        intro x hx
        refine .inr ⟨joinComp, hj, .inr ⟨⟨n, c, hw, hd, hne⟩, ?_⟩⟩
        exact hx.imp_right (Or.imp_right fun hx => ⟨k, hk, hx⟩)
      have hflow : Flow rank generated (fun d _ x => joinWaiting waiting l t d x) l₁ := by
        apply hend.flow.exit hend.front
        · intro c x hx
          exact hx
        · intro x hx
          obtain hx | hx | ⟨z, hz⟩ := hend.alive x hx
          · exact .inl hx
          · exact .inr (hleaves x (.inl (hend.lost x hx)))
          · exact .inr (hleaves x (.inr (.inl (hend.aliases _ hz).1)))
      dsimp only at he
      split at he
      · cases he
        exact hflow
      · next lastUsed hused =>
        cases he
        obtain ⟨hnone, -⟩ | hsome := hend.used
        · cases hnone.symm.trans hused
        · cases hsome.symm.trans hused
          apply hflow.removeKeys hend.front.producer
          intro e hep hread x hx
          rw [hflow.eq_of_sole hend.front.producer hend.sole hep hread]
          exact hleaves x (.inr (.inr hx))
    · cases he

end JoinKeyFlow

end PlinyCompute.PlanTransformer
