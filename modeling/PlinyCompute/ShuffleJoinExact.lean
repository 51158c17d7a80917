import PlinyCompute.ShuffleJoinRows

namespace PlinyCompute.ShuffleJoin

open KWayMerge PdbJoinMap SizePolicy Transition
open RHSShuffleJoinSource (ofPages)

variable {V L R : Type}

section Fill

structure Describes (t : RHSTupleSet R) (block : List (Group R)) : Prop where
  output : t.output = block.flatMap Prod.snd
  hashColumn : t.hashColumn = block.flatMap fun g => g.2.map fun _ => g.1
  counts : t.counts = block.map fun g => (g.1, g.2.length)
  live : ∀ g ∈ block, g.2 ≠ []
  ascending : block.Pairwise fun g g' => g.1 < g'.1

theorem describes_empty : Describes (RHSTupleSet.empty : RHSTupleSet R) [] := by
  constructor <;> simp [RHSTupleSet.empty]

theorem Describes.add_new {t : RHSTupleSet R} {block : List (Group R)} (h : Describes t block) {g : Group R}
    (hg : g.2 ≠ []) (hlt : ∀ b ∈ block, b.1 < g.1) : Describes (t.add g) (block ++ [g]) := by
  have hcounts : addCount t.counts g.1 g.2.length = t.counts ++ [(g.1, g.2.length)] := by
    rw [addCount]
    cases hlast : t.counts.getLast? with
    | none => rfl
    | some last =>
      have hin : last ∈ t.counts := List.mem_of_getLast? hlast
      rw [h.counts] at hin
      obtain ⟨b, hb, rfl⟩ := List.mem_map.mp hin
      simp [(hlt b hb).ne]
  constructor
  · simp [RHSTupleSet.add, h.output]
  · simp [RHSTupleSet.add, h.hashColumn]
  · rw [RHSTupleSet.add, hcounts, h.counts, List.map_append]
    rfl
  · intro b hb
    obtain hb | hb := List.mem_append.mp hb
    · exact h.live b hb
    · rw [List.mem_singleton.mp hb]
      exact hg
  · apply List.pairwise_append.mpr
    refine ⟨h.ascending, List.pairwise_singleton _ _, ?_⟩
    intro b hb b' hb'
    rw [List.mem_singleton.mp hb']
    exact hlt b hb

theorem Describes.add_same {t : RHSTupleSet R} {block : List (Group R)} {records records' : List R} {hash : ℕ}
    (h : Describes t (block ++ [(hash, records)])) :
    Describes (t.add (hash, records')) (block ++ [(hash, records ++ records')]) := by
  have hcounts : addCount t.counts hash records'.length =
      block.map (fun g => (g.1, g.2.length)) ++ [(hash, records.length + records'.length)] := by
    simp [addCount, h.counts]
  have hpair := List.pairwise_append.mp h.ascending
  constructor
  · simp [RHSTupleSet.add, h.output]
  · simp [RHSTupleSet.add, h.hashColumn]
  · simp [RHSTupleSet.add, hcounts]
  · intro b hb
    obtain hb | hb := List.mem_append.mp hb
    · exact h.live b (List.mem_append_left _ hb)
    · have hlive := h.live (hash, records) (by simp)
      rw [List.mem_singleton.mp hb]
      simp_all
  · apply List.pairwise_append.mpr
    refine ⟨hpair.1, List.pairwise_singleton _ _, ?_⟩
    intro b hb b' hb'
    rw [List.mem_singleton.mp hb']
    exact hpair.2.2 b hb (hash, records) (by simp)

theorem Describes.add {t : RHSTupleSet R} {block : List (Group R)} (h : Describes t block) {g : Group R}
    (hg : g.2 ≠ []) (hle : ∀ b ∈ block, b.1 ≤ g.1) :
    ∃ block', Describes (t.add g) block' ∧ expand block' = expand block + expand [g] ∧ block' ≠ [] ∧
      ∀ b ∈ block', b.1 ≤ g.1 := by
  have hnew (hlt : ∀ b ∈ block, b.1 < g.1) : ∃ block', Describes (t.add g) block' ∧
      expand block' = expand block + expand [g] ∧ block' ≠ [] ∧ ∀ b ∈ block', b.1 ≤ g.1 := by
    refine ⟨_, h.add_new hg hlt, expand_append _ _, by simp, ?_⟩
    intro b hb
    obtain hb | hb := List.mem_append.mp hb
    · exact hle b hb
    · rw [List.mem_singleton.mp hb]
  obtain rfl | ⟨init, last, rfl⟩ := List.eq_nil_or_concat block
  · exact hnew (by simp)
  · obtain ⟨hash, records⟩ := last
    obtain ⟨hash', records'⟩ := g
    rw [List.concat_eq_append] at *
    have hpair := List.pairwise_append.mp h.ascending
    by_cases heq : hash = hash'
    · subst heq
      refine ⟨_, h.add_same, ?_, by simp, ?_⟩
      · simp [expand]
      · intro b hb
        obtain hb | hb := List.mem_append.mp hb
        · exact hle b (List.mem_append_left _ hb)
        · rw [List.mem_singleton.mp hb]
    · apply hnew
      intro b hb
      have hlast := hle (hash, records) (by simp)
      obtain hb | hb := List.mem_append.mp hb
      · have hlt := hpair.2.2 b hb (hash, records) (by simp)
        dsimp only at hlt hlast ⊢
        omega
      · rw [List.mem_singleton.mp hb]
        dsimp only at hlast ⊢
        omega

theorem isFull_spec (q : Queue R) (chunkSize hash : ℕ) (t : RHSTupleSet R)
    {pageIterators : List (JoinMapIterator R)} (h : Sorted pageIterators)
    (hle : ∀ g ∈ pageIterators.flatten, hash ≤ g.1) :
    RHSShuffleJoinSource.isFull q chunkSize hash t pageIterators = .ok false ∨
      RHSShuffleJoinSource.isFull q chunkSize hash t pageIterators = .ok true ∧
        ∀ g ∈ pageIterators.flatten, hash < g.1 := by
  rw [RHSShuffleJoinSource.isFull]
  split_ifs with hstop
  · exact Or.inl rfl
  · have hne : pageIterators ≠ [] := fun hn => hstop (Or.inl hn)
    obtain ⟨a, next, -, htop, -, hperm, hleast⟩ := advance_spec q h hne
    have hin := hle a (hperm.mem_iff.mpr List.mem_cons_self)
    rw [htop]
    by_cases ha : a.1 = hash
    · exact Or.inl (by simp [Except.map, ha])
    · refine Or.inr ⟨by simp [Except.map, ha], ?_⟩
      intro g hg
      have := hleast g hg
      omega

theorem fill_spec (q : Queue R) (chunkSize : ℕ) {rounds : ℕ} {t : RHSTupleSet R} {block : List (Group R)}
    {pageIterators : List (JoinMapIterator R)} (ht : Describes t block) (h : Sorted pageIterators)
    (hlive : ∀ g ∈ pageIterators.flatten, g.2 ≠ []) (hle : ∀ b ∈ block, ∀ g ∈ pageIterators.flatten, b.1 ≤ g.1)
    (hr : pageIterators.flatten.length ≤ rounds) :
    ∃ t' block' next, RHSShuffleJoinSource.fill q chunkSize rounds t pageIterators = .ok (t', next) ∧
      Describes t' block' ∧ Sorted next ∧ next.flatten ⊆ pageIterators.flatten ∧
      expand block + expand pageIterators.flatten = expand block' + expand next.flatten ∧
      (∀ b ∈ block', ∀ g ∈ next.flatten, b.1 < g.1) ∧
      next.flatten.length ≤ pageIterators.flatten.length ∧ (block ≠ [] → block' ≠ []) ∧
      (pageIterators ≠ [] → block' ≠ [] ∧ next.flatten.length < pageIterators.flatten.length) := by
  induction rounds generalizing t block pageIterators with
  | zero =>
    have hnil : pageIterators.flatten = [] := List.eq_nil_of_length_eq_zero (Nat.le_zero.mp hr)
    refine ⟨t, block, pageIterators, rfl, ht, h, List.Subset.refl _, rfl, by simp [hnil], Nat.le_refl _, id, ?_⟩
    exact fun hne => absurd hnil (flatten_ne_nil h hne)
  | succ rounds ih =>
    by_cases hempty : pageIterators = []
    · subst hempty
      exact ⟨t, block, [], by simp [RHSShuffleJoinSource.fill], ht, h, List.Subset.refl _, rfl, by simp,
        Nat.le_refl _, id, fun hne => absurd rfl hne⟩
    obtain ⟨a, next, hadv, -, hnext, hperm, hleast⟩ := advance_spec q h hempty
    have hin : a ∈ pageIterators.flatten := hperm.mem_iff.mpr List.mem_cons_self
    have hsub : next.flatten ⊆ pageIterators.flatten := fun g hg =>
      hperm.mem_iff.mpr (List.mem_cons_of_mem _ hg)
    have hlen := hperm.length_eq
    rw [List.length_cons] at hlen
    obtain ⟨block₁, ht₁, hexp₁, hne₁, hle₁⟩ := ht.add (hlive a hin) fun b hb => hle b hb a hin
    have hexp : expand block + expand pageIterators.flatten = expand block₁ + expand next.flatten := by
      rw [expand_perm hperm, expand_cons, hexp₁, add_assoc]
    rw [RHSShuffleJoinSource.fill, if_neg hempty, hadv, ok_bind]
    dsimp only
    obtain hfull | ⟨hfull, hgt⟩ := isFull_spec q chunkSize a.1 (t.add a) hnext fun g hg => hleast g (hsub hg)
    · rw [hfull, ok_bind, if_neg (by simp)]
      obtain ⟨t', block', next', hfill, ht', hs', hsub', hexp', hapart, hle', hne', -⟩ :=
        ih ht₁ hnext (fun g hg => hlive g (hsub hg))
          (fun b hb g hg => (hle₁ b hb).trans (hleast g (hsub hg))) (by omega)
      refine ⟨t', block', next', hfill, ht', hs', fun g hg => hsub (hsub' hg), hexp.trans hexp', hapart, ?_,
        fun _ => hne' hne₁, fun _ => ⟨hne' hne₁, ?_⟩⟩
      · omega
      · omega
    · rw [hfull, ok_bind, if_pos rfl]
      refine ⟨_, block₁, next, rfl, ht₁, hnext, hsub, hexp, ?_, by omega, fun _ => hne₁, fun _ => ⟨hne₁, by omega⟩⟩
      intro b hb g hg
      exact Nat.lt_of_le_of_lt (hle₁ b hb) (hgt g hg)

structure Filled (groups block : List (Group R)) (next : List (JoinMapIterator R)) : Prop where
  sorted : Sorted next
  subset : next.flatten ⊆ groups
  records : expand groups = expand block + expand next.flatten
  apart : ∀ b ∈ block, ∀ g ∈ next.flatten, b.1 < g.1
  nonempty : block ≠ []
  shorter : next.flatten.length < groups.length

theorem rhs_getNextTupleSet (q : Queue R) {s : RHSShuffleJoinSource R} (h : Sorted s.pageIterators)
    (hlive : ∀ g ∈ s.pageIterators.flatten, g.2 ≠ []) (hne : s.pageIterators ≠ []) :
    ∃ t block next, s.getNextTupleSet q = .ok ({ s with pageIterators := next }, some t) ∧ Describes t block ∧
      Filled s.pageIterators.flatten block next := by
  obtain ⟨t, block, next, hfill, ht, hs, hsub, hexp, hapart, -, -, hlt⟩ :=
    fill_spec q s.chunkSize describes_empty h hlive (by simp) (Nat.le_refl _)
  refine ⟨t, block, next, ?_, ht, hs, hsub, ?_, hapart, (hlt hne).1, (hlt hne).2⟩
  · rw [RHSShuffleJoinSource.getNextTupleSet, if_neg hne, hfill, ok_bind]
  · rw [← hexp]
    simp [expand]

theorem mem_hashes_iff {groups : List (Group V)} (hlive : ∀ g ∈ groups, g.2 ≠ []) {m : ℕ} :
    m ∈ hashes groups ↔ ∃ x ∈ expand groups, x.1 = m := by
  constructor
  · intro hm
    obtain ⟨g, hg, rfl⟩ := mem_hashes.mp hm
    obtain ⟨v, hv⟩ := List.exists_mem_of_ne_nil _ (hlive g hg)
    exact ⟨(g.1, v), mem_expand.mpr ⟨g, hg, rfl, hv⟩, rfl⟩
  · rintro ⟨x, hx, rfl⟩
    obtain ⟨g, hg, hgx, -⟩ := mem_expand.mp hx
    exact mem_hashes.mpr ⟨g, hg, hgx⟩

end Fill

namespace JoinedShuffleJoinSource

structure Good (s : JoinedShuffleJoinSource L R) : Prop where
  rhs : Sorted s.rhsSource.pageIterators
  rhsLive : ∀ g ∈ s.rhsSource.pageIterators.flatten, g.2 ≠ []
  lhs : s.rhsSource.pageIterators ≠ [] → Sorted s.lhsIterators
  lhsLive : s.rhsSource.pageIterators ≠ [] → ∀ g ∈ s.lhsIterators.flatten, g.2 ≠ []
  outputSize : s.outputSize = s.output.length
  bufferSize : s.bufferSize = (s.buffer.getD []).length

def remaining (s : JoinedShuffleJoinSource L R) : Multiset (L × R) :=
  pairs (expand s.lhsIterators.flatten) (expand s.rhsSource.pageIterators.flatten)

def pending (s : JoinedShuffleJoinSource L R) (policy : PDBTupleSetSizePolicy) : Multiset (L × R) :=
  (if policy.inputWasProcessed then 0 else ↑s.output) + (↑(s.buffer.getD []) + s.remaining)

def Safe (s : JoinedShuffleJoinSource L R) : Prop :=
  LastGroupSafe (hashes s.lhsIterators.flatten) (hashes s.rhsSource.pageIterators.flatten)

def FailureBuffered (s : JoinedShuffleJoinSource L R) (policy : PDBTupleSetSizePolicy) : Prop :=
  policy.inputWasProcessed = false → s.buffer ≠ none

def work (s : JoinedShuffleJoinSource L R) : ℕ :=
  s.bufferSize + (expand s.lhsIterators.flatten).card * (expand s.rhsSource.pageIterators.flatten).card +
    s.rhsSource.pageIterators.flatten.length

theorem requeue_spec {s : JoinedShuffleJoinSource L R} (h : s.Good) (policy : PDBTupleSetSizePolicy) :
    (¬ s.FailureBuffered policy ∧ s.requeue policy = .error .undefined) ∨
      s.FailureBuffered policy ∧ ∃ s', s.requeue policy = .ok s' ∧ s'.Good ∧
        ↑(s'.buffer.getD []) + s'.remaining = s.pending policy ∧ s'.lhsIterators = s.lhsIterators ∧
        s'.rhsSource = s.rhsSource ∧ (policy.inputWasProcessed = true → s' = s) := by
  cases hp : policy.inputWasProcessed with
  | true =>
    refine Or.inr ⟨by simp [FailureBuffered, hp], s, by simp [requeue, hp], h, ?_, rfl, rfl, fun _ => rfl⟩
    simp [pending, hp]
  | false =>
    cases hb : s.buffer with
    | none => exact Or.inl ⟨by simp [FailureBuffered, hp, hb], by simp [requeue, hp, hb]⟩
    | some buffer =>
      have hsize : s.bufferSize = buffer.length := by rw [h.bufferSize, hb, Option.getD_some]
      let s' : JoinedShuffleJoinSource L R := { s with
        buffer := some (buffer ++ s.output), output := []
        bufferSize := s.bufferSize + s.outputSize, outputSize := 0 }
      refine Or.inr ⟨by simp [FailureBuffered, hb], s', by simp [requeue, hp, hb, s'],
        ⟨h.rhs, h.rhsLive, h.lhs, h.lhsLive, rfl, ?_⟩, ?_, rfl, rfl, by simp⟩
      · simp [h.outputSize, hsize, s']
      · simp only [pending, hp, hb, Option.getD_some, Bool.false_eq_true, if_false, remaining, s']
        rw [← Multiset.coe_add, ← add_assoc, add_comm (buffer : Multiset (L × R))]

theorem fromBuffer_spec {s : JoinedShuffleJoinSource L R} (h : s.Good) (chunkSize : ℕ) :
    (s.fromBuffer chunkSize).Good ∧
      (↑(s.fromBuffer chunkSize).output + ↑((s.fromBuffer chunkSize).buffer.getD []) : Multiset (L × R)) =
        ↑(s.buffer.getD []) ∧
      (1 ≤ chunkSize → s.bufferSize ≠ 0 → (s.fromBuffer chunkSize).work < s.work) := by
  have hbuffer : (s.fromBuffer chunkSize).buffer.getD [] =
      (s.buffer.getD []).take (s.bufferSize - min s.bufferSize chunkSize) := by
    cases hb : s.buffer <;> simp [fromBuffer, hb]
  refine ⟨⟨h.rhs, h.rhsLive, h.lhs, h.lhsLive, ?_, ?_⟩, ?_, ?_⟩
  · simp only [fromBuffer, List.length_drop, h.bufferSize]
    omega
  · rw [hbuffer, List.length_take]
    simp only [fromBuffer, h.bufferSize]
    omega
  · rw [hbuffer, Multiset.coe_add]
    apply Multiset.coe_eq_coe.mpr
    exact List.perm_append_comm.trans (by rw [fromBuffer, List.take_append_drop])
  · intro hc hb
    simp only [work, fromBuffer]
    omega

theorem splitOutput_spec {s : JoinedShuffleJoinSource L R} (h : s.Good) (hb : s.bufferSize = 0)
    (chunkSize : ℕ) :
    (s.splitOutput chunkSize).Good ∧
      (↑(s.splitOutput chunkSize).output + ↑((s.splitOutput chunkSize).buffer.getD []) : Multiset (L × R)) =
        ↑s.output ∧
      (s.splitOutput chunkSize).remaining = s.remaining ∧ ((s.splitOutput chunkSize).Safe ↔ s.Safe) ∧
      (s.splitOutput chunkSize).work ≤ s.work + s.outputSize := by
  rw [splitOutput]
  split_ifs with hgt
  · refine ⟨⟨h.rhs, h.rhsLive, h.lhs, h.lhsLive, ?_, ?_⟩, ?_, rfl, Iff.rfl, ?_⟩
    · rw [h.outputSize] at hgt
      simp only [List.length_take]
      omega
    · simp [h.outputSize]
    · rw [Option.getD_some, Multiset.coe_add, List.take_append_drop]
    · simp only [work]
      omega
  · refine ⟨h, ?_, rfl, Iff.rfl, Nat.le_add_right _ _⟩
    have hempty : s.buffer.getD [] = [] := List.eq_nil_of_length_eq_zero (h.bufferSize.symm.trans hb)
    simp [hempty]

inductive BlockJoined (s : JoinedShuffleJoinSource L R) :
    Except Stop (JoinedShuffleJoinSource L R) → Prop
  | undefined : ¬ s.Safe → BlockJoined s (.error .undefined)
  | rows (s' : JoinedShuffleJoinSource L R) (extra : Multiset (L × R)) : s'.Good →
      ↑s'.output + (↑(s'.buffer.getD []) + s'.remaining) = s.remaining + extra →
      (s.Safe ↔ extra = 0 ∧ s'.Safe) → s'.work < s.work → BlockJoined s (.ok s')

theorem join_spec (ql : Queue L) {s : JoinedShuffleJoinSource L R} (h : s.Good) (hb : s.bufferSize = 0)
    (hne : s.rhsSource.pageIterators ≠ []) {t : RHSTupleSet R} {block : List (Group R)}
    {next : List (JoinMapIterator R)} (ht : Describes t block)
    (hf : Filled s.rhsSource.pageIterators.flatten block next) (chunkSize : ℕ) :
    BlockJoined s
      (join ql { s with rhsSource := { s.rhsSource with pageIterators := next } } t chunkSize) := by
  have hrestLive : ∀ g ∈ next.flatten, g.2 ≠ [] := fun g hg => h.rhsLive g (hf.subset hg)
  have hrecords : expand s.rhsSource.pageIterators.flatten = expand (block ++ next.flatten) := by
    rw [hf.records, expand_append]
  have hblockLive : ∀ g ∈ block ++ next.flatten, g.2 ≠ [] := by
    intro g hg
    obtain hg | hg := List.mem_append.mp hg
    · exact ht.live g hg
    · exact hrestLive g hg
  have hsafe : s.Safe ↔ LastGroupSafe (hashes s.lhsIterators.flatten) (hashes (block ++ next.flatten)) := by
    apply LastGroupSafe.congr (List.Perm.refl _)
    intro r
    rw [mem_hashes_iff h.rhsLive, mem_hashes_iff hblockLive, hrecords]
  have hjoined := joinHashes_spec ql (h.lhs hne) (h.lhsLive hne) ht.live ht.ascending hf.apart
  rw [join, ht.counts]
  generalize joinHashes ql (block.map fun g => (g.1, g.2.length)) s.lhsIterators = res at hjoined
  cases hjoined with
  | undefined hunsafe => exact .undefined (mt hsafe.mp hunsafe)
  | rows column counts lhsNext extra hs hsub hlen heq hiff hcol hle =>
    rw [ok_bind, ht.output]
    dsimp only
    let s₁ : JoinedShuffleJoinSource L R := { s with
      output := column.zip (replicate (block.flatMap Prod.snd) counts), outputSize := column.length
      lhsIterators := lhsNext, rhsSource := { s.rhsSource with pageIterators := next } }
    have hgood : s₁.Good := by
      constructor
      · exact hf.sorted
      · exact hrestLive
      · exact fun _ => hs
      · exact fun _ g hg => h.lhsLive hne g (hsub hg)
      · simp [s₁, hlen]
      · exact h.bufferSize
    obtain ⟨hgood', hrows, hremaining, hsafe', hwork⟩ := splitOutput_spec hgood hb chunkSize
    refine .rows (s₁.splitOutput chunkSize) extra hgood' ?_ ?_ ?_
    · have howed : s.remaining = pairs (expand s.lhsIterators.flatten) (expand (block ++ next.flatten)) := by
        rw [remaining, hrecords]
      rw [← add_assoc, hrows, hremaining, howed]
      exact heq
    · rw [hsafe, hiff, hsafe']
      rfl
    · refine Nat.lt_of_le_of_lt hwork ?_
      have hcard := congrArg Multiset.card hrecords
      rw [expand_append, Multiset.card_add] at hcard
      have hmul := Nat.mul_le_mul_right (expand next.flatten).card hle
      have hlt := hf.shorter
      simp only [work, s₁, hcard, Nat.mul_add]
      omega

inductive Answered (s : JoinedShuffleJoinSource L R) (policy : PDBTupleSetSizePolicy) :
    Except Stop (JoinedShuffleJoinSource L R × Option (List (L × R))) → Prop
  | undefined : ¬ (s.FailureBuffered policy ∧ s.Safe) → Answered s policy (.error .undefined)
  | finished (s' : JoinedShuffleJoinSource L R) : s.FailureBuffered policy → s.Safe → s.pending policy = 0 →
      Answered s policy (.ok (s', none))
  | served (s' : JoinedShuffleJoinSource L R) (extra : Multiset (L × R)) : s.FailureBuffered policy → s'.Good →
      ↑s'.output + (↑(s'.buffer.getD []) + s'.remaining) = s.pending policy + extra →
      (s.Safe ↔ extra = 0 ∧ s'.Safe) →
      (policy.inputWasProcessed = true → 1 ≤ policy.getChunksSize → s'.work < s.work) →
      Answered s policy (.ok (s', some s'.output))

theorem getNextTupleSet_spec (ql : Queue L) (qr : Queue R) {s : JoinedShuffleJoinSource L R} (h : s.Good)
    (policy : PDBTupleSetSizePolicy) : Answered s policy (s.getNextTupleSet ql qr policy) := by
  rw [getNextTupleSet]
  obtain ⟨hbad, hreq⟩ | ⟨hok, s₁, hreq, h₁, hpend, hl, hr, hsame⟩ := requeue_spec h policy
  · rw [hreq]
    exact .undefined fun hn => hbad hn.1
  rw [hreq, ok_bind]
  have hsafe : s.Safe ↔ s₁.Safe := by rw [Safe, Safe, hl, hr]
  by_cases hb : s₁.bufferSize = 0
  · rw [if_neg (by simp [hb])]
    have hempty : s₁.buffer.getD [] = [] := List.eq_nil_of_length_eq_zero (h₁.bufferSize.symm.trans hb)
    by_cases hne : s₁.rhsSource.pageIterators = []
    · have hnone : s₁.rhsSource.getNextTupleSet qr = .ok (s₁.rhsSource, none) := by
        rw [RHSShuffleJoinSource.getNextTupleSet, if_pos hne]
      rw [hnone]
      refine .finished s₁ hok ?_ ?_
      · rw [hsafe, Safe, hne]
        intro m _ _
        exact Or.inr (by simp [hashes])
      · rw [← hpend, hempty, remaining, hne]
        simp [expand, pairs]
    · obtain ⟨t, block, next, hnext, ht, hf⟩ := rhs_getNextTupleSet qr h₁.rhs h₁.rhsLive hne
      rw [hnext, ok_bind]
      dsimp only
      have hjoin := join_spec ql h₁ hb hne ht hf policy.getChunksSize
      generalize join ql { s₁ with rhsSource := { s₁.rhsSource with pageIterators := next } } t
        policy.getChunksSize = res at hjoin
      cases hjoin with
      | undefined hunsafe => exact .undefined fun hn => hunsafe (hsafe.mp hn.2)
      | rows s' extra hgood hrows hiff hwork =>
        refine .served s' extra hok hgood ?_ (hsafe.trans hiff) ?_
        · rw [hrows, ← hpend, hempty]
          simp
        · intro hp _
          rwa [hsame hp] at hwork
  · rw [if_pos hb]
    obtain ⟨hgood, hrows, hwork⟩ := fromBuffer_spec h₁ policy.getChunksSize
    refine .served (s₁.fromBuffer policy.getChunksSize) 0 hok hgood ?_ ?_ ?_
    · rw [← add_assoc, hrows, add_zero, ← hpend]
      rfl
    · simp only [true_and]
      exact hsafe
    · intro hp hc
      rw [hsame hp] at hwork hb ⊢
      exact hwork hc hb

def FailsOnlyBuffered (ql : Queue L) (qr : Queue R) (s : JoinedShuffleJoinSource L R) :
    List PDBTupleSetSizePolicy → Prop
  | [] => True
  | policy :: policies => s.FailureBuffered policy ∧
      ∀ s' rows, s.getNextTupleSet ql qr policy = .ok (s', some rows) → s'.FailsOnlyBuffered ql qr policies

inductive Delivered (condition : Prop) (owed : Multiset (L × R)) : Except Stop (List (L × R)) → Prop
  | unfinished : Delivered condition owed (.error .unfinished)
  | undefined : ¬ condition → Delivered condition owed (.error .undefined)
  | rows (out : List (L × R)) (extra : Multiset (L × R)) : ↑out = owed + extra → (condition ↔ extra = 0) →
      Delivered condition owed (.ok out)

theorem delivered_spec (ql : Queue L) (qr : Queue R) {s : JoinedShuffleJoinSource L R} (h : s.Good)
    (policy : PDBTupleSetSizePolicy) (policies : List PDBTupleSetSizePolicy) :
    Delivered (s.FailsOnlyBuffered ql qr (policy :: policies) ∧ s.Safe) (s.pending policy)
      (s.delivered ql qr (policy :: policies)) := by
  induction policies generalizing s policy with
  | nil =>
    have hnext := getNextTupleSet_spec ql qr h policy
    rw [delivered, FailsOnlyBuffered]
    generalize hres : s.getNextTupleSet ql qr policy = res at hnext
    cases hnext with
    | undefined hbad => exact .undefined fun hn => hbad ⟨hn.1.1, hn.2⟩
    | finished s' hok hsafe hpend =>
      refine .rows [] 0 (by simp [hpend]) ?_
      simp [hok, hsafe]
    | served => exact .unfinished
  | cons next policies ih =>
    have hnext := getNextTupleSet_spec ql qr h policy
    rw [delivered, FailsOnlyBuffered]
    generalize hres : s.getNextTupleSet ql qr policy = res at hnext
    cases hnext with
    | undefined hbad => exact .undefined fun hn => hbad ⟨hn.1.1, hn.2⟩
    | finished s' hok hsafe hpend =>
      refine .rows [] 0 (by simp [hpend]) ?_
      simp [hok, hsafe]
    | served s' extra hok hgood hrows hsafe =>
      have hrest := ih hgood next
      rw [ok_bind]
      dsimp only
      generalize s'.delivered ql qr (next :: policies) = rest at hrest
      have hrun : (∀ s'' rows, Except.ok (s', some s'.output) = (.ok (s'', some rows) : Except Stop _) →
          s''.FailsOnlyBuffered ql qr (next :: policies)) ↔ s'.FailsOnlyBuffered ql qr (next :: policies) := by
        constructor
        · exact fun hall => hall s' _ rfl
        · rintro hs s'' rows heq
          cases heq
          exact hs
      rw [hrun]
      cases hrest with
      | unfinished => exact .unfinished
      | undefined hbad => exact .undefined fun hn => hbad ⟨hn.1.2, (hsafe.mp hn.2).2⟩
      | rows out extra' hout hiff =>
        refine .rows _ (extra + extra') ?_ ?_
        · rw [← add_assoc, ← hrows]
          cases hp : next.inputWasProcessed <;> simp [hp, ← Multiset.coe_add, hout, pending, add_assoc]
        · rw [add_eq_zero, ← hiff, hsafe]
          tauto

theorem getNextTupleSet_exhausted (ql : Queue L) (qr : Queue R) {s : JoinedShuffleJoinSource L R}
    (hrhs : Sorted s.rhsSource.pageIterators) (hlive : ∀ g ∈ s.rhsSource.pageIterators.flatten, g.2 ≠ [])
    (hne : s.rhsSource.pageIterators ≠ []) (hlhs : s.lhsIterators = [[]]) (hb : s.buffer = none)
    (hsize : s.bufferSize = 0) (policy : PDBTupleSetSizePolicy) :
    s.getNextTupleSet ql qr policy = .error .undefined := by
  rw [getNextTupleSet]
  cases hp : policy.inputWasProcessed with
  | false => simp [requeue, hp, hb]; rfl
  | true =>
    obtain ⟨t, block, next, hnext, ht, hf⟩ := rhs_getNextTupleSet qr hrhs hlive hne
    have htop : topHash ql [[]] = .error .undefined := by
      simp [topHash, advance, ql.advance_exhausted, Except.map]
    have hjoin : joinHashes ql t.counts [[]] = .error .undefined := by
      rw [ht.counts]
      cases block with
      | nil => exact absurd rfl hf.nonempty
      | cons g block =>
        rw [List.map_cons, joinHashes, matchHash, if_neg (by simp), htop]
        rfl
    simp only [requeue, hp, if_true, ok_bind, hsize, ne_eq, not_true_eq_false, if_false, hnext, join, hlhs,
      hjoin]
    rfl

section Requests

variable (ql : Queue L) (qr : Queue R) {s : JoinedShuffleJoinSource L R}

theorem delivered_of_served (h : s.Good) {policy : PDBTupleSetSizePolicy} {policies : List PDBTupleSetSizePolicy}
    (hserved : ∀ s' rows, s.getNextTupleSet ql qr policy = .ok (s', some rows) → s'.Good →
      (policy.inputWasProcessed = true → 1 ≤ policy.getChunksSize → s'.work < s.work) →
      s'.delivered ql qr policies ≠ .error .unfinished) :
    s.delivered ql qr (policy :: policies) ≠ .error .unfinished := by
  have hnext := getNextTupleSet_spec ql qr h policy
  rw [delivered]
  generalize s.getNextTupleSet ql qr policy = res at hnext hserved
  cases hnext with
  | undefined hbad => nofun
  | finished s' hok hsafe hpend => nofun
  | served s' extra hok hgood hrows hsafe hwork =>
    have hrest := hserved s' _ rfl hgood hwork
    rw [ok_bind]
    dsimp only
    cases hd : s'.delivered ql qr policies with
    | ok rest => nofun
    | error stop =>
      rw [hd] at hrest
      exact hrest

theorem delivered_of_work (h : s.Good) {policies : List PDBTupleSetSizePolicy} (hlen : s.work < policies.length)
    (hall : ∀ policy ∈ policies, policy.inputWasProcessed = true ∧ 1 ≤ policy.getChunksSize) :
    s.delivered ql qr policies ≠ .error .unfinished := by
  induction policies generalizing s with
  | nil => exact absurd hlen (Nat.not_lt_zero _)
  | cons policy policies ih =>
    obtain ⟨hp, hc⟩ := hall policy List.mem_cons_self
    refine delivered_of_served ql qr h fun s' rows _ hgood hwork => ?_
    have hlt := hwork hp hc
    rw [List.length_cons] at hlen
    exact ih hgood (by omega) fun policy hp => hall policy (List.mem_cons_of_mem _ hp)

theorem delivered_finishes (h : s.Good) (policies : List PDBTupleSetSizePolicy) :
    ∃ n, ∀ policies', n ≤ policies'.length →
      (∀ policy ∈ policies', policy.inputWasProcessed = true ∧ 1 ≤ policy.getChunksSize) →
      s.delivered ql qr (policies ++ policies') ≠ .error .unfinished := by
  induction policies generalizing s with
  | nil => exact ⟨s.work + 1, fun policies' hlen hall => delivered_of_work ql qr h hlen hall⟩
  | cons policy policies ih =>
    by_cases hnext : ∃ s' rows, s.getNextTupleSet ql qr policy = .ok (s', some rows) ∧ s'.Good
    · obtain ⟨s', rows, hnext, hgood⟩ := hnext
      obtain ⟨n, hn⟩ := ih hgood
      refine ⟨n, fun policies' hlen hall => delivered_of_served ql qr h fun s₁ rows₁ h₁ _ _ => ?_⟩
      cases hnext.symm.trans h₁
      exact hn policies' hlen hall
    · exact ⟨0, fun _ _ _ => delivered_of_served ql qr h fun s' rows h' hgood _ =>
        absurd ⟨s', rows, h', hgood⟩ hnext⟩

end Requests

end JoinedShuffleJoinSource

section Pages

def joinPairs (lhs : List (JoinMap L)) (rhs : List (JoinMap R)) : Multiset (L × R) :=
  pairs (lhs.flatMap JoinMap.records : List (ℕ × L)) (rhs.flatMap JoinMap.records : List (ℕ × R))

def slotHashes (maps : List (JoinMap V)) : List ℕ :=
  maps.flatMap fun m => m.myArray.data.reduceOption.map JoinMapRecordClass.hash

def HollowHarmless (lhs : List (JoinMap L)) (rhs : List (JoinMap R)) : Prop :=
  ∀ m ∈ lhs, size m ≠ 0 → m.records = [] →
    (counted lhs).length = 1 ∧ rhs.flatMap JoinMap.records = []

theorem expand_begin (m : JoinMap V) : expand (begin m) = m.records := by
  rw [begin, expand_perm m.myArray.groups_perm]
  simp [expand, List.flatMap_map, JoinMap.records, JoinPairArray.records]

theorem hashes_begin (m : JoinMap V) :
    (hashes (begin m)).Perm (m.myArray.data.reduceOption.map JoinMapRecordClass.hash) := by
  have hperm := m.myArray.groups_perm.map Prod.fst
  rw [List.map_map] at hperm
  exact hperm

theorem begin_sorted (m : JoinMap V) : (begin m).Pairwise fun g g' => g.1 ≤ g'.1 := m.myArray.groups_sorted

theorem begin_live {m : JoinMap V} {g : Group V} (hg : g ∈ begin m) : g.2 ≠ [] := by
  obtain ⟨e, -, rfl⟩ := List.mem_map.mp hg
  simp [JoinPairArray.group]

theorem begin_eq_nil_iff (m : JoinMap V) : begin m = [] ↔ m.records = [] := by
  constructor
  · intro h
    have hexp := expand_begin m
    rw [h] at hexp
    exact (Multiset.coe_eq_zero _).mp hexp.symm
  · intro h
    have hexp := expand_begin m
    rw [h] at hexp
    cases hb : begin m with
    | nil => rfl
    | cons g groups =>
      have hg : g ∈ begin m := by simp [hb]
      obtain ⟨v, hv⟩ := List.exists_mem_of_ne_nil _ (begin_live hg)
      have hin : (g.1, v) ∈ expand (begin m) := mem_expand.mpr ⟨g, hg, rfl, hv⟩
      simp [hexp] at hin

theorem records_of_size_zero {m : JoinMap V} (h : m.myArray.Counted) (hsize : size m = 0) :
    m.records = [] := by
  have hused : m.myArray.data.reduceOption.length ≤ 0 := hsize ▸ h
  rw [Nat.le_zero] at hused
  simp [JoinMap.records, JoinPairArray.records, List.eq_nil_of_length_eq_zero hused]

theorem foldlM_push_live {its acc : List (JoinMapIterator V)} (hits : [] ∉ its) (hacc : [] ∉ acc) :
    its.foldlM push acc = .ok (its.reverse ++ acc) := by
  induction its generalizing acc with
  | nil => rfl
  | cons it its ih =>
    have hit : it ≠ [] := by
      rintro rfl
      exact hits List.mem_cons_self
    have hpush : push acc it = .ok (it :: acc) := by
      have hany : acc.any List.isEmpty = false := by
        rw [List.any_eq_false]
        rintro it' hin hempty
        rw [List.isEmpty_iff.mp hempty] at hin
        exact hacc hin
      simp [push, hit, hany]
    have hacc' : [] ∉ it :: acc := by
      simp [hacc, Ne.symm hit]
    rw [List.foldlM_cons, hpush, ok_bind, ih (fun hn => hits (List.mem_cons_of_mem _ hn)) hacc']
    simp

theorem foldlM_push_exhausted {its acc : List (JoinMapIterator V)} (hits : its ≠ []) (hacc : acc ≠ [])
    (hempty : [] ∈ its ∨ [] ∈ acc) : its.foldlM push acc = .error .undefined := by
  induction its generalizing acc with
  | nil => exact absurd rfl hits
  | cons it its ih =>
    rw [List.foldlM_cons]
    by_cases hnow : it = [] ∨ [] ∈ acc
    · have hpush : push acc it = .error .undefined := by
        have hcond : it.isEmpty = true ∨ acc.any List.isEmpty = true := by
          obtain rfl | hin := hnow
          · exact Or.inl rfl
          · exact Or.inr (List.any_eq_true.mpr ⟨[], hin, rfl⟩)
        rw [push, if_pos ⟨hacc, hcond⟩]
      rw [hpush]
      rfl
    · push Not at hnow
      have hlater : [] ∈ its := by
        obtain hin | hin := hempty
        · exact (List.mem_cons.mp hin).resolve_left hnow.1.symm
        · exact absurd hin hnow.2
      have hany : acc.any List.isEmpty = false := by
        rw [List.any_eq_false]
        rintro it' hin hempty
        rw [List.isEmpty_iff.mp hempty] at hin
        exact hnow.2 hin
      have hpush : push acc it = .ok (it :: acc) := by simp [push, hnow.1, hany]
      rw [hpush, ok_bind]
      exact ih (List.ne_nil_of_mem hlater) (by simp) (Or.inl hlater)

variable (lhs : List (JoinMap L)) (rhs : List (JoinMap R)) (chunkSize : ℕ)

theorem rhs_expand : expand (ofPages rhs chunkSize).pageIterators.flatten =
    ↑(rhs.flatMap JoinMap.records) := by
  have hperm := (List.reverse_perm ((rhs.map begin).filter (· ≠ []))).flatten
  rw [ofPages, expand_perm hperm]
  induction rhs with
  | nil => rfl
  | cons m rhs ih =>
    have ih' := ih (List.reverse_perm _).flatten
    rw [List.flatMap_cons, ← Multiset.coe_add, ← ih', ← expand_begin]
    by_cases hb : begin m = [] <;> simp [hb, expand]

theorem rhs_hashes (r : ℕ) : r ∈ hashes (ofPages rhs chunkSize).pageIterators.flatten ↔
    r ∈ slotHashes rhs := by
  have hmem (g : Group R) : g ∈ (ofPages rhs chunkSize).pageIterators.flatten ↔
      ∃ m ∈ rhs, g ∈ begin m := by
    simp only [ofPages, List.mem_flatten, List.mem_reverse, List.mem_filter, List.mem_map]
    constructor
    · rintro ⟨it, ⟨⟨m, hm, rfl⟩, -⟩, hg⟩
      exact ⟨m, hm, hg⟩
    · rintro ⟨m, hm, hg⟩
      exact ⟨begin m, ⟨⟨m, hm, rfl⟩, by simpa using List.ne_nil_of_mem hg⟩, hg⟩
  simp only [mem_hashes, hmem, slotHashes, List.mem_flatMap, ← (hashes_begin _).mem_iff]
  constructor
  · rintro ⟨g, ⟨m, hm, hg⟩, rfl⟩
    exact ⟨m, hm, g, hg, rfl⟩
  · rintro ⟨m, hm, g, hg, rfl⟩
    exact ⟨g, ⟨m, hm, hg⟩, rfl⟩

theorem rhs_sorted : Sorted (ofPages rhs chunkSize).pageIterators ∧
    ∀ g ∈ (ofPages rhs chunkSize).pageIterators.flatten, g.2 ≠ [] := by
  have hmem {it : JoinMapIterator R} (hit : it ∈ (ofPages rhs chunkSize).pageIterators) :
      (∃ m, begin m = it) ∧ it ≠ [] := by
    simp only [ofPages, List.mem_reverse, List.mem_filter, List.mem_map] at hit
    obtain ⟨⟨m, -, rfl⟩, hne⟩ := hit
    exact ⟨⟨m, rfl⟩, by simpa using hne⟩
  refine ⟨⟨fun hn => (hmem hn).2 rfl, ?_⟩, ?_⟩
  · intro it hit
    obtain ⟨m, rfl⟩ := (hmem hit).1
    exact begin_sorted m
  · intro g hg
    obtain ⟨it, hit, hg⟩ := List.mem_flatten.mp hg
    obtain ⟨m, rfl⟩ := (hmem hit).1
    exact begin_live hg

variable {lhs}

theorem counted_expand (hcounted : ∀ m ∈ lhs, m.myArray.Counted) :
    expand ((counted lhs).map begin).flatten = ↑(lhs.flatMap JoinMap.records) := by
  induction lhs with
  | nil => rfl
  | cons m lhs ih =>
    have ih := ih fun m' hm' => hcounted m' (List.mem_cons_of_mem _ hm')
    rw [List.flatMap_cons, ← Multiset.coe_add, ← ih]
    by_cases hsize : size m = 0
    · rw [records_of_size_zero (hcounted m List.mem_cons_self) hsize]
      simp [counted, hsize]
    · rw [← expand_begin, ← expand_append]
      simp [counted, hsize]

theorem counted_hashes (hcounted : ∀ m ∈ lhs, m.myArray.Counted) :
    (hashes ((counted lhs).map begin).flatten).Perm (slotHashes lhs) := by
  induction lhs with
  | nil => exact List.Perm.nil
  | cons m lhs ih =>
    have ih := ih fun m' hm' => hcounted m' (List.mem_cons_of_mem _ hm')
    have hone := hashes_begin m
    rw [slotHashes, List.flatMap_cons]
    by_cases hsize : size m = 0
    · have hnil : begin m = [] :=
        (begin_eq_nil_iff m).mpr (records_of_size_zero (hcounted m List.mem_cons_self) hsize)
      rw [hnil] at hone
      rw [hone.symm.eq_nil]
      simpa [counted, hsize, slotHashes] using ih
    · have hsplit : hashes ((counted (m :: lhs)).map begin).flatten =
          hashes (begin m) ++ hashes ((counted lhs).map begin).flatten := by
        simp [counted, hsize, hashes]
      rw [hsplit]
      exact hone.append ih

structure Started (s : JoinedShuffleJoinSource L R) : Prop where
  good : s.Good
  pending : ∀ policy, s.pending policy = joinPairs lhs rhs
  safe : s.Safe ↔ LastGroupSafe (slotHashes lhs) (slotHashes rhs)

theorem ofPages_started (hcounted : ∀ m ∈ lhs, m.myArray.Counted) (hharmless : HollowHarmless lhs rhs) :
    ∃ s, JoinedShuffleJoinSource.ofPages lhs (.ofPages rhs chunkSize) = .ok s ∧ @Started L R lhs rhs s := by
  obtain ⟨hsorted, hlive⟩ := rhs_sorted rhs chunkSize
  have hrhs := rhs_expand rhs chunkSize
  have hlhs := counted_expand hcounted
  have hlhsHashes := counted_hashes hcounted
  -- Whichever way the queue is filled, it holds the iterators of the counted maps.
  have hstart (its : List (JoinMapIterator L)) (hperm : its.Perm ((counted lhs).map begin))
      (hits : (ofPages rhs chunkSize).pageIterators ≠ [] → [] ∉ its) :
      @Started L R lhs rhs ⟨[], 0, none, 0, .ofPages rhs chunkSize, its⟩ := by
    have hlist {it : JoinMapIterator L} (hit : it ∈ its) : ∃ m, begin m = it := by
      obtain ⟨m, -, hm⟩ := List.mem_map.mp (hperm.mem_iff.mp hit)
      exact ⟨m, hm⟩
    refine ⟨⟨hsorted, hlive, ?_, ?_, rfl, rfl⟩, ?_, ?_⟩
    · intro hne
      refine ⟨hits hne, ?_⟩
      intro it hit
      obtain ⟨m, rfl⟩ := hlist hit
      exact begin_sorted m
    · intro _ g hg
      obtain ⟨it, hit, hg⟩ := List.mem_flatten.mp hg
      obtain ⟨m, rfl⟩ := hlist hit
      exact begin_live hg
    · intro policy
      simp only [JoinedShuffleJoinSource.pending, JoinedShuffleJoinSource.remaining, joinPairs]
      rw [expand_perm hperm.flatten, hlhs, hrhs]
      simp
    · apply LastGroupSafe.congr
      · exact (hperm.flatten.map _).trans hlhsHashes
      · exact rhs_hashes rhs chunkSize
  by_cases hhollow : [] ∈ (counted lhs).map begin
  · obtain ⟨m, hm, hb⟩ := List.mem_map.mp hhollow
    obtain ⟨hm, hsize⟩ := List.mem_filter.mp hm
    obtain ⟨hone, hnone⟩ := hharmless m hm (by simpa using hsize) ((begin_eq_nil_iff m).mp hb)
    obtain ⟨m', hm'⟩ := List.length_eq_one_iff.mp hone
    have hpages : (ofPages rhs chunkSize).pageIterators = [] := by
      by_contra hne
      have hflat := flatten_ne_nil hsorted hne
      obtain ⟨g, hg⟩ := List.exists_mem_of_ne_nil _ hflat
      obtain ⟨v, hv⟩ := List.exists_mem_of_ne_nil _ (hlive g hg)
      have hin : (g.1, v) ∈ expand _ := mem_expand.mpr ⟨g, hg, rfl, hv⟩
      rw [hrhs, hnone] at hin
      simp at hin
    refine ⟨_, ?_, hstart [begin m'] ?_ fun hne => absurd hpages hne⟩
    · rw [JoinedShuffleJoinSource.ofPages, hm']
      simp [push, ok_bind]
    · simp [hm']
  · refine ⟨_, ?_, hstart _ (List.reverse_perm _) fun _ hn => hhollow (List.mem_reverse.mp hn)⟩
    rw [JoinedShuffleJoinSource.ofPages]
    rw [foldlM_push_live hhollow List.not_mem_nil, ok_bind, List.append_nil]

variable (ql : Queue L) (qr : Queue R)

theorem shuffleJoin_hollow (hharm : ¬ HollowHarmless lhs rhs) (policy : PDBTupleSetSizePolicy)
    (policies : List PDBTupleSetSizePolicy) :
    shuffleJoin ql qr lhs rhs chunkSize (policy :: policies) = .error .undefined := by
  simp only [HollowHarmless, not_forall] at hharm
  obtain ⟨m, hm, hsize, hrecords, hharm⟩ := hharm
  have hb : begin m = [] := (begin_eq_nil_iff m).mpr hrecords
  have hin : m ∈ counted lhs := List.mem_filter.mpr ⟨hm, by simpa using hsize⟩
  obtain ⟨hsorted, hlive⟩ := rhs_sorted rhs chunkSize
  have hrhs := rhs_expand rhs chunkSize
  rw [shuffleJoin, JoinedShuffleJoinSource.ofPages]
  cases hc : counted lhs with
  | nil => simp [hc] at hin
  | cons m₁ maps =>
    cases maps with
    | nil =>
      obtain rfl : m = m₁ := by simpa [hc] using hin
      have hne : (ofPages rhs chunkSize).pageIterators ≠ [] := by
        intro hnil
        rw [hnil] at hrhs
        exact hharm ⟨by rw [hc]; rfl, (Multiset.coe_eq_zero _).mp hrhs.symm⟩
      have hnext := JoinedShuffleJoinSource.getNextTupleSet_exhausted ql qr
        (s := ⟨[], 0, none, 0, .ofPages rhs chunkSize, [[]]⟩) hsorted hlive hne rfl rfl rfl policy
      simp only [List.map_cons, List.map_nil, hb, List.foldlM_cons, List.foldlM_nil, push, ne_eq,
        not_true_eq_false, false_and, if_false, ok_bind, pure_bind]
      simp only [JoinedShuffleJoinSource.delivered, hnext]
      rfl
    | cons m₂ maps =>
      have hempty : [] ∈ (m₂ :: maps).map begin ∨ [] ∈ [begin m₁] := by
        rw [hc] at hin
        obtain rfl | hin := List.mem_cons.mp hin
        · exact Or.inr (by simp [hb])
        · exact Or.inl (List.mem_map.mpr ⟨m, hin, hb⟩)
      have hfirst : push [] (begin m₁) = .ok [begin m₁] := by simp [push]
      rw [List.map_cons, List.foldlM_cons, hfirst, ok_bind,
        foldlM_push_exhausted (by simp) (by simp) hempty]
      rfl

def JoinsExactly (lhs : List (JoinMap L)) (rhs : List (JoinMap R)) (chunkSize : ℕ)
    (policies : List PDBTupleSetSizePolicy) : Prop :=
  ∃ out, shuffleJoin ql qr lhs rhs chunkSize policies = .ok out ∧ ↑out = joinPairs lhs rhs

theorem joinsExactly_iff [Inhabited L] (hbuilt : ∀ m ∈ lhs, m.Built) {policies : List PDBTupleSetSizePolicy}
    (hfinished : shuffleJoin ql qr lhs rhs chunkSize policies ≠ .error .unfinished) :
    JoinsExactly ql qr lhs rhs chunkSize policies ↔
      HollowHarmless lhs rhs ∧ LastGroupSafe (slotHashes lhs) (slotHashes rhs) ∧
        ∀ s, JoinedShuffleJoinSource.ofPages lhs (.ofPages rhs chunkSize) = .ok s →
          s.FailsOnlyBuffered ql qr policies := by
  by_cases hharmless : HollowHarmless lhs rhs
  · obtain ⟨s, hs, hstart⟩ := ofPages_started rhs chunkSize (fun m hm => (hbuilt m hm).counted) hharmless
    have hrun : shuffleJoin ql qr lhs rhs chunkSize policies = s.delivered ql qr policies := by
      rw [shuffleJoin, hs, ok_bind]
    have hall : (∀ s', JoinedShuffleJoinSource.ofPages lhs (.ofPages rhs chunkSize) = .ok s' →
        s'.FailsOnlyBuffered ql qr policies) ↔ s.FailsOnlyBuffered ql qr policies := by
      constructor
      · exact fun h => h s hs
      · intro h s' hs'
        cases hs.symm.trans hs'
        exact h
    rw [hall, ← hstart.safe, JoinsExactly]
    rw [hrun] at hfinished ⊢
    cases policies with
    | nil => exact absurd rfl hfinished
    | cons policy policies =>
      have hspec := JoinedShuffleJoinSource.delivered_spec ql qr hstart.good policy policies
      rw [hstart.pending policy] at hspec
      generalize s.delivered ql qr (policy :: policies) = res at hspec hfinished
      cases hspec with
      | unfinished => exact absurd rfl hfinished
      | undefined hbad =>
        constructor
        · rintro ⟨out, hout, -⟩
          cases hout
        · rintro ⟨-, hsafe, hfails⟩
          exact absurd ⟨hfails, hsafe⟩ hbad
      | rows out extra hout hiff =>
        constructor
        · rintro ⟨out', hout', heq⟩
          cases hout'
          rw [heq] at hout
          obtain ⟨hfails, hsafe⟩ := hiff.mpr (left_eq_add.mp hout)
          exact ⟨hharmless, hsafe, hfails⟩
        · rintro ⟨-, hsafe, hfails⟩
          rw [hiff.mp ⟨hfails, hsafe⟩, add_zero] at hout
          exact ⟨out, rfl, hout⟩
  · refine ⟨?_, fun h => absurd h.1 hharmless⟩
    rintro ⟨out, hout, -⟩
    cases policies with
    | nil =>
      rw [shuffleJoin] at hfinished hout
      cases hs : JoinedShuffleJoinSource.ofPages lhs (.ofPages rhs chunkSize : RHSShuffleJoinSource R) with
      | error e =>
        rw [hs] at hout
        cases hout
      | ok s =>
        rw [hs] at hfinished
        exact absurd rfl hfinished
    | cons policy policies =>
      rw [shuffleJoin_hollow rhs chunkSize ql qr hharmless] at hout
      cases hout

theorem shuffleJoin_finishes [Inhabited L] (hbuilt : ∀ m ∈ lhs, m.Built) (policies : List PDBTupleSetSizePolicy) :
    ∃ n, ∀ policies', n ≤ policies'.length →
      (∀ policy ∈ policies', policy.inputWasProcessed = true ∧ 1 ≤ policy.getChunksSize) →
      shuffleJoin ql qr lhs rhs chunkSize (policies ++ policies') ≠ .error .unfinished := by
  by_cases hharmless : HollowHarmless lhs rhs
  · obtain ⟨s, hs, hstart⟩ := ofPages_started rhs chunkSize (fun m hm => (hbuilt m hm).counted) hharmless
    simpa only [shuffleJoin, hs, ok_bind] using
      JoinedShuffleJoinSource.delivered_finishes ql qr hstart.good policies
  · refine ⟨1, fun policies' hlen _ => ?_⟩
    cases hp : policies ++ policies' with
    | nil => simp_all
    | cons policy rest => simp [shuffleJoin_hollow rhs chunkSize ql qr hharmless]

def addRecord (hash : ℕ) (m : JoinMap ℕ) (v : ℕ) : JoinMap ℕ :=
  match m.push .enough hash with
  | (m', .ok place) => m'.store place v
  | (m', .error _) => m'

def onePage (hash : ℕ) (records : List ℕ) : JoinMap ℕ := records.foldl (addRecord hash) JoinMap.empty

theorem onePage_built (hash : ℕ) (records : List ℕ) : (onePage hash records).Built := by
  have hadd {m : JoinMap ℕ} (h : m.Built) (v : ℕ) : (addRecord hash m v).Built := by
    have hpush := h.push .enough hash
    rw [addRecord]
    split
    · next he =>
      rw [he] at hpush
      exact hpush.store _ _
    · next he =>
      rw [he] at hpush
      exact hpush
  have hempty : (JoinMap.empty : JoinMap ℕ).Built :=
    JoinMap.Built.ofSize (show JoinMap.ofSize 2 = .ok JoinMap.empty from rfl)
  rw [onePage]
  generalize (JoinMap.empty : JoinMap ℕ) = m at hempty
  induction records generalizing m with
  | nil => exact hempty
  | cons v records ih => exact ih _ (hadd hempty v)

def request (chunkSize : ℤ) (succeeded : Bool) : PDBTupleSetSizePolicy :=
  { chunkSize, pageSize := 1024, pipeline := { succeeded } }

theorem joinsExactly_one_failure :
    JoinsExactly (MinQueue.scan _) (MinQueue.scan _) [onePage 5 [1, 2], onePage 9 [3]]
        [onePage 5 [10, 20], onePage 7 [30]] 50
        [request 3 true, request 2 false, request 2 true, request 2 true] ∧
      LastGroupSafe (slotHashes [onePage 5 [1, 2], onePage 9 [3]])
        (slotHashes [onePage 5 [10, 20], onePage 7 [30]]) := by
  have hrun : shuffleJoin (MinQueue.scan _) (MinQueue.scan _) [onePage 5 [1, 2], onePage 9 [3]]
      [onePage 5 [10, 20], onePage 7 [30]] 50
      [request 3 true, request 2 false, request 2 true, request 2 true] =
      .ok [(2, 10), (1, 20), (2, 20), (1, 10)] := by
    decide +kernel
  have hexact : JoinsExactly (MinQueue.scan _) (MinQueue.scan _) [onePage 5 [1, 2], onePage 9 [3]]
      [onePage 5 [10, 20], onePage 7 [30]] 50
      [request 3 true, request 2 false, request 2 true, request 2 true] :=
    ⟨_, hrun, by decide +kernel⟩
  have hbuilt : ∀ m ∈ [onePage 5 [1, 2], onePage 9 [3]], m.Built := by
    intro m hm
    simp only [List.mem_cons, List.not_mem_nil, or_false] at hm
    obtain rfl | rfl := hm
    · exact onePage_built 5 [1, 2]
    · exact onePage_built 9 [3]
  have hiff := joinsExactly_iff [onePage 5 [10, 20], onePage 7 [30]] 50 (MinQueue.scan _) (MinQueue.scan _) hbuilt
    (hrun.trans_ne (by simp))
  exact ⟨hexact, (hiff.mp hexact).2.1⟩

theorem not_joinsExactly_smaller_hash :
    ¬ JoinsExactly (MinQueue.scan _) (MinQueue.scan _) [onePage 5 [1]] [onePage 7 [2]] 50
      [request 50 true, request 50 true] := by
  have hrun : shuffleJoin (MinQueue.scan _) (MinQueue.scan _) [onePage 5 [1]] [onePage 7 [2]] 50
      [request 50 true, request 50 true] = .ok [(1, 2)] := by
    decide +kernel
  have hpairs : joinPairs [onePage 5 [1]] [onePage 7 [2]] = 0 := by
    decide +kernel
  rintro ⟨out, hout, heq⟩
  rw [hrun] at hout
  cases hout
  rw [hpairs] at heq
  simp at heq

end Pages

end PlinyCompute.ShuffleJoin
