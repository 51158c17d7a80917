import PlinyCompute.ShuffleJoinMatch

namespace PlinyCompute.ShuffleJoin

open KWayMerge PdbJoinMap SizePolicy Transition

variable {V L R : Type}

def expand (groups : List (Group V)) : Multiset (ℕ × V) :=
  (groups.flatMap fun g => g.2.map fun v => (g.1, v) : List (ℕ × V))

def pairs (lhs : Multiset (ℕ × L)) (rhs : Multiset (ℕ × R)) : Multiset (L × R) :=
  rhs.bind fun r => (lhs.filter fun l => l.1 = r.1).map fun l => (l.2, r.2)

def LastGroupSafe (lhsHashes rhsHashes : List ℕ) : Prop :=
  ∀ m ∈ lhsHashes, (∀ l ∈ lhsHashes, l ≤ m) →
    (m ∈ rhsHashes ∧ lhsHashes.count m = 1) ∨ ∀ r ∈ rhsHashes, r < m

def hashes (groups : List (Group V)) : List ℕ := groups.map Prod.fst

section Pairs

variable {hash : ℕ} {groups groups' : List (Group V)}

theorem expand_cons (g : Group V) (groups : List (Group V)) :
    expand (g :: groups) = expand [g] + expand groups := by
  simp [expand]

theorem expand_append (groups groups' : List (Group V)) : expand (groups ++ groups') = expand groups + expand groups' := by
  simp [expand]

theorem expand_perm (h : groups.Perm groups') : expand groups = expand groups' :=
  Multiset.coe_eq_coe.mpr (h.flatMap_right _)

theorem mem_expand {x : ℕ × V} : x ∈ expand groups ↔ ∃ g ∈ groups, g.1 = x.1 ∧ x.2 ∈ g.2 := by
  obtain ⟨k, v⟩ := x
  simp only [expand, Multiset.mem_coe, List.mem_flatMap, List.mem_map, Prod.mk.injEq]
  constructor
  · rintro ⟨g, hg, v', hv, rfl, rfl⟩
    exact ⟨g, hg, rfl, hv⟩
  · rintro ⟨g, hg, rfl, hv⟩
    exact ⟨g, hg, v, hv, rfl, rfl⟩

theorem expand_split (hash : ℕ) (groups : List (Group V)) :
    expand groups = expand (below hash groups) + expand (equal hash groups) + expand (above hash groups) := by
  induction groups with
  | nil => rfl
  | cons g groups ih =>
    rw [expand_cons g groups, ih]
    obtain h | h | h := Nat.lt_trichotomy g.1 hash
    · have h1 : below hash (g :: groups) = g :: below hash groups := by simp [below, h]
      rw [h1, equal_cons_ne h.ne, above_cons_le h.le, expand_cons g (below hash groups), add_assoc, add_assoc,
        add_assoc]
    · have h1 : below hash (g :: groups) = below hash groups := by simp [below, h]
      rw [h1, equal_cons_self h, above_cons_le h.le, expand_cons g (equal hash groups), ← add_assoc, ← add_assoc,
        add_comm (expand [g]), add_assoc (expand (below hash groups))]
    · have h1 : below hash (g :: groups) = below hash groups := by simp [below, h.le]
      have h2 : above hash (g :: groups) = g :: above hash groups := by simp [above, h]
      rw [h1, h2, equal_cons_ne h.ne', expand_cons g (above hash groups), add_left_comm]

theorem pairs_add_right (lhs : Multiset (ℕ × L)) (rhs rhs' : Multiset (ℕ × R)) :
    pairs lhs (rhs + rhs') = pairs lhs rhs + pairs lhs rhs' :=
  Multiset.add_bind _ _ _

theorem pairs_add_left (lhs lhs' : Multiset (ℕ × L)) (rhs : Multiset (ℕ × R)) :
    pairs (lhs + lhs') rhs = pairs lhs rhs + pairs lhs' rhs := by
  simp [pairs, Multiset.filter_add, Multiset.map_add, Multiset.bind_add]

theorem pairs_eq_zero {lhs : Multiset (ℕ × L)} {rhs : Multiset (ℕ × R)}
    (h : ∀ l ∈ lhs, ∀ r ∈ rhs, l.1 ≠ r.1) : pairs lhs rhs = 0 := by
  apply Multiset.eq_zero_of_forall_notMem
  intro p hp
  obtain ⟨r, hr, hp⟩ := Multiset.mem_bind.mp hp
  obtain ⟨l, hl, -⟩ := Multiset.mem_map.mp hp
  obtain ⟨hl, heq⟩ := Multiset.mem_filter.mp hl
  exact h l hl r hr heq

def crossRows (matched : List L) (records : List R) : List (L × R) :=
  records.flatMap fun r => matched.map fun l => (l, r)

theorem crossRows_perm {matched matched' : List L} (h : matched.Perm matched') (records : List R) :
    (crossRows matched records).Perm (crossRows matched' records) := by
  induction records with
  | nil => exact List.Perm.nil
  | cons r records ih =>
    simp only [crossRows, List.flatMap_cons]
    exact (h.map _).append ih

theorem pairs_equal (groups : List (Group L)) (hash : ℕ) (records : List R) :
    pairs (expand (equal hash groups)) (expand [(hash, records)]) =
      ↑(crossRows ((equal hash groups).flatMap Prod.snd) records) := by
  have hall : ∀ l ∈ expand (equal hash groups), l.1 = hash := by
    intro l hl
    obtain ⟨g, hg, hgl, -⟩ := mem_expand.mp hl
    rw [← hgl]
    exact (mem_equal.mp hg).2
  have hmap (r : R) : (expand (equal hash groups)).map (fun l => (l.2, r)) =
      ↑(((equal hash groups).flatMap Prod.snd).map fun l => (l, r)) := by
    simp [expand, List.map_flatMap, Function.comp_def]
  induction records with
  | nil => rfl
  | cons r records ih =>
    have hcons : expand [(hash, r :: records)] = (hash, r) ::ₘ expand [(hash, records)] := by simp [expand]
    rw [hcons, pairs, Multiset.cons_bind, Multiset.filter_eq_self.mpr hall, hmap]
    rw [pairs] at ih
    rw [ih]
    simp [crossRows]

theorem pairs_least (groups : List (Group L)) {g : Group R} {rhs : Multiset (ℕ × R)}
    (h : ∀ r ∈ rhs, g.1 < r.1) :
    pairs (expand groups) (expand [g] + rhs) =
      ↑(crossRows ((equal g.1 groups).flatMap Prod.snd) g.2) + pairs (expand (above g.1 groups)) rhs := by
  have hfar : pairs (expand (below g.1 groups) + expand (equal g.1 groups)) rhs = 0 := by
    apply pairs_eq_zero
    intro l hl r hr
    have hlt := h r hr
    obtain hl | hl := Multiset.mem_add.mp hl
    · obtain ⟨g', hg', hl1, -⟩ := mem_expand.mp hl
      have hb : g'.1 < g.1 := by simpa [below] using (List.mem_filter.mp hg').2
      omega
    · obtain ⟨g', hg', hl1, -⟩ := mem_expand.mp hl
      have hb := (mem_equal.mp hg').2
      omega
  have hnear {others : List (Group L)} (ho : ∀ g' ∈ others, g'.1 ≠ g.1) :
      pairs (expand others) (expand [g]) = 0 := by
    apply pairs_eq_zero
    intro l hl r hr
    obtain ⟨g', hg', hl1, -⟩ := mem_expand.mp hl
    obtain ⟨g'', hg'', hr1, -⟩ := mem_expand.mp hr
    rw [List.mem_singleton.mp hg''] at hr1
    rw [← hl1, ← hr1]
    exact ho g' hg'
  have hbelow : pairs (expand (below g.1 groups)) (expand [g]) = 0 := by
    apply hnear
    intro g' hg'
    have hb : g'.1 < g.1 := by simpa [below] using (List.mem_filter.mp hg').2
    exact hb.ne
  have habove : pairs (expand (above g.1 groups)) (expand [g]) = 0 := by
    apply hnear
    intro g' hg'
    exact (mem_above.mp hg').2.ne'
  rw [pairs_add_right, expand_split g.1 groups, pairs_add_left, pairs_add_left _ _ rhs, hfar, zero_add,
    pairs_add_left, hbelow, habove, pairs_equal, zero_add, add_zero]

end Pairs

section Safe

theorem LastGroupSafe.congr {lhs lhs' rhs rhs' : List ℕ} (hl : lhs.Perm lhs') (hr : ∀ r, r ∈ rhs ↔ r ∈ rhs') :
    LastGroupSafe lhs rhs ↔ LastGroupSafe lhs' rhs' := by
  simp only [LastGroupSafe, hl.mem_iff, hl.count_eq, hr]

theorem lastGroupSafe_nil (rhs : List ℕ) : LastGroupSafe [] rhs := by
  simp [LastGroupSafe]

variable {groups : List (Group L)} {hash : ℕ} {rhs : List ℕ}

theorem count_hashes (m : ℕ) : (hashes groups).count m = (equal m groups).length := by
  rw [hashes, List.count, List.countP_map, List.countP_eq_length_filter, equal]
  rfl

theorem mem_hashes {m : ℕ} : m ∈ hashes groups ↔ ∃ g ∈ groups, g.1 = m := by
  simp [hashes]

theorem lastGroupSafe_above (hne : above hash groups ≠ []) :
    LastGroupSafe (hashes groups) (hash :: rhs) ↔ LastGroupSafe (hashes (above hash groups)) rhs := by
  obtain ⟨g₀, hg₀⟩ := List.exists_mem_of_ne_nil _ hne
  obtain ⟨hg₀, hlt₀⟩ := mem_above.mp hg₀
  have hequal {m : ℕ} (hm : hash < m) : equal m (above hash groups) = equal m groups := by
    simp only [equal, above, List.filter_filter]
    apply List.filter_congr
    intro g _
    have hiff : (g.1 = m ∧ hash < g.1) ↔ g.1 = m := by omega
    simpa using hiff
  have hrest {m : ℕ} (hm : hash < m) :
      ((m ∈ hash :: rhs ∧ (hashes groups).count m = 1) ∨ ∀ r ∈ hash :: rhs, r < m) ↔
        ((m ∈ rhs ∧ (hashes (above hash groups)).count m = 1) ∨ ∀ r ∈ rhs, r < m) := by
    rw [count_hashes, count_hashes, hequal hm]
    simp [hm, hm.ne']
  constructor
  · intro h m hm hmax
    obtain ⟨g, hg, rfl⟩ := mem_hashes.mp hm
    obtain ⟨hg, hlt⟩ := mem_above.mp hg
    apply (hrest hlt).mp
    apply h g.1 (mem_hashes.mpr ⟨g, hg, rfl⟩)
    intro l hl
    obtain ⟨g', hg', rfl⟩ := mem_hashes.mp hl
    by_cases hgt : hash < g'.1
    · exact hmax g'.1 (mem_hashes.mpr ⟨g', mem_above.mpr ⟨hg', hgt⟩, rfl⟩)
    · omega
  · intro h m hm hmax
    have hlt : hash < m := Nat.lt_of_lt_of_le hlt₀ (hmax g₀.1 (mem_hashes.mpr ⟨g₀, hg₀, rfl⟩))
    obtain ⟨g, hg, rfl⟩ := mem_hashes.mp hm
    apply (hrest hlt).mpr
    apply h g.1 (mem_hashes.mpr ⟨g, mem_above.mpr ⟨hg, hlt⟩, rfl⟩)
    intro l hl
    obtain ⟨g', hg', rfl⟩ := mem_hashes.mp hl
    exact hmax g'.1 (mem_hashes.mpr ⟨g', (mem_above.mp hg').1, rfl⟩)

theorem lastGroupSafe_last (hne : groups ≠ []) (hnone : above hash groups = []) (hr : ∀ r ∈ rhs, hash < r) :
    LastGroupSafe (hashes groups) (hash :: rhs) ↔ (equal hash groups).length = 1 := by
  have hle := above_eq_nil_iff.mp hnone
  constructor
  · intro h
    obtain ⟨m, hm, hmax⟩ : ∃ m ∈ hashes groups, ∀ l ∈ hashes groups, l ≤ m := by
      have hlist : hashes groups ≠ [] := by simpa [hashes] using hne
      refine ⟨(hashes groups).max hlist, List.max_mem hlist, ?_⟩
      intro l hl
      exact List.le_max_of_mem hl
    have hm' : m ≤ hash := by
      obtain ⟨g, hg, rfl⟩ := mem_hashes.mp hm
      exact hle g hg
    obtain ⟨hin, hcount⟩ | hlt := h m hm hmax
    · obtain rfl | hin := List.mem_cons.mp hin
      · rwa [count_hashes] at hcount
      · have := hr m hin
        omega
    · have := hlt hash List.mem_cons_self
      omega
  · intro hone m hm hmax
    obtain ⟨g, hg⟩ := List.length_eq_one_iff.mp hone
    have hin : g ∈ equal hash groups := by simp [hg]
    obtain ⟨hgin, hghash⟩ := mem_equal.mp hin
    have hmh : m = hash := by
      obtain ⟨g', hg', rfl⟩ := mem_hashes.mp hm
      have h1 := hle g' hg'
      have h2 := hmax g.1 (mem_hashes.mpr ⟨g, hgin, rfl⟩)
      omega
    subst hmh
    refine Or.inl ⟨List.mem_cons_self, ?_⟩
    rw [count_hashes, hone]

end Safe

section Join

theorem replicate_append {rows rows' : List R} {counts counts' : List ℕ} (h : rows.length = counts.length) :
    replicate (rows ++ rows') (counts ++ counts') = replicate rows counts ++ replicate rows' counts' := by
  rw [replicate, List.zipWith_append h, List.flatten_append]
  rfl

theorem zip_replicate_one (matched : List L) (r : R) :
    matched.zip (List.replicate matched.length r) = matched.map fun l => (l, r) := by
  induction matched with
  | nil => rfl
  | cons l matched ih => simp [List.replicate_succ, ih]

theorem zip_replicate (matched : List L) (records : List R) :
    ((List.replicate records.length matched).flatten).length =
        (replicate records (List.replicate records.length matched.length)).length ∧
      ((List.replicate records.length matched).flatten).zip
        (replicate records (List.replicate records.length matched.length)) = crossRows matched records := by
  induction records with
  | nil => exact ⟨rfl, rfl⟩
  | cons r records ih =>
    have hcons : replicate (r :: records) (List.replicate (r :: records).length matched.length) =
        List.replicate matched.length r ++ replicate records (List.replicate records.length matched.length) := rfl
    rw [hcons, List.length_cons, List.replicate_succ, List.flatten_cons]
    constructor
    · rw [List.length_append, List.length_append, List.length_replicate, ih.1]
    · rw [List.zip_append (by simp), ih.2, zip_replicate_one]
      rfl

theorem card_expand (groups : List (Group V)) : (expand groups).card = (groups.flatMap Prod.snd).length := by
  simp [expand, List.length_flatMap]

theorem card_expand_one (g : Group V) : (expand [g]).card = g.2.length := by
  simp [expand]

theorem length_flatten_replicate (n : ℕ) (matched : List L) :
    (List.replicate n matched).flatten.length = matched.length * n := by
  simp [Nat.mul_comm]

theorem crossRows_length (matched : List L) (records : List R) :
    (crossRows matched records).length = matched.length * records.length := by
  simp [crossRows, List.length_flatMap, Nat.mul_comm]

variable (q : Queue L)

inductive Joined (groups : List (Group L)) (block rest : List (Group R)) :
    Except Stop (List L × List ℕ × List (JoinMapIterator L)) → Prop
  | undefined : ¬ LastGroupSafe (hashes groups) (hashes (block ++ rest)) →
      Joined groups block rest (.error .undefined)
  | rows (column : List L) (counts : List ℕ) (next : List (JoinMapIterator L)) (extra : Multiset (L × R)) :
      Sorted next → next.flatten ⊆ groups →
      column.length = (replicate (block.flatMap Prod.snd) counts).length →
      ↑(column.zip (replicate (block.flatMap Prod.snd) counts)) + pairs (expand next.flatten) (expand rest) =
        pairs (expand groups) (expand (block ++ rest)) + extra →
      (LastGroupSafe (hashes groups) (hashes (block ++ rest)) ↔
        extra = 0 ∧ LastGroupSafe (hashes next.flatten) (hashes rest)) →
      column.length ≤ (expand groups).card * (expand block).card →
      (expand next.flatten).card ≤ (expand groups).card →
      Joined groups block rest (.ok (column, counts, next))

theorem joinHashes_cons {g : Group R} {block : List (Group R)} {taken : List (List L)}
    {lhsIterators next next' : List (JoinMapIterator L)} {column : List L} {counts : List ℕ}
    (hm : matchHash q g.1 lhsIterators = .ok (taken, next))
    (hj : joinHashes q (block.map fun g => (g.1, g.2.length)) next = .ok (column, counts, next')) :
    joinHashes q ((g :: block).map fun g => (g.1, g.2.length)) lhsIterators =
      .ok ((List.replicate g.2.length taken.flatten).flatten ++ column,
        List.replicate g.2.length taken.flatten.length ++ counts, next') := by
  rw [List.map_cons, joinHashes, hm, ok_bind]
  dsimp only
  rw [hj, ok_bind, List.length_flatten]

theorem rows_cons (g : Group R) {block : List (Group R)} (matched : List L) {column : List L} {counts : List ℕ}
    (hlen : column.length = (replicate (block.flatMap Prod.snd) counts).length) :
    ((List.replicate g.2.length matched).flatten ++ column).length =
        (replicate ((g :: block).flatMap Prod.snd)
          (List.replicate g.2.length matched.length ++ counts)).length ∧
      ((List.replicate g.2.length matched).flatten ++ column).zip
          (replicate ((g :: block).flatMap Prod.snd) (List.replicate g.2.length matched.length ++ counts)) =
        crossRows matched g.2 ++ column.zip (replicate (block.flatMap Prod.snd) counts) := by
  obtain ⟨hl, hz⟩ := zip_replicate matched g.2
  rw [List.flatMap_cons, replicate_append (by simp)]
  constructor
  · rw [List.length_append, List.length_append, hl, hlen]
  · rw [List.zip_append hl, hz]

theorem hashes_cons (g : Group V) (groups : List (Group V)) : hashes (g :: groups) = g.1 :: hashes groups := rfl

theorem Joined.of_taken {groups : List (Group L)} {lhsIterators next : List (JoinMapIterator L)} {g : Group R}
    {block rest : List (Group R)} {taken : List (Group L)}
    (hlt : ∀ g' ∈ block ++ rest, g.1 < g'.1) (htaken : taken.Perm (equal g.1 groups))
    (hnext : next.flatten.Perm (above g.1 groups))
    (hlast : above g.1 groups = [] → groups = [] ∨ (equal g.1 groups).length = 1)
    (hm : matchHash q g.1 lhsIterators = .ok (taken.map Prod.snd, next))
    (ih : Joined next.flatten block rest (joinHashes q (block.map fun g => (g.1, g.2.length)) next)) :
    Joined groups (g :: block) rest
      (joinHashes q ((g :: block).map fun g => (g.1, g.2.length)) lhsIterators) := by
  have hhashes : (hashes next.flatten).Perm (hashes (above g.1 groups)) := hnext.map _
  have hsafe : LastGroupSafe (hashes groups) (hashes (g :: block ++ rest)) ↔
      LastGroupSafe (hashes next.flatten) (hashes (block ++ rest)) := by
    rw [List.cons_append, hashes_cons, LastGroupSafe.congr hhashes fun _ => Iff.rfl]
    by_cases habove : above g.1 groups = []
    · rw [habove]
      obtain hnil | hone := hlast habove
      · rw [hnil]
        exact ⟨fun _ => lastGroupSafe_nil _, fun _ => lastGroupSafe_nil _⟩
      · have hne : groups ≠ [] := by
          rintro rfl
          simp [equal] at hone
        have hrhs : ∀ r ∈ hashes (block ++ rest), g.1 < r := by
          intro r hr
          obtain ⟨g', hg', rfl⟩ := mem_hashes.mp hr
          exact hlt g' hg'
        rw [lastGroupSafe_last hne habove hrhs]
        exact ⟨fun _ => lastGroupSafe_nil _, fun _ => hone⟩
    · exact lastGroupSafe_above habove
  have hflat : ((taken.map Prod.snd).flatten).Perm ((equal g.1 groups).flatMap Prod.snd) := by
    rw [← List.flatMap_def]
    exact htaken.flatMap_right _
  have hpairs : pairs (expand groups) (expand (g :: block ++ rest)) =
      ↑(crossRows ((taken.map Prod.snd).flatten) g.2) + pairs (expand next.flatten) (expand (block ++ rest)) := by
    rw [List.cons_append, expand_cons, pairs_least, expand_perm hnext]
    · rw [Multiset.coe_eq_coe.mpr (crossRows_perm hflat g.2)]
    · intro r hr
      obtain ⟨g', hg', hr1, -⟩ := mem_expand.mp hr
      rw [← hr1]
      exact hlt g' hg'
  have hcard := congrArg Multiset.card (expand_split g.1 groups)
  rw [Multiset.card_add, Multiset.card_add, card_expand (equal g.1 groups), ← hflat.length_eq,
    ← expand_perm hnext] at hcard
  generalize hres : joinHashes q (block.map fun g => (g.1, g.2.length)) next = res at ih
  cases ih with
  | undefined hunsafe =>
    rw [List.map_cons, joinHashes, hm, ok_bind]
    dsimp only
    rw [hres]
    exact .undefined (mt hsafe.mp hunsafe)
  | rows column counts next' extra hs hsub hlen heq hiff hcol hle =>
    obtain ⟨hlen', hzip⟩ := rows_cons g ((taken.map Prod.snd).flatten) hlen
    rw [joinHashes_cons q hm hres]
    refine .rows _ _ next' extra hs ?_ hlen' ?_ (hsafe.trans hiff) ?_ (hle.trans (by omega))
    · intro g' hg'
      exact (mem_above.mp (hnext.mem_iff.mp (hsub hg'))).1
    · rw [hzip, ← Multiset.coe_add, add_assoc, heq, hpairs, add_assoc]
    · rw [List.length_append, length_flatten_replicate, expand_cons, Multiset.card_add, Nat.mul_add, card_expand_one]
      apply Nat.add_le_add
      · exact Nat.mul_le_mul_right _ (by omega)
      · exact hcol.trans (Nat.mul_le_mul_right _ (by omega))

theorem Joined.of_mistaken {groups : List (Group L)} {lhsIterators : List (JoinMapIterator L)} {g : Group R}
    {block rest : List (Group R)} {last : Group L}
    (hlt : ∀ g' ∈ block ++ rest, g.1 < g'.1) (hrecords : g.2 ≠ []) (hlive : last.2 ≠ [])
    (hlast : last ∈ groups) (habove : above g.1 groups = []) (hequal : equal g.1 groups = [])
    (hm : matchHash q g.1 lhsIterators = .ok ([last.2], []))
    (ih : Joined [] block rest (joinHashes q (block.map fun g => (g.1, g.2.length)) [])) :
    Joined groups (g :: block) rest
      (joinHashes q ((g :: block).map fun g => (g.1, g.2.length)) lhsIterators) := by
  have hunsafe : ¬ LastGroupSafe (hashes groups) (hashes (g :: block ++ rest)) := by
    rw [List.cons_append, hashes_cons, lastGroupSafe_last (List.ne_nil_of_mem hlast) habove, hequal]
    · simp
    · intro r hr
      obtain ⟨g', hg', rfl⟩ := mem_hashes.mp hr
      exact hlt g' hg'
  have hpairs : pairs (expand groups) (expand (g :: block ++ rest)) = 0 := by
    rw [List.cons_append, expand_cons, pairs_least, hequal, habove]
    · simp [crossRows, expand, pairs]
    · intro r hr
      obtain ⟨g', hg', hr1, -⟩ := mem_expand.mp hr
      rw [← hr1]
      exact hlt g' hg'
  generalize hres : joinHashes q (block.map fun g => (g.1, g.2.length)) [] = res at ih
  cases ih with
  | undefined hu => exact absurd (lastGroupSafe_nil _) hu
  | rows column counts next' extra hs hsub hlen heq hiff hcol hle =>
    have hnil : next'.flatten = [] := List.eq_nil_of_subset_nil hsub
    have hzero : pairs (expand ([] : List (Group L))) (expand (block ++ rest)) = 0 := by
      apply pairs_eq_zero
      simp [expand]
    have hextra : extra = 0 := (hiff.mp (lastGroupSafe_nil _)).1
    have hnone : column = [] := by
      have h0 : column.length ≤ 0 := by simpa [expand] using hcol
      exact List.eq_nil_of_length_eq_zero (Nat.le_zero.mp h0)
    obtain ⟨hlen', hzip⟩ := rows_cons g last.2 hlen
    have hrows : (crossRows last.2 g.2 : Multiset (L × R)) ≠ 0 := by
      rw [Ne, ← Multiset.card_eq_zero, Multiset.coe_card, crossRows_length]
      have h1 := List.length_pos_of_ne_nil hlive
      have h2 := List.length_pos_of_ne_nil hrecords
      exact (Nat.mul_pos h1 h2).ne'
    rw [joinHashes_cons q hm hres]
    simp only [List.flatten_singleton]
    refine .rows _ _ next' (crossRows last.2 g.2) hs ?_ hlen' ?_ ?_ ?_ ?_
    · rw [hnil]
      exact List.nil_subset _
    · rw [hzip, hpairs, zero_add, hnone, hnil, List.zip_nil_left, List.append_nil]
      rw [hnil, hzero, hextra, hnone] at heq
      simpa using heq
    · exact ⟨fun h => absurd h hunsafe, fun h => absurd h.1 hrows⟩
    · rw [hnone, List.append_nil, length_flatten_replicate, expand_cons, Multiset.card_add, card_expand_one,
        Nat.mul_add]
      have h1 : (expand [last]).card ≤ (expand groups).card := by
        obtain ⟨rest', hrest'⟩ := List.append_of_mem hlast
        obtain ⟨after, rfl⟩ := hrest'
        simp [expand]
        omega
      rw [card_expand_one] at h1
      exact Nat.le_add_right_of_le (Nat.mul_le_mul_right _ h1)
    · rw [hnil]
      exact Nat.zero_le _

theorem joinHashes_spec {block rest : List (Group R)} {lhsIterators : List (JoinMapIterator L)}
    (h : Sorted lhsIterators) (hlive : ∀ g ∈ lhsIterators.flatten, g.2 ≠ [])
    (hblock : ∀ g ∈ block, g.2 ≠ []) (hasc : block.Pairwise fun g g' => g.1 < g'.1)
    (hrest : ∀ g ∈ block, ∀ g' ∈ rest, g.1 < g'.1) :
    Joined lhsIterators.flatten block rest
      (joinHashes q (block.map fun g => (g.1, g.2.length)) lhsIterators) := by
  induction block generalizing lhsIterators with
  | nil =>
    refine .rows [] [] lhsIterators 0 h (List.Subset.refl _) rfl ?_ ?_ (Nat.zero_le _) (Nat.le_refl _)
    · simp
    · simp
  | cons g block ih =>
    obtain ⟨hfirst, hasc⟩ := List.pairwise_cons.mp hasc
    have hlt : ∀ g' ∈ block ++ rest, g.1 < g'.1 := by
      intro g' hg'
      obtain hg' | hg' := List.mem_append.mp hg'
      · exact hfirst g' hg'
      · exact hrest g List.mem_cons_self g' hg'
    have hblock' : ∀ g' ∈ block, g'.2 ≠ [] := fun g' hg' => hblock g' (List.mem_cons_of_mem _ hg')
    have hrest' : ∀ g' ∈ block, ∀ g'' ∈ rest, g'.1 < g''.1 := fun g' hg' =>
      hrest g' (List.mem_cons_of_mem _ hg')
    have hmatched := @matchHash_spec _ q g.1 _ h
    generalize hm : matchHash q g.1 lhsIterators = res at hmatched
    cases hmatched with
    | undefined habove htwo =>
      rw [List.map_cons, joinHashes, hm]
      refine .undefined ?_
      have hne : lhsIterators.flatten ≠ [] := by
        intro hnil
        simp [hnil, equal] at htwo
      have hrhs : ∀ r ∈ hashes (block ++ rest), g.1 < r := by
        intro r hr
        obtain ⟨g', hg', rfl⟩ := mem_hashes.mp hr
        exact hlt g' hg'
      rw [List.cons_append, hashes_cons, lastGroupSafe_last hne habove hrhs]
      omega
    | joined taken next hs htaken hnext hlast =>
      refine Joined.of_taken q hlt htaken hnext hlast hm (ih hs ?_ hblock' hasc hrest')
      intro g' hg'
      exact hlive g' (mem_above.mp (hnext.mem_iff.mp hg')).1
    | mistaken last hlast habove hequal =>
      have hempty : Sorted ([] : List (JoinMapIterator L)) := ⟨by simp, by simp⟩
      exact Joined.of_mistaken q hlt (hblock g List.mem_cons_self) (hlive last hlast) hlast habove hequal hm
        (ih hempty (by simp) hblock' hasc hrest')

end Join

end PlinyCompute.ShuffleJoin
