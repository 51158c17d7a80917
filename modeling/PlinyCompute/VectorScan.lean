import PlinyCompute.SizePolicy

namespace PlinyCompute.VectorScan

open SizePolicy

variable {α : Type}

/-- In case of failure the rows of the output column go into the buffer, which is null until a page was
seen. When the buffer already holds rows the source inserts the column and then clears the buffer instead
of the column. The result is the column and the buffer. -/
def requeue (policy : PDBTupleSetSizePolicy) (output : List α) :
    Option (List α) → List α × Option (List α)
  | none => (output, none)
  | some buffer =>
    if policy.inputWasProcessed then (output, some buffer)
    else if buffer.isEmpty then (buffer, some output)
    else (output, some [])

/-- A page of the page set is the `Vector` at its root. The column of `output` and `inputBuffer` hold
rows. -/
structure VectorTupleSetIterator (α : Type) where
  pageSet : List (List α)
  curPage : Option (List α)
  lastPage : Option (List α)
  pos : ℕ
  output : List α
  inputBuffer : Option (List α)
  deriving DecidableEq, Repr

namespace VectorTupleSetIterator

def ofPageSet : List (List α) → VectorTupleSetIterator α
  | [] => ⟨[], none, none, 0, [], none⟩
  | page :: pages => ⟨pages, some page, none, 0, [], some []⟩

def rebuffer (it : VectorTupleSetIterator α) (policy : PDBTupleSetSizePolicy) : VectorTupleSetIterator α :=
  { it with
    output := (requeue policy it.output it.inputBuffer).1
    inputBuffer := (requeue policy it.output it.inputBuffer).2 }

def fromBuffer (it : VectorTupleSetIterator α) (buffer : List α) (chunkSize : ℕ) :
    VectorTupleSetIterator α × Option (List α) :=
  let numToCopy := min chunkSize buffer.length
  let rows := buffer.drop (buffer.length - numToCopy)
  ({ it with output := rows, inputBuffer := some (buffer.take (buffer.length - numToCopy)) }, some rows)

def fill (it : VectorTupleSetIterator α) (iterateOverMe : List α) (chunkSize : ℕ) :
    VectorTupleSetIterator α × Option (List α) :=
  let numSlotsToIterate := if chunkSize + it.pos > iterateOverMe.length
    then iterateOverMe.length - it.pos else chunkSize
  let rows := (iterateOverMe.drop it.pos).take numSlotsToIterate
  ({ it with pos := it.pos + numSlotsToIterate, output := rows }, some rows)

def fromPage (it : VectorTupleSetIterator α) (chunkSize : ℕ) :
    VectorTupleSetIterator α × Option (List α) :=
  let it := { it with lastPage := none }
  match it.curPage with
  | none => (it, none)
  | some iterateOverMe =>
    if it.pos = iterateOverMe.length then
      match it.pageSet with
      | [] => ({ it with lastPage := some iterateOverMe, curPage := none }, none)
      | page :: pages =>
        fill { it with lastPage := some iterateOverMe, curPage := some page, pageSet := pages, pos := 0 }
          page chunkSize
    else fill it iterateOverMe chunkSize

def getNextTupleSet (it : VectorTupleSetIterator α) (policy : PDBTupleSetSizePolicy) :
    VectorTupleSetIterator α × Option (List α) :=
  let it := it.rebuffer policy
  match it.inputBuffer with
  | some (x :: xs) => it.fromBuffer (x :: xs) policy.getChunksSize
  | _ => it.fromPage policy.getChunksSize

def delivered (it : VectorTupleSetIterator α) : List PDBTupleSetSizePolicy → Option (List α)
  | [] => none
  | policy :: policies =>
    match it.getNextTupleSet policy with
    | (_, none) => some []
    | (it', some rows) =>
      (it'.delivered policies).map fun rest =>
        if policies.head?.all PDBTupleSetSizePolicy.inputWasProcessed then rows ++ rest else rest

def FailsOnlyUnbuffered (it : VectorTupleSetIterator α) : List PDBTupleSetSizePolicy → Prop
  | [] => True
  | policy :: policies =>
    (policy.inputWasProcessed = false → it.inputBuffer.getD [] = []) ∧
      ((it.getNextTupleSet policy).2 = none ∨ (it.getNextTupleSet policy).1.FailsOnlyUnbuffered policies)

def unread (it : VectorTupleSetIterator α) : List α :=
  match it.curPage with
  | none => []
  | some iterateOverMe => iterateOverMe.drop it.pos ++ it.pageSet.flatten

def pending (it : VectorTupleSetIterator α) (policy : PDBTupleSetSizePolicy) : List α :=
  (if policy.inputWasProcessed then [] else it.output) ++ it.inputBuffer.getD [] ++ it.unread

def WellFormed (it : VectorTupleSetIterator α) : Prop :=
  (it.inputBuffer = none → it.output = [] ∧ it.curPage = none) ∧
    ∀ page, it.curPage = some page → it.pos ≤ page.length

theorem ofPageSet_wellFormed (pages : List (List α)) : (ofPageSet pages).WellFormed := by
  cases pages with
  | nil => simp [ofPageSet, WellFormed]
  | cons page pages => simp [ofPageSet, WellFormed]

theorem rebuffer_wellFormed {it : VectorTupleSetIterator α} (policy : PDBTupleSetSizePolicy)
    (h : it.WellFormed) : (it.rebuffer policy).WellFormed := by
  cases hb : it.inputBuffer with
  | none => simpa [rebuffer, requeue, hb, WellFormed] using h
  | some buffer =>
    refine ⟨fun hn => ?_, h.2⟩
    simp only [rebuffer, requeue, hb] at hn
    split_ifs at hn

theorem rebuffer_unread (it : VectorTupleSetIterator α) (policy : PDBTupleSetSizePolicy) :
    (it.rebuffer policy).unread = it.unread := rfl

theorem rebuffer_buffer {it : VectorTupleSetIterator α} {policy : PDBTupleSetSizePolicy}
    (h : it.WellFormed) (hu : policy.inputWasProcessed = false → it.inputBuffer.getD [] = []) :
    (it.rebuffer policy).inputBuffer.getD [] ++ it.unread = it.pending policy := by
  cases hb : it.inputBuffer with
  | none => simp [rebuffer, requeue, pending, hb, (h.1 hb).1]
  | some buffer =>
    cases hp : policy.inputWasProcessed with
    | true => simp [rebuffer, requeue, pending, hb, hp]
    | false =>
      have he : buffer = [] := by simpa [hb] using hu hp
      simp [rebuffer, requeue, pending, hb, hp, he]

theorem rebuffer_lost {it : VectorTupleSetIterator α} {policy : PDBTupleSetSizePolicy}
    (hp : policy.inputWasProcessed = false) (hb : it.inputBuffer.getD [] ≠ []) :
    (it.rebuffer policy).inputBuffer.getD [] = [] ∧ it.unread.length < (it.pending policy).length := by
  cases hi : it.inputBuffer with
  | none => simp [hi] at hb
  | some buffer =>
    have hne : buffer ≠ [] := by simpa [hi] using hb
    have hpos := List.length_pos_of_ne_nil hne
    refine ⟨by simp [rebuffer, requeue, hi, hp, hne], ?_⟩
    simp only [pending, hp, hi, Option.getD_some, List.length_append]
    omega

theorem fill_spec {it : VectorTupleSetIterator α} {page : List α} (chunkSize : ℕ)
    (hc : it.curPage = some page) (hpos : it.pos ≤ page.length) (hb : it.inputBuffer ≠ none) :
    ∃ rows it', it.fill page chunkSize = (it', some rows) ∧ it'.output = rows ∧ it'.WellFormed ∧
      it'.inputBuffer = it.inputBuffer ∧ rows ++ it'.unread = it.unread ∧ it'.pageSet = it.pageSet ∧
      (1 ≤ chunkSize → it.pos < page.length → 1 ≤ rows.length) := by
  let n := if chunkSize + it.pos > page.length then page.length - it.pos else chunkSize
  have hn : it.pos + n ≤ page.length := by
    simp only [n]
    split_ifs <;> omega
  refine ⟨(page.drop it.pos).take n, _, rfl, rfl, ⟨?_, ?_⟩, rfl, ?_, rfl, ?_⟩
  · exact fun h => absurd h hb
  · intro page' h
    cases hc.symm.trans h
    exact hn
  · simp only [unread, hc]
    rw [← List.append_assoc, ← List.drop_drop, List.take_append_drop]
  · intro h1 h2
    simp only [List.length_take, List.length_drop, n]
    split_ifs <;> omega

def reachable (it : VectorTupleSetIterator α) : List α := it.inputBuffer.getD [] ++ it.unread

def work (it : VectorTupleSetIterator α) : ℕ := it.reachable.length + it.pageSet.length

theorem fromBuffer_spec {it it' : VectorTupleSetIterator α} {buffer rows : List α} {chunkSize : ℕ}
    (h : it.WellFormed) (hb : it.inputBuffer = some buffer) (hne : buffer ≠ [])
    (he : it.fromBuffer buffer chunkSize = (it', some rows)) :
    it'.WellFormed ∧ it'.output = rows ∧ (rows ++ it'.reachable).Perm it.reachable ∧
      rows.length + it'.work ≤ it.work ∧ (1 ≤ chunkSize → it'.work < it.work) := by
  have hpos := List.length_pos_of_ne_nil hne
  cases he
  refine ⟨⟨by simp, h.2⟩, rfl, ?_, ?_, ?_⟩
  · simp only [reachable, unread, hb, Option.getD_some, ← List.append_assoc]
    refine List.Perm.append_right _ (List.perm_append_comm.trans ?_)
    rw [List.take_append_drop]
  · simp only [work, reachable, unread, hb, Option.getD_some, List.length_append, List.length_take,
      List.length_drop]
    omega
  · intro hc
    simp only [work, reachable, unread, hb, Option.getD_some, List.length_append, List.length_take]
    omega

theorem fromPage_none {it it' : VectorTupleSetIterator α} {chunkSize : ℕ}
    (he : it.fromPage chunkSize = (it', none)) : it.unread = [] := by
  unfold fromPage at he
  cases hc : it.curPage with
  | none => simp [unread, hc]
  | some page =>
    simp only [hc] at he
    split_ifs at he with hp
    · cases hs : it.pageSet with
      | nil => simp [unread, hc, hs, hp]
      | cons page' pages => simp [hs, fill] at he
    · simp [fill] at he

theorem fromPage_some {it it' : VectorTupleSetIterator α} {rows : List α} {chunkSize : ℕ}
    (h : it.WellFormed) (hb : it.inputBuffer.getD [] = []) (he : it.fromPage chunkSize = (it', some rows)) :
    it'.WellFormed ∧ it'.output = rows ∧ rows ++ it'.reachable = it.reachable ∧
      rows.length + it'.work ≤ it.work ∧ (1 ≤ chunkSize → it'.work < it.work) := by
  unfold fromPage at he
  cases hc : it.curPage with
  | none => simp [hc] at he
  | some page =>
    have hbuf : it.inputBuffer ≠ none := fun hn => by simp [(h.1 hn).2] at hc
    simp only [hc] at he
    split_ifs at he with hp
    · cases hs : it.pageSet with
      | nil => simp [hs] at he
      | cons page' pages =>
        simp only [hs] at he
        have hc₀ :
            { it with lastPage := some page, curPage := some page', pageSet := pages, pos := 0 }.curPage =
              some page' := rfl
        obtain ⟨rows', it₁, hf, ho, hw, hi, hr, hps, -⟩ := fill_spec chunkSize hc₀ (Nat.zero_le _) hbuf
        cases hf.symm.trans he
        have hu : rows ++ it'.unread = it.unread := by
          rw [hr]
          simp [unread, hc, hs, hp]
        have hbuf' : it'.inputBuffer.getD [] = [] := by rw [hi]; exact hb
        have hl := congrArg List.length hu
        refine ⟨hw, ho, by simp [reachable, hbuf', hb, hu], ?_, fun _ => ?_⟩
        all_goals
          simp only [work, reachable, hbuf', hb, hps, hs, List.length_append, List.length_cons] at hl ⊢
          omega
    · have hc₀ : { it with lastPage := none, curPage := some page }.curPage = some page := rfl
      obtain ⟨rows', it₁, hf, ho, hw, hi, hr, hps, hpos⟩ := fill_spec chunkSize hc₀ (h.2 page hc) hbuf
      cases hf.symm.trans he
      have hu : rows ++ it'.unread = it.unread := by
        rw [hr]
        simp [unread, hc]
      have hbuf' : it'.inputBuffer.getD [] = [] := by rw [hi]; exact hb
      have hl := congrArg List.length hu
      simp only [List.length_append] at hl
      refine ⟨hw, ho, by simp [reachable, hbuf', hb, hu], ?_, fun h1 => ?_⟩
      · simp only [work, reachable, hbuf', hb, hps, List.length_append]
        omega
      · have hrows := hpos h1 (Nat.lt_of_le_of_ne (h.2 page hc) hp)
        simp only [work, reachable, hbuf', hb, hps, List.length_append]
        omega

theorem getNextTupleSet_none {it it' : VectorTupleSetIterator α} {policy : PDBTupleSetSizePolicy}
    (he : it.getNextTupleSet policy = (it', none)) : (it.rebuffer policy).reachable = [] := by
  unfold getNextTupleSet at he
  dsimp only at he
  split at he
  · simp [fromBuffer] at he
  · next hb =>
    have hu := fromPage_none he
    cases hi : (it.rebuffer policy).inputBuffer with
    | none => simp [reachable, hi, hu]
    | some buffer =>
      cases buffer with
      | nil => simp [reachable, hi, hu]
      | cons x xs => exact absurd hi (hb x xs)

theorem getNextTupleSet_some {it it' : VectorTupleSetIterator α} {policy : PDBTupleSetSizePolicy}
    {rows : List α} (h : it.WellFormed) (he : it.getNextTupleSet policy = (it', some rows)) :
    it'.WellFormed ∧ it'.output = rows ∧ (rows ++ it'.reachable).Perm (it.rebuffer policy).reachable ∧
      rows.length + it'.work ≤ (it.rebuffer policy).work ∧
      (1 ≤ policy.getChunksSize → it'.work < (it.rebuffer policy).work) := by
  have hw := rebuffer_wellFormed policy h
  unfold getNextTupleSet at he
  dsimp only at he
  split at he
  · next x xs hb => exact fromBuffer_spec hw hb (by simp) he
  · next hb =>
    have hnil : (it.rebuffer policy).inputBuffer.getD [] = [] := by
      cases hi : (it.rebuffer policy).inputBuffer with
      | none => rfl
      | some buffer =>
        cases buffer with
        | nil => rfl
        | cons x xs => exact absurd hi (hb x xs)
    obtain ⟨h1, h2, h3, h4⟩ := fromPage_some hw hnil he
    exact ⟨h1, h2, by rw [h3], h4⟩

theorem rebuffer_reachable {it : VectorTupleSetIterator α} {policy : PDBTupleSetSizePolicy}
    (h : it.WellFormed) (hu : policy.inputWasProcessed = false → it.inputBuffer.getD [] = []) :
    (it.rebuffer policy).reachable = it.pending policy := by
  rw [reachable, rebuffer_unread, rebuffer_buffer h hu]

theorem rebuffer_reachable_lt {it : VectorTupleSetIterator α} {policy : PDBTupleSetSizePolicy}
    (hp : policy.inputWasProcessed = false) (hb : it.inputBuffer.getD [] ≠ []) :
    (it.rebuffer policy).reachable.length < (it.pending policy).length := by
  obtain ⟨h1, h2⟩ := rebuffer_lost hp hb
  rw [reachable, rebuffer_unread, h1]
  exact h2

theorem rebuffer_reachable_le {it : VectorTupleSetIterator α} (policy : PDBTupleSetSizePolicy)
    (h : it.WellFormed) : (it.rebuffer policy).reachable.length ≤ (it.pending policy).length := by
  by_cases hu : policy.inputWasProcessed = false → it.inputBuffer.getD [] = []
  · rw [rebuffer_reachable h hu]
  · push Not at hu
    exact (rebuffer_reachable_lt hu.1 hu.2).le

theorem pending_next {it : VectorTupleSetIterator α} {rows : List α} (policy : PDBTupleSetSizePolicy)
    (h : it.output = rows) :
    it.pending policy = (if policy.inputWasProcessed then [] else rows) ++ it.reachable := by
  simp [pending, reachable, h]

theorem delivered_none {it it' : VectorTupleSetIterator α} {policy : PDBTupleSetSizePolicy}
    {policies : List PDBTupleSetSizePolicy} (he : it.getNextTupleSet policy = (it', none)) :
    it.delivered (policy :: policies) = some [] := by
  rw [delivered, he]

theorem delivered_last {it it' : VectorTupleSetIterator α} {policy : PDBTupleSetSizePolicy}
    {rows : List α} (he : it.getNextTupleSet policy = (it', some rows)) : it.delivered [policy] = none := by
  rw [delivered, he]
  rfl

theorem delivered_cons {it it' : VectorTupleSetIterator α} {policy next : PDBTupleSetSizePolicy}
    {policies : List PDBTupleSetSizePolicy} {rows : List α}
    (he : it.getNextTupleSet policy = (it', some rows)) :
    it.delivered (policy :: next :: policies) =
      (it'.delivered (next :: policies)).map fun rest =>
        (if next.inputWasProcessed then rows else []) ++ rest := by
  rw [delivered, he]
  refine congrArg (fun f => Option.map f (it'.delivered (next :: policies))) ?_
  funext rest
  cases hn : next.inputWasProcessed <;> simp [hn]

theorem delivered_cases {it : VectorTupleSetIterator α} {policy : PDBTupleSetSizePolicy}
    {policies : List PDBTupleSetSizePolicy} {out : List α}
    (hd : it.delivered (policy :: policies) = some out) :
    (∃ it', it.getNextTupleSet policy = (it', none) ∧ out = []) ∨
      ∃ it' rows next policies' rest, it.getNextTupleSet policy = (it', some rows) ∧
        policies = next :: policies' ∧ it'.delivered (next :: policies') = some rest ∧
        out = (if next.inputWasProcessed then rows else []) ++ rest := by
  cases he : it.getNextTupleSet policy with
  | mk it' r =>
    cases r with
    | none =>
      rw [delivered_none he] at hd
      cases hd
      exact Or.inl ⟨it', rfl, rfl⟩
    | some rows =>
      cases policies with
      | nil => simp [delivered_last he] at hd
      | cons next policies' =>
        rw [delivered_cons he, Option.map_eq_some_iff] at hd
        obtain ⟨rest, hrest, rfl⟩ := hd
        exact Or.inr ⟨it', rows, next, policies', rest, rfl, rfl, hrest, rfl⟩

theorem delivered_length_le {it : VectorTupleSetIterator α} {policy : PDBTupleSetSizePolicy}
    {policies : List PDBTupleSetSizePolicy} {out : List α} (h : it.WellFormed)
    (hd : it.delivered (policy :: policies) = some out) :
    out.length ≤ (it.rebuffer policy).reachable.length := by
  induction policies generalizing it policy out with
  | nil =>
    obtain ⟨it', -, rfl⟩ | ⟨it', rows, next, policies', rest, -, hn, -⟩ := delivered_cases hd
    · simp
    · cases hn
  | cons next policies ih =>
    obtain ⟨it', -, rfl⟩ | ⟨it', rows, _, _, rest, he, hn, hrest, rfl⟩ := delivered_cases hd
    · simp
    · cases hn
      obtain ⟨hw, ho, hp, -⟩ := getNextTupleSet_some h he
      have hle := (ih hw hrest).trans (rebuffer_reachable_le next hw)
      have hl := hp.length_eq
      rw [pending_next next ho] at hle
      cases hn : next.inputWasProcessed <;> simp [hn] at hle hl ⊢ <;> omega

theorem perm_pending_iff {it it' : VectorTupleSetIterator α} {policy next : PDBTupleSetSizePolicy}
    {rows rest : List α} (ho : it'.output = rows)
    (hp : (rows ++ it'.reachable).Perm (it.pending policy)) :
    ((if next.inputWasProcessed then rows else []) ++ rest).Perm (it.pending policy) ↔
      rest.Perm (it'.pending next) := by
  rw [pending_next next ho]
  cases hn : next.inputWasProcessed with
  | true =>
    simp only [if_true, List.nil_append]
    rw [← @List.perm_append_left_iff _ rest _ rows]
    exact ⟨fun hx => hx.trans hp.symm, fun hx => hx.trans hp⟩
  | false =>
    simp only [Bool.false_eq_true, if_false, List.nil_append]
    exact ⟨fun hx => hx.trans hp.symm, fun hx => hx.trans hp⟩

theorem delivered_perm_pending_iff {it : VectorTupleSetIterator α} {policy : PDBTupleSetSizePolicy}
    {policies : List PDBTupleSetSizePolicy} {out : List α} (h : it.WellFormed)
    (hd : it.delivered (policy :: policies) = some out) :
    out.Perm (it.pending policy) ↔ it.FailsOnlyUnbuffered (policy :: policies) := by
  induction policies generalizing it policy out with
  | nil =>
    by_cases hu : policy.inputWasProcessed = false → it.inputBuffer.getD [] = []
    · obtain ⟨it', he, rfl⟩ | ⟨it', rows, next, policies', rest, -, hn, -⟩ := delivered_cases hd
      · have hr := getNextTupleSet_none he
        rw [rebuffer_reachable h hu] at hr
        rw [hr]
        exact ⟨fun _ => ⟨hu, Or.inl (by rw [he])⟩, fun _ => List.Perm.nil⟩
      · cases hn
    · refine ⟨fun hx => ?_, fun hx => absurd hx.1 hu⟩
      push Not at hu
      have h1 := delivered_length_le h hd
      have h2 := rebuffer_reachable_lt hu.1 hu.2
      have h3 := hx.length_eq
      omega
  | cons next policies ih =>
    by_cases hu : policy.inputWasProcessed = false → it.inputBuffer.getD [] = []
    · obtain ⟨it', he, rfl⟩ | ⟨it', rows, _, _, rest, he, hn, hrest, rfl⟩ := delivered_cases hd
      · have hr := getNextTupleSet_none he
        rw [rebuffer_reachable h hu] at hr
        rw [hr]
        exact ⟨fun _ => ⟨hu, Or.inl (by rw [he])⟩, fun _ => List.Perm.nil⟩
      · cases hn
        obtain ⟨hw, ho, hp, -⟩ := getNextTupleSet_some h he
        rw [rebuffer_reachable h hu] at hp
        rw [perm_pending_iff ho hp, ih hw hrest]
        refine ⟨fun hx => ⟨hu, Or.inr (by rw [he]; exact hx)⟩, fun hx => ?_⟩
        obtain hnone | hx := hx.2
        · simp [he] at hnone
        · rw [he] at hx
          exact hx
    · refine ⟨fun hx => ?_, fun hx => absurd hx.1 hu⟩
      push Not at hu
      have h1 := delivered_length_le h hd
      have h2 := rebuffer_reachable_lt hu.1 hu.2
      have h3 := hx.length_eq
      omega

theorem ofPageSet_pending (pages : List (List α)) (policy : PDBTupleSetSizePolicy) :
    (ofPageSet pages).pending policy = pages.flatten := by
  cases pages with
  | nil => simp [ofPageSet, pending, unread]
  | cons page pages => simp [ofPageSet, pending, unread]

theorem delivered_perm_iff (pages : List (List α)) (policies : List PDBTupleSetSizePolicy) (out : List α)
    (hd : (ofPageSet pages).delivered policies = some out) :
    out.Perm pages.flatten ↔ (ofPageSet pages).FailsOnlyUnbuffered policies := by
  cases policies with
  | nil => simp [delivered] at hd
  | cons policy policies =>
    rw [← ofPageSet_pending pages policy]
    exact delivered_perm_pending_iff (ofPageSet_wellFormed pages) hd

theorem delivered_isSome {it : VectorTupleSetIterator α} {policy : PDBTupleSetSizePolicy}
    {policies : List PDBTupleSetSizePolicy} (h : it.WellFormed) (hs : ∀ p ∈ policy :: policies, 1 ≤ p.getChunksSize)
    (hn : (it.pending policy).length + it.pageSet.length <
      policies.countP PDBTupleSetSizePolicy.inputWasProcessed) :
    (it.delivered (policy :: policies)).isSome := by
  induction policies generalizing it policy with
  | nil => exact absurd hn (Nat.not_lt_zero _)
  | cons next policies ih =>
    cases he : it.getNextTupleSet policy with
    | mk it' r =>
      cases r with
      | none => simp [delivered_none he]
      | some rows =>
        obtain ⟨hw, ho, -, hle, hlt⟩ := getNextTupleSet_some h he
        have hlt := hlt (hs policy List.mem_cons_self)
        have hwork : (it.rebuffer policy).work ≤ (it.pending policy).length + it.pageSet.length :=
          Nat.add_le_add_right (rebuffer_reachable_le policy h) _
        rw [delivered_cons he, Option.isSome_map]
        apply ih hw fun p hp => hs p (List.mem_cons_of_mem _ hp)
        -- A success uses up a row or a page, a failure gives back no more than the rows of the call.
        have hleft : (it'.pending next).length + it'.pageSet.length =
            (if next.inputWasProcessed then 0 else rows.length) + it'.work := by
          rw [pending_next next ho, work, List.length_append]
          split_ifs <;> simp [Nat.add_assoc]
        rw [List.countP_cons] at hn
        rw [hleft]
        split_ifs at hn ⊢ <;> omega

theorem delivered_perm_one_failure :
    (ofPageSet [[1, 2, 3], [], [4]]).delivered
        [{ chunkSize := 2, pageSize := 64 },
          { chunkSize := 1, pageSize := 64, pipeline := { succeeded := false } },
          { chunkSize := 1, pageSize := 64 }, { chunkSize := 2, pageSize := 64 },
          { chunkSize := 2, pageSize := 64 }, { chunkSize := 2, pageSize := 64 },
          { chunkSize := 2, pageSize := 64 }] = some [2, 1, 3, 4] ∧
      ([2, 1, 3, 4].Perm [[1, 2, 3], [], [4]].flatten ↔
        (ofPageSet [[1, 2, 3], [], [4]]).FailsOnlyUnbuffered
          [{ chunkSize := 2, pageSize := 64 },
            { chunkSize := 1, pageSize := 64, pipeline := { succeeded := false } },
            { chunkSize := 1, pageSize := 64 }, { chunkSize := 2, pageSize := 64 },
            { chunkSize := 2, pageSize := 64 }, { chunkSize := 2, pageSize := 64 },
            { chunkSize := 2, pageSize := 64 }]) :=
  ⟨by decide, delivered_perm_iff _ _ _ (by decide)⟩

theorem not_delivered_two_failures :
    ¬ ∀ (pages : List (List ℕ)) (policies : List PDBTupleSetSizePolicy) (out : List ℕ),
      (∀ policy ∈ policies, 1 ≤ policy.getChunksSize) → (ofPageSet pages).delivered policies = some out →
        out.Perm pages.flatten := by
  intro h
  let p₀ : PDBTupleSetSizePolicy := { pageSize := 1024 }
  let p₁ := p₀.pipelineFailed.getD p₀
  let p₂ := p₁.pipelineFailed.getD p₁
  have hlost := h [List.range 50] [p₀, p₁, p₂] [] (by decide) (by decide)
  simp at hlost

end VectorTupleSetIterator

end PlinyCompute.VectorScan
