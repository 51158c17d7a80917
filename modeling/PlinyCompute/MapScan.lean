import PlinyCompute.VectorScan

namespace PlinyCompute.MapScan

open SizePolicy VectorScan

variable {K V : Type}

/-- `entries` are the key/value pairs from `begin` to `end`; the rows of the output column are the pairs
assigned to the output objects. The source never allocates `inputBuffer`. -/
structure MapTupleSetIterator (K V : Type) where
  entries : List (K × V)
  output : List (K × V)
  inputBuffer : Option (List (K × V))
  deriving DecidableEq, Repr

namespace MapTupleSetIterator

/-- The constructor takes one page and repins it before it looks whether it got one: `none` is the
dereferenced null handle. -/
def ofPageSet : List (List (K × V)) → Option (MapTupleSetIterator K V)
  | [] => none
  | map :: _ => some ⟨map, [], none⟩

/-- The loop that fills the column, with `n` rounds left and `i` rows written; `limit` is the length the
column had before. -/
def fillColumn (limit : ℕ) : ℕ → ℕ → List (K × V) → List (K × V) → List (K × V) × List (K × V)
  | 0, _, column, entries => (column, entries)
  | _ + 1, _, column, [] => (column, [])
  | n + 1, i, column, e :: entries =>
    let column := if limit ≤ i then column ++ [e] else column.set i e
    if entries.isEmpty then (if i + 1 < limit then column.take (i + 1) else column, [])
    else fillColumn limit n (i + 1) column entries

def getNextTupleSet (it : MapTupleSetIterator K V) (policy : PDBTupleSetSizePolicy) :
    MapTupleSetIterator K V × Option (List (K × V)) :=
  let it := { it with
    output := (requeue policy it.output it.inputBuffer).1
    inputBuffer := (requeue policy it.output it.inputBuffer).2 }
  match it.inputBuffer with
  | some (x :: xs) =>
    let buffer := x :: xs
    let numToCopy := min policy.getChunksSize buffer.length
    let rows := buffer.drop (buffer.length - numToCopy)
    ({ it with output := rows, inputBuffer := some (buffer.take (buffer.length - numToCopy)) }, some rows)
  | _ =>
    if it.entries.isEmpty then (it, none)
    else
      let filled := fillColumn it.output.length policy.getChunksSize 0 it.output it.entries
      ({ it with output := filled.1, entries := filled.2 }, some filled.1)

structure Reply (K V : Type) where
  rows : List (K × V)
  read : List (K × V)
  processed : Bool
  deriving DecidableEq, Repr

def replies (it : MapTupleSetIterator K V) : List PDBTupleSetSizePolicy → Option (List (Reply K V))
  | [] => none
  | policy :: policies =>
    match it.getNextTupleSet policy with
    | (_, none) => some []
    | (it', some rows) =>
      (it'.replies policies).map fun rest =>
        ⟨rows, it.entries.take (it.entries.length - it'.entries.length),
          policies.head?.all PDBTupleSetSizePolicy.inputWasProcessed⟩ :: rest

def delivered (out : List (Reply K V)) : List (K × V) := (out.filter Reply.processed).flatMap Reply.rows

def ScansExactlyOnce (maps : List (List (K × V))) (policies : List PDBTupleSetSizePolicy) : Prop :=
  ∃ it out, ofPageSet maps = some it ∧ it.replies policies = some out ∧
    (delivered out).Perm maps.flatten ∧ ∀ reply ∈ out, reply.rows = reply.read

def Steady (it : MapTupleSetIterator K V) : List PDBTupleSetSizePolicy → Prop
  | [] => True
  | policy :: policies =>
    (it.output.length ≤ policy.getChunksSize ∨ it.entries.length ≤ policy.getChunksSize) ∧
      ((it.getNextTupleSet policy).2 = none ∨
        policies.head?.all PDBTupleSetSizePolicy.inputWasProcessed ∧
          (it.getNextTupleSet policy).1.Steady policies)

theorem fillColumn_eq (limit n i : ℕ) (column entries : List (K × V)) (hne : entries ≠ [])
    (hl : column.length = max limit i) :
    fillColumn limit n i column entries =
      if entries.length ≤ n then (column.take i ++ entries, [])
      else (column.take i ++ entries.take n ++ column.drop (i + n), entries.drop n) := by
  induction n generalizing i column entries with
  | zero =>
    have hpos := List.length_pos_of_ne_nil hne
    rw [if_neg (by omega), fillColumn]
    simp
  | succ n ih =>
    cases entries with
    | nil => exact absurd rfl hne
    | cons e entries =>
      let column' := if limit ≤ i then column ++ [e] else column.set i e
      have hlen : column'.length = max limit (i + 1) := by
        simp only [column']
        split_ifs <;> simp <;> omega
      have htake : column'.take (i + 1) = column.take i ++ [e] := by
        simp only [column']
        split_ifs with hi
        · have hc : column.length = i := by omega
          rw [List.take_of_length_le (by simp [hc]), List.take_of_length_le (by omega)]
        · rw [List.take_succ_eq_append_getElem (by rw [List.length_set]; omega)]
          rw [List.take_set_of_le (Nat.le_refl i), List.getElem_set_self]
      have hdrop : column'.drop (i + 1 + n) = column.drop (i + 1 + n) := by
        simp only [column']
        split_ifs with hi
        · rw [List.drop_of_length_le (by simp; omega), List.drop_of_length_le (by omega)]
        · rw [List.drop_set_of_lt (by omega)]
      rw [fillColumn]
      change (if entries.isEmpty then (if i + 1 < limit then column'.take (i + 1) else column', [])
        else fillColumn limit n (i + 1) column' entries) = _
      cases entries with
      | nil =>
        simp only [List.isEmpty_nil, if_true, List.length_singleton, Nat.le_add_left]
        split_ifs with hi
        · rw [htake]
        · rw [← htake, List.take_of_length_le (by omega)]
      | cons f entries =>
        simp only [List.isEmpty_cons, Bool.false_eq_true, if_false]
        rw [ih (i + 1) column' (f :: entries) (by simp) hlen, htake, hdrop]
        simp only [List.length_cons, List.append_assoc, List.cons_append, List.nil_append,
          List.take_succ_cons, List.drop_succ_cons, Nat.add_le_add_iff_right]
        rw [show i + 1 + n = i + (n + 1) by omega]

theorem getNextTupleSet_eq {it : MapTupleSetIterator K V} (policy : PDBTupleSetSizePolicy)
    (hb : it.inputBuffer = none) (hne : it.entries ≠ []) :
    it.getNextTupleSet policy =
      let rows := it.entries.take policy.getChunksSize ++
        if it.entries.length ≤ policy.getChunksSize then [] else it.output.drop policy.getChunksSize
      (⟨it.entries.drop policy.getChunksSize, rows, none⟩, some rows) := by
  have hfill := fillColumn_eq it.output.length policy.getChunksSize 0 it.output it.entries hne (by simp)
  simp only [getNextTupleSet, hb, requeue, List.isEmpty_iff, hne, if_false, hfill]
  split_ifs with hle
  · simp [List.take_of_length_le hle, List.drop_of_length_le hle]
  · simp

theorem getNextTupleSet_nil {it : MapTupleSetIterator K V} (policy : PDBTupleSetSizePolicy)
    (hb : it.inputBuffer = none) (he : it.entries = []) : (it.getNextTupleSet policy).2 = none := by
  simp [getNextTupleSet, hb, requeue, he]

theorem replies_cases {it : MapTupleSetIterator K V} {policy : PDBTupleSetSizePolicy}
    {policies : List PDBTupleSetSizePolicy} {out : List (Reply K V)} (hb : it.inputBuffer = none)
    (hr : it.replies (policy :: policies) = some out) :
    (it.entries = [] ∧ out = []) ∨ ∃ it' rows rest,
      it.entries ≠ [] ∧ it.getNextTupleSet policy = (it', some rows) ∧ it'.inputBuffer = none ∧
      it'.entries = it.entries.drop policy.getChunksSize ∧ it'.replies policies = some rest ∧
      (rows = it.entries.take policy.getChunksSize ↔
        it.output.length ≤ policy.getChunksSize ∨ it.entries.length ≤ policy.getChunksSize) ∧
      out = ⟨rows, it.entries.take policy.getChunksSize,
        policies.head?.all PDBTupleSetSizePolicy.inputWasProcessed⟩ :: rest := by
  by_cases hne : it.entries = []
  · have hn := getNextTupleSet_nil policy hb hne
    rw [replies] at hr
    split at hr
    · cases hr
      exact Or.inl ⟨hne, rfl⟩
    · next he => simp [he] at hn
  · have he := getNextTupleSet_eq policy hb hne
    dsimp only at he
    rw [replies, he] at hr
    obtain ⟨rest, hrest, rfl⟩ := Option.map_eq_some_iff.mp hr
    refine Or.inr ⟨_, _, rest, hne, he, rfl, rfl, hrest, ?_, ?_⟩
    · split_ifs with hle
      · simp [hle]
      · simp [hle]
    · congr 1
      simp only [List.length_drop]
      rcases Nat.le_total it.entries.length policy.getChunksSize with hle | hle
      · simp [Nat.sub_eq_zero_of_le hle, List.take_of_length_le hle]
      · rw [Nat.sub_sub_self hle]

theorem replies_read {it : MapTupleSetIterator K V} {policies : List PDBTupleSetSizePolicy}
    {out : List (Reply K V)} (hb : it.inputBuffer = none) (hr : it.replies policies = some out) :
    out.flatMap Reply.read = it.entries := by
  induction policies generalizing it out with
  | nil => simp [replies] at hr
  | cons policy policies ih =>
    obtain ⟨he, rfl⟩ | ⟨it', rows, rest, -, -, hb', he', hrest, -, rfl⟩ := replies_cases hb hr
    · simp [he]
    · rw [List.flatMap_cons, ih hb' hrest, he']
      exact List.take_append_drop _ _

theorem replies_read_ne_nil {it : MapTupleSetIterator K V} {policies : List PDBTupleSetSizePolicy}
    {out : List (Reply K V)} (hb : it.inputBuffer = none)
    (hs : ∀ policy ∈ policies, 1 ≤ policy.getChunksSize) (hr : it.replies policies = some out) :
    ∀ reply ∈ out, 0 < reply.read.length := by
  induction policies generalizing it out with
  | nil => simp [replies] at hr
  | cons policy policies ih =>
    obtain ⟨-, rfl⟩ | ⟨it', rows, rest, hne, -, hb', -, hrest, -, rfl⟩ := replies_cases hb hr
    · simp
    · intro reply hreply
      rcases List.mem_cons.mp hreply with rfl | hreply
      · have h1 := hs policy (by simp)
        have h2 := List.length_pos_of_ne_nil hne
        simp only [List.length_take]
        omega
      · exact ih hb' (fun p hp => hs p (List.mem_cons_of_mem _ hp)) hrest reply hreply

theorem replies_steady_iff {it : MapTupleSetIterator K V} {policies : List PDBTupleSetSizePolicy}
    {out : List (Reply K V)} (hb : it.inputBuffer = none) (hr : it.replies policies = some out) :
    ((∀ reply ∈ out, reply.rows = reply.read) ∧ ∀ reply ∈ out, reply.processed = true) ↔
      it.Steady policies := by
  induction policies generalizing it out with
  | nil => simp [replies] at hr
  | cons policy policies ih =>
    obtain ⟨he, rfl⟩ | ⟨it', rows, rest, hne, he, hb', -, hrest, hrows, rfl⟩ := replies_cases hb hr
    · simp [Steady, he, getNextTupleSet_nil policy hb he]
    · simp only [List.forall_mem_cons, Steady, he, reduceCtorEq, false_or, ← ih hb' hrest, hrows]
      tauto

theorem replies_isSome {it : MapTupleSetIterator K V} {policies : List PDBTupleSetSizePolicy}
    (hb : it.inputBuffer = none) (hs : ∀ policy ∈ policies, 1 ≤ policy.getChunksSize)
    (hn : it.entries.length < policies.length) : (it.replies policies).isSome := by
  induction policies generalizing it with
  | nil => exact absurd hn (Nat.not_lt_zero _)
  | cons policy policies ih =>
    rw [replies]
    by_cases hne : it.entries = []
    · have hnone := getNextTupleSet_nil policy hb hne
      split
      · rfl
      · next he => simp [he] at hnone
    · rw [getNextTupleSet_eq policy hb hne]
      dsimp only
      rw [Option.isSome_map]
      have hchunk := hs policy List.mem_cons_self
      have hpos := List.length_pos_of_ne_nil hne
      refine ih rfl (fun p hp => hs p (List.mem_cons_of_mem _ hp)) ?_
      rw [List.length_cons] at hn
      simp only [List.length_drop]
      omega

theorem delivered_length {out : List (Reply K V)} (hf : ∀ reply ∈ out, reply.rows = reply.read) :
    (delivered out).length + ((out.filter fun reply => !reply.processed).flatMap Reply.read).length =
      (out.flatMap Reply.read).length := by
  induction out with
  | nil => rfl
  | cons reply out ih =>
    have hr := hf reply (by simp)
    have h := ih fun r hr => hf r (List.mem_cons_of_mem _ hr)
    simp only [delivered] at h ⊢
    cases hp : reply.processed <;> simp [hp, hr] at h ⊢ <;> omega

theorem delivered_of_processed {out : List (Reply K V)} (hf : ∀ reply ∈ out, reply.rows = reply.read)
    (hp : ∀ reply ∈ out, reply.processed = true) : delivered out = out.flatMap Reply.read := by
  rw [delivered, List.filter_eq_self.mpr hp]
  exact List.flatMap_congr hf

theorem scansExactlyOnce_iff (maps : List (List (K × V))) (policies : List PDBTupleSetSizePolicy)
    (hs : ∀ policy ∈ policies, 1 ≤ policy.getChunksSize)
    (hend : ∀ it, ofPageSet maps = some it → (it.replies policies).isSome) :
    ScansExactlyOnce maps policies ↔
      ∃ it, ofPageSet maps = some it ∧ (∀ map ∈ maps.tail, map = []) ∧ it.Steady policies := by
  cases maps with
  | nil => simp [ScansExactlyOnce, ofPageSet]
  | cons map maps =>
    let it : MapTupleSetIterator K V := ⟨map, [], none⟩
    obtain ⟨out, hout⟩ := Option.isSome_iff_exists.mp (hend it rfl)
    have hread : out.flatMap Reply.read = map := replies_read rfl hout
    have hpos := replies_read_ne_nil rfl hs hout
    constructor
    · rintro ⟨_, _, h1, h2, hperm, hfresh⟩
      cases h1
      cases hout.symm.trans h2
      have hlen := delivered_length hfresh
      have hperm := hperm.length_eq
      rw [hread] at hlen
      simp only [List.flatten_cons, List.length_append] at hperm
      have hrest : maps.flatten = [] := List.eq_nil_of_length_eq_zero (by omega)
      have hfailed : ((out.filter fun reply => !reply.processed).flatMap Reply.read) = [] :=
        List.eq_nil_of_length_eq_zero (by omega)
      refine ⟨it, rfl, List.flatten_eq_nil_iff.mp hrest, (replies_steady_iff rfl hout).mp ⟨hfresh, ?_⟩⟩
      intro reply hreply
      by_contra hp
      have hm : reply ∈ out.filter fun reply => !reply.processed := 
        List.mem_filter.mpr ⟨hreply, by simpa using hp⟩
      have hnil := List.flatMap_eq_nil_iff.mp hfailed reply hm
      have hlt := hpos reply hreply
      simp [hnil] at hlt
    · rintro ⟨_, h1, htail, hsteady⟩
      cases h1
      obtain ⟨hfresh, hproc⟩ := (replies_steady_iff rfl hout).mpr hsteady
      refine ⟨it, out, rfl, hout, ?_, hfresh⟩
      have hnil : maps.flatten = [] := List.flatten_eq_nil_iff.mpr htail
      rw [delivered_of_processed hfresh hproc, hread, List.flatten_cons, hnil, List.append_nil]

theorem scansExactlyOnce_one_page :
    ScansExactlyOnce [[(1, 'a'), (2, 'b'), (3, 'c')], []]
        [{ chunkSize := 2, pageSize := 64 }, { chunkSize := 2, pageSize := 64 },
          { chunkSize := 2, pageSize := 64 }] ↔
      ∃ it, ofPageSet [[(1, 'a'), (2, 'b'), (3, 'c')], []] = some it ∧
        (∀ map ∈ [[(1, 'a'), (2, 'b'), (3, 'c')], []].tail, map = []) ∧
        it.Steady [{ chunkSize := 2, pageSize := 64 }, { chunkSize := 2, pageSize := 64 },
          { chunkSize := 2, pageSize := 64 }] := by
  refine scansExactlyOnce_iff _ _ (by decide) ?_
  intro it hit
  cases hit
  decide

theorem not_scansExactlyOnce_two_pages :
    ¬ ∀ (maps : List (List (ℕ × ℕ))) (policies : List PDBTupleSetSizePolicy),
      (∀ policy ∈ policies, 1 ≤ policy.getChunksSize) →
        (∀ it, ofPageSet maps = some it → (it.replies policies).isSome) → ScansExactlyOnce maps policies := by
  intro h
  obtain ⟨it, out, hit, hout, hperm, -⟩ := h [[(1, 10)], [(2, 20)]]
    [{ pageSize := 64 }, { pageSize := 64 }] (by decide) (by intro it hit; cases hit; decide)
  cases hit
  cases hout
  exact absurd hperm (by decide)

end MapTupleSetIterator

end PlinyCompute.MapScan
