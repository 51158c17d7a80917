import Mathlib.Algebra.Order.BigOperators.Group.List
import Mathlib.Algebra.Order.Ring.Nat
import Mathlib.Data.List.AList
import PlinyCompute.PdbString

namespace PlinyCompute.TupleSets

open Transition
open PdbString (toInt)

inductive Stop
  -- an element or a column that is not there is used, or an `int` overflows
  | undefined
  -- a vector is asked for a length that no vector can have
  | exception
  deriving DecidableEq

section Writes

variable {γ : Type}

def write (newVec : List γ) (counter : ℕ) (value : γ) : Except Stop (List γ) :=
  if counter < newVec.length then .ok (newVec.set counter value) else .error .undefined

def writeAll : List γ → ℕ → List γ → Except Stop (List γ)
  | [], _, newVec => .ok newVec
  | value :: values, counter, newVec => do
    let newVec ← write newVec counter value
    writeAll values (counter + 1) newVec

theorem writeAll_append (values more : List γ) (counter : ℕ) (newVec : List γ) :
    writeAll (values ++ more) counter newVec =
      writeAll values counter newVec >>= writeAll more (counter + values.length) := by
  induction values generalizing counter newVec with
  | nil => rfl
  | cons value values ih =>
    have hc : counter + (values.length + 1) = counter + 1 + values.length := by omega
    rw [List.cons_append, writeAll, writeAll, List.length_cons, hc]
    cases write newVec counter value with
    | error e => rfl
    | ok newVec => exact ih (counter + 1) newVec

theorem writeAll_eq (values done rest : List γ) :
    writeAll values done.length (done ++ rest) =
      if values.length ≤ rest.length then .ok (done ++ values ++ rest.drop values.length)
      else .error .undefined := by
  induction values generalizing done rest with
  | nil => simp [writeAll]
  | cons value values ih =>
    cases rest with
    | nil => simp [writeAll, write, bind, Except.bind]
    | cons old rest =>
      have hlt : done.length < (done ++ old :: rest).length := by simp
      have hset : (done ++ old :: rest).set done.length value = done ++ [value] ++ rest := by simp
      rw [writeAll, write, if_pos hlt, ok_bind, hset]
      have h := ih (done ++ [value]) rest
      rw [List.length_append, List.length_singleton] at h
      rw [h]
      simp only [List.length_cons, Nat.add_le_add_iff_right, List.drop_succ_cons, List.append_assoc,
        List.cons_append, List.nil_append]

theorem writeAll_fill {values newVec : List γ} (h : newVec.length = values.length) :
    writeAll values 0 newVec = .ok values := by
  have hw := writeAll_eq values [] newVec
  rw [List.length_nil, List.nil_append] at hw
  rw [hw, if_pos h.ge, List.nil_append, List.drop_eq_nil_of_le h.le, List.append_nil]

theorem length_le_of_writeAll {values newVec res : List γ} (h : writeAll values 0 newVec = .ok res) :
    values.length ≤ newVec.length := by
  have hw := writeAll_eq values [] newVec
  rw [List.length_nil, List.nil_append, h] at hw
  by_contra hlt
  rw [if_neg hlt] at hw
  cases hw

end Writes

section Counters

def countInt (n : ℕ) : Except Stop Unit := if n < 2 ^ 31 then .ok () else .error .undefined

theorem countInt_eq_ok {n : ℕ} : countInt n = .ok () ↔ n < 2 ^ 31 := by
  unfold countInt
  by_cases h : n < 2 ^ 31
  · exact ⟨fun _ => h, fun _ => if_pos h⟩
  · rw [if_neg h]
    exact ⟨nofun, fun hlt => absurd hlt h⟩

theorem toInt_of_lt {n : ℕ} (h : n < 2 ^ 31) : toInt n = n := by
  unfold toInt
  rw [Int.bmod_def]
  omega

theorem lt_of_toInt_eq {n : ℕ} (h : toInt n = n) : n < 2 ^ 31 := by
  unfold toInt at h
  rw [Int.bmod_def] at h
  omega

def addInt (a b : ℤ) : Except Stop ℤ := if -2 ^ 31 ≤ a + b ∧ a + b < 2 ^ 31 then .ok (a + b) else .error .undefined

end Counters

inductive Cell (α β : Type)
  | flag (b : Bool)
  | hash (n : ℕ)
  | object (handle : α)
  | vector (elements : List α)
  | other (value : β)
  deriving DecidableEq

structure Column (α β : Type) where
  blank : Cell α β
  rows : List (Cell α β)

variable {α β : Type}

namespace Column

/-- `resize` and the constructor of a vector take an `int` for a `size_t`. -/
def resize (col : Column α β) (numRows : ℤ) : Except Stop (Column α β) :=
  if numRows < 0 then .error .exception
  else .ok { col with
    rows := col.rows.take numRows.toNat ++ List.replicate (numRows.toNat - col.rows.length) col.blank }

def newVec (col : Column α β) (counter : ℤ) : Except Stop (List (Cell α β)) :=
  if counter < 0 then .error .exception else .ok (List.replicate counter.toNat col.blank)

def filterInto : List (Cell α β) → List Bool → ℕ → List (Cell α β) → Except Stop (List (Cell α β))
  | [], _, _, newVec => .ok newVec
  | _ :: _, [], _, _ => .error .undefined
  | cell :: filterMe, valid :: whichAreValid, counter, newVec =>
    if valid then do
      let newVec ← write newVec counter cell
      filterInto filterMe whichAreValid (counter + 1) newVec
    else filterInto filterMe whichAreValid counter newVec

def filter (col : Column α β) (whichAreValid : List Bool) : Except Stop (Column α β) := do
  countInt (whichAreValid.count true)
  let newVec ← col.newVec (whichAreValid.count true)
  countInt col.rows.length
  let rows ← filterInto col.rows whichAreValid 0 newVec
  return { col with rows := rows }

def replicateInto : List ℕ → List (Cell α β) → ℕ → List (Cell α β) → Except Stop (List (Cell α β))
  | [], _, _, newVec => .ok newVec
  | 0 :: timesToReplicate, replicateMe, counter, newVec =>
    replicateInto timesToReplicate replicateMe.tail counter newVec
  | (_ + 1) :: _, [], _, _ => .error .undefined
  | (times + 1) :: timesToReplicate, cell :: replicateMe, counter, newVec => do
    countInt (times + 1)
    let newVec ← writeAll (List.replicate (times + 1) cell) counter newVec
    replicateInto timesToReplicate replicateMe (counter + (times + 1)) newVec

/-- The number of the new rows is an `int` to which values of type `uint32_t` are added. -/
def replicate (col : Column α β) (timesToReplicate : List ℕ) : Except Stop (Column α β) := do
  let newVec ← col.newVec (toInt timesToReplicate.sum)
  countInt timesToReplicate.length
  let rows ← replicateInto timesToReplicate col.rows 0 newVec
  return { col with rows := rows }

def kept (cells : List (Cell α β)) (flags : List Bool) : List (Cell α β) :=
  ((cells.zip flags).filter fun p => p.2).map Prod.fst

theorem filterInto_eq {cells : List (Cell α β)} {flags : List Bool} (h : cells.length = flags.length)
    (counter : ℕ) (newVec : List (Cell α β)) :
    filterInto cells flags counter newVec = writeAll (kept cells flags) counter newVec := by
  induction cells generalizing flags counter newVec with
  | nil => rfl
  | cons cell cells ih =>
    cases flags with
    | nil => cases h
    | cons valid flags =>
      have hl : cells.length = flags.length := by simpa using h
      cases valid with
      | false =>
        rw [filterInto, if_neg Bool.false_ne_true, ih hl]
        rfl
      | true =>
        rw [filterInto, if_pos rfl]
        simp only [ih hl]
        rfl

theorem length_kept {cells : List (Cell α β)} {flags : List Bool} (h : cells.length = flags.length) :
    (kept cells flags).length = flags.count true := by
  have hz : (cells.zip flags).map Prod.snd = flags := List.map_snd_zip h.ge
  conv_rhs => rw [← hz]
  rw [kept, List.length_map, List.count_eq_countP, List.countP_map, List.countP_eq_length_filter]
  congr 2
  funext p
  simp

theorem replicateInto_eq {times : List ℕ} {cells : List (Cell α β)} (h : cells.length = times.length)
    (hint : ∀ t ∈ times, t < 2 ^ 31) (counter : ℕ) (newVec : List (Cell α β)) :
    replicateInto times cells counter newVec =
      writeAll (List.zipWith List.replicate times cells).flatten counter newVec := by
  induction times generalizing cells counter newVec with
  | nil =>
    rw [replicateInto, List.zipWith_nil_left]
    rfl
  | cons t times ih =>
    cases cells with
    | nil => cases h
    | cons cell cells =>
      have hl : cells.length = times.length := by simpa using h
      have ht := hint t List.mem_cons_self
      have ih := ih hl fun t ht => hint t (List.mem_cons_of_mem _ ht)
      rw [List.zipWith_cons_cons, List.flatten_cons]
      cases t with
      | zero =>
        rw [replicateInto]
        exact ih counter newVec
      | succ t =>
        rw [replicateInto, countInt_eq_ok.mpr ht, ok_bind, writeAll_append, List.length_replicate]
        simp only [ih]

theorem length_flatten_replicate {times : List ℕ} {cells : List (Cell α β)} (h : cells.length = times.length) :
    (List.zipWith List.replicate times cells).flatten.length = times.sum := by
  induction times generalizing cells with
  | nil => cases cells <;> rfl
  | cons t times ih =>
    cases cells with
    | nil => cases h
    | cons cell cells =>
      have hl : cells.length = times.length := by simpa using h
      rw [List.zipWith_cons_cons, List.flatten_cons, List.length_append, List.length_replicate, ih hl,
        List.sum_cons]

theorem filter_eq_ok {col : Column α β} {flags : List Bool} (h : col.rows.length = flags.length)
    (hlt : flags.length < 2 ^ 31) : col.filter flags = .ok { col with rows := kept col.rows flags } := by
  have hcount : flags.count true < 2 ^ 31 := List.count_le_length.trans_lt hlt
  have hnew : (List.replicate (flags.count true) col.blank).length = (kept col.rows flags).length := by
    rw [List.length_replicate, length_kept h]
  unfold filter newVec
  rw [countInt_eq_ok.mpr hcount, ok_bind, if_neg (by omega), ok_bind, countInt_eq_ok.mpr (h ▸ hlt), ok_bind,
    filterInto_eq h, Int.toNat_natCast, writeAll_fill hnew]
  rfl

theorem length_lt_of_filter {col res : Column α β} {flags : List Bool} (h : col.filter flags = .ok res) :
    col.rows.length < 2 ^ 31 := by
  unfold filter at h
  obtain ⟨-, -, h⟩ := bind_eq_ok.mp h
  obtain ⟨newVec, -, h⟩ := bind_eq_ok.mp h
  obtain ⟨_, hlt, -⟩ := bind_eq_ok.mp h
  exact countInt_eq_ok.mp hlt

theorem replicate_eq_ok {col : Column α β} {times : List ℕ} (h : col.rows.length = times.length)
    (hlt : times.length < 2 ^ 31) (hsum : times.sum < 2 ^ 31) :
    col.replicate times = .ok { col with rows := (List.zipWith List.replicate times col.rows).flatten } := by
  have hint : ∀ t ∈ times, t < 2 ^ 31 := fun t ht => (List.le_sum_of_mem ht).trans_lt hsum
  have hnew : (List.replicate times.sum col.blank).length =
      (List.zipWith List.replicate times col.rows).flatten.length := by
    rw [List.length_replicate, length_flatten_replicate h]
  unfold replicate newVec
  rw [toInt_of_lt hsum, if_neg (by omega), ok_bind, countInt_eq_ok.mpr hlt, ok_bind, replicateInto_eq h hint,
    Int.toNat_natCast, writeAll_fill hnew]
  rfl

end Column

/-- The columns by their numbers. A column that is copied shares the vector of the input, to which none of
the executors writes. -/
structure TupleSet (α β : Type) where
  columns : AList fun _ : ℕ => Column α β

namespace TupleSet

def empty : TupleSet α β := ⟨∅⟩

def column (t : TupleSet α β) (which : ℕ) : Option (Column α β) := t.columns.lookup which

def put (t : TupleSet α β) (which : ℕ) (col : Column α β) : TupleSet α β := ⟨t.columns.insert which col⟩

def hasColumn (t : TupleSet α β) (which : ℕ) : Bool := (t.column which).isSome

def getNumColumns (t : TupleSet α β) : ℕ := t.columns.keys.length

def getNumRows (t : TupleSet α β) (which : ℕ) : ℤ :=
  match t.column which with
  | none => -1
  | some col => toInt col.rows.length

def entry (t : TupleSet α β) (which : ℕ) : Except Stop (Column α β) :=
  match t.column which with
  | none => .error .undefined
  | some col => .ok col

def getColumn {γ : Type} (cast : Cell α β → Option γ) (t : TupleSet α β) (which : ℕ) : Except Stop (List γ) := do
  let col ← t.entry which
  match col.rows.mapM cast with
  | none => .error .undefined
  | some values => .ok values

def copyColumn (t fromMe : TupleSet α β) (whichColInFromMe whichColToCopyTo : ℕ) :
    Except Stop (TupleSet α β) := do
  let col ← fromMe.entry whichColInFromMe
  return t.put whichColToCopyTo col

def replicate (t fromMe : TupleSet α β) (whichColInFromMe whichColToCopyTo : ℕ) (replications : List ℕ) :
    Except Stop (TupleSet α β) := do
  let col ← fromMe.entry whichColInFromMe
  let newCol ← col.replicate replications
  return t.put whichColToCopyTo newCol

def filterColumn (t : TupleSet α β) (whichColToFilter : ℕ) (usingMe : List Bool) : Except Stop (TupleSet α β) :=
  match t.column whichColToFilter with
  | none => .ok t
  | some col => do
    let res ← col.filter usingMe
    return t.put whichColToFilter res

def addColumn (t : TupleSet α β) (which : ℕ) (addMe : Column α β) : TupleSet α β := t.put which addMe

@[simp] theorem column_empty (j : ℕ) : (empty : TupleSet α β).column j = none := rfl

@[simp] theorem column_put_self (t : TupleSet α β) (i : ℕ) (col : Column α β) : (t.put i col).column i = some col :=
  AList.lookup_insert _

theorem column_put (t : TupleSet α β) (i j : ℕ) (col : Column α β) :
    (t.put i col).column j = if j = i then some col else t.column j := by
  split_ifs with h
  · subst h
    exact column_put_self t j col
  · exact AList.lookup_insert_ne h

theorem entry_eq_ok {t : TupleSet α β} {which : ℕ} {col : Column α β} :
    t.entry which = .ok col ↔ t.column which = some col := by
  unfold entry
  cases t.column which with
  | none => exact ⟨nofun, nofun⟩
  | some c => simp

theorem getNumColumns_eq {t : TupleSet α β} {n : ℕ} (h : ∀ j, t.hasColumn j = true ↔ j < n) :
    t.getNumColumns = n := by
  have hperm : t.columns.keys.Perm (List.range n) := by
    rw [List.perm_ext_iff_of_nodup t.columns.keys_nodup List.nodup_range]
    intro j
    rw [List.mem_range, ← h j]
    exact AList.lookup_isSome.symm
  rw [getNumColumns, hperm.length_eq, List.length_range]

end TupleSet

structure TupleSetSetupMachine where
  inputSchema : List String
  matched : List ℕ
  deriving DecidableEq

namespace TupleSetSetupMachine

def matchAtts (inputSchema attsToMatch : List String) : List ℕ := attsToMatch.filterMap inputSchema.idxOf?

def ofSchema (inputSchema attsToIncludeInOutput : List String) : TupleSetSetupMachine :=
  ⟨inputSchema, matchAtts inputSchema attsToIncludeInOutput⟩

def setup (m : TupleSetSetupMachine) (input output : TupleSet α β) : Except Stop (TupleSet α β) :=
  m.matched.zipIdx.foldlM (fun output p => output.copyColumn input p.1 p.2) output

def replicate (m : TupleSetSetupMachine) (input output : TupleSet α β) (counts : List ℕ) (offset : ℕ) :
    Except Stop (TupleSet α β) :=
  m.matched.zipIdx.foldlM (fun output p => output.replicate input p.1 (p.2 + offset) counts) output

theorem foldlM_put {f : ℕ → Except Stop (Column α β)} {is : List ℕ} (hf : ∀ i ∈ is, ∃ col, f i = .ok col) (k : ℕ)
    (t : TupleSet α β) :
    ∃ t', (is.zipIdx k).foldlM (fun output p => f p.1 >>= fun col => return output.put p.2 col) t = .ok t' ∧
      (∀ j i, is[j]? = some i → ∃ col, f i = .ok col ∧ t'.column (k + j) = some col) ∧
      ∀ j, j < k ∨ k + is.length ≤ j → t'.column j = t.column j := by
  induction is generalizing k t with
  | nil => exact ⟨t, rfl, nofun, fun _ _ => rfl⟩
  | cons i is ih =>
    obtain ⟨col, hcol⟩ := hf i List.mem_cons_self
    obtain ⟨t', ht', hin, hout⟩ := ih (fun i hi => hf i (List.mem_cons_of_mem _ hi)) (k + 1) (t.put k col)
    refine ⟨t', ?_, ?_, ?_⟩
    · rw [List.zipIdx_cons, List.foldlM_cons]
      dsimp only
      rw [hcol, ok_bind]
      exact ht'
    · intro j i' hi'
      cases j with
      | zero =>
        cases hi'
        refine ⟨col, hcol, ?_⟩
        rw [Nat.add_zero, hout k (Or.inl k.lt_succ_self), TupleSet.column_put_self]
      | succ j =>
        obtain ⟨col', hcol', ht'⟩ := hin j i' hi'
        refine ⟨col', hcol', ?_⟩
        rw [← ht', Nat.add_right_comm, Nat.add_assoc]
    · intro j hj
      rw [List.length_cons] at hj
      rw [hout j (by omega), TupleSet.column_put, if_neg (by omega)]

theorem setup_ensures {m : TupleSetSetupMachine} {input : TupleSet α β} (h : ∀ i ∈ m.matched, input.hasColumn i)
    (output : TupleSet α β) :
    ∃ output', m.setup input output = .ok output' ∧
      (∀ j i, m.matched[j]? = some i → output'.column j = input.column i) ∧
      ∀ j, m.matched.length ≤ j → output'.column j = output.column j := by
  have hf : ∀ i ∈ m.matched, ∃ col, input.entry i = .ok col := by
    intro i hi
    obtain ⟨col, hcol⟩ := Option.isSome_iff_exists.mp (h i hi)
    exact ⟨col, TupleSet.entry_eq_ok.mpr hcol⟩
  obtain ⟨output', hrun, hin, hout⟩ := foldlM_put hf 0 output
  refine ⟨output', hrun, ?_, ?_⟩
  · intro j i hj
    obtain ⟨col, hcol, ho⟩ := hin j i hj
    rw [Nat.zero_add] at ho
    rw [ho, TupleSet.entry_eq_ok.mp hcol]
  · intro j hj
    exact hout j (Or.inr (by omega))

theorem replicate_ensures {m : TupleSetSetupMachine} {input : TupleSet α β} {counts : List ℕ}
    (h : ∀ i ∈ m.matched, ∃ col, input.column i = some col ∧ col.rows.length = counts.length)
    (hlt : counts.length < 2 ^ 31) (hsum : counts.sum < 2 ^ 31) (output : TupleSet α β) :
    ∃ output', m.replicate input output counts 0 = .ok output' ∧
      (∀ j i, m.matched[j]? = some i → ∃ col, input.column i = some col ∧
        output'.column j = some { col with rows := (List.zipWith List.replicate counts col.rows).flatten }) ∧
      ∀ j, m.matched.length ≤ j → output'.column j = output.column j := by
  have hval : ∀ {i col}, input.column i = some col → col.rows.length = counts.length →
      (input.entry i >>= fun col => col.replicate counts) =
        .ok { col with rows := (List.zipWith List.replicate counts col.rows).flatten } := by
    intro i col hcol hlen
    rw [TupleSet.entry_eq_ok.mpr hcol, ok_bind]
    exact Column.replicate_eq_ok hlen hlt hsum
  have hf : ∀ i ∈ m.matched, ∃ col, (input.entry i >>= fun col => col.replicate counts) = .ok col := by
    intro i hi
    obtain ⟨col, hcol, hlen⟩ := h i hi
    exact ⟨_, hval hcol hlen⟩
  obtain ⟨output', hrun, hin, hout⟩ := foldlM_put hf 0 output
  refine ⟨output', ?_, ?_, ?_⟩
  · simp only [bind_assoc] at hrun
    exact hrun
  · intro j i hj
    obtain ⟨res, hres, ho⟩ := hin j i hj
    obtain ⟨col, hcol, hlen⟩ := h i (List.mem_of_getElem? hj)
    rw [hval hcol hlen] at hres
    cases hres
    rw [Nat.zero_add] at ho
    exact ⟨col, hcol, ho⟩
  · intro j hj
    exact hout j (Or.inr (by omega))

end TupleSetSetupMachine

end PlinyCompute.TupleSets
