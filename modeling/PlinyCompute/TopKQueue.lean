import PlinyCompute.BinaryHeap
import PlinyCompute.Largest
import PlinyCompute.PdbVector

namespace PlinyCompute

open PdbVector Transition
open List (length_map length_set getElem?_set_self getElem?_set_ne)

namespace TopKQueue

inductive Fault
  | vector (f : PdbVector.Fault)
  -- a null handle is followed
  | nullHandle
  -- an `int` overflows
  | overflow
  -- the two ways in which `operator[]` ends the program
  | emptyQueue
  | pastTheEnd
  deriving DecidableEq

end TopKQueue

structure TopKQueue (Score Value : Type) where
  empty : Bool
  allScores : Option (Vector Score)
  allValues : Option (Vector Value)
  k : UInt32
  tempScore : Score
  tempValue : Value
  deriving DecidableEq

namespace TopKQueue

variable {T Score Value : Type}

def inVector (r : Except PdbVector.Fault T) : Except Fault T := r.mapError .vector

def deref : Option (Vector T) → Except Fault (Vector T)
  | none => .error .nullHandle
  | some v => .ok v

def toInt (n : ℕ) : ℕ := if n % 2 ^ 32 < 2 ^ 31 then n % 2 ^ 32 else 0

def int (n : ℕ) : Except Fault ℕ := if n < 2 ^ 31 then .ok n else .error .overflow

def scoreAt (q : TopKQueue Score Value) (i : ℕ) : Except Fault Score := do
  let scores ← deref q.allScores
  inVector (scores.getObj i)

def read (q : TopKQueue Score Value) (i : ℕ) : Except Fault (Score × Value) := do
  let scores ← deref q.allScores
  let values ← deref q.allValues
  let score ← inVector (scores.getObj i)
  let value ← inVector (values.getObj i)
  return (score, value)

def write (q : TopKQueue Score Value) (i : ℕ) (pair : Score × Value) : Except Fault (TopKQueue Score Value) := do
  let scores ← deref q.allScores
  let values ← deref q.allValues
  let scores ← inVector (scores.write i pair.1)
  let values ← inVector (values.write i pair.2)
  return { q with allScores := some scores, allValues := some values }

def swap (i j : ℕ) (q : TopKQueue Score Value) : Except Fault (TopKQueue Score Value) := do
  let temp ← q.read i
  let q := { q with tempScore := temp.1, tempValue := temp.2 }
  let q ← q.write i (← q.read j)
  q.write j (q.tempScore, q.tempValue)

section Heap

variable [LT Score] [DecidableLT Score]

def siftUp : ℕ → ℕ → TopKQueue Score Value → Except Fault (TopKQueue Score Value)
  | 0, _, q => .ok q
  | rounds + 1, current, q =>
    if 0 < current then do
      let here ← q.scoreAt current
      let above ← q.scoreAt ((current - 1) / 2)
      if here < above then
        let q ← q.swap current ((current - 1) / 2)
        siftUp rounds ((current - 1) / 2) q
      else return q
    else .ok q

def smallPos (limit current : ℕ) (q : TopKQueue Score Value) : Except Fault (Option ℕ) := do
  if (← int (current * 2 + 2)) < limit then
    let left ← q.scoreAt (current * 2 + 1)
    let right ← q.scoreAt (current * 2 + 2)
    return some (if left < right then current * 2 + 1 else current * 2 + 2)
  else if current * 2 + 1 < limit then return some (current * 2 + 1)
  else return none

def siftDown (limit : ℕ) : ℕ → ℕ → TopKQueue Score Value → Except Fault (TopKQueue Score Value)
  | 0, _, q => .ok q
  | rounds + 1, current, q => do
    match ← q.smallPos limit current with
    | none => return q
    | some small =>
      let below ← q.scoreAt small
      let here ← q.scoreAt current
      if below < here then
        let q ← q.swap small current
        siftDown limit rounds small q
      else return q

variable [Inhabited Score] [Inhabited Value]

def pushBack (score : Score) (value : Value) (q : TopKQueue Score Value) : Except Fault (TopKQueue Score Value) := do
  let scores ← deref q.allScores
  let values ← deref q.allValues
  let scores ← inVector (Vector.pushBack (some score) scores)
  let values ← inVector (Vector.pushBack (some value) values)
  return { q with allScores := some scores, allValues := some values }

def makeVectors (q : TopKQueue Score Value) : Except Fault (TopKQueue Score Value) :=
  match q.allScores with
  | some _ => .ok q
  | none => pushBack q.tempScore q.tempValue { q with allScores := some .empty, allValues := some .empty }

def popBack (q : TopKQueue Score Value) : Except Fault (TopKQueue Score Value) := do
  let scores ← deref q.allScores
  let values ← deref q.allValues
  return { q with allScores := some scores.popBack, allValues := some values.popBack }

def removeFirst (q : TopKQueue Score Value) : Except Fault (TopKQueue Score Value) := do
  let scores ← deref q.allScores
  let q ← q.write 0 (← q.read (scores.size - 1))
  q.popBack

def insertVectors (score : Score) (value : Value) (q : TopKQueue Score Value) :
    Except Fault (TopKQueue Score Value) := do
  if score < (← q.scoreAt 0) ∧ q.k.toNat ≤ (← deref q.allScores).size then return q
  let q ← q.pushBack score value
  let current := toInt ((← deref q.allScores).size - 1)
  let q ← siftUp current current q
  if (← deref q.allScores).size ≤ q.k.toNat then return q
  let q ← q.removeFirst
  let limit := toInt (← deref q.allScores).size
  siftDown limit limit 0 q

def insert (score : Score) (value : Value) (q : TopKQueue Score Value) : Except Fault (TopKQueue Score Value) :=
  if q.empty then .ok { q with tempScore := score, tempValue := value, empty := false }
  else do
    let q ← q.makeVectors
    insertVectors score value q

def insertFrom (addMeIn : TopKQueue Score Value) :
    ℕ → ℕ → TopKQueue Score Value → Except Fault (TopKQueue Score Value)
  | 0, _, q => .ok q
  | rounds + 1, i, q => do
    let pair ← addMeIn.read i
    let q ← q.insert pair.1 pair.2
    insertFrom addMeIn rounds (i + 1) q

def add (q addMeIn : TopKQueue Score Value) : Except Fault (TopKQueue Score Value) :=
  if addMeIn.empty then .ok q
  else match addMeIn.allScores with
    | none => q.insert addMeIn.tempScore addMeIn.tempValue
    | some scores => insertFrom addMeIn (toInt scores.size) 0 q

end Heap

def size (q : TopKQueue Score Value) : Except Fault ℕ := do
  let values ← deref q.allValues
  return values.size % 2 ^ 32

def get (i : UInt32) (q : TopKQueue Score Value) : Except Fault (Score × Value) :=
  if q.empty then .error .emptyQueue
  else match q.allValues with
    | none => if i = 0 then .ok (q.tempScore, q.tempValue) else .error .pastTheEnd
    | some values => if i.toNat < values.size then q.read i.toNat else .error .pastTheEnd

def ofLimit [Inhabited Score] [Inhabited Value] (k : UInt32) : TopKQueue Score Value :=
  ⟨true, none, none, k, default, default⟩

def ofInit (k : UInt32) (initScore : Score) (initValue : Value) : TopKQueue Score Value :=
  ⟨false, none, none, k, initScore, initValue⟩

section Lists

variable {k : UInt32} {q : TopKQueue Score Value} {l : List (Score × Value)} {i j : ℕ} {x y : Score × Value}

structure Lists (k : UInt32) (q : TopKQueue Score Value) (l : List (Score × Value)) : Prop where
  limit : q.k = k
  nonempty : q.empty = false
  scores : ∃ v, q.allScores = some v ∧ Refines v (l.map Prod.fst)
  values : ∃ v, q.allValues = some v ∧ Refines v (l.map Prod.snd)

theorem getObj_refines {v : Vector T} {m : List T} {val : T} (h : Refines v m) (hval : m[i]? = some val) :
    inVector (v.getObj i) = .ok val := by
  rw [Array.getObj, h.filled i val hval]
  rfl

theorem write_refines {v : Vector T} {m : List T} (h : Refines v m) (hi : i < m.length) (val : T) :
    ∃ v', inVector (v.write i val) = .ok v' ∧ Refines v' (m.set i val) := by
  have hle := h.le
  obtain ⟨v', hv', hset, -⟩ := @Refines.write T v m h i (by omega) val
  exact ⟨v', by rw [hv']; rfl, hset⟩

theorem push_refines [Inhabited T] {v : Vector T} {m : List T} (h : Refines v m) (hroom : m.length < v.numSlots ∨
    0 < m.length ∧ m.length < 2 ^ 31) (val : T) :
    ∃ v', inVector (Vector.pushBack (some val) v) = .ok v' ∧ Refines v' (m ++ [val]) := by
  have hused := h.used
  have hle := h.le
  have hcall : (Call.pushBack (some val)).HasRoom v := by
    intro hfull
    have hfull : v.usedSlots = v.numSlots := hfull
    change 0 < v.numSlots ∧ v.numSlots < 2 ^ 31
    omega
  obtain ⟨v', hv', hpush⟩ := h.push hcall
  exact ⟨v', by rw [hv']; rfl, hpush⟩

namespace Lists

theorem scoreAt (h : Lists k q l) (hx : l[i]? = some x) : q.scoreAt i = .ok x.1 := by
  obtain ⟨v, hv, hrefines⟩ := h.scores
  unfold TopKQueue.scoreAt
  rw [hv]
  apply getObj_refines hrefines
  rw [List.getElem?_map, hx]
  rfl

theorem read (h : Lists k q l) (hx : l[i]? = some x) : q.read i = .ok x := by
  obtain ⟨v, hv, hscores⟩ := h.scores
  obtain ⟨w, hw, hvalues⟩ := h.values
  have hscore : inVector (v.getObj i) = .ok x.1 := by
    apply getObj_refines hscores
    rw [List.getElem?_map, hx]
    rfl
  have hvalue : inVector (w.getObj i) = .ok x.2 := by
    apply getObj_refines hvalues
    rw [List.getElem?_map, hx]
    rfl
  unfold TopKQueue.read
  simp only [hv, hw, deref, ok_bind, hscore, hvalue]
  rfl

theorem write (h : Lists k q l) (hi : i < l.length) (pair : Score × Value) :
    ∃ q', q.write i pair = .ok q' ∧ Lists k q' (l.set i pair) := by
  obtain ⟨v, hv, hscores⟩ := h.scores
  obtain ⟨w, hw, hvalues⟩ := h.values
  obtain ⟨v', hv', hscores'⟩ := write_refines hscores (by rwa [length_map]) pair.1
  obtain ⟨w', hw', hvalues'⟩ := write_refines hvalues (by rwa [length_map]) pair.2
  rw [← List.map_set] at hscores' hvalues'
  refine ⟨{ q with allScores := some v', allValues := some w' }, ?_, h.limit, h.nonempty, ⟨v', rfl, hscores'⟩,
    ⟨w', rfl, hvalues'⟩⟩
  unfold TopKQueue.write
  simp only [hv, hw, deref, ok_bind, hv', hw']
  rfl

theorem temp (h : Lists k q l) (score : Score) (value : Value) :
    Lists k { q with tempScore := score, tempValue := value } l := ⟨h.limit, h.nonempty, h.scores, h.values⟩

theorem swap (h : Lists k q l) (hx : l[i]? = some x) (hy : l[j]? = some y) :
    ∃ q', q.swap i j = .ok q' ∧ Lists k q' ((l.set i y).set j x) := by
  have hi := (List.getElem?_eq_some_iff.mp hx).1
  have hj := (List.getElem?_eq_some_iff.mp hy).1
  obtain ⟨q₁, hq₁, h₁⟩ := (h.temp x.1 x.2).write hi y
  have htemp : q₁.tempScore = x.1 ∧ q₁.tempValue = x.2 := by
    unfold TopKQueue.write at hq₁
    obtain ⟨_, -, hq₁⟩ := bind_eq_ok.mp hq₁
    obtain ⟨_, -, hq₁⟩ := bind_eq_ok.mp hq₁
    obtain ⟨_, -, hq₁⟩ := bind_eq_ok.mp hq₁
    obtain ⟨_, -, hq₁⟩ := bind_eq_ok.mp hq₁
    cases hq₁
    exact ⟨rfl, rfl⟩
  obtain ⟨q₂, hq₂, h₂⟩ := h₁.write (by rwa [length_set]) x
  refine ⟨q₂, ?_, h₂⟩
  unfold TopKQueue.swap
  simp only [h.read hx, ok_bind, (h.temp x.1 x.2).read hy, hq₁, htemp]
  exact hq₂

theorem pushBack [Inhabited Score] [Inhabited Value] (h : Lists k q l) (hpos : 0 < l.length)
    (hroom : l.length < 2 ^ 31) (score : Score) (value : Value) :
    ∃ q', q.pushBack score value = .ok q' ∧ Lists k q' (l ++ [(score, value)]) := by
  obtain ⟨v, hv, hscores⟩ := h.scores
  obtain ⟨w, hw, hvalues⟩ := h.values
  obtain ⟨v', hv', hscores'⟩ := push_refines hscores (.inr (by rw [length_map]; exact ⟨hpos, hroom⟩)) score
  obtain ⟨w', hw', hvalues'⟩ := push_refines hvalues (.inr (by rw [length_map]; exact ⟨hpos, hroom⟩)) value
  refine ⟨{ q with allScores := some v', allValues := some w' }, ?_, h.limit, h.nonempty, ⟨v', rfl, ?_⟩,
    ⟨w', rfl, ?_⟩⟩
  · unfold TopKQueue.pushBack
    simp only [hv, hw, deref, ok_bind, hv', hw']
    rfl
  · rwa [List.map_append]
  · rwa [List.map_append]

theorem popBack (h : Lists k q l) : ∃ q', q.popBack = .ok q' ∧ Lists k q' l.dropLast := by
  obtain ⟨v, hv, hscores⟩ := h.scores
  obtain ⟨w, hw, hvalues⟩ := h.values
  refine ⟨{ q with allScores := some v.popBack, allValues := some w.popBack }, ?_, h.limit, h.nonempty,
    ⟨_, rfl, ?_⟩, ⟨_, rfl, ?_⟩⟩
  · unfold TopKQueue.popBack
    simp only [hv, hw, deref, ok_bind]
    rfl
  · rw [List.map_dropLast]
    exact hscores.popBack
  · rw [List.map_dropLast]
    exact hvalues.popBack

theorem size_scores (h : Lists k q l) : ∃ v, deref q.allScores = .ok v ∧ v.size = l.length := by
  obtain ⟨v, hv, hscores⟩ := h.scores
  refine ⟨v, by rw [hv]; rfl, ?_⟩
  rw [← length_map (f := Prod.fst)]
  exact hscores.used

theorem removeFirst (h : Lists k q l) (hx : l[l.length - 1]? = some x) :
    ∃ q', q.removeFirst = .ok q' ∧ Lists k q' (l.set 0 x).dropLast := by
  obtain ⟨v, hv, hsize⟩ := h.size_scores
  have hlt := (List.getElem?_eq_some_iff.mp hx).1
  obtain ⟨q₁, hq₁, h₁⟩ := h.write (show 0 < l.length by omega) x
  obtain ⟨q₂, hq₂, h₂⟩ := h₁.popBack
  refine ⟨q₂, ?_, h₂⟩
  unfold TopKQueue.removeFirst
  simp only [hv, ok_bind, hsize, h.read hx, hq₁]
  exact hq₂

end Lists

theorem perm_swap (hx : l[i]? = some x) (hy : l[j]? = some y) : ((l.set i y).set j x).Perm l := by
  obtain ⟨hi, rfl⟩ := List.getElem?_eq_some_iff.mp hx
  obtain ⟨hj, rfl⟩ := List.getElem?_eq_some_iff.mp hy
  exact List.set_set_perm hi hj

theorem makeVectors_single [Inhabited Score] [Inhabited Value] (hempty : q.empty = false) (hk : q.k = k)
    (hnone : q.allScores = none) : ∃ q', q.makeVectors = .ok q' ∧ Lists k q' [(q.tempScore, q.tempValue)] := by
  have hrefines (T : Type) : Refines (.empty : Vector T) [] := ⟨rfl, nofun, by simp [Array.numSlots, Vector.empty]⟩
  obtain ⟨v, hv, hscores⟩ := push_refines (hrefines Score) (.inl Nat.zero_lt_one) q.tempScore
  obtain ⟨w, hw, hvalues⟩ := push_refines (hrefines Value) (.inl Nat.zero_lt_one) q.tempValue
  refine ⟨{ q with allScores := some v, allValues := some w }, ?_, hk, hempty, ⟨v, rfl, hscores⟩, ⟨w, rfl, hvalues⟩⟩
  unfold TopKQueue.makeVectors TopKQueue.pushBack
  simp only [hnone, deref, ok_bind, hv, hw]
  rfl

end Lists

section Sift

open BinaryHeap

variable [Preorder Score] [Std.Total (α := Score) (· ≤ ·)] [DecidableLT Score] [Inhabited Score] [Inhabited Value]
  {k : UInt32} {q : TopKQueue Score Value} {l : List (Score × Value)} {i j : ℕ} {x y : Score × Value}

omit [Inhabited Score] [DecidableLT Score] in
theorem le_of_not_lt {s t : Score} (h : ¬s < t) : t ≤ s := by
  obtain hle | hle := Std.Total.total (r := (· ≤ ·)) t s
  · exact hle
  · by_contra hnot
    exact h (lt_of_le_not_ge hle hnot)

def keys (l : List (Score × Value)) (i : ℕ) : Score := (l.getD i default).1

omit [Preorder Score] [Std.Total (α := Score) (· ≤ ·)] [DecidableLT Score] in
theorem keys_eq (hx : l[i]? = some x) : keys l i = x.1 := by
  rw [keys, List.getD_eq_getElem?_getD, hx]
  rfl

omit [Preorder Score] [Std.Total (α := Score) (· ≤ ·)] [DecidableLT Score] in
theorem keys_swap (hx : l[i]? = some x) (hy : l[j]? = some y) :
    keys ((l.set i y).set j x) = exchange i j (keys l) := by
  have hi := (List.getElem?_eq_some_iff.mp hx).1
  have hj := (List.getElem?_eq_some_iff.mp hy).1
  funext m
  by_cases hmj : m = j
  · subst hmj
    rw [exchange_right, keys_eq hx]
    apply keys_eq
    apply getElem?_set_self
    rwa [length_set]
  · by_cases hmi : m = i
    · subst hmi
      rw [exchange_left, keys_eq hy]
      apply keys_eq
      rw [getElem?_set_ne (Ne.symm hmj)]
      exact getElem?_set_self hi
    · rw [exchange_other _ hmi hmj, keys, keys, List.getD_eq_getElem?_getD, List.getD_eq_getElem?_getD,
        getElem?_set_ne (Ne.symm hmj), getElem?_set_ne (Ne.symm hmi)]

namespace Lists

theorem siftUp {n rounds current : ℕ} (h : Lists k q l) (hlength : l.length = n)
    (hkeys : Rising (keys l) n current) (hcurrent : current < n) (hrounds : current ≤ rounds) :
    ∃ q' l', siftUp rounds current q = .ok q' ∧ Lists k q' l' ∧ Ordered (keys l') l'.length ∧ l'.Perm l := by
  induction rounds generalizing current q l with
  | zero =>
    subst hlength
    refine ⟨q, l, rfl, h, ?_, List.Perm.refl l⟩
    apply hkeys.stop
    omega
  | succ rounds ih =>
    rw [TopKQueue.siftUp]
    subst hlength
    split_ifs with hpos
    · have hlt := parent_lt hpos
      have hx := List.getElem?_eq_getElem hcurrent
      have hy := List.getElem?_eq_getElem (show parent current < l.length by omega)
      have hscoreY : q.scoreAt ((current - 1) / 2) = .ok l[parent current].1 := h.scoreAt hy
      have hkeyX := keys_eq hx
      have hkeyY := keys_eq hy
      rw [h.scoreAt hx, ok_bind, hscoreY, ok_bind]
      split_ifs with hless
      · obtain ⟨q₁, hq₁, h₁⟩ := h.swap hx hy
        have hlength : ((l.set current l[parent current]).set (parent current) l[current]).length = l.length := by
          rw [length_set, length_set]
        have hstep := hkeys.step hpos hcurrent (by rw [hkeyX, hkeyY]; exact le_of_lt hless)
        rw [← keys_swap hx hy] at hstep
        obtain ⟨q', l', hq', hlists, hordered, hperm⟩ := ih h₁ hlength hstep (by omega) (by omega)
        refine ⟨q', l', ?_, hlists, hordered, hperm.trans (perm_swap hx hy)⟩
        exact bind_eq_ok.mpr ⟨q₁, hq₁, hq'⟩
      · refine ⟨q, l, rfl, h, ?_, List.Perm.refl l⟩
        apply hkeys.stop
        intro
        rw [hkeyX, hkeyY]
        exact le_of_not_lt hless
    · refine ⟨q, l, rfl, h, ?_, List.Perm.refl l⟩
      apply hkeys.stop
      omega

theorem smallPos {current : ℕ} (h : Lists k q l) (hcurrent : current < l.length) (hint : l.length < 2 ^ 30) :
    (q.smallPos l.length current = .ok none ∧ ∀ j < l.length, 0 < j → parent j ≠ current) ∨
      ∃ m < l.length, q.smallPos l.length current = .ok (some m) ∧ 0 < m ∧ parent m = current ∧
        ∀ j < l.length, 0 < j → parent j = current → keys l m ≤ keys l j := by
  have hfits : int (current * 2 + 2) = .ok (current * 2 + 2) := if_pos (by omega)
  unfold TopKQueue.smallPos
  rw [hfits, ok_bind]
  split_ifs with htwo hone
  · right
    have hx := List.getElem?_eq_getElem (show current * 2 + 1 < l.length by omega)
    have hy := List.getElem?_eq_getElem htwo
    have hkeyX := keys_eq hx
    have hkeyY := keys_eq hy
    rw [h.scoreAt hx, ok_bind, h.scoreAt hy, ok_bind]
    split_ifs with hless
    · refine ⟨current * 2 + 1, by omega, rfl, by omega, (parent_eq_iff (by omega)).mpr (.inl rfl), ?_⟩
      intro j hj hpos hparent
      obtain rfl | rfl := (parent_eq_iff hpos).mp hparent
      · exact le_refl _
      · rw [hkeyX, hkeyY]
        exact le_of_lt hless
    · refine ⟨current * 2 + 2, htwo, rfl, by omega, (parent_eq_iff (by omega)).mpr (.inr rfl), ?_⟩
      intro j hj hpos hparent
      obtain rfl | rfl := (parent_eq_iff hpos).mp hparent
      · rw [hkeyX, hkeyY]
        exact le_of_not_lt hless
      · exact le_refl _
  · right
    refine ⟨current * 2 + 1, hone, rfl, by omega, (parent_eq_iff (by omega)).mpr (.inl rfl), ?_⟩
    intro j hj hpos hparent
    obtain rfl | rfl := (parent_eq_iff hpos).mp hparent
    · exact le_refl _
    · omega
  · left
    refine ⟨rfl, ?_⟩
    intro j hj hpos hparent
    obtain rfl | rfl := (parent_eq_iff hpos).mp hparent <;> omega

theorem siftDown {limit rounds current : ℕ} (h : Lists k q l) (hlimit : l.length = limit)
    (hkeys : Sinking (keys l) limit current) (hcurrent : current < limit) (hrounds : limit ≤ current + rounds)
    (hint : limit < 2 ^ 30) : ∃ q' l', siftDown limit rounds current q = .ok q' ∧ Lists k q' l' ∧
      Ordered (keys l') l'.length ∧ l'.Perm l := by
  induction rounds generalizing current q l with
  | zero => omega
  | succ rounds ih =>
    rw [TopKQueue.siftDown]
    subst hlimit
    obtain ⟨hsmall, hnone⟩ | ⟨m, hm, hsmall, hpos, hparent, hleast⟩ := h.smallPos hcurrent hint
    · rw [hsmall, ok_bind]
      refine ⟨q, l, rfl, h, ?_, List.Perm.refl l⟩
      apply hkeys.stop
      intro j hj hposj hchild
      exact absurd hchild (hnone j hj hposj)
    · have hlt := parent_lt hpos
      have hx := List.getElem?_eq_getElem hm
      have hy := List.getElem?_eq_getElem hcurrent
      have hkeyX := keys_eq hx
      have hkeyY := keys_eq hy
      rw [hsmall, ok_bind]
      dsimp only
      rw [h.scoreAt hx, ok_bind, h.scoreAt hy, ok_bind]
      split_ifs with hless
      · obtain ⟨q₁, hq₁, h₁⟩ := h.swap hx hy
        have hlength : ((l.set m l[current]).set current l[m]).length = l.length := by
          rw [length_set, length_set]
        have hstep := hkeys.step hm hpos hparent (by rw [hkeyX, hkeyY]; exact le_of_lt hless) hleast
        rw [← keys_swap hx hy] at hstep
        rw [hq₁, ok_bind]
        obtain ⟨q', l', hq', hlists, hordered, hperm⟩ := ih h₁ hlength hstep hm (by omega)
        exact ⟨q', l', hq', hlists, hordered, hperm.trans (perm_swap hx hy)⟩
      · refine ⟨q, l, rfl, h, ?_, List.Perm.refl l⟩
        apply hkeys.stop
        intro j hj hposj hchild
        apply le_trans _ (hleast j hj hposj hchild)
        rw [hkeyX, hkeyY]
        exact le_of_not_lt hless

end Lists

end Sift

end TopKQueue

end PlinyCompute
