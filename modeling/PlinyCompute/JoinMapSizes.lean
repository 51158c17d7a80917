import PlinyCompute.JoinMultimap
import PlinyCompute.MapSizes

namespace PlinyCompute.PdbJoinMap

open Probing PdbMap Transition
open Allocator (Growth)

/-- The slots of an array to which only `push_back` adds, from the single slot of `Vector ()`. -/
def capacity : ℕ → ℕ
  | 0 => 1
  | used + 1 => if used = capacity used then capacity used * 2 else capacity used

theorem capacity_mono : Monotone capacity := by
  apply monotone_nat_of_le_succ
  intro used
  rw [capacity]
  split_ifs <;> omega

def check (p : Prop) [Decidable p] : Except Stop Unit := if p then .ok () else .error .undefined

section Check

variable {p q : Prop} [Decidable p] [Decidable q]

theorem check_congr (h : p ↔ q) : check p = check q := if_congr h rfl rfl

theorem check_of (h : p) : check p = .ok () := if_pos h

theorem check_of_not (h : ¬p) : check p = .error .undefined := if_neg h

theorem check_bind : (check p >>= fun _ => check q) = check (p ∧ q) := by
  by_cases hp : p
  · rw [check_of hp, ok_bind]
    exact check_congr (and_iff_right hp).symm
  · rw [check_of_not hp, check_of_not (mt And.left hp)]
    rfl

end Check

def reserve (own : UInt64) (g : Growth) : Except Stop Unit := check (g.Holds own)

structure ArraySizes where
  contained : UInt64
  own : UInt64
  pos : 0 < contained.toNat

namespace ArraySizes

def Fits (s : ArraySizes) (used : ℕ) : Prop := s.contained.toNat * capacity used + s.own.toNat + 11 < 2 ^ 32

instance (s : ArraySizes) (used : ℕ) : Decidable (s.Fits used) := inferInstanceAs (Decidable (_ < _))

def create (s : ArraySizes) : Except Stop Unit := reserve s.own (.resize s.contained 1)

def pushBack (s : ArraySizes) (used : ℕ) : Except Stop Unit :=
  if used = capacity used then reserve s.own (.doubleSize s.contained (.ofNat (capacity used))) else .ok ()

variable {s : ArraySizes} {used used' : ℕ}

theorem Fits.mono (h : s.Fits used') (hle : used ≤ used') : s.Fits used := by
  have := Nat.mul_le_mul_left s.contained.toNat (capacity_mono hle)
  unfold Fits at h ⊢
  omega

theorem create_eq : s.create = check (s.Fits 0) := by
  apply check_congr
  rw [Growth.holds_iff]
  rfl

theorem pushBack_eq (h : s.Fits used) : s.pushBack used = check (s.Fits (used + 1)) := by
  have hslots : capacity used < 2 ^ 32 := by
    have := Nat.mul_le_mul_right (capacity used) s.pos
    unfold Fits at h
    omega
  rw [pushBack]
  split_ifs with hfull
  · apply check_congr
    rw [Growth.holds_iff, Growth.elementSize, Growth.slots, UInt32.toNat_ofNat', Nat.mod_eq_of_lt hslots, Fits,
      capacity, if_pos hfull]
  · rw [check_of]
    rwa [Fits, capacity, if_neg hfull]

end ArraySizes

/-- The overflow records of one hash lie in an array of `records`, and their vectors in an array of `vectors`. -/
structure JoinSizes extends Sizes where
  records : ArraySizes
  vectors : ArraySizes

/-- What a sequence of hashes comes to: the slots, how many of them are used, how many hashes have an overflow vector,
and how often each one was pushed. -/
structure Counts where
  slots : ℕ
  used : ℕ
  vectors : ℕ
  records : ℕ → ℕ

namespace Counts

def start (initSize : ℕ) : Counts := ⟨max initSize 2, 0, 0, fun _ => 0⟩

def push (c : Counts) (hash : ℕ) : Counts where
  slots := grow c.slots c.used
  used := if c.records hash = 0 then c.used + 1 else c.used
  vectors := if c.records hash = 1 then c.vectors + 1 else c.vectors
  records := Function.update c.records hash (c.records hash + 1)

theorem push_self (c : Counts) (hash : ℕ) : (c.push hash).records hash = c.records hash + 1 :=
  Function.update_self _ _ _

theorem push_of_ne (c : Counts) {hash other : ℕ} (h : other ≠ hash) :
    (c.push hash).records other = c.records other :=
  Function.update_of_ne h _ _

end Counts

def JoinSizes.FitsAll (s : JoinSizes) (c : Counts) : Prop :=
  s.Fits c.slots ∧ s.vectors.Fits c.vectors ∧ ∀ hash, 2 ≤ c.records hash → s.records.Fits (c.records hash - 1)

variable {V : Type}

def counts (initSize : ℕ) (records : List (ℕ × V)) : Counts :=
  records.foldl (fun c r => c.push (normalise r.1)) (.start initSize)

theorem JoinSizes.FitsAll.of_push {s : JoinSizes} {c : Counts} {hash : ℕ} (h : s.FitsAll (c.push hash)) :
    s.FitsAll c := by
  obtain ⟨hslots, hvectors, hrecords⟩ := h
  refine ⟨hslots.mono (le_grow _ _), hvectors.mono ?_, ?_⟩
  · dsimp only [Counts.push]
    split_ifs <;> omega
  · intro other hother
    by_cases heq : other = hash
    · subst heq
      have hpushed := hrecords other
      rw [Counts.push_self] at hpushed
      exact (hpushed (by omega)).mono (by omega)
    · have hpushed := hrecords other
      rw [Counts.push_of_ne c heq] at hpushed
      exact hpushed hother

theorem JoinSizes.FitsAll.of_counts {s : JoinSizes} {c : Counts} {records : List (ℕ × V)}
    (h : s.FitsAll (records.foldl (fun c r => c.push (normalise r.1)) c)) : s.FitsAll c := by
  induction records generalizing c with
  | nil => exact h
  | cons r records ih => exact (ih h).of_push

namespace JoinMap

def ofSizeIn (s : JoinSizes) (initSize : UInt32) : Except Stop (JoinMap V) :=
  match JoinMap.ofSize initSize.toNat with
  | .error e => .error (.thrown e)
  | .ok m => do
    s.vectors.create
    reserve s.own (.resize s.objSize.toUInt64 (if initSize < 2 then 2 else initSize))
    .ok m

def doubling (s : JoinSizes) (m : JoinMap V) : Except Stop Unit :=
  if m.myArray.isOverFull then do
    s.vectors.create
    reserve s.own (.joinPairArray s.objSize (.ofNat m.myArray.numSlots))
  else .ok ()

def overflowing (s : JoinSizes) (m : JoinMap V) (me : ℕ) : Except Stop Unit :=
  match (m.myArray.find me).bind fun slot => m.myArray.data[slot]?.join with
  | none => .ok ()
  | some e =>
    match e.next with
    | none => do
      s.records.create
      s.vectors.pushBack m.myArray.overflows.length
      s.records.pushBack 0
    | some i => s.records.pushBack (m.myArray.overflow (some i)).length

variable [Inhabited V]

def insertIn (s : JoinSizes) (m : JoinMap V) (r : ℕ × V) : Except Stop (JoinMap V) := do
  m.doubling s
  m.overflowing s r.1
  (m.insert r).mapError .thrown

end JoinMap

def run [Inhabited V] (s : JoinSizes) (initSize : UInt32) (records : List (ℕ × V)) : Except Stop (JoinMap V) := do
  let m ← JoinMap.ofSizeIn s initSize
  records.foldlM (JoinMap.insertIn s) m

namespace JoinPairArray

structure Sized (c : Counts) (a : JoinPairArray V) : Prop where
  valid : a.Valid
  slots : a.numSlots = c.slots
  used : a.usedSlots = c.used
  entries : a.data.reduceOption.length = c.used
  vectors : a.overflows.length = c.vectors
  records : ∀ hash, (a.values hash).length = c.records hash
  filled : ∀ e, some e ∈ a.data → ∀ i ∈ e.next, 2 ≤ c.records e.hash
  owned : ∀ i < a.overflows.length, ∃ e, some e ∈ a.data ∧ e.next = some i

namespace Sized

variable {c : Counts} {a : JoinPairArray V}

theorem ofSize {n : ℕ} (hn : 2 ≤ n) : (ofSize n : JoinPairArray V).Sized ⟨n, 0, 0, fun _ => 0⟩ := by
  have hempty {e : JoinMapRecordClass V} : some e ∉ (JoinPairArray.ofSize n : JoinPairArray V).data := by
    simp [JoinPairArray.ofSize, List.mem_replicate]
  refine ⟨ofSize_valid hn, List.length_replicate, rfl, ?_, rfl, ?_, ?_, fun i hi => absurd hi (Nat.not_lt_zero i)⟩
  · simp [JoinPairArray.ofSize, List.reduceOption_replicate_none]
  · intro hash
    rw [values_absent fun e he => absurd he hempty]
    rfl
  · exact fun e he => absurd he hempty

theorem absent_iff (h : a.Sized c) {me : ℕ} :
    (∀ e, some e ∈ a.data → e.hash ≠ normalise me) ↔ c.records (normalise me) = 0 := by
  rw [← h.records, List.length_eq_zero_iff]
  constructor
  · exact values_absent
  · intro hnone e he hhash
    obtain ⟨slot, hs⟩ := List.mem_iff_getElem?.mp he
    have hvalues := h.valid.values_present hs
    rw [hhash, hnone] at hvalues
    cases hvalues

theorem entry (h : a.Sized c) {slot : ℕ} {e : JoinMapRecordClass V} (hs : a.data[slot]? = some (some e)) :
    c.records e.hash = (a.overflow e.next).length + 1 := by
  rw [← h.records, h.valid.values_present hs]
  rfl

theorem next_none (h : a.Sized c) {slot : ℕ} {e : JoinMapRecordClass V} (hs : a.data[slot]? = some (some e)) :
    e.next = none ↔ c.records e.hash = 1 := by
  constructor
  · intro hnone
    rw [h.entry hs, hnone]
    rfl
  · intro hone
    cases hi : e.next with
    | none => rfl
    | some i =>
      have := h.filled e (List.mem_of_getElem? hs) i hi
      omega

end Sized

theorem Sized.doubled {c : Counts} {a temp : JoinPairArray V} [Inhabited V] (h : a.Sized c)
    (hd : a.doubleArray = .ok temp) : temp.Sized { c with slots := c.slots * 2 } := by
  obtain ⟨temp', hd', hvalid, -, -, hperm, hvalues⟩ := h.valid.doubleArray_ok
  obtain rfl : temp = temp' := by
    rw [hd] at hd'
    cases hd'
    rfl
  obtain ⟨newOne, hm, -, -, hslots, hused⟩ := h.valid.rehash.moveAll_ok
  rw [doubleArray, hm] at hd
  cases hd
  have hmem (e : JoinMapRecordClass V) : some e ∈ newOne.data ↔ some e ∈ a.data := by
    rw [← List.reduceOption_mem_iff, ← List.reduceOption_mem_iff]
    exact hperm.mem_iff
  refine ⟨hvalid, ?_, ?_, hperm.length_eq.trans h.entries, h.vectors, ?_, ?_, ?_⟩
  · rw [← h.slots]
    exact hslots.trans List.length_replicate
  · rw [← h.entries]
    exact hused.trans (Nat.zero_add _)
  · intro hash
    rw [hvalues, h.records]
  · exact fun e he => h.filled e ((hmem e).mp he)
  · intro i hi
    obtain ⟨e, he, hnext⟩ := h.owned i hi
    exact ⟨e, (hmem e).mpr he, hnext⟩

inductive Entered (a : JoinPairArray V) (me : ℕ) (b : JoinPairArray V) : Prop
  | fresh {slot : ℕ} {v : V} : (∀ e, some e ∈ a.data → e.hash ≠ normalise me) → a.data[slot]? = some none →
      b.data = a.data.set slot (some ⟨normalise me, none, v⟩) → b.usedSlots = a.usedSlots + 1 →
      b.overflows.length = a.overflows.length → Entered a me b
  | second {slot : ℕ} {e : JoinMapRecordClass V} : a.data[slot]? = some (some e) → e.hash = normalise me →
      e.next = none → b.data = a.data.set slot (some { e with next := some a.overflows.length }) →
      b.usedSlots = a.usedSlots → b.overflows.length = a.overflows.length + 1 → Entered a me b
  | further {slot i : ℕ} {e : JoinMapRecordClass V} : a.data[slot]? = some (some e) → e.hash = normalise me →
      e.next = some i → b.data = a.data → b.usedSlots = a.usedSlots →
      b.overflows.length = a.overflows.length → Entered a me b

theorem Valid.push_entered [Inhabited V] {a : JoinPairArray V} (h : a.Valid) (me : ℕ) (v : V)
    (hroom : a.usedSlots < a.maxSlots) :
    ∃ a' place, a.push .enough me = (a', .ok place) ∧ Entered a me (a'.store place v) := by
  obtain ⟨slot, e, hs, he⟩ | habs := @present_or_absent V a me
  · have hfind := h.find_present hs he
    cases hn : e.next with
    | some i =>
      refine ⟨_, _, by simp only [push, hfind, hs, Option.join_some, hn, append, reduceCtorEq, if_false]; rfl, ?_⟩
      exact .further hs he hn rfl rfl ((List.length_modify _ _ _).trans (List.length_modify _ _ _))
    | none =>
      refine ⟨_, _, by simp only [push, hfind, hs, Option.join_some, hn, append, reduceCtorEq, if_false]; rfl, ?_⟩
      refine .second hs he hn rfl rfl ?_
      simp [store]
  · obtain ⟨slot, hempty, hfind, -⟩ := h.push_absent habs hroom
    have hin : slot < a.data.length := (List.getElem?_eq_some_iff.mp hempty).1
    refine ⟨_, _, by simp only [push, hfind, hempty, Option.join_some, reduceCtorEq, if_false]; rfl, ?_⟩
    exact .fresh habs hempty (store_slot hin _ _ _ v) rfl rfl

theorem Sized.entered {c : Counts} {a b : JoinPairArray V} {me : ℕ} {v : V} (h : a.Sized c) (he : Entered a me b)
    (hvalid : b.Valid)
    (hvalues : ∀ hash, b.values hash = if hash = normalise me then a.values hash ++ [v] else a.values hash) :
    b.Sized { c.push (normalise me) with slots := c.slots } := by
  have hrecords (hash : ℕ) : (b.values hash).length = (c.push (normalise me)).records hash := by
    rw [hvalues]
    by_cases heq : hash = normalise me
    · rw [if_pos heq, heq, Counts.push_self, List.length_append, h.records]
      rfl
    · rw [if_neg heq, Counts.push_of_ne c heq, h.records]
  have hle (hash : ℕ) : c.records hash ≤ (c.push (normalise me)).records hash := by
    rw [← hrecords, ← h.records, hvalues]
    split_ifs
    · simp
    · exact Nat.le_refl _
  have hold {e : JoinMapRecordClass V} (hmem : some e ∈ a.data) (i : ℕ) (hi : i ∈ e.next) :
      2 ≤ (c.push (normalise me)).records e.hash := (h.filled e hmem i hi).trans (hle _)
  have hkept {slot : ℕ} {old f : Option (JoinMapRecordClass V)} {e : JoinMapRecordClass V}
      (hs : a.data[slot]? = some old) (hmem : some e ∈ a.data) (hne : old ≠ some e) :
      some e ∈ a.data.set slot f := by
    obtain ⟨t, ht⟩ := List.mem_iff_getElem?.mp hmem
    have hst : slot ≠ t := by
      rintro rfl
      exact hne (Option.some.inj (hs.symm.trans ht))
    exact List.mem_of_getElem? ((List.getElem?_set_ne hst).trans ht)
  cases he with
  | @fresh slot v' habs hempty hdata hused hoverflows =>
    have hzero := h.absent_iff.mp habs
    have hset : b.numSlots = a.numSlots := by rw [numSlots, hdata, List.length_set, numSlots]
    refine ⟨hvalid, hset.trans h.slots, ?_, ?_, ?_, hrecords, ?_, ?_⟩
    · rw [hused, h.used, Counts.push]
      exact (if_pos hzero).symm
    · rw [hdata, (reduceOption_set hempty _).length_eq, List.length_cons, h.entries, Counts.push]
      exact (if_pos hzero).symm
    · rw [hoverflows, h.vectors, Counts.push]
      exact (if_neg (by omega)).symm
    · intro e hmem i hi
      rw [hdata] at hmem
      obtain hmem | hmem := List.mem_or_eq_of_mem_set hmem
      · exact hold hmem i hi
      · cases hmem
        cases hi
    · intro i hi
      obtain ⟨e, hmem, hnext⟩ := h.owned i (hoverflows ▸ hi)
      exact ⟨e, hdata ▸ hkept hempty hmem (fun he => by cases he), hnext⟩
  | @second slot e hs hhash hnone hdata hused hoverflows =>
    have hone : c.records (normalise me) = 1 := by rw [← hhash, ← h.next_none hs, hnone]
    have hset : b.numSlots = a.numSlots := by rw [numSlots, hdata, List.length_set, numSlots]
    have hin : slot < a.data.length := (List.getElem?_eq_some_iff.mp hs).1
    have hempty : (a.data.set slot none)[slot]? = some none := List.getElem?_set_self hin
    have hafter := (reduceOption_set hempty { e with next := some a.overflows.length }).length_eq
    rw [List.set_set, List.length_cons, ← List.length_cons, ← (reduceOption_perm_cons hs).length_eq] at hafter
    refine ⟨hvalid, hset.trans h.slots, ?_, ?_, ?_, hrecords, ?_, ?_⟩
    · rw [hused, h.used, Counts.push]
      exact (if_neg (by omega)).symm
    · rw [hdata, hafter, h.entries, Counts.push]
      exact (if_neg (by omega)).symm
    · rw [hoverflows, h.vectors, Counts.push]
      exact (if_pos hone).symm
    · intro f hmem i hi
      rw [hdata] at hmem
      obtain hmem | hmem := List.mem_or_eq_of_mem_set hmem
      · exact hold hmem i hi
      · cases hmem
        dsimp only
        rw [hhash, Counts.push_self, hone]
    · intro i hi
      rw [hoverflows] at hi
      obtain hlt | rfl := Nat.lt_succ_iff_lt_or_eq.mp hi
      · obtain ⟨f, hmem, hnext⟩ := h.owned i hlt
        refine ⟨f, hdata ▸ hkept hs hmem (fun hf => ?_), hnext⟩
        cases hf
        rw [hnone] at hnext
        cases hnext
      · exact ⟨{ e with next := some a.overflows.length }, hdata ▸ List.mem_of_getElem? (List.getElem?_set_self hin), rfl⟩
  | @further slot i e hs hhash hsome hdata hused hoverflows =>
    have hmany : 2 ≤ c.records (normalise me) := hhash ▸ h.filled e (List.mem_of_getElem? hs) i hsome
    have hset : b.numSlots = a.numSlots := by rw [numSlots, hdata, numSlots]
    refine ⟨hvalid, hset.trans h.slots, ?_, ?_, ?_, hrecords, ?_, ?_⟩
    · rw [hused, h.used, Counts.push]
      exact (if_neg (by omega)).symm
    · rw [hdata, h.entries, Counts.push]
      exact (if_neg (by omega)).symm
    · rw [hoverflows, h.vectors, Counts.push]
      exact (if_neg (by omega)).symm
    · intro f hmem
      rw [hdata] at hmem
      exact hold hmem
    · rw [hoverflows, hdata]
      exact h.owned

end JoinPairArray

theorem JoinSizes.FitsAll.push_iff {s : JoinSizes} {c : Counts} (h : s.FitsAll c) {hash : ℕ} :
    s.FitsAll (c.push hash) ↔ s.Fits (grow c.slots c.used) ∧
      (c.records hash = 1 → s.vectors.Fits (c.vectors + 1)) ∧
      (1 ≤ c.records hash → s.records.Fits (c.records hash)) := by
  apply and_congr Iff.rfl
  apply and_congr
  · dsimp only [Counts.push]
    split_ifs with hone
    · exact ⟨fun hf _ => hf, fun hf => hf hone⟩
    · exact ⟨fun _ hc => absurd hc hone, fun _ => h.2.1⟩
  · constructor
    · intro hall hpos
      have hself := hall hash
      rw [Counts.push_self] at hself
      exact hself (by omega)
    · intro hself other hother
      by_cases heq : other = hash
      · subst heq
        rw [Counts.push_self] at hother ⊢
        exact hself (by omega)
      · rw [Counts.push_of_ne c heq] at hother ⊢
        exact h.2.2 other hother

namespace JoinMap

variable {s : JoinSizes} {c : Counts} {m : JoinMap V}

theorem isOverFull_iff (h : m.myArray.Sized c) : m.myArray.isOverFull = true ↔ c.slots * 667 / 1000 ≤ c.used := by
  rw [← h.slots, ← h.used]
  exact decide_eq_true_iff

theorem doubling_eq (h : m.myArray.Sized c) (hfits : s.FitsAll c) :
    m.doubling s = check (s.Fits (grow c.slots c.used)) := by
  have hover := isOverFull_iff h
  rw [doubling, grow]
  split_ifs with hm hc hc
  · rw [ArraySizes.create_eq, check_of (hfits.2.1.mono (Nat.zero_le _)), ok_bind, h.slots]
    exact check_congr (Growth.holds_iff.trans (Growth.holds_iff.symm.trans (Sizes.holds_double hfits.1)))
  · exact absurd (hover.mp hm) hc
  · exact absurd (hover.mpr hc) hm
  · exact (check_of hfits.1).symm

theorem overflowing_eq (h : m.myArray.Sized c) (hfits : s.FitsAll c) (me : ℕ) :
    m.overflowing s me = check ((c.records (normalise me) = 1 → s.vectors.Fits (c.vectors + 1)) ∧
      (1 ≤ c.records (normalise me) → s.records.Fits (c.records (normalise me)))) := by
  obtain ⟨slot, e, hs, he⟩ | habs := @JoinPairArray.present_or_absent V m.myArray me
  · have hentry := h.entry hs
    rw [he] at hentry
    rw [overflowing, h.valid.find_present hs he, Option.bind_some, hs, Option.join_some]
    dsimp only
    cases hn : e.next with
    | none =>
      have hone := (h.next_none hs).mp hn
      rw [he] at hone
      dsimp only
      rw [hone, ArraySizes.create_eq, h.vectors, ArraySizes.pushBack_eq hfits.2.1]
      by_cases hzero : s.records.Fits 0
      · rw [check_of hzero, ok_bind, ArraySizes.pushBack_eq hzero, check_bind]
        apply check_congr
        simp
      · rw [check_of_not hzero]
        exact (check_of_not fun hall => hzero ((hall.2 (Nat.le_refl _)).mono (Nat.zero_le _))).symm
    | some i =>
      have hmany := h.filled e (List.mem_of_getElem? hs) i hn
      rw [he] at hmany
      rw [hn] at hentry
      have hfit := hfits.2.2 _ hmany
      dsimp only
      rw [hentry, Nat.add_sub_cancel] at hfit
      rw [ArraySizes.pushBack_eq hfit, ← hentry]
      apply check_congr
      constructor
      · exact fun hf => ⟨fun hone => by omega, fun _ => hf⟩
      · exact fun hf => hf.2 (by omega)
  · obtain ⟨slot, hfind, hempty, -⟩ := h.valid.find_absent habs
    have hzero := h.absent_iff.mp habs
    rw [overflowing, hfind, Option.bind_some, hempty, hzero, check_of]
    · rfl
    · exact ⟨fun hone => by omega, fun hone => by omega⟩

theorem ofSizeIn_cases (s : JoinSizes) (initSize : UInt32) :
    (s.FitsAll (.start initSize.toNat) ∧ ∃ m : JoinMap V, JoinMap.ofSize initSize.toNat = .ok m ∧
      ofSizeIn s initSize = .ok m ∧ m.myArray.Sized (.start initSize.toNat)) ∨
    ¬s.FitsAll (.start initSize.toNat) ∧ ∃ e, (ofSizeIn s initSize : Except Stop (JoinMap V)) = .error e := by
  have hfits : s.FitsAll (.start initSize.toNat) ↔ s.vectors.Fits 0 ∧ s.Fits (max initSize.toNat 2) := by
    constructor
    · exact fun h => ⟨h.2.1, h.1⟩
    · exact fun h => ⟨h.2, h.1, fun hash hmany => absurd hmany (Nat.not_succ_le_zero 1)⟩
  rw [hfits, ofSizeIn, ArraySizes.create_eq, reserve, check_congr Sizes.holds_first]
  cases h₀ : (JoinMap.ofSize initSize.toNat : Except Thrown (JoinMap V)) with
  | error e =>
    refine Or.inr ⟨fun h => ?_, _, rfl⟩
    have hlt := h.2.slots_lt
    rw [JoinMap.ofSize, if_neg (by omega)] at h₀
    cases h₀
  | ok m =>
    dsimp only
    by_cases hvectors : s.vectors.Fits 0
    · rw [check_of hvectors, ok_bind]
      by_cases hslots : s.Fits (max initSize.toNat 2)
      · rw [check_of hslots, ok_bind]
        refine Or.inl ⟨⟨hvectors, hslots⟩, m, rfl, rfl, ?_⟩
        rw [JoinMap.ofSize] at h₀
        split_ifs at h₀
        cases h₀
        exact .ofSize (Nat.le_max_right _ _)
      · rw [check_of_not hslots]
        exact Or.inr ⟨fun h => hslots h.2, _, rfl⟩
    · rw [check_of_not hvectors]
      exact Or.inr ⟨fun h => hvectors h.1, _, rfl⟩

variable [Inhabited V]

theorem insert_sized (h : m.myArray.Sized c) (r : ℕ × V) :
    ∃ m', m.insert r = .ok m' ∧ m'.myArray.Sized (c.push (normalise r.1)) := by
  -- The array that takes the record is the old one or the doubled one.
  have harray {a : JoinPairArray V} (ha : a.Sized { c with slots := grow c.slots c.used })
      (hroom : a.usedSlots < a.maxSlots)
      (hpush : m.push .enough r.1 = (⟨(a.push .enough r.1).1⟩, (a.push .enough r.1).2)) :
      ∃ m', m.insert r = .ok m' ∧ m'.myArray.Sized (c.push (normalise r.1)) := by
    obtain ⟨a', place, hp, hentered⟩ := ha.valid.push_entered r.1 r.2 hroom
    obtain ⟨a'', place', hp', hpushed⟩ | ⟨a'', hp', -⟩ := ha.valid.push_cases .enough r.1 hroom
    · rw [hp] at hp' hpush
      cases hp'
      refine ⟨⟨a'.store place r.2⟩, by rw [JoinMap.insert, hpush]; rfl, ?_⟩
      exact ha.entered hentered (hpushed.valid r.2) (hpushed.values r.2)
    · exact absurd hp' (a.push_enough r.1 a'')
  by_cases hfull : m.myArray.isOverFull = true
  · obtain ⟨temp, hd, -, -, hroom, -⟩ := h.valid.doubleArray_ok
    apply harray _ hroom (by simp [push, hfull, hd])
    rw [grow, if_pos ((isOverFull_iff h).mp hfull)]
    exact h.doubled hd
  · have hroom : m.myArray.usedSlots < m.myArray.maxSlots := by
      simpa [JoinPairArray.isOverFull] using hfull
    apply harray _ hroom (by simp [push, hfull])
    rwa [grow, if_neg (mt (isOverFull_iff h).mpr hfull)]

theorem insertIn_cases (h : m.myArray.Sized c) (hfits : s.FitsAll c) (r : ℕ × V) :
    (s.FitsAll (c.push (normalise r.1)) ∧ ∃ m', m.insert r = .ok m' ∧ m.insertIn s r = .ok m' ∧
      m'.myArray.Sized (c.push (normalise r.1))) ∨
    ¬s.FitsAll (c.push (normalise r.1)) ∧ m.insertIn s r = .error .undefined := by
  obtain ⟨m', hinsert, hsized⟩ := insert_sized h r
  have hin : m.insertIn s r = (check (s.Fits (grow c.slots c.used) ∧
      (c.records (normalise r.1) = 1 → s.vectors.Fits (c.vectors + 1)) ∧
      (1 ≤ c.records (normalise r.1) → s.records.Fits (c.records (normalise r.1)))) >>= fun _ => .ok m') := by
    rw [insertIn, doubling_eq h hfits, overflowing_eq h hfits, hinsert, ← bind_assoc, check_bind]
    rfl
  rw [hfits.push_iff]
  by_cases hall : s.Fits (grow c.slots c.used) ∧
      (c.records (normalise r.1) = 1 → s.vectors.Fits (c.vectors + 1)) ∧
      (1 ≤ c.records (normalise r.1) → s.records.Fits (c.records (normalise r.1)))
  · rw [check_of hall] at hin
    exact Or.inl ⟨hall, m', hinsert, hin, hsized⟩
  · rw [check_of_not hall] at hin
    exact Or.inr ⟨hall, hin⟩

theorem foldlM_cases (h : m.myArray.Sized c) (hfits : s.FitsAll c) (records : List (ℕ × V)) :
    (s.FitsAll (records.foldl (fun c r => c.push (normalise r.1)) c) ∧ ∃ m', m.pushAll records = .ok m' ∧
      records.foldlM (insertIn s) m = .ok m' ∧
      m'.myArray.Sized (records.foldl (fun c r => c.push (normalise r.1)) c)) ∨
    ¬s.FitsAll (records.foldl (fun c r => c.push (normalise r.1)) c) ∧
      records.foldlM (insertIn s) m = .error .undefined := by
  induction records generalizing m c with
  | nil => exact Or.inl ⟨hfits, m, rfl, rfl, h⟩
  | cons r records ih =>
    rw [List.foldl_cons, List.foldlM_cons]
    obtain ⟨hfits', m', hinsert, hin, hsized⟩ | ⟨hfits', hin⟩ := insertIn_cases h hfits r
    · rw [JoinMap.pushAll, List.foldlM_cons, hin, hinsert, ok_bind, ok_bind]
      exact ih hsized hfits'
    · rw [hin]
      exact Or.inr ⟨fun hall => hfits' hall.of_counts, rfl⟩

end JoinMap

end PlinyCompute.PdbJoinMap
