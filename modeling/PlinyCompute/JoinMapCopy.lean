import PlinyCompute.JoinMapSizes

namespace PlinyCompute.PdbJoinMap

open PdbMap Transition
open Allocator (Growth CHUNK_HEADER_SIZE bytesNeeded le_bytesNeeded)

/-- The handles of an object, from the first: a null one, or one to an object in `block` that has handles of its own.
With `Unit` for the blocks they are what a program reads through them. -/
inductive Members (B D : Type)
  | nil
  | null (rest : Members B D)
  | target (block : B) (data : D) (members rest : Members B D)

structure JoinTuple (B D : Type) where
  data : D
  members : Members B D

structure Target (α : Type) where
  block : ℕ
  object : α

structure StoredPairArray (R : Type) where
  usedSlots : ℕ
  data : List (Option (JoinMapRecordClass R))
  overflows : Target (List (Target (List R)))

structure StoredJoinMap (R : Type) where
  objectSize : ℕ
  partitionId : ℕ
  numPartitions : ℤ
  joinHashValue : ℤ
  myArray : Target (StoredPairArray R)

variable {D : Type}

namespace Members

def contents : Members ℕ D → Members Unit D
  | nil => nil
  | null rest => null rest.contents
  | target _ data members rest => target () data members.contents rest.contents

/-- `Handle::operator=` for every handle of an object that lies in the active block: a target in that block is shared,
any other one is copied into it. -/
def assign (activeRAM : ℕ) : Members ℕ D → Members ℕ D
  | nil => nil
  | null rest => null (rest.assign activeRAM)
  | target block data members rest =>
    if block = activeRAM then target block data members (rest.assign activeRAM)
    else target activeRAM data (members.assign activeRAM) (rest.assign activeRAM)

def place (block : ℕ) : Members Unit D → Members ℕ D
  | nil => nil
  | null rest => null (rest.place block)
  | target _ data members rest => target block data (members.place block) (rest.place block)

def Lie (P : ℕ → Prop) : Members ℕ D → Prop
  | nil => True
  | null rest => rest.Lie P
  | target block _ members rest => P block ∧ members.Lie P ∧ rest.Lie P

theorem contents_assign (activeRAM : ℕ) (ms : Members ℕ D) : (ms.assign activeRAM).contents = ms.contents := by
  induction ms with
  | nil => rfl
  | null rest ih => rw [assign, contents, contents, ih]
  | target block data members rest ihm ihr =>
    rw [assign]
    split_ifs
    · rw [contents, contents, ihr]
    · rw [contents, contents, ihm, ihr]

theorem lie_assign {activeRAM : ℕ} {ms : Members ℕ D} (h : ms.Lie (· ≠ activeRAM)) :
    (ms.assign activeRAM).Lie (· = activeRAM) := by
  induction ms with
  | nil => trivial
  | null rest ih => exact ih h
  | target block data members rest ihm ihr =>
    rw [assign, if_neg h.1]
    exact ⟨rfl, ihm h.2.1, ihr h.2.2⟩

theorem contents_place (block : ℕ) (ms : Members Unit D) : (ms.place block).contents = ms := by
  induction ms with
  | nil => rfl
  | null rest ih => rw [place, contents, ih]
  | target _ data members rest ihm ihr => rw [place, contents, ihm, ihr]

theorem lie_place (block : ℕ) (ms : Members Unit D) : (ms.place block).Lie (· = block) := by
  induction ms with
  | nil => trivial
  | null rest ih => exact ih
  | target _ data members rest ihm ihr => exact ⟨rfl, ihm, ihr⟩

end Members

namespace JoinTuple

instance [Inhabited D] : Inhabited (JoinTuple Unit D) := ⟨default, .nil⟩

def contents (r : JoinTuple ℕ D) : JoinTuple Unit D := ⟨r.data, r.members.contents⟩

def assign (activeRAM : ℕ) (r : JoinTuple ℕ D) : JoinTuple ℕ D := ⟨r.data, r.members.assign activeRAM⟩

def place (block : ℕ) (r : JoinTuple Unit D) : JoinTuple ℕ D := ⟨r.data, r.members.place block⟩

theorem contents_assign (activeRAM : ℕ) (r : JoinTuple ℕ D) : (r.assign activeRAM).contents = r.contents :=
  congrArg (JoinTuple.mk r.data) (r.members.contents_assign activeRAM)

theorem contents_place (block : ℕ) (r : JoinTuple Unit D) : (r.place block).contents = r :=
  congrArg (JoinTuple.mk r.data) (r.members.contents_place block)

end JoinTuple

def JoinMapRecordClass.map {R S : Type} (f : R → S) (e : JoinMapRecordClass R) : JoinMapRecordClass S :=
  { hash := e.hash, next := e.next, value := f e.value }

namespace StoredJoinMap

variable (c : Target (StoredJoinMap (JoinTuple ℕ D)))

def view : JoinMap (JoinTuple Unit D) :=
  let a := c.object.myArray.object
  ⟨{ usedSlots := a.usedSlots
     data := a.data.map (Option.map (JoinMapRecordClass.map JoinTuple.contents))
     overflows := a.overflows.object.map fun bucket => bucket.object.map JoinTuple.contents }⟩

structure Lies (P : ℕ → Prop) : Prop where
  map : P c.block
  array : P c.object.myArray.block
  overflows : P c.object.myArray.object.overflows.block
  buckets : ∀ bucket ∈ c.object.myArray.object.overflows.object, P bucket.block ∧
    ∀ r ∈ bucket.object, r.members.Lie P
  slots : ∀ e, some e ∈ c.object.myArray.object.data → e.value.members.Lie P

end StoredJoinMap

section DeepCopy

/-- The copied array: its bytes are a product of two `uint32_t`, which the constructor did not compute. -/
def HoldsCopy (s : JoinSizes) (numSlots : ℕ) : Prop :=
  CHUNK_HEADER_SIZE + (4 + s.own.toNat + s.objSize.toNat * numSlots) ≤
    bytesNeeded ((s.objSize * .ofNat numSlots).toUInt64 + s.own + 4).toNat

instance (s : JoinSizes) (numSlots : ℕ) : Decidable (HoldsCopy s numSlots) := inferInstanceAs (Decidable (_ ≤ _))

theorem HoldsCopy.of_fits {s : JoinSizes} {numSlots : ℕ} (h : s.Fits numSlots) : HoldsCopy s numSlots := by
  have hslots : (UInt32.ofNat numSlots).toNat = numSlots := by
    rw [UInt32.toNat_ofNat', Nat.mod_eq_of_lt]
    have := h.slots_lt
    omega
  unfold Sizes.Fits at h
  have hextra : (s.objSize * .ofNat numSlots).toUInt64.toNat = s.objSize.toNat * numSlots := by
    rw [UInt32.toNat_toUInt64, UInt32.toNat_mul, hslots, Nat.mod_eq_of_lt (by omega)]
  have hsum : ((s.objSize * .ofNat numSlots).toUInt64 + s.own + 4).toNat =
      s.objSize.toNat * numSlots + s.own.toNat + 4 := by
    rw [UInt64.toNat_add, UInt64.toNat_add, hextra, Nat.mod_eq_of_lt]
    · rw [Nat.mod_eq_of_lt (by omega)]
      rfl
    · rw [Nat.mod_eq_of_lt (by omega)]
      have : UInt64.toNat 4 = 4 := rfl
      omega
  have hle : s.objSize.toNat * numSlots + s.own.toNat + 4 + CHUNK_HEADER_SIZE ≤
      bytesNeeded (s.objSize.toNat * numSlots + s.own.toNat + 4) := le_bytesNeeded (by omega)
  rw [HoldsCopy, hsum]
  omega

variable (s : JoinSizes) (activeRAM : ℕ)

def copyBucket (bucket : Target (List (JoinTuple ℕ D))) : Except Stop (Target (List (JoinTuple ℕ D))) := do
  reserve s.records.own (.resize s.records.contained (.ofNat (capacity bucket.object.length)))
  .ok ⟨activeRAM, bucket.object.map (JoinTuple.assign activeRAM)⟩

/-- The vector that `push_back` constructs has an array of its own until it is given the copy. -/
def copyOverflows : List (Target (List (JoinTuple ℕ D))) → List (Target (List (JoinTuple ℕ D))) →
    Except Stop (List (Target (List (JoinTuple ℕ D))))
  | [], toMe => .ok toMe
  | bucket :: rest, toMe => do
    let tempArray ← copyBucket s activeRAM bucket
    s.vectors.pushBack toMe.length
    s.records.create
    copyOverflows rest (toMe ++ [tempArray])

def copySlot : Option (JoinMapRecordClass (JoinTuple ℕ D)) → Option (JoinMapRecordClass (JoinTuple ℕ D))
  | none => none
  | some e => some { hash := e.hash, next := e.next, value := e.value.assign activeRAM }

/-- The new map has an array of two slots until it is given the copy. -/
def deepCopyJoinMap (copyMe : Target (StoredJoinMap (JoinTuple ℕ D))) :
    Except Stop (Target (StoredJoinMap (JoinTuple ℕ D))) := do
  let fromMe := copyMe.object.myArray.object
  s.vectors.create
  reserve s.own (.resize s.objSize.toUInt64 2)
  check (HoldsCopy s fromMe.data.length)
  let overflows ← copyOverflows s activeRAM fromMe.overflows.object []
  .ok ⟨activeRAM, {
    objectSize := copyMe.object.objectSize
    partitionId := copyMe.object.partitionId
    numPartitions := copyMe.object.numPartitions
    joinHashValue := -1
    myArray := ⟨activeRAM, {
      usedSlots := fromMe.usedSlots
      data := fromMe.data.map (copySlot activeRAM)
      overflows := ⟨activeRAM, overflows⟩ }⟩ }⟩

variable {s : JoinSizes} {activeRAM : ℕ}

theorem copyBucket_eq {bucket : Target (List (JoinTuple ℕ D))} (h : s.records.Fits bucket.object.length) :
    copyBucket s activeRAM bucket = .ok ⟨activeRAM, bucket.object.map (JoinTuple.assign activeRAM)⟩ := by
  have hslots : capacity bucket.object.length < 2 ^ 32 := by
    have := Nat.mul_le_mul_right (capacity bucket.object.length) s.records.pos
    unfold ArraySizes.Fits at h
    omega
  rw [copyBucket, reserve, check_of]
  · rfl
  · rw [Growth.holds_iff, Growth.elementSize, Growth.slots, UInt32.toNat_ofNat', Nat.mod_eq_of_lt hslots]
    exact h

theorem copyOverflows_eq {buckets toMe : List (Target (List (JoinTuple ℕ D)))}
    (hvectors : s.vectors.Fits (toMe.length + buckets.length))
    (hrecords : ∀ bucket ∈ buckets, s.records.Fits bucket.object.length) :
    copyOverflows s activeRAM buckets toMe =
      .ok (toMe ++ buckets.map fun bucket => ⟨activeRAM, bucket.object.map (JoinTuple.assign activeRAM)⟩) := by
  induction buckets generalizing toMe with
  | nil => rw [copyOverflows, List.map_nil, List.append_nil]
  | cons bucket rest ih =>
    obtain ⟨hbucket, hrest⟩ := List.forall_mem_cons.mp hrecords
    rw [List.length_cons] at hvectors
    rw [copyOverflows, copyBucket_eq hbucket, ok_bind,
      ArraySizes.pushBack_eq (hvectors.mono (Nat.le_add_right _ _)), check_of (hvectors.mono (by omega)), ok_bind,
      ArraySizes.create_eq, check_of (hbucket.mono (Nat.zero_le _)), ok_bind, ih _ hrest, List.append_assoc]
    · rfl
    · rw [List.length_append, List.length_singleton]
      exact hvectors.mono (by omega)

end DeepCopy

section Stored

variable {s : JoinSizes} {activeRAM : ℕ} {c : Target (StoredJoinMap (JoinTuple ℕ D))} {n : Counts}

theorem StoredJoinMap.bucket_fits (h : (view c).myArray.Sized n) (hfits : s.FitsAll n)
    {bucket : Target (List (JoinTuple ℕ D))} (hb : bucket ∈ c.object.myArray.object.overflows.object) :
    s.records.Fits bucket.object.length := by
  obtain ⟨i, hi⟩ := List.mem_iff_getElem?.mp hb
  have hget : (view c).myArray.overflows[i]? = some (bucket.object.map JoinTuple.contents) := by
    simp [view, hi]
  obtain ⟨e, he, hnext⟩ := h.owned i (List.getElem?_eq_some_iff.mp hget).1
  obtain ⟨slot, hs⟩ := List.mem_iff_getElem?.mp he
  have hentry := h.entry hs
  have hoverflow : (view c).myArray.overflow (some i) = bucket.object.map JoinTuple.contents := by
    rw [JoinPairArray.overflow, List.getD_eq_getElem?_getD, hget, Option.getD_some]
  rw [hnext, hoverflow, List.length_map] at hentry
  have hfit := hfits.2.2 e.hash (h.filled e he i hnext)
  rwa [hentry, Nat.add_sub_cancel] at hfit

theorem exists_stored (m : JoinMap (JoinTuple Unit D)) (block : ℕ) :
    ∃ c, StoredJoinMap.view c = m ∧ StoredJoinMap.Lies c (· = block) := by
  let buckets := m.myArray.overflows.map fun bucket => Target.mk block (bucket.map (JoinTuple.place block))
  let data := m.myArray.data.map (Option.map (JoinMapRecordClass.map (JoinTuple.place block)))
  refine ⟨⟨block, ⟨0, 0, 0, -1, ⟨block, ⟨m.myArray.usedSlots, data, ⟨block, buckets⟩⟩⟩⟩⟩, ?_, rfl, rfl, rfl, ?_, ?_⟩
  · have hslot (slot : Option (JoinMapRecordClass (JoinTuple Unit D))) :
        (slot.map (JoinMapRecordClass.map (JoinTuple.place block))).map (JoinMapRecordClass.map JoinTuple.contents) =
          slot := by
      cases slot with
      | none => rfl
      | some e => simp only [Option.map_some, JoinMapRecordClass.map, JoinTuple.contents_place]
    simp only [StoredJoinMap.view, buckets, data, List.map_map, Function.comp_def, hslot, JoinTuple.contents_place,
      List.map_id']
  · intro bucket' hb'
    obtain ⟨bucket, -, rfl⟩ := List.mem_map.mp hb'
    refine ⟨rfl, ?_⟩
    intro r' hr'
    obtain ⟨r, -, rfl⟩ := List.mem_map.mp hr'
    exact Members.lie_place block r.members
  · intro e' he'
    obtain ⟨slot, -, he'⟩ := List.mem_map.mp he'
    cases slot with
    | none => cases he'
    | some e =>
      cases he'
      exact Members.lie_place block e.value.members

theorem deepCopyJoinMap_spec (h : (StoredJoinMap.view c).myArray.Sized n) (hfits : s.FitsAll n) :
    ∃ c', deepCopyJoinMap s activeRAM c = .ok c' ∧ StoredJoinMap.view c' = StoredJoinMap.view c ∧
      (StoredJoinMap.Lies c (· ≠ activeRAM) → StoredJoinMap.Lies c' (· = activeRAM)) := by
  have hslots : s.Fits c.object.myArray.object.data.length := by
    have hlength : (StoredJoinMap.view c).myArray.numSlots = c.object.myArray.object.data.length := List.length_map _
    rw [← hlength, h.slots]
    exact hfits.1
  have htwo : (Growth.resize s.objSize.toUInt64 2).Holds s.own := by
    have hle : 2 ≤ n.slots := h.slots ▸ h.valid.slots
    exact (@Sizes.holds_first s.toSizes 2).mpr (hfits.1.mono hle)
  have hvectors : s.vectors.Fits (0 + c.object.myArray.object.overflows.object.length) := by
    have hlength : (StoredJoinMap.view c).myArray.overflows.length =
        c.object.myArray.object.overflows.object.length := List.length_map _
    rw [Nat.zero_add, ← hlength, h.vectors]
    exact hfits.2.1
  let overflows := c.object.myArray.object.overflows.object.map fun bucket =>
    Target.mk activeRAM (bucket.object.map (JoinTuple.assign activeRAM))
  refine ⟨⟨activeRAM, { c.object with
      joinHashValue := -1
      myArray := ⟨activeRAM, ⟨c.object.myArray.object.usedSlots, c.object.myArray.object.data.map (copySlot activeRAM),
        ⟨activeRAM, overflows⟩⟩⟩ }⟩, ?_, ?_, ?_⟩
  · rw [deepCopyJoinMap, ArraySizes.create_eq, check_of (hfits.2.1.mono (Nat.zero_le _)), ok_bind, reserve,
      check_of htwo, ok_bind, check_of (HoldsCopy.of_fits hslots), ok_bind,
      copyOverflows_eq hvectors fun bucket hb => StoredJoinMap.bucket_fits h hfits hb, ok_bind]
    rfl
  · have hslot (slot : Option (JoinMapRecordClass (JoinTuple ℕ D))) :
        (copySlot activeRAM slot).map (JoinMapRecordClass.map JoinTuple.contents) =
          slot.map (JoinMapRecordClass.map JoinTuple.contents) := by
      cases slot with
      | none => rfl
      | some e => simp only [copySlot, Option.map_some, JoinMapRecordClass.map, JoinTuple.contents_assign]
    simp only [StoredJoinMap.view, overflows, List.map_map, Function.comp_def, hslot, JoinTuple.contents_assign]
  · intro hlies
    refine ⟨rfl, rfl, rfl, ?_, ?_⟩
    · intro bucket' hb'
      obtain ⟨bucket, hb, rfl⟩ := List.mem_map.mp hb'
      refine ⟨rfl, ?_⟩
      intro r' hr'
      obtain ⟨r, hr, rfl⟩ := List.mem_map.mp hr'
      exact Members.lie_assign ((hlies.buckets bucket hb).2 r hr)
    · intro e' he'
      obtain ⟨slot, hslot, he'⟩ := List.mem_map.mp he'
      cases slot with
      | none => cases he'
      | some e =>
        cases he'
        exact Members.lie_assign (hlies.slots e hslot)

end Stored

section Refinement

variable [Inhabited D]

/-- The groups and their order, also of every deep copy of the map, wherever it is stored; the copy of a map that lies
in other blocks lies in the active one. -/
structure Refines (s : JoinSizes) (records : List (ℕ × JoinTuple Unit D)) (m : JoinMap (JoinTuple Unit D)) :
    Prop where
  lookup : ∀ me, m.lookup me = .ok (pushedUnder records me)
  ascending : (m.iteration.map Prod.fst).Pairwise (· < ·)
  groups : ∀ g, g ∈ m.iteration ↔ g.1 ∈ records.map (fun r => normalise r.1) ∧ g.2 = pushedUnder records g.1
  stored : ∀ block, ∃ c, StoredJoinMap.view c = m ∧ StoredJoinMap.Lies c (· = block)
  copies : ∀ activeRAM c, StoredJoinMap.view c = m → ∃ c', deepCopyJoinMap s activeRAM c = .ok c' ∧
    (StoredJoinMap.view c').iteration = m.iteration ∧
    (∀ me, (StoredJoinMap.view c').lookup me = .ok (pushedUnder records me)) ∧
    (StoredJoinMap.Lies c (· ≠ activeRAM) → StoredJoinMap.Lies c' (· = activeRAM))

theorem joinMap_refines_multimap_iff (s : JoinSizes) (initSize : UInt32) (records : List (ℕ × JoinTuple Unit D)) :
    (∃ m, run s initSize records = .ok m ∧ Refines s records m) ↔ s.FitsAll (counts initSize.toNat records) := by
  obtain ⟨hstart, m₀, h₀, hin, hsized⟩ | ⟨hstart, e, he⟩ := JoinMap.ofSizeIn_cases s initSize
  · rw [run, hin, ok_bind]
    obtain ⟨hfits, m, hm, hrun, hsized'⟩ | ⟨hfits, hrun⟩ := JoinMap.foldlM_cases hsized hstart records
    · refine iff_of_true ⟨m, hrun, ?_⟩ hfits
      obtain ⟨hlookup, hascending, hgroups⟩ := JoinMap.pushAll_refines h₀ hm
      refine ⟨hlookup, hascending, hgroups, exists_stored m, ?_⟩
      rintro activeRAM c rfl
      obtain ⟨c', hc', hview, hlies⟩ := deepCopyJoinMap_spec hsized' hfits
      exact ⟨c', hc', congrArg JoinMap.iteration hview, hview ▸ hlookup, hlies⟩
    · refine iff_of_false ?_ hfits
      rintro ⟨m, hm, -⟩
      rw [hrun] at hm
      cases hm
  · refine iff_of_false ?_ fun h => hstart h.of_counts
    rintro ⟨m, hm, -⟩
    rw [run, he] at hm
    cases hm

theorem not_joinMap_refines_multimap :
    ¬∃ m, run ⟨⟨16, 56, by decide⟩, ⟨4, 40, by decide⟩, ⟨24, 40, by decide⟩⟩ (2 ^ 28)
        ([] : List (ℕ × JoinTuple Unit ℕ)) = .ok m ∧
      Refines ⟨⟨16, 56, by decide⟩, ⟨4, 40, by decide⟩, ⟨24, 40, by decide⟩⟩ [] m := by
  rintro ⟨m, hm, -⟩
  obtain ⟨m₀, h₀⟩ : ∃ m : JoinMap (JoinTuple Unit ℕ), JoinMap.ofSize (2 ^ 28 : UInt32).toNat = .ok m := by
    rw [JoinMap.ofSize, if_neg (by decide)]
    exact ⟨_, rfl⟩
  rw [run, JoinMap.ofSizeIn, h₀] at hm
  dsimp only at hm
  rw [ArraySizes.create, reserve, check_of (by decide), ok_bind, reserve, check_of_not (by decide)] at hm
  cases hm

end Refinement

end PlinyCompute.PdbJoinMap
