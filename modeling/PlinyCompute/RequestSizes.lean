import PlinyCompute.AllocatorTiling
import PlinyCompute.PdbVector

namespace PlinyCompute.Allocator

open Transition
open Function (update update_of_ne update_self)
open AllocatorState (countUp getRAM_of_noReuse getRAM_of_reuse)

variable {w w' : World} {s s' : AllocatorState} {howMuch needed c i rounds : ℕ}

theorem bytesNeeded_mod (howMuch : ℕ) : bytesNeeded howMuch % 4 = 0 := by
  unfold bytesNeeded
  dsimp only
  split_ifs <;> omega

theorem le_bytesNeeded (h : howMuch + 7 < 2 ^ 32) : howMuch + CHUNK_HEADER_SIZE ≤ bytesNeeded howMuch := by
  unfold bytesNeeded CHUNK_HEADER_SIZE
  dsimp only
  split_ifs <;> omega

section Search

theorem takeChunk_le {size : ℕ → ℕ} {cs rest : List ℕ} (h : takeChunk size needed cs = some (c, rest)) :
    needed ≤ size c := by
  induction cs generalizing c rest with
  | nil => simp [takeChunk] at h
  | cons d cs ih =>
    rw [takeChunk] at h
    cases ht : takeChunk size needed cs with
    | some p =>
      simp only [ht, Option.some.injEq, Prod.mk.injEq] at h
      obtain ⟨rfl, rfl⟩ := h
      exact ih ht
    | none =>
      simp only [ht] at h
      split_ifs at h with hle
      simp only [Option.some.injEq, Prod.mk.injEq] at h
      obtain ⟨rfl, rfl⟩ := h
      exact hle

theorem lt_of_takeChunk_none {size : ℕ → ℕ} {cs : List ℕ} (h : takeChunk size needed cs = none) :
    ∀ c ∈ cs, size c < needed := by
  induction cs with
  | nil => nofun
  | cons d cs ih =>
    rw [takeChunk] at h
    cases ht : takeChunk size needed cs with
    | some p => simp [ht] at h
    | none =>
      simp only [ht] at h
      split_ifs at h with hle
      exact List.forall_mem_cons.mpr ⟨Nat.not_le.mp hle, ih ht⟩

theorem AllocatorState.search_le (h : s.search needed rounds i = some (c, s')) : needed ≤ s.chunkSize c := by
  induction rounds generalizing i with
  | zero => simp [search] at h
  | succ rounds ih =>
    rw [search] at h
    cases ht : takeChunk s.chunkSize needed (s.chunks i) with
    | some p =>
      simp only [ht, Option.some.injEq, Prod.mk.injEq] at h
      obtain ⟨rfl, rfl⟩ := h
      exact takeChunk_le ht
    | none =>
      simp only [ht] at h
      exact ih h

theorem AllocatorState.search_none (h : s.search needed rounds i = none) :
    ∀ j, i ≤ j → j < i + rounds → ∀ c ∈ s.chunks j, s.chunkSize c < needed := by
  induction rounds generalizing i with
  | zero => omega
  | succ rounds ih =>
    rw [search] at h
    cases ht : takeChunk s.chunkSize needed (s.chunks i) with
    | some p => simp [ht] at h
    | none =>
      simp only [ht] at h
      intro j hle hlt
      obtain rfl | hne := Nat.eq_or_lt_of_le hle
      · exact lt_of_takeChunk_none ht
      · exact ih h j hne (by omega)

theorem AllocatorState.mem_freeChunks : c ∈ s.freeChunks ↔ ∃ i < 32, c ∈ s.chunks i := by
  unfold freeChunks
  rw [List.mem_flatMap]
  constructor
  · rintro ⟨i, hi, hc⟩
    exact ⟨i, List.mem_range.mp hi, hc⟩
  · rintro ⟨i, hi, hc⟩
    exact ⟨i, List.mem_range.mpr hi, hc⟩

end Search

structure World.Inside (w : World) : Prop where
  header : HEADER_SIZE ≤ w.block.lastUsed
  used : w.block.lastUsed ≤ w.block.numBytes
  inside : ∀ c ∈ w.live ++ w.block.freeChunks, HEADER_SIZE ≤ c ∧ c + w.block.chunkSize c ≤ w.block.lastUsed
  sized : ∀ c ∈ w.live ++ w.block.freeChunks, w.block.chunkSize c < 2 ^ 32 ∧ w.block.chunkSize c % 4 = 0
  classed : ∀ i < 32, ∀ c ∈ w.block.chunks i, 2 ^ i ≤ w.block.chunkSize c ∧ w.block.chunkSize c < 2 ^ (i + 1)

namespace World.Inside

theorem start (h : Start w) : w.Inside := by
  obtain ⟨block, live⟩ := w
  obtain ⟨numBytesIn, throwExceptionOnFail, garbage, hs, rfl⟩ := h
  unfold AllocatorState.setupBlock at hs
  split_ifs at hs with hsmall
  cases hs
  constructor <;> simp [AllocatorState.freeChunks]
  omega

theorem reuse (h : w.Inside) (hi : i + rounds ≤ 32) (hs : w.block.search needed rounds i = some (c, s)) :
    World.Inside ⟨s.countUp, c :: w.live⟩ ∧ c ∈ w.block.freeChunks ∧ s.chunkSize = w.block.chunkSize ∧
      s.numBytes = w.block.numBytes := by
  obtain ⟨j, hj, rest, hperm, rfl⟩ := AllocatorState.search_some hs
  have hfree := AllocatorState.freeChunks_take (Nat.lt_of_lt_of_le hj hi) hperm
  have hall := (hfree.append_left w.live).trans List.perm_middle
  refine ⟨⟨h.header, h.used, ?_, ?_, ?_⟩, hfree.mem_iff.mpr List.mem_cons_self, rfl, rfl⟩
  · intro d hd
    exact h.inside d (hall.mem_iff.mpr hd)
  · intro d hd
    exact h.sized d (hall.mem_iff.mpr hd)
  · intro k hk d hd
    apply h.classed k hk
    dsimp only [countUp] at hd
    by_cases hkj : k = j
    · subst hkj
      rw [update_self] at hd
      exact hperm.mem_iff.mpr (List.mem_cons_of_mem _ hd)
    · rwa [update_of_ne hkj] at hd

theorem carve (h : w.Inside) (hfits : w.block.lastUsed + needed ≤ w.block.numBytes) (hlt : needed < 2 ^ 32)
    (hmod : needed % 4 = 0) :
    World.Inside ⟨countUp { w.block with
        lastUsed := w.block.lastUsed + needed
        chunkSize := update w.block.chunkSize w.block.lastUsed needed },
      w.block.lastUsed :: w.live⟩ := by
  have hmem : ∀ d ∈ (w.block.lastUsed :: w.live) ++ w.block.freeChunks,
      d = w.block.lastUsed ∨ d ∈ w.live ++ w.block.freeChunks := fun d hd => List.mem_cons.mp hd
  refine ⟨?_, hfits, ?_, ?_, ?_⟩
  · have := h.header
    dsimp only [countUp]
    omega
  · intro d hd
    dsimp only [countUp]
    by_cases hlast : d = w.block.lastUsed
    · subst hlast
      rw [update_self]
      exact ⟨h.header, le_refl _⟩
    · rw [update_of_ne hlast]
      have := h.inside d ((hmem d hd).resolve_left hlast)
      omega
  · intro d hd
    dsimp only [countUp]
    by_cases hlast : d = w.block.lastUsed
    · subst hlast
      rw [update_self]
      exact ⟨hlt, hmod⟩
    · rw [update_of_ne hlast]
      exact h.sized d ((hmem d hd).resolve_left hlast)
  · intro k hk d hd
    dsimp only [countUp] at hd ⊢
    have hfree : d ∈ w.block.freeChunks := AllocatorState.mem_freeChunks.mpr ⟨k, hk, hd⟩
    have hclass := h.classed k hk d hd
    have hinside := (h.inside d (List.mem_append_right _ hfree)).2
    have hpos := Nat.two_pow_pos k
    rw [update_of_ne (by omega)]
    exact hclass

theorem lose (h : w.Inside) (c : ℕ) : World.Inside ⟨w.block, w.live.erase c⟩ := by
  have hall : ∀ d ∈ w.live.erase c ++ w.block.freeChunks, d ∈ w.live ++ w.block.freeChunks := by
    intro d hd
    obtain hd | hd := List.mem_append.mp hd
    · exact List.mem_append_left _ (List.mem_of_mem_erase hd)
    · exact List.mem_append_right _ hd
  exact ⟨h.header, h.used, fun d hd => h.inside d (hall d hd), fun d hd => h.sized d (hall d hd), h.classed⟩

theorem release {isContained : Bool} {block : AllocatorState} (h : w.Inside) (hc : c ∈ w.live)
    (hblock : w.block.defaultFreeRAM isContained (c + CHUNK_HEADER_SIZE) = .ok block) :
    World.Inside ⟨block, w.live.erase c⟩ := by
  have herase : ∀ d ∈ w.live.erase c, d ∈ w.live := fun d hd => List.mem_of_mem_erase hd
  rw [AllocatorState.defaultFreeRAM, Nat.add_sub_cancel] at hblock
  split_ifs at hblock
  · obtain ⟨k, hk, hblock⟩ := bind_eq_ok.mp hblock
    cases hblock
    unfold sizeClass at hk
    split_ifs at hk with hzero
    cases hk
    have hlog : (w.block.chunkSize c).log2 < 32 :=
      (Nat.log2_lt hzero).mpr (h.sized c (List.mem_append_left _ hc)).1
    have hfree := AllocatorState.freeChunks_push (s := w.block) (c := c) hlog
    have hall : ∀ d ∈ w.live.erase c ++ AllocatorState.freeChunks { w.block with
        chunks := update w.block.chunks (w.block.chunkSize c).log2
          (w.block.chunks (w.block.chunkSize c).log2 ++ [c]) }, d ∈ w.live ++ w.block.freeChunks := by
      intro d hd
      obtain hd | hd := List.mem_append.mp hd
      · exact List.mem_append_left _ (herase d hd)
      · obtain rfl | hd := List.mem_cons.mp (hfree.mem_iff.mp hd)
        · exact List.mem_append_left _ hc
        · exact List.mem_append_right _ hd
    refine ⟨h.header, h.used, fun d hd => h.inside d (hall d hd), fun d hd => h.sized d (hall d hd), ?_⟩
    intro k hk d hd
    dsimp only [AllocatorState.countDown] at hd ⊢
    by_cases hkc : k = (w.block.chunkSize c).log2
    · subst hkc
      rw [update_self] at hd
      obtain hd | hd := List.mem_append.mp hd
      · exact h.classed _ hk d hd
      · obtain rfl := List.mem_singleton.mp hd
        exact ⟨Nat.log2_self_le hzero, Nat.lt_log2_self⟩
    · rw [update_of_ne hkc] at hd
      exact h.classed k hk d hd
  · obtain rfl := Except.ok.inj hblock
    exact h.lose c

theorem free {here : ℕ} (h : w.Inside) (hlegal : Legal (.freeRAM here) w) (he : step (.freeRAM here) w = .ok w') :
    w'.Inside := by
  obtain ⟨c, hc, rfl⟩ := hlegal
  obtain ⟨block, hblock, he⟩ := bind_eq_ok.mp he
  cases he
  rw [Nat.add_sub_cancel]
  by_cases hpol : w.block.policy = .noReferenceCountAllocator
  · rw [AllocatorState.freeRAM, hpol] at hblock
    obtain rfl := Except.ok.inj hblock
    exact h.lose c
  · rw [AllocatorState.freeRAM_of_counted hpol] at hblock
    exact h.release hc hblock

end World.Inside

def AllocatorState.HasRoom (s : AllocatorState) (needed : ℕ) : Prop :=
  (s.policy ≠ .noReuseAllocator ∧ ∃ c ∈ s.freeChunks, needed ≤ s.chunkSize c) ∨ s.lastUsed + needed ≤ s.numBytes

namespace World.Inside

theorem carve_room (h : w.Inside) (hfits : w.block.lastUsed + bytesNeeded howMuch ≤ w.block.numBytes) :
    ∃ s' c, w.block.carve (bytesNeeded howMuch) = (s', .address (c + CHUNK_HEADER_SIZE)) ∧
      World.Inside ⟨s', c :: w.live⟩ ∧ bytesNeeded howMuch ≤ s'.chunkSize c ∧ s'.numBytes = w.block.numBytes := by
  have hinside := h.carve hfits (bytesNeeded_lt howMuch) (bytesNeeded_mod howMuch)
  refine ⟨_, w.block.lastUsed, if_neg (Nat.not_lt.mpr hfits), hinside, ?_, rfl⟩
  dsimp only [countUp]
  rw [update_self]

theorem getRAM_room (h : w.Inside) (hroom : w.block.HasRoom (bytesNeeded howMuch)) :
    (bytesNeeded howMuch = 0 ∧ w.block.getRAM howMuch = .error .undefined) ∨
      ∃ s' c, w.block.getRAM howMuch = .ok (s', .address (c + CHUNK_HEADER_SIZE)) ∧ World.Inside ⟨s', c :: w.live⟩ ∧
        bytesNeeded howMuch ≤ s'.chunkSize c ∧ s'.numBytes = w.block.numBytes := by
  by_cases hpol : w.block.policy = .noReuseAllocator
  · right
    have hfits : w.block.lastUsed + bytesNeeded howMuch ≤ w.block.numBytes := by
      obtain ⟨hreuse, -⟩ | hfits := hroom
      · exact absurd hpol hreuse
      · exact hfits
    obtain ⟨s', c, hcarve, hrest⟩ := h.carve_room hfits
    rw [getRAM_of_noReuse hpol]
    exact ⟨s', c, congrArg Except.ok hcarve, hrest⟩
  · rw [getRAM_of_reuse hpol]
    unfold AllocatorState.defaultGetRAM
    dsimp only
    by_cases hzero : bytesNeeded howMuch = 0
    · exact .inl ⟨hzero, by rw [sizeClass, if_pos hzero]; rfl⟩
    · right
      have hlog : (bytesNeeded howMuch).log2 < 32 := (Nat.log2_lt hzero).mpr (bytesNeeded_lt howMuch)
      rw [sizeClass, if_neg hzero, ok_bind]
      cases hs : w.block.search (bytesNeeded howMuch) (32 - (bytesNeeded howMuch).log2) (bytesNeeded howMuch).log2 with
      | some p =>
        obtain ⟨c, s⟩ := p
        obtain ⟨hinside, hfree, hsizes, hbytes⟩ := h.reuse (by omega) hs
        refine ⟨s.countUp, c, rfl, hinside, ?_, hbytes⟩
        dsimp only [countUp]
        rw [hsizes]
        exact AllocatorState.search_le hs
      | none =>
        have hfits : w.block.lastUsed + bytesNeeded howMuch ≤ w.block.numBytes := by
          obtain ⟨-, c, hc, hle⟩ | hfits := hroom
          · obtain ⟨k, hk, hck⟩ := AllocatorState.mem_freeChunks.mp hc
            have hclass := (h.classed k hk c hck).2
            -- the lists below the first that is searched have smaller chunks only
            have hfirst : (bytesNeeded howMuch).log2 ≤ k := by
              have := (Nat.log2_lt hzero).mpr (Nat.lt_of_le_of_lt hle hclass)
              omega
            have hsmall := AllocatorState.search_none hs k hfirst (by omega) c hck
            omega
          · exact hfits
        obtain ⟨s', c, hcarve, hrest⟩ := h.carve_room hfits
        exact ⟨s', c, congrArg Except.ok hcarve, hrest⟩

theorem getRAM_noRoom (h : w.Inside) (hroom : ¬w.block.HasRoom (bytesNeeded howMuch)) :
    w.block.getRAM howMuch = .ok (w.block, if w.block.throwException then .notEnoughSpace else .nullptr) := by
  obtain ⟨hfree, hfull⟩ := not_or.mp hroom
  have hcarve : w.block.carve (bytesNeeded howMuch) =
      (w.block, if w.block.throwException then .notEnoughSpace else .nullptr) := if_pos (Nat.not_le.mp hfull)
  by_cases hpol : w.block.policy = .noReuseAllocator
  · rw [getRAM_of_noReuse hpol]
    exact congrArg Except.ok hcarve
  · rw [getRAM_of_reuse hpol]
    unfold AllocatorState.defaultGetRAM
    have hused := h.used
    have hzero : bytesNeeded howMuch ≠ 0 := by omega
    have hlog : (bytesNeeded howMuch).log2 < 32 := (Nat.log2_lt hzero).mpr (bytesNeeded_lt howMuch)
    dsimp only
    rw [sizeClass, if_neg hzero, ok_bind]
    cases hs : w.block.search (bytesNeeded howMuch) (32 - (bytesNeeded howMuch).log2) (bytesNeeded howMuch).log2 with
    | none => exact congrArg Except.ok hcarve
    | some p =>
      obtain ⟨c, s⟩ := p
      obtain ⟨-, hc, -, -⟩ := h.reuse (by omega) hs
      exact absurd ⟨hpol, c, hc, AllocatorState.search_le hs⟩ hfree

theorem step {call : Call} (h : w.Inside) (hlegal : Legal call w) (he : step call w = .ok w') : w'.Inside := by
  cases call with
  | setPolicy policy =>
    cases he
    exact ⟨h.header, h.used, h.inside, h.sized, h.classed⟩
  | freeRAM here => exact h.free hlegal he
  | getRAM howMuch =>
    unfold Allocator.step at he
    dsimp only at he
    by_cases hroom : w.block.HasRoom (bytesNeeded howMuch)
    · obtain ⟨-, herror⟩ | ⟨s', c, hget, hinside, -, -⟩ := h.getRAM_room hroom
      · rw [herror] at he
        cases he
      · rw [hget, ok_bind] at he
        cases he
        exact hinside
    · rw [h.getRAM_noRoom hroom, ok_bind] at he
      split_ifs at he <;> cases he <;> exact h

end World.Inside

def AllocatorState.Serves (howMuch : ℕ) (s : AllocatorState) : Prop :=
  match s.getRAM howMuch with
  | .ok (s', .address here) =>
    ∃ chunk, here = chunk + CHUNK_HEADER_SIZE ∧ HEADER_SIZE ≤ chunk ∧
      chunk + s'.chunkSize chunk ≤ s.numBytes ∧ howMuch + CHUNK_HEADER_SIZE ≤ s'.chunkSize chunk
  | .ok (s', _) => s' = s
  | .error _ => False

theorem World.Inside.serves_iff (h : w.Inside) (howMuch : ℕ) :
    w.block.Serves howMuch ↔ howMuch + 7 < 2 ^ 32 ∨ ¬w.block.HasRoom (bytesNeeded howMuch) := by
  unfold AllocatorState.Serves
  by_cases hroom : w.block.HasRoom (bytesNeeded howMuch)
  · obtain ⟨hzero, herror⟩ | ⟨s', c, hget, hinside, hneeded, hbytes⟩ := h.getRAM_room hroom
    · rw [herror]
      have hwraps : ¬howMuch + 7 < 2 ^ 32 := by
        intro hlt
        have := le_bytesNeeded hlt
        unfold CHUNK_HEADER_SIZE at this
        omega
      exact ⟨nofun, fun hcond => hcond.elim hwraps fun hno => hno hroom⟩
    · rw [hget]
      dsimp only
      obtain ⟨hheader, hend⟩ := hinside.inside c (List.mem_append_left _ List.mem_cons_self)
      obtain ⟨hlt, hmod⟩ := hinside.sized c (List.mem_append_left _ List.mem_cons_self)
      have hused := hinside.used
      dsimp only at hheader hend hlt hmod hused
      constructor
      · rintro ⟨chunk, hchunk, -, -, hpayload⟩
        have hc : chunk = c := by omega
        subst hc
        left
        unfold CHUNK_HEADER_SIZE at hpayload
        omega
      · intro hcond
        have hno := hcond.resolve_right fun hno => hno hroom
        exact ⟨c, rfl, hheader, by omega, (le_bytesNeeded hno).trans hneeded⟩
  · rw [h.getRAM_noRoom hroom]
    constructor
    · intro
      exact .inr hroom
    · intro
      split_ifs <;> rfl

/-- The places where a container asks for a larger array: `PairArray::doubleArray`, `JoinPairArray::doubleArray`,
`Array::doubleSize` and `Array::resize`. -/
inductive Growth
  | pairArray (objSize numSlots : UInt32)
  | joinPairArray (objSize numSlots : UInt32)
  | doubleSize (sizeOfContained : UInt64) (numSlots : UInt32)
  | resize (sizeOfContained : UInt64) (howMany : UInt32)

namespace Growth

def elementSize : Growth → ℕ
  | pairArray objSize _ | joinPairArray objSize _ => objSize.toNat
  | doubleSize sizeOfContained _ | resize sizeOfContained _ => sizeOfContained.toNat

def slots : Growth → ℕ
  | pairArray _ numSlots | joinPairArray _ numSlots | doubleSize _ numSlots => numSlots.toNat * 2
  | resize _ howMany => howMany.toNat

def extra : Growth → UInt64
  | pairArray objSize numSlots | joinPairArray objSize numSlots => (objSize * (numSlots * 2)).toUInt64
  | doubleSize sizeOfContained numSlots => sizeOfContained * (numSlots * 2).toUInt64
  | resize sizeOfContained howMany => sizeOfContained * howMany.toUInt64

/-- What `makeObjectWithExtraStorage` asks the allocator for; the object in front of the slots has `own` bytes, and the
reference count has four. -/
def request (own : UInt64) (g : Growth) : UInt64 := g.extra + own + 4

structure Exact (own : UInt64) (g : Growth) : Prop where
  product : g.extra.toNat = g.elementSize * g.slots
  sum : (g.request own).toNat = g.elementSize * g.slots + own.toNat + 4
  rounded : bytesNeeded (g.request own).toNat = ((g.request own).toNat + CHUNK_HEADER_SIZE + 3) / 4 * 4

variable {g : Growth} {own : UInt64}

theorem extra_eq (h : g.elementSize * g.slots < 2 ^ 32) : g.extra.toNat = g.elementSize * g.slots := by
  cases g with
  | pairArray objSize numSlots | joinPairArray objSize numSlots =>
    dsimp only [elementSize, slots] at h ⊢
    rw [extra, UInt32.toNat_toUInt64, UInt32.toNat_mul, UInt32.toNat_mul, Nat.mul_mod_mod]
    exact Nat.mod_eq_of_lt h
  | doubleSize sizeOfContained numSlots =>
    dsimp only [elementSize, slots] at h ⊢
    rw [extra, UInt64.toNat_mul, UInt32.toNat_toUInt64, UInt32.toNat_mul]
    obtain hzero | hpos := Nat.eq_zero_or_pos sizeOfContained.toNat
    · rw [hzero, Nat.zero_mul, Nat.zero_mul]
    · have hslots : numSlots.toNat * 2 < 2 ^ 32 := Nat.lt_of_le_of_lt (Nat.le_mul_of_pos_left _ hpos) h
      have hmod : numSlots.toNat * UInt32.toNat 2 % 2 ^ 32 = numSlots.toNat * 2 := Nat.mod_eq_of_lt hslots
      rw [hmod, Nat.mod_eq_of_lt (by omega)]
  | resize sizeOfContained howMany =>
    dsimp only [elementSize, slots] at h ⊢
    rw [extra, UInt64.toNat_mul, UInt32.toNat_toUInt64, Nat.mod_eq_of_lt (by omega)]

theorem exact_iff : g.Exact own ↔ g.elementSize * g.slots + own.toNat + 11 < 2 ^ 32 := by
  constructor
  · intro h
    have hlt := bytesNeeded_lt (g.request own).toNat
    rw [h.rounded, h.sum] at hlt
    unfold CHUNK_HEADER_SIZE at hlt
    omega
  · intro h
    have hproduct : g.extra.toNat = g.elementSize * g.slots := extra_eq (by omega)
    have hsum : (g.request own).toNat = g.elementSize * g.slots + own.toNat + 4 := by
      rw [request, UInt64.toNat_add, UInt64.toNat_add, hproduct]
      have hfour : (4 : UInt64).toNat = 4 := rfl
      rw [hfour]
      omega
    refine ⟨hproduct, hsum, ?_⟩
    rw [hsum]
    unfold bytesNeeded CHUNK_HEADER_SIZE
    dsimp only
    split_ifs <;> omega

end Growth

theorem sizes_safe_iff (h : Reachable step Legal Start w) (howMuch : ℕ) (g : Growth) (own : UInt64) :
    (w.block.Serves howMuch ↔ howMuch + 7 < 2 ^ 32 ∨ ¬w.block.HasRoom (bytesNeeded howMuch)) ∧
      (g.Exact own ↔ g.elementSize * g.slots + own.toNat + 11 < 2 ^ 32) := by
  have inside : w.Inside := by
    apply h.invariant
    · intro w
      exact World.Inside.start
    · intro call w w' inside hlegal he
      exact inside.step hlegal he
  exact ⟨inside.serves_iff howMuch, Growth.exact_iff⟩

theorem sizes_safe_small : block.Serves 10 ∧ (Growth.pairArray 24 64).Exact 40 := by
  obtain ⟨hserves, hexact⟩ := sizes_safe_iff (.start start_block) 10 (.pairArray 24 64) 40
  exact ⟨hserves.mpr (.inl (by decide)), hexact.mpr (by decide)⟩

theorem not_sizes_safe : ¬block.Serves (2 ^ 32) ∧ ¬(Growth.pairArray 32 (2 ^ 26)).Exact 40 := by
  constructor
  · have hget : ∃ s', block.getRAM (2 ^ 32) = .ok (s', .address 24) ∧ s'.chunkSize 20 = 4 := ⟨_, rfl, rfl⟩
    obtain ⟨s', hget, hsize⟩ := hget
    unfold AllocatorState.Serves
    rw [hget]
    rintro ⟨chunk, hchunk, -, -, hpayload⟩
    have hc : chunk = 20 := by
      unfold CHUNK_HEADER_SIZE at hchunk
      omega
    rw [hc, hsize] at hpayload
    omega
  · intro h
    have hproduct := h.product
    revert hproduct
    decide

end PlinyCompute.Allocator
