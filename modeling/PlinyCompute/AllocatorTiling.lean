import Mathlib.Data.Nat.Log
import PlinyCompute.Allocator

namespace PlinyCompute.Allocator

open ByteRange Transition
open Function (update update_eq_self update_of_ne update_self)
open AllocatorState (setupBlock freeChunks countUp countDown carve defaultGetRAM)

theorem four_le_bytesNeeded {howMuch : ℕ} (h : 4 ≤ (howMuch + 7) % 2 ^ 32) : 4 ≤ bytesNeeded howMuch := by
  unfold bytesNeeded CHUNK_HEADER_SIZE
  dsimp only
  split <;> omega

theorem bytesNeeded_lt (howMuch : ℕ) : bytesNeeded howMuch < 2 ^ 32 := by
  unfold bytesNeeded
  dsimp only
  split <;> omega

theorem takeChunk_perm {size : ℕ → ℕ} {needed c : ℕ} {cs rest : List ℕ}
    (h : takeChunk size needed cs = some (c, rest)) : cs.Perm (c :: rest) := by
  induction cs generalizing c rest with
  | nil => simp [takeChunk] at h
  | cons d cs ih =>
    rw [takeChunk] at h
    cases ht : takeChunk size needed cs with
    | some p =>
      simp only [ht, Option.some.injEq, Prod.mk.injEq] at h
      obtain ⟨rfl, rfl⟩ := h
      exact ((ih ht).cons d).trans (List.Perm.swap _ _ _)
    | none =>
      simp only [ht] at h
      split at h
      · simp only [Option.some.injEq, Prod.mk.injEq] at h
        obtain ⟨rfl, rfl⟩ := h
        rfl
      · cases h

section Lists

variable {f : ℕ → List ℕ} {l : List ℕ} {i : ℕ}

theorem flatMap_update_perm (cs : List ℕ) (hl : l.Nodup) (hi : i ∈ l) :
    (l.flatMap (update f i cs)).Perm (cs ++ (l.erase i).flatMap f) := by
  have hrest : (l.erase i).flatMap (update f i cs) = (l.erase i).flatMap f := by
    apply List.flatMap_congr
    intro j hj
    have hne : j ≠ i := (hl.mem_erase_iff.mp hj).1
    rw [update_of_ne hne]
  have := (List.perm_cons_erase hi).flatMap_right (update f i cs)
  rw [List.flatMap_cons, update_self, hrest] at this
  exact this

theorem flatMap_perm (hl : l.Nodup) (hi : i ∈ l) : (l.flatMap f).Perm (f i ++ (l.erase i).flatMap f) := by
  have := flatMap_update_perm (f := f) (f i) hl hi
  rwa [update_eq_self] at this

end Lists

namespace AllocatorState

variable {s s' : AllocatorState} {needed c i : ℕ} {rest : List ℕ}

@[simp] theorem freeChunks_countUp : s.countUp.freeChunks = s.freeChunks := rfl

@[simp] theorem freeChunks_countDown : s.countDown.freeChunks = s.freeChunks := rfl

theorem freeChunks_take (hi : i < 32) (h : (s.chunks i).Perm (c :: rest)) :
    s.freeChunks.Perm (c :: freeChunks { s with chunks := update s.chunks i rest }) := by
  have hmem : i ∈ List.range 32 := List.mem_range.mpr hi
  have hold := flatMap_perm (f := s.chunks) List.nodup_range hmem
  have hnew := flatMap_update_perm (f := s.chunks) rest List.nodup_range hmem
  apply hold.trans
  apply (h.append_right _).trans
  exact (hnew.symm.cons c)

theorem freeChunks_push (hi : i < 32) :
    (freeChunks { s with chunks := update s.chunks i (s.chunks i ++ [c]) }).Perm
      (c :: s.freeChunks) := by
  have hmem : i ∈ List.range 32 := List.mem_range.mpr hi
  have hold := flatMap_perm (f := s.chunks) List.nodup_range hmem
  have hnew := flatMap_update_perm (f := s.chunks) (s.chunks i ++ [c]) List.nodup_range hmem
  apply hnew.trans
  have hlast : (s.chunks i ++ [c]).Perm (c :: s.chunks i) := List.perm_append_singleton _ _
  apply (hlast.append_right _).trans
  exact hold.symm.cons c

theorem search_some {rounds : ℕ} (h : s.search needed rounds i = some (c, s')) :
    ∃ j < i + rounds, ∃ rest, (s.chunks j).Perm (c :: rest) ∧
      s' = { s with chunks := update s.chunks j rest } := by
  induction rounds generalizing i with
  | zero => simp [search] at h
  | succ rounds ih =>
    rw [search] at h
    cases ht : takeChunk s.chunkSize needed (s.chunks i) with
    | some p =>
      simp only [ht, Option.some.injEq, Prod.mk.injEq] at h
      obtain ⟨rfl, rfl⟩ := h
      exact ⟨i, by omega, p.2, takeChunk_perm ht, rfl⟩
    | none =>
      simp only [ht] at h
      obtain ⟨j, hj, hrest⟩ := ih h
      exact ⟨j, by omega, hrest⟩

end AllocatorState

structure World.Ordered (w : World) (order : List ℕ) : Prop where
  perm : order.Perm (w.live ++ w.block.freeChunks)
  chain : Chain w.block.chunkSize HEADER_SIZE order w.block.lastUsed
  sized : ∀ c ∈ order, CHUNK_HEADER_SIZE ≤ w.block.chunkSize c ∧ w.block.chunkSize c < 2 ^ 32
  classed : ∀ i < 32, ∀ c ∈ w.block.chunks i,
    2 ^ i ≤ w.block.chunkSize c ∧ w.block.chunkSize c < 2 ^ (i + 1)
  counted : w.block.refCount = w.live.length
  few : w.live.length < 2 ^ 32

variable {w w' : World} {order : List ℕ} {c : ℕ}

theorem World.Ordered.tiled (h : w.Ordered order) : w.Tiled where
  apart := h.perm.pairwise h.chain.pairwise fun hcd => by
    unfold Apart at hcd ⊢
    omega
  headed c hc := (h.sized c (h.perm.mem_iff.mpr hc)).1
  inside c hc := h.chain.inside (h.perm.mem_iff.mpr hc)
  covers x hx hl := by
    obtain ⟨c, hc, hcx⟩ := h.chain.covers hx hl
    exact ⟨c, h.perm.mem_iff.mp hc, hcx⟩
  classed := h.classed
  counted := h.counted

theorem World.Ordered.start (h : Start w) : w.Ordered [] := by
  obtain ⟨block, live⟩ := w
  obtain ⟨numBytesIn, throwExceptionOnFail, garbage, hs, rfl⟩ := h
  unfold setupBlock at hs
  split at hs
  · cases hs
  · cases hs
    constructor <;> simp [freeChunks, Chain]

theorem World.Ordered.reuse {needed rounds i : ℕ} {s : AllocatorState} (h : w.Ordered order)
    (hi : i + rounds ≤ 32) (hl : w.live.length + 1 < 2 ^ 32)
    (hs : w.block.search needed rounds i = some (c, s)) :
    World.Ordered ⟨s.countUp, c :: w.live⟩ order := by
  obtain ⟨j, hj, rest, hperm, rfl⟩ := AllocatorState.search_some hs
  have hfree := AllocatorState.freeChunks_take (Nat.lt_of_lt_of_le hj hi) hperm
  constructor
  · rw [AllocatorState.freeChunks_countUp]
    apply h.perm.trans
    apply (hfree.append_left _).trans
    exact List.perm_middle
  · exact h.chain
  · exact h.sized
  · intro k hk d hd
    apply h.classed k hk
    by_cases hkj : k = j
    · subst hkj
      dsimp only [countUp] at hd
      rw [update_self] at hd
      exact hperm.mem_iff.mpr (List.mem_cons_of_mem _ hd)
    · dsimp only [countUp] at hd
      rwa [update_of_ne hkj] at hd
  · have := h.counted
    simp only [countUp, List.length_cons]
    omega
  · exact hl

theorem World.Ordered.carve {needed : ℕ} (h : w.Ordered order) (h4 : 4 ≤ needed) (hlt : needed < 2 ^ 32)
    (hl : w.live.length + 1 < 2 ^ 32) :
    World.Ordered ⟨countUp { w.block with
        lastUsed := w.block.lastUsed + needed
        chunkSize := update w.block.chunkSize w.block.lastUsed needed },
      w.block.lastUsed :: w.live⟩ (order ++ [w.block.lastUsed]) := by
  have hold : ∀ d ∈ order, update w.block.chunkSize w.block.lastUsed needed d =
      w.block.chunkSize d := by
    intro d hd
    apply update_of_ne
    have := (h.chain.inside hd).2
    have := (h.sized d hd).1
    unfold CHUNK_HEADER_SIZE at this
    omega
  have hmem : ∀ i < 32, ∀ d ∈ w.block.chunks i, d ∈ order := by
    intro i hi d hd
    apply h.perm.mem_iff.mpr
    apply List.mem_append_right
    exact List.mem_flatMap.mpr ⟨i, List.mem_range.mpr hi, hd⟩
  constructor
  · apply (List.perm_append_singleton _ _).trans
    exact h.perm.cons _
  · have := (h.chain.congr hold).snoc
    rwa [update_self] at this
  · intro d hd
    dsimp only [countUp]
    obtain hd | hd := List.mem_append.mp hd
    · rw [hold d hd]
      exact h.sized d hd
    · obtain rfl := List.mem_singleton.mp hd
      rw [update_self]
      exact ⟨h4, hlt⟩
  · intro i hi d hd
    dsimp only [countUp]
    rw [hold d (hmem i hi d hd)]
    exact h.classed i hi d hd
  · have := h.counted
    simp only [countUp, List.length_cons]
    omega
  · exact hl

theorem World.Ordered.release {s : AllocatorState} (h : w.Ordered order) (hc : c ∈ w.live)
    (hs : w.block.defaultFreeRAM true (c + CHUNK_HEADER_SIZE) = .ok s) :
    World.Ordered ⟨s, w.live.erase c⟩ order := by
  have hsize := h.sized c (h.perm.mem_iff.mpr (List.mem_append_left _ hc))
  have hne : w.block.chunkSize c ≠ 0 := by
    unfold CHUNK_HEADER_SIZE at hsize
    omega
  have hi : (w.block.chunkSize c).log2 < 32 := (Nat.log2_lt hne).mpr hsize.2
  simp only [AllocatorState.defaultFreeRAM, if_true, Nat.add_sub_cancel, sizeClass, if_neg hne] at hs
  rw [ok_bind] at hs
  cases hs
  have hfree := AllocatorState.freeChunks_push (s := w.block) (c := c) hi
  have hlive := List.perm_cons_erase hc
  constructor
  · rw [AllocatorState.freeChunks_countDown]
    apply h.perm.trans
    apply (hlive.append_right _).trans
    apply List.Perm.trans _ (hfree.symm.append_left _)
    exact List.perm_middle.symm
  · exact h.chain
  · exact h.sized
  · intro k hk d hd
    dsimp only [countDown] at hd ⊢
    by_cases hki : k = (w.block.chunkSize c).log2
    · subst hki
      rw [update_self] at hd
      obtain hd | hd := List.mem_append.mp hd
      · exact h.classed _ hk d hd
      · obtain rfl := List.mem_singleton.mp hd
        exact ⟨Nat.log2_self_le hne, Nat.lt_log2_self⟩
    · rw [update_of_ne hki] at hd
      exact h.classed k hk d hd
  · have := h.counted
    have := h.few
    have := List.length_pos_of_mem hc
    simp only [countDown, List.length_erase_of_mem hc]
    rw [if_neg (by omega)]
    omega
  · have := h.few
    rw [List.length_erase_of_mem hc]
    omega

def World.handOut (w : World) : AllocatorState × Answer → Except Stop World
  | (block, .address here) => .ok ⟨block, (here - CHUNK_HEADER_SIZE) :: w.live⟩
  | (block, _) => .ok { w with block }

theorem World.Ordered.getRAM {howMuch : ℕ} (h : w.Ordered order) (hp : Proper (.getRAM howMuch) w)
    (he : step (.getRAM howMuch) w = .ok w') : ∃ order', w'.Ordered order' := by
  obtain ⟨hn, hl⟩ := hp
  have h4 := four_le_bytesNeeded hn
  have hlt := bytesNeeded_lt howMuch
  -- both policies end in the same way when no chunk is found
  have hcarve : ∀ w', w.handOut (w.block.carve (bytesNeeded howMuch)) = .ok w' → ∃ order', w'.Ordered order' := by
    intro w' he
    unfold AllocatorState.carve at he
    split_ifs at he with hfull ht
    · cases he
      exact ⟨order, h⟩
    · cases he
      exact ⟨order, h⟩
    · cases he
      exact ⟨_, h.carve h4 hlt hl⟩
  unfold step at he
  by_cases hpol : w.block.policy = .noReuseAllocator
  · simp only [AllocatorState.getRAM_of_noReuse hpol, ok_bind] at he
    exact hcarve w' he
  · have hne : bytesNeeded howMuch ≠ 0 := by omega
    have hi : (bytesNeeded howMuch).log2 < 32 := (Nat.log2_lt hne).mpr hlt
    simp only [AllocatorState.getRAM_of_reuse hpol, defaultGetRAM, sizeClass, if_neg hne,
      ok_bind] at he
    cases hs : w.block.search (bytesNeeded howMuch) (32 - (bytesNeeded howMuch).log2)
        (bytesNeeded howMuch).log2 with
    | none =>
      simp only [hs, ok_bind] at he
      exact hcarve w' he
    | some p =>
      simp only [hs, ok_bind, Nat.add_sub_cancel] at he
      cases he
      exact ⟨order, h.reuse (by omega) hl hs⟩

theorem World.Ordered.step {call : Call} (h : w.Ordered order) (hg : Legal call w ∧ Proper call w)
    (he : step call w = .ok w') : ∃ order', w'.Ordered order' := by
  obtain ⟨hlegal, hp⟩ := hg
  cases call with
  | getRAM howMuch => exact h.getRAM hp he
  | freeRAM here =>
    obtain ⟨c, hc, rfl⟩ := hlegal
    obtain ⟨hpol, hin⟩ := hp
    simp only [Allocator.step, AllocatorState.freeRAM_of_counted hpol, hin, Nat.add_sub_cancel] at he
    cases hs : w.block.defaultFreeRAM true (c + CHUNK_HEADER_SIZE) with
    | error e =>
      rw [hs] at he
      cases he
    | ok s =>
      rw [hs, ok_bind] at he
      cases he
      exact ⟨order, h.release hc hs⟩
  | setPolicy policy =>
    cases he
    exact ⟨order, ⟨h.perm, h.chain, h.sized, h.classed, h.counted, h.few⟩⟩

theorem tiled_of_proper (h : Reachable Allocator.step (fun c w => Legal c w ∧ Proper c w) Start w) :
    w.Tiled := by
  obtain ⟨order, ho⟩ : ∃ order, w.Ordered order := by
    apply h.invariant
    · intro w hw
      exact ⟨[], World.Ordered.start hw⟩
    · rintro call w w' ⟨order, ho⟩ hg he
      exact ho.step hg he
  exact ho.tiled

section Runs

def block : AllocatorState := ⟨100, true, .defaultAllocator, fun _ => [], HEADER_SIZE, 0, fun _ => 0⟩

theorem start_block : Start ⟨block, []⟩ := ⟨100, true, fun _ => 0, rfl, rfl⟩

def allowed (c : Call) (w : World) : Bool :=
  match c with
  | .getRAM howMuch => decide (4 ≤ (howMuch + 7) % 2 ^ 32 ∧ w.live.length + 1 < 2 ^ 32)
  | .freeRAM here =>
    decide ((here - CHUNK_HEADER_SIZE) ∈ w.live ∧ CHUNK_HEADER_SIZE ≤ here) &&
      (w.block.policy != .noReferenceCountAllocator && w.block.contains here)
  | .setPolicy _ => true

theorem of_allowed (c : Call) (w : World) (h : allowed c w = true) : Legal c w ∧ Proper c w := by
  cases c with
  | getRAM howMuch =>
    rw [allowed, decide_eq_true_iff] at h
    exact ⟨trivial, h⟩
  | freeRAM here =>
    obtain ⟨hd, hin⟩ := Bool.and_eq_true_iff.mp h
    obtain ⟨hmem, hle⟩ := of_decide_eq_true hd
    obtain ⟨hpol, hcontains⟩ := Bool.and_eq_true_iff.mp hin
    exact ⟨⟨_, hmem, (Nat.sub_add_cancel hle).symm⟩, ne_of_beq_false (by simpa using hpol), hcontains⟩
  | setPolicy policy => exact ⟨trivial, trivial⟩

def calls : List Call :=
  [.getRAM 10, .getRAM 20, .freeRAM 24, .setPolicy .noReuseAllocator, .getRAM 4, .setPolicy .defaultAllocator,
    .getRAM 8, .freeRAM 40]

theorem tiled_of_proper_reuse : ∃ w, runAll Allocator.step allowed calls ⟨block, []⟩ = some w ∧
    w.live = [20, 60] ∧ w.block.chunks 4 = [36] ∧ w.block.lastUsed = 68 ∧ w.Tiled := by
  obtain ⟨w, hw⟩ : ∃ w, runAll Allocator.step allowed calls ⟨block, []⟩ = some w := ⟨_, rfl⟩
  have hlive : (runAll Allocator.step allowed calls ⟨block, []⟩).map World.live = some [20, 60] := by decide
  have hfree : (runAll Allocator.step allowed calls ⟨block, []⟩).map (fun w => w.block.chunks 4) = some [36] := by
    decide
  have hused : (runAll Allocator.step allowed calls ⟨block, []⟩).map (fun w => w.block.lastUsed) = some 68 := by
    decide
  rw [hw, Option.map_some, Option.some.injEq] at hlive hfree hused
  exact ⟨w, hw, hlive, hfree, hused, tiled_of_proper (.of_runAll of_allowed (.start start_block) hw)⟩

def getsOnly (c : Call) (_ : World) : Bool :=
  match c with
  | .freeRAM _ => false
  | _ => true

theorem not_tiled_of_wrap :
    ¬ ∀ w, Reachable Allocator.step Legal Start w → w.Tiled := by
  intro h
  have hlegal : ∀ c w, getsOnly c w = true → Legal c w := by
    intro c w hc
    cases c with
    | freeRAM here => cases hc
    | getRAM howMuch => trivial
    | setPolicy policy => trivial
  obtain ⟨w, hw⟩ : ∃ w, runAll Allocator.step getsOnly
      [.setPolicy .noReuseAllocator, .getRAM (2 ^ 32 - 4), .getRAM 4] ⟨block, []⟩ = some w := ⟨_, rfl⟩
  have hlive : w.live = [20, 20] := by
    cases hw
    rfl
  have hsize : w.block.chunkSize 20 = 8 := by
    cases hw
    rfl
  have hapart := (h w (.of_runAll hlegal (.start start_block) hw)).apart
  rw [hlive, List.cons_append, List.pairwise_cons] at hapart
  have := hapart.1 20 (by simp)
  rw [hsize] at this
  unfold Apart at this
  omega

end Runs

end PlinyCompute.Allocator
