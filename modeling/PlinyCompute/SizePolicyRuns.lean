import PlinyCompute.PipelineRun
import PlinyCompute.Transition

namespace PlinyCompute.SizePolicy

open Transition
open PDBTupleSetSizePolicy (percentage)

/-- What `run` tells the policy about one tuple set, with the free bytes that it has measured at the start,
after the pipeline and after the write. It always reports a write without additional pages. -/
inductive Iteration
  | failed
  | succeeded (additionalPagesUsed initialFree pipelineFree finalFree : UInt64)
  deriving DecidableEq

inductive Stop
  | runtimeError
  deriving DecidableEq

namespace PDBTupleSetSizePolicy

def report (p : PDBTupleSetSizePolicy) : Iteration → Except Stop PDBTupleSetSizePolicy
  | .failed =>
    match p.pipelineFailed with
    | none => .error .runtimeError
    | some p => .ok p
  | .succeeded additionalPagesUsed initialFree pipelineFree finalFree =>
    .ok ((p.pipelineSucceeded additionalPagesUsed.toNat initialFree.toNat pipelineFree.toNat).writeToPageSucceeded 0
      pipelineFree.toNat finalFree.toNat)

def Computes (p : PDBTupleSetSizePolicy) (additionalPagesUsed : UInt64) : Prop :=
  p.allowIncrements = true ∧ additionalPagesUsed = 0

def Reverts (p : PDBTupleSetSizePolicy) (additionalPagesUsed : UInt64) : Prop :=
  p.lastIncremented = true ∧ p.tryToMakePipelineSucceed = false ∧ additionalPagesUsed ≠ 0

def Bounded (p : PDBTupleSetSizePolicy) : Prop := 1 ≤ p.chunkSize ∧ p.chunkSize ≤ p.maxChunkSize

end PDBTupleSetSizePolicy

structure Traced where
  policy : PDBTupleSetSizePolicy
  processed : List ℤ
  increased : Bool
  spent : Bool

namespace Traced

def start (pageSize : UInt64) : Traced := ⟨{ pageSize := pageSize.toNat }, [], false, false⟩

def step (it : Iteration) (t : Traced) : Except Stop Traced := do
  let p ← t.policy.report it
  return {
    policy := p
    processed := match it with
      | .failed => t.processed
      | .succeeded additionalPagesUsed _ _ _ =>
        if additionalPagesUsed = 0 then t.policy.chunkSize :: t.processed else t.processed
    increased := t.policy.chunkSize < p.chunkSize
    spent := t.spent || (t.increased && it == .failed) }

structure Meets (it : Iteration) (t : Traced) : Prop where
  bounded : t.policy.Bounded
  stays : ∀ t', t.step it = .ok t' → t'.policy.Bounded
  percentage : ∀ additional initialFree pipelineFree finalFree,
    it = .succeeded additional initialFree pipelineFree finalFree → t.policy.Computes additional →
      (percentage initialFree.toNat finalFree.toNat t.policy.pageSize : ℤ) =
        ((initialFree.toNat : ℤ) - finalFree.toNat) * 100 / t.policy.pageSize
  revert : ∀ additional initialFree pipelineFree finalFree,
    it = .succeeded additional initialFree pipelineFree finalFree → t.policy.Reverts additional →
      ∀ t', t.step it = .ok t' → t'.policy.chunkSize ∈ t.processed
  never : t.spent = true → ∀ t', t.step it = .ok t' → t'.policy.chunkSize ≤ t.policy.chunkSize

def Within (it : Iteration) (t : Traced) : Prop :=
  ∀ additional initialFree pipelineFree finalFree,
    it = .succeeded additional initialFree pipelineFree finalFree → t.policy.Computes additional →
      finalFree.toNat ≤ initialFree.toNat ∧ (initialFree.toNat - finalFree.toNat) * 100 < 2 ^ 64 ∧
        (t.spent = true → 20 ≤ (initialFree.toNat - finalFree.toNat) * 100 / t.policy.pageSize)

end Traced

namespace PDBTupleSetSizePolicy

variable {p q : PDBTupleSetSizePolicy} {additional initialFree pipelineFree finalFree : UInt64}

theorem percentage_eq_iff {a b size : ℕ} (ha : a < 2 ^ 64) (hb : b < 2 ^ 64) (h0 : 0 < size) (hs : size < 2 ^ 64) :
    (percentage a b size : ℤ) = ((a : ℤ) - b) * 100 / size ↔ b ≤ a ∧ (a - b) * 100 < 2 ^ 64 := by
  by_cases hle : b ≤ a
  · have hmod : (a + 2 ^ 64 - b) % 2 ^ 64 = a - b := by omega
    have htrue : ((a : ℤ) - b) * 100 / size = (((a - b) * 100 / size : ℕ) : ℤ) := by
      rw [Int.natCast_ediv, Int.natCast_mul, Int.ofNat_sub hle]
      rfl
    unfold percentage
    rw [hmod, htrue, Int.natCast_inj]
    constructor
    · intro h
      refine ⟨hle, ?_⟩
      by_contra hge
      -- what the wrap takes away is at least one whole page
      have hstep : (a - b) * 100 % 2 ^ 64 + size ≤ (a - b) * 100 := by
        have := Nat.mod_le ((a - b) * 100) (2 ^ 64)
        omega
      have := Nat.div_le_div_right (c := size) hstep
      rw [Nat.add_div_right _ h0] at this
      omega
    · rintro ⟨-, hlt⟩
      rw [Nat.mod_eq_of_lt hlt]
  · have hneg : ((a : ℤ) - b) * 100 / size < 0 := Int.ediv_neg_of_neg_of_pos (by omega) (by omega)
    constructor
    · intro h
      omega
    · exact fun h => absurd h.1 hle

theorem pipelineFailed_eq (h : p.pipelineFailed = some q) : p.chunkSize ≠ 1 ∧ q.chunkSize = p.chunkSize.tdiv 2 ∧
    q.lastIncremented = p.lastIncremented ∧ q.maxChunkSize = p.maxChunkSize ∧ q.pageSize = p.pageSize := by
  unfold pipelineFailed at h
  by_cases hc : p.chunkSize = 1
  · rw [if_pos hc] at h
    cases h
  · rw [if_neg hc] at h
    cases h
    exact ⟨hc, rfl, rfl, rfl, rfl⟩

theorem adjust_frame (p : PDBTupleSetSizePolicy) (n : ℕ) :
    (p.adjust n).maxChunkSize = p.maxChunkSize ∧ (p.adjust n).pageSize = p.pageSize := by
  unfold adjust
  split_ifs <;> exact ⟨rfl, rfl⟩

theorem adjust_other (hl : p.lastIncremented = false)
    (hc : ¬ (p.allowIncrements = true ∧ p.pipeline.numAdditionalPages = 0)) (n : ℕ) :
    (p.adjust n).chunkSize = p.chunkSize ∨ p.chunkSize ≠ 1 ∧ (p.adjust n).chunkSize = p.chunkSize.tdiv 2 := by
  have h₁ : ¬ (p.allowIncrements ∧ p.pipeline.succeeded ∧ p.pipeline.numAdditionalPages = 0 ∧ n = 0) :=
    fun h => hc ⟨h.1, h.2.2.1⟩
  have h₃ : ¬ (p.lastIncremented ∧ ¬ p.tryToMakePipelineSucceed ∧ p.pipeline.numAdditionalPages ≠ 0 ∧
      p.pipeline.succeeded) := by
    rw [hl]
    exact fun h => Bool.false_ne_true h.1
  rw [adjust, if_neg h₁]
  by_cases h₂ : p.tryToMakePipelineSucceed ∧ p.pipeline.numAdditionalPages ≠ 0 ∧ p.pipeline.succeeded ∧
      p.chunkSize ≠ 1
  · rw [if_pos h₂]
    exact Or.inr ⟨h₂.2.2.2, rfl⟩
  · rw [if_neg h₂, if_neg h₃]
    split_ifs <;> exact Or.inl rfl

theorem report_failed (h : p.report .failed = .ok q) : p.pipelineFailed = some q := by
  unfold report at h
  cases hf : p.pipelineFailed with
  | none =>
    rw [hf] at h
    cases h
  | some p' =>
    rw [hf] at h
    cases h
    rfl

theorem report_frame (hl : p.lastIncremented = false) {it : Iteration} (h : p.report it = .ok q) :
    q.lastIncremented = false ∧ q.maxChunkSize = p.maxChunkSize ∧ q.pageSize = p.pageSize := by
  cases it with
  | failed =>
    obtain ⟨-, -, hlast, hframe⟩ := pipelineFailed_eq (report_failed h)
    exact ⟨hlast.trans hl, hframe⟩
  | succeeded additional initialFree pipelineFree finalFree =>
    cases h
    simp only [writeToPageSucceeded, adjust_frame]
    split_ifs <;> exact ⟨trivial, rfl, rfl⟩

theorem report_computes (hc : p.Computes additional)
    (h : p.report (.succeeded additional initialFree pipelineFree finalFree) = .ok q) :
    q.chunkSize = if percentage initialFree.toNat finalFree.toNat p.pageSize < 20
      then min (p.chunkSize * 3) p.maxChunkSize else p.chunkSize := by
  obtain ⟨hallow, rfl⟩ := hc
  cases h
  simp [writeToPageSucceeded, adjust, pipelineSucceeded, hallow]

theorem report_other (hl : p.lastIncremented = false) (hc : ¬ p.Computes additional)
    (h : p.report (.succeeded additional initialFree pipelineFree finalFree) = .ok q) :
    q.chunkSize = p.chunkSize ∨ p.chunkSize ≠ 1 ∧ q.chunkSize = p.chunkSize.tdiv 2 := by
  have hadd : ¬ (p.allowIncrements = true ∧ additional.toNat = 0) :=
    fun h => hc ⟨h.1, UInt64.toNat_inj.mp h.2⟩
  cases h
  simp only [writeToPageSucceeded]
  split_ifs
  · exact adjust_other (p := { (p.pipelineSucceeded additional.toNat initialFree.toNat pipelineFree.toNat) with
      writeStats := _, tryToMakePipelineSucceed := false }) hl hadd 0
  · exact adjust_other (p := { (p.pipelineSucceeded additional.toNat initialFree.toNat pipelineFree.toNat) with
      writeStats := _ }) hl hadd 0

theorem half_bounds {c : ℤ} (h : 1 ≤ c) : c.tdiv 2 * 2 ≤ c ∧ (c ≠ 1 → 1 ≤ c.tdiv 2) := by
  rw [Int.tdiv_eq_ediv_of_nonneg (by omega)]
  omega

end PDBTupleSetSizePolicy

namespace Traced

structure Ready (pageSize : ℕ) (t : Traced) : Prop where
  lastIncremented : t.policy.lastIncremented = false
  bounded : t.policy.Bounded
  maxChunkSize : t.policy.maxChunkSize = 100
  pageSize : t.policy.pageSize = pageSize
  spent : t.spent = true → t.policy.chunkSize < 100

theorem step_eq_ok {it : Iteration} {t t' : Traced} (h : t.step it = .ok t') :
    t.policy.report it = .ok t'.policy ∧ t'.spent = (t.spent || (t.increased && it == .failed)) := by
  obtain ⟨p, hp, h⟩ := bind_eq_ok.mp h
  cases h
  exact ⟨hp, rfl⟩

theorem step_chunkSize {pageSize : ℕ} {it : Iteration} {t t' : Traced} (hr : t.Ready pageSize)
    (h : t.step it = .ok t') :
    t'.policy.chunkSize = t.policy.chunkSize ∨
      t.policy.chunkSize ≠ 1 ∧ t'.policy.chunkSize = t.policy.chunkSize.tdiv 2 ∨
      ∃ additional initialFree pipelineFree finalFree,
        it = .succeeded additional initialFree pipelineFree finalFree ∧ t.policy.Computes additional ∧
          percentage initialFree.toNat finalFree.toNat t.policy.pageSize < 20 ∧
            t'.policy.chunkSize = min (t.policy.chunkSize * 3) 100 := by
  obtain ⟨hrep, -⟩ := step_eq_ok h
  cases it with
  | failed =>
    obtain ⟨hne, hsize, -⟩ := PDBTupleSetSizePolicy.pipelineFailed_eq (PDBTupleSetSizePolicy.report_failed hrep)
    exact Or.inr (Or.inl ⟨hne, hsize⟩)
  | succeeded additional initialFree pipelineFree finalFree =>
    by_cases hc : t.policy.Computes additional
    · have hsize := PDBTupleSetSizePolicy.report_computes hc hrep
      split_ifs at hsize with hp
      · rw [hr.maxChunkSize] at hsize
        exact Or.inr (Or.inr ⟨_, _, _, _, rfl, hc, hp, hsize⟩)
      · exact Or.inl hsize
    · obtain hsame | hhalf := PDBTupleSetSizePolicy.report_other hr.lastIncremented hc hrep
      · exact Or.inl hsame
      · exact Or.inr (Or.inl hhalf)

theorem step_bounded {pageSize : ℕ} {it : Iteration} {t t' : Traced} (hr : t.Ready pageSize)
    (h : t.step it = .ok t') : t'.policy.Bounded := by
  obtain ⟨-, hmax, -⟩ := PDBTupleSetSizePolicy.report_frame hr.lastIncremented (step_eq_ok h).1
  obtain ⟨hlow, hhigh⟩ := hr.bounded
  rw [hr.maxChunkSize] at hhigh hmax
  obtain ⟨hle, hpos⟩ := PDBTupleSetSizePolicy.half_bounds hlow
  unfold PDBTupleSetSizePolicy.Bounded
  rw [hmax]
  obtain hsame | ⟨hne, hhalf⟩ | ⟨_, _, _, _, -, -, -, hgrow⟩ := step_chunkSize hr h
  · omega
  · have := hpos hne
    omega
  · omega

theorem step_ready {pageSize : ℕ} {it : Iteration} {t t' : Traced} (hr : t.Ready pageSize) (hm : t.Meets it)
    (h : t.step it = .ok t') : t'.Ready pageSize := by
  obtain ⟨hrep, hspent⟩ := step_eq_ok h
  obtain ⟨hlast, hmax, hpage⟩ := PDBTupleSetSizePolicy.report_frame hr.lastIncremented hrep
  refine ⟨hlast, step_bounded hr h, hmax.trans hr.maxChunkSize, hpage.trans hr.pageSize, ?_⟩
  intro hs
  rw [hspent, Bool.or_eq_true, Bool.and_eq_true] at hs
  obtain hs | ⟨-, hfail⟩ := hs
  · exact (hm.never hs t' h).trans_lt (hr.spent hs)
  · obtain rfl := beq_iff_eq.mp hfail
    obtain ⟨-, hhalf, -⟩ := PDBTupleSetSizePolicy.pipelineFailed_eq (PDBTupleSetSizePolicy.report_failed hrep)
    obtain ⟨hlow, hhigh⟩ := hr.bounded
    rw [hr.maxChunkSize] at hhigh
    have := (PDBTupleSetSizePolicy.half_bounds hlow).1
    omega

theorem start_ready (pageSize : UInt64) : (start pageSize).Ready pageSize.toNat :=
  ⟨rfl, ⟨by change (1 : ℤ) ≤ 50; omega, by change (50 : ℤ) ≤ 100; omega⟩, rfl, rfl, nofun⟩

theorem meets_iff_within {pageSize : UInt64} (hpos : 0 < pageSize.toNat) {it : Iteration} {t : Traced}
    (hr : t.Ready pageSize.toNat) : t.Meets it ↔ t.Within it := by
  have hpage : t.policy.pageSize = pageSize.toNat := hr.pageSize
  have hpct : ∀ a b : UInt64,
      (percentage a.toNat b.toNat t.policy.pageSize : ℤ) =
        ((a.toNat : ℤ) - b.toNat) * 100 / t.policy.pageSize ↔
          b.toNat ≤ a.toNat ∧ (a.toNat - b.toNat) * 100 < 2 ^ 64 := by
    intro a b
    rw [hpage]
    exact PDBTupleSetSizePolicy.percentage_eq_iff a.toNat_lt b.toNat_lt hpos pageSize.toNat_lt
  have hval : ∀ {a b : UInt64}, b.toNat ≤ a.toNat ∧ (a.toNat - b.toNat) * 100 < 2 ^ 64 →
      percentage a.toNat b.toNat t.policy.pageSize =
        (a.toNat - b.toNat) * 100 / t.policy.pageSize := by
    intro a b h
    have := (hpct a b).mpr h
    rw [← Int.natCast_inj, this, Int.natCast_ediv, Int.natCast_mul, Int.ofNat_sub h.1]
    rfl
  obtain ⟨hlow, hhigh⟩ := hr.bounded
  constructor
  · intro hm additional initialFree pipelineFree finalFree hit hc
    have hle := (hpct _ _).mp (hm.percentage _ _ _ _ hit hc)
    refine ⟨hle.1, hle.2, ?_⟩
    intro hspent
    by_contra hlt
    subst hit
    obtain ⟨t', ht'⟩ : ∃ t', t.step (.succeeded additional initialFree pipelineFree finalFree) = .ok t' := ⟨_, rfl⟩
    have hgrow := PDBTupleSetSizePolicy.report_computes hc (step_eq_ok ht').1
    rw [hval hle, if_pos (by omega), hr.maxChunkSize] at hgrow
    have := hm.never hspent t' ht'
    have := hr.spent hspent
    omega
  · intro hw
    refine ⟨hr.bounded, fun t' h => step_bounded hr h, ?_, ?_, ?_⟩
    · intro additional initialFree pipelineFree finalFree hit hc
      obtain ⟨hle, hlt, -⟩ := hw _ _ _ _ hit hc
      exact (hpct _ _).mpr ⟨hle, hlt⟩
    · intro additional _ _ _ _ hrev
      rw [PDBTupleSetSizePolicy.Reverts, hr.lastIncremented] at hrev
      exact absurd hrev.1 Bool.false_ne_true
    · intro hspent t' h
      obtain hsame | ⟨-, hhalf⟩ | ⟨_, _, _, _, hit, hc, hp, -⟩ := step_chunkSize hr h
      · exact hsame.le
      · have := (PDBTupleSetSizePolicy.half_bounds hlow).1
        omega
      · obtain ⟨hle, hlt, huse⟩ := hw _ _ _ _ hit hc
        rw [hval ⟨hle, hlt⟩] at hp
        exact absurd (huse hspent) (by omega)

end Traced

theorem along_meets_iff (pageSize : UInt64) (hpos : 0 < pageSize.toNat) (its : List Iteration) :
    Along Traced.step (fun it t => t.Meets it) its (Traced.start pageSize) ↔
      Along Traced.step (fun it t => t.Within it) its (Traced.start pageSize) := by
  have hiff : ∀ it t, Traced.Ready pageSize.toNat t → (Traced.Meets it t ↔ Traced.Within it t) :=
    fun _ _ hr => Traced.meets_iff_within hpos hr
  have hstep : ∀ it t t', Traced.Ready pageSize.toNat t → Traced.Meets it t → Traced.step it t = .ok t' →
      Traced.Ready pageSize.toNat t' := fun _ _ _ hr hm h => Traced.step_ready hr hm h
  exact along_iff hiff hstep its (Traced.start_ready pageSize)

theorem along_meets_iff_small :
    Along Traced.step (fun it t => t.Meets it) [.succeeded 0 900 880 860, .failed] (Traced.start 1000) ↔
      Along Traced.step (fun it t => t.Within it) [.succeeded 0 900 880 860, .failed] (Traced.start 1000) :=
  along_meets_iff 1000 (by decide) [.succeeded 0 900 880 860, .failed]

theorem not_along_meets : ¬ ∀ (pageSize : UInt64), 0 < pageSize.toNat → ∀ its : List Iteration,
    Along Traced.step (fun it t => t.Meets it) its (Traced.start pageSize) := by
  intro h
  obtain ⟨-, h⟩ := h 1000 (by decide) [.succeeded 0 900 880 860, .failed, .succeeded 0 900 880 860]
  obtain ⟨-, h⟩ := h _ rfl
  obtain ⟨h, -⟩ := h _ rfl
  exact absurd (h.never rfl _ rfl) (by decide)

end PlinyCompute.SizePolicy
