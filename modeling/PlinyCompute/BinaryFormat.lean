import Mathlib.Tactic.Ring

namespace PlinyCompute.BinaryFormat

variable {α β : Type}

abbrev Reader (α : Type) := StateT (List UInt8) Option α

def Reads (r : Reader α) (bytes : List UInt8) (a : α) : Prop := ∀ rest, r.run (bytes ++ rest) = some (a, rest)

theorem Reads.pure (a : α) : Reads (Pure.pure a) [] a := fun _ => rfl

theorem Reads.bind {r : Reader α} {f : α → Reader β} {bytes bytes' : List UInt8} {a : α} {b : β}
    (h : Reads r bytes a) (h' : Reads (f a) bytes' b) : Reads (r >>= f) (bytes ++ bytes') b := by
  intro rest
  rw [StateT.run_bind, List.append_assoc, h]
  exact h' rest

def putLE : ℕ → ℕ → List UInt8
  | 0, _ => []
  | width + 1, n => UInt8.ofNat n :: putLE width (n / 256)

def getByte : Reader UInt8 := fun bytes =>
  match bytes with
  | [] => none
  | b :: rest => some (b, rest)

def getLE : ℕ → Reader ℕ
  | 0 => pure 0
  | width + 1 => do
    let b ← getByte
    let n ← getLE width
    pure (b.toNat + 256 * n)

theorem reads_getByte (b : UInt8) : Reads getByte [b] b := fun _ => rfl

theorem reads_getLE {width n : ℕ} (h : n < 256 ^ width) : Reads (getLE width) (putLE width n) n := by
  induction width generalizing n with
  | zero =>
    obtain rfl : n = 0 := by simpa using h
    exact Reads.pure 0
  | succ width ih =>
    have hdiv : n / 256 < 256 ^ width := by
      rw [Nat.div_lt_iff_lt_mul (by decide), ← Nat.pow_succ]
      exact h
    have hvalue : (UInt8.ofNat n).toNat + 256 * (n / 256) = n := by
      rw [UInt8.toNat_ofNat']
      exact Nat.mod_add_div n 256
    have hlast : Reads (pure ((UInt8.ofNat n).toNat + 256 * (n / 256))) [] n := by
      rw [hvalue]
      exact Reads.pure n
    have hrest := (ih hdiv).bind (f := fun k => Pure.pure ((UInt8.ofNat n).toNat + 256 * k)) hlast
    rw [List.append_nil] at hrest
    exact (reads_getByte (UInt8.ofNat n)).bind hrest

def getBytes (count : ℕ) : Reader (List UInt8) := fun bytes =>
  if count ≤ bytes.length then some (bytes.take count, bytes.drop count) else none

theorem reads_getBytes (s : List UInt8) : Reads (getBytes s.length) s s := by
  intro rest
  change (if s.length ≤ (s ++ rest).length then _ else _) = _
  rw [if_pos (by simp), List.take_left, List.drop_left]

def putString (s : List UInt8) : List UInt8 := putLE 8 s.length ++ s

def getString : Reader (List UInt8) := do
  let count ← getLE 8
  getBytes count

theorem reads_getString {s : List UInt8} (h : s.length < 256 ^ 8) : Reads getString (putString s) s :=
  (reads_getLE h).bind (reads_getBytes s)

def getFold (r : Reader α) (f : β → α → β) : ℕ → β → Reader β
  | 0, acc => pure acc
  | count + 1, acc => do
    let a ← r
    getFold r f count (f acc a)

theorem reads_getFold {r : Reader α} {put : α → List UInt8} {f : β → α → β} {l : List α}
    (h : ∀ a ∈ l, Reads r (put a) a) (acc : β) : Reads (getFold r f l.length acc) (l.flatMap put) (l.foldl f acc) := by
  induction l generalizing acc with
  | nil => exact Reads.pure acc
  | cons a l ih =>
    rw [List.forall_mem_cons] at h
    rw [List.flatMap_cons]
    exact h.1.bind (ih h.2 (f acc a))

end PlinyCompute.BinaryFormat
