import Mathlib.Data.List.TakeWhile
import PlinyCompute.BufferManager

namespace PlinyCompute.BufferManager

/-- A size that is cast to `int` before a `size_t` is compared with it. -/
def castInt (n : ℕ) : ℕ := if n % 2 ^ 32 < 2 ^ 31 then n % 2 ^ 32 else 2 ^ 64 - 2 ^ 32 + n % 2 ^ 32

def findFrom (c : Char) (s : Name) (pos : ℕ) : Option ℕ := ((s.drop pos).findIdx? (· = c)).map (· + pos)

def substr (s : Name) (pos count : ℕ) : Name := (s.drop pos).take count

/-- Where no `#` is left, the position wraps to zero and the loop starts over, without end. -/
def stringListFrom (res : Name) : ℕ → ℕ → Except Fault (List Name)
  | 0, _ => .error .diverges
  | fuel + 1, pos =>
    if pos < castInt res.length then
      match findFrom '#' res (pos + 1) with
      | none => .error .diverges
      | some i => do
        let rest ← stringListFrom res fuel (i + 1)
        .ok (substr res pos (i - pos) :: rest)
    else .ok []

def leadingDigits (s : Name) : Option ℕ :=
  let digits := s.takeWhile Char.isDigit
  if digits = [] then none else some (Nat.ofDigitChars 10 digits 0)

def isspace (c : Char) : Bool := c.isWhitespace || c = '\x0b' || c = '\x0c'

/-- The number at the front of a string; no number is an exception. -/
def stoul (s : Name) : Option ℕ :=
  match s.dropWhile isspace with
  | '-' :: s => (leadingDigits s).bind fun n => if n < 2 ^ 64 then some ((2 ^ 64 - n) % 2 ^ 64) else none
  | '+' :: s => leadingDigits s
  | s => leadingDigits s

abbrev FileData := List (Name × Name)

namespace FileData

def putString (key value : Name) (myData : FileData) : FileData := myData.filter (·.1 ≠ key) ++ [(key, value)]

def joined (value : List Name) : Name := value.flatMap (· ++ ['#'])

def putAll (calls : List (Name × Name)) : FileData :=
  calls.foldl (fun myData call => myData.putString call.1 call.2) []

def getString (key : Name) (myData : FileData) : Option Name := myData.lookup key

def getStringList (key : Name) (myData : FileData) : Except Fault (List Name) :=
  match myData.lookup key with
  | none => .ok []
  | some res => stringListFrom res (res.length + 1) 0

def getUnsignedLong (key : Name) (myData : FileData) : Option ℕ := (myData.lookup key).bind stoul

def linesFrom (line : Name) : List Char → List Name
  | [] => if line = [] then [] else [line]
  | c :: text => if c = '\n' then line :: linesFrom [] text else linesFrom (line ++ [c]) text

def parseLine (line : Name) : Option (Name × Name) := do
  let firstPipe ← findFrom '|' line 0
  let secPipe ← findFrom '|' line (firstPipe + 1)
  let lastPipe ← findFrom '|' line (secPipe + 1)
  if castInt line.length ≤ firstPipe ∨ castInt line.length ≤ secPipe ∨ castInt line.length ≤ lastPipe then none
  else some (substr line (firstPipe + 1) (secPipe - firstPipe - 1), substr line (secPipe + 1) (lastPipe - secPipe - 1))

def addLine (myData : FileData) (line : Name) : FileData :=
  match parseLine line with
  | none => myData
  | some (key, value) => myData.putString key value

def read (text : List Char) : FileData := (linesFrom [] text).foldl addLine []

def save (myData : FileData) : List Char := myData.flatMap fun ent => '|' :: ent.1 ++ '|' :: ent.2 ++ ['|', '\n']

end FileData

variable {c : Char} {s t : Name} {key value : Name} {myData : FileData}

theorem castInt_of_lt {n : ℕ} (h : n < 2 ^ 31) : castInt n = n := by
  have hmod : n % 2 ^ 32 = n := Nat.mod_eq_of_lt (by omega)
  rw [castInt, hmod, if_pos h]

theorem findFrom_append {pos : ℕ} (hpos : pos ≤ s.length) (hc : c ∉ s.drop pos) :
    findFrom c (s ++ c :: t) pos = some s.length := by
  have hnone : (s.drop pos).findIdx? (· = c) = none := by
    rw [List.findIdx?_eq_none_iff]
    rintro x hx
    have : x ≠ c := fun heq => hc (heq ▸ hx)
    simpa using this
  rw [findFrom, List.drop_append_of_le_length hpos, List.findIdx?_append, hnone]
  simp [List.findIdx?_cons]
  omega

theorem stringListFrom_joined_iff {l : List Name} {res : Name} {fuel : ℕ} (pre : Name)
    (hres : res = pre ++ FileData.joined l) (hparts : ∀ s ∈ l, s ≠ [] ∧ '#' ∉ s.tail)
    (hfuel : (FileData.joined l).length < fuel) :
    stringListFrom res fuel pre.length = .ok l ↔ castInt res.length ≤ res.length ∧
      (l ≠ [] → (pre ++ FileData.joined l.dropLast).length < castInt res.length) := by
  induction l generalizing pre fuel with
  | nil =>
    obtain ⟨fuel, rfl⟩ := Nat.exists_eq_succ_of_ne_zero (Nat.ne_of_gt (Nat.zero_lt_of_lt hfuel))
    have hlen : res.length = pre.length := by rw [hres]; simp [FileData.joined]
    have hend : findFrom '#' res (pre.length + 1) = none := by
      rw [findFrom, List.drop_of_length_le (by omega)]
      rfl
    rw [stringListFrom, hend]
    split_ifs with hpos
    · simp only [false_iff, not_and]
      omega
    · simp only [ne_eq, not_true_eq_false, false_implies, and_true, true_iff]
      omega
  | cons s l ih =>
    obtain ⟨fuel, rfl⟩ := Nat.exists_eq_succ_of_ne_zero (Nat.ne_of_gt (Nat.zero_lt_of_lt hfuel))
    obtain ⟨hne, hc⟩ := hparts s List.mem_cons_self
    obtain ⟨x, xs, rfl⟩ := List.exists_cons_of_ne_nil hne
    have hjoin : FileData.joined ((x :: xs) :: l) = (x :: xs) ++ '#' :: FileData.joined l := by
      simp [FileData.joined]
    have hsplit : res = (pre ++ x :: xs) ++ '#' :: FileData.joined l := by
      rw [hres, hjoin, List.append_assoc]
    have hfind : findFrom '#' res (pre.length + 1) = some (pre ++ x :: xs).length := by
      rw [hsplit]
      apply findFrom_append
      · simp
      · rw [List.drop_append, List.drop_of_length_le (by omega)]
        simpa using hc
    have hsub : substr res pre.length ((pre ++ x :: xs).length - pre.length) = x :: xs := by
      rw [substr, hsplit]
      simp
    have hnext : (pre ++ x :: xs).length + 1 = (pre ++ x :: xs ++ ['#']).length := by
      simp only [List.length_append, List.length_cons, List.length_nil]
    rw [hjoin] at hfuel
    simp only [List.length_append, List.length_cons] at hfuel
    have hih := @ih fuel (pre ++ x :: xs ++ ['#']) (by rw [hsplit]; simp)
      (fun s hs => hparts s (List.mem_cons_of_mem _ hs)) (by omega)
    rw [stringListFrom, hfind]
    dsimp only
    rw [hnext, hsub]
    have hcons : (do
        let rest ← stringListFrom res fuel (pre ++ x :: xs ++ ['#']).length
        .ok ((x :: xs) :: rest)) = .ok ((x :: xs) :: l) ↔
        stringListFrom res fuel (pre ++ x :: xs ++ ['#']).length = .ok l := by
      rw [Transition.bind_eq_ok]
      simp
    split_ifs with hpos
    · rw [hcons, hih]
      cases l with
      | nil => simp [FileData.joined, hpos]
      | cons t l => simp [FileData.joined, List.dropLast_cons_of_ne_nil]
    · simp only [Except.ok.injEq, List.nil_eq, reduceCtorEq, ne_eq, not_false_eq_true, true_implies, false_iff, not_and,
        List.length_append]
      omega

theorem stringListFrom_joined {value : List Name} (hshort : (FileData.joined value).length < 2 ^ 31)
    (hne : ∀ s ∈ value, s ≠ []) (hc : ∀ s ∈ value, '#' ∉ s) :
    stringListFrom (FileData.joined value) ((FileData.joined value).length + 1) 0 = .ok value := by
  have hcast := castInt_of_lt hshort
  apply (stringListFrom_joined_iff [] rfl (fun s hs => ⟨hne s hs, fun h => hc s hs (List.mem_of_mem_tail h)⟩)
    (Nat.lt_succ_self _)).mpr
  refine ⟨hcast.le, fun hvalue => ?_⟩
  have hlast : FileData.joined value = FileData.joined value.dropLast ++ (value.getLast hvalue ++ ['#']) := by
    conv_lhs => rw [← List.dropLast_append_getLast hvalue]
    simp [FileData.joined]
  rw [List.nil_append, List.nil_append, hcast, hlast]
  simp

theorem isDigit_toDigits {n : ℕ} : ∀ x ∈ Nat.toDigits 10 n, x.isDigit = true :=
  fun _ hx => Nat.isDigit_of_mem_toDigits (by omega) le_rfl hx

theorem isspace_of_isDigit (h : c.isDigit = true) : isspace c = false := by
  by_contra hw
  simp only [isspace, Char.isWhitespace, Bool.or_eq_false_iff, decide_eq_false_iff_not, not_and_or, not_not] at hw
  rcases hw with ((((rfl | rfl) | rfl) | rfl) | rfl) | rfl
  all_goals exact absurd h (by decide)

theorem leadingDigits_toDigits (n : ℕ) : leadingDigits (Nat.toDigits 10 n) = some n := by
  have htake : (Nat.toDigits 10 n).takeWhile Char.isDigit = Nat.toDigits 10 n :=
    List.takeWhile_eq_self_iff.mpr isDigit_toDigits
  unfold leadingDigits
  rw [htake, if_neg Nat.toDigits_ne_nil, Nat.ofDigitChars_toDigits (by omega) le_rfl]

theorem dropWhile_toDigits (n : ℕ) : ∃ x xs, Nat.toDigits 10 n = x :: xs ∧ x ≠ '-' ∧ x ≠ '+' ∧
    (Nat.toDigits 10 n).dropWhile isspace = x :: xs := by
  cases hd : Nat.toDigits 10 n with
  | nil => exact absurd hd Nat.toDigits_ne_nil
  | cons x xs =>
    have hx : x.isDigit = true := isDigit_toDigits x (by rw [hd]; exact List.mem_cons_self)
    refine ⟨x, xs, rfl, ?_, ?_, List.dropWhile_cons_of_neg (by simp [isspace_of_isDigit hx])⟩
    · rintro rfl
      exact absurd hx (by decide)
    · rintro rfl
      exact absurd hx (by decide)

theorem stoul_toDigits (n : ℕ) : stoul (Nat.toDigits 10 n) = some n := by
  have hlead := leadingDigits_toDigits n
  obtain ⟨x, xs, hd, hminus, hplus, hdrop⟩ := dropWhile_toDigits n
  rw [stoul, hdrop]
  rw [hd] at hlead
  simpa [hminus, hplus] using hlead

theorem linesFrom_line (hs : '\n' ∉ s) (line : Name) (text : List Char) :
    FileData.linesFrom line (s ++ '\n' :: text) = (line ++ s) :: FileData.linesFrom [] text := by
  induction s generalizing line with
  | nil => simp [FileData.linesFrom]
  | cons x xs ih =>
    have hx : x ≠ '\n' := fun h => hs (h ▸ List.mem_cons_self)
    rw [List.cons_append, FileData.linesFrom, if_neg hx, ih fun h => hs (List.mem_cons_of_mem x h)]
    simp

structure FileData.Clean (myData : FileData) : Prop where
  nodup : (myData.map Prod.fst).Nodup
  key : ∀ ent ∈ myData, '|' ∉ ent.1 ∧ '\n' ∉ ent.1
  value : ∀ ent ∈ myData, '|' ∉ ent.2 ∧ '\n' ∉ ent.2
  short : ∀ ent ∈ myData, ent.1.length + ent.2.length + 3 < 2 ^ 31

def lineLength (ent : Name × Name) : ℕ := ent.1.length + ent.2.length + 3

theorem parseLine_line (hk : '|' ∉ key) (hv : '|' ∉ value) :
    FileData.parseLine ('|' :: key ++ '|' :: value ++ ['|']) =
      if lineLength (key, value) ≤ castInt (lineLength (key, value)) then some (key, value) else none := by
  have h1 : findFrom '|' ('|' :: key ++ '|' :: value ++ ['|']) 0 = some 0 :=
    findFrom_append (s := []) (t := key ++ '|' :: value ++ ['|']) le_rfl (by simp)
  have h2 : findFrom '|' ('|' :: key ++ '|' :: value ++ ['|']) (0 + 1) = some (key.length + 1) := by
    have := findFrom_append (c := '|') (s := '|' :: key) (t := value ++ ['|']) (show 1 ≤ _ by simp)
      (by simpa using hk)
    simpa using this
  have hdrop : ('|' :: key ++ '|' :: value).drop (key.length + 1 + 1) = value := by
    simp
  have h3 : findFrom '|' ('|' :: key ++ '|' :: value ++ ['|']) (key.length + 1 + 1) =
      some (key.length + value.length + 2) := by
    have hlen : ('|' :: key ++ '|' :: value).length = key.length + value.length + 2 := by
      simp only [List.length_append, List.length_cons]
      omega
    rw [← hlen]
    apply findFrom_append
    · omega
    · rw [hdrop]
      exact hv
  have hlen : ('|' :: key ++ '|' :: value ++ ['|']).length = lineLength (key, value) := by
    simp only [lineLength, List.length_append, List.length_cons, List.length_nil]
    omega
  have hkey : substr ('|' :: key ++ '|' :: value ++ ['|']) (0 + 1) (key.length + 1 - 0 - 1) = key := by
    simp [substr]
  have hvalue : substr ('|' :: key ++ '|' :: value ++ ['|']) (key.length + 1 + 1)
      (key.length + value.length + 2 - (key.length + 1) - 1) = value := by
    have hcount : key.length + value.length + 2 - (key.length + 1) - 1 = value.length := by omega
    rw [substr, List.drop_append_of_le_length (by simp only [List.length_append, List.length_cons]; omega), hdrop,
      hcount, List.take_left]
  unfold FileData.parseLine
  rw [h1]
  dsimp only [bind, Option.bind]
  rw [h2]
  dsimp only
  rw [h3]
  dsimp only
  rw [hlen, hkey, hvalue]
  -- the last pipe is the last character of the line
  have hpos : key.length + value.length + 2 + 1 = lineLength (key, value) := rfl
  by_cases hfits : lineLength (key, value) ≤ castInt (lineLength (key, value))
  · rw [if_neg (by omega), if_pos hfits]
  · rw [if_pos (by omega), if_neg hfits]

namespace FileData

theorem lines_save (h : ∀ ent ∈ myData, '\n' ∉ ent.1 ∧ '\n' ∉ ent.2) :
    linesFrom [] (save myData) = myData.map fun ent => '|' :: ent.1 ++ '|' :: ent.2 ++ ['|'] := by
  induction myData with
  | nil => rfl
  | cons ent rest ih =>
    obtain ⟨hk, hv⟩ := h ent List.mem_cons_self
    have hsave : save (ent :: rest) = ('|' :: ent.1 ++ '|' :: ent.2 ++ ['|']) ++ '\n' :: save rest := by
      simp [save]
    rw [hsave, linesFrom_line (by simp [hk, hv]), ih fun e he => h e (List.mem_cons_of_mem _ he)]
    rfl

theorem putString_new (h : key ∉ myData.map Prod.fst) :
    myData.putString key value = myData ++ [(key, value)] := by
  have hfilter : myData.filter (·.1 ≠ key) = myData := by
    rw [List.filter_eq_self]
    intro ent hent
    have : ent.1 ≠ key := fun heq => h (heq ▸ List.mem_map_of_mem hent)
    simpa using this
  rw [putString, hfilter]

theorem read_save_filter (hnodup : (myData.map Prod.fst).Nodup)
    (hpipe : ∀ ent ∈ myData, '|' ∉ ent.1 ∧ '|' ∉ ent.2) (hline : ∀ ent ∈ myData, '\n' ∉ ent.1 ∧ '\n' ∉ ent.2) :
    read (save myData) = myData.filter fun ent => lineLength ent ≤ castInt (lineLength ent) := by
  have hfold : ∀ rest pre : FileData, ((pre ++ rest).map Prod.fst).Nodup →
      (∀ ent ∈ rest, '|' ∉ ent.1 ∧ '|' ∉ ent.2) →
      (rest.map fun ent => '|' :: ent.1 ++ '|' :: ent.2 ++ ['|']).foldl addLine pre =
        pre ++ rest.filter fun ent => lineLength ent ≤ castInt (lineLength ent) := by
    intro rest
    induction rest with
    | nil =>
      intro pre _ _
      simp
    | cons ent rest ih =>
      intro pre hn hp
      have hnot : ent.1 ∉ pre.map Prod.fst := by
        rw [List.map_append, List.nodup_append] at hn
        exact fun hm => hn.2.2 ent.1 hm ent.1 (by simp) rfl
      obtain ⟨hk, hv⟩ := hp ent List.mem_cons_self
      have hrest : ∀ ent ∈ rest, '|' ∉ ent.1 ∧ '|' ∉ ent.2 := fun e he => hp e (List.mem_cons_of_mem _ he)
      rw [List.map_cons, List.foldl_cons, addLine, parseLine_line hk hv, List.filter_cons]
      by_cases hfits : lineLength ent ≤ castInt (lineLength ent)
      · rw [if_pos hfits, if_pos (by simpa using hfits)]
        dsimp only
        rw [putString_new hnot, ih _ (by simpa using hn) hrest]
        simp
      · have hsub : ((pre ++ rest).map Prod.fst).Sublist ((pre ++ ent :: rest).map Prod.fst) :=
          ((List.sublist_cons_self ent rest).append_left pre).map _
        rw [if_neg hfits, if_neg (by simpa using hfits)]
        exact ih _ (hn.sublist hsub) hrest
  rw [read, lines_save hline]
  exact hfold myData [] hnodup hpipe

theorem read_save (h : myData.Clean) : read (save myData) = myData := by
  rw [read_save_filter h.nodup (fun ent hent => ⟨(h.key ent hent).1, (h.value ent hent).1⟩)
    (fun ent hent => ⟨(h.key ent hent).2, (h.value ent hent).2⟩), List.filter_eq_self]
  intro ent hent
  have hfits : lineLength ent ≤ castInt (lineLength ent) := (castInt_of_lt (h.short ent hent)).ge
  exact decide_eq_true hfits

end FileData

end PlinyCompute.BufferManager
