import PlinyCompute.LogicalPlan
import PlinyCompute.MaximalMunch

namespace PlinyCompute.Tcap

open LogicalPlan MaximalMunch

inductive Token
  | filter
  | apply
  | hashLeft
  | hashRight
  | hashOne
  | flatten
  | union
  | scan
  | agg
  | join
  | output
  | partition
  | gets
  | char (c : Char)
  | identifier (myChar : Text)
  | string (myChar : Text)
  deriving DecidableEq, Repr

inductive StartCondition
  | initial
  | cComment
  deriving DecidableEq, Repr

abbrev LexRule := Rule StartCondition Char Token

def keywordRule (word : String) (t : Token) : LexRule :=
  ⟨.initial, fun w => w.map Char.toLower = word.toList, fun _ => (some t, .initial)⟩

def literalRule (m : StartCondition) (word : String) (t : Option Token) (next : StartCondition) : LexRule :=
  ⟨m, fun w => w = word.toList, fun _ => (t, next)⟩

def isNameChar (c : Char) : Bool := c.isAlphanum || c = '_' || c = '-'

def isName : Text → Bool
  | [] => false
  | c :: cs => c.isAlpha && cs.all isNameChar

def closesString : Text → Bool
  | [] => false
  | ['\''] => true
  | '\\' :: c :: cs => (c ≠ '\n' && closesString cs) || closesString (c :: cs)
  | c :: cs => c ≠ '\'' && closesString cs

def isString : Text → Bool
  | [] => false
  | c :: cs => c = '\'' && closesString cs

def isDot : Text → Bool
  | [c] => c ≠ '\n'
  | _ => false

def isBlank : Text → Bool
  | [c] => c = ' ' || c = '\t'
  | _ => false

def keywords : List (String × Token) :=
  [("filter", .filter), ("apply", .apply), ("hashleft", .hashLeft), ("hashright", .hashRight),
    ("hashone", .hashOne), ("flatten", .flatten), ("union", .union), ("scan", .scan),
    ("aggregate", .agg), ("join", .join), ("output", .output), ("partition", .partition)]

def commentRules : List LexRule :=
  [literalRule .initial "/*" none .cComment,
    literalRule .cComment "*/" none .initial,
    ⟨.cComment, isDot, fun _ => (none, .cComment)⟩,
    literalRule .cComment "\n" none .cComment]

def symbolRules : List LexRule :=
  [literalRule .initial "<=" (some .gets) .initial,
    literalRule .initial ")" (some (.char ')')) .initial,
    literalRule .initial "(" (some (.char '(')) .initial,
    literalRule .initial "[" (some (.char '[')) .initial,
    literalRule .initial "]" (some (.char ']')) .initial,
    literalRule .initial "," (some (.char ',')) .initial]

def nameRule : LexRule := ⟨.initial, isName, fun w => (some (.identifier w), .initial)⟩

def stringRule : LexRule :=
  ⟨.initial, isString, fun w => (some (.string w.tail.dropLast), .initial)⟩

/-- An invalid character sets the error message and is left out. -/
def spaceRules : List LexRule :=
  [literalRule .initial "\n" none .initial,
    ⟨.initial, isBlank, fun _ => (none, .initial)⟩,
    ⟨.initial, isDot, fun _ => (none, .initial)⟩]

/-- The rules in the order of the source, where the first of two rules with equally long matches wins. -/
def lexRules : List LexRule :=
  commentRules ++ (keywords.map fun k => keywordRule k.1 k.2) ++ symbolRules ++
    nameRule :: stringRule :: spaceRules

/-- The tokens of the text that `yy_scan_string` sees, which ends at its first null character. -/
def yylex (text : Text) : List Token :=
  let cs := text.takeWhile (· ≠ '\x00')
  scan lexRules cs.length .initial cs

def LegalName (w : Text) : Prop := isName w = true ∧ ∀ k ∈ keywords, w.map Char.toLower ≠ k.1.toList

def LegalString (s : Text) : Prop :=
  '\x00' ∉ s ∧ closesString (s ++ ['\'']) = true ∧ s.getLast? ≠ some '\\'

instance (w : Text) : Decidable (LegalName w) :=
  inferInstanceAs (Decidable (isName w = true ∧ ∀ k ∈ keywords, w.map Char.toLower ≠ k.1.toList))

instance (s : Text) : Decidable (LegalString s) :=
  inferInstanceAs (Decidable ('\x00' ∉ s ∧ closesString (s ++ ['\'']) = true ∧ s.getLast? ≠ some '\\'))

theorem isLower_of_mem_keyword {k : String × Token} (hk : k ∈ keywords) :
    ∀ c ∈ k.1.toList, c.isLower = true := by
  have hall : (keywords.all fun k => k.1.toList.all Char.isLower) = true := by decide
  exact List.all_eq_true.mp (List.all_eq_true.mp hall k hk)

theorem isAlpha_of_toLower {c : Char} (h : c.toLower.isLower = true) : c.isAlpha = true := by
  unfold Char.isAlpha
  by_cases hu : c.isUpper = true
  · simp [hu]
  · have he : c.toLower = c := by
      unfold Char.toLower
      unfold Char.isUpper at hu
      simp only [decide_eq_true_eq] at hu
      rw [dif_neg (by simpa using hu)]
    rw [he] at h
    simp [h]

theorem isNameChar_of_isAlpha {c : Char} (h : c.isAlpha = true) : isNameChar c = true := by
  simp [isNameChar, Char.isAlphanum, h]

theorem isName_of_keyword {k : String × Token} {w : Text} (hk : k ∈ keywords)
    (h : w.map Char.toLower = k.1.toList) : isName w = true := by
  have halpha : ∀ c ∈ w, c.isAlpha = true := by
    intro c hc
    apply isAlpha_of_toLower
    apply isLower_of_mem_keyword hk
    rw [← h]
    exact List.mem_map_of_mem hc
  cases w with
  | nil =>
    have hne : ∀ k ∈ keywords, k.1.toList ≠ [] := by decide
    exact absurd h.symm (hne k hk)
  | cons c cs =>
    simp only [isName, Bool.and_eq_true, List.all_eq_true]
    refine ⟨halpha c (by simp), fun d hd => ?_⟩
    exact isNameChar_of_isAlpha (halpha d (List.mem_cons_of_mem _ hd))

theorem length_le_of_isDot {w : Text} (h : isDot w = true) : w.length ≤ 1 := by
  match w, h with
  | [_], _ => simp

theorem length_le_of_isBlank {w : Text} (h : isBlank w = true) : w.length ≤ 1 := by
  match w, h with
  | [_], _ => simp

theorem cases_of_fires {r : LexRule} {w : Text} (hr : r ∈ lexRules) (h : r.fires .initial w = true) :
    w = "/*".toList ∨ w = "<=".toList ∨ isName w = true ∨ isString w = true ∨ w.length ≤ 1 := by
  simp only [Rule.fires, Bool.and_eq_true, decide_eq_true_eq] at h
  obtain ⟨hs, ha⟩ := h
  simp only [lexRules, List.mem_append, List.mem_cons, List.mem_map] at hr
  rcases hr with ((hr | ⟨k, hk, rfl⟩) | hr) | rfl | rfl | hr
  · simp only [commentRules, literalRule, List.mem_cons, List.not_mem_nil, or_false] at hr
    rcases hr with rfl | rfl | rfl | rfl
    · exact .inl (of_decide_eq_true ha)
    all_goals cases hs
  · exact .inr (.inr (.inl (isName_of_keyword hk (of_decide_eq_true ha))))
  · simp only [symbolRules, literalRule, List.mem_cons, List.not_mem_nil, or_false] at hr
    rcases hr with rfl | rfl | rfl | rfl | rfl | rfl
    · exact .inr (.inl (of_decide_eq_true ha))
    all_goals
      have := of_decide_eq_true ha
      subst this
      simp
  · exact .inr (.inr (.inl ha))
  · exact .inr (.inr (.inr (.inl ha)))
  · simp only [spaceRules, literalRule, List.mem_cons, List.not_mem_nil, or_false] at hr
    rcases hr with rfl | rfl | rfl
    · have := of_decide_eq_true ha
      subst this
      simp
    · exact .inr (.inr (.inr (.inr (length_le_of_isBlank ha))))
    · exact .inr (.inr (.inr (.inr (length_le_of_isDot ha))))

theorem longest_of_not {w rest : Text} (h2 : 2 ≤ w.length ∨ 1 ≤ w.length)
    (hsymbol : ∀ p, p ≠ [] → w ++ p ≠ "/*".toList ∧ w ++ p ≠ "<=".toList)
    (hname : ∀ p, p ≠ [] → p <+: rest → isName (w ++ p) = false)
    (hstring : ∀ p, p ≠ [] → isString (w ++ p) = false) : Longest lexRules .initial w rest := by
  intro p hp hpre r hr
  by_contra hf
  rw [Bool.not_eq_false] at hf
  have hlen := List.length_pos_of_ne_nil hp
  rcases cases_of_fires hr hf with h | h | h | h | h
  · exact (hsymbol p hp).1 h
  · exact (hsymbol p hp).2 h
  · simp [hname p hp hpre] at h
  · simp [hstring p hp] at h
  · rw [List.length_append] at h
    omega

theorem longest_char {c : Char} (rest : Text) (hc : c ≠ '/' ∧ c ≠ '<' ∧ c ≠ '\'') (ha : c.isAlpha = false) :
    Longest lexRules .initial [c] rest := by
  apply longest_of_not (.inr le_rfl)
  · intro p _
    exact ⟨by simp [hc.1], by simp [hc.2.1]⟩
  · intro p _ _
    simp [isName, ha]
  · intro p _
    simp [isString, hc.2.2]

theorem longest_gets (rest : Text) : Longest lexRules .initial "<=".toList rest := by
  apply longest_of_not (.inl le_rfl)
  · intro p hp
    exact ⟨by simp, by simpa using hp⟩
  · intro p _ _
    rfl
  · intro p _
    rfl

def EndsName (rest : Text) : Prop := ∀ c ∈ rest.head?, isNameChar c = false

theorem longest_name {w rest : Text} (hw : isName w = true) (hrest : EndsName rest) :
    Longest lexRules .initial w rest := by
  cases w with
  | nil => cases hw
  | cons c cs =>
    have hc : c.isAlpha = true := by
      simp only [isName, Bool.and_eq_true] at hw
      exact hw.1
    apply longest_of_not (.inr (by simp))
    · intro p _
      constructor
      · intro he
        cases (List.cons.inj he).1
        revert hc
        decide
      · intro he
        cases (List.cons.inj he).1
        revert hc
        decide
    · intro p hp hpre
      cases p with
      | nil => exact absurd rfl hp
      | cons d p =>
        have hd : isNameChar d = false := by
          apply hrest
          obtain ⟨q, rfl⟩ := hpre
          simp
        simp [isName, hd]
    · intro p _
      have : c ≠ '\'' := by
        rintro rfl
        revert hc
        decide
      simp [isString, this]

theorem closesString_cons {c d : Char} (cs : Text) (hc : c ≠ '\\') :
    closesString (c :: d :: cs) = (decide (c ≠ '\'') && closesString (d :: cs)) := by
  rw [closesString]
  · simp
  · intro e es he
    exact absurd he hc

theorem closesString_longer (s p : Text) (hs : s.getLast? ≠ some '\\') (hp : p ≠ []) :
    closesString (s ++ '\'' :: p) = false := by
  induction hn : s.length using Nat.strong_induction_on generalizing s with
  | _ n ih =>
    subst hn
    match s with
    | [] =>
      cases p with
      | nil => exact absurd rfl hp
      | cons d p => simp [closesString]
    | [c] =>
      have hc : c ≠ '\\' := by simpa using hs
      have h0 := ih 0 (by simp) [] (by simp) rfl
      simp only [List.nil_append] at h0
      rw [List.cons_append, List.nil_append, closesString_cons _ hc, h0, Bool.and_false]
    | c :: d :: s =>
      have h1 := ih (d :: s).length (by simp) (d :: s) (by simpa using hs) rfl
      have h2 : closesString (s ++ '\'' :: p) = false := by
        apply ih s.length (by simp only [List.length_cons]; omega) s _ rfl
        cases s with
        | nil => simp
        | cons e s => simpa using hs
      by_cases hc : c = '\\'
      · subst hc
        simp only [List.cons_append] at h1
        simp [closesString, h1, h2]
      · simp only [List.cons_append] at h1 ⊢
        rw [closesString_cons _ hc, h1, Bool.and_false]

theorem longest_string {s : Text} (hs : LegalString s) (rest : Text) :
    Longest lexRules .initial ('\'' :: (s ++ ['\''])) rest := by
  apply longest_of_not (.inr (by simp))
  · intro p _
    exact ⟨by simp, by simp⟩
  · intro p _ _
    rfl
  · intro p hp
    have := closesString_longer s p hs.2.2 hp
    simpa [isString] using this

variable {rest : Text} {ts : List Token}

theorem scans_char {c : Char} {t : Option Token} {r : LexRule} (hc : c ≠ '/' ∧ c ≠ '<' ∧ c ≠ '\'')
    (ha : c.isAlpha = false) (hr : lexRules.find? (Rule.fires .initial [c]) = some r)
    (ht : r.action [c] = (t, .initial)) (h : Scans lexRules .initial rest ts) :
    Scans lexRules .initial (c :: rest) (t.toList ++ ts) := by
  have := Scans.step (by simp) hr (longest_char rest hc ha) (by rw [ht]; exact h)
  rwa [ht] at this

theorem scans_space (h : Scans lexRules .initial rest ts) : Scans lexRules .initial (' ' :: rest) ts :=
  scans_char (t := none) (by decide) rfl rfl rfl h

theorem scans_newline (h : Scans lexRules .initial rest ts) : Scans lexRules .initial ('\n' :: rest) ts :=
  scans_char (t := none) (by decide) rfl rfl rfl h

theorem scans_comma (h : Scans lexRules .initial rest ts) :
    Scans lexRules .initial (',' :: rest) (.char ',' :: ts) :=
  scans_char (t := some _) (by decide) rfl rfl rfl h

theorem scans_open (h : Scans lexRules .initial rest ts) :
    Scans lexRules .initial ('(' :: rest) (.char '(' :: ts) :=
  scans_char (t := some _) (by decide) rfl rfl rfl h

theorem scans_close (h : Scans lexRules .initial rest ts) :
    Scans lexRules .initial (')' :: rest) (.char ')' :: ts) :=
  scans_char (t := some _) (by decide) rfl rfl rfl h

theorem scans_gets (h : Scans lexRules .initial rest ts) :
    Scans lexRules .initial ('<' :: '=' :: rest) (.gets :: ts) :=
  Scans.step (r := literalRule .initial "<=" (some .gets) .initial) (by simp) rfl (longest_gets rest) h

theorem scans_keyword {w : Text} {word : String} {t : Token} (hw : isName w = true)
    (hr : lexRules.find? (Rule.fires .initial w) = some (keywordRule word t)) (hrest : EndsName rest)
    (h : Scans lexRules .initial rest ts) : Scans lexRules .initial (w ++ rest) (t :: ts) := by
  apply Scans.step (r := keywordRule word t) _ hr (longest_name hw hrest) h
  rintro rfl
  cases hw

theorem find_name {w : Text} (hw : LegalName w) :
    lexRules.find? (Rule.fires .initial w) = some nameRule := by
  cases w with
  | nil => cases hw.1
  | cons c cs =>
    have hc : c.isAlpha = true := by
      have := hw.1
      simp only [isName, Bool.and_eq_true] at this
      exact this.1
    have hne : ∀ d : Char, d.isAlpha = false → c ≠ d := by
      rintro d hd rfl
      rw [hd] at hc
      cases hc
    have hkey : (keywords.map fun k => keywordRule k.1 k.2).find? (Rule.fires .initial (c :: cs)) = none := by
      apply List.find?_eq_none.mpr
      intro r hr
      obtain ⟨k, hk, rfl⟩ := List.mem_map.mp hr
      simpa [Rule.fires, keywordRule] using hw.2 k hk
    have hcomment : commentRules.find? (Rule.fires .initial (c :: cs)) = none := by
      simp [commentRules, literalRule, Rule.fires, hne '/' rfl]
    have hsymbol : symbolRules.find? (Rule.fires .initial (c :: cs)) = none := by
      simp [symbolRules, literalRule, Rule.fires, hne '<' rfl, hne ')' rfl, hne '(' rfl, hne '[' rfl,
        hne ']' rfl, hne ',' rfl]
    have hfires : Rule.fires .initial (c :: cs) nameRule = true := hw.1
    simp only [lexRules, List.find?_append, hkey, hcomment, hsymbol, List.find?_cons, hfires]
    rfl

theorem scans_name {w : Text} (hw : LegalName w) (hrest : EndsName rest)
    (h : Scans lexRules .initial rest ts) :
    Scans lexRules .initial (w ++ rest) (.identifier w :: ts) := by
  apply Scans.step (r := nameRule) _ (find_name hw) (longest_name hw.1 hrest) h
  rintro rfl
  cases hw.1

theorem find_string {s : Text} (hs : LegalString s) :
    lexRules.find? (Rule.fires .initial ('\'' :: (s ++ ['\'']))) = some stringRule := by
  have hkey : (keywords.map fun k => keywordRule k.1 k.2).find?
      (Rule.fires .initial ('\'' :: (s ++ ['\'']))) = none := by
    apply List.find?_eq_none.mpr
    intro r hr
    obtain ⟨k, hk, rfl⟩ := List.mem_map.mp hr
    intro hf
    have := isName_of_keyword (w := '\'' :: (s ++ ['\''])) hk (by simpa [Rule.fires, keywordRule] using hf)
    cases this
  have hfires : Rule.fires .initial ('\'' :: (s ++ ['\''])) stringRule = true := hs.2.1
  have hname : Rule.fires .initial ('\'' :: (s ++ ['\''])) nameRule = false := rfl
  simp only [lexRules, List.find?_append, hkey, List.find?_cons, hfires, hname]
  rfl

theorem scans_string {s : Text} (hs : LegalString s) (h : Scans lexRules .initial rest ts) :
    Scans lexRules .initial ('\'' :: (s ++ '\'' :: rest)) (.string s :: ts) := by
  have := Scans.step (r := stringRule) (by simp) (find_string hs) (longest_string hs rest) h
  simpa [stringRule] using this

end PlinyCompute.Tcap
