import Mathlib
import PlinyCompute.PlanRuns
import PlinyCompute.TcapParser

namespace PlinyCompute.Tcap

open LogicalPlan MaximalMunch
open ComputationTables (AtomicComputationList build)

def LegalSpec (s : TupleSpec) : Prop := LegalName s.setName ∧ ∀ a ∈ s.atts, LegalName a

def LegalKind : Kind → Prop
  | .applyLambda lambdaName => LegalString lambdaName
  | .hashLeft lambdaName => LegalString lambdaName
  | .hashRight lambdaName => LegalString lambdaName
  | .hashOne => True
  | .flatten => True
  | .union rightInput => LegalSpec rightInput
  | .applyFilter => True
  | .applyAgg => True
  | .scanSet setSpecifier _ => LegalString setSpecifier.1 ∧ LegalString setSpecifier.2
  | .writeSet dbName setName => LegalString dbName ∧ LegalString setName
  | .applyJoin rightInput rightProjection => LegalSpec rightInput ∧ LegalSpec rightProjection

structure Legal (c : AtomicComputation) : Prop where
  input : LegalSpec c.input
  output : LegalSpec c.output
  projection : LegalSpec c.projection
  computationName : LegalString c.computationName
  keyValuePairs : ∀ p ∈ c.keyValuePairs.keyValuePairs, LegalString p.1 ∧ LegalString p.2
  kind : LegalKind c.kind

instance (s : TupleSpec) : Decidable (LegalSpec s) :=
  inferInstanceAs (Decidable (LegalName s.setName ∧ ∀ a ∈ s.atts, LegalName a))

instance : (k : Kind) → Decidable (LegalKind k)
  | .applyLambda lambdaName => inferInstanceAs (Decidable (LegalString lambdaName))
  | .hashLeft lambdaName => inferInstanceAs (Decidable (LegalString lambdaName))
  | .hashRight lambdaName => inferInstanceAs (Decidable (LegalString lambdaName))
  | .hashOne => inferInstanceAs (Decidable True)
  | .flatten => inferInstanceAs (Decidable True)
  | .union rightInput => inferInstanceAs (Decidable (LegalSpec rightInput))
  | .applyFilter => inferInstanceAs (Decidable True)
  | .applyAgg => inferInstanceAs (Decidable True)
  | .scanSet setSpecifier _ =>
    inferInstanceAs (Decidable (LegalString setSpecifier.1 ∧ LegalString setSpecifier.2))
  | .writeSet dbName setName => inferInstanceAs (Decidable (LegalString dbName ∧ LegalString setName))
  | .applyJoin rightInput rightProjection =>
    inferInstanceAs (Decidable (LegalSpec rightInput ∧ LegalSpec rightProjection))

theorem legal_iff (c : AtomicComputation) : Legal c ↔
    (LegalSpec c.input ∧ LegalSpec c.output ∧ LegalSpec c.projection) ∧ LegalString c.computationName ∧
      (∀ p ∈ c.keyValuePairs.keyValuePairs, LegalString p.1 ∧ LegalString p.2) ∧ LegalKind c.kind :=
  ⟨fun h => ⟨⟨h.1, h.2, h.3⟩, h.4, h.5, h.6⟩, fun h => ⟨h.1.1, h.1.2.1, h.1.2.2, h.2.1, h.2.2.1, h.2.2.2⟩⟩

instance (c : AtomicComputation) : Decidable (Legal c) := decidable_of_iff' _ (legal_iff c)

def attTokens : Bool → List Text → List Token
  | _, [] => []
  | first, a :: atts => (if first then [] else [.char ',']) ++ .identifier a :: attTokens false atts

def specTokens (s : TupleSpec) : List Token :=
  .identifier s.setName :: .char '(' :: (attTokens true s.atts ++ [.char ')'])

def nameTokens : List Text → List Token
  | [] => [.char ')']
  | s :: ss => .char ',' :: .string s :: nameTokens ss

def pairTokens (t : Token) (input projection : TupleSpec) (names : List Text) : List Token :=
  .gets :: t :: .char '(' :: (specTokens input ++ .char ',' :: (specTokens projection ++ nameTokens names))

def computationTokens (c : AtomicComputation) : List Token :=
  specTokens c.output ++
    match c.kind with
    | .applyLambda lambdaName => pairTokens .apply c.input c.projection [c.computationName, lambdaName]
    | .hashLeft lambdaName => pairTokens .hashLeft c.input c.projection [c.computationName, lambdaName]
    | .hashRight lambdaName => pairTokens .hashRight c.input c.projection [c.computationName, lambdaName]
    | .hashOne => pairTokens .hashOne c.input c.projection [c.computationName]
    | .flatten => pairTokens .flatten c.input c.projection [c.computationName]
    | .union rightInput => pairTokens .union c.input rightInput [c.computationName]
    | .applyFilter => pairTokens .filter c.input c.projection [c.computationName]
    | .applyAgg => []
    | .scanSet setSpecifier _ =>
      .gets :: .scan :: .char '(' :: .string setSpecifier.1 :: nameTokens [setSpecifier.2, c.computationName]
    | .writeSet dbName setName =>
      .gets :: .output :: .char '(' :: (specTokens c.input ++ nameTokens [dbName, setName, c.computationName])
    | .applyJoin rightInput rightProjection =>
      .gets :: .join :: .char '(' :: (specTokens c.input ++ .char ',' :: (specTokens c.projection ++
        .char ',' :: (specTokens rightInput ++ .char ',' :: (specTokens rightProjection ++
          nameTokens [c.computationName]))))

variable {rest : Text} {ts : List Token}

theorem endsName_cons {c : Char} (rest : Text) (hc : isNameChar c = false) : EndsName (c :: rest) := by
  intro d hd
  cases hd
  exact hc

theorem scans_atts (first : Bool) (atts : List Text) (hl : ∀ a ∈ atts, LegalName a)
    (he : EndsName rest) (h : Scans lexRules .initial rest ts) :
    Scans lexRules .initial (writeAtts first atts ++ rest) (attTokens first atts ++ ts) := by
  induction atts generalizing first with
  | nil => exact h
  | cons a atts ih =>
    have htail := ih false fun b hb => hl b (List.mem_cons_of_mem _ hb)
    have hends : EndsName (writeAtts false atts ++ rest) := by
      cases atts with
      | nil => exact he
      | cons b atts => exact endsName_cons _ (by decide)
    have hname := scans_name (hl a (by simp)) hends htail
    cases first with
    | true => simpa [writeAtts, attTokens] using hname
    | false => simpa [writeAtts, attTokens] using scans_comma (scans_space hname)

theorem scans_spec {s : TupleSpec} (hl : LegalSpec s) (h : Scans lexRules .initial rest ts) :
    Scans lexRules .initial (s.writeOut ++ rest) (specTokens s ++ ts) := by
  have hatts := scans_atts true s.atts hl.2 (endsName_cons _ (by decide)) (scans_close h)
  have hopen := scans_space (scans_open hatts)
  have hname := scans_name hl.1 (endsName_cons _ (by decide)) hopen
  simpa [TupleSpec.writeOut, specTokens] using hname

theorem scans_names (ss : List Text) (hl : ∀ s ∈ ss, LegalString s)
    (h : Scans lexRules .initial rest ts) :
    Scans lexRules .initial (writeNames ss ++ rest) (nameTokens ss ++ ts) := by
  induction ss with
  | nil => exact scans_close (scans_newline h)
  | cons s ss ih =>
    have htail := ih fun b hb => hl b (List.mem_cons_of_mem _ hb)
    have hs := scans_comma (scans_space (scans_string (hl s (by simp)) htail))
    simpa [writeNames, nameTokens] using hs

theorem scans_head {w : Text} {word : String} {t : Token} (hw : isName w = true)
    (hr : lexRules.find? (Rule.fires .initial w) = some (keywordRule word t))
    (h : Scans lexRules .initial rest ts) :
    Scans lexRules .initial (" <= ".toList ++ (w ++ (" (".toList ++ rest)))
      (.gets :: t :: .char '(' :: ts) := by
  have hopen := scans_space (scans_open h)
  have hword := scans_keyword hw hr (endsName_cons _ (by decide)) hopen
  exact scans_space (scans_gets (scans_space hword))

theorem scans_comma_space (h : Scans lexRules .initial rest ts) :
    Scans lexRules .initial (", ".toList ++ rest) (.char ',' :: ts) := scans_comma (scans_space h)

theorem scans_pair {w : Text} {word : String} {t : Token} (hw : isName w = true)
    (hr : lexRules.find? (Rule.fires .initial w) = some (keywordRule word t)) {input projection : TupleSpec}
    {names : List Text} (hi : LegalSpec input) (hp : LegalSpec projection)
    (hn : ∀ s ∈ names, LegalString s) (h : Scans lexRules .initial rest ts) :
    Scans lexRules .initial (" <= ".toList ++ (w ++ (" (".toList ++ (input.writeOut ++ (", ".toList ++
      (projection.writeOut ++ (writeNames names ++ rest))))))) (pairTokens t input projection names ++ ts) := by
  have hspecs := scans_spec hi (scans_comma_space (scans_spec hp (scans_names names hn h)))
  have := scans_head hw hr hspecs
  simpa [pairTokens] using this

theorem scans_computation {c : AtomicComputation} (hl : Legal c) (hk : c.kind ≠ .applyAgg)
    (h : Scans lexRules .initial rest ts) :
    Scans lexRules .initial (c.writeOut ++ rest) (computationTokens c ++ ts) := by
  unfold AtomicComputation.writeOut computationTokens
  rw [List.append_assoc, List.append_assoc]
  apply scans_spec hl.output
  have hkind := hl.kind
  have hname := hl.computationName
  have hone : ∀ s ∈ [c.computationName], LegalString s := by simpa using hname
  have hboth : ∀ l, LegalString l → ∀ s ∈ [c.computationName, l], LegalString s := by
    intro l hl
    simpa [hname] using hl
  cases he : c.kind with
  | applyLambda lambdaName =>
    rw [he] at hkind
    have := scans_pair (w := "APPLY".toList) rfl rfl hl.input hl.projection (hboth lambdaName hkind) h
    simpa using this
  | hashLeft lambdaName =>
    rw [he] at hkind
    have := scans_pair (w := "HASHLEFT".toList) rfl rfl hl.input hl.projection (hboth lambdaName hkind) h
    simpa using this
  | hashRight lambdaName =>
    rw [he] at hkind
    have := scans_pair (w := "HASHRIGHT".toList) rfl rfl hl.input hl.projection (hboth lambdaName hkind) h
    simpa using this
  | hashOne =>
    have := scans_pair (w := "HASHONE".toList) rfl rfl hl.input hl.projection hone h
    simpa using this
  | flatten =>
    have := scans_pair (w := "FLATTEN".toList) rfl rfl hl.input hl.projection hone h
    simpa using this
  | union rightInput =>
    rw [he] at hkind
    have := scans_pair (w := "UNION".toList) rfl rfl hl.input hkind hone h
    simpa using this
  | applyFilter =>
    have := scans_pair (w := "FILTER".toList) rfl rfl hl.input hl.projection hone h
    simpa using this
  | applyAgg => exact absurd he hk
  | scanSet setSpecifier pageSetSpecifier =>
    rw [he] at hkind
    have hnames := scans_names [setSpecifier.2, c.computationName] (by simp [hname]; exact hkind.2) h
    have := scans_head (w := "SCAN".toList) rfl rfl (scans_space (scans_string hkind.1 hnames))
    simpa using this
  | writeSet dbName setName =>
    rw [he] at hkind
    have hnames := scans_names [dbName, setName, c.computationName] (by simp [hname]; exact hkind) h
    have := scans_head (w := "OUTPUT".toList) rfl rfl (scans_space (scans_spec hl.input hnames))
    simpa using this
  | applyJoin rightInput rightProjection =>
    rw [he] at hkind
    have hnames := scans_names [c.computationName] hone h
    have hright := scans_spec hkind.1 (scans_comma_space (scans_spec hkind.2 hnames))
    have hleft := scans_spec hl.input (scans_comma_space (scans_spec hl.projection (scans_comma_space hright)))
    have := scans_head (w := "JOIN".toList) rfl rfl hleft
    simpa using this

theorem exists_fires (m : StartCondition) (c : Char) : ∃ r ∈ lexRules, r.fires m [c] = true := by
  by_cases hc : c = '\n'
  · subst hc
    cases m with
    | initial => exact ⟨literalRule .initial "\n" none .initial, by simp [lexRules, spaceRules], rfl⟩
    | cComment => exact ⟨literalRule .cComment "\n" none .cComment, by simp [lexRules, commentRules], rfl⟩
  · cases m with
    | initial =>
      refine ⟨⟨.initial, isDot, fun _ => (none, .initial)⟩, by simp [lexRules, spaceRules], ?_⟩
      simp [Rule.fires, isDot, hc]
    | cComment =>
      refine ⟨⟨.cComment, isDot, fun _ => (none, .cComment)⟩, by simp [lexRules, commentRules], ?_⟩
      simp [Rule.fires, isDot, hc]

theorem legalString_of_plain {s : Text} (h : ∀ c ∈ s, c ≠ '\'' ∧ c ≠ '\\' ∧ c ≠ '\x00') : LegalString s := by
  refine ⟨fun hm => (h _ hm).2.2 rfl, ?_, fun hm => (h _ (List.mem_of_getLast? hm)).2.1 rfl⟩
  induction s with
  | nil => rfl
  | cons c s ih =>
    obtain ⟨hq, hb, -⟩ := h c (by simp)
    have hs := ih fun d hd => h d (List.mem_cons_of_mem _ hd)
    cases s with
    | nil => rw [List.cons_append, List.nil_append, closesString_cons _ hb]; simp [hq, closesString]
    | cons d s =>
      rw [List.cons_append] at hs ⊢
      rw [List.cons_append, closesString_cons _ hb, hs]
      simp [hq]

theorem plain_of_all {s : Text} (h : (s.all fun c => decide (c ≠ '\'' ∧ c ≠ '\\' ∧ c ≠ '\x00')) = true) :
    ∀ c ∈ s, c ≠ '\'' ∧ c ≠ '\\' ∧ c ≠ '\x00' :=
  fun c hc => of_decide_eq_true (List.all_eq_true.mp h c hc)

theorem plain_of_isNameChar {c : Char} (h : isNameChar c = true) : c ≠ '\'' ∧ c ≠ '\\' ∧ c ≠ '\x00' := by
  refine ⟨?_, ?_, ?_⟩ <;>
  · rintro rfl
    revert h
    decide

theorem isNameChar_of_mem {w : Text} (hw : isName w = true) {c : Char} (hc : c ∈ w) :
    isNameChar c = true := by
  cases w with
  | nil => cases hc
  | cons d w =>
    simp only [isName, Bool.and_eq_true, List.all_eq_true] at hw
    rcases List.mem_cons.mp hc with rfl | hc
    · exact isNameChar_of_isAlpha hw.1
    · exact hw.2 c hc

theorem plain_atts (first : Bool) (atts : List Text) (hl : ∀ a ∈ atts, LegalName a) :
    ∀ c ∈ writeAtts first atts, c ≠ '\'' ∧ c ≠ '\\' ∧ c ≠ '\x00' := by
  induction atts generalizing first with
  | nil => simp [writeAtts]
  | cons a atts ih =>
    intro c hc
    simp only [writeAtts, List.mem_append] at hc
    rcases hc with hc | hc | hc
    · cases first with
      | true => cases hc
      | false => exact plain_of_all (by decide) c hc
    · exact plain_of_isNameChar (isNameChar_of_mem (hl a (by simp)).1 hc)
    · exact ih false (fun b hb => hl b (List.mem_cons_of_mem _ hb)) c hc

theorem plain_spec {s : TupleSpec} (hl : LegalSpec s) :
    ∀ c ∈ s.writeOut, c ≠ '\'' ∧ c ≠ '\\' ∧ c ≠ '\x00' := by
  intro c hc
  simp only [TupleSpec.writeOut, List.mem_append] at hc
  rcases hc with hc | hc | hc | hc
  · exact plain_of_isNameChar (isNameChar_of_mem hl.1.1 hc)
  · exact plain_of_all (by decide) c hc
  · exact plain_atts true s.atts hl.2 c hc
  · exact plain_of_all (by decide) c hc

theorem scans_agg {c : AtomicComputation} (hl : Legal c) (hk : c.kind = .applyAgg) (rest : Text) :
    ∃ s ts, Scans lexRules .initial (c.writeOut ++ rest)
      (specTokens c.output ++ .gets :: .agg :: .char '(' :: .string s :: ts) := by
  obtain ⟨ts, hts⟩ := exists_scans exists_fires .initial
    (c.computationName ++ ("'".toList ++ (writeNames [] ++ rest)))
  have hplain : ∀ d ∈ c.input.writeOut ++ ", ".toList, d ≠ '\'' ∧ d ≠ '\\' ∧ d ≠ '\x00' := by
    intro d hd
    rw [List.mem_append] at hd
    rcases hd with hd | hd
    · exact plain_spec hl.input d hd
    · exact plain_of_all (by decide) d hd
  have hstring := scans_string (legalString_of_plain hplain) hts
  have hhead := scans_head (w := "AGGREGATE".toList) rfl rfl (scans_space hstring)
  have := scans_spec hl.output hhead
  refine ⟨c.input.writeOut ++ ", ".toList, ts, ?_⟩
  unfold AtomicComputation.writeOut
  rw [hk]
  simpa [writeNames] using this

theorem attList_tokens (atts : List Text) (ts : List Token) :
    attList (attTokens false atts ++ .char ')' :: ts) = some (atts, ts) := by
  induction atts with
  | nil => rfl
  | cons a atts ih => simp [attTokens, attList, ih]

@[simp] theorem tupleSpec_tokens (s : TupleSpec) (ts : List Token) :
    tupleSpec (specTokens s ++ ts) = some (s, ts) := by
  obtain ⟨setName, atts⟩ := s
  cases atts with
  | nil => rfl
  | cons a atts => simp [specTokens, attTokens, tupleSpec, attList_tokens]

@[simp] theorem token_cons (t : Token) (ts : List Token) : token t (t :: ts) = some ((), ts) := by
  simp [token]

@[simp] theorem comma_cons (ts : List Token) : comma (.char ',' :: ts) = some ((), ts) := rfl

@[simp] theorem string_cons (s : Text) (ts : List Token) : string (.string s :: ts) = some (s, ts) := rfl

@[simp] theorem keyword_cons (t : Token) (ts : List Token) : keyword (t :: ts) = some (t, ts) := rfl

@[simp] theorem closing_cons (ts : List Token) : closing (.char ')' :: ts) = some (none, ts) := rfl

theorem bind_some {α β : Type} {x : Parser α} {f : α → Parser β} {a : α} {ts ts' : List Token}
    (h : x ts = some (a, ts')) : (x >>= f) ts = f a ts' := by
  change (x ts).bind _ = _
  rw [h]
  rfl

def reread (c : AtomicComputation) : AtomicComputation :=
  match c.kind with
  | .union _ => { c with projection := c.input, keyValuePairs := .empty }
  | .writeSet _ _ => { c with projection := c.input, keyValuePairs := .empty }
  | .scanSet setSpecifier _ =>
    { c with
      input := .empty
      projection := .empty
      keyValuePairs := .empty
      kind := .scanSet setSpecifier (0, []) }
  | _ => { c with keyValuePairs := .empty }

theorem atomicComputation_tokens {c : AtomicComputation} (hk : c.kind ≠ .applyAgg) (ts : List Token) :
    atomicComputation (computationTokens c ++ ts) = some (reread c, ts) := by
  obtain ⟨input, output, projection, computationName, keyValuePairs, kind⟩ := c
  unfold atomicComputation computationTokens
  rw [List.append_assoc, bind_some (tupleSpec_tokens _ _)]
  cases kind with
  | applyAgg => exact absurd rfl hk
  | _ =>
    simp only [bind, StateT.bind, pure, StateT.pure, pairTokens, nameTokens, List.cons_append, List.append_assoc,
      List.nil_append, Option.bind_some, tupleSpec_tokens, token_cons, keyword_cons, comma_cons, string_cons,
      closing_cons]
    rfl

theorem atomicComputation_agg (output : TupleSpec) (s : Text) (ts : List Token) :
    atomicComputation (specTokens output ++ .gets :: .agg :: .char '(' :: .string s :: ts) = none := by
  unfold atomicComputation
  rw [bind_some (tupleSpec_tokens _ _)]
  rfl

theorem null_notMem_writeOut {c : AtomicComputation} (hl : Legal c) : '\x00' ∉ c.writeOut := by
  have hspec : ∀ s, LegalSpec s → '\x00' ∉ s.writeOut := fun s hs hm => (plain_spec hs _ hm).2.2 rfl
  have hkind := hl.kind
  have hname := hl.computationName
  unfold AtomicComputation.writeOut
  cases he : c.kind with
  | hashOne | flatten | applyFilter | applyAgg =>
    simp [hspec, hl.input, hl.output, hl.projection, writeNames, hname.1]
  | applyLambda lambdaName | hashLeft lambdaName | hashRight lambdaName =>
    rw [he] at hkind
    have hlambda : LegalString lambdaName := hkind
    simp [hspec, hl.input, hl.output, hl.projection, writeNames, hname.1, hlambda.1]
  | union rightInput =>
    rw [he] at hkind
    simp [hspec, hl.input, hl.output, hspec _ hkind, writeNames, hname.1]
  | applyJoin rightInput rightProjection =>
    rw [he] at hkind
    simp [hspec, hl.input, hl.output, hl.projection, hspec _ hkind.1, hspec _ hkind.2, writeNames, hname.1]
  | scanSet setSpecifier pageSetSpecifier | writeSet dbName setName =>
    rw [he] at hkind
    simp [hspec, hl.input, hl.output, writeNames, hname.1, hkind.1.1, hkind.2.1]

theorem scans_plan {plan : List AtomicComputation} (hl : ∀ c ∈ plan, Legal c)
    (hk : ∀ c ∈ plan, c.kind ≠ .applyAgg) :
    Scans lexRules .initial (writeOutAll plan) (plan.map computationTokens).flatten := by
  induction plan with
  | nil => exact .nil
  | cons c plan ih =>
    have htail := ih (fun d hd => hl d (List.mem_cons_of_mem _ hd)) fun d hd => hk d (List.mem_cons_of_mem _ hd)
    exact scans_computation (hl c (by simp)) (hk c (by simp)) htail

theorem computationTokens_ne_nil (c : AtomicComputation) : computationTokens c ≠ [] := by
  simp [computationTokens, specTokens]

theorem atomicComputationList_tokens {plan : List AtomicComputation} (hk : ∀ c ∈ plan, c.kind ≠ .applyAgg)
    (n : ℕ) (hn : plan.length ≤ n) (input : AtomicComputationList) :
    atomicComputationList n input (plan.map computationTokens).flatten =
      some ((plan.map reread).foldl AtomicComputationList.addAtomicComputation input) := by
  induction plan generalizing n input with
  | nil => cases n <;> rfl
  | cons c plan ih =>
    cases n with
    | zero => simp at hn
    | succ n =>
      have htail := ih (fun d hd => hk d (List.mem_cons_of_mem _ hd)) n (by simpa using hn)
      have hne := computationTokens_ne_nil c
      rw [List.map_cons, List.flatten_cons, atomicComputationList, atomicComputation_tokens (hk c (by simp))]
      · exact htail _
      · simp [hne]

theorem length_le_tokens (plan : List AtomicComputation) :
    plan.length ≤ (plan.map computationTokens).flatten.length := by
  induction plan with
  | nil => simp
  | cons c plan ih =>
    have := List.length_pos_of_ne_nil (computationTokens_ne_nil c)
    simp only [List.map_cons, List.flatten_cons, List.length_append, List.length_cons]
    omega

theorem exists_scans_of_agg {plan : List AtomicComputation} (hl : ∀ c ∈ plan, Legal c)
    (hk : ∃ c ∈ plan, c.kind = .applyAgg) :
    ∃ ts, Scans lexRules .initial (writeOutAll plan) ts ∧
      (∀ n input, atomicComputationList n input ts = none) ∧ yyparse ts = none := by
  induction plan with
  | nil => simp at hk
  | cons c plan ih =>
    have hlc := hl c (by simp)
    by_cases hc : c.kind = .applyAgg
    · obtain ⟨s, ts, hts⟩ := scans_agg hlc hc (writeOutAll plan)
      refine ⟨_, hts, fun n input => ?_, ?_⟩
      · cases n with
        | zero => rfl
        | succ n =>
          rw [atomicComputationList, atomicComputation_agg]
          · rfl
          · simp [specTokens]
      · rw [yyparse, atomicComputation_agg]
        rfl
    · obtain ⟨ts, hts, hnone, -⟩ := ih (fun d hd => hl d (List.mem_cons_of_mem _ hd)) (by simpa [hc] using hk)
      have hne := computationTokens_ne_nil c
      refine ⟨_, scans_computation hlc hc hts, fun n input => ?_, ?_⟩
      · cases n with
        | zero => simp [atomicComputationList, hne]
        | succ n =>
          rw [atomicComputationList, atomicComputation_tokens hc]
          · exact hnone n _
          · simp [hne]
      · rw [yyparse, atomicComputation_tokens hc]
        exact hnone _ _

theorem yylex_writeOutAll {plan : List AtomicComputation} (hl : ∀ c ∈ plan, Legal c) {ts : List Token}
    (h : Scans lexRules .initial (writeOutAll plan) ts) : yylex (writeOutAll plan) = ts := by
  have hnull : (writeOutAll plan).takeWhile (· ≠ '\x00') = writeOutAll plan := by
    apply List.takeWhile_eq_self_iff.mpr
    intro d hd
    obtain ⟨line, hline, hd⟩ := List.mem_flatten.mp hd
    obtain ⟨c, hc, rfl⟩ := List.mem_map.mp hline
    rw [decide_eq_true_eq]
    rintro rfl
    exact null_notMem_writeOut (hl c hc) hd
  unfold yylex
  rw [hnull]
  exact scan_of_scans h _ le_rfl

theorem parse_writeOutAll {plan : List AtomicComputation} (hl : ∀ c ∈ plan, Legal c) :
    parse (writeOutAll plan) =
      if plan ≠ [] ∧ ∀ c ∈ plan, c.kind ≠ .applyAgg then some (build (plan.map reread)) else none := by
  split
  · next h =>
    obtain ⟨hne, hk⟩ := h
    rw [parse, yylex_writeOutAll hl (scans_plan hl hk)]
    obtain ⟨c, plan, rfl⟩ := List.exists_cons_of_ne_nil hne
    have htail := atomicComputationList_tokens (fun d hd => hk d (List.mem_cons_of_mem _ hd))
      _ (length_le_tokens plan) (makeAtomicComputationList (reread c))
    rw [List.map_cons, List.flatten_cons, yyparse, atomicComputation_tokens (hk c List.mem_cons_self)]
    exact htail
  · next h =>
    by_cases hne : plan = []
    · subst hne
      rfl
    · have hagg : ∃ c ∈ plan, c.kind = .applyAgg := by simpa [hne] using h
      obtain ⟨ts, hts, -, hnone⟩ := exists_scans_of_agg hl hagg
      rw [parse, yylex_writeOutAll hl hts]
      exact hnone

structure WrittenInFull (c : AtomicComputation) : Prop where
  notAgg : c.kind ≠ .applyAgg
  keyValuePairs : c.keyValuePairs = .empty
  union : ∀ rightInput, c.kind = .union rightInput → c.projection = c.input
  writeSet : ∀ dbName setName, c.kind = .writeSet dbName setName → c.projection = c.input
  scanSet : ∀ setSpecifier pageSetSpecifier, c.kind = .scanSet setSpecifier pageSetSpecifier →
    c.input = .empty ∧ c.projection = .empty ∧ pageSetSpecifier = (0, [])

theorem reread_eq_iff {c : AtomicComputation} (hk : c.kind ≠ .applyAgg) :
    reread c = c ↔ WrittenInFull c := by
  obtain ⟨input, output, projection, computationName, keyValuePairs, kind⟩ := c
  cases kind with
  | applyAgg => exact absurd rfl hk
  | scanSet setSpecifier pageSetSpecifier =>
    constructor
    · intro h
      simp only [reread, AtomicComputation.mk.injEq, Kind.scanSet.injEq] at h
      obtain ⟨hi, -, hp, -, hkv, -, hpage⟩ := h
      refine ⟨nofun, hkv.symm, nofun, nofun, ?_⟩
      rintro _ _ ⟨⟩
      exact ⟨hi.symm, hp.symm, hpage.symm⟩
    · intro h
      obtain ⟨hi, hp, rfl⟩ := h.scanSet _ _ rfl
      simp only at hi hp
      simp [reread, hi, hp, h.keyValuePairs.symm]
  | _ =>
    constructor
    · intro h
      simp only [reread, AtomicComputation.mk.injEq] at h
      constructor <;> simp_all
    · rintro ⟨-, hkv, hunion, hwrite, hscan⟩
      simp_all [reread]

/-- What `getProducingAtomicComputation`, `getConsumingAtomicComputations` and `getAllScanSets` return is what the
list of the computations has: a name has the computations with this output, and those that read it in their order. -/
structure Represents (l : AtomicComputationList) (plan : List AtomicComputation) : Prop where
  produced : ∀ name, (l.producers name).toList.map l.objects = plan.filter (·.getOutputName = name)
  consumed : ∀ name, (l.consumers name).map l.objects = getConsumingAtomicComputations plan name
  scanned : l.getAllScanSets = getAllScanSets plan

theorem represents_build {plan : List AtomicComputation} (hn : (plan.map AtomicComputation.getOutputName).Nodup) :
    Represents (build plan) plan :=
  ⟨PlanTransformer.build_producers hn, PlanTransformer.build_consumers plan, PlanTransformer.build_getAllScanSets plan⟩

theorem Represents.nodup {l : AtomicComputationList} {plan : List AtomicComputation} (h : Represents l plan) :
    (plan.map AtomicComputation.getOutputName).Nodup := by
  rw [List.nodup_iff_count_le_one]
  intro name
  have hlen := congrArg List.length (h.produced name)
  rw [List.length_map] at hlen
  rw [List.count_eq_countP, List.countP_map, List.countP_eq_length_filter]
  calc (plan.filter ((· == name) ∘ AtomicComputation.getOutputName)).length
      = (plan.filter (·.getOutputName = name)).length := by simp [Function.comp_def, beq_eq_decide]
    _ = (l.producers name).toList.length := hlen.symm
    _ ≤ 1 := Option.length_toList_le

theorem reread_getOutputName (c : AtomicComputation) : (reread c).getOutputName = c.getOutputName := by
  unfold reread
  split <;> rfl

theorem Represents.reread_eq {plan : List AtomicComputation} (h : Represents (build (plan.map reread)) plan)
    {c : AtomicComputation} (hc : c ∈ plan) : reread c = c := by
  have hnames : (plan.map reread).map AtomicComputation.getOutputName =
      plan.map AtomicComputation.getOutputName := by
    rw [List.map_map]
    exact List.map_congr_left fun d _ => reread_getOutputName d
  -- no other computation has this output
  let own := plan.filter (·.getOutputName = c.getOutputName)
  have hown : own.map reread = own.map id := by
    have hproduced := h.produced c.getOutputName
    rw [PlanTransformer.build_producers (hnames ▸ h.nodup), List.filter_map] at hproduced
    simp only [Function.comp_def, reread_getOutputName] at hproduced
    rw [List.map_id]
    exact hproduced
  exact List.map_inj_left.mp hown c (List.mem_filter.mpr ⟨hc, decide_eq_true rfl⟩)

def RoundTrips (plan : List AtomicComputation) : Prop :=
  ∃ l, parse (writeOutAll plan) = some l ∧ Represents l plan

theorem roundTrips_iff (plan : List AtomicComputation) (hl : ∀ c ∈ plan, Legal c) :
    RoundTrips plan ↔ plan ≠ [] ∧ (plan.map AtomicComputation.getOutputName).Nodup ∧ ∀ c ∈ plan, WrittenInFull c := by
  unfold RoundTrips
  rw [parse_writeOutAll hl]
  constructor
  · rintro ⟨l, hparse, hrep⟩
    split at hparse
    · next hc =>
      cases hparse
      exact ⟨hc.1, hrep.nodup, fun c hm => (reread_eq_iff (hc.2 c hm)).mp (hrep.reread_eq hm)⟩
    · cases hparse
  · rintro ⟨hne, hn, hfull⟩
    rw [if_pos ⟨hne, fun c hc => (hfull c hc).notAgg⟩]
    have hmap : plan.map reread = plan.map id :=
      List.map_inj_left.mpr fun c hc => (reread_eq_iff (hfull c hc).notAgg).mpr (hfull c hc)
    rw [hmap, List.map_id]
    exact ⟨_, rfl, represents_build hn⟩

def personSpec (name : String) : TupleSpec := ⟨name.toList, ["person".toList]⟩

def scanPersons : AtomicComputation :=
  ⟨.empty, personSpec "inputData", .empty, "SetScanner_0".toList, .empty, .scanSet ("db".toList, "persons".toList) (0, [])⟩

def writePersons : AtomicComputation :=
  ⟨personSpec "inputData", ⟨"out".toList, []⟩, personSpec "inputData", "SetWriter_1".toList, .empty,
    .writeSet "db".toList "copy".toList⟩

theorem roundTrips_persons :
    (∀ c ∈ [scanPersons, writePersons], Legal c) ∧ RoundTrips [scanPersons, writePersons] := by
  refine ⟨by decide, (roundTrips_iff _ (by decide)).mpr ⟨by simp, by decide, ?_⟩⟩
  intro c hc
  simp only [List.mem_cons, List.not_mem_nil, or_false] at hc
  rcases hc with rfl | rfl
  · exact ⟨nofun, rfl, nofun, nofun, fun _ _ h => by cases h; exact ⟨rfl, rfl, rfl⟩⟩
  · exact ⟨nofun, rfl, nofun, fun _ _ _ => rfl, nofun⟩

def aggregatePersons : AtomicComputation :=
  ⟨personSpec "inputData", personSpec "agg", personSpec "inputData", "AggregationComp_1".toList, .empty, .applyAgg⟩

def keyOfPersons : AtomicComputation :=
  ⟨personSpec "inputData", ⟨"withKey".toList, ["person".toList, "key".toList]⟩, personSpec "inputData",
    "JoinComp_1".toList, KeyValueList.empty.appendkeyValuePair "lambdaType".toList "key".toList,
    .applyLambda "attAccess_0".toList⟩

def scanOthers : AtomicComputation :=
  ⟨.empty, personSpec "inputData", .empty, "SetScanner_1".toList, .empty, .scanSet ("db".toList, "others".toList) (0, [])⟩

theorem not_roundTrips_persons :
    ((∀ c ∈ [scanPersons, aggregatePersons], Legal c) ∧
      parse (writeOutAll [scanPersons, aggregatePersons]) = none) ∧
    ((∀ c ∈ [scanPersons, keyOfPersons], Legal c) ∧
      parse (writeOutAll [scanPersons, keyOfPersons]) =
        some (build [scanPersons, { keyOfPersons with keyValuePairs := .empty }]) ∧
      ¬ RoundTrips [scanPersons, keyOfPersons]) ∧
    (∀ c ∈ [scanPersons, scanOthers], Legal c) ∧
      parse (writeOutAll [scanPersons, scanOthers]) = some (build [scanPersons, scanOthers]) ∧
      (build [scanPersons, scanOthers]).producers "inputData".toList = some 1 ∧
      ¬ RoundTrips [scanPersons, scanOthers] := by
  refine ⟨⟨by decide, ?_⟩, ⟨by decide, ?_, ?_⟩, by decide, ?_, by decide, ?_⟩
  · rw [parse_writeOutAll (by decide), if_neg (by decide)]
  · rw [parse_writeOutAll (by decide), if_pos (by decide)]
    rfl
  · rintro ⟨l, hparse, hrep⟩
    rw [parse_writeOutAll (by decide), if_pos (by decide)] at hparse
    cases hparse
    have hread := hrep.reread_eq (c := keyOfPersons) (by simp)
    revert hread
    decide
  · rw [parse_writeOutAll (by decide), if_pos (by decide)]
    rfl
  · rintro ⟨l, -, hrep⟩
    have hn := hrep.nodup
    revert hn
    decide

end PlinyCompute.Tcap
