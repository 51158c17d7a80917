import Mathlib
import PlinyCompute.LogicalPlan
import PlinyCompute.Transition

namespace PlinyCompute.TypeIds

open Function LogicalPlan Transition

abbrev Library := List UInt8

structure PDBCatalogType where
  id : ℤ
  typeCategory : Text
  name : Text
  soBytes : Library

abbrev PDBCatalog := List PDBCatalogType

namespace PDBCatalog

def typeExists (c : PDBCatalog) (name : Text) : Bool := c.any fun t => t.name = name

def getType (c : PDBCatalog) (id : ℤ) : Option PDBCatalogType := c.find? fun t => t.id = id

def numRegisteredTypes (c : PDBCatalog) : ℕ := c.length

def registerType (c : PDBCatalog) (type : PDBCatalogType) : PDBCatalog × Option Text :=
  if c.typeExists type.name then (c, some "The type is already registered\n".toList) else (c ++ [type], none)

def initBuiltInType (c : PDBCatalog) (type : Text × ℤ) : PDBCatalog :=
  if c.typeExists type.1 then c else (c.registerType ⟨type.2, "built-in".toList, type.1, []⟩).1

end PDBCatalog

inductive Loading
  | noLibrary (dlerror : Text)
  | noFunction (dlerror : Text)
  | noRename
  | loaded

structure PDBCatalogNode (N : Type) where
  nodeID : N
  address : Text
  port : ℕ
  nodeType : Text
  active : Bool

structure Cluster (N : Type) where
  manager : N
  nodes : List (PDBCatalogNode N)
  builtInTypes : List (Text × ℤ)
  getObjectTypeName : Library → Text
  nonneg : ∀ type ∈ builtInTypes, 0 ≤ type.2
  codes : ∀ type ∈ builtInTypes, ∀ type' ∈ builtInTypes, type.2 = type'.2 → type.1 = type'.1

variable {N : Type}

def int16 (n : ℤ) : ℤ := n.bmod (2 ^ 16)

namespace Cluster

def initBuiltInTypes (cl : Cluster N) : PDBCatalog := cl.builtInTypes.foldl PDBCatalog.initBuiltInType []

def loadAndRegisterType (cl : Cluster N) (loading : Loading) (typeIDFromManagerCatalog : ℤ) (soFile : Library)
    (errMsg : Text) (c : PDBCatalog) : PDBCatalog × Bool × Text :=
  match loading with
  | .noLibrary dlerror => (c, false, "Could not load the shared library for the typeID : ".toList ++
      (toString typeIDFromManagerCatalog).toList ++ ", error was : ".toList ++ dlerror ++ "\n".toList)
  | .noFunction dlerror => (c, false,
      "Error, can't load function getObjectTypeName from the shared library. ".toList ++ dlerror ++ "\n".toList)
  | .noRename => (c, false, errMsg)
  | .loaded =>
    let typeName := cl.getObjectTypeName soFile
    if c.typeExists typeName then (c, true, errMsg)
    else
      let typeCode := if typeIDFromManagerCatalog = -1 then int16 (8192 + c.numRegisteredTypes)
        else typeIDFromManagerCatalog
      ((c.registerType ⟨typeCode, "user-defined".toList, typeName, soFile⟩).1, true, errMsg)

end Cluster

/-- A registration that the manager is broadcasting, with the nodes that it has still to go to. The results are kept by the
address of the node. -/
structure Broadcast (N : Type) where
  soFile : Library
  rest : List (PDBCatalogNode N)
  res : Bool
  errMsg : Text
  updateResults : List (Text × Bool)

inductive Reply
  | result (res : Bool) (errMsg : Text)
  | metadata (type : Option PDBCatalogType)

/-- `broadcasting` and `fetching` are requests whose handlers hold the mutex of their server; a handler that fetches has
got the library from the manager. -/
structure World (N : Type) where
  catalogs : N → PDBCatalog
  broadcasting : Option (Broadcast N)
  fetching : N → Option (ℤ × Library)
  replies : List Reply

inductive Delivery
  | unreachable
  | reached (loading : Loading) (answered : Bool)

inductive Event (N : Type)
  | register (soFile : Library) (loading : Loading)
  | forward (delivery : Delivery)
  | respond
  | request (node : N) (typeId : ℤ) (answered : Bool)
  | load (node : N) (loading : Loading)

def Cluster.start (cl : Cluster N) : World N := ⟨fun _ => cl.initBuiltInTypes, none, fun _ => none, []⟩

def World.reply (w : World N) (reply : Reply) : World N := { w with replies := w.replies ++ [reply] }

def Broadcast.insert (b : Broadcast N) (node : PDBCatalogNode N) (res : Bool) : Broadcast N :=
  if b.updateResults.any fun item => item.1 = node.address then b
  else { b with updateResults := b.updateResults ++ [(node.address, res)] }

def failedRequest (node : PDBCatalogNode N) (error : Text) : Text :=
  "Error failed request to node : ".toList ++ node.address ++ ":".toList ++ (toString node.port).toList ++
    ". Error is :".toList ++ error

variable [DecidableEq N]

def World.setCatalog (w : World N) (node : N) (c : PDBCatalog) : World N :=
  { w with catalogs := update w.catalogs node c }

namespace Cluster

variable (cl : Cluster N)

/-- The next round of `broadcastRequest`. The node registers the type under a number of its own. -/
def forward (delivery : Delivery) (b : Broadcast N) (w : World N) : Except Unit (World N) :=
  match b.rest with
  | [] => .error ()
  | node :: rest =>
    let b := { b with rest := rest }
    if ¬node.active ∨ node.nodeType = "manager".toList then .ok { w with broadcasting := some b }
    else
      match delivery with
      | .unreachable => .ok { w with broadcasting := some (b.insert node false) }
      | .reached loading answered =>
        if (w.fetching node.nodeID).isSome then .error ()
        else
          let r := cl.loadAndRegisterType loading (-1) b.soFile [] (w.catalogs node.nodeID)
          let errMsg := if answered ∧ ¬r.2.1 then failedRequest node r.2.2 else b.errMsg
          .ok { w.setCatalog node.nodeID r.1 with
            broadcasting := some (({ b with errMsg := errMsg }).insert node (answered ∧ r.2.1)) }

def request (node : N) (typeId : ℤ) (answered : Bool) (w : World N) : Except Unit (World N) :=
  if (w.fetching node).isSome ∨ node = cl.manager ∧ w.broadcasting.isSome then .error ()
  else
    match (w.catalogs node).getType typeId with
    | some type => .ok (w.reply (.metadata (some type)))
    | none =>
      if node = cl.manager ∨ ¬answered then .ok (w.reply (.metadata none))
      else if w.broadcasting.isSome then .error ()
      else
        match (w.catalogs cl.manager).getType typeId with
        | none => .ok (w.reply (.metadata none))
        | some type =>
          if type.soBytes = [] then .ok (w.reply (.metadata none))
          else .ok { w with fetching := update w.fetching node (some (typeId, type.soBytes)) }

def load (node : N) (loading : Loading) (w : World N) : Except Unit (World N) :=
  match w.fetching node with
  | none => .error ()
  | some (typeId, bytes) =>
    let r := cl.loadAndRegisterType loading typeId bytes [] (w.catalogs node)
    let found := if r.2.1 then (r.1.getType typeId).map fun type => { type with soBytes := bytes } else none
    .ok { (w.setCatalog node r.1).reply (.metadata found) with fetching := update w.fetching node none }

def step : Event N → World N → Except Unit (World N)
  | .register soFile loading, w =>
    if w.broadcasting.isSome then .error ()
    else
      let r := cl.loadAndRegisterType loading (-1) soFile [] (w.catalogs cl.manager)
      .ok { w.setCatalog cl.manager r.1 with broadcasting := some ⟨soFile, cl.nodes, r.2.1, r.2.2, []⟩ }
  | .forward delivery, w =>
    match w.broadcasting with
    | none => .error ()
    | some b => cl.forward delivery b w
  | .respond, w =>
    match w.broadcasting with
    | some ⟨_, [], res, errMsg, updateResults⟩ =>
      .ok { w.reply (.result (res && updateResults.all (·.2)) errMsg) with broadcasting := none }
    | _ => .error ()
  | .request node typeId answered, w => cl.request node typeId answered w
  | .load node loading, w => cl.load node loading w

end Cluster

structure IdsAgree (w : World N) : Prop where
  distinct : ∀ node, ∀ t ∈ w.catalogs node, ∀ u ∈ w.catalogs node, t.id = u.id → t.name = u.name
  agree : ∀ node node', ∀ t ∈ w.catalogs node, ∀ u ∈ w.catalogs node', t.name = u.name → t.id = u.id

def CountFits (w : World N) (node : N) (name : Text) : Prop :=
  (w.catalogs node).typeExists name = false →
    (∀ t ∈ w.catalogs node, t.id ≠ 8192 + (w.catalogs node).numRegisteredTypes) ∧
      ∀ node', ∀ t ∈ w.catalogs node', t.name = name → t.id = 8192 + (w.catalogs node).numRegisteredTypes

def Cluster.Numbered (cl : Cluster N) : Event N → World N → Prop
  | .register soFile .loaded, w => CountFits w cl.manager (cl.getObjectTypeName soFile)
  | .forward (.reached .loaded _), w => ∀ b ∈ w.broadcasting, ∀ node ∈ b.rest.head?, node.active = true →
      node.nodeType ≠ "manager".toList → CountFits w node.nodeID (cl.getObjectTypeName b.soFile)
  | _, _ => True

def World.Within (w : World N) : Prop := ∀ node, (w.catalogs node).numRegisteredTypes < 2 ^ 15 - 8192

theorem typeExists_eq_false {c : PDBCatalog} {name : Text} : c.typeExists name = false ↔ ∀ t ∈ c, t.name ≠ name := by
  simp [PDBCatalog.typeExists]

theorem getType_eq_some {c : PDBCatalog} {id : ℤ} {t : PDBCatalogType} (h : c.getType id = some t) : t ∈ c ∧ t.id = id :=
  ⟨List.mem_of_find?_eq_some h, by simpa using List.find?_some h⟩

theorem getType_eq_none {c : PDBCatalog} {id : ℤ} (h : c.getType id = none) : ∀ t ∈ c, t.id ≠ id := by
  simpa [PDBCatalog.getType] using h

omit [DecidableEq N] in
theorem IdsAgree.of_same {w w' : World N} (h : w'.catalogs = w.catalogs) : IdsAgree w' ↔ IdsAgree w := by
  constructor
  · rintro ⟨hd, ha⟩
    rw [h] at hd ha
    exact ⟨hd, ha⟩
  · rintro ⟨hd, ha⟩
    exact ⟨by rw [h]; exact hd, by rw [h]; exact ha⟩

theorem mem_added {w w' : World N} {node node' : N} {t u : PDBCatalogType}
    (hw : w'.catalogs = update w.catalogs node (w.catalogs node ++ [t])) :
    u ∈ w'.catalogs node' ↔ u ∈ w.catalogs node' ∨ node' = node ∧ u = t := by
  rw [hw]
  by_cases hn : node' = node
  · rw [hn, update_self, List.mem_append, List.mem_singleton]
    tauto
  · rw [update_of_ne hn]
    tauto

theorem IdsAgree.of_added {w w' : World N} {node : N} {t : PDBCatalogType} (h : IdsAgree w)
    (hnew : ∀ u ∈ w.catalogs node, u.name ≠ t.name)
    (hw : w'.catalogs = update w.catalogs node (w.catalogs node ++ [t])) :
    IdsAgree w' ↔ (∀ u ∈ w.catalogs node, u.id ≠ t.id) ∧
      ∀ node', ∀ u ∈ w.catalogs node', u.name = t.name → u.id = t.id := by
  have hmem : ∀ node' u, u ∈ w'.catalogs node' ↔ u ∈ w.catalogs node' ∨ node' = node ∧ u = t := fun _ _ => mem_added hw
  have ht : t ∈ w'.catalogs node := (hmem node t).mpr (Or.inr ⟨rfl, rfl⟩)
  constructor
  · intro h'
    refine ⟨fun u hu hid => hnew u hu ?_, fun node' u hu hname => ?_⟩
    · exact h'.distinct node u ((hmem node u).mpr (Or.inl hu)) t ht hid
    · exact h'.agree node' node u ((hmem node' u).mpr (Or.inl hu)) t ht hname
  · rintro ⟨hfresh, hsame⟩
    refine ⟨fun node' u hu v hv hid => ?_, fun node₁ node₂ u hu v hv hname => ?_⟩
    · rcases (hmem node' u).mp hu with hu | ⟨rfl, rfl⟩
      · rcases (hmem node' v).mp hv with hv | ⟨rfl, rfl⟩
        · exact h.distinct node' u hu v hv hid
        · exact absurd hid (hfresh u hu)
      · rcases (hmem node' v).mp hv with hv | ⟨-, rfl⟩
        · exact absurd hid.symm (hfresh v hv)
        · rfl
    · rcases (hmem node₁ u).mp hu with hu | ⟨rfl, rfl⟩
      · rcases (hmem node₂ v).mp hv with hv | ⟨rfl, rfl⟩
        · exact h.agree node₁ node₂ u hu v hv hname
        · exact hsame node₁ u hu hname
      · rcases (hmem node₂ v).mp hv with hv | ⟨-, rfl⟩
        · exact (hsame node₂ v hv hname.symm).symm
        · rfl

theorem int16_eq {n : ℕ} (h : n < 2 ^ 15 - 8192) : int16 (8192 + n) = 8192 + n :=
  Int.bmod_eq_of_le (by omega) (by omega)

namespace Cluster

variable {cl : Cluster N} {w w' : World N}

structure Sane (cl : Cluster N) (w : World N) : Prop where
  agree : IdsAgree w
  named : ∀ node, ∀ t ∈ w.catalogs node, t.soBytes ≠ [] → cl.getObjectTypeName t.soBytes = t.name
  nonneg : ∀ node, ∀ t ∈ w.catalogs node, 0 ≤ t.id
  fetched : ∀ node typeId bytes, w.fetching node = some (typeId, bytes) → node ≠ cl.manager ∧ bytes ≠ [] ∧
    (∃ t ∈ w.catalogs cl.manager, t.id = typeId ∧ t.soBytes = bytes) ∧ ∀ t ∈ w.catalogs node, t.id ≠ typeId

def row (cl : Cluster N) (c : PDBCatalog) (typeId : ℤ) (soFile : Library) : PDBCatalogType :=
  ⟨if typeId = -1 then int16 (8192 + c.numRegisteredTypes) else typeId, "user-defined".toList,
    cl.getObjectTypeName soFile, soFile⟩

omit [DecidableEq N] in
theorem loadAndRegisterType_cases (cl : Cluster N) (loading : Loading) (typeId : ℤ) (soFile : Library) (errMsg : Text)
    (c : PDBCatalog) :
    (cl.loadAndRegisterType loading typeId soFile errMsg c).1 = c ∧
        (loading = .loaded → c.typeExists (cl.getObjectTypeName soFile) = true) ∨
      loading = .loaded ∧ c.typeExists (cl.getObjectTypeName soFile) = false ∧
        (cl.loadAndRegisterType loading typeId soFile errMsg c).1 = c ++ [cl.row c typeId soFile] := by
  cases loading with
  | noLibrary _ | noFunction _ | noRename => exact Or.inl ⟨rfl, nofun⟩
  | loaded =>
    unfold loadAndRegisterType
    dsimp only
    by_cases hn : c.typeExists (cl.getObjectTypeName soFile) = true
    · rw [if_pos hn]
      exact Or.inl ⟨rfl, fun _ => hn⟩
    · rw [Bool.not_eq_true] at hn
      rw [if_neg (by rw [hn]; exact Bool.false_ne_true)]
      refine Or.inr ⟨rfl, hn, ?_⟩
      dsimp only
      rw [PDBCatalog.registerType, if_neg (by rw [hn]; exact Bool.false_ne_true)]
      rfl

omit [DecidableEq N] in
theorem row_id_own (c : PDBCatalog) (soFile : Library) :
    (cl.row c (-1) soFile).id = int16 (8192 + c.numRegisteredTypes) := by
  unfold row
  dsimp only
  rw [if_pos rfl]

omit [DecidableEq N] in
theorem row_id {typeId : ℤ} (h : 0 ≤ typeId) (c : PDBCatalog) (soFile : Library) :
    (cl.row c typeId soFile).id = typeId := if_neg (by omega)

inductive Stepped (cl : Cluster N) (w : World N) : Event N → World N → Prop
  | kept {e : Event N} {w' : World N} : cl.Numbered e w → w'.catalogs = w.catalogs →
      (∀ node x, w'.fetching node = some x → w.fetching node = some x) → Stepped cl w e w'
  | own {e : Event N} {w' : World N} {node : N} {soFile : Library} : w.fetching node = none →
      (w.catalogs node).typeExists (cl.getObjectTypeName soFile) = false →
      (cl.Numbered e w ↔ CountFits w node (cl.getObjectTypeName soFile)) →
      w'.catalogs = update w.catalogs node (w.catalogs node ++ [cl.row (w.catalogs node) (-1) soFile]) →
      w'.fetching = w.fetching → Stepped cl w e w'
  | asked {e : Event N} {w' : World N} {node : N} {typeId : ℤ} {type : PDBCatalogType} : cl.Numbered e w →
      node ≠ cl.manager → (w.catalogs node).getType typeId = none →
      (w.catalogs cl.manager).getType typeId = some type → type.soBytes ≠ [] → w'.catalogs = w.catalogs →
      w'.fetching = update w.fetching node (some (typeId, type.soBytes)) → Stepped cl w e w'
  | fetched {e : Event N} {w' : World N} {node : N} {typeId : ℤ} {bytes : Library} : cl.Numbered e w →
      w.fetching node = some (typeId, bytes) →
      (w.catalogs node).typeExists (cl.getObjectTypeName bytes) = false →
      w'.catalogs = update w.catalogs node (w.catalogs node ++ [cl.row (w.catalogs node) typeId bytes]) →
      w'.fetching = update w.fetching node none → Stepped cl w e w'

theorem setCatalog_catalogs (w : World N) (node : N) (c : PDBCatalog) :
    (w.setCatalog node c).catalogs = update w.catalogs node c := rfl

omit [DecidableEq N] in
theorem countFits_of_exists {node : N} {name : Text} (h : (w.catalogs node).typeExists name = true) :
    CountFits w node name := by
  intro hn
  rw [hn] at h
  cases h

theorem forward_stepped {delivery : Delivery} {b : Broadcast N} (hb : w.broadcasting = some b)
    (he : cl.forward delivery b w = .ok w') : Stepped cl w (.forward delivery) w' := by
  unfold forward at he
  cases hrest : b.rest with
  | nil =>
    rw [hrest] at he
    cases he
  | cons node rest =>
    rw [hrest] at he
    dsimp only at he
    -- the nodes that are passed over, and the ones that are asked
    by_cases hskip : ¬node.active = true ∨ node.nodeType = "manager".toList
    · rw [if_pos hskip] at he
      cases he
      refine .kept ?_ rfl fun _ _ => id
      cases delivery with
      | unreachable => trivial
      | reached loading answered =>
        cases loading with
        | noLibrary _ | noFunction _ | noRename => trivial
        | loaded =>
          rintro b' hb' node' hnode' hactive htype
          cases hb.symm.trans hb'
          rw [hrest] at hnode'
          cases hnode'
          rcases hskip with hs | hs
          · exact absurd hactive hs
          · exact absurd hs htype
    · rw [if_neg hskip] at he
      cases delivery with
      | unreachable =>
        cases he
        exact .kept trivial rfl fun _ _ => id
      | reached loading answered =>
        dsimp only at he
        by_cases hf : (w.fetching node.nodeID).isSome = true
        · rw [if_pos hf] at he
          cases he
        · rw [if_neg hf] at he
          cases he
          have hnone : w.fetching node.nodeID = none := by simpa using hf
          obtain ⟨hactive, htype⟩ := not_or.mp hskip
          have hnum : cl.Numbered (.forward (.reached .loaded answered)) w ↔
              CountFits w node.nodeID (cl.getObjectTypeName b.soFile) := by
            constructor
            · intro h
              exact h b hb node (by rw [hrest]; rfl) (not_not.mp hactive) htype
            · rintro h b' hb' node' hnode' - -
              cases hb.symm.trans hb'
              rw [hrest] at hnode'
              cases hnode'
              exact h
          rcases cl.loadAndRegisterType_cases loading (-1) b.soFile [] (w.catalogs node.nodeID) with
            ⟨hsame, hexists⟩ | ⟨rfl, hnew, hadd⟩
          · refine .kept ?_ ?_ fun _ _ => id
            · cases loading with
              | noLibrary _ | noFunction _ | noRename => trivial
              | loaded => exact hnum.mpr (countFits_of_exists (hexists rfl))
            · dsimp only
              rw [setCatalog_catalogs, hsame, update_eq_self]
          · refine .own hnone hnew hnum ?_ rfl
            dsimp only
            rw [setCatalog_catalogs, hadd]

theorem request_stepped {node : N} {typeId : ℤ} {answered : Bool} (he : cl.request node typeId answered w = .ok w') :
    Stepped cl w (.request node typeId answered) w' := by
  unfold request at he
  by_cases hbusy : (w.fetching node).isSome = true ∨ node = cl.manager ∧ w.broadcasting.isSome = true
  · rw [if_pos hbusy] at he
    cases he
  rw [if_neg hbusy] at he
  cases hlocal : (w.catalogs node).getType typeId with
  | some type =>
    rw [hlocal] at he
    cases he
    exact .kept trivial rfl fun _ _ => id
  | none =>
    rw [hlocal] at he
    dsimp only at he
    by_cases hman : node = cl.manager ∨ ¬answered = true
    · rw [if_pos hman] at he
      cases he
      exact .kept trivial rfl fun _ _ => id
    rw [if_neg hman] at he
    by_cases hlock : w.broadcasting.isSome = true
    · rw [if_pos hlock] at he
      cases he
    rw [if_neg hlock] at he
    cases hremote : (w.catalogs cl.manager).getType typeId with
    | none =>
      rw [hremote] at he
      cases he
      exact .kept trivial rfl fun _ _ => id
    | some type =>
      rw [hremote] at he
      dsimp only at he
      by_cases hbytes : type.soBytes = []
      · rw [if_pos hbytes] at he
        cases he
        exact .kept trivial rfl fun _ _ => id
      · rw [if_neg hbytes] at he
        cases he
        exact .asked trivial (not_or.mp hman).1 hlocal hremote hbytes rfl rfl

theorem load_stepped {node : N} {loading : Loading} (he : cl.load node loading w = .ok w') :
    Stepped cl w (.load node loading) w' := by
  unfold load at he
  cases hf : w.fetching node with
  | none =>
    rw [hf] at he
    cases he
  | some x =>
    obtain ⟨typeId, bytes⟩ := x
    rw [hf] at he
    cases he
    have hless : ∀ node' x, update w.fetching node none node' = some x → w.fetching node' = some x := by
      intro node' x hx
      by_cases hn : node' = node
      · rw [hn, update_self] at hx
        cases hx
      · rwa [update_of_ne hn] at hx
    rcases cl.loadAndRegisterType_cases loading typeId bytes [] (w.catalogs node) with
      ⟨hsame, -⟩ | ⟨-, hnew, hadd⟩
    · refine .kept trivial ?_ hless
      dsimp only [World.reply]
      rw [setCatalog_catalogs, hsame, update_eq_self]
    · refine .fetched trivial hf hnew ?_ rfl
      dsimp only [World.reply]
      rw [setCatalog_catalogs, hadd]

theorem Sane.stepped (h : cl.Sane w) {e : Event N} (he : cl.step e w = .ok w') : Stepped cl w e w' := by
  cases e with
  | register soFile loading =>
    dsimp only [step] at he
    by_cases hlock : w.broadcasting.isSome = true
    · rw [if_pos hlock] at he
      cases he
    rw [if_neg hlock] at he
    cases he
    have hnone : w.fetching cl.manager = none := by
      cases hf : w.fetching cl.manager with
      | none => rfl
      | some x => exact absurd rfl (h.fetched cl.manager x.1 x.2 hf).1
    rcases cl.loadAndRegisterType_cases loading (-1) soFile [] (w.catalogs cl.manager) with
      ⟨hsame, hexists⟩ | ⟨rfl, hnew, hadd⟩
    · refine .kept ?_ ?_ fun _ _ => id
      · cases loading with
        | noLibrary _ | noFunction _ | noRename => trivial
        | loaded => exact countFits_of_exists (hexists rfl)
      · dsimp only
        rw [setCatalog_catalogs, hsame, update_eq_self]
    · refine .own hnone hnew Iff.rfl ?_ rfl
      dsimp only
      rw [setCatalog_catalogs, hadd]
  | forward delivery =>
    dsimp only [step] at he
    cases hb : w.broadcasting with
    | none =>
      rw [hb] at he
      cases he
    | some b =>
      rw [hb] at he
      exact forward_stepped hb he
  | respond =>
    dsimp only [step] at he
    split at he
    · cases he
      exact .kept trivial rfl fun _ _ => id
    · cases he
  | request node typeId answered => exact request_stepped he
  | load node loading => exact load_stepped he

theorem Sane.agree_fetched (h : cl.Sane w) {node : N} {typeId : ℤ} {bytes : Library}
    (hf : w.fetching node = some (typeId, bytes))
    (hnew : (w.catalogs node).typeExists (cl.getObjectTypeName bytes) = false)
    (hw : w'.catalogs = update w.catalogs node (w.catalogs node ++ [cl.row (w.catalogs node) typeId bytes])) :
    IdsAgree w' := by
  obtain ⟨-, hbytes, ⟨type, htype, rfl, rfl⟩, hfresh⟩ := h.fetched node typeId bytes hf
  have hname := h.named _ type htype hbytes
  have hid : (cl.row (w.catalogs node) type.id type.soBytes).id = type.id := row_id (h.nonneg _ type htype) _ _
  refine (IdsAgree.of_added h.agree (typeExists_eq_false.mp hnew) hw).mpr ⟨fun u hu => ?_, fun node' u hu huname => ?_⟩
  · rw [hid]
    exact hfresh u hu
  · rw [hid]
    exact h.agree.agree node' cl.manager u hu type htype (huname.trans hname)

theorem Sane.agree_step_iff (h : cl.Sane w) (hw : w.Within) {e : Event N} (hs : Stepped cl w e w') :
    IdsAgree w' ↔ cl.Numbered e w := by
  cases hs with
  | kept hnum hcat _ | asked hnum _ _ _ _ hcat _ => exact iff_of_true ((IdsAgree.of_same hcat).mpr h.agree) hnum
  | fetched hnum hf hnew hcat _ => exact iff_of_true (h.agree_fetched hf hnew hcat) hnum
  | @own node soFile _ hnew hnum hcat _ =>
    have hid : (cl.row (w.catalogs node) (-1) soFile).id = 8192 + (w.catalogs node).numRegisteredTypes := by
      rw [row_id_own, int16_eq (hw node)]
    rw [hnum, IdsAgree.of_added h.agree (typeExists_eq_false.mp hnew) hcat, hid]
    exact ⟨fun hfit _ => hfit, fun hfit => hfit hnew⟩

theorem Sane.of_added (h : cl.Sane w) (ha : IdsAgree w') {node : N} {typeId : ℤ} {soFile : Library}
    (hid : 0 ≤ (cl.row (w.catalogs node) typeId soFile).id)
    (hw : w'.catalogs = update w.catalogs node (w.catalogs node ++ [cl.row (w.catalogs node) typeId soFile]))
    (hf : ∀ node' x, w'.fetching node' = some x → node' ≠ node ∧ w.fetching node' = some x) : cl.Sane w' := by
  refine ⟨ha, fun node' t ht hbytes => ?_, fun node' t ht => ?_, fun node' typeId' bytes hx => ?_⟩
  · rcases (mem_added hw).mp ht with ht | ⟨-, rfl⟩
    · exact h.named node' t ht hbytes
    · rfl
  · rcases (mem_added hw).mp ht with ht | ⟨-, rfl⟩
    · exact h.nonneg node' t ht
    · exact hid
  · obtain ⟨hne, hx⟩ := hf node' (typeId', bytes) hx
    obtain ⟨hman, hbytes, ⟨t, ht, hfacts⟩, hfresh⟩ := h.fetched node' typeId' bytes hx
    refine ⟨hman, hbytes, ⟨t, (mem_added hw).mpr (Or.inl ht), hfacts⟩, fun u hu => ?_⟩
    rcases (mem_added hw).mp hu with hu | ⟨hn, -⟩
    · exact hfresh u hu
    · exact absurd hn hne

theorem Sane.step (h : cl.Sane w) (hw : w.Within) {e : Event N} (hs : Stepped cl w e w') (hn : cl.Numbered e w) :
    cl.Sane w' := by
  have ha := (h.agree_step_iff hw hs).mpr hn
  cases hs with
  | kept _ hcat hf =>
    refine ⟨ha, by rw [hcat]; exact h.named, by rw [hcat]; exact h.nonneg, fun node typeId bytes hx => ?_⟩
    rw [hcat]
    exact h.fetched node typeId bytes (hf _ _ hx)
  | @own node soFile hnone _ _ hcat hf =>
    refine h.of_added ha ?_ hcat fun node' x hx => ?_
    · rw [row_id_own, int16_eq (hw node)]
      omega
    · rw [hf] at hx
      refine ⟨?_, hx⟩
      rintro rfl
      rw [hnone] at hx
      cases hx
  | @asked node typeId type _ hman hlocal hremote hbytes hcat hf =>
    refine ⟨ha, by rw [hcat]; exact h.named, by rw [hcat]; exact h.nonneg, fun node' typeId' bytes hx => ?_⟩
    rw [hf] at hx
    rw [hcat]
    by_cases hnode : node' = node
    · subst hnode
      rw [update_self] at hx
      cases hx
      obtain ⟨htype, hid⟩ := getType_eq_some hremote
      exact ⟨hman, hbytes, ⟨type, htype, hid, rfl⟩, getType_eq_none hlocal⟩
    · rw [update_of_ne hnode] at hx
      exact h.fetched node' typeId' bytes hx
  | @fetched node typeId bytes _ hfetch _ hcat hf =>
    obtain ⟨-, -, ⟨type, htype, rfl, -⟩, -⟩ := h.fetched node typeId bytes hfetch
    have hnonneg := h.nonneg _ type htype
    refine h.of_added ha ?_ hcat fun node' x hx => ?_
    · rw [row_id hnonneg]
      exact hnonneg
    · rw [hf] at hx
      by_cases hnode : node' = node
      · rw [hnode, update_self] at hx
        cases hx
      · rw [update_of_ne hnode] at hx
        exact ⟨hnode, hx⟩

omit [DecidableEq N] in
theorem mem_initBuiltInTypes {t : PDBCatalogType} (h : t ∈ cl.initBuiltInTypes) :
    t.soBytes = [] ∧ (t.name, t.id) ∈ cl.builtInTypes := by
  have hfold : ∀ (types : List (Text × ℤ)) (c : PDBCatalog), t ∈ types.foldl PDBCatalog.initBuiltInType c →
      t ∈ c ∨ t.soBytes = [] ∧ (t.name, t.id) ∈ types := by
    intro types
    induction types with
    | nil => exact fun c ht => Or.inl ht
    | cons type types ih =>
      intro c ht
      rcases ih _ ht with ht | ⟨hbytes, ht⟩
      · unfold PDBCatalog.initBuiltInType at ht
        by_cases hex : c.typeExists type.1 = true
        · rw [if_pos hex] at ht
          exact Or.inl ht
        · rw [if_neg hex, PDBCatalog.registerType, if_neg hex, List.mem_append, List.mem_singleton] at ht
          exact ht.imp_right fun heq => by rw [heq]; exact ⟨rfl, List.mem_cons_self⟩
      · exact Or.inr ⟨hbytes, List.mem_cons_of_mem _ ht⟩
  exact (hfold _ _ h).resolve_left List.not_mem_nil

omit [DecidableEq N] in
theorem initBuiltInTypes_names (cl : Cluster N) : (cl.initBuiltInTypes.map (·.name)).Nodup := by
  have hfold : ∀ (types : List (Text × ℤ)) (c : PDBCatalog), (c.map (·.name)).Nodup →
      ((types.foldl PDBCatalog.initBuiltInType c).map (·.name)).Nodup := by
    intro types
    induction types with
    | nil => exact fun c hc => hc
    | cons type types ih =>
      intro c hc
      refine ih _ ?_
      unfold PDBCatalog.initBuiltInType
      by_cases hex : c.typeExists type.1 = true
      · rw [if_pos hex]
        exact hc
      · rw [if_neg hex, PDBCatalog.registerType, if_neg hex, List.map_append, List.nodup_append]
        refine ⟨hc, List.nodup_singleton _, ?_⟩
        rintro name hname name' hname' rfl
        obtain ⟨t, ht, rfl⟩ := List.mem_map.mp hname
        rw [List.map_singleton, List.mem_singleton] at hname'
        exact typeExists_eq_false.mp (Bool.not_eq_true _ ▸ hex) t ht hname'
  exact hfold _ _ List.nodup_nil

omit [DecidableEq N] in
theorem sane_start (cl : Cluster N) : cl.Sane cl.start := by
  refine ⟨⟨fun _ t ht u hu hid => ?_, fun _ _ t ht u hu hname => ?_⟩, fun _ t ht hbytes => ?_, fun _ t ht => ?_,
    fun _ _ _ h => nomatch h⟩
  · exact cl.codes _ (mem_initBuiltInTypes ht).2 _ (mem_initBuiltInTypes hu).2 hid
  · exact congrArg PDBCatalogType.id (List.inj_on_of_nodup_map cl.initBuiltInTypes_names ht hu hname)
  · exact absurd (mem_initBuiltInTypes ht).1 hbytes
  · exact cl.nonneg _ (mem_initBuiltInTypes ht).2

end Cluster

theorem idsAgree_iff (cl : Cluster N) (w : World N)
    (h : Reachable cl.step (fun e w => w.Within ∧ cl.Numbered e w) (· = cl.start) w) :
    IdsAgree w ∧ ∀ e w', w.Within → cl.step e w = .ok w' → (IdsAgree w' ↔ cl.Numbered e w) := by
  have hs : cl.Sane w := by
    refine h.invariant ?_ fun e w w' hw he hstep => hw.step he.1 (hw.stepped hstep) he.2
    rintro w rfl
    exact cl.sane_start
  exact ⟨hs.agree, fun e w' hw he => hs.agree_step_iff hw (hs.stepped he)⟩

instance {n : ℕ} (w : World (Fin n)) : Decidable w.Within :=
  inferInstanceAs (Decidable (∀ node, (w.catalogs node).numRegisteredTypes < 2 ^ 15 - 8192))

instance {n : ℕ} (w : World (Fin n)) (node : Fin n) (name : Text) : Decidable (CountFits w node name) :=
  inferInstanceAs (Decidable (_ → (∀ t ∈ w.catalogs node, _) ∧ ∀ node', ∀ t ∈ w.catalogs node', _))

instance {n : ℕ} (cl : Cluster (Fin n)) (w : World (Fin n)) : ∀ e : Event (Fin n), Decidable (cl.Numbered e w)
  | .register soFile .loaded => inferInstanceAs (Decidable (CountFits w cl.manager (cl.getObjectTypeName soFile)))
  | .forward (.reached .loaded _) => inferInstanceAs (Decidable (∀ b ∈ w.broadcasting, ∀ node ∈ b.rest.head?,
      node.active = true → node.nodeType ≠ "manager".toList → CountFits w node.nodeID (cl.getObjectTypeName b.soFile)))
  | .register _ (.noLibrary _) | .register _ (.noFunction _) | .register _ .noRename | .forward .unreachable
  | .forward (.reached (.noLibrary _) _) | .forward (.reached (.noFunction _) _) | .forward (.reached .noRename _)
  | .respond | .request _ _ _ | .load _ _ => inferInstanceAs (Decidable True)

local instance neZeroTwo : NeZero 2 := ⟨by decide⟩

def smallCluster : Cluster (Fin 2) where
  manager := 0
  nodes := [⟨0, "10.0.0.1".toList, 8108, "manager".toList, true⟩, ⟨1, "10.0.0.2".toList, 8109, "worker".toList, true⟩]
  builtInTypes := [("pdb::Nothing".toList, 0)]
  getObjectTypeName := fun bytes => bytes.map fun b => Char.ofNat b.toNat
  nonneg := by decide
  codes := by decide

theorem idsAgree_fetched : ∃ w : World (Fin 2), (w.catalogs 1).map (·.id) = [0, 8193, 8194] ∧ IdsAgree w := by
  have hrun : (runAll smallCluster.step (fun e w => w.Within ∧ smallCluster.Numbered e w)
      [.register [65] .loaded, .forward .unreachable, .forward (.reached .loaded true), .respond,
        .register [66] .loaded, .forward .unreachable, .forward .unreachable, .respond,
        .request 1 8194 true, .load 1 .loaded] smallCluster.start).any
      (fun w => (w.catalogs 1).map (·.id) = [0, 8193, 8194]) = true := by decide +kernel
  obtain ⟨w, hw, hids⟩ := (Option.any_eq_true _ _).mp hrun
  refine ⟨w, of_decide_eq_true hids, (idsAgree_iff smallCluster w ?_).1⟩
  exact Reachable.of_runAll (fun e w h => of_decide_eq_true h) (Reachable.start rfl) hw

theorem not_idsAgree_missed : ∃ w : World (Fin 2),
    Reachable smallCluster.step (fun _ w => w.Within) (· = smallCluster.start) w ∧ ¬IdsAgree w := by
  have hrun : (runAll smallCluster.step (fun _ w => w.Within)
      [.register [65] .loaded, .forward .unreachable, .forward .unreachable, .respond,
        .register [66] .loaded, .forward .unreachable, .forward (.reached .loaded true)] smallCluster.start).any
      (fun w => ∃ t ∈ w.catalogs 0, ∃ u ∈ w.catalogs 1, t.name = u.name ∧ t.id ≠ u.id) = true := by decide +kernel
  obtain ⟨w, hw, hp⟩ := (Option.any_eq_true _ _).mp hrun
  obtain ⟨t, ht, u, hu, hname, hid⟩ := of_decide_eq_true hp
  refine ⟨w, ?_, fun h => hid (h.agree 0 1 t ht u hu hname)⟩
  exact Reachable.of_runAll (fun e w h => of_decide_eq_true h) (Reachable.start rfl) hw

end PlinyCompute.TypeIds
