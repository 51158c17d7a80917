import Mathlib
import PlinyCompute.Catalog
import PlinyCompute.SetLocks

namespace PlinyCompute.AddData

open LogicalPlan Catalog SetLocks

structure DisAddData where
  databaseName : Text
  setName : Text
  typeName : Text

structure SimpleRequestResult where
  res : Bool
  errMsg : Text
  deriving DecidableEq

structure WorkerAnswer where
  address : Text
  acknowledged : Bool
  -- the text that a failure leaves behind
  errMsg : Text

structure CatalogRequest where
  -- the request gets to the catalog server
  arrives : Bool
  -- the exception of the SQL storage
  sqlError : Option Text
  workers : List WorkerAnswer
  -- the response gets back
  answered : Bool

def insertResult (updateResults : List (Text × Bool)) (w : WorkerAnswer) : List (Text × Bool) :=
  if w.address ∈ updateResults.map Prod.fst then updateResults
  else updateResults ++ [(w.address, w.acknowledged)]

def broadcastRequest (workers : List WorkerAnswer) : List (Text × Bool) := workers.foldl insertResult []

def CatalogRequest.handle (r : CatalogRequest) (update : PDBCatalog → PDBCatalog × Option Text) (c : PDBCatalog) :
    PDBCatalog × SimpleRequestResult :=
  let (c, error) := match r.sqlError with
    | some what => (c, some what)
    | none => update c
  let res := error.isNone && (broadcastRequest r.workers).all Prod.snd
  (c, ⟨res, r.workers.foldl (fun errMsg w => if w.acknowledged then errMsg else w.errMsg) (error.getD [])⟩)

def CatalogRequest.perform (r : CatalogRequest) (update : PDBCatalog → PDBCatalog × Option Text) (c : PDBCatalog) :
    PDBCatalog × SimpleRequestResult :=
  if r.arrives then
    let (c, result) := r.handle update c
    if r.answered then
      (c, if result.res then ⟨true, []⟩ else ⟨false, "Error updating set: ".toList ++ result.errMsg⟩)
    else (c, ⟨false, []⟩)
  else (c, ⟨false, []⟩)

structure Run where
  setAnswered : Bool
  setStates : SetStates
  updateContainer : CatalogRequest
  maxPageSize : UInt64
  -- the compressed payload, and its length before it was compressed if it can be read
  numBytes : UInt64
  uncompressedLength : Option UInt64
  increment : CatalogRequest
  activeNodes : List Text
  getNextNode : List Text → Text
  -- the response of the storage of a node
  dispatch : Text → Option SimpleRequestResult

namespace Run

def getSet (run : Run) (request : DisAddData) (c : PDBCatalog) : Option PDBCatalogSet :=
  if run.setAnswered then
    (c.getSet request.databaseName request.setName).filter fun set =>
      set.database = request.databaseName ∧ set.name = request.setName
  else none

def isWriteGranted (run : Run) (request : DisAddData) : Bool :=
  match tryUsingSet (request.databaseName, request.setName) .writingData run.setStates with
  | .ok (setLock, _) => setLock.state = .writingData
  | .error _ => false

def uncompressedSize (run : Run) : UInt64 := run.uncompressedLength.getD 0

def dispatchData (run : Run) (c : PDBCatalog) : PDBCatalog × SimpleRequestResult :=
  if run.activeNodes = [] then (c, ⟨false, "There are no nodes where we can dispatch the data to!".toList⟩)
  else
    match run.dispatch (run.getNextNode run.activeNodes) with
    | none => (c, ⟨false, []⟩)
    | some result =>
      (c, if result.res then ⟨true, []⟩ else ⟨false, "Error sending data: ".toList ++ result.errMsg⟩)

def receive (run : Run) (request : DisAddData) (c : PDBCatalog) : PDBCatalog × SimpleRequestResult :=
  if run.maxPageSize < run.numBytes then
    (c, ⟨false, "The compressed size is larger than the maximum page size".toList⟩)
  else if run.maxPageSize < run.uncompressedSize then
    (c, ⟨false, "The uncompressed size is larger than the maximum page size".toList⟩)
  else
    let (c, result) := run.increment.perform
      (·.incrementSetSize request.databaseName request.setName run.uncompressedSize) c
    if result.res then run.dispatchData c else (c, result)

def handleAddData (run : Run) (request : DisAddData) (c : PDBCatalog) : PDBCatalog × SimpleRequestResult :=
  let name := "The set (".toList ++ request.databaseName ++ ",".toList ++ request.setName
  match run.getSet request c with
  | none => (c, ⟨false, name ++ ") is does not exist!".toList⟩)
  | some set =>
    if ¬run.isWriteGranted request then (c, ⟨false, name ++ ") is already in use!".toList⟩)
    else
      match set.containerType with
      | .noContainer =>
        let (c, result) := run.updateContainer.perform
          (·.updateSetContainer set.database set.name .vectorContainer) c
        if result.res then run.receive request c
        else (c, ⟨false, "Could not update the container type of the set!".toList⟩)
      | .vectorContainer => run.receive request c
      | .mapContainer =>
        (c, ⟨false, "The container type of the set is not a vector. You can only add data to vector sets!".toList⟩)

end Run

def recorded (request : DisAddData) (c : PDBCatalog) : Option (UInt64 × PDBCatalogSetContainerType) :=
  (c.getSet request.databaseName request.setName).map fun set => (set.setSize, set.containerType)

def KeepsCatalog (run : Run) (request : DisAddData) (c : PDBCatalog) : Prop :=
  ((run.handleAddData request c).2.res = false → recorded request (run.handleAddData request c).1 = recorded request c) ∧
    ((run.handleAddData request c).2.res = true →
      ∃ size container size' container', recorded request c = some (size, container) ∧
        recorded request (run.handleAddData request c).1 = some (size', container') ∧
        size'.toNat = size.toNat + run.uncompressedSize.toNat)

def CatalogRequest.Stores (r : CatalogRequest) : Prop := r.arrives = true ∧ r.sqlError = none

def CatalogRequest.Confirmed (r : CatalogRequest) : Prop :=
  (broadcastRequest r.workers).all Prod.snd = true ∧ r.answered = true

namespace Run

def Fits (run : Run) : Prop := run.numBytes ≤ run.maxPageSize ∧ run.uncompressedSize ≤ run.maxPageSize

def Dispatches (run : Run) : Prop :=
  run.activeNodes ≠ [] ∧ ∃ errMsg, run.dispatch (run.getNextNode run.activeNodes) = some ⟨true, errMsg⟩

def Finishes (run : Run) (set : PDBCatalogSet) : Prop :=
  run.increment.Confirmed ∧ run.Dispatches ∧ set.setSize.toNat + run.uncompressedSize.toNat < 2 ^ 64

def Undisturbed (run : Run) (request : DisAddData) (c : PDBCatalog) : Prop :=
  ∀ set, run.getSet request c = some set → run.isWriteGranted request = true →
    match set.containerType with
    | .noContainer => run.updateContainer.Stores →
        run.updateContainer.Confirmed ∧ run.Fits ∧ run.increment.Stores ∧ run.Finishes set
    | .vectorContainer => run.Fits → run.increment.Stores → run.uncompressedSize ≠ 0 → run.Finishes set
    | .mapContainer => True

end Run

section Requests

variable {r : CatalogRequest} {c c' : PDBCatalog}

theorem perform_lost (h : ¬r.Stores) (update : PDBCatalog → PDBCatalog × Option Text) (c : PDBCatalog) :
    (r.perform update c).1 = c ∧ (r.perform update c).2.res = false := by
  unfold CatalogRequest.perform CatalogRequest.handle
  by_cases harrives : r.arrives = true
  · cases hsql : r.sqlError with
    | none => exact absurd ⟨harrives, hsql⟩ h
    | some what =>
      by_cases hanswered : r.answered = true
      · simp [harrives, hanswered]
      · simp [harrives, hanswered]
  · simp [harrives]

theorem perform_stored (h : r.Stores) (update : PDBCatalog → PDBCatalog × Option Text) (hupdate : update c = (c', none)) :
    (r.perform update c).1 = c' ∧ ((r.perform update c).2.res = true ↔ r.Confirmed) := by
  obtain ⟨harrives, hsql⟩ := h
  unfold CatalogRequest.perform CatalogRequest.handle CatalogRequest.Confirmed
  by_cases hanswered : r.answered = true
  · by_cases hall : (broadcastRequest r.workers).all Prod.snd = true
    · simp [harrives, hsql, hupdate, hanswered, hall]
    · simp [harrives, hsql, hupdate, hanswered, hall]
  · simp [harrives, hsql, hupdate, hanswered]

end Requests

section Recorded

variable {request : DisAddData} {c : PDBCatalog} {set : PDBCatalogSet}

theorem recorded_of_getSet (h : c.getSet request.databaseName request.setName = some set) :
    recorded request c = some (set.setSize, set.containerType) := by
  rw [recorded, h, Option.map_some]

theorem getSet_replace (c : PDBCatalog) (set : PDBCatalogSet) (hd : set.database = request.databaseName) (hn : set.name = request.setName) :
    (c.replace set).getSet request.databaseName request.setName = some set := by
  have hid : identifierOf request.databaseName request.setName = set.setIdentifier := by
    rw [set.identified, hd, hn]
  rw [PDBCatalog.getSet, hid]
  exact Function.update_self ..

theorem recorded_replace (c : PDBCatalog) (set : PDBCatalogSet) (hd : set.database = request.databaseName)
    (hn : set.name = request.setName) : recorded request (c.replace set) = some (set.setSize, set.containerType) :=
  recorded_of_getSet (getSet_replace c set hd hn)

end Recorded

namespace Run

theorem dispatchData_fst (run : Run) (c : PDBCatalog) : (run.dispatchData c).1 = c := by
  unfold dispatchData
  split_ifs
  · rfl
  · split <;> rfl

theorem dispatchData_res (run : Run) (c : PDBCatalog) : (run.dispatchData c).2.res = true ↔ run.Dispatches := by
  unfold dispatchData Dispatches
  by_cases hnodes : run.activeNodes = []
  · simp [hnodes]
  · rw [if_neg hnodes]
    cases hresult : run.dispatch (run.getNextNode run.activeNodes) with
    | none => simp
    | some result =>
      obtain ⟨res, errMsg⟩ := result
      cases res with
      | false => simp
      | true => simp [hnodes]

variable {run : Run} {request : DisAddData} {c : PDBCatalog} {set : PDBCatalogSet}

theorem getSet_eq_some (h : run.getSet request c = some set) :
    c.getSet request.databaseName request.setName = some set ∧ set.database = request.databaseName ∧
      set.name = request.setName := by
  unfold getSet at h
  split_ifs at h
  rw [Option.filter_eq_some_iff, decide_eq_true_eq] at h
  exact h

theorem receive_lost (h : ¬(run.Fits ∧ run.increment.Stores)) (request : DisAddData) (c : PDBCatalog) :
    (run.receive request c).1 = c ∧ (run.receive request c).2.res = false := by
  unfold receive
  split_ifs with hlarge hlarge'
  · exact ⟨rfl, rfl⟩
  · exact ⟨rfl, rfl⟩
  · have hstores : ¬run.increment.Stores := fun hstores =>
      h ⟨⟨UInt64.not_lt.mp hlarge, UInt64.not_lt.mp hlarge'⟩, hstores⟩
    obtain ⟨hcatalog, hres⟩ := perform_lost hstores
      (·.incrementSetSize request.databaseName request.setName run.uncompressedSize) c
    dsimp only
    rw [if_neg (by simp [hres])]
    exact ⟨hcatalog, hres⟩

theorem receive_stored (hfits : run.Fits) (hstores : run.increment.Stores)
    (hset : c.getSet request.databaseName request.setName = some set) :
    (run.receive request c).1 = c.replace { set with setSize := set.setSize + run.uncompressedSize } ∧
      ((run.receive request c).2.res = true ↔ run.increment.Confirmed ∧ run.Dispatches) := by
  have hupdate : c.incrementSetSize request.databaseName request.setName run.uncompressedSize =
      (c.replace { set with setSize := set.setSize + run.uncompressedSize }, none) := by
    rw [PDBCatalog.incrementSetSize, hset]
  obtain ⟨hcatalog, hres⟩ := perform_stored hstores
    (·.incrementSetSize request.databaseName request.setName run.uncompressedSize) hupdate
  unfold receive
  rw [if_neg (UInt64.not_lt.mpr hfits.1), if_neg (UInt64.not_lt.mpr hfits.2)]
  dsimp only
  by_cases hconfirmed : run.increment.Confirmed
  · rw [if_pos (hres.mpr hconfirmed), dispatchData_fst, dispatchData_res]
    exact ⟨hcatalog, by simp [hconfirmed]⟩
  · rw [if_neg fun h => hconfirmed (hres.mp h)]
    exact ⟨hcatalog, by simp [hres, hconfirmed]⟩

theorem handleAddData_refused (h : ∀ set, run.getSet request c = some set → ¬run.isWriteGranted request = true) :
    (run.handleAddData request c).1 = c ∧ (run.handleAddData request c).2.res = false := by
  unfold handleAddData
  cases hset : run.getSet request c with
  | none => exact ⟨rfl, rfl⟩
  | some set =>
    dsimp only
    rw [if_pos (h set hset)]
    exact ⟨rfl, rfl⟩

theorem handleAddData_granted (hset : run.getSet request c = some set) (hgranted : run.isWriteGranted request = true) :
    run.handleAddData request c = match set.containerType with
      | .noContainer =>
        let (c, result) := run.updateContainer.perform
          (·.updateSetContainer set.database set.name .vectorContainer) c
        if result.res then run.receive request c
        else (c, ⟨false, "Could not update the container type of the set!".toList⟩)
      | .vectorContainer => run.receive request c
      | .mapContainer =>
        (c, ⟨false, "The container type of the set is not a vector. You can only add data to vector sets!".toList⟩) := by
  unfold handleAddData
  rw [hset]
  dsimp only
  rw [if_neg (not_not.mpr hgranted)]

theorem handleAddData_typed (hset : run.getSet request c = some set) (hgranted : run.isWriteGranted request = true)
    (htype : set.containerType = .noContainer) (hstores : run.updateContainer.Stores) :
    (run.updateContainer.Confirmed → run.handleAddData request c =
        run.receive request (c.replace { set with containerType := .vectorContainer })) ∧
      (¬run.updateContainer.Confirmed →
        (run.handleAddData request c).1 = c.replace { set with containerType := .vectorContainer } ∧
          (run.handleAddData request c).2.res = false) := by
  obtain ⟨hrow, hd, hn⟩ := getSet_eq_some hset
  have hupdate : c.updateSetContainer set.database set.name .vectorContainer =
      (c.replace { set with containerType := .vectorContainer }, none) := by
    have hfound : c.getSet set.database set.name = some set := by
      rw [hd, hn]
      exact hrow
    rw [PDBCatalog.updateSetContainer, hfound]
  obtain ⟨hcatalog, hres⟩ := perform_stored hstores
    (·.updateSetContainer set.database set.name .vectorContainer) hupdate
  rw [handleAddData_granted hset hgranted, htype]
  dsimp only
  constructor
  · intro hconfirmed
    rw [if_pos (hres.mpr hconfirmed), hcatalog]
  · intro hconfirmed
    rw [if_neg fun h => hconfirmed (hres.mp h)]
    exact ⟨hcatalog, rfl⟩

end Run

section Kept

variable {run : Run} {request : DisAddData} {c : PDBCatalog} {set : PDBCatalogSet}

theorem KeepsCatalog.of_same (h : (run.handleAddData request c).1 = c)
    (hres : (run.handleAddData request c).2.res = false) : KeepsCatalog run request c := by
  refine ⟨fun _ => by rw [h], fun htrue => ?_⟩
  rw [hres] at htrue
  cases htrue

theorem toNat_add_iff (a b : UInt64) : (a + b).toNat = a.toNat + b.toNat ↔ a.toNat + b.toNat < 2 ^ 64 := by
  rw [UInt64.toNat_add]
  omega

theorem keepsCatalog_stored_iff {container : PDBCatalogSetContainerType}
    (hset : recorded request c = some (set.setSize, set.containerType))
    (hafter : recorded request (run.handleAddData request c).1 =
      some (set.setSize + run.uncompressedSize, container))
    (hres : (run.handleAddData request c).2.res = true ↔ run.increment.Confirmed ∧ run.Dispatches) :
    KeepsCatalog run request c ↔
      ((set.containerType = container ∧ run.uncompressedSize = 0) ∧ ¬(run.increment.Confirmed ∧ run.Dispatches)) ∨
        run.Finishes set := by
  have hgrown : set.setSize + run.uncompressedSize = set.setSize ↔ run.uncompressedSize = 0 := by
    rw [← UInt64.toNat_inj, ← UInt64.toNat_inj, UInt64.toNat_add]
    have := set.setSize.toNat_lt
    have := run.uncompressedSize.toNat_lt
    simp only [UInt64.toNat_zero]
    omega
  unfold KeepsCatalog Run.Finishes
  rw [hset, hafter]
  by_cases hends : run.increment.Confirmed ∧ run.Dispatches
  · have htrue := hres.mpr hends
    simp only [htrue, Bool.true_eq_false, false_implies, true_and, true_implies, hends.1, hends.2, and_self,
      not_true_eq_false, and_false, false_or]
    rw [← toNat_add_iff]
    constructor
    · rintro ⟨size, _, size', _, hbefore, hlater, hsum⟩
      cases hbefore
      cases hlater
      exact hsum
    · intro hsum
      exact ⟨_, _, _, _, rfl, rfl, hsum⟩
  · have hfalse : (run.handleAddData request c).2.res = false := by
      rw [← Bool.not_eq_true]
      exact fun h => hends (hres.mp h)
    simp only [hfalse, true_implies, Bool.false_eq_true, false_implies, and_true, hends, not_false_eq_true]
    constructor
    · intro hsame
      obtain ⟨hsize, hcontainer⟩ := Prod.mk.inj (Option.some.inj hsame)
      exact .inl ⟨hcontainer.symm, hgrown.mp hsize⟩
    · rintro (⟨hcontainer, hzero⟩ | ⟨hconfirmed, hdispatches, -⟩)
      · rw [hgrown.mpr hzero, hcontainer]
      · exact absurd ⟨hconfirmed, hdispatches⟩ hends

theorem keepsCatalog_vector_iff (hset : run.getSet request c = some set)
    (hgranted : run.isWriteGranted request = true) (htype : set.containerType = .vectorContainer) :
    KeepsCatalog run request c ↔
      (run.Fits → run.increment.Stores → run.uncompressedSize ≠ 0 → run.Finishes set) := by
  obtain ⟨hrow, hd, hn⟩ := Run.getSet_eq_some hset
  have hreceive : run.handleAddData request c = run.receive request c := by
    rw [Run.handleAddData_granted hset hgranted, htype]
  by_cases hstored : run.Fits ∧ run.increment.Stores
  · obtain ⟨hcatalog, hres⟩ := Run.receive_stored hstored.1 hstored.2 hrow
    rw [← hreceive] at hcatalog hres
    have hafter : recorded request (run.handleAddData request c).1 =
        some (set.setSize + run.uncompressedSize, set.containerType) := by
      rw [hcatalog]
      exact recorded_replace c { set with setSize := set.setSize + run.uncompressedSize } hd hn
    rw [keepsCatalog_stored_iff (recorded_of_getSet hrow) hafter hres]
    simp only [hstored.1, hstored.2, true_implies, true_and]
    constructor
    · rintro (⟨hzero, -⟩ | hfinishes) hnonzero
      · exact absurd hzero hnonzero
      · exact hfinishes
    · intro hfinishes
      by_cases hzero : run.uncompressedSize = 0
      · by_cases hends : run.increment.Confirmed ∧ run.Dispatches
        · refine .inr ⟨hends.1, hends.2, ?_⟩
          rw [hzero]
          exact set.setSize.toNat_lt
        · exact .inl ⟨hzero, hends⟩
      · exact .inr (hfinishes hzero)
  · obtain ⟨hcatalog, hres⟩ := Run.receive_lost hstored request c
    rw [← hreceive] at hcatalog hres
    exact iff_of_true (.of_same hcatalog hres) fun hfits hstores => absurd ⟨hfits, hstores⟩ hstored

theorem keepsCatalog_untyped_iff (hset : run.getSet request c = some set)
    (hgranted : run.isWriteGranted request = true) (htype : set.containerType = .noContainer) :
    KeepsCatalog run request c ↔ (run.updateContainer.Stores →
      run.updateContainer.Confirmed ∧ run.Fits ∧ run.increment.Stores ∧ run.Finishes set) := by
  obtain ⟨hrow, hd, hn⟩ := Run.getSet_eq_some hset
  by_cases hstores : run.updateContainer.Stores
  swap
  · refine iff_of_true ?_ fun h => absurd h hstores
    obtain ⟨hcatalog, hres⟩ := perform_lost hstores
      (·.updateSetContainer set.database set.name .vectorContainer) c
    have hlost := Run.handleAddData_granted hset hgranted
    rw [htype] at hlost
    dsimp only at hlost
    rw [if_neg (by simp [hres])] at hlost
    exact .of_same (by rw [hlost]; exact hcatalog) (by rw [hlost])
  have htyped : (c.replace { set with containerType := .vectorContainer }).getSet request.databaseName
      request.setName = some { set with containerType := .vectorContainer } :=
    getSet_replace c { set with containerType := .vectorContainer } hd hn
  -- once the type is stored a failure shows
  have hfailed (hafter : ∃ size, recorded request (run.handleAddData request c).1 = some (size, .vectorContainer))
      (hres : (run.handleAddData request c).2.res = false) : ¬KeepsCatalog run request c := by
    rintro ⟨hkept, -⟩
    obtain ⟨size, hafter⟩ := hafter
    have hsame := hkept hres
    rw [hafter, recorded_of_getSet hrow, htype] at hsame
    cases hsame
  obtain ⟨hconfirmed, hunconfirmed⟩ := Run.handleAddData_typed hset hgranted htype hstores
  simp only [hstores, true_implies]
  by_cases hanswer : run.updateContainer.Confirmed
  swap
  · obtain ⟨hcatalog, hres⟩ := hunconfirmed hanswer
    refine iff_of_false (hfailed ⟨set.setSize, ?_⟩ hres) fun h => hanswer h.1
    rw [hcatalog]
    exact recorded_of_getSet htyped
  have hreceive := hconfirmed hanswer
  by_cases hstored : run.Fits ∧ run.increment.Stores
  · obtain ⟨hcatalog, hres⟩ := Run.receive_stored hstored.1 hstored.2 htyped
    rw [← hreceive] at hcatalog hres
    have hafter : recorded request (run.handleAddData request c).1 =
        some (set.setSize + run.uncompressedSize, .vectorContainer) := by
      rw [hcatalog]
      exact recorded_replace _ { set with
        setSize := set.setSize + run.uncompressedSize, containerType := .vectorContainer } hd hn
    rw [keepsCatalog_stored_iff (recorded_of_getSet hrow) hafter hres]
    simp [htype, hanswer, hstored.1, hstored.2]
  · obtain ⟨hcatalog, hres⟩ := Run.receive_lost hstored request
      (c.replace { set with containerType := .vectorContainer })
    rw [← hreceive] at hcatalog hres
    refine iff_of_false (hfailed ⟨set.setSize, ?_⟩ hres) fun h => hstored ⟨h.2.1, h.2.2.1⟩
    rw [hcatalog]
    exact recorded_of_getSet htyped

end Kept

theorem keepsCatalog_iff (run : Run) (request : DisAddData) (c : PDBCatalog) :
    KeepsCatalog run request c ↔ run.Undisturbed request c := by
  unfold Run.Undisturbed
  cases hset : run.getSet request c with
  | none =>
    have hmissing : ∀ set, run.getSet request c ≠ some set := by simp [hset]
    obtain ⟨hsame, hres⟩ := Run.handleAddData_refused fun set h => absurd h (hmissing set)
    refine iff_of_true (.of_same hsame hres) ?_
    intro set h
    cases h
  | some set =>
    simp only [Option.some.injEq, forall_eq']
    by_cases hgranted : run.isWriteGranted request = true
    · simp only [hgranted, true_implies]
      cases htype : set.containerType with
      | noContainer => exact keepsCatalog_untyped_iff hset hgranted htype
      | vectorContainer => exact keepsCatalog_vector_iff hset hgranted htype
      | mapContainer =>
        have hsame := Run.handleAddData_granted hset hgranted
        rw [htype] at hsame
        exact iff_of_true (.of_same (by rw [hsame]) (by rw [hsame])) trivial
    · obtain ⟨hsame, hres⟩ := Run.handleAddData_refused fun set _ => hgranted
      exact iff_of_true (.of_same hsame hres) fun h => absurd h hgranted

def smoothRun (activeNodes : List Text) : Run where
  setAnswered := true
  setStates := fun _ => .unused
  updateContainer := ⟨true, none, [], true⟩
  maxPageSize := 1024
  numBytes := 7
  uncompressedLength := some 5
  increment := ⟨true, none, [], true⟩
  activeNodes := activeNodes
  getNextNode := fun nodes => nodes.headD []
  dispatch := fun _ => some ⟨true, []⟩

def oneSet : PDBCatalog :=
  PDBCatalog.empty.replace (PDBCatalogSet.of "db".toList "s".toList "T".toList 0 .noContainer)

theorem not_keepsCatalog_no_node : ¬KeepsCatalog (smoothRun []) ⟨"db".toList, "s".toList, "T".toList⟩ oneSet := by
  rintro ⟨hkept, -⟩
  have hsame := hkept (by decide +kernel)
  revert hsame
  decide +kernel

end PlinyCompute.AddData
