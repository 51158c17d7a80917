import PlinyCompute.SizeRequests
import PlinyCompute.StorageHandlers

namespace PlinyCompute.Materialization

open BufferManager (Config getLogPageSize)
open StorageFrontend StorageHandlers Transition

abbrev Text := List Char

section Pages

structure Page (cfg : Config) where
  numBytes : ℕ
  bytes : List UInt8
  length_bytes : bytes.length = 2 ^ (cfg.logOfMinPageSize + numBytes)

structure SetPage (cfg : Config) where
  page : Page cfg
  sizeFrozen : Bool

variable {cfg : Config}

def Page.getSize (p : Page cfg) : ℕ := cfg.miniPageSize p.numBytes

def Page.write (p : Page cfg) (data : List UInt8) (h : data.length ≤ p.bytes.length) : Page cfg where
  numBytes := p.numBytes
  bytes := data ++ p.bytes.drop data.length
  length_bytes := by rw [List.length_append, List.length_drop, Nat.add_sub_cancel' h, p.length_bytes]

def Page.shrink (p : Page cfg) (k : ℕ) (h : k ≤ p.numBytes) : Page cfg where
  numBytes := k
  bytes := p.bytes.take (2 ^ (cfg.logOfMinPageSize + k))
  length_bytes := by
    rw [List.length_take, p.length_bytes]
    exact Nat.min_eq_left (Nat.pow_le_pow_right Nat.zero_lt_two (by omega))

end Pages

inductive Halt
  -- the process is at another point, or it waits
  | notThere
  | stop (s : Stop)
  -- bytes behind the end of a page are written
  | undefined
  -- the process ends itself
  | exit
  deriving DecidableEq

inductive ToFrontend
  | request
  | received
  | result (materializeSize : ℕ) (success hasNext : Bool)
  deriving DecidableEq

inductive ToBackend
  | response (success : Bool) (error : Text)
  | forward (page : ℕ)
  deriving DecidableEq

inductive Failure
  | forwarding
  | result
  deriving DecidableEq

inductive FrontendAt
  | idle
  | taking (j : ℕ)
  | getting (j page : ℕ)
  | forwarding (j page : ℕ)
  | waiting (j page : ℕ)
  | freezing (j page freezeSize : ℕ) (hasNext : Bool)
  | ending (j page freezeSize : ℕ) (hasNext : Bool)
  | givingUp (j page : ℕ) (failure : Failure)
  | informing (failure : Failure)
  | updating
  | ended (success : Bool) (error : Text)
  deriving DecidableEq

inductive BackendAt
  | starting
  | connected
  | waitingForResponse
  | expecting (i : ℕ)
  | acknowledging (i page : ℕ)
  | copying (i page : ℕ)
  | sending (i page : ℕ)
  | ended (success : Bool)
  deriving DecidableEq

inductive Update
  | done
  -- the catalog is changed, but the client does not get the response
  | unanswered
  | refused
  deriving DecidableEq

/-- Both processes, with what is on its way between them. `faulty` tells that an operation of one of them has failed,
`failedAt` in which round the front end has given up and `stored` which pages it has stored. -/
structure World (cfg : Config) where
  frontend : Frontend
  page : SetId → ℕ → SetPage cfg
  forwarding : SetId → ℕ → Bool
  -- the sizes of the sets that exist
  catalog : SetId → Option ℕ
  fe : FrontendAt
  be : BackendAt
  error : Text
  totalSize : ℕ
  toFrontend : List ToFrontend
  toBackend : List ToBackend
  broken : Bool
  faulty : Bool
  failedAt : Option ℕ
  stored : List ℕ

inductive Event
  | connect (success : Bool)
  | sendRequest (sent : Bool)
  | receiveResponse
  | expectPage
  | acknowledge (sent : Bool)
  | copy
  | sendResult (sent : Bool)
  | handle (sent : Bool) (what : Text)
  | takePage (first : ℕ)
  | forwardPage (sent : Bool)
  | receiveForwarded
  | receiveResult
  | freezePage
  | endWriting
  | giveUp
  | inform (update : Update) (what : Text)
  | update (update : Update) (what : Text)
  -- the connection breaks, and what is on its way is lost
  | cut
  deriving DecidableEq

section Source

variable {cfg : Config}

def SetPage.freezeSize (me : SetPage cfg) (numBytes : ℕ) : Except Halt (SetPage cfg) :=
  if me.sizeFrozen then .error .exit
  else
    match getLogPageSize cfg numBytes with
    | .error _ => .error .exit
    | .ok bytesRequired =>
      if h : bytesRequired ≤ me.page.numBytes then .ok ⟨me.page.shrink bytesRequired h, true⟩ else .error .exit

def SetPage.copy (me : SetPage cfg) (source : Page cfg) : Except Halt (SetPage cfg) :=
  if h : (source.bytes.take source.getSize).length ≤ me.page.bytes.length then
    .ok { me with page := me.page.write (source.bytes.take source.getSize) h }
  else .error .undefined

def nonexistent : Text := "The set requested to materialize results does not exist!".toList

def forwardError : Text := "Error occurred while forwarding the page to the backend.\n".toList

def backendFailed : Text := "Backend materializing the page failed!".toList

def FrontendAt.over : FrontendAt → Bool
  | .ended .. => true
  | _ => false

def BackendAt.over : BackendAt → Bool
  | .ended _ => true
  | _ => false

namespace World

variable (w : World cfg)

def setPage (set : SetId) (page : ℕ) (me : SetPage cfg) : World cfg :=
  { w with page := Function.update w.page set (Function.update (w.page set) page me) }

def mark (set : SetId) (page : ℕ) (forwarding : Bool) : World cfg :=
  { w with forwarding := Function.update w.forwarding set (Function.update (w.forwarding set) page forwarding) }

def sendFrontend (m : ToFrontend) : World cfg :=
  if w.broken then w else { w with toFrontend := w.toFrontend ++ [m] }

def sendBackend (m : ToBackend) : World cfg :=
  if w.broken then w else { w with toBackend := w.toBackend ++ [m] }

/-- The next object for the front end. It waits while there is none and the connection is up. -/
def frontendReceives : Except Halt (Option ToFrontend × World cfg) :=
  match w.toFrontend with
  | m :: ms => .ok (some m, { w with toFrontend := ms })
  | [] => if w.broken || w.be.over then .ok (none, w) else .error .notThere

def backendReceives : Except Halt (Option ToBackend × World cfg) :=
  match w.toBackend with
  | m :: ms => .ok (some m, { w with toBackend := ms })
  | [] => if w.broken || w.fe.over then .ok (none, w) else .error .notThere

def backendAt (x : BackendAt) : World cfg := { w with be := x }

def backendFails : World cfg := { w with be := .ended false, faulty := true }

def frontendAt (x : FrontendAt) : World cfg := { w with fe := x }

def frontendFails (j page : ℕ) (failure : Failure) : World cfg :=
  { w with fe := .givingUp j page failure, faulty := true, failedAt := some j }

def incrementCatalog (set : SetId) (update : Update) (what : Text) : Bool × World cfg :=
  match w.catalog set, update with
  | some size, .done => (true, { w with catalog := Function.update w.catalog set (some (size + w.totalSize)) })
  | some size, .unanswered => (false,
    { w with catalog := Function.update w.catalog set (some (size + w.totalSize)), error := what, faulty := true })
  | _, _ => (false, { w with error := what, faulty := true })

end World

variable (endReadsEmpty : Bool) (set : SetId) (pages : List (Page cfg))

def nextRound (i : ℕ) : BackendAt := if i + 1 < pages.length then .expecting (i + 1) else .ended true

def step (e : Event) (w : World cfg) : Except Halt (World cfg) :=
  match e with
  | .connect success =>
    match w.be with
    | .starting =>
      if pages.length = 0 then .ok (w.backendAt (.ended true))
      else if success then .ok (w.backendAt .connected) else .ok w.backendFails
    | _ => .error .notThere
  | .sendRequest sent =>
    match w.be with
    | .connected => if sent then .ok ((w.sendFrontend .request).backendAt .waitingForResponse) else .ok w.backendFails
    | _ => .error .notThere
  | .receiveResponse =>
    match w.be with
    | .waitingForResponse => do
      match ← w.backendReceives with
      | (some (.response true _), w) => .ok (w.backendAt (.expecting 0))
      | (_, w) => .ok w.backendFails
    | _ => .error .notThere
  | .expectPage =>
    match w.be with
    | .expecting i => do
      match ← w.backendReceives with
      | (some (.forward page), w) => .ok (w.backendAt (.acknowledging i page))
      | (_, w) => .ok w.backendFails
    | _ => .error .notThere
  | .acknowledge sent =>
    match w.be with
    | .acknowledging i page =>
      if sent then .ok ((w.sendFrontend .received).backendAt (.copying i page)) else .ok w.backendFails
    | _ => .error .notThere
  | .copy =>
    match w.be with
    | .copying i page =>
      match pages[i]? with
      | none => .error .undefined
      | some source => do
        let me ← (w.page set page).copy source
        .ok ((w.setPage set page me).backendAt (.sending i page))
    | _ => .error .notThere
  | .sendResult sent =>
    match w.be with
    | .sending i _ =>
      match pages[i]? with
      | none => .error .undefined
      | some source =>
        if sent then
          .ok ((w.sendFrontend (.result source.getSize true (i + 1 < pages.length))).backendAt (nextRound pages i))
        else .ok w.backendFails
    | _ => .error .notThere
  | .handle sent what =>
    match w.fe, w.toFrontend with
    | .idle, .request :: ms =>
      -- `success` is true either way
      let error := if (w.catalog set).isSome then [] else nonexistent
      let w := { w with toFrontend := ms, fe := .taking 0, error := error }
      if sent then .ok (w.sendBackend (.response true error)) else .ok { w with error := what, faulty := true }
    | _, _ => .error .notThere
  | .takePage first =>
    match w.fe with
    | .taking j =>
      match takePage endReadsEmpty w.frontend set first with
      | .error s => .error (.stop s)
      | .ok (page, f) => .ok { w with frontend := f, fe := .getting j page }
    | _ => .error .notThere
  | .forwardPage sent =>
    match w.fe with
    | .getting j page =>
      -- `initForwarding` waits for the end of a forward of the page
      if w.forwarding set page then .error .notThere
      else if sent then .ok (((w.mark set page true).sendBackend (.forward page)).frontendAt (.forwarding j page))
      else .ok ((w.mark set page true).frontendFails j page .forwarding)
    | _ => .error .notThere
  | .receiveForwarded =>
    match w.fe with
    | .forwarding j page => do
      match ← w.frontendReceives with
      | (some .received, w) => .ok ((w.mark set page false).frontendAt (.waiting j page))
      | (_, w) => .ok (w.frontendFails j page .forwarding)
    | _ => .error .notThere
  | .receiveResult =>
    match w.fe with
    | .waiting j page => do
      match ← w.frontendReceives with
      | (some (.result materializeSize true hasNext), w) =>
        .ok (w.frontendAt (.freezing j page materializeSize hasNext))
      | (none, w) => .ok (w.frontendFails j page .result)
      | (_, w) => .ok ({ w with error := backendFailed }.frontendFails j page .result)
    | _ => .error .notThere
  | .freezePage =>
    match w.fe with
    | .freezing j page freezeSize hasNext => do
      let me ← (w.page set page).freezeSize freezeSize
      .ok ((w.setPage set page me).frontendAt (.ending j page freezeSize hasNext))
    | _ => .error .notThere
  | .endWriting =>
    match w.fe with
    | .ending j page freezeSize hasNext =>
      match incrementSetSize (endWritingToPage w.frontend set page) set freezeSize with
      | .error s => .error (.stop s)
      | .ok f => .ok { w with
          frontend := f
          totalSize := w.totalSize + freezeSize
          stored := w.stored ++ [page]
          fe := if hasNext then .taking (j + 1) else .updating }
    | _ => .error .notThere
  | .giveUp =>
    match w.fe with
    | .givingUp _ page failure => .ok { w with
        frontend := freeSetPage (endWritingToPage w.frontend set page) set page
        fe := .informing failure }
    | _ => .error .notThere
  | .inform update what =>
    match w.fe with
    | .informing failure =>
      let w := if w.totalSize = 0 then w else (w.incrementCatalog set update what).2
      .ok (w.frontendAt (.ended false (match failure with
        | .forwarding => forwardError ++ w.error
        | .result => w.error)))
    | _ => .error .notThere
  | .update update what =>
    match w.fe with
    | .updating =>
      let (success, w) := w.incrementCatalog set update what
      .ok (w.frontendAt (.ended success w.error))
    | _ => .error .notThere
  | .cut => .ok { w with toFrontend := [], toBackend := [], broken := true }

end Source

section Specification

variable {cfg : Config} (set : SetId) (pages : List (Page cfg))

structure World.Starts (w : World cfg) : Prop where
  fe : w.fe = .idle
  be : w.be = .starting
  totalSize : w.totalSize = 0
  toFrontend : w.toFrontend = []
  toBackend : w.toBackend = []
  broken : w.broken = false
  faulty : w.faulty = false
  failedAt : w.failedAt = none
  stored : w.stored = []

def World.Over (w : World cfg) : Prop :=
  w.be.over = true ∧ (w.fe.over = true ∨ w.fe = .idle ∧ ToFrontend.request ∉ w.toFrontend)

def World.Succeeds (w : World cfg) : Prop := w.be = .ended true ∧ ∃ error, w.fe = .ended true error

def World.Fails (w : World cfg) : Prop := w.be = .ended false ∧ (w.fe = .idle ∨ ∃ error, w.fe = .ended false error)

def World.Valid (w : World cfg) (set : SetId) (p : ℕ) : Prop := isValid w.frontend set p = true

def totalOf (j : ℕ) : ℕ := ((pages.take j).map Page.getSize).sum

structure SameElsewhere (w₀ w : World cfg) : Prop where
  frontend : ∀ s ≠ set, w.frontend.pageStats.lookup s = w₀.frontend.pageStats.lookup s ∧
    marks w.frontend s = marks w₀.frontend s ∧ frees w.frontend s = frees w₀.frontend s
  page : ∀ s ≠ set, w.page s = w₀.page s
  catalog : ∀ s ≠ set, w.catalog s = w₀.catalog s

structure Gained (j : ℕ) (w₀ w : World cfg) : Prop where
  numbers : ∃ numbers : List ℕ, numbers.Nodup ∧ (∀ p ∈ numbers, ¬w₀.Valid set p) ∧
    (∀ p, w.Valid set p ↔ w₀.Valid set p ∨ p ∈ numbers) ∧
    numbers.map (fun p => (w.page set p).page) = pages.take j
  kept : ∀ p, w₀.Valid set p → w.page set p = w₀.page set p
  size : setSize w.frontend set = setSize w₀.frontend set + totalOf pages j
  catalog : w.catalog set = (w₀.catalog set).map (· + totalOf pages j)
  marks : ∀ p ∈ marks w.frontend set, p ∈ marks w₀.frontend set
  elsewhere : SameElsewhere set w₀ w

structure Outcome (w₀ w : World cfg) : Prop where
  missing : w₀.catalog set = none → w.Fails ∧ w.frontend = w₀.frontend ∧ w.page = w₀.page ∧ w.catalog = w₀.catalog
  complete : w₀.catalog set ≠ none → w.faulty = false → w.Succeeds ∧ Gained set pages pages.length w₀ w
  failed : w₀.catalog set ≠ none → w.faulty = true →
    w.Fails ∧ ∃ j, (w.failedAt = some j ∨ w.fe = .idle ∧ j = 0) ∧ j < pages.length ∧ Gained set pages j w₀ w

def FrontendAt.left (n : ℕ) : FrontendAt → ℕ
  | .idle => 8 * n + 9
  | .taking j => 8 * (n - j) + 8
  | .getting j _ => 8 * (n - j) + 7
  | .forwarding j _ => 8 * (n - j) + 6
  | .waiting j _ => 8 * (n - j) + 5
  | .freezing j .. => 8 * (n - j) + 4
  | .ending j .. => 8 * (n - j) + 3
  | .givingUp .. => 2
  | .informing _ => 1
  | .updating => 1
  | .ended .. => 0

def BackendAt.left (n : ℕ) : BackendAt → ℕ
  | .starting => 4 * n + 7
  | .connected => 4 * n + 6
  | .waitingForResponse => 4 * n + 5
  | .expecting i => 4 * (n - i) + 4
  | .acknowledging i _ => 4 * (n - i) + 3
  | .copying i _ => 4 * (n - i) + 2
  | .sending i _ => 4 * (n - i) + 1
  | .ended _ => 0

def World.left (w : World cfg) : ℕ := w.fe.left pages.length + w.be.left pages.length

def World.Defined (endReadsEmpty : Bool) (w : World cfg) : Prop :=
  endReadsEmpty = true ∨ w.frontend.freeSkippedPages set ≠ none

structure Handshake (endReadsEmpty : Bool) (w₀ w : World cfg) : Prop where
  outcome : w.Over → Outcome set pages w₀ w
  goesOn : ¬w.Over → w.Defined set endReadsEmpty → ∃ e w', e ≠ .cut ∧ step endReadsEmpty set pages e w = .ok w'
  ends : ∀ e w', e ≠ .cut → step endReadsEmpty set pages e w = .ok w' → w'.left pages < w.left pages

def Page.Small (p : Page cfg) : Prop := cfg.logOfMinPageSize + p.numBytes < 32

structure SetPage.Room (me : SetPage cfg) (source : Page cfg) : Prop where
  small : source.Small
  enough : source.numBytes ≤ me.page.numBytes
  unfrozen : me.sizeFrozen = false

def At (j : ℕ) (P : Page cfg → Prop) : Prop := ∃ source, pages[j]? = some source ∧ P source

def Event.Sound (endReadsEmpty : Bool) (e : Event) (w : World cfg) : Prop :=
  match e with
  | .handle .. => w.catalog set ≠ none
  | .takePage first => w.Defined set endReadsEmpty ∧
    (first ∈ frees w.frontend set → pageExists w.frontend set first = true) ∧
    ∀ j page f, w.fe = .taking j → StorageHandlers.takePage endReadsEmpty w.frontend set first = .ok (page, f) →
      At pages j (w.page set page).Room ∧ w.forwarding set page = false
  -- the last result is not lost
  | .sendResult sent => sent = true → w.broken = true → ∀ i page, w.be = .sending i page → i + 1 < pages.length
  | .cut => ∀ size success, ToFrontend.result size success false ∉ w.toFrontend
  | .inform result _ => w.totalSize ≠ 0 → result ≠ .refused
  | .update result _ => result = .done
  | _ => True

end Specification

end PlinyCompute.Materialization
