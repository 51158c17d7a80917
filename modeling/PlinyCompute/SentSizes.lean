import PlinyCompute.PageSizes

namespace PlinyCompute.PageSizes

open BufferManager SentPages PageForwarding Transition
open Function (update update_eq_self update_of_ne update_self)

variable {cfg : Config} {own : ℕ → Bool} {fe fe' fe'' : FrontEnd} {key : Key} {p : ℕ} {me : PDBPage} {result : BufGetPageResult}

def sizeOf (fe : FrontEnd) (key : Key) : Option PageSize :=
  (fe.sentPages key).map fun sent => (fe.manager.page sent.page).size

def handlesIn (fe : FrontEnd) (key : Key) : ℕ := ((fe.sentPages key).bind SentPage.release).isSome.toNat

structure Indexed (own : ℕ → Bool) (fe : FrontEnd) : Prop where
  held : AllHeld fe.manager
  sent : ∀ key, ∀ sent ∈ fe.sentPages key, sent.page < fe.manager.nextPage ∧ (fe.manager.page sent.page).key = key
  kept : ∀ q, own q = true → q < fe.manager.nextPage
  counted : ∀ q < fe.manager.nextPage,
    (own q).toNat + handlesIn fe (fe.manager.page q).key ≤ (fe.manager.page q).refCount

structure SameKeys (s s' : State) : Prop where
  nextPage : s.nextPage ≤ s'.nextPage
  key : ∀ q < s.nextPage, (s'.page q).key = (s.page q).key

structure Grows (fe fe' : FrontEnd) : Prop where
  keys : SameKeys fe.manager fe'.manager
  sizes : ∀ key size, sizeOf fe key = some size → sizeOf fe' key = some size

structure Resized (key : Key) (size : PageSize) (fe fe' : FrontEnd) : Prop where
  keys : SameKeys fe.manager fe'.manager
  sizes : sizeOf fe' = update (sizeOf fe) key (some size)

structure Describes (result : BufGetPageResult) (key : Key) (size : PageSize) : Prop where
  set : result.set = key.1.getD ⟨[], []⟩
  isAnonymous : result.isAnonymous = key.1.isNone
  pageNum : result.pageNum = key.2
  size : (⟨result.numBytes, result.sizeFrozen⟩ : PageSize) = size

theorem Describes.numBytes {size : PageSize} (h : Describes result key size) : result.numBytes = size.numBytes :=
  congrArg PageSize.numBytes h.size

theorem SameKeys.trans {s s' s'' : State} (h : SameKeys s s') (h' : SameKeys s' s'') : SameKeys s s'' where
  nextPage := h.nextPage.trans h'.nextPage
  key q hq := (h'.key q (hq.trans_le h.nextPage)).trans (h.key q hq)

theorem SameKeys.of_extends {s s' : State} (h : Extends s s') : SameKeys s s' := ⟨h.nextPage, h.sameKey⟩

theorem Grows.trans (h : Grows fe fe') (h' : Grows fe' fe'') : Grows fe fe'' where
  keys := h.keys.trans h'.keys
  sizes key size hsize := h'.sizes key size (h.sizes key size hsize)

theorem describe_eq (ha : me.isAnon = me.whichSet.isNone) (h : describe me = .ok result) : Describes result me.key me.size := by
  unfold describe at h
  cases hset : me.whichSet with
  | none =>
    rw [hset] at ha
    have hanon : me.isAnon = true := ha
    rw [if_pos hanon] at h
    cases h
    exact ⟨by rw [PDBPage.key, hset]; rfl, by rw [PDBPage.key, hset]; exact ha, rfl, rfl⟩
  | some set =>
    rw [hset] at ha h
    have hanon : ¬me.isAnon = true := by rw [ha]; exact nofun
    rw [if_neg hanon] at h
    cases h
    exact ⟨by rw [PDBPage.key, hset]; rfl, by rw [PDBPage.key, hset]; exact ha, rfl, rfl⟩

theorem sizeOf_eq {sent : SentPage} (h : fe.sentPages key = some sent) :
    sizeOf fe key = some (fe.manager.page sent.page).size := by rw [sizeOf, h, Option.map_some]

theorem exists_of_sizeOf {size : PageSize} (h : sizeOf fe key = some size) :
    ∃ sent, fe.sentPages key = some sent ∧ (fe.manager.page sent.page).size = size := Option.map_eq_some_iff.mp h

namespace Indexed

theorem exists_page (h : Indexed own fe) {size : PageSize} (hsize : sizeOf fe key = some size) :
    ∃ q < fe.manager.nextPage, (fe.manager.page q).key = key := by
  obtain ⟨sent, hsent, -⟩ := exists_of_sizeOf hsize
  obtain ⟨hlt, hkey⟩ := h.sent key sent hsent
  exact ⟨sent.page, hlt, hkey⟩

theorem page_eq (h : Indexed own fe) {sent : SentPage} (hsent : fe.sentPages key = some sent)
    (hp : p < fe.manager.nextPage) (hkey : (fe.manager.page p).key = key) : sent.page = p := by
  obtain ⟨hlt, hsame⟩ := h.sent key sent hsent
  exact h.held.eq_of_key hlt hp (hsame.trans hkey.symm)

theorem sizes_extend (h : Indexed own fe) {manager : State} (he : Extends fe.manager manager) :
    Grows fe { fe with manager := manager } := by
  refine ⟨.of_extends he, fun key size hsize => ?_⟩
  obtain ⟨sent, hsent, rfl⟩ := exists_of_sizeOf hsize
  rw [← he.sameSize _ (h.sent key sent hsent).1]
  exact sizeOf_eq hsent

theorem got_counted (h : Indexed own fe) {manager : State} (hgot : Got key p fe.manager manager) (q : ℕ)
    (hq : q < manager.nextPage) :
    (own q).toNat + handlesIn fe (manager.page q).key + (if q = p then 1 else 0) ≤ (manager.page q).refCount := by
  by_cases hold : q < fe.manager.nextPage
  · have hcount := h.counted q hold
    have hle := hgot.handles q hold
    rw [hgot.sameKey q hold]
    split_ifs with hqp
    · subst hqp
      have hlt := hgot.counted hold
      omega
    · omega
  · have hnew : handlesIn fe (manager.page q).key = 0 := by
      unfold handlesIn
      cases hsent : fe.sentPages (manager.page q).key with
      | none => rfl
      | some sent =>
        obtain ⟨hlt, hkey⟩ := h.sent _ sent hsent
        have heq := hgot.held.eq_of_key (hlt.trans_le hgot.nextPage) hq ((hgot.sameKey _ hlt).trans hkey)
        exact absurd (heq ▸ hlt) hold
    have hown : own q = false := Bool.eq_false_iff.mpr fun hown => hold (h.kept q hown)
    have hpos := hgot.held.held q hq
    rw [hnew, hown, Bool.toNat_false]
    split_ifs <;> omega

theorem got (h : Indexed own fe) {manager : State} (hgot : Got key p fe.manager manager) :
    Indexed own { fe with manager := manager } := by
  refine ⟨hgot.held, fun key sent hsent => ?_, fun q hq => (h.kept q hq).trans_le hgot.nextPage, fun q hq => ?_⟩
  · obtain ⟨hlt, hkey⟩ := h.sent key sent hsent
    exact ⟨hlt.trans_le hgot.nextPage, (hgot.sameKey _ hlt).trans hkey⟩
  · exact (Nat.le_add_right _ _).trans (h.got_counted hgot q hq)

theorem keep (h : Indexed own fe) {manager : State} (hgot : Got key p fe.manager manager) :
    Indexed (update own p true) { fe with manager := manager } := by
  refine { h.got hgot with kept := fun q hq => ?_, counted := fun q hq => ?_ }
  · by_cases hqp : q = p
    · rw [hqp]
      exact hgot.lt
    · rw [update_of_ne hqp] at hq
      exact (h.kept q hq).trans_le hgot.nextPage
  · have hcount := h.got_counted hgot q hq
    change (update own p true q).toNat + handlesIn fe _ ≤ _
    by_cases hqp : q = p
    · subst hqp
      rw [if_pos rfl] at hcount
      rw [update_self, Bool.toNat_true]
      change 1 + handlesIn fe (manager.page q).key ≤ (manager.page q).refCount
      omega
    · rw [update_of_ne hqp]
      exact (Nat.le_add_right _ _).trans hcount

end Indexed

theorem destroy_page {handle : Option ℕ} (hcount : ∀ q ∈ handle, 1 < (fe.manager.page q).refCount)
    (he : destroy cfg handle fe = .ok fe') : fe'.sentPages = fe.sentPages ∧ ∃ count : ℕ → ℕ,
      (∀ q, count q + (if q ∈ handle then 1 else 0) = (fe.manager.page q).refCount) ∧
      fe'.manager = { fe.manager with page := fun q => { fe.manager.page q with refCount := count q } } := by
  cases handle with
  | none =>
    cases he
    exact ⟨rfl, fun q => (fe.manager.page q).refCount, fun q => rfl, rfl⟩
  | some q =>
    have hq := hcount q rfl
    have hmany : (fe.manager.page q).refCount - 1 ≠ 0 := by omega
    obtain ⟨manager, hm, he⟩ := bind_eq_ok.mp he
    cases he
    unfold State.decRefCount at hm
    dsimp only at hm
    rw [if_pos hmany] at hm
    cases hm
    refine ⟨rfl, fun q' => if q' = q then (fe.manager.page q).refCount - 1 else (fe.manager.page q').refCount,
      fun q' => ?_, ?_⟩
    · dsimp only
      by_cases hq' : q' = q
      · subst hq'
        simp only [if_true, Option.mem_some_iff]
        omega
      · have hne : q' ∉ some q := fun hmem => hq' (Option.some.inj hmem).symm
        rw [if_neg hq', if_neg hne, Nat.add_zero]
    · have hpage : update fe.manager.page q { fe.manager.page q with refCount := (fe.manager.page q).refCount - 1 } =
          fun q' => { fe.manager.page q' with refCount :=
            if q' = q then (fe.manager.page q).refCount - 1 else (fe.manager.page q').refCount } := by
        funext q'
        by_cases hq' : q' = q
        · rw [hq', update_self, if_pos rfl]
        · rw [update_of_ne hq', if_neg hq']
      dsimp only [State.setPage]
      rw [hpage]

structure Sent (own : ℕ → Bool) (key : Key) (size : PageSize) (fe fe' : FrontEnd) : Prop extends Grows fe fe' where
  indexed : Indexed own fe'
  size : sizeOf fe' key = some size

theorem handlesIn_eq {sent : SentPage} (h : fe.sentPages key = some sent) : handlesIn fe key = sent.owned.toNat := by
  rw [handlesIn, h, Option.bind_some, SentPage.release]
  cases sent.owned <;> rfl

theorem Indexed.put (h : Indexed own fe) (owned : Bool) {fe₁ : FrontEnd} (hp : p < fe.manager.nextPage)
    (hcount : (own p).toNat + handlesIn fe (fe.manager.page p).key + owned.toNat ≤ (fe.manager.page p).refCount)
    (hpos : 1 ≤ (own p).toNat + owned.toNat)
    (he : destroy cfg ((fe.sentPages (fe.manager.page p).key).bind SentPage.release) fe₁ = .ok fe')
    (hmanager : fe₁.manager = fe.manager)
    (hsent : fe₁.sentPages = update fe.sentPages (fe.manager.page p).key (some ⟨p, owned⟩)) :
    Sent own (fe.manager.page p).key (fe.manager.page p).size fe fe' ∧
      ∀ q, ∃ count, fe'.manager.page q = { fe.manager.page q with refCount := count } := by
  -- the handle that is replaced is a handle of the page
  have hreplaced : ∀ q ∈ (fe.sentPages (fe.manager.page p).key).bind SentPage.release, q = p := by
    intro q hq
    obtain ⟨sent, hs, hrelease⟩ := Option.mem_bind_iff.mp hq
    have hpage := h.page_eq hs hp rfl
    unfold SentPage.release at hrelease
    split at hrelease
    · cases hrelease
      exact hpage
    · cases hrelease
  have hcounted : (if p ∈ (fe.sentPages (fe.manager.page p).key).bind SentPage.release then 1 else 0) =
      handlesIn fe (fe.manager.page p).key := by
    unfold handlesIn
    cases hb : (fe.sentPages (fe.manager.page p).key).bind SentPage.release with
    | none => rfl
    | some q =>
      have hq := hreplaced q hb
      rw [hq]
      exact if_pos rfl
  have hmany : ∀ q ∈ (fe.sentPages (fe.manager.page p).key).bind SentPage.release, 1 < (fe₁.manager.page q).refCount := by
    intro q hq
    have hqp := hreplaced q hq
    subst hqp
    rw [if_pos hq] at hcounted
    rw [hmanager]
    omega
  obtain ⟨hsent', count, hsum, hmanager'⟩ := destroy_page hmany he
  rw [hmanager] at hsum hmanager'
  have hnew : fe'.sentPages (fe.manager.page p).key = some ⟨p, owned⟩ := by rw [hsent', hsent, update_self]
  have hother : ∀ key ≠ (fe.manager.page p).key, fe'.sentPages key = fe.sentPages key := by
    intro key hne
    rw [hsent', hsent, update_of_ne hne]
  have hcount' : ∀ q ≠ p, count q = (fe.manager.page q).refCount := by
    intro q hq
    have hsumq := hsum q
    rwa [if_neg fun hmem => hq (hreplaced q hmem), Nat.add_zero] at hsumq
  have hcountp := hsum p
  rw [hcounted] at hcountp
  refine ⟨⟨⟨?_, fun key size hsize => ?_⟩, ⟨?_, fun key sent hs => ?_, fun q hq => ?_, fun q hq => ?_⟩, ?_⟩, fun q => ?_⟩
  · rw [hmanager']
    exact ⟨le_rfl, fun _ _ => rfl⟩
  · obtain ⟨sent, hs, rfl⟩ := exists_of_sizeOf hsize
    by_cases hk : key = (fe.manager.page p).key
    · subst hk
      rw [sizeOf_eq hnew, hmanager', h.page_eq hs hp rfl]
      rfl
    · rw [← hother key hk] at hs
      rw [sizeOf_eq hs, hmanager']
      rfl
  · rw [hmanager']
    refine h.held.recount fun q hq => ?_
    by_cases hqp : q = p
    · rw [hqp]
      omega
    · rw [hcount' q hqp]
      exact h.held.held q hq
  · rw [hmanager']
    by_cases hk : key = (fe.manager.page p).key
    · rw [hk, hnew] at hs
      cases hs
      exact ⟨hp, hk.symm⟩
    · exact h.sent key sent (hother key hk ▸ hs)
  · rw [hmanager']
    exact h.kept q hq
  · rw [hmanager'] at hq ⊢
    change (own q).toNat + handlesIn fe' (fe.manager.page q).key ≤ count q
    by_cases hqp : q = p
    · rw [hqp, handlesIn_eq hnew]
      change (own p).toNat + owned.toNat ≤ count p
      omega
    · have hk : (fe.manager.page q).key ≠ (fe.manager.page p).key := fun hk => hqp (h.held.eq_of_key hq hp hk)
      rw [handlesIn, hother _ hk, hcount' q hqp]
      exact h.counted q hq
  · rw [sizeOf_eq hnew, hmanager']
    rfl
  · rw [hmanager']
    exact ⟨count q, rfl⟩

theorem Indexed.sendPage (h : Indexed own fe) (hp : p < fe.manager.nextPage)
    (hcount : (own p).toNat + handlesIn fe (fe.manager.page p).key + 1 ≤ (fe.manager.page p).refCount)
    (he : sendPageToBackend cfg p fe = .ok (fe', result)) :
    Sent own (fe.manager.page p).key (fe.manager.page p).size fe fe' ∧
      Describes result (fe.manager.page p).key (fe.manager.page p).size := by
  obtain ⟨result', hdescribe, he⟩ := bind_eq_ok.mp he
  obtain ⟨fe₁, hdestroy, he⟩ := bind_eq_ok.mp he
  cases he
  obtain ⟨hput, -⟩ := h.put true hp hcount (Nat.le_add_left _ _) hdestroy rfl rfl
  exact ⟨hput, describe_eq (h.held.anon p hp) hdescribe⟩

theorem Indexed.sendGot (h : Indexed own fe) {manager : State} (hgot : Got key p fe.manager manager)
    (he : sendPageToBackend cfg p { fe with manager := manager } = .ok (fe', result)) :
    Sent own key (manager.page p).size fe fe' ∧ Describes result key (manager.page p).size := by
  have hcount := h.got_counted hgot p hgot.lt
  rw [if_pos rfl] at hcount
  obtain ⟨hsent, hdescribes⟩ := (h.got hgot).sendPage hgot.lt hcount he
  rw [show (FrontEnd.manager _).page p = manager.page p from rfl, hgot.keyed] at hsent hdescribes
  exact ⟨{ hsent with toGrows := (h.sizes_extend hgot.toExtends).trans hsent.toGrows }, hdescribes⟩

theorem Indexed.handleGetPage (h : Indexed own fe) {request : BufGetPageRequest}
    (he : handleGetPageRequest cfg request fe = .ok (fe', result)) : ∃ size,
      Sent own (some ⟨request.dbName, request.setName⟩, request.pageNumber) size fe fe' ∧
      Describes result (some ⟨request.dbName, request.setName⟩, request.pageNumber) size := by
  obtain ⟨manager, hm, he⟩ := bind_eq_ok.mp he
  exact ⟨_, h.sendGot ((getSetPage_got h.held).of_eq_ok hm) he⟩

theorem Indexed.handleGetAnonymousPage (h : Indexed own fe) {n : ℕ}
    (he : handleGetAnonymousPageRequest cfg n fe = .ok (fe', result)) : ∃ i size,
      Sent own (none, i) size fe fe' ∧ Describes result (none, i) size ∧ size.sizeFrozen = false ∧
      ∀ q < fe.manager.nextPage, (fe.manager.page q).key ≠ (none, i) := by
  obtain ⟨manager, hm, he⟩ := bind_eq_ok.mp he
  obtain ⟨hgot, -⟩ := (getPage_got h.held).of_eq_ok hm
  obtain ⟨hsent, hdescribes⟩ := h.sendGot hgot he
  refine ⟨_, _, hsent, hdescribes, hgot.unfrozen le_rfl, fun q hq hkey => ?_⟩
  obtain ⟨hset, hnum⟩ := Prod.mk.inj hkey
  have hle := h.held.numbered q hq hset
  omega

theorem Indexed.forward (h : Indexed own fe) {request : BufForwardPageRequest} (hp : own p = true)
    (hmark : mark cfg (fe.manager.page p).key p fe = .ok fe') (hd : describe (fe'.manager.page p) = .ok request) :
    Sent own (fe.manager.page p).key (fe.manager.page p).size fe fe' ∧
      Describes request (fe.manager.page p).key (fe.manager.page p).size := by
  have hlt := h.kept p hp
  have hpos : 1 ≤ (own p).toNat + false.toNat := by
    rw [hp]
    rfl
  obtain ⟨hput, hpage⟩ := h.put false hlt (h.counted p hlt) hpos hmark rfl rfl
  obtain ⟨count, hcount⟩ := hpage p
  rw [hcount] at hd
  exact ⟨hput, describe_eq (h.held.anon p hlt) hd⟩

theorem Indexed.resize (h : Indexed own fe) {sent : SentPage} (hsent : fe.sentPages key = some sent) {manager : State}
    (hkey : me.key = (fe.manager.page sent.page).key) (ha : me.isAnon = (fe.manager.page sent.page).isAnon)
    (href : me.refCount = (fe.manager.page sent.page).refCount)
    (hl : SameLabels (fe.manager.setPage sent.page me) manager) :
    Indexed own { fe with manager := manager } ∧ Resized key me.size fe { fe with manager := manager } := by
  have hpage : ∀ q, (manager.page q).key = (fe.manager.page q).key ∧
      (manager.page q).refCount = (fe.manager.page q).refCount := by
    intro q
    rw [hl.key, hl.refCount, setPage_page]
    split_ifs with hq
    · rw [hq]
      exact ⟨hkey, href⟩
    · exact ⟨rfl, rfl⟩
  have hpos := h.held.held _ (h.sent key sent hsent).1
  refine ⟨⟨(h.held.setPage hkey ha (href ▸ hpos)).congr hl, fun key' sent' hsent' => ?_, fun q hq => ?_, fun q hq => ?_⟩,
    ⟨Nat.le_of_eq hl.nextPage.symm, fun q _ => (hpage q).1⟩, ?_⟩
  · rw [hl.nextPage, (hpage _).1]
    exact h.sent key' sent' hsent'
  · rw [hl.nextPage]
    exact h.kept q hq
  · rw [hl.nextPage] at hq
    rw [(hpage q).1, (hpage q).2]
    exact h.counted q hq
  · funext key'
    by_cases hk : key' = key
    · subst hk
      have hsize : sizeOf { fe with manager := manager } key' = some (manager.page sent.page).size := sizeOf_eq hsent
      rw [update_self, hsize, hl.size, setPage_page, if_pos rfl]
    · rw [update_of_ne hk]
      unfold sizeOf
      cases hs : fe.sentPages key' with
      | none => rfl
      | some sent' =>
        have hne : sent'.page ≠ sent.page := by
          intro heq
          have hkey' := (h.sent key' sent' hs).2
          rw [heq, (h.sent key sent hsent).2] at hkey'
          exact hk hkey'.symm
        rw [Option.map_some, Option.map_some, hl.size, setPage_page, if_neg hne]

theorem handleFound_eq_ok (h : fe.handleFound key = .ok p) : ∃ sent, fe.sentPages key = some sent ∧ sent.page = p := by
  unfold FrontEnd.handleFound at h
  split at h
  · cases h
  · next sent hsent =>
    cases h
    exact ⟨sent, hsent, rfl⟩

theorem Indexed.handleFreezeSize (h : Indexed own fe) {r : BufFreezeSizeRequest} {outcome : Outcome}
    (he : fe.handleFreezeSizeRequest cfg r = .ok outcome) :
    Indexed own outcome.frontEnd ∧ Resized (r.set, r.pageNumber) ⟨cfg.sizeClass r.freezeSize, true⟩ fe outcome.frontEnd ∧
      outcome.response = .bufFreezeRequestResult true ∧ outcome.released = none := by
  obtain ⟨handle, hfound, he⟩ := bind_eq_ok.mp he
  obtain ⟨sent, hsent, rfl⟩ := handleFound_eq_ok hfound
  rw [hsent] at he
  obtain ⟨manager, hm, he⟩ := bind_eq_ok.mp he
  cases he
  obtain ⟨-, hl⟩ := freezeSize_labels.of_eq_ok hm
  obtain ⟨hindexed, hresized⟩ := h.resize hsent (by rfl) (by rfl) (by rfl) hl
  exact ⟨hindexed, hresized, rfl, rfl⟩

theorem Indexed.handlePinPage (h : Indexed own fe) {r : BufPinPageRequest} {outcome : Outcome}
    (he : fe.handlePinPageRequest cfg r = .ok outcome) :
    Indexed own outcome.frontEnd ∧ Grows fe outcome.frontEnd ∧
      (∃ offset, outcome.response = .bufPinPageResult offset true) ∧ outcome.released = none := by
  obtain ⟨handle, hfound, he⟩ := bind_eq_ok.mp he
  obtain ⟨sent, hsent, rfl⟩ := handleFound_eq_ok hfound
  rw [hsent] at he
  obtain ⟨manager, hm, he⟩ := bind_eq_ok.mp he
  cases he
  have hl := (SameLabels.repin h.held.referenced (h.sent _ sent hsent).1).of_eq_ok hm
  have hself : fe.manager.setPage sent.page (fe.manager.page sent.page) = fe.manager := by
    rw [State.setPage, update_eq_self]
  obtain ⟨hindexed, -⟩ := h.resize hsent rfl rfl rfl (hself.symm ▸ hl)
  exact ⟨hindexed, h.sizes_extend hl.extends, ⟨_, rfl⟩, rfl⟩

theorem Indexed.handleUnpinPage (h : Indexed own fe) {r : BufUnpinPageRequest} {outcome : Outcome}
    (he : fe.handleUnpinPageRequest cfg r = .ok outcome) :
    Indexed own outcome.frontEnd ∧ ∃ sent, fe.sentPages (r.set, r.pageNumber) = some sent ∧
      Resized (r.set, r.pageNumber) ⟨(fe.manager.page sent.page).location.numBytes,
        (fe.manager.page sent.page).sizeFrozen || (fe.manager.page sent.page).pinned⟩ fe outcome.frontEnd ∧
      outcome.response = .simpleRequestResult true [] ∧ outcome.released = none := by
  obtain ⟨handle, hfound, he⟩ := bind_eq_ok.mp he
  obtain ⟨sent, hsent, rfl⟩ := handleFound_eq_ok hfound
  rw [hsent] at he
  obtain ⟨manager, hm, he⟩ := bind_eq_ok.mp he
  cases he
  have hl : SameLabels (fe.manager.setPage sent.page { fe.manager.page sent.page with
      sizeFrozen := (fe.manager.page sent.page).sizeFrozen || (fe.manager.page sent.page).pinned }) manager := by
    have hl := unpin_labels.of_eq_ok hm
    cases hdirty : r.isDirty with
    | false =>
      simp only [hdirty, Bool.false_eq_true, and_false, if_false] at hl
      exact hl
    | true =>
      simp only [hdirty, Option.isSome_some, and_self, if_true] at hl
      -- marking the page as dirty does not change its size
      have hset : SameLabels fe.manager (fe.setDirty sent.page).manager := .setPage rfl
      refine SameLabels.trans (hset.setPage_congr sent.page ?_) hl
      rw [show (fe.setDirty sent.page).manager.page sent.page = { fe.manager.page sent.page with dirty := true } from
        update_self ..]
      rfl
  have hfe : ({ (if (some sent).isSome = true ∧ r.isDirty = true then fe.setDirty sent.page else fe) with
      manager := manager } : FrontEnd) = { fe with manager := manager } := by split <;> rfl
  obtain ⟨hindexed, hresized⟩ := h.resize hsent (by rfl) (by rfl) (by rfl) hl
  dsimp only
  rw [hfe]
  exact ⟨hindexed, sent, hsent, hresized, rfl, rfl⟩

end PlinyCompute.PageSizes
