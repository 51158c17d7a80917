import PlinyCompute.SentSizes

namespace PlinyCompute.PageSizes

open BufferManager SentPages PageForwarding Transition
open Function (update update_eq_self update_of_ne update_self)

variable {cfg : Config} {w w' : World} {key : Key} {me : PDBPage} {t : ℕ}

def Phase.object : Phase → Option Key
  | .idle => none
  | .requesting object _ => object
  | .responding object _ => object

def standsFor (key : Key) : Key := if key.1 = some ⟨[], []⟩ then (none, key.2) else key

def Owns (w : World) (i : ℕ) : Prop :=
  ∃ p, w.ownHandles p = true ∧ (w.frontEnd.manager.page p).key = (none, i)

def Asks (fe : FrontEnd) (key : Key) (me : PDBPage) : Request → Prop
  | .getPage r => key = (some ⟨r.dbName, r.setName⟩, r.pageNumber) ∧ key.1 ≠ some ⟨[], []⟩
  | .getAnonymousPage _ => False
  | .sent request => request.key = me.key ∧ ¬request.Returns ∧ sizeOf fe me.key = some me.size

def Answers (fe : FrontEnd) (key : Key) (me : PDBPage) : Result → Prop
  | .getPage r => key.1 ≠ none ∧ key.1 ≠ some ⟨[], []⟩ ∧ ∃ size, Describes r key size ∧ sizeOf fe key = some size
  | .response (.bufFreezeRequestResult _) => sizeOf fe me.key = some ⟨me.location.numBytes, true⟩
  | .response _ => sizeOf fe me.key = some me.size

def Brings (w : World) (i : ℕ) (result : Result) : Prop :=
  ∃ r size, result = .getPage r ∧ Describes r (none, i) size ∧ size.sizeFrozen = false ∧
    sizeOf w.frontEnd (none, i) = some size ∧ w.allPages (none, i) = none ∧ ¬Owns w i

def Fits (w : World) : Phase → Prop
  | .idle => True
  | .requesting none request => ∃ n, request = .getAnonymousPage n
  | .requesting (some key) request => ∃ me, w.allPages key = some me ∧ working me = true ∧ Asks w.frontEnd key me request
  | .responding none result => ∃ i, Brings w i result
  | .responding (some key) result => ∃ me, w.allPages key = some me ∧ working me = true ∧ Answers w.frontEnd key me result

structure Forwarded (w : World) (key : Key) (request : BufForwardPageRequest) : Prop where
  described : ∃ size, Describes request key size
  named : key.1 ≠ some ⟨[], []⟩
  owned : key.1 = none → Owns w key.2
  size : ∃ flag, sizeOf w.frontEnd key = some ⟨request.numBytes, flag⟩

structure Coherent (w : World) : Prop where
  indexed : Indexed w.ownHandles w.frontEnd
  ownNamed : ∀ p, w.ownHandles p = true → (w.frontEnd.manager.page p).key.1 ≠ some ⟨[], []⟩
  named : ∀ key me, w.allPages key = some me → me.key = standsFor key
  forwarded : ∀ i me, w.allPages (some ⟨[], []⟩, i) = some me → Owns w i
  requested : ∀ i me, w.allPages (none, i) = some me → ¬Owns w i ∧
    ∃ q < w.frontEnd.manager.nextPage, (w.frontEnd.manager.page q).key = (none, i)
  settled : ∀ key me, w.allPages key = some me → working me = false → sizeOf w.frontEnd me.key = some me.size
  worker : ∀ key me, w.allPages key = some me → working me = true → ∃ t, (w.thread t).object = some key
  alone : ∀ t t' key, (w.thread t).object = some key → (w.thread t').object = some key → t = t'
  fits : ∀ t, Fits w (w.thread t)
  fresh : ∀ t t' r r', w.thread t = .responding none (.getPage r) → w.thread t' = .responding none (.getPage r') →
    r.pageNum = r'.pageNum → t = t'
  forward : ∀ f key request, w.forward f = .sent key request → Forwarded w key request

theorem standsFor_of_ne (h : key.1 ≠ some ⟨[], []⟩) : standsFor key = key := if_neg h

theorem standsFor_empty (i : ℕ) : standsFor (some ⟨[], []⟩, i) = (none, i) := if_pos rfl

namespace Coherent

theorem key_unique (h : Coherent w) {key' : Key} {me' : PDBPage} (hme : w.allPages key = some me)
    (hme' : w.allPages key' = some me') (heq : me.key = me'.key) : key = key' := by
  rw [h.named key me hme, h.named key' me' hme'] at heq
  obtain ⟨set, i⟩ := key
  obtain ⟨set', i'⟩ := key'
  by_cases hs : set = some ⟨[], []⟩ <;> by_cases hs' : set' = some ⟨[], []⟩
  · subst hs hs'
    rw [standsFor_empty, standsFor_empty] at heq
    cases heq
    rfl
  · subst hs
    rw [standsFor_empty, standsFor_of_ne hs'] at heq
    cases heq
    exact absurd (h.forwarded i me hme) (h.requested i me' hme').1
  · subst hs'
    rw [standsFor_empty, standsFor_of_ne hs] at heq
    cases heq
    exact absurd (h.forwarded i me' hme') (h.requested i me hme).1
  · rwa [standsFor_of_ne hs, standsFor_of_ne hs'] at heq

theorem busy (h : Coherent w) (ht : (w.thread t).object = some key) :
    ∃ me, w.allPages key = some me ∧ working me = true := by
  have hfits := h.fits t
  cases hp : w.thread t with
  | idle =>
    rw [hp] at ht
    cases ht
  | requesting object request =>
    rw [hp] at ht hfits
    cases ht
    obtain ⟨me, hme, hw, -⟩ := hfits
    exact ⟨me, hme, hw⟩
  | responding object result =>
    rw [hp] at ht hfits
    cases ht
    obtain ⟨me, hme, hw, -⟩ := hfits
    exact ⟨me, hme, hw⟩

theorem free (h : Coherent w) (hfree : ∀ me, w.allPages key = some me → working me = false) (t : ℕ) :
    (w.thread t).object ≠ some key := by
  intro ht
  obtain ⟨me, hme, hw⟩ := h.busy ht
  rw [hfree me hme] at hw
  cases hw

end Coherent

structure FrontStep (changed : Key → Prop) (w w' : World) : Prop where
  allPages : w'.allPages = w.allPages
  forward : w'.forward = w.forward
  indexed : Indexed w'.ownHandles w'.frontEnd
  keys : SameKeys w.frontEnd.manager w'.frontEnd.manager
  sizes : ∀ key size, ¬changed key → sizeOf w.frontEnd key = some size → sizeOf w'.frontEnd key = some size
  classes : ∀ key size, sizeOf w.frontEnd key = some size → ∃ flag, sizeOf w'.frontEnd key = some ⟨size.numBytes, flag⟩
  owns : ∀ i, Owns w i → Owns w' i
  owned : ∀ i, Owns w' i → Owns w i ∨ ∀ q < w.frontEnd.manager.nextPage, (w.frontEnd.manager.page q).key ≠ (none, i)
  ownNamed : ∀ p, w'.ownHandles p = true → (w'.frontEnd.manager.page p).key.1 ≠ some ⟨[], []⟩

namespace FrontStep

variable {changed : Key → Prop}

theorem not_owns (h : FrontStep changed w w') {i : ℕ} (hnot : ¬Owns w i)
    (hq : ∃ q < w.frontEnd.manager.nextPage, (w.frontEnd.manager.page q).key = (none, i)) : ¬Owns w' i := by
  intro hown
  obtain ⟨q, hlt, hkey⟩ := hq
  rcases h.owned i hown with hown | hnew
  · exact hnot hown
  · exact hnew q hlt hkey

theorem brings (h : FrontStep changed w w') (hindexed : Indexed w.ownHandles w.frontEnd) {i : ℕ} {result : Result}
    (hbrings : Brings w i result) (hkey : ¬changed (none, i)) : Brings w' i result := by
  obtain ⟨r, size, hr, hdescribes, hfrozen, hsize, hnone, hnot⟩ := hbrings
  exact ⟨r, size, hr, hdescribes, hfrozen, h.sizes _ _ hkey hsize, h.allPages ▸ hnone, h.not_owns hnot (hindexed.exists_page hsize)⟩

theorem fits (h : FrontStep changed w w') (hc : Coherent w) {phase : Phase} (hfits : Fits w phase)
    (hkey : ∀ key me, phase.object = some key → w.allPages key = some me → ¬changed me.key)
    (hnone : ∀ i, ¬Owns w i → w.allPages (none, i) = none → ¬changed (none, i)) : Fits w' phase := by
  cases phase with
  | idle => trivial
  | requesting object request =>
    cases object with
    | none => exact hfits
    | some key =>
      obtain ⟨me, hme, hw, hasks⟩ := hfits
      refine ⟨me, h.allPages ▸ hme, hw, ?_⟩
      cases request with
      | getPage r => exact hasks
      | getAnonymousPage n => exact hasks
      | sent request => exact ⟨hasks.1, hasks.2.1, h.sizes _ _ (hkey key me rfl hme) hasks.2.2⟩
  | responding object result =>
    cases object with
    | none =>
      obtain ⟨i, hbrings⟩ := hfits
      obtain ⟨r, size, hr, hdescribes, hfrozen, hsize, hn, hnot⟩ := hbrings
      exact ⟨i, h.brings hc.indexed ⟨r, size, hr, hdescribes, hfrozen, hsize, hn, hnot⟩ (hnone i hnot hn)⟩
    | some key =>
      obtain ⟨me, hme, hw, hanswers⟩ := hfits
      refine ⟨me, h.allPages ▸ hme, hw, ?_⟩
      have hsame := hkey key me rfl hme
      unfold Answers at hanswers ⊢
      split at hanswers
      · obtain ⟨hn, he, size, hdescribes, hsize⟩ := hanswers
        rw [hc.named key me hme, standsFor_of_ne he] at hsame
        exact ⟨hn, he, size, hdescribes, h.sizes _ _ hsame hsize⟩
      · exact h.sizes _ _ hsame hanswers
      · exact h.sizes _ _ hsame hanswers

theorem coherent (h : FrontStep changed w w') (hc : Coherent w)
    (hsettled : ∀ key me, w.allPages key = some me → working me = false → ¬changed me.key)
    (hobject : ∀ t, (w'.thread t).object = (w.thread t).object) (hfits : ∀ t, Fits w' (w'.thread t))
    (hfresh : ∀ t t' r r', w'.thread t = .responding none (.getPage r) → w'.thread t' = .responding none (.getPage r') →
      r.pageNum = r'.pageNum → t = t') : Coherent w' where
  indexed := h.indexed
  ownNamed := h.ownNamed
  named key me hme := hc.named key me (h.allPages ▸ hme)
  forwarded i me hme := h.owns i (hc.forwarded i me (h.allPages ▸ hme))
  requested i me hme := by
    obtain ⟨hnot, q, hlt, hkey⟩ := hc.requested i me (h.allPages ▸ hme)
    exact ⟨h.not_owns hnot ⟨q, hlt, hkey⟩, q, hlt.trans_le h.keys.nextPage, (h.keys.key q hlt).trans hkey⟩
  settled key me hme hw := by
    rw [h.allPages] at hme
    exact h.sizes _ _ (hsettled key me hme hw) (hc.settled key me hme hw)
  worker key me hme hw := by
    obtain ⟨t, ht⟩ := hc.worker key me (h.allPages ▸ hme) hw
    exact ⟨t, (hobject t).trans ht⟩
  alone t t' key ht ht' := hc.alone t t' key ((hobject t).symm.trans ht) ((hobject t').symm.trans ht')
  fits := hfits
  fresh := hfresh
  forward f key request hf := by
    obtain ⟨hd, hn, ho, flag, hsize⟩ := hc.forward f key request (h.forward ▸ hf)
    exact ⟨hd, hn, fun hnone => h.owns _ (ho hnone), h.classes _ _ hsize⟩

theorem grow (h : FrontStep (fun _ => False) w w') (hc : Coherent w) (hthread : w'.thread = w.thread) : Coherent w' := by
  refine h.coherent hc (fun _ _ _ _ => id) (fun t => by rw [hthread]) (fun t => ?_) ?_
  · rw [hthread]
    exact h.fits hc (hc.fits t) (fun _ _ _ _ => id) fun _ _ _ => id
  · rw [hthread]
    exact hc.fresh

theorem serve (h : FrontStep changed w w') (hc : Coherent w) {phase : Phase}
    (hthread : w'.thread = update w.thread t phase) (hobject : phase.object = (w.thread t).object)
    (hchanged : ∀ key me, w.allPages key = some me → changed me.key → (w.thread t).object = some key)
    (hnone : ∀ i, changed (none, i) → Owns w i ∨ w.allPages (none, i) ≠ none) (hfits : Fits w' phase)
    (hfresh : ∀ r, phase = .responding none (.getPage r) → ∀ q < w.frontEnd.manager.nextPage,
      (w.frontEnd.manager.page q).key ≠ (none, r.pageNum)) : Coherent w' := by
  have hold : ∀ t' r r', phase = .responding none (.getPage r) → w.thread t' = .responding none (.getPage r') →
      r.pageNum ≠ r'.pageNum := by
    intro t' r r' hp ht' heq
    have hfits' := hc.fits t'
    rw [ht'] at hfits'
    obtain ⟨i, r'', size, hr, hdescribes, -, hsize, -, -⟩ := hfits'
    cases hr
    obtain ⟨q, hlt, hkey⟩ := hc.indexed.exists_page hsize
    refine hfresh r hp q hlt ?_
    rw [hkey, heq, hdescribes.pageNum]
  refine h.coherent hc (fun key me hme hw hk => ?_) (fun t' => ?_) (fun t' => ?_) ?_
  · obtain ⟨me', hme', hw'⟩ := hc.busy (hchanged key me hme hk)
    rw [hme] at hme'
    cases hme'
    rw [hw] at hw'
    cases hw'
  · rw [hthread]
    by_cases ht : t' = t
    · rw [ht, update_self, hobject]
    · rw [update_of_ne ht]
  · rw [hthread]
    by_cases ht : t' = t
    · rw [ht, update_self]
      exact hfits
    · rw [update_of_ne ht]
      refine h.fits hc (hc.fits t') (fun key me ht' hme hk => ?_) fun i hown hpage hk => ?_
      · exact ht (hc.alone t' t key ht' (hchanged key me hme hk))
      · rcases hnone i hk with hown' | hpage'
        · exact hown hown'
        · exact hpage' hpage
  · rw [hthread]
    intro t₁ t₂ r₁ r₂ h₁ h₂ heq
    by_cases ht₁ : t₁ = t <;> by_cases ht₂ : t₂ = t
    · rw [ht₁, ht₂]
    · rw [ht₁, update_self] at h₁
      rw [update_of_ne ht₂] at h₂
      exact absurd heq (hold t₂ r₁ r₂ h₁ h₂)
    · rw [update_of_ne ht₁] at h₁
      rw [ht₂, update_self] at h₂
      exact absurd heq.symm (hold t₁ r₂ r₁ h₂ h₁)
    · rw [update_of_ne ht₁] at h₁
      rw [update_of_ne ht₂] at h₂
      exact hc.fresh t₁ t₂ r₁ r₂ h₁ h₂ heq

end FrontStep

theorem Fits.setPage {phase : Phase} (h : Fits w phase) (hobject : phase.object ≠ some key)
    (hnew : ∀ i r, key = (none, i) → phase = .responding none (.getPage r) → r.pageNum ≠ i) :
    Fits (w.setPage key me) phase := by
  have hother : ∀ key' ≠ key, (w.setPage key me).allPages key' = w.allPages key' :=
    fun key' hne => update_of_ne hne _ _
  cases phase with
  | idle => trivial
  | requesting object request =>
    cases object with
    | none => exact h
    | some key' =>
      obtain ⟨me', hme', hw, hasks⟩ := h
      have hne : key' ≠ key := fun hk => hobject (hk ▸ rfl)
      exact ⟨me', (hother key' hne).trans hme', hw, hasks⟩
  | responding object result =>
    cases object with
    | none =>
      obtain ⟨i, r, size, rfl, hdescribes, hfrozen, hsize, hnone, hnot⟩ := h
      have hne : (none, i) ≠ key := fun hk => hnew i r hk.symm rfl hdescribes.pageNum
      exact ⟨i, r, size, rfl, hdescribes, hfrozen, hsize, (hother _ hne).trans hnone, hnot⟩
    | some key' =>
      obtain ⟨me', hme', hw, hanswers⟩ := h
      have hne : key' ≠ key := fun hk => hobject (hk ▸ rfl)
      exact ⟨me', (hother key' hne).trans hme', hw, hanswers⟩

theorem setThread_self {phase : Phase} (h : w.thread t = phase) : w.setThread t phase = w := by
  rw [World.setThread, ← h, update_eq_self]

namespace Coherent

theorem setForward (h : Coherent w) {f : ℕ} {x : Forward}
    (hx : ∀ key request, x = .sent key request → Forwarded w key request) :
    Coherent { w with forward := update w.forward f x } := by
  refine { h with fits := h.fits, forward := fun f' key request hf => ?_ }
  have hforwarded : Forwarded w key request := by
    change update w.forward f x f' = _ at hf
    by_cases hf' : f' = f
    · rw [hf', update_self] at hf
      exact hx key request hf
    · rw [update_of_ne hf'] at hf
      exact h.forward f' key request hf
  exact ⟨hforwarded.described, hforwarded.named, hforwarded.owned, hforwarded.size⟩

theorem replace (h : Coherent w) {phase : Phase} (hother : ∀ t' ≠ t, (w.thread t').object ≠ some key)
    (hself : ∀ key', (w.thread t).object = some key' → key' = key) (hname : me.key = standsFor key)
    (hforwarded : ∀ i, key = (some ⟨[], []⟩, i) → Owns w i)
    (hrequested : ∀ i, key = (none, i) → ¬Owns w i ∧
      ∃ q < w.frontEnd.manager.nextPage, (w.frontEnd.manager.page q).key = (none, i))
    (hnew : ∀ i, key = (none, i) → ∀ t' ≠ t, ∀ r, w.thread t' = .responding none (.getPage r) → r.pageNum ≠ i)
    (hsettled : working me = false → sizeOf w.frontEnd me.key = some me.size)
    (hobject : phase.object = none ∧ working me = false ∨ phase.object = some key ∧ working me = true)
    (hphase : ∀ r, phase ≠ .responding none (.getPage r)) (hfits : Fits (w.setPage key me) phase) :
    Coherent ((w.setPage key me).setThread t phase) := by
  have hpages : ∀ key' me', (w.setPage key me).allPages key' = some me' →
      key' = key ∧ me' = me ∨ key' ≠ key ∧ w.allPages key' = some me' := by
    intro key' me' hme'
    change update w.allPages key (some me) key' = _ at hme'
    by_cases hk : key' = key
    · rw [hk, update_self] at hme'
      exact .inl ⟨hk, (Option.some.inj hme').symm⟩
    · rw [update_of_ne hk] at hme'
      exact .inr ⟨hk, hme'⟩
  have hthread : ∀ t', t' ≠ t → ((w.setPage key me).setThread t phase).thread t' = w.thread t' :=
    fun t' ht => update_of_ne ht _ _
  have hnow : ((w.setPage key me).setThread t phase).thread t = phase := update_self ..
  refine ⟨h.indexed, h.ownNamed, fun key' me' hme' => ?_, fun i me' hme' => ?_, fun i me' hme' => ?_,
    fun key' me' hme' hw => ?_, fun key' me' hme' hw => ?_, fun t₁ t₂ key' h₁ h₂ => ?_, fun t' => ?_,
    fun t₁ t₂ r₁ r₂ h₁ h₂ heq => ?_, fun f key' request hf => ?_⟩
  · rcases hpages key' me' hme' with ⟨rfl, rfl⟩ | ⟨-, hme'⟩
    · exact hname
    · exact h.named key' me' hme'
  · rcases hpages _ me' hme' with ⟨hk, rfl⟩ | ⟨-, hme'⟩
    · exact hforwarded i hk.symm
    · exact h.forwarded i me' hme'
  · rcases hpages _ me' hme' with ⟨hk, rfl⟩ | ⟨-, hme'⟩
    · exact hrequested i hk.symm
    · exact h.requested i me' hme'
  · rcases hpages key' me' hme' with ⟨rfl, rfl⟩ | ⟨-, hme'⟩
    · exact hsettled hw
    · exact h.settled key' me' hme' hw
  · rcases hpages key' me' hme' with ⟨rfl, rfl⟩ | ⟨hk, hme'⟩
    · rcases hobject with ⟨-, hw'⟩ | ⟨hp, -⟩
      · rw [hw] at hw'
        cases hw'
      · exact ⟨t, by rw [hnow, hp]⟩
    · obtain ⟨t', ht'⟩ := h.worker key' me' hme' hw
      have hne : t' ≠ t := fun ht => hk (hself key' (ht ▸ ht'))
      exact ⟨t', by rw [hthread t' hne, ht']⟩
  · have honly : ∀ t' ≠ t, (((w.setPage key me).setThread t phase).thread t').object = some key' →
        phase.object ≠ some key' := by
      intro t' hne ht' hp
      rw [hthread t' hne] at ht'
      rcases hobject with ⟨hp', -⟩ | ⟨hp', -⟩
      · rw [hp] at hp'
        cases hp'
      · rw [hp] at hp'
        cases hp'
        exact hother t' hne ht'
    by_cases ht₁ : t₁ = t <;> by_cases ht₂ : t₂ = t
    · rw [ht₁, ht₂]
    · rw [ht₁, hnow] at h₁
      exact absurd h₁ (honly t₂ ht₂ h₂)
    · rw [ht₂, hnow] at h₂
      exact absurd h₂ (honly t₁ ht₁ h₁)
    · rw [hthread t₁ ht₁] at h₁
      rw [hthread t₂ ht₂] at h₂
      exact h.alone t₁ t₂ key' h₁ h₂
  · by_cases ht : t' = t
    · rw [ht, hnow]
      exact hfits
    · rw [hthread t' ht]
      exact (h.fits t').setPage (hother t' ht) fun i r hk hr => hnew i hk t' ht r hr
  · have hne : ∀ t' r, ((w.setPage key me).setThread t phase).thread t' = .responding none (.getPage r) → t' ≠ t := by
      rintro t' r ht' rfl
      rw [hnow] at ht'
      exact hphase r ht'
    rw [hthread t₁ (hne t₁ r₁ h₁)] at h₁
    rw [hthread t₂ (hne t₂ r₂ h₂)] at h₂
    exact h.fresh t₁ t₂ r₁ r₂ h₁ h₂ heq
  · have hforward := h.forward f key' request hf
    exact ⟨hforward.described, hforward.named, hforward.owned, hforward.size⟩

theorem change (h : Coherent w) {old : PDBPage} {phase : Phase} (hold : w.allPages key = some old)
    (hother : ∀ t' ≠ t, (w.thread t').object ≠ some key)
    (hself : ∀ key', (w.thread t).object = some key' → key' = key) (hname : me.key = old.key)
    (hsettled : working me = false → sizeOf w.frontEnd me.key = some me.size)
    (hobject : phase.object = none ∧ working me = false ∨ phase.object = some key ∧ working me = true)
    (hphase : ∀ r, phase ≠ .responding none (.getPage r)) (hfits : Fits (w.setPage key me) phase) :
    Coherent ((w.setPage key me).setThread t phase) := by
  refine h.replace hother hself (hname.trans (h.named key old hold)) ?_ ?_ ?_ hsettled hobject hphase hfits
  · rintro i rfl
    exact h.forwarded i old hold
  · rintro i rfl
    exact h.requested i old hold
  · rintro i rfl t' - r ht' heq
    have hfits' := h.fits t'
    rw [ht'] at hfits'
    obtain ⟨i', r', size, hr, hdescribes, -, -, hnone, -⟩ := hfits'
    cases hr
    rw [← heq, hdescribes.pageNum, hnone] at hold
    cases hold

theorem setThread (h : Coherent w) {phase : Phase} (hold : (w.thread t).object = none) (hobject : phase.object = none)
    (hphase : ∀ r, phase ≠ .responding none (.getPage r)) (hfits : Fits w phase) : Coherent (w.setThread t phase) := by
  have hthread : ∀ t' key, ((w.setThread t phase).thread t').object = some key → t' ≠ t ∧ (w.thread t').object = some key := by
    intro t' key ht'
    by_cases ht : t' = t
    · rw [ht, show (w.setThread t phase).thread t = phase from update_self .., hobject] at ht'
      cases ht'
    · rw [show (w.setThread t phase).thread t' = w.thread t' from update_of_ne ht _ _] at ht'
      exact ⟨ht, ht'⟩
  have hresponding : ∀ t' r, (w.setThread t phase).thread t' = .responding none (.getPage r) →
      w.thread t' = .responding none (.getPage r) := by
    intro t' r ht'
    by_cases ht : t' = t
    · rw [ht, show (w.setThread t phase).thread t = phase from update_self ..] at ht'
      exact absurd ht' (hphase r)
    · rwa [show (w.setThread t phase).thread t' = w.thread t' from update_of_ne ht _ _] at ht'
  refine { h with
    worker := fun key me hme hw => ?_
    alone := fun t₁ t₂ key h₁ h₂ => h.alone t₁ t₂ key (hthread t₁ key h₁).2 (hthread t₂ key h₂).2
    fits := fun t' => ?_
    fresh := fun t₁ t₂ r₁ r₂ h₁ h₂ => h.fresh t₁ t₂ r₁ r₂ (hresponding t₁ r₁ h₁) (hresponding t₂ r₂ h₂)
    forward := fun f key request hf => ?_ }
  · obtain ⟨t', ht'⟩ := h.worker key me hme hw
    have hne : t' ≠ t := by
      rintro rfl
      rw [hold] at ht'
      cases ht'
    exact ⟨t', by rw [show (w.setThread t phase).thread t' = w.thread t' from update_of_ne hne _ _, ht']⟩
  · by_cases ht : t' = t
    · rw [ht, show (w.setThread t phase).thread t = phase from update_self ..]
      exact hfits
    · rw [show (w.setThread t phase).thread t' = w.thread t' from update_of_ne ht _ _]
      exact h.fits t'
  · have hforward := h.forward f key request hf
    exact ⟨hforward.described, hforward.named, hforward.owned, hforward.size⟩

theorem rest (h : Coherent w) (hidle : w.thread t = .idle) (hme : w.allPages key = some me) (hw : working me = false)
    {status : PDBPageStatus} (hstatus : working { me with status := status } = false) :
    Coherent (w.setPage key { me with status := status }) := by
  have hsame := setThread_self (w := w.setPage key { me with status := status }) hidle
  have hfree : ∀ t', (w.thread t').object ≠ some key := by
    refine h.free fun me' hme' => ?_
    rw [hme] at hme'
    cases hme'
    exact hw
  rw [← hsame]
  refine h.change hme (fun t' _ => hfree t') (fun key' ht => ?_) rfl (fun _ => h.settled key me hme hw) (.inl ⟨rfl, hstatus⟩)
    nofun trivial
  rw [hidle] at ht
  cases ht

theorem request (h : Coherent w) (hidle : w.thread t = .idle) (hme : w.allPages key = some me) (hw : working me = false)
    {status : PDBPageStatus} (hstatus : working { me with status := status } = true) {request : SentPages.Request}
    (hkey : request.key = me.key) (hreturns : ¬request.Returns) : Coherent (w.request t key me status request) := by
  have hfree : ∀ t', (w.thread t').object ≠ some key := by
    refine h.free fun me' hme' => ?_
    rw [hme] at hme'
    cases hme'
    exact hw
  refine h.change hme (fun t' _ => hfree t') (fun key' ht => ?_) rfl (fun hnot => ?_) (.inr ⟨rfl, hstatus⟩) nofun ?_
  · rw [hidle] at ht
    cases ht
  · rw [hstatus] at hnot
    cases hnot
  · exact ⟨_, update_self .., hstatus, hkey, hreturns, h.settled key me hme hw⟩

end Coherent

section Calls

variable {set : Option PDBSet} {i f n : ℕ}

theorem Coherent.getPage (h : Coherent w) (hidle : w.thread t = .idle) (hnone : set ≠ none) (hempty : set ≠ some ⟨[], []⟩) :
    Coherent (w.getPage t set i) := by
  have hasks : (set, i) = (some (⟨set.elim [] PDBSet.dbName, set.elim [] PDBSet.setName⟩ : PDBSet), i) := by
    obtain ⟨s, rfl⟩ := Option.ne_none_iff_exists'.mp hnone
    rfl
  unfold World.getPage
  dsimp only
  cases hme : w.allPages (set, i) with
  | none =>
    rw [Option.getD_none, if_neg (by simp [working]), if_neg (by simp)]
    refine h.replace (fun t' _ => h.free (fun me' hme' => ?_) t') (fun key' ht => ?_) (standsFor_of_ne hempty).symm ?_ ?_ ?_
      (fun hw => ?_) (.inr ⟨rfl, rfl⟩) nofun ⟨_, update_self .., rfl, hasks, hempty⟩
    · rw [hme] at hme'
      cases hme'
    · rw [hidle] at ht
      cases ht
    · rintro j hk
      cases hk
      exact absurd rfl hempty
    · rintro j hk
      cases hk
      exact absurd rfl hnone
    · rintro j hk
      cases hk
      exact absurd rfl hnone
    · cases hw
  | some me =>
    rw [Option.getD_some]
    by_cases hw : working me = true
    · rw [if_pos hw]
      exact h
    rw [if_neg hw]
    have hw := Bool.eq_false_iff.mpr hw
    split
    · exact h.rest hidle hme hw rfl
    · have hfree : ∀ t', (w.thread t').object ≠ some (set, i) := by
        refine h.free fun me' hme' => ?_
        rw [hme] at hme'
        cases hme'
        exact hw
      refine h.change hme (fun t' _ => hfree t') (fun key' ht => ?_) rfl nofun (.inr ⟨rfl, rfl⟩) nofun
        ⟨_, update_self .., rfl, hasks, hempty⟩
      rw [hidle] at ht
      cases ht

theorem Coherent.freezeSize (h : Coherent w) (hidle : w.thread t = .idle) (he : w.freezeSize t key n = .ok w') :
    Coherent w' := by
  unfold World.freezeSize at he
  cases hme : w.allPages key with
  | none =>
    rw [hme] at he
    cases he
  | some me =>
    rw [hme] at he
    dsimp only at he
    split at he
    · cases he
      exact h
    · next hw =>
      cases he
      exact h.request hidle hme (Bool.eq_false_iff.mpr hw) rfl rfl id

theorem Coherent.unpin (h : Coherent w) (hidle : w.thread t = .idle) (he : w.unpin t key = .ok w') : Coherent w' := by
  unfold World.unpin at he
  cases hme : w.allPages key with
  | none =>
    rw [hme] at he
    cases he
  | some me =>
    rw [hme] at he
    dsimp only at he
    split at he
    · cases he
      exact h
    · next hw =>
      split at he
      · cases he
        exact h.rest hidle hme (Bool.eq_false_iff.mpr hw) rfl
      · cases he
        exact h.request hidle hme (Bool.eq_false_iff.mpr hw) rfl rfl id

theorem Coherent.repin (h : Coherent w) (hidle : w.thread t = .idle) (he : w.repin t key = .ok w') : Coherent w' := by
  unfold World.repin at he
  cases hme : w.allPages key with
  | none =>
    rw [hme] at he
    cases he
  | some me =>
    rw [hme] at he
    dsimp only at he
    split at he
    · cases he
      exact h
    · next hw =>
      split at he
      · cases he
        exact h.rest hidle hme (Bool.eq_false_iff.mpr hw) rfl
      · cases he
        exact h.request hidle hme (Bool.eq_false_iff.mpr hw) rfl rfl id

theorem sizeOf_front (w : World) (key : Key) : sizeOf w.frontEnd key = (w.front key).map PDBPage.size := by
  rw [sizeOf, World.front, Option.map_map]
  rfl

theorem front_of_sizeOf {size : PageSize} (h : sizeOf w.frontEnd key = some size) :
    ∃ front, w.front key = some front ∧ front.size = size := by
  rw [sizeOf_front] at h
  exact Option.map_eq_some_iff.mp h

theorem fillIn_size {r : BufGetPageResult} {flag : Bool} {whichSet : Option PDBSet}
    (hsize : sizeOf w.frontEnd key = some ⟨r.numBytes, flag⟩)
    (hfrozen : ∀ front ∈ w.front key, me.sizeFrozen = front.sizeFrozen) :
    sizeOf w.frontEnd key = some (fillIn whichSet r me).size := by
  obtain ⟨front, hfront, hs⟩ := front_of_sizeOf hsize
  have hflag : flag = me.sizeFrozen := by
    rw [hfrozen front hfront]
    exact (congrArg PageSize.sizeFrozen hs).symm
  rw [hsize, hflag]
  rfl

theorem Describes.set_key {r : BufGetPageResult} {size : PageSize} (h : Describes r key size) (hnone : key.1 ≠ none) :
    (some r.set, r.pageNum) = key := by
  obtain ⟨set, i⟩ := key
  obtain ⟨s, hs⟩ := Option.ne_none_iff_exists'.mp hnone
  dsimp only at hs
  subst hs
  rw [h.set, h.pageNum]
  rfl

theorem Coherent.receive (h : Coherent w) (hsound : (Event.receive t).Sound cfg w) (he : w.receive t = .ok w') :
    Coherent w' := by
  unfold World.receive at he
  have hfits := h.fits t
  split at he
  · next key result ht =>
    rw [ht] at hfits
    obtain ⟨me, hme, -, hanswers⟩ := hfits
    rw [hme] at he
    obtain ⟨me', hfinish, he⟩ := bind_eq_ok.mp he
    cases he
    have hchange : me'.key = me.key → working me' = false → sizeOf w.frontEnd me'.key = some me'.size →
        Coherent ((w.setPage key me').setThread t .idle) := by
      intro hkey hw hsize
      refine h.change hme (fun t' hne ht' => ?_) (fun key' ht' => ?_) hkey (fun _ => hsize) (.inl ⟨rfl, hw⟩) nofun trivial
      · exact hne (h.alone t' t key ht' (by rw [ht]; rfl))
      · rw [ht] at ht'
        cases ht'
        rfl
    unfold World.finishCall at hfinish
    split at hfinish
    · next r =>
      cases hfinish
      obtain ⟨hnone, hempty, size, hdescribes, hsize⟩ := hanswers
      have hkey : (fillIn (some r.set) r me).key = key := hdescribes.set_key hnone
      have hold := h.named key me hme
      rw [standsFor_of_ne hempty] at hold
      refine hchange (hkey.trans hold.symm) rfl ?_
      rw [hkey]
      rw [← hdescribes.size] at hsize
      refine fillIn_size hsize fun front hfront => ?_
      unfold Event.Sound at hsound
      simp only [ht] at hsound
      exact hsound me hme front hfront
    · cases hfinish
      exact hchange rfl rfl hanswers
    · cases hfinish
      exact hchange rfl rfl hanswers
    · cases hfinish
      exact hchange rfl rfl hanswers
    · cases hfinish
  · next r ht =>
    rw [ht] at hfits
    obtain ⟨i, r', size, hr, hdescribes, hfrozen, hsize, hnone, hnot⟩ := hfits
    cases hr
    cases he
    have hanon : r.isAnonymous = true := hdescribes.isAnonymous
    have hme : fillInAny r {} = fillIn none r {} := by rw [fillInAny, if_pos hanon]
    have hkey : (fillIn none r {}).key = (none, i) := Prod.ext rfl hdescribes.pageNum
    rw [hme]
    change Coherent ((w.setPage (fillIn none r {}).key (fillIn none r {})).setThread t .idle)
    rw [hkey]
    refine h.replace (fun t' _ => h.free (fun me' hme' => ?_) t') (fun key' ht' => ?_) hkey nofun (fun j hj => ?_)
      (fun j hj t' hne r' ht' heq => ?_) (fun _ => ?_) (.inl ⟨rfl, rfl⟩) nofun trivial
    · rw [hnone] at hme'
      cases hme'
    · rw [ht] at ht'
      cases ht'
    · cases hj
      exact ⟨hnot, h.indexed.exists_page hsize⟩
    · cases hj
      exact hne (h.fresh t' t r' r ht' ht (heq.trans hdescribes.pageNum.symm))
    · rw [hkey, hsize, ← hdescribes.size]
      have hflag : r.sizeFrozen = false := (congrArg PageSize.sizeFrozen hdescribes.size).trans hfrozen
      rw [hflag]
      rfl
  · cases he
    exact h

theorem Forwarded.standsFor {request : BufForwardPageRequest} (h : Forwarded w key request) :
    standsFor (some request.set, request.pageNum) = key := by
  obtain ⟨size, hdescribes⟩ := h.described
  obtain ⟨set, j⟩ := key
  cases set with
  | none =>
    rw [hdescribes.set, hdescribes.pageNum]
    exact standsFor_empty j
  | some s =>
    rw [hdescribes.set_key nofun]
    exact standsFor_of_ne h.named

theorem Forwarded.fillIn_key {request : BufForwardPageRequest} (h : Forwarded w key request) (me : PDBPage) :
    (fillInAny request me).key = key := by
  obtain ⟨size, hdescribes⟩ := h.described
  obtain ⟨set, j⟩ := key
  have hanon := hdescribes.isAnonymous
  refine Prod.ext ?_ hdescribes.pageNum
  change (if request.isAnonymous then none else some request.set) = set
  cases set with
  | none => exact if_pos hanon
  | some s =>
    have hno : ¬request.isAnonymous = true := by rw [hanon]; exact nofun
    rw [if_neg hno, hdescribes.set]
    rfl

theorem Coherent.expectPage (h : Coherent w) (hidle : w.thread t = .idle)
    (hsound : (Event.expectPage t f).Sound cfg w) : Coherent (w.expectPage f) := by
  unfold World.expectPage
  unfold Event.Sound at hsound
  dsimp only at hsound
  cases hf : w.forward f with
  | idle => exact h
  | acknowledged key => exact h
  | sent key request =>
    rw [hf] at hsound
    dsimp only at hsound ⊢
    have hforwarded := h.forward f key request hf
    have hreceived : Coherent { w with forward := update w.forward f (.acknowledged key) } :=
      h.setForward nofun
    split
    · exact h
    next hw =>
    have hw := Bool.eq_false_iff.mpr hw
    split
    next hb =>
      have hfree : ∀ t', (w.thread t').object ≠ some (some request.set, request.pageNum) := by
        refine h.free fun me hme => ?_
        rwa [hme] at hw
      obtain ⟨flag, hsize⟩ := hforwarded.size
      have hkey := hforwarded.fillIn_key ((w.allPages (some request.set, request.pageNum)).getD {})
      have hthread : ({ w with forward := update w.forward f (.acknowledged key) }.setPage
          (some request.set, request.pageNum)
          (fillInAny request ((w.allPages (some request.set, request.pageNum)).getD {}))).thread t = .idle := hidle
      rw [← setThread_self hthread]
      refine hreceived.replace (fun t' _ => hfree t') (fun key' ht => ?_) (hkey.trans hforwarded.standsFor.symm) ?_ nofun nofun
        (fun _ => ?_) (.inl ⟨rfl, rfl⟩) nofun trivial
      · rw [show World.thread _ t = w.thread t from rfl, hidle] at ht
        cases ht
      · rintro j hj
        have hstands := hforwarded.standsFor
        rw [hj, standsFor_empty] at hstands
        have howned := hforwarded.owned (by rw [← hstands])
        rw [← hstands] at howned
        exact howned
      · rw [hkey]
        exact fillIn_size (w := w) hsize (hsound hw hb)
    · exact hreceived

theorem Coherent.getAnonymousPage (h : Coherent w) (hidle : w.thread t = .idle) (n : ℕ) :
    Coherent (w.getAnonymousPage cfg t n) := by
  unfold World.getAnonymousPage
  split
  · exact h
  · exact h.setThread (by rw [hidle]; rfl) rfl nofun ⟨n, rfl⟩

end Calls

section Front

variable {changed : Key → Prop} {fe : FrontEnd}

theorem FrontStep.of_indexed (hc : Coherent w) (hindexed : Indexed w.ownHandles fe) (hkeys : SameKeys w.frontEnd.manager fe.manager)
    (hsizes : ∀ key size, ¬changed key → sizeOf w.frontEnd key = some size → sizeOf fe key = some size)
    (hclasses : ∀ key size, sizeOf w.frontEnd key = some size → ∃ flag, sizeOf fe key = some ⟨size.numBytes, flag⟩)
    {thread : ℕ → Phase} : FrontStep changed w { w with frontEnd := fe, thread := thread } := by
  have hkey : ∀ p, w.ownHandles p = true → (fe.manager.page p).key = (w.frontEnd.manager.page p).key :=
    fun p hp => hkeys.key p (hc.indexed.kept p hp)
  refine ⟨rfl, rfl, hindexed, hkeys, hsizes, hclasses, ?_, ?_, fun p hp => ?_⟩
  · rintro i ⟨p, hp, hk⟩
    exact ⟨p, hp, (hkey p hp).trans hk⟩
  · rintro i ⟨p, hp, hk⟩
    exact .inl ⟨p, hp, (hkey p hp).symm.trans hk⟩
  · change (fe.manager.page p).key.1 ≠ _
    rw [hkey p hp]
    exact hc.ownNamed p hp

theorem FrontStep.of_grows (hc : Coherent w) (hindexed : Indexed w.ownHandles fe) (hgrows : Grows w.frontEnd fe)
    {thread : ℕ → Phase} : FrontStep changed w { w with frontEnd := fe, thread := thread } :=
  .of_indexed hc hindexed hgrows.keys (fun key size _ => hgrows.sizes key size)
    fun key size hsize => ⟨size.sizeFrozen, hgrows.sizes key size hsize⟩

theorem FrontStep.of_resized (hc : Coherent w) (hindexed : Indexed w.ownHandles fe) {flag : Bool}
    (hsize : sizeOf w.frontEnd me.key = some me.size)
    (hresized : Resized me.key ⟨me.location.numBytes, flag⟩ w.frontEnd fe)
    {thread : ℕ → Phase} : FrontStep (· = me.key) w { w with frontEnd := fe, thread := thread } := by
  refine .of_indexed hc hindexed hresized.keys (fun key size hne hs => ?_) fun key size hs => ?_
  · rw [hresized.sizes, update_of_ne hne]
    exact hs
  · rw [hresized.sizes]
    by_cases hk : key = me.key
    · rw [hk, hsize] at hs
      cases hs
      rw [hk, update_self]
      exact ⟨flag, rfl⟩
    · rw [update_of_ne hk]
      exact ⟨size.sizeFrozen, hs⟩

theorem Coherent.serveAbout (hc : Coherent w) {request : Request} {result : Result}
    (hs : FrontStep changed w ({ w with frontEnd := fe }.setThread t (.responding (some key) result)))
    (ht : w.thread t = .requesting (some key) request) (hme : w.allPages key = some me) (hw : working me = true)
    (hchanged : ∀ key', changed key' → key' = me.key) (hanswers : Answers fe key me result) :
    Coherent ({ w with frontEnd := fe }.setThread t (.responding (some key) result)) := by
  refine hs.serve hc rfl (by rw [ht]; rfl) (fun key' me' hme' hk => ?_) (fun i hk => ?_) ⟨me, hme, hw, hanswers⟩ nofun
  · rw [ht, hc.key_unique hme' hme (hchanged _ hk)]
    rfl
  · have hkey := hchanged _ hk
    rw [hc.named key me hme] at hkey
    by_cases hempty : key.1 = some ⟨[], []⟩
    · obtain ⟨set, j⟩ := key
      dsimp only at hempty
      subst hempty
      rw [standsFor_empty] at hkey
      cases hkey
      exact .inl (hc.forwarded i me hme)
    · rw [standsFor_of_ne hempty] at hkey
      refine .inr ?_
      rw [hkey, hme]
      exact nofun

theorem Coherent.serveGrowing (hc : Coherent w) {request : Request} {result : Result}
    (hindexed : Indexed w.ownHandles fe) (hgrows : Grows w.frontEnd fe) (ht : w.thread t = .requesting (some key) request)
    (hme : w.allPages key = some me) (hw : working me = true) (hanswers : Answers fe key me result) :
    Coherent ({ w with frontEnd := fe }.setThread t (.responding (some key) result)) := by
  have hs : FrontStep (fun _ => False) w ({ w with frontEnd := fe }.setThread t (.responding (some key) result)) :=
    .of_grows hc hindexed hgrows
  exact hc.serveAbout hs ht hme hw (fun _ hk => hk.elim) hanswers

theorem Coherent.handle (h : Coherent w) (hsound : (Event.handle t).Sound cfg w) (he : w.handle cfg t = .ok w') :
    Coherent w' := by
  unfold World.handle at he
  unfold Event.Sound at hsound
  dsimp only at hsound
  have hfits := h.fits t
  cases ht : w.thread t with
  | idle =>
    rw [ht] at he
    cases he
    exact h
  | responding object result =>
    rw [ht] at he
    cases he
    exact h
  | requesting object request =>
    rw [ht] at he hsound hfits
    obtain ⟨⟨fe, result⟩, hhandle, he⟩ := bind_eq_ok.mp he
    cases he
    cases object with
    | none =>
      obtain ⟨n, rfl⟩ := hfits
      obtain ⟨⟨fe', r⟩, hrequest, hr⟩ := bind_eq_ok.mp hhandle
      cases hr
      obtain ⟨i, size, hsent, hdescribes, hfrozen, hnew⟩ := h.indexed.handleGetAnonymousPage hrequest
      have hs : FrontStep (fun _ => False) w ({ w with frontEnd := fe }.setThread t (.responding none (.getPage r))) :=
        .of_grows h hsent.indexed hsent.toGrows
      have hnone : w.allPages (none, i) = none := by
        by_contra hsome
        obtain ⟨me, hme⟩ := Option.ne_none_iff_exists'.mp hsome
        obtain ⟨-, q, hlt, hkey⟩ := h.requested i me hme
        exact hnew q hlt hkey
      have hnot : ¬Owns ({ w with frontEnd := fe }.setThread t (.responding none (.getPage r))) i := by
        rintro ⟨p, hp, hkey⟩
        have hlt := h.indexed.kept p hp
        exact hnew p hlt ((hsent.keys.key p hlt).symm.trans hkey)
      refine hs.serve h rfl (by rw [ht]; rfl) (fun _ _ _ hk => hk.elim) (fun _ hk => hk.elim)
        ⟨i, r, size, rfl, hdescribes, hfrozen, hsent.size, hnone, hnot⟩ fun r' hr' => ?_
      cases hr'
      rw [hdescribes.pageNum]
      exact hnew
    | some key =>
      obtain ⟨me, hme, hw, hasks⟩ := hfits
      cases request with
      | getAnonymousPage n => exact hasks.elim
      | getPage r =>
        obtain ⟨rfl, hempty⟩ := hasks
        obtain ⟨⟨fe', result⟩, hrequest, hr⟩ := bind_eq_ok.mp hhandle
        cases hr
        obtain ⟨size, hsent, hdescribes⟩ := h.indexed.handleGetPage hrequest
        exact h.serveGrowing hsent.indexed hsent.toGrows ht hme hw ⟨nofun, hempty, size, hdescribes, hsent.size⟩
      | sent request =>
        obtain ⟨hkey, hreturns, hsize⟩ := hasks
        obtain ⟨outcome, hrequest, hr⟩ := bind_eq_ok.mp hhandle
        obtain ⟨fe', hdestroy, hr⟩ := bind_eq_ok.mp hr
        cases hr
        cases request with
        | returnPage r => exact absurd trivial hreturns
        | returnAnonPage r => exact absurd trivial hreturns
        | freezeSize r =>
          obtain ⟨hindexed, hresized, hresponse, hreleased⟩ := h.indexed.handleFreezeSize hrequest
          rw [hreleased] at hdestroy
          cases hdestroy
          rw [hresponse]
          have hclass : cfg.sizeClass r.freezeSize = me.location.numBytes := by
            obtain ⟨front, hfront, hs⟩ := front_of_sizeOf hsize
            rw [← hkey] at hfront
            rw [hsound front hfront]
            exact congrArg PageSize.numBytes hs
          rw [hclass, show (r.set, r.pageNumber) = me.key from hkey] at hresized
          refine h.serveAbout (.of_resized h hindexed hsize hresized) ht hme hw (fun _ hk => hk) ?_
          change sizeOf _ me.key = _
          rw [hresized.sizes, update_self]
        | pinPage r =>
          obtain ⟨hindexed, hgrows, ⟨offset, hresponse⟩, hreleased⟩ := h.indexed.handlePinPage hrequest
          rw [hreleased] at hdestroy
          cases hdestroy
          rw [hresponse]
          exact h.serveGrowing hindexed hgrows ht hme hw (hgrows.sizes _ _ hsize)
        | unpinPage r =>
          obtain ⟨hindexed, sent, hsent, hresized, hresponse, hreleased⟩ := h.indexed.handleUnpinPage hrequest
          rw [hreleased] at hdestroy
          cases hdestroy
          rw [hresponse]
          have hfront : w.front (r.set, r.pageNumber) = some (w.frontEnd.manager.page sent.page) := by
            rw [World.front, hsent, Option.map_some]
          have hsame : (w.frontEnd.manager.page sent.page).size = me.size := by
            have hs := sizeOf_eq hsent
            rw [show (r.set, r.pageNumber) = me.key from hkey, hsize] at hs
            exact (Option.some.inj hs).symm
          -- the page is frozen already if it is pinned
          have hflag : ((w.frontEnd.manager.page sent.page).sizeFrozen || (w.frontEnd.manager.page sent.page).pinned) =
              me.sizeFrozen := by
            rw [show (w.frontEnd.manager.page sent.page).sizeFrozen = me.sizeFrozen from congrArg PageSize.sizeFrozen hsame]
            cases hpin : (w.frontEnd.manager.page sent.page).pinned with
            | false => exact Bool.or_false _
            | true => rw [hsound _ hfront hpin key rfl me hme, Bool.or_true]
          rw [hflag, show (r.set, r.pageNumber) = me.key from hkey,
            show (w.frontEnd.manager.page sent.page).location.numBytes = me.location.numBytes from
              congrArg PageSize.numBytes hsame] at hresized
          refine h.serveAbout (.of_resized h hindexed hsize hresized) ht hme hw (fun _ hk => hk) ?_
          change sizeOf _ me.key = _
          rw [hresized.sizes, update_self]
          rfl

theorem Coherent.keep (h : Coherent w) {p : ℕ} {manager : State} (hgot : Got key p w.frontEnd.manager manager)
    (hnamed : key.1 ≠ some ⟨[], []⟩)
    (hnew : ∀ i, key = (none, i) → ∀ q < w.frontEnd.manager.nextPage, (w.frontEnd.manager.page q).key ≠ (none, i)) :
    Coherent (w.keep p manager) := by
  have hkey : ∀ q, w.ownHandles q = true → (manager.page q).key = (w.frontEnd.manager.page q).key :=
    fun q hq => hgot.sameKey q (h.indexed.kept q hq)
  have hown : ∀ q, (w.keep p manager).ownHandles q = true → q = p ∨ w.ownHandles q = true := by
    intro q hq
    change update w.ownHandles p true q = true at hq
    by_cases hqp : q = p
    · exact .inl hqp
    · rw [update_of_ne hqp] at hq
      exact .inr hq
  have hgrows := h.indexed.sizes_extend hgot.toExtends
  refine FrontStep.grow (w := w) ⟨rfl, rfl, h.indexed.keep hgot, .of_extends hgot.toExtends,
    fun key size _ => hgrows.sizes key size, fun key size hsize => ⟨size.sizeFrozen, hgrows.sizes key size hsize⟩,
    ?_, ?_, fun q hq => ?_⟩ h rfl
  · rintro i ⟨q, hq, hk⟩
    refine ⟨q, ?_, (hkey q hq).trans hk⟩
    change update w.ownHandles p true q = true
    by_cases hqp : q = p
    · rw [hqp, update_self]
    · rw [update_of_ne hqp, hq]
  · rintro i ⟨q, hq, hk⟩
    rcases hown q hq with rfl | hq
    · exact .inr (hnew i (hgot.keyed.symm.trans hk))
    · exact .inl ⟨q, hq, (hkey q hq).symm.trans hk⟩
  · rcases hown q hq with rfl | hq
    · change (manager.page q).key.1 ≠ _
      rw [hgot.keyed]
      exact hnamed
    · change (manager.page q).key.1 ≠ _
      rw [hkey q hq]
      exact h.ownNamed q hq

theorem Coherent.forwardPage (h : Coherent w) {f page : ℕ} (hown : w.ownHandles page = true)
    (he : w.forwardPage cfg f page = .ok w') : Coherent w' := by
  unfold World.forwardPage at he
  dsimp only at he
  split at he
  · cases he
  split at he
  · cases he
    exact h
  obtain ⟨fe, hmark, he⟩ := bind_eq_ok.mp he
  obtain ⟨request, hdescribe, he⟩ := bind_eq_ok.mp he
  cases he
  obtain ⟨hsent, hdescribes⟩ := h.indexed.forward hown hmark hdescribe
  have hs : FrontStep (fun _ => False) w { w with frontEnd := fe } := .of_grows h hsent.indexed hsent.toGrows
  refine (hs.grow h rfl).setForward fun key request' hr => ?_
  cases hr
  refine ⟨⟨_, hdescribes⟩, h.ownNamed page hown, fun hnone => ?_, ?_⟩
  · refine ⟨page, hown, (hsent.keys.key page (h.indexed.kept page hown)).trans ?_⟩
    exact Prod.ext hnone rfl
  · rw [hdescribes.numBytes]
    exact ⟨_, hsent.size⟩

theorem Coherent.finish (h : Coherent w) (f : ℕ) : Coherent (w.finish f) := by
  unfold World.finish
  split
  next key hf =>
    have hindexed : Indexed w.ownHandles (finishForwarding key w.frontEnd) :=
      ⟨h.indexed.held, h.indexed.sent, h.indexed.kept, h.indexed.counted⟩
    have hgrows : Grows w.frontEnd (finishForwarding key w.frontEnd) := ⟨⟨le_rfl, fun _ _ => rfl⟩, fun _ _ hs => hs⟩
    have hs : FrontStep (fun _ => False) w { w with frontEnd := finishForwarding key w.frontEnd } :=
      .of_grows h hindexed hgrows
    exact (hs.grow h rfl).setForward nofun
  · exact h

end Front

section Runs

variable {e : Event}

theorem Coherent.step (h : Coherent w) (hvalid : e.Valid w) (hsound : e.Sound cfg w) (he : step cfg e w = .ok w') :
    Coherent w' := by
  cases e with
  | getPage t set i =>
    cases he
    exact h.getPage hvalid hsound.1 hsound.2
  | getAnonymousPage t n =>
    cases he
    exact h.getAnonymousPage hvalid n
  | expectPage t f =>
    cases he
    exact h.expectPage hvalid hsound
  | freezeSize t key n => exact h.freezeSize hvalid he
  | unpin t key => exact h.unpin hvalid he
  | repin t key => exact h.repin hvalid he
  | handle t => exact h.handle hsound he
  | receive t => exact h.receive hsound he
  | frontGetSetPage set i =>
    obtain ⟨manager, hm, he⟩ := bind_eq_ok.mp he
    cases he
    refine h.keep ((getSetPage_got h.indexed.held).of_eq_ok hm) (fun hs => hsound (Option.some.inj hs)) ?_
    rintro j hj
    cases hj
  | frontGetPage n =>
    obtain ⟨manager, hm, he⟩ := bind_eq_ok.mp he
    cases he
    refine h.keep ((getPage_got h.indexed.held).of_eq_ok hm).1 nofun fun j hj q hq hkey => ?_
    cases hj
    obtain ⟨hset, hnum⟩ := Prod.mk.inj hkey
    have hle := h.indexed.held.numbered q hq hset
    omega
  | forwardPage f page => exact h.forwardPage hvalid.2 he
  | finish f =>
    cases he
    exact h.finish f

theorem Starts.coherent (h : Starts w) : Coherent w := by
  have hnone : ∀ t, (w.thread t).object = none := by
    intro t
    rw [h.thread t]
    rfl
  have hlt : ∀ q, ¬q < w.frontEnd.manager.nextPage := by
    intro q
    rw [h.nextPage]
    exact Nat.not_lt_zero q
  have hheld : AllHeld w.frontEnd.manager := by
    refine ⟨fun q hq => absurd hq (hlt q), fun f q hq => ?_, fun set i q hq => ?_, fun q hq => absurd hq (hlt q),
      fun q hq => absurd hq (hlt q), fun q hq => absurd hq (hlt q), fun q hq => absurd hq (hlt q), h.free⟩
    · rw [h.listed f] at hq
      cases hq
    · rw [h.known] at hq
      cases hq
  refine ⟨⟨hheld, fun key sent hs => ?_, fun q hq => ?_, fun q hq => absurd hq (hlt q)⟩, fun q hq => ?_,
    fun key me hme => ?_, fun i me hme => ?_, fun i me hme => ?_, fun key me hme => ?_, fun key me hme => ?_,
    fun t t' key ht => ?_, fun t => ?_, fun t t' r r' ht => ?_, fun f key request hf => ?_⟩
  · rw [h.sentPages] at hs
    cases hs
  · rw [h.ownHandles] at hq
    cases hq
  · rw [h.ownHandles] at hq
    cases hq
  · rw [h.allPages] at hme
    cases hme
  · rw [h.allPages] at hme
    cases hme
  · rw [h.allPages] at hme
    cases hme
  · rw [h.allPages] at hme
    cases hme
  · rw [h.allPages] at hme
    cases hme
  · rw [hnone] at ht
    cases ht
  · rw [h.thread t]
    trivial
  · rw [h.thread t] at ht
    cases ht
  · rw [h.forward f] at hf
    cases hf

theorem Coherent.sizesAgree (h : Coherent w) (hidle : ∀ t, w.thread t = .idle) : w.SizesAgree cfg := by
  intro key me hme
  have hw : working me = false := by
    refine Bool.eq_false_iff.mpr fun hw => ?_
    obtain ⟨t, ht⟩ := h.worker key me hme hw
    rw [hidle t] at ht
    cases ht
  obtain ⟨front, hfront, hsize⟩ := front_of_sizeOf (h.settled key me hme hw)
  have hbytes : front.location.numBytes = me.location.numBytes := congrArg PageSize.numBytes hsize
  refine ⟨front, hfront, (congrArg PageSize.sizeFrozen hsize).symm, hbytes.symm, fun offset hlt => ?_⟩
  rw [getSize, hbytes]
  exact hlt

theorem sizesAgree_of_reachable (cfg : Config) (w : World)
    (h : Reachable (step cfg) (fun e w => e.Valid w ∧ e.Sound cfg w) Starts w) (hquiet : w.Quiescent) :
    w.SizesAgree cfg := by
  have hcoherent := h.invariant (fun _ hs => hs.coherent) fun _ _ _ hc hg he => hc.step hg.1 hg.2 he
  exact hcoherent.sizesAgree hquiet.1

end Runs

section OnePage

def smallSizes : Config := ⟨0, 2, 2, [], 0, fun _ => some 1⟩

def noPages : World where
  frontEnd := ⟨initialState smallSizes (fun _ => 0) fun _ _ => 0, fun _ => none, fun _ => false⟩
  ownHandles _ := false
  allPages _ := none
  thread _ := .idle
  forward _ := .idle

theorem starts_noPages : Starts noPages :=
  ⟨rfl, fun _ => rfl, fun _ => rfl, rfl, fun _ => rfl, fun _ => rfl, fun _ => rfl, fun _ => rfl, fun _ => rfl⟩

def served (e : Event) : List Event := [e, .handle 0, .receive 0]

def keepingRun : List Event :=
  served (.getAnonymousPage 0 4) ++ served (.freezeSize 0 (none, 1) 4) ++ served (.unpin 0 (none, 1)) ++
    served (.repin 0 (none, 1)) ++ [.frontGetPage 2, .forwardPage 0 1, .expectPage 0 0, .finish 0]

def keepingCheck (e : Event) (w : World) : Bool :=
  match e with
  | .getAnonymousPage t _ | .freezeSize t _ _ | .unpin t _ | .repin t _ =>
    match w.thread t with
    | .idle => true
    | _ => false
  | .handle t =>
    match w.thread t with
    | .requesting _ (.getAnonymousPage _) | .requesting _ (.sent (.pinPage _)) => true
    | .requesting _ (.sent (.freezeSize r)) => r.freezeSize = 4 && (w.front (r.set, r.pageNumber)).all (·.location.numBytes = 2)
    | .requesting (some key) (.sent (.unpinPage _)) => (w.allPages key).all (·.sizeFrozen)
    | _ => false
  | .receive t =>
    match w.thread t with
    | .responding none _ | .responding _ (.response _) => true
    | _ => false
  | .frontGetPage _ => true
  | .forwardPage f page =>
    match w.forward f with
    | .idle => w.ownHandles page
    | _ => false
  | .expectPage t f =>
    match w.thread t, w.forward f with
    | .idle, .sent key request =>
      (w.front key).all (·.sizeFrozen = ((w.allPages (some request.set, request.pageNum)).getD {}).sizeFrozen)
    | _, _ => false
  | .finish _ => true
  | _ => false

theorem sizeClass_four : smallSizes.sizeClass 4 = 2 := by decide +kernel

theorem idle_of_keepingCheck {phase : Phase} (h : (match phase with | .idle => true | _ => false) = true) : phase = .idle := by
  cases phase with
  | idle => rfl
  | requesting object request => cases h
  | responding object result => cases h

theorem sound_of_keepingCheck {e : Event} {w : World} (h : keepingCheck e w = true) : e.Valid w ∧ e.Sound smallSizes w := by
  unfold keepingCheck at h
  cases e with
  | getPage t set i => cases h
  | frontGetSetPage set i => cases h
  | getAnonymousPage t n => exact ⟨idle_of_keepingCheck h, trivial⟩
  | freezeSize t key n => exact ⟨idle_of_keepingCheck h, trivial⟩
  | unpin t key => exact ⟨idle_of_keepingCheck h, trivial⟩
  | repin t key => exact ⟨idle_of_keepingCheck h, trivial⟩
  | frontGetPage n => exact ⟨trivial, trivial⟩
  | finish f => exact ⟨trivial, trivial⟩
  | handle t =>
    refine ⟨trivial, ?_⟩
    unfold Event.Sound
    dsimp only at h ⊢
    split at h
    · next ht =>
      rw [ht]
      exact trivial
    · next ht =>
      rw [ht]
      exact trivial
    · next object r ht =>
      rw [ht]
      obtain ⟨hn, hfront⟩ := Bool.and_eq_true_iff.mp h
      intro front hf
      have hbytes := (Option.all_eq_true _ _).mp hfront front hf
      rw [of_decide_eq_true hn, sizeClass_four, of_decide_eq_true hbytes]
    · next key r ht =>
      rw [ht]
      rintro front - - key' hk me hme
      cases hk
      exact (Option.all_eq_true _ _).mp h me hme
    · cases h
  | receive t =>
    refine ⟨trivial, ?_⟩
    unfold Event.Sound
    dsimp only at h ⊢
    split at h
    · next ht =>
      rw [ht]
      exact trivial
    · next object response _ ht =>
      rw [ht]
      cases object with
      | none => trivial
      | some key => trivial
    · cases h
  | forwardPage f page =>
    dsimp only at h
    split at h
    · next hf => exact ⟨⟨hf, h⟩, trivial⟩
    · cases h
  | expectPage t f =>
    dsimp only at h
    split at h
    · next key request ht hf =>
      refine ⟨ht, ?_⟩
      unfold Event.Sound
      dsimp only
      rw [hf]
      rintro - - front hfront
      have hflag := (Option.all_eq_true _ _).mp h front hfront
      exact (of_decide_eq_true hflag).symm
    · cases h

theorem sizesAgree_keepingRun : ∃ w, runAll (step smallSizes) keepingCheck keepingRun noPages = some w ∧
    w.SizesAgree smallSizes := by
  obtain ⟨w, hrun, hquiet⟩ : ∃ w, runAll (step smallSizes) keepingCheck keepingRun noPages = some w ∧ w.Quiescent := by
    refine ⟨_, rfl, ?_, ?_⟩
    · rintro (_ | t) <;> rfl
    · rintro (_ | t) <;> rfl
  have hreach := (Reachable.start starts_noPages).of_runAll (fun e w => sound_of_keepingCheck) hrun
  exact ⟨w, hrun, sizesAgree_of_reachable smallSizes w hreach hquiet⟩

def shrinkingRun : List Event := served (.getAnonymousPage 0 4) ++ served (.freezeSize 0 (none, 1) 1)

def startingCheck (e : Event) (w : World) : Bool :=
  match e with
  | .getAnonymousPage t _ | .freezeSize t _ _ =>
    match w.thread t with
    | .idle => true
    | _ => false
  | .handle _ | .receive _ => true
  | _ => false

theorem valid_of_startingCheck {e : Event} {w : World} (h : startingCheck e w = true) : e.Valid w := by
  unfold startingCheck at h
  split at h
  · exact idle_of_keepingCheck h
  · exact idle_of_keepingCheck h
  · trivial
  · trivial
  · cases h

theorem not_sizesAgree_shrinkingRun : ¬∀ w, Reachable (step smallSizes) Event.Valid Starts w → w.Quiescent →
    w.SizesAgree smallSizes := by
  intro h
  obtain ⟨w, hrun, hquiet, me, hme, hfront⟩ : ∃ w, runAll (step smallSizes) startingCheck shrinkingRun noPages = some w ∧
      w.Quiescent ∧ ∃ me, w.allPages (none, 1) = some me ∧ ∀ front ∈ w.front (me.whichSet, me.pageNum),
        getSize smallSizes me = 4 ∧ getSize smallSizes front = 1 := by
    refine ⟨_, rfl, ⟨?_, ?_⟩, _, rfl, ?_⟩
    · rintro (_ | t) <;> rfl
    · exact fun _ => rfl
    · rintro front ⟨⟩
      exact ⟨rfl, rfl⟩
  have hreach := (Reachable.start starts_noPages).of_runAll (fun e w => valid_of_startingCheck) hrun
  obtain ⟨front, hf, hsame⟩ := h w hreach hquiet (none, 1) me hme
  obtain ⟨hsize, hsize'⟩ := hfront front hf
  have hlt := hsame.within 1 (by rw [hsize]; decide)
  rw [hsize'] at hlt
  exact absurd hlt (by decide)

end OnePage

end PlinyCompute.PageSizes
