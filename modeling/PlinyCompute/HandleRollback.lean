import PlinyCompute.HandleUnwinding

namespace PlinyCompute.Handles

open Transition

variable {K : Layouts} {w w' : World} {h h' : Heap} {hs : List Handle} {s : Store} {f old : Handle} {l dest : Location}
  {c o t n : ℕ} {x y : RefCountedObject} {answers : List Bool}

theorem Heap.held_eq (hl : h.lost = []) : h.held = h.handles := by
  rw [Heap.held, hl, List.append_nil]

theorem Layouts.Shaped.empty (hK : ∀ t, (K.layout t).Releases) (hs : K.Shaped x) (hd : x.disableDestructor = true) :
    x.members = [] := by
  have hrel := hK x.type
  unfold Layouts.Shaped at hs
  cases hlayout : K.layout x.type with
  | object parts =>
    rw [hlayout] at hs
    cases hs.1.symm.trans hd
  | array parts =>
    rw [hlayout] at hs
    cases hs.1.symm.trans hd
  | pairArray key value =>
    rw [hlayout] at hrel hs
    obtain ⟨rfl, rfl⟩ := hrel
    obtain ⟨n, hn⟩ := hs
    have hnil : (List.replicate n ([] ++ [] : List Part)).flatten = [] := by simp
    rw [hnil] at hn
    exact List.forall₂_nil_left_iff.mp hn

theorem World.Fits.light (fits : w.Fits K) (hK : ∀ t, (K.layout t).Releases) : Light w.heap :=
  ⟨fits.lost, fun o x hx hd => (fits.shaped o x hx).empty hK hd⟩

theorem Fresh.released (fr : Fresh n h) (l : Light h) (b : Balanced h hs none) (hold : ∀ f ∈ hs, ∀ q, f.target = some q → q < n) :
    ∀ p, n ≤ p → h.get p = none := by
  intro p
  induction p using Nat.strong_induction_on with
  | h p ih =>
    intro hp
    by_contra hne
    obtain ⟨x, hx⟩ := Option.ne_none_iff_exists'.mp hne
    have hmanaged : h.isManaged x.block = true := by
      unfold Heap.isManaged Heap.contains
      rw [fr.block p x hp hx]
      simp
    have hpos := b.owned p x hx hmanaged nofun
    rw [b.counted p x hx hmanaged] at hpos
    obtain hout | hin := Nat.add_pos_iff_pos_or_pos.mp hpos
    · obtain ⟨f, hf, hft⟩ := exists_of_pointers_pos hout
      have := hold f hf p hft
      omega
    · obtain ⟨f, hf, hft⟩ := exists_of_pointers_pos hin
      obtain ⟨q, y, hy, hfy⟩ := Heap.mem_handles.mp (Heap.held_eq l.lost ▸ hf)
      obtain hlt | ⟨hq, hlt⟩ := fr.forward q y hy f hfy p hft
      · omega
      · rw [ih q hlt hq] at hy
        cases hy

section Write

theorem get_write (hr : w.read l = some old) (hy : (w.write f l).heap.get o = some y) : ∃ z, w.heap.get o = some z ∧
    y.block = z.block ∧ y.refCount = z.refCount ∧ ∀ g ∈ y.members, g = f ∨ g ∈ z.members := by
  cases l with
  | stack i => exact ⟨y, hy, rfl, rfl, fun g hg => .inr hg⟩
  | member p k =>
    obtain ⟨x, hx, -⟩ := member_of_read hr
    obtain ⟨z, hz, hb, hc, -, -, hmem⟩ := Heap.get_setMember hx hy
    exact ⟨z, hz, hb, hc, hmem⟩

theorem write_lost (w : World) (f : Handle) (l : Location) : (w.write f l).heap.lost = w.heap.lost := by
  cases l with
  | stack i => rfl
  | member p k =>
    simp only [World.write, Heap.setMember]
    split <;> rfl

theorem Light.write (light : Light w.heap) : Light (w.write f l).heap where
  lost := (write_lost w f l).trans light.lost
  empty p y hy hd := by
    cases l with
    | stack i => exact light.empty p y hy hd
    | member o k =>
      simp only [World.write] at hy
      cases hx : w.heap.get o with
      | none =>
        simp only [Heap.setMember, hx] at hy
        exact light.empty p y hy hd
      | some x =>
        rw [Heap.setMember_eq hx] at hy
        refine (light.set hx ?_).empty p y hy hd
        intro hd
        rw [light.empty o x hx hd]
        rfl

theorem Fresh.write (fr : Fresh n w.heap) (hr : w.read l = some old) (hf : f.target = none) :
    Fresh n (w.write f l).heap where
  block p y hp hy := by
    obtain ⟨z, hz, hb, -⟩ := get_write hr hy
    rw [hb, write_blocks.activeRAM]
    exact fr.block p z hp hz
  forward p y hy g hg q hq := by
    obtain ⟨z, hz, -, -, hmem⟩ := get_write hr hy
    obtain rfl | hg := hmem g hg
    · rw [hf] at hq
      cases hq
    · exact fr.forward p z hz g hg q hq

end Write

section Assign

variable {b isSelf : Bool}

end Assign

end PlinyCompute.Handles
