import PlinyCompute.HandleRollback

namespace PlinyCompute.Handles

open Transition
open List (append_nil mem_cons_self length_append take_left drop_left eq_of_mem_replicate length_replicate replicate_succ replicate)
open Store (getRAM assignAll assign copyElement copyElements construct)

def Part.null : Part → Handle
  | .handle => .null
  | .container array => ⟨none, array⟩

def smallHeap (K : Layouts) (t array : ℕ) (fs : List Handle) : Heap :=
  ⟨[some ⟨1, 1, K.holder, 0, false, [.null]⟩, some ⟨0, 1, t, 0, false, fs⟩,
    some ⟨0, pointers fs 2 + 1, array, 0, false, []⟩], [], 1, true, false, [0], 2, 0⟩

def smallGraph (K : Layouts) (t array : ℕ) (fs : List Handle) : World :=
  ⟨smallHeap K t array fs, [some ⟨some 0, K.holder⟩, some ⟨some 1, t⟩, some ⟨some 2, array⟩], []⟩

def withCopy (K : Layouts) (t array : ℕ) (fs : List Handle) (disableDestructor : Bool) (gs : List Handle)
    (xs : List (Option RefCountedObject)) : Heap :=
  { smallHeap K t array fs with
    objects := (smallHeap K t array fs).objects ++ some ⟨1, 1, t, 0, disableDestructor, gs⟩ :: xs }

def begun (K : Layouts) (t array : ℕ) (fs : List Handle) (answers : List Bool) : Store :=
  ⟨withCopy K t array fs false [] [], answers⟩

def Heap.withSpace (h : Heap) (array : ℕ) (xs : List (Option RefCountedObject)) : Heap :=
  { h with objects := h.objects ++ some ⟨h.activeRAM, 1, array, 0, false, []⟩ :: xs }

variable {K : Layouts} {t array : ℕ} {fs : List Handle} {answers : List Bool} {s s' : Store}

section Runs

variable {setUp : ℕ → RefCountedObject → Store → Except Stop (Store × Bool)} {old : Handle} {olds gs : List Handle}
  {parts : List Part} {answers' : List Bool} {h : Heap} {f : Handle}

end Runs

section Elements

end Elements

section Shapes

variable {parts : List Part}

end Shapes

section Converse

variable {parts key value : List Part} {n : ℕ}

end Converse

def maps : Layouts where
  layout t := if t = 1 then .pairArray [] [.handle] else .object [.handle]
  holder := 0
  layout_holder := rfl
  isArray t array h := by
    split_ifs at h
    · cases List.mem_singleton.mp h
    · cases List.mem_singleton.mp h

def twoPairs : World := smallGraph maps 1 1 [⟨some 2, 1⟩, ⟨some 2, 1⟩]

end PlinyCompute.Handles
