import TagLang.Tree.Node

/-!
# Switches

A node that is switched off is passed over when its block reaches it.  Every node is on until it is
switched.
-/

namespace TagLang

/-- Which nodes are switched off; nodes beyond the end of the array are on. -/
structure Switches where
  off : Array Bool

namespace Switches

/-- All nodes are on. -/
def allOn : Switches := ⟨#[]⟩

/-- The node runs when its block reaches it. -/
def isOn (s : Switches) (id : NodeId) : Bool :=
  !s.off.getD id false

/-- The switches with a node switched on or off. -/
def set (s : Switches) (id : NodeId) (on : Bool) : Switches :=
  ⟨(s.off ++ Array.replicate (id + 1 - s.off.size) false).setIfInBounds id !on⟩

/-- The switches with some nodes switched off. -/
def turnOff (s : Switches) (ids : List NodeId) : Switches :=
  ids.foldl (fun s id => s.set id false) s

/-- Switching a node changes no other one. -/
@[simp]
theorem isOn_set (s : Switches) (id id' : NodeId) (on : Bool) :
    (s.set id on).isOn id' = if id = id' then on else s.isOn id' := by
  simp only [isOn, set, Array.getD_eq_getD_getElem?, Array.getElem?_setIfInBounds]
  by_cases h : id = id'
  · subst h
    have hs : id < s.off.size + (id + 1 - s.off.size) := by lia
    simp [hs]
  · by_cases hs : id' < s.off.size
    · simp [h, hs, Array.getElem?_append]
    · simp only [h, hs, if_false, Array.getElem?_append, Array.getElem?_replicate]
      split <;> simp [Array.getElem?_eq_none (Nat.le_of_not_lt hs)]

/-- The nodes that are switched off are off, and the others are as before. -/
@[simp]
theorem isOn_turnOff (s : Switches) (ids : List NodeId) (id : NodeId) :
    (s.turnOff ids).isOn id = (s.isOn id && !decide (id ∈ ids)) := by
  induction ids generalizing s with
  | nil => simp [turnOff]
  | cons first rest ih =>
    rw [turnOff, List.foldl_cons, ← turnOff, ih, isOn_set]
    by_cases h : first = id
    · simp [h]
    · simp [h, Ne.symm h]

end Switches

end TagLang
