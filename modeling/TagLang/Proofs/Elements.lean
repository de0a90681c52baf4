import TagLang.Machine.Execution

/-!
# Elements are a lens

Reading the element at the end of a path and replacing it obey the laws of a lens, faults included
(`Value.setIndex_lens`): replacing fails as reading does, what was written is read back, everything
beside the path stays as it was, and writes at paths that part commute.

A single step of a path is a lens of its own, with `index` to read and `withElement` to write, and a
write along a path is a write of one step around a write along the rest (`setIndex_cons`).  So the
laws of a step are proved once about lists, and those of a path by induction on it.
-/

namespace TagLang

namespace Value

/-! ### One step -/

/-- The place that an index names. -/
def slot : Value → Nat
  | int n => n.toInt.toNat
  | _ => 0

/-- The element at an index, if there is one. -/
def element? (items : List Value) : Value → Option Value
  | int n => if 0 ≤ n.toInt then items[n.toInt.toNat]? else Option.none
  | _ => Option.none

/-- The fault of an index at which a list of the given length has no element. -/
def missing (length : Nat) : Value → Fault
  | int n => .indexRange n length
  | i => .indexKind i.kind

/-- The value with the element at an index exchanged. -/
def withElement (v i element : Value) : Value :=
  match v with
  | array items => array (items.set (slot i) element)
  | v => v

theorem index_array (items : List Value) (i : Value) :
    (array items).index i = (element? items i).elim (.error (missing items.length i)) .ok := by
  cases i with
  | int n =>
    rw [index, position, element?]
    by_cases hn : 0 ≤ n.toInt
    · by_cases hlt : n.toInt.toNat < items.length
      · rw [dif_pos ⟨hn, hlt⟩, if_pos hn, List.getElem?_eq_getElem hlt]
        rfl
      · rw [dif_neg (fun h => hlt h.2), if_pos hn, List.getElem?_eq_none (by omega)]
        rfl
    · rw [dif_neg (fun h => hn h.1), if_neg hn]
      rfl
  | _ => rfl

/-- An element that can be read is one of a list, and its index an integer that is not negative. -/
theorem index_eq_ok {v i y : Value} (h : v.index i = .ok y) :
    ∃ items n, v = array items ∧ i = int n ∧ 0 ≤ n.toInt ∧ items[slot i]? = some y := by
  cases v with
  | array items =>
    rw [index_array] at h
    cases i with
    | int n =>
      rw [element?] at h
      split at h
      next hn =>
        cases hy : items[n.toInt.toNat]? with
        | none =>
          rw [hy] at h
          cases h
        | some element =>
          rw [hy] at h
          cases h
          exact ⟨items, n, rfl, rfl, hn, hy⟩
      next => cases h
    | _ => cases h
  | _ => cases h

/-- A write along a path is a write of one step around a write along the rest. -/
theorem setIndex_cons (v i : Value) (path : List Value) (x : Value) :
    v.setIndex (i :: path) x =
      (v.index i).bind fun element => (element.setIndex path x).map (v.withElement i) := by
  cases v with
  | array items =>
    cases i with
    | int n =>
      rw [setIndex, index, position]
      split
      next h => rfl
      next => rfl
    | _ => rfl
  | _ => rfl

/-- Places have one name each. -/
theorem slot_ne {n m : Int64} (hn : 0 ≤ n.toInt) (hm : 0 ≤ m.toInt) (hne : int n ≠ int m) :
    slot (int n) ≠ slot (int m) := by
  intro heq
  rw [slot, slot] at heq
  have hint : n.toInt = m.toInt := by omega
  exact hne (congrArg int (Int64.toInt_inj.mp hint))

variable {v w u x i j y z : Value}

/-- What was written is read. -/
theorem index_withElement (h : v.index i = .ok y) (element : Value) :
    (v.withElement i element).index i = .ok element := by
  obtain ⟨items, n, rfl, rfl, hn, hy⟩ := index_eq_ok h
  have hlt : n.toInt.toNat < items.length := (List.getElem?_eq_some_iff.mp hy).1
  rw [withElement, index_array, element?, if_pos hn, slot, List.getElem?_set_self hlt]
  rfl

/-- At another index nothing changes, be there an element or not. -/
theorem index_withElement_of_ne (h : v.index i = .ok y) (hij : i ≠ j) (element : Value) :
    (v.withElement i element).index j = v.index j := by
  obtain ⟨items, n, rfl, rfl, hn, hy⟩ := index_eq_ok h
  rw [withElement, index_array, index_array, List.length_set]
  cases j with
  | int m =>
    rw [element?, element?]
    split
    next hm =>
      have hne : slot (int n) ≠ m.toInt.toNat := slot_ne hn hm hij
      rw [List.getElem?_set_ne hne]
    next => rfl
  | _ => rfl

/-- An element put back where it was changes nothing. -/
theorem withElement_index (h : v.index i = .ok y) : v.withElement i y = v := by
  obtain ⟨items, n, rfl, rfl, hn, hy⟩ := index_eq_ok h
  obtain ⟨hlt, rfl⟩ := List.getElem?_eq_some_iff.mp hy
  rw [withElement, List.set_getElem_self]

theorem withElement_withElement (v i a b : Value) :
    (v.withElement i a).withElement i b = v.withElement i b := by
  cases v with
  | array items => rw [withElement, withElement, withElement, List.set_set]
  | _ => rfl

theorem withElement_comm (hi : v.index i = .ok y) (hj : v.index j = .ok z) (hij : i ≠ j)
    (a b : Value) :
    (v.withElement i a).withElement j b = (v.withElement j b).withElement i a := by
  obtain ⟨items, n, rfl, rfl, hn, -⟩ := index_eq_ok hi
  obtain ⟨_, m, ⟨⟩, rfl, hm, -⟩ := index_eq_ok hj
  rw [withElement, withElement, withElement, withElement, List.set_comm _ _ (slot_ne hn hm hij)]

/-! ### Paths -/

/-- The number of elements of the list at the end of a path, if there is a list. -/
def lengthAt? (v : Value) (path : List Value) : Option Nat :=
  match v.follow path with
  | .ok (array items) => some items.length
  | _ => Option.none

/-- The paths part: neither leads on from the end of the other. -/
def Diverge (p q : List Value) : Prop :=
  ¬ p <+: q ∧ ¬ q <+: p

variable {p q : List Value}

theorem not_prefix_tail (h : ¬ i :: p <+: i :: q) : ¬ p <+: q :=
  fun hp => h (List.cons_prefix_cons.mpr ⟨rfl, hp⟩)

theorem Diverge.tail (h : Diverge (i :: p) (i :: q)) : Diverge p q :=
  ⟨not_prefix_tail h.1, not_prefix_tail h.2⟩

theorem follow_cons (h : v.index i = .ok y) (path : List Value) :
    v.follow (i :: path) = y.follow path := by
  rw [follow, h]
  rfl

theorem lengthAt?_cons (h : v.index i = .ok y) (path : List Value) :
    v.lengthAt? (i :: path) = y.lengthAt? path := by
  rw [lengthAt?, lengthAt?, follow_cons h]

/-- A write that succeeds goes through an element, which it exchanges. -/
theorem setIndex_cons_eq_ok_iff :
    v.setIndex (i :: p) x = .ok w ↔
      ∃ y z, v.index i = .ok y ∧ y.setIndex p x = .ok z ∧ v.withElement i z = w := by
  rw [setIndex_cons]
  constructor
  · intro h
    cases hy : v.index i with
    | error fault =>
      rw [hy] at h
      cases h
    | ok y =>
      rw [hy] at h
      cases hz : y.setIndex p x with
      | error fault =>
        rw [Except.bind, hz] at h
        cases h
      | ok z =>
        rw [Except.bind, hz] at h
        exact ⟨y, z, rfl, hz, Except.ok.inj h⟩
  · rintro ⟨y, z, hy, hz, rfl⟩
    rw [hy, Except.bind, hz]
    rfl

/-- Writing fails where reading fails, for the same reason. -/
theorem setIndex_eq_error_iff {fault : Fault} :
    v.setIndex p x = .error fault ↔ v.follow p = .error fault := by
  induction p generalizing v with
  | nil =>
    rw [setIndex, follow]
    refine ⟨fun h => ?_, fun h => ?_⟩ <;> cases h
  | cons i p ih =>
    rw [setIndex_cons, follow]
    cases hy : v.index i with
    | error fault => exact Iff.rfl
    | ok y =>
      show (y.setIndex p x).map (v.withElement i) = .error fault ↔ y.follow p = .error fault
      rw [← ih]
      cases y.setIndex p x with
      | error fault => exact Iff.rfl
      | ok z =>
        refine ⟨fun h => ?_, fun h => ?_⟩ <;> cases h

theorem setIndex_eq_ok_iff :
    (∃ w, v.setIndex p x = .ok w) ↔ ∃ y, v.follow p = .ok y := by
  constructor
  · rintro ⟨w, hw⟩
    cases hy : v.follow p with
    | ok y => exact ⟨y, rfl⟩
    | error fault =>
      rw [setIndex_eq_error_iff.mpr hy] at hw
      cases hw
  · rintro ⟨y, hy⟩
    cases hw : v.setIndex p x with
    | ok w => exact ⟨w, rfl⟩
    | error fault =>
      rw [setIndex_eq_error_iff.mp hw] at hy
      cases hy

/-- What was written at the end of a path is read there. -/
theorem follow_setIndex (h : v.setIndex p x = .ok w) : w.follow p = .ok x := by
  induction p generalizing v w with
  | nil =>
    rw [setIndex] at h
    rw [follow, Except.ok.inj h]
  | cons i p ih =>
    obtain ⟨y, z, hy, hz, rfl⟩ := setIndex_cons_eq_ok_iff.mp h
    rw [follow_cons (index_withElement hy z), ih hz]

/-- A path that parts from the written one leads where it led before. -/
theorem follow_setIndex_of_diverge (h : v.setIndex p x = .ok w) (hdiv : Diverge p q) :
    w.follow q = v.follow q := by
  induction p generalizing v w q with
  | nil => exact absurd List.nil_prefix hdiv.1
  | cons i p ih =>
    cases q with
    | nil => exact absurd List.nil_prefix hdiv.2
    | cons j q =>
      obtain ⟨y, z, hy, hz, rfl⟩ := setIndex_cons_eq_ok_iff.mp h
      by_cases hij : i = j
      · subst hij
        rw [follow_cons (index_withElement hy z), follow_cons hy, ih hz hdiv.tail]
      · rw [follow, follow, index_withElement_of_ne hy hij]

/-- A write keeps the length of every list that is not part of the element it replaces. -/
theorem lengthAt?_setIndex (h : v.setIndex p x = .ok w) (hq : ¬ p <+: q) :
    w.lengthAt? q = v.lengthAt? q := by
  induction p generalizing v w q with
  | nil => exact absurd List.nil_prefix hq
  | cons i p ih =>
    obtain ⟨y, z, hy, hz, rfl⟩ := setIndex_cons_eq_ok_iff.mp h
    cases q with
    | nil =>
      -- The list that the path leads through has one element exchanged.
      obtain ⟨items, n, rfl, rfl, -, -⟩ := index_eq_ok hy
      exact congrArg some List.length_set
    | cons j q =>
      by_cases hij : i = j
      · subst hij
        rw [lengthAt?_cons (index_withElement hy z), lengthAt?_cons hy, ih hz (not_prefix_tail hq)]
      · rw [lengthAt?, lengthAt?, follow, follow, index_withElement_of_ne hy hij]

/-- Writing what was read changes nothing. -/
theorem setIndex_follow (h : v.follow p = .ok y) : v.setIndex p y = .ok v := by
  induction p generalizing v with
  | nil =>
    rw [follow] at h
    rw [setIndex, Except.ok.inj h]
  | cons i p ih =>
    cases hz : v.index i with
    | error fault =>
      rw [follow, hz] at h
      cases h
    | ok z =>
      rw [follow_cons hz] at h
      exact setIndex_cons_eq_ok_iff.mpr ⟨z, z, hz, ih h, withElement_index hz⟩

/-- The second of two writes at one path wins. -/
theorem setIndex_setIndex (h : v.setIndex p x = .ok w) : w.setIndex p y = v.setIndex p y := by
  induction p generalizing v w with
  | nil => rw [setIndex, setIndex]
  | cons i p ih =>
    obtain ⟨e, f, he, hf, rfl⟩ := setIndex_cons_eq_ok_iff.mp h
    have hwin : (v.withElement i f).withElement i = v.withElement i :=
      funext (withElement_withElement v i f)
    rw [setIndex_cons, setIndex_cons, index_withElement he, he, hwin]
    show (f.setIndex p y).map _ = (e.setIndex p y).map _
    rw [ih hf]

/-- Writes at paths that part can be made in either order. -/
theorem setIndex_comm (hdiv : Diverge p q) (hw : v.setIndex p x = .ok w)
    (hu : v.setIndex q y = .ok u) :
    ∃ t, w.setIndex q y = .ok t ∧ u.setIndex p x = .ok t := by
  induction p generalizing v w u q with
  | nil => exact absurd List.nil_prefix hdiv.1
  | cons i p ih =>
    cases q with
    | nil => exact absurd List.nil_prefix hdiv.2
    | cons j q =>
      obtain ⟨e, e', he, he', rfl⟩ := setIndex_cons_eq_ok_iff.mp hw
      obtain ⟨f, f', hf, hf', rfl⟩ := setIndex_cons_eq_ok_iff.mp hu
      by_cases hij : i = j
      · -- Both writes go on in the same element.
        subst hij
        cases he.symm.trans hf
        obtain ⟨t, ht, ht'⟩ := ih hdiv.tail he' hf'
        refine ⟨v.withElement i t, setIndex_cons_eq_ok_iff.mpr ?_, setIndex_cons_eq_ok_iff.mpr ?_⟩
        · exact ⟨e', t, index_withElement he e', ht, withElement_withElement ..⟩
        · exact ⟨f', t, index_withElement he f', ht', withElement_withElement ..⟩
      · have hf₁ : (v.withElement i e').index j = .ok f :=
          (index_withElement_of_ne he hij e').trans hf
        have he₁ : (v.withElement j f').index i = .ok e :=
          (index_withElement_of_ne hf (Ne.symm hij) f').trans he
        refine ⟨_, setIndex_cons_eq_ok_iff.mpr ⟨f, f', hf₁, hf', rfl⟩,
          setIndex_cons_eq_ok_iff.mpr ⟨e, e', he₁, he', ?_⟩⟩
        exact withElement_comm hf he (Ne.symm hij) f' e'

/-! ### Variables -/

/-- An assignment to an element that cannot be read stops, and leaves the machine as it was. -/
theorem assignElement_of_fault {m : Machine} {name : String} (hv : m.registry.value? name = some v)
    {fault : Fault} (hfault : v.follow p = .error fault) (op : Operator) (rhs : Value)
    (line : Nat) :
    Engine.assignElement name p op rhs line m = .error (.failed ⟨line, .element fault⟩) m := by
  have hlookup : Engine.lookup name line m = .ok v m := by
    simp [Engine.lookup, Machine.look, bind, EStateM.bind, hv, pure, EStateM.pure]
  have hwrite : ∀ x, v.setIndex p x = .error fault := fun x => setIndex_eq_error_iff.mpr hfault
  simp only [Engine.assignElement, bind, EStateM.bind, hlookup, Engine.combinedElement]
  -- A compound assignment reads the element first, a plain one only writes it.
  cases op.compound with
  | some arithmetic =>
    rw [hfault]
    rfl
  | none =>
    simp only [pure, EStateM.pure, hwrite]
    rfl

/-- Elements of nested lists are a lens.  An element can be written exactly if it can be read; where
it cannot, both fail for the same reason, and a variable that was to be assigned to keeps its value
with everything else.  After a write the new element is read at the end of the path; every path that
parts from it leads to what it led to, be that a value or a fault; lists outside the element keep
their length; a second write at the path wins; and a write at a path that parts from it may as well
come first.  Writing what was read changes nothing. -/
theorem setIndex_lens (v : Value) (path : List Value) (x : Value) :
    ((∃ w, v.setIndex path x = .ok w) ↔ ∃ y, v.follow path = .ok y) ∧
    (∀ fault, v.follow path = .error fault →
      v.setIndex path x = .error fault ∧
      ∀ (m : Machine) (name : String) (op : Operator) (line : Nat),
        m.registry.value? name = some v →
          Engine.assignElement name path op x line m = .error (.failed ⟨line, .element fault⟩) m) ∧
    (∀ w, v.setIndex path x = .ok w →
      w.follow path = .ok x ∧
      (∀ other, Diverge path other → w.follow other = v.follow other) ∧
      (∀ other, ¬ path <+: other → w.lengthAt? other = v.lengthAt? other) ∧
      (∀ y, w.setIndex path y = v.setIndex path y) ∧
      (∀ other y u, Diverge path other → v.setIndex other y = .ok u →
        ∃ t, w.setIndex other y = .ok t ∧ u.setIndex path x = .ok t)) ∧
    (∀ y, v.follow path = .ok y → v.setIndex path y = .ok v) := by
  refine ⟨setIndex_eq_ok_iff, fun fault hfault => ?_, fun w hw => ?_,
    fun y hy => setIndex_follow hy⟩
  · exact ⟨setIndex_eq_error_iff.mpr hfault, fun m name op line hv =>
      assignElement_of_fault hv hfault op x line⟩
  · exact ⟨follow_setIndex hw, fun other hdiv => follow_setIndex_of_diverge hw hdiv,
      fun other hother => lengthAt?_setIndex hw hother, fun y => setIndex_setIndex hw,
      fun other y u hdiv hu => setIndex_comm hdiv hw hu⟩

/-- A list in a list, written at two places in either order, and an index that names no place. -/
theorem setIndex_lens_nested :
    (∃ t, (array [array [int 1, str "a"], int 3]).setIndex [int 1] none = .ok t ∧
      (array [array [int 1, int 2], none]).setIndex [int 0, int 1] (str "a") = .ok t) ∧
    (array [array [int 1, int 2], int 3]).setIndex [int 0, bool true] (str "a") =
      .error (.indexKind .bool) := by
  have hdiv : Diverge [int 0, int 1] [int 1] := by simp [Diverge]
  have hlens := setIndex_lens (array [array [int 1, int 2], int 3]) [int 0, int 1] (str "a")
  have hfault := setIndex_lens (array [array [int 1, int 2], int 3]) [int 0, bool true] (str "a")
  exact ⟨(hlens.2.2.1 _ rfl).2.2.2.2 [int 1] none _ hdiv rfl, (hfault.2.1 _ rfl).1⟩

end Value

end TagLang
