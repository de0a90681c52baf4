import TagLang.Proofs.Elements
import TagLang.Proofs.History

/-!
# Assignments are all or nothing

An assignment evaluates its right-hand side and its subscripts, and what it does then is one write:
everything that can fail comes before it.  Such a computation is a sequence of reads, which fail or
leave the machine as it is (`Run.Reads`), and a write at its end (`Run.Writes`).

A write gives a name a new value and leaves all other names alone (`Registry.Rebinds`).  It never
touches a constant.  That a plain assignment does not bind a constant anew needs the history of the
registry: such an assignment binds anew only what the same statement has made, and no statement
makes constants (`Situation.Reaches.origin_of_constant`).

`Session.assignment_all_or_nothing` says this of every assignment anywhere in a session.
-/

namespace TagLang

open Machine

/-! ### Constants are not made by statements -/

/-- A constant that a change makes has no origin. -/
theorem Deed.OfChange.origin_of_constant {label : Situation.Label} {change : List Deed}
    (h : OfChange label change) {maker : Maker} {key : String} {b : Binding}
    (hd : .make maker key b ∈ change) (hc : b.isConstant = true) : b.origin = none := by
  -- Only a module of the host brings in constants, and no node declares its members.
  cases h with
  | aside => cases hd
  | assign | answer | clear | remove | endLoop | beginCall | endCall => simp at hd
  | bind | nextItem =>
    cases List.mem_singleton.mp hd
    cases hc
  | member key entry =>
    cases List.mem_singleton.mp hd
    cases entry <;> rfl
  | beginLoop item =>
    simp only [List.mem_cons, reduceCtorEq, List.not_mem_nil, or_false, false_or] at hd
    cases hd
    cases hc
  | parameters f args =>
    obtain ⟨p, hp, hmake⟩ := List.mem_map.mp hd
    obtain ⟨_, _, rfl⟩ := List.mem_map.mp hp
    cases hmake
    cases hc
  | load _ functions =>
    obtain ⟨p, _, hp⟩ := List.mem_map.mp hd
    cases hp
    cases hc

/-- In a session a constant never has an origin. -/
theorem Situation.Reaches.origin_of_constant {w : World} {console : Console}
    {baseDir : TagLang.Path}
    {s : Situation} (h : (Machine.fresh console baseDir).toSituation.Reaches w s) {key : String}
    {b : Binding} (hb : s.registry.get? key = some b) (hc : b.isConstant = true) :
    b.origin = none := by
  obtain ⟨deeds, hpath⟩ := h
  have hregistry : s.registry = Registry.empty.performAll (Deed.first :: deeds) := hpath.registry_eq
  rw [hregistry] at hb
  rcases (Registry.alike_traced (Deed.first :: deeds)).get?_cases key with
    ⟨hnone, -⟩ | ⟨b', c, hb', -, n, -, maker, key', made, hn, hmade⟩
  · rw [hb] at hnone
    cases hnone
  · obtain rfl : b = b' := Option.some.inj (hb.symm.trans hb')
    have hconstant : made.isConstant = true := by
      rw [hmade] at hc
      exact hc
    have horigin : made.origin = none := by
      rcases List.mem_cons.mp (List.mem_of_getElem? hn) with hfirst | hlater
      · cases hfirst
        rfl
      · obtain ⟨label, change, hchange, hmem⟩ := hpath.ofChange hlater
        exact hchange.origin_of_constant hmem hconstant
    rw [hmade]
    exact horigin

/-! ### New values for a name -/

namespace Registry

/-- The second registry has the value for the name, which is no constant.  All other names stand for
what they stood for, and the innermost frame has one more entry at most, with what the name stood
for. -/
structure Rebinds (name : String) (v : Value) (r r' : Registry) : Prop where
  value : r'.value? name = some v
  not_constant : ∀ b, r.get? name = some b → b.isConstant = false
  others : ∀ key, key ≠ name → r'.get? key = r.get? key
  frames : r'.frames = r.frames ∨ r'.frames = addLocals [⟨name, r.get? name⟩] r.frames
  items : r'.items = r.items

variable {name : String} {v : Value} {r r' : Registry}

/-- A constant is what it was. -/
theorem Rebinds.constant (h : Rebinds name v r r') {key : String} {b : Binding}
    (hb : r.get? key = some b) (hc : b.isConstant = true) : r'.get? key = some b := by
  by_cases hkey : key = name
  · subst hkey
    rw [h.not_constant b hb] at hc
    cases hc
  · rw [h.others key hkey, hb]

theorem Rebinds.define {b : Binding} (hb : b.value = v)
    (hname : ∀ b, r.get? name = some b → b.isConstant = false) :
    Rebinds name v r (r.define name b) where
  value := by simp [value?, hb]
  not_constant := hname
  others key hkey := by rw [get?_define, if_neg (Ne.symm hkey)]
  frames := .inl rfl
  items := rfl

theorem Rebinds.bindLocal {b : Binding} (hb : b.value = v)
    (hname : ∀ b, r.get? name = some b → b.isConstant = false) :
    Rebinds name v r (r.bindLocal name b) := by
  have hget : ∀ key, (r.bindLocal name b).get? key = (r.define name b).get? key := by
    intro key
    unfold Registry.bindLocal Registry.define
    cases r.frames <;> rfl
  have hdefine := Rebinds.define hb hname
  constructor
  case value => rw [value?, hget]; exact hdefine.value
  case not_constant => exact hname
  case others => exact fun key hkey => (hget key).trans (hdefine.others key hkey)
  case frames => exact .inr (frames_bindLocal r name b)
  case items => exact items_bindLocal r name b

/-- The name, which is bound and no constant, has the value in the second registry; it is still the
same binding, and nothing else has changed. -/
def Reassigns (name : String) (v : Value) (r r' : Registry) : Prop :=
  ∃ b, r.get? name = some b ∧ b.isConstant = false ∧ r' = r.define name { b with value := v }

theorem Reassigns.rebinds (h : Reassigns name v r r') : Rebinds name v r r' := by
  obtain ⟨b, hb, hc, rfl⟩ := h
  refine .define rfl fun b' hb' => ?_
  rw [hb] at hb'
  exact Option.some.inj hb' ▸ hc

theorem reassigns_of_assign (h : r.assign name v = .ok r') : Reassigns name v r r' := by
  unfold assign at h
  split at h
  · cases h
  next b hb =>
    split at h
    · cases h
    next hc => exact ⟨b, hb, Bool.eq_false_iff.mpr hc, (Except.ok.inj h).symm⟩

end Registry

/-! ### Reads and writes -/

namespace Run

variable {α : Type}

/-- The computation fails or gives a value of which `Q` holds, and the machine is as it was. -/
def Reads (x : Run α) (m : Machine) (Q : α → Prop) : Prop :=
  (∃ failure, x m = .error (.failed failure) m) ∨ ∃ a, x m = .ok a m ∧ Q a

/-- The computation fails, and the machine is as it was, or it leaves a registry of which `Q` holds,
and all else in the situation is as it was. -/
def Writes (x : Run Unit) (m : Machine) (Q : Registry → Prop) : Prop :=
  (∃ failure, x m = .error (.failed failure) m) ∨
  ∃ m', x m = .ok () m' ∧ m'.toSituation = { m.toSituation with registry := m'.registry } ∧
    Q m'.registry

theorem Reads.bind_reads {β : Type} {x : Run α} {f : α → Run β} {m : Machine} {Q : α → Prop}
    {Q' : β → Prop} (hx : Reads x m Q) (hf : ∀ a, Q a → Reads (f a) m Q') :
    Reads (x >>= f) m Q' := by
  rcases hx with ⟨failure, herror⟩ | ⟨a, hok, ha⟩
  · exact .inl ⟨failure, bind_of_error herror f⟩
  · have hfa := hf a ha
    unfold Reads at hfa ⊢
    rwa [bind_of_ok hok]

theorem Reads.bind {x : Run α} {f : α → Run Unit} {m : Machine} {Q : α → Prop}
    {Q' : Registry → Prop}
    (hx : Reads x m Q) (hf : ∀ a, Q a → Writes (f a) m Q') : Writes (x >>= f) m Q' := by
  rcases hx with ⟨failure, herror⟩ | ⟨a, hok, ha⟩
  · exact .inl ⟨failure, bind_of_error herror f⟩
  · have hfa := hf a ha
    unfold Writes at hfa ⊢
    rwa [bind_of_ok hok]

theorem Writes.mono {x : Run Unit} {m : Machine} {Q Q' : Registry → Prop} (h : Writes x m Q)
    (hQ : ∀ r, Q r → Q' r) : Writes x m Q' := by
  rcases h with hfailed | ⟨m', hok, hrest, hr⟩
  · exact .inl hfailed
  · exact .inr ⟨m', hok, hrest, hQ _ hr⟩

theorem orFault_reads (line : Nat) (cause : Fault → Cause) (result : Except Fault α) (m : Machine) :
    Reads (orFault line cause result) m fun a => result = .ok a := by
  cases result with
  | ok a => exact .inr ⟨a, rfl, rfl⟩
  | error fault => exact .inl ⟨_, rfl⟩

end Run

/-! ### The statement -/

/-- The new value is the old one with an exchanged element at the end of the path. -/
structure Value.ExchangedAt (path : List Value) (target v : Value) : Prop where
  element : ∃ x, v.follow path = .ok x
  others : ∀ other, Diverge path other → v.follow other = target.follow other
  lengths : ∀ other, ¬ path <+: other → v.lengthAt? other = target.lengthAt? other

theorem Value.exchangedAt_of_setIndex {path : List Value} {target x v : Value}
    (h : target.setIndex path x = .ok v) : ExchangedAt path target v where
  element := ⟨x, follow_setIndex h⟩
  others _ hdiv := follow_setIndex_of_diverge h hdiv
  lengths _ hother := lengthAt?_setIndex h hother

namespace Engine

variable {m : Machine} {name : String}

theorem lookup_reads (name : String) (line : Nat) (m : Machine) :
    Run.Reads (lookup name line) m fun v => m.registry.value? name = some v := by
  unfold lookup
  cases hv : m.registry.value? name with
  | some v =>
    refine .inr ⟨v, ?_, rfl⟩
    rw [Run.look_bind_of_eq hv]
    rfl
  | none =>
    refine .inl ⟨⟨line, .undefined name⟩, ?_⟩
    rw [Run.look_bind_of_eq hv]
    rfl

theorem combined_reads (op : Operator) (current rhs : Value) (line : Nat) (m : Machine) :
    Run.Reads (combined op current rhs line) m fun _ => True := by
  unfold combined
  split
  · rcases Run.orFault_reads line .fault (Value.binary _ current rhs) m with hfailed | ⟨v, hok, -⟩
    · exact .inl hfailed
    · exact .inr ⟨v, hok, trivial⟩
  · exact .inr ⟨rhs, rfl, trivial⟩

theorem combinedElement_reads (target : Value) (path : List Value) (op : Operator) (rhs : Value)
    (line : Nat) (m : Machine) :
    Run.Reads (combinedElement target path op rhs line) m fun _ => True := by
  unfold combinedElement
  split
  · exact (Run.orFault_reads line .element (target.follow path) m).bind_reads
      fun current _ => combined_reads op current rhs line m
  · exact .inr ⟨rhs, rfl, trivial⟩

/-- A bound name that is no constant gets the value; all else fails. -/
theorem assign_writes (name : String) (v : Value) (line : Nat) (m : Machine) :
    Run.Writes (assign name v line) m (m.registry.Reassigns name v) := by
  unfold assign
  cases hassign : m.registry.assign name v with
  | error refusal =>
    cases refusal with
    | constant =>
      refine .inl ⟨⟨line, .constant name⟩, ?_⟩
      rw [Run.look_bind_of_eq hassign]
      rfl
    | undefined =>
      refine .inl ⟨⟨line, .undefined name⟩, ?_⟩
      rw [Run.look_bind_of_eq hassign]
      rfl
  | ok r =>
    refine .inr ⟨(m.record (.assigns name)).update fun s => { s with registry := r }, ?_, ?_, ?_⟩
    · rw [Run.look_bind_of_eq hassign]
      rfl
    · rw [update_record]
      rfl
    · rw [update_record]
      exact Registry.reassigns_of_assign hassign

theorem bindNew_writes (id : NodeId) (v : Value) (m : Machine)
    (hname : ∀ b, m.registry.get? name = some b → b.isConstant = false) :
    Run.Writes (bindNew id name v) m (m.registry.Rebinds name v) := by
  refine .inr ⟨_, rfl, ?_, ?_⟩
  · rw [update_record]
    rfl
  · rw [update_record]
    show m.registry.Rebinds name v (if m.registry.inCall then _ else _)
    split
    · exact .bindLocal rfl hname
    · exact .define rfl hname

/-- A plain assignment writes, if constants have no origin. -/
theorem declare_writes (id : NodeId) (v : Value) (line : Nat) (m : Machine)
    (horigin : ∀ b, m.registry.get? name = some b → b.isConstant = true → b.origin = none) :
    Run.Writes (declare id name v line) m (m.registry.Rebinds name v) := by
  unfold declare Run.Writes
  rw [Run.look_bind_of_eq rfl]
  cases hb : m.registry.get? name with
  | none => exact bindNew_writes id v m fun b hb' => by rw [hb] at hb'; cases hb'
  | some b =>
    -- What the statement itself has made is no constant.
    have hname : b.origin = some id →
        ∀ b', m.registry.get? name = some b' → b'.isConstant = false := by
      intro hid b' hb'
      rw [hb] at hb'
      cases hb'
      refine Bool.eq_false_iff.mpr fun hc => ?_
      rw [horigin b hb hc] at hid
      cases hid
    dsimp only
    split
    next hid =>
      split
      · exact bindNew_writes id v m (hname hid)
      · exact (assign_writes name v line m).mono fun r hr => hr.rebinds
    next => exact .inl ⟨⟨line, .alreadyDeclared name⟩, rfl⟩

/-- A compound assignment combines the value of a bound name with the right-hand side. -/
theorem compound_writes (op : Operator) (rhs : Value) (line : Nat) (m : Machine) :
    Run.Writes (do
      let current ← lookup name line
      let v ← combined op current rhs line
      assign name v line) m fun r => ∃ v, m.registry.Reassigns name v r := by
  refine (lookup_reads name line m).bind fun current _ => ?_
  refine (combined_reads op current rhs line m).bind fun v _ => ?_
  exact (assign_writes name v line m).mono fun r hr => ⟨v, hr⟩

/-- An assignment to an element exchanges the element in the value of a bound name. -/
theorem assignElement_writes (path : List Value) (op : Operator) (rhs : Value) (line : Nat)
    (m : Machine) :
    Run.Writes (assignElement name path op rhs line) m fun r => ∃ target x v,
      m.registry.value? name = some target ∧ target.setIndex path x = .ok v ∧
        m.registry.Reassigns name v r := by
  unfold assignElement
  refine (lookup_reads name line m).bind fun target htarget => ?_
  refine (combinedElement_reads target path op rhs line m).bind fun x _ => ?_
  refine (Run.orFault_reads line .element (target.setIndex path x) m).bind fun v hv => ?_
  exact (assign_writes name v line m).mono fun r hr => ⟨target, x, v, htarget, hv, hr⟩

section Declaration

variable {e : Engine} {m₁ m₂ : Machine} {value : Sequence} {rhs : Value}

theorem runDeclaration_of_subscripts (id : NodeId) (op : Operator) (line : Nat)
    {subscripts : List Sequence} {path : List Value} (hsub : subscripts ≠ [])
    (hrhs : e.eval value m = .ok rhs m₁) (hpath : e.evalAll subscripts m₁ = .ok path m₂) :
    e.runDeclaration id name subscripts op value line m =
      assignElement name path op rhs line m₂ := by
  have hcond : (!subscripts.isEmpty) = true := by simp [hsub]
  unfold runDeclaration
  rw [Run.bind_of_ok hrhs, if_pos hcond, Run.bind_of_ok hpath]

theorem runDeclaration_of_nil (id : NodeId) (op : Operator) (line : Nat)
    (hrhs : e.eval value m = .ok rhs m₁) :
    e.runDeclaration id name [] op value line m =
      (if op.compound.isSome then do
        let current ← lookup name line
        let v ← combined op current rhs line
        assign name v line
      else declare id name rhs line : Run Unit) m₁ := by
  unfold runDeclaration
  rw [Run.bind_of_ok hrhs]
  rfl

/-- Behind the evaluation of its expressions, an assignment is one write. -/
theorem runDeclaration_writes (id : NodeId) (name : String) (op : Operator) (line : Nat)
    {subscripts : List Sequence} {path : List Value} (hrhs : e.eval value m = .ok rhs m₁)
    (hpath : e.evalAll subscripts m₁ = .ok path m₂)
    (horigin : ∀ b, m₂.registry.get? name = some b → b.isConstant = true → b.origin = none) :
    ∃ x : Run Unit, e.runDeclaration id name subscripts op value line m = x m₂ ∧
      Run.Writes x m₂ fun r => ∃ v, m₂.registry.Rebinds name v r ∧
        (op.compound.isSome = true ∨ subscripts ≠ [] → m₂.registry.Reassigns name v r) ∧
        (subscripts ≠ [] → ∃ target, m₂.registry.value? name = some target ∧
          target.ExchangedAt path v) := by
  by_cases hsub : subscripts = []
  · subst hsub
    -- No subscripts are evaluated, so the machine is the one behind the right-hand side.
    cases hpath
    refine ⟨_, runDeclaration_of_nil id op line hrhs, ?_⟩
    split
    · refine (compound_writes op rhs line m₁).mono fun r hr => ?_
      obtain ⟨v, hv⟩ := hr
      exact ⟨v, hv.rebinds, fun _ => hv, fun h => absurd rfl h⟩
    next hplain =>
      refine (declare_writes id rhs line m₁ horigin).mono fun r hr => ?_
      exact ⟨rhs, hr, fun h => absurd h (by simp [hplain]), fun h => absurd rfl h⟩
  · refine ⟨_, runDeclaration_of_subscripts id op line hsub hrhs hpath, ?_⟩
    refine (assignElement_writes path op rhs line m₂).mono fun r hr => ?_
    obtain ⟨target, x, v, htarget, hv, hreassigns⟩ := hr
    exact ⟨v, hreassigns.rebinds, fun _ => hreassigns, fun _ =>
      ⟨target, htarget, Value.exchangedAt_of_setIndex hv⟩⟩

end Declaration

end Engine

/-! ### Sessions -/

/-- Evaluating the expressions of a statement is a sequence of changes. -/
theorem Engine.leads_evaluated {w : World} {n : Nat} {m m₁ m₂ : Machine} {value : Sequence}
    {rhs : Value} {subscripts : List Sequence} {path : List Value}
    (hrhs : (engine w n).eval value m = .ok rhs m₁)
    (hpath : (engine w n).evalAll subscripts m₁ = .ok path m₂) : Leads w m m₂ := by
  have hclosed := Run.Passes.closed w
  have hvalue := (hclosed.engine n).eval value m
  have hall := hclosed.evalAll (hclosed.values (hclosed.engine n)) subscripts m₁
  rw [Run.final_of_ok hrhs] at hvalue
  rw [Run.final_of_ok hpath] at hall
  exact hvalue.leads.trans hall.leads

namespace Session

/-- What an assignment anywhere in a session does, once its right-hand side and its subscripts have
been evaluated.

It fails, and nothing has changed, or it changes the registry only: the name, which is no constant,
has a new value, all other names stand for what they stood for, and at most one entry is added to
the innermost frame.  A compound assignment and one with subscripts succeed only for bound names, of
which they change the value.  With subscripts, the new value differs from the old one in the element
that they lead to: every path that parts from theirs leads to what it led to, and lists outside the
element keep their length.  In any case constants are what they were. -/
theorem assignment_all_or_nothing (w : World) (console : Console) (baseDir : Path)
    (steps : List (Nat × Step)) {m m₁ m₂ : Machine}
    (hm : m.toSituation ∈ course w steps (Machine.fresh console baseDir)) (n : Nat) (id : NodeId)
    (name : String) {subscripts : List Sequence} (op : Operator) {value : Sequence} (line : Nat)
    {rhs : Value} {path : List Value} (hrhs : (engine w n).eval value m = .ok rhs m₁)
    (hpath : (engine w n).evalAll subscripts m₁ = .ok path m₂) :
    let run := (engine w n).runDeclaration id name subscripts op value line
    ((∃ failure, run m = .error (.failed failure) m₂) ∨
      ∃ m' v, run m = .ok () m' ∧
        m'.toSituation = { m₂.toSituation with registry := m'.registry } ∧
        m₂.registry.Rebinds name v m'.registry ∧
        (op.compound.isSome = true ∨ subscripts ≠ [] → m₂.registry.Reassigns name v m'.registry) ∧
        (subscripts ≠ [] → ∃ target, m₂.registry.value? name = some target ∧
          target.ExchangedAt path v)) ∧
    ∀ key b, m₂.registry.get? key = some b → b.isConstant = true →
      (Run.final run m).registry.get? key = some b := by
  intro run
  have hstart : (Machine.fresh console baseDir).toSituation.Reaches w m.toSituation :=
    course_keeps (fun hc h => h.step hc) (.fresh console baseDir) (.refl _) steps _ hm
  have hreach : (Machine.fresh console baseDir).toSituation.Reaches w m₂.toSituation :=
    ((Engine.leads_evaluated hrhs hpath).keeps (fun hc h => h.step hc) hstart).1
  have hwrites := Engine.runDeclaration_writes id name op line hrhs hpath
    fun b hb hc => hreach.origin_of_constant hb hc
  obtain ⟨x, hrun, hfailed | ⟨m', hok, hsituation, v, hrebinds, hrest⟩⟩ := hwrites
  · obtain ⟨failure, hfailure⟩ := hfailed
    rw [← hrun] at hfailure
    refine ⟨.inl ⟨failure, hfailure⟩, fun key b hb _ => ?_⟩
    rw [Run.final_of_error hfailure]
    exact hb
  · rw [← hrun] at hok
    refine ⟨.inr ⟨m', v, hok, hsituation, hrebinds, hrest⟩, fun key b hb hc => ?_⟩
    rw [Run.final_of_ok hok]
    exact hrebinds.constant hb hc

/-- A compound assignment to an element of a list in a list, in the call of a function that has not
bound the name.  The nodes are those of the statement and of its own literals. -/
theorem assignment_all_or_nothing_in_call :
    let w : World := ⟨.empty, .constant ""⟩
    let steps : List (Nat × Step) :=
      [(60, .source "x = [1, [2, 3]]; fun f() { x[1][0] += 5; } call f();")]
    let literal (id : NodeId) : Sequence := ⟨[⟨id, [], []⟩], []⟩
    let run := (engine w 9).runDeclaration 14 "x" [literal 16, literal 18] .addAssign (literal 20) 1
    ∃ m ∈ (course w steps (Machine.fresh { input := [] } .empty)).map fun s => { toSituation := s },
      m.registry.inCall = true ∧ ∃ (m₂ m' : Machine) (target v : Value) (path : List Value),
        run m = .ok () m' ∧ m₂.registry.value? "x" = some target ∧ target.ExchangedAt path v ∧
        m₂.registry.Reassigns "x" v m'.registry ∧ v.text = "[1, [7, 3]]" := by
  intro w steps literal run
  have hcheck : ((course w steps (Machine.fresh { input := [] } .empty))[15]?.any fun s =>
      let m : Machine := { toSituation := s }
      let rhs := (engine w 9).eval (literal 20)
      let path := (engine w 9).evalAll [literal 16, literal 18]
      s.registry.inCall && (Run.value? rhs m).isSome &&
        (Run.value? path (Run.final rhs m)).isSome && (Run.value? run m).isSome &&
        ((Run.final run m).registry.value? "x").any fun v => v.text == "[1, [7, 3]]") = true := by
    decide +kernel
  obtain ⟨s, hs, hfacts⟩ := (Option.any_eq_true ..).mp hcheck
  simp only [Bool.and_eq_true] at hfacts
  obtain ⟨⟨⟨⟨hcall, hrhs⟩, hpath⟩, hrun⟩, htext⟩ := hfacts
  obtain ⟨rhs, hrhs⟩ := Option.isSome_iff_exists.mp hrhs
  obtain ⟨path, hpath⟩ := Option.isSome_iff_exists.mp hpath
  obtain ⟨_, hrun⟩ := Option.isSome_iff_exists.mp hrun
  have hok := Run.ok_of_value? hrun
  have hmem := List.mem_of_getElem? hs
  refine ⟨{ toSituation := s }, List.mem_map_of_mem hmem, hcall, ?_⟩
  obtain ⟨⟨failure, herror⟩ | ⟨m', v, hok', -, hrebinds, hreassigns, hexchanged⟩, -⟩ :=
    assignment_all_or_nothing w { input := [] } .empty steps (m := { toSituation := s }) hmem
      9 14 "x" .addAssign 1 (Run.ok_of_value? hrhs) (Run.ok_of_value? hpath)
  · cases hok.symm.trans herror
  · obtain ⟨target, htarget, hat⟩ := hexchanged (by simp)
    refine ⟨_, m', target, v, path, hok', htarget, hat, hreassigns (.inl rfl), ?_⟩
    have hfinal : Run.final run { toSituation := s } = m' := Run.final_of_ok hok'
    rw [hfinal, hrebinds.value] at htext
    exact eq_of_beq htext

end Session

end TagLang
