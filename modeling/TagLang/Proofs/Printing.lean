import TagLang.Proofs.Reading
import TagLang.Proofs.Sessions

/-!
# Printing expressions

A `print` statement with any expression without names prints what the expression evaluates to
(`Session.print_expression`): scanning, growing the tree, loading it and running it agree on what
was written.
-/

namespace TagLang

open Machine

/-! ### Loading a `print` statement -/

section Loading

variable {f₀ f : Forest} {e : Expr}

/-- The nodes of a `print` statement: the root, the keyword, and the nodes of the expression. -/
def Forest.IsOfPrint (f₀ f : Forest) (id : NodeId) : Prop :=
  id = f₀.size ∨ id = f₀.size + 1 ∨
    ∃ t : Term, f.Holds (f₀.size + 2) t id ∧ (t = .comma ∨ t.IsPart)

/-- The node prints what the tree evaluates to. -/
def Forest.PrintsAt (g : Forest) (id : NodeId) (e : Expr) : Prop :=
  ∃ q, g.shape id = .print q ∧ q.Denotes g e

theorem Forest.PrintsAt.mono {g g' : Forest} (hle : g.Le g') {id : NodeId} (h : g.PrintsAt id e) :
    g'.PrintsAt id e := by
  obtain ⟨q, hs, hq⟩ := h
  exact ⟨q, hle.shape_of_loaded hs Shape.noConfusion, hq.mono hle⟩

/-- What loading gives the nodes of a `print` statement. -/
structure Forest.GetsOfPrint (f₀ f : Forest) (e : Expr) (g : Forest) (id : NodeId) : Prop where
  root : id = f₀.size → g.shape id = .block ∧ g.PrintsAt (f₀.size + 1) e
  print : id = f₀.size + 1 → g.PrintsAt id e
  term : ∀ t, f.Holds (f₀.size + 2) t id → t.Means g id

theorem Forest.IsOfPrint.child (hp : f₀.Prints f e.terms) {id : NodeId} (h : IsOfPrint f₀ f id) :
    ∀ c ∈ f.children id, IsOfPrint f₀ f c := by
  intro c hc
  rcases h with rfl | rfl | ⟨t, hold, ht⟩
  · rw [hp.root_children, List.mem_singleton] at hc
    exact .inr (.inl hc)
  · obtain ⟨t, ht, hold⟩ := hp.holdsAll.exists_of_mem hc
    exact .inr (.inr ⟨t, hold, .inr (e.isPart_of_mem_terms t ht)⟩)
  · refine .inr (.inr ?_)
    cases t with
    | atom v | operator op | comma =>
      rw [hold.2] at hc
      cases hc
    | group inner =>
      obtain ⟨e', rfl⟩ := ht.resolve_left Term.noConfusion
      obtain ⟨t, ht, hold⟩ := hold.2.exists_of_mem hc
      exact ⟨t, hold, .inr (e'.isPart_of_mem_terms t ht)⟩
    | brackets inner =>
      obtain ⟨es, rfl⟩ := ht.resolve_left Term.noConfusion
      obtain ⟨t, ht, hold⟩ := hold.2.exists_of_mem hc
      exact ⟨t, hold, Expr.of_mem_row es t ht⟩

/-- Only the parts of expressions, and commas, are asked for a meaning. -/
theorem Term.means_of_part {g : Forest} {t : Term} {id : NodeId}
    (h : t = .comma ∨ t.IsPart → t.Means g id) : t.Means g id := by
  cases t with
  | atom v | operator op => exact h (.inr trivial)
  | comma => exact h (.inl rfl)
  | group inner => exact fun e he => h (.inr ⟨e, he⟩) e he
  | brackets inner => exact fun es hes => h (.inr ⟨es, hes⟩) es hes

/-- Every node of a `print` statement gets its shape once its children have theirs. -/
theorem Workshop.completes_print (hp : f₀.Prints f e.terms) :
    Workshop.Completes f (Forest.IsOfPrint f₀ f) (Forest.GetsOfPrint f₀ f e) where
  child id h := h.child hp
  mono g g' id hle h :=
    ⟨fun hr => ⟨hle.shape_of_loaded (h.root hr).1 Shape.noConfusion, (h.root hr).2.mono hle⟩,
      fun hr => (h.print hr).mono hle, fun t ht => (h.term t ht).mono hle t⟩
  shape g id hle hlt his hchildren := by
    have hkind := hle.kind_eq id hlt
    have hrow := hle.children_eq id hlt
    rcases his with rfl | rfl | ⟨t, hold, ht⟩
    · -- The root: its only statement starts with a keyword.
      have hmem : f₀.size + 1 ∈ f.children f₀.size := by
        rw [hp.root_children]
        exact List.mem_singleton_self _
      have hprint : g.PrintsAt (f₀.size + 1) e := (hchildren _ hmem).print rfl
      refine ⟨.block, ?_, rfl, fun g' hle' hs => ⟨fun _ => ⟨hs, hprint.mono hle'⟩, ?_, ?_⟩⟩
      · have hkeyword : g.kind (f₀.size + 1) = .keyword .print :=
          (hle.kind_eq _ hp.print_lt).trans hp.print_kind
        have hcheck : g.checkStatement (f₀.size + 1) = .ok () := by
          rw [Forest.checkStatement, hkeyword]
        have hchecks : [f₀.size + 1].forM g.checkStatement = .ok () := by
          show (g.checkStatement (f₀.size + 1) >>= fun _ => .ok ()) = _
          rw [hcheck]
          rfl
        simp only [Forest.shapeOf, hkind, hp.root_kind, hrow, hp.root_children, Forest.blockShape,
          hchecks]
        rfl
      · exact fun h => absurd h (Nat.ne_of_lt (Nat.lt_succ_self _))
      · exact fun t hold => absurd hold.le (Nat.not_le_of_lt (by omega))
    · -- The keyword: its children are the terms of the expression.
      obtain ⟨q, hq, _, hdenotes⟩ := Expr.sequence_denotes hle e hp.holdsAll
        fun c hc => (hchildren c hc).term
      refine ⟨.print q, ?_, rfl, fun g' hle' hs => ⟨?_, fun _ => ⟨q, hs, hdenotes.mono hle'⟩, ?_⟩⟩
      · simp only [Forest.shapeOf, hkind, hp.print_kind, hrow, Forest.keywordShape, hq]
        rfl
      · exact fun h => absurd h (Nat.ne_of_gt (Nat.lt_succ_self _))
      · exact fun t hold => absurd hold.le (Nat.not_le_of_lt (Nat.lt_succ_self _))
    · have hmeans : ∀ c ∈ f.children id, ∀ t, f.Holds (f₀.size + 2) t c → t.Means g c :=
        fun c hc => (hchildren c hc).term
      have hge : f₀.size + 1 < id := hold.le
      obtain ⟨shape, hshape, hmuted, _⟩ := Term.shapeOf_means hle hold ht hmeans
      refine ⟨shape, hshape, hmuted, fun g' hg hs => ⟨?_, ?_, fun t' hold' => ?_⟩⟩
      · exact fun h => absurd (h ▸ hge) (Nat.not_lt_of_le (Nat.le_succ _))
      · exact fun h => absurd (h ▸ hge) (Nat.lt_irrefl _)
      · refine Term.means_of_part fun ht' => ?_
        -- The node may hold only one term, but its shape alone decides already what it means.
        obtain ⟨_, hshape', _, hmeans'⟩ := Term.shapeOf_means hle hold' ht' hmeans
        cases hshape.symm.trans hshape'
        exact hmeans' g' hg hs

end Loading

/-- Reading and loading a `print` statement leaves its tree behind, and changes nothing else. -/
theorem Machine.prepare_print {m : Machine} (hm : Ready m m) (e : Expr) :
    ∃ g m₁, prepare false ("print " ++ e.text ++ ";") m = .ok m.forest.size m₁ ∧
      m₁.toSituation = { m.toSituation with forest := g } ∧
      g.shape m.forest.size = .block ∧ g.children m.forest.size = [m.forest.size + 1] ∧
      g.PrintsAt (m.forest.size + 1) e := by
  obtain ⟨f, hp, hparse⟩ := Forest.parse_print m.forest e
  have hs : m.forest.Sprouts f := by
    have h := Forest.parse_sprouts hm.good.forest.wellFormed ("print " ++ e.text ++ ";")
    rw [hparse] at h
    exact h
  obtain ⟨g, hload, hle, hgets⟩ := Workshop.load_completes hs m.registry
    (Workshop.completes_print hp) (.inl rfl)
  obtain ⟨hblock, hprints⟩ := hgets.root rfl
  refine ⟨g,
    (m.update fun s => { s with forest := f }).update (Situation.settle ⟨g, m.registry, []⟩),
    ?_, rfl, hblock, (hle.children_eq _ hs.size_lt).trans hp.root_children, hprints⟩
  have hm₁ := load_eq false m.forest.size (m.update fun s => { s with forest := f })
  rw [show (m.update fun s => { s with forest := f }).forest = f from rfl,
    show (m.update fun s => { s with forest := f }).registry = m.registry from rfl, hload] at hm₁
  rw [prepare_eq, hparse]
  exact Run.bind_of_ok hm₁ _

/-! ### Running a `print` statement -/

theorem Console.write_of_capacity {c : Console} (h : c.capacity = none) (text : String) :
    c.write text = (.ok (), { c with output := c.output ++ text.toUTF8 }) := by
  cases c
  cases h
  exact if_pos (Nat.le_refl _)

/-- The situation with a value printed. -/
def Situation.printed (s : Situation) (v : Value) : Situation :=
  { s with console := { s.console with output := s.console.output ++ (v.text ++ "\n").toUTF8 } }

/-- The computation prints the value and completes, or it fails as the mishap tells and prints
nothing. -/
def Run.Prints (x : Run Flow) (m : Machine) : Except Mishap Value → Prop
  | .ok v => ∃ m', x m = .ok .completed m' ∧ m'.toSituation = m.printed v
  | .error e => ∃ failure m', x m = .error (.failed failure) m' ∧ m'.toSituation = m.toSituation ∧
      failure.cause.category = e.category ∧ failure.cause.message = e.fault.message

theorem Run.Prints.of_eq {x y : Run Flow} {m m₁ : Machine} {r : Except Mishap Value}
    (h : Run.Prints x m₁ r) (hs : m₁.toSituation = m.toSituation) (heq : y m = x m₁) :
    Run.Prints y m r := by
  cases r with
  | ok v =>
    obtain ⟨m', hx, hm'⟩ := h
    exact ⟨m', heq.trans hx, by rw [hm', hs]⟩
  | error e =>
    obtain ⟨failure, m', hx, hm', he⟩ := h
    exact ⟨failure, m', heq.trans hx, hm'.trans hs, he⟩

namespace Machine

variable {w : World} {m : Machine} {e : Expr} {id : NodeId} {n : Nat}

theorem done_write (hc : m.console.capacity = none) (line : Nat) (v : Value) :
    Engine.done (Machine.write line (v.text ++ "\n")) m =
      .ok .completed (m.update (Situation.printed · v)) := by
  have hwrite : Machine.write line (v.text ++ "\n") m =
      .ok () (m.update (Situation.printed · v)) := by
    rw [Machine.write, Console.write_of_capacity hc]
    rfl
  exact Run.bind_of_ok hwrite _

theorem note_bind {β : Type} (event : Event) (k : Unit → Run β) (m : Machine) :
    (note event >>= k) m = k () (m.record event) :=
  rfl

theorem look_bind_record {α β : Type} (g : Situation → α) (k : α → Run β) (m : Machine)
    (event : Event) : (look g >>= k) (m.record event) = k (g m.toSituation) (m.record event) := by
  show k (g (m.record event).toSituation) (m.record event) = _
  rw [toSituation_record]

theorem execute_of_isOn (h : m.switches.isOn id = true) :
    (engine w n).execute id m = exec w n id m := by
  show (if m.switches.isOn id = true then exec w n id else pure .completed) m = _
  rw [if_pos h]

/-- A node that prints, and is on, prints the value of its tree. -/
theorem execute_prints (hc : m.console.capacity = none) (hon : m.switches.isOn id = true)
    (h : m.forest.PrintsAt id e) (hn : e.height ≤ n) :
    Run.Prints ((engine w (n + 1)).execute id) m e.eval := by
  obtain ⟨q, hs, hq⟩ := h
  have hm₁ : (m.record (.runs id)).toSituation = m.toSituation := toSituation_record m _
  have hexec : (engine w (n + 1)).execute id m =
      (eval w n q >>= fun v => Engine.done (Machine.write (m.forest.line id) (v.text ++ "\n")))
        (m.record (.runs id)) := by
    rw [execute_of_isOn hon, exec, Engine.runNode, note_bind, look_bind_record, look_bind_record,
      hs]
  have hanswers := hq w n m.toSituation (.refl _) hn
  refine Run.Prints.of_eq ?_ hm₁ hexec
  cases hr : e.eval with
  | ok v =>
    rw [hr] at hanswers
    obtain ⟨m₂, heval, hm₂⟩ := hanswers _ hm₁
    have hc₂ : m₂.console.capacity = none := by
      rw [hm₂]
      exact hc
    refine ⟨_, (Run.bind_of_ok heval _).trans (done_write hc₂ _ v), ?_⟩
    show m₂.printed v = _
    rw [hm₂, hm₁]
  | error mishap =>
    rw [hr] at hanswers
    obtain ⟨failure, m₂, heval, hm₂, he⟩ := hanswers _ hm₁
    exact ⟨failure, m₂, Run.bind_of_error heval _, hm₂.trans hm₁.symm, he⟩

/-- A block with one statement does what the statement does. -/
theorem execute_block {child : NodeId} {r : Except Mishap Value}
    (hon : m.switches.isOn id = true) (hs : m.forest.shape id = .block)
    (hrow : m.forest.children id = [child])
    (h : ∀ m₁, m₁.toSituation = m.toSituation → Run.Prints ((engine w n).execute child) m₁ r) :
    Run.Prints ((engine w (n + 1)).execute id) m r := by
  have hm₁ : (m.record (.runs id)).toSituation = m.toSituation := toSituation_record m _
  have hexec : (engine w (n + 1)).execute id m =
      (engine w n).runBlock [child] (m.record (.runs id)) := by
    rw [execute_of_isOn hon, exec, Engine.runNode, note_bind, look_bind_record, look_bind_record,
      hs]
    show (look (·.forest.children id) >>= (engine w n).runBlock) (m.record (.runs id)) = _
    rw [look_bind_record, hrow]
  refine Run.Prints.of_eq ?_ hm₁ hexec
  have hchild := h _ hm₁
  rw [Engine.runBlock]
  cases r with
  | ok v =>
    obtain ⟨m', hrun, hm'⟩ := hchild
    exact ⟨m', Run.bind_of_ok hrun _, hm'⟩
  | error mishap =>
    obtain ⟨failure, m', hrun, hm'⟩ := hchild
    exact ⟨failure, m', Run.bind_of_error hrun _, hm'⟩

end Machine

/-! ### From text to output -/

namespace Session

/-- Printing an expression prints what it evaluates to.  In any state of a session whose output is
not limited, `print` with an expression in writing puts the text of the expression's value and a
line end on the output.  If the expression has no value, the output stays as it is, and the step
fails as the first operation did that failed. -/
theorem print_expression (w : World) {m : Machine} (hm : Reachable w m)
    (hc : m.console.capacity = none) (e : Expr) {n : Nat} (hn : e.height + 2 ≤ n) :
    match e.eval with
    | .ok v => ∃ m', runStep w n (.source ("print " ++ e.text ++ ";")) m = .ok () m' ∧
        m'.console = { m.console with output := m.console.output ++ (v.text ++ "\n").toUTF8 }
    | .error mishap => ∃ failure m',
        runStep w n (.source ("print " ++ e.text ++ ";")) m = .error (.failed failure) m' ∧
        m'.console = m.console ∧ failure.cause.category = mishap.category ∧
        failure.cause.message = mishap.fault.message := by
  obtain ⟨g, m₁, hprepare, hm₁, hblock, hrow, hprints⟩ := prepare_print hm.ready e
  obtain ⟨k, rfl⟩ : ∃ k, n = k + 2 := ⟨n - 2, (Nat.sub_add_cancel (Nat.le_of_add_left_le hn)).symm⟩
  -- The nodes of the statement are new, so their switches are as they were before there were nodes.
  have hon : ∀ id, m.forest.size ≤ id → m₁.switches.isOn id = true := by
    intro id hid
    rw [hm₁]
    exact hm.ready.rest.isOn_of_size_le hid
  have hrun : Run.Prints ((engine w (k + 2)).execute m.forest.size) m₁ e.eval := by
    rw [show g = m₁.forest by rw [hm₁]] at hblock hrow hprints
    refine execute_block (hon _ (Nat.le_refl _)) hblock hrow fun m₂ hm₂ => ?_
    refine execute_prints ?_ ?_ ?_ (Nat.le_of_add_le_add_right hn)
    · rw [hm₂, hm₁]
      exact hc
    · rw [hm₂]
      exact hon _ (Nat.le_succ _)
    · rw [hm₂]
      exact hprints
  have hstep : runStep w (k + 2) (.source ("print " ++ e.text ++ ";")) m =
      ((engine w (k + 2)).execute m.forest.size >>= fun _ => pure ()) m₁ :=
    Run.bind_of_ok hprepare _
  have hconsole : m₁.console = m.console := by rw [hm₁]
  rw [hstep]
  cases hr : e.eval with
  | ok v =>
    rw [hr] at hrun
    obtain ⟨m', hexecute, hm'⟩ := hrun
    refine ⟨m', Run.bind_of_ok hexecute _, ?_⟩
    rw [hm', Situation.printed, hconsole]
  | error mishap =>
    rw [hr] at hrun
    obtain ⟨failure, m', hexecute, hm', he⟩ := hrun
    refine ⟨failure, m', Run.bind_of_error hexecute _, ?_, he⟩
    rw [hm', hconsole]

/-- Negative literals, a prefix in front of a subscript, and parentheses on the right-hand side. -/
def nestedExpr : Expr :=
  .binary ⟨.equal, rfl⟩
    (.binary ⟨.mul, rfl⟩
      (.unary ⟨.sub, Operator.isPrefix_sub⟩
        (.index (.array [.atom (.int 7), .atom (.int (Int64.neg 2))]) (.atom (.int 1))))
      (.binary ⟨.sub, rfl⟩ (.atom (.int 3)) (.atom (.int (Int64.neg 4)))))
    (.atom (.int 14))

/-- Both operands fail, in different ways. -/
def doomedExpr : Expr :=
  .binary ⟨.add, rfl⟩ (.index (.array [.atom (.int 2)]) (.atom (.int 5)))
    (.binary ⟨.div, rfl⟩ (.atom (.int 1)) (.atom (.int 0)))

/-- On a fresh machine the one is printed, and the other fails as its left operand does. -/
theorem print_expression_nested :
    let w : World := ⟨.empty, .constant ""⟩
    let m := fresh { input := [] } .empty
    nestedExpr.text = "- [ 7 , -2 ] [ 1 ] * ( 3 - -4 ) == 14" ∧
    (∃ m', runStep w 8 (.source ("print " ++ nestedExpr.text ++ ";")) m = .ok () m' ∧
      m'.console = { input := [], output := .empty ++ "true\n".toUTF8 }) ∧
    doomedExpr.text = "[ 2 ] [ 5 ] + 1 / 0" ∧
    ∃ failure m', runStep w 8 (.source ("print " ++ doomedExpr.text ++ ";")) m =
        .error (.failed failure) m' ∧
      m'.console = { input := [] } ∧ failure.cause.category = .arity ∧
      failure.cause.message = "index 5 out of range for length 1" := by
  refine ⟨by decide +kernel, ?_, by decide +kernel, ?_⟩
  · have hprint := print_expression ⟨.empty, .constant ""⟩ (.fresh { input := [] } .empty) rfl
      nestedExpr (n := 8) (by decide)
    rw [show nestedExpr.eval = .ok (.bool true) from rfl] at hprint
    exact hprint
  · have hprint := print_expression ⟨.empty, .constant ""⟩ (.fresh { input := [] } .empty) rfl
      doomedExpr (n := 8) (by decide)
    rw [show doomedExpr.eval = .error ⟨.arity, .indexRange 5 1⟩ from rfl] at hprint
    obtain ⟨failure, m', hrun, hconsole, hcategory, hmessage⟩ := hprint
    exact ⟨failure, m', hrun, hconsole, hcategory, hmessage.trans (by decide +kernel)⟩

end Session

end TagLang
