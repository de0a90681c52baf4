import Mathlib.Data.List.TakeWhile
import TagLang.Proofs.History

/-!
# Bringing in modules

An `extern` statement binds the members of a module one after the other, up to the first whose name
a statement has bound; there it fails (`Engine.bindEntries_eq`).

Which names these are is told by the history of the registry: those whose bindings were made by a
declaration or by a function's declaration (`Registry.isDeclared_eq`).  The bindings of parameters
and of loop items were made by the script as well, but by no statement, so a member of the same name
takes their place.
-/

namespace TagLang

open Machine

/-! ### Makers -/

/-- The binding is made by the script, not by the host. -/
def Maker.isScript (maker : Maker) : Bool :=
  maker != .host

/-- The binding is made by a statement of the script. -/
def Maker.isStatement : Maker → Bool
  | declaration | function => true
  | parameter | item | host => false

/-- How the deed makes a binding, if it makes one. -/
def Deed.maker? : Deed → Option Maker
  | make maker _ _ => some maker
  | _ => none

/-- A binding that a statement makes has an origin, and what the host makes is no variable. -/
def Deed.Fair (deed : Deed) : Prop :=
  ∀ maker key b, deed = make maker key b →
    b.origin.isSome = maker.isStatement ∧
      (maker.isScript = false → b.isConstant = true ∨ b.isFunction = true)

theorem Deed.first_fair : Deed.first.Fair := by
  rintro maker key b ⟨⟩
  exact ⟨rfl, fun _ => .inl rfl⟩

/-- All bindings are made in a fair way. -/
theorem Deed.OfChange.fair {label : Situation.Label} {change : List Deed}
    (h : OfChange label change) {deed : Deed} (hd : deed ∈ change) : deed.Fair := by
  rintro maker key b rfl
  cases h with
  | aside => cases hd
  | assign | answer | clear | remove | endLoop | beginCall | endCall => simp at hd
  | bind | nextItem =>
    cases List.mem_singleton.mp hd
    exact ⟨rfl, by simp [Maker.isScript]⟩
  | member key entry =>
    cases List.mem_singleton.mp hd
    cases entry with
    | function f => exact ⟨rfl, fun _ => .inr rfl⟩
    | constant v => exact ⟨rfl, fun _ => .inl rfl⟩
  | beginLoop item =>
    simp only [List.mem_cons, reduceCtorEq, List.not_mem_nil, or_false, false_or] at hd
    cases hd
    exact ⟨rfl, by simp [Maker.isScript]⟩
  | parameters f args =>
    obtain ⟨p, hp, hmake⟩ := List.mem_map.mp hd
    obtain ⟨_, _, rfl⟩ := List.mem_map.mp hp
    cases hmake
    exact ⟨rfl, by simp [Maker.isScript]⟩
  | load _ functions =>
    obtain ⟨p, _, hp⟩ := List.mem_map.mp hd
    cases hp
    exact ⟨rfl, by simp [Maker.isScript]⟩

namespace Registry

/-- How the binding was made that a name stands for after a history. -/
def maker? (history : List Deed) (key : String) : Option Maker := do
  let b ← (traced history).get? key
  let n ← b.origin
  (← history[n]?).maker?

/-- The name stands for something that a statement has made. -/
def isDeclared (r : Registry) (key : String) : Bool :=
  ((r.get? key).bind (·.origin)).isSome

/-- A history knows how each binding was made. -/
theorem maker?_eq {history : List Deed} (hfair : ∀ deed ∈ history, deed.Fair) {key : String}
    {b : Binding} (hb : (Registry.empty.performAll history).get? key = some b) :
    ∃ maker, maker? history key = some maker ∧ b.origin.isSome = maker.isStatement ∧
      (maker.isScript = false → b.isConstant = true ∨ b.isFunction = true) := by
  rcases (alike_traced history).get?_cases key with ⟨hnone, _⟩ | ⟨b', c, hb', hc, n, rfl, hmakes⟩
  · rw [hb] at hnone
    cases hnone
  obtain rfl : b = b' := Option.some.inj (hb.symm.trans hb')
  obtain ⟨maker, key', made, hn, hmade⟩ := hmakes
  obtain ⟨horigin, hhost⟩ := hfair _ (List.mem_of_getElem? hn) maker key' made rfl
  refine ⟨maker, ?_, ?_, ?_⟩
  · simp [maker?, hc, hn, Deed.maker?]
  · rw [hmade]
    exact horigin
  · rw [hmade]
    exact hhost

/-- The names that an `extern` statement leaves alone are those that a declaration or a function's
declaration has bound. -/
theorem isDeclared_eq {history : List Deed} (hfair : ∀ deed ∈ history, deed.Fair) (key : String) :
    (Registry.empty.performAll history).isDeclared key =
      (maker? history key).any Maker.isStatement := by
  unfold isDeclared
  cases hb : (Registry.empty.performAll history).get? key with
  | some b =>
    obtain ⟨maker, hmaker, horigin, _⟩ := maker?_eq hfair hb
    rw [hmaker]
    exact horigin
  | none =>
    rcases (alike_traced history).get?_cases key with ⟨_, hnone⟩ | ⟨b, _, hsome, _⟩
    · simp [maker?, hnone]
    · rw [hb] at hsome
      cases hsome

/-! ### Members of a module -/

/-- The registry with members of a module bound. -/
def bindMembers (nickname : String) (entries : List (String × HostEntry)) (r : Registry) :
    Registry :=
  entries.foldl (fun r e => r.define (Host.qualified nickname e.1) (Engine.hostBinding e.2)) r

/-- The members of a module up to the first whose name a statement has bound. -/
def admitted (r : Registry) (nickname : String) (entries : List (String × HostEntry)) :
    List (String × HostEntry) :=
  entries.takeWhile fun e => !r.isDeclared (Host.qualified nickname e.1)

variable {nickname : String} {entries : List (String × HostEntry)} {r : Registry}

theorem bindMembers_eq (nickname : String) (entries : List (String × HostEntry)) (r : Registry) :
    bindMembers nickname entries r =
      { r with bindings := (bindMembers nickname entries r).bindings } := by
  induction entries generalizing r with
  | nil => rfl
  | cons e rest ih => exact ih (r.define (Host.qualified nickname e.1) (Engine.hostBinding e.2))

theorem get?_bindMembers_of_forall_ne {key : String}
    (h : ∀ e ∈ entries, Host.qualified nickname e.1 ≠ key) :
    (bindMembers nickname entries r).get? key = r.get? key := by
  induction entries generalizing r with
  | nil => rfl
  | cons e rest ih =>
    obtain ⟨hne, hrest⟩ := List.forall_mem_cons.mp h
    show (bindMembers nickname rest (r.define (Host.qualified nickname e.1) _)).get? key = _
    rw [ih hrest]
    show (r.bindings.insert _ _).get? key = r.bindings.get? key
    rw [Table.get?_insert, if_neg hne]

/-- A member is bound to what the host gives, unless a later one of the same name is bound. -/
theorem get?_bindMembers (before : List (String × HostEntry)) {after : List (String × HostEntry)}
    {e : String × HostEntry} (hafter : ∀ e' ∈ after, e'.1 ≠ e.1) :
    (bindMembers nickname (before ++ e :: after) r).get? (Host.qualified nickname e.1) =
      some (Engine.hostBinding e.2) := by
  have hne : ∀ e' ∈ after, Host.qualified nickname e'.1 ≠ Host.qualified nickname e.1 := by
    intro e' he' hsame
    exact hafter e' he' (by simpa [Host.qualified, String.ext_iff] using hsame)
  simp only [bindMembers, List.foldl_append, List.foldl_cons]
  refine (get?_bindMembers_of_forall_ne hne).trans ?_
  show (Table.insert _ _ _).get? _ = _
  rw [Table.get?_insert, if_pos rfl]

/-- Binding a member of a module declares no name, and takes none from a statement. -/
theorem isDeclared_define {key : String} (h : r.isDeclared key = false) (entry : HostEntry) :
    (r.define key (Engine.hostBinding entry)).isDeclared = r.isDeclared := by
  funext key'
  unfold isDeclared
  show (((r.bindings.insert key _).get? key').bind _).isSome = _
  rw [Table.get?_insert]
  split
  next heq =>
    subst heq
    unfold isDeclared at h
    rw [h]
    cases entry <;> rfl
  · rfl

end Registry

namespace Engine

theorem bindEntries_cons (nickname : String) (line : Nat) (e : String × HostEntry)
    (rest : List (String × HostEntry)) (m : Machine) :
    let key := Host.qualified nickname e.1
    bindEntries nickname line (e :: rest) m =
      if m.registry.isDeclared key then .error (.failed ⟨line, .alreadyDeclared key⟩) m
      else bindEntries nickname line rest ((m.record (.makes [(key, hostBinding e.2)])).update
        (Situation.onRegistry fun r => r.define key (hostBinding e.2))) := by
  intro key
  rw [bindEntries, Run.look_bind_of_eq rfl]
  show (if m.registry.isDeclared key = true then
    Run.fail line (.alreadyDeclared key) else _ : Run Unit) m = _
  split <;> rfl

/-- The members of a module are bound up to the first whose name a statement has bound; there the
statement fails. -/
theorem bindEntries_eq (nickname : String) (line : Nat) (entries : List (String × HostEntry))
    (m : Machine) :
    let admitted := m.registry.admitted nickname entries
    ∃ m', m'.toSituation = m.toSituation.onRegistry (Registry.bindMembers nickname admitted) ∧
      ((admitted = entries ∧ bindEntries nickname line entries m = .ok () m') ∨
        ∃ e rest, entries = admitted ++ e :: rest ∧
          m.registry.isDeclared (Host.qualified nickname e.1) = true ∧
          bindEntries nickname line entries m =
            .error (.failed ⟨line, .alreadyDeclared (Host.qualified nickname e.1)⟩) m') := by
  induction entries generalizing m with
  | nil => exact ⟨m, rfl, .inl ⟨rfl, rfl⟩⟩
  | cons e rest ih =>
    rw [bindEntries_cons]
    cases hkey : m.registry.isDeclared (Host.qualified nickname e.1) with
    | true =>
      have hnil : m.registry.admitted nickname (e :: rest) = [] := by
        simp [Registry.admitted, hkey]
      simp only [hnil]
      exact ⟨m, rfl, .inr ⟨e, rest, rfl, hkey, rfl⟩⟩
    | false =>
      let key := Host.qualified nickname e.1
      let bind := Situation.onRegistry fun r => r.define key (hostBinding e.2)
      let k := (m.record (.makes [(key, hostBinding e.2)])).update bind
      have hk : k.toSituation = bind m.toSituation := congrArg toSituation (update_record ..)
      -- Names are declared or not as before, so the rest is admitted as it would have been.
      have hdeclared : k.registry.isDeclared = m.registry.isDeclared := by
        rw [hk]
        exact Registry.isDeclared_define hkey e.2
      have hcons : m.registry.admitted nickname (e :: rest) =
          e :: k.registry.admitted nickname rest := by
        simp only [Registry.admitted, hdeclared, List.takeWhile_cons, hkey, Bool.not_false, if_true]
      simp only [hcons]
      obtain ⟨m', hm', hends⟩ := ih k
      have hmembers : m'.toSituation = m.toSituation.onRegistry
          (Registry.bindMembers nickname (e :: k.registry.admitted nickname rest)) := by
        generalize k.registry.admitted nickname rest = admitted at hm' ⊢
        rw [hm', hk]
        rfl
      refine ⟨m', hmembers, ?_⟩
      rcases hends with ⟨hall, hok⟩ | ⟨e', rest', hsplit, hbound, herror⟩
      · exact .inl ⟨by rw [hall], hok⟩
      · rw [hdeclared] at hbound
        refine .inr ⟨e', rest', ?_, hbound, herror⟩
        rw [List.cons_append, ← hsplit]

variable {w : World} {source : String}

theorem runExtern_of_none (h : w.host.module? source = none) (nickname : String) (line : Nat)
    (m : Machine) :
    runExtern w source nickname line m =
      .error (.failed ⟨line, .unknownModule source⟩) (m.record (.imports source nickname)) := by
  show bindModule w source nickname line (m.record (.imports source nickname)) = _
  rw [bindModule, h]
  rfl

theorem runExtern_of_some {entries : List (String × HostEntry)}
    (h : w.host.module? source = some entries) (nickname : String) (line : Nat) (m : Machine) :
    let admitted := m.registry.admitted nickname entries
    ∃ m', m'.toSituation = m.toSituation.onRegistry (Registry.bindMembers nickname admitted) ∧
      ((admitted = entries ∧ runExtern w source nickname line m = .ok () m') ∨
        ∃ e rest, entries = admitted ++ e :: rest ∧
          m.registry.isDeclared (Host.qualified nickname e.1) = true ∧
          runExtern w source nickname line m =
            .error (.failed ⟨line, .alreadyDeclared (Host.qualified nickname e.1)⟩) m') := by
  let m₁ := m.record (.imports source nickname)
  have hm₁ : m₁.toSituation = m.toSituation := toSituation_record ..
  have hrun : runExtern w source nickname line m = bindEntries nickname line entries m₁ := by
    show bindModule w source nickname line m₁ = _
    rw [bindModule, h]
  have hends := bindEntries_eq nickname line entries m₁
  rw [hm₁] at hends
  rw [hrun]
  exact hends

end Engine

/-! ### Sessions -/

namespace Session

/-- In a session every history makes its bindings in a fair way. -/
theorem fair_of_path {w : World} {deeds : List Deed} {s s' : Situation}
    (h : Situation.Path w deeds s s') : ∀ deed ∈ Deed.first :: deeds, deed.Fair := by
  intro deed hd
  rcases List.mem_cons.mp hd with rfl | hd
  · exact Deed.first_fair
  · obtain ⟨label, change, hchange, hmem⟩ := h.ofChange hd
    exact hchange.fair hmem

theorem registry_eq_of_path {w : World} {console : Console} {baseDir : Path} {deeds : List Deed}
    {s : Situation} (h : Situation.Path w deeds (Machine.fresh console baseDir).toSituation s) :
    s.registry = Registry.empty.performAll (Deed.first :: deeds) :=
  h.registry_eq

/-- What an `extern` statement does anywhere in a session.

Let the names be told apart by who made the bindings they stand for.  The members of the module are
bound, in order, up to the first whose name stands for something that a declaration or a function's
declaration made, and there the statement fails with a name error; without such a member it
succeeds.  A member that is bound stands for what the host gives.  Names that a declaration or a
function's declaration has bound keep their bindings, and so do all names that no bound member has,
among them parameters and loop items.  Calls, loops and all that is hidden are left alone. -/
theorem extern_keeps_declared (w : World) (console : Console) (baseDir : Path)
    (steps : List (Nat × Step)) {s : Situation}
    (hs : s ∈ course w steps (Machine.fresh console baseDir)) :
    let start := (Machine.fresh console baseDir).toSituation
    start.Reaches w s ∧
    ∀ deeds, Situation.Path w deeds start s → ∀ m : Machine, m.toSituation = s →
      ∀ source nickname line,
      let declared key := (Registry.maker? (Deed.first :: deeds) key).any Maker.isStatement
      let run := Engine.runExtern w source nickname line
      let s' := (Run.final run m).toSituation
      (w.host.module? source = none →
        run m = .error (.failed ⟨line, .unknownModule source⟩) (Run.final run m) ∧ s' = s) ∧
      ∀ entries, w.host.module? source = some entries →
        let bound := entries.takeWhile fun e => !declared (Host.qualified nickname e.1)
        (bound = entries ∧ run m = .ok () (Run.final run m) ∨
          ∃ e rest, entries = bound ++ e :: rest ∧ declared (Host.qualified nickname e.1) = true ∧
            run m = .error (.failed ⟨line, .alreadyDeclared (Host.qualified nickname e.1)⟩)
              (Run.final run m) ∧
            (Cause.alreadyDeclared (Host.qualified nickname e.1)).category = .name) ∧
        (∀ before e after, bound = before ++ e :: after → (∀ e' ∈ after, e'.1 ≠ e.1) →
          s'.registry.get? (Host.qualified nickname e.1) = some (Engine.hostBinding e.2)) ∧
        (∀ key, declared key = true → s'.registry.get? key = s.registry.get? key) ∧
        (∀ key, (∀ e ∈ bound, Host.qualified nickname e.1 ≠ key) →
          s'.registry.get? key = s.registry.get? key) ∧
        s' = { s with registry := { s.registry with bindings := s'.registry.bindings } } := by
  intro start
  have hreach : Reachable w (Machine.fresh console baseDir) := .fresh console baseDir
  refine ⟨course_keeps (fun hc h => h.step hc) hreach (.refl _) steps s hs, ?_⟩
  rintro deeds hpath m rfl source nickname line declared run s'
  have hdeclared : declared = m.registry.isDeclared := by
    funext key
    rw [registry_eq_of_path hpath, Registry.isDeclared_eq (fair_of_path hpath)]
  refine ⟨fun hnone => ?_, fun entries hentries => ?_⟩
  · have hrun : run m = .error _ _ := Engine.runExtern_of_none hnone nickname line m
    have hs' : s' = m.toSituation := by
      show (Run.final run m).toSituation = _
      rw [Run.final_of_error hrun, toSituation_record]
    rw [Run.final_of_error hrun]
    exact ⟨hrun, hs'⟩
  · intro bound
    have hbound : bound = m.registry.admitted nickname entries := by
      simp only [bound, hdeclared, Registry.admitted]
    obtain ⟨m', hm', hends⟩ := Engine.runExtern_of_some hentries nickname line m
    have hfinal : Run.final run m = m' := by
      rcases hends with ⟨_, hok⟩ | ⟨_, _, _, _, herror⟩
      · exact Run.final_of_ok hok
      · exact Run.final_of_error herror
    have hs' : s' = m.toSituation.onRegistry (Registry.bindMembers nickname bound) := by
      show (Run.final run m).toSituation = _
      rw [hfinal, hbound]
      exact hm'
    have hget : ∀ key, (∀ e ∈ bound, Host.qualified nickname e.1 ≠ key) →
        s'.registry.get? key = m.registry.get? key := by
      intro key hkey
      rw [hs']
      exact Registry.get?_bindMembers_of_forall_ne hkey
    refine ⟨?_, fun before e after hsplit hafter => ?_, fun key hkey => ?_, hget, ?_⟩
    · rw [hfinal, hbound, hdeclared]
      rcases hends with hok | ⟨e, rest, hsplit, hkey, herror⟩
      · exact .inl hok
      · exact .inr ⟨e, rest, hsplit, hkey, herror, rfl⟩
    · rw [hs', hsplit]
      exact Registry.get?_bindMembers before hafter
    · -- A member of the same name would have ended the list before it was bound.
      refine hget key fun e he hsame => ?_
      have hnot := List.mem_takeWhile_imp he
      rw [hsame, hkey] at hnot
      cases hnot
    · rw [hs']
      exact congrArg (fun r => { m.toSituation with registry := r }) (Registry.bindMembers_eq ..)

/-- The module has three members.  The first takes the place of a parameter, the second is declared
and ends the statement, and the third is not bound. -/
theorem extern_keeps_declared_second :
    let host := ((Host.empty.registerConstant "a" "b" (.int 7)).registerConstant "a" "c"
      (.int 8)).registerConstant "a" "d" (.int 9)
    let w : World := ⟨host, .constant ""⟩
    let m := Machine.fresh { input := [] } .empty
    let steps : List (Nat × Step) :=
      [(40, .source "a.c = 1; fun f(a.b) \x7b extern a; \x7d call f(3);")]
    ∃ s ∈ course w steps m, m.toSituation.Reaches w s ∧
      ∀ deeds, Situation.Path w deeds m.toSituation s →
      ∃ m', Engine.runExtern w "a" "a" 1 { toSituation := s } =
          .error (.failed ⟨1, .alreadyDeclared "a.c"⟩) m' ∧
        m'.registry.get? "a.b" = some (.ofConstant (.int 7)) ∧
        m'.registry.get? "a.c" = s.registry.get? "a.c" ∧
        m'.registry.get? "a.d" = s.registry.get? "a.d" := by
  intro host w m steps
  have hcheck : ((course w steps m)[13]?.any fun s =>
      !s.registry.isDeclared "a.b" && s.registry.isDeclared "a.c") = true := by
    decide +kernel
  obtain ⟨s, hs, hkeys⟩ := (Option.any_eq_true ..).mp hcheck
  simp only [Bool.and_eq_true, Bool.not_eq_true'] at hkeys
  have hmem := List.mem_of_getElem? hs
  obtain ⟨hreaches, hextern⟩ := extern_keeps_declared w { input := [] } .empty steps hmem
  refine ⟨s, hmem, hreaches, fun deeds hpath => ?_⟩
  let entries : List (String × HostEntry) :=
    [("b", .constant (.int 7)), ("c", .constant (.int 8)), ("d", .constant (.int 9))]
  let declared key := (Registry.maker? (Deed.first :: deeds) key).any Maker.isStatement
  have hdeclared : ∀ key, declared key = s.registry.isDeclared key := by
    intro key
    rw [registry_eq_of_path hpath, Registry.isDeclared_eq (fair_of_path hpath)]
  have hbound : (entries.takeWhile fun e => !declared (Host.qualified "a" e.1)) =
      [("b", .constant (.int 7))] := by
    have hb : declared (Host.qualified "a" "b") = false := (hdeclared _).trans hkeys.1
    have hc : declared (Host.qualified "a" "c") = true := (hdeclared _).trans hkeys.2
    simp [entries, hb, hc]
  obtain ⟨-, hsome⟩ := hextern deeds hpath { toSituation := s } rfl "a" "a" 1
  obtain ⟨hends, hmembers, hkept, hothers, -⟩ := hsome entries rfl
  rw [hbound] at hends hmembers hothers
  refine ⟨_, ?_, hmembers [] _ [] rfl (by simp), hkept "a.c" ((hdeclared _).trans hkeys.2),
    hothers "a.d" (by decide)⟩
  rcases hends with ⟨hall, _⟩ | ⟨e, rest, hsplit, _, herror, _⟩
  · simp [entries] at hall
  · simp only [entries, List.cons_append, List.nil_append, List.cons.injEq] at hsplit
    obtain ⟨-, rfl, -⟩ := hsplit
    exact herror

/-- A parameter may be named like a member of a module.  The script has bound the name, but the
`extern` statement succeeds and the name stands for the host's constant. -/
theorem extern_replaces_parameter :
    let w : World := ⟨Host.empty.registerConstant "a" "b" (.int 7), .constant ""⟩
    let m := Machine.fresh { input := [] } .empty
    let steps : List (Nat × Step) :=
      [(40, .source "fun f(a.b) \x7b extern a; print a.b; \x7d call f(3);")]
    ∃ s ∈ course w steps m, ∃ deeds, Situation.Path w deeds m.toSituation s ∧
      (Registry.maker? (Deed.first :: deeds) "a.b").any Maker.isScript = true ∧
      (s.registry.value? "a.b").bind (·.toInt?) = some 3 ∧
      ∃ m', Engine.runExtern w "a" "a" 1 { toSituation := s } = .ok () m' ∧
        m'.registry.get? "a.b" = some (.ofConstant (.int 7)) := by
  intro w m steps
  have hcheck : ((course w steps m)[10]?.any fun s => (s.registry.get? "a.b").any fun b =>
      b.value.toInt? == some 3 && !b.isConstant && !b.isFunction && b.origin.isNone) = true := by
    decide +kernel
  obtain ⟨s, hs, hsome⟩ := (Option.any_eq_true ..).mp hcheck
  obtain ⟨b, hb, hfacts⟩ := (Option.any_eq_true ..).mp hsome
  simp only [Bool.and_eq_true, beq_iff_eq, Bool.not_eq_true', Option.isNone_iff_eq_none] at hfacts
  obtain ⟨⟨⟨hvalue, hconstant⟩, hfunction⟩, horigin⟩ := hfacts
  have hmem := List.mem_of_getElem? hs
  obtain ⟨deeds, hpath⟩ : m.toSituation.Reaches w s :=
    course_keeps (fun hc h => h.step hc) (.fresh _ _) (.refl _) steps s hmem
  refine ⟨s, hmem, deeds, hpath, ?_, by simp [Registry.value?, hb, hvalue], ?_⟩
  · rw [registry_eq_of_path hpath] at hb
    obtain ⟨maker, hmaker, _, hhost⟩ := Registry.maker?_eq (fair_of_path hpath) hb
    rw [hmaker]
    cases hscript : maker.isScript with
    | true => exact hscript
    | false =>
      rcases hhost hscript with hc | hf
      · simp [hconstant] at hc
      · simp [hfunction] at hf
  · have hfree : s.registry.isDeclared "a.b" = false := by simp [Registry.isDeclared, hb, horigin]
    have hadmitted : s.registry.admitted "a" [("b", .constant (.int 7))] =
        [("b", .constant (.int 7))] := by
      have hfree' : s.registry.isDeclared (Host.qualified "a" "b") = false := hfree
      simp [Registry.admitted, hfree']
    have hmodule : w.host.module? "a" = some [("b", .constant (.int 7))] := rfl
    obtain ⟨m', hm', hends⟩ := Engine.runExtern_of_some hmodule "a" 1 { toSituation := s }
    rcases hends with ⟨_, hok⟩ | ⟨e, rest, hsplit, _⟩
    · refine ⟨m', hok, ?_⟩
      rw [hm', hadmitted]
      apply Registry.get?_bindMembers []
      simp
    · rw [hadmitted] at hsplit
      simp at hsplit

end Session

end TagLang
