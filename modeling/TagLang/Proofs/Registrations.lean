import TagLang.Host.Basic

/-!
# Filling a host

A host is filled by registrations of functions and constants, one after the other.  What it answers
can be read off their list (`Host.last_registration_wins`): a module is there if something was
registered under its name, it lists its members in the order of their first registrations, and a
member is what was registered last, be it a function or a constant.

`Host.Records` ties a host to the registrations it has seen.  One registration keeps it
(`Host.Records.perform`), so it holds of every list of them.
-/

namespace TagLang

/-! ### Registrations -/

/-- What is registered with a host. -/
inductive Registration where
  | function (module member : String) (arity : Option Nat)
    (call : List Value → Except String Value)
  | constant (module member : String) (v : Value)

namespace Registration

/-- The module under whose name something is registered. -/
def module : Registration → String
  | function module _ _ _ | constant module _ _ => module

/-- The name that is registered in the module. -/
def member : Registration → String
  | function _ member _ _ | constant _ member _ => member

/-- The entry that is registered; a function knows its qualified name. -/
def entry : Registration → HostEntry
  | function module member arity call => .function ⟨Host.qualified module member, arity, call⟩
  | constant _ _ v => .constant v

/-- The registration is made under the name `m`, for the member `n`. -/
def isOf (m n : String) (r : Registration) : Bool :=
  r.module == m && r.member == n

/-- The entry that was registered last for a member. -/
def latest? (rs : List Registration) (m n : String) : Option HostEntry :=
  (rs.reverse.find? (isOf m n)).map entry

/-- The number of the first registration for a member. -/
def firstPlace (rs : List Registration) (m n : String) : Nat :=
  rs.findIdx (isOf m n)

/-- The entries are those of the module `m`: every name registered under `m` stands there once, in
the order of first registrations, with the entry that was registered last. -/
structure Listing (rs : List Registration) (m : String) (entries : List (String × HostEntry)) :
    Prop where
  registered : ∀ n, n ∈ entries.map (·.1) ↔ ∃ r ∈ rs, r.module = m ∧ r.member = n
  once : (entries.map (·.1)).Nodup
  inOrder : (entries.map (·.1)).Pairwise fun n n' => firstPlace rs m n < firstPlace rs m n'
  latest : ∀ n e, (n, e) ∈ entries ↔ latest? rs m n = some e

variable {rs : List Registration} {r : Registration} {m n : String}

theorem isOf_iff : r.isOf m n = true ↔ r.module = m ∧ r.member = n := by
  simp [isOf]

theorem latest?_snoc (rs : List Registration) (r : Registration) (m n : String) :
    latest? (rs ++ [r]) m n = if r.isOf m n then some r.entry else latest? rs m n := by
  rw [latest?, List.reverse_append, List.reverse_singleton, List.singleton_append, List.find?_cons]
  cases r.isOf m n <;> rfl

theorem latest?_ne_none_iff : latest? rs m n ≠ none ↔ ∃ r ∈ rs, r.module = m ∧ r.member = n := by
  simp [latest?, isOf_iff]

theorem firstPlace_lt_iff :
    firstPlace rs m n < rs.length ↔ ∃ r ∈ rs, r.module = m ∧ r.member = n := by
  simp only [firstPlace, List.findIdx_lt_length, isOf_iff]

/-- Later registrations do not move the first one. -/
theorem firstPlace_snoc_of_lt (h : firstPlace rs m n < rs.length) (r : Registration) :
    firstPlace (rs ++ [r]) m n = firstPlace rs m n := by
  rw [firstPlace, List.findIdx_append]
  exact if_pos h

theorem firstPlace_snoc_self (h : ¬ firstPlace rs m n < rs.length) (hr : r.isOf m n = true) :
    firstPlace (rs ++ [r]) m n = rs.length := by
  rw [firstPlace, List.findIdx_append, List.findIdx_cons, hr]
  exact (if_neg h).trans (Nat.zero_add _)

end Registration

open Registration

namespace Host

/-- The host with something registered. -/
def perform (host : Host) : Registration → Host
  | .function module member arity call => host.register module member arity call
  | .constant module member v => host.registerConstant module member v

/-- The host that some registrations fill, the first of them first. -/
def ofRegistrations (rs : List Registration) : Host :=
  rs.foldl perform empty

theorem perform_eq_insert (host : Host) (r : Registration) :
    host.perform r = host.insert r.module r.member r.entry := by
  cases r <;> rfl

/-! ### What a host has seen -/

/-- The members of a module; a module that is not there has none. -/
def members (host : Host) (m : String) : Table String HostEntry :=
  (host.modules.get? m).getD .empty

/-- The host answers as the registrations tell. -/
structure Records (host : Host) (rs : List Registration) : Prop where
  there : ∀ m, (host.modules.get? m).isSome ↔ ∃ r ∈ rs, r.module = m
  latest : ∀ m n, (host.members m).get? n = latest? rs m n
  inOrder : ∀ m, (host.members m).keys.Pairwise fun n n' => firstPlace rs m n < firstPlace rs m n'

theorem members_insert (host : Host) (m n : String) (e : HostEntry) (m' : String) :
    (host.insert m n e).members m' =
      if m = m' then (host.members m).insert n e else host.members m' := by
  unfold members insert
  rw [Table.get?_insert]
  split <;> rfl

variable {host : Host} {rs : List Registration}

theorem records_empty : empty.Records [] where
  there m := by simp [empty]
  latest m n := rfl
  inOrder m := .nil

theorem Records.mem_keys_iff (h : host.Records rs) (m n : String) :
    n ∈ (host.members m).keys ↔ ∃ r ∈ rs, r.module = m ∧ r.member = n := by
  rw [Table.mem_keys_iff, h.latest, latest?_ne_none_iff]

/-- The order of the members of a module stays when something is registered. -/
theorem Records.inOrder_snoc (h : host.Records rs) (r : Registration) (m : String) :
    (host.members m).keys.Pairwise fun n n' =>
      firstPlace (rs ++ [r]) m n < firstPlace (rs ++ [r]) m n' := by
  refine (h.inOrder m).imp_of_mem fun hn hn' hlt => ?_
  rw [firstPlace_snoc_of_lt (firstPlace_lt_iff.mpr ((h.mem_keys_iff m _).mp hn)),
    firstPlace_snoc_of_lt (firstPlace_lt_iff.mpr ((h.mem_keys_iff m _).mp hn'))]
  exact hlt

/-- A registration puts its member behind all others, unless it is there already. -/
theorem Records.inOrder_insert (h : host.Records rs) (r : Registration) :
    ((host.members r.module).insert r.member r.entry).keys.Pairwise fun n n' =>
      firstPlace (rs ++ [r]) r.module n < firstPlace (rs ++ [r]) r.module n' := by
  have hold := h.inOrder_snoc r r.module
  rw [Table.keys_insert]
  split
  · exact hold
  next hnew =>
    refine List.pairwise_append.mpr ⟨hold, List.pairwise_singleton _ _, fun n hn n' hn' => ?_⟩
    cases List.mem_singleton.mp hn'
    have hplace := firstPlace_lt_iff.mpr ((h.mem_keys_iff r.module n).mp hn)
    rw [h.mem_keys_iff, ← firstPlace_lt_iff] at hnew
    rw [firstPlace_snoc_of_lt hplace, firstPlace_snoc_self hnew (isOf_iff.mpr ⟨rfl, rfl⟩)]
    exact hplace

/-- A registration is seen as the last one for its member, and changes nothing else. -/
theorem Records.perform (h : host.Records rs) (r : Registration) :
    (host.perform r).Records (rs ++ [r]) := by
  rw [perform_eq_insert]
  refine ⟨fun m => ?_, fun m n => ?_, fun m => ?_⟩
  · rw [insert, Table.get?_insert]
    by_cases hm : r.module = m
    · simp [hm]
    · simp [hm, h.there]
  · rw [latest?_snoc, members_insert]
    by_cases hm : r.module = m
    · subst hm
      simp [isOf, h.latest]
    · simp [isOf, hm, h.latest]
  · rw [members_insert]
    split
    next hm =>
      subst hm
      exact h.inOrder_insert r
    next => exact h.inOrder_snoc r m

/-- A host has seen what filled it, after what it had seen before. -/
theorem Records.foldl (h : host.Records rs) (later : List Registration) :
    (later.foldl Host.perform host).Records (rs ++ later) := by
  induction later generalizing host rs with
  | nil => rwa [List.append_nil]
  | cons r later ih =>
    have hlater := ih (h.perform r)
    rwa [List.append_assoc, List.singleton_append] at hlater

theorem records_ofRegistrations (rs : List Registration) : (ofRegistrations rs).Records rs :=
  records_empty.foldl rs

/-! ### What a host answers -/

theorem isSome_module? (host : Host) (m : String) :
    (host.module? m).isSome = (host.modules.get? m).isSome :=
  Option.isSome_map

theorem Records.listing (h : host.Records rs) {m : String} {entries : List (String × HostEntry)}
    (hm : host.module? m = some entries) : Listing rs m entries := by
  obtain ⟨t, ht, rfl⟩ := Option.map_eq_some_iff.mp hm
  have hmembers : host.members m = t := by rw [members, ht]; rfl
  have hinOrder := h.inOrder m
  have hregistered := h.mem_keys_iff m
  have hlatest := h.latest m
  rw [hmembers] at hinOrder hregistered hlatest
  have hnodup : t.keys.Nodup := by
    refine hinOrder.imp fun {n n'} hlt => ?_
    rintro rfl
    exact Nat.lt_irrefl _ hlt
  exact ⟨hregistered, hnodup, hinOrder, fun n e => by rw [Table.mem_entries_iff hnodup, hlatest]⟩

/-- A name is split at its first dot. -/
theorem splitAtDot_eq_some_iff {cs : List Char} {m n : String} :
    splitAtDot cs = some (m, n) ↔ cs = m.toList ++ '.' :: n.toList ∧ '.' ∉ m.toList := by
  constructor
  · intro h
    have hcs := List.takeWhile_append_dropWhile (p := (· != '.')) (l := cs)
    unfold splitAtDot at h
    split at h
    · cases h
    next c member hdrop =>
      have hdot : c = '.' := by
        have hhead := List.head?_dropWhile_not (· != '.') cs
        simpa [hdrop] using hhead
      cases h
      rw [hdrop, hdot] at hcs
      refine ⟨by simpa using hcs.symm, fun hmem => ?_⟩
      rw [String.toList_ofList] at hmem
      have hpass := List.all_eq_true.mp List.all_takeWhile _ hmem
      simp at hpass
  · rintro ⟨rfl, hm⟩
    have hpass : ∀ c ∈ m.toList, (c != '.') = true := by
      intro c hc
      rw [bne_iff_ne]
      rintro rfl
      exact hm hc
    have hdrop : (m.toList ++ '.' :: n.toList).dropWhile (· != '.') = '.' :: n.toList := by
      rw [List.dropWhile_append_of_pos hpass]
      rfl
    have htake : (m.toList ++ '.' :: n.toList).takeWhile (· != '.') = m.toList := by
      rw [List.takeWhile_append_of_pos hpass, List.takeWhile_cons_of_neg (by simp), List.append_nil]
    rw [splitAtDot, hdrop, htake]
    simp

/-- Looking up a name finds the functions among the members of the module before the first dot. -/
theorem lookup?_eq_some_iff {q : String} {f : HostFunction} :
    host.lookup? q = some f ↔ ∃ m n, q = qualified m n ∧ '.' ∉ m.toList ∧
      (host.members m).get? n = some (.function f) := by
  have hq : ∀ m n, splitAtDot q.toList = some (m, n) ↔ q = qualified m n ∧ '.' ∉ m.toList := by
    intro m n
    rw [splitAtDot_eq_some_iff, ← String.toList_inj]
    simp [qualified]
  simp only [lookup?, Option.bind_eq_bind, Option.bind_eq_some_iff, Prod.exists, hq, and_assoc]
  refine exists_congr fun m => exists_congr fun n => ?_
  refine and_congr_right fun _ => and_congr_right fun _ => ?_
  rw [members]
  cases host.modules.get? m with
  | none => simp
  | some t =>
    rw [Option.getD_some]
    simp only [Option.some.injEq, exists_eq_left']
    split
    next g hg => simp [hg]
    next hg =>
      simp only [reduceCtorEq, false_iff]
      exact hg f

/-- The last registration wins.

Fill a host by any registrations of functions and constants under any names.  A module is there
exactly if something was registered under its name, and it lists every name registered under it
once, in the order of first registrations, with the entry that was registered last.  Looking up a
name gives a function exactly if the name has a dot and the last registration for what stands behind
the first dot, in the module that stands before it, was that function. -/
theorem last_registration_wins (rs : List Registration) :
    let host := ofRegistrations rs
    (∀ m, (host.module? m).isSome ↔ ∃ r ∈ rs, r.module = m) ∧
    (∀ m entries, host.module? m = some entries → Listing rs m entries) ∧
    ∀ q f, host.lookup? q = some f ↔
      ∃ m n, q = m ++ "." ++ n ∧ '.' ∉ m.toList ∧ latest? rs m n = some (.function f) := by
  intro host
  have hrecords : host.Records rs := records_ofRegistrations rs
  refine ⟨fun m => ?_, fun m entries => hrecords.listing, fun q f => ?_⟩
  · rw [isSome_module?]
    exact hrecords.there m
  · simp only [lookup?_eq_some_iff, hrecords.latest, qualified]

-- A module whose name has a dot is there, but a name is split at its first dot, so none of its
-- functions is found.
example (call : List Value → Except String Value) :
    let host := ofRegistrations [.function "a.b" "c" none call, .function "a" "c" none call]
    (host.module? "a.b").isSome = true ∧ (host.lookup? "a.b.c").isSome = false ∧
      (host.lookup? "a.c").isSome = true :=
  ⟨rfl, rfl, rfl⟩

end Host

end TagLang
