import Mathlib.Data.List.Nodup
import Mathlib.Data.List.Perm.Subperm
import VersionedGraph.Proofs.Write
import VersionedGraph.Store.Access

/-!
# What groups users are in

A user may make up groups and join them one after the other (`Store.joining`). Each of them is one
more principal that the user acts as, and nothing bounds how many there are.
-/

namespace VersionedGraph

namespace Store

/-- The store with some groups and a user in each of them, and with no others. -/
def joined (s : Store) (user : String) (names : List String) : Store :=
  { s with
    groups := names.map fun name => ⟨some name, name, none, 0, none⟩
    memberships := names.map fun name => ⟨name, .user, user⟩ }

/-- What makes up groups and puts a user into them. -/
def joining (user : String) (names : List String) : List (Operation × Stamp) :=
  names.flatMap fun name : String =>
    [(.createGroup { name := .str name }, ⟨name, 0⟩),
      (.addMember (.str name) (.str "user") (.str user), ⟨name, 0⟩)]

variable {s : Store} {user name : String} {names more : List String}

theorem settle_named : (GroupCreation.columns { name := .str name } ⟨name, 0⟩).settle =
    .ok ⟨some name, name, none, 0, none⟩ := by
  have hword : fitsWord 0 = true := by decide
  have hhanded : Json.handOver [.str name, .str name, .null, .int 0, .null] = .ok () := by
    simp [Json.handOver, Json.firstBindFault?, Json.bindFault?, hword]
  change (Json.handOver [.str name, .str name, .null, .int 0, .null] >>= _) = _
  rw [hhanded]
  simp [GroupCreation.columns, Json.orElse, Json.isVacant]

theorem after_joining_new (hname : name ∉ names) :
    (s.joined user names).after (joining user [name]) = s.joined user (names ++ [name]) := by
  let t : Store := { s.joined user names with
    groups := (s.joined user names).groups ++ [⟨some name, name, none, 0, none⟩] }
  have hcreate : (Action.createGroup { name := .str name } ⟨name, 0⟩).storeAfter
      (s.joined user names) = t := by
    have hyields : (Action.createGroup { name := .str name } ⟨name, 0⟩).Yields (s.joined user names)
        (GroupCreation.columns { name := .str name } ⟨name, 0⟩) t := by
      simp [Action.createGroup, settle_named, joined, group?, hname, t, -bind_pure_comp]
    exact Action.storeAfter_of_yields hyields
  have hadd : (Action.addMember (.str name) (.str "user") (.str user)).storeAfter t =
      s.joined user (names ++ [name]) := by
    have htype : (Json.str "user").text?.bind PrincipalType.ofName? = some .user := rfl
    have hhanded : Json.handOver [.str name, .str "user", .str user] = .ok () :=
      Json.handOver_texts [name, "user", user] 1
    have hyields : (Action.addMember (.str name) (.str "user") (.str user)).Yields t ()
        (s.joined user (names ++ [name])) := by
      simp [Action.addMember, htype, hhanded, joined, group?, hname, t]
    exact Action.storeAfter_of_yields hyields
  change (Action.addMember (.str name) (.str "user") (.str user)).storeAfter
    ((Action.createGroup { name := .str name } ⟨name, 0⟩).storeAfter (s.joined user names)) = _
  rw [hcreate, hadd]

theorem after_joining (hnodup : (names ++ more).Nodup) :
    (s.joined user names).after (joining user more) = s.joined user (names ++ more) := by
  induction more generalizing names with
  | nil =>
    rw [List.append_nil]
    rfl
  | cons name rest ih =>
    have hsplit : joining user (name :: rest) = joining user [name] ++ joining user rest := rfl
    have hname : name ∉ names := fun hmem =>
      (List.nodup_append.1 hnodup).2.2 name hmem name List.mem_cons_self rfl
    rw [List.append_cons] at hnodup ⊢
    rw [hsplit, after_append, after_joining_new hname, ih hnodup]

theorem nodup_map_repr (n : Nat) : ((List.range n).map Nat.repr).Nodup := by
  refine List.nodup_range.map fun i j hij => ?_
  have hdigits : Nat.toDigits 10 i = Nat.toDigits 10 j := by
    rw [Nat.repr_eq_ofList_toDigits, Nat.repr_eq_ofList_toDigits] at hij
    exact String.ofList_injective hij
  have hvalue := congrArg (fun cs => Nat.ofDigitChars 10 cs 0) hdigits
  simpa [Nat.ofDigitChars_toDigits] using hvalue

/-- A user acts as more principals than the groups that were joined. -/
theorem length_lt_principalsOf_joined (hnodup : names.Nodup) :
    names.length < ((s.joined user names).principalsOf user).length := by
  have hdirect : (s.joined user names).groupsWith ⟨.user, user⟩ = names := by
    simp [groupsWith, joined, List.filter_map, Function.comp_def]
  have hsub : names ⊆ (s.joined user names).effectiveGroups user := by
    intro name hname
    unfold effectiveGroups closure
    rw [hdirect]
    exact (Closure.seen_prefix_extend _ _ _ _).subset (List.mem_eraseDups.2 hname)
  have hle := (hnodup.subperm hsub).length_le
  rw [principalsOf, List.length_cons, List.length_map]
  exact Nat.lt_succ_of_le hle

/-- Groups that are named by numerals can be joined in any number. -/
theorem after_joining_numerals (s : Store) (user : String) (n : Nat) :
    (s.joined user []).after (joining user ((List.range n).map Nat.repr)) =
      s.joined user ((List.range n).map Nat.repr) :=
  after_joining (nodup_map_repr n : ([] ++ (List.range n).map Nat.repr).Nodup)

theorem lt_principalsOf_numerals (s : Store) (user : String) (n : Nat) :
    n < ((s.joined user ((List.range n).map Nat.repr)).principalsOf user).length := by
  have hlt : ((List.range n).map Nat.repr).length <
      ((s.joined user ((List.range n).map Nat.repr)).principalsOf user).length :=
    length_lt_principalsOf_joined (nodup_map_repr n)
  rwa [List.length_map, List.length_range] at hlt

/-- A note for everybody, and a user who is in as many groups as a query asks for principals. -/
def thronging : List (Operation × Stamp) :=
  [(.create (k := .entity) { typeId := .str "note", ends := () }, ⟨"a", 1⟩)] ++
    joining "u" ((List.range 997).map Nat.repr)

/-- The row of that note. -/
def throngedNote : Row .entity :=
  ⟨"a", "note", (), "{}", .integer 1, none, .integer 1, none, false, true, none⟩

theorem rows_after_thronging :
    (empty.after thronging).rows .entity = [throngedNote] ∧
      maxPrincipals < ((empty.after thronging).principalsOf "u").length := by
  let before : Store := { entities := [throngedNote] }
  have hbefore : empty.after [(.create (k := .entity) { typeId := .str "note", ends := () },
      ⟨"a", 1⟩)] = before.joined "u" [] := by decide +kernel
  have hafter : empty.after thronging = before.joined "u" ((List.range 997).map Nat.repr) := by
    rw [thronging, after_append, hbefore, after_joining_numerals]
  rw [hafter]
  exact ⟨rfl, lt_principalsOf_numerals before "u" 997⟩

end Store

end VersionedGraph
