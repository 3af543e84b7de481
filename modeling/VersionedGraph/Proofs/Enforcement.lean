import VersionedGraph.Clause.Column
import VersionedGraph.Proofs.Granting
import VersionedGraph.Proofs.Meaning

/-!
# Where access is enforced

Access is enforced in three places: by a check of a single resource, by a clause in a query, and by
a filter of what a query without such a clause has found. All three let the same through
(`Store.enforcement_agrees`). The clause counts by its text, read as what it says about the column
with the access list of a row (`AclClause.exists_readOnColumn`).
-/

namespace VersionedGraph

namespace Clause

open Statement

/-- A name is cut into lexemes, whatever stands behind it; the first of them is a name itself. -/
structure NamesColumn (column : String) (lexemes : List Lexeme) : Prop where
  lex : ∀ {rest : List Char}, rest.head?.all (!isWordChar ·) = true →
    lex (column.toList ++ rest) = lexemes ++ lex rest
  name : ∃ first others, lexemes = .name first :: others
  blank : ∀ rest, (column.toList ++ rest).head?.all (!Text.isAsciiBlank ·) = true

theorem namesColumn_acl : NamesColumn "acl_id" [.name "acl_id"] where
  lex hrest := lex_name rfl (fun _ => rfl) (by decide) (ofToken_word (by simp)) hrest
  name := ⟨_, _, rfl⟩
  blank _ := rfl

theorem namesColumn_aclOf (k : Kind) :
    NamesColumn (k.rowName ++ ".acl_id") [.name k.rowName, .dot, .name "acl_id"] where
  lex := by
    intro rest hrest
    have htext : (k.rowName ++ ".acl_id").toList ++ rest =
        k.rowName.toList ++ '.' :: ("acl_id".toList ++ rest) := by
      simp
    have hdot : Clause.lex ('.' :: ("acl_id".toList ++ rest)) =
        .dot :: Clause.lex ("acl_id".toList ++ rest) :=
      lex_sign 0 rfl
    rw [htext, lex_rowName, hdot, namesColumn_acl.lex hrest]
    rfl
  name := ⟨_, _, rfl⟩
  blank _ := by cases k <;> rfl

variable {column : String} {lexemes : List Lexeme} {value : Scalar} {rest : List Char}
  {values : List Scalar} {count : Nat}

theorem NamesColumn.lex_self (h : NamesColumn column lexemes) :
    Clause.lex column.toList = lexemes := by
  have halone : Clause.lex (column.toList ++ []) = lexemes ++ Clause.lex [] := h.lex rfl
  rwa [List.append_nil, lex_nil, List.append_nil] at halone

/-- A column that begins a clause is followed by what it is compared with. -/
theorem NamesColumn.readColumnSingle (h : NamesColumn column lexemes) (inner : Reader Clause) :
    readColumnSingle lexemes value inner ⟨Clause.lex (column.toList ++ ' ' :: rest), values⟩ =
      readComparison "" (.scalar value) ⟨Clause.lex (' ' :: rest), values⟩ := by
  obtain ⟨first, others, rfl⟩ := h.name
  rw [h.lex rfl]
  simp [Clause.readColumnSingle, readColumn]

theorem readColumnSingle_isNull (h : NamesColumn column lexemes) (inner : Reader Clause)
    (hrest : rest.head?.all (!isWordChar ·) = true) :
    readColumnSingle lexemes value inner
        ⟨Clause.lex (column.toList ++ ' ' :: (Keyword.is.text.toList ++
          ' ' :: (Keyword.null.text.toList ++ rest))), values⟩ =
      some (.isNull false (.scalar value), ⟨Clause.lex rest, values⟩) := by
  rw [h.readColumnSingle, lex_blank rfl, lex_keyword .is rfl, lex_blank rfl,
    lex_keyword .null hrest, readComparison]

theorem readColumnSingle_member (h : NamesColumn column lexemes) (inner : Reader Clause)
    (v : Scalar) (operands : List Scalar) :
    readColumnSingle lexemes value inner
        ⟨Clause.lex (column.toList ++ ' ' :: (Keyword.within.text.toList ++
          ' ' :: '(' :: (marks (v :: operands) ++ ')' :: rest))), v :: operands ++ values⟩ =
      some (.member false (.scalar value) ((v :: operands).map Operand.scalar),
        ⟨Clause.lex rest, values⟩) := by
  rw [h.readColumnSingle, lex_blank rfl, lex_keyword .within rfl, lex_blank rfl, lex_opening,
    readComparison, readItems_marks]
  rfl

theorem readColumnSingle_group {inner : Reader Clause} {text : List Char} {values' : List Scalar}
    {clause : Clause}
    (h : inner ⟨lex text, values'⟩ = some (clause, ⟨lex (')' :: rest), values⟩)) :
    readColumnSingle lexemes value inner ⟨lex ('(' :: text), values'⟩ =
      some (clause, ⟨lex rest, values⟩) := by
  rw [lex_opening]
  simp only [readColumnSingle, h, lex_closing, Option.bind_eq_bind, Option.bind_some,
    List.head?_cons, if_pos, List.drop_succ_cons, List.drop_zero, Option.pure_def]

/-- Of two parts with a connective between them both are read. -/
theorem readJoined_of_two {w : Keyword} {join : List Clause → Clause} {read : Reader Clause}
    {source : Source} {first second : Clause} {text : List Char} {values' : List Scalar}
    (hfirst : read source =
      some (first, ⟨lex (' ' :: (w.text.toList ++ ' ' :: text)), values'⟩))
    (hsecond : read ⟨lex (' ' :: text), values'⟩ = some (second, ⟨lex rest, values⟩))
    (hrest : (lex rest).head? ≠ some (.keyword w)) (hcount : 1 < count) :
    readJoined w join count read source = some (join [first, second], ⟨lex rest, values⟩) := by
  obtain ⟨count, rfl⟩ := Nat.exists_eq_add_of_lt hcount
  rw [lex_connective] at hfirst
  simp only [readJoined, Nat.add_comm 1, readParts, hfirst, hsecond, Option.bind_eq_bind,
    Option.bind_some, List.head?_cons, if_pos, List.drop_succ_cons, List.drop_zero, if_neg hrest,
    Option.pure_def, gather]

theorem readOnColumn_eq (h : NamesColumn column lexemes) {text : String} {clause : Clause}
    (hread : ∀ size, text.toList.length < size →
      readColumnClause lexemes value size size ⟨Clause.lex text.toList, values⟩ =
        some (clause, ⟨Clause.lex [], []⟩)) :
    readOnColumn column value text values = some clause := by
  rw [readOnColumn]
  simp only [h.lex_self, hread _ (Nat.lt_succ_self _), lex_nil]

/-- A text that only says that the column is empty. -/
theorem readOnColumn_isNull (h : NamesColumn column lexemes) :
    readOnColumn column value (column ++ " IS NULL") [] = some (.isNull false (.scalar value)) := by
  refine readOnColumn_eq h fun size hsize => ?_
  obtain ⟨depth, rfl⟩ := Nat.exists_eq_succ_of_ne_zero (Nat.ne_zero_of_lt hsize)
  have htext : (column ++ " IS NULL").toList = column.toList ++ ' ' :: (Keyword.is.text.toList ++
      ' ' :: (Keyword.null.text.toList ++ [])) := by
    simp [Keyword.text]
  have hend : (Clause.lex []).head? = none := by rw [lex_nil]; rfl
  rw [htext, readColumnClause]
  refine readJoined_of_single (readJoined_of_single ?_ ?_ (Nat.succ_pos _)) ?_ (Nat.succ_pos _)
  · exact readColumnSingle_isNull h _ rfl
  · simp [hend]
  · simp [hend]

/-- A text that says that the column is empty or has one of some values. -/
theorem readOnColumn_oneOf (h : NamesColumn column lexemes) (v : Scalar) (operands : List Scalar) :
    readOnColumn column value
        ("(" ++ column ++ " IS NULL OR " ++ column ++ " IN (" ++
          String.intercalate ", " ((v :: operands).map fun _ => "?") ++ "))") (v :: operands) =
      some (.any [.isNull false (.scalar value),
        .member false (.scalar value) ((v :: operands).map Operand.scalar)]) := by
  refine readOnColumn_eq h fun size hsize => ?_
  let second : List Char := column.toList ++ ' ' :: (Keyword.within.text.toList ++
    ' ' :: '(' :: (marks (v :: operands) ++ ')' :: [')']))
  have htext : ("(" ++ column ++ " IS NULL OR " ++ column ++ " IN (" ++
      String.intercalate ", " ((v :: operands).map fun _ => "?") ++ "))").toList =
        '(' :: (column.toList ++ ' ' :: (Keyword.is.text.toList ++ ' ' ::
          (Keyword.null.text.toList ++ ' ' :: (Keyword.or.text.toList ++ ' ' :: second)))) := by
    simp [second, marks, Keyword.text]
  rw [htext] at hsize ⊢
  obtain ⟨depth, rfl⟩ : ∃ depth, size = depth + 2 :=
    Nat.exists_eq_add_of_le' (by simp at hsize; omega)
  have hsecond : second.head?.all (!Text.isAsciiBlank ·) = true := h.blank _
  have hend : (Clause.lex []).head? = none := by rw [lex_nil]; rfl
  have hcount : 1 < depth + 2 := by omega
  have hclosed (w : Keyword) : (Clause.lex [')']).head? ≠ some (.keyword w) :=
    Closed.head_lex_ne (.inr ⟨[], rfl⟩) w
  have hor (text : List Char) :
      (Clause.lex (' ' :: (Keyword.or.text.toList ++ ' ' :: text))).head? ≠
        some (.keyword .and) := by
    rw [lex_connective]
    simp
  have hmember (inner : Reader Clause) :
      Clause.readColumnSingle lexemes value inner ⟨Clause.lex second, v :: operands ++ []⟩ =
        some (.member false (.scalar value) ((v :: operands).map Operand.scalar),
          ⟨Clause.lex [')'], []⟩) :=
    readColumnSingle_member h inner v operands
  rw [List.append_nil] at hmember
  rw [readColumnClause]
  refine readJoined_of_single (readJoined_of_single (readColumnSingle_group ?_) ?_ (by omega)) ?_
    (by omega)
  · refine readJoined_of_two (readJoined_of_single (readColumnSingle_isNull h _ rfl) (hor _)
      (by omega)) (readJoined_of_single ?_ (hclosed .and) (by omega)) (hclosed .or) hcount
    rw [lex_blank hsecond]
    exact hmember _
  · simp [hend]
  · simp [hend]

end Clause

namespace AclClause

/-- The text of a clause, read with its bindings as what it says about the column with the access
list of a row, is true where the clause is. -/
theorem exists_readOnColumn {column : String} {lexemes : List Clause.Lexeme}
    (hcolumn : Clause.NamesColumn column lexemes) {clause : AclClause Int}
    (hinline : clause.isInline = true) (hne : clause ≠ .oneOf []) (acl : Option Int) :
    ∃ c, Clause.readOnColumn column (idScalar acl) (clause.predicate column).replaced
        (clause.bindings.map Scalar.integer) = some c ∧
      ∀ row, c.truth row = clause.truth acl := by
  have hseen : (idScalar acl).seen = idScalar acl := by
    cases acl <;> rfl
  have hnull (row : Clause.Row) :
      (Clause.isNull false (.scalar (idScalar acl))).truth row = some (decide (acl = none)) := by
    cases acl <;> rfl
  cases clause with
  | deferred => cases hinline
  | publicOnly =>
    have htext : ((publicOnly : AclClause Int).predicate column).replaced =
        column ++ " IS NULL" := by
      simp [predicate, LooseText.replaced_append]
    rw [htext]
    exact ⟨_, Clause.readOnColumn_isNull hcolumn, hnull⟩
  | oneOf ids =>
    obtain ⟨id, others, rfl⟩ := List.exists_cons_of_ne_nil fun h => hne (congrArg oneOf h)
    have htext : ((oneOf (id :: others)).predicate column).replaced =
        "(" ++ column ++ " IS NULL OR " ++ column ++ " IN (" ++
          String.intercalate ", "
            ((Scalar.integer id :: others.map Scalar.integer).map fun _ => "?") ++ "))" := by
      simp [predicate, LooseText.replaced_append, String.append_assoc, toString, Function.comp_def]
    have hmember (row : Clause.Row) : (Clause.member false (.scalar (idScalar acl))
        ((Scalar.integer id :: others.map Scalar.integer).map Clause.Operand.scalar)).truth row =
          Condition.Test.memberTruth (idScalar acl) ((id :: others).map Scalar.integer) := by
      rw [Clause.truth, List.map_map, Clause.Operand.value, hseen]
      simp [Clause.Operand.value, Scalar.seen, Function.comp_def]
    rw [htext]
    refine ⟨_, Clause.readOnColumn_oneOf hcolumn _ _, fun row => ?_⟩
    rw [Clause.truth, Clause.truths_eq_map, List.map_cons, Truth.disj_cons, hnull, List.map_cons,
      hmember, List.map_nil, Truth.disj_singleton]
    rfl

end AclClause

namespace Acl

theorem filterM_eq_filter {ε α : Type} {f : α → Except ε Bool} {p : α → Bool}
    (h : ∀ item, f item = .ok (p item)) (items : List α) :
    items.filterM f = .ok (items.filter p) := by
  have haux (kept : List α) :
      items.filterAuxM f kept = .ok ((items.filter p).reverse ++ kept) := by
    induction items generalizing kept with
    | nil => rfl
    | cons item rest ih =>
      rw [List.filterAuxM, h, ok_bind, ih, List.filter_cons]
      cases p item <;> simp
  rw [List.filterM, haux, ok_bind, List.append_nil, List.reverse_reverse]
  rfl

/-- Items whose access lists are given as values are kept like those that have them as ids. -/
theorem keepReadableValues_ids {α : Type} (ids : List Int) (aclOf : α → Option Int)
    (items : List α) :
    keepReadableValues (ids.map Atom.int) (fun item => .ok (.ofInt? (aclOf item))) items =
      .ok (keepReadable ids aclOf items) := by
  refine filterM_eq_filter (fun item => ?_) items
  rw [ok_bind]
  cases aclOf item with
  | none => rfl
  | some id =>
    have hany : (ids.map Atom.int).any (Atom.int id).sameAs = ids.contains id := by
      rw [Bool.eq_iff_iff]
      simp [Atom.sameAs_int]
    change Except.ok ((ids.map Atom.int).any (Atom.int id).sameAs) = _
    rw [hany]
    rfl

end Acl

namespace Store

/-- A check of a resource with an access list or none has an outcome, and so has the request for a
part of a query. What is filtered by the latter keeps the items with that access list, and the text
of its clause, if it has one, is true of a row with that access list in the column, just when the
check has been passed. -/
structure EnforcesAlike (s : Store) (caller : Json) (permission : Permission) (cap : Json)
    (acl : Option Int) (column : String) (f : AclFilter Int) (allowed : Bool) : Prop where
  check : Resolver.firstAnswer cap (Resolver.hasPermission s caller (.ofInt? acl) permission) =
    .ok allowed
  query : Resolver.firstAnswer cap (Resolver.filter s caller permission) = .ok f
  filter {α : Type} (aclOf : α → Option Int) (items : List α) :
    ∃ kept, Acl.keepReadableValues (f.accessible.map Atom.int)
        (fun item => .ok (.ofInt? (aclOf item))) items = .ok kept ∧
      ∀ item ∈ items, aclOf item = acl → (item ∈ kept ↔ allowed = true)
  clause : f.clause.isInline = true →
    ∃ c, Clause.readOnColumn column (AclClause.idScalar acl) (f.clause.predicate column).replaced
        (f.clause.bindings.map Scalar.integer) = some c ∧
      ∀ row, c.truth row = some true ↔ allowed = true

variable {s : Store} {caller : Json} {permission : Permission} {column : String}

theorem exists_namesColumn (hcolumn : column ∈ ["acl_id", "e.acl_id", "l.acl_id"]) :
    ∃ lexemes, Clause.NamesColumn column lexemes := by
  rw [List.mem_cons, List.mem_cons, List.mem_singleton] at hcolumn
  rcases hcolumn with rfl | rfl | rfl
  · exact ⟨_, Clause.namesColumn_acl⟩
  · exact ⟨_, Clause.namesColumn_aclOf .entity⟩
  · exact ⟨_, Clause.namesColumn_aclOf .link⟩

/-- Given what is within reach, access is enforced alike. -/
theorem exists_enforcesAlike {ids : List Int} {cap : Int}
    (hpermission : permission = .read ∨ caller.isNull = false)
    (hids : s.accessibleIds caller permission = .ok ids) (acl : Option Int)
    {lexemes : List Clause.Lexeme} (hcolumn : Clause.NamesColumn column lexemes) :
    ∃ f allowed, s.EnforcesAlike caller permission (.int cap) acl column f allowed := by
  obtain ⟨allowed, hcheck, hallowed⟩ := exists_hasPermission_eq_ok hids hpermission acl
  obtain ⟨f, hf⟩ := Acl.exists_filterFor_eq_ok ids (!caller.isNull) cap
  have hlets : f.Lets acl ↔ allowed = true := (Acl.lets_iff_of_filterFor hf).trans hallowed.symm
  refine ⟨f, allowed, ?_, ?_, fun aclOf items => ?_, fun hinline => ?_⟩
  · rw [Resolver.firstAnswer_hasPermission, hcheck]
  · rw [Resolver.firstAnswer_filter, hids, ok_bind, hf]
    rfl
  · refine ⟨_, Acl.keepReadableValues_ids f.accessible aclOf items, fun item hitem hacl => ?_⟩
    rw [Acl.keepReadable, List.mem_filter, hacl, ← Acl.lets_iff_isReadable hf, hlets]
    exact and_iff_right hitem
  · have hne : f.clause ≠ .oneOf [] := by
      rcases Acl.filterFor_cases hf with ⟨_, rfl⟩ | ⟨⟨_, hsome⟩, rfl | rfl⟩
      · exact nofun
      · exact fun h => hsome (AclClause.oneOf.inj h)
      · exact nofun
    obtain ⟨c, hread, htruth⟩ := AclClause.exists_readOnColumn hcolumn hinline hne acl
    refine ⟨c, hread, fun row => ?_⟩
    rw [htruth, ← hlets, AclFilter.Lets, AclClause.permits, decide_eq_true_eq, hinline]
    simp

/-- A check of a resource, a clause in a query and a filter of what a query has found let the same
through, for readers as for writers who are somebody in particular. A caller who belongs to as many
groups as a query asks for principals gets neither a clause nor a filter, and is still let through
to what is public by a check. -/
theorem enforcement_agrees (s : Store) (user : Option String) {permission : Permission}
    (hpermission : permission = .read ∨ user ≠ none) (cap : Int) (acl : Option Int)
    {column : String} (hcolumn : column ∈ ["acl_id", "e.acl_id", "l.acl_id"]) :
    ((∀ u, user = some u → {group | s.BelongsTo u group}.ncard < maxPrincipals) ∧
      ∃ f allowed,
        s.EnforcesAlike (.ofText? user) permission (.int cap) acl column f allowed) ∨
    ∃ u, user = some u ∧ maxPrincipals ≤ {group | s.BelongsTo u group}.ncard ∧
      Resolver.firstAnswer (.int cap) (Resolver.filter s (.ofText? user) permission) =
        .error .tooManyPrincipals ∧
      Resolver.firstAnswer (.int cap)
        (Resolver.hasPermission s (.ofText? user) (.ofInt? acl) permission) =
          if acl = none then .ok true else .error .tooManyPrincipals := by
  obtain ⟨lexemes, hcolumn⟩ := exists_namesColumn hcolumn
  cases user with
  | none =>
    refine .inl ⟨nofun, exists_enforcesAlike ?_ (accessibleIds_null s permission) acl hcolumn⟩
    exact hpermission.imp_right (absurd rfl)
  | some u =>
    by_cases hfew : {group | s.BelongsTo u group}.ncard < maxPrincipals
    · have hfits : (s.principalsOf u).length ≤ maxPrincipals := by
        rw [length_principalsOf]
        exact hfew
      have hids := accessibleIds_str permission hfits
      refine .inl ⟨fun u' hu => ?_, exists_enforcesAlike (.inr rfl) hids acl hcolumn⟩
      cases hu
      exact hfew
    · have hmany : maxPrincipals < (s.principalsOf u).length := by
        rw [length_principalsOf]
        omega
      have hrefused := accessibleIds_of_many permission hmany
      refine .inr ⟨u, rfl, by omega, ?_, ?_⟩
      · rw [Resolver.firstAnswer_filter]
        change (s.accessibleIds (.str u) permission >>= _) = _
        rw [hrefused]
        rfl
      · rw [Resolver.firstAnswer_hasPermission]
        change isAllowed (s.accessibleIds (.str u) permission) _ _ _ = _
        rw [hrefused]
        cases acl <;> rfl

/-- The user reads what is under the first access list, by a check, by the clause of a query and by
a filter, and a clause is what a query gets as long as it may name one list. -/
theorem enforcement_in_circle :
    (Permission.read = .read ∨ some "u" ≠ none) ∧ "e.acl_id" ∈ ["acl_id", "e.acl_id", "l.acl_id"] ∧
      ∃ f, f.clause = .oneOf [1] ∧
        circle.EnforcesAlike (.str "u") .read (.int 1) (some 1) "e.acl_id" f true := by
  have hcolumn : "e.acl_id" ∈ ["acl_id", "e.acl_id", "l.acl_id"] := by decide
  refine ⟨.inl rfl, hcolumn, ?_⟩
  have hanswers :
      (Resolver.firstAnswer (.int 1)
        (Resolver.filter circle (.str "u") .read)).toOption.map (·.clause) = some (.oneOf [1]) ∧
      (Resolver.firstAnswer (.int 1)
        (Resolver.hasPermission circle (.str "u") (.int 1) .read)).toOption = some true := by
    decide +kernel
  rcases enforcement_agrees circle (some "u") (.inl rfl) 1 (some 1) hcolumn with
    ⟨_, f, allowed, h⟩ | ⟨_, _, _, hrefused, _⟩
  · have hquery : Resolver.firstAnswer (.int 1) (Resolver.filter circle (.str "u") .read) = .ok f :=
      h.query
    have hcheck : Resolver.firstAnswer (.int 1)
        (Resolver.hasPermission circle (.str "u") (.int 1) .read) = .ok allowed :=
      h.check
    rw [hquery, hcheck] at hanswers
    obtain ⟨hclause, hallowed⟩ := hanswers
    cases hallowed
    exact ⟨f, Option.some.inj hclause, h⟩
  · have hquery : Resolver.firstAnswer (.int 1) (Resolver.filter circle (.str "u") .read) =
        .error .tooManyPrincipals :=
      hrefused
    rw [hquery] at hanswers
    cases hanswers.1

/-- A user who is in as many groups as a query asks for principals may read what is public, but
gets neither a clause nor a filter that would let it through. -/
theorem enforcement_for_member_of_many_groups :
    let s : Store := empty.after (joining "u" ((List.range 997).map Nat.repr))
    s.Reachable ∧
      Resolver.firstAnswer (.int 1000) (Resolver.hasPermission s (.str "u") .null .read) =
        .ok true ∧
      Resolver.firstAnswer (.int 1000) (Resolver.filter s (.str "u") .read) =
        .error .tooManyPrincipals := by
  intro s
  obtain ⟨hreachable, _, hmany⟩ := many_joined (s := s) rfl
  clear_value s
  refine ⟨hreachable, ?_, ?_⟩
  · rw [Resolver.firstAnswer_hasPermission]
    rfl
  · rw [Resolver.firstAnswer_filter, accessibleIds_of_many .read hmany]
    rfl

end Store

end VersionedGraph
