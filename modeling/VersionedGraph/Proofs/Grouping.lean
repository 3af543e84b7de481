import VersionedGraph.Proofs.Comparison

/-!
# How groups are read

The parts of a group stand in parentheses with a connective between them, so what stands behind a
part never becomes a piece of it. The text of a whole condition is read as the clause that stands
for its tree (`Condition.clause`), with every bound value at the mark that it was bound for. So is
the condition of a query for latest rows, in which the texts of all its filters stand together.
-/

namespace VersionedGraph

namespace Clause

open Statement

/-- The text of parts in parentheses that continue a group, each behind the connective. -/
def continuation (w : Keyword) (ps : List String) : List Char :=
  ps.flatMap fun p => ' ' :: (w.text.toList ++ ' ' :: '(' :: (p.toList ++ [')']))

@[simp] theorem continuation_nil (w : Keyword) : continuation w [] = [] := rfl

theorem continuation_cons (w : Keyword) (p : String) (ps : List String) (rest : List Char) :
    continuation w (p :: ps) ++ rest =
      ' ' :: (w.text.toList ++ ' ' :: '(' :: (p.toList ++ ')' :: (continuation w ps ++ rest))) := by
  simp [continuation]

theorem toList_joinClauses {w : Keyword} {connective : String}
    (hconnective : connective.toList = ' ' :: (w.text.toList ++ [' '])) (p : String)
    (ps : List String) :
    (Condition.joinClauses connective (p :: ps)).toList =
      '(' :: (p.toList ++ ')' :: continuation w ps) := by
  change (String.intercalate connective
    (("(" ++ p ++ ")") :: ps.map fun s => "(" ++ s ++ ")")).toList = _
  induction ps generalizing p with
  | nil => simp
  | cons q ps ih =>
    have hcontinued := continuation_cons w q ps []
    rw [List.append_nil, List.append_nil] at hcontinued
    rw [List.map_cons, String.intercalate_cons_cons, String.toList_append, ih, hcontinued]
    simp [hconnective]

/-- What continues a group is longer than each of its parts, and no shorter than there are parts. -/
theorem length_continuation (w : Keyword) (ps : List String) :
    ps.length ≤ (continuation w ps).length ∧
      ∀ p ∈ ps, p.toList.length < (continuation w ps).length := by
  induction ps with
  | nil => exact ⟨Nat.zero_le _, nofun⟩
  | cons p ps ih =>
    have hlength : (continuation w (p :: ps)).length =
        w.text.toList.length + p.toList.length + 4 + (continuation w ps).length := by
      rw [continuation, List.flatMap_cons, List.length_append]
      simp only [List.length_append, List.length_cons, List.length_nil, continuation]
      omega
    rw [hlength]
    refine ⟨by rw [List.length_cons]; omega, List.forall_mem_cons.2 ⟨by omega, fun q hq => ?_⟩⟩
    have hshorter := ih.2 q hq
    omega

/-- The text of a group is longer than that of each part, and has more characters than parts. -/
theorem length_joinClauses {w : Keyword} {connective : String}
    (hconnective : connective.toList = ' ' :: (w.text.toList ++ [' '])) (rowName : String)
    {children : List Condition} (hne : children ≠ []) :
    let text := Condition.joinClauses connective (children.map (Condition.predicate rowName))
    children.length < text.toList.length ∧
      ∀ c ∈ children, (c.predicate rowName).toList.length < text.toList.length := by
  intro text
  obtain ⟨c, children, rfl⟩ := List.exists_cons_of_ne_nil hne
  obtain ⟨hlength, hshorter⟩ := length_continuation w (children.map (Condition.predicate rowName))
  rw [List.length_map] at hlength
  rw [List.forall_mem_map] at hshorter
  have htext : text.toList.length = (c.predicate rowName).toList.length + 2 +
      (continuation w (children.map (Condition.predicate rowName))).length := by
    unfold text
    rw [List.map_cons, toList_joinClauses hconnective]
    simp only [List.length_append, List.length_cons]
    omega
  rw [htext]
  refine ⟨by rw [List.length_cons]; omega, List.forall_mem_cons.2 ⟨by omega, fun d hd => ?_⟩⟩
  have hd := hshorter d hd
  omega

variable {k : Kind} {w : Keyword} {rest : List Char} {values : List Scalar} {count : Nat}
  {children : List Condition}

/-- A text that goes on with a connective, or else is closed. -/
def Follows (w : Keyword) (rest : List Char) : Prop :=
  Closed rest ∨ ∃ others, rest = ' ' :: (w.text.toList ++ ' ' :: others)

theorem follows_continuation (ps : List String) (hrest : Closed rest) :
    Follows w (continuation w ps ++ rest) := by
  cases ps with
  | nil => exact .inl hrest
  | cons p ps => exact .inr ⟨_, continuation_cons w p ps rest⟩

theorem lex_connective (w : Keyword) (rest : List Char) :
    lex (' ' :: (w.text.toList ++ ' ' :: rest)) = .keyword w :: lex (' ' :: rest) := by
  have hblank : (w.text.toList ++ ' ' :: rest).head?.all (!Text.isAsciiBlank ·) = true := by
    cases w <;> rfl
  rw [lex_blank hblank, lex_keyword w rfl]

theorem Follows.head_lex_ne (h : Follows w rest) {v : Keyword} (hne : w ≠ v) :
    (lex rest).head? ≠ some (.keyword v) := by
  rcases h with h | ⟨others, rfl⟩
  · exact h.head_lex_ne v
  · rw [lex_connective]
    simpa using hne

/-- A part that no connective follows stands alone. -/
theorem readJoined_of_single {join : List Clause → Clause} {read : Reader Clause}
    {source : Source} {clause : Clause} (h : read source = some (clause, ⟨lex rest, values⟩))
    (hrest : (lex rest).head? ≠ some (.keyword w)) (hcount : 0 < count) :
    readJoined w join count read source = some (clause, ⟨lex rest, values⟩) := by
  obtain ⟨count, rfl⟩ := Nat.exists_eq_succ_of_ne_zero (Nat.ne_of_gt hcount)
  simp only [readJoined, readParts, h, Option.bind_eq_bind, Option.bind_some, if_neg hrest,
    Option.pure_def, gather]

/-- Where parts of a group stand in parentheses their clauses are read, whatever of the group is
behind them. -/
def ReadsParts (k : Kind) (w : Keyword) (read : Reader Clause) (children : List Condition) : Prop :=
  ∀ c ∈ children, ∀ rest values, Follows w rest →
    read ⟨lex ('(' :: ((c.predicate k.rowName).toList ++ ')' :: rest)), c.parameters ++ values⟩ =
      some (c.clause, ⟨lex rest, values⟩)

/-- Parts are read until no connective follows. -/
theorem ReadsParts.continuation {read : Reader Clause} (h : ReadsParts k w read children)
    {source : Source} {first : Clause}
    (hfirst : read source = some (first,
      ⟨lex (continuation w (children.map (Condition.predicate k.rowName)) ++ rest),
        Condition.childParameters children ++ values⟩))
    (hcount : children.length < count) (hrest : Closed rest) :
    readParts w read count source =
      some (first :: children.map Condition.clause, ⟨lex rest, values⟩) := by
  -- The first part may be anything that is read, so the next one takes its place in the induction.
  induction children generalizing source first count with
  | nil =>
    obtain ⟨count, rfl⟩ := Nat.exists_eq_succ_of_ne_zero (Nat.ne_zero_of_lt hcount)
    rw [readParts, hfirst]
    simp only [List.map_nil, continuation_nil, List.nil_append, Option.bind_eq_bind,
      Option.bind_some, if_neg (hrest.head_lex_ne w), Option.pure_def]
    rfl
  | cons c children ih =>
    obtain ⟨count, rfl⟩ := Nat.exists_eq_succ_of_ne_zero (Nat.ne_zero_of_lt hcount)
    have hparts := ih (fun d hd => h d (List.mem_cons_of_mem c hd))
      (h c List.mem_cons_self _ _ (follows_continuation _ hrest)) (Nat.lt_of_succ_lt_succ hcount)
    rw [List.map_cons, continuation_cons, Condition.childParameters, List.append_assoc,
      lex_connective, lex_blank rfl] at hfirst
    rw [readParts, hfirst]
    simp only [Option.bind_eq_bind, Option.bind_some, List.head?_cons, if_pos, List.drop_succ_cons,
      List.drop_zero, hparts]
    rfl

theorem ReadsParts.joinClauses {read : Reader Clause} (h : ReadsParts k w read children)
    {connective : String} (hconnective : connective.toList = ' ' :: (w.text.toList ++ [' ']))
    (hne : children ≠ []) (hcount : children.length ≤ count) (hrest : Closed rest) :
    readParts w read count
        ⟨lex ((Condition.joinClauses connective
          (children.map (Condition.predicate k.rowName))).toList ++ rest),
          Condition.childParameters children ++ values⟩ =
      some (children.map Condition.clause, ⟨lex rest, values⟩) := by
  obtain ⟨c, children, rfl⟩ := List.exists_cons_of_ne_nil hne
  rw [List.map_cons, toList_joinClauses hconnective, Condition.childParameters, List.append_assoc,
    List.cons_append, List.append_assoc, List.cons_append]
  have hothers : ReadsParts k w read children := fun d hd => h d (List.mem_cons_of_mem c hd)
  exact hothers.continuation (h c List.mem_cons_self _ _ (follows_continuation _ hrest)) hcount
    hrest

theorem readSingle_group {rowName : String} {inner : Reader Clause} {text : List Char}
    {values' : List Scalar} {clause : Clause}
    (h : inner ⟨lex (text ++ ')' :: rest), values'⟩ = some (clause, ⟨lex (')' :: rest), values⟩)) :
    readSingle rowName inner ⟨lex ('(' :: (text ++ ')' :: rest)), values'⟩ =
      some (clause, ⟨lex rest, values⟩) := by
  rw [lex_opening]
  simp only [readSingle, h, lex_closing, Option.bind_eq_bind, Option.bind_some, List.head?_cons,
    if_pos, List.drop_succ_cons, List.drop_zero, Option.pure_def]

theorem connective_and : " AND ".toList = ' ' :: (Keyword.and.text.toList ++ [' ']) := rfl

theorem connective_or : " OR ".toList = ' ' :: (Keyword.or.text.toList ++ [' ']) := rfl

/-- The text of a condition is read as its clause, given enough room for its parts and for the
nesting of its parentheses. -/
theorem readClause_predicate (k : Kind) {c : Condition} (hwritten : c.Written) {depth : Nat}
    (hcount : (c.predicate k.rowName).toList.length < count)
    (hdepth : (c.predicate k.rowName).toList.length < depth) (hrest : Closed rest) :
    readClause k.rowName count depth
        ⟨lex ((c.predicate k.rowName).toList ++ rest), c.parameters ++ values⟩ =
      some (c.clause, ⟨lex rest, values⟩) := by
  have hsome : 0 < count := Nat.zero_lt_of_lt hcount
  induction hwritten generalizing depth rest values with
  | leaf hpath htest =>
    obtain ⟨depth, rfl⟩ := Nat.exists_eq_succ_of_ne_zero (Nat.ne_zero_of_lt hdepth)
    rw [readClause]
    refine readJoined_of_single (readJoined_of_single ?_ (hrest.head_lex_ne _) hsome)
      (hrest.head_lex_ne _) hsome
    exact readSingle_test k _ hpath htest hrest
  | @all children hne _ ih =>
    obtain ⟨depth, rfl⟩ := Nat.exists_eq_succ_of_ne_zero (Nat.ne_zero_of_lt hdepth)
    rw [Condition.predicate, Condition.predicates_eq_map] at hcount hdepth ⊢
    -- The texts of the parts are shorter than that of the group, so they need less room.
    obtain ⟨hparts, hshorter⟩ := length_joinClauses connective_and k.rowName hne
    have hreads : ReadsParts k .and (readSingle k.rowName (readClause k.rowName count depth))
        children := by
      intro c hc rest values _
      have hchild := hshorter c hc
      exact readSingle_group (ih c hc (by omega) (by omega) (.inr ⟨rest, rfl⟩))
    rw [readClause]
    refine readJoined_of_single ?_ (hrest.head_lex_ne _) hsome
    rw [Condition.parameters, Condition.clause, Condition.clauses_eq_map, readJoined,
      hreads.joinClauses connective_and hne (by omega) hrest]
    rfl
  | @any children hne _ ih =>
    obtain ⟨depth, rfl⟩ := Nat.exists_eq_succ_of_ne_zero (Nat.ne_zero_of_lt hdepth)
    rw [Condition.predicate, Condition.predicates_eq_map] at hcount hdepth ⊢
    obtain ⟨hparts, hshorter⟩ := length_joinClauses connective_or k.rowName hne
    have hreads : ReadsParts k .or (readJoined .and .all count
        (readSingle k.rowName (readClause k.rowName count depth))) children := by
      intro c hc rest values hfollows
      have hchild := hshorter c hc
      exact readJoined_of_single
        (readSingle_group (ih c hc (by omega) (by omega) (.inr ⟨rest, rfl⟩)))
        (hfollows.head_lex_ne (by decide)) hsome
    rw [readClause, Condition.parameters, Condition.clause, Condition.clauses_eq_map, readJoined,
      hreads.joinClauses connective_or hne (by omega) hrest]
    rfl

theorem read_eq {k : Kind} {text : String} {values : List Scalar} {clause : Clause}
    (h : ∀ size, text.toList.length < size →
      readClause k.rowName size size ⟨lex text.toList, values⟩ = some (clause, ⟨lex [], []⟩)) :
    Clause.read k.rowName text values = some clause := by
  rw [Clause.read]
  simp only [h _ (Nat.lt_succ_self _), lex_nil]

theorem read_predicate (k : Kind) {c : Condition} (hwritten : c.Written) :
    Clause.read k.rowName (c.predicate k.rowName) c.parameters = some c.clause := by
  refine read_eq fun size hsize => ?_
  rw [← List.append_nil (c.predicate k.rowName).toList, ← List.append_nil c.parameters]
  exact readClause_predicate k hwritten hsize hsize (.inl rfl)

/-- The mark of a latest version, set. -/
def latestMark : Clause :=
  .compare .equal .isLatest (.scalar (.integer 1))

theorem lex_one (h : Follows w rest) : lex ('1' :: rest) = .number (.integer 1) :: lex rest := by
  have hfirst : firstToken '1' rest = (.number, 0) := by
    rcases h with (rfl | ⟨others, rfl⟩) | ⟨others, rfl⟩ <;> rfl
  have hmeans : Lexeme.ofToken ⟨.number, "1"⟩ = .number (.integer 1) := by decide +kernel
  rw [← hmeans]
  exact lex_token hfirst (by decide) (by decide)

theorem readSingle_latestMark (k : Kind) (inner : Reader Clause) (hrest : Follows w rest) :
    readSingle k.rowName inner
        ⟨lex ((k.rowName ++ ".is_latest = 1").toList ++ rest), values⟩ =
      some (latestMark, ⟨lex rest, values⟩) := by
  have htext : (k.rowName ++ ".is_latest = 1").toList ++ rest =
      k.rowName.toList ++ '.' :: ("is_latest".toList ++
        ' ' :: ("=".toList ++ ' ' :: '1' :: rest)) := by
    simp
  have hdot {rest : List Char} : lex ('.' :: ("is_latest".toList ++ rest)) =
      .dot :: lex ("is_latest".toList ++ rest) :=
    lex_sign 0 rfl
  have hcolumn {rest : List Char} : lex ("is_latest".toList ++ ' ' :: rest) =
      .name "is_latest" :: lex (' ' :: rest) :=
    lex_name rfl (fun _ => rfl) (by decide) (ofToken_word (by simp)) rfl
  have hsign : lex ("=".toList ++ ' ' :: '1' :: rest) =
      .comparison .equal :: lex (' ' :: '1' :: rest) :=
    lex_comparison .equal _
  rw [htext, lex_rowName, hdot, hcolumn, lex_blank rfl, hsign, lex_blank rfl, lex_one hrest]
  simp [readSingle, readOperand, readComparison, latestMark]

section

variable {filters : List CompiledFilter}

theorem toList_latestClause (hfilters : ∀ c ∈ filters, c.rowName = k.rowName) :
    (latestClause k filters).toList = (k.rowName ++ ".is_latest = 1").toList ++ continuation .and
      ((filters.filterMap (·.condition?)).map (Condition.predicate k.rowName)) := by
  have hjoined : (String.join ((filters.filter (!·.isEmpty)).map fun c =>
      " AND (" ++ c.predicate ++ ")")).toList = continuation .and
        ((filters.filterMap (·.condition?)).map (Condition.predicate k.rowName)) := by
    induction filters with
    | nil => rfl
    | cons c filters ih =>
      have hothers := ih fun d hd => hfilters d (List.mem_cons_of_mem c hd)
      have hname := hfilters c List.mem_cons_self
      cases hcondition : c.condition? with
      | none =>
        have hempty : (!c.isEmpty) = false := by simp [CompiledFilter.isEmpty, hcondition]
        rw [List.filter_cons, if_neg (by simp [hempty]), List.filterMap_cons_none hcondition,
          hothers]
      | some condition =>
        have hempty : (!c.isEmpty) = true := by simp [CompiledFilter.isEmpty, hcondition]
        have htext : c.predicate = condition.predicate k.rowName := by
          simp [CompiledFilter.predicate, hcondition, hname]
        have hcontinued := continuation_cons .and (condition.predicate k.rowName)
          ((filters.filterMap (·.condition?)).map (Condition.predicate k.rowName)) []
        rw [List.append_nil, List.append_nil] at hcontinued
        rw [List.filter_cons, if_pos hempty, List.filterMap_cons_some hcondition, List.map_cons,
          List.map_cons, hcontinued, ← hothers, htext]
        simp [Keyword.text]
  rw [latestClause, String.toList_append]
  exact congrArg _ hjoined

theorem flatMap_parameters (filters : List CompiledFilter) :
    filters.flatMap (·.parameters) =
      Condition.childParameters (filters.filterMap (·.condition?)) := by
  induction filters with
  | nil => rfl
  | cons c filters ih =>
    rw [List.flatMap_cons, ih]
    cases hcondition : c.condition? with
    | none =>
      rw [List.filterMap_cons_none hcondition, CompiledFilter.parameters, hcondition]
      rfl
    | some condition =>
      rw [List.filterMap_cons_some hcondition, CompiledFilter.parameters, hcondition]
      rfl

/-- The text of a query's condition is read as the mark of a latest version and the clauses of the
filters that constrain. -/
theorem read_latestClause (hfilters : ∀ c ∈ filters, c.rowName = k.rowName)
    (hwritten : ∀ condition ∈ filters.filterMap (·.condition?), condition.Written) :
    Clause.read k.rowName (latestClause k filters) (filters.flatMap (·.parameters)) =
      some (gather .all (latestMark ::
        (filters.filterMap (·.condition?)).map Condition.clause)) := by
  refine read_eq fun size hsize => ?_
  obtain ⟨depth, rfl⟩ := Nat.exists_eq_succ_of_ne_zero (Nat.ne_zero_of_lt hsize)
  rw [toList_latestClause hfilters] at hsize ⊢
  rw [flatMap_parameters]
  generalize filters.filterMap (·.condition?) = conditions at hsize hwritten ⊢
  obtain ⟨hlength, hshorter⟩ :=
    length_continuation .and (conditions.map (Condition.predicate k.rowName))
  rw [List.forall_mem_map] at hshorter
  rw [List.length_map] at hlength
  rw [List.length_append] at hsize
  have hreads : ReadsParts k .and (readSingle k.rowName (readClause k.rowName (depth + 1) depth))
      conditions := by
    intro c hc rest values _
    have hpart := hshorter c hc
    exact readSingle_group (readClause_predicate k (hwritten c hc) (by omega) (by omega)
      (.inr ⟨rest, rfl⟩))
  have hclosed : Closed [] := .inl rfl
  have hparts : readParts .and (readSingle k.rowName (readClause k.rowName (depth + 1) depth))
      (depth + 1) ⟨lex ((k.rowName ++ ".is_latest = 1").toList ++
        (continuation .and (conditions.map (Condition.predicate k.rowName)) ++ [])),
          Condition.childParameters conditions ++ []⟩ =
      some (latestMark :: conditions.map Condition.clause, ⟨lex [], []⟩) :=
    hreads.continuation (readSingle_latestMark k _ (follows_continuation _ hclosed)) (by omega)
      hclosed
  rw [List.append_nil, List.append_nil] at hparts
  rw [readClause]
  refine readJoined_of_single ?_ (hclosed.head_lex_ne _) (Nat.succ_pos depth)
  rw [readJoined, hparts]
  rfl

end

end Clause

end VersionedGraph
