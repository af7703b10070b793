import TermScript.Command.Run
import TermScript.Proofs.Json.UniqueText

namespace TermScript

namespace Pattern

mutual

theorem ofJson?_toJson : (pattern : Pattern) → ofJson? pattern.toJson = some pattern
  | .tree functor children => by
      rw [toJson, Json.tagged, ofJson?]
      simp [Json.member?, Json.text?, listMember?, ofJsonList?_toJsonList children]
  | .wildcard => by rw [toJson, ofJson?]
  | .var name => by rw [toJson, Json.tagged, ofJson?]
  | .named name inner => by
      rw [toJson, Json.tagged, ofJson?]
      simp [Json.member?, Json.text?, member?, ofJson?_toJson inner]
  | .cons head tail => by
      rw [toJson, Json.tagged, ofJson?]
      simp [member?, ofJson?_toJson head, ofJson?_toJson tail]
  | .string text => by rw [toJson, Json.tagged, ofJson?]
  | .list elements => by
      rw [toJson, Json.tagged, ofJson?]
      simp [ofJsonList?_toJsonList elements]

theorem ofJsonList?_toJsonList :
    (patterns : List Pattern) → ofJsonList? (toJsonList patterns) = some patterns
  | [] => rfl
  | first :: rest => by
      rw [toJsonList, ofJsonList?, ofJson?_toJson first, ofJsonList?_toJsonList rest]
      rfl

end

end Pattern

open Term in
mutual

theorem Term.ofJson?_toJson : (term : Term) → ofJson? term.toJson = some term
  | .tree functor children => by
      rw [toJson, Json.tagged, ofJson?]
      simp [Json.member?, Json.text?, listMember?, Term.ofJsonList?_toJsonList children]
  | .var name => by rw [toJson, Json.tagged, ofJson?]
  | .app operator operands => by
      rw [toJson, Json.tagged, ofJson?]
      simp [Json.member?, Json.text?, listMember?, Term.ofJsonList?_toJsonList operands]
  | .cons head tail => by
      rw [toJson, Json.tagged, ofJson?]
      simp [member?, Term.ofJson?_toJson head, Term.ofJson?_toJson tail]
  | .string text => by rw [toJson, Json.tagged, ofJson?]
  | .list elements => by
      rw [toJson, Json.tagged, ofJson?]
      simp [Term.ofJsonList?_toJsonList elements]
  | .matching subjects clauses => by
      rw [toJson, Json.tagged, ofJson?]
      simp [listMember?, clausesMember?, Term.ofJsonList?_toJsonList subjects,
        Term.clausesOfJson?_clausesToJson clauses]

theorem Term.ofJsonList?_toJsonList :
    (terms : List Term) → ofJsonList? (toJsonList terms) = some terms
  | [] => rfl
  | first :: rest => by
      rw [toJsonList, ofJsonList?, Term.ofJson?_toJson first, Term.ofJsonList?_toJsonList rest]
      rfl

theorem Clause.ofJson?_toJson :
    (clause : Clause) → Clause.ofJson? clause.toJson = some clause
  | .mk patterns body => by
      rw [Clause.toJson, Clause.ofJson?]
      simp [Pattern.listMember?, Term.member?, Pattern.ofJsonList?_toJsonList,
        Term.ofJson?_toJson body]

theorem Term.clausesOfJson?_clausesToJson :
    (clauses : List Clause) → clausesOfJson? (clausesToJson clauses) = some clauses
  | [] => rfl
  | first :: rest => by
      rw [clausesToJson, clausesOfJson?, Clause.ofJson?_toJson first,
        Term.clausesOfJson?_clausesToJson rest]
      rfl

end

theorem Definition.ofJson?_toJson (definition : Definition) :
    ofJson? definition.toJson = some definition := by
  rw [toJson, ofJson?]
  simp [Json.member?, Json.text?, Pattern.listMember?, Term.member?,
    Pattern.ofJsonList?_toJsonList, Term.ofJson?_toJson]

theorem Item.ofJson?_toJson (item : Item) : ofJson? item.toJson = some item := by
  cases item with
  | define definition =>
      rw [toJson, Json.tagged, ofJson?, Definition.ofJson?_toJson]
      rfl
  | lone term =>
      rw [toJson, Json.tagged, ofJson?, Term.ofJson?_toJson]
      rfl

namespace Program

theorem ofJson?_toJson (items : Program) : ofJson? (toJson items) = some items := by
  rw [toJson, ofJson?]
  induction items with
  | nil => rfl
  | cons item others induction =>
      rw [List.map_cons, List.mapM_cons, Item.ofJson?_toJson, induction]
      rfl

theorem toJson_inj {items items' : Program} (same : toJson items = toJson items') :
    items = items' := by
  have decoded := congrArg ofJson? same
  rw [ofJson?_toJson, ofJson?_toJson] at decoded
  exact Option.some.inj decoded

/-- Patterns, clauses, terms, definitions, items and programs are decoded as what they were before
they were encoded; and programs have the same text in the format of JSON only if they are the
same. -/
theorem determined_by_json :
    ((∀ pattern : Pattern, Pattern.ofJson? pattern.toJson = some pattern) ∧
      (∀ clause : Clause, Clause.ofJson? clause.toJson = some clause) ∧
      (∀ term : Term, Term.ofJson? term.toJson = some term) ∧
      (∀ definition : Definition, Definition.ofJson? definition.toJson = some definition) ∧
      (∀ item : Item, Item.ofJson? item.toJson = some item) ∧
      (∀ items : Program, ofJson? (toJson items) = some items)) ∧
    ∀ items items' : Program,
      Command.Format.json.program items = Command.Format.json.program items' ↔ items = items' := by
  refine ⟨⟨Pattern.ofJson?_toJson, Clause.ofJson?_toJson, Term.ofJson?_toJson,
    Definition.ofJson?_toJson, Item.ofJson?_toJson, ofJson?_toJson⟩, fun items items' => ?_⟩
  constructor
  · intro same
    have rendered := (String.append_left_inj "\n").mp same
    exact toJson_inj (Json.render_inj rendered)
  · intro same
    rw [same]

end Program

end TermScript
