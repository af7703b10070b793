namespace TermScript

inductive Pattern where
  | tree (functor : String) (children : List Pattern)
  | wildcard
  | var (name : String)
  | named (name : String) (inner : Pattern)
  | cons (head tail : Pattern)
  | string (text : String)
  | list (elements : List Pattern)

namespace Pattern

mutual
def same : Pattern → Pattern → Bool
  | .tree functor children, .tree functor' children' =>
      functor == functor' && sameList children children'
  | .wildcard, .wildcard => true
  | .var name, .var name' => name == name'
  | .named name inner, .named name' inner' => name == name' && same inner inner'
  | .cons head tail, .cons head' tail' => same head head' && same tail tail'
  | .string text, .string text' => text == text'
  | .list elements, .list elements' => sameList elements elements'
  | _, _ => false

def sameList : List Pattern → List Pattern → Bool
  | [], [] => true
  | first :: rest, first' :: rest' => same first first' && sameList rest rest'
  | _, _ => false
end

mutual
theorem same_iff : (left right : Pattern) → (same left right = true ↔ left = right)
  | .tree functor children, right => by
      cases right <;> simp [same, sameList_iff children]
  | .wildcard, right => by cases right <;> simp [same]
  | .var name, right => by cases right <;> simp [same]
  | .named name inner, right => by cases right <;> simp [same, same_iff inner]
  | .cons head tail, right => by cases right <;> simp [same, same_iff head, same_iff tail]
  | .string text, right => by cases right <;> simp [same]
  | .list elements, right => by cases right <;> simp [same, sameList_iff elements]

theorem sameList_iff : (left right : List Pattern) → (sameList left right = true ↔ left = right)
  | [], right => by cases right <;> simp [sameList]
  | first :: rest, right => by
      cases right <;> simp [sameList, same_iff first, sameList_iff rest]
end

instance : DecidableEq Pattern := fun left right =>
  decidable_of_iff (same left right = true) (same_iff left right)

end Pattern

mutual
inductive Term where
  | tree (functor : String) (children : List Term)
  | var (name : String)
  | app (operator : String) (operands : List Term)
  | cons (head tail : Term)
  | string (text : String)
  | list (elements : List Term)
  | matching (subjects : List Term) (clauses : List Clause)

/-- One case of a match: a pattern for every subject, and the result. -/
inductive Clause where
  | mk (patterns : List Pattern) (body : Term)
end

namespace Term

mutual
def same : Term → Term → Bool
  | .tree functor children, .tree functor' children' =>
      functor == functor' && sameList children children'
  | .var name, .var name' => name == name'
  | .app operator operands, .app operator' operands' =>
      operator == operator' && sameList operands operands'
  | .cons head tail, .cons head' tail' => same head head' && same tail tail'
  | .string text, .string text' => text == text'
  | .list elements, .list elements' => sameList elements elements'
  | .matching subjects clauses, .matching subjects' clauses' =>
      sameList subjects subjects' && sameClauses clauses clauses'
  | _, _ => false

def sameList : List Term → List Term → Bool
  | [], [] => true
  | first :: rest, first' :: rest' => same first first' && sameList rest rest'
  | _, _ => false

def sameClauses : List Clause → List Clause → Bool
  | [], [] => true
  | .mk patterns body :: rest, .mk patterns' body' :: rest' =>
      patterns == patterns' && same body body' && sameClauses rest rest'
  | _, _ => false
end

mutual
theorem same_iff : (left right : Term) → (same left right = true ↔ left = right)
  | .tree functor children, right => by
      cases right <;> simp [same, sameList_iff children]
  | .var name, right => by cases right <;> simp [same]
  | .app operator operands, right => by
      cases right <;> simp [same, sameList_iff operands]
  | .cons head tail, right => by cases right <;> simp [same, same_iff head, same_iff tail]
  | .string text, right => by cases right <;> simp [same]
  | .list elements, right => by cases right <;> simp [same, sameList_iff elements]
  | .matching subjects clauses, right => by
      cases right <;> simp [same, sameList_iff subjects, sameClauses_iff clauses]

theorem sameList_iff : (left right : List Term) → (sameList left right = true ↔ left = right)
  | [], right => by cases right <;> simp [sameList]
  | first :: rest, right => by
      cases right <;> simp [sameList, same_iff first, sameList_iff rest]

theorem sameClauses_iff :
    (left right : List Clause) → (sameClauses left right = true ↔ left = right)
  | [], right => by cases right <;> simp [sameClauses]
  | .mk patterns body :: rest, right => by
      cases right with
      | nil => simp [sameClauses]
      | cons first' rest' =>
          cases first'
          simp [sameClauses, same_iff body, sameClauses_iff rest]
end

instance : DecidableEq Term := fun left right =>
  decidable_of_iff (same left right = true) (same_iff left right)

end Term

namespace Clause

def patterns : Clause → List Pattern
  | .mk patterns _ => patterns

def body : Clause → Term
  | .mk _ body => body

end Clause

structure Definition where
  name : String
  patterns : List Pattern
  body : Term
  deriving DecidableEq

inductive Item where
  | define (definition : Definition)
  | lone (term : Term)
  deriving DecidableEq

def Item.label : Item → String
  | .define definition => definition.name
  | .lone _ => "<term>"

abbrev Program := List Item

end TermScript
