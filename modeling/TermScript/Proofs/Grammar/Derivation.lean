import TermScript.Proofs.Grammar.Language
import TermScript.Rule.Input
import TermScript.Syntax

/-! The grammar of scripts, with the tree that each row of tokens stands for. The height of a term
or pattern counts how often it goes into another one; a chain is one level, however long. -/

namespace TermScript

open TermScript.Language

namespace Pattern

/-- A pattern that stands as it is in front of a colon, given the patterns inside it. -/
inductive Element (inner : Language Pattern) : Language Pattern
  | wildcard {token : Token} :
      token.kind = .underscore → Element inner [token] .wildcard
  | var {name : Token} :
      name.kind = .identifier → Element inner [name] (.var name.text)
  | atom {name : Token} :
      name.kind ∈ [.atom, .quotedAtom] → Element inner [name] (.tree name.name [])
  | tree {name opener : Token} {arguments : List Token} {children : List Pattern} :
      name.kind ∈ [.atom, .quotedAtom] → opener.kind = .openParen →
      Closed .closeParen (Listed inner) arguments children →
      Element inner (name :: opener :: arguments) (.tree name.name children)
  | string {token : Token} :
      token.kind = .string → Element inner [token] (.string token.unquoted)
  | list {opener : Token} {tokens : List Token} {elements : List Pattern} :
      opener.kind = .openBracket → Closed .closeBracket (Listed inner) tokens elements →
      Element inner (opener :: tokens) (.list elements)
  | group {opener : Token} {tokens : List Token} {pattern : Pattern} :
      opener.kind = .openParen → Closed .closeParen inner tokens pattern →
      Element inner (opener :: tokens) pattern

/-- A pattern that may end a chain; a named pattern takes all that follows. -/
inductive Final (inner : Language Pattern) : Language Pattern
  | element {tokens : List Token} {pattern : Pattern} :
      Element inner tokens pattern → Final inner tokens pattern
  | named {name atSign : Token} {tokens : List Token} {pattern : Pattern} :
      name.kind = .identifier → atSign.kind = .atSign → inner tokens pattern →
      Final inner (name :: atSign :: tokens) (.named name.text pattern)

/-- The patterns up to a height. -/
def Derives : Nat → Language Pattern
  | 0 => fun _ _ => False
  | height + 1 => Chain .cons (Element (Derives height)) (Final (Derives height))

end Pattern

/-- `(pattern ("," pattern)* ","?)? "=>" term` -/
inductive Clause.Derives (pattern : Language Pattern) (term : Language Term) : Language Clause
  | intro {left right : List Token} {patterns : List Pattern} {body : Term} :
      Closed .arrow (Listed pattern) left patterns → term right body →
      Derives pattern term (left ++ right) (.mk patterns body)

namespace Term

/-- A term that is no chain, given the patterns and terms inside it. -/
inductive Element (pattern : Language Pattern) (inner : Language Term) : Language Term
  | var {name : Token} :
      name.kind = .identifier → Element pattern inner [name] (.var name.text)
  | app {name opener : Token} {arguments : List Token} {operands : List Term} :
      name.kind = .identifier → opener.kind = .openParen →
      Closed .closeParen (Listed inner) arguments operands →
      Element pattern inner (name :: opener :: arguments) (.app name.text operands)
  | atom {name : Token} :
      name.kind ∈ [.atom, .quotedAtom] → Element pattern inner [name] (.tree name.name [])
  | tree {name opener : Token} {arguments : List Token} {children : List Term} :
      name.kind ∈ [.atom, .quotedAtom] → opener.kind = .openParen →
      Closed .closeParen (Listed inner) arguments children →
      Element pattern inner (name :: opener :: arguments) (.tree name.name children)
  | string {token : Token} :
      token.kind = .string → Element pattern inner [token] (.string token.unquoted)
  | list {opener : Token} {tokens : List Token} {elements : List Term} :
      opener.kind = .openBracket → Closed .closeBracket (Listed inner) tokens elements →
      Element pattern inner (opener :: tokens) (.list elements)
  | group {opener : Token} {tokens : List Token} {term : Term} :
      opener.kind = .openParen → Closed .closeParen inner tokens term →
      Element pattern inner (opener :: tokens) term
  | matching {word : Token} {left right : List Token} {subjects : List Term}
      {clauses : List Clause} :
      word.kind = .matchWord → Closed .openBrace (Listed inner) left subjects →
      Closed .closeBrace (Listed (Clause.Derives pattern inner)) right clauses →
      Element pattern inner (word :: (left ++ right)) (.matching subjects clauses)

/-- The terms up to a height; patterns in them count like terms. -/
def Derives : Nat → Language Term
  | 0 => fun _ _ => False
  | height + 1 =>
      Chain .cons (Element (Pattern.Derives height) (Derives height))
        (Element (Pattern.Derives height) (Derives height))

end Term

/-- `"let" name ("(" patterns ")")? "=" term` -/
inductive Definition.Derives (height : Nat) : Language Definition
  | plain {word name equals : Token} {tokens : List Token} {body : Term} :
      word.kind = .letWord → name.kind = .identifier → equals.kind = .equals →
      Term.Derives height tokens body →
      Derives height (word :: name :: equals :: tokens) ⟨name.text, [], body⟩
  | parameters {word name opener equals : Token} {left right : List Token}
      {patterns : List Pattern} {body : Term} :
      word.kind = .letWord → name.kind = .identifier → opener.kind = .openParen →
      Closed .closeParen (Listed (Pattern.Derives height)) left patterns →
      equals.kind = .equals → Term.Derives height right body →
      Derives height (word :: name :: opener :: (left ++ equals :: right))
        ⟨name.text, patterns, body⟩

inductive Item.Derives (height : Nat) : Language Item
  | define {tokens : List Token} {definition : Definition} :
      Definition.Derives height tokens definition → Derives height tokens (.define definition)
  | lone {tokens : List Token} {term : Term} :
      Term.Derives height tokens term → Derives height tokens (.lone term)

/-- `(item ";")*` -/
inductive Program.Derives (height : Nat) : Language Program
  | nil : Derives height [] []
  | cons {tokens others : List Token} {semicolon : Token} {item : Item} {items : Program} :
      Item.Derives height tokens item → semicolon.kind = .semicolon →
      Derives height others items →
      Derives height (tokens ++ semicolon :: others) (item :: items)

theorem Pattern.Element.mono {narrow wide : Language Pattern} (within : narrow ≤ wide) :
    Element narrow ≤ Element wide := by
  intro tokens value element
  cases element with
  | wildcard isUnderscore => exact .wildcard isUnderscore
  | var isName => exact .var isName
  | atom isAtom => exact .atom isAtom
  | tree isAtom opens arguments =>
      exact .tree isAtom opens (Closed.mono (Listed.mono within) _ _ arguments)
  | string isString => exact .string isString
  | list opens elements => exact .list opens (Closed.mono (Listed.mono within) _ _ elements)
  | group opens inner => exact .group opens (Closed.mono within _ _ inner)

theorem Pattern.Final.mono {narrow wide : Language Pattern} (within : narrow ≤ wide) :
    Final narrow ≤ Final wide := by
  intro tokens value final
  cases final with
  | element element => exact .element (Element.mono within _ _ element)
  | named isName isAt inner => exact .named isName isAt (within _ _ inner)

theorem Pattern.Derives.succ (height : Nat) : Derives height ≤ Derives (height + 1) := by
  induction height with
  | zero => exact fun _ _ impossible => impossible.elim
  | succ height induction => exact Chain.mono (Element.mono induction) (Final.mono induction)

theorem Clause.Derives.mono {narrowPattern widePattern : Language Pattern}
    {narrow wide : Language Term} (patternWithin : narrowPattern ≤ widePattern)
    (within : narrow ≤ wide) :
    Clause.Derives narrowPattern narrow ≤ Clause.Derives widePattern wide := by
  intro tokens clause derives
  obtain ⟨patterns, body⟩ := derives
  exact ⟨Closed.mono (Listed.mono patternWithin) _ _ patterns, within _ _ body⟩

theorem Term.Element.mono {narrowPattern widePattern : Language Pattern}
    {narrow wide : Language Term} (patternWithin : narrowPattern ≤ widePattern)
    (within : narrow ≤ wide) : Element narrowPattern narrow ≤ Element widePattern wide := by
  intro tokens value element
  cases element with
  | var isName => exact .var isName
  | app isName opens arguments =>
      exact .app isName opens (Closed.mono (Listed.mono within) _ _ arguments)
  | atom isAtom => exact .atom isAtom
  | tree isAtom opens arguments =>
      exact .tree isAtom opens (Closed.mono (Listed.mono within) _ _ arguments)
  | string isString => exact .string isString
  | list opens elements => exact .list opens (Closed.mono (Listed.mono within) _ _ elements)
  | group opens inner => exact .group opens (Closed.mono within _ _ inner)
  | matching isMatch subjects clauses =>
      exact .matching isMatch (Closed.mono (Listed.mono within) _ _ subjects)
        (Closed.mono (Listed.mono (Clause.Derives.mono patternWithin within)) _ _ clauses)

theorem Term.Derives.succ (height : Nat) : Derives height ≤ Derives (height + 1) := by
  induction height with
  | zero => exact fun _ _ impossible => impossible.elim
  | succ height induction =>
      exact Chain.mono (Element.mono (Pattern.Derives.succ height) induction)
        (Element.mono (Pattern.Derives.succ height) induction)

theorem Pattern.Derives.mono {low high : Nat} (atMost : low ≤ high) :
    Derives low ≤ Derives high := by
  induction atMost with
  | refl => exact le_refl _
  | step _ induction => exact le_trans induction (Derives.succ _)

theorem Term.Derives.mono {low high : Nat} (atMost : low ≤ high) :
    Derives low ≤ Derives high := by
  induction atMost with
  | refl => exact le_refl _
  | step _ induction => exact le_trans induction (Derives.succ _)

theorem Definition.Derives.mono {low high : Nat} (atMost : low ≤ high) :
    Derives low ≤ Derives high := by
  intro tokens definition derives
  cases derives with
  | plain isLet isName isEquals body =>
      exact .plain isLet isName isEquals (Term.Derives.mono atMost _ _ body)
  | parameters isLet isName opens patterns isEquals body =>
      exact .parameters isLet isName opens
        (Closed.mono (Listed.mono (Pattern.Derives.mono atMost)) _ _ patterns) isEquals
        (Term.Derives.mono atMost _ _ body)

theorem Item.Derives.mono {low high : Nat} (atMost : low ≤ high) :
    Derives low ≤ Derives high := by
  intro tokens item derives
  cases derives with
  | define derives => exact .define (Definition.Derives.mono atMost _ _ derives)
  | lone derives => exact .lone (Term.Derives.mono atMost _ _ derives)

theorem Program.Derives.mono {low high : Nat} (atMost : low ≤ high) :
    Derives low ≤ Derives high := by
  intro tokens items derives
  induction derives with
  | nil => exact .nil
  | cons item isSemicolon _ induction =>
      exact .cons (Item.Derives.mono atMost _ _ item) isSemicolon induction

private theorem atoms_subset_patternStarts :
    [Kind.atom, Kind.quotedAtom] ⊆ Expectation.patternStarts := by
  decide

private theorem atoms_subset_termStarts :
    [Kind.atom, Kind.quotedAtom] ⊆ Expectation.termStarts := by
  decide

theorem Pattern.Element.starts (inner : Language Pattern) :
    Starts (Element inner) Expectation.patternStarts := by
  intro tokens value element
  cases element with
  | wildcard isUnderscore => exact ⟨_, _, rfl, by simp [isUnderscore, Expectation.patternStarts]⟩
  | var isName => exact ⟨_, _, rfl, by simp [isName, Expectation.patternStarts]⟩
  | atom isAtom => exact ⟨_, _, rfl, atoms_subset_patternStarts isAtom⟩
  | tree isAtom _ _ => exact ⟨_, _, rfl, atoms_subset_patternStarts isAtom⟩
  | string isString => exact ⟨_, _, rfl, by simp [isString, Expectation.patternStarts]⟩
  | list opens _ => exact ⟨_, _, rfl, by simp [opens, Expectation.patternStarts]⟩
  | group opens _ => exact ⟨_, _, rfl, by simp [opens, Expectation.patternStarts]⟩

theorem Pattern.Final.starts (inner : Language Pattern) :
    Starts (Final inner) Expectation.patternStarts := by
  intro tokens value final
  cases final with
  | element element => exact Element.starts inner element
  | named isName _ _ => exact ⟨_, _, rfl, by simp [isName, Expectation.patternStarts]⟩

theorem Pattern.Derives.starts (height : Nat) :
    Starts (Derives height) Expectation.patternStarts := by
  cases height with
  | zero => exact fun _ _ impossible => impossible.elim
  | succ height => exact (Element.starts _).chain (Final.starts _)

theorem Term.Element.starts (pattern : Language Pattern) (inner : Language Term) :
    Starts (Element pattern inner) Expectation.termStarts := by
  intro tokens value element
  cases element with
  | var isName => exact ⟨_, _, rfl, by simp [isName, Expectation.termStarts]⟩
  | app isName _ _ => exact ⟨_, _, rfl, by simp [isName, Expectation.termStarts]⟩
  | atom isAtom => exact ⟨_, _, rfl, atoms_subset_termStarts isAtom⟩
  | tree isAtom _ _ => exact ⟨_, _, rfl, atoms_subset_termStarts isAtom⟩
  | string isString => exact ⟨_, _, rfl, by simp [isString, Expectation.termStarts]⟩
  | list opens _ => exact ⟨_, _, rfl, by simp [opens, Expectation.termStarts]⟩
  | group opens _ => exact ⟨_, _, rfl, by simp [opens, Expectation.termStarts]⟩
  | matching isMatch _ _ => exact ⟨_, _, rfl, by simp [isMatch, Expectation.termStarts]⟩

theorem Term.Derives.starts (height : Nat) :
    Starts (Derives height) Expectation.termStarts := by
  cases height with
  | zero => exact fun _ _ impossible => impossible.elim
  | succ height => exact (Element.starts _ _).chain (Element.starts _ _)

theorem Clause.Derives.starts {pattern : Language Pattern} {kinds : List Kind}
    (starts : Starts pattern kinds) (term : Language Term) :
    Starts (Clause.Derives pattern term) (.arrow :: kinds) := by
  intro tokens clause derives
  obtain ⟨patterns, body⟩ := derives
  obtain ⟨first, others, rfl, member⟩ := starts.closedList patterns
  exact ⟨first, _, List.cons_append, member⟩

theorem Definition.Derives.starts (height : Nat) :
    Starts (Definition.Derives height) [.letWord] := by
  intro tokens value derives
  cases derives with
  | plain isLet _ _ _ => exact ⟨_, _, rfl, by simp [isLet]⟩
  | parameters isLet _ _ _ _ _ => exact ⟨_, _, rfl, by simp [isLet]⟩

theorem Item.Derives.starts (height : Nat) :
    Starts (Item.Derives height) (.letWord :: Expectation.termStarts) := by
  intro tokens value derives
  cases derives with
  | define derives =>
      exact (Definition.Derives.starts height).weaken (by simp) derives
  | lone derives => exact (Term.Derives.starts height).weaken (by simp) derives

end TermScript
