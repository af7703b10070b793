import TermScript.Session

/-! Reading with a counter of the levels that are open. A rule is handed the number of levels that it
may still open; a counted reading raises a counter where a level begins and lowers it where the level
ends, also after a fault. Both end alike, and the counter ends where it began. -/

namespace TermScript

/-- Where reading stands, how many levels are open there, and how many were open at most so far. -/
structure Counter where
  input : Input
  depth : Nat
  peak : Nat

/-- Reading that leaves a counter, whether it gives a value or fails. -/
abbrev Counted : Type → Type :=
  EStateM Fault Counter

namespace Counted

variable {α β : Type}

def ending (result : Except Fault α) (left : Counter) : EStateM.Result Fault Counter α :=
  match result with
  | .ok value => .ok value left
  | .error fault => .error fault left

/-- A rule that opens no level. -/
def flat (rule : Rule α) : Counted α := fun counter =>
  let outcome := rule counter.input
  ending outcome.result { counter with input := outcome.rest }

/-- Open a level, read, and close the level; fail where the limit is reached. -/
def nested (limit : Nat) (inner : Counted α) : Counted α := fun counter =>
  if limit ≤ counter.depth then .error (.overNested limit counter.input.here) counter
  else
    let inside := counter.depth + 1
    match inner { counter with depth := inside, peak := max counter.peak inside } with
    | .ok value left => .ok value { left with depth := left.depth - 1 }
    | .error fault left => .error fault { left with depth := left.depth - 1 }

def choose (expected : Expectation) (choices : Token → Option (Counted α)) : Counted α :=
  fun counter =>
    match counter.input.peek?.bind choices with
    | some choice => choice { counter with input := counter.input.advance }
    | none => .error (counter.input.fault expected) counter

def manyFrom (step : Nat → Counted (Option α)) (index : Nat) (counter : Counter) :
    EStateM.Result Fault Counter (List α) :=
  match step index counter with
  | .error fault left => .error fault left
  | .ok none left => .ok [] left
  | .ok (some value) left =>
      if left.input.ahead.length < counter.input.ahead.length then
        match manyFrom step (index + 1) left with
        | .ok others left => .ok (value :: others) left
        | .error fault left => .error fault left
      else .ok [value] left
termination_by counter.input.ahead.length

def many (step : Nat → Counted (Option α)) : Counted (List α) :=
  manyFrom step 0

def nextInList (stops : List Kind) (element : Counted α) : Counted (Option α) := do
  if ← flat (Rule.look (·.endsAt stops)) then return none
  let _ ← flat (Rule.expect [.comma])
  if ← flat (Rule.look (·.endsAt stops)) then return none
  some <$> element

def sepByComma (stops : List Kind) (element : Counted α) : Counted (List α) := do
  if ← flat (Rule.look (·.endsAt stops)) then return []
  let first ← element
  let others ← many fun _ => nextInList stops element
  return first :: others

def closed (close : Kind) (inner : Counted α) : Counted α := do
  let value ← inner
  let _ ← flat (Rule.expect [close])
  return value

def listUntil (close : Kind) (element : Counted α) : Counted (List α) :=
  closed close (sepByComma [close] element)

def arguments? (element : Counted α) : Counted (Option (List α)) := do
  if ← flat (Rule.accept .openParen) then some <$> listUntil .closeParen element else return none

def nextInChain (element : Counted α) : Counted (Option α) := do
  if ← flat (Rule.accept .colon) then some <$> element else return none

def chain (join : α → α → α) (element : Counted α) : Counted α := do
  let first ← element
  let others ← many fun _ => nextInChain element
  return Rule.joinRight join first others

def patternAfterName (inner : Counted Pattern) (name : String) : Counted Pattern := do
  if ← flat (Rule.accept .atSign) then .named name <$> inner else return .var name

def patternTree (inner : Counted Pattern) (functor : String) : Counted Pattern := do
  let children? ← arguments? inner
  return .tree functor (children?.getD [])

def patternAfter (inner : Counted Pattern) (token : Token) : Option (Counted Pattern) :=
  match token.kind with
  | .underscore => some (pure .wildcard)
  | .identifier => some (patternAfterName inner token.name)
  | .atom | .quotedAtom => some (patternTree inner token.name)
  | .string => some (pure (.string token.unquoted))
  | .openBracket => some (.list <$> listUntil .closeBracket inner)
  | .openParen => some (closed .closeParen inner)
  | _ => none

def patternElement (inner : Counted Pattern) : Counted Pattern := do
  flat (Rule.note (.begins .pattern))
  choose .pattern (patternAfter inner)

/-- A pattern, with its rule unrolled for so many levels. One more than the limit will do, as the
counter refuses to open that one. -/
def pattern (limit : Nat) : Nat → Counted Pattern
  | 0 => throw (.exhausted .pattern)
  | levels + 1 => nested limit (chain .cons (patternElement (pattern limit levels)))

def clause (patterns : Counted Pattern) (terms : Counted Term) : Counted Clause := do
  let patterns ← listUntil .arrow patterns
  let body ← terms
  return .mk patterns body

def matching (patterns : Counted Pattern) (inner : Counted Term) : Counted Term := do
  flat (Rule.note fun _ => .matching)
  let subjects ← listUntil .openBrace inner
  let clauses ← listUntil .closeBrace (clause patterns inner)
  return .matching subjects clauses

def termAfterName (inner : Counted Term) (name : String) : Counted Term := do
  match ← arguments? inner with
  | some operands => return .app name operands
  | none => return .var name

def termTree (inner : Counted Term) (functor : String) : Counted Term := do
  let children? ← arguments? inner
  return .tree functor (children?.getD [])

def termAfter (patterns : Counted Pattern) (inner : Counted Term) (token : Token) :
    Option (Counted Term) :=
  match token.kind with
  | .identifier => some (termAfterName inner token.name)
  | .atom | .quotedAtom => some (termTree inner token.name)
  | .string => some (pure (.string token.unquoted))
  | .openBracket => some (.list <$> listUntil .closeBracket inner)
  | .openParen => some (closed .closeParen inner)
  | .matchWord => some (matching patterns inner)
  | _ => none

def termElement (patterns : Counted Pattern) (inner : Counted Term) : Counted Term := do
  flat (Rule.note (.begins .term))
  choose .term (termAfter patterns inner)

def term (limit : Nat) : Nat → Counted Term
  | 0 => throw (.exhausted .term)
  | levels + 1 =>
      nested limit (chain .cons (termElement (pattern limit levels) (term limit levels)))

def definition (limit : Nat) : Counted Definition := do
  let _ ← flat (Rule.expect [.letWord])
  let name ← flat (Rule.expect [.identifier])
  flat (Rule.note fun _ => .names name.text)
  let patterns? ← arguments? (pattern limit (limit + 1))
  let _ ← flat (Rule.expect [.equals])
  let body ← term limit (limit + 1)
  return ⟨name.text, patterns?.getD [], body⟩

def item (limit : Nat) : Counted Item := do
  flat (Rule.note (.begins .item))
  if ← flat (Rule.look (·.startsWith [.letWord])) then .define <$> definition limit
  else .lone <$> term limit (limit + 1)

def nextItem (limit : Nat) (index : Nat) : Counted (Option Item) := do
  if ← flat (Rule.look (·.isEmpty)) then return none
  let item ← item limit
  let _ ← flat (Rule.expect [.semicolon])
  flat (Rule.note fun _ => .completes index item.label)
  return some item

def program (limit : Nat) : Counted Program :=
  many (nextItem limit)

end Counted

namespace Session

def Call.counted (limit : Nat) : Call → Counted Reply
  | .term => .term <$> Counted.term limit (limit + 1)
  | .pattern => .pattern <$> Counted.pattern limit (limit + 1)
  | .item => .item <$> Counted.item limit
  | .definition => .definition <$> Counted.definition limit
  | .program => .program <$> Counted.program limit

end Session

namespace Counted

variable {α β : Type} {limit budget : Nat}

/-- With as many levels left to open as the rule may open, the counted reading ends as the rule does
and closes what it opened, and no more than the limit were ever open. -/
def Tracks (limit budget : Nat) (counted : Counted α) (rule : Rule α) : Prop :=
  ∀ ⦃counter : Counter⦄, counter.depth + budget = limit → counter.peak ≤ limit →
    ∃ peak ≤ limit, counted counter =
      ending (rule counter.input).result ⟨(rule counter.input).rest, counter.depth, peak⟩

theorem tracks_flat (rule : Rule α) : Tracks limit budget (flat rule) rule :=
  fun counter _ atMost => ⟨counter.peak, atMost, rfl⟩

theorem tracks_pure (value : α) : Tracks limit budget (pure value) (pure value) :=
  fun counter _ atMost => ⟨counter.peak, atMost, rfl⟩

theorem Tracks.bind {counted : Counted α} {rule : Rule α} {next : α → Counted β}
    {next' : α → Rule β} (first : Tracks limit budget counted rule)
    (later : ∀ value, Tracks limit budget (next value) (next' value)) :
    Tracks limit budget (counted >>= next) (rule >>= next') := by
  intro counter levels atMost
  obtain ⟨peak, atMost, same⟩ := first levels atMost
  change ∃ peak ≤ limit, EStateM.bind counted next counter = _
  rcases outcome : rule counter.input with ⟨fault | value, middle, events⟩
  · rw [outcome] at same
    rw [EStateM.bind, same, Rule.bind_of_error outcome]
    exact ⟨peak, atMost, rfl⟩
  · rw [outcome] at same
    rw [EStateM.bind, same, Rule.bind_of_ok outcome]
    exact later value levels atMost

theorem Tracks.map {counted : Counted α} {rule : Rule α}
    (tracks : Tracks limit budget counted rule) (change : α → β) :
    Tracks limit budget (change <$> counted) (change <$> rule) := by
  rw [map_eq_pure_bind, map_eq_pure_bind]
  exact tracks.bind fun value => tracks_pure (change value)

private theorem tracks_spent (limit : Nat) (inner : Counted α) :
    Tracks limit 0 (nested limit inner) (Rule.overNested limit) := by
  intro counter levels atMost
  have spent : limit ≤ counter.depth := Nat.le_of_eq levels.symm
  refine ⟨counter.peak, atMost, ?_⟩
  rw [nested, if_pos spent]
  rfl

theorem Tracks.nested {inner : Counted α} {rule : Rule α}
    (tracks : Tracks limit budget inner rule) :
    Tracks limit (budget + 1) (nested limit inner) rule := by
  intro counter levels atMost
  have room : counter.depth < limit := by omega
  have inside : counter.depth + 1 + budget = limit := by omega
  have first : max counter.peak (counter.depth + 1) ≤ limit := Nat.max_le.mpr ⟨atMost, room⟩
  obtain ⟨peak, atMost, same⟩ :=
    @tracks ⟨counter.input, counter.depth + 1, max counter.peak (counter.depth + 1)⟩ inside first
  refine ⟨peak, atMost, ?_⟩
  rw [Counted.nested, if_neg (Nat.not_le.mpr room)]
  simp only [same]
  cases (rule counter.input).result with
  | ok value => rfl
  | error fault => rfl

theorem tracks_choose (expected : Expectation) {choices : Token → Option (Counted α)}
    {ruleFor : Token → Option (Rule α)}
    (tracks : ∀ token, Option.Rel (Tracks limit budget) (choices token) (ruleFor token)) :
    Tracks limit budget (choose expected choices) (Rule.choose expected ruleFor) := by
  intro counter levels atMost
  unfold choose Rule.choose
  cases counter.input.peek? with
  | none => exact ⟨counter.peak, atMost, rfl⟩
  | some first =>
      rw [Option.bind_some, Option.bind_some]
      have tracks := tracks first
      generalize choices first = choice, ruleFor first = choice' at tracks
      cases tracks with
      | none => exact ⟨counter.peak, atMost, rfl⟩
      | some tracks =>
          exact @tracks { counter with input := counter.input.advance } levels atMost

theorem tracks_manyFrom {step : Nat → Counted (Option α)} {step' : Nat → Rule (Option α)}
    (tracks : ∀ index, Tracks limit budget (step index) (step' index)) (index : Nat) :
    Tracks limit budget (manyFrom step index) (Rule.manyFrom step' index) := by
  intro counter levels atMost
  induction size : counter.input.ahead.length using Nat.strongRecOn generalizing index counter with
  | ind size induction =>
      obtain ⟨peak, atMost, same⟩ := tracks index levels atMost
      rw [manyFrom, Rule.manyFrom, same]
      rcases step' index counter.input with ⟨fault | value?, middle, events⟩
      · exact ⟨peak, atMost, rfl⟩
      cases value? with
      | none => exact ⟨peak, atMost, rfl⟩
      | some value =>
          simp only [ending]
          split
          · rename_i shorter
            obtain ⟨peak, atMost, same⟩ := @induction _ (size ▸ shorter) (index + 1)
              ⟨middle, counter.depth, peak⟩ levels atMost rfl
            refine ⟨peak, atMost, ?_⟩
            rw [same]
            cases (Rule.manyFrom step' (index + 1) middle).result with
            | ok others => rfl
            | error fault => rfl
          · exact ⟨peak, atMost, rfl⟩

section Lists

variable {counted : Counted α} {rule : Rule α} (elements : Tracks limit budget counted rule)

include elements

theorem Tracks.nextInList (stops : List Kind) :
    Tracks limit budget (nextInList stops counted) (Rule.nextInList stops rule) := by
  refine (tracks_flat _).bind fun ended => ?_
  cases ended with
  | true => exact tracks_pure none
  | false =>
      refine (tracks_flat _).bind fun _ => (tracks_flat _).bind fun ended => ?_
      cases ended with
      | true => exact tracks_pure none
      | false => exact elements.map some

theorem Tracks.sepByComma (stops : List Kind) :
    Tracks limit budget (sepByComma stops counted) (Rule.sepByComma stops rule) := by
  refine (tracks_flat _).bind fun ended => ?_
  cases ended with
  | true => exact tracks_pure []
  | false =>
      refine elements.bind fun first => ?_
      refine (tracks_manyFrom (fun _ => elements.nextInList stops) 0).bind fun others => ?_
      exact tracks_pure (first :: others)

theorem Tracks.closed (close : Kind) :
    Tracks limit budget (closed close counted)
      (do let value ← rule; let _ ← Rule.expect [close]; return value) :=
  elements.bind fun value => (tracks_flat _).bind fun _ => tracks_pure value

theorem Tracks.listUntil (close : Kind) :
    Tracks limit budget (listUntil close counted) (Rule.listUntil close rule) :=
  (elements.sepByComma [close]).closed close

theorem Tracks.arguments? :
    Tracks limit budget (arguments? counted) (Rule.arguments? rule) := by
  refine (tracks_flat _).bind fun opened => ?_
  cases opened with
  | true => exact (elements.listUntil .closeParen).map some
  | false => exact tracks_pure none

theorem Tracks.nextInChain :
    Tracks limit budget (nextInChain counted) (Rule.nextInChain rule) := by
  refine (tracks_flat _).bind fun isColon => ?_
  cases isColon with
  | true => exact elements.map some
  | false => exact tracks_pure none

theorem Tracks.chain (join : α → α → α) :
    Tracks limit budget (chain join counted) (Rule.chain join rule) := by
  refine elements.bind fun first => ?_
  refine (tracks_manyFrom (fun _ => elements.nextInChain) 0).bind fun others => ?_
  exact tracks_pure (Rule.joinRight join first others)

end Lists

section Trees

variable {patterns : Counted Pattern} {patternRule : Rule Pattern} {terms : Counted Term}
  {termRule : Rule Term} (trackPatterns : Tracks limit budget patterns patternRule)
  (trackTerms : Tracks limit budget terms termRule)

include trackPatterns

private theorem tracks_patternAfter (token : Token) :
    Option.Rel (Tracks limit budget) (patternAfter patterns token)
      (Pattern.ruleFor patternRule token) := by
  have trees := trackPatterns.arguments?.bind fun children? =>
    tracks_pure (Pattern.tree token.name (children?.getD []))
  unfold patternAfter Pattern.ruleFor
  cases token.kind with
  | underscore => exact .some (tracks_pure _)
  | identifier =>
      refine .some ((tracks_flat _).bind fun isAt => ?_)
      cases isAt with
      | true => exact trackPatterns.map _
      | false => exact tracks_pure _
  | atom => exact .some trees
  | quotedAtom => exact .some trees
  | string => exact .some (tracks_pure _)
  | openBracket => exact .some ((trackPatterns.listUntil _).map _)
  | openParen => exact .some (trackPatterns.closed _)
  | _ => exact .none

private theorem tracks_patternElement :
    Tracks limit budget (patternElement patterns) (Pattern.element patternRule) :=
  (tracks_flat _).bind fun _ => tracks_choose _ (tracks_patternAfter trackPatterns)

include trackTerms

private theorem tracks_clause :
    Tracks limit budget (clause patterns terms) (Clause.rule patternRule termRule) :=
  (trackPatterns.listUntil _).bind fun _ => trackTerms.bind fun _ => tracks_pure _

private theorem tracks_termAfter (token : Token) :
    Option.Rel (Tracks limit budget) (termAfter patterns terms token)
      (Term.ruleFor patternRule termRule token) := by
  have trees := trackTerms.arguments?.bind fun children? =>
    tracks_pure (Term.tree token.name (children?.getD []))
  have clauses := tracks_clause trackPatterns trackTerms
  unfold termAfter Term.ruleFor
  cases token.kind with
  | identifier =>
      refine .some (trackTerms.arguments?.bind fun operands? => ?_)
      cases operands? with
      | some operands => exact tracks_pure _
      | none => exact tracks_pure _
  | atom => exact .some trees
  | quotedAtom => exact .some trees
  | string => exact .some (tracks_pure _)
  | openBracket => exact .some ((trackTerms.listUntil _).map _)
  | openParen => exact .some (trackTerms.closed _)
  | matchWord =>
      exact .some ((tracks_flat _).bind fun _ => (trackTerms.listUntil _).bind fun _ =>
        (clauses.listUntil _).bind fun _ => tracks_pure _)
  | _ => exact .none

private theorem tracks_termElement :
    Tracks limit budget (termElement patterns terms) (Term.element patternRule termRule) :=
  (tracks_flat _).bind fun _ => tracks_choose _ (tracks_termAfter trackPatterns trackTerms)

end Trees

theorem tracks_pattern (limit budget : Nat) :
    Tracks limit budget (pattern limit (budget + 1)) (Pattern.within limit budget) := by
  induction budget with
  | zero => exact tracks_spent limit _
  | succ budget induction => exact ((tracks_patternElement induction).chain .cons).nested

theorem tracks_term (limit budget : Nat) :
    Tracks limit budget (term limit (budget + 1)) (Term.within limit budget) := by
  induction budget with
  | zero => exact tracks_spent limit _
  | succ budget induction =>
      exact ((tracks_termElement (tracks_pattern limit budget) induction).chain .cons).nested

theorem tracks_definition (limit : Nat) :
    Tracks limit limit (definition limit) (Definition.rule limit) :=
  (tracks_flat _).bind fun _ => (tracks_flat _).bind fun _ => (tracks_flat _).bind fun _ =>
    (tracks_pattern limit limit).arguments?.bind fun _ => (tracks_flat _).bind fun _ =>
      (tracks_term limit limit).bind fun _ => tracks_pure _

theorem tracks_item (limit : Nat) : Tracks limit limit (item limit) (Item.rule limit) := by
  refine (tracks_flat _).bind fun _ => (tracks_flat _).bind fun isLet => ?_
  cases isLet with
  | true => exact (tracks_definition limit).map _
  | false => exact (tracks_term limit limit).map _

private theorem tracks_nextItem (limit index : Nat) :
    Tracks limit limit (nextItem limit index) (Program.nextItem limit index) := by
  refine (tracks_flat _).bind fun ended => ?_
  cases ended with
  | true => exact tracks_pure none
  | false =>
      exact (tracks_item limit).bind fun item => (tracks_flat _).bind fun _ =>
        (tracks_flat _).bind fun _ => tracks_pure (some item)

theorem tracks_program (limit : Nat) :
    Tracks limit limit (program limit) (Program.rule limit) :=
  tracks_manyFrom (tracks_nextItem limit) 0

end Counted

theorem Session.Call.tracks_counted (limit : Nat) (call : Call) :
    Counted.Tracks limit limit (call.counted limit) (call.rule limit) := by
  cases call with
  | term => exact (Counted.tracks_term limit limit).map _
  | pattern => exact (Counted.tracks_pattern limit limit).map _
  | item => exact (Counted.tracks_item limit).map _
  | definition => exact (Counted.tracks_definition limit).map _
  | program => exact (Counted.tracks_program limit).map _

end TermScript
