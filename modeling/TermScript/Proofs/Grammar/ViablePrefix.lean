import TermScript.Proofs.Grammar.Completeness

/-! Where a rule fails, what it has read so far is the front of a row of its language. A fault that
is not about nesting names kinds that could all come next, and the next token is of none of them. -/

namespace TermScript

open TermScript.Language

def Token.sample (kind : Kind) : Token :=
  ⟨kind, "", ⟨0, 0⟩⟩

@[simp] theorem Token.kind_sample (kind : Kind) : (sample kind).kind = kind := rfl

namespace Language

variable {α β : Type}

/-- Behind these tokens, a row of the inner language is the front of a row of the outer one. -/
def Frames (before : List Token) (inner : Language α) (outer : Language β) : Prop :=
  ∀ ⦃tokens value⦄, inner tokens value → ∃ after value', outer (before ++ (tokens ++ after)) value'

theorem Frames.of_row {before : List Token} {inner : Language α} {outer : Language β}
    (row : ∀ ⦃tokens value⦄, inner tokens value → ∃ value', outer (before ++ tokens) value') :
    Frames before inner outer := by
  intro tokens value derives
  obtain ⟨value', derives⟩ := row derives
  exact ⟨[], value', by rwa [List.append_nil]⟩

end Language

namespace Rule

variable {α β : Type} {limit : Nat} {language wider : Language α} {outer outerWider : Language β}

/-- The state of a reader that cannot go on: these tokens are read, the rest is left. Either the
nesting is spent, or the tokens read may be completed, and in a wider language also by each of the
expected kinds, of which the rest begins with none. -/
inductive Blocked (limit : Nat) (language wider : Language α) (read : List Token) (rest : Input) :
    Fault → Prop
  | deep : Blocked limit language wider read rest (.overNested limit rest.here)
  | misfit {expected : Expectation} :
      rest.startsWith expected.fitting = false →
      (∃ more value, language (read ++ more) value) →
      (∀ kind ∈ expected.fitting, ∃ token more value,
        token.kind = kind ∧ wider (read ++ token :: more) value) →
      Blocked limit language wider read rest (rest.fault expected)

def BlocksAt (rule : Rule α) (limit : Nat) (language wider : Language α) (input : Input) : Prop :=
  ∀ ⦃fault rest⦄, rule.Faults input fault rest →
    ∃ read, input = rest.prepend read ∧ Blocked limit language wider read rest fault

def Blocks (rule : Rule α) (limit : Nat) (language wider : Language α) : Prop :=
  ∀ input, rule.BlocksAt limit language wider input

theorem Blocked.frame {before read : List Token} {rest : Input} {fault : Fault}
    (blocked : Blocked limit language wider read rest fault)
    (frames : Frames before language outer) (wideFrames : Frames before wider outerWider) :
    Blocked limit outer outerWider (before ++ read) rest fault := by
  cases blocked with
  | deep => exact .deep
  | misfit missing viable fitting =>
      refine .misfit missing ?_ ?_
      · obtain ⟨more, value, derives⟩ := viable
        obtain ⟨after, value', derives⟩ := frames derives
        refine ⟨more ++ after, value', ?_⟩
        rwa [List.append_assoc, ← List.append_assoc read]
      · intro kind member
        obtain ⟨token, more, value, same, derives⟩ := fitting kind member
        obtain ⟨after, value', derives⟩ := wideFrames derives
        refine ⟨token, more ++ after, value', same, ?_⟩
        rwa [List.append_assoc, ← List.cons_append, ← List.append_assoc read]

theorem BlocksAt.frame {rule : Rule α} {before : List Token} {input rest : Input} {fault : Fault}
    (blocks : rule.BlocksAt limit language wider input) (run : rule.Faults input fault rest)
    (frames : Frames before language outer) (wideFrames : Frames before wider outerWider) :
    ∃ read, input.prepend before = rest.prepend read ∧
      Blocked limit outer outerWider read rest fault := by
  obtain ⟨read, rfl, blocked⟩ := blocks run
  exact ⟨before ++ read, by simp, blocked.frame frames wideFrames⟩

theorem Blocked.start {read : List Token} {rest : Input} {fault : Fault}
    (blocked : Blocked limit language wider read rest fault)
    (frames : Frames [] language outer) (wideFrames : Frames [] wider outerWider) :
    Blocked limit outer outerWider read rest fault :=
  blocked.frame frames wideFrames

theorem BlocksAt.start {rule : Rule α} {input rest : Input} {fault : Fault}
    (blocks : rule.BlocksAt limit language wider input) (run : rule.Faults input fault rest)
    (frames : Frames [] language outer) (wideFrames : Frames [] wider outerWider) :
    ∃ read, input = rest.prepend read ∧ Blocked limit outer outerWider read rest fault :=
  blocks.frame run frames wideFrames

theorem Blocked.expecting {read : List Token} {rest : Input} {kind : Kind}
    (missing : rest.startsWith [kind] = false)
    (viable : ∃ more value, language (read ++ more) value)
    (fitting : ∃ token more value, token.kind = kind ∧ wider (read ++ token :: more) value) :
    Blocked limit language wider read rest (rest.fault (.oneOf [kind])) := by
  refine .misfit missing viable ?_
  intro other member
  rw [Expectation.fitting, List.mem_singleton] at member
  exact member ▸ fitting

private theorem frames_closed {close : Kind} (language : Language α) :
    Frames [] language (Closed close language) := by
  intro tokens value derives
  exact ⟨[Token.sample close], value, .intro derives rfl⟩

private theorem Blocked.unclosed {close : Kind} {tokens : List Token} {value : α} {rest : Input}
    (within : language ≤ wider) (derives : language tokens value)
    (missing : rest.startsWith [close] = false) :
    Blocked limit (Closed close language) (Closed close wider) tokens rest
      (rest.fault (.oneOf [close])) := by
  refine .expecting missing ?_ ?_
  · exact ⟨[Token.sample close], value, .intro derives rfl⟩
  · exact ⟨Token.sample close, [], value, rfl, .intro (within _ _ derives) rfl⟩

theorem BlocksAt.closed {rule : Rule α} {close : Kind} {input : Input}
    (reads : rule.Reads language) (within : language ≤ wider)
    (blocks : rule.BlocksAt limit language wider input) :
    BlocksAt (do let value ← rule; let _ ← expect [close]; return value) limit
      (Closed close language) (Closed close wider) input := by
  intro fault rest run
  rcases faults_closed.mp run with inner | ⟨value, inner, missing, rfl⟩
  · obtain ⟨read, rfl, blocked⟩ := blocks inner
    exact ⟨read, rfl, blocked.start (frames_closed _) (frames_closed _)⟩
  · obtain ⟨tokens, rfl, derives⟩ := reads inner
    exact ⟨tokens, rfl, .unclosed within derives missing⟩

private theorem frames_separated_first (language : Language α) :
    Frames [] language (Listed language) :=
  .of_row fun _ value derives => ⟨[value], .plain (.one derives)⟩

private theorem frames_separated_later {tokens : List Token} {comma : Token} {values : List α}
    (separated : Separated language tokens values) (isComma : comma.kind = .comma) :
    Frames (tokens ++ [comma]) language (Listed language) := by
  refine .of_row fun others value derives => ⟨values ++ [value], .plain ?_⟩
  rw [List.append_assoc]
  exact separated.concat isComma derives

theorem Blocks.sepByComma {stops : List Kind} {element : Rule α} (reads : element.Reads language)
    (within : language ≤ wider)
    (blocks : ∀ input, input.isEmpty = false → element.BlocksAt limit language wider input) :
    (sepByComma stops element).Blocks limit (Listed language) (Listed wider) := by
  intro input fault rest run
  obtain ⟨notEnd, run⟩ := (faults_sepByComma reads.neverGrows).mp run
  rcases run with firstFault | ⟨first, middle, others, last, final, firstRun, walks, stop⟩
  · exact (blocks input (Input.isEmpty_of_endsAt notEnd)).start firstFault
      (frames_separated_first _) (frames_separated_first _)
  · obtain ⟨firstTokens, rfl, derives⟩ := reads firstRun
    obtain ⟨tokens, rfl, separated⟩ := reads.separated_of_walks walks
    have separated := separated derives
    have wideSeparated := Separated.mono within _ _ separated
    obtain ⟨-, missing | ⟨comma, middle, rfl, isComma, notEnd, elementFault⟩⟩ :=
      faults_nextInList.mp stop
    · obtain ⟨missing, rfl, rfl⟩ := missing
      refine ⟨firstTokens ++ tokens, by simp, .expecting missing ?_ ?_⟩
      · exact ⟨[], _, .plain (by rwa [List.append_nil])⟩
      · exact ⟨Token.sample .comma, [], _, rfl, .trailing wideSeparated rfl⟩
    · obtain ⟨read, rfl, blocked⟩ := blocks middle (Input.isEmpty_of_endsAt notEnd) elementFault
      exact ⟨firstTokens ++ tokens ++ [comma] ++ read, by simp,
        blocked.frame (frames_separated_later separated isComma)
          (frames_separated_later wideSeparated isComma)⟩

theorem Blocks.listUntil {close : Kind} {element : Rule α} (reads : element.Reads language)
    (within : language ≤ wider)
    (blocks : ∀ input, input.isEmpty = false → element.BlocksAt limit language wider input) :
    (listUntil close element).Blocks limit (Closed close (Listed language))
      (Closed close (Listed wider)) := by
  intro input
  exact BlocksAt.closed reads.sepByComma (Listed.mono within)
    (Blocks.sepByComma reads within blocks input)

theorem Blocks.grouped {inner : Rule α} (reads : inner.Reads language) (within : language ≤ wider)
    (blocks : inner.Blocks limit language wider) :
    (grouped inner).Blocks limit (Closed .closeParen language) (Closed .closeParen wider) :=
  fun input => BlocksAt.closed reads within (blocks input)

section Chains

variable {join : α → α → α} {element : Rule α} {link last linkWider lastWider : Language α}

private theorem frames_chain_last :
    Frames [] last (Chain join link last) :=
  .of_row fun _ value derives => ⟨value, .last derives⟩

private theorem frames_chain_link {tokens : List Token} {colon : Token} {value : α}
    (derives : link tokens value) (isColon : colon.kind = .colon) :
    Frames (tokens ++ [colon]) (Chain join link last) (Chain join link last) := by
  refine .of_row fun others rest chain => ⟨join value rest, ?_⟩
  rw [List.append_assoc]
  exact .link derives isColon chain

private theorem Blocked.behind_link {tokens read : List Token} {colon : Token} {value : α}
    {rest : Input} {fault : Fault}
    (blocked :
      Blocked limit (Chain join link last) (Chain join linkWider lastWider) read rest fault)
    (linkWithin : link ≤ linkWider) (derives : link tokens value) (isColon : colon.kind = .colon) :
    Blocked limit (Chain join link last) (Chain join linkWider lastWider)
      (tokens ++ [colon] ++ read) rest fault :=
  blocked.frame (frames_chain_link derives isColon)
    (frames_chain_link (linkWithin _ _ derives) isColon)

theorem Blocks.chain (reads : element.Reads last)
    (links : ∀ ⦃input value rest⦄, element.Yields input value rest →
      rest.startsWith [.colon] = true →
        ∃ tokens, input = rest.prepend tokens ∧ link tokens value)
    (linkWithin : link ≤ linkWider) (blocks : element.Blocks limit last lastWider) :
    (chain join element).Blocks limit (Chain join link last)
      (Chain join linkWider lastWider) := by
  have blocksChain {input rest : Input} {fault : Fault} (run : element.Faults input fault rest) :
      ∃ read, input = rest.prepend read ∧
        Blocked limit (Chain join link last) (Chain join linkWider lastWider) read rest fault := by
    obtain ⟨read, rfl, blocked⟩ := blocks input run
    exact ⟨read, rfl, blocked.start frames_chain_last frames_chain_last⟩
  intro input fault rest run
  rcases (faults_chain reads.neverGrows).mp run with
    firstFault | ⟨first, middle, others, index, final, firstRun, walks, stop⟩
  · exact blocksChain firstFault
  · clear run
    generalize 0 = start at walks
    induction walks generalizing input first with
    | start index middle =>
        obtain ⟨colon, middle, rfl, isColon, elementFault⟩ := faults_nextInChain.mp stop
        obtain ⟨tokens, rfl, derives⟩ := links firstRun (by simp [isColon])
        obtain ⟨read, rfl, blocked⟩ := blocksChain elementFault
        exact ⟨tokens ++ [colon] ++ read, by simp, blocked.behind_link linkWithin derives isColon⟩
    | further step walks induction =>
        obtain ⟨colon, middle, rfl, isColon, nextRun⟩ := yields_nextInChain_some.mp step
        obtain ⟨tokens, rfl, derives⟩ := links firstRun (by simp [isColon])
        obtain ⟨read, rfl, blocked⟩ := induction _ _ nextRun stop
        exact ⟨tokens ++ [colon] ++ read, by simp, blocked.behind_link linkWithin derives isColon⟩

end Chains

end Rule

open Rule

namespace Pattern

private theorem derives_name (height : Nat) {name : Token} (isName : name.kind = .identifier) :
    Derives (height + 1) [name] (.var name.text) :=
  .last (.element (.var isName))

variable {limit : Nat} {inner : Rule Pattern} {language wider : Language Pattern}

private theorem final_of_start (inhabited : ∃ tokens pattern, wider tokens pattern) {kind : Kind}
    (member : kind ∈ Expectation.patternStarts) :
    ∃ token more pattern, token.kind = kind ∧ Final wider (token :: more) pattern := by
  simp only [Expectation.patternStarts, List.mem_cons, List.not_mem_nil, or_false] at member
  rcases member with rfl | rfl | rfl | rfl | rfl | rfl | rfl
  · exact ⟨.sample .underscore, [], _, rfl, .element (.wildcard rfl)⟩
  · exact ⟨.sample .identifier, [], _, rfl, .element (.var rfl)⟩
  · exact ⟨.sample .atom, [], _, rfl, .element (.atom (by simp))⟩
  · exact ⟨.sample .quotedAtom, [], _, rfl, .element (.atom (by simp))⟩
  · exact ⟨.sample .string, [], _, rfl, .element (.string rfl)⟩
  · exact ⟨.sample .openBracket, [] ++ [.sample .closeBracket], _, rfl,
      .element (.list rfl (.intro .empty rfl))⟩
  · obtain ⟨tokens, pattern, derives⟩ := inhabited
    exact ⟨.sample .openParen, tokens ++ [.sample .closeParen], pattern, rfl,
      .element (.group rfl (.intro derives rfl))⟩

private theorem blocks_element (reads : inner.Reads language) (within : language ≤ wider)
    (blocks : inner.Blocks limit language wider)
    (inhabited : ∃ tokens pattern, wider tokens pattern) :
    (element inner).Blocks limit (Final language) (Final wider) := by
  intro input fault rest run
  rcases faults_element.mp run with ⟨first, middle, rule, rfl, continues, run⟩ | missing
  · cases continues with
    | wildcard _ => exact absurd run not_faults_pure
    | string _ => exact absurd run not_faults_pure
    | name isName =>
        obtain ⟨atSign, middle, rfl, isAt, innerFault⟩ := faults_nameRule.mp run
        have frames (language : Language Pattern) :
            Frames [first, atSign] language (Final language) :=
          .of_row fun _ pattern derives => ⟨_, .named isName isAt derives⟩
        exact (blocks middle).frame innerFault (frames _) (frames _)
    | tree isAtom =>
        rcases faults_bind.mp run with arguments | ⟨_, _, -, impossible⟩
        · obtain ⟨opener, middle, rfl, opens, listFault⟩ := faults_arguments?.mp arguments
          have frames (language : Language Pattern) :
              Frames [first, opener] (Closed .closeParen (Listed language)) (Final language) :=
            .of_row fun _ _ derives => ⟨_, .element (.tree isAtom opens derives)⟩
          exact (Blocks.listUntil reads within (fun input _ => blocks input) middle).frame
            listFault (frames _) (frames _)
        · exact absurd impossible not_faults_pure
    | list opens =>
        have frames (language : Language Pattern) :
            Frames [first] (Closed .closeBracket (Listed language)) (Final language) :=
          .of_row fun _ _ derives => ⟨_, .element (.list opens derives)⟩
        exact (Blocks.listUntil reads within (fun input _ => blocks input) middle).frame
          (faults_map.mp run) (frames _) (frames _)
    | group opens =>
        have frames (language : Language Pattern) :
            Frames [first] (Closed .closeParen language) (Final language) :=
          .of_row fun _ pattern derives => ⟨pattern, .element (.group opens derives)⟩
        exact (Blocks.grouped reads within blocks middle).frame run (frames _) (frames _)
  · obtain ⟨missing, rfl, rfl⟩ := missing
    refine ⟨[], rfl, .misfit missing ?_ fun kind member => final_of_start inhabited member⟩
    exact ⟨[.sample .identifier], _, .element (.var rfl)⟩

theorem blocks_within (limit budget : Nat) :
    (within limit budget).Blocks limit (Derives budget) (Derives (budget + 1)) := by
  induction budget with
  | zero =>
      intro input fault rest run
      obtain ⟨rfl, rfl⟩ := faults_overNested.mp run
      exact ⟨[], rfl, .deep⟩
  | succ budget induction =>
      obtain ⟨reads, noColon⟩ := reads_within limit budget
      have blocks := blocks_element reads (Derives.succ budget) induction
        ⟨_, _, derives_name budget (Token.kind_sample .identifier)⟩
      have final := reads_final reads noColon
      refine Blocks.chain final ?_ (Element.mono (Derives.succ budget)) blocks
      intro input value rest run colon
      obtain ⟨tokens, same, -, derives⟩ := reads_element reads noColon run
      exact ⟨tokens, same, derives colon⟩

end Pattern

namespace Term

private theorem derives_name (height : Nat) {name : Token} (isName : name.kind = .identifier) :
    Derives (height + 1) [name] (.var name.text) :=
  .last (.var isName)

variable {limit : Nat} {pattern : Rule Pattern} {inner : Rule Term}
  {patternLanguage patternWider : Language Pattern} {language wider : Language Term}

private theorem blocks_clause (patternReads : pattern.Reads patternLanguage)
    (patternWithin : patternLanguage ≤ patternWider)
    (patternBlocks : pattern.Blocks limit patternLanguage patternWider) (within : language ≤ wider)
    (blocks : inner.Blocks limit language wider)
    (inhabited : ∃ tokens term, language tokens term) :
    (Clause.rule pattern inner).Blocks limit (Clause.Derives patternLanguage language)
      (Clause.Derives patternWider wider) := by
  intro input fault rest run
  obtain ⟨bodyTokens, body, bodyDerives⟩ := inhabited
  rcases faults_bind.mp run with patternsFault | ⟨patterns, middle, patternsRun, run⟩
  · have frames {heads : Language Pattern} {bodies : Language Term}
        (derives : bodies bodyTokens body) :
        Frames [] (Closed .arrow (Listed heads)) (Clause.Derives heads bodies) := by
      intro tokens patterns patternsDerive
      refine ⟨bodyTokens, .mk patterns body, ?_⟩
      rw [List.nil_append]
      exact .intro patternsDerive derives
    exact (Blocks.listUntil patternReads patternWithin (fun input _ => patternBlocks input)
      input).start patternsFault (frames bodyDerives)
        (frames (within _ _ bodyDerives))
  · rcases faults_bind.mp run with bodyFault | ⟨_, _, -, impossible⟩
    · obtain ⟨left, rfl, patternsDerive⟩ := patternReads.listUntil patternsRun
      have frames {heads : Language Pattern} (bodies : Language Term)
          (derives : Closed .arrow (Listed heads) left patterns) :
          Frames left bodies (Clause.Derives heads bodies) :=
        .of_row fun _ _ bodyDerives => ⟨_, .intro derives bodyDerives⟩
      exact (blocks middle).frame bodyFault (frames _ patternsDerive)
        (frames _ (Closed.mono (Listed.mono patternWithin) _ _ patternsDerive))
    · exact absurd impossible not_faults_pure

/-- Without a level left no term can complete a clause, so `blocks_clause` says nothing here. But
neither can the rule get anywhere: the first pattern or the body is refused. -/
private theorem blocks_clause_zero (limit : Nat) {input : Input} (more : input.isEmpty = false)
    (language wider : Language Clause) :
    (Clause.rule (Pattern.within limit 0) (within limit 0)).BlocksAt limit language wider
      input := by
  have patternReads := (Pattern.reads_within limit 0).1
  have noPattern {input rest : Input} {value : Pattern} :
      ¬(Pattern.within limit 0).Yields input value rest := not_yields_overNested
  intro fault rest run
  rcases faults_bind.mp run with patternsFault | ⟨patterns, middle, patternsRun, run⟩
  · rcases faults_closed.mp patternsFault with listFault | ⟨patterns, listRun, missing, rfl⟩
    · obtain ⟨-, first | ⟨_, _, _, _, _, impossible, -⟩⟩ :=
        (faults_sepByComma patternReads.neverGrows).mp listFault
      · obtain ⟨rfl, rfl⟩ := faults_overNested.mp first
        exact ⟨[], rfl, .deep⟩
      · exact absurd impossible noPattern
    · rcases (yields_sepByComma patternReads.neverGrows).mp listRun with
        ⟨stops, -, rfl⟩ | ⟨-, _, _, _, _, _, impossible, -⟩
      · rw [Input.endsAt, more, missing] at stops
        cases stops
      · exact absurd impossible noPattern
  · rcases faults_bind.mp run with bodyFault | ⟨_, _, -, impossible⟩
    · obtain ⟨left, rfl, -⟩ := patternReads.listUntil patternsRun
      obtain ⟨rfl, rfl⟩ := faults_overNested.mp bodyFault
      exact ⟨left, rfl, .deep⟩
    · exact absurd impossible not_faults_pure

private theorem element_of_start (inhabited : ∃ tokens term, wider tokens term) {kind : Kind}
    (member : kind ∈ Expectation.termStarts) :
    ∃ token more term, token.kind = kind ∧ Element patternWider wider (token :: more) term := by
  simp only [Expectation.termStarts, List.mem_cons, List.not_mem_nil, or_false] at member
  rcases member with rfl | rfl | rfl | rfl | rfl | rfl | rfl
  · exact ⟨.sample .identifier, [], _, rfl, .var rfl⟩
  · exact ⟨.sample .atom, [], _, rfl, .atom (by simp)⟩
  · exact ⟨.sample .quotedAtom, [], _, rfl, .atom (by simp)⟩
  · exact ⟨.sample .string, [], _, rfl, .string rfl⟩
  · exact ⟨.sample .openBracket, [] ++ [.sample .closeBracket], _, rfl,
      .list rfl (.intro .empty rfl)⟩
  · obtain ⟨tokens, term, derives⟩ := inhabited
    exact ⟨.sample .openParen, tokens ++ [.sample .closeParen], term, rfl,
      .group rfl (.intro derives rfl)⟩
  · exact ⟨.sample .matchWord, ([] ++ [.sample .openBrace]) ++ ([] ++ [.sample .closeBrace]), _,
      rfl, .matching rfl (.intro .empty rfl) (.intro .empty rfl)⟩

private theorem blocks_matchRule (patternReads : pattern.Reads patternLanguage)
    (patternWithin : patternLanguage ≤ patternWider) (reads : inner.Reads language)
    (within : language ≤ wider) (blocks : inner.Blocks limit language wider)
    (clauseBlocks : ∀ input, input.isEmpty = false →
      (Clause.rule pattern inner).BlocksAt limit (Clause.Derives patternLanguage language)
        (Clause.Derives patternWider wider) input)
    {word : Token} (isMatch : word.kind = .matchWord) {input rest : Input} {fault : Fault}
    (run : (matchRule pattern inner).Faults input fault rest) :
    ∃ read, input.prepend [word] = rest.prepend read ∧
      Blocked limit (Element patternLanguage language) (Element patternWider wider) read rest
        fault := by
  unfold matchRule at run
  rw [faults_note_bind] at run
  rcases faults_bind.mp run with subjectsFault | ⟨subjects, middle, subjectsRun, run⟩
  · have frames (patterns : Language Pattern) (terms : Language Term) :
        Frames [word] (Closed .openBrace (Listed terms)) (Element patterns terms) := by
      intro tokens subjects subjectsDerive
      have clauses : Closed .closeBrace (Listed (Clause.Derives patterns terms))
          ([] ++ [.sample .closeBrace]) [] := .intro .empty rfl
      have whole := Element.matching isMatch subjectsDerive clauses
      exact ⟨_, _, whole⟩
    exact (Blocks.listUntil reads within (fun input _ => blocks input) input).frame
      subjectsFault (frames _ _) (frames _ _)
  · rcases faults_bind.mp run with clausesFault | ⟨_, _, -, impossible⟩
    · obtain ⟨left, rfl, subjectsDerive⟩ := reads.listUntil subjectsRun
      have frames {patterns : Language Pattern} {terms : Language Term}
          (derives : Closed .openBrace (Listed terms) left subjects) :
          Frames (word :: left) (Closed .closeBrace (Listed (Clause.Derives patterns terms)))
            (Element patterns terms) :=
        .of_row fun _ _ clausesDerive => ⟨_, .matching isMatch derives clausesDerive⟩
      rw [Input.prepend_prepend]
      exact (Blocks.listUntil (Clause.reads_rule patternReads reads)
        (Clause.Derives.mono patternWithin within) clauseBlocks middle).frame clausesFault
          (frames subjectsDerive)
          (frames (Closed.mono (Listed.mono within) _ _ subjectsDerive))
    · exact absurd impossible not_faults_pure

private theorem blocks_arguments (reads : inner.Reads language) (within : language ≤ wider)
    (blocks : inner.Blocks limit language wider) {name : Token}
    (isName : name.kind ∈ [.identifier, .atom, .quotedAtom]) {input rest : Input} {fault : Fault}
    (run : (arguments? inner).Faults input fault rest) :
    ∃ read, input.prepend [name] = rest.prepend read ∧
      Blocked limit (Element patternLanguage language) (Element patternWider wider) read rest
        fault := by
  obtain ⟨opener, middle, rfl, opens, listFault⟩ := faults_arguments?.mp run
  have frames (patterns : Language Pattern) (terms : Language Term) :
      Frames [name, opener] (Closed .closeParen (Listed terms)) (Element patterns terms) := by
    refine .of_row fun _ _ derives => ?_
    rcases List.mem_cons.mp isName with isName | isAtom
    · exact ⟨_, .app isName opens derives⟩
    · exact ⟨_, .tree isAtom opens derives⟩
  exact (Blocks.listUntil reads within (fun input _ => blocks input) middle).frame
    listFault (frames _ _) (frames _ _)

private theorem blocks_element (patternReads : pattern.Reads patternLanguage)
    (patternWithin : patternLanguage ≤ patternWider) (reads : inner.Reads language)
    (within : language ≤ wider) (blocks : inner.Blocks limit language wider)
    (clauseBlocks : ∀ input, input.isEmpty = false →
      (Clause.rule pattern inner).BlocksAt limit (Clause.Derives patternLanguage language)
        (Clause.Derives patternWider wider) input)
    (inhabited : ∃ tokens term, wider tokens term) :
    (element pattern inner).Blocks limit (Element patternLanguage language)
      (Element patternWider wider) := by
  intro input fault rest run
  rcases faults_element.mp run with ⟨first, middle, rule, rfl, continues, run⟩ | missing
  · cases continues with
    | string _ => exact absurd run not_faults_pure
    | name isName =>
        rcases faults_bind.mp run with argumentsFault | ⟨operands?, _, -, impossible⟩
        · exact blocks_arguments reads within blocks (by simp [isName]) argumentsFault
        · cases operands? with
          | none => exact absurd impossible not_faults_pure
          | some operands => exact absurd impossible not_faults_pure
    | tree isAtom =>
        rcases faults_bind.mp run with argumentsFault | ⟨_, _, -, impossible⟩
        · exact blocks_arguments reads within blocks (List.mem_cons_of_mem _ isAtom)
            argumentsFault
        · exact absurd impossible not_faults_pure
    | list opens =>
        have frames (patterns : Language Pattern) (terms : Language Term) :
            Frames [first] (Closed .closeBracket (Listed terms)) (Element patterns terms) :=
          .of_row fun _ _ derives => ⟨_, .list opens derives⟩
        exact (Blocks.listUntil reads within (fun input _ => blocks input) middle).frame
          (faults_map.mp run) (frames _ _) (frames _ _)
    | group opens =>
        have frames (patterns : Language Pattern) (terms : Language Term) :
            Frames [first] (Closed .closeParen terms) (Element patterns terms) :=
          .of_row fun _ term derives => ⟨term, .group opens derives⟩
        exact (Blocks.grouped reads within blocks middle).frame run (frames _ _) (frames _ _)
    | matching isMatch =>
        exact blocks_matchRule patternReads patternWithin reads within blocks clauseBlocks isMatch
          run
  · obtain ⟨missing, rfl, rfl⟩ := missing
    refine ⟨[], rfl, .misfit missing ?_ fun kind member => element_of_start inhabited member⟩
    exact ⟨[.sample .identifier], _, .var rfl⟩

theorem blocks_within (limit budget : Nat) :
    (within limit budget).Blocks limit (Derives budget) (Derives (budget + 1)) := by
  induction budget with
  | zero =>
      intro input fault rest run
      obtain ⟨rfl, rfl⟩ := faults_overNested.mp run
      exact ⟨[], rfl, .deep⟩
  | succ budget induction =>
      have patternReads := (Pattern.reads_within limit budget).1
      have patternWithin := Pattern.Derives.succ budget
      have reads := reads_within limit budget
      have within := Derives.succ budget
      have clauseBlocks (input : Input) (more : input.isEmpty = false) :
          (Clause.rule (Pattern.within limit budget) (Term.within limit budget)).BlocksAt limit
            (Clause.Derives (Pattern.Derives budget) (Derives budget))
            (Clause.Derives (Pattern.Derives (budget + 1)) (Derives (budget + 1))) input := by
        cases budget with
        | zero => exact blocks_clause_zero limit more _ _
        | succ budget =>
            exact blocks_clause patternReads patternWithin
              (Pattern.blocks_within limit (budget + 1)) within induction
              ⟨_, _, derives_name budget (Token.kind_sample .identifier)⟩ input
      have blocks := blocks_element patternReads patternWithin reads within induction clauseBlocks
        ⟨_, _, derives_name budget (Token.kind_sample .identifier)⟩
      have elementReads := reads_element patternReads reads
      exact Blocks.chain elementReads (fun _ _ _ run _ => elementReads run)
        (Element.mono patternWithin within) blocks

end Term

namespace Definition

private theorem derives_sample (height : Nat) {word name equals : Token}
    (isLet : word.kind = .letWord) (isName : name.kind = .identifier)
    (isEquals : equals.kind = .equals) :
    ∃ definition, Derives (height + 1) [word, name, equals, .sample .identifier] definition :=
  ⟨_, .plain isLet isName isEquals (Term.derives_name height rfl)⟩

section Parts

variable {budget : Nat} {word name : Token} {input rest : Input} {fault : Fault}

private theorem blocks_parameters (isLet : word.kind = .letWord) (isName : name.kind = .identifier)
    (run : (arguments? (Pattern.rule (budget + 1))).Faults input fault rest) :
    ∃ read, input.prepend [word, name] = rest.prepend read ∧
      Blocked (budget + 1) (Derives (budget + 1)) (Derives (budget + 2)) read rest fault := by
  obtain ⟨opener, middle, rfl, opens, listFault⟩ := faults_arguments?.mp run
  have frames (height : Nat) : Frames [word, name, opener]
      (Closed .closeParen (Listed (Pattern.Derives (height + 1)))) (Derives (height + 1)) :=
    fun _ _ patterns => ⟨[.sample .equals, .sample .identifier], _,
      .parameters isLet isName opens patterns rfl (Term.derives_name height rfl)⟩
  exact (Blocks.listUntil (Pattern.reads_within _ _).1 (Pattern.Derives.succ _)
    (fun input _ => Pattern.blocks_within _ _ input) middle).frame listFault (frames _) (frames _)

private theorem blocks_body (before : List Token) {label : String} {patterns : List Pattern}
    (withBody : ∀ {height : Nat}, budget + 1 ≤ height → ∀ {tokens : List Token} {body : Term},
      Term.Derives height tokens body → Derives height (before ++ tokens) ⟨label, patterns, body⟩)
    (run : (Term.rule (budget + 1)).Faults input fault rest) :
    ∃ read, input.prepend before = rest.prepend read ∧
      Blocked (budget + 1) (Derives (budget + 1)) (Derives (budget + 2)) read rest fault := by
  have frames {height : Nat} (atMost : budget + 1 ≤ height) :
      Frames before (Term.Derives height) (Derives height) :=
    .of_row fun _ _ body => ⟨_, withBody atMost body⟩
  exact (Term.blocks_within _ _ input).frame run (frames (Nat.le_refl _)) (frames (Nat.le_succ _))

end Parts

theorem blocks_rule (budget : Nat) :
    (Definition.rule (budget + 1)).Blocks (budget + 1) (Derives (budget + 1))
      (Derives (budget + 2)) := by
  intro input fault rest run
  rcases faults_bind.mp run with wordFault | ⟨word, afterWord, wordRun, wordOn⟩
  · obtain ⟨missing, rfl, rfl⟩ := faults_expect.mp wordFault
    obtain ⟨definition, derives⟩ := derives_sample budget (Token.kind_sample .letWord)
      (Token.kind_sample .identifier) (Token.kind_sample .equals)
    exact ⟨[], rfl, .expecting missing ⟨_, _, derives⟩
      ⟨.sample .letWord, _, _, rfl, Derives.mono (Nat.le_succ _) _ _ derives⟩⟩
  obtain ⟨rfl, isLet⟩ := yields_expect_one.mp wordRun
  rcases faults_bind.mp wordOn with nameFault | ⟨name, afterName, nameRun, nameOn⟩
  · obtain ⟨missing, rfl, rfl⟩ := faults_expect.mp nameFault
    obtain ⟨definition, derives⟩ := derives_sample budget isLet
      (Token.kind_sample .identifier) (Token.kind_sample .equals)
    exact ⟨[word], rfl, .expecting missing ⟨_, _, derives⟩
      ⟨.sample .identifier, _, _, rfl, Derives.mono (Nat.le_succ _) _ _ derives⟩⟩
  obtain ⟨rfl, isName⟩ := yields_expect_one.mp nameRun
  rw [faults_note_bind] at nameOn
  rw [Input.prepend_prepend]
  rcases faults_bind.mp nameOn with patternsFault | ⟨patterns?, beforeEquals, patternsRun, onward⟩
  · exact blocks_parameters isLet isName patternsFault
  obtain ⟨head, rfl, withBody⟩ := derives_of_head isLet isName patternsRun
  rcases faults_bind.mp onward with equalsFault | ⟨equals, afterEquals, equalsRun, equalsOn⟩
  · obtain ⟨missing, rfl, rfl⟩ := faults_expect.mp equalsFault
    refine ⟨word :: name :: head, by simp, .expecting missing ?_ ?_⟩
    · exact ⟨[.sample .equals, .sample .identifier], _,
        withBody (Nat.le_refl _) rfl (Term.derives_name _ rfl)⟩
    · exact ⟨.sample .equals, [.sample .identifier], _, rfl,
        withBody (Nat.le_succ _) rfl (Term.derives_name _ rfl)⟩
  obtain ⟨rfl, isEquals⟩ := yields_expect_one.mp equalsRun
  rcases faults_bind.mp equalsOn with bodyFault | ⟨_, _, -, impossible⟩
  · have blocked := blocks_body (word :: name :: (head ++ [equals]))
      (fun atMost _ _ body => by simpa using withBody atMost isEquals body) bodyFault
    simpa using blocked
  · exact absurd impossible not_faults_pure

end Definition

theorem Item.blocks_rule (budget : Nat) :
    (Item.rule (budget + 1)).Blocks (budget + 1) (Derives (budget + 1)) (Derives (budget + 2)) := by
  intro input fault rest run
  unfold Item.rule at run
  rw [faults_note_bind, faults_look_bind] at run
  split at run
  · have frames (height : Nat) : Frames [] (Definition.Derives height) (Derives height) :=
      .of_row fun _ _ derives => ⟨_, .define derives⟩
    exact (Definition.blocks_rule budget input).frame (faults_map.mp run) (frames _) (frames _)
  · have frames (height : Nat) : Frames [] (Term.Derives height) (Derives height) :=
      .of_row fun _ _ derives => ⟨_, .lone derives⟩
    exact (Term.blocks_within _ _ input).frame (faults_map.mp run) (frames _) (frames _)

namespace Program

theorem Derives.append {height : Nat} {left right : List Token} {items others : Program}
    (first : Derives height left items) (second : Derives height right others) :
    Derives height (left ++ right) (items ++ others) := by
  induction first with
  | nil => exact second
  | cons item isSemicolon _ induction =>
      rw [List.append_assoc, List.cons_append]
      exact .cons item isSemicolon induction

private theorem frames_item {height : Nat} {tokens : List Token} {items : Program}
    (derives : Derives height tokens items) :
    Frames tokens (Item.Derives height) (Derives height) :=
  fun _ _ item => ⟨[.sample .semicolon], _, derives.append (.cons item rfl .nil)⟩

theorem blocks_rule (budget : Nat) :
    (Program.rule (budget + 1)).Blocks (budget + 1) (Derives (budget + 1))
      (Derives (budget + 2)) := by
  intro input fault rest run
  obtain ⟨items, last, middle, walks, stop⟩ := (faults_many (shrinks_nextItem _)).mp run
  obtain ⟨tokens, rfl, derives⟩ := reads_walks walks
  have wideDerives := Derives.mono (Nat.le_succ _) _ _ derives
  obtain ⟨-, itemFault | ⟨item, itemRun, missing, rfl⟩⟩ := faults_nextItem.mp stop
  · exact (Item.blocks_rule budget middle).frame itemFault (frames_item derives)
      (frames_item wideDerives)
  · obtain ⟨itemTokens, rfl, itemDerives⟩ := Item.reads_rule _ itemRun
    have wideItem := Item.Derives.mono (Nat.le_succ _) _ _ itemDerives
    refine ⟨tokens ++ itemTokens, by simp, .expecting missing ?_ ?_⟩
    · refine ⟨[.sample .semicolon], items ++ [item], ?_⟩
      rw [List.append_assoc]
      exact derives.append (.cons itemDerives rfl .nil)
    · refine ⟨.sample .semicolon, [], items ++ [item], rfl, ?_⟩
      rw [List.append_assoc]
      exact wideDerives.append (.cons wideItem rfl .nil)

end Program

end TermScript
