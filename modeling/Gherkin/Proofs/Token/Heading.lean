import Gherkin.Proofs.Language.Tables
import Gherkin.Proofs.Text.Trimmed
import Gherkin.Proofs.Token.Outcome
/-!
The lexemes of a line that a keyword begins: the keyword with what belongs to it, and the title or
the text to be matched behind it. The reader looks ahead to the first colon to see which keyword it
is, and then takes as many characters as it is told.
-/
namespace Gherkin

namespace Text
variable {keyword spaces : Text}

theorem Heading.cons (heading : keyword.Heading) :
    ∃ c rest, keyword = c :: rest ∧ isBlank c = false ∧ isSymbol c = false := by
  have opens := heading.opens
  cases keyword with
  | nil => cases opens
  | cons c rest => exact ⟨c, rest, rfl, by simpa using opens⟩

theorem not_colon_of_space {c : Char} (space : isSpace c = true) : (c == ':') = false := by
  rw [beq_eq_false_iff_ne]
  rintro rfl
  cases space

theorem unstopped_of_not_mem {text : Text} {stop : Char} (noFeed : '\n' ∉ text)
    (free : stop ∉ text) : ∀ c ∈ text, c ≠ '\n' ∧ (c == stop) = false := fun _ member =>
  ⟨ne_of_mem_of_not_mem member noFeed, beq_eq_false_iff_ne.mpr (ne_of_mem_of_not_mem member free)⟩

theorem Heading.head (heading : keyword.Heading) (blank : ∀ c ∈ spaces, isSpace c = true) :
    ∀ c ∈ keyword ++ spaces, c ≠ '\n' ∧ (c == ':') = false := by
  intro c member
  rcases List.mem_append.mp member with inside | behind
  · obtain ⟨noColon, noFeed⟩ := heading.unbroken
    exact unstopped_of_not_mem noFeed noColon c inside
  · have space := blank c behind
    exact ⟨ne_feed_of_not_symbol (not_symbol_of_space space), not_colon_of_space space⟩

/-- Whether a text may be a title: it is trimmed, it is on one line with no placeholder in it, and
it does not begin with a mark that is read as such behind a keyword. -/
@[mk_iff] structure IsTitle (title : Text) : Prop where
  shown : title ≠ []
  inside : '\n' ∉ title ∧ '<' ∉ title
  trimmed : IsTrimmed isSpace title
  unmarked : title.head? ≠ some '#' ∧ title.head? ≠ some '@' ∧ title.head? ≠ some '|'

/-- Whether a text is matched as a whole: it is trimmed and has no symbol in it. -/
@[mk_iff] structure IsPlain (text : Text) : Prop where
  shown : text ≠ []
  inside : ∀ c ∈ text, isSymbol c = false
  trimmed : IsTrimmed isSpace text

instance (title : Text) : Decidable title.IsTitle := decidable_of_iff' _ (isTitle_iff title)

instance (text : Text) : Decidable text.IsPlain :=
  have : Decidable (∀ c ∈ text, isSymbol c = false) := List.decidableBAll _ _
  decidable_of_iff' _ (isPlain_iff text)

end Text

namespace Lexeme
variable {language : Language} {state : LineState} {synonym between behind rest more : Text}

theorem first_heading (language : Language) (heading : synonym.Heading) (rest : Text) :
    First language {} (synonym ++ rest) (lineStart language {} (synonym ++ rest)) := by
  obtain ⟨c, others, rfl, visible, plain⟩ := heading.cons
  obtain ⟨feed, mark, tagged, bar, bracket, _⟩ := Text.marks_of_not_symbol plain
  have unspaced : (c :: (others ++ rest)).takeWhile Text.isSpace = [] := by
    rw [List.takeWhile_cons_of_neg]
    simp [Text.isSpace, visible]
  refine ⟨c, others ++ rest, rfl, ?_⟩
  rw [read, if_neg feed, if_neg mark, if_neg tagged, if_neg bar, if_neg bracket, if_pos rfl,
    openLine]
  simp only [unspaced]
  rfl

theorem no_fence_of_heading (heading : synonym.Heading) (rest : Text) :
    Text.isFence (Text.fenceRun (synonym ++ rest)) = false := by
  obtain ⟨c, others, rfl, _, plain⟩ := heading.cons
  obtain ⟨_, _, _, _, _, unmarked, _⟩ := Text.marks_of_not_symbol plain
  simp [Text.fenceRun, unmarked, Text.isFence]

-- What a head resolves to tells how the line goes on; a structural keyword needs its colon.

theorem line_start_structural {text head : Text} {scope : Scope} {length : Nat}
    (unfenced : Text.isFence (Text.fenceRun text) = false)
    (ahead : Text.lineUntil (· == ':') text = head)
    (resolved : language.resolve head = some ⟨scope, length⟩)
    (structural : scope.isStructural = true) :
    lineStart language state text =
      if (text.drop head.length).head? = some ':' then
        keyword (.scope scope) { state.opened with scope := some scope } (head.length + 1) text
      else description state text := by
  unfold lineStart
  rw [unfenced, ahead]
  dsimp only
  rw [resolved]
  cases scope with
  | step | unknown => cases structural
  | feature | background | scenario | scenarioOutline | rule | examples =>
    simp [Scope.isStructural]

theorem line_start_step {text : Text} {step : StepKeyword} {length : Nat}
    (unfenced : Text.isFence (Text.fenceRun text) = false)
    (resolved : language.resolve (Text.lineUntil (· == ':') text) = some ⟨.step step, length⟩) :
    lineStart language state text =
      keyword (.keyword step) { state.opened with keyword := some step } length text := by
  unfold lineStart
  rw [unfenced]
  dsimp only
  rw [resolved]
  rfl

theorem keyword_exact (kind : TokenKind) (state : LineState) (front : Text) {spaces : Text}
    (blank : ∀ c ∈ spaces, Text.isSpace c = true)
    (visible : ∀ c, rest.head? = some c → Text.isSpace c = false) :
    keyword kind state front.length (front ++ (spaces ++ rest)) =
      ⟨.token kind, (front ++ spaces).length, state⟩ := by
  rw [keyword, List.drop_left, Text.run_exact blank visible, List.length_append]

theorem first_scope {scope : Scope} {length : Nat} (heading : synonym.Heading)
    (blank : ∀ c ∈ between, Text.isSpace c = true)
    (blankBehind : ∀ c ∈ behind, Text.isSpace c = true)
    (resolved : language.resolve (synonym ++ between) = some ⟨scope, length⟩)
    (structural : scope.isStructural = true)
    (visible : ∀ c, rest.head? = some c → Text.isSpace c = false) :
    let front := synonym ++ between ++ [':'] ++ behind
    First language {} (front ++ rest)
      ⟨.token (.scope scope), front.length, { atStart := false, scope := some scope }⟩ := by
  intro front
  have whole : front ++ rest = synonym ++ between ++ ':' :: (behind ++ rest) := by simp [front]
  have head : Text.lineUntil (· == ':') (front ++ rest) = synonym ++ between := by
    rw [whole]
    exact Text.line_until_exact (heading.head blank) (by rintro c ⟨⟩; exact Or.inr rfl)
  have unfenced : Text.isFence (Text.fenceRun (front ++ rest)) = false := by
    rw [whole, List.append_assoc]
    exact no_fence_of_heading heading _
  have colon : ((front ++ rest).drop (synonym ++ between).length).head? = some ':' := by
    rw [whole, List.drop_left]
    rfl
  have first := first_heading language heading (between ++ ':' :: (behind ++ rest))
  rw [← List.append_assoc, ← whole, line_start_structural unfenced head resolved structural,
    if_pos colon] at first
  have taken := keyword_exact (.scope scope) { atStart := false, scope := some scope }
    (synonym ++ between ++ [':']) blankBehind visible
  rw [← List.append_assoc, @List.length_append _ _ [':']] at taken
  exact taken ▸ first

theorem first_description {scope : Scope} {length : Nat} (heading : synonym.Heading)
    (trimmed : Text.trimEnd Text.isSpace synonym = synonym)
    (blank : ∀ c ∈ between, Text.isSpace c = true)
    (resolved : language.resolve (synonym ++ between) = some ⟨scope, length⟩)
    (structural : scope.isStructural = true) (ended : Text.atLineEnd more = true) :
    let line := synonym ++ between
    First language {} (line ++ more)
      ⟨.token (.description synonym), line.length, { atStart := false }⟩ := by
  intro line
  have stopped := Text.feed_of_at_line_end ended
  have head : Text.lineUntil (· == ':') (line ++ more) = line :=
    Text.line_until_exact (heading.head blank) fun c first => Or.inl (stopped c first)
  have unfenced : Text.isFence (Text.fenceRun (line ++ more)) = false := by
    rw [List.append_assoc]
    exact no_fence_of_heading heading _
  have noColon : ((line ++ more).drop line.length).head? ≠ some ':' := by
    rw [List.drop_left]
    intro colon
    cases stopped ':' colon
  have rest : Text.restOfLine (line ++ more) = line := by
    apply Text.run_exact
    · intro c member
      exact bne_iff_ne.mpr (heading.head blank c member).1
    · intro c first
      rw [stopped c first]
      rfl
  have shown : Text.trim Text.isSpace line = synonym := by
    obtain ⟨c, others, rfl, visible, _⟩ := heading.cons
    have unspaced : (c :: others ++ between).dropWhile Text.isSpace = c :: others ++ between :=
      List.dropWhile_cons_of_neg (by simp [Text.isSpace, visible])
    rw [Text.trim, unspaced, Text.trim_end_append blank, trimmed]
  have first := first_heading language heading (between ++ more)
  rwa [← List.append_assoc, line_start_structural unfenced head resolved structural,
    if_neg noColon, description, rest, shown] at first

theorem first_step {step : StepKeyword} (heading : synonym.Heading)
    (resolved : language.resolve (Text.lineUntil (· == ':') (synonym ++ rest)) =
      some ⟨.step step, synonym.length⟩)
    (visible : ∀ c, rest.head? = some c → Text.isSpace c = false) :
    First language {} (synonym ++ rest)
      ⟨.token (.keyword step), synonym.length, { atStart := false, keyword := some step }⟩ := by
  have first := first_heading language heading rest
  have taken := keyword_exact (.keyword step) { atStart := false, keyword := some step } synonym
    (List.forall_mem_nil _) visible
  rw [List.nil_append, List.append_nil] at taken
  rw [line_start_step (no_fence_of_heading heading rest) resolved] at first
  exact taken ▸ first

-- Behind a keyword free text goes on to its stop or to the end of the line. Only there is it
-- trimmed; in front of a stop it keeps the spaces at its end.

theorem stretch_shown (make : Text → TokenKind) (state : LineState) {stop : Char → Bool}
    {text read shown : Text} (ahead : Text.lineUntil stop text = read)
    (shows : (if Text.atLineEnd (text.drop read.length) then Text.trimEnd Text.isSpace read
      else read) = shown)
    (nonempty : shown ≠ []) :
    stretch make state stop text = ⟨.token (make shown), read.length, state⟩ := by
  have begun : read.isEmpty = false := by
    cases read with
    | nil => exact absurd (shows.symm.trans (ite_self _)) nonempty
    | cons c rest => rfl
  have kept : shown.isEmpty = false := List.isEmpty_eq_false_iff.mpr nonempty
  unfold stretch
  simp only [ahead, begun, shows, kept, Bool.false_and, Bool.false_eq_true, ↓reduceIte]

theorem stretch_to_line_end (make : Text → TokenKind) (state : LineState) {stop : Char → Bool}
    {text spaces : Text} (nonempty : text ≠ [])
    (inside : ∀ c ∈ text ++ spaces, c ≠ '\n' ∧ stop c = false)
    (blank : ∀ c ∈ spaces, Text.isSpace c = true)
    (last : ∀ c, text.getLast? = some c → Text.isSpace c = false)
    (ended : Text.atLineEnd more = true) :
    stretch make state stop (text ++ spaces ++ more) =
      ⟨.token (make text), (text ++ spaces).length, state⟩ := by
  have ahead : Text.lineUntil stop (text ++ spaces ++ more) = text ++ spaces :=
    Text.line_until_exact inside fun c first => Or.inl (Text.feed_of_at_line_end ended c first)
  apply stretch_shown make state ahead _ nonempty
  rw [List.drop_left, if_pos ended, Text.trim_end_append blank, Text.trim_end_of_last last]

theorem read_title (language : Language) {c : Char} (rest : Text) (read : state.atStart = false)
    (titled : state.scope.isSome = true) (notFeed : c ≠ '\n') (notBracket : c ≠ '<')
    (unmarked : c ≠ '#' ∧ c ≠ '@' ∧ c ≠ '|') :
    Lexeme.read language state c rest = stretch .title state (· == '<') (c :: rest) := by
  obtain ⟨mark, tagged, bar⟩ := unmarked
  rw [Lexeme.read, if_neg notFeed, if_neg mark, if_neg tagged, if_neg bar, if_neg notBracket,
    if_neg (by simp [read]), if_pos titled]

theorem read_plain (language : Language) {c : Char} (rest : Text) (read : state.atStart = false)
    (untitled : state.scope = none) (stepped : state.keyword.isSome = true)
    (plain : Text.isSymbol c = false) :
    Lexeme.read language state c rest = stretch .matchText state Text.isSymbol (c :: rest) := by
  obtain ⟨feed, mark, tagged, bar, bracket, unmarked, unescaped⟩ := Text.marks_of_not_symbol plain
  rw [Lexeme.read, if_neg feed, if_neg mark, if_neg tagged, if_neg bar, if_neg bracket,
    if_neg (by simp [read]), if_neg (by simp [untitled]), if_neg (by simp [unmarked]),
    if_neg unescaped, if_pos stepped]

theorem first_title {title : Text} (isTitle : title.IsTitle) (read : state.atStart = false)
    (titled : state.scope.isSome = true) (ended : Text.atLineEnd more = true) :
    First language state (title ++ more) ⟨.token (.title title), title.length, state⟩ := by
  obtain ⟨noFeed, noBracket⟩ := isTitle.inside
  have inside := Text.unstopped_of_not_mem noFeed noBracket
  have stretched := stretch_to_line_end .title state isTitle.shown
    ((List.append_nil title).symm ▸ inside) (List.forall_mem_nil _) isTitle.trimmed.last ended
  rw [List.append_nil] at stretched
  obtain ⟨c, rest, rfl⟩ := List.exists_cons_of_ne_nil isTitle.shown
  obtain ⟨notFeed, notBracket⟩ := inside c List.mem_cons_self
  have unmarked : c ≠ '#' ∧ c ≠ '@' ∧ c ≠ '|' := by simpa using isTitle.unmarked
  refine ⟨c, rest ++ more, rfl, ?_⟩
  rw [read_title language (rest ++ more) read titled notFeed (ne_of_beq_false notBracket) unmarked]
  exact stretched

theorem first_plain {text spaces : Text} (isPlain : text.IsPlain)
    (blank : ∀ c ∈ spaces, Text.isSpace c = true) (read : state.atStart = false)
    (untitled : state.scope = none) (stepped : state.keyword.isSome = true)
    (ended : Text.atLineEnd more = true) :
    First language state (text ++ spaces ++ more)
      ⟨.token (.matchText text), (text ++ spaces).length, state⟩ := by
  have inside : ∀ c ∈ text ++ spaces, c ≠ '\n' ∧ Text.isSymbol c = false := by
    intro c member
    have plain : Text.isSymbol c = false := by
      rcases List.mem_append.mp member with within | behind
      · exact isPlain.inside c within
      · exact Text.not_symbol_of_space (blank c behind)
    exact ⟨Text.ne_feed_of_not_symbol plain, plain⟩
  have stretched := stretch_to_line_end .matchText state isPlain.shown inside blank
    isPlain.trimmed.last ended
  obtain ⟨c, rest, rfl⟩ := List.exists_cons_of_ne_nil isPlain.shown
  refine ⟨c, rest ++ spaces ++ more, rfl, ?_⟩
  rw [read_plain language _ read untitled stepped (isPlain.inside c List.mem_cons_self)]
  exact stretched

end Lexeme
end Gherkin
