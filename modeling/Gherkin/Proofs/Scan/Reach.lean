import Gherkin.Proofs.Scan.Walk
/-!
The places that a run reads from. Behind every lexeme a lexer goes on in the context that the
lexeme leaves: a comment is heeded, and nothing else that is read touches a context. A run passes a
comment when it reads one at a place that it reaches, and the comments that it collects are these.
-/
namespace Gherkin

/-- The context that goes on after a reading. -/
def ScanContext.behind (context : ScanContext) : Reading → ScanContext
  | .comment comment => (context.heed comment).1
  | .token _ | .trivia => context

@[simp] theorem ScanContext.behind_token (context : ScanContext) (token : Token) :
    context.behind (.token token) = context := rfl

@[simp] theorem ScanContext.behind_trivia (context : ScanContext) :
    context.behind .trivia = context := rfl

@[simp] theorem ScanContext.behind_comment (context : ScanContext) (comment : Comment) :
    context.behind (.comment comment) = (context.heed comment).1 := rfl

namespace Lexer

/-- Whether a lexer comes, lexeme by lexeme, to a place and to the context in force there. -/
inductive Reaches : ScanContext → Lexer → ScanContext → Lexer → Prop
  | here (context : ScanContext) (lexer : Lexer) : Reaches context lexer context lexer
  | later {context reached : ScanContext} {lexer after place : Lexer} {reading : Reading}
      (found : lexer.read context.language = some (reading, after)) :
      Reaches (context.behind reading) after reached place → Reaches context lexer reached place

/-- Whether a lexer reads a comment on the way through its text. -/
def Passes (context : ScanContext) (lexer : Lexer) (comment : Comment) : Prop :=
  ∃ reached place after, Reaches context lexer reached place ∧
    place.read reached.language = some (.comment comment, after)

variable {context reached : ScanContext} {lexer after place : Lexer} {reading : Reading}

theorem reaches_iff (found : lexer.read context.language = some (reading, after)) :
    Reaches context lexer reached place ↔
      (reached = context ∧ place = lexer) ∨
        Reaches (context.behind reading) after reached place := by
  constructor
  · intro way
    cases way with
    | here => exact Or.inl ⟨rfl, rfl⟩
    | later again rest =>
      cases again.symm.trans found
      exact Or.inr rest
  · rintro (⟨rfl, rfl⟩ | rest)
    · exact Reaches.here _ _
    · exact Reaches.later found rest

theorem reaches_of_ended (ended : lexer.cursor.ahead = [])
    (way : Reaches context lexer reached place) : reached = context ∧ place = lexer := by
  cases way with
  | here => exact ⟨rfl, rfl⟩
  | later found => cases ((read_none_iff _ _).mpr ended).symm.trans found

theorem reached_all_iff {holds : Lexer → Prop}
    (found : lexer.read context.language = some (reading, after)) :
    (∀ reached place, Reaches context lexer reached place → holds place) ↔
      holds lexer ∧
        ∀ reached place, Reaches (context.behind reading) after reached place → holds place := by
  constructor
  · intro every
    exact ⟨every _ _ (Reaches.here _ _), fun _ _ way => every _ _ (Reaches.later found way)⟩
  · rintro ⟨first, rest⟩ reached place way
    rcases (reaches_iff found).mp way with ⟨_, rfl⟩ | later
    · exact first
    · exact rest _ _ later

theorem passes_iff (found : lexer.read context.language = some (reading, after))
    (comment : Comment) :
    lexer.Passes context comment ↔
      reading = .comment comment ∨ after.Passes (context.behind reading) comment := by
  constructor
  · rintro ⟨reached, place, beyond, way, read⟩
    rcases (reaches_iff found).mp way with ⟨rfl, rfl⟩ | rest
    · cases found.symm.trans read
      exact Or.inl rfl
    · exact Or.inr ⟨reached, place, beyond, rest, read⟩
  · rintro (rfl | ⟨reached, place, beyond, rest, read⟩)
    · exact ⟨context, lexer, after, Reaches.here _ _, found⟩
    · exact ⟨reached, place, beyond, Reaches.later found rest, read⟩

-- What reading one lexeme preserves still holds at every place that is reached.
theorem reaches_invariant (holds : Lexer → Prop)
    (step : ∀ {language : Language} {lexer after : Lexer} {reading : Reading},
      lexer.read language = some (reading, after) → holds lexer → holds after)
    (way : Reaches context lexer reached place) (first : holds lexer) : holds place := by
  induction way with
  | here => exact first
  | later found _ ih => exact ih (step found first)

-- Every token of a run is read at a place on its way.
theorem mem_tokens_read {run : Run} (walk : Walk context lexer run) {token : Token}
    (member : token ∈ run.tokens) :
    ∃ reached place after, Reaches context lexer reached place ∧
      place.read reached.language = some (.token token, after) := by
  induction walk with
  | ended => cases member
  | token found _ ih =>
    rcases List.mem_cons.mp member with rfl | later
    · exact ⟨_, _, _, Reaches.here _ _, found⟩
    · obtain ⟨reached, place, after, way, read⟩ := ih later
      exact ⟨reached, place, after, Reaches.later found way, read⟩
  | trivia found _ ih | comment found _ ih =>
    obtain ⟨reached, place, after, way, read⟩ := ih member
    exact ⟨reached, place, after, Reaches.later found way, read⟩

-- A run collects every comment on its way, and nothing else counts as one.
theorem mem_comments_iff {run : Run} (walk : Walk context lexer run) (comment : Comment) :
    comment ∈ run.comments ↔ lexer.Passes context comment := by
  induction walk with
  | ended done =>
    constructor
    · intro member
      cases member
    · rintro ⟨reached, place, after, way, read⟩
      obtain ⟨rfl, rfl⟩ := reaches_of_ended done way
      cases ((read_none_iff _ _).mpr done).symm.trans read
  | token found _ ih => rw [passes_iff found]; simpa [Run.withToken] using ih
  | trivia found _ ih => rw [passes_iff found]; simpa using ih
  | comment found _ ih =>
    rw [passes_iff found, Run.withComment, List.mem_cons, ih, Reading.comment.injEq, eq_comm,
      ScanContext.behind_comment]

end Lexer
end Gherkin
