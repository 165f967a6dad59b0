import Gherkin.Proofs.Scan.Reach
import Gherkin.Proofs.Scan.TokenPlaces
import Gherkin.Proofs.Token.Payload
/-!
What the tokens of a scan carry. Whoever takes the tokens of a text can rely on their payloads:
each has the form that its kind has and that the mark at its place in the text calls for.
-/
namespace Gherkin.Lexer

theorem token_well_formed {language : Language} {lexer after : Lexer} {token : Token}
    (found : lexer.read language = some (.token token, after)) :
    ∃ mark, lexer.cursor.ahead.head? = some mark ∧ token.kind.WellFormed mark := by
  obtain ⟨lexeme, reads, isToken, _, _⟩ := read_token_inversion found
  exact Lexeme.well_formed_of_reads reads isToken

theorem drain_payloads (text : Text) (source : Option Text) (context : ScanContext) :
    let lexer := ofText text source
    ∀ token ∈ (lexer.drain context).tokens, ∃ index mark,
      token.StandsAt text lexer.cursor.source index ∧ text[index]? = some mark ∧
        token.kind.WellFormed mark := by
  intro lexer token member
  obtain ⟨reached, place, after, way, read⟩ := mem_tokens_read (walk_drain context lexer) member
  have placed : place.Placed :=
    reaches_invariant Placed (fun found placed => placed_read placed found) way
      (placed_of_text text source)
  have same : place.cursor.text = text :=
    reaches_invariant (·.cursor.text = text) (fun found same => (read_text found).trans same) way
      rfl
  have named : place.cursor.source = lexer.cursor.source :=
    reaches_invariant (·.cursor.source = lexer.cursor.source)
      (fun found same => (read_source found).trans same) way rfl
  obtain ⟨mark, ahead, formed⟩ := token_well_formed read
  have stands := token_stands placed read
  have here := text_at_consumed place.cursor
  rw [same] at stands here
  rw [named] at stands
  exact ⟨place.consumed, mark, stands, here.trans ahead, formed⟩

theorem drain_payloads_doc_string :
    let text := Text.ofString "Given x\n\"\"\" json \n  a\n\n\"\"\"\n"
    let lexer := ofText text
    let token : Token := ⟨{ line := 2, column := 1, source := none },
      .docString ⟨Text.ofString " json \n  a\n\n", Text.ofString "a",
        some (Text.ofString "json")⟩⟩
    token ∈ (lexer.drain .standard).tokens ∧ ∃ index mark,
      token.StandsAt text lexer.cursor.source index ∧ text[index]? = some mark ∧
        token.kind.WellFormed mark := by
  intro text lexer token
  have member : token ∈ (lexer.drain .standard).tokens := by decide +kernel
  exact ⟨member, drain_payloads text none .standard token member⟩

end Gherkin.Lexer
